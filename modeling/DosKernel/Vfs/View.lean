import DosKernel.Vfs.Walks
import DosKernel.Lib.Run
import DosKernel.Vfs.File

namespace DosKernel.Vfs

open DosKernel.Lib Relation Option State

variable {ψ α β : Type} {drv : Drivers ψ} {c : Caller} {s t : State ψ} {d p m : ℕ}

def Dentry.bare (dn : Dentry) : Dentry := { dn with bound := none, boundNs := 0, boundSeq := 0 }

structure Alike (m : ℕ) (s t : State ψ) : Prop where
  inodes : t.inodes = s.inodes
  files : t.files = s.files
  root : t.root = s.root
  ns : t.ns = s.ns
  vol : t.vol = s.vol
  next : t.dentries.next = s.dentries.next
  bare : ∀ d, (t.dentries.get d).map Dentry.bare = (s.dentries.get d).map Dentry.bare
  bound : ∀ d, t.boundFor m d = s.boundFor m d

namespace Alike

variable (h : Alike m s t)
include h

theorem read {γ : Type} {f : Dentry → γ} (hf : ∀ dn, f dn.bare = f dn) (d : DentryId) :
    (t.dentries.get d).map f = (s.dentries.get d).map f := by
  have hbare := congrArg (Option.map f) (h.bare d)
  have hcomp : f ∘ Dentry.bare = f := funext hf
  rwa [Option.map_map, Option.map_map, hcomp] at hbare

theorem inodeOf (d : DentryId) : t.inodeOf d = s.inodeOf d := by
  have hread := h.read (f := (·.inode)) (fun _ => rfl) d
  unfold State.inodeOf
  rw [h.inodes]
  cases ht : t.dentries.get d <;> cases hs : s.dentries.get d <;> simp_all

theorem isDir (d : DentryId) : t.isDir d = s.isDir d := by simp [State.isDir, h.inodeOf]

theorem isLink (d : DentryId) : t.isLink d = s.isLink d := by simp [State.isLink, h.inodeOf]

variable (drv) in
theorem linkTarget (d : DentryId) : t.linkTarget drv d = s.linkTarget drv d := by
  simp [State.linkTarget, h.inodeOf, h.vol]

theorem findChild (p : DentryId) (name : Name) : t.findChild p name = s.findChild p name := by
  have hchildren : t.children p = s.children p := by
    simp only [State.children, h.read (f := (·.children)) (fun _ => rfl)]
  have hname : t.hasName name = s.hasName name := by
    funext d
    have hread := h.read (f := fun dn => decide (dn.name = name)) (fun _ => rfl) d
    unfold hasName
    cases ht : t.dentries.get d <;> cases hs : s.dentries.get d <;> simp_all
  simp only [State.findChild, hchildren, hname]

variable (drv) in
theorem lookupNode (p : DentryId) (name : Name) :
    t.lookupNode drv p name = s.lookupNode drv p name := by
  simp only [State.lookupNode, h.inodeOf, h.vol]

theorem roFor (d : DentryId) : t.roFor m d = s.roFor m d := by
  have hread := h.read (f := fun dn => dn.ro && nsVisible s.ns m dn.roNs dn.roSeq) (fun _ => rfl) d
  unfold State.roFor
  rw [h.ns]
  cases ht : t.dentries.get d <;> cases hs : s.dentries.get d <;> simp_all

theorem followBind (k : ℕ) (d : DentryId) : t.followBind m k d = s.followBind m k d := by
  induction k generalizing d with
  | zero => rfl
  | succ k ih =>
    unfold State.followBind
    rw [h.bound]
    cases s.boundFor m d with
    | none => rfl
    | some e => exact ih e

theorem passesRo (k : ℕ) (d : DentryId) : t.passesRo m k d = s.passesRo m k d := by
  induction k generalizing d with
  | zero => exact h.roFor d
  | succ k ih =>
    unfold State.passesRo
    rw [h.bound, h.roFor, funext ih]

theorem pathFrom (top : DentryId) (k : ℕ) (d : DentryId) :
    t.pathFrom top k d = s.pathFrom top k d := by
  induction k generalizing d with
  | zero => unfold State.pathFrom; rfl
  | succ k ih =>
    have hread := h.read (f := fun dn => (dn.parent, dn.name)) (fun _ => rfl) d
    unfold State.pathFrom
    rw [h.root]
    cases ht : t.dentries.get d with
    | none =>
      cases hs : s.dentries.get d with
      | none => rfl
      | some dn => simp [ht, hs] at hread
    | some dn' =>
      cases hs : s.dentries.get d with
      | none => simp [ht, hs] at hread
      | some dn =>
        simp only [ht, hs, map_some, some.injEq, Prod.mk.injEq] at hread
        simp only [hread, ih]

theorem canon (c : Caller) (path : Path) (cap : ℕ) : t.canon c path cap = s.canon c path cap := by
  have hpath : ∀ d, t.dentryPath c d = s.dentryPath c d := fun d => by
    simp only [State.dentryPath, State.base, h.root, h.pathFrom]
  simp only [State.canon, State.fdMagic, State.fdFile, hpath, h.files, h.inodes]

theorem attachNode (hp : (s.dentries.get p).isSome) (name : Name) (node : Driver × Node) :
    Alike m (s.attachNode p name node) (t.attachNode p name node) := by
  obtain ⟨pd, hpd⟩ := isSome_iff_exists.mp hp
  have hps := (Heap.lt_next hpd).ne
  have hpt : p ≠ t.dentries.next := h.next ▸ hps
  -- the new dentry is the same on both sides and carries no bind
  have hnew : ∀ {u : State ψ}, p ≠ u.dentries.next →
      (u.attachNode p name node).dentries.get u.dentries.next =
        some { name := name.take nameMax, inode := some u.inodes.next, parent := some p } :=
    fun {u} hu => get_attachChild_new (s := u.newInode node.1 node.2) hu name u.inodes.next
  have hold : ∀ {u : State ψ} {d}, d ≠ u.dentries.next →
      (u.attachNode p name node).dentries.get d =
        (u.dentries.get d).map (Dentry.withNew (if d = p then [u.dentries.next] else [])) :=
    fun {u d} hd => get_attachChild_old (s := u.newInode node.1 node.2) hd
  have hdentry : ∀ d l, ((t.dentries.get d).map (Dentry.withNew l)).map Dentry.bare =
      ((s.dentries.get d).map (Dentry.withNew l)).map Dentry.bare := by
    intro d l
    have := congrArg (Option.map (Dentry.withNew l)) (h.bare d)
    simpa only [Option.map_map, Function.comp_def, Dentry.bare, Dentry.withNew] using this
  refine ⟨?_, h.files, h.root, h.ns, h.vol, ?_, fun d => ?_, fun d => ?_⟩
  · simp only [State.attachNode, State.attachChild, State.newInode, h.inodes]
  · exact congrArg (· + 1) h.next
  · by_cases hd : d = s.dentries.next
    · rw [hd, hnew hps, ← h.next, hnew hpt, h.inodes]
    · rw [hold hd, hold (h.next ▸ hd), hdentry, h.next]
  · by_cases hd : d = s.dentries.next
    · unfold boundFor
      rw [hd, hnew hps, ← h.next, hnew hpt]
      simp
    · have hbound := h.bound d
      unfold boundFor at hbound ⊢
      rw [hold hd, hold (h.next ▸ hd)]
      have hns : ∀ u : State ψ, (u.attachNode p name node).ns = u.ns := fun _ => rfl
      cases ht : t.dentries.get d <;> cases hs : s.dentries.get d <;>
        simp_all [Dentry.withNew]

end Alike

structure Parallel (m : ℕ) (f : State ψ → α × State ψ) (s t : State ψ) : Prop where
  value : (f t).1 = (f s).1
  alike : Alike m (f s).2 (f t).2

section Parallel

variable {f g : State ψ → α × State ψ}

theorem Parallel.of_eq (h : Alike m s t) {v : α} (hs : f s = (v, s)) (ht : f t = (v, t)) :
    Parallel m f s t :=
  ⟨by rw [hs, ht], by rwa [hs, ht]⟩

theorem Parallel.congr (hg : Parallel m g s t) (hs : f s = g s) (ht : f t = g t) :
    Parallel m f s t :=
  ⟨by rw [hs, ht, hg.value], by rw [hs, ht]; exact hg.alike⟩

theorem Parallel.bind {g : α → State ψ → β × State ψ} (hf : Parallel m f s t)
    (hg : Alike m (f s).2 (f t).2 → Parallel m (g (f s).1) (f s).2 (f t).2) :
    Parallel m (fun s => g (f s).1 (f s).2) s t := by
  have h := hg hf.alike
  refine ⟨?_, ?_⟩
  · simp only [hf.value, h.value]
  · simp only [hf.value]
    exact h.alike

end Parallel

variable (drv) in
theorem lookupChild_parallel (h : Alike m s t) (p : DentryId) (name : Name) :
    Parallel m (fun s => lookupChild drv s p name) s t := by
  cases hfind : s.findChild p name with
  | some x =>
    have ht := (h.findChild p name).trans hfind
    exact ⟨by simp [lookupChild, hfind, ht], by simpa [lookupChild, hfind, ht] using h⟩
  | none =>
    have ht := (h.findChild p name).trans hfind
    cases hnode : s.lookupNode drv p name with
    | none =>
      have ht' := (h.lookupNode drv p name).trans hnode
      exact ⟨by simp [lookupChild, hfind, ht, hnode, ht'],
        by simpa [lookupChild, hfind, ht, hnode, ht'] using h⟩
    | some node =>
      have ht' := (h.lookupNode drv p name).trans hnode
      obtain ⟨pd, -, -, hpd, -⟩ := lookupNode_eq_some hnode
      exact ⟨by simp [lookupChild, hfind, ht, hnode, ht', h.next],
        by simpa [lookupChild, hfind, ht, hnode, ht'] using h.attachNode (by simp [hpd]) name node⟩

variable (drv) in
theorem walk_parallel (h : Alike c.mntns s t) (d : DentryId) (ro crossed : Bool)
    (names : List Name) :
    Parallel c.mntns (fun s => walk drv c s d ro crossed names) s t := by
  induction names generalizing s t d ro crossed with
  | nil => exact .of_eq h rfl rfl
  | cons name rest ih =>
    by_cases hname : name = [] ∨ nameMax < name.length
    · exact .of_eq h (by rw [walk, if_pos hname]) (by rw [walk, if_pos hname])
    simp only [walk_cons hname]
    refine (lookupChild_parallel drv h d name).bind (g := walkOn drv c d ro crossed rest)
      fun hal => ?_
    generalize (lookupChild drv s d name).2 = s1, (lookupChild drv t d name).2 = t1 at hal
    cases (lookupChild drv s d name).1 with
    | none => exact .of_eq hal rfl rfl
    | some x =>
      unfold walkOn
      have h1 := hal.followBind 8 x
      have h2 := hal.passesRo 8 x
      have h3 := hal.bound x
      have h4 := hal.isDir (s1.followBind c.mntns 8 x)
      by_cases hon : rest.isEmpty = false ∧ s1.isDir (s1.followBind c.mntns 8 x) = true
      · refine (ih hal (s1.followBind c.mntns 8 x) (ro || s1.passesRo c.mntns 8 x)
          (crossed || (s1.boundFor c.mntns x).isSome)).congr ?_ ?_
        · simp [hon]
        · simp [h1, h2, h3, h4, hon]
      · cases hrest : rest.isEmpty with
        | true => exact .of_eq hal rfl (by simp only [h1, h2, h3, if_true])
        | false =>
          simp only [hrest, true_and] at hon
          exact .of_eq hal (by simp [hon]; rfl) (by simp [h1, h2, h3, h4, hon])

variable (drv) in
theorem expandPass_parallel (h : Alike m s t) (followLast : Bool) (d : DentryId)
    (done names : List Name) :
    Parallel m (fun s => expandPass drv followLast s d done names) s t := by
  induction names generalizing s t d done with
  | nil => exact .of_eq h rfl rfl
  | cons name rest ih =>
    by_cases hlast : name = [] ∧ rest = []
    · obtain ⟨rfl, rfl⟩ := hlast
      exact .of_eq h rfl rfl
    simp only [expandPass_cons hlast]
    refine (lookupChild_parallel drv h d name).bind
      (g := expandOn drv followLast done name rest) fun hal => ?_
    generalize (lookupChild drv s d name).2 = s1, (lookupChild drv t d name).2 = t1 at hal
    cases (lookupChild drv s d name).1 with
    | none => exact .of_eq hal rfl rfl
    | some x =>
      unfold expandOn
      have h1 := hal.isLink x
      have h2 := hal.linkTarget drv x
      have h3 := hal.isDir x
      cases hlink : s1.isLink x && (!rest.isEmpty || followLast) with
      | true =>
        cases htarget : s1.linkTarget drv x <;>
          exact .of_eq hal (by simp only [hlink, htarget, if_true]; rfl)
            (by simp only [h1, h2, hlink, htarget, if_true])
      | false =>
        cases hdir : s1.isDir x with
        | true =>
          refine (ih hal x (done ++ [name])).congr ?_ ?_ <;>
            simp only [h1, h3, hlink, hdir, Bool.false_eq_true, if_true, if_false]
        | false =>
          exact .of_eq hal (by simp only [hlink, hdir, Bool.false_eq_true, if_false]; rfl)
            (by simp only [h1, h3, hlink, hdir, Bool.false_eq_true, if_false])

variable (drv) in
theorem expandHops_parallel (h : Alike m s t) (followLast : Bool) (k : ℕ) (path : Path) :
    Parallel m (fun s => expandHops drv c followLast k s path) s t := by
  induction k generalizing s t path with
  | zero => exact .of_eq h rfl rfl
  | succ k ih =>
    have hbase : t.base c = s.base c := by simp [base, h.root]
    have hpass := expandPass_parallel drv h followLast (s.base c) [] (components path.tail)
    refine (hpass.bind (g := hopOn drv c followLast k path) fun hal => ?_).congr
      (expandHops_succ s) (by rw [expandHops_succ, hbase])
    generalize (expandPass drv followLast s (s.base c) [] (components path.tail)).2 = s1,
      (expandPass drv followLast t (s.base c) [] (components path.tail)).2 = t1 at hal
    cases (expandPass drv followLast s (s.base c) [] (components path.tail)).1 with
    | clean | refused => exact .of_eq hal rfl rfl
    | splice b =>
      unfold hopOn
      have hcanon := hal.canon c b pathCap
      cases hb : s1.canon c b pathCap with
      | none => exact .of_eq hal (by simp only [hb]; rfl) (by simp only [hcanon, hb])
      | some a =>
        by_cases hlen : pathCap < a.length + 1
        · exact .of_eq hal (by simp only [hb, if_pos hlen]; rfl)
            (by simp only [hcanon, hb, if_pos hlen])
        · exact (ih hal a).congr (by simp only [hb, if_neg hlen])
            (by simp only [hcanon, hb, if_neg hlen])

variable (drv) in
theorem canonExpand_parallel (h : Alike m s t) (followLast : Bool) (path : Path) :
    Parallel m (fun s => canonExpand drv c followLast s path) s t := by
  have hcanon := h.canon c path pathCap
  by_cases hpath : path = []
  · exact .of_eq h (by simp only [canonExpand, if_pos hpath]; rfl)
      (by simp only [canonExpand, if_pos hpath])
  cases hc : s.canon c path pathCap with
  | none =>
    exact .of_eq h (by simp only [canonExpand, if_neg hpath, hc]; rfl)
      (by simp only [canonExpand, if_neg hpath, hcanon, hc])
  | some p =>
    by_cases hp : isAbsolute p = true ∧ ¬pathCap < p.length + 1
    · refine (expandHops_parallel drv (c := c) h followLast 41 p).congr ?_ ?_ <;>
        simp [canonExpand, hpath, hcanon, hc, hp, expandLinks]
    · have hstop : ∀ {u : State ψ}, u.canon c path pathCap = some p →
          canonExpand drv c followLast u path = (none, u) := by
        intro u hu
        simp only [canonExpand, if_neg hpath, hu, expandLinks]
        cases habs : isAbsolute p with
        | false => rfl
        | true =>
          have hlen : pathCap < p.length + 1 := by simpa [habs] using hp
          simp [hlen]
      exact .of_eq h (hstop hc) (hstop (hcanon.trans hc))

theorem resolvePath_parallel (h : Alike c.mntns s t) (path : Path) :
    Parallel c.mntns (fun s => resolvePath drv c s path) s t := by
  simp only [resolvePath, resolveCore_eq]
  refine (((canonExpand_parallel drv (c := c) h true path).bind
    (g := fun r s => r.elim ({}, s) (walkPath drv c s)) fun hal => ?_).bind
      (g := fun w s => (w.target, s)) fun hal => .of_eq hal rfl rfl)
  cases (canonExpand drv c true s path).1 with
  | none => exact .of_eq hal rfl rfl
  | some p =>
    simp only [elim_some, walkPath, base]
    by_cases hp : p.tail = []
    · exact .of_eq hal (by rw [if_pos hp]) (by rw [if_pos hp, hal.root])
    · exact (walk_parallel drv hal _ false false (components p.tail)).congr (by rw [if_neg hp])
        (by rw [if_neg hp, hal.root])

variable {ns : List Mntns} {owner seq n k j : ℕ}

def ParentsOlder (ns : List Mntns) : Prop := ∀ n r, ns[n]? = some r → 0 < n → r.parent < n

theorem concat_cases {r q : Mntns} (h : (ns ++ [r])[n]? = some q) :
    ns[n]? = some q ∨ n = ns.length ∧ q = r := by
  rcases Nat.lt_trichotomy n ns.length with hn | hn | hn
  · rw [List.getElem?_append_left hn] at h
    exact .inl h
  · subst hn
    rw [List.getElem?_concat_length] at h
    exact .inr ⟨rfl, (Option.some.inj h).symm⟩
  · rw [List.getElem?_eq_none (by simp; omega)] at h
    cases h

theorem ParentsOlder.concat (hns : ParentsOlder ns) {r : Mntns} (hr : r.parent < ns.length) :
    ParentsOlder (ns ++ [r]) := by
  intro n q hq hn
  obtain hq | ⟨rfl, rfl⟩ := concat_cases hq
  · exact hns n q hq hn
  · exact hr

theorem inheritsFrom_fuel (hns : ParentsOlder ns) (hk : n ≤ k) (hj : n ≤ j) :
    inheritsFrom ns owner seq k n = inheritsFrom ns owner seq j n := by
  induction k generalizing n j with
  | zero =>
    obtain rfl : n = 0 := by omega
    cases j <;> simp [inheritsFrom]
  | succ k ih =>
    by_cases hn : n = 0
    · subst hn
      cases j <;> simp [inheritsFrom]
    · cases j with
      | zero => omega
      | succ j =>
        simp only [inheritsFrom, if_neg hn]
        cases hr : ns[n]? with
        | none => rfl
        | some r =>
          have := hns n r hr (by omega)
          simp only [ih (n := r.parent) (j := j) (by omega) (by omega)]

theorem inheritsFrom_append (hns : ParentsOlder ns) (r : Mntns) (hn : n < ns.length) (k : ℕ) :
    inheritsFrom (ns ++ [r]) owner seq k n = inheritsFrom ns owner seq k n := by
  induction k generalizing n with
  | zero => rfl
  | succ k ih =>
    by_cases h0 : n = 0
    · simp [inheritsFrom, h0]
    · simp only [inheritsFrom, if_neg h0, List.getElem?_append_left hn]
      have hget := List.getElem?_eq_getElem hn
      have := hns n ns[n] hget (by omega)
      simp only [hget, ih (n := ns[n].parent) (by omega)]

theorem inheritsFrom_late (hborn : ∀ (n : ℕ) r, ns[n]? = some r → r.born ≤ seq) :
    inheritsFrom ns owner seq k n = false := by
  induction k generalizing n with
  | zero => rfl
  | succ k ih =>
    unfold inheritsFrom
    split
    · rfl
    · cases hr : ns[n]? with
      | none => rfl
      | some r =>
        have := hborn n r hr
        simp only [ih, decide_eq_false (show ¬seq < r.born by omega), ite_self]

theorem nsVisible_new (hns : ParentsOlder ns) {r : Mntns} (hr : r.parent < ns.length)
    (howner : owner < ns.length) (hseq : owner = r.parent → seq < r.born) :
    nsVisible (ns ++ [r]) ns.length owner seq = nsVisible ns r.parent owner seq := by
  have hpos : ns.length ≠ 0 := by omega
  unfold nsVisible
  rw [List.length_append, List.length_singleton]
  simp only [inheritsFrom, if_neg hpos, List.getElem?_concat_length]
  rw [decide_eq_false howner.ne, Bool.false_or, inheritsFrom_append hns r hr]
  by_cases ho : r.parent = owner
  · rw [if_pos ho, decide_eq_true ho.symm, Bool.true_or]
    simpa using hseq ho.symm
  · rw [if_neg ho, decide_eq_false (Ne.symm ho), Bool.false_or]

theorem nsVisible_append (hns : ParentsOlder ns) (r : Mntns) (hn : n < ns.length) :
    nsVisible (ns ++ [r]) n owner seq = nsVisible ns n owner seq := by
  unfold nsVisible
  rw [inheritsFrom_append hns r hn, inheritsFrom_fuel hns (j := ns.length) (by simp; omega) hn.le]

variable (drv c s) in
theorem bindTarget_fills (path : Path) : Fills drv s (bindTarget drv c s path).2 := by
  unfold bindTarget
  cases s.splitParent c path with
  | none => exact .refl
  | some x =>
    have hr := resolveDir_fills drv c s x.1
    rcases hd : resolveDir drv c s x.1 with ⟨_ | ⟨p, dir⟩, s1⟩ <;> simp only [hd] at hr ⊢
    · exact hr
    · exact hr.trans (lookupChild_fills drv s1 p x.2)

variable (drv c s) in
theorem bindPaths_fills (src tgt : Path) : Fills drv s (bindPaths drv c s src tgt).2 :=
  (resolvePath_fills drv c s src).trans (bindTarget_fills ..)

theorem Extends.view (h : Extends s t) (m d : ℕ) : t.boundFor m d = s.boundFor m d := by
  by_cases hd : d < s.dentries.next
  · exact h.boundFor m hd
  · have hs : s.dentries.get d = none := s.dentries.fresh d (by omega)
    cases ht : t.dentries.get d with
    | none => simp [State.boundFor, hs, ht]
    | some dn => simp [State.boundFor, hs, ht, (h.fresh (by omega) ht).1]

theorem Bounded.installBind (hb : Bounded s) {source target : ℕ} (m : ℕ)
    (hsource : source < s.dentries.next) : Bounded (s.installBind m target source) := by
  refine Bounded.modDentry
    (s := { s with bindSeq := s.nextSeq, binds := s.binds ++ [(target, source)] })
    ⟨hb.root, hb.child, hb.bound, hb.parent, hb.inode, hb.file⟩
    fun h => ⟨h.child, fun he => ?_, h.parent, h.inode⟩
  cases he
  exact hsource

theorem Bounded.removeBind (hb : Bounded s) (target : ℕ) : Bounded (s.removeBind target) :=
  Bounded.modDentry (s := { s with binds := s.dropBind target })
    ⟨hb.root, hb.child, hb.bound, hb.parent, hb.inode, hb.file⟩
    fun h => ⟨h.child, (fun he => by cases he), h.parent, h.inode⟩

theorem Bounded.markReadonly (hb : Bounded s) (m target : ℕ) (ro : Bool) :
    Bounded (s.markReadonly m target ro) :=
  Bounded.modDentry (s := { s with bindSeq := s.nextSeq })
    ⟨hb.root, hb.child, hb.bound, hb.parent, hb.inode, hb.file⟩
    fun h => ⟨h.child, h.bound, h.parent, h.inode⟩

theorem Bounded.addNs (hb : Bounded s) (ns : List Mntns) : Bounded { s with ns } :=
  ⟨hb.root, hb.child, hb.bound, hb.parent, hb.inode, hb.file⟩

end DosKernel.Vfs
