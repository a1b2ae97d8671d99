import Mathlib.Data.List.Find
import Mathlib.Logic.Relation
import DosKernel.Vfs.Resolve

namespace DosKernel.Vfs

open DosKernel.Lib Relation Option

variable {ψ : Type} {drv : Drivers ψ} {c : Caller} {s t u : State ψ} {d e p i : ℕ} {name : Name}

structure Bounded (s : State ψ) : Prop where
  root : s.root < s.dentries.next
  child : ∀ {d dn e}, s.dentries.get d = some dn → e ∈ dn.children → e < s.dentries.next
  bound : ∀ {d dn e}, s.dentries.get d = some dn → dn.bound = some e → e < s.dentries.next
  parent : ∀ {d dn e}, s.dentries.get d = some dn → dn.parent = some e → e < s.dentries.next
  inode : ∀ {d dn i}, s.dentries.get d = some dn → dn.inode = some i → i < s.inodes.next
  file : ∀ {f file}, s.files.get f = some file →
    file.dentry < s.dentries.next ∧ file.inode < s.inodes.next

def Dentry.withNew (l : List DentryId) (dn : Dentry) : Dentry :=
  { dn with children := l ++ dn.children }

@[simp] theorem Dentry.map_withNew_nil (o : Option Dentry) : o.map (Dentry.withNew []) = o :=
  map_id'

theorem get_attachChild_new (hp : p ≠ s.dentries.next) (name : Name) (i : InodeId) :
    (s.attachChild p name i).dentries.get s.dentries.next =
      some { name := name.take nameMax, inode := some i, parent := some p } := by
  simp [State.attachChild, Heap.get_modify_of_ne hp.symm]

theorem get_attachChild_old (hd : d ≠ s.dentries.next) :
    (s.attachChild p name i).dentries.get d =
      (s.dentries.get d).map (Dentry.withNew (if d = p then [s.dentries.next] else [])) := by
  by_cases hdp : d = p
  · subst hdp
    simp only [State.attachChild, Heap.get_modify_self, Heap.get_alloc_of_ne hd, if_true]
    rfl
  · simp [State.attachChild, Heap.get_modify_of_ne hdp, Heap.get_alloc_of_ne hd, hdp]

theorem children_attachChild (hd : d ≠ s.dentries.next) (hp : p < s.dentries.next)
    (hlive : (s.dentries.get p).isSome) :
    (s.attachChild p name i).children d =
      if d = p then s.dentries.next :: s.children d else s.children d := by
  obtain ⟨pd, hpd⟩ := isSome_iff_exists.mp hlive
  simp only [State.children, get_attachChild_old hd]
  by_cases hdp : d = p
  · subst hdp
    simp [hpd, Dentry.withNew]
  · cases s.dentries.get d <;> simp [hdp, Dentry.withNew]

def FillStep (drv : Drivers ψ) (s t : State ψ) : Prop :=
  ∃ p name node, s.findChild p name = none ∧ s.lookupNode drv p name = some node ∧
    t = s.attachNode p name node

abbrev Fills (drv : Drivers ψ) : State ψ → State ψ → Prop := ReflTransGen (FillStep drv)

theorem lookupNode_eq_some {node : Driver × Node} (h : s.lookupNode drv p name = some node) :
    ∃ pd ino look, s.dentries.get p = some pd ∧ s.inodeOf p = some ino ∧
      name.length ≤ nameMax ∧ (dirOps drv ino).bind (·.lookup) = some look ∧
      (look s.vol ino name).map (fun x => (ino.driver, x)) = some node := by
  unfold State.lookupNode at h
  cases hino : s.inodeOf p with
  | none => simp [hino] at h
  | some ino =>
    cases hops : dirOps drv ino with
    | none => simp [hino, hops] at h
    | some ops =>
      cases hlook : ops.lookup with
      | none => simp [hino, hops, hlook] at h
      | some look =>
        simp only [hino, hops, hlook, Option.bind_eq_bind, Option.bind_some] at h
        split at h
        · cases h
        · obtain ⟨pd, hpd⟩ : ∃ pd, s.dentries.get p = some pd := by
            cases hpd : s.dentries.get p with
            | none => simp [State.inodeOf, hpd] at hino
            | some pd => exact ⟨pd, rfl⟩
          exact ⟨pd, ino, look, hpd, rfl, by omega, by simp [hops, hlook], h⟩

structure Extends (s t : State ψ) : Prop where
  binds : t.binds = s.binds
  ns : t.ns = s.ns
  bindSeq : t.bindSeq = s.bindSeq
  root : t.root = s.root
  le : s.dentries.next ≤ t.dentries.next
  inodes_le : s.inodes.next ≤ t.inodes.next
  inode : ∀ {i}, i < s.inodes.next → t.inodes.get i = s.inodes.get i
  dentry : ∀ {d}, d < s.dentries.next →
    ∃ l, t.dentries.get d = (s.dentries.get d).map (Dentry.withNew l)
  fresh : ∀ {d dn}, s.dentries.next ≤ d → t.dentries.get d = some dn →
    dn.bound = none ∧ dn.ro = false

theorem Extends.refl (s : State ψ) : Extends s s where
  binds := rfl
  ns := rfl
  bindSeq := rfl
  root := rfl
  le := le_rfl
  inodes_le := le_rfl
  inode _ := rfl
  dentry _ := ⟨[], by simp⟩
  fresh hd hget := by simp [s.dentries.fresh _ hd] at hget

theorem Extends.trans (h : Extends s t) (h' : Extends t u) : Extends s u where
  binds := h'.binds.trans h.binds
  ns := h'.ns.trans h.ns
  bindSeq := h'.bindSeq.trans h.bindSeq
  root := h'.root.trans h.root
  le := h.le.trans h'.le
  inodes_le := h.inodes_le.trans h'.inodes_le
  inode hi := (h'.inode (hi.trans_le h.inodes_le)).trans (h.inode hi)
  dentry hd := by
    obtain ⟨l, hl⟩ := h.dentry hd
    obtain ⟨l', hl'⟩ := h'.dentry (hd.trans_le h.le)
    refine ⟨l' ++ l, ?_⟩
    rw [hl', hl, Option.map_map]
    congr 1
    funext dn
    simp [Dentry.withNew]
  fresh {d dn} hd hget := by
    by_cases hdt : t.dentries.next ≤ d
    · exact h'.fresh hdt hget
    · obtain ⟨l, hl⟩ := h'.dentry (Nat.lt_of_not_le hdt)
      rw [hl] at hget
      obtain ⟨dn', hdn', rfl⟩ := map_eq_some_iff.mp hget
      exact (h.fresh hd hdn' : dn'.bound = none ∧ dn'.ro = false)

theorem FillStep.extends (h : FillStep drv s t) : Extends s t := by
  obtain ⟨p, name, node, -, hnode, rfl⟩ := h
  obtain ⟨pd, -, -, hpd, -⟩ := lookupNode_eq_some hnode
  have hp := Heap.lt_next hpd
  refine ⟨rfl, rfl, rfl, rfl, Nat.le_succ _, Nat.le_succ _, ?_, ?_, ?_⟩
  · intro i hi
    exact Heap.get_alloc_of_ne hi.ne
  · intro d hd
    exact ⟨_, get_attachChild_old (s := s.newInode node.1 node.2) hd.ne⟩
  · intro d dn hd hget
    have hdn : d = s.dentries.next := by
      have := Heap.lt_next hget
      exact Nat.le_antisymm (Nat.lt_succ_iff.mp this) hd
    subst hdn
    have hnew := get_attachChild_new (s := s.newInode node.1 node.2) hp.ne name s.inodes.next
    cases hget.symm.trans hnew
    exact ⟨rfl, rfl⟩

theorem Fills.extends (h : Fills drv s t) : Extends s t := by
  induction h with
  | refl => exact Extends.refl _
  | tail _ hstep ih => exact ih.trans hstep.extends

theorem Extends.boundFor (h : Extends s t) (m : ℕ) (hd : d < s.dentries.next) :
    t.boundFor m d = s.boundFor m d := by
  obtain ⟨l, hl⟩ := h.dentry hd
  cases hget : s.dentries.get d <;> simp [State.boundFor, hl, hget, Dentry.withNew, h.ns]

open Fills

theorem Bounded.newInode (hb : Bounded s) (driver : Driver) (node : Node) :
    Bounded (s.newInode driver node) where
  root := hb.root
  child := hb.child
  bound := hb.bound
  parent := hb.parent
  inode hget hi := Nat.lt_succ_of_lt (hb.inode hget hi)
  file hget := ⟨(hb.file hget).1, Nat.lt_succ_of_lt (hb.file hget).2⟩

structure Dentry.Below (dn : Dentry) (n k : ℕ) : Prop where
  child : ∀ {e}, e ∈ dn.children → e < n
  bound : ∀ {e}, dn.bound = some e → e < n
  parent : ∀ {e}, dn.parent = some e → e < n
  inode : ∀ {i}, dn.inode = some i → i < k

theorem Bounded.below (hb : Bounded s) {dn : Dentry} (hget : s.dentries.get d = some dn) {n : ℕ}
    (hn : s.dentries.next ≤ n) : dn.Below n s.inodes.next :=
  ⟨fun he => (hb.child hget he).trans_le hn, fun he => (hb.bound hget he).trans_le hn,
    fun he => (hb.parent hget he).trans_le hn, hb.inode hget⟩

theorem Bounded.withDentries (hb : Bounded s) {h : Heap Dentry} (hnext : s.dentries.next ≤ h.next)
    (hget : ∀ {d dn}, h.get d = some dn → dn.Below h.next s.inodes.next) :
    Bounded { s with dentries := h } where
  root := hb.root.trans_le hnext
  child hd := (hget hd).child
  bound hd := (hget hd).bound
  parent hd := (hget hd).parent
  inode hd := (hget hd).inode
  file hf := ⟨(hb.file hf).1.trans_le hnext, (hb.file hf).2⟩

theorem Bounded.modDentry (hb : Bounded s) {f : Dentry → Dentry}
    (hf : ∀ {dn}, dn.Below s.dentries.next s.inodes.next →
      (f dn).Below s.dentries.next s.inodes.next) :
    Bounded (s.modDentry d f) := by
  refine hb.withDentries le_rfl fun {e dn} hget => ?_
  obtain ⟨dn', -, hdn', rfl⟩ | ⟨-, hget⟩ := Heap.get_modify_cases hget
  · exact hf (hb.below hdn' le_rfl)
  · exact hb.below hget le_rfl

theorem Bounded.attachChild (hb : Bounded s) (hp : p < s.dentries.next) (name : Name)
    (hi : i < s.inodes.next) : Bounded (s.attachChild p name i) := by
  let dn : Dentry := { name := name.take nameMax, inode := some i, parent := some p }
  have hnew : Bounded { s with dentries := s.dentries.alloc dn } := by
    refine hb.withDentries (Nat.le_succ _) fun {d dn} hget => ?_
    rw [Heap.get_alloc] at hget
    split at hget
    · cases hget
      refine ⟨by simp [dn], by simp [dn], fun he => ?_, fun hj => ?_⟩
      · exact some.inj he ▸ Nat.lt_succ_of_lt hp
      · exact some.inj hj ▸ hi
    · exact hb.below hget (Nat.le_succ _)
  refine hnew.modDentry fun h => ⟨fun he => ?_, h.bound, h.parent, h.inode⟩
  rcases List.mem_cons.mp he with rfl | he
  · exact Nat.lt_succ_self _
  · exact h.child he

theorem FillStep.bounded (h : FillStep drv s t) (hb : Bounded s) : Bounded t := by
  obtain ⟨p, name, node, -, hnode, rfl⟩ := h
  obtain ⟨pd, -, -, hpd, -⟩ := lookupNode_eq_some hnode
  exact (hb.newInode _ _).attachChild (Heap.lt_next hpd) name (Nat.lt_succ_self _)

theorem Fills.bounded (h : Fills drv s t) (hb : Bounded s) : Bounded t := by
  induction h with
  | refl => exact hb
  | tail _ hstep ih => exact hstep.bounded ih

variable (drv) in
theorem lookupChild_fills (s : State ψ) (p : DentryId) (name : Name) :
    Fills drv s (lookupChild drv s p name).2 := by
  unfold lookupChild
  cases hfind : s.findChild p name with
  | some d => exact .refl
  | none =>
    cases hnode : s.lookupNode drv p name with
    | none => exact .refl
    | some node => exact .single ⟨p, name, node, hfind, hnode, rfl⟩

def walkOn (drv : Drivers ψ) (c : Caller) (d : DentryId) (ro crossed : Bool) (rest : List Name)
    (r : Option DentryId) (s : State ψ) : Walk × State ψ :=
  match r with
  | none => ({ parent := if rest.isEmpty then some d else none, ro, crossed }, s)
  | some x =>
    let e := s.followBind c.mntns 8 x
    let ro := ro || s.passesRo c.mntns 8 x
    let crossed := crossed || (s.boundFor c.mntns x).isSome
    if rest.isEmpty then ({ parent := some d, target := some e, ro, crossed }, s)
    else if s.isDir e then walk drv c s e ro crossed rest
    else ({ ro, crossed }, s)

theorem walk_cons {ro crossed : Bool} {rest : List Name}
    (hname : ¬(name = [] ∨ nameMax < name.length)) (s : State ψ) :
    walk drv c s d ro crossed (name :: rest) =
      walkOn drv c d ro crossed rest (lookupChild drv s d name).1 (lookupChild drv s d name).2 := by
  rw [walk, if_neg hname]
  rfl

variable (drv c) in
theorem walk_fills (s : State ψ) (d : DentryId) (ro crossed : Bool) (names : List Name) :
    Fills drv s (walk drv c s d ro crossed names).2 := by
  induction names generalizing s d ro crossed with
  | nil => exact .refl
  | cons name rest ih =>
    by_cases hname : name = [] ∨ nameMax < name.length
    · rw [walk, if_pos hname]
    rw [walk_cons hname]
    refine (lookupChild_fills drv s d name).trans ?_
    unfold walkOn
    cases (lookupChild drv s d name).1 with
    | none => exact .refl
    | some x =>
      dsimp only
      split_ifs
      · exact .refl
      · exact ih ..
      · exact .refl

def expandOn (drv : Drivers ψ) (followLast : Bool) (done : List Name) (name : Name)
    (rest : List Name) (r : Option DentryId) (s : State ψ) : Pass × State ψ :=
  match r with
  | none => (.clean, s)
  | some x =>
    if s.isLink x && (!rest.isEmpty || followLast) then
      match s.linkTarget drv x with
      | none => (.refused, s)
      | some t => (spliceLink done rest t, s)
    else if s.isDir x then expandPass drv followLast s x (done ++ [name]) rest
    else (.clean, s)

theorem expandPass_cons {followLast : Bool} {done rest : List Name}
    (hlast : ¬(name = [] ∧ rest = [])) (s : State ψ) :
    expandPass drv followLast s d done (name :: rest) =
      expandOn drv followLast done name rest (lookupChild drv s d name).1
        (lookupChild drv s d name).2 := by
  rw [expandPass.eq_3 _ _ _ _ _ _ _ fun h h' => hlast ⟨h, h'⟩]
  rfl

variable (drv) in
theorem expandPass_fills (followLast : Bool) (s : State ψ) (d : DentryId) (done names : List Name) :
    Fills drv s (expandPass drv followLast s d done names).2 := by
  induction names generalizing s d done with
  | nil => exact .refl
  | cons name rest ih =>
    by_cases hlast : name = [] ∧ rest = []
    · rw [hlast.1, hlast.2]
      exact .refl
    rw [expandPass_cons hlast]
    refine (lookupChild_fills drv s d name).trans ?_
    unfold expandOn
    cases (lookupChild drv s d name).1 with
    | none => exact .refl
    | some x =>
      dsimp only
      split_ifs
      · split <;> exact .refl
      · exact ih ..
      · exact .refl

def hopOn (drv : Drivers ψ) (c : Caller) (followLast : Bool) (k : ℕ) (path : Path) (r : Pass)
    (s : State ψ) : Option Path × State ψ :=
  match r with
  | .clean => (some path, s)
  | .refused => (none, s)
  | .splice b =>
    match s.canon c b pathCap with
    | none => (none, s)
    | some a => if pathCap < a.length + 1 then (none, s) else expandHops drv c followLast k s a

theorem expandHops_succ {followLast : Bool} {k : ℕ} {path : Path} (s : State ψ) :
    expandHops drv c followLast (k + 1) s path = hopOn drv c followLast k path
      (expandPass drv followLast s (s.base c) [] (components path.tail)).1
      (expandPass drv followLast s (s.base c) [] (components path.tail)).2 := by
  rw [expandHops]
  rcases expandPass drv followLast s (s.base c) [] (components path.tail) with ⟨_ | _ | _, _⟩
    <;> rfl

variable (drv c) in
theorem expandHops_fills (followLast : Bool) (k : ℕ) (s : State ψ) (path : Path) :
    Fills drv s (expandHops drv c followLast k s path).2 := by
  induction k generalizing s path with
  | zero => exact .refl
  | succ k ih =>
    rw [expandHops_succ]
    refine (expandPass_fills drv followLast s (s.base c) [] (components path.tail)).trans ?_
    unfold hopOn
    cases (expandPass drv followLast s (s.base c) [] (components path.tail)).1 with
    | clean | refused => exact .refl
    | splice b =>
      dsimp only
      split
      · exact .refl
      · split
        · exact .refl
        · exact ih ..

structure Grounded (c : Caller) (s : State ψ) : Prop where
  bounded : Bounded s
  base : s.base c < s.dentries.next

theorem Fills.grounded (h : Fills drv s t) (hg : Grounded c s) : Grounded c t where
  bounded := bounded h hg.bounded
  base := by
    rw [State.base, (Fills.extends h).root]
    exact hg.base.trans_le (Fills.extends h).le

theorem resolveCore_eq (followLast : Bool) (path : Path) (s : State ψ) :
    resolveCore drv c followLast s path = (canonExpand drv c followLast s path).1.elim
      ({}, (canonExpand drv c followLast s path).2)
      (walkPath drv c (canonExpand drv c followLast s path).2) := by
  rw [resolveCore]
  rcases canonExpand drv c followLast s path with ⟨_ | _, _⟩ <;> rfl

section Paths

variable (drv c s)

theorem canonExpand_fills (followLast : Bool) (path : Path) :
    Fills drv s (canonExpand drv c followLast s path).2 := by
  unfold canonExpand expandLinks
  repeat' split
  all_goals first | exact .refl | exact expandHops_fills ..

theorem walkPath_fills (path : Path) : Fills drv s (walkPath drv c s path).2 := by
  unfold walkPath
  split
  · exact .refl
  · exact walk_fills ..

theorem resolveCore_fills (followLast : Bool) (path : Path) :
    Fills drv s (resolveCore drv c followLast s path).2 := by
  rw [resolveCore_eq]
  refine (canonExpand_fills drv c s followLast path).trans ?_
  cases (canonExpand drv c followLast s path).1 with
  | none => exact .refl
  | some p => exact walkPath_fills ..

theorem resolvePathEx_fills (followLast : Bool) (path : Path) :
    Fills drv s (resolvePathEx drv c followLast s path).2 := by
  have hce := canonExpand_fills drv c s followLast path
  unfold resolvePathEx
  split
  next heq => rwa [heq] at hce
  next heq =>
    rw [heq] at hce
    split
    · exact hce.trans (walkPath_fills ..)
    · exact hce.trans (resolveCore_fills ..)

theorem resolvePath_fills (path : Path) : Fills drv s (resolvePath drv c s path).2 :=
  resolveCore_fills drv c s true path

theorem roPath_fills (path : Path) : Fills drv s (roPath drv c s path).2 :=
  resolvePathEx_fills drv c s false path

theorem resolveDir_fills (path : Path) : Fills drv s (resolveDir drv c s path).2 :=
  resolvePath_fills drv c s path

end Paths

theorem resolveDir_eq_some {path : Path} {s1 : State ψ} {dir : Inode}
    (h : resolveDir drv c s path = (some (p, dir), s1)) :
    s1.inodeOf p = some dir ∧ dir.kind = .dir := by
  unfold resolveDir at h
  rcases hr : resolvePath drv c s path with ⟨_ | q, s2⟩
  · simp [hr] at h
  · simp only [hr, bind_eq_bind, bind_some] at h
    cases hino : s2.inodeOf q with
    | none => simp [hino] at h
    | some ino =>
      simp only [hino, bind_some] at h
      split at h
      next hkind =>
        cases h
        exact ⟨hino, hkind⟩
      · cases h

end DosKernel.Vfs
