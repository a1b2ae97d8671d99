import DosKernel.Vfs.Changes
import DosKernel.Vfs.Boot

namespace DosKernel.Vfs

open DosKernel.Lib List State

variable {ψ : Type} {s t : State ψ} {p d e x i : ℕ} {name nm : Name}

-- The cached tree: a child knows its parent, and a directory has one entry of a name.
structure Tree (s : State ψ) : Prop where
  child : ∀ {x e}, e ∈ s.children x → ∃ en, s.dentries.get e = some en ∧ en.parent = some x
  ne : ∀ {x e}, e ∈ s.children x → e ≠ x
  nodup : ∀ x, (s.children x).Nodup
  names : ∀ {x e e' nm}, e ∈ s.children x → e' ∈ s.children x → s.hasName nm e = true →
    s.hasName nm e' = true → e = e'

theorem children_of_get {dn : Dentry} (h : s.dentries.get x = some dn) :
    s.children x = dn.children := by
  simp [children, h]

theorem children_of_none (h : s.dentries.get x = none) : s.children x = [] := by
  simp [children, h]

theorem hasName_inj {nm' : Name} (h : s.hasName nm e = true) (h' : s.hasName nm' e = true) :
    nm = nm' := by
  unfold hasName at h h'
  cases hget : s.dentries.get e with
  | none => simp [hget] at h
  | some dn =>
    simp only [hget, Option.any_some, decide_eq_true_eq] at h h'
    exact h.symm.trans h'

section

variable (h : s.findChild x nm = some e)

include h

theorem mem_of_findChild : e ∈ s.children x :=
  mem_of_find?_eq_some h

theorem live_of_findChild : (s.dentries.get x).isSome := by
  cases hget : s.dentries.get x with
  | some dn => rfl
  | none => simpa [children_of_none hget] using mem_of_findChild h

theorem hasName_of_findChild : s.hasName nm e = true :=
  find?_some h

end

theorem findChild_eq_none : s.findChild x nm = none ↔ ∀ e ∈ s.children x, s.hasName nm e = false := by
  simp [findChild]

structure Placing (s t : State ψ) (p d : ℕ) (name : Name) : Prop where
  mem : ∀ {x e}, e ∈ t.children x ↔ x = p ∧ e = d ∨ e ∈ s.children x ∧ e ≠ d
  nodup : ∀ x, (t.children x).Nodup
  ne : d ≠ p
  self : ∃ dn, t.dentries.get d = some dn ∧ dn.parent = some p ∧ dn.name = name
  other : ∀ {e en}, e ≠ d → s.dentries.get e = some en →
    ∃ en', t.dentries.get e = some en' ∧ en'.parent = en.parent ∧ en'.name = en.name

namespace Tree

variable (ht : Tree s)
include ht

theorem parent_unique {y : ℕ} (hx : e ∈ s.children x) (hy : e ∈ s.children y) : x = y := by
  obtain ⟨en, hen, hpx⟩ := ht.child hx
  obtain ⟨en', hen', hpy⟩ := ht.child hy
  rw [hen] at hen'
  cases hen'
  exact Option.some.inj (hpx.symm.trans hpy)

theorem mem_child_iff (hd : d ∈ s.children p) : d ∈ s.children x ↔ x = p :=
  ⟨fun hx => ht.parent_unique hx hd, fun hx => hx ▸ hd⟩

theorem findChild_eq_some : s.findChild x nm = some e ↔ e ∈ s.children x ∧ s.hasName nm e = true := by
  constructor
  · intro h
    exact ⟨mem_of_findChild h, hasName_of_findChild h⟩
  · rintro ⟨hmem, hname⟩
    cases hfind : s.findChild x nm with
    | none => simp [findChild_eq_none.mp hfind e hmem] at hname
    | some e' => rw [ht.names hmem (mem_of_findChild hfind) hname (hasName_of_findChild hfind)]

theorem findLastChild_eq : s.findLastChild x nm = s.findChild x nm := by
  unfold findLastChild
  cases hfind : s.findChild x nm with
  | none =>
    have hnone := findChild_eq_none.mp hfind
    simpa using hnone
  | some e =>
    obtain ⟨hmem, hname⟩ := ht.findChild_eq_some.mp hfind
    cases hlast : (s.children x).reverse.find? (s.hasName nm) with
    | none =>
      have := find?_eq_none.mp hlast e (by simpa using hmem)
      simp [hname] at this
    | some e' =>
      have hmem' := mem_reverse.mp (mem_of_find?_eq_some hlast)
      rw [ht.names hmem hmem' hname (find?_some hlast)]

theorem removed (hd : d ∈ s.children p) {F : List ℕ} (hdF : d ∈ F)
    (hF : ∀ f ∈ F, f = d ∨ f ∈ s.children d)
    (hget : ∀ e, t.dentries.get e = if e ∈ F then none else
      (s.dentries.get e).map fun dn =>
        if e = p then { dn with children := dn.children.erase d } else dn) :
    Tree t ∧ ∀ x nm, t.findChild x nm =
      if x ∈ F then none else if x = p ∧ s.hasName nm d = true then none else s.findChild x nm := by
  have hchildren : ∀ x, x ∉ F → t.children x =
      if x = p then (s.children x).erase d else s.children x := by
    intro x hx
    simp only [children, hget x, if_neg hx, Option.map_map]
    cases s.dentries.get x <;> by_cases hxp : x = p <;> simp [hxp]
  have hgone : ∀ x, x ∈ F → t.children x = [] := fun x hx =>
    children_of_none ((hget x).trans (if_pos hx))
  have hsub : ∀ {x e}, e ∈ t.children x → x ∉ F ∧ e ∈ s.children x ∧ e ∉ F := by
    intro x e he
    have hx : x ∉ F := fun hx => by simp [hgone x hx] at he
    rw [hchildren x hx] at he
    have hmem : e ∈ s.children x := by
      split at he
      · exact mem_of_mem_erase he
      · exact he
    refine ⟨hx, hmem, fun heF => ?_⟩
    obtain rfl | hed := hF e heF
    · obtain rfl := ht.parent_unique hmem hd
      rw [if_pos rfl] at he
      exact (ht.nodup x).not_mem_erase he
    · exact hx (ht.parent_unique hmem hed ▸ hdF)
  have hname : ∀ {e nm}, e ∉ F → t.hasName nm e = s.hasName nm e := by
    intro e nm he
    simp only [hasName, hget e, if_neg he, Option.any_map]
    cases s.dentries.get e <;> by_cases hep : e = p <;> simp [hep]
  have htree : Tree t := by
    refine ⟨fun {x e} he => ?_, fun {x e} he => ht.ne (hsub he).2.1, fun x => ?_, ?_⟩
    · obtain ⟨-, hmem, heF⟩ := hsub he
      obtain ⟨en, hen, hpar⟩ := ht.child hmem
      refine ⟨_, by rw [hget e, if_neg heF, hen]; rfl, ?_⟩
      split <;> exact hpar
    · by_cases hx : x ∈ F
      · simp [hgone x hx]
      · rw [hchildren x hx]
        split
        · exact (ht.nodup x).erase d
        · exact ht.nodup x
    · intro x e e' nm he he' hn hn'
      rw [hname (hsub he).2.2] at hn
      rw [hname (hsub he').2.2] at hn'
      exact ht.names (hsub he).2.1 (hsub he').2.1 hn hn'
  refine ⟨htree, fun x nm => ?_⟩
  split
  · rw [findChild_eq_none, hgone x ‹_›]
    simp
  rename_i hx
  split
  next hpd =>
    rw [findChild_eq_none]
    intro e he
    obtain ⟨-, hmem, heF⟩ := hsub he
    by_contra hn
    rw [Bool.not_eq_false, hname heF] at hn
    exact heF (ht.names hmem (hpd.1 ▸ hd) hn hpd.2 ▸ hdF)
  next hpd =>
    ext e
    rw [htree.findChild_eq_some, ht.findChild_eq_some]
    constructor
    · rintro ⟨he, hn⟩
      exact ⟨(hsub he).2.1, hname (hsub he).2.2 ▸ hn⟩
    · rintro ⟨he, hn⟩
      have hed : e ≠ d := fun h => hpd ⟨ht.parent_unique (h ▸ he) hd, h ▸ hn⟩
      have heF : e ∉ F := fun heF => (hF e heF).elim hed fun h => hx (ht.parent_unique he h ▸ hdF)
      refine ⟨?_, hname heF ▸ hn⟩
      rw [hchildren x hx]
      split
      · exact (mem_erase_of_ne hed).mpr he
      · exact he

theorem placed (h : Placing s t p d name) (hfree : s.findChild p name = none) : Tree t ∧ ∀ x nm,
    t.findChild x nm = if x = p ∧ nm = name then some d
      else if d ∈ s.children x ∧ s.hasName nm d = true then none else s.findChild x nm := by
  have hself : ∀ nm, t.hasName nm d = true ↔ nm = name := by
    intro nm
    obtain ⟨dn, hdn, -, hname⟩ := h.self
    simp [hasName, hdn, hname, eq_comm]
  have hother : ∀ {x e nm}, e ∈ s.children x → e ≠ d → t.hasName nm e = s.hasName nm e := by
    intro x e nm he hed
    obtain ⟨en, hen, -⟩ := ht.child he
    obtain ⟨en', hen', -, hname⟩ := h.other hed hen
    simp [hasName, hen, hen', hname]
  have hfresh : ∀ {e nm}, e ∈ s.children p → s.hasName nm e = true → nm ≠ name := by
    intro e nm he hn hnm
    have := findChild_eq_none.mp hfree e he
    rw [← hnm, hn] at this
    cases this
  have htree : Tree t := by
    refine ⟨fun {x e} he => ?_, fun {x e} he => ?_, h.nodup, ?_⟩
    · obtain ⟨rfl, rfl⟩ | ⟨he, hed⟩ := h.mem.mp he
      · obtain ⟨dn, hdn, hpar, -⟩ := h.self
        exact ⟨dn, hdn, hpar⟩
      · obtain ⟨en, hen, hpar⟩ := ht.child he
        obtain ⟨en', hen', hpar', -⟩ := h.other hed hen
        exact ⟨en', hen', hpar'.trans hpar⟩
    · obtain ⟨rfl, rfl⟩ | ⟨he, -⟩ := h.mem.mp he
      · exact h.ne
      · exact ht.ne he
    · intro x e e' nm he he' hn hn'
      obtain ⟨rfl, rfl⟩ | ⟨he, hed⟩ := h.mem.mp he <;>
        obtain ⟨hxp, rfl⟩ | ⟨he', hed'⟩ := h.mem.mp he'
      · rfl
      · rw [hother he' hed'] at hn'
        exact absurd ((hself nm).mp hn) (hfresh he' hn')
      · rw [hother he hed] at hn
        exact absurd ((hself nm).mp hn') (hfresh (hxp ▸ he) hn)
      · rw [hother he hed] at hn
        rw [hother he' hed'] at hn'
        exact ht.names he he' hn hn'
  refine ⟨htree, fun x nm => ?_⟩
  split
  next hnew =>
    exact htree.findChild_eq_some.mpr ⟨h.mem.mpr (.inl ⟨hnew.1, rfl⟩), (hself nm).mpr hnew.2⟩
  rename_i hnew
  ext e
  rw [htree.findChild_eq_some, h.mem]
  split
  next hold =>
    refine iff_of_false ?_ (fun h => by cases h)
    rintro ⟨⟨hxp, rfl⟩ | ⟨he, hed⟩, hn⟩
    · exact hnew ⟨hxp, (hself nm).mp hn⟩
    · exact hed (ht.names he hold.1 (hother he hed ▸ hn) hold.2)
  next hold =>
    rw [ht.findChild_eq_some]
    constructor
    · rintro ⟨⟨hxp, rfl⟩ | ⟨he, hed⟩, hn⟩
      · exact absurd ⟨hxp, (hself nm).mp hn⟩ hnew
      · exact ⟨he, hother he hed ▸ hn⟩
    · rintro ⟨he, hn⟩
      have hed : e ≠ d := fun hed => hold ⟨hed ▸ he, hed ▸ hn⟩
      exact ⟨.inr ⟨he, hed⟩, (hother he hed).symm ▸ hn⟩

theorem attached (hlive : (s.dentries.get p).isSome)
    (hfree : s.findChild p name = none) (hlen : name.length ≤ nameMax) :
    Tree (s.attachChild p name i) ∧ ∀ x nm, (s.attachChild p name i).findChild x nm =
      if x = p ∧ nm = name then some s.dentries.next else s.findChild x nm := by
  obtain ⟨pd, hpd⟩ := Option.isSome_iff_exists.mp hlive
  have hp := Heap.lt_next hpd
  have hlt : ∀ {x e}, e ∈ s.children x → e ≠ s.dentries.next := by
    intro x e he
    obtain ⟨en, hen, -⟩ := ht.child he
    exact (Heap.lt_next hen).ne
  have hchildren : ∀ x, (s.attachChild p name i).children x =
      if x = p then s.dentries.next :: s.children x else s.children x := by
    intro x
    by_cases hx : x = s.dentries.next
    · rw [if_neg (hx ▸ hp.ne'), hx, children_of_get (get_attachChild_new hp.ne name i),
        children_of_none (Heap.get_next ..)]
    · exact children_attachChild hx hp hlive
  have hplacing : Placing s (s.attachChild p name i) p s.dentries.next name := by
    refine ⟨fun {x e} => ?_, fun x => ?_, hp.ne', ?_, fun {e en} he hen => ?_⟩
    · have hne := hlt (x := x) (e := e)
      rw [hchildren]
      split <;> simp [*] <;> tauto
    · rw [hchildren]
      split
      · exact nodup_cons.mpr ⟨fun hmem => hlt hmem rfl, ht.nodup x⟩
      · exact ht.nodup x
    · exact ⟨_, get_attachChild_new hp.ne name i, rfl, take_of_length_le hlen⟩
    · exact ⟨en.withNew (if e = p then [s.dentries.next] else []),
        by rw [get_attachChild_old he, hen]; rfl, rfl, rfl⟩
  obtain ⟨htree, hfind⟩ := ht.placed hplacing hfree
  refine ⟨htree, fun x nm => ?_⟩
  have hno : ¬ (s.dentries.next ∈ s.children x ∧ s.hasName nm s.dentries.next = true) :=
    fun h => hlt h.1 rfl
  rw [hfind, if_neg hno]

theorem renamed (hd : d ∈ s.children p) (hfree : s.findChild p name = none)
    (hlen : name.length ≤ nameMax) : Tree (s.renameDentry d name) ∧ ∀ x nm,
      (s.renameDentry d name).findChild x nm =
        if x = p ∧ nm = name then some d
        else if x = p ∧ s.hasName nm d = true then none else s.findChild x nm := by
  have hget : ∀ e, (s.renameDentry d name).dentries.get e =
      if e = d then (s.dentries.get e).map fun dn => { dn with name := name.take nameMax }
      else s.dentries.get e := fun _ => rfl
  have hchildren : ∀ x, (s.renameDentry d name).children x = s.children x := by
    intro x
    simp only [children, hget]
    split
    · cases s.dentries.get x <;> rfl
    · rfl
  obtain ⟨dn, hdn, hpar⟩ := ht.child hd
  have hplacing : Placing s (s.renameDentry d name) p d name := by
    refine ⟨fun {x e} => ?_, fun x => hchildren x ▸ ht.nodup x, ht.ne hd, ?_, fun {e en} he hen => ?_⟩
    · have hmem := ht.mem_child_iff hd (x := x)
      rw [hchildren]
      by_cases hed : e = d <;> simp [hed, hmem]
    · exact ⟨{ dn with name := name.take nameMax }, by rw [hget, if_pos rfl, hdn]; rfl, hpar,
        take_of_length_le hlen⟩
    · exact ⟨en, by rw [hget, if_neg he, hen], rfl, rfl⟩
  obtain ⟨htree, hfind⟩ := ht.placed hplacing hfree
  refine ⟨htree, fun x nm => ?_⟩
  rw [hfind]
  simp only [ht.mem_child_iff hd]

theorem moved {o : ℕ} (hop : o ≠ p) (hd : d ∈ s.children o) (hdp : d ≠ p)
    (hlive : (s.dentries.get p).isSome) (hfree : s.findChild p name = none)
    (hlen : name.length ≤ nameMax) : Tree (s.moveDentry d o p name) ∧ ∀ x nm,
      (s.moveDentry d o p name).findChild x nm =
        if x = p ∧ nm = name then some d
        else if x = o ∧ s.hasName nm d = true then none else s.findChild x nm := by
  have hdo : d ≠ o := ht.ne hd
  have hget : ∀ e, (s.moveDentry d o p name).dentries.get e =
      if e = o then (s.dentries.get e).map fun dn => { dn with children := dn.children.erase d }
      else if e = d then
        (s.dentries.get e).map fun dn => { dn with parent := some p, name := name.take nameMax }
      else if e = p then (s.dentries.get e).map fun dn => { dn with children := d :: dn.children }
      else s.dentries.get e := by
    intro e
    simp only [moveDentry, modDentry, Heap.get_modify]
    by_cases heo : e = o
    · subst heo
      simp [hop, hdo.symm]
    · by_cases hed : e = d
      · subst hed
        simp [hdp, hdo]
      · by_cases hep : e = p <;> simp [heo, hed, hep, hop.symm, hdp.symm]
  obtain ⟨pd, hpd⟩ := Option.isSome_iff_exists.mp hlive
  have hchildren : ∀ x, (s.moveDentry d o p name).children x =
      if x = o then (s.children x).erase d else if x = p then d :: s.children x
      else s.children x := by
    intro x
    simp only [children, hget]
    split
    · cases s.dentries.get x <;> rfl
    split
    next hxd =>
      rw [if_neg (hxd ▸ hdp)]
      cases s.dentries.get x <;> rfl
    split
    next hxp =>
      rw [hxp, hpd]
      rfl
    · rfl
  obtain ⟨dn, hdn, -⟩ := ht.child hd
  have hplacing : Placing s (s.moveDentry d o p name) p d name := by
    refine ⟨fun {x e} => ?_, fun x => ?_, hdp, ?_, fun {e en} he hen => ?_⟩
    · have hne : x ≠ o → e ∈ s.children x → e ≠ d := fun hxo h hed =>
        hxo (ht.parent_unique (hed ▸ h) hd)
      rw [hchildren]
      split
      next hxo =>
        rw [(ht.nodup x).mem_erase_iff, and_comm]
        exact (or_iff_right fun h => hop (hxo.symm.trans h.1)).symm
      split
      · rw [mem_cons]
        tauto
      · tauto
    · rw [hchildren]
      split
      · exact (ht.nodup x).erase d
      next hxo =>
        split
        · exact nodup_cons.mpr ⟨fun h => hxo (ht.parent_unique h hd), ht.nodup x⟩
        · exact ht.nodup x
    · exact ⟨_, by rw [hget, if_neg hdo, if_pos rfl, hdn]; rfl, rfl, take_of_length_le hlen⟩
    · rw [hget, if_neg he, hen]
      split
      · exact ⟨_, rfl, rfl, rfl⟩
      split
      · exact ⟨_, rfl, rfl, rfl⟩
      · exact ⟨_, rfl, rfl, rfl⟩
  obtain ⟨htree, hfind⟩ := ht.placed hplacing hfree
  refine ⟨htree, fun x nm => ?_⟩
  rw [hfind]
  simp only [ht.mem_child_iff hd]

end Tree

open Relation

variable {drv : Drivers ψ} {c : Caller} {o src : ℕ} {dir ino : Inode} {old new : Name}

theorem Tree.of_dentries (ht : Tree s) (h : t.dentries = s.dentries) : Tree t := by
  have hc : ∀ x, t.children x = s.children x := fun x => by simp only [children, h]
  have hn : ∀ nm e, t.hasName nm e = s.hasName nm e := fun nm e => by simp only [hasName, h]
  refine ⟨fun he => ?_, fun he => ht.ne (hc _ ▸ he), fun x => hc x ▸ ht.nodup x, ?_⟩
  · rw [h]
    exact ht.child (hc _ ▸ he)
  · intro x e e' nm he he' hne hne'
    exact ht.names (hc _ ▸ he) (hc _ ▸ he') (hn _ _ ▸ hne) (hn _ _ ▸ hne')

theorem hasName_iff_of_findChild {nm : Name} (h : s.findChild p name = some d) :
    s.hasName nm d = true ↔ nm = name :=
  ⟨fun hn => hasName_inj hn (hasName_of_findChild h), fun hn => hn ▸ hasName_of_findChild h⟩

section Effects

variable (ht : Tree s)
include ht

theorem attach_entries {h : Heap Inode} {v : ψ} (hdir : s.inodeOf p = some dir)
    (hfree : s.findChild p name = none) (hlen : name.length ≤ nameMax) :
    Tree (attachChild { s with inodes := h, vol := v } p name i) ∧ ∀ x nm,
      (attachChild { s with inodes := h, vol := v } p name i).findChild x nm =
        if x = p ∧ nm = name then some s.dentries.next else s.findChild x nm := by
  obtain ⟨_, hnode⟩ := nodeAt_of_inodeOf hdir
  obtain ⟨pd, hpd, -⟩ := hnode.get
  have ht' : Tree { s with inodes := h, vol := v } := ht.of_dentries rfl
  exact ht'.attached (show (s.dentries.get p).isSome by simp [hpd]) hfree hlen

theorem Makes.entries (h : Makes drv c s p dir name t) (hdir : s.inodeOf p = some dir)
    (hlen : name.length ≤ nameMax) : Tree t ∧ ∀ x nm,
      t.findChild x nm = if x = p ∧ nm = name then some s.dentries.next else s.findChild x nm := by
  obtain ⟨-, hfree, node, v, -, -, rfl⟩ := h
  exact attach_entries ht hdir hfree hlen

theorem Links.entries (h : Links drv c s src p dir name t) (hdir : s.inodeOf p = some dir)
    (hlen : name.length ≤ nameMax) : Tree t ∧ ∀ x nm,
      t.findChild x nm = if x = p ∧ nm = name then some s.dentries.next else s.findChild x nm := by
  obtain ⟨-, hfree, i, ino, op, priv, v, -, -, -, -, rfl⟩ := h
  exact attach_entries ht (h := s.inodes.modify i fun x => { x with priv }) hdir hfree hlen

theorem Removes.entries (h : Removes drv s p dir name d i ino t)
    (hrem : Removable c s p dir name d i ino) :
    Tree t ∧ ∀ {x}, (t.dentries.get x).isSome → ∀ nm,
      t.findChild x nm = if x = p ∧ nm = name then none else s.findChild x nm := by
  have hd := mem_of_findChild hrem.found
  have hgone : ∃ F : List ℕ, d ∈ F ∧ (∀ f ∈ F, f = d ∨ f ∈ s.children d) ∧
      ∀ e, t.dentries.get e = if e ∈ F then none else
        (s.dentries.get e).map fun dn =>
          if e = p then { dn with children := dn.children.erase d } else dn := by
    cases h with
    | later _ _ _ =>
      refine ⟨[d], by simp, by simp, fun e => ?_⟩
      simp only [detach, modInode, Heap.get_free, Heap.get_modify, List.mem_singleton]
      by_cases hed : e = d <;> by_cases hep : e = p <;> simp [hed, hep]
    | @now op priv v _ _ _ =>
      have hsame : ((s.setVol v).settleInode i priv).dentries = s.dentries := by
        cases priv <;> rfl
      have hchildren : ((s.setVol v).settleInode i priv).children d = s.children d := by
        simp only [children, hsame]
      refine ⟨d :: s.children d, by simp, by simp, fun e => ?_⟩
      simp only [detach, freeChildren, Heap.get_free, Heap.get_modify, hchildren,
        get_foldl_free, hsame, List.mem_cons]
      by_cases hep : e = p
      · subst hep
        by_cases hed : e = d <;> by_cases hec : e ∈ s.children d <;> simp [hed, hec]
      · by_cases hed : e = d <;> by_cases hec : e ∈ s.children d <;> simp [hed, hec, hep]
  obtain ⟨F, hdF, hF, hget⟩ := hgone
  obtain ⟨htree, hfind⟩ := ht.removed hd hdF hF hget
  refine ⟨htree, fun {x} hx nm => ?_⟩
  have hxF : x ∉ F := fun hxF => by simp [hget x, hxF] at hx
  rw [hfind, if_neg hxF]
  simp only [hasName_iff_of_findChild hrem.found]

theorem Renames.entries (h : Renames drv s p old new t) : Tree t ∧
    ∃ d, s.findChild p old = some d ∧ s.findChild p new = none ∧ ∀ x nm,
      t.findChild x nm = if x = p ∧ nm = new then some d
        else if x = p ∧ nm = old then none else s.findChild x nm := by
  obtain ⟨dir, d, i, ino, op, priv, v, -, -, hlen, hfree, hlast, -, -, -, -, rfl⟩ := h
  rw [ht.findLastChild_eq] at hlast
  have ht' : Tree ((s.setVol v).modInode i fun x => { x with priv }) := ht.of_dentries rfl
  obtain ⟨htree, hfind⟩ := ht'.renamed (mem_of_findChild hlast) hfree hlen
  refine ⟨htree, d, hlast, hfree, fun x nm => ?_⟩
  have hname : ((s.setVol v).modInode i fun x => { x with priv }).hasName nm d = true ↔ nm = old :=
    hasName_iff_of_findChild hlast
  rw [hfind]
  simp only [hname]
  rfl

theorem Moves.entries (h : Moves drv c s o old p new t) (hop : o ≠ p) : Tree t ∧
    ∃ d, ∀ x nm, t.findChild x nm = if x = p ∧ nm = new then some d
      else if x = o ∧ nm = old then none else s.findChild x nm := by
  obtain ⟨odir, dir, d, i, ino, op, priv, v, -, -, hdir, -, hlen, -, -, hfound, -, -, hfree, -,
    hreach, -, -, -, -, rfl⟩ := h
  obtain ⟨_, hpnode⟩ := nodeAt_of_inodeOf hdir
  obtain ⟨pd, hpd, -⟩ := hpnode.get
  -- the check that the target is not inside the moved entry covers the entry itself
  have hdp : d ≠ p := by
    rintro rfl
    obtain ⟨k, hk⟩ : ∃ k, s.dentries.next = k + 1 := ⟨s.dentries.next - 1, by
      have := Heap.lt_next hpd
      omega⟩
    rw [hk] at hreach
    simp [reaches] at hreach
  have ht' : Tree ((s.setVol v).modInode i fun x => { x with priv }) := ht.of_dentries rfl
  obtain ⟨htree, hfind⟩ := ht'.moved hop (mem_of_findChild hfound) hdp
    (show (s.dentries.get p).isSome by simp [hpd]) hfree hlen
  refine ⟨htree, d, fun x nm => ?_⟩
  have hname : ((s.setVol v).modInode i fun x => { x with priv }).hasName nm d = true ↔ nm = old :=
    hasName_iff_of_findChild hfound
  rw [hfind]
  simp only [hname]
  rfl

end Effects

theorem Change.tree {G : State ψ → DentryId → Bool} (h : Change drv c G s t)
    (ht : Tree s) : Tree t := by
  cases h with
  | fill h =>
    obtain ⟨p, name, node, hfree, hnode, rfl⟩ := h
    obtain ⟨-, ino, -, -, hino, hlen, -⟩ := lookupNode_eq_some hnode
    exact (attach_entries (h := s.inodes.alloc _) ht hino hfree hlen).1
  | vol v | truncate i | opened flags vpath _ => exact ht.of_dentries rfl
  | make hdir _ hlen h | link hdir _ hlen h => exact (h.entries ht hdir hlen).1
  | remove _ _ hrem h _ => exact (h.entries ht hrem).1
  | rename h => exact (h.entries ht).1
  | move hop h => exact (h.entries ht hop).1
  | closed f =>
    obtain ⟨h, v, m, -, heq⟩ := vfsClose_frame drv (s := s) f
    rw [heq]
    exact ht.of_dentries rfl

theorem Changes.tree {G : State ψ → DentryId → Bool} (h : Changes drv c G s t)
    (ht : Tree s) : Tree t :=
  h.inv (fun ha hab => hab.tree ha) ht

theorem tree_bootTree (v : ψ) : Tree (bootTree v) := by
  have hstep : ∀ (s : State ψ) (name : Name) (ino : Inode), Tree s → s.inodeOf s.root = some ino →
      s.findChild s.root name = none → name.length ≤ nameMax → Tree (bootstrapChild s name) :=
    fun s name ino ht hroot hfree hlen =>
      (attach_entries (h := s.inodes.alloc _) ht hroot hfree hlen).1
  have hnil : ∀ x, (mountRoot v).children x = [] := fun x => by
    simp only [children, mountRoot, Heap.get_alloc]
    split <;> rfl
  have hroot : Tree (mountRoot v) :=
    ⟨fun he => by simp [hnil] at he, fun he => by simp [hnil] at he, fun x => by simp [hnil],
      fun he => by simp [hnil] at he⟩
  have hetc := hstep _ "etc".toList _ hroot rfl rfl (by decide)
  have hdev := hstep _ "dev".toList _ hetc rfl rfl (by decide)
  have htmp := hstep _ "tmp".toList _ hdev rfl rfl (by decide)
  have hproc := hstep _ "proc".toList _ htmp rfl rfl (by decide)
  exact hstep _ "mnt".toList _ hproc rfl rfl (by decide)

end DosKernel.Vfs
