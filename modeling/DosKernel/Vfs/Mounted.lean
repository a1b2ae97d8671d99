import DosKernel.Vfs.Calls
import DosKernel.Vfs.Tree

namespace DosKernel.Vfs

open DosKernel.Lib Relation List Option

variable {ψ : Type} {s t : State ψ} {p d e x i m : ℕ} {name : Name}

def Mount.place (m : Mount) : DentryId × Option InodeId := (m.mp, m.covered)

def SamePlaces (s t : State ψ) : Prop := t.mounts.map Mount.place = s.mounts.map Mount.place

theorem SamePlaces.findIdx (h : SamePlaces s t) (d : ℕ) :
    t.mounts.findIdx? (fun m => decide (m.mp = d)) =
      s.mounts.findIdx? (fun m => decide (m.mp = d)) := by
  have hfind := congrArg (findIdx? fun x => decide (x.1 = d)) h
  rw [findIdx?_map, findIdx?_map] at hfind
  exact hfind

theorem SamePlaces.length (h : SamePlaces s t) : t.mounts.length = s.mounts.length := by
  simpa using congrArg List.length h

theorem samePlaces_modify {f : Mount → Mount} (hf : ∀ m, (f m).place = m.place) (j : ℕ) :
    (s.mounts.modify j f).map Mount.place = s.mounts.map Mount.place := by
  refine ext_getElem (by simp) fun k h1 h2 => ?_
  simp only [getElem_map, getElem_modify]
  split
  · exact hf _
  · rfl

theorem mountFrom_keep (Good : ℕ → Prop) (hp : SamePlaces s t)
    (hkeep : ∀ {x dn}, Good x → s.dentries.get x = some dn →
      ∃ dn', t.dentries.get x = some dn' ∧ dn'.parent = dn.parent)
    (hup : ∀ {x dn p}, Good x → s.dentries.get x = some dn → dn.parent = some p → Good p) :
    ∀ {n x m} (k : ℕ), Good x → s.mountFrom n x = some m → t.mountFrom (n + k) x = some m := by
  intro n
  induction n with
  | zero =>
    intro x m k _ h
    cases h
  | succ n ih =>
    intro x m k hx h
    rw [Nat.succ_add]
    simp only [State.mountFrom, hp.findIdx] at h ⊢
    cases hat : s.mounts.findIdx? (fun m => decide (m.mp = x)) with
    | some j => simpa [hat] using h
    | none =>
      cases hget : s.dentries.get x with
      | none => simp [hat, hget] at h
      | some dn =>
        obtain ⟨dn', hget', hparent⟩ := hkeep hx hget
        simp only [hat, hget, hget', hparent] at h ⊢
        cases hpar : dn.parent with
        | none => simp [hpar] at h
        | some p =>
          simp only [hpar] at h ⊢
          split at h
          · cases h
          · rw [if_neg ‹_›]
            exact ih k (hup hx hget hpar) h

theorem mountOf_lt (h : s.mountOf x = some m) : m < s.mounts.length := by
  have hfrom : ∀ n x, s.mountFrom n x = some m → m < s.mounts.length := by
    intro n
    induction n with
    | zero =>
      intro x h
      cases h
    | succ n ih =>
      intro x h
      rw [State.mountFrom] at h
      split at h
      next j _ hat =>
        cases h
        exact (findIdx?_eq_some_iff_findIdx_eq.mp hat).1
      · cases h
      · split at h
        · cases h
        · split at h
          · cases h
          · exact ih _ h
  exact hfrom _ _ h

structure Forest (s : State ψ) : Prop where
  bounded : Bounded s
  tree : Tree s
  up : ∀ {e en p}, s.dentries.get e = some en → en.parent = some p → e ∈ s.children p
  mps : ∀ {m}, m ∈ s.mounts → m.mp < s.dentries.next
  mounted : ∀ {d}, (s.dentries.get d).isSome → (s.mountOf d).isSome

theorem live_of_mem_children (h : e ∈ s.children x) : (s.dentries.get x).isSome := by
  cases hget : s.dentries.get x with
  | some dn => rfl
  | none => simp [children_of_none hget] at h

theorem mountOf_of_dentries (hd : t.dentries = s.dentries) (hp : SamePlaces s t) (x : ℕ) :
    t.mountOf x = s.mountOf x := by
  have hfrom : ∀ n x, t.mountFrom n x = s.mountFrom n x := by
    intro n
    induction n with
    | zero => exact fun _ => rfl
    | succ n ih =>
      intro x
      simp only [State.mountFrom, hp.findIdx, hd, ih]
  rw [State.mountOf, hd, hfrom]
  rfl

theorem Forest.mp_lt (hf : Forest s) (hp : SamePlaces s t)
    (hle : s.dentries.next ≤ t.dentries.next) {m : Mount} (hm : m ∈ t.mounts) :
    m.mp < t.dentries.next := by
  have hmem : m.place ∈ s.mounts.map Mount.place := hp ▸ mem_map_of_mem hm
  obtain ⟨m', hm', hplace⟩ := mem_map.mp hmem
  rw [← show m'.mp = m.mp from congrArg Prod.fst hplace]
  exact (hf.mps hm').trans_le hle

theorem Forest.of_dentries (hf : Forest s) (hd : t.dentries = s.dentries) (hp : SamePlaces s t)
    (hb : Bounded t) : Forest t where
  bounded := hb
  tree := hf.tree.of_dentries hd
  up hget hpar := by
    simp only [State.children, hd] at hget ⊢
    exact hf.up hget hpar
  mps hm := hf.mp_lt hp (hd ▸ le_rfl) hm
  mounted hget := by
    rw [mountOf_of_dentries hd hp]
    exact hf.mounted (hd ▸ hget)

section Steps

variable (hf : Forest s)
include hf

theorem Forest.parent_live {dn : Dentry} (hget : s.dentries.get x = some dn)
    (hpar : dn.parent = some p) : (s.dentries.get p).isSome :=
  live_of_mem_children (hf.up hget hpar)

theorem Forest.attached (hlive : (s.dentries.get p).isSome)
    (hd : t.dentries = (s.attachChild p name i).dentries) (hp : SamePlaces s t) (hb : Bounded t)
    (htree : Tree t) : Forest t ∧ ∀ {x}, (s.dentries.get x).isSome → t.mountOf x = s.mountOf x := by
  obtain ⟨pd, hpd⟩ := isSome_iff_exists.mp hlive
  have hpn : p ≠ s.dentries.next := (Heap.lt_next hpd).ne
  have hnext : t.dentries.next = s.dentries.next + 1 := by rw [hd]; rfl
  have hnew : t.dentries.get s.dentries.next =
      some { name := name.take nameMax, inode := some i, parent := some p } := by
    rw [hd, get_attachChild_new hpn]
  have hold : ∀ {x dn}, s.dentries.get x = some dn → t.dentries.get x =
      some (dn.withNew (if x = p then [s.dentries.next] else [])) := by
    intro x dn hx
    rw [hd, get_attachChild_old (Heap.lt_next hx).ne, hx]
    rfl
  have hkeep : ∀ {n x m} (k : ℕ), (s.dentries.get x).isSome → s.mountFrom n x = some m →
      t.mountFrom (n + k) x = some m :=
    mountFrom_keep (fun x => (s.dentries.get x).isSome) hp (fun _ hget => ⟨_, hold hget, rfl⟩)
      fun _ hget hpar => hf.parent_live hget hpar
  have hsame : ∀ {x}, (s.dentries.get x).isSome → t.mountOf x = s.mountOf x := by
    intro x hx
    obtain ⟨m, hm⟩ := isSome_iff_exists.mp (hf.mounted hx)
    rw [State.mountOf, hnext, hkeep 1 hx hm, hm]
  refine ⟨⟨hb, htree, fun {e en q} hget hpar => ?_, hf.mp_lt hp (by omega), fun {d} hget => ?_⟩,
    hsame⟩
  · by_cases he : e = s.dentries.next
    · subst he
      rw [hnew] at hget
      cases hget
      cases hpar
      rw [children_of_get (hold hpd), if_pos rfl]
      exact mem_cons_self
    · rw [hd, get_attachChild_old he] at hget
      obtain ⟨en', hen', rfl⟩ := map_eq_some_iff.mp hget
      have hmem := hf.up hen' hpar
      obtain ⟨qd, hqd⟩ := isSome_iff_exists.mp (hf.parent_live hen' hpar)
      rw [children_of_get hqd] at hmem
      rw [children_of_get (hold hqd)]
      exact mem_append_right _ hmem
  · by_cases he : d = s.dentries.next
    · obtain ⟨m, hm⟩ := isSome_iff_exists.mp (hf.mounted hlive)
      have hat : s.mounts.findIdx? (fun m => decide (m.mp = s.dentries.next)) = none :=
        findIdx?_eq_none_iff.mpr fun m hm => by simpa using (hf.mps hm).ne
      subst he
      rw [State.mountOf, hnext, State.mountFrom, hp.findIdx, hat, hnew]
      simp only [if_neg hpn]
      exact isSome_iff_exists.mpr ⟨m, hkeep 0 hlive hm⟩
    · rw [hd, get_attachChild_old he, isSome_map] at hget
      rw [hsame hget]
      exact hf.mounted hget

theorem Forest.detached (hleaf : s.children d = [])
    (hd : t.dentries = (s.detach p d).dentries) (hp : SamePlaces s t) (hb : Bounded t)
    (htree : Tree t) : Forest t ∧ ∀ {x}, (t.dentries.get x).isSome → t.mountOf x = s.mountOf x := by
  have hnext : t.dentries.next = s.dentries.next := by rw [hd]; rfl
  have hget : ∀ x, t.dentries.get x = if x = d then none else
      (s.dentries.get x).map fun dn =>
        if x = p then { dn with children := dn.children.erase d } else dn := by
    intro x
    rw [hd]
    simp only [State.detach, Heap.get_free, Heap.get_modify]
    by_cases hxd : x = d <;> by_cases hxp : x = p <;> simp [hxd, hxp]
  have hlive : ∀ {x}, (t.dentries.get x).isSome → x ≠ d ∧ (s.dentries.get x).isSome := by
    intro x hx
    rw [hget] at hx
    split at hx
    · cases hx
    · exact ⟨‹_›, by simpa using hx⟩
  have hkeep : ∀ {n x m} (k : ℕ), x ≠ d → s.mountFrom n x = some m →
      t.mountFrom (n + k) x = some m := by
    refine mountFrom_keep (· ≠ d) hp (fun {x dn} hx hxget => ?_) fun {x dn q} _ hxget hpar hqd => ?_
    · refine ⟨_, by rw [hget, if_neg hx, hxget]; rfl, ?_⟩
      split <;> rfl
    · have := hf.up hxget hpar
      simp [hqd, hleaf] at this
  have hsame : ∀ {x}, (t.dentries.get x).isSome → t.mountOf x = s.mountOf x := by
    intro x hx
    obtain ⟨hxd, hxs⟩ := hlive hx
    obtain ⟨m, hm⟩ := isSome_iff_exists.mp (hf.mounted hxs)
    rw [State.mountOf, hnext, hm]
    exact hkeep 0 hxd hm
  refine ⟨⟨hb, htree, fun {e en q} heget hpar => ?_, hf.mp_lt hp hnext.ge, fun {x} hx => ?_⟩, hsame⟩
  · rw [hget] at heget
    split at heget
    · cases heget
    · obtain ⟨en', hen', rfl⟩ := map_eq_some_iff.mp heget
      have hpar' : en'.parent = some q := by
        split at hpar <;> exact hpar
      have hmem := hf.up hen' hpar'
      have hqd : q ≠ d := fun h => by simp [h, hleaf] at hmem
      obtain ⟨qd, hq⟩ := isSome_iff_exists.mp (hf.parent_live hen' hpar')
      rw [children_of_get hq] at hmem
      have hq' : t.dentries.get q =
          some (if q = p then { qd with children := qd.children.erase d } else qd) := by
        rw [hget, if_neg hqd, hq]
        rfl
      rw [children_of_get hq']
      split
      · exact (mem_erase_of_ne ‹_›).mpr hmem
      · exact hmem
  · rw [hsame hx]
    exact hf.mounted (hlive hx).2

end Steps

end DosKernel.Vfs
