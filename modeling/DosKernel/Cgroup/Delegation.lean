import DosKernel.Cgroup.Tree

namespace DosKernel.Cgroup.State

open DosKernel.Lib List
open Function (update update_of_ne update_self)

variable {N : Type} [DecidableEq N]

-- A node enables only what its parent makes available, and reads that in its `cgroup.controllers`.
def Delegated (s : State N) : Prop :=
  ∀ n ∈ s.nodes, s.subtree (some n) ⊆ s.subtree (s.parent n) ∧
    s.controllersText (some n) = s.subtreeText (s.parent n)

-- An accepted write to `cgroup.subtree_control` ends with no word that takes a controller from a
-- child that has it enabled.
def Released (s : State N) : Act N → Prop
  | .write c g .subtree buf => s.HasFile g .subtree → (s.cgWrite c g .subtree buf).2 = true →
      ∀ n ∈ s.nodes, s.parent n = g → ∀ x ∈ s.subtree (some n),
        lastWord x (words (writeText buf)) ≠ some false
  | _ => True

def childCount (s : State N) (g : Option N) : ℕ := s.nodes.countP fun n => decide (s.parent n = g)

structure Tree (s : State N) : Prop where
  nodup : s.nodes.Nodup
  parents : ∀ n ∈ s.nodes, s.HasNode (s.parent n)
  irrefl : ∀ n ∈ s.nodes, s.parent n ≠ some n
  count : ∀ g, s.HasNode g → s.nchildren g = s.childCount g
  delegated : ∀ n ∈ s.nodes, s.subtree (some n) ⊆ s.subtree (s.parent n)

variable {s s' : State N} {g p : Option N} {n : N} {c : Caller} {k : Kind} {buf : Text}

theorem Tree.delegates (h : Tree s) : Delegated s := fun n hn => ⟨h.delegated n hn, rfl⟩

theorem Tree.frame (h : Tree s) (hn : s'.nodes = s.nodes) (hp : s'.parent = s.parent)
    (hc : s'.nchildren = s.nchildren) (hs : s'.subtree = s.subtree) : Tree s' := by
  have hnode : ∀ g, s'.HasNode g ↔ s.HasNode g := fun g => by rw [HasNode, HasNode, hn]
  refine ⟨hn ▸ h.nodup, fun n hn' => ?_, fun n hn' => ?_, fun g hg => ?_, fun n hn' => ?_⟩
  · rw [hnode, hp]
    exact h.parents n (hn ▸ hn')
  · rw [hp]
    exact h.irrefl n (hn ▸ hn')
  · rw [hc, childCount, hn, hp]
    exact h.count g ((hnode g).mp hg)
  · rw [hs, hp]
    exact h.delegated n (hn ▸ hn')

theorem tree_boot : Tree (boot : State N) := by
  refine ⟨nodup_nil, fun n hn => ?_, fun n hn => ?_, fun g _ => rfl, fun n hn => ?_⟩
  all_goals exact absurd hn not_mem_nil

section

variable (h : Tree s)

include h

theorem parent_ne_new (hn : n ∉ s.nodes) {m : N} (hm : m ∈ s.nodes) :
    s.parent m ≠ some n := fun he => hn (h.parents m hm n he)

theorem Tree.cgMkdir (hp : s.HasNode p) (hn : n ∉ s.nodes) (name : Text) :
    Tree (s.cgMkdir p n name) := by
  rw [State.cgMkdir]
  split
  · exact h
  have hpn : p ≠ some n := fun he => hn (hp n he)
  have hold : ∀ m ∈ s.nodes, m ≠ n := fun m hm he => hn (he ▸ hm)
  have hparent : ∀ m ∈ s.nodes, update s.parent n p m = s.parent m := fun m hm =>
    update_of_ne (hold m hm) ..
  have hcount : ∀ g, (s.nodes.countP fun m => decide (update s.parent n p m = g)) =
      s.childCount g := fun g => by
    refine countP_congr fun m hm => ?_
    rw [hparent m hm]
  refine ⟨nodup_cons.mpr ⟨hn, h.nodup⟩, fun m hm => ?_, fun m hm => ?_, fun g hg => ?_,
    fun m hm => ?_⟩
  · obtain rfl | hm := mem_cons.mp hm
    · simp only [update_self]
      exact fun q hq => mem_cons_of_mem _ (hp q hq)
    · simp only [hparent m hm]
      exact fun q hq => mem_cons_of_mem _ (h.parents m hm q hq)
  · obtain rfl | hm := mem_cons.mp hm
    · simp only [update_self]
      exact hpn
    · simp only [hparent m hm]
      exact h.irrefl m hm
  · simp only [childCount, countP_cons, hcount, update_self, decide_eq_true_eq]
    by_cases hgp : g = p
    · subst hgp
      rw [if_pos rfl, update_self, h.count g hp, childCount]
    · rw [if_neg (Ne.symm hgp), update_of_ne hgp, Nat.add_zero]
      by_cases hgn : g = some n
      · subst hgn
        rw [update_self]
        refine (countP_eq_zero.mpr fun m hm => ?_).symm
        simpa using parent_ne_new h hn hm
      · rw [update_of_ne hgn]
        exact h.count g fun q hq => (mem_cons.mp (hg q hq)).resolve_left fun he =>
          hgn (by rw [← he]; exact hq)
  · obtain rfl | hm := mem_cons.mp hm
    · simp only [update_self]
      exact Finset.empty_subset _
    · have hne : s.parent m ≠ some n := parent_ne_new h hn hm
      simp only [hparent m hm, update_of_ne hne,
        update_of_ne (fun he => hold m hm (Option.some.inj he))]
      exact h.delegated m hm

theorem Tree.cgUnlink (hn : n ∈ s.nodes) (opened : Bool) :
    Tree (s.cgUnlink n opened) := by
  rw [State.cgUnlink]
  split
  · exact h
  next hok =>
  push Not at hok
  have hmem : ∀ m, m ∈ s.nodes.erase n ↔ m ≠ n ∧ m ∈ s.nodes := fun m => h.nodup.mem_erase_iff
  -- A node without children is the parent of none of the others.
  have hnone : ∀ m ∈ s.nodes, s.parent m ≠ some n := by
    have hzero := (h.count (some n) (by simpa [HasNode] using hn)).symm.trans (Nat.le_zero.mp hok.1)
    intro m hm he
    exact countP_eq_zero.mp hzero m hm (by simpa using he)
  refine ⟨h.nodup.erase n, fun m hm q hq => ?_, fun m hm => h.irrefl m ((hmem m).mp hm).2,
    fun g hg => ?_, fun m hm => ?_⟩
  · have hm' := ((hmem m).mp hm).2
    refine (hmem q).mpr ⟨?_, h.parents m hm' q hq⟩
    rintro rfl
    exact hnone m hm' hq
  · have hg' : s.HasNode g := fun q hq => ((hmem q).mp (hg q hq)).2
    have hcount := h.count g hg'
    simp only [childCount, countP_erase, hn, true_and, decide_eq_true_eq]
    by_cases hgp : g = s.parent n
    · subst hgp
      rw [update_self, if_pos rfl, hcount, childCount]
    · rw [update_of_ne hgp, if_neg (Ne.symm hgp), hcount, childCount, Nat.sub_zero]
  · exact h.delegated m ((hmem m).mp hm).2

theorem Tree.onlyTasks (ht : OnlyTasks s s') : Tree s' := by
  rw [ht]
  exact h.frame rfl rfl rfl rfl

theorem Tree.setSubtree {m : Finset Controller} {text : Text}
    (hm : setSubtree (s.available g) (s.subtree g) text = .ok m)
    (hrel : ∀ n ∈ s.nodes, s.parent n = g → ∀ x ∈ s.subtree (some n),
      lastWord x (words text) ≠ some false) :
    Tree { s with subtree := update s.subtree g m } := by
  refine ⟨h.nodup, h.parents, h.irrefl, h.count, fun n hn => ?_⟩
  change update s.subtree g m (some n) ⊆ update s.subtree g m (s.parent n)
  have hold := h.delegated n hn
  by_cases hself : some n = g
  · -- The written node keeps only what its parent offers.
    subst hself
    rw [update_self, update_of_ne (h.irrefl n hn)]
    exact (foldlM_setWord hm).1 hold
  · rw [update_of_ne hself]
    by_cases hchild : s.parent n = g
    · subst hchild
      rw [update_self]
      intro x hx
      have hlast := hrel n hn rfl x hx
      rw [(foldlM_setWord hm).2]
      cases hw : lastWord x (words text) with
      | none => simpa using hold hx
      | some b => simpa [hw] using hlast
    · rw [update_of_ne hchild]
      exact hold

theorem Tree.write (hf : s.HasFile g k) (hrel : Released s (.write c g k buf)) :
    Tree (s.cgWrite c g k buf).1 := by
  obtain ht | ⟨rfl, m, hm, heq⟩ | ⟨-, on, -, heq⟩ := cgWrite_cases (c := c) (g := g) s k buf
  · exact h.onlyTasks ht
  · have haccepted := hrel hf (congrArg Prod.snd heq)
    rw [heq]
    exact h.setSubtree hm haccepted
  · rw [heq]
    rw [freeze_eq]
    exact h.frame rfl rfl rfl rfl

theorem tree_step {a : Act N} (hrel : Released s a) : Tree (s.step a) := by
  cases a with
  | mkdir p n name memory => exact guard_rule h fun hok => h.cgMkdir hok.1 hok.2.1 name
  | rmdir n opened => exact guard_rule h fun hn => h.cgUnlink hn opened
  | write c g k buf => exact guard_rule h fun hf => h.write hf hrel
  | exit c t adopter => exact guard_rule h fun _ => h.onlyTasks exit_onlyTasks
  | _ => exact guard_rule h fun _ => h.frame rfl rfl rfl rfl

theorem released_of_delegated {a : Act N} (hd : Delegated (s.step a)) :
    Released s a := by
  cases a with
  | write c g k buf =>
    cases k with
    | subtree =>
      intro hf haccepted n hn hchild x hxn hlast
      obtain ⟨m, hm⟩ : ∃ m, setSubtree (s.available g) (s.subtree g) (writeText buf) = .ok m := by
        cases hm : setSubtree (s.available g) (s.subtree g) (writeText buf) with
        | error e => simp [cgWrite, Kind.rw, hm] at haccepted
        | ok m => exact ⟨m, rfl⟩
      have hstep : s.step (.write c g .subtree buf) =
          { s with subtree := update s.subtree g m } := by
        simp only [step, if_pos hf, cgWrite, Kind.rw, Bool.true_eq_false, if_false, hm]
      rw [hstep] at hd
      have hself : some n ≠ g := fun he => h.irrefl n hn (hchild.trans he.symm)
      have hsub : update s.subtree g m (some n) ⊆
          update s.subtree g m (s.parent n) := (hd n hn).1
      rw [hchild, update_self, update_of_ne hself] at hsub
      have hmem := ((foldlM_setWord hm).2 x).mp (hsub hxn)
      rw [hlast] at hmem
      cases hmem
    | _ => trivial
  | _ => trivial

end

-- Nodes stay within what their parents delegate exactly in the runs in which no write takes away a
-- controller that a child has enabled; a refused write changes nothing.
theorem delegated_iff_released (acts : List (Act N)) :
    (Always step Delegated boot acts ↔ Allowed step Released boot acts) ∧
    ∀ (s : State N) c g buf, (s.cgWrite c g .subtree buf).2 = false →
      (s.cgWrite c g .subtree buf).1 = s := by
  constructor
  · exact always_iff_of_step (fun _ _ h => tree_step h) (fun _ h => h.delegates)
      (fun _ _ h => released_of_delegated h) tree_boot
  · intro s c g buf hrefused
    cases hm : setSubtree (s.available g) (s.subtree g) (writeText buf) with
    | error e => simp only [cgWrite, Kind.rw, Bool.true_eq_false, if_false, hm]
    | ok m => simp [cgWrite, Kind.rw, hm] at hrefused

-- Cgroup 1 has a child 2 with the memory controller enabled, and drops that controller itself.
def dropMemory : List (Act ℕ) :=
  [.mkdir none 1 "a".toList true, .mkdir (some 1) 2 "b".toList true,
    .write ⟨0, fun _ => true, fun _ => true⟩ (some 1) .subtree "+memory".toList,
    .write ⟨0, fun _ => true, fun _ => true⟩ (some 2) .subtree "+memory".toList,
    .write ⟨0, fun _ => true, fun _ => true⟩ (some 1) .subtree "-memory".toList]

theorem dropMemory_not_delegated : ¬ Always step Delegated boot dropMemory := by
  intro h
  have hlast : Delegated (run step boot dropMemory) := h.last
  have hsub := (hlast 2 (by decide)).1
  exact absurd hsub (by decide)

end DosKernel.Cgroup.State
