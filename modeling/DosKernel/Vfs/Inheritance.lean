import Mathlib.Data.Fintype.Basic
import DosKernel.Vfs.Calls
import DosKernel.Vfs.Isolation

namespace DosKernel.Vfs

open DosKernel.Lib Relation List Option

variable {ψ : Type} {drv : Drivers ψ} {c : Caller} {s t u : State ψ} {d m : ℕ}

inductive Mark where
  | bind
  | ro
deriving DecidableEq, Repr

instance : Fintype Mark where
  elems := {.bind, .ro}
  complete := by intro k; cases k <;> decide

def Dentry.carries (dn : Dentry) : Mark → Bool
  | .bind => dn.bound.isSome
  | .ro => dn.ro

def Dentry.markNs (dn : Dentry) : Mark → ℕ
  | .bind => dn.boundNs
  | .ro => dn.roNs

def Dentry.markSeq (dn : Dentry) : Mark → ℕ
  | .bind => dn.boundSeq
  | .ro => dn.roSeq

def State.sees (s : State ψ) (m : ℕ) (d : DentryId) : Mark → Bool
  | .bind => (s.boundFor m d).isSome
  | .ro => s.roFor m d

-- The tree with a log: which call made the mark a dentry carries, and which call a namespace.
structure Ledger (ψ : Type) where
  vfs : State ψ
  now : ℕ
  madeAt : Mark → DentryId → ℕ
  bornAt : ℕ → ℕ

-- The calls on mounts, with any calls on names and files between them.
inductive HistoryCall where
  | new (parent : ℕ)
  | bind (c : Caller) (src tgt : Path)
  | unbind (c : Caller) (fuel : ℕ) (tgt : Path)
  | readonly (c : Caller) (path : Path) (ro : Bool)
  | tree (c : Caller) (call : Call)

def HistoryCall.Legal (s : State ψ) : HistoryCall → Prop
  | .new _ => True
  | .bind c _ _ | .unbind c _ _ | .readonly c _ _ | .tree c _ => s.base c < s.dentries.next

instance (s : State ψ) : (call : HistoryCall) → Decidable (call.Legal s)
  | .new _ => inferInstanceAs (Decidable True)
  | .bind _ _ _ | .unbind _ _ _ | .readonly _ _ _ | .tree _ _ =>
    inferInstanceAs (Decidable (_ < _))

-- The mark a call makes: of which kind, in which namespace and on which dentry.
def HistoryCall.makes (drv : Drivers ψ) (s : State ψ) : HistoryCall → Option (Mark × ℕ × DentryId)
  | .bind c src tgt =>
    match bindPaths drv c s src tgt with
    | ((some source, some target), s1) =>
      if (bindDentries c s1 source target).2.bindSeq = s1.bindSeq then none
      else some (.bind, c.mntns, target)
    | _ => none
  | .readonly c path ro =>
    match if path = ['/'] then (some (s.base c), s) else bindTarget drv c s path with
    | (some target, s1) =>
      if ro && (s1.dentries.get target).isSome then some (.ro, c.mntns, target) else none
    | _ => none
  | _ => none

def HistoryCall.run (drv : Drivers ψ) (s : State ψ) : HistoryCall → State ψ
  | .new parent => (vfsMntnsNew s parent).2
  | .bind c src tgt => (vfsBind drv c s src tgt).2
  | .unbind c fuel tgt => (vfsUnbind drv c fuel s tgt).2
  | .readonly c path ro => (vfsSetReadonly drv c s path ro).2
  | .tree c call => call.run drv c s

def Ledger.step (drv : Drivers ψ) (l : Ledger ψ) (call : HistoryCall) : Ledger ψ where
  vfs := call.run drv l.vfs
  now := l.now + 1
  madeAt := match call.makes drv l.vfs with
    | some (k, _, d) => fun k' d' => if k' = k ∧ d' = d then l.now else l.madeAt k' d'
    | none => l.madeAt
  bornAt n := if n < l.vfs.ns.length then l.bornAt n else l.now

def Ledger.start (s : State ψ) : Ledger ψ :=
  { vfs := s, now := 0, madeAt := fun _ _ => 0, bornAt := fun _ => 0 }

-- A standing mark of the parent is seen in a namespace exactly if made before the namespace.
def Inherits (l : Ledger ψ) : Prop :=
  ∀ k n r d dn, 0 < n → l.vfs.ns[n]? = some r → l.vfs.dentries.get d = some dn →
    dn.carries k = true → dn.markNs k = r.parent →
    (l.vfs.sees n d k = true ↔ l.madeAt k d < l.bornAt n)

def MarksOlder (s : State ψ) (parent : ℕ) : Prop :=
  s.dentries.All fun _ dn => ∀ k, dn.carries k = true → dn.markNs k = parent →
    dn.markSeq k < s.bindSeq

instance (s : State ψ) (parent : ℕ) : Decidable (MarksOlder s parent) :=
  inferInstanceAs (Decidable (s.dentries.All _))

def BirthsOlder (s : State ψ) (m : ℕ) : Prop :=
  ∀ n < s.ns.length, 0 < n → (s.ns[n]?).all fun r => decide (r.parent = m → r.born ≤ s.nextSeq)

instance (s : State ψ) (m : ℕ) : Decidable (BirthsOlder s m) :=
  inferInstanceAs (Decidable (∀ n < s.ns.length, _))

-- The stamps there are older than that of a new namespace, and no younger than a new mark's.
def timely (drv : Drivers ψ) (l : Ledger ψ) (call : HistoryCall) : Bool :=
  match call with
  | .new parent =>
    !decide (l.vfs.ns.length < maxMntns ∧ parent < l.vfs.ns.length) ||
      decide (MarksOlder l.vfs parent)
  | _ => (call.makes drv l.vfs).all fun mark => decide (BirthsOlder l.vfs mark.2.1)

theorem birthsOlder_iff : BirthsOlder s m ↔
    ∀ n r, 0 < n → s.ns[n]? = some r → r.parent = m → r.born ≤ s.nextSeq := by
  constructor
  · intro h n r hpos hr
    have hall := h n (List.getElem?_eq_some_iff.mp hr).1 hpos
    rw [hr] at hall
    exact of_decide_eq_true hall
  · intro h n hn hpos
    cases hr : s.ns[n]? with
    | none => rfl
    | some r => exact decide_eq_true (h n r hpos hr)

theorem sees_eq (k : Mark) : s.sees m d k = (s.dentries.get d).any fun dn =>
    dn.carries k && nsVisible s.ns m (dn.markNs k) (dn.markSeq k) := by
  cases k with
  | bind =>
    cases hget : s.dentries.get d with
    | none => simp [State.sees, State.boundFor, hget]
    | some dn =>
      simp only [State.sees, State.boundFor, hget, bind_some, any_some,
        Dentry.carries, Dentry.markNs, Dentry.markSeq]
      split <;> simp_all
  | ro => rfl

theorem nsVisible_child {ns : List Mntns} (hns : ParentsOlder ns) {n seq : ℕ} {r : Mntns}
    (hn : 0 < n) (hr : ns[n]? = some r) :
    nsVisible ns n r.parent seq = decide (seq < r.born) := by
  have hne : r.parent ≠ n := (hns n r hr hn).ne
  have hlt : n < ns.length := (List.getElem?_eq_some_iff.mp hr).1
  unfold nsVisible
  rw [decide_eq_false hne, Bool.false_or]
  obtain ⟨k, hk⟩ : ∃ k, ns.length = k + 1 := ⟨ns.length - 1, by omega⟩
  rw [hk]
  simp [inheritsFrom, hn.ne', hr]

def Dentry.mark (dn : Dentry) (k : Mark) : Option (ℕ × ℕ) :=
  bif dn.carries k then some (dn.markNs k, dn.markSeq k) else none

def State.markOf (s : State ψ) (k : Mark) (d : DentryId) : Option (ℕ × ℕ) :=
  (s.dentries.get d).bind (·.mark k)

theorem markOf_eq_some {k : Mark} {q : ℕ} : s.markOf k d = some (m, q) ↔
    ∃ dn, s.dentries.get d = some dn ∧ dn.carries k = true ∧ dn.markNs k = m ∧ dn.markSeq k = q := by
  simp [State.markOf, Dentry.mark, bind_eq_some_iff, Bool.cond_eq_ite]

def Stamps (l : Ledger ψ) : Prop :=
  ∀ k n r d q, 0 < n → l.vfs.ns[n]? = some r → l.vfs.markOf k d = some (r.parent, q) →
    (q < r.born ↔ l.madeAt k d < l.bornAt n)

theorem inherits_iff_stamps {l : Ledger ψ} (hns : ParentsOlder l.vfs.ns) :
    Inherits l ↔ Stamps l := by
  have hsees : ∀ {k n r d dn}, 0 < n → l.vfs.ns[n]? = some r → l.vfs.dentries.get d = some dn →
      dn.carries k = true → dn.markNs k = r.parent →
      (l.vfs.sees n d k = true ↔ dn.markSeq k < r.born) := by
    intro k n r d dn hn hr hdn hk hparent
    simp [sees_eq, hdn, hk, hparent, nsVisible_child hns hn hr]
  constructor
  · intro h k n r d q hn hr hmark
    obtain ⟨dn, hdn, hk, hparent, rfl⟩ := markOf_eq_some.mp hmark
    rw [← hsees hn hr hdn hk hparent]
    exact h k n r d dn hn hr hdn hk hparent
  · intro h k n r d dn hn hr hdn hk hparent
    rw [hsees hn hr hdn hk hparent]
    exact h k n r d _ hn hr (markOf_eq_some.mpr ⟨dn, hdn, hk, hparent, rfl⟩)

structure Timed (l : Ledger ψ) : Prop where
  bounded : Bounded l.vfs
  older : ParentsOlder l.vfs.ns
  born : ∀ n < l.vfs.ns.length, 0 < n → l.bornAt n < l.now
  made : ∀ {k d x}, l.vfs.markOf k d = some x → l.madeAt k d < l.now
  stamps : Stamps l

structure Fades (s t : State ψ) : Prop where
  ns : t.ns = s.ns
  mark : ∀ {k d x}, t.markOf k d = some x → s.markOf k d = some x

theorem SameMounts.fades (h : SameMounts s t) : Fades s t where
  ns := h.ns
  mark {k d x} hmark := by
    obtain ⟨dn, hget, hx⟩ := bind_eq_some_iff.mp hmark
    obtain ⟨-, hbound, hro⟩ | ⟨dn', hget', hmarks⟩ := h.dentry hget
    · cases k <;> simp [Dentry.mark, Dentry.carries, hbound, hro] at hx
    · simp only [Dentry.marks, Prod.mk.injEq] at hmarks
      rw [State.markOf, hget', bind_some, ← hx]
      cases k <;> simp [Dentry.mark, Dentry.carries, Dentry.markNs, Dentry.markSeq, hmarks]

theorem Fades.trans (h : Fades s t) (h' : Fades t u) : Fades s u where
  ns := h'.ns.trans h.ns
  mark hx := h.mark (h'.mark hx)

def Mark.other : Mark → Mark
  | .bind => .ro
  | .ro => .bind

section Modify

variable {f : Dentry → Dentry} {k k' : Mark} {e : ℕ} (hd : t.dentries = s.dentries.modify d f)
include hd

theorem markOf_modify : t.markOf k e =
    if e = d then (s.dentries.get e).bind fun dn => (f dn).mark k else s.markOf k e := by
  rw [State.markOf, hd, Heap.get_modify]
  split
  · cases s.dentries.get e <;> rfl
  · rfl

theorem mark_of_modify (hf : ∀ dn, (f dn).mark k.other = dn.mark k.other) (hne : ¬(k' = k ∧ e = d))
    {x : ℕ × ℕ} (hx : t.markOf k' e = some x) : s.markOf k' e = some x := by
  rw [markOf_modify hd] at hx
  split at hx
  next he =>
    have hk : k' = k.other := by
      cases k <;> cases k' <;> first | rfl | exact absurd ⟨rfl, he⟩ hne
    simp only [hk, hf] at hx ⊢
    exact hx
  · exact hx

end Modify

theorem fades_removeBind (target : DentryId) : Fades s (s.removeBind target) where
  ns := rfl
  mark {k d x} hx := by
    by_cases hnew : k = .bind ∧ d = target
    · obtain ⟨rfl, rfl⟩ := hnew
      rw [markOf_modify rfl, if_pos rfl] at hx
      cases hget : s.dentries.get d <;> rw [hget] at hx <;> cases hx
    · exact mark_of_modify rfl (by exact fun _ => rfl) hnew hx

structure Stamped (s t : State ψ) (k : Mark) (m : ℕ) (d : DentryId) : Prop where
  ns : t.ns = s.ns
  new : t.markOf k d = some (m, s.nextSeq)
  old : ∀ {k' e x}, ¬(k' = k ∧ e = d) → t.markOf k' e = some x → s.markOf k' e = some x

theorem stamped_modify {f : Dentry → Dentry} {k : Mark} (hns : t.ns = s.ns)
    (hd : t.dentries = s.dentries.modify d f) (hlive : (s.dentries.get d).isSome)
    (hk : ∀ dn, (f dn).mark k = some (m, s.nextSeq))
    (hf : ∀ dn, (f dn).mark k.other = dn.mark k.other) : Stamped s t k m d := by
  refine ⟨hns, ?_, fun hne hx => mark_of_modify hd hf hne hx⟩
  obtain ⟨dn, hdn⟩ := isSome_iff_exists.mp hlive
  rw [markOf_modify hd, if_pos rfl, hdn]
  exact hk dn

theorem Fills.fades (h : Fills drv s t) : Fades s t :=
  (Fills.changes (c := kernelTask) (G := fun _ _ => true) h).sameMounts.fades

theorem Stamped.after {k : Mark} (h : Stamped t u k m d) (hf : Fills drv s t) :
    Stamped s u k m d where
  ns := h.ns.trans (Fills.extends hf).ns
  new := by
    have hnext : t.nextSeq = s.nextSeq := by simp [State.nextSeq, (Fills.extends hf).bindSeq]
    rw [← hnext]
    exact h.new
  old hne hx := hf.fades.mark (h.old hne hx)

theorem nextSeq_ne : s.nextSeq ≠ s.bindSeq := by
  unfold State.nextSeq seqWrap
  omega

inductive Effect (drv : Drivers ψ) (s : State ψ) (call : HistoryCall) : Prop
  | fades : (∀ parent, call = .new parent → ¬(s.ns.length < maxMntns ∧ parent < s.ns.length)) →
      call.makes drv s = none → Fades s (call.run drv s) → Effect drv s call
  | stamped (k : Mark) (m : ℕ) (d : DentryId) : (∀ parent, call ≠ .new parent) →
      call.makes drv s = some (k, m, d) → Stamped s (call.run drv s) k m d → Effect drv s call
  | created (parent : ℕ) : call = .new parent → s.ns.length < maxMntns ∧ parent < s.ns.length →
      Effect drv s call

theorem effect_bind (hg : Grounded c s) (src tgt : Path) :
    Bounded (vfsBind drv c s src tgt).2 ∧ Effect drv s (.bind c src tgt) := by
  have hf := bindPaths_fills drv c s src tgt
  rcases hp : bindPaths drv c s src tgt with ⟨⟨source, target⟩, s1⟩
  rw [hp] at hf
  have hb := Fills.bounded hf hg.bounded
  have hrefused : HistoryCall.makes drv s (.bind c src tgt) = none →
      (vfsBind drv c s src tgt).2 = s1 →
      Bounded (vfsBind drv c s src tgt).2 ∧ Effect drv s (.bind c src tgt) := fun h h' =>
    ⟨h' ▸ hb, .fades (fun _ h => by cases h) h (by simpa [HistoryCall.run, h'] using hf.fades)⟩
  rcases source with _ | source
  · exact hrefused (by simp [HistoryCall.makes, hp]) (by simp [vfsBind, hp])
  rcases target with _ | target
  · exact hrefused (by simp [HistoryCall.makes, hp]) (by simp [vfsBind, hp])
  obtain hsame | ⟨hnew, hsource, hlive⟩ := bindDentries_cases (c := c) (s := s1) source target
  · exact hrefused (by simp [HistoryCall.makes, hp, hsame]) (by simp [vfsBind, hp, hsame])
  · have hrun : (vfsBind drv c s src tgt).2 = s1.installBind c.mntns target source := by
      simp [vfsBind, hp, hnew]
    have hseq : (s1.installBind c.mntns target source).bindSeq ≠ s1.bindSeq := nextSeq_ne
    obtain ⟨sn, hsn⟩ := isSome_iff_exists.mp hsource
    refine ⟨hrun ▸ hb.installBind c.mntns (Heap.lt_next hsn), .stamped .bind c.mntns target
      (fun _ h => by cases h) (by simp [HistoryCall.makes, hp, hnew, hseq]) ?_⟩
    rw [HistoryCall.run, hrun]
    exact (stamped_modify (s := s1) (t := s1.installBind c.mntns target source) (k := .bind) rfl rfl
      hlive (by exact fun _ => rfl) (by exact fun _ => rfl)).after hf

theorem effect_unbind (hg : Grounded c s) (fuel : ℕ) (tgt : Path) :
    Bounded (vfsUnbind drv c fuel s tgt).2 ∧ Effect drv s (.unbind c fuel tgt) := by
  have hf := bindTarget_fills drv c s tgt
  suffices h : Bounded (vfsUnbind drv c fuel s tgt).2 ∧ Fades s (vfsUnbind drv c fuel s tgt).2 from
    ⟨h.1, .fades (fun _ h => by cases h) rfl h.2⟩
  unfold vfsUnbind
  rcases ht : bindTarget drv c s tgt with ⟨_ | target, s1⟩ <;> rw [ht] at hf
  · exact ⟨Fills.bounded hf hg.bounded, hf.fades⟩
  · have hg1 := Fills.grounded hf hg
    have hremove := hf.fades.trans (fades_removeBind target)
    have hb := hg1.bounded.removeBind target
    dsimp only
    split
    · exact ⟨hg1.bounded, hf.fades⟩
    split
    · exact ⟨hb, hremove⟩
    · -- the anonymous directory goes too
      rename_i anon _
      have hrec : Changes drv c (fun _ _ => true) (s1.removeBind target)
          (vfsUnlinkRecursive drv c fuel (s1.removeBind target) anon).2 :=
        vfsUnlinkRecursive_changes (recursiveGuarded_true _ _)
      exact ⟨hrec.bounded hb, hremove.trans hrec.sameMounts.fades⟩

theorem effect_readonly (hg : Grounded c s) (path : Path) (ro : Bool) :
    Bounded (vfsSetReadonly drv c s path ro).2 ∧ Effect drv s (.readonly c path ro) := by
  have hf : Fills drv s
      (if path = ['/'] then (some (s.base c), s) else bindTarget drv c s path).2 := by
    split
    · exact .refl
    · exact bindTarget_fills drv c s path
  rcases ht : (if path = ['/'] then (some (s.base c), s) else bindTarget drv c s path) with
    ⟨_ | target, s1⟩ <;> rw [ht] at hf
  · have hrun : (vfsSetReadonly drv c s path ro).2 = s1 := by simp [vfsSetReadonly, ht]
    refine ⟨hrun ▸ Fills.bounded hf hg.bounded, .fades (fun _ h => by cases h) ?_ ?_⟩
    · simp [HistoryCall.makes, ht]
    · rw [HistoryCall.run, hrun]
      exact hf.fades
  · have hrun : (vfsSetReadonly drv c s path ro).2 = s1.markReadonly c.mntns target ro := by
      simp [vfsSetReadonly, ht]
    refine ⟨hrun ▸ (Fills.bounded hf hg.bounded).markReadonly _ _ _, ?_⟩
    by_cases hmark : (ro && (s1.dentries.get target).isSome) = true
    · obtain ⟨rfl, hlive⟩ := Bool.and_eq_true_iff.mp hmark
      refine .stamped .ro c.mntns target (fun _ h => by cases h) ?_ ?_
      · simp [HistoryCall.makes, ht, hlive]
      · rw [HistoryCall.run, hrun]
        exact (stamped_modify (s := s1) (t := s1.markReadonly c.mntns target true) (k := .ro) rfl rfl
          hlive (by exact fun _ => rfl) (by exact fun _ => rfl)).after hf
    · refine .fades (fun _ h => by cases h) ?_ ?_
      · simp only [HistoryCall.makes, ht, if_neg hmark]
      · rw [HistoryCall.run, hrun]
        refine hf.fades.trans ⟨rfl, fun {k d x} hx => ?_⟩
        by_cases hnew : k = .ro ∧ d = target
        · obtain ⟨rfl, rfl⟩ := hnew
          rw [markOf_modify rfl, if_pos rfl] at hx
          cases hget : s1.dentries.get d with
          | none => simp [hget] at hx
          | some dn =>
            have hro : ro = false := by simpa [hget] using hmark
            simp [hget, hro, Dentry.mark, Dentry.carries] at hx
        · exact mark_of_modify rfl (by exact fun _ => rfl) hnew hx

variable (drv) in
theorem effect_of_legal {call : HistoryCall} (hb : Bounded s) (hlegal : call.Legal s) :
    Bounded (call.run drv s) ∧ Effect drv s call := by
  cases call with
  | new parent =>
    by_cases hroom : s.ns.length < maxMntns ∧ parent < s.ns.length
    · have hrun : HistoryCall.run drv s (.new parent) =
          { s with ns := s.ns ++ [{ parent, born := s.bindSeq }] } := by
        simp [HistoryCall.run, vfsMntnsNew, hroom]
      exact ⟨hrun ▸ hb.addNs _, .created parent rfl hroom⟩
    · have hrun : HistoryCall.run drv s (.new parent) = s := by
        simp only [HistoryCall.run, vfsMntnsNew, if_neg hroom]
      refine ⟨by rwa [hrun], .fades (fun q hq => ?_) rfl ?_⟩
      · cases hq
        exact hroom
      · rw [hrun]
        exact (SameMounts.refl s).fades
  | bind c src tgt => exact effect_bind ⟨hb, hlegal⟩ src tgt
  | unbind c fuel tgt => exact effect_unbind ⟨hb, hlegal⟩ fuel tgt
  | readonly c path ro => exact effect_readonly ⟨hb, hlegal⟩ path ro
  | tree c call =>
    have hch : Changes drv c (fun _ _ => true) s (call.run drv c s) :=
      Call.changes call.guarded_true
    exact ⟨hch.bounded hb, .fades (fun _ h => by cases h) rfl hch.sameMounts.fades⟩

section Step

variable {l : Ledger ψ} {call : HistoryCall}

theorem bornAt_step {n : ℕ} (hn : n < l.vfs.ns.length) : (l.step drv call).bornAt n = l.bornAt n :=
  if_pos hn

theorem Timed.born_step (ht : Timed l) (hns : (call.run drv l.vfs).ns = l.vfs.ns) :
    ∀ n < (call.run drv l.vfs).ns.length, 0 < n → (l.step drv call).bornAt n < l.now + 1 := by
  intro n hn hpos
  rw [hns] at hn
  rw [bornAt_step hn]
  exact Nat.lt_succ_of_lt (ht.born n hn hpos)

theorem Timed.fades (ht : Timed l) (hb : Bounded (call.run drv l.vfs))
    (hmakes : call.makes drv l.vfs = none) (hf : Fades l.vfs (call.run drv l.vfs)) :
    Timed (l.step drv call) := by
  have hns : (l.step drv call).vfs.ns = l.vfs.ns := hf.ns
  have hmade : (l.step drv call).madeAt = l.madeAt := by simp [Ledger.step, hmakes]
  refine ⟨hb, hns.symm ▸ ht.older, ht.born_step hns, ?_, ?_⟩
  · intro k d x hx
    rw [hmade]
    exact Nat.lt_succ_of_lt (ht.made (hf.mark hx))
  · intro k n r d q hpos hr hq
    rw [hns] at hr
    rw [hmade, bornAt_step (List.getElem?_eq_some_iff.mp hr).1]
    exact ht.stamps k n r d q hpos hr (hf.mark hq)

-- A mark just made is younger than every namespace, and the stamps agree exactly when no namespace
-- made from its own is born later.
theorem Timed.stamped (ht : Timed l) (hb : Bounded (call.run drv l.vfs)) {k : Mark}
    (hmakes : call.makes drv l.vfs = some (k, m, d))
    (hst : Stamped l.vfs (call.run drv l.vfs) k m d) :
    ParentsOlder (l.step drv call).vfs.ns ∧
      (Stamps (l.step drv call) → BirthsOlder l.vfs m) ∧
      (BirthsOlder l.vfs m → Timed (l.step drv call)) := by
  rw [birthsOlder_iff]
  have hns : (l.step drv call).vfs.ns = l.vfs.ns := hst.ns
  have hmade : ∀ k' d', (l.step drv call).madeAt k' d' =
      if k' = k ∧ d' = d then l.now else l.madeAt k' d' := by simp [Ledger.step, hmakes]
  have hborn : ∀ {n r}, 0 < n → l.vfs.ns[n]? = some r → (l.step drv call).bornAt n < l.now := by
    intro n r hpos hr
    have hn := (List.getElem?_eq_some_iff.mp hr).1
    rw [bornAt_step hn]
    exact ht.born n hn hpos
  refine ⟨hns.symm ▸ ht.older, fun h n r hpos hr hparent => ?_, fun hnot => ⟨hb, hns.symm ▸ ht.older,
    ht.born_step hns, ?_, ?_⟩⟩
  · have hiff := h k n r d _ hpos (hns.symm ▸ hr) (hparent ▸ hst.new)
    rw [hmade, if_pos ⟨rfl, rfl⟩] at hiff
    have := hborn hpos hr
    omega
  · intro k' e x hx
    rw [hmade]
    split
    · exact Nat.lt_succ_self _
    · exact Nat.lt_succ_of_lt (ht.made (hst.old ‹_› hx))
  · intro k' n r e q hpos hr hq
    rw [hns] at hr
    rw [hmade]
    split
    next hnew =>
      obtain ⟨rfl, rfl⟩ := hnew
      cases hst.new.symm.trans hq
      have hle := hnot n r hpos hr rfl
      have hlt := hborn hpos hr
      omega
    · rw [bornAt_step (List.getElem?_eq_some_iff.mp hr).1]
      exact ht.stamps k' n r e q hpos hr (hst.old ‹_› hq)

theorem Timed.created (ht : Timed l) {parent : ℕ}
    (hroom : l.vfs.ns.length < maxMntns ∧ parent < l.vfs.ns.length) :
    ParentsOlder (l.step drv (.new parent)).vfs.ns ∧
      (Stamps (l.step drv (.new parent)) → MarksOlder l.vfs parent) ∧
      (MarksOlder l.vfs parent → Timed (l.step drv (.new parent))) := by
  have hrun : (l.step drv (.new parent)).vfs =
      { l.vfs with ns := l.vfs.ns ++ [{ parent, born := l.vfs.bindSeq }] } := by
    simp [Ledger.step, HistoryCall.run, vfsMntnsNew, hroom]
  have hborn : (l.step drv (.new parent)).bornAt l.vfs.ns.length = l.now := if_neg (lt_irrefl _)
  have holder : ParentsOlder (l.step drv (.new parent)).vfs.ns := by
    rw [hrun]
    exact ht.older.concat hroom.2
  have hpos : 0 < l.vfs.ns.length := Nat.zero_lt_of_lt hroom.2
  refine ⟨holder, fun h d dn hdn k hk hparent => ?_, fun hall => ⟨?_, holder, ?_, ?_, ?_⟩⟩
  · have hmark := markOf_eq_some.mpr ⟨dn, hdn, hk, hparent, rfl⟩
    have hiff := h k l.vfs.ns.length { parent, born := l.vfs.bindSeq } d _ hpos
      (by rw [hrun]; exact getElem?_concat_length) (by rw [hrun]; exact hmark)
    exact hiff.mpr (by rw [hborn]; exact ht.made hmark)
  · rw [hrun]
    exact ht.bounded.addNs _
  · intro n hn hpos
    rw [hrun] at hn
    simp only [length_append, length_singleton] at hn
    by_cases hold : n < l.vfs.ns.length
    · rw [bornAt_step hold]
      exact Nat.lt_succ_of_lt (ht.born n hold hpos)
    · obtain rfl : n = l.vfs.ns.length := by omega
      rw [hborn]
      exact Nat.lt_succ_self _
  · intro k d x hx
    rw [hrun] at hx
    exact Nat.lt_succ_of_lt (ht.made hx)
  · intro k n r d q hpos hr hq
    rw [hrun] at hr hq
    obtain hr | ⟨rfl, rfl⟩ := concat_cases hr
    · rw [bornAt_step (List.getElem?_eq_some_iff.mp hr).1]
      exact ht.stamps k n r d q hpos hr hq
    · rw [hborn]
      obtain ⟨dn, hdn, hk, hparent, rfl⟩ := markOf_eq_some.mp hq
      exact iff_of_true (hall d dn hdn k hk hparent) (ht.made hq)

variable (drv) in
theorem timed_step (ht : Timed l) (hlegal : call.Legal l.vfs) :
    ParentsOlder (l.step drv call).vfs.ns ∧
      (Stamps (l.step drv call) → timely drv l call = true) ∧
      (timely drv l call = true → Timed (l.step drv call)) := by
  obtain ⟨hb, heff⟩ := effect_of_legal drv ht.bounded hlegal
  cases heff with
  | fades hnew hmakes hf =>
    have htimed := ht.fades hb hmakes hf
    refine ⟨htimed.older, fun _ => ?_, fun _ => htimed⟩
    cases call with
    | new parent => simp [timely, hnew parent rfl]
    | _ => simp [timely, hmakes]
  | stamped k m d hcall hmakes hst =>
    have hiff : timely drv l call = true ↔ BirthsOlder l.vfs m := by
      cases call with
      | new parent => exact absurd rfl (hcall parent)
      | _ => simp [timely, hmakes]
    rw [hiff]
    exact ht.stamped hb hmakes hst
  | created parent hcall hroom =>
    subst hcall
    have hiff : timely drv l (.new parent) = true ↔ MarksOlder l.vfs parent := by
      simp [timely, hroom]
    rw [hiff]
    exact ht.created hroom

end Step

structure Unmarked (s : State ψ) : Prop extends Unmounted s where
  unmarked : ∀ {d dn}, s.dentries.get d = some dn → dn.ro = false

theorem timed_start (hs : Unmarked s) : Timed (Ledger.start s) := by
  obtain ⟨r, hns, -⟩ := hs.ns
  have hbare : ∀ {k d x}, s.markOf k d ≠ some x := by
    intro k d x hx
    obtain ⟨dn, hget, hk, -⟩ := markOf_eq_some.mp hx
    cases k <;> simp [Dentry.carries, hs.unbound hget, hs.unmarked hget] at hk
  have hsingle : ∀ {n q}, s.ns[n]? = some q → n = 0 := by
    intro n q hq
    have := (List.getElem?_eq_some_iff.mp hq).1
    simp only [hns, List.length_singleton] at this
    omega
  refine ⟨hs.bounded, ?_, ?_, fun hx => absurd hx hbare, ?_⟩
  · intro n q hq hpos
    have := hsingle hq
    omega
  · intro n hn hpos
    simp only [Ledger.start, hns, length_singleton] at hn
    omega
  · intro k n r d q _ _ hq
    exact absurd hq hbare

-- A namespace inherits exactly what existed at its creation in the runs whose stamps tell the
-- order of calls and in no other.
theorem inherits_always_iff (hs : Unmarked s) (calls : List HistoryCall)
    (hlegal : Allowed (Ledger.step drv) (fun l call => call.Legal l.vfs) (.start s) calls) :
    Always (Ledger.step drv) Inherits (.start s) calls ↔
      Allowed (Ledger.step drv) (fun l call => timely drv l call = true) (.start s) calls := by
  refine always_iff_allowed ?_ ?_ ?_ (timed_start hs) hlegal
  · intro l call ht hok htimely
    exact (timed_step drv ht hok).2.2 htimely
  · intro l ht
    exact (inherits_iff_stamps ht.older).mpr ht.stamps
  · intro l call ht hok hP
    obtain ⟨holder, hstamps, -⟩ := timed_step drv ht hok
    exact hstamps ((inherits_iff_stamps holder).mp hP)

theorem unmarked_bootTree (v : ψ) : Unmarked (bootTree v) where
  toUnmounted := unmounted_bootTree v
  unmarked {d dn} h := by
    have hall : (bootTree ()).dentries.All fun _ dn => dn.ro = false := by decide
    exact hall d dn h

-- A bind, a mark and one more stamp before the namespace, then a bind it must not see.
def timelyCalls : List HistoryCall :=
  [.bind kernelTask "/etc".toList "/mnt".toList, .readonly kernelTask "/dev".toList true,
    .readonly kernelTask "/proc".toList false, .new 0, .tree kernelTask (.unlink "/proc".toList),
    .bind kernelTask "/etc".toList "/tmp".toList, .unbind childTask 1 "/mnt".toList]

theorem timelyCalls_inherits :
    Always (Ledger.step noVolumes) Inherits (.start (bootTree ())) timelyCalls :=
  (inherits_always_iff (unmarked_bootTree ()) timelyCalls (by decide +kernel)).mpr
    (by decide +kernel)

-- The bind made right before the namespace is created.
def lastBindCalls : List HistoryCall := [.bind kernelTask "/etc".toList "/mnt".toList, .new 0]

theorem lastBindCalls_not_inherits :
    Allowed (Ledger.step noVolumes) (fun l call => call.Legal l.vfs) (.start (bootTree ()))
        lastBindCalls ∧
      ¬Always (Ledger.step noVolumes) Inherits (.start (bootTree ())) lastBindCalls := by
  refine ⟨by decide +kernel, fun h => ?_⟩
  have hlast := h.2.2 .bind 1 { parent := 0, born := 1 } 5
    { name := "mnt".toList, inode := some 5, parent := some 0, bound := some 1, boundSeq := 1 }
  revert hlast
  decide +kernel

end DosKernel.Vfs
