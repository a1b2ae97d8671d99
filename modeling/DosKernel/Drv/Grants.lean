import DosKernel.Drv.Resources

namespace DosKernel.Drv

open DosKernel.Lib Table List
open Function (update update_of_ne update_self)

variable {D : Type*} [DecidableEq D] {s s' : Table D} {d : D} {i : ℕ} {r : Res D} {b : Block}

def Unclaimed (s : Table D) (d : D) (i : ℕ) : Prop := ∀ e, e ≠ d → i ∉ s.listed e

-- A request that keeps a slot gets one that no other driver's list still names, a block given for
-- a DMA buffer passes the width check, and the byte count did not wrap to no frames.
def Clean (x86 : Bool) (s : Table D) : Act D → Prop
  | .ports d base count => x86 = true → count ≠ 0 → s.portClash base count = false →
      ∀ i, s.slotFor d = some i → Unclaimed s d i
  | .mmio d _ _ _ => ∀ i, s.slotFor d = some i → Unclaimed s d i
  | .irq d line _ => 0 ≤ line → line < maxIrq → s.line line.toNat = none →
      ∀ i, s.slotFor d = some i → Unclaimed s d i
  | .dma d bytes addrBits phys => bytes ≠ 0 → ∀ i, s.slotFor d = some i →
      match grab (width addrBits) (frames bytes) phys with
      | .stuck => Unclaimed s d i
      | .failed => True
      | .block b => Fits (width addrBits) (frames bytes) b.1 ∧ frames bytes ≠ 0 ∧ Unclaimed s d i
  | .releaseAll _ => True

def Routes (s : Table D) (i : ℕ) (r : Res D) (line : ℕ → Option ℕ) : Prop :=
  line = s.line ∧ (r.used = true → r.kind ≠ .irq) ∨
    line = update s.line r.base (some i) ∧ r.used = true ∧ r.kind = .irq ∧ r.base < maxIrq ∧
      s.line r.base = none

-- What a request comes to, and whether that is clean: the entry `r` in slot `i`, with its line or
-- its block, or the slot given up again; or a block is lost.
inductive Requested (s : Table D) (d : D) : Table D → Prop → Prop
  | refused : Requested s d s True
  | placed {i : ℕ} {r : Res D} {line : ℕ → Option ℕ} {taken : List Block}
      (hi : s.slotFor d = some i) (hd : r.used = true → r.owner = d)
      (hq : (r.masked = (s.slot i).masked ∨ r.masked = false) ∧ r.excl = (s.slot i).excl)
      (hl : Routes s i r line) (ht : taken = r.held.toList ++ s.taken) :
      Requested s d { s.place d i r with line, taken } (r.used = true → Unclaimed s d i)
  | lost {i : ℕ} {r : Res D} {b : Block} (hi : s.slotFor d = some i) (hf : r.held = none) :
      Requested s d { s.place d i r with taken := b :: s.taken } False

omit [DecidableEq D] in
theorem slotFor_spec (h : s.slotFor d = some i) : i < maxRes ∧ (s.slot i).used = false := by
  unfold slotFor at h
  split at h
  · cases h
  · have hmem := mem_of_find?_eq_some h
    have hfree := find?_some h
    exact ⟨mem_range.mp hmem, by simpa using hfree⟩

theorem held_place (h : s.slotFor d = some i) :
    (s.place d i r).held.Perm (r.held.toList ++ s.held) := by
  obtain ⟨hi, hfree⟩ := slotFor_spec h
  have hset := held_setSlot (s := s) (r := r) hi
  rw [Res.held_of_unused hfree, Option.toList_none, nil_append] at hset
  exact hset

theorem routed_place (h : Routed s) (hi : s.slotFor d = some i)
    (hr : r.used = true → r.kind ≠ .irq) : Routed (s.place d i r) :=
  h.change rfl (fun _ => iff_of_false (h.unused (slotFor_spec hi).2) fun hnew => hr hnew.1 hnew.2.1)
    fun _ _ _ => .rfl

theorem routed_place_line (h : Routed s) (hi : s.slotFor d = some i) (hu : r.used = true)
    (hk : r.kind = .irq) (hl : r.base < maxIrq) (hfree : s.line r.base = none) :
    Routed { s.place d i r with line := update s.line r.base (some i) } := by
  refine h.change rfl (fun l => ?_) fun l j hj => ?_ <;> dsimp only
  · refine update_rule l (iff_of_true rfl ⟨hu, hk, rfl, hl⟩) fun hb => ?_
    exact iff_of_false (h.unused (slotFor_spec hi).2) fun hr => hb hr.2.2.1.symm
  · refine update_rule l (iff_of_false (fun he => hj (Option.some.inj he).symm) ?_) fun _ => .rfl
    simp [hfree]

theorem quiet_place (h : Core s) (hm : r.masked = (s.slot i).masked ∨ r.masked = false)
    (he : r.excl = (s.slot i).excl) (j : ℕ) :
    ((s.place d i r).slot j).masked = false ∧ ((s.place d i r).slot j).excl = false := by
  change (update s.slot i r j).masked = false ∧ (update s.slot i r j).excl = false
  refine update_rule j ⟨?_, he.trans (h.quiet i).2⟩ fun _ => h.quiet j
  cases hm with
  | inl hm => rw [hm, (h.quiet i).1]
  | inr hm => exact hm

theorem Inv.place (h : Inv s) (hi : s.slotFor d = some i)
    (hr : r.used = true → r.owner = d ∧ Unclaimed s d i) (hcore : Core s')
    (hslot : s'.slot = update s.slot i r)
    (hlist : s'.listed = update s.listed d (s.listed d ++ [i])) : Inv s' where
  toCore := hcore
  own := by
    intro e j hj hu
    rw [hslot] at hu ⊢
    rw [hlist] at hj
    revert hu hj
    refine update_rule j (fun hj hu => ?_) fun hji => ?_
    · obtain ⟨hd, hclaim⟩ := hr hu
      rw [hd]
      revert hj
      exact update_rule e (fun _ => rfl) fun he hj => absurd hj (hclaim e he)
    · refine update_rule e (fun hj hu => ?_) fun _ => h.own e j
      rw [mem_append, mem_singleton] at hj
      exact h.own d j (hj.resolve_right hji) hu
  mine := by
    intro j hu
    rw [hslot] at hu ⊢
    rw [hlist]
    revert hu
    refine update_rule j (fun hu => ?_) fun _ hu => ?_
    · rw [(hr hu).1, update_self]
      exact mem_append_right _ mem_cons_self
    · have hold := h.mine j hu
      revert hold
      exact update_rule (s.slot j).owner (mem_append_left _) fun _ => id
  bound := by
    intro e j hj
    rw [hlist] at hj
    revert hj
    refine update_rule e (fun hj => ?_) fun _ => h.bound e j
    rw [mem_append, mem_singleton] at hj
    cases hj with
    | inl hj => exact h.bound d j hj
    | inr hj => exact hj ▸ (slotFor_spec hi).1

theorem unclaimed_of_sound (hs : Sound s') (hslot : s'.slot = update s.slot i r)
    (hlist : s'.listed = update s.listed d (s.listed d ++ [i])) (hu : r.used = true) :
    Unclaimed s d i := by
  intro e he hmem
  have hused : (s'.slot i).used = true := by rw [hslot, update_self, hu]
  obtain ⟨o, -, honly⟩ := hs.listed i hused
  have hd : i ∈ s'.listed d := by simp [hlist]
  have hother : i ∈ s'.listed e := by
    rw [hlist, update_of_ne he]
    exact hmem
  exact he ((honly e hother).trans (honly d hd).symm)

theorem Requested.inv {ok : Prop} (hreq : Requested s d s' ok) (h : Inv s) (hok : ok) : Inv s' := by
  cases hreq with
  | refused => exact h
  | placed hi hd hq hl ht =>
    refine h.place hi (fun hu => ⟨hd hu, hok hu⟩)
      ⟨?_, ?_, quiet_place (d := d) h.toCore hq.1 hq.2⟩ rfl rfl
    · obtain ⟨rfl, hk⟩ | ⟨rfl, hu, hk, hlt, hfree⟩ := hl
      · exact routed_place h.routed hi hk
      · exact routed_place_line h.routed hi hu hk hlt hfree
    · subst ht
      exact ((h.balanced.append_left _).trans (perm_append_comm_assoc _ _ _)).trans
        ((held_place hi).symm.append_left _)
  | lost => exact hok.elim

theorem Requested.clean {ok : Prop} (hreq : Requested s d s' ok) (h : Inv s) (hs : Sound s') :
    ok := by
  cases hreq with
  | refused => trivial
  | placed => exact unclaimed_of_sound hs rfl rfl
  | @lost i r b hi hf =>
    -- one more block was given out, and none is held or back for it
    have hheld := (held_place (r := r) hi).length_eq
    rw [hf, Option.toList_none, nil_append] at hheld
    have hafter := hs.balanced.length_eq
    have hbefore := h.balanced.length_eq
    change (b :: s.taken).length = (s.back ++ (s.place d i r).held).length at hafter
    simp only [length_cons, length_append] at hafter hbefore
    omega

theorem order_spec {n o : ℕ} (h : order n = some o) : n ≤ 1 <<< o := by
  simpa using find?_some h

theorem grabOrder_spec {phys : ℕ} {o : Option ℕ} (h : grabOrder phys o = .block b) :
    o = some b.2 ∧ b.2 ≤ maxOrder ∧ b.1 = phys ∧ phys ≠ 0 := by
  cases o with
  | none => cases h
  | some o =>
    simp only [grabOrder] at h
    split at h
    · cases h
    next hno =>
      have hb := Grab.block.inj h
      subst hb
      exact ⟨rfl, by omega, rfl, by omega⟩

theorem grab_spec {w n phys : ℕ} (h : grab w n phys = .block b) (hn : n ≠ 0) :
    n % 4294967296 ≠ 0 ∧ order (n % 4294967296) = some b.2 ∧ b.2 ≤ maxOrder ∧ b.1 ≠ 0 := by
  unfold grab at h
  split at h
  · obtain ⟨ho, hmax, hb, hphys⟩ := grabOrder_spec h
    have hle : n ≤ 1 <<< maxOrder :=
      Nat.le_trans (order_spec ho) (by
        rw [Nat.one_shiftLeft, Nat.one_shiftLeft]
        exact Nat.pow_le_pow_right (by decide) hmax)
    have hsmall : n % 4294967296 = n :=
      Nat.mod_eq_of_lt (Nat.lt_of_le_of_lt hle (by decide))
    rw [hsmall]
    exact ⟨hn, ho, hmax, hb ▸ hphys⟩
  · split at h
    · cases h
    next hmod =>
      obtain ⟨ho, hmax, hb, hphys⟩ := grabOrder_spec h
      exact ⟨hmod, ho, hmax, hb ▸ hphys⟩

omit [DecidableEq D] in
theorem Res.freed_of_grab {w n phys : ℕ} (h : grab w n phys = .block b) (hn : n ≠ 0)
    (hk : r.kind = .dma) (hb : r.base = b.1) (hl : r.len = n * 4096) : r.freed = some b := by
  obtain ⟨hmod, ho, hmax, hne⟩ := grab_spec h hn
  have hlen : r.len / 4096 = n := by rw [hl, Nat.mul_div_cancel n (by decide)]
  simp [Res.freed, hk, hb, hlen, hmod, ho, hne, Nat.not_lt.mpr hmax]

omit [DecidableEq D] in
theorem Res.freed_of_len (h : r.len = 0) : r.freed = none := by
  simp [Res.freed, h]

theorem setSlot_place {q : Res D} : (s.place d i r).setSlot i q = s.place d i q := by
  simp [place, setSlot]

theorem slot_place_self : (s.place d i r).slot i = r := by
  simp [place, setSlot]

def Outcome (s : Table D) (d : D) (s' : Table D) (c : Prop) : Prop :=
  ∃ p, Requested s d s' p ∧ (c ↔ p)

theorem Outcome.refused {c : Prop} (h : c) : Outcome s d s c :=
  ⟨True, .refused, iff_of_true h trivial⟩

theorem Outcome.granted {line : ℕ → Option ℕ} {taken : List Block} (hi : s.slotFor d = some i)
    (hu : r.used = true ∧ r.owner = d)
    (hq : (r.masked = (s.slot i).masked ∨ r.masked = false) ∧ r.excl = (s.slot i).excl)
    (hl : Routes s i r line) (ht : taken = r.freed.toList ++ s.taken) :
    Outcome s d { s.place d i r with line, taken } (Unclaimed s d i) := by
  rw [← Res.held_of_used hu.1] at ht
  exact ⟨_, .placed hi (fun _ => hu.2) hq hl ht, fun h _ => h, fun h => h hu.1⟩

theorem Outcome.plain (hi : s.slotFor d = some i) (hu : r.used = true ∧ r.owner = d)
    (hq : r.masked = (s.slot i).masked ∧ r.excl = (s.slot i).excl) (hk : r.kind ≠ .irq)
    (hf : r.freed = none) : Outcome s d (s.place d i r) (Unclaimed s d i) :=
  .granted hi hu ⟨.inl hq.1, hq.2⟩ (.inl ⟨rfl, fun _ => hk⟩) (by rw [hf]; rfl)

theorem Outcome.guard {g c : Prop} [Decidable g] (h : Outcome s d s' c) :
    Outcome s d (if g then s' else s) (g → c) := by
  by_cases hg : g
  · rw [if_pos hg]
    obtain ⟨p, hreq, hiff⟩ := h
    exact ⟨p, hreq, (forall_prop_of_true hg).trans hiff⟩
  · rw [if_neg hg]
    exact .refused (fun h => absurd h hg)

theorem Outcome.alloc {f : ℕ → Table D} {c : ℕ → Prop}
    (h : ∀ i, s.slotFor d = some i → Outcome s d (f i) (c i)) :
    Outcome s d ((s.slotFor d).elim s f) (∀ i, s.slotFor d = some i → c i) := by
  cases hi : s.slotFor d with
  | none => exact .refused (fun i h => by cases h)
  | some i =>
    obtain ⟨p, hreq, hiff⟩ := h i hi
    refine ⟨p, hreq, ?_⟩
    rw [← hiff]
    constructor
    · intro hall
      exact hall i rfl
    · intro hok j hj
      cases hj
      exact hok

variable {x86 : Bool}

def Table.entry (s : Table D) (d : D) (i : ℕ) (kind : ResKind) (base len : ℕ) : Res D :=
  { s.slot i with
    used := true, kind := kind, owner := d, base := base, len := len, va := 0, dev := 0 }

theorem snd_portsRequest {base count : ℕ} : (s.portsRequest x86 d base count).2 =
    if x86 = true ∧ count ≠ 0 ∧ s.portClash base count = false then
      (s.slotFor d).elim s fun i => s.place d i (s.entry d i .ports base count)
    else s := by
  unfold portsRequest
  cases x86 with
  | false => simp
  | true =>
    by_cases hc : count = 0
    · simp [hc]
    · cases hclash : s.portClash base count with
      | true => simp [hc]
      | false =>
        cases hi : s.slotFor d with
        | none => simp [hc, resAlloc, hi]
        | some i =>
          simp [hc, resAlloc, hi, setSlot_place, slot_place_self, entry]

theorem portsRequest_outcome {base count : ℕ} :
    Outcome s d (s.portsRequest x86 d base count).2 (Clean x86 s (.ports d base count)) := by
  have hslot : ∀ i, s.slotFor d = some i →
      Outcome s d (s.place d i (s.entry d i .ports base count)) (Unclaimed s d i) := by
    intro i hi
    exact .plain hi ⟨rfl, rfl⟩ ⟨rfl, rfl⟩ ResKind.noConfusion
      (Res.freed_of_kind ResKind.noConfusion)
  rw [snd_portsRequest]
  simpa only [Clean, and_imp] using (Outcome.alloc hslot).guard
    (g := x86 = true ∧ count ≠ 0 ∧ s.portClash base count = false)

theorem mmioRequest_outcome {phys len va : ℕ} :
    Outcome s d (s.mmioRequest x86 d phys len va).2 (Clean x86 s (.mmio d phys len va)) := by
  have hslot : ∀ i, s.slotFor d = some i →
      Outcome s d (s.place d i { s.entry d i .mmio phys len with va := if x86 then phys else va })
        (Unclaimed s d i) := by
    intro i hi
    exact .plain hi ⟨rfl, rfl⟩ ⟨rfl, rfl⟩ ResKind.noConfusion
      (Res.freed_of_kind ResKind.noConfusion)
  have hsnd : (s.mmioRequest x86 d phys len va).2 = (s.slotFor d).elim s fun i =>
      s.place d i { s.entry d i .mmio phys len with va := if x86 then phys else va } := by
    unfold mmioRequest
    cases hi : s.slotFor d with
    | none => simp [resAlloc, hi]
    | some i => simp [resAlloc, hi, setSlot_place, slot_place_self, entry]
  rw [hsnd]
  exact Outcome.alloc hslot

theorem irqRequest_outcome {line : ℤ} {level : Bool} :
    Outcome s d (s.irqRequest d line level).2 (Clean x86 s (.irq d line level)) := by
  let r := fun i => { s.entry d i .irq line.toNat 0 with level := level, masked := false }
  have hsnd : (s.irqRequest d line level).2 =
      if 0 ≤ line ∧ line < maxIrq ∧ s.line line.toNat = none then
        (s.slotFor d).elim s fun i =>
          { s.place d i (r i) with line := update s.line line.toNat (some i) }
      else s := by
    unfold irqRequest
    by_cases hrange : line < 0 ∨ line ≥ maxIrq
    · rw [if_pos hrange, if_neg (by omega)]
    · rw [if_neg hrange]
      have hin : 0 ≤ line ∧ line < maxIrq := by omega
      cases hline : s.line line.toNat with
      | some j => simp
      | none =>
        cases hi : s.slotFor d with
        | none => simp [resAlloc, hi]
        | some i =>
          simp [resAlloc, hi, hin, entry, r, place, setSlot]
  by_cases hgo : 0 ≤ line ∧ line < maxIrq ∧ s.line line.toNat = none
  · have hslot : ∀ i, s.slotFor d = some i → Outcome s d
        { s.place d i (r i) with line := update s.line line.toNat (some i) }
        (Unclaimed s d i) := by
      intro i hi
      have hlt : line.toNat < maxIrq := by omega
      exact .granted (r := r i) hi ⟨rfl, rfl⟩ ⟨.inr rfl, rfl⟩
        (.inr ⟨rfl, rfl, rfl, hlt, hgo.2.2⟩) (by rw [Res.freed_of_kind ResKind.noConfusion]; rfl)
    rw [hsnd]
    simpa only [Clean, and_imp] using (Outcome.alloc hslot).guard
      (g := 0 ≤ line ∧ line < maxIrq ∧ s.line line.toNat = none)
  · rw [hsnd, if_neg hgo]
    exact .refused (fun h0 h1 h2 => absurd ⟨h0, h1, h2⟩ hgo)

def Table.dmaSlot (s : Table D) (d : D) (w n phys i : ℕ) : Table D :=
  match grab w n phys with
  | .stuck => s.place d i (s.entry d i .dma 0 0)
  | .failed => s.place d i { s.entry d i .dma 0 0 with used := false }
  | .block b =>
    { s.place d i (if Fits w n b.1 then
          { s.entry d i .dma b.1 (n * 4096) with va := b.1, dev := b.1 }
        else { s.entry d i .dma 0 0 with used := false }) with
      taken := b :: s.taken }

theorem snd_dmaRequest {bytes phys : ℕ} {addrBits : ℤ} :
    (s.dmaRequest d bytes addrBits phys).2 = if bytes ≠ 0 then
      (s.slotFor d).elim s fun i => s.dmaSlot d (width addrBits) (frames bytes) phys i
    else s := by
  unfold dmaRequest
  by_cases hb : bytes = 0
  · simp [hb]
  · rw [if_neg hb, if_pos hb]
    cases hi : s.slotFor d with
    | none => simp [resAlloc, hi]
    | some i =>
      simp only [resAlloc, hi, Option.map_some, Option.elim_some, dmaSlot]
      cases grab (width addrBits) (frames bytes) phys with
      | stuck => rfl
      | failed => simp [setSlot_place, slot_place_self, entry]
      | block b =>
        by_cases hfit : Fits (width addrBits) (frames bytes) b.1
        · simp [hfit, entry, place, setSlot]
        · simp [hfit, entry, place, setSlot]

theorem dmaRequest_outcome {bytes phys : ℕ} {addrBits : ℤ} :
    Outcome s d (s.dmaRequest d bytes addrBits phys).2
      (Clean x86 s (.dma d bytes addrBits phys)) := by
  rw [snd_dmaRequest]
  apply Outcome.guard
  apply Outcome.alloc
  intro i hi
  unfold dmaSlot
  cases hgrab : grab (width addrBits) (frames bytes) phys with
  | stuck =>
    exact .plain hi ⟨rfl, rfl⟩ ⟨rfl, rfl⟩ ResKind.noConfusion (Res.freed_of_base rfl)
  | failed =>
    exact ⟨_, .placed (r := { s.entry d i .dma 0 0 with used := false }) hi (fun hu => by cases hu)
      ⟨.inl rfl, rfl⟩ (.inl ⟨rfl, fun hu => by cases hu⟩) rfl,
      iff_of_true trivial fun hu => by cases hu⟩
  | block b =>
    dsimp only
    by_cases hfit : Fits (width addrBits) (frames bytes) b.1
    · rw [if_pos hfit]
      by_cases hn : frames bytes = 0
      · refine ⟨_, .lost hi ?_, iff_of_false (fun h => h.2.1 hn) id⟩
        exact Res.freed_of_len (by simp [entry, hn])
      · simp only [hfit, hn, ne_eq, not_false_eq_true, true_and]
        exact .granted hi ⟨rfl, rfl⟩ ⟨.inl rfl, rfl⟩ (.inl ⟨rfl, fun _ => ResKind.noConfusion⟩)
          (by rw [Res.freed_of_grab hgrab hn rfl rfl rfl]; rfl)
    · rw [if_neg hfit]
      exact ⟨_, .lost hi (Res.held_of_unused rfl), iff_of_false (fun h => hfit h.1) id⟩

theorem step_outcome (x86 : Bool) (a : Act D) (h : ∀ d, a ≠ .releaseAll d) :
    ∃ d, Outcome s d (s.step x86 a) (Clean x86 s a) := by
  cases a with
  | ports d base count => exact ⟨d, portsRequest_outcome⟩
  | mmio d phys len va => exact ⟨d, mmioRequest_outcome⟩
  | irq d line level => exact ⟨d, irqRequest_outcome⟩
  | dma d bytes addrBits phys => exact ⟨d, dmaRequest_outcome⟩
  | releaseAll d => exact absurd rfl (h d)

theorem Inv.step (h : Inv s) {a : Act D} (hc : Clean x86 s a) : Inv (s.step x86 a) := by
  by_cases hrel : ∃ d, a = .releaseAll d
  · obtain ⟨d, rfl⟩ := hrel
    exact h.releaseAll
  · obtain ⟨d, p, hreq, hiff⟩ := step_outcome (s := s) x86 a (fun d he => hrel ⟨d, he⟩)
    exact hreq.inv h (hiff.mp hc)

theorem Inv.clean (h : Inv s) {a : Act D} (hs : Sound (s.step x86 a)) : Clean x86 s a := by
  by_cases hrel : ∃ d, a = .releaseAll d
  · obtain ⟨d, rfl⟩ := hrel
    trivial
  · obtain ⟨d, p, hreq, hiff⟩ := step_outcome (s := s) x86 a (fun d he => hrel ⟨d, he⟩)
    exact hiff.mpr (hreq.clean h hs)

def Table.boot (owner : D) : Table D :=
  { slot := fun _ => ⟨false, .ports, owner, 0, 0, 0, 0, false, false, false, none⟩
    line := fun _ => none
    listed := fun _ => []
    off := fun _ => false
    taken := []
    back := [] }

omit [DecidableEq D] in
theorem inv_boot (o : D) : Inv (boot o) where
  routed := by
    intro l i
    exact iff_of_false (Option.some_ne_none i).symm (fun h => Bool.false_ne_true h.1)
  balanced := List.Perm.refl _
  quiet := fun _ => ⟨rfl, rfl⟩
  own := by
    intro d i hi
    cases hi
  mine := by
    intro i hu
    cases hu
  bound := by
    intro d i hi
    cases hi

-- Resources stay each driver's own exactly if no request takes over a slot that another driver's
-- list still names, and no block is given for a buffer that is then refused.
theorem sound_iff_clean (x86 : Bool) (o : D) (acts : List (Act D)) :
    Always (Table.step x86) Sound (Table.boot o) acts ↔
      Allowed (Table.step x86) (Clean x86) (Table.boot o) acts :=
  always_iff_of_step (fun _ _ h => h.step) (fun _ h => h.sound) (fun _ _ h => h.clean) (inv_boot o)

-- Both drivers list the slot for line 5; releasing the first takes the line from the second.
theorem failedBuffer_releases_other :
    let acts : List (Act Bool) := [.dma false 4096 32 0, .irq true 5 false]
    let s := run (Table.step true) (Table.boot false) acts
    ¬ Always (Table.step true) Sound (Table.boot false) acts ∧
      s.line 5 = some 0 ∧ (s.slot 0).owner = true ∧
      (s.releaseAll false).line 5 = none ∧ ((s.releaseAll false).slot 0).used = false := by
  refine ⟨fun h => ?_, by decide⟩
  obtain ⟨d, -, honly⟩ := h.last.listed 0 (by decide)
  exact Bool.false_ne_true ((honly false (by decide)).trans (honly true (by decide)).symm)

end DosKernel.Drv
