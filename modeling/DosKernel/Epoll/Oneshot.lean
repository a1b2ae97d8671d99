import DosKernel.Lib.Run
import DosKernel.Lib.SlotTable
import Mathlib.Data.Int.Notation

namespace DosKernel.Epoll

open DosKernel.Lib

def epollIn : BitVec 32 := 0x001#32
def epollOut : BitVec 32 := 0x004#32
def epollErr : BitVec 32 := 0x008#32
def epollHup : BitVec 32 := 0x010#32
def epollEt : BitVec 32 := 0x80000000#32
def epollOneshot : BitVec 32 := 0x40000000#32

def epAlways : BitVec 32 := epollErr ||| epollHup

def epollMaxItems : ℕ := 64

-- Not in the source: the events of the last ADD or MOD, and whether a one-shot report came since.
structure Item where
  fd : ℤ
  events : BitVec 32
  data : BitVec 64
  etSeen : BitVec 32
  etReported : Bool
  armed : BitVec 32
  spent : Bool

abbrev Items := SlotTable Item

-- What a scan sees of the kernel: `fd_readiness_of` each descriptor, and `fd_readiness_seq`.
structure Seen where
  ready : ℤ → BitVec 32
  seq : BitVec 32

structure Report where
  events : BitVec 32
  data : BitVec 64
  item : Item

namespace Item

def revents (w : Seen) (e : Item) : BitVec 32 := w.ready e.fd &&& (e.events ||| epAlways)

def noEdge (w : Seen) (e : Item) : Bool :=
  decide (e.events &&& epollEt ≠ 0) && e.etReported && decide (e.etSeen = w.seq)

def fires (w : Seen) (e : Item) : Bool := decide (e.revents w ≠ 0) && !e.noEdge w

def reported (w : Seen) (e : Item) : Item :=
  let oneshot := decide (e.events &&& epollOneshot ≠ 0)
  { e with
    etReported := e.etReported || decide (e.events &&& epollEt ≠ 0)
    etSeen := if e.events &&& epollEt ≠ 0 then w.seq else e.etSeen
    events := if oneshot then e.events &&& ~~~(epollIn ||| epollOut) else e.events
    spent := e.spent || oneshot }

end Item

-- `ep_scan`; `room` is what is left of `maxevents`.
def epScan (w : Seen) (peek : Bool) : ℕ → Items → Items × List Report
  | _, [] => ([], [])
  | 0, t => (t, [])
  | room + 1, none :: t =>
    let r := epScan w peek (room + 1) t
    (none :: r.1, r.2)
  | room + 1, some e :: t =>
    if e.fires w then
      let r := epScan w peek room t
      (some (if peek then e else e.reported w) :: r.1, ⟨e.revents w, e.data, e⟩ :: r.2)
    else
      let r := epScan w peek (room + 1) t
      (some e :: r.1, r.2)

inductive CtlOp
  | add
  | mod
  | del
  | other

def epollCtlObj (t : Items) (op : CtlOp) (fd : ℤ) (events : BitVec 32) (data : BitVec 64) :
    Items × ℤ :=
  if fd < 0 then (t, -22)
  else
    let found := t.find fun e => e.fd == fd
    match op with
    | .add =>
      if found.isSome then (t, -17)
      else
        match t.insert ⟨fd, events, data, 0, false, events, false⟩ with
        | none => (t, -28)
        | some t' => (t', 0)
    | .mod =>
      if found.isNone then (t, -2)
      else
        (t.update (fun e => e.fd == fd) fun e => some { e with
          events := events
          data := data
          etReported := false
          armed := events
          spent := false }, 0)
    | .del => if found.isNone then (t, -2) else (t.update (fun e => e.fd == fd) fun _ => none, 0)
    | .other => (t, -22)

inductive Act
  | ctl (op : CtlOp) (fd : ℤ) (events : BitVec 32) (data : BitVec 64)
  -- One scan of an `epoll_wait`; a wait ends with the first scan that reports something.
  | wait (w : Seen) (maxevents : ℕ)
  -- `epoll_has_events`, which gives up when sets are nested too deeply.
  | peek (w : Seen) (deep : Bool)

def create : Items := List.replicate epollMaxItems none

def epollHasEvents (t : Items) (w : Seen) (deep : Bool) : Items × Bool :=
  if deep then (t, false)
  else
    let r := epScan w true 1 t
    (r.1, !r.2.isEmpty)

def step (t : Items) : Act → Items
  | .ctl op fd events data => (epollCtlObj t op fd events data).1
  | .wait w maxevents => (epScan w false maxevents t).1
  | .peek w deep => (epollHasEvents t w deep).1

open List

variable {t t' : Items} {e : Item} {w : Seen} {peek : Bool} {n : ℕ}

-- No wait reports an item that has been reported under EPOLLONESHOT and not been armed again.
def Once (t : Items) : Act → Prop
  | .wait w maxevents => ∀ r ∈ (epScan w false maxevents t).2, r.item.spent = false
  | _ => True

-- A wait that comes to such an item finds no error, hang-up or condition it was armed for besides
-- EPOLLIN and EPOLLOUT; or it is edge-triggered, and nothing was signalled since its report.
def Calm (t : Items) : Act → Prop
  | .wait w maxevents => ∀ pre e post, t.live = pre ++ e :: post → e.spent = true →
      pre.countP (Item.fires w) < maxevents →
        w.ready e.fd &&& (e.armed &&& ~~~(epollIn ||| epollOut) ||| epAlways) = 0 ∨
        (e.armed &&& epollEt ≠ 0 ∧ e.etReported = true ∧ e.etSeen = w.seq)
  | _ => True

-- An item watches what it was armed for, less EPOLLIN and EPOLLOUT once it is spent.
def Item.Tracks (e : Item) : Prop :=
  e.events = if e.spent then e.armed &&& ~~~(epollIn ||| epollOut) else e.armed

theorem mask_mask (v : BitVec 32) :
    v &&& ~~~(epollIn ||| epollOut) &&& ~~~(epollIn ||| epollOut) =
      v &&& ~~~(epollIn ||| epollOut) := by
  rw [BitVec.and_assoc, BitVec.and_self]

theorem mask_et (v : BitVec 32) : v &&& ~~~(epollIn ||| epollOut) &&& epollEt = v &&& epollEt := by
  have hflag : ~~~(epollIn ||| epollOut) &&& epollEt = epollEt := by decide
  rw [BitVec.and_assoc, hflag]

theorem Item.Tracks.reported (h : e.Tracks) : (e.reported w).Tracks := by
  simp only [Item.reported]
  by_cases hone : e.events &&& epollOneshot ≠ 0
  · simp only [hone, ne_eq, not_false_eq_true, decide_true, if_true, Bool.or_true]
    rw [h]
    split
    · exact mask_mask e.armed
    · rfl
  · simp only [hone, decide_false, Bool.false_eq_true, if_false, Bool.or_false]
    exact h

theorem epScan_zero : epScan w peek 0 t = (t, []) := by
  cases t <;> rfl

theorem reports_epScan : (epScan w peek n t).2 =
    ((t.live.filter (Item.fires w)).take n).map fun e => ⟨e.revents w, e.data, e⟩ := by
  induction t generalizing n with
  | nil => simp [epScan]
  | cons slot t ih =>
    cases n with
    | zero => simp [epScan_zero]
    | succ n =>
      cases slot with
      | none => exact ih
      | some e =>
        by_cases he : e.fires w = true
        · simp [epScan, he, ih]
        · simp [epScan, he, ih]

theorem epScan_peek : (epScan w true n t).1 = t := by
  induction t generalizing n with
  | nil => simp [epScan]
  | cons slot t ih =>
    cases n with
    | zero => rw [epScan_zero]
    | succ n =>
      cases slot with
      | none => rw [epScan, ih]
      | some e =>
        simp only [epScan]
        split
        · simp only [ih, if_true]
        · simp only [ih]

section

variable (h : ∀ e ∈ t.live, e.Tracks)

include h

theorem tracks_epScan :
    ∀ e ∈ (epScan w peek n t).1.live, e.Tracks := by
  induction t generalizing n with
  | nil => simp [epScan]
  | cons slot t ih =>
    cases n with
    | zero =>
      exact h
    | succ n =>
      cases slot with
      | none => exact ih h
      | some e =>
        have he : e.Tracks := h e mem_cons_self
        have ht : ∀ e ∈ SlotTable.live t, e.Tracks := fun e he => h e (mem_cons_of_mem _ he)
        rw [epScan]
        split
        · refine forall_mem_cons.mpr ⟨?_, ih ht⟩
          exact guard_rule he.reported fun _ => he
        · exact forall_mem_cons.mpr ⟨he, ih ht⟩

theorem tracks_ctl {op : CtlOp} {fd : ℤ} {events : BitVec 32} {data : BitVec 64} :
    ∀ e ∈ (epollCtlObj t op fd events data).1.live, e.Tracks := by
  have hupdate : ∀ f : Item → Option Item, (∀ a, ∀ b ∈ f a, b.Tracks) →
      ∀ e ∈ (t.update (fun e => e.fd == fd) f).live, e.Tracks := by
    intro f hf e he
    cases hfind : t.find (fun e => e.fd == fd) with
    | none =>
      rw [SlotTable.update_of_find_none hfind] at he
      exact h e he
    | some a =>
      obtain ⟨pre, post, hlive, hupd⟩ := SlotTable.live_update hfind
      rw [hupd, mem_append, mem_append, Option.mem_toList] at he
      rw [hlive] at h
      rcases he with he | he | he
      · exact h e (mem_append_left _ he)
      · exact hf a e he
      · exact h e (mem_append_right _ (mem_cons_of_mem _ he))
  simp only [epollCtlObj]
  split
  · exact h
  cases op with
  | add =>
    dsimp only
    split
    · exact h
    · split
      · exact h
      · next t' hins =>
        intro e he
        obtain rfl | he := (SlotTable.mem_insert hins).mp he
        · rfl
        · exact h e he
  | mod =>
    dsimp only
    split
    · exact h
    · refine hupdate _ fun a b hb => ?_
      obtain rfl := Option.some.inj hb
      rfl
  | del =>
    dsimp only
    split
    · exact h
    · exact hupdate _ fun a b hb => (by cases hb)
  | other => exact h

theorem tracks_step {a : Act} : ∀ e ∈ (step t a).live, e.Tracks := by
  cases a with
  | ctl op fd events data => exact tracks_ctl h
  | wait w maxevents => exact tracks_epScan h
  | peek w deep =>
    simp only [step, epollHasEvents]
    split
    · exact h
    · rw [epScan_peek]
      exact h

end

theorem fires_of_spent (h : e.Tracks) (hspent : e.spent = true) : e.fires w = true ↔
    ¬ (w.ready e.fd &&& (e.armed &&& ~~~(epollIn ||| epollOut) ||| epAlways) = 0 ∨
      (e.armed &&& epollEt ≠ 0 ∧ e.etReported = true ∧ e.etSeen = w.seq)) := by
  rw [Item.Tracks, if_pos hspent] at h
  simp only [Item.fires, Item.revents, Item.noEdge, h, mask_et, Bool.and_eq_true,
    Bool.not_eq_true', Bool.and_eq_false_iff, decide_eq_true_eq, decide_eq_false_iff_not]
  rw [← Bool.not_eq_true]
  tauto

theorem mem_take_filter {α : Type} {p : α → Bool} {l : List α} {x : α} {n : ℕ} :
    x ∈ (l.filter p).take n ↔ ∃ pre post, l = pre ++ x :: post ∧ p x = true ∧ pre.countP p < n := by
  induction l generalizing n with
  | nil => simp
  | cons y l ih =>
    constructor
    · intro hx
      by_cases hy : p y = true
      · rw [filter_cons_of_pos hy] at hx
        cases n with
        | zero => simp at hx
        | succ n =>
          obtain rfl | hx := mem_cons.mp hx
          · exact ⟨[], l, rfl, hy, by simp⟩
          · obtain ⟨pre, post, rfl, hpx, hcount⟩ := ih.mp hx
            refine ⟨y :: pre, post, rfl, hpx, ?_⟩
            rw [countP_cons_of_pos hy]
            omega
      · rw [filter_cons_of_neg hy] at hx
        obtain ⟨pre, post, rfl, hpx, hcount⟩ := ih.mp hx
        refine ⟨y :: pre, post, rfl, hpx, ?_⟩
        rw [countP_cons_of_neg hy]
        exact hcount
    · rintro ⟨pre, post, hl, hpx, hcount⟩
      cases pre with
      | nil =>
        obtain ⟨rfl, -⟩ := cons.inj hl
        rw [filter_cons_of_pos hpx]
        obtain ⟨n, rfl⟩ := Nat.exists_eq_succ_of_ne_zero (Nat.ne_of_gt hcount)
        exact mem_cons_self
      | cons z pre =>
        obtain ⟨rfl, htail⟩ := cons.inj hl
        by_cases hy : p y = true
        · rw [countP_cons_of_pos hy] at hcount
          rw [filter_cons_of_pos hy]
          obtain ⟨n, rfl⟩ := Nat.exists_eq_succ_of_ne_zero (show n ≠ 0 by omega)
          refine mem_cons_of_mem y (ih.mpr ⟨pre, post, htail, hpx, ?_⟩)
          omega
        · rw [countP_cons_of_neg hy] at hcount
          rw [filter_cons_of_neg hy]
          exact ih.mpr ⟨pre, post, htail, hpx, hcount⟩

theorem once_iff_calm {a : Act} (h : ∀ e ∈ t.live, e.Tracks) : Once t a ↔ Calm t a := by
  cases a with
  | wait w n =>
    simp only [Once, Calm, reports_epScan, forall_mem_map, mem_take_filter]
    constructor
    · intro honce pre e post hlive hspent hcount
      have htracks : e.Tracks := h e (by simp [hlive])
      by_contra hcalm
      have hfires := (fires_of_spent htracks hspent).mpr hcalm
      rw [honce e ⟨pre, post, hlive, hfires, hcount⟩] at hspent
      cases hspent
    · rintro hcalm e ⟨pre, post, hlive, hfires, hcount⟩
      have htracks : e.Tracks := h e (by simp [hlive])
      by_contra hspent
      rw [Bool.not_eq_false] at hspent
      exact (fires_of_spent htracks hspent).mp hfires (hcalm pre e post hlive hspent hcount)
  | _ => exact Iff.rfl

-- No item is reported twice for one arming, in exactly the histories whose waits find no error,
-- hang-up or further condition at a spent item; and a peek changes no item.
theorem oneshot_iff_calm (acts : List Act) :
    (Allowed step Once create acts ↔ Allowed step Calm create acts) ∧
    ∀ t w deep, step t (.peek w deep) = t := by
  constructor
  · have hstep : ∀ (t : Items) a, (∀ e ∈ t.live, e.Tracks) → ∀ e ∈ (step t a).live, e.Tracks :=
      fun _ _ h => tracks_step h
    refine allowed_congr hstep (fun _ _ h => once_iff_calm h) fun e he => ?_
    simp [create] at he
  · intro t w deep
    simp only [step, epollHasEvents]
    split
    · rfl
    · exact epScan_peek

def hangup : List Act :=
  [.ctl .add 3 (epollIn ||| epollOneshot) 7,
    .wait ⟨fun _ => epollIn, 1⟩ 8, .wait ⟨fun _ => epollIn ||| epollHup, 2⟩ 8]

theorem hangup_reported_again : ¬ Allowed step Once create hangup := by
  intro h
  have hlast : Once (run step create (hangup.take 2)) (.wait ⟨fun _ => epollIn ||| epollHup, 2⟩ 8) :=
    h.2.2.1
  simp only [Once] at hlast
  exact absurd hlast (by decide)

end DosKernel.Epoll
