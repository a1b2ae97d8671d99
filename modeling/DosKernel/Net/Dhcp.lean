import DosKernel.Lib.Run
import Mathlib.Logic.Function.Basic

namespace DosKernel.Net.Dhcp

open DosKernel.Lib
open Function (update update_self update_of_ne update_eq_self)

-- A second of the kernel's clock.
def sec : ℕ := 1000000000

-- Where a task is in `dhcp_configure` of an interface: it waits for an offer or the
-- acknowledgement, with so many tries left.
inductive Phase where
  | idle
  | offer (dev left : ℕ)
  | ack (dev left : ℕ)
deriving DecidableEq

def Phase.dev : Phase → Option ℕ
  | .idle => none
  | .offer d _ => some d
  | .ack d _ => some d

-- When a lease was acknowledged, for how many seconds, and whether an attempt has failed since.
structure Lease where
  since : ℕ
  secs : ℕ
  failed : Bool

-- `g_dhcp` as far as leases go, the binding of the client port, the timer while it is on the list,
-- and whether the renewal is queued. Not in the source: the leases that interfaces have.
structure State where
  now : ℕ := 0
  active : Bool := false
  portBound : Bool := false
  gotOffer : Bool := false
  gotAck : Bool := false
  gotNak : Bool := false
  leaseS : BitVec 32 := 0
  dev : Option ℕ := none
  bound : Bool := false
  renewArmed : Bool := false
  timer : Option ℕ := none
  work : Bool := false
  phase : ℕ → Phase := fun _ => .idle
  leases : ℕ → Option Lease := fun _ => none

-- A reply with the transaction id of the exchange; an acknowledgement may come without a lease.
inductive Packet where
  | offer
  | ack (lease : Option (BitVec 32))
  | nak

namespace State

variable (s : State) (t d : ℕ)

def goto (p : Phase) : State := { s with phase := update s.phase t p }

def cleared : State := { s with gotOffer := false, gotAck := false, gotNak := false }

def dhcpRecv (p : Packet) : State :=
  if !s.active || !s.portBound then s
  else match p with
    | .offer => { s with gotOffer := true }
    | .ack lease => { s with gotAck := true, leaseS := lease.getD s.leaseS }
    | .nak => { s with gotNak := true }

def dhcpArmRenew : State :=
  if s.leaseS = 0 || s.renewArmed then s
  else { s with renewArmed := true, timer := some (s.now + s.leaseS.toNat / 2 * sec) }

def dhcpApply : State :=
  { s with
    bound := true
    dev := some d
    leases := update s.leases d (some ⟨s.now, s.leaseS.toNat, false⟩) }

def fail : State :=
  { s with leases := update s.leases d ((s.leases d).map fun l => { l with failed := true }) }

-- `dhcp_configure` from behind its loop on. The clock stands still between the reads of it.
def finish (ok : Bool) : State :=
  let s := { s.goto t .idle with portBound := false, active := false }
  if ok then (s.dhcpApply d).dhcpArmRenew else s.fail d

def retry : ℕ → State
  | 0 => s.finish t d false
  | left + 1 => s.cleared.goto t (.offer d left)

-- `room` is whether the table of UDP bindings has a slot for the port.
def dhcpConfigure (room : Bool) : State :=
  let s := { s.cleared with active := true, leaseS := 0 }
  if s.portBound || room then { s.goto t (.offer d 2) with portBound := true }
  else { s with active := false }.fail d

-- The wait of a task ends: it has what it waits for, or was refused, or the time is over.
def wait : State :=
  match s.phase t with
  | .idle => s
  | .offer d left => if s.gotOffer && !s.gotNak then s.goto t (.ack d left) else s.retry t d left
  | .ack d left => if s.gotAck && !s.gotNak then s.finish t d true else s.retry t d left

def dhcpRenewFired : State :=
  if s.timer.any (· ≤ s.now) then { s with timer := none, renewArmed := false, work := true } else s

def dhcpRenewWork (room : Bool) : State :=
  match s.bound, s.dev with
  | true, some d => { s with work := false }.dhcpConfigure t d room
  | _, _ => { s with work := false }

-- `net_set_static` with `dhcp_release_local`, which forgets whichever lease is kept.
def netSetStatic : State := { s with bound := false, leases := update s.leases d none }

end State

inductive Act where
  | configure (t dev : ℕ) (room : Bool)
  | renewWork (t : ℕ) (room : Bool)
  | recv (p : Packet)
  | wait (t : ℕ)
  | fired
  | setStatic (dev : ℕ)
  | tick (d : ℕ)

def step (s : State) : Act → State
  | .configure t dev room => if s.phase t = .idle then s.dhcpConfigure t dev room else s
  | .renewWork t room => if s.phase t = .idle ∧ s.work then s.dhcpRenewWork t room else s
  | .recv p => s.dhcpRecv p
  | .wait t => s.wait t
  | .fired => s.dhcpRenewFired
  | .setStatic dev => s.netSetStatic dev
  | .tick d => { s with now := s.now + d }

-- Half of the lease or, after a failed attempt, its end.
def Lease.Timely (l : Lease) (due : ℕ) : Prop :=
  2 * due ≤ 2 * l.since + l.secs * sec ∨ l.failed = true ∧ due < l.since + l.secs * sec

-- The renewal of `d` is queued, or the timer is armed for it in time.
def State.Ahead (s : State) (d : ℕ) (l : Lease) : Prop :=
  s.bound = true ∧ s.dev = some d ∧ (s.work = true ∨ ∃ due, s.timer = some due ∧ l.Timely due)

def State.Cared (s : State) (d : ℕ) : Prop :=
  ∀ l, s.leases d = some l → (∃ t, (s.phase t).dev = some d) ∨ s.Ahead d l

def State.Renewing (s : State) : Prop := ∀ d, s.Cared d

-- If `d` has a lease, the timer is armed for it and due before the lease ends.
def State.Backed (s : State) (d : ℕ) : Prop :=
  ∀ l, s.leases d = some l → s.bound = true ∧ s.dev = some d ∧
    ∃ due, s.timer = some due ∧ due < l.since + l.secs * sec

def State.Only (s : State) (d : ℕ) : Prop := ∀ e, e ≠ d → s.leases e = none

-- One interface has a lease at a time. An attempt for one with a lease fails only with the timer
-- armed, and one succeeds with a lease that is not 0 and over no timer that is too late for it.
def Covered (s : State) : Act → Prop
  | .wait t =>
    match s.phase t with
    | .idle => True
    | .offer d left => left = 0 → (s.gotOffer && !s.gotNak) = false → s.Backed d
    | .ack d left =>
      if s.gotAck && !s.gotNak then s.leaseS ≠ 0 ∧ s.Only d ∧
        ∀ due, s.timer = some due → 2 * due ≤ 2 * s.now + s.leaseS.toNat * sec
      else left = 0 → s.Backed d
  | .configure t d room => s.phase t = .idle → s.portBound = false → room = false → s.Backed d
  | .renewWork t room => s.phase t = .idle → s.work = true → s.portBound = false → room = false →
      ∀ d, s.dev = some d → s.Backed d
  | .setStatic d => s.Only d
  | _ => True

structure Inv (s : State) : Prop where
  armed : s.renewArmed = s.timer.isSome
  renewing : s.Renewing

variable {s s' : State} {t d : ℕ} {p : Phase}

-- A task that works on `d`, or on nothing, goes on: the other interfaces lose nothing.
theorem renewing_goto {o : Option Lease} (h : ∀ e, e ≠ d → s.Cared e)
    (ht : ∀ e, (s.phase t).dev = some e → e = d) (hphase : s'.phase = update s.phase t p)
    (hleases : s'.leases = update s.leases d o)
    (hother : ∀ e l, e ≠ d → s.leases e = some l → s.Ahead e l → s'.Ahead e l)
    (hd : ∀ l, o = some l → p.dev = some d ∨ s'.Ahead d l) : s'.Renewing := by
  intro e l hl
  rw [hleases] at hl
  by_cases he : e = d
  · subst he
    rw [update_self] at hl
    refine (hd l hl).imp_left fun hp => ⟨t, ?_⟩
    rwa [hphase, update_self]
  · rw [update_of_ne he] at hl
    refine (h e he l hl).imp (Exists.imp fun u hu => ?_) (hother e l he hl)
    have hut : u ≠ t := fun heq => he (ht e (heq ▸ hu))
    rwa [hphase, update_of_ne hut]

theorem renewing_go_on (h : ∀ e, e ≠ d → s.Cared e) (ht : ∀ e, (s.phase t).dev = some e → e = d)
    (hp : p.dev = some d) : (s.goto t p).Renewing :=
  renewing_goto h ht rfl (update_eq_self d s.leases).symm (fun _ _ _ _ h => h) fun _ _ => .inl hp

theorem renewing_fail {phase : ℕ → Phase} (h : ∀ e, e ≠ d → s.Cared e)
    (ht : ∀ e, (s.phase t).dev = some e → e = d) (hback : s.Backed d)
    (hphase : phase = update s.phase t p) : ({ s with phase := phase }.fail d).Renewing := by
  refine renewing_goto h ht hphase rfl (fun _ _ _ _ h => h) fun l hl => .inr ?_
  obtain ⟨l, hold, rfl⟩ := Option.map_eq_some_iff.mp hl
  obtain ⟨hbound, hdev, due, htimer, hlt⟩ := hback l hold
  exact ⟨hbound, hdev, .inr ⟨due, htimer, .inr ⟨rfl, hlt⟩⟩⟩

theorem inv_dhcpConfigure {room : Bool} (harmed : s.renewArmed = s.timer.isSome)
    (h : ∀ e, e ≠ d → s.Cared e) (ht : s.phase t = .idle)
    (hback : s.portBound = false → room = false → s.Backed d) :
    Inv (s.dhcpConfigure t d room) := by
  have hidle : ∀ e, (s.phase t).dev = some e → e = d := fun e he => by
    rw [ht] at he
    cases he
  simp only [State.dhcpConfigure]
  split
  · exact ⟨harmed, renewing_go_on (p := .offer d 2) h hidle rfl⟩
  next hroom =>
    rw [Bool.not_eq_true, Bool.or_eq_false_iff] at hroom
    exact ⟨harmed, renewing_fail h hidle (hback hroom.1 hroom.2) (update_eq_self t s.phase).symm⟩

theorem Inv.retry {left : ℕ} (h : Inv s) (ht : ∀ e, (s.phase t).dev = some e → e = d)
    (hback : left = 0 → s.Backed d) : Inv (s.retry t d left) := by
  have hcared : ∀ e, e ≠ d → s.Cared e := fun e _ => h.renewing e
  cases left with
  | zero => exact ⟨h.armed, renewing_fail (s := s) hcared ht (hback rfl) rfl⟩
  | succ left => exact ⟨h.armed, renewing_go_on (p := .offer d left) hcared ht rfl⟩

theorem Inv.finish (h : Inv s) (ht : ∀ e, (s.phase t).dev = some e → e = d) (hlease : s.leaseS ≠ 0)
    (honly : s.Only d)
    (hdue : ∀ due, s.timer = some due → 2 * due ≤ 2 * s.now + s.leaseS.toNat * sec) :
    Inv (s.finish t d true) := by
  have hother : ∀ s' : State, ∀ e l, e ≠ d → s.leases e = some l → s.Ahead e l → s'.Ahead e l :=
    fun _ e l he hl => absurd ((honly e he).symm.trans hl) (Option.some_ne_none l).symm
  simp only [State.finish, State.dhcpArmRenew, State.dhcpApply, State.goto, if_true, h.armed, hlease,
    decide_false, Bool.false_or]
  cases htimer : s.timer with
  | none =>
    refine ⟨rfl, renewing_goto (s := s) (fun e _ => h.renewing e) ht rfl rfl (hother _) ?_⟩
    rintro _ ⟨⟩
    -- half of the lease is counted in whole seconds
    refine .inr ⟨rfl, rfl, .inr ⟨_, rfl, .inl ?_⟩⟩
    simp only [sec]
    omega
  | some due =>
    refine ⟨rfl, renewing_goto (s := s) (fun e _ => h.renewing e) ht rfl rfl (hother _) ?_⟩
    rintro _ ⟨⟩
    exact .inr ⟨rfl, rfl, .inr ⟨due, rfl, .inl (hdue due htimer)⟩⟩

theorem Inv.wait (h : Inv s) (hok : Covered s (.wait t)) : Inv (s.wait t) := by
  simp only [State.wait, Covered] at hok ⊢
  split at hok
  · exact h
  next d left hp =>
    have ht : ∀ e, (s.phase t).dev = some e → e = d := by simp [hp, Phase.dev, eq_comm]
    split
    · exact ⟨h.armed, renewing_go_on (p := .ack d left) (fun e _ => h.renewing e) ht rfl⟩
    next hgot => exact h.retry ht fun hleft => hok hleft (Bool.not_eq_true _ ▸ hgot)
  next d left hp =>
    have ht : ∀ e, (s.phase t).dev = some e → e = d := by simp [hp, Phase.dev, eq_comm]
    split at hok
    next hgot =>
      rw [if_pos hgot]
      exact h.finish ht hok.1 hok.2.1 hok.2.2
    next hgot =>
      rw [if_neg hgot]
      exact h.retry ht hok

theorem Inv.step {a : Act} (h : Inv s) (hok : Covered s a) : Inv (step s a) := by
  cases a with
  | configure t d room =>
    exact guard_rule h fun ht => inv_dhcpConfigure h.armed (fun e _ => h.renewing e) ht (hok ht)
  | renewWork t room =>
    refine guard_rule h fun ht => ?_
    simp only [State.dhcpRenewWork]
    split
    next d hbound hdev =>
      refine inv_dhcpConfigure h.armed (fun e he l hl => ?_) ht.1 (hok ht.1 ht.2 · · d hdev)
      refine (h.renewing e l hl).imp_right fun hahead => ?_
      exact absurd (Option.some.inj (hahead.2.1.symm.trans hdev)) he
    next hno =>
      refine ⟨h.armed, fun d l hl => (h.renewing d l hl).imp_right fun hahead => ?_⟩
      exact absurd hahead.2.1 (hno d hahead.1)
  | recv p =>
    simp only [Dhcp.step, State.dhcpRecv]
    split
    · exact h
    · cases p with
      | offer | ack | nak => exact ⟨h.armed, h.renewing⟩
  | wait t => exact h.wait hok
  | fired =>
    refine guard_rule h fun hdue => ⟨rfl, fun d l hl => (h.renewing d l hl).imp_right ?_⟩
    exact fun hahead => ⟨hahead.1, hahead.2.1, .inl rfl⟩
  | setStatic d =>
    refine ⟨h.armed, fun e l hl => ?_⟩
    by_cases he : e = d
    · subst he
      cases (update_self ..).symm.trans hl
    · cases (hok e he).symm.trans ((update_of_ne he ..).symm.trans hl)
  | tick d => exact ⟨h.armed, h.renewing⟩

-- A lease of 100 seconds; the renewal after 50 gets no answer.
def unanswered : List Act :=
  [.configure 0 0 true, .recv .offer, .wait 0, .recv (.ack (some 100)), .wait 0, .tick (50 * sec),
    .fired, .renewWork 1 true, .wait 1, .wait 1, .wait 1]

end DosKernel.Net.Dhcp
