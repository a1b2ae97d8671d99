import Mathlib.Data.Int.Notation
import Mathlib.Data.List.Basic
import Mathlib.Tactic.Common

namespace DosKernel.Identity

inductive Owner where
  | kernel
  | system
  | user
deriving DecidableEq, Repr

abbrev CapSet := BitVec 64

def capSetpcap : ℕ := 8
def capLastCap : ℕ := 40
def capFullSet : CapSet := 0x1ffffffffff

def uidNone : ℤ := -1
def uidRoot : ℤ := 0
def gidAdmin : ℤ := 1
def sessionNone : ℤ := 0
def maxGroups : ℕ := 8

-- The fields behind the identity. Effective, permitted and bounding set are stored as what was
-- dropped.
structure Caps where
  effDrop : CapSet := 0
  prmDrop : CapSet := 0
  bndDrop : CapSet := 0
  inh : CapSet := 0
  amb : CapSet := 0
  noNewPrivs : Bool := false
deriving DecidableEq, Repr

structure Cred where
  owner : Owner := .kernel
  uid : ℤ := 0
  gid : ℤ := 0
  groups : List ℤ := []
  session : ℤ := sessionNone
  caps : Caps := {}
deriving DecidableEq, Repr

-- Writes the identity; the fields behind it keep what the memory held.
def credInitKernel (c : Cred) : Cred :=
  { c with owner := .kernel, uid := uidNone, gid := uidNone, groups := [], session := sessionNone }

def asSystem (parent : Cred) : Cred :=
  { parent with owner := .system, uid := uidNone, gid := uidNone, groups := [], session := sessionNone }

def credInherit (child : Cred) : Option Cred → Cred
  | none => credInitKernel child
  | some parent =>
    if parent.owner = .kernel then asSystem parent else parent

def credInGroup (c : Cred) (gid : ℤ) : Bool :=
  decide (c.owner = .user) && (decide (c.gid = gid) || decide (gid ∈ c.groups.take maxGroups))

def credIsAdmin (c : Cred) : Bool :=
  decide (c.owner ≠ .user) || decide (c.uid = uidRoot) || credInGroup c gidAdmin

def credCapBounding (c : Cred) : CapSet := capFullSet &&& ~~~c.caps.bndDrop

def credCapPermitted (c : Cred) : CapSet :=
  if credIsAdmin c then capFullSet &&& ~~~c.caps.prmDrop else 0

def credCapEffective (c : Cred) : CapSet :=
  if credIsAdmin c then capFullSet &&& ~~~c.caps.effDrop &&& ~~~c.caps.prmDrop else 0

def credCapable (c : Cred) (cap : ℕ) : Bool :=
  decide (cap ≤ capLastCap) && (credCapEffective c).getLsbD cap

def credExecCaps (c : Cred) : Cred :=
  if credIsAdmin c then
    { c with caps := { c.caps with
      prmDrop := capFullSet &&& ~~~((c.caps.inh ||| credCapBounding c) &&& capFullSet)
      effDrop := 0
      amb := 0 } }
  else c

-- What `capset` may ask for: permitted only shrinks, effective lies within it, and what is new in
-- inheritable was permitted, with CAP_SETPCAP, and is bounded.
def capsetAllowed (c : Cred) (ef pr inh : CapSet) : Bool :=
  let room := c.caps.inh ||| (if credCapable c capSetpcap then credCapPermitted c else 0)
  decide (pr &&& ~~~credCapPermitted c = 0) && decide (ef &&& ~~~pr = 0) &&
    decide (inh &&& ~~~(c.caps.inh ||| credCapPermitted c) = 0) &&
    decide (inh &&& ~~~c.caps.inh &&& ~~~room = 0) &&
    decide (inh &&& ~~~c.caps.inh &&& ~~~credCapBounding c = 0)

def capset (c : Cred) (ef pr inh : CapSet) : Cred :=
  if capsetAllowed c ef pr inh && credIsAdmin c then
    { c with caps := { c.caps with
      prmDrop := capFullSet &&& ~~~pr
      effDrop := capFullSet &&& ~~~ef
      inh := inh &&& capFullSet
      amb := c.caps.amb &&& (pr &&& inh) } }
  else c

def bit (cap : ℕ) : CapSet := (1 : CapSet) <<< cap

def capbsetDrop (c : Cred) (cap : ℕ) : Cred :=
  if cap ≤ capLastCap ∧ credCapable c capSetpcap then
    { c with caps := { c.caps with bndDrop := c.caps.bndDrop ||| bit cap } }
  else c

def ambientClear (c : Cred) : Cred := { c with caps := { c.caps with amb := 0 } }

def ambientLower (c : Cred) (cap : ℕ) : Cred :=
  if cap ≤ capLastCap then { c with caps := { c.caps with amb := c.caps.amb &&& ~~~bit cap } } else c

def ambientRaise (c : Cred) (cap : ℕ) : Cred :=
  if cap ≤ capLastCap ∧ credCapPermitted c &&& bit cap ≠ 0 ∧ c.caps.inh &&& bit cap ≠ 0 then
    { c with caps := { c.caps with amb := c.caps.amb ||| bit cap } }
  else c

def setNoNewPrivs (c : Cred) (a1 a2 a3 a4 : ℕ) : Cred :=
  if a1 = 1 ∧ a2 = 0 ∧ a3 = 0 ∧ a4 = 0 then { c with caps := { c.caps with noNewPrivs := true } } else c

-- The identity `cred_become_user` builds in a local variable with only its first fields set:
-- `leftover` is what the stack held behind them.
def adopted (leftover : Caps) (uid gid : ℤ) (groups : List ℤ) (session : ℤ) : Cred :=
  { credInitKernel { caps := leftover } with
    owner := .user, uid := uid, gid := gid, session := session, groups := groups.take maxGroups }

structure Task where
  pid : ℤ
  ppid : ℤ
  cred : Cred
  credSeq : ℕ := 0
  gone : Bool := false
deriving DecidableEq

def hasChildren (tasks : List Task) (pid : ℤ) : Bool :=
  tasks.any fun t => !t.gone && decide (t.ppid = pid) && decide (t.pid ≠ pid)

def mayBecome (tasks : List Task) (t : Task) (session : ℤ) : Bool :=
  decide (t.credSeq = 0) && !hasChildren tasks t.pid && decide (session ≠ sessionNone)

def has (s : CapSet) (k : ℕ) : Bool := s.getLsbD k

@[simp] theorem has_zero {k : ℕ} : has 0#64 k = false := BitVec.getLsbD_zero

@[simp] theorem has_and {x y : CapSet} {k : ℕ} : has (x &&& y) k = (has x k && has y k) :=
  BitVec.getLsbD_and

@[simp] theorem has_or {x y : CapSet} {k : ℕ} : has (x ||| y) k = (has x k || has y k) :=
  BitVec.getLsbD_or

theorem lt_of_has {x : CapSet} {k : ℕ} (h : has x k = true) : k < 64 := BitVec.lt_of_getLsbD h

theorem has_not {x : CapSet} {k : ℕ} (h : k < 64) : has (~~~x) k = !has x k := by
  simp only [has, BitVec.getLsbD_not, h, decide_true, Bool.true_and]

@[simp] theorem has_full {k : ℕ} : has capFullSet k = decide (k ≤ capLastCap) := by
  have hfull : capFullSet = BitVec.ofNat 64 (2 ^ 41 - 1) := by decide
  rw [has, hfull, BitVec.getLsbD_ofNat, Nat.testBit_two_pow_sub_one]
  simp only [capLastCap]
  by_cases h : k < 41
  · simp [h, Nat.lt_succ_iff.mp h, show k < 64 by omega]
  · simp [h, show ¬ k ≤ 40 by omega]

@[simp high] theorem has_full_not {x : CapSet} {k : ℕ} :
    has (capFullSet &&& ~~~x) k = (decide (k ≤ capLastCap) && !has x k) := by
  rw [has_and]
  by_cases hk : k ≤ capLastCap
  · rw [has_not (lt_of_has (x := capFullSet) (by simp [hk])), has_full]
  · simp [hk]

theorem subset_iff {x y : CapSet} : x &&& ~~~y = 0 ↔ ∀ k, has x k = true → has y k = true := by
  constructor
  · intro h k hk
    have hbit := congrArg (fun s => has s k) h
    simpa [hk, has_not (lt_of_has hk)] using hbit
  · intro h
    apply BitVec.eq_of_getLsbD_eq
    intro k hk
    show has (x &&& ~~~y) k = has 0#64 k
    rw [has_and, has_not hk, has_zero]
    cases hx : has x k with
    | false => rfl
    | true => rw [h k hx]; rfl

theorem has_bit {cap k : ℕ} (h : cap ≤ capLastCap) : has (bit cap) k = decide (k = cap) := by
  have hcap : cap ≤ 40 := h
  rw [has, bit, BitVec.getLsbD_shiftLeft]
  by_cases hk : k = cap
  · subst hk
    simp
    omega
  · simp only [hk, decide_false]
    by_cases hlt : k < cap
    · simp [hlt]
    · have hne : k - cap ≠ 0 := by omega
      simp [hlt, BitVec.getLsbD_one, hne]

theorem has_of_meets_bit {x : CapSet} {cap : ℕ} (h : cap ≤ capLastCap) (hne : x &&& bit cap ≠ 0) :
    has x cap = true := by
  by_contra hx
  refine hne (BitVec.eq_of_getLsbD_eq fun k hk => ?_)
  show has (x &&& bit cap) k = has 0#64 k
  rw [has_and, has_bit h, has_zero]
  by_cases hkc : k = cap
  · subst hkc
    simp [hx]
  · simp [hkc]

@[simp] theorem credIsAdmin_caps (c : Cred) (caps : Caps) :
    credIsAdmin { c with caps := caps } = credIsAdmin c := rfl

@[simp] theorem has_permitted {c : Cred} {k : ℕ} : has (credCapPermitted c) k =
    (credIsAdmin c && (decide (k ≤ capLastCap) && !has c.caps.prmDrop k)) := by
  unfold credCapPermitted
  split
  next h =>
    rw [has_full_not, h, Bool.true_and]
  next h =>
    simp [h]

@[simp] theorem has_bounding {c : Cred} {k : ℕ} : has (credCapBounding c) k =
    (decide (k ≤ capLastCap) && !has c.caps.bndDrop k) := by
  rw [credCapBounding, has_full_not]

theorem has_permitted_exec {c : Cred} {k : ℕ} (h : credIsAdmin c = true) :
    has (credCapPermitted (credExecCaps c)) k =
      (decide (k ≤ capLastCap) && (has c.caps.inh k || !has c.caps.bndDrop k)) := by
  rw [credExecCaps, if_pos h, has_permitted, credIsAdmin_caps, h, has_full_not]
  by_cases hk : k ≤ capLastCap <;> simp [hk]

end DosKernel.Identity
