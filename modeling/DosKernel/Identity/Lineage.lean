import DosKernel.Identity.Caps
import DosKernel.Lib.Run

namespace DosKernel.Identity

open DosKernel.Lib List

-- A task with what its lineage has lost: the capabilities that at some moment it or an ancestor
-- had neither permitted nor inheritable nor bounding; and whether `no_new_privs` was set.
structure Entry where
  task : Task
  lost : CapSet
  pinned : Bool
deriving DecidableEq

def absent (c : Cred) : CapSet :=
  capFullSet &&& ~~~(credCapPermitted c ||| c.caps.inh ||| credCapBounding c)

def Entry.note (e : Entry) (c : Cred) : Entry :=
  { task := { e.task with cred := c }
    lost := e.lost ||| absent c
    pinned := e.pinned || c.caps.noNewPrivs }

inductive Event where
  | capset (i : ℕ) (ef pr inh : CapSet)
  | capbsetDrop (i cap : ℕ)
  | ambientClear (i : ℕ)
  | ambientLower (i cap : ℕ)
  | ambientRaise (i cap : ℕ)
  | setNoNewPrivs (i a1 a2 a3 a4 : ℕ)
  | spawn (parent : Option ℕ) (pid ppid : ℤ)
  | exec (i : ℕ)
  | becomeUser (i : ℕ) (uid gid : ℤ) (groups : List ℤ) (session : ℤ) (leftover : Caps)
  | reparent (i : ℕ) (ppid : ℤ)
  | reap (i : ℕ)

-- The task a spawn makes: its memory is zeroed, its identity comes from the caller.
def born (pid ppid : ℤ) : Option Entry → Entry
  | none => Entry.note { task := { pid := pid, ppid := ppid, cred := {} }, lost := 0, pinned := false }
      (credInherit {} none)
  | some e => Entry.note { e with task := { pid := pid, ppid := ppid, cred := {} } }
      (credInherit {} (some e.task.cred))

def tasksOf (s : List Entry) : List Task := s.map Entry.task

def Entry.become (s : List Entry) (uid gid : ℤ) (groups : List ℤ) (session : ℤ) (leftover : Caps)
    (e : Entry) : Entry :=
  if mayBecome (tasksOf s) e.task session then
    { e with task := { e.task with credSeq := e.task.credSeq + 1 } }.note
      (adopted leftover uid gid groups session)
  else e

def step (s : List Entry) : Event → List Entry
  | .capset i ef pr inh => s.modify i fun e => e.note (capset e.task.cred ef pr inh)
  | .capbsetDrop i cap => s.modify i fun e => e.note (capbsetDrop e.task.cred cap)
  | .ambientClear i => s.modify i fun e => e.note (ambientClear e.task.cred)
  | .ambientLower i cap => s.modify i fun e => e.note (ambientLower e.task.cred cap)
  | .ambientRaise i cap => s.modify i fun e => e.note (ambientRaise e.task.cred cap)
  | .setNoNewPrivs i a1 a2 a3 a4 => s.modify i fun e => e.note (setNoNewPrivs e.task.cred a1 a2 a3 a4)
  | .spawn none pid ppid => s ++ [born pid ppid none]
  | .spawn (some i) pid ppid => s ++ (s[i]?.map fun e => born pid ppid (some e)).toList
  | .exec i => s.modify i fun e => e.note (credExecCaps e.task.cred)
  | .becomeUser i uid gid groups session leftover =>
    s.modify i (Entry.become s uid gid groups session leftover)
  | .reparent i ppid => s.modify i fun e => { e with task := { e.task with ppid := ppid } }
  | .reap i => s.modify i fun e => { e with task := { e.task with gone := true } }

def boot : List Entry := [born 0 0 none]

structure Confined (e : Entry) : Prop where
  lost : ∀ k, has e.lost k = true → has (credCapPermitted e.task.cred) k = false
  effective : ∀ k, has (credCapEffective e.task.cred) k = true →
    has (credCapPermitted e.task.cred) k = true
  ambient : ∀ k, has e.task.cred.caps.amb k = true →
    has (credCapPermitted e.task.cred) k = true ∧ has e.task.cred.caps.inh k = true
  pinned : e.pinned = true → e.task.cred.caps.noNewPrivs = true

def AllConfined (s : List Entry) : Prop := ∀ e ∈ s, Confined e

-- What the memory behind a new identity must hold: what the lineage lost is dropped there and not
-- inheritable, an ambient capability is held, and the one-way bit stays.
structure Faithful (e : Entry) (c : Cred) : Prop where
  lost : credIsAdmin c = true → ∀ k, has e.lost k = true →
    has c.caps.prmDrop k = true ∧ has c.caps.bndDrop k = true ∧ has c.caps.inh k = false
  ambient : ∀ k, has c.caps.amb k = true →
    credIsAdmin c = true ∧ k ≤ capLastCap ∧ has c.caps.prmDrop k = false ∧ has c.caps.inh k = true
  pinned : e.pinned = true → c.caps.noNewPrivs = true

def faithful (s : List Entry) : Event → Prop
  | .becomeUser i uid gid groups session leftover => ∀ e ∈ s[i]?,
    mayBecome (tasksOf s) e.task session = true → Faithful e (adopted leftover uid gid groups session)
  | _ => True

structure Kept (e : Entry) : Prop where
  small : ∀ k, has e.lost k = true → k ≤ capLastCap
  lost : credIsAdmin e.task.cred = true → ∀ k, has e.lost k = true →
    has (absent e.task.cred) k = true
  ambient : ∀ k, has e.task.cred.caps.amb k = true →
    has (credCapPermitted e.task.cred) k = true ∧ has e.task.cred.caps.inh k = true
  pinned : e.pinned = true → e.task.cred.caps.noNewPrivs = true

structure Shrinks (c c' : Cred) : Prop where
  admin : credIsAdmin c' = credIsAdmin c
  absent : credIsAdmin c = true → ∀ k, has (absent c) k = true → has (absent c') k = true
  ambient : ∀ k, has c'.caps.amb k = true →
    (has c.caps.amb k = true → has (credCapPermitted c) k = true ∧ has c.caps.inh k = true) →
    has (credCapPermitted c') k = true ∧ has c'.caps.inh k = true
  pinned : c.caps.noNewPrivs = true → c'.caps.noNewPrivs = true

theorem has_absent {c : Cred} {k : ℕ} : has (absent c) k = true ↔ k ≤ capLastCap ∧
    (credIsAdmin c = true → has c.caps.prmDrop k = true) ∧ has c.caps.inh k = false ∧
      has c.caps.bndDrop k = true := by
  rw [absent, has_full_not]
  by_cases hk : k ≤ capLastCap
  · cases ha : credIsAdmin c with
    | false => simp [hk, ha, and_comm]
    | true => simp [hk, ha, and_assoc]
  · simp [hk]

section

variable (c : Cred)

include c

theorem Shrinks.refl : Shrinks c c :=
  ⟨rfl, fun _ _ h => h, fun _ ha h => h ha, id⟩

theorem shrinks_capset (ef pr inh : CapSet) : Shrinks c (capset c ef pr inh) := by
  unfold capset
  split
  next h =>
    obtain ⟨hok, hadmin⟩ := Bool.and_eq_true_iff.mp h
    simp only [capsetAllowed, Bool.and_eq_true, decide_eq_true_eq, subset_iff] at hok
    obtain ⟨⟨⟨⟨hpr, -⟩, hinh⟩, -⟩, -⟩ := hok
    refine ⟨rfl, fun _ k ha => ?_, fun k ha _ => ?_, id⟩
    · -- what was permitted or inheritable covers what is asked for
      obtain ⟨hk, hp, hi, hb⟩ := has_absent.mp ha
      have hpk := hpr k
      have hik := hinh k
      simp only [has_permitted, has_or, hi, hp hadmin] at hpk hik
      refine has_absent.mpr ⟨hk, fun _ => ?_, ?_, hb⟩
      · simpa [hk] using hpk
      · simp only [has_and, Bool.and_eq_false_iff]
        left
        simpa using hik
    · simp only [has_and, Bool.and_eq_true] at ha
      obtain ⟨-, hp, hi⟩ := ha
      have hk := hpr k hp
      simp only [has_permitted, hadmin, Bool.true_and, Bool.and_eq_true, decide_eq_true_eq] at hk
      simp [hadmin, hk.1, hp, hi]
  · exact .refl c

theorem shrinks_capbsetDrop (cap : ℕ) : Shrinks c (capbsetDrop c cap) := by
  unfold capbsetDrop
  split
  · refine ⟨rfl, fun _ k ha => ?_, fun k ha hold => hold ha, id⟩
    obtain ⟨hk, hp, hi, hb⟩ := has_absent.mp ha
    exact has_absent.mpr ⟨hk, hp, hi, by simp [hb]⟩
  · exact .refl c

theorem shrinks_ambientClear : Shrinks c (ambientClear c) :=
  ⟨rfl, fun _ _ h => h, fun _ ha _ => by simp [ambientClear] at ha, id⟩

theorem shrinks_ambientLower (cap : ℕ) : Shrinks c (ambientLower c cap) := by
  unfold ambientLower
  split
  · refine ⟨rfl, fun _ _ h => h, fun k ha hold => ?_, id⟩
    simp only [has_and, Bool.and_eq_true] at ha
    exact hold ha.1
  · exact .refl c

theorem shrinks_ambientRaise (cap : ℕ) : Shrinks c (ambientRaise c cap) := by
  unfold ambientRaise
  split
  next h =>
    obtain ⟨hcap, hp, hi⟩ := h
    refine ⟨rfl, fun _ _ h => h, fun k ha hold => ?_, id⟩
    simp only [has_or, has_bit hcap, Bool.or_eq_true, decide_eq_true_eq] at ha
    obtain ha | rfl := ha
    · exact hold ha
    · exact ⟨has_of_meets_bit hcap hp, has_of_meets_bit hcap hi⟩
  · exact .refl c

theorem shrinks_setNoNewPrivs (a1 a2 a3 a4 : ℕ) :
    Shrinks c (setNoNewPrivs c a1 a2 a3 a4) := by
  unfold setNoNewPrivs
  split
  · exact ⟨rfl, fun _ _ h => h, fun _ ha hold => hold ha, fun _ => rfl⟩
  · exact .refl c

theorem shrinks_credExecCaps : Shrinks c (credExecCaps c) := by
  unfold credExecCaps
  split
  · refine ⟨rfl, fun _ k ha => ?_, fun k ha _ => by simp at ha, id⟩
    obtain ⟨hk, -, hi, hb⟩ := has_absent.mp ha
    refine has_absent.mpr ⟨hk, fun _ => ?_, hi, hb⟩
    simp [hk, hi, hb]
  · exact .refl c

end

theorem shrinks_credInherit (c child : Cred) : Shrinks c (credInherit child (some c)) := by
  simp only [credInherit]
  split
  next h =>
    have hadmin : credIsAdmin c = true := by simp [credIsAdmin, h]
    have hchild : credIsAdmin (asSystem c) = true := rfl
    refine ⟨hchild.trans hadmin.symm, fun _ k ha => ?_, fun k ha hold => ?_, id⟩
    · obtain ⟨hk, hp, hi, hb⟩ := has_absent.mp ha
      exact has_absent.mpr ⟨hk, fun _ => hp hadmin, hi, hb⟩
    · have hq := hold ha
      rw [has_permitted, hadmin] at hq
      rw [has_permitted, hchild]
      exact hq
  · exact .refl c

theorem Kept.shrunk {e e' : Entry} (h : Kept e) (hs : Shrinks e.task.cred e'.task.cred)
    (hlost : e'.lost = e.lost ||| absent e'.task.cred := by rfl)
    (hpin : e'.pinned = (e.pinned || e'.task.cred.caps.noNewPrivs) := by rfl) : Kept e' where
  small k hk := by
    rw [hlost, has_or, Bool.or_eq_true] at hk
    obtain hk | hk := hk
    · exact h.small k hk
    · exact (has_absent.mp hk).1
  lost hadmin k hk := by
    rw [hlost, has_or, Bool.or_eq_true] at hk
    obtain hk | hk := hk
    · have hold : credIsAdmin e.task.cred = true := hs.admin.symm.trans hadmin
      exact hs.absent hold k (h.lost hold k hk)
    · exact hk
  ambient k hk := hs.ambient k hk (h.ambient k)
  pinned hp := by
    rw [hpin, Bool.or_eq_true] at hp
    obtain hp | hp := hp
    · exact hs.pinned (h.pinned hp)
    · exact hp

theorem kept_born_none (pid ppid : ℤ) : Kept (born pid ppid none) where
  small k hk := by
    simp only [born, Entry.note, has_or, Bool.or_eq_true] at hk
    obtain hk | hk := hk
    · cases has_zero.symm.trans hk
    · exact (has_absent.mp hk).1
  lost _ k hk := by
    simp only [born, Entry.note, has_or, Bool.or_eq_true] at hk
    obtain hk | hk := hk
    · cases has_zero.symm.trans hk
    · exact hk
  ambient k hk := by cases has_zero.symm.trans hk
  pinned hp := by cases hp

theorem Kept.become {e : Entry} {s : List Entry} {uid gid : ℤ} {groups : List ℤ} {session : ℤ}
    {leftover : Caps} (h : Kept e) (hf : mayBecome (tasksOf s) e.task session = true →
      Faithful e (adopted leftover uid gid groups session)) :
    Kept (e.become s uid gid groups session leftover) := by
  unfold Entry.become
  split
  next hmay =>
    have hfaith := hf hmay
    refine ⟨fun k hk => ?_, fun hadmin k hk => ?_, fun k hk => ?_, fun hp => ?_⟩
    · simp only [Entry.note, has_or, Bool.or_eq_true] at hk
      obtain hk | hk := hk
      · exact h.small k hk
      · exact (has_absent.mp hk).1
    · simp only [Entry.note, has_or, Bool.or_eq_true] at hk
      obtain hk | hk := hk
      · obtain ⟨hp, hb, hi⟩ := hfaith.lost hadmin k hk
        exact has_absent.mpr ⟨h.small k hk, fun _ => hp, hi, hb⟩
      · exact hk
    · obtain ⟨hadmin, hcap, hp, hi⟩ := hfaith.ambient k hk
      refine ⟨?_, hi⟩
      rw [has_permitted]
      show (credIsAdmin (adopted leftover uid gid groups session) && _) = true
      simp only [Entry.note, hadmin, hcap, hp, decide_true, Bool.not_false, Bool.and_self]
    · simp only [Entry.note, Bool.or_eq_true] at hp
      obtain hp | hp := hp
      · exact hfaith.pinned hp
      · exact hp
  · exact h

theorem forall_mem_modify {α : Type*} {P : α → Prop} {s : List α} {i : ℕ} {f : α → α}
    (h : ∀ a ∈ s, P a) (hf : ∀ a ∈ s[i]?, P (f a)) : ∀ a ∈ s.modify i f, P a := by
  intro b hb
  obtain ⟨j, hj⟩ := mem_iff_getElem?.mp hb
  rw [getElem?_modify] at hj
  obtain ⟨a, ha, rfl⟩ := Option.map_eq_some_iff.mp hj
  split
  next hij =>
    exact hf a (hij ▸ ha)
  · exact h a (mem_of_getElem? ha)

theorem kept_step {s : List Entry} {a : Event} (h : ∀ e ∈ s, Kept e) (hf : faithful s a) :
    ∀ e ∈ step s a, Kept e := by
  have hmem : ∀ {i : ℕ} {e : Entry}, e ∈ s[i]? → Kept e := fun he => h _ (mem_of_getElem? he)
  cases a with
  | capset i ef pr inh =>
    exact forall_mem_modify h fun e he => (hmem he).shrunk (shrinks_capset ..)
  | capbsetDrop i cap =>
    exact forall_mem_modify h fun e he => (hmem he).shrunk (shrinks_capbsetDrop ..)
  | ambientClear i =>
    exact forall_mem_modify h fun e he => (hmem he).shrunk (shrinks_ambientClear _)
  | ambientLower i cap =>
    exact forall_mem_modify h fun e he => (hmem he).shrunk (shrinks_ambientLower ..)
  | ambientRaise i cap =>
    exact forall_mem_modify h fun e he => (hmem he).shrunk (shrinks_ambientRaise ..)
  | setNoNewPrivs i a1 a2 a3 a4 =>
    exact forall_mem_modify h fun e he => (hmem he).shrunk (shrinks_setNoNewPrivs ..)
  | spawn parent pid ppid =>
    cases parent with
    | none =>
      intro e he
      obtain he | he := mem_append.mp he
      · exact h e he
      · rw [mem_singleton.mp he]
        exact kept_born_none pid ppid
    | some i =>
      intro e he
      obtain he | he := mem_append.mp he
      · exact h e he
      · obtain ⟨p, hp, rfl⟩ := Option.map_eq_some_iff.mp (Option.mem_toList.mp he)
        exact (hmem hp).shrunk (shrinks_credInherit p.task.cred {})
  | exec i => exact forall_mem_modify h fun e he => (hmem he).shrunk (shrinks_credExecCaps _)
  | becomeUser i uid gid groups session leftover =>
    exact forall_mem_modify h fun e he => (hmem he).become (hf e he)
  | reparent i ppid | reap i =>
    refine forall_mem_modify h fun e he => ?_
    exact ⟨(hmem he).small, (hmem he).lost, (hmem he).ambient, (hmem he).pinned⟩

theorem Kept.confined {e : Entry} (h : Kept e) : Confined e where
  lost k hk := by
    rw [has_permitted]
    cases hadmin : credIsAdmin e.task.cred with
    | false => rfl
    | true => simp [(has_absent.mp (h.lost hadmin k hk)).2.1 hadmin]
  effective k hk := by
    unfold credCapEffective at hk
    split at hk
    next hadmin =>
      rw [has_and, has_full_not] at hk
      simp only [Bool.and_eq_true, decide_eq_true_eq] at hk
      have hnot : (!has e.task.cred.caps.prmDrop k) = true := by
        rw [← has_not (by have := hk.1.1; simp only [capLastCap] at this; omega)]
        exact hk.2
      simp [hadmin, hk.1.1, hnot]
    · cases has_zero.symm.trans hk
  ambient := h.ambient
  pinned := h.pinned

theorem mem_modify_self {α : Type*} {s : List α} {i : ℕ} {f : α → α} {a : α} (h : s[i]? = some a) :
    (s.modify i f)[i]? = some (f a) := by
  rw [getElem?_modify, h]
  simp

theorem Faithful.of_confined {e e' : Entry} {c : Cred} (hnow : Confined e')
    (hthen : Confined (e'.note (credExecCaps c))) (hcred : e'.task.cred = c)
    (hlost : e'.lost = e.lost ||| absent c) (hpin : e'.pinned = (e.pinned || c.caps.noNewPrivs))
    (hsmall : ∀ k, has e.lost k = true → k ≤ capLastCap) : Faithful e c := by
  refine ⟨fun hadmin k hk => ?_, fun k hk => ?_, fun hp => ?_⟩
  · have hcap := hsmall k hk
    have hmem : has e'.lost k = true := by simp [hlost, hk]
    have hp := hnow.lost k hmem
    have hx := hthen.lost k (by simp [Entry.note, hmem])
    simp only [has_permitted, hcred, hadmin, hcap, decide_true, Bool.true_and,
      Bool.not_eq_false'] at hp
    rw [show (e'.note (credExecCaps c)).task.cred = credExecCaps c from rfl,
      has_permitted_exec hadmin] at hx
    simp only [hcap, decide_true, Bool.true_and, Bool.or_eq_false_iff, Bool.not_eq_false'] at hx
    exact ⟨hp, hx.2, hx.1⟩
  · obtain ⟨hp, hi⟩ := hnow.ambient k (hcred ▸ hk)
    rw [hcred] at hp hi
    simp only [has_permitted, Bool.and_eq_true, decide_eq_true_eq, Bool.not_eq_true'] at hp
    exact ⟨hp.1, hp.2.1, hp.2.2, hi⟩
  · exact hcred ▸ hnow.pinned (by rw [hpin, hp]; rfl)

theorem faithful_of_confined {s : List Entry} {a : Event} (hs : ∀ e ∈ s, Kept e)
    (hc : AllConfined (step s a)) (hx : ∀ i, AllConfined (step (step s a) (.exec i))) :
    faithful s a := by
  cases a with
  | becomeUser i uid gid groups session leftover =>
    intro e he hmay
    have hget : (step s (.becomeUser i uid gid groups session leftover))[i]? =
        some (e.become s uid gid groups session leftover) := mem_modify_self he
    have hnew : e.become s uid gid groups session leftover = Entry.note
        { e with task := { e.task with credSeq := e.task.credSeq + 1 } }
        (adopted leftover uid gid groups session) := if_pos hmay
    have hthen := hx i _ (mem_of_getElem? (mem_modify_self hget))
    rw [hnew] at hget hthen
    exact .of_confined (hc _ (mem_of_getElem? hget)) hthen rfl rfl rfl
      (hs e (mem_of_getElem? he)).small
  | _ => trivial

-- The capabilities of each lineage only shrink exactly if each task that took on a user's identity
-- found its losses in the memory behind it.
theorem confined_iff_faithful (calls : List Event) :
    Always step (fun s => AllConfined s ∧ ∀ i, AllConfined (step s (.exec i))) boot calls ↔
      Allowed step faithful boot calls := by
  have hstep : ∀ (s : List Entry) (a : Event), (∀ e ∈ s, Kept e) → faithful s a →
      ∀ e ∈ step s a, Kept e := fun _ _ => kept_step
  apply always_iff_of_step hstep
  · exact fun s h => ⟨fun e he => (h e he).confined, fun i e he =>
      (kept_step (a := .exec i) h trivial e he).confined⟩
  · exact fun s a h hP => faithful_of_confined h hP.1 hP.2
  · intro e he
    rw [List.mem_singleton.mp he]
    exact kept_born_none 0 0

-- A service drops CAP_SYS_ADMIN, sets `no_new_privs` and signs a user in as root over a zero stack.
def withoutSysAdmin : CapSet := capFullSet &&& ~~~bit 21

def rootLogin : List Event :=
  [.spawn (some 0) 1 0, .capbsetDrop 1 21, .capset 1 withoutSysAdmin withoutSysAdmin 0,
    .setNoNewPrivs 1 1 0 0 0, .becomeUser 1 0 0 [] 1 {}]

theorem rootLogin_not_confined :
    ¬ Always step (fun s => AllConfined s ∧ ∀ i, AllConfined (step s (.exec i))) boot rootLogin := by
  intro h
  have hget : ∃ e, (run step boot rootLogin)[1]? = some e ∧ has e.lost 21 = true ∧
      has (credCapPermitted e.task.cred) 21 = true := by
    refine ⟨_, rfl, ?_⟩
    decide +kernel
  obtain ⟨e, he, hlost, hperm⟩ := hget
  have hno := (h.last.1 e (List.mem_of_getElem? he)).lost 21 hlost
  cases hno.symm.trans hperm

end DosKernel.Identity
