import Mathlib.Data.List.Nodup
import Mathlib.Logic.Function.Basic

namespace DosKernel.Cron

open List
open Function (update update_of_ne update_self)

abbrev Text := List Char

def uint32End : ℕ := 4294967296
def cronMax : ℕ := 32

structure Job where
  name : Text
  defaultEveryMs : UInt32

-- The section `cron_jobs`, in any order: `cron.<name>.every_ms` fits the buffer of `build_key`.
structure Registry where
  jobs : List Job
  unique : (jobs.map Job.name).Nodup
  few : jobs.length ≤ cronMax
  short : ∀ j ∈ jobs, j.name.length ≤ 49

-- `struct cron_rt` without the count of runs, which building the schedule leaves.
structure Slot where
  intervalMs : ℕ := 0
  nextDue : ℕ := 0
  disabled : Bool := false

def parseU32 (s : Text) : ℕ :=
  (s.takeWhile Char.isDigit).foldl (fun v c => (v * 10 + (c.toNat - 48)) % uint32End) 0

def blank (c : Char) : Bool := c = ' ' || c = '\t'

-- The words of a line, at most so many, up to a word that starts with '#'.
def tokens : ℕ → Text → List Text
  | 0, _ => []
  | n + 1, p =>
    match p.dropWhile blank with
    | [] => []
    | c :: q =>
      if c = '#' then []
      else (c :: q).takeWhile (!blank ·) :: tokens n ((c :: q).dropWhile (!blank ·)).tail

inductive Span where
  | seconds
  | minutes
  | hours

def Span.ms : Span → ℕ
  | .seconds => 1000
  | .minutes => 60000
  | .hours => 3600000

def spanOf (word : Text) : Span :=
  if word.head? = some 'm' then .minutes else if word.head? = some 'h' then .hours else .seconds

structure Entry where
  count : Text
  unit : Span
  job : Text

-- `every <N> <s|m|h> <jobname>`
def entry (line : Text) : Option Entry :=
  match tokens 4 line with
  | [every, count, unit, job] =>
    if every = "every".toList then some { count, unit := spanOf unit, job } else none
  | _ => none

def lines (text : Text) : List Text :=
  (text.splitOnP fun c => c = '\n' || c = '\x00').filter (· ≠ [])

def buildKey (name : Text) (suf : String) : Text := ("cron.".toList ++ name ++ suf.toList).take 63

abbrev Crontab := Option Text

def Crontab.read (file : Crontab) : Text := (file.getD []).take 1023

-- The interval before `/etc/crontab` is read: the registered one, or that of the key.
def Job.preset (j : Job) (config : Text → Option Text) : ℕ :=
  let iv := if j.defaultEveryMs ≠ 0 then j.defaultEveryMs.toNat else 1000
  let ov := (config (buildKey j.name ".every_ms")).getD []
  if ov ≠ [] ∧ parseU32 ov ≠ 0 then parseU32 ov else iv

namespace Registry

variable (r : Registry)

def findJob (name : Text) : Option ℕ := (r.jobs.take cronMax).findIdx? (·.name = name)

def sets (line : Text) : Option (ℕ × ℕ) :=
  match entry line with
  | none => none
  | some e =>
    match r.findJob e.job with
    | none => none
    | some i =>
      if 0 < parseU32 e.count then some (i, parseU32 e.count * e.unit.ms % uint32End) else none

def crontabApplyLine (rt : ℕ → Slot) (line : Text) : ℕ → Slot :=
  match r.sets line with
  | none => rt
  | some (i, v) => update rt i { rt i with intervalMs := v }

def crontabParse (file : Crontab) (rt : ℕ → Slot) : ℕ → Slot :=
  (lines file.read).foldl r.crontabApplyLine rt

def cronBuildSchedule (config : Text → Option Text) (file : Crontab) (now : ℕ) (rt : ℕ → Slot) :
    ℕ → Slot :=
  let set := fun i =>
    match (r.jobs.take cronMax)[i]? with
    | none => rt i
    | some j => { rt i with
        intervalMs := j.preset config
        disabled := decide (((config (buildKey j.name ".disabled")).getD ['0']).head? = some '1') }
  let read := r.crontabParse file set
  fun i =>
    if i < (r.jobs.take cronMax).length then
      { read i with nextDue := now + (read i).intervalMs }
    else read i

end Registry

def decimal (s : Text) : ℕ :=
  (s.takeWhile Char.isDigit).foldl (fun v c => v * 10 + (c.toNat - 48)) 0

def Entry.value (e : Entry) : ℕ := decimal e.count * e.unit.ms

namespace Job

variable (j : Job)

def registered : ℕ := if j.defaultEveryMs ≠ 0 then j.defaultEveryMs.toNat else 1000

def fromLine (line : Text) : Option ℕ :=
  (entry line).bind fun e =>
    if e.job = j.name ∧ 0 < e.value ∧ e.value < uint32End then some e.value else none

def fromCrontab (text : Text) : Option ℕ := ((lines text).filterMap j.fromLine).getLast?

def fromKey (config : Text → Option Text) : Option ℕ :=
  (((config ("cron.".toList ++ j.name ++ ".every_ms".toList)).map decimal).filter (· ≠ 0))

def layered (config : Text → Option Text) (file : Crontab) : ℕ :=
  ((j.fromKey config).or (j.fromCrontab (file.getD []))).getD j.registered

end Job

-- A line is ignored, or it contributes its number of units, which is not zero.
def Registry.Exact (r : Registry) (line : Text) : Prop :=
  ∀ i v, r.sets line = some (i, v) → ∀ e ∈ entry line, v = e.value ∧ 0 < v

structure Layered (r : Registry) (config : Text → Option Text) (file : Crontab) (now : ℕ)
    (rt : ℕ → Slot) : Prop where
  value : ∀ i j, r.jobs[i]? = some j →
    (r.cronBuildSchedule config file now rt i).intervalMs = j.layered config file
  exact : ∀ line ∈ lines file.read, r.Exact line

-- No line overflows; a job with a key has no line or one that says the same, and one without loses
-- nothing to the end of the buffer.
structure Ranged (r : Registry) (config : Text → Option Text) (file : Crontab) : Prop where
  lines : ∀ line ∈ lines file.read, ∀ e ∈ entry line, (∃ j ∈ r.jobs, j.name = e.job) →
    e.value < uint32End ∨ decimal e.count % uint32End = 0
  keys : ∀ j ∈ r.jobs, ∀ v ∈ j.fromKey config,
    v < uint32End ∧ ∀ c ∈ j.fromCrontab file.read, c = v
  whole : ∀ j ∈ r.jobs, j.fromKey config = none →
    (j.fromCrontab file.read).getD j.registered =
      (j.fromCrontab (file.getD [])).getD j.registered

variable {r : Registry} {config : Text → Option Text} {file : Crontab} {j : Job} {i now : ℕ}
  {line : Text} {e : Entry} {rt : ℕ → Slot}

theorem parseU32_eq (s : Text) : parseU32 s = decimal s % uint32End := by
  have hfold : ∀ (l : Text) (v w : ℕ), v = w % uint32End →
      l.foldl (fun v c => (v * 10 + (c.toNat - 48)) % uint32End) v =
        l.foldl (fun v c => v * 10 + (c.toNat - 48)) w % uint32End := by
    intro l
    induction l with
    | nil => exact fun v w h => h
    | cons c l ih =>
      intro v w h
      refine ih _ _ ?_
      rw [h]
      simp only [uint32End]
      omega
  exact hfold _ 0 0 rfl

theorem Span.ms_pos (u : Span) : 0 < u.ms := by
  cases u <;> decide

theorem findJob_eq (hj : r.jobs[i]? = some j) : r.findJob j.name = some i := by
  obtain ⟨hi, hget⟩ := List.getElem?_eq_some_iff.mp hj
  unfold Registry.findJob
  rw [take_of_length_le r.few, findIdx?_eq_some_iff_getElem]
  refine ⟨hi, decide_eq_true (congrArg Job.name hget), fun k hk hname => ?_⟩
  refine nodup_iff_getElem?_ne_getElem?.mp r.unique k i hk (by rwa [length_map]) ?_
  rw [getElem?_map, getElem?_map, hj, getElem?_eq_getElem (Nat.lt_trans hk hi)]
  exact congrArg some (of_decide_eq_true hname)

theorem sets_eq (hj : r.jobs[i]? = some j) (he : entry line = some e) (hname : e.job = j.name) :
    r.sets line = if decimal e.count % uint32End = 0 then none
      else some (i, decimal e.count % uint32End * e.unit.ms % uint32End) := by
  simp only [Registry.sets, he, hname, findJob_eq hj, parseU32_eq, Nat.pos_iff_ne_zero,
    ite_not]

theorem of_sets {v : ℕ} (h : r.sets line = some (i, v)) :
    ∃ e j, entry line = some e ∧ r.jobs[i]? = some j ∧ e.job = j.name := by
  unfold Registry.sets at h
  split at h
  · cases h
  next e he =>
    split at h
    · cases h
    next k hk =>
      split at h <;> cases h
      unfold Registry.findJob at hk
      rw [take_of_length_le r.few, findIdx?_eq_some_iff_getElem] at hk
      obtain ⟨hi, hname, -⟩ := hk
      exact ⟨e, _, he, getElem?_eq_getElem hi, (of_decide_eq_true hname).symm⟩

theorem exact_iff : r.Exact line ↔ ∀ e ∈ entry line, (∃ j ∈ r.jobs, j.name = e.job) →
    e.value < uint32End ∨ decimal e.count % uint32End = 0 := by
  constructor
  · rintro h e he ⟨j, hj, hname⟩
    obtain ⟨i, hi⟩ := getElem?_of_mem hj
    by_cases hzero : decimal e.count % uint32End = 0
    · exact .inr hzero
    · rw [← (h i _ ((sets_eq hi he hname.symm).trans (if_neg hzero)) e he).1]
      exact .inl (Nat.mod_lt _ (by decide))
  · intro h i v hset e he
    obtain ⟨e', j, he', hj, hname⟩ := of_sets hset
    obtain rfl := Option.some.inj (he'.symm.trans he)
    rw [sets_eq hj he hname] at hset
    split at hset <;> cases hset
    next hzero =>
      have hlt := (h e' he ⟨j, mem_of_getElem? hj, hname.symm⟩).resolve_right hzero
      unfold Entry.value at hlt ⊢
      have hle := Nat.le_mul_of_pos_right (decimal e'.count) e'.unit.ms_pos
      rw [Nat.mod_eq_of_lt (Nat.lt_of_le_of_lt hle hlt)] at hzero ⊢
      rw [Nat.mod_eq_of_lt hlt]
      exact ⟨rfl, Nat.mul_pos (Nat.pos_of_ne_zero hzero) e'.unit.ms_pos⟩

theorem interval_applyLine (hj : r.jobs[i]? = some j) (h : r.Exact line) :
    (r.crontabApplyLine rt line i).intervalMs = (j.fromLine line).getD (rt i).intervalMs := by
  unfold Registry.crontabApplyLine
  cases hset : r.sets line with
  | none =>
    cases hline : j.fromLine line with
    | none => rfl
    | some v =>
      obtain ⟨e, he, hv⟩ := Option.bind_eq_some_iff.mp hline
      obtain ⟨⟨hname, hpos, hlt⟩, -⟩ := Option.ite_none_right_eq_some.mp hv
      have hle := Nat.le_mul_of_pos_right (decimal e.count) e.unit.ms_pos
      have hzero : decimal e.count % uint32End = 0 := by
        by_contra hne
        cases hset.symm.trans ((sets_eq hj he hname).trans (if_neg hne))
      rw [Nat.mod_eq_of_lt (Nat.lt_of_le_of_lt hle hlt)] at hzero
      rw [Entry.value, hzero, Nat.zero_mul] at hpos
      cases hpos
  | some p =>
    obtain ⟨k, v⟩ := p
    obtain ⟨e, j', he, hj', hname⟩ := of_sets hset
    obtain ⟨rfl, hpos⟩ := h k v hset e he
    have hline : ∀ j : Job, j.fromLine line = if e.job = j.name ∧ 0 < e.value ∧ e.value < uint32End
        then some e.value else none := fun j => by rw [Job.fromLine, he, Option.bind_some]
    by_cases hik : i = k
    · subst hik
      obtain rfl := Option.some.inj (hj'.symm.trans hj)
      rw [sets_eq hj he hname] at hset
      split at hset
      · cases hset
      · have hlt : e.value < uint32End := by
          rw [← (Prod.mk.inj (Option.some.inj hset)).2]
          exact Nat.mod_lt _ (by decide)
        dsimp only
        rw [hline, if_pos ⟨hname, hpos, hlt⟩, Option.getD_some, update_self]
    · have hne : e.job ≠ j.name := fun hsame => hik (Option.some.inj
        ((findJob_eq hj).symm.trans (hsame ▸ hname ▸ findJob_eq hj')))
      dsimp only
      rw [hline, if_neg fun hand => hne hand.1, Option.getD_none, update_of_ne hik]

theorem interval_foldl (hj : r.jobs[i]? = some j) {ls : List Text} (h : ∀ line ∈ ls, r.Exact line) :
    (ls.foldl r.crontabApplyLine rt i).intervalMs =
      (ls.filterMap j.fromLine).getLast?.getD (rt i).intervalMs := by
  induction ls generalizing rt with
  | nil => rfl
  | cons line ls ih =>
    rw [foldl_cons, ih fun l hl => h l (mem_cons_of_mem _ hl),
      interval_applyLine hj (h line mem_cons_self), filterMap_cons]
    cases j.fromLine line with
    | none => rfl
    | some v =>
      rw [getLast?_cons]
      rfl

theorem interval_build (hj : r.jobs[i]? = some j)
    (h : ∀ line ∈ lines file.read, r.Exact line) :
    (r.cronBuildSchedule config file now rt i).intervalMs =
      (j.fromCrontab file.read).getD (j.preset config) := by
  have hi : i < r.jobs.length := (List.getElem?_eq_some_iff.mp hj).1
  unfold Registry.cronBuildSchedule
  dsimp only
  rw [take_of_length_le r.few, if_pos hi]
  refine (interval_foldl hj h).trans ?_
  rw [hj]
  rfl

theorem preset_eq (hj : j ∈ r.jobs) : j.preset config = (j.fromKey config).elim j.registered
    fun v => if v % uint32End = 0 then j.registered else v % uint32End := by
  have hkey : buildKey j.name ".every_ms" = "cron.".toList ++ j.name ++ ".every_ms".toList := by
    have hshort := r.short j hj
    have hlen : "cron.".toList.length = 5 ∧ ".every_ms".toList.length = 9 := ⟨rfl, rfl⟩
    refine take_of_length_le ?_
    rw [length_append, length_append, hlen.1, hlen.2]
    omega
  unfold Job.preset Job.fromKey
  rw [hkey]
  cases config ("cron.".toList ++ j.name ++ ".every_ms".toList) with
  | none => rfl
  | some ov =>
    have hnil : decimal ov ≠ 0 → ov ≠ [] := by
      rintro hne rfl
      exact hne rfl
    simp only [parseU32_eq, Option.map_some, Option.getD_some]
    by_cases hzero : decimal ov = 0
    · simp [hzero, Job.registered, Option.filter_some]
    · by_cases hmod : decimal ov % uint32End = 0
      · simp [hzero, hmod, Job.registered, Option.filter_some]
      · simp [hzero, hmod, hnil hzero, Option.filter_some]

theorem fromCrontab_lt {text : Text} {v : ℕ} (h : j.fromCrontab text = some v) :
    v < uint32End := by
  obtain ⟨line, -, hline⟩ := mem_filterMap.mp (mem_of_getLast? h)
  obtain ⟨e, -, hv⟩ := Option.bind_eq_some_iff.mp hline
  obtain ⟨⟨-, -, hlt⟩, heq⟩ := Option.ite_none_right_eq_some.mp hv
  exact Option.some.inj heq ▸ hlt

theorem registered_lt : j.registered < uint32End := by
  unfold Job.registered
  split
  · exact j.defaultEveryMs.toNat_lt
  · decide

theorem value_iff (hj : r.jobs[i]? = some j)
    (h : ∀ line ∈ lines file.read, r.Exact line) :
    (r.cronBuildSchedule config file now rt i).intervalMs = j.layered config file ↔
      (∀ v ∈ j.fromKey config, v < uint32End ∧ ∀ c ∈ j.fromCrontab file.read, c = v) ∧
        (j.fromKey config = none → (j.fromCrontab file.read).getD j.registered =
          (j.fromCrontab (file.getD [])).getD j.registered) := by
  rw [interval_build hj h, preset_eq (mem_of_getElem? hj), Job.layered]
  cases hkey : j.fromKey config with
  | none => simp
  | some v =>
    cases hcut : j.fromCrontab file.read with
    | none =>
      have hreg : j.registered < uint32End := registered_lt
      have hne : v ≠ 0 := by
        simpa using (Option.filter_eq_some_iff.mp hkey).2
      have hmod : v % uint32End < uint32End := Nat.mod_lt _ (by decide)
      have hself : v < uint32End → v % uint32End = v := Nat.mod_eq_of_lt
      simp
      split <;> omega
    | some c =>
      have hlt := fromCrontab_lt hcut
      simp
      omega

theorem layered_iff_ranged (r : Registry) (config : Text → Option Text) (file : Crontab) (now : ℕ)
    (rt : ℕ → Slot) : Layered r config file now rt ↔ Ranged r config file := by
  constructor
  · intro h
    have hval : ∀ j ∈ r.jobs, _ := fun j hj =>
      have ⟨i, hi⟩ := getElem?_of_mem hj
      (value_iff hi h.exact).mp (h.value i j hi)
    exact { lines := fun line hl => exact_iff.mp (h.exact line hl)
            keys := fun j hj => (hval j hj).1
            whole := fun j hj => (hval j hj).2 }
  · intro h
    have hexact : ∀ line ∈ lines file.read, r.Exact line :=
      fun line hl => exact_iff.mpr (h.lines line hl)
    exact { value := fun i j hi =>
              have hj := mem_of_getElem? hi
              (value_iff hi hexact).mpr ⟨h.keys j hj, h.whole j hj⟩
            exact := hexact }

def cronJobs : Registry where
  jobs := [⟨"audit".toList, 1000⟩, ⟨"driver-rescan".toList, 2000⟩, ⟨"tick-log".toList, 5000⟩]
  unique := by decide
  few := by decide
  short := by decide

-- A line wins over the key, and 2 ^ 29 seconds are 125 times 2 ^ 32 milliseconds.
theorem line_overrides_key : ¬ Layered cronJobs
      (fun key => if key = "cron.audit.every_ms".toList then some "250".toList else none)
      (some "every 2 s audit".toList) 0 (fun _ => {}) ∧
    ¬ Layered cronJobs (fun _ => none) (some "every 536870912 s audit".toList) 0 (fun _ => {}) := by
  constructor
  all_goals
    intro h
    have hval := h.value 0 ⟨"audit".toList, 1000⟩ rfl
    revert hval
    decide

end DosKernel.Cron
