import Mathlib.Data.Finset.Basic
import Mathlib.Data.List.DropRight

namespace DosKernel.Cgroup

abbrev Text := List Char

-- The control files of a cgroup directory, in the order of `enum cgk`.
inductive Kind
  | controllers | subtree | procs | threads | type | events | stat
  | maxDepth | maxDesc | freeze | kill
  | cpuMax | cpuWeight | cpuStat
  | memMax | memHigh | memLow | memMin | memCurrent | memPeak
  | memSwapMax | memSwapCur | memEvents | memStat | memOomGroup
  | pidsMax | pidsCurrent
  | ioMax | ioWeight | ioStat
  | cpusetCpus | cpusetMems | cpusetCpusEff | cpusetMemsEff
  deriving DecidableEq

def Kind.name : Kind → Text
  | .controllers => "cgroup.controllers".toList
  | .subtree => "cgroup.subtree_control".toList
  | .procs => "cgroup.procs".toList
  | .threads => "cgroup.threads".toList
  | .type => "cgroup.type".toList
  | .events => "cgroup.events".toList
  | .stat => "cgroup.stat".toList
  | .maxDepth => "cgroup.max.depth".toList
  | .maxDesc => "cgroup.max.descendants".toList
  | .freeze => "cgroup.freeze".toList
  | .kill => "cgroup.kill".toList
  | .cpuMax => "cpu.max".toList
  | .cpuWeight => "cpu.weight".toList
  | .cpuStat => "cpu.stat".toList
  | .memMax => "memory.max".toList
  | .memHigh => "memory.high".toList
  | .memLow => "memory.low".toList
  | .memMin => "memory.min".toList
  | .memCurrent => "memory.current".toList
  | .memPeak => "memory.peak".toList
  | .memSwapMax => "memory.swap.max".toList
  | .memSwapCur => "memory.swap.current".toList
  | .memEvents => "memory.events".toList
  | .memStat => "memory.stat".toList
  | .memOomGroup => "memory.oom.group".toList
  | .pidsMax => "pids.max".toList
  | .pidsCurrent => "pids.current".toList
  | .ioMax => "io.max".toList
  | .ioWeight => "io.weight".toList
  | .ioStat => "io.stat".toList
  | .cpusetCpus => "cpuset.cpus".toList
  | .cpusetMems => "cpuset.mems".toList
  | .cpusetCpusEff => "cpuset.cpus.effective".toList
  | .cpusetMemsEff => "cpuset.mems.effective".toList

def Kind.root : Kind → Bool
  | .controllers | .subtree | .procs | .threads | .stat | .maxDepth | .maxDesc | .cpuStat
  | .memStat | .ioStat | .cpusetCpusEff | .cpusetMemsEff => true
  | _ => false

def Kind.rw : Kind → Bool
  | .subtree | .procs | .threads | .type | .maxDepth | .maxDesc | .freeze | .kill | .cpuMax
  | .cpuWeight | .memMax | .memHigh | .memLow | .memMin | .memSwapMax | .memOomGroup | .pidsMax
  | .ioMax | .ioWeight | .cpusetCpus | .cpusetMems => true
  | _ => false

def Kind.all : List Kind :=
  [.controllers, .subtree, .procs, .threads, .type, .events, .stat, .maxDepth, .maxDesc, .freeze,
    .kill, .cpuMax, .cpuWeight, .cpuStat, .memMax, .memHigh, .memLow, .memMin, .memCurrent,
    .memPeak, .memSwapMax, .memSwapCur, .memEvents, .memStat, .memOomGroup, .pidsMax, .pidsCurrent,
    .ioMax, .ioWeight, .ioStat, .cpusetCpus, .cpusetMems, .cpusetCpusEff, .cpusetMemsEff]

inductive Controller
  | cpuset | cpu | io | memory | pids
  deriving DecidableEq

namespace Controller

def name : Controller → Text
  | .cpuset => "cpuset".toList
  | .cpu => "cpu".toList
  | .io => "io".toList
  | .memory => "memory".toList
  | .pids => "pids".toList

def all : List Controller := [.cpuset, .cpu, .io, .memory, .pids]

end Controller

def ctlAll : Finset Controller := {.cpuset, .cpu, .io, .memory, .pids}

def ctlText (m : Finset Controller) : Text :=
  (" ".toList).intercalate ((Controller.all.filter (· ∈ m)).map Controller.name) ++ "\n".toList

inductive Errno
  | einval
  | enoent
  deriving DecidableEq

-- The words `set_subtree` reads, `true` for '+', up to one that is none. Every round takes a sign
-- off the text.
def wordsLoop : ℕ → Text → List (Option (Bool × Controller))
  | 0, _ => []
  | fuel + 1, text =>
    match text.dropWhile (fun c => c = ' ' ∨ c = '\t' ∨ c = '\n') with
    | [] => []
    | sign :: rest =>
      let word := (rest.take 15).takeWhile fun c => c ≠ ' ' ∧ c ≠ '\n'
      match Controller.all.find? (fun c => c.name = word) with
      | none => [none]
      | some c =>
        if sign ≠ '+' ∧ sign ≠ '-' then [none]
        else some (decide (sign = '+'), c) :: wordsLoop fuel (rest.drop word.length)

def words (text : Text) : List (Option (Bool × Controller)) := wordsLoop (text.length + 1) text

def setWord (avail m : Finset Controller) :
    Option (Bool × Controller) → Except Errno (Finset Controller)
  | none => .error .einval
  | some (true, c) => if c ∈ avail then .ok (insert c m) else .error .enoent
  | some (false, c) => .ok (m.erase c)

def setSubtree (avail subtree : Finset Controller) (text : Text) :
    Except Errno (Finset Controller) :=
  (words text).foldlM (setWord avail) subtree

-- What the last word about a controller asks for.
def lastWord (x : Controller) : List (Option (Bool × Controller)) → Option Bool
  | [] => none
  | w :: ws => (lastWord x ws).or (w.bind fun w => if w.2 = x then some w.1 else none)

-- The C string that `cg_write` makes of a buffer: at most 63 bytes, blanks at the end removed.
def writeText (buf : Text) : Text :=
  ((buf.take 63).rdropWhile fun c => c = '\n' ∨ c = ' ').takeWhile (· ≠ Char.ofNat 0)

def parseInt (text : Text) : Option ℕ :=
  let digits := (text.dropWhile fun c => c = ' ' ∨ c = '\t').takeWhile Char.isDigit
  if digits = [] then none
  else some (digits.foldl (fun v c => (10 * v + (c.toNat - 48)) % 18446744073709551616) 0)

-- What `(int)pid` names: no task has a negative pid.
def asPid (v : ℕ) : Option ℕ :=
  if v % 4294967296 < 2147483648 then some (v % 4294967296) else none

theorem setWord_eq_ok {avail m m' : Finset Controller} {w : Option (Bool × Controller)}
    (h : setWord avail m w = .ok m') : (m ⊆ avail → m' ⊆ avail) ∧
      ∀ x, x ∈ m' ↔ (w.bind fun w => if w.2 = x then some w.1 else none).getD (x ∈ m) := by
  obtain _ | ⟨_ | _, c⟩ := w
  · cases h
  · cases h
    refine ⟨(Finset.erase_subset c m).trans, fun x => ?_⟩
    by_cases hx : c = x <;> simp [hx, eq_comm]
  · rw [setWord] at h
    split at h
    next hc =>
      cases h
      refine ⟨Finset.insert_subset hc, fun x => ?_⟩
      by_cases hx : c = x <;> simp [hx, eq_comm]
    · cases h

theorem foldlM_setWord {avail m m' : Finset Controller} {ws : List (Option (Bool × Controller))}
    (h : ws.foldlM (setWord avail) m = .ok m') : (m ⊆ avail → m' ⊆ avail) ∧
      ∀ x, x ∈ m' ↔ (lastWord x ws).getD (x ∈ m) := by
  induction ws generalizing m with
  | nil =>
    cases h
    exact ⟨id, fun x => by simp [lastWord]⟩
  | cons w ws ih =>
    rw [List.foldlM_cons] at h
    cases hw : setWord avail m w with
    | error e =>
      rw [hw] at h
      cases h
    | ok m₁ =>
      rw [hw] at h
      obtain ⟨hsub, hmem⟩ := setWord_eq_ok hw
      obtain ⟨hsub', hmem'⟩ := ih h
      refine ⟨fun hm => hsub' (hsub hm), fun x => ?_⟩
      rw [hmem', lastWord]
      cases lastWord x ws with
      | none => simpa using hmem x
      | some b => simp

end DosKernel.Cgroup
