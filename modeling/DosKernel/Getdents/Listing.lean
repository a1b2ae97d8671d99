import DosKernel.Getdents.Records

namespace DosKernel.Getdents

open List

-- A call's buffer: whose it is, whether there is memory to stage it, and what was there.
structure Buf where
  cap : ℕ
  user : Bool
  mem : Bool
  stale : ℕ → ℕ

-- `bounce_init`: a program's buffer is staged in at most BOUNCE_CHUNK bytes, on the stack in
-- BOUNCE_SMALL if that is enough or there is no memory.
def Buf.room (b : Buf) : ℕ :=
  if !b.user then b.cap
  else if min b.cap 4096 ≤ 192 then min b.cap 4096
  else if b.mem then min b.cap 4096
  else 192

-- The loop of both calls. The entry that does not fit has been read. Every round fills a byte.
def packLoop (c : Call) (d : Dir) (stale : ℕ → ℕ) (cap : ℕ) :
    ℕ → ℕ → ℕ → List ℕ → List ℕ × ℕ
  | 0, pos, _, out => (out, pos)
  | fuel + 1, pos, ino, out =>
    match d.readdir pos with
    | none => (out, pos)
    | some e =>
      if out.length + c.reclen e > cap then (out, pos + 1)
      else packLoop c d stale cap fuel (pos + 1) (ino + 1)
        (out ++ c.record stale ino out.length e)

-- `getdents_bounced` at `pos`: the bytes, or `none` for -1, and the position after it.
def Call.run (c : Call) (d : Dir) (pos : ℕ) (b : Buf) : Option (List ℕ) × ℕ :=
  if b.cap = 0 then (none, pos)
  else
    let r := packLoop c d b.stale b.room (b.room + 1) pos 1 []
    (some r.1, r.2)

section Calls

variable (c : Call) (d : Dir) (bufs : ℕ → Buf)

def posAt : ℕ → ℕ
  | 0 => 0
  | k + 1 => (c.run d (posAt k) (bufs k)).2

def resultAt (k : ℕ) : Option (List ℕ) := (c.run d (posAt c d bufs k) (bufs k)).1

def concatResults (n : ℕ) : List ℕ := (List.range n).flatMap fun k => (resultAt c d bufs k).getD []

-- Some call returns 0, none before it does or fails, and they list every entry exactly once.
def Complete : Prop :=
  ∃ n, resultAt c d bufs n = some [] ∧
    (∀ k < n, ∃ bytes, bytes ≠ [] ∧ resultAt c d bufs k = some bytes) ∧
    (records c (concatResults c d bufs n)).Perm (d.entries.map c.shown)

end Calls

variable {c : Call} {d : Dir} {bufs : ℕ → Buf} {b : Buf}
  {cap pos n : ℕ} {out : List ℕ} {es rest : List Dirent}

theorem total_cons {e : Dirent} : c.total (e :: rest) = c.reclen e + c.total rest :=
  rfl

theorem packLoop_spec (stale : ℕ → ℕ) (fuel ino : ℕ) (hrest : d.entries.drop pos = rest) (hout : Encodes c out es)
    (hcap : out.length ≤ cap) (hfuel : cap + 1 ≤ out.length + fuel) :
    (Encodes c (packLoop c d stale cap fuel pos ino out).1 (es ++ rest) ∧
        (packLoop c d stale cap fuel pos ino out).2 = pos + rest.length ∧
        out.length + c.total rest ≤ cap) ∨
      (∃ m < rest.length, Encodes c (packLoop c d stale cap fuel pos ino out).1 (es ++ rest.take m) ∧
        (packLoop c d stale cap fuel pos ino out).2 = pos + m + 1 ∧
        cap < out.length + c.total rest) := by
  induction rest generalizing pos ino out es fuel with
  | nil =>
    have hnone : d.readdir pos = none := by
      rw [d.readdir_eq, ← head?_drop, hrest]
      rfl
    obtain ⟨fuel, rfl⟩ : ∃ f, fuel = f + 1 := ⟨fuel - 1, by omega⟩
    left
    simp only [packLoop, hnone]
    exact ⟨by simpa using hout, rfl, hcap⟩
  | cons e rest ih =>
    have hsome : d.readdir pos = some e := by
      rw [d.readdir_eq, ← head?_drop, hrest]
      rfl
    have hnext : d.entries.drop (pos + 1) = rest := by
      rw [← tail_drop, hrest]
      rfl
    obtain ⟨fuel, rfl⟩ : ∃ f, fuel = f + 1 := ⟨fuel - 1, by omega⟩
    have hlen := (reclen_bounds (c := c) (e := e)).1
    by_cases hfit : out.length + c.reclen e > cap
    · right
      simp only [packLoop, hsome, if_pos hfit]
      refine ⟨0, by simp, by simpa using hout, rfl, ?_⟩
      rw [total_cons]
      omega
    · simp only [packLoop, hsome, if_neg hfit]
      have hnew := hout.snoc stale ino out.length e
      have hstep := length_record c stale ino out.length e
      have hroom : (out ++ c.record stale ino out.length e).length ≤ cap := by
        rw [length_append, hstep]
        omega
      have hleft : cap + 1 ≤ (out ++ c.record stale ino out.length e).length + fuel := by
        rw [length_append, hstep]
        omega
      have hmore := ih fuel (ino + 1) hnext hnew hroom hleft
      rw [length_append, hstep] at hmore
      rw [total_cons]
      cases hmore with
      | inl h =>
        left
        obtain ⟨henc, hpos, hle⟩ := h
        refine ⟨by simpa using henc, ?_, by omega⟩
        rw [hpos, length_cons]
        omega
      | inr h =>
        right
        obtain ⟨m, hm, henc, hpos, hlt⟩ := h
        refine ⟨m + 1, by simpa using hm, by simpa using henc, ?_, by omega⟩
        omega

theorem run_spec (hpos : pos ≤ d.entries.length) (hcap : 0 < b.cap) :
    ∃ bytes es, (c.run d pos b).1 = some bytes ∧ Encodes c bytes es ∧
      ((es = d.entries.drop pos ∧ (c.run d pos b).2 = d.entries.length ∧
          c.total (d.entries.drop pos) ≤ b.room) ∨
        (pos + es.length < (c.run d pos b).2 ∧ (c.run d pos b).2 ≤ d.entries.length ∧
          b.room < c.total (d.entries.drop pos))) := by
  have hrun : c.run d pos b = (some (packLoop c d b.stale b.room (b.room + 1) pos 1 []).1,
      (packLoop c d b.stale b.room (b.room + 1) pos 1 []).2) := by
    rw [Call.run, if_neg (by omega)]
  rw [hrun]
  have hspec := packLoop_spec (c := c) (d := d) b.stale (b.room + 1) 1 (Eq.refl (d.entries.drop pos))
    Encodes.nil (Nat.zero_le b.room) (by simp)
  cases hspec with
  | inl h =>
    obtain ⟨henc, hnext, hle⟩ := h
    refine ⟨_, d.entries.drop pos, rfl, henc, .inl ⟨rfl, ?_, by simpa using hle⟩⟩
    rw [hnext, length_drop]
    omega
  | inr h =>
    obtain ⟨m, hm, henc, hnext, hlt⟩ := h
    rw [length_drop] at hm
    refine ⟨_, (d.entries.drop pos).take m, rfl, henc, .inr ⟨?_, ?_, by simpa using hlt⟩⟩
    · rw [hnext, length_take, length_drop]
      omega
    · rw [hnext]
      omega

theorem run_zero (hcap : b.cap = 0) : c.run d pos b = (none, pos) := by
  rw [Call.run, if_pos hcap]

theorem run_bounds (hpos : pos ≤ d.entries.length) :
    ∃ es, Encodes c ((c.run d pos b).1.getD []) es ∧ pos + es.length ≤ (c.run d pos b).2 ∧
      (c.run d pos b).2 ≤ d.entries.length := by
  by_cases hcap : b.cap = 0
  · rw [run_zero hcap]
    exact ⟨[], Encodes.nil, Nat.le_refl pos, hpos⟩
  · obtain ⟨bytes, es, hbytes, henc, hcase⟩ :=
      run_spec (c := c) hpos (Nat.pos_of_ne_zero hcap)
    refine ⟨es, by rw [hbytes]; exact henc, ?_⟩
    cases hcase with
    | inl h =>
      obtain ⟨rfl, hnext, -⟩ := h
      rw [hnext, length_drop]
      omega
    | inr h => exact ⟨Nat.le_of_lt h.1, h.2.1⟩

theorem concatResults_succ : concatResults c d bufs (n + 1) =
    concatResults c d bufs n ++ (resultAt c d bufs n).getD [] := by
  simp [concatResults, range_succ]

-- An entry lost in the first call stays lost: the position is ahead of what has been listed.
theorem listed_lt_posAt (hcap : 0 < (bufs 0).cap) (hcut : (bufs 0).room < c.total d.entries)
    (n : ℕ) : ∃ es, Encodes c (concatResults c d bufs (n + 1)) es ∧
      es.length < posAt c d bufs (n + 1) ∧ posAt c d bufs (n + 1) ≤ d.entries.length := by
  induction n with
  | zero =>
    obtain ⟨bytes, es, hbytes, henc, hcase⟩ :=
      run_spec (c := c) (d := d) (Nat.zero_le d.entries.length) hcap
    have hout : concatResults c d bufs 1 = bytes := by
      simp [concatResults, resultAt, posAt, hbytes]
    rw [hout]
    cases hcase with
    | inl h => exact absurd h.2.2 (Nat.not_le.mpr hcut)
    | inr h => exact ⟨es, henc, by simpa [posAt] using h.1, h.2.1⟩
  | succ n ih =>
    obtain ⟨es, henc, hlt, hle⟩ := ih
    obtain ⟨es', henc', hmove, hle'⟩ := run_bounds (c := c) (b := bufs (n + 1)) hle
    rw [concatResults_succ]
    refine ⟨es ++ es', henc.append henc', ?_, hle'⟩
    rw [length_append, posAt]
    omega

theorem fits_of_complete (hcap : 0 < (bufs 0).cap) (h : Complete c d bufs) :
    c.total d.entries ≤ (bufs 0).room := by
  apply Nat.le_of_not_lt
  intro hcut
  obtain ⟨n, hlast, -, hperm⟩ := h
  cases n with
  | zero =>
    -- the first call lists nothing, so there is nothing to list
    have hlen := hperm.length_eq
    have hnil : d.entries = [] := by simpa [concatResults, records, parse] using hlen.symm
    rw [hnil] at hcut
    exact Nat.not_lt_zero _ hcut
  | succ n =>
    obtain ⟨es, henc, hlt, hle⟩ := listed_lt_posAt (d := d) hcap hcut n
    have hlen := hperm.length_eq
    rw [henc.records_eq, length_map, length_map] at hlen
    omega

theorem complete_of_fits (hcap : ∀ k, 0 < (bufs k).cap)
    (h : c.total d.entries ≤ (bufs 0).room) : Complete c d bufs := by
  -- the first call lists everything
  obtain ⟨bytes, es, hbytes, henc, hcase⟩ :=
    run_spec (c := c) (d := d) (Nat.zero_le d.entries.length) (hcap 0)
  rw [drop_zero] at hcase
  obtain ⟨rfl, hpos, -⟩ := hcase.resolve_right (fun hcut => Nat.not_lt.mpr h hcut.2.2)
  have hfirst : resultAt c d bufs 0 = some bytes := hbytes
  by_cases hnil : bytes = []
  · subst hnil
    refine ⟨0, hfirst, fun k hk => absurd hk (Nat.not_lt_zero k), ?_⟩
    rw [← henc.records_eq]
    exact List.Perm.refl _
  · -- and the second finds nothing left
    have hnext : posAt c d bufs 1 = d.entries.length := hpos
    obtain ⟨bytes', es', hbytes', henc', hcase'⟩ :=
      run_spec (c := c) (d := d) (Nat.le_refl d.entries.length) (hcap 1)
    rw [drop_length] at hcase'
    obtain ⟨rfl, -, -⟩ := hcase'.resolve_right (fun hcut => by
      have := hcut.2.2
      simp [Call.total] at this)
    have hempty : bytes' = [] := eq_nil_of_length_eq_zero henc'.length_bytes
    refine ⟨1, ?_, ?_, ?_⟩
    · rw [resultAt, hnext, hbytes', hempty]
    · intro k hk
      obtain rfl : k = 0 := by omega
      exact ⟨bytes, hnil, hfirst⟩
    · have hout : concatResults c d bufs 1 = bytes := by simp [concatResults, hfirst]
      rw [hout, henc.records_eq]

theorem letter_noNul (b : ℕ) : 0 ∉ [b + 97] := by
  simp

theorem letter_short (b : ℕ) : [b + 97].length ≤ Vfs.nameMax := by
  simp [Vfs.nameMax]

def letterFile (b : ℕ) : Child := ⟨⟨[b + 97], letter_noNul b, letter_short b⟩, some (.file, 0)⟩

def smallBuf (cap : ℕ) : Buf := ⟨cap, true, true, fun _ => 0⟩

end DosKernel.Getdents
