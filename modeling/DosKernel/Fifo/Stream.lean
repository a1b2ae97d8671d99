import DosKernel.Fifo.Rules
import DosKernel.Lib.Ring
import DosKernel.Lib.Update

namespace DosKernel.Fifo

open DosKernel.Lib List
open Function (update update_of_ne update_self)

-- `struct fifo` with its bytes: `count` of them are held from cell `head` on.
structure Buffer extends Pipe where
  buf : ℕ → UInt8 := fun _ => 0
  head : ℕ := 0
  fits : count ≤ 65536 := by decide

-- A call of `fifo_write`, with what it returned once it has.
structure Call where
  data : List UInt8
  block : Bool
  done : ℕ := 0
  result : Option ℤ := none

def Call.short (c : Call) (err : ℤ) : Call :=
  { c with result := some (if c.done ≠ 0 then c.done else err) }

def Call.advance (c : Call) (k : ℕ) : Call :=
  { c with
    done := c.done + k
    result := if c.done + k < c.data.length then none else some (c.done + k) }

def copyIn (buf : ℕ → UInt8) (tail : ℕ) : List UInt8 → ℕ → UInt8
  | [] => buf
  | b :: bs => copyIn (update buf (tail % 65536) b) (tail + 1) bs

namespace Buffer

variable (p : Buffer)

def contents : List UInt8 := (range p.count).map fun i => p.buf ((p.head + i) % 65536)

def fill (bs : List UInt8) (h : p.count + bs.length ≤ 65536) : Buffer :=
  { p with
    buf := copyIn p.buf ((p.head + p.count) % 65536) bs
    count := p.count + bs.length
    fits := h }

-- One round of the loop of `fifo_read`: what it returns, unless it sleeps, and the bytes copied.
def fifoRead (role : Role) (n : ℕ) (block stop : Bool) : Option ℤ × List UInt8 × Buffer :=
  if role = .writer then (some (-9), [], p)
  else if n = 0 then (some 0, [], p)
  else if p.count ≠ 0 then
    let k := min p.count n
    (some k, (range k).map fun i => p.buf ((p.head + i) % 65536),
      { p with
        head := (p.head + k) % 65536
        count := p.count - k
        fits := (Nat.sub_le ..).trans p.fits })
  else if p.writers = 0 then (some 0, [], p)
  else if !block then (some (-11), [], p)
  else if stop then (some (-4), [], p)
  else (none, [], p)

theorem room_spec {l : List UInt8} : p.count + (l.take (65536 - p.count)).length ≤ 65536 := by
  have := p.fits
  have := l.length_take_le (65536 - p.count)
  omega

-- One round of the loop of `fifo_write`, with the bytes it takes from the caller, if it does.
def fifoWrite (c : Call) (stop : Bool) : Call × Option (List UInt8) × Buffer :=
  if p.readers = 0 then (c.short (-32), none, p)
  else
    let room := 65536 - p.count
    if World.want c.data.length ≤ room ∧ 0 < room then
      let chunk := (c.data.drop c.done).take room
      (c.advance chunk.length, some chunk, p.fill chunk p.room_spec)
    else if !c.block then (c.short (-11), none, p)
    else if stop then (c.short (-4), none, p)
    else (c, none, p)

end Buffer

-- Not in the source: the chunks that `fifo_write` put in, and the bytes that `fifo_read` returned.
structure Traffic where
  pipe : Buffer := {}
  call : ℕ → Option Call := fun _ => none
  accepted : List (ℕ × List UInt8) := []
  returned : List UInt8 := []

inductive Op where
  | ends (readers writers : ℕ)
  | read (role : Role) (n : ℕ) (block stop : Bool)
  | enter (t : ℕ) (role : Role) (data : List UInt8) (block : Bool)
  | write (t : ℕ) (stop : Bool)

namespace Traffic

variable (w : Traffic)

def write (t : ℕ) (c : Call) (stop : Bool) : Traffic :=
  let r := w.pipe.fifoWrite c stop
  { w with
    pipe := r.2.2
    call := update w.call t (some r.1)
    accepted := w.accepted ++ r.2.1.toList.map (Prod.mk t) }

-- Ends come and go, calls go a round under the lock; `enter` is what `fifo_write` does before it.
def step : Op → Traffic
  | .ends readers writers => { w with pipe := { w.pipe with readers, writers } }
  | .read role n block stop =>
    let r := w.pipe.fifoRead role n block stop
    { w with pipe := r.2.2, returned := w.returned ++ r.2.1 }
  | .enter t role data block =>
    match w.call t with
    | some _ => w
    | none =>
      let result := if role = .reader then some (-9) else if data = [] then some 0 else none
      { w with call := update w.call t (some { data, block, result }) }
  | .write t stop =>
    match w.call t with
    | none => w
    | some c => if c.result.isSome then w else w.write t c stop

def stream : List UInt8 := (w.accepted.map Prod.snd).flatten

def chunks (t : ℕ) : List (List UInt8) := (w.accepted.filter (·.1 = t)).map Prod.snd

-- What is read is the start of what was written: of each call what it reports, of one of at most
-- `PIPE_BUF` bytes all in one piece or nothing.
structure Streams : Prop where
  order : w.returned <+: w.stream
  bound : w.pipe.count ≤ 65536
  taken : ∀ t c, w.call t = some c → (w.chunks t).flatten = c.data.take c.done ∧
    ∀ r, c.result = some r → c.done = r.toNat
  whole : ∀ t c, w.call t = some c → c.data.length ≤ 4096 → w.chunks t = [] ∨ w.chunks t = [c.data]
  eof : ∀ role n block stop, n ≠ 0 → (w.pipe.fifoRead role n block stop).1 = some 0 →
    w.pipe.count = 0 ∧ w.pipe.writers = 0

end Traffic

variable {p : Buffer} {c : Call} {chunks : List (List UInt8)} {role : Role} {n t : ℕ}
  {block stop : Bool} {w : Traffic}

theorem map_copyIn {buf : ℕ → UInt8} {head count tail : ℕ} (bs : List UInt8)
    (h : count + bs.length ≤ 65536) (htail : tail % 65536 = (head + count) % 65536) :
    (range (count + bs.length)).map (fun i => copyIn buf tail bs ((head + i) % 65536)) =
      (range count).map (fun i => buf ((head + i) % 65536)) ++ bs := by
  induction bs generalizing buf count tail with
  | nil => exact (append_nil _).symm
  | cons b bs ih =>
    rw [length_cons] at h ⊢
    let r : Ring UInt8 65536 := ⟨buf, head + count, head, Nat.le_add_right .., by omega⟩
    have hput := Ring.contents_put (r := r) (a := b) (by simp only [Ring.free, Ring.avail, r]; omega)
    simp only [Ring.contents, Ring.avail, Ring.put, r, Nat.add_assoc, Nat.add_sub_cancel_left,
      ← htail] at hput
    rw [← Nat.add_assoc, Nat.add_right_comm, copyIn, ih (by omega) (by omega), hput, append_assoc,
      singleton_append]

theorem contents_read : (p.fifoRead role n block stop).2.1 ++
    (p.fifoRead role n block stop).2.2.contents = p.contents := by
  unfold Buffer.fifoRead
  split_ifs
  pick_goal 3
  · have hle : min p.count n ≤ p.count := Nat.min_le_left ..
    obtain ⟨m, hm⟩ := Nat.exists_eq_add_of_le hle
    simp only [Buffer.contents, Nat.mod_add_mod, Nat.add_assoc]
    generalize min p.count n = k at hm ⊢
    rw [hm, range_add, map_append, map_map, Nat.add_sub_cancel_left]
    rfl
  all_goals rfl

structure Call.Sound (c : Call) (chunks : List (List UInt8)) : Prop where
  taken : chunks.flatten = c.data.take c.done
  report : ∀ r, c.result = some r → c.done = r.toNat
  whole : c.data.length ≤ 4096 → chunks = [] ∧ c.done = 0 ∨ chunks = [c.data] ∧ c.result ≠ none

theorem Call.Sound.short (h : c.Sound chunks) {err : ℤ} (herr : err ≤ 0) :
    (c.short err).Sound chunks where
  taken := h.taken
  report r hr := by
    obtain rfl := Option.some.inj hr
    split
    · exact (Int.toNat_natCast _).symm
    · dsimp only [Call.short]
      omega
  whole hn := (h.whole hn).imp_right fun hw => ⟨hw.1, Option.some_ne_none _⟩

theorem Call.Sound.advance (h : c.Sound chunks) (hgo : c.result = none) {room : ℕ}
    (hroom : World.want c.data.length ≤ room) :
    (c.advance ((c.data.drop c.done).take room).length).Sound
      (chunks ++ [(c.data.drop c.done).take room]) := by
  have hchunk := prefix_iff_eq_take.mp ( take_prefix room (c.data.drop c.done))
  unfold Call.advance
  refine ⟨?_, fun r hr => ?_, fun hn => .inr ?_⟩
  · rw [flatten_append, h.taken, take_add, ← hchunk, flatten_singleton]
  · dsimp only at hr ⊢
    split at hr <;> cases hr
    exact (Int.toNat_natCast _).symm
  · obtain ⟨rfl, hzero⟩ | hw := h.whole hn
    · rw [World.want, if_pos hn] at hroom
      dsimp only
      rw [hzero, drop_zero, take_of_length_le hroom, Nat.zero_add, if_neg (Nat.lt_irrefl _)]
      exact ⟨rfl, Option.some_ne_none _⟩
    · exact absurd hgo hw.2

theorem write_spec (p : Buffer) (stop : Bool) (h : c.Sound chunks) (hgo : c.result = none) :
    (p.fifoWrite c stop).2.2.contents = p.contents ++ (p.fifoWrite c stop).2.1.toList.flatten ∧
      (p.fifoWrite c stop).1.Sound (chunks ++ (p.fifoWrite c stop).2.1.toList) := by
  have hnone : ∀ {c' : Call}, c'.Sound chunks → p.contents = p.contents ++ [] ∧ c'.Sound (chunks ++ []) :=
    fun h' => by rwa [append_nil, append_nil, eq_self, true_and]
  unfold Buffer.fifoWrite
  dsimp only
  split_ifs with hr hroom
  · exact hnone (h.short (by decide))
  · refine ⟨?_, h.advance hgo hroom.1⟩
    rw [Option.toList_some, flatten_singleton]
    exact map_copyIn _ p.room_spec (Nat.mod_mod ..)
  · exact hnone (h.short (by decide))
  · exact hnone (h.short (by decide))
  · exact hnone h

structure Traffic.Inv (w : Traffic) : Prop where
  stream : w.returned ++ w.pipe.contents = w.stream
  fresh : ∀ t, w.call t = none → w.chunks t = []
  calls : ∀ t c, w.call t = some c → c.Sound (w.chunks t)

theorem chunks_write (u : ℕ) : (w.write t c stop).chunks u =
    w.chunks u ++ if u = t then (w.pipe.fifoWrite c stop).2.1.toList else [] := by
  unfold Traffic.chunks Traffic.write
  rw [filter_append, map_append, filter_map, map_map]
  split
  next hu => simp [hu, Function.comp_def]
  next hu => simp [Ne.symm hu, Function.comp_def]

theorem Traffic.Inv.write (h : w.Inv) (hc : w.call t = some c) (hgo : c.result = none) :
    (w.write t c stop).Inv := by
  obtain ⟨hcontents, hsound⟩ := write_spec w.pipe stop (h.calls t c hc) hgo
  refine ⟨?_, fun u hu => ?_, fun u d hd => ?_⟩
  · have hstream : (w.write t c stop).stream =
        w.stream ++ (w.pipe.fifoWrite c stop).2.1.toList.flatten := by
      simp [Traffic.stream, Traffic.write, Function.comp_def]
    rw [hstream, ← h.stream, append_assoc, ← hcontents]
    rfl
  · have hut : u ≠ t := by
      rintro rfl
      cases (update_self ..).symm.trans hu
    rw [chunks_write, if_neg hut, append_nil]
    exact h.fresh u ((update_of_ne hut ..).symm.trans hu)
  · rw [chunks_write]
    change update w.call t _ u = some d at hd
    revert hd
    refine update_rule u (fun hd => ?_) fun hut hd => ?_
    · obtain rfl := Option.some.inj hd
      rw [if_pos rfl]
      exact hsound
    · rw [if_neg hut, append_nil]
      exact h.calls u d hd

theorem Traffic.Inv.step (h : w.Inv) (a : Op) : (w.step a).Inv := by
  cases a with
  | ends readers writers => exact ⟨h.stream, h.fresh, h.calls⟩
  | read role n block stop =>
    refine ⟨(append_assoc ..).trans ?_, h.fresh, h.calls⟩
    exact (congrArg (w.returned ++ ·) contents_read).trans h.stream
  | enter t role data block =>
    unfold Traffic.step
    dsimp only
    split
    · exact h
    next hnone =>
      refine ⟨h.stream, fun u => ?_, fun u d => ?_⟩ <;> dsimp only
      · exact update_rule u (fun hu => (by cases hu)) fun _ => h.fresh u
      · refine update_rule u (fun hd => ?_) fun _ => h.calls u d
        obtain rfl := Option.some.inj hd
        have hchunks : w.chunks t = [] := h.fresh t hnone
        refine ⟨hchunks ▸ rfl, fun r hr => ?_, fun _ => .inl ⟨hchunks, rfl⟩⟩
        dsimp only at hr ⊢
        split_ifs at hr <;> cases hr <;> rfl
  | write t stop =>
    unfold Traffic.step
    dsimp only
    split
    · exact h
    next c hc =>
      split
      · exact h
      next hgo => exact h.write hc (by simpa using hgo)

theorem Traffic.Inv.streams (h : w.Inv) : w.Streams where
  order := ⟨_, h.stream⟩
  bound := w.pipe.fits
  taken t c hc := ⟨(h.calls t c hc).taken, (h.calls t c hc).report⟩
  whole t c hc hn := ((h.calls t c hc).whole hn).imp And.left And.left
  eof role n block stop hn hr := by
    unfold Buffer.fifoRead at hr
    split_ifs at hr with _ hcount hwriters
    · cases hr
    · have := Option.some.inj hr
      omega
    · exact ⟨by omega, hwriters⟩
    all_goals cases hr

theorem inv_empty : Traffic.Inv {} := ⟨rfl, fun _ _ => rfl, fun _ _ hc => by cases hc⟩

end DosKernel.Fifo
