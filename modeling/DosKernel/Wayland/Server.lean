import Mathlib.Logic.Function.Basic
import Mathlib.Tactic.Common
import DosKernel.Lib.Run

namespace DosKernel.Wayland

inductive Build where
  | bits32
  | bits64

def Build.space : Build → ℕ
  | .bits32 => 4294967296
  | .bits64 => 18446744073709551616

inductive Iface where
  | none | display | registry | callback | compositor | shm | shmPool | buffer | surface
  | xdgWmBase | xdgSurface | xdgToplevel | seat | pointer | keyboard | output
  | dataDeviceManager | dataSource | dataDevice
deriving DecidableEq

-- `shm_fill` and `shm_truncate` keep frames for every byte of the object.
structure Shm where
  nframes : ℕ
  size : ℕ
  fits : size ≤ 4096 * nframes

-- The part of `struct wl_conn` that requests are decoded by. The geometry are 32-bit values.
structure Conn where
  objIface : ℕ → Iface
  poolShm : Option ℕ
  bufOff : ℕ
  bufW : ℕ
  bufH : ℕ
  bufStride : ℕ
  frameCb : ℕ
  window : Bool
  wmMode : Bool

-- What a request meets: the old bytes of the stack under `body`, the shm object of the descriptor
-- dequeued, the objects as resized by now, whether window and memory can be had, and which rows and
-- columns the window's clip shows.
structure Env where
  stack : ℕ → UInt8
  passed : Option ℕ
  shm : ℕ → Shm
  opens : Bool
  mem : Bool
  clip : ℕ → ℕ → Bool

-- A read of the body or of a frame of a pool, a read or write of a copy of `total` bytes.
inductive Access where
  | body (pos len : ℕ)
  | pool (s : Shm) (frame pos len : ℕ)
  | copy (total pos len : ℕ)

structure Msg where
  obj : ℕ
  op : ℕ
  size : ℕ
  blen : ℕ
  body : ℕ → UInt8
  rest : List UInt8

def get32 (p : ℕ → UInt8) (i : ℕ) : ℕ :=
  (p i).toNat + 256 * (p (i + 1)).toNat + 65536 * (p (i + 2)).toNat + 16777216 * (p (i + 3)).toNat

def align4 (n : ℕ) : ℕ := (n + 3) % 4294967296 / 4 * 4

-- A stream that ends first ends the connection.
def recvExact (n : ℕ) (stream : List UInt8) : Option (List UInt8 × List UInt8) :=
  if n ≤ stream.length then some (stream.take n, stream.drop n) else none

-- The header and the body, for which `wl_process` has 256 bytes.
def receive (e : Env) (stream : List UInt8) : Option Msg := do
  let (hdr, stream) ← recvExact 8 stream
  let w2 := get32 (hdr.getD · 0) 4
  let blen := min (w2 / 65536 - 8) 256
  let (body, rest) ← recvExact blen stream
  some ⟨get32 (hdr.getD · 0) 0, w2 % 65536, w2 / 65536, blen, fun i => body.getD i (e.stack i), rest⟩

inductive Action where
  | make (iface : Iface) (words : ℕ)
  | words (n : ℕ)
  | frame
  | bind
  | createPool
  | createBuffer
  | setTitle
  | mime
  | commit
  | forget
  | ignore

-- The branches of `wl_process`: interface, opcode and least length of the body.
def requests : List ((Iface × ℕ × ℕ) × Action) := [
  ((.display, 1, 4), .make .registry 1), ((.display, 0, 4), .words 1), ((.registry, 0, 12), .bind),
  ((.compositor, 0, 4), .make .surface 1), ((.shm, 0, 8), .createPool),
  ((.shmPool, 0, 24), .createBuffer), ((.surface, 1, 4), .words 1), ((.xdgToplevel, 3, 0), .ignore),
  ((.shmPool, 1, 0), .ignore), ((.surface, 3, 4), .frame), ((.surface, 2, 16), .words 4),
  ((.surface, 9, 16), .words 4), ((.surface, 6, 0), .commit),
  ((.xdgWmBase, 2, 8), .make .xdgSurface 2), ((.xdgSurface, 1, 4), .make .xdgToplevel 1),
  ((.xdgToplevel, 2, 4), .setTitle), ((.xdgSurface, 4, 4), .words 1),
  ((.seat, 0, 4), .make .pointer 1), ((.seat, 1, 4), .make .keyboard 1),
  ((.dataDeviceManager, 0, 4), .make .dataSource 1),
  ((.dataDeviceManager, 1, 8), .make .dataDevice 1), ((.dataSource, 0, 4), .mime),
  ((.dataSource, 1, 0), .forget), ((.dataSource, 2, 0), .ignore), ((.dataDevice, 1, 8), .words 1),
  ((.dataDevice, 0, 16), .words 1), ((.dataDevice, 2, 0), .forget)]

-- A data offer's id is past the table; of its requests only `receive` has arguments that are read.
def Conn.action (c : Conn) (m : Msg) : Action :=
  let iface := if m.obj < 256 then c.objIface m.obj else .none
  match requests.find? fun r => r.1.1 = iface ∧ r.1.2.1 = m.op ∧ r.1.2.2 ≤ m.blen with
  | some r => r.2
  | none => if 4278190080 ≤ m.obj ∧ m.op = 1 ∧ 4 ≤ m.blen then .mime else .ignore

def Conn.setIface (c : Conn) (id : ℕ) (iface : Iface) : Conn :=
  if id < 256 then { c with objIface := Function.update c.objIface id iface } else c

def globalIface : ℕ → Iface
  | 1 => .compositor
  | 2 => .shm
  | 3 => .xdgWmBase
  | 4 => .seat
  | 5 => .output
  | 6 => .dataDeviceManager
  | _ => .none

-- `body + o + 4` of `bind`, behind the string and the version.
def Msg.bindAt (m : Msg) (b : Build) : ℕ :=
  ((8 + align4 (get32 m.body 4)) % 4294967296 + 4) % b.space

def Msg.titleLen (m : Msg) : ℕ := min (get32 m.body 0 - 1) 63

def Shm.kptr (s : Shm) (off : ℕ) : Option (ℕ × ℕ) :=
  if off / 4096 < s.nframes then some (off / 4096, off % 4096) else none

def Shm.readLoop (s : Shm) (total dst off n : ℕ) : ℕ → ℕ → List Access
  | 0, _ => []
  | fuel + 1, done =>
    if done < n then
      match s.kptr (off + done) with
      | none => []
      | some (frame, pos) =>
        let room := min (4096 - pos) (n - done)
        .pool s frame pos room :: .copy total (dst + done) room ::
          s.readLoop total dst off n fuel (done + room)
    else []

def Shm.read (s : Shm) (total dst off n : ℕ) : List Access :=
  if s.size ≤ off then []
  else
    let n := min n (s.size - off)
    s.readLoop total dst off n n 0

namespace Conn

variable (c : Conn) (b : Build) (e : Env) (s : Shm)

def pixelOff (y x : ℕ) : ℕ := (c.bufOff + y * c.bufStride + x * 4) % 4294967296

-- The first loop of `wl_surface_commit`; the painting of `target` checks its own bounds.
def pixels : List Access :=
  (List.range c.bufH).flatMap fun y => (List.range c.bufW).flatMap fun x =>
    match s.kptr (c.pixelOff y x) with
    | none => []
    | some (frame, pos) => [.pool s frame pos 4]

def row : ℕ := c.bufW * 4 % b.space

def total : ℕ := c.row b * c.bufH % b.space

-- The copy for the window is made; `kmalloc` refuses zero bytes.
def copies : Bool := (c.window || c.wmMode && e.opens) && 1 ≤ s.nframes && c.total b ≠ 0 && e.mem

def gather : List Access :=
  (List.range c.bufH).flatMap fun y =>
    s.read (c.total b) (y * c.row b % b.space) (c.bufOff + y * c.bufStride) (c.row b)

-- The copy is read back, as `gui_window_blit` takes signed sizes.
def blit : List Access :=
  if 2147483648 ≤ c.bufW ∨ 2147483648 ≤ c.bufH then []
  else (List.range c.bufH).flatMap fun y => ((List.range c.bufW).filter (e.clip y)).map fun x =>
    .copy (c.total b) ((y * c.bufW + x) * 4 % b.space) 4

def shown : Option Shm := if c.bufW = 0 ∨ c.bufH = 0 then none else c.poolShm.map e.shm

def wlSurfaceCommit : List Access :=
  match c.shown e with
  | none => []
  | some s => c.pixels s ++ if c.copies b e s then c.gather b s ++ c.blit b e else []

end Conn

-- The words at the start of the body that a branch decodes.
def Action.leading : Action → ℕ
  | .make _ n | .words n => n
  | .bind | .createPool => 2
  | .createBuffer => 5
  | .frame | .setTitle | .mime => 1
  | .commit | .forget | .ignore => 0

-- What a branch reads behind them. A type is copied to its terminator or the body's end; whether a
-- source has a slot for it is left out.
def Action.reads (b : Build) (e : Env) (c : Conn) (m : Msg) : Action → List Access
  | .bind => [.body (m.bindAt b) 4]
  | .setTitle => (List.range m.titleLen).map fun k => .body (4 + k) 1
  | .mime =>
    ((List.range (min (min 47 (get32 m.body 0 - 1)) (m.blen - 4))).filter fun k =>
      (List.range k).all fun j => m.body (4 + j) ≠ 0).map fun k => .body (4 + k) 1
  | .commit => c.wlSurfaceCommit b e
  | _ => []

def Action.effect (b : Build) (e : Env) (c : Conn) (m : Msg) : Action → Conn
  | .make iface _ => c.setIface (get32 m.body 0) iface
  | .frame => { c.setIface (get32 m.body 0) .callback with frameCb := get32 m.body 0 }
  | .bind => c.setIface (get32 m.body (m.bindAt b)) (globalIface (get32 m.body 0))
  | .createPool => { c.setIface (get32 m.body 0) .shmPool with poolShm := e.passed }
  | .createBuffer =>
    { c.setIface (get32 m.body 0) .buffer with
      bufOff := get32 m.body 4
      bufW := get32 m.body 8
      bufH := get32 m.body 12
      bufStride := get32 m.body 16 }
  | .commit =>
    if (c.shown e).isNone then c
    else
      let c := { c with window := c.window || c.wmMode && e.opens }
      if c.frameCb = 0 then c else { c.setIface c.frameCb .none with frameCb := 0 }
  | .forget => c.setIface m.obj .none
  | _ => c

def wlProcess (b : Build) (e : Env) (c : Conn) (m : Msg) : Conn × List Access :=
  let a := c.action m
  (a.effect b e c m, (List.range a.leading).map (fun i => .body (4 * i) 4) ++ a.reads b e c m)

-- One turn of `wl_conn_serve` over what the client has sent.
def step (b : Build) (s : Conn × List UInt8) (e : Env) : Conn × List UInt8 :=
  match receive e s.2 with
  | none => (s.1, [])
  | some m => ((wlProcess b e s.1 m).1, m.rest)

open DosKernel.Lib List

variable {b : Build} {c : Conn} {e : Env} {m : Msg} {s : Shm}

-- The access stays inside the received body, inside one frame and the pool, or inside the copy.
def Access.Within (blen : ℕ) : Access → Prop
  | .body pos len => pos + len ≤ blen
  | .pool s frame pos len => pos + len ≤ 4096 ∧ 4096 * frame + pos + len ≤ s.size
  | .copy total pos len => pos + len ≤ total

-- The request takes the bytes its header states and touches only its message, the pool, the copy.
def InStep (b : Build) (s : Conn × List UInt8) (e : Env) : Prop :=
  ∀ m, receive e s.2 = some m → m.rest.length + m.size = s.2.length ∧
    ∀ a ∈ (wlProcess b e s.1 m).2, a.Within m.blen

-- Each pixel whose frame exists ends inside that frame and inside the pool.
def Conn.PixelsFit (c : Conn) (s : Shm) : Prop :=
  ∀ y < c.bufH, ∀ x < c.bufW, c.pixelOff y x / 4096 < s.nframes →
    c.pixelOff y x % 4096 ≤ 4092 ∧ c.pixelOff y x + 4 ≤ s.size

def Action.Fits (b : Build) (e : Env) (c : Conn) (m : Msg) : Action → Prop
  | .bind => m.bindAt b + 4 ≤ m.blen
  | .setTitle => m.titleLen + 4 ≤ m.blen
  | .commit => ∀ s, c.shown e = some s → c.PixelsFit s ∧
      (c.copies b e s = true → c.bufW * 4 * c.bufH < b.space)
  | _ => True

def Fits (b : Build) (s : Conn × List UInt8) (e : Env) : Prop :=
  ∀ m, receive e s.2 = some m → (8 ≤ m.size ∧ m.size ≤ 264) ∧ (s.1.action m).Fits b e s.1 m

theorem receive_eq_some {stream : List UInt8} (h : receive e stream = some m) :
    m.blen = min (m.size - 8) 256 ∧ stream.length = 8 + m.blen + m.rest.length := by
  simp only [receive, recvExact, Option.bind_eq_bind, Option.bind_eq_some_iff] at h
  obtain ⟨⟨hdr, tail⟩, hhdr, ⟨body, rest⟩, hbody, h⟩ := h
  obtain ⟨h8, hhdr⟩ := Option.ite_none_right_eq_some.mp hhdr
  obtain ⟨hlen, hbody⟩ := Option.ite_none_right_eq_some.mp hbody
  cases hhdr
  cases hbody
  cases h
  refine ⟨rfl, ?_⟩
  simp only [length_drop] at hlen ⊢
  omega

theorem leading_le (c : Conn) (m : Msg) : 4 * (c.action m).leading ≤ m.blen := by
  simp only [Conn.action]
  split
  next r hr =>
    have htable : ∀ r ∈ requests, 4 * r.2.leading ≤ r.1.2.2 := by decide
    have hleast := find?_some hr
    simp only [decide_eq_true_eq] at hleast
    exact Nat.le_trans (htable r (mem_of_find?_eq_some hr)) hleast.2.2
  · split
    next h =>
      exact h.2.2
    · exact Nat.zero_le _

theorem pixels_within {blen : ℕ} (h : c.PixelsFit s) : ∀ a ∈ c.pixels s, a.Within blen := by
  simp only [Conn.pixels, mem_flatMap, mem_range]
  rintro a ⟨y, hy, x, hx, ha⟩
  unfold Shm.kptr at ha
  split_ifs at ha with hf
  · have := h y hy x hx hf
    rw [mem_singleton] at ha
    subst ha
    simp only [Access.Within]
    omega
  · cases ha

theorem readLoop_within {total dst off n blen : ℕ} (hn : off + n ≤ s.size) (htotal : dst + n ≤ total)
    (fuel done : ℕ) : ∀ a ∈ s.readLoop total dst off n fuel done, a.Within blen := by
  induction fuel generalizing done with
  | zero => exact fun a ha => by cases ha
  | succ fuel ih =>
    unfold Shm.readLoop
    split
    · have hframe : (off + done) / 4096 < s.nframes := by
        have := s.fits
        omega
      simp only [Shm.kptr, if_pos hframe, forall_mem_cons, Access.Within]
      exact ⟨by omega, by omega, ih _⟩
    · exact fun a ha => by cases ha

section Copy

variable (h : c.bufW * 4 * c.bufH < b.space) {y : ℕ} (hy : y < c.bufH)

include h hy

-- Nothing wraps, so a row ends before the next one begins.
theorem row_fits : c.row b = c.bufW * 4 ∧ y * (c.bufW * 4) + c.bufW * 4 ≤ c.total b ∧
    c.total b < b.space := by
  have hrow : c.row b = c.bufW * 4 :=
    Nat.mod_eq_of_lt (Nat.lt_of_le_of_lt (Nat.le_mul_of_pos_right _ (by omega)) h)
  rw [Conn.total, hrow, Nat.mod_eq_of_lt h, ← Nat.succ_mul, Nat.mul_comm y.succ]
  exact ⟨rfl, Nat.mul_le_mul_left _ hy, h⟩

theorem gather_within {blen : ℕ} : ∀ a ∈ s.read (c.total b) (y * c.row b % b.space)
    (c.bufOff + y * c.bufStride) (c.row b), a.Within blen := by
  obtain ⟨hrow, hend, hspace⟩ := row_fits h hy
  unfold Shm.read
  split
  · exact fun a ha => by cases ha
  · refine readLoop_within (by omega) ?_ _ _
    rw [hrow, Nat.mod_eq_of_lt (by omega)]
    omega

theorem blit_within {x blen : ℕ} (hx : x < c.bufW) :
    (Access.copy (c.total b) ((y * c.bufW + x) * 4 % b.space) 4).Within blen := by
  obtain ⟨-, hend, hspace⟩ := row_fits h hy
  have hat : (y * c.bufW + x) * 4 = y * (c.bufW * 4) + x * 4 := by rw [Nat.add_mul, Nat.mul_assoc]
  rw [hat, Nat.mod_eq_of_lt (by omega), Access.Within]
  omega

end Copy

theorem commit_within {blen : ℕ} (h : Action.commit.Fits b e c m) :
    ∀ a ∈ c.wlSurfaceCommit b e, a.Within blen := by
  unfold Conn.wlSurfaceCommit
  cases hs : c.shown e with
  | none => exact fun a ha => by cases ha
  | some s =>
    obtain ⟨hpixels, hcopy⟩ := h s hs
    simp only [mem_append, or_imp, forall_and]
    refine ⟨pixels_within hpixels, ?_⟩
    split
    next hcopies =>
      have hfits := hcopy hcopies
      simp only [mem_append, Conn.gather, Conn.blit, mem_flatMap, mem_range]
      rintro a (⟨y, hy, ha⟩ | ha)
      · exact gather_within hfits hy a ha
      · split at ha
        · cases ha
        · simp only [mem_flatMap, mem_map, mem_filter, mem_range] at ha
          obtain ⟨y, hy, x, ⟨hx, -⟩, rfl⟩ := ha
          exact blit_within hfits hy hx
    · exact fun a ha => by cases ha

theorem reads_within {a : Action} (h : a.Fits b e c m) : ∀ r ∈ a.reads b e c m, r.Within m.blen := by
  cases a with
  | bind => simpa [Action.reads, Access.Within, Action.Fits] using h
  | setTitle =>
    simp only [Action.reads, forall_mem_map, mem_range, Access.Within]
    intro k hk
    have : m.titleLen + 4 ≤ m.blen := h
    omega
  | mime =>
    intro r hr
    simp only [Action.reads, mem_map, mem_filter, mem_range] at hr
    obtain ⟨k, ⟨hk, -⟩, rfl⟩ := hr
    simp only [Access.Within]
    omega
  | commit => exact commit_within (m := m) h
  | _ => exact fun r hr => by cases hr

theorem inStep_of_fit (s : Conn × List UInt8) (h : Fits b s e) : InStep b s e := by
  intro m hm
  obtain ⟨hblen, hlen⟩ := receive_eq_some hm
  have hlead := leading_le s.1 m
  obtain ⟨hsize, hfits⟩ := h m hm
  refine ⟨by omega, ?_⟩
  simp only [wlProcess, mem_append, or_imp, forall_and, forall_mem_map, mem_range]
  refine ⟨fun i hi => ?_, reads_within hfits⟩
  simp only [Access.Within]
  omega

def Conn.fresh : Conn where
  objIface := Function.update (fun _ => .none) 1 .display
  poolShm := none
  bufOff := 0
  bufW := 0
  bufH := 0
  bufStride := 0
  frameCb := 0
  window := false
  wmMode := false

def Env.idle : Env :=
  ⟨fun _ => 0, none, fun _ => ⟨0, 0, Nat.zero_le _⟩, false, true, fun _ _ => true⟩

-- A `sync` whose header states 272 bytes, of which the server takes 264.
def longSync : List UInt8 := [1, 0, 0, 0, 0, 0, 16, 1] ++ List.replicate 264 0

end DosKernel.Wayland
