import Mathlib.Data.Int.Notation
import DosKernel.Lib.Run
import DosKernel.Lib.Update

namespace DosKernel.Usock

def usockBuf : ℕ := 32768

def seqHdr : ℕ := 4

def fdqRoom : ℕ := 8

inductive Side where
  | a
  | b
deriving DecidableEq, Repr

def Side.other : Side → Side
  | .a => .b
  | .b => .a

@[simp] theorem other_other (e : Side) : e.other.other = e := by
  cases e <;> rfl

theorem other_ne (e : Side) : e.other ≠ e := by
  cases e <;> exact Side.noConfusion

theorem eq_or_other (e e' : Side) : e' = e ∨ e' = e.other := by
  cases e <;> cases e' <;> simp [Side.other]

-- `struct usock` as one end of a pair; `rx`: the bytes in its ring. Once `released` no call names
-- it, once `closed` its memory is freed.
structure End where
  rx : List UInt8
  fdq : List ℕ
  peer : Bool
  eof : Bool
  wrShut : Bool
  released : Bool
  closed : Bool
deriving DecidableEq, Repr

-- Where a task is between critical sections. The last flag tells one that `usock_shutdown` has
-- woken; `halved` keeps whether the peer was there.
inductive Phase where
  | done (ret : ℤ) (data : List UInt8) (file : Option ℕ)
  | sending (e : Side) (buf : List UInt8) (pass : Option ℕ)
  | writing (e : Side) (buf : List UInt8) (block shut : Bool)
  | full (e : Side) (buf : List UInt8)
  | writeParked (e : Side) (buf : List UInt8)
  | receiving (e : Side) (n : ℕ) (block fd shut : Bool)
  | readParked (e : Side) (n : ℕ) (fd : Bool)
  | shutting (e : Side) (how : ℕ)
  | halved (e : Side) (p : Bool)
  | shutWake (e : Side)
  | closing (e : Side)
  | closeWake (e : Side)
deriving DecidableEq, Repr

structure World where
  seqpacket : Bool
  ends : Side → End
  phase : ℕ → Phase

def World.goto (w : World) (t : ℕ) (p : Phase) : World :=
  { w with phase := Function.update w.phase t p }

def World.setEnd (w : World) (e : Side) (s : End) : World :=
  { w with ends := Function.update w.ends e s }

def World.finish (w : World) (t : ℕ) (ret : ℤ) : World := w.goto t (.done ret [] none)

def Phase.wokenReader (e : Side) (shut : Bool) : Phase → Phase
  | .readParked e' n fd => if e' = e then .receiving e' n true fd shut else .readParked e' n fd
  | p => p

def World.wakeReaders (w : World) (e : Side) (shut : Bool) : World :=
  { w with phase := fun t => (w.phase t).wokenReader e shut }

-- `waitq_wake_all(&s->writers)`: the writers waiting for room in this end's ring are the peer's.
def Phase.wokenWriter (e : Side) (shut : Bool) : Phase → Phase
  | .writeParked e' buf => if e' = e.other then .writing e' buf true shut else .writeParked e' buf
  | p => p

def World.wakeWriters (w : World) (e : Side) (shut : Bool) : World :=
  { w with phase := fun t => (w.phase t).wokenWriter e shut }

def header (n : ℕ) : List UInt8 := (List.range seqHdr).map fun i => UInt8.ofNat (n >>> (8 * i))

def messageLength (rx : List UInt8) : ℕ := (rx.take seqHdr).foldr (fun x n => x.toNat + 256 * n) 0

def queueFd (fdq : List ℕ) : Option ℕ → List ℕ
  | some file => if fdq.length < fdqRoom then fdq ++ [file] else fdq
  | none => fdq

def World.usockSend (w : World) (e : Side) (buf : List UInt8) (pass : Option ℕ) : ℤ × World :=
  let p := w.ends e.other
  if !(w.ends e).peer || (w.ends e).wrShut || p.eof then (-1, w)
  else if w.seqpacket then
    if buf.length + seqHdr > usockBuf then (-90, w)
    else if usockBuf - p.rx.length < buf.length + seqHdr then (0, w)
    else (buf.length, (w.setEnd e.other { p with
        rx := p.rx ++ header buf.length ++ buf
        fdq := queueFd p.fdq pass }).wakeReaders e.other false)
  else
    let wrote := buf.take (usockBuf - p.rx.length)
    let w' := w.setEnd e.other { p with rx := p.rx ++ wrote, fdq := queueFd p.fdq pass }
    (wrote.length, if !wrote.isEmpty || pass.isSome then w'.wakeReaders e.other false else w')

def World.tooFull (w : World) (e : Side) (buf : List UInt8) : Bool :=
  let p := w.ends e.other
  if w.seqpacket then usockBuf - p.rx.length < buf.length + seqHdr else usockBuf ≤ p.rx.length

def World.nothingYet (w : World) (e : Side) : Bool :=
  let s := w.ends e
  s.rx.isEmpty && s.fdq.isEmpty && s.peer && !s.eof

-- What one `usock_recv` takes: the bytes, the rest, and whether to wake the writers.
def drain (seqpacket : Bool) (rx : List UInt8) (n : ℕ) : List UInt8 × List UInt8 × Bool :=
  if seqpacket then
    if seqHdr ≤ rx.length then
      let rest := rx.drop seqHdr
      ((rest.take (messageLength rx)).take n, rest.drop (messageLength rx), true)
    else ([], rx, false)
  else (rx.take n, rx.drop n, !(rx.take n).isEmpty)

def World.drained (w : World) (e : Side) (n : ℕ) (fd : Bool) : World :=
  w.setEnd e { w.ends e with
    rx := (drain w.seqpacket (w.ends e).rx n).2.1
    fdq := if fd then (w.ends e).fdq.tail else (w.ends e).fdq }

def World.usockRecv (w : World) (t : ℕ) (e : Side) (n : ℕ) (fd : Bool) : World :=
  let d := drain w.seqpacket (w.ends e).rx n
  let w' := w.drained e n fd
  (if d.2.2 then w'.wakeWriters e false else w').goto t
    (.done d.1.length d.1 (if fd then (w.ends e).fdq.head? else none))

def World.shutRd (w : World) (e : Side) : World :=
  (w.setEnd e { w.ends e with eof := true }).wakeReaders e true

def World.shutWr (w : World) (e : Side) (p : Bool) : World :=
  let w' := w.setEnd e { w.ends e with wrShut := true }
  if p then (w'.setEnd e.other { w'.ends e.other with eof := true }).wakeReaders e.other true else w'

def World.free (w : World) (e : Side) : World :=
  let w' := if (w.ends e).peer then
      (w.setEnd e.other { w.ends e.other with peer := false }).wakeReaders e.other false
    else w
  w'.setEnd e { w'.ends e with closed := true }

-- A task's next critical section; `stop` is the answer of `task_should_stop`.
def World.proceed (w : World) (t : ℕ) (stop : Bool) : World :=
  match w.phase t with
  | .done _ _ _ => w
  | .sending e buf pass => (w.usockSend e buf pass).2.finish t (w.usockSend e buf pass).1
  | .writing e buf block _ =>
    if !(w.ends e).peer then w.finish t (-32)
    else
      let r := w.usockSend e buf none
      if r.1 = -90 then r.2.finish t (-90)
      else if r.1 ≠ 0 ∨ buf.length = 0 then r.2.finish t (if r.1 < 0 then -32 else r.1)
      else if !block then r.2.finish t (-11)
      else r.2.goto t (.full e buf)
  | .full e buf =>
    if !(w.ends e).peer then w.finish t (-32)
    else if stop then w.finish t (-4)
    else if w.tooFull e buf then w.goto t (.writeParked e buf)
    else w.goto t (.writing e buf true false)
  | .writeParked _ _ => w
  | .receiving e n block fd _ =>
    if block && w.nothingYet e then
      if stop then w.finish t (-4) else w.goto t (.readParked e n fd)
    else w.usockRecv t e n fd
  | .readParked _ _ _ => w
  | .shutting e how =>
    if how = 0 then (w.shutRd e).finish t 0
    else if how = 1 then (w.shutWr e (w.ends e).peer).goto t (.shutWake e)
    else if how = 2 then (w.shutRd e).goto t (.halved e (w.ends e).peer)
    else w.finish t 0
  | .halved e p => (w.shutWr e p).goto t (.shutWake e)
  | .shutWake e => (w.wakeWriters e true).finish t 0
  | .closing e => (w.wakeWriters e false).goto t (.closeWake e)
  | .closeWake e => (w.free e).finish t 0

inductive Call where
  | send (e : Side) (buf : List UInt8) (pass : Option ℕ)
  | write (e : Side) (buf : List UInt8) (block : Bool)
  | recv (e : Side) (n : ℕ) (block fd : Bool)
  | shutdown (e : Side) (how : ℕ)
  | close (e : Side)

def Call.side : Call → Side
  | .send e _ _ => e
  | .write e _ _ => e
  | .recv e _ _ _ => e
  | .shutdown e _ => e
  | .close e => e

-- Only the last reference closes, so nothing names the end from then on.
def World.enter (w : World) (t : ℕ) : Call → World
  | .send e buf pass => w.goto t (.sending e buf pass)
  | .write e buf block => w.goto t (.writing e buf block false)
  | .recv e n block fd => w.goto t (.receiving e n block fd false)
  | .shutdown e how => w.goto t (.shutting e how)
  | .close e => (w.setEnd e { w.ends e with released := true }).goto t (.closing e)

def Phase.isDone : Phase → Bool
  | .done _ _ _ => true
  | _ => false

-- `rouse` is a sleep that ends because the task is being stopped.
inductive Act where
  | call (t : ℕ) (c : Call)
  | proceed (t : ℕ) (stop : Bool)
  | rouse (t : ℕ)

def World.step (w : World) : Act → World
  | .call t c => if (w.phase t).isDone && !(w.ends c.side).released then w.enter t c else w
  | .proceed t stop => w.proceed t stop
  | .rouse t =>
    match w.phase t with
    | .writeParked e buf => w.goto t (.writing e buf true false)
    | .readParked e n fd => w.goto t (.receiving e n true fd false)
    | _ => w

def usockPair (seqpacket : Bool) : World where
  seqpacket := seqpacket
  ends _ := ⟨[], [], true, false, false, false, false⟩
  phase _ := .done 0 [] none

open DosKernel.Lib World

variable {w w' : World} {e : Side} {t u : ℕ} {p : Phase} {buf : List UInt8} {shut : Bool}

-- The direction out of `e` is open: `usock_send` would not refuse.
def World.MaySend (w : World) (e : Side) : Prop :=
  (w.ends e).closed = false ∧ (w.ends e).peer = true ∧ (w.ends e).wrShut = false ∧
    (w.ends e.other).closed = false ∧ (w.ends e.other).eof = false

-- A parked task waits for what may still come; one woken by a shutdown had nothing to wait for.
def World.Fits (w : World) : Phase → Prop
  | .writeParked e buf => w.MaySend e ∧ w.tooFull e buf = true
  | .readParked e _ _ => (w.ends e).rx = [] ∧ (w.ends e).fdq = [] ∧ w.MaySend e.other
  | .writing e _ _ true => ¬ w.MaySend e
  | .receiving e _ _ _ true => ¬ w.MaySend e.other
  | _ => True

def World.Sound (w : World) : Prop := ∀ t, w.Fits (w.phase t)

structure Linked (ends : Side → End) : Prop where
  lost : ∀ e, (ends e).peer = false → (ends e.other).closed = true
  gone : ∀ e, (ends e).closed = false → (ends e.other).closed = true → (ends e).peer = false
  shut : ∀ e, (ends e).wrShut = true → (ends e.other).eof = true ∨ (ends e.other).closed = true

structure Inv (w : World) : Prop where
  fits : w.Sound
  links : Linked w.ends
  halved : ∀ t e, w.phase t = .halved e false → (w.ends e.other).closed = true

theorem inv_usockPair (seqpacket : Bool) : Inv (usockPair seqpacket) where
  fits _ := trivial
  links :=
    { lost := fun _ h => by cases h
      gone := fun _ _ h => by cases h
      shut := fun _ h => by cases h }
  halved _ _ h := by cases h

@[simp] theorem setEnd_self {s : End} : (w.setEnd e s).ends e = s :=
  Function.update_self _ _ _

@[simp] theorem setEnd_other {s : End} : (w.setEnd e s).ends e.other = w.ends e.other :=
  Function.update_of_ne (other_ne e) _ _

@[simp] theorem setEnd_other_self {s : End} : (w.setEnd e.other s).ends e = w.ends e :=
  Function.update_of_ne (other_ne e).symm _ _

@[simp] theorem setEnd_seqpacket {s : End} : (w.setEnd e s).seqpacket = w.seqpacket :=
  rfl

@[simp] theorem setEnd_phase {s : End} : (w.setEnd e s).phase = w.phase :=
  rfl

theorem goto_self : (w.goto t p).phase t = p :=
  Function.update_self _ _ _

theorem goto_of_ne (h : u ≠ t) : (w.goto t p).phase u = w.phase u :=
  Function.update_of_ne h _ _

theorem Inv.goto (h : Inv w) (hfits : w.Fits p)
    (hhalved : ∀ e, p = .halved e false → (w.ends e.other).closed = true := by
      intro _ hp; cases hp) : Inv (w.goto t p) where
  fits := (Function.forall_update_iff w.phase fun _ => w.Fits).mpr ⟨hfits, fun u _ => h.fits u⟩
  links := h.links
  halved u := by
    dsimp only [World.goto]
    exact update_rule u hhalved fun _ => h.halved u

theorem Inv.finish (h : Inv w) {ret : ℤ} : Inv (w.finish t ret) := h.goto trivial

def SameFlags (w w' : World) : Prop :=
  ∀ e, (w'.ends e).peer = (w.ends e).peer ∧ (w'.ends e).eof = (w.ends e).eof ∧
    (w'.ends e).wrShut = (w.ends e).wrShut ∧ (w'.ends e).closed = (w.ends e).closed

theorem sameFlags_setEnd {s : End} (hs : s.peer = (w.ends e).peer ∧ s.eof = (w.ends e).eof ∧
    s.wrShut = (w.ends e).wrShut ∧ s.closed = (w.ends e).closed) : SameFlags w (w.setEnd e s) := by
  intro e'
  obtain rfl | rfl := eq_or_other e e'
  · simpa using hs
  · simp

theorem SameFlags.maySend (h : SameFlags w w') : w'.MaySend e ↔ w.MaySend e := by
  simp only [World.MaySend, (h e).1, (h e).2.2.1, (h e).2.2.2, (h e.other).2.1, (h e.other).2.2.2]

theorem Inv.sameFlags (h : Inv w) (hends : SameFlags w w')
    (hphase : ∀ t e, w'.phase t = .halved e false → w.phase t = .halved e false)
    (hfits : w'.Sound) : Inv w' where
  fits := hfits
  links :=
    { lost := fun e => by
        rw [(hends e).1, (hends e.other).2.2.2]
        exact h.links.lost e
      gone := fun e => by
        rw [(hends e).2.2.2, (hends e.other).2.2.2, (hends e).1]
        exact h.links.gone e
      shut := fun e => by
        rw [(hends e).2.2.1, (hends e.other).2.1, (hends e.other).2.2.2]
        exact h.links.shut e }
  halved t e ht := by
    rw [(hends e.other).2.2.2]
    exact h.halved t e (hphase t e ht)

def Wakes (d : Side) (shut : Bool) (P : Phase → Prop) (f : Phase → Phase) : Prop :=
  ∀ p, P p ∧ (∀ e b, f p ≠ .halved e b) ∧
    (∀ w : World, (shut = true → ¬ w.MaySend d) → w.Fits (f p)) ∨ ¬ P p ∧ f p = p

theorem wakes_reader (e : Side) (shut : Bool) :
    Wakes e.other shut (fun p => ∃ n fd, p = .readParked e n fd) (·.wokenReader e shut) := by
  intro p
  cases p with
  | readParked e' n fd =>
    by_cases he : e' = e
    · subst he
      refine .inl ⟨⟨n, fd, rfl⟩, by simp [Phase.wokenReader], fun w hmay => ?_⟩
      simp only [Phase.wokenReader, if_true]
      cases shut with
      | false => trivial
      | true => exact hmay rfl
    · exact .inr ⟨by simp [he], by simp [Phase.wokenReader, he]⟩
  | _ => exact .inr ⟨by simp, rfl⟩

theorem wakes_writer (e : Side) (shut : Bool) :
    Wakes e.other shut (fun p => ∃ buf, p = .writeParked e.other buf) (·.wokenWriter e shut) := by
  intro p
  cases p with
  | writeParked e' buf =>
    by_cases he : e' = e.other
    · subst he
      refine .inl ⟨⟨buf, rfl⟩, by simp [Phase.wokenWriter], fun w hmay => ?_⟩
      simp only [Phase.wokenWriter, if_true]
      cases shut with
      | false => trivial
      | true => exact hmay rfl
    · exact .inr ⟨by simp [he], by simp [Phase.wokenWriter, he]⟩
  | _ => exact .inr ⟨by simp, rfl⟩

section Wakes

variable {d : Side} {P : Phase → Prop} {f : Phase → Phase} (hf : Wakes d shut P f)
include hf

theorem Wakes.halved {b : Bool} (h : f p = .halved e b) : p = .halved e b := by
  obtain ⟨-, hno, -⟩ | ⟨-, hp⟩ := hf p
  · exact absurd h (hno e b)
  · rwa [hp] at h

theorem Wakes.sound (hwoken : ∀ t, P (w.phase t) → shut = true → ¬ w.MaySend d)
    (hrest : ∀ t, ¬ P (w.phase t) → w.Fits (w.phase t)) :
    World.Sound { w with phase := fun t => f (w.phase t) } := by
  intro t
  obtain ⟨hP, -, hfits⟩ | ⟨hP, hp⟩ := hf (w.phase t)
  · exact hfits w (hwoken t hP)
  · have hsame := hrest t hP
    rw [← hp] at hsame
    exact hsame

end Wakes

theorem fits_of_fits (hp : w.Fits p) (hopen : ∀ e, w'.MaySend e → w.MaySend e)
    (hwriter : ∀ e buf, p = .writeParked e buf → w.MaySend e → w.tooFull e buf = true →
      w'.MaySend e ∧ w'.tooFull e buf = true)
    (hreader : ∀ e n fd, p = .readParked e n fd → (w.ends e).rx = [] → (w.ends e).fdq = [] →
      w.MaySend e.other → (w'.ends e).rx = [] ∧ (w'.ends e).fdq = [] ∧ w'.MaySend e.other) :
    w'.Fits p := by
  cases p with
  | writeParked e buf => exact hwriter e buf rfl hp.1 hp.2
  | readParked e n fd => exact hreader e n fd rfl hp.1 hp.2.1 hp.2.2
  | writing e buf block shut =>
    cases shut with
    | false => trivial
    | true => exact fun hmay => hp (hopen e hmay)
  | receiving e n block fd shut =>
    cases shut with
    | false => trivial
    | true => exact fun hmay => hp (hopen e.other hmay)
  | _ => trivial

theorem SameFlags.fits (h : SameFlags w w') (hp : w.Fits p)
    (hfull : ∀ e buf, p = .writeParked e buf → w.tooFull e buf = true → w'.tooFull e buf = true)
    (hempty : ∀ e n fd, p = .readParked e n fd → (w.ends e).rx = [] → (w.ends e).fdq = [] →
      (w'.ends e).rx = [] ∧ (w'.ends e).fdq = []) : w'.Fits p := by
  refine fits_of_fits hp (fun e => h.maySend.mp) (fun e buf hpark hmay hroom => ?_)
    fun e n fd hpark hrx hfdq hmay => ?_
  · exact ⟨h.maySend.mpr hmay, hfull e buf hpark hroom⟩
  · obtain ⟨hrx, hfdq⟩ := hempty e n fd hpark hrx hfdq
    exact ⟨hrx, hfdq, h.maySend.mpr hmay⟩

section Send

theorem usockSend_cases (e : Side) (buf : List UInt8) (pass : Option ℕ) :
    (w.usockSend e buf pass).2 = w ∨ ∃ more fdq, (w.usockSend e buf pass).2 =
      (w.setEnd e.other { w.ends e.other with
        rx := (w.ends e.other).rx ++ more, fdq := fdq }).wakeReaders e.other false := by
  simp only [usockSend]
  split
  · exact .inl rfl
  · split
    · split
      · exact .inl rfl
      · split
        · exact .inl rfl
        · exact .inr ⟨_, _, by rw [List.append_assoc]⟩
    · split
      · exact .inr ⟨_, _, rfl⟩
      next hnone =>
        rw [Bool.or_eq_true, not_or, Bool.not_eq_true', Bool.not_eq_false, List.isEmpty_iff,
          Bool.not_eq_true, Option.isSome_eq_false_iff, Option.isNone_iff_eq_none] at hnone
        refine .inl ?_
        rw [hnone.1, hnone.2, List.append_nil, queueFd]
        exact congrArg (fun ends => { w with ends := ends }) (Function.update_eq_self _ _)

theorem tooFull_fill {more : List UInt8} {fdq : List ℕ} {e' : Side} (h : w.tooFull e' buf = true) :
    (w.setEnd e { w.ends e with rx := (w.ends e).rx ++ more, fdq := fdq }).tooFull e' buf =
      true := by
  obtain he | he := eq_or_other e.other e'
  · subst he
    simp only [tooFull, other_other, setEnd_self, List.length_append] at h ⊢
    cases hseq : w.seqpacket with
    | false =>
      simp only [setEnd, hseq, Bool.false_eq_true, if_false, decide_eq_true_eq] at h ⊢
      omega
    | true =>
      simp only [setEnd, hseq, if_true, decide_eq_true_eq] at h ⊢
      omega
  · rw [other_other] at he
    subst he
    simpa only [tooFull, setEnd_other, setEnd_seqpacket] using h

theorem Inv.fill (h : Inv w) (more : List UInt8) (fdq : List ℕ) :
    Inv ((w.setEnd e { w.ends e with rx := (w.ends e).rx ++ more, fdq := fdq }).wakeReaders e
      false) := by
  have hflags : SameFlags w (w.setEnd e { w.ends e with
      rx := (w.ends e).rx ++ more, fdq := fdq }) := sameFlags_setEnd ⟨rfl, rfl, rfl, rfl⟩
  refine h.sameFlags hflags (fun t e' ht => (wakes_reader e false).halved ht)
    ((wakes_reader e false).sound ?_ ?_)
  · exact fun _ _ hshut => by cases hshut
  · intro t hno
    refine hflags.fits (h.fits t) (fun _ _ _ => tooFull_fill) fun e' n fd hpark hrx hfdq => ?_
    obtain rfl | rfl := eq_or_other e e'
    · exact absurd ⟨n, fd, hpark⟩ hno
    · exact ⟨by simpa using hrx, by simpa using hfdq⟩

theorem Inv.usockSend (h : Inv w) (e : Side) (buf : List UInt8) (pass : Option ℕ) :
    Inv (w.usockSend e buf pass).2 := by
  obtain hsame | ⟨more, fdq, hfill⟩ := usockSend_cases (w := w) e buf pass
  · rw [hsame]
    exact h
  · rw [hfill]
    exact h.fill more fdq

end Send

section Recv

theorem drain_nil {seqpacket : Bool} {n : ℕ} : (drain seqpacket [] n).2.1 = [] := by
  cases seqpacket with
  | false => simp [drain]
  | true => simp [drain, seqHdr]

theorem drain_unchanged {seqpacket : Bool} {rx : List UInt8} {n : ℕ}
    (h : (drain seqpacket rx n).2.2 = false) : (drain seqpacket rx n).2.1 = rx := by
  cases seqpacket with
  | true =>
    simp only [drain, if_true] at h ⊢
    split
    next hlen =>
      rw [if_pos hlen] at h
      cases h
    · rfl
  | false =>
    simp only [drain, Bool.false_eq_true, if_false, Bool.not_eq_false', List.isEmpty_iff] at h ⊢
    have hsplit := List.take_append_drop n rx
    rwa [h, List.nil_append] at hsplit

theorem sameFlags_drained {n : ℕ} {fd : Bool} : SameFlags w (w.drained e n fd) :=
  sameFlags_setEnd ⟨rfl, rfl, rfl, rfl⟩

theorem drained_empty {n : ℕ} {fd : Bool} {e' : Side} (hrx : (w.ends e').rx = [])
    (hfdq : (w.ends e').fdq = []) :
    ((w.drained e n fd).ends e').rx = [] ∧ ((w.drained e n fd).ends e').fdq = [] := by
  obtain rfl | rfl := eq_or_other e e'
  · simp [drained, hrx, hfdq, drain_nil]
  · simp [drained, hrx, hfdq]

theorem drained_tooFull {n : ℕ} {fd : Bool} : (w.drained e n fd).tooFull e buf = w.tooFull e buf := by
  simp only [tooFull, drained, setEnd_other, setEnd_seqpacket]

theorem Inv.usockRecv (h : Inv w) (t : ℕ) (e : Side) (n : ℕ) (fd : Bool) :
    Inv (w.usockRecv t e n fd) := by
  have hflags : SameFlags w (w.drained e n fd) := sameFlags_drained
  refine Inv.goto ?_ trivial
  split
  · refine h.sameFlags hflags (fun t e' ht => (wakes_writer e false).halved ht)
      ((wakes_writer e false).sound ?_ ?_)
    · exact fun _ _ hshut => by cases hshut
    · intro t hno
      refine hflags.fits (h.fits t) (fun e' buf hpark hfull => ?_) fun _ _ _ _ => drained_empty
      obtain rfl | rfl := eq_or_other e e'
      · exact drained_tooFull.trans hfull
      · exact absurd ⟨buf, hpark⟩ hno
  next hsame =>
    rw [Bool.not_eq_true] at hsame
    refine h.sameFlags hflags (fun t e' ht => ht) fun t => ?_
    refine hflags.fits (h.fits t) (fun e' buf _ hfull => ?_) fun _ _ _ _ => drained_empty
    obtain rfl | rfl := eq_or_other e e'
    · exact drained_tooFull.trans hfull
    · simpa only [tooFull, drained, other_other, setEnd_self, setEnd_seqpacket,
        drain_unchanged hsame] using hfull

end Recv

end DosKernel.Usock
