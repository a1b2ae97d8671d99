import DosKernel.Usock.Shutdown

namespace DosKernel.Usock

open DosKernel.Lib World

variable {w w' : World} {e : Side} {t : ℕ}

-- `usock_send_whole`, the send of the kernel's own tasks: every byte and the descriptor, or nothing.
def World.usockSendWhole (w : World) (e : Side) (buf : List UInt8) (pass : Option ℕ) : ℤ × World :=
  let p := w.ends e.other
  if !(w.ends e).peer || (w.ends e).wrShut || p.eof then (-1, w)
  else if usockBuf - p.rx.length < buf.length || pass.isSome && fdqRoom ≤ p.fdq.length then (0, w)
  else (buf.length, (w.setEnd e.other { p with
      rx := p.rx ++ buf
      fdq := queueFd p.fdq pass }).wakeReaders e.other false)

inductive Move where
  | act (a : Act)
  | sendWhole (e : Side) (buf : List UInt8) (pass : Option ℕ)

def World.move (w : World) : Move → World
  | .act a => w.step a
  | .sendWhole e buf pass => if (w.ends e).released then w else (w.usockSendWhole e buf pass).2

def World.Over (w : World) (e : Side) : Prop :=
  (w.ends e).wrShut = true ∨ (w.ends e).closed = true

-- A blocking receive that is given no byte has met the end of what the peer sends.
def World.EndsTruly (w : World) : Move → Prop
  | .act (.proceed t stop) => ∀ e n fd shut data file, w.phase t = .receiving e n true fd shut →
      0 < n → (w.proceed t stop).phase t = .done 0 data file → (w.ends e).rx = [] ∧ w.Over e.other
  | _ => True

-- It finds no descriptor without a byte, and not its own read half shut, before that end.
def World.Unmixed (w : World) : Move → Prop
  | .act (.proceed t _) => ∀ e n fd shut, w.phase t = .receiving e n true fd shut → 0 < n →
      (w.ends e).rx = [] → ¬ w.Over e.other → (w.ends e).fdq = [] ∧ (w.ends e).eof = false
  | _ => True

structure World.Attached (w : World) : Prop where
  stream : w.seqpacket = false
  lost : ∀ e, (w.ends e).peer = false → (w.ends e.other).closed = true

theorem World.Attached.keep (h : w.Attached) (hseq : w'.seqpacket = w.seqpacket)
    (hends : ∀ e, (w'.ends e).peer = (w.ends e).peer ∧ (w'.ends e).closed = (w.ends e).closed) :
    w'.Attached where
  stream := hseq.trans h.stream
  lost e hpeer := by
    rw [(hends e).1] at hpeer
    rw [(hends e.other).2]
    exact h.lost e hpeer

theorem World.Attached.same (h : w.Attached) (hends : w'.ends = w.ends := by rfl)
    (hseq : w'.seqpacket = w.seqpacket := by rfl) : w'.Attached :=
  h.keep hseq fun _ => hends ▸ ⟨rfl, rfl⟩

theorem World.Attached.set {s : End} (h : w.Attached) (hends : w'.ends = (w.setEnd e s).ends)
    (hseq : w'.seqpacket = w.seqpacket := by rfl) (hpeer : s.peer = (w.ends e).peer := by rfl)
    (hclosed : s.closed = (w.ends e).closed := by rfl) : w'.Attached := by
  refine h.keep hseq fun e' => ?_
  rw [hends]
  obtain rfl | rfl := eq_or_other e e'
  · rw [setEnd_self]
    exact ⟨hpeer, hclosed⟩
  · rw [setEnd_other]
    exact ⟨rfl, rfl⟩

theorem World.Attached.usockSend (h : w.Attached) {buf : List UInt8} {pass : Option ℕ} :
    (w.usockSend e buf pass).2.Attached := by
  obtain hsame | ⟨more, fdq, hfill⟩ := usockSend_cases (w := w) e buf pass
  · rw [hsame]
    exact h
  · rw [hfill]
    exact h.set rfl

theorem World.Attached.shutWr (h : w.Attached) {b : Bool} : (w.shutWr e b).Attached :=
  h.keep shutWr_seqpacket fun _ => ⟨peer_shutWr, closed_shutWr⟩

theorem World.Attached.free (h : w.Attached) : (w.free e).Attached where
  stream := by
    simp only [World.free]
    split <;> exact h.stream
  lost e' hpeer := by
    obtain rfl | rfl := eq_or_other e e'
    · rw [free_self] at hpeer
      exact closed_free (h.lost e' hpeer)
    · rw [other_other, free_self]

theorem World.Attached.proceed (h : w.Attached) {stop : Bool} : (w.proceed t stop).Attached := by
  unfold World.proceed
  split
  · exact h
  · exact h.usockSend.same
  · dsimp only
    split_ifs
    · exact h.same
    all_goals exact h.usockSend.same
  · split_ifs <;> exact h.same
  · exact h
  · split_ifs
    · exact h.same
    · exact h.same
    · unfold World.usockRecv
      dsimp only
      split <;> exact h.set rfl
  · exact h
  · split_ifs
    · exact h.set rfl
    · exact h.shutWr.same
    · exact h.set rfl
    · exact h.same
  · exact h.shutWr.same
  · exact h.same
  · exact h.same
  · exact h.free.same

theorem World.Attached.move (h : w.Attached) (m : Move) : (w.move m).Attached := by
  cases m with
  | act a =>
    cases a with
    | call t c =>
      simp only [World.move, World.step]
      split
      · cases c with
        | close e => exact h.set rfl
        | _ => exact h.same
      · exact h
    | proceed t stop => exact h.proceed
    | rouse t =>
      simp only [World.move, World.step]
      split <;> exact h.same
  | sendWhole e buf pass =>
    simp only [World.move, World.usockSendWhole]
    split_ifs
    · exact h
    · exact h
    · exact h
    · exact h.set rfl

theorem phase_usockRecv (h : w.Attached) {n : ℕ} {fd : Bool} : (w.usockRecv t e n fd).phase t =
    .done ((w.ends e).rx.take n).length ((w.ends e).rx.take n)
      (if fd then (w.ends e).fdq.head? else none) := by
  unfold World.usockRecv drain
  rw [h.stream]
  exact goto_self

theorem World.Attached.endsTruly_iff (h : w.Attached) (m : Move) : w.EndsTruly m ↔ w.Unmixed m := by
  unfold World.EndsTruly World.Unmixed
  split
  next t stop =>
    constructor
    · intro hends e n fd shut hp hn hrx hopen
      by_contra hmixed
      have hgo : w.nothingYet e = false := by
        by_contra hyet
        simp only [World.nothingYet, Bool.not_eq_false, Bool.and_eq_true, List.isEmpty_iff,
          Bool.not_eq_true'] at hyet
        exact hmixed ⟨hyet.1.1.2, hyet.2⟩
      have hdone : (w.proceed t stop).phase t =
          .done 0 [] (if fd then (w.ends e).fdq.head? else none) := by
        rw [World.proceed, hp]
        dsimp only
        rw [hgo, if_neg (by simp), phase_usockRecv h, hrx, List.take_nil]
        rfl
      exact hopen (hends e n fd shut _ _ hp hn hdone).2
    · intro hun e n fd shut data file hp hn hdone
      rw [World.proceed, hp] at hdone
      dsimp only at hdone
      split at hdone
      · split at hdone
        · cases goto_self.symm.trans hdone
        · cases goto_self.symm.trans hdone
      next hgo =>
        have hrx : (w.ends e).rx = [] := by
          have hlen := (Phase.done.inj ((phase_usockRecv h).symm.trans hdone)).1
          have := List.length_take (i := n) (l := (w.ends e).rx)
          exact List.length_eq_zero_iff.mp (by omega)
        refine ⟨hrx, ?_⟩
        by_contra hopen
        obtain ⟨hfdq, heof⟩ := hun e n fd shut hp hn hrx hopen
        have hpeer : (w.ends e).peer = false := by
          simpa [World.nothingYet, hrx, hfdq, heof] using hgo
        exact hopen (.inr (h.lost e hpeer))
  next => exact Iff.rfl

-- A blocking receive reports no end of file but the peer's own in exactly the runs in which it
-- never meets a descriptor without bytes, or its own read half shut, while the peer may send.
theorem endsTruly_iff_unmixed (moves : List Move) :
    Allowed World.move World.EndsTruly (usockPair false) moves ↔
      Allowed World.move World.Unmixed (usockPair false) moves :=
  allowed_congr (fun _ m => (World.Attached.move · m)) (fun _ m => (·.endsTruly_iff m))
    ⟨rfl, fun _ hpeer => by cases hpeer⟩

-- The reader takes the byte with read(2) and leaves the descriptor that came with it.
def descriptorLeft : List Move :=
  [.act (.call 0 (.send .a [1] (some 7))), .act (.proceed 0 false),
    .act (.call 1 (.recv .b 4 true false)), .act (.proceed 1 false),
    .act (.call 1 (.recv .b 4 true false)), .act (.proceed 1 false)]

theorem false_end : ¬ Allowed World.move World.EndsTruly (usockPair false) descriptorLeft := by
  rintro ⟨-, -, -, -, -, hends, -⟩
  obtain h | h := (hends .b 4 false false [] none rfl (by decide) rfl).2
  · cases h
  · cases h

end DosKernel.Usock
