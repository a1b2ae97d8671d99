import DosKernel.Usock.Pair

namespace DosKernel.Usock

open DosKernel.Lib Bool World

variable {w w' : World} {e e' : Side} {t u : ℕ} {p : Phase} {buf : List UInt8} {shut : Bool}

def World.NoWriter (w : World) (e : Side) : Prop := ∀ t buf, w.phase t ≠ .writeParked e buf

def World.NoReader (w : World) (e : Side) : Prop := ∀ t n fd, w.phase t ≠ .readParked e n fd

theorem Inv.wakeWriters (h : Inv w) (hno : shut = true → w.NoWriter e.other) :
    Inv (w.wakeWriters e shut) := by
  refine h.sameFlags (fun _ => ⟨rfl, rfl, rfl, rfl⟩) (fun t e' ht => (wakes_writer e shut).halved ht)
    ((wakes_writer e shut).sound ?_ fun t _ => h.fits t)
  rintro t ⟨buf, hpark⟩ hshut
  exact absurd hpark (hno hshut t buf)

section ShutRd

theorem maySend_eof : (w.setEnd e { w.ends e with eof := true }).MaySend e ↔ w.MaySend e := by
  simp [World.MaySend]

theorem not_maySend_eof : ¬ (w.setEnd e { w.ends e with eof := true }).MaySend e.other := by
  simp [World.MaySend]

theorem Linked.setEof (h : Linked w.ends) :
    Linked (w.setEnd e { w.ends e with eof := true }).ends := by
  have hlost := h.lost e.other
  have hgone := h.gone e.other
  constructor
  · intro e'
    obtain rfl | rfl := eq_or_other e e'
    · simpa using h.lost e'
    · simpa using hlost
  · intro e'
    obtain rfl | rfl := eq_or_other e e'
    · simpa using h.gone e'
    · simpa using hgone
  · intro e'
    obtain rfl | rfl := eq_or_other e e'
    · simpa using h.shut e'
    · simp

theorem closed_setEof :
    ((w.setEnd e { w.ends e with eof := true }).ends e').closed = (w.ends e').closed := by
  obtain rfl | rfl := eq_or_other e e' <;> simp

theorem Inv.shutRd (h : Inv w) (hno : w.NoWriter e.other) : Inv (w.shutRd e) where
  fits := by
    refine (wakes_reader e true).sound (fun _ _ _ => not_maySend_eof) ?_
    intro t hnoReader
    refine fits_of_fits (h.fits t) ?_ ?_ ?_
    · intro e' hmay
      obtain rfl | rfl := eq_or_other e e'
      · exact maySend_eof.mp hmay
      · exact absurd hmay not_maySend_eof
    · intro e' buf hpark hmay hfull
      obtain rfl | rfl := eq_or_other e e'
      · refine ⟨maySend_eof.mpr hmay, ?_⟩
        simpa only [tooFull, setEnd_other, setEnd_seqpacket] using hfull
      · exact absurd hpark (hno t buf)
    · intro e' n fd hpark hrx hfdq hmay
      obtain rfl | rfl := eq_or_other e e'
      · exact absurd ⟨n, fd, hpark⟩ hnoReader
      · rw [other_other] at hmay ⊢
        exact ⟨by simpa using hrx, by simpa using hfdq, maySend_eof.mpr hmay⟩
  links := h.links.setEof
  halved t e' ht := closed_setEof.trans (h.halved t e' ((wakes_reader e true).halved ht))

end ShutRd

section ShutWr

variable {b : Bool}

theorem shutWr_self : (w.shutWr e b).ends e = { w.ends e with wrShut := true } := by
  cases b <;> simp [shutWr, wakeReaders]

theorem shutWr_other :
    (w.shutWr e b).ends e.other = { w.ends e.other with eof := (w.ends e.other).eof || b } := by
  cases b <;> simp [shutWr, wakeReaders]

theorem shutWr_seqpacket : (w.shutWr e b).seqpacket = w.seqpacket := by
  cases b <;> rfl

theorem maySend_shutWr : (w.shutWr e b).MaySend e.other ↔ w.MaySend e.other := by
  simp [World.MaySend, shutWr_self, shutWr_other]

theorem not_maySend_shutWr : ¬ (w.shutWr e b).MaySend e := by
  simp [World.MaySend, shutWr_self]

theorem closed_shutWr : ((w.shutWr e b).ends e').closed = (w.ends e').closed := by
  obtain rfl | rfl := eq_or_other e e'
  · rw [shutWr_self]
  · rw [shutWr_other]

theorem peer_shutWr : ((w.shutWr e b).ends e').peer = (w.ends e').peer := by
  obtain rfl | rfl := eq_or_other e e'
  · rw [shutWr_self]
  · rw [shutWr_other]

theorem Linked.shutWr (h : Linked w.ends) (hb : b = false → (w.ends e.other).closed = true) :
    Linked (w.shutWr e b).ends where
  lost e' := by
    rw [peer_shutWr, closed_shutWr]
    exact h.lost e'
  gone e' := by
    rw [peer_shutWr, closed_shutWr, closed_shutWr]
    exact h.gone e'
  shut e' hshut := by
    obtain rfl | rfl := eq_or_other e e'
    · rw [shutWr_other]
      cases b with
      | true => exact .inl (or_true _)
      | false => exact .inr (hb rfl)
    · have hbefore := h.shut e.other
      rw [other_other] at hbefore ⊢
      rw [shutWr_other] at hshut
      rw [shutWr_self]
      exact hbefore hshut

theorem Inv.open_of_parked {n : ℕ} {fd : Bool} (h : Inv w) (hpark : w.phase t = .readParked e n fd) :
    (w.ends e).closed = false := by
  have hfits := h.fits t
  rw [hpark] at hfits
  simpa using hfits.2.2.2.2.2.1

theorem Inv.fits_shutWr (h : Inv w) (hno : w.NoWriter e)
    (hread : ¬ ∃ n fd, w.phase t = .readParked e.other n fd) :
    (w.shutWr e b).Fits (w.phase t) := by
  refine fits_of_fits (h.fits t) ?_ ?_ ?_
  · intro e' hmay
    obtain rfl | rfl := eq_or_other e e'
    · exact absurd hmay not_maySend_shutWr
    · exact maySend_shutWr.mp hmay
  · intro e' buf hpark hmay hfull
    obtain rfl | rfl := eq_or_other e e'
    · exact absurd hpark (hno t buf)
    · refine ⟨maySend_shutWr.mpr hmay, ?_⟩
      simpa only [tooFull, other_other, shutWr_self, shutWr_seqpacket] using hfull
  · intro e' n fd hpark hrx hfdq hmay
    obtain rfl | rfl := eq_or_other e e'
    · rw [shutWr_self]
      exact ⟨hrx, hfdq, maySend_shutWr.mpr hmay⟩
    · exact absurd ⟨n, fd, hpark⟩ hread

theorem Inv.shutWr (h : Inv w) (hno : w.NoWriter e)
    (hb : b = false → (w.ends e.other).closed = true) : Inv (w.shutWr e b) where
  fits := by
    cases b with
    | true =>
      refine (wakes_reader e.other true).sound ?_
        fun t hread => h.fits_shutWr (b := true) hno hread
      intro t _ _ hmay
      rw [other_other] at hmay
      exact not_maySend_shutWr (b := true) hmay
    | false =>
      intro t
      refine h.fits_shutWr (b := false) hno ?_
      rintro ⟨n, fd, hpark⟩
      -- the peer is gone, so no one waits at its end
      cases (h.open_of_parked hpark).symm.trans (hb rfl)
  links := h.links.shutWr hb
  halved t e' ht := by
    rw [closed_shutWr]
    cases b with
    | true => exact h.halved t e' ((wakes_reader e.other true).halved ht)
    | false => exact h.halved t e' ht

end ShutWr

section Free

theorem free_self : (w.free e).ends e = { w.ends e with closed := true } := by
  simp only [free]
  split <;> simp [wakeReaders]

theorem free_other : (w.free e).ends e.other =
    { w.ends e.other with peer := (w.ends e.other).peer && !(w.ends e).peer } := by
  simp only [free]
  split
  next hpeer =>
    simp [wakeReaders, hpeer]
  next hpeer =>
    simp [hpeer]

theorem free_phase : (w.free e).phase t =
    if (w.ends e).peer then (w.phase t).wokenReader e.other false else w.phase t := by
  simp only [free]
  split <;> rfl

theorem not_maySend_free : ¬ (w.free e).MaySend e' := by
  obtain rfl | rfl := eq_or_other e e' <;> simp [World.MaySend, free_self]

theorem closed_free (h : (w.ends e').closed = true) : ((w.free e).ends e').closed = true := by
  obtain rfl | rfl := eq_or_other e e'
  · rw [free_self]
  · rw [free_other]
    exact h

theorem Linked.free (h : Linked w.ends) : Linked (w.free e).ends where
  lost e' hlost := by
    obtain rfl | rfl := eq_or_other e e'
    · rw [free_self] at hlost
      exact closed_free (h.lost e' hlost)
    · rw [other_other, free_self]
  gone e' hopen hclosed := by
    obtain rfl | rfl := eq_or_other e e'
    · rw [free_self] at hopen
      cases hopen
    · rw [free_other] at hopen ⊢
      cases hpeer : (w.ends e).peer with
      | true => exact and_false _
      | false =>
        rw [h.lost e hpeer] at hopen
        cases hopen
  shut e' hshut := by
    obtain rfl | rfl := eq_or_other e e'
    · rw [free_self] at hshut
      rw [free_other]
      exact h.shut e' hshut
    · rw [other_other, free_self]
      exact .inr rfl

theorem Inv.free (h : Inv w) (hown : w.NoWriter e) (hpeer : w.NoWriter e.other)
    (hread : w.NoReader e) : Inv (w.free e) where
  fits t := by
    have hrest : (¬ ∃ n fd, w.phase t = .readParked e.other n fd) → (w.free e).Fits (w.phase t) := by
      intro hother
      refine fits_of_fits (h.fits t) (fun e' hmay => absurd hmay not_maySend_free) ?_ ?_
      · intro e' buf hpark
        obtain rfl | rfl := eq_or_other e e'
        · exact absurd hpark (hown t buf)
        · exact absurd hpark (hpeer t buf)
      · intro e' n fd hpark
        obtain rfl | rfl := eq_or_other e e'
        · exact absurd hpark (hread t n fd)
        · exact absurd ⟨n, fd, hpark⟩ hother
    rw [free_phase]
    cases hlink : (w.ends e).peer with
    | true =>
      rw [if_pos rfl]
      obtain ⟨-, -, hfits⟩ | ⟨hno, hp⟩ := wakes_reader e.other false (w.phase t)
      · exact hfits _ fun hshut => by cases hshut
      · exact (congrArg _ hp).mpr (hrest hno)
    | false =>
      refine hrest ?_
      rintro ⟨n, fd, hpark⟩
      -- the other end is freed already, so no one waits there
      cases (h.open_of_parked hpark).symm.trans (h.links.lost e hlink)
  links := h.links.free
  halved t e' ht := by
    rw [free_phase] at ht
    refine closed_free (h.halved t e' ?_)
    split at ht
    · exact (wakes_reader e.other false).halved ht
    · exact ht

end Free

-- The direction is open when a task goes to sleep, its end is not freed meanwhile, and a shutdown
-- or close leaves no sleeper behind.
def World.Calm (w : World) : Act → Prop
  | .proceed t stop =>
    match w.phase t with
    | .full e buf => stop = false → (w.ends e).peer = true → w.tooFull e buf = true → w.MaySend e
    | .receiving e _ block _ _ => block = true → stop = false → w.nothingYet e = true →
        (w.ends e).closed = false
    | .shutting e how => ((how = 0 ∨ how = 2) → w.NoWriter e.other) ∧ (how = 1 → w.NoWriter e)
    | .halved e _ => w.NoWriter e
    | .shutWake e => w.NoWriter e.other
    | .closeWake e => w.NoWriter e ∧ w.NoWriter e.other ∧ w.NoReader e
    | _ => True
  | _ => True

theorem Inv.maySend_of_nothingYet (h : Inv w) (hopen : (w.ends e).closed = false)
    (hnothing : w.nothingYet e = true) :
    (w.ends e).rx = [] ∧ (w.ends e).fdq = [] ∧ w.MaySend e.other := by
  simp only [nothingYet, and_eq_true, List.isEmpty_iff, not_eq_true'] at hnothing
  obtain ⟨⟨⟨hrx, hfdq⟩, hpeer⟩, heof⟩ := hnothing
  have hclosed : (w.ends e.other).closed = false := by
    by_contra hgone
    rw [not_eq_false] at hgone
    rw [h.links.gone e hopen hgone] at hpeer
    cases hpeer
  have hback : (w.ends e.other).peer = true := by
    by_contra hlost
    rw [not_eq_true] at hlost
    have hown := h.links.lost e.other hlost
    rw [other_other, hopen] at hown
    cases hown
  have hwr : (w.ends e.other).wrShut = false := by
    by_contra hshut
    rw [not_eq_false] at hshut
    have hend := h.links.shut e.other hshut
    rw [other_other, heof, hopen] at hend
    simp at hend
  refine ⟨hrx, hfdq, hclosed, hback, hwr, ?_, ?_⟩
  · rwa [other_other]
  · rwa [other_other]

theorem Inv.proceed (h : Inv w) {stop : Bool} (ha : w.Calm (.proceed t stop)) :
    Inv (w.proceed t stop) := by
  simp only [World.Calm] at ha
  unfold World.proceed
  cases hp : w.phase t with
  | done ret data file | writeParked e buf | readParked e n fd => exact h
  | sending e buf pass =>
    dsimp only
    exact (h.usockSend e buf pass).finish
  | writing e buf block shut =>
    have hsent := h.usockSend e buf none
    dsimp only
    split
    · exact h.finish
    · split
      · exact hsent.finish
      · split
        · exact hsent.finish
        · split
          · exact hsent.finish
          · exact hsent.goto trivial
  | full e buf =>
    simp only [hp] at ha ⊢
    split
    · exact h.finish
    next hpeer =>
      split
      · exact h.finish
      next hstop =>
        split
        next hfull =>
          have hmay := ha ((not_eq_true _).mp hstop) (by simpa using hpeer) hfull
          exact h.goto ⟨hmay, hfull⟩
        · exact h.goto trivial
  | receiving e n block fd shut =>
    simp only [hp] at ha ⊢
    split
    next hwait =>
      rw [and_eq_true] at hwait
      split
      · exact h.finish
      next hstop =>
        have hopen := ha hwait.1 ((not_eq_true _).mp hstop) hwait.2
        exact h.goto (h.maySend_of_nothingYet hopen hwait.2)
    · exact h.usockRecv t e n fd
  | shutting e how =>
    simp only [hp] at ha ⊢
    split
    next hhow =>
      exact (h.shutRd (ha.1 (.inl hhow))).finish
    · split
      next hhow =>
        exact (h.shutWr (ha.2 hhow) (h.links.lost e)).goto trivial
      · split
        next hhow =>
          refine (h.shutRd (ha.1 (.inr hhow))).goto trivial fun e' hhalved => ?_
          obtain ⟨rfl, hpeer⟩ := Phase.halved.inj hhalved
          exact closed_setEof.trans (h.links.lost e hpeer)
        · exact h.finish
  | halved e b =>
    simp only [hp] at ha ⊢
    refine (h.shutWr ha ?_).goto trivial
    intro hb
    exact h.halved t e (hb ▸ hp)
  | shutWake e =>
    simp only [hp] at ha ⊢
    exact (h.wakeWriters fun _ => ha).finish
  | closing e =>
    dsimp only
    exact (h.wakeWriters fun hshut => by cases hshut).goto trivial
  | closeWake e =>
    simp only [hp] at ha ⊢
    exact (h.free ha.1 ha.2.1 ha.2.2).finish

theorem Inv.enter (h : Inv w) (c : Call) : Inv (w.enter t c) := by
  cases c with
  | send e buf pass | write e buf block | recv e n block fd | shutdown e how =>
    exact h.goto trivial
  | close e =>
    refine Inv.goto ?_ trivial
    have hflags : SameFlags w (w.setEnd e { w.ends e with released := true }) :=
      sameFlags_setEnd ⟨rfl, rfl, rfl, rfl⟩
    refine h.sameFlags hflags (fun _ _ ht => ht) fun u => ?_
    refine hflags.fits (h.fits u) (fun e' buf _ hfull => ?_) fun e' n fd _ hrx hfdq => ?_
    · obtain rfl | rfl := eq_or_other e e'
      · simpa only [tooFull, setEnd_other, setEnd_seqpacket] using hfull
      · simpa only [tooFull, other_other, setEnd_self, setEnd_seqpacket] using hfull
    · obtain rfl | rfl := eq_or_other e e' <;> exact ⟨by simpa using hrx, by simpa using hfdq⟩

theorem inv_step (a : Act) (h : Inv w) (ha : w.Calm a) : Inv (w.step a) := by
  cases a with
  | call t c =>
    simp only [step]
    split
    · exact h.enter c
    · exact h
  | proceed t stop => exact h.proceed ha
  | rouse t =>
    simp only [step]
    split
    · exact h.goto trivial
    · exact h.goto trivial
    · exact h

theorem noWriter_of_sound {q : Phase} (hs : (w'.goto t p).Sound) (ht : w.phase t = q)
    (hphase : ∀ u buf, w.phase u = .writeParked e buf → w'.phase u = .writeParked e buf)
    (hmay : ¬ w'.MaySend e) (hq : ∀ buf, q ≠ .writeParked e buf := by exact fun _ => Phase.noConfusion) :
    w.NoWriter e := by
  intro u buf hu
  have hne : u ≠ t := by
    rintro rfl
    exact hq buf (ht.symm.trans hu)
  have hfits := hs u
  rw [goto_of_ne hne, hphase u buf hu] at hfits
  exact hmay hfits.1

theorem shutRd_asleep (hu : w.phase u = .writeParked e' buf) :
    (w.shutRd e).phase u = .writeParked e' buf := by
  simp [shutRd, wakeReaders, hu, Phase.wokenReader]

theorem shutWr_asleep {b : Bool} (hu : w.phase u = .writeParked e' buf) :
    (w.shutWr e b).phase u = .writeParked e' buf := by
  cases b <;> simp [shutWr, wakeReaders, hu, Phase.wokenReader]

theorem free_asleep (hu : w.phase u = .writeParked e' buf) :
    (w.free e).phase u = .writeParked e' buf := by
  rw [free_phase, hu]
  split <;> rfl

theorem Inv.calm_of_sound (h : Inv w) {stop : Bool} (hs : (w.proceed t stop).Sound) :
    w.Calm (.proceed t stop) := by
  simp only [World.Calm]
  unfold World.proceed at hs
  cases hp : w.phase t with
  | full e buf =>
    intro hstop hpeer hfull
    have hfits := hs t
    simp only [hp, hpeer, hstop, hfull, Bool.not_true, Bool.false_eq_true, if_false,
      if_true, goto_self] at hfits
    exact hfits.1
  | receiving e n block fd shut =>
    intro hblock hstop hnothing
    have hfits := hs t
    simp only [hp, hblock, hstop, hnothing, Bool.and_self, Bool.false_eq_true,
      if_false, if_true, goto_self] at hfits
    have hown := hfits.2.2.2.2.2.1
    rwa [other_other] at hown
  | shutting e how =>
    refine ⟨?_, ?_⟩
    · intro hhow
      have hmay : ¬ (w.shutRd e).MaySend e.other := not_maySend_eof
      obtain rfl | rfl := hhow
      · simp only [hp, if_true] at hs
        exact noWriter_of_sound hs hp (fun _ _ => shutRd_asleep) hmay
      · simp only [hp, if_true] at hs
        exact noWriter_of_sound hs hp (fun _ _ => shutRd_asleep) hmay
    · rintro rfl
      simp only [hp, if_true] at hs
      exact noWriter_of_sound hs hp (fun _ _ => shutWr_asleep) not_maySend_shutWr
  | halved e b =>
    simp only [hp] at hs
    exact noWriter_of_sound hs hp (fun _ _ => shutWr_asleep) not_maySend_shutWr
  | shutWake e =>
    intro u buf hu
    -- the writer is woken with its direction still open
    have hne : u ≠ t := by
      rintro rfl
      rw [hp] at hu
      cases hu
    have hfits := hs u
    simp only [hp, World.finish, goto_of_ne hne, World.wakeWriters, hu,
      Phase.wokenWriter, if_true] at hfits
    have hasleep := h.fits u
    rw [hu] at hasleep
    exact hfits hasleep.1
  | closeWake e =>
    simp only [hp] at hs
    refine ⟨?_, ?_, ?_⟩
    · exact noWriter_of_sound hs hp (fun _ _ => free_asleep) not_maySend_free
    · exact noWriter_of_sound hs hp (fun _ _ => free_asleep) not_maySend_free
    · intro u n fd hu
      have hne : u ≠ t := by
        rintro rfl
        rw [hp] at hu
        cases hu
      have hfits := hs u
      have hphase : (w.free e).phase u = .readParked e n fd := by
        rw [free_phase, hu]
        simp [Phase.wokenReader, (other_ne e).symm]
      rw [World.finish, goto_of_ne hne, hphase] at hfits
      exact not_maySend_free hfits.2.2
  | _ => trivial

-- No task sleeps for nothing, nor is one woken so, in exactly the runs in which tasks go to sleep
-- with direction open and end there, and nobody sleeps in a direction that is cut.
theorem parked_iff_calm (seqpacket : Bool) (acts : List Act) :
    Always World.step World.Sound (usockPair seqpacket) acts ↔
      Allowed World.step World.Calm (usockPair seqpacket) acts := by
  have hcond : ∀ w a, Inv w → (w.step a).Sound → w.Calm a := by
    intro w a h hs
    cases a with
    | proceed t stop => exact h.calm_of_sound hs
    | call t c => trivial
    | rouse t => trivial
  exact always_iff_of_step (fun _ a => inv_step a) (fun _ h => h.fits) hcond (inv_usockPair seqpacket)

theorem not_sound_of_eof (ht : w.phase t = .writeParked e buf)
    (heof : (w.ends e.other).eof = true) : ¬ w.Sound := by
  intro hs
  have hfits := hs t
  rw [ht] at hfits
  have hopen := hfits.1.2.2.2.2
  rw [heof] at hopen
  cases hopen

-- Task 0 fills the ring of end b and sleeps in its next write; then b shuts its read half.
def shutReader (ring : List UInt8) : List Act :=
  [.call 0 (.write .a ring true), .proceed 0 false,
    .call 0 (.write .a [1] true), .proceed 0 false, .proceed 0 false,
    .call 1 (.shutdown .b 0), .proceed 1 false]

theorem shutReader_asleep {ring : List UInt8} (h : ring.length = usockBuf) :
    (run step (usockPair false) (shutReader ring)).phase 0 = .writeParked .a [1] ∧
      ((run step (usockPair false) (shutReader ring)).ends Side.a.other).eof = true := by
  have hpos : ring ≠ [] := by
    rintro rfl
    cases h
  have hbuf : usockBuf ≠ 0 := by decide
  have htake : ring.take usockBuf = ring := List.take_of_length_le (Nat.le_of_eq h)
  simp [run, shutReader, step, proceed, enter, goto, setEnd,
    finish, usockSend, wakeReaders, shutRd, tooFull, usockPair,
    Call.side, Side.other, Phase.isDone, Phase.wokenReader, queueFd, Function.update, h, htake,
    hpos, hbuf]

theorem shutReader_unsound {ring : List UInt8} (h : ring.length = usockBuf) :
    ¬ Always step World.Sound (usockPair false) (shutReader ring) := by
  intro hs
  have hasleep := shutReader_asleep h
  exact not_sound_of_eof hasleep.1 hasleep.2 hs.last

theorem writer_left_asleep : ¬ Always World.step World.Sound (usockPair false)
    (shutReader (List.replicate usockBuf 0)) :=
  shutReader_unsound List.length_replicate

end DosKernel.Usock
