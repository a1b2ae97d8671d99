import DosKernel.Lib.Run
import Mathlib.Logic.Function.Basic

namespace DosKernel.Signal

open DosKernel.Lib
open Function (update update_of_ne)

def nsig : ℕ := 65

def sigkill : ℕ := 9

def sigstop : ℕ := 19

-- `sig_blocked`, with signal n at bit n, and `rt_blocked`, at bit n - 32. Linux has one word, with
-- signal n at bit n - 1.
abbrev Mask := BitVec 32 × BitVec 64

def Mask.blocks (m : Mask) (sig : ℕ) : Bool :=
  if sig < 32 then m.1.getLsbD sig else m.2.getLsbD (sig - 32)

-- The conversions of `lnx_sig_blocked64` and `lnx_sig_set_blocked64`.
def blocked64 (m : Mask) : BitVec 64 := m.1.setWidth 64 >>> 1 ||| m.2 <<< 31

def blockable (g : BitVec 64) : BitVec 64 :=
  g &&& ~~~(1#64 <<< (sigkill - 1) ||| 1#64 <<< (sigstop - 1))

def native (g : BitVec 64) : Mask := ((blockable g <<< 1).setWidth 32, blockable g >>> 31)

inductive Handler where
  | dfl
  | ign
  | user
deriving DecidableEq

structure SigAction where
  handler : Handler := .dfl
  mask : BitVec 64 := 0
  nodefer : Bool := false
  resethand : Bool := false
deriving DecidableEq

-- `lsig`: there is a `struct lnx_sigstate`; until then its words are 0 and its dispositions the
-- native ones. `pending` are the bits of both words.
structure Task where
  mask : Mask := (0, 0)
  lsig : Bool := false
  pending : ℕ → Bool := fun _ => false
  acts : ℕ → SigAction := fun _ => {}

-- Where a state may have to be made, `alloc` is whether the allocation succeeds.
def Task.setBlocked64 (t : Task) (g : BitVec 64) (alloc : Bool) : Task :=
  { t with
    mask := ((native g).1, if t.lsig || alloc then (native g).2 else 0)
    lsig := t.lsig || (native g).2 != 0 && alloc }

def Task.post (t : Task) (sig : ℕ) (alloc : Bool) : Option Task :=
  if sig = 0 ∨ nsig ≤ sig ∨ 32 ≤ sig ∧ (t.lsig || alloc) = false then none
  else some { t with lsig := t.lsig || alloc, pending := update t.pending sig true }

-- `own`: the task's own call, and not one of a thread it shares the dispositions with.
def Task.sigaction (t : Task) (sig : ℕ) (act : SigAction) (own alloc : Bool) : Task :=
  let lsig := t.lsig || own && alloc
  if sig = 0 ∨ nsig ≤ sig ∨ sig = sigkill ∨ sig = sigstop ∨ lsig = false then t
  else { t with
    lsig
    acts := update t.acts sig { act with mask := blockable act.mask }
    pending := if own && act.handler = .ign then update t.pending sig false else t.pending }

inductive How where
  | block
  | unblock
  | setmask

def Task.sigprocmask (t : Task) (how : How) (set : BitVec 64) (alloc : Bool) : Task :=
  t.setBlocked64 (match how with
    | .block => blocked64 t.mask ||| set
    | .unblock => blocked64 t.mask &&& ~~~set
    | .setmask => set) alloc

def Task.entered (t : Task) (sig : ℕ) (act : SigAction) (alloc : Bool) : Task :=
  let s := t.setBlocked64 (blocked64 t.mask |||
    if act.nodefer then act.mask else act.mask ||| 1#64 <<< (sig - 1)) alloc
  { s with acts := if act.resethand && s.lsig then
      update s.acts sig { s.acts sig with handler := .dfl } else s.acts }

def defaultIgnored (sig : ℕ) : Bool := sig ∈ [17, 23, 28, 18]

-- Where the task is: on its own, in the loop of `lnx_sig_next` before a signal, or with a signal
-- picked for its handler and the mask for the frame.
inductive Ctx where
  | user
  | scan (sig : ℕ)
  | picked (sig : ℕ) (act : SigAction) (oldMask : BitVec 64)
  | exited
deriving DecidableEq

-- A frame on the user's stack. `before`, the mask when the handler was entered, is not in it.
structure Frame where
  saved : BitVec 64
  before : Mask

-- Not in the source: `posts` counts postings that set a bit, `delivered` deliveries; `masked` is
-- set by one of a blocked signal.
structure World where
  task : Task := {}
  ctx : Ctx := .user
  frames : List Frame := []
  posts : ℕ → ℕ := fun _ => 0
  delivered : ℕ → ℕ := fun _ => 0
  masked : Bool := false

def bump (f : ℕ → ℕ) (sig : ℕ) : ℕ → ℕ := fun n => if n = sig then f n + 1 else f n

def World.deliver (w : World) (sig : ℕ) : World :=
  { w with delivered := bump w.delivered sig, masked := w.masked || w.task.mask.blocks sig }

def World.look (w : World) (sig : ℕ) : World :=
  if nsig ≤ sig ∨ 32 ≤ sig ∧ w.task.lsig = false then { w with ctx := .user }
  else if w.task.pending sig = false ∨ w.task.mask.blocks sig = true ∧ sig ≠ sigkill then
    { w with ctx := .scan (sig + 1) }
  else
    let t := { w.task with pending := update w.task.pending sig false }
    match if sig = sigkill then .dfl else (t.acts sig).handler with
    | .ign => { w with task := t, ctx := .scan (sig + 1) }
    | .dfl =>
      if defaultIgnored sig then { w with task := t, ctx := .scan (sig + 1) }
      else { w.deliver sig with task := t, ctx := .exited }
    | .user => { w with task := t, ctx := .picked sig (t.acts sig) (blocked64 t.mask) }

-- The frame is written and the handler entered, or there is no room: the task dies, or, in an
-- interrupt, the signal is pending again.
inductive Build where
  | ok
  | killed
  | repost

-- Others post at any time and change shared dispositions. A `sigreturn` uses a frame still on the
-- stack. There is no `sigsuspend`; `epoll_pwait` sets a mask and then the old one again.
inductive Act where
  | post (sig : ℕ) (alloc : Bool)
  | sigaction (sig : ℕ) (act : SigAction) (own alloc : Bool)
  | sigprocmask (how : How) (set : BitVec 64) (alloc : Bool)
  | deliver
  | look
  | build (b : Build) (alloc : Bool)
  | sigreturn (i : ℕ) (alloc : Bool)

def World.step (w : World) : Act → World
  | .post sig alloc =>
    match w.task.post sig alloc with
    | none => w
    | some t =>
      { w with task := t, posts := if w.task.pending sig then w.posts else bump w.posts sig }
  | .sigaction sig act own alloc => { w with task := w.task.sigaction sig act own alloc }
  | .sigprocmask how set alloc =>
    if w.ctx = .user then { w with task := w.task.sigprocmask how set alloc } else w
  | .deliver => if w.ctx = .user then { w with ctx := .scan 1 } else w
  | .look =>
    match w.ctx with
    | .scan sig => w.look sig
    | _ => w
  | .build b alloc =>
    match w.ctx, b with
    | .picked sig act oldMask, .ok =>
      { w.deliver sig with
        task := w.task.entered sig act alloc
        ctx := .user
        frames := ⟨oldMask, w.task.mask⟩ :: w.frames }
    | .picked _ _ _, .killed => { w with ctx := .exited }
    | .picked sig _ _, .repost =>
      { w with ctx := .user, task := { w.task with pending := update w.task.pending sig true } }
    | _, _ => w
  | .sigreturn i alloc =>
    match w.ctx, w.frames[i]? with
    | .user, some f =>
      { w with task := w.task.setBlocked64 f.saved alloc, frames := w.frames.drop (i + 1) }
    | _, _ => w

def Mask.Valid (m : Mask) : Prop :=
  ∀ sig, m.blocks sig = true → (0 < sig ∧ sig < nsig) ∧ sig ≠ sigkill ∧ sig ≠ sigstop

structure Respects (w : World) : Prop where
  unblockable : w.task.mask.blocks sigkill = false ∧ w.task.mask.blocks sigstop = false
  unmasked : w.masked = false
  once : ∀ sig, w.delivered sig + (w.task.pending sig).toNat ≤ w.posts sig
  restored : w.ctx = .user → ∀ i f alloc, w.frames[i]? = some f →
    (w.step (.sigreturn i alloc)).task.mask = f.before

theorem getLsbD_blocked64 (m : Mask) {i : ℕ} (hi : i < 64) :
    (blocked64 m).getLsbD i = m.blocks (i + 1) := by
  simp only [blocked64, Mask.blocks, BitVec.getLsbD_or, BitVec.getLsbD_ushiftRight,
    BitVec.getLsbD_setWidth, BitVec.getLsbD_shiftLeft]
  by_cases h : i < 31
  · simp [h, Nat.add_comm 1 i, show i + 1 < 32 by omega]
    omega
  · have hm : m.1.getLsbD (1 + i) = false := BitVec.getLsbD_of_ge _ _ (by omega)
    simp [h, hm, hi, show ¬i + 1 < 32 by omega, show i + 1 - 32 = i - 31 by omega]

theorem getLsbD_blockable (g : BitVec 64) (i : ℕ) :
    (blockable g).getLsbD i = (g.getLsbD i && decide (i + 1 ≠ sigkill ∧ i + 1 ≠ sigstop)) := by
  by_cases hi : i < 64
  · have hall : ∀ i : Fin 64, (~~~(1#64 <<< (sigkill - 1) ||| 1#64 <<< (sigstop - 1))).getLsbD i =
        decide (i.val + 1 ≠ sigkill ∧ i.val + 1 ≠ sigstop) := by decide
    rw [blockable, BitVec.getLsbD_and, hall ⟨i, hi⟩]
  · rw [BitVec.getLsbD_of_ge _ _ (by omega), BitVec.getLsbD_of_ge g i (by omega), Bool.false_and]

theorem blocks_native (g : BitVec 64) (sig : ℕ) :
    (native g).blocks sig = (decide (0 < sig) && (blockable g).getLsbD (sig - 1)) := by
  unfold native Mask.blocks
  split
  next h =>
    rw [BitVec.getLsbD_setWidth, BitVec.getLsbD_shiftLeft]
    by_cases h0 : sig = 0
    · simp [h0]
    · simp [h, show sig < 64 by omega, show 0 < sig by omega, show ¬sig < 1 by omega]
  · rw [BitVec.getLsbD_ushiftRight]
    simp [show 0 < sig by omega, show 31 + (sig - 32) = sig - 1 by omega]

theorem valid_native (g : BitVec 64) : (native g).Valid := by
  intro sig h
  simp only [blocks_native, getLsbD_blockable, Bool.and_eq_true, decide_eq_true_eq] at h
  have hlt : sig - 1 < 64 := by
    by_contra hge
    simp [BitVec.getLsbD_of_ge g (sig - 1) (by omega)] at h
  rw [show sig - 1 + 1 = sig by omega] at h
  exact ⟨⟨h.1, by unfold nsig; omega⟩, h.2.2⟩

theorem Mask.ext_blocks {m m' : Mask} (h : ∀ sig, m.blocks sig = m'.blocks sig) : m = m' := by
  refine Prod.ext (BitVec.eq_of_getLsbD_eq fun i hi => ?_) (BitVec.eq_of_getLsbD_eq fun i hi => ?_)
  · simpa [blocks, hi] using h i
  · have := h (i + 32)
    rwa [blocks, blocks, if_neg (by omega), if_neg (by omega), Nat.add_sub_cancel] at this

theorem native_blocked64 {m : Mask} (hm : m.Valid) : native (blocked64 m) = m := by
  refine Mask.ext_blocks fun sig => ?_
  by_cases hs : 0 < sig ∧ sig - 1 < 64
  · rw [blocks_native, getLsbD_blockable, getLsbD_blocked64 m hs.2, show sig - 1 + 1 = sig by omega]
    cases hb : m.blocks sig with
    | true => simp [hs.1, (hm sig hb).2]
    | false => simp
  · -- neither has a bit outside the signals
    have hout : ∀ m : Mask, m.Valid → m.blocks sig = false := by
      intro m hm
      by_contra hb
      have := (hm sig (by simpa using hb)).1
      unfold nsig at this
      omega
    rw [hout _ (valid_native _), hout m hm]

theorem blocked64_native (g : BitVec 64) : blocked64 (native g) = blockable g := by
  refine BitVec.eq_of_getLsbD_eq fun i hi => ?_
  rw [getLsbD_blocked64 _ hi, blocks_native]
  simp

variable {t : Task} {w : World} {sig : ℕ} {alloc : Bool} {g : BitVec 64}

def Task.Sound (t : Task) : Prop := t.mask.Valid ∧ (t.mask.2 ≠ 0 → t.lsig = true)

theorem Task.Sound.of {s : Task} (h : t.Sound) (hm : s.mask = t.mask)
    (hl : t.lsig = true → s.lsig = true) : s.Sound := by
  rw [Sound, hm]
  exact ⟨h.1, fun hne => hl (h.2 hne)⟩

theorem sound_setBlocked64 : (t.setBlocked64 g alloc).Sound := by
  refine ⟨fun sig hb => valid_native g sig ?_, ?_⟩
  · unfold Mask.blocks at hb ⊢
    simp only [Task.setBlocked64] at hb
    split at hb
    next h => simpa only [if_pos h] using hb
    next h =>
      rw [if_neg h]
      split at hb
      · exact hb
      · simp at hb
  · simp only [Task.setBlocked64]
    cases t.lsig <;> cases alloc <;> simp

def Ctx.holds (sig : ℕ) : Ctx → Bool
  | .picked s _ _ => s == sig
  | _ => false

def Ctx.Fair (m : Mask) : Ctx → Prop
  | .picked sig _ old => m.blocks sig = false ∧ old = blocked64 m
  | _ => True

structure Inv (w : World) : Prop where
  task : w.task.Sound
  count : ∀ n, w.delivered n + (w.task.pending n).toNat + (w.ctx.holds n).toNat ≤ w.posts n
  ctx : w.ctx.Fair w.task.mask
  frames : ∀ f ∈ w.frames, f.saved = blocked64 f.before ∧ { w.task with mask := f.before }.Sound
  unmasked : w.masked = false

theorem Mask.Valid.kill {m : Mask} (h : m.Valid) (hsig : sig = sigkill ∨ sig = sigstop) :
    m.blocks sig = false := by
  by_contra hb
  have := (h sig (by simpa using hb)).2
  tauto

theorem Inv.next {w' : World} (h : Inv w) (htask : w'.task.Sound)
    (hl : w.task.lsig = true → w'.task.lsig = true) (hctx : w'.ctx.Fair w'.task.mask)
    (hcount : ∀ n, w'.delivered n + (w'.task.pending n).toNat + (w'.ctx.holds n).toNat ≤ w'.posts n)
    (hmasked : w'.masked = false)
    (hframes : ∀ f ∈ w'.frames, f ∈ w.frames ∨ f = ⟨blocked64 w.task.mask, w.task.mask⟩) :
    Inv w' := by
  refine ⟨htask, hcount, hctx, fun f hf => ?_, hmasked⟩
  obtain hf | rfl := hframes f hf
  · exact ⟨(h.frames f hf).1, (h.frames f hf).2.of rfl hl⟩
  · exact ⟨rfl, h.task.of rfl hl⟩

theorem Inv.look (h : Inv w) (hc : w.ctx = .scan sig) : Inv (w.look sig) := by
  have hcount := h.count
  rw [hc] at hcount
  unfold World.look
  split
  · exact h.next h.task id trivial hcount h.unmasked fun _ => .inl
  split
  · exact h.next h.task id trivial hcount h.unmasked fun _ => .inl
  next hp =>
  rw [not_or, Bool.not_eq_false, not_and_or] at hp
  have hfree : w.task.mask.blocks sig = false := by
    by_cases hk : sig = sigkill
    · exact h.task.1.kill (.inl hk)
    · simpa [hk] using hp.2
  have htask : { w.task with pending := update w.task.pending sig false }.Sound := h.task.of rfl id
  dsimp only
  split
  · refine h.next htask id trivial (fun n => ?_) h.unmasked fun _ => .inl
    grind [Ctx.holds]
  · split
    · refine h.next htask id trivial (fun n => ?_) h.unmasked fun _ => .inl
      grind [Ctx.holds]
    · refine h.next htask id trivial (fun n => ?_)
        (by simp [World.deliver, h.unmasked, hfree]) fun _ => .inl
      simp only [World.deliver, bump]
      grind [Ctx.holds]
  · refine h.next htask id ⟨hfree, rfl⟩ (fun n => ?_) h.unmasked fun _ => .inl
    grind [Ctx.holds]

theorem lsig_setBlocked64 (h : t.lsig = true) : (t.setBlocked64 g alloc).lsig = true := by
  simp [Task.setBlocked64, h]

theorem Inv.step (h : Inv w) (a : Act) : Inv (w.step a) := by
  have hcount := h.count
  cases a with
  | post sig alloc =>
    simp only [World.step]
    split
    · exact h
    next t ht =>
      obtain ⟨-, ht⟩ := Option.ite_none_left_eq_some.mp ht
      cases ht
      have hl : w.task.lsig = true → (w.task.lsig || alloc) = true := fun hl => by simp [hl]
      refine h.next (h.task.of rfl hl) hl h.ctx (fun n => ?_) h.unmasked fun _ => .inl
      grind [bump]
  | sigaction sig act own alloc =>
    simp only [World.step, Task.sigaction]
    split
    · exact h
    · have hl : w.task.lsig = true → (w.task.lsig || own && alloc) = true := fun hl => by simp [hl]
      refine h.next (h.task.of rfl hl) hl h.ctx (fun n => ?_) h.unmasked fun _ => .inl
      grind
  | sigprocmask how set alloc =>
    simp only [World.step]
    split
    next hu =>
      refine h.next sound_setBlocked64 lsig_setBlocked64 ?_ hcount h.unmasked fun _ => .inl
      rw [hu]
      trivial
    · exact h
  | deliver =>
    simp only [World.step]
    split
    next hu =>
      rw [hu] at hcount
      exact h.next h.task id trivial hcount h.unmasked fun _ => .inl
    · exact h
  | look =>
    simp only [World.step]
    split
    next sig hc => exact h.look hc
    · exact h
  | build b alloc =>
    simp only [World.step]
    split
    next sig act old hc =>
      have hctx := h.ctx
      rw [hc] at hctx hcount
      refine h.next (sound_setBlocked64.of rfl id) lsig_setBlocked64 trivial (fun n => ?_) ?_
        fun f hf => ?_
      · simp only [World.deliver, bump, Task.entered, Task.setBlocked64]
        grind [Ctx.holds]
      · simp [World.deliver, h.unmasked, hctx.1]
      · rw [← hctx.2]
        exact (List.mem_cons.mp hf).symm
    next sig act old hc =>
      exact h.next h.task id trivial (fun n => Nat.le_trans (Nat.le_add_right _ _) (hcount n))
        h.unmasked fun _ => .inl
    next sig act old hc =>
      rw [hc] at hcount
      refine h.next (h.task.of rfl id) id trivial (fun n => ?_) h.unmasked fun _ => .inl
      grind [Ctx.holds]
    · exact h
  | sigreturn i alloc =>
    simp only [World.step]
    split
    next f hu hf =>
      refine h.next sound_setBlocked64 lsig_setBlocked64 ?_ hcount h.unmasked
        fun f hf => .inl (List.mem_of_mem_drop hf)
      rw [hu]
      trivial
    · exact h

theorem Inv.respects (h : Inv w) : Respects w where
  unblockable := ⟨h.task.1.kill (.inl rfl), h.task.1.kill (.inr rfl)⟩
  unmasked := h.unmasked
  once sig := Nat.le_trans (Nat.le_add_right _ _) (h.count sig)
  restored hu i f alloc hf := by
    obtain ⟨hsaved, hvalid, hrt⟩ := h.frames f (List.mem_of_getElem? hf)
    have hnative : native f.saved = f.before := by rw [hsaved, native_blocked64 hvalid]
    simp only [World.step, hu, hf, Task.setBlocked64, hnative]
    by_cases hne : f.before.2 = 0
    · exact Prod.ext rfl (by simp [hne])
    · rw [show w.task.lsig = true from hrt hne]
      rfl

end DosKernel.Signal
