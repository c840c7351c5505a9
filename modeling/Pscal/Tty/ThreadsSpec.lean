import Pscal.Tty.TerminalSpec
import Pscal.Tty.Threads

/-!
# The queue in every state that threads can reach

* `ttyReadTurn_ok`, `TtyCall.apply_ok`  a read and a call keep the queue as the mode asks for;
* `TtyStep.ok`  each step does;
* `ttyQueue_reachable`  what holds of the queue in every state reached.
-/

namespace Pscal.Terminal

open Transitions

/-! ## reads and calls -/

variable {nonblocking : Bool} {tty tty' : Tty}

variable {out : Option (List UInt8)} {size : Nat}

theorem ttyReadMasterTurn_ok (hok : tty.Ok)
    (h : ttyReadMasterTurn tty size nonblocking = .returned out tty') : tty'.Ok := by
  unfold ttyReadMasterTurn at h
  split at h
  · cases h
    exact hok
  split at h
  · cases h
    exact hok
  split at h
  · split at h
    · cases h
      exact (ttyCopyRaw_ok hok _).1
    · dsimp only at h
      split at h
      · cases h
        exact (ttyCopyRaw_ok hok _).1
      · cases h
        exact hok
  · unfold ReadTurn.orWait at h
    split at h
    · cases h
      exact hok
    · cases h

theorem orWait_returned {timed : Bool}
    (h : ReadTurn.orWait tty nonblocking timed = .returned out tty') : tty' = tty := by
  unfold ReadTurn.orWait at h
  split at h
  · cases h
    rfl
  · cases h

theorem ttyReadSlaveTurn_cases (h : ttyReadSlaveTurn tty size nonblocking = .returned out tty') :
    tty' = tty ∨ tty' = (ttyCopyLine tty size).2 ∨ tty' = (ttyCopyRaw tty size).2 := by
  unfold ttyReadSlaveTurn at h
  dsimp only at h
  split at h
  · cases h
    exact .inl rfl
  split at h
  · split at h
    · cases h
      exact .inr (.inl rfl)
    · exact .inl (orWait_returned h)
  split at h
  · split at h
    · cases h
      exact .inr (.inr rfl)
    split at h
    · cases h
      exact .inl rfl
    · exact .inl (orWait_returned h)
  split at h
  · cases h
    exact .inr (.inr rfl)
  split at h
  · cases h
    exact .inr (.inr rfl)
  · exact .inl (orWait_returned h)

theorem ttyReadTurn_ok (hok : tty.Ok) (h : ttyReadTurn tty size nonblocking = .returned out tty') :
    tty'.Ok := by
  unfold ttyReadTurn at h
  split at h
  · exact ttyReadMasterTurn_ok hok h
  · rcases ttyReadSlaveTurn_cases h with rfl | rfl | rfl
    · exact hok
    · exact (ttyCopyLine_ok hok size).1
    · exact (ttyCopyRaw_ok hok size).1

theorem hasFlag_xor {a b mask : UInt32} (h : hasFlag (a ^^^ b) mask = false) :
    hasFlag a mask = hasFlag b mask := by
  have hxor : (a ^^^ b) &&& mask = 0 := by
    unfold hasFlag at h
    rwa [bne_eq_false_iff_eq] at h
  have hdistrib : (a ^^^ b) &&& mask = (a &&& mask) ^^^ (b &&& mask) := by
    apply UInt32.toBitVec_inj.mp
    show (a.toBitVec ^^^ b.toBitVec) &&& mask.toBitVec = _
    ext i hi
    simp [Bool.and_xor_distrib_right]
  have hand := UInt32.xor_eq_zero_iff.mp (hdistrib.symm.trans hxor)
  rw [hasFlag, hasFlag, hand]

theorem ttySetTermios_ok (hok : tty.Ok) (hside : tty.isMaster = false) (wanted : Termios)
    (flushInput : Bool) : (tty.ttySetTermios wanted flushInput).Ok := by
  unfold Tty.ttySetTermios
  have hside' : (if flushInput then tty.ttyQueueClear else tty).isMaster = false := by
    split
    · exact hside
    · exact hside
  have hok' : (if flushInput then tty.ttyQueueClear else tty).Ok := by
    split
    · exact ttyQueueClear_ok tty
    · exact hok
  generalize (if flushInput then tty.ttyQueueClear else tty) = side at hside' hok'
  dsimp only
  generalize hmode : hasFlag (side.termios.lflags ^^^ wanted.lflags) Flag.icanon = modeChanged
  have hchanged : (if modeChanged = true then
      { side with
        termios := wanted
        queue := side.queue.ttyQueueRelabel (wanted.hasL Flag.icanon)
        literalNext := false }
      else { side with termios := wanted } : Tty).Ok := by
    cases modeChanged with
    | true =>
      show (side.queue.ttyQueueRelabel (wanted.hasL Flag.icanon)).Ok
        (!side.isMaster && wanted.hasL Flag.icanon)
      rw [hside']
      exact TtyQueue.Ok.relabel hok' _
    | false =>
      show side.queue.Ok (!side.isMaster && wanted.hasL Flag.icanon)
      have hsame : wanted.hasL Flag.icanon = side.termios.hasL Flag.icanon :=
        (hasFlag_xor hmode).symm
      rw [hsame]
      exact hok'
  split
  · exact hchanged
  · exact hchanged

theorem TtyCall.apply_ok (hok : tty.Ok) {c : TtyCall} (hside : c.admits tty = true) :
    (c.apply tty).Ok := by
  cases c with
  | flushInput => exact ttyQueueClear_ok tty
  | setTermios wanted flush =>
    rw [admits, Bool.not_eq_true'] at hside
    exact ttySetTermios_ok hok hside wanted flush
  | packetEvent set clear =>
    show (tty.ttyPacketEvent set clear).Ok
    unfold Tty.ttyPacketEvent
    split
    · exact hok
    · exact hok
  | setSessionReader | markHungUp | peerHangUp | setPacketMode | setFgGroup | takeEofKey =>
    exact hok

/-! ## steps -/

section
variable {R W : Type} [DecidableEq R] [DecidableEq W] {s s' : TtyWorld R W}

omit [DecidableEq R] [DecidableEq W] in
@[simp] theorem TtyWorld.noteQueued_tty (s : TtyWorld R W) (used : Nat) :
    (s.noteQueued used).tty = s.tty := by
  unfold noteQueued
  split <;> rfl

omit [DecidableEq R] [DecidableEq W] in
theorem TtyWorld.noteQueued_fields (s : TtyWorld R W) (used : Nat) :
    (s.noteQueued used).holder = s.holder ∧ (s.noteQueued used).reader = s.reader ∧
      (s.noteQueued used).writer = s.writer := by
  unfold noteQueued
  split <;> exact ⟨rfl, rfl, rfl⟩

omit [DecidableEq W] in
theorem TtyWorld.turned_ok (hok : s.tty.Ok) (r : R) (size : Nat) {turn : ReadTurn}
    (h : ∀ out tty, turn = .returned out tty → tty.Ok) : (s.turned r size turn).tty.Ok := by
  cases turn with
  | returned out tty => exact h out tty rfl
  | waiting timed => exact hok

theorem announce_tty_ok (run : TtyInputRun) (hok : run.tty.Ok) : (announce run).tty.Ok := by
  unfold announce
  split
  · exact hok
  · exact hok

theorem inputEnd_ok {tty : Tty} (hok : tty.Ok) : (inputEnd tty).Ok := by
  unfold inputEnd
  split
  · exact hok
  · exact hok

theorem TtyStep.ok {e : TtyEvent R W} (h : TtyStep s e s') (hok : s.tty.Ok) : s'.tty.Ok := by
  cases h with
  | byte w hw hphase htaken =>
    rw [TtyWorld.noteQueued_tty]
    exact (@ttyInputByte_ok (s.run w) _ _ _ hok htaken).1
  | finish w hw hphase hend => exact inputEnd_ok hok
  | flush w hw hphase hfull hblocking hup => exact announce_tty_ok (s.run w) hok
  | carryOn w hw hphase => exact restStep_ok hok _
  | read r size nonblocking hfree hphase hsize =>
    exact TtyWorld.turned_ok hok r size fun out tty h => ttyReadTurn_ok hok h
  | readMore r hfree hphase =>
    exact TtyWorld.turned_ok hok r _ fun out tty h => ttyReadTurn_ok hok h
  | readTimedOut r hfree hphase => exact (ttyCopyRaw_ok hok _).1
  | call c hfree hside => exact TtyCall.apply_ok hok hside
  | enter | wait | letGo | retake | resume | timeout | wakeReader | wakeWriter | cancelReader
  | cancelWriter | forgetOwner => exact hok

theorem ttyCreate_ok (isMaster : Bool) : (Tty.ttyCreate isMaster).Ok :=
  TtyQueue.Ok.of_empty rfl rfl

theorem ttyWorld_ok {isMaster : Bool} {tr : List (TtyEvent R W)}
    (h : Run TtyStep (TtyWorld.start isMaster) tr s) : s.tty.Ok :=
  h.invariant (I := fun _ s => s.tty.Ok) (ttyCreate_ok isMaster)
    fun _ _ _ _ hok hstep => hstep.ok hok

/-- in every state that any interleaving reaches: the counters are in order, the queue has the
shape of its mode, and a byte refused in line mode leaves a line that a read is given -/
theorem ttyQueue_reachable {isMaster : Bool} {tr : List (TtyEvent R W)}
    (h : Run TtyStep (TtyWorld.start isMaster) tr s) :
    s.tty.queue.released ≤ s.tty.queue.used ∧ s.tty.queue.used ≤ ttyBufSize ∧
      (s.tty.ttyLineMode = true → s.tty.queue.LineShaped) ∧
      (s.tty.ttyLineMode = false → s.tty.queue.released = 0) ∧
      (s.tty.ttyLineMode = true → ∀ (c : Collected) (b : UInt8),
        ttyInputByte { c with tty := s.tty } b = none →
        0 < s.tty.queue.released ∧ ∀ size nonblocking, s.tty.ttyIsDown = false →
          ttyReadTurn s.tty size nonblocking = .copied (ttyCopyLine s.tty size)) := by
  have hok := ttyWorld_ok h
  refine ⟨hok.fits.released_le, hok.fits.used_le, hok.line, hok.raw, fun hline c b hrefused => ?_⟩
  have hrel : 0 < s.tty.queue.released := by
    unfold ttyInputByte at hrefused
    rw [if_pos (show s.tty.ttyLineMode = true from hline)] at hrefused
    exact (ttyInputLineByte_none hrefused).2
  refine ⟨hrel, fun size nonblocking hup => ?_⟩
  have hslave : s.tty.isMaster = false := by
    have := (Bool.and_eq_true_iff.mp hline).1
    rwa [Bool.not_eq_true'] at this
  unfold ttyReadTurn ttyReadSlaveTurn
  dsimp only
  rw [hslave, hup, hline, if_neg Bool.false_ne_true, if_neg Bool.false_ne_true, if_pos rfl,
    if_pos hrel]

end

/-- at a slave just made, the end of a line is typed -/
theorem ttyQueue_reachable_line : ∃ (tr : List (TtyEvent Unit Unit)) (s : TtyWorld Unit Unit),
    Run TtyStep (TtyWorld.start false) tr s ∧ s.tty.ttyLineMode = true ∧
      s.tty.queue.released = 1 ∧ s.tty.queue.released ≤ s.tty.queue.used ∧
      s.tty.queue.used ≤ ttyBufSize := by
  have hline : ttyInputByte { Collected.fresh with tty := .ttyCreate false } 10 =
      some (({ Collected.fresh with tty := Tty.ttyCreate false : TtyInputRun }.setTty
        ((Tty.ttyCreate false).setQueue (TtyQueue.empty.ttyQueuePush 10 .lineEnd))).ttyLineEnded,
        .done) := by
    rfl
  have henter := TtyStep.enter (s := TtyWorld.start (R := Unit) false) () [10] true rfl rfl
    (List.cons_ne_nil _ _)
  have hrun := (Run.start.next henter).next (TtyStep.byte () rfl rfl hline)
  exact ⟨_, _, hrun, rfl, rfl, (ttyQueue_reachable hrun).1, (ttyQueue_reachable hrun).2.1⟩

end Pscal.Terminal
