import Pscal.Tty.QueueSpec
import Pscal.Tty.Terminal

/-!
# What a byte does to a terminal

* `Tty.Ok`  the queue is as the mode asks for;
* `Tty.SameModes`  what no byte and no read changes;
* `ttyInputByte_ok`, `restStep_ok`, `ttyCopyLine_ok`, `ttyCopyRaw_ok`  the queue stays so;
* `ttyInputByte_refused`  a byte is refused in line mode only while a finished line is queued.
-/

namespace Pscal.Terminal

open Option

namespace Tty

variable (tty : Tty)

@[simp] theorem setQueue_queue (q : TtyQueue) : (tty.setQueue q).queue = q := rfl
@[simp] theorem setQueue_termios (q : TtyQueue) : (tty.setQueue q).termios = tty.termios := rfl
@[simp] theorem setQueue_ttyLineMode (q : TtyQueue) :
    (tty.setQueue q).ttyLineMode = tty.ttyLineMode := rfl
@[simp] theorem setLiteralNext_queue (b : Bool) : (tty.setLiteralNext b).queue = tty.queue := rfl
@[simp] theorem broadcastReadable_queue : tty.broadcastReadable.queue = tty.queue := rfl
@[simp] theorem broadcastWritable_queue : tty.broadcastWritable.queue = tty.queue := rfl
@[simp] theorem ttyQueueClear_queue : tty.ttyQueueClear.queue = tty.queue.clear := rfl

def Ok : Prop := tty.queue.Ok tty.ttyLineMode

variable {tty}

theorem Ok.of_line (h : tty.Ok) (hline : tty.ttyLineMode = true) : tty.queue.Ok true :=
  hline ▸ h

theorem Ok.setQueue {q : TtyQueue} (h : q.Ok tty.ttyLineMode) : (tty.setQueue q).Ok := h

/-- what no byte and no read changes -/
def modes (tty : Tty) : Tty :=
  { tty with
    literalNext := false
    eofReads := 0
    readable := false
    writable := false
    queue := .empty }

def SameModes (tty tty' : Tty) : Prop := tty'.modes = tty.modes

namespace SameModes

variable {tty' : Tty} (h : SameModes tty tty')
include h

theorem isMaster : tty'.isMaster = tty.isMaster :=
  show tty'.modes.isMaster = tty.modes.isMaster from congrArg Tty.isMaster h

theorem termios : tty'.termios = tty.termios :=
  show tty'.modes.termios = tty.modes.termios from congrArg Tty.termios h

theorem sessionReader : tty'.sessionReader = tty.sessionReader :=
  show tty'.modes.sessionReader = tty.modes.sessionReader from congrArg Tty.sessionReader h

theorem hungUp : tty'.hungUp = tty.hungUp :=
  show tty'.modes.hungUp = tty.modes.hungUp from congrArg Tty.hungUp h

theorem packetMode : tty'.packetMode = tty.packetMode :=
  show tty'.modes.packetMode = tty.modes.packetMode from congrArg Tty.packetMode h

theorem lineMode : tty'.ttyLineMode = tty.ttyLineMode :=
  show tty'.modes.ttyLineMode = tty.modes.ttyLineMode from congrArg Tty.ttyLineMode h

theorem down : tty'.ttyIsDown = tty.ttyIsDown :=
  show tty'.modes.ttyIsDown = tty.modes.ttyIsDown from congrArg Tty.ttyIsDown h

end SameModes

end Tty

/-! ## plain bytes -/

variable {q : TtyQueue} {run' : TtyInputRun} {tty tty' : Tty}

theorem pushDoubled_ok {t : Termios} {lineMode : Bool} (h : q.Ok lineMode)
    (hroom : q.used < ttyBufSize) (byte : UInt8) {room : TtyQueue → Bool}
    (hsound : ∀ q', room q' = true → q'.used < ttyBufSize) :
    (pushDoubled t q byte room).Ok lineMode := by
  have hone := h.pushByte hroom byte
  show (if _ then _ else _ : TtyQueue).Ok lineMode
  split
  · next hcond => exact hone.pushByte (hsound _ (Bool.and_eq_true_iff.mp hcond).2) byte
  · exact hone

/-- the three ways of a plain byte -/
theorem ttyInputPlainByte_cases (run : TtyInputRun) (byte : UInt8) :
    (ttyBufSize ≤ run.tty.queue.used + 1 ∧ run.tty.queue.released = 0 ∧
      ttyInputPlainByte run byte = some run) ∨
    (run.tty.queue.used = ttyBufSize ∧ 0 < run.tty.queue.released ∧
      ttyInputPlainByte run byte = none) ∨
    (run.tty.queue.used ≠ ttyBufSize ∧
      (run.tty.queue.released = 0 → run.tty.queue.used + 1 < ttyBufSize) ∧
      ttyInputPlainByte run byte = some (run.setTty (run.tty.setQueue
        (pushDoubled run.tty.termios run.tty.queue byte
          fun q => decide (q.used + 1 < ttyBufSize))))) := by
  unfold ttyInputPlainByte
  generalize run.tty.queue = q
  by_cases hroom : ttyBufSize ≤ q.used + 1
  · by_cases hrel : q.released = 0
    · exact .inl ⟨hroom, hrel, by simp [hroom, hrel]⟩
    · by_cases hfull : q.used = ttyBufSize
      · exact .inr (.inl ⟨hfull, by omega, by simp [hrel, hfull]⟩)
      · exact .inr (.inr ⟨hfull, fun h => absurd h hrel, by simp [hrel, hfull]⟩)
  · exact .inr (.inr ⟨by omega, fun _ => by omega, by simp [hroom]⟩)

variable {byte : UInt8} {run : TtyInputRun} {rest : Rest}

theorem ttyInputPlainByte_modes (h : ttyInputPlainByte run byte = some run') :
    run.tty.SameModes run'.tty := by
  rcases ttyInputPlainByte_cases run byte with ⟨-, -, h'⟩ | ⟨-, -, h'⟩ | ⟨-, -, h'⟩
  · obtain rfl := some_inj.mp (h'.symm.trans h)
    rfl
  · cases h'.symm.trans h
  · obtain rfl := some_inj.mp (h'.symm.trans h)
    rfl

theorem ttyInputPlainByte_ok (hok : run.tty.Ok) (h : ttyInputPlainByte run byte = some run') :
    run'.tty.Ok := by
  rcases ttyInputPlainByte_cases run byte with ⟨-, -, h'⟩ | ⟨-, -, h'⟩ | ⟨hfull, -, h'⟩
  · obtain rfl := some_inj.mp (h'.symm.trans h)
    exact hok
  · rw [h'] at h
    cases h
  · obtain rfl := some_inj.mp (h'.symm.trans h)
    have hle := TtyQueue.Ok.fits hok |>.used_le
    exact Tty.Ok.setQueue (pushDoubled_ok hok (by omega) byte fun q' hq' => by
      have := decide_eq_true_iff.mp hq'
      omega)

/-! ## finished lines -/

theorem lineEnd_ne_byte : CellKind.lineEnd ≠ .byte := fun h => nomatch h

theorem eofMark_ne_byte : CellKind.eofMark ≠ .byte := fun h => nomatch h

theorem ttyMakeRoomForLineEnd_cases (tty : Tty) :
    (tty.queue.used < ttyBufSize ∧ ttyMakeRoomForLineEnd tty = some tty) ∨
    (ttyBufSize ≤ tty.queue.used ∧ 0 < tty.queue.released ∧ ttyMakeRoomForLineEnd tty = none) ∨
    (ttyBufSize ≤ tty.queue.used ∧ tty.queue.released = 0 ∧
      ttyMakeRoomForLineEnd tty = some (tty.setQueue tty.queue.ttyQueueDropLast)) := by
  unfold ttyMakeRoomForLineEnd
  by_cases hroom : tty.queue.used < ttyBufSize
  · exact .inl ⟨hroom, if_pos hroom⟩
  · rw [if_neg hroom]
    by_cases hrel : 0 < tty.queue.released
    · exact .inr (.inl ⟨by omega, hrel, if_pos hrel⟩)
    · exact .inr (.inr ⟨by omega, by omega, if_neg hrel⟩)

theorem ttyMakeRoomForLineEnd_ok (hok : tty.Ok) (h : ttyMakeRoomForLineEnd tty = some tty') :
    tty'.Ok ∧ tty'.queue.used < ttyBufSize ∧ tty' = tty.setQueue tty'.queue := by
  have hle := TtyQueue.Ok.fits hok |>.used_le
  rcases ttyMakeRoomForLineEnd_cases tty with ⟨hroom, h'⟩ | ⟨-, -, h'⟩ | ⟨hfull, hrel, h'⟩
  · obtain rfl := some_inj.mp (h'.symm.trans h)
    exact ⟨hok, hroom, rfl⟩
  · rw [h'] at h
    cases h
  · obtain rfl := some_inj.mp (h'.symm.trans h)
    have hpos : 0 < ttyBufSize := by decide
    refine ⟨Tty.Ok.setQueue (TtyQueue.Ok.drop hok (by omega)), ?_, rfl⟩
    show tty.queue.used - 1 < ttyBufSize
    omega

theorem ttyInputLineEnd_ok {kind : CellKind} (hok : run.tty.Ok) (hline : run.tty.ttyLineMode = true)
    (hkind : kind ≠ .byte) (h : ttyInputLineEnd run byte kind = some run') :
    run'.tty.Ok ∧ run.tty.SameModes run'.tty := by
  obtain ⟨tty, hroom, rfl⟩ := map_eq_some_iff.mp h
  obtain ⟨hok', hlt, htty⟩ := ttyMakeRoomForLineEnd_ok hok hroom
  have hline' : tty.ttyLineMode = true := by rw [htty]; exact hline
  refine ⟨?_, ?_⟩
  · show TtyQueue.Ok (tty.queue.ttyQueuePush byte kind) tty.ttyLineMode
    rw [hline']
    exact (hok'.of_line hline').pushEnd hlt byte hkind
  · rw [htty]
    rfl

theorem ttyInputLineEnd_none {kind : CellKind} (h : ttyInputLineEnd run byte kind = none) :
    ttyBufSize ≤ run.tty.queue.used ∧ 0 < run.tty.queue.released := by
  have h := map_eq_none_iff.mp h
  rcases ttyMakeRoomForLineEnd_cases run.tty with ⟨-, h'⟩ | ⟨hfull, hrel, -⟩ | ⟨-, -, h'⟩
  · cases h'.symm.trans h
  · exact ⟨hfull, hrel⟩
  · cases h'.symm.trans h

/-! ## erasing -/

theorem lastCharLoop_le (tty : Tty) (left size : Nat) (byte : UInt8) :
    (lastCharLoop tty left size byte).1 ≤ size + left := by
  induction left generalizing size byte with
  | zero => exact Nat.le_refl _
  | succ left ih =>
    rw [lastCharLoop]
    split
    · exact Nat.le_trans (ih _ _) (by omega)
    · exact Nat.le_add_right _ _

theorem le_lastCharLoop (tty : Tty) (left size : Nat) (byte : UInt8) :
    size ≤ (lastCharLoop tty left size byte).1 := by
  induction left generalizing size byte with
  | zero => exact Nat.le_refl _
  | succ left ih =>
    rw [lastCharLoop]
    split
    · exact Nat.le_trans (Nat.le_succ _) (ih _ _)
    · exact Nat.le_refl _

theorem ttyLastCharSize_le (h : tty.queue.ttyQueueHasUnfinished = true) :
    1 ≤ (ttyLastCharSize tty).1 ∧
      (ttyLastCharSize tty).1 ≤ tty.queue.used - tty.queue.released := by
  have hlt := tty.queue.hasUnfinished_iff.mp h
  refine ⟨le_lastCharLoop _ _ _ _, Nat.le_trans (lastCharLoop_le _ _ _ _) (by omega)⟩

theorem ttyEraseChar_ok (hok : tty.Ok) (h : tty.queue.ttyQueueHasUnfinished = true) :
    (ttyEraseChar tty).Ok :=
  Tty.Ok.setQueue (TtyQueue.Ok.drop hok (ttyLastCharSize_le h).2)

theorem restStep_ok (hok : tty.Ok) (rest : Rest) : (restStep tty rest).1.Ok := by
  cases rest with
  | done => exact hok
  | killing =>
    rw [restStep]
    split
    · next h => exact ttyEraseChar_ok hok h
    · exact hok
  | wordErasing inWord =>
    rw [restStep]
    split
    · next h =>
      split
      · exact ttyEraseChar_ok hok h
      · split
        · exact hok
        · exact ttyEraseChar_ok hok h
    · exact hok
  | literalTaken => exact hok

theorem restStep_modes (tty : Tty) (rest : Rest) : tty.SameModes (restStep tty rest).1 := by
  cases rest with
  | done => exact rfl
  | killing =>
    rw [restStep]
    split <;> exact rfl
  | wordErasing inWord =>
    rw [restStep]
    split
    · split
      · exact rfl
      · split <;> exact rfl
    · exact rfl
  | literalTaken => exact rfl

theorem ttyInputEditingKey_cases (h : ttyInputEditingKey tty byte = some (tty', rest)) :
    tty' = tty ∨ tty' = tty.setLiteralNext true ∨
      (tty.queue.ttyQueueHasUnfinished = true ∧ ∃ size, 1 ≤ size ∧
        size ≤ tty.queue.used - tty.queue.released ∧ tty' = tty.setQueue (tty.queue.drop size)) := by
  unfold ttyInputEditingKey at h
  dsimp only at h
  split at h
  · obtain ⟨rfl, -⟩ := Prod.mk.inj (some_inj.mp h)
    unfold ttyInputEraseKey
    split
    · next hun => exact .inr (.inr ⟨hun, _, (ttyLastCharSize_le hun).1, (ttyLastCharSize_le hun).2, rfl⟩)
    · exact .inl rfl
  split at h
  · have h := some_inj.mp h
    unfold ttyInputKillKey at h
    split at h
    · exact .inl (Prod.mk.inj h).1.symm
    · next hun =>
      dsimp only at h
      split at h
      · exact .inl (Prod.mk.inj h).1.symm
      · rw [Bool.not_eq_true, Bool.not_eq_false'] at hun
        have hlt := tty.queue.hasUnfinished_iff.mp hun
        exact .inr (.inr ⟨hun, _, by omega, Nat.le_refl _, (Prod.mk.inj h).1.symm⟩)
  split at h
  · exact .inl (Prod.mk.inj (some_inj.mp h)).1.symm
  split at h
  · exact .inl (Prod.mk.inj (some_inj.mp h)).1.symm
  split at h
  · exact .inr (.inl (Prod.mk.inj (some_inj.mp h)).1.symm)
  · cases h

theorem ttyInputEditingKey_ok (hok : tty.Ok) (h : ttyInputEditingKey tty byte = some (tty', rest)) :
    tty'.Ok ∧ tty.SameModes tty' := by
  rcases ttyInputEditingKey_cases h with rfl | rfl | ⟨-, size, -, hsize, rfl⟩
  · exact ⟨hok, rfl⟩
  · exact ⟨hok, rfl⟩
  · exact ⟨Tty.Ok.setQueue (TtyQueue.Ok.drop hok hsize), rfl⟩

/-! ## keys that clear the queue -/

theorem ttyQueueClear_ok (tty : Tty) : tty.ttyQueueClear.Ok := TtyQueue.Ok.clear

theorem ttySignalKey_tty (run : TtyInputRun) (signalIndex : UInt32) :
    (ttySignalKey run signalIndex).tty = run.tty ∨
      (ttySignalKey run signalIndex).tty = run.tty.ttyQueueClear := by
  unfold ttySignalKey
  split
  · exact .inl rfl
  · dsimp only
    split
    · exact .inl rfl
    · exact .inr rfl

theorem ttySignalKey_ok (hok : run.tty.Ok) (signalIndex : UInt32) :
    (ttySignalKey run signalIndex).tty.Ok ∧
      run.tty.SameModes (ttySignalKey run signalIndex).tty := by
  rcases ttySignalKey_tty run signalIndex with h | h
  · rw [h]
    exact ⟨hok, rfl⟩
  · rw [h]
    exact ⟨ttyQueueClear_ok _, rfl⟩

/-! ## a byte -/

theorem ttyInputReaderKey_ok (hok : run.tty.Ok) (hline : run.tty.ttyLineMode = true)
    (h : ttyInputReaderKey run byte = some run') : run'.tty.Ok ∧ run.tty.SameModes run'.tty := by
  unfold ttyInputReaderKey at h
  dsimp only at h
  split at h
  · exact ttyInputLineEnd_ok hok hline lineEnd_ne_byte h
  · have hclear : (run.setTty run.tty.ttyQueueClear).tty.Ok := ttyQueueClear_ok run.tty
    have hend := ttyInputLineEnd_ok hclear hline lineEnd_ne_byte h
    exact hend

theorem ttyInputOtherByte_ok (hok : run.tty.Ok) (hline : run.tty.ttyLineMode = true)
    (h : ttyInputOtherByte run byte = some run') : run'.tty.Ok ∧ run.tty.SameModes run'.tty := by
  unfold ttyInputOtherByte at h
  dsimp only at h
  split at h
  · exact ttyInputLineEnd_ok hok hline eofMark_ne_byte h
  split at h
  · exact ttyInputLineEnd_ok hok hline lineEnd_ne_byte h
  split at h
  · exact ttyInputReaderKey_ok hok hline h
  split at h
  · rw [← some_inj.mp h]
    exact ttySignalKey_ok hok _
  · exact ⟨ttyInputPlainByte_ok hok h, ttyInputPlainByte_modes h⟩

theorem ttyInputLineByte_ok (hok : run.tty.Ok) (hline : run.tty.ttyLineMode = true)
    (h : ttyInputLineByte run byte = some (run', rest)) :
    run'.tty.Ok ∧ run.tty.SameModes run'.tty := by
  unfold ttyInputLineByte at h
  dsimp only at h
  split at h
  · obtain ⟨run'', hplain, heq⟩ := map_eq_some_iff.mp h
    obtain ⟨rfl, -⟩ := Prod.mk.inj heq
    exact ⟨ttyInputPlainByte_ok hok hplain, ttyInputPlainByte_modes hplain⟩
  split at h
  · obtain ⟨rfl, -⟩ := Prod.mk.inj (some_inj.mp h)
    exact ⟨hok, rfl⟩
  split at h
  · next hkey =>
    obtain ⟨rfl, -⟩ := Prod.mk.inj (some_inj.mp h)
    exact ttyInputEditingKey_ok hok hkey
  · obtain ⟨run'', hother, heq⟩ := map_eq_some_iff.mp h
    obtain ⟨rfl, -⟩ := Prod.mk.inj heq
    exact ttyInputOtherByte_ok hok hline hother

theorem ttyInputRawByte_ok (hok : run.tty.Ok) (h : ttyInputRawByte run byte = some run') :
    run'.tty.Ok ∧ run.tty.SameModes run'.tty := by
  have hle := TtyQueue.Ok.fits hok |>.used_le
  unfold ttyInputRawByte at h
  dsimp only at h
  split at h
  · rw [← some_inj.mp h]
    exact ttySignalKey_ok hok _
  split at h
  · cases h
  · next hfull =>
    rw [← some_inj.mp h]
    have hpush : (pushDoubled run.tty.termios run.tty.queue (ttyInputMapped run.tty.termios byte)
        fun q => decide (q.used < ttyBufSize)).Ok run.tty.ttyLineMode :=
      pushDoubled_ok hok (by omega) _ fun q' => decide_eq_true_iff.mp
    by_cases hused : run.tty.queue.used = 0
    · rw [if_pos hused]
      exact ⟨hpush, rfl⟩
    · rw [if_neg hused]
      exact ⟨hpush, rfl⟩

theorem ttyInputByte_ok {run run' : TtyInputRun} {byte : UInt8} {rest : Rest} (hok : run.tty.Ok)
    (h : ttyInputByte run byte = some (run', rest)) : run'.tty.Ok ∧ run.tty.SameModes run'.tty := by
  unfold ttyInputByte at h
  split at h
  · next hline => exact ttyInputLineByte_ok hok hline h
  · obtain ⟨run'', hraw, heq⟩ := map_eq_some_iff.mp h
    obtain ⟨rfl, -⟩ := Prod.mk.inj heq
    exact ttyInputRawByte_ok hok hraw

/-! ## refusals -/

theorem ttyInputPlainByte_none (h : ttyInputPlainByte run byte = none) :
    run.tty.queue.used = ttyBufSize ∧ 0 < run.tty.queue.released := by
  rcases ttyInputPlainByte_cases run byte with ⟨-, -, h'⟩ | ⟨hfull, hrel, -⟩ | ⟨-, -, h'⟩
  · cases h'.symm.trans h
  · exact ⟨hfull, hrel⟩
  · cases h'.symm.trans h

theorem ttyInputOtherByte_none (h : ttyInputOtherByte run byte = none) :
    ttyBufSize ≤ run.tty.queue.used ∧ 0 < run.tty.queue.released := by
  unfold ttyInputOtherByte at h
  dsimp only at h
  split at h
  · exact ttyInputLineEnd_none h
  split at h
  · exact ttyInputLineEnd_none h
  split at h
  · unfold ttyInputReaderKey at h
    dsimp only at h
    split at h
    · exact ttyInputLineEnd_none h
    · exact absurd (ttyInputLineEnd_none h).2 (Nat.lt_irrefl 0)
  split at h
  · cases h
  · have := ttyInputPlainByte_none h
    exact ⟨by omega, this.2⟩

theorem ttyInputLineByte_none (h : ttyInputLineByte run byte = none) :
    ttyBufSize ≤ run.tty.queue.used ∧ 0 < run.tty.queue.released := by
  unfold ttyInputLineByte at h
  dsimp only at h
  split at h
  · have := ttyInputPlainByte_none (map_eq_none_iff.mp h)
    exact ⟨by omega, this.2⟩
  split at h
  · cases h
  split at h
  · cases h
  · exact ttyInputOtherByte_none (map_eq_none_iff.mp h)

/-! ## reads -/

theorem copyLineLoop_ok {lineMode : Bool} (size : Nat) (h : q.Ok lineMode) :
    (copyLineLoop size q).2.2.Ok lineMode := by
  induction size generalizing q with
  | zero => exact h
  | succ size ih =>
    rw [copyLineLoop]
    split
    · next hcond =>
      have hpop := h.pop (decide_eq_true_iff.mp (Bool.and_eq_true_iff.mp hcond).1)
      dsimp only
      split
      · exact hpop
      · exact ih hpop
    · exact h

theorem copyRawLoop_ok {lineMode : Bool} (size : Nat) (h : q.Ok lineMode) :
    (copyRawLoop size q).2.Ok lineMode := by
  induction size generalizing q with
  | zero => exact h
  | succ size ih =>
    rw [copyRawLoop]
    split
    · next hpos => exact ih (h.pop hpos)
    · exact h

theorem ttyCopyLine_ok (hok : tty.Ok) (size : Nat) :
    (ttyCopyLine tty size).2.Ok ∧ tty.SameModes (ttyCopyLine tty size).2 := by
  have hq : (copyLineLoop size tty.queue).2.2.Ok tty.ttyLineMode := copyLineLoop_ok size hok
  unfold ttyCopyLine
  generalize copyLineLoop size tty.queue = copied at hq
  obtain ⟨out, ended, q⟩ := copied
  dsimp only at hq ⊢
  have hmark : (if (q.ttyQueueHeadIsMark && !ended) = true then q.ttyQueuePop else q).Ok
      tty.ttyLineMode := by
    split
    · next hcond =>
      have hhead := (Bool.and_eq_true_iff.mp hcond).1
      exact hq.pop (decide_eq_true_iff.mp (Bool.and_eq_true_iff.mp hhead).1)
    · exact hq
  by_cases hout : out = []
  · rw [if_pos hout]
    exact ⟨hmark, rfl⟩
  · rw [if_neg hout]
    exact ⟨hmark, rfl⟩

theorem ttyCopyRaw_ok (hok : tty.Ok) (size : Nat) :
    (ttyCopyRaw tty size).2.Ok ∧ tty.SameModes (ttyCopyRaw tty size).2 := by
  have hq : (copyRawLoop size tty.queue).2.Ok tty.ttyLineMode := copyRawLoop_ok size hok
  unfold ttyCopyRaw
  dsimp only
  split
  · exact ⟨hq, rfl⟩
  · exact ⟨hq, rfl⟩

end Pscal.Terminal
