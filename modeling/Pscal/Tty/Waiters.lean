import Pscal.Tty.LineKeys
import Pscal.Tty.ThreadsSpec

/-!
# What the threads at a terminal wait for

* `Tty.Waits`, `waits_iff`  a read that looks has to wait: nothing but bytes could end it, and there
  are too few;
* `Tty.Refuses`, `refuses_iff`  a byte that is tried has to wait: the queue is full, and it takes
  room;
* `ttyInputByte_readers`, `ttyInputByte_writers`  what a byte does to either.
-/

namespace Pscal.Terminal

open Option

namespace Tty

variable (tty : Tty)

/-- a read of `size` bytes that looks at the terminal has to wait -/
def Waits (size : Nat) : Prop := ∃ timed, ttyReadTurn tty size false = .waiting timed

def Refuses (byte : UInt8) : Prop :=
  ttyInputByte { Collected.fresh with tty := tty } byte = none

structure Quiet : Prop where
  up : tty.ttyIsDown = false
  packet : tty.isMaster = true → (tty.packetMode && tty.packetStatus != 0) = false
  timer : tty.isMaster = false → tty.ttyLineMode = false → (tty.termios.cc .vmin).toNat = 0 →
    (tty.termios.cc .vtime).toNat ≠ 0

def Starved (size : Nat) : Prop :=
  if tty.isMaster then tty.queue.used = 0
  else if tty.ttyLineMode then tty.queue.released = 0
  else if (tty.termios.cc .vmin).toNat = 0 then tty.queue.used = 0
  else tty.queue.used < min (tty.termios.cc .vmin).toNat size

/-- a byte that takes room finds none, and in line mode there is something to read -/
def Full : Prop :=
  tty.queue.used = ttyBufSize ∧ (tty.ttyLineMode = true → 0 < tty.queue.released)

/-- the bytes that have to be put into the queue, or that finish what is in it -/
def needsRoom (byte : UInt8) : Bool :=
  if tty.ttyLineMode then
    match tty.key byte with
    | .eof | .lineEnd _ | .plain _ => true
    | .readerKey _ => tty.termios.hasL Flag.noflsh
    | _ => false
  else
    (if !tty.isMaster && tty.termios.hasL Flag.isig then
      ttyKeySignalIndex tty.termios (ttyInputMapped tty.termios byte) else none).isNone

end Tty

open Tty

section
variable {tty tty' : Tty} {size : Nat}

/-! ## readers -/

theorem waiting_spec {nonblocking timed : Bool}
    (h : ttyReadTurn tty size nonblocking = .waiting timed) : tty.Quiet ∧ tty.Starved size := by
  unfold ttyReadTurn at h
  unfold Starved
  split at h
  · next hmaster =>
    rw [if_pos hmaster]
    unfold ttyReadMasterTurn at h
    split at h
    · cases h
    next hup =>
    split at h
    · cases h
    next hpacket =>
    split at h
    · split at h
      · cases h
      · dsimp only at h
        split at h <;> cases h
    next hused =>
    rw [Bool.not_eq_true] at hup hpacket
    exact ⟨⟨hup, fun _ => hpacket, fun hslave => by rw [hmaster] at hslave; cases hslave⟩, by omega⟩
  · next hslave =>
    rw [Bool.not_eq_true] at hslave
    have hpacket : tty.isMaster = true → (tty.packetMode && tty.packetStatus != 0) = false :=
      fun hmaster => by rw [hmaster] at hslave; cases hslave
    rw [hslave, if_neg Bool.false_ne_true]
    unfold ttyReadSlaveTurn at h
    dsimp only at h
    split at h
    · cases h
    next hup =>
    rw [Bool.not_eq_true] at hup
    split at h
    · next hline =>
      rw [if_pos hline]
      split at h
      · cases h
      next hrel =>
      exact ⟨⟨hup, hpacket, fun _ hraw => by rw [hline] at hraw; cases hraw⟩, by omega⟩
    next hraw =>
    rw [if_neg hraw]
    split at h
    · next hmin =>
      rw [if_pos hmin]
      split at h
      · cases h
      next hused =>
      split at h
      · cases h
      next htenths => exact ⟨⟨hup, hpacket, fun _ _ _ => htenths⟩, by omega⟩
    next hmin =>
    rw [if_neg hmin]
    split at h
    · cases h
    next hused => exact ⟨⟨hup, hpacket, fun _ _ hzero => absurd hzero hmin⟩, by omega⟩

theorem Tty.Waits.of_quiet (hquiet : tty.Quiet) (h : tty.Starved size) : tty.Waits size := by
  unfold Waits ttyReadTurn
  unfold Starved at h
  split
  · next hmaster =>
    rw [if_pos hmaster] at h
    refine ⟨false, ?_⟩
    rw [ttyReadMasterTurn, hquiet.up, hquiet.packet hmaster, h]
    rfl
  · next hslave =>
    rw [Bool.not_eq_true] at hslave
    rw [hslave, if_neg Bool.false_ne_true] at h
    unfold ttyReadSlaveTurn
    dsimp only
    rw [hquiet.up, if_neg Bool.false_ne_true]
    split
    · next hline =>
      rw [if_pos hline] at h
      rw [h]
      exact ⟨false, rfl⟩
    next hraw =>
    rw [if_neg hraw] at h
    split
    · next hmin =>
      rw [if_pos hmin] at h
      rw [h, if_neg (Nat.lt_irrefl 0),
        if_neg (hquiet.timer hslave (by rwa [Bool.not_eq_true] at hraw) hmin)]
      exact ⟨true, rfl⟩
    next hmin =>
    rw [if_neg hmin] at h
    rw [if_neg (by omega), Bool.false_and, if_neg Bool.false_ne_true]
    exact ⟨_, rfl⟩

theorem waits_iff : tty.Waits size ↔ tty.Quiet ∧ tty.Starved size :=
  ⟨fun ⟨_, h⟩ => waiting_spec h, fun ⟨hquiet, h⟩ => .of_quiet hquiet h⟩

theorem Tty.Starved.mono (hmaster : tty'.isMaster = tty.isMaster)
    (hline : tty'.ttyLineMode = tty.ttyLineMode)
    (hmin : tty'.termios.cc .vmin = tty.termios.cc .vmin) (hused : tty'.queue.used ≤ tty.queue.used)
    (hreleased : tty'.queue.released ≤ tty.queue.released) (h : tty.Starved size) :
    tty'.Starved size := by
  unfold Starved at h ⊢
  rw [hmaster, hline, hmin]
  split
  · next h' =>
    rw [if_pos h'] at h
    omega
  next h' =>
  rw [if_neg h'] at h
  split
  · next h' =>
    rw [if_pos h'] at h
    omega
  next h' =>
  rw [if_neg h'] at h
  split
  · next h' =>
    rw [if_pos h'] at h
    omega
  next h' =>
  rw [if_neg h'] at h
  omega

theorem Tty.Starved.of_empty (hsize : 0 < size) (hused : tty.queue.used = 0)
    (hreleased : tty.queue.released = 0) : tty.Starved size := by
  unfold Starved
  split
  · exact hused
  split
  · exact hreleased
  split
  · exact hused
  · rw [hused]
    omega

theorem Tty.Starved.of_line (hline : tty.ttyLineMode = true) :
    tty.Starved size ↔ tty.queue.released = 0 := by
  have hslave : tty.isMaster = false := by
    have := (Bool.and_eq_true_iff.mp hline).1
    rwa [Bool.not_eq_true'] at this
  unfold Starved
  rw [hslave, hline, if_neg Bool.false_ne_true, if_pos rfl]

theorem Tty.SameModes.quiet (h : tty.SameModes tty') (hquiet : tty.Quiet) : tty'.Quiet := by
  have hstatus : tty'.packetStatus = tty.packetStatus :=
    show tty'.modes.packetStatus = tty.modes.packetStatus from congrArg Tty.packetStatus h
  refine ⟨h.down.trans hquiet.up, ?_, ?_⟩
  · rw [h.isMaster, h.packetMode, hstatus]
    exact hquiet.packet
  · rw [h.isMaster, h.lineMode, h.termios]
    exact hquiet.timer

/-! ## writers -/

theorem ttyInputPlainByte_none_iff (run : TtyInputRun) (byte : UInt8) :
    ttyInputPlainByte run byte = none ↔
      run.tty.queue.used = ttyBufSize ∧ 0 < run.tty.queue.released := by
  refine ⟨ttyInputPlainByte_none, fun ⟨hfull, hrel⟩ => ?_⟩
  rcases ttyInputPlainByte_cases run byte with ⟨-, hrel', -⟩ | ⟨-, -, h⟩ | ⟨hfull', -, -⟩
  · omega
  · exact h
  · exact absurd hfull hfull'

theorem ttyInputLineEnd_none_iff (run : TtyInputRun) (byte : UInt8) (kind : CellKind) :
    ttyInputLineEnd run byte kind = none ↔
      ttyBufSize ≤ run.tty.queue.used ∧ 0 < run.tty.queue.released := by
  refine ⟨ttyInputLineEnd_none, fun ⟨hfull, hrel⟩ => ?_⟩
  rw [ttyInputLineEnd, ttyMakeRoomForLineEnd, if_neg (by omega), if_pos hrel]
  rfl

theorem refuses_iff (hok : tty.Ok) (c : Collected) (byte : UInt8) :
    ttyInputByte { c with tty := tty } byte = none ↔ tty.Full ∧ tty.needsRoom byte = true := by
  have hle := TtyQueue.Ok.fits hok |>.used_le
  have hfull : tty.ttyLineMode = true → (tty.Full ↔
      ttyBufSize ≤ tty.queue.used ∧ 0 < tty.queue.released) := fun hline =>
    ⟨fun h => ⟨by have := h.1; omega, h.2 hline⟩, fun h => ⟨by omega, fun _ => h.2⟩⟩
  unfold ttyInputByte needsRoom
  by_cases hline : tty.ttyLineMode = true
  · rw [if_pos (show ({ c with tty := tty } : TtyInputRun).tty.ttyLineMode = true from hline),
      if_pos hline, ttyInputLineByte_eq, hfull hline]
    show pressKey { c with tty := tty } (tty.key byte) = none ↔ _
    cases tty.key byte with
    | nothing | erase | kill | wordErase | literalNext | signal =>
      refine ⟨fun h => (by cases h), fun h => (by cases h.2)⟩
    | eof | lineEnd b =>
      rw [pressKey, map_eq_none_iff, ttyInputLineEnd_none_iff]
      exact (and_iff_left rfl).symm
    | plain b =>
      rw [pressKey, map_eq_none_iff, ttyInputPlainByte_none_iff]
      refine ⟨fun h => ⟨⟨by have := h.1; exact Nat.le_of_eq this.symm, h.2⟩, rfl⟩,
        fun h => ⟨by have := h.1.1; show tty.queue.used = ttyBufSize; omega, h.1.2⟩⟩
    | readerKey b =>
      rw [pressKey, map_eq_none_iff, ttyInputReaderKey]
      dsimp only
      cases tty.termios.hasL Flag.noflsh with
      | true =>
        rw [if_pos rfl, ttyInputLineEnd_none_iff]
        exact (and_iff_left rfl).symm
      | false =>
        rw [if_neg Bool.false_ne_true, ttyInputLineEnd_none_iff]
        exact ⟨fun h => absurd h.2 (Nat.lt_irrefl 0), fun h => by cases h.2⟩
  · rw [if_neg (show ¬ ({ c with tty := tty } : TtyInputRun).tty.ttyLineMode = true from hline),
      if_neg hline, map_eq_none_iff, ttyInputRawByte]
    dsimp only
    have hfull' : tty.Full ↔ tty.queue.used = ttyBufSize :=
      ⟨fun h => h.1, fun h => ⟨h, fun h' => absurd h' hline⟩⟩
    rw [hfull']
    generalize (if (!tty.isMaster && tty.termios.hasL Flag.isig) = true then
      ttyKeySignalIndex tty.termios (ttyInputMapped tty.termios byte) else none) = signalKey
    cases signalKey with
    | some signalIndex => exact ⟨fun h => (by cases h), fun h => (by cases h.2)⟩
    | none =>
      dsimp only
      split
      · next h => exact ⟨fun _ => ⟨h, rfl⟩, fun _ => rfl⟩
      · next h => exact ⟨fun h' => (by cases h'), fun h' => absurd h'.1 h⟩

/-! ## what a byte does to them -/

theorem ttyInputLineEnd_readable {run run' : TtyInputRun} {byte : UInt8} {kind : CellKind}
    (h : ttyInputLineEnd run byte kind = some run') : run'.tty.readable = true := by
  obtain ⟨tty, -, rfl⟩ := map_eq_some_iff.mp h
  rfl

theorem pushDoubled_released (t : Termios) (q : TtyQueue) (byte : UInt8) (room : TtyQueue → Bool) :
    (pushDoubled t q byte room).released = q.released := by
  show (if _ then _ else _ : TtyQueue).released = _
  split <;> rfl

theorem ttyInputLineByte_readers {run run' : TtyInputRun} {byte : UInt8} {rest : Rest}
    (h : ttyInputLineByte run byte = some (run', rest)) :
    run'.tty.readable = true ∨ run'.tty.queue.released ≤ run.tty.queue.released := by
  rw [ttyInputLineByte_eq] at h
  cases hkey : run.tty.key byte with
  | nothing | wordErase | literalNext =>
    rw [hkey] at h
    obtain ⟨rfl, -⟩ := Prod.mk.inj (some_inj.mp h)
    exact .inr (Nat.le_refl _)
  | erase =>
    rw [hkey] at h
    obtain ⟨rfl, -⟩ := Prod.mk.inj (some_inj.mp h)
    refine .inr ?_
    show (ttyInputEraseKey run.tty).queue.released ≤ _
    unfold ttyInputEraseKey
    split <;> exact Nat.le_refl _
  | kill =>
    rw [hkey] at h
    obtain ⟨rfl, -⟩ := Prod.mk.inj (some_inj.mp h)
    refine .inr ?_
    show (ttyInputKillKey run.tty).1.queue.released ≤ _
    unfold ttyInputKillKey
    split
    · exact Nat.le_refl _
    · dsimp only
      split <;> exact Nat.le_refl _
  | eof | lineEnd b =>
    rw [hkey] at h
    obtain ⟨run'', hend, heq⟩ := map_eq_some_iff.mp h
    obtain ⟨rfl, -⟩ := Prod.mk.inj heq
    exact .inl (ttyInputLineEnd_readable hend)
  | readerKey b =>
    rw [hkey] at h
    obtain ⟨run'', hend, heq⟩ := map_eq_some_iff.mp h
    obtain ⟨rfl, -⟩ := Prod.mk.inj heq
    exact .inl (ttyInputLineEnd_readable hend)
  | signal i =>
    rw [hkey] at h
    obtain ⟨rfl, -⟩ := Prod.mk.inj (some_inj.mp h)
    refine .inr ?_
    rcases ttySignalKey_tty run i with h | h
    · rw [h]
    · rw [h]
      exact Nat.zero_le _
  | plain b =>
    rw [hkey] at h
    obtain ⟨run'', hplain, heq⟩ := map_eq_some_iff.mp h
    obtain ⟨rfl, -⟩ := Prod.mk.inj heq
    refine .inr ?_
    rcases ttyInputPlainByte_cases run b with ⟨-, -, h'⟩ | ⟨-, -, h'⟩ | ⟨-, -, h'⟩
    · rw [← some_inj.mp (h'.symm.trans hplain)]
    · cases h'.symm.trans hplain
    · rw [← some_inj.mp (h'.symm.trans hplain)]
      exact Nat.le_of_eq (pushDoubled_released _ _ _ _)

/-- the kill key takes the line at once, and not one character after the other -/
def killsAtOnce (t : Termios) : Bool :=
  !(t.hasL Flag.echo && (t.hasL Flag.echoe && t.hasL Flag.echok && t.hasL Flag.echoke))

def Tty.TakesBack (tty : Tty) (byte : UInt8) : Prop :=
  tty.ttyLineMode = true ∧ tty.queue.ttyQueueHasUnfinished = true ∧
    (tty.key byte = .erase ∨ tty.key byte = .kill ∧ killsAtOnce tty.termios = true)

/-- a byte taken by a full queue changes nothing, or tells the writers, or takes back what was
typed -/
theorem ttyInputByte_writers {run run' : TtyInputRun} {byte : UInt8} {rest : Rest}
    (hfull : run.tty.Full) (h : ttyInputByte run byte = some (run', rest)) :
    run'.tty.writable = true ∨ run'.tty = run.tty ∨
      (run.tty.ttyLineMode = true ∧ run'.tty = run.tty.setLiteralNext true) ∨
      run.tty.TakesBack byte := by
  have hsignal : ∀ i, (ttySignalKey run i).tty.writable = true ∨
      (ttySignalKey run i).tty = run.tty := fun i => by
    rcases ttySignalKey_tty run i with h | h
    · exact .inr h
    · rw [h]
      exact .inl rfl
  unfold ttyInputByte at h
  by_cases hline : run.tty.ttyLineMode = true
  · rw [if_pos hline, ttyInputLineByte_eq] at h
    have hrel := hfull.2 hline
    have hused := hfull.1
    have hnoend : ∀ byte kind, ttyInputLineEnd run byte kind = none := fun byte kind =>
      (ttyInputLineEnd_none_iff run byte kind).mpr ⟨by omega, hrel⟩
    cases hkey : run.tty.key byte with
    | nothing | wordErase =>
      rw [hkey] at h
      obtain ⟨rfl, -⟩ := Prod.mk.inj (some_inj.mp h)
      exact .inr (.inl rfl)
    | literalNext =>
      rw [hkey] at h
      obtain ⟨rfl, -⟩ := Prod.mk.inj (some_inj.mp h)
      exact .inr (.inr (.inl ⟨hline, rfl⟩))
    | erase =>
      rw [hkey] at h
      obtain ⟨rfl, -⟩ := Prod.mk.inj (some_inj.mp h)
      by_cases hun : run.tty.queue.ttyQueueHasUnfinished = true
      · exact .inr (.inr (.inr ⟨hline, hun, .inl hkey⟩))
      · exact .inr (.inl (if_neg hun))
    | kill =>
      rw [hkey] at h
      obtain ⟨rfl, -⟩ := Prod.mk.inj (some_inj.mp h)
      by_cases hun : run.tty.queue.ttyQueueHasUnfinished = true
      · by_cases honce : killsAtOnce run.tty.termios = true
        · exact .inr (.inr (.inr ⟨hline, hun, .inr ⟨hkey, honce⟩⟩))
        · refine .inr (.inl ?_)
          rw [killsAtOnce, Bool.not_eq_true', Bool.not_eq_false] at honce
          show (ttyInputKillKey run.tty).1 = run.tty
          unfold ttyInputKillKey
          dsimp only
          rw [hun, if_neg (show ¬ (!true) = true from Bool.false_ne_true), if_pos honce]
      · refine .inr (.inl ?_)
        show (ttyInputKillKey run.tty).1 = run.tty
        rw [Bool.not_eq_true] at hun
        rw [ttyInputKillKey, hun]
        rfl
    | eof | lineEnd b =>
      rw [hkey] at h
      rw [pressKey, hnoend] at h
      cases h
    | readerKey b =>
      rw [hkey] at h
      obtain ⟨run'', hend, heq⟩ := map_eq_some_iff.mp h
      obtain ⟨rfl, -⟩ := Prod.mk.inj heq
      unfold ttyInputReaderKey at hend
      dsimp only at hend
      split at hend
      · cases (hnoend _ _).symm.trans hend
      · obtain ⟨tty', hroom, rfl⟩ := map_eq_some_iff.mp hend
        have htty := (ttyMakeRoomForLineEnd_ok (ttyQueueClear_ok run.tty) hroom).2.2
        refine .inl ?_
        show tty'.writable = true
        rw [htty]
        rfl
    | signal i =>
      rw [hkey] at h
      obtain ⟨rfl, -⟩ := Prod.mk.inj (some_inj.mp h)
      rcases hsignal i with h | h
      · exact .inl h
      · exact .inr (.inl h)
    | plain b =>
      rw [hkey] at h
      have hnone := (ttyInputPlainByte_none_iff run b).mpr ⟨hused, hrel⟩
      rw [pressKey, hnone] at h
      cases h
  · rw [if_neg hline] at h
    obtain ⟨run'', hraw, heq⟩ := map_eq_some_iff.mp h
    obtain ⟨rfl, -⟩ := Prod.mk.inj heq
    unfold ttyInputRawByte at hraw
    dsimp only at hraw
    split at hraw
    · rw [← some_inj.mp hraw]
      rcases hsignal _ with h | h
      · exact .inl h
      · exact .inr (.inl h)
    · rw [if_pos hfull.1] at hraw
      cases hraw

/-- the work on a byte that takes back a character of what was typed -/
def Rest.erases (tty : Tty) : Rest → Bool
  | .done | .literalTaken => false
  | .killing => tty.queue.ttyQueueHasUnfinished
  | .wordErasing inWord =>
    tty.queue.ttyQueueHasUnfinished && (ttyByteInWord (ttyLastCharSize tty).2 || !inWord)

theorem restStep_cases (tty : Tty) (rest : Rest) :
    (rest.erases tty = true ∧ (restStep tty rest).1 = ttyEraseChar tty) ∨
    (restStep tty rest).1 = tty ∨
    (rest = .literalTaken ∧ (restStep tty rest).1 = tty.setLiteralNext false) := by
  cases rest with
  | done => exact .inr (.inl rfl)
  | literalTaken => exact .inr (.inr ⟨rfl, rfl⟩)
  | killing =>
    rw [restStep, Rest.erases]
    split
    · next h => exact .inl ⟨h, rfl⟩
    · exact .inr (.inl rfl)
  | wordErasing inWord =>
    rw [restStep, Rest.erases]
    split
    · next h =>
      rw [h]
      split
      · next hword =>
        rw [hword]
        exact .inl ⟨rfl, rfl⟩
      · cases inWord with
        | true => exact .inr (.inl rfl)
        | false => exact .inl ⟨by rw [Bool.not_false, Bool.or_true]; rfl, rfl⟩
    · exact .inr (.inl rfl)

end

end Pscal.Terminal
