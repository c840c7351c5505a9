import Pscal.Tty.Terminal

/-!
# What a byte typed in line mode means

* `LineKey`, `lineKey`  the meanings, and which one a byte has;
* `pressKey`  what the key of a meaning does;
* `ttyInputLineByte_eq`  a byte in line mode does what its key does.
-/

namespace Pscal.Terminal

open Option

inductive LineKey where
  /-- the byte goes nowhere, or only shows the line again -/
  | nothing
  | erase
  | kill
  | wordErase
  | literalNext
  | eof
  | lineEnd (byte : UInt8)
  /-- a key that a session's reader is handed at once -/
  | readerKey (byte : UInt8)
  | signal (signalIndex : UInt32)
  | plain (byte : UInt8)
deriving DecidableEq, Repr

/-- the meaning of a byte that is neither literal nor dropped -/
def boundKey (t : Termios) (sessionReader : Bool) (byte : UInt8) : LineKey :=
  let extended := t.hasL Flag.iexten
  if t.ttyByteIs byte .verase then .erase
  else if t.ttyByteIs byte .vkill then .kill
  else if extended && t.ttyByteIs byte .vwerase then .wordErase
  else if extended && t.hasL Flag.echo && t.ttyByteIs byte .vreprint then .nothing
  else if extended && t.ttyByteIs byte .vlnext then .literalNext
  else if t.ttyByteIs byte .veof then .eof
  else if byte == 10 || t.ttyByteIs byte .veol || (extended && t.ttyByteIs byte .veol2) then
    .lineEnd byte
  else if (t.ttyByteIs byte .vintr || t.ttyByteIs byte .vsusp) && sessionReader &&
      !t.hasL Flag.isig then
    .readerKey byte
  else
    match if t.hasL Flag.isig then ttyKeySignalIndex t byte else none with
    | some signalIndex => .signal signalIndex
    | none => .plain byte

def lineKey (t : Termios) (sessionReader literal : Bool) (byte : UInt8) : LineKey :=
  let byte := ttyInputMapped t byte
  if literal then .plain byte
  else if byte == 13 && t.hasI Flag.igncr then .nothing
  else boundKey t sessionReader (ttyInputNewline t byte)

def Tty.key (tty : Tty) (byte : UInt8) : LineKey :=
  lineKey tty.termios tty.sessionReader tty.literalNext byte

def pressKey (run : TtyInputRun) : LineKey → Option (TtyInputRun × Rest)
  | .nothing => some (run, .done)
  | .erase => some (run.setTty (ttyInputEraseKey run.tty), .done)
  | .kill => some (run.setTty (ttyInputKillKey run.tty).1, (ttyInputKillKey run.tty).2)
  | .wordErase => some (run, .wordErasing false)
  | .literalNext => some (run.setTty (run.tty.setLiteralNext true), .done)
  | .eof => (ttyInputLineEnd run 0 .eofMark).map (·, .done)
  | .lineEnd byte => (ttyInputLineEnd run byte .lineEnd).map (·, .done)
  | .readerKey byte => (ttyInputReaderKey run byte).map (·, .done)
  | .signal signalIndex => some (ttySignalKey run signalIndex, .done)
  | .plain byte =>
    (ttyInputPlainByte run byte).map (·, if run.tty.literalNext then .literalTaken else .done)

theorem ttyInputOtherByte_eq {run : TtyInputRun} {byte : UInt8}
    (hliteral : run.tty.literalNext = false) (hkey : ttyInputEditingKey run.tty byte = none) :
    (ttyInputOtherByte run byte).map (·, Rest.done) =
      pressKey run (boundKey run.tty.termios run.tty.sessionReader byte) := by
  unfold ttyInputEditingKey at hkey
  unfold ttyInputOtherByte boundKey
  dsimp only at hkey ⊢
  by_cases h : (run.tty.termios.ttyByteIs byte .verase) = true
  · rw [if_pos h] at hkey
    cases hkey
  rw [if_neg h] at hkey ⊢
  by_cases h : (run.tty.termios.ttyByteIs byte .vkill) = true
  · rw [if_pos h] at hkey
    cases hkey
  rw [if_neg h] at hkey ⊢
  by_cases h : (run.tty.termios.hasL Flag.iexten && run.tty.termios.ttyByteIs byte .vwerase) = true
  · rw [if_pos h] at hkey
    cases hkey
  rw [if_neg h] at hkey ⊢
  by_cases h : (run.tty.termios.hasL Flag.iexten && run.tty.termios.hasL Flag.echo &&
      run.tty.termios.ttyByteIs byte .vreprint) = true
  · rw [if_pos h] at hkey
    cases hkey
  rw [if_neg h] at hkey ⊢
  by_cases h : (run.tty.termios.hasL Flag.iexten && run.tty.termios.ttyByteIs byte .vlnext) = true
  · rw [if_pos h] at hkey
    cases hkey
  rw [if_neg h] at hkey ⊢
  split
  · rfl
  split
  · rfl
  split
  · rfl
  generalize (if run.tty.termios.hasL Flag.isig then ttyKeySignalIndex run.tty.termios byte
    else none) = signalKey
  cases signalKey with
  | some signalIndex => rfl
  | none =>
    show _ = (ttyInputPlainByte run byte).map _
    rw [hliteral]
    rfl

theorem ttyInputEditingKey_eq {run : TtyInputRun} {byte : UInt8} {tty : Tty} {rest : Rest}
    (hkey : ttyInputEditingKey run.tty byte = some (tty, rest)) : some (run.setTty tty, rest) =
      pressKey run (boundKey run.tty.termios run.tty.sessionReader byte) := by
  unfold ttyInputEditingKey at hkey
  unfold boundKey
  dsimp only at hkey ⊢
  by_cases h : (run.tty.termios.ttyByteIs byte .verase) = true
  · rw [if_pos h] at hkey ⊢
    obtain ⟨rfl, rfl⟩ := Prod.mk.inj (some_inj.mp hkey)
    rfl
  rw [if_neg h] at hkey ⊢
  by_cases h : (run.tty.termios.ttyByteIs byte .vkill) = true
  · rw [if_pos h] at hkey ⊢
    obtain ⟨rfl, rfl⟩ := Prod.mk.inj (some_inj.mp hkey)
    rfl
  rw [if_neg h] at hkey ⊢
  by_cases h : (run.tty.termios.hasL Flag.iexten && run.tty.termios.ttyByteIs byte .vwerase) = true
  · rw [if_pos h] at hkey ⊢
    obtain ⟨rfl, rfl⟩ := Prod.mk.inj (some_inj.mp hkey)
    rfl
  rw [if_neg h] at hkey ⊢
  by_cases h : (run.tty.termios.hasL Flag.iexten && run.tty.termios.hasL Flag.echo &&
      run.tty.termios.ttyByteIs byte .vreprint) = true
  · rw [if_pos h] at hkey ⊢
    obtain ⟨rfl, rfl⟩ := Prod.mk.inj (some_inj.mp hkey)
    rfl
  rw [if_neg h] at hkey ⊢
  by_cases h : (run.tty.termios.hasL Flag.iexten && run.tty.termios.ttyByteIs byte .vlnext) = true
  · rw [if_pos h] at hkey ⊢
    obtain ⟨rfl, rfl⟩ := Prod.mk.inj (some_inj.mp hkey)
    rfl
  rw [if_neg h] at hkey
  cases hkey

theorem ttyInputLineByte_eq (run : TtyInputRun) (byte : UInt8) :
    ttyInputLineByte run byte = pressKey run (run.tty.key byte) := by
  unfold ttyInputLineByte Tty.key lineKey
  dsimp only
  cases hliteral : run.tty.literalNext with
  | true =>
    rw [if_pos rfl, if_pos rfl, pressKey, hliteral]
    rfl
  | false =>
    rw [if_neg Bool.false_ne_true, if_neg Bool.false_ne_true]
    split
    · rfl
    · generalize ttyInputNewline _ _ = b
      split
      · next hkey => exact ttyInputEditingKey_eq hkey
      · next hkey => exact ttyInputOtherByte_eq hliteral hkey

end Pscal.Terminal
