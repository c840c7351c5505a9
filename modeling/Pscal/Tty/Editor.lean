import Pscal.Lib.Transitions
import Pscal.Tty.LineKeys
import Pscal.Tty.Threads

/-!
# A line editor, and a terminal in line mode

The reference: finished pieces of text that wait to be read, and the line being typed.  Beside it
the terminal, as someone types at it and reads from it in turns.

* `Piece`, `Editor`  a finished line or what the end-of-file key let go; the state;
* `eraseChar`, `eraseWord`  the last character and the last word of the line being typed;
* `Editor.press`, `Editor.read`  a byte typed, a read;
* `EditorStep`, `LineStep`  the steps of the editor, and those of the terminal;
* `Cut`  pieces as reads of some sizes cut them.
-/

namespace Pscal.Terminal

/-! ## the editor -/

/-- what a reader is given: a line with its end, or text that the end-of-file key let go -/
structure Piece where
  bytes : List UInt8
  byKey : Bool
deriving DecidableEq, Repr

/-- the room a piece takes; the key takes one position -/
def Piece.positions (p : Piece) : Nat := p.bytes.length + if p.byKey then 1 else 0

structure Editor where
  ready : List Piece
  typing : List UInt8
  literal : Bool
deriving DecidableEq, Repr

/-- the modes that stay as they are while someone types -/
structure EditorModes where
  termios : Termios
  sessionReader : Bool
  fgGroup : Int

/-- the last character of a line given backwards, as its length and first byte; with `IUTF8_` the
bytes that continue a character belong to it -/
def lastChar (t : Termios) (byte : UInt8) : List UInt8 → Nat × UInt8
  | [] => (1, byte)
  | before :: rest =>
    if ttyByteContinues t byte then
      ((lastChar t before rest).1 + 1, (lastChar t before rest).2)
    else (1, byte)

theorem lastChar_pos (t : Termios) (byte : UInt8) (rest : List UInt8) :
    1 ≤ (lastChar t byte rest).1 := by
  cases rest with
  | nil => exact Nat.le_refl _
  | cons before rest =>
    rw [lastChar]
    split
    · exact Nat.le_add_left _ _
    · exact Nat.le_refl _

def eraseChar (t : Termios) : List UInt8 → List UInt8
  | [] => []
  | byte :: rest => rest.drop ((lastChar t byte rest).1 - 1)

/-- the line, given backwards, without its last word and what follows it -/
def eraseWord (t : Termios) (inWord : Bool) : List UInt8 → List UInt8
  | [] => []
  | byte :: rest =>
    if ttyByteInWord (lastChar t byte rest).2 then
      eraseWord t true (rest.drop ((lastChar t byte rest).1 - 1))
    else if inWord then byte :: rest
    else eraseWord t inWord (rest.drop ((lastChar t byte rest).1 - 1))
termination_by line => line.length
decreasing_by
  all_goals
    rw [List.length_drop, List.length_cons]
    omega

namespace Editor

def start : Editor := ⟨[], [], false⟩

variable (m : EditorModes) (e : Editor)

def positions : Nat := (e.ready.map Piece.positions).sum + e.typing.length

def full : Bool := decide (ttyBufSize ≤ e.positions)

/-- the line being typed, given backwards, goes through `f` -/
def edit (f : List UInt8 → List UInt8) : Editor :=
  { e with typing := (f e.typing.reverse).reverse }

def finish (p : Piece) : Option Editor :=
  if e.full then none else some { e with ready := e.ready ++ [p], typing := [] }

/-- a plain byte; one that leaves no room for the end of its line is dropped, and one that finds no
room behind finished pieces waits -/
def type (byte : UInt8) : Option Editor :=
  if e.ready = [] ∧ ttyBufSize ≤ e.positions + 1 then some { e with literal := false }
  else if e.full then none
  else
    let again := ttyInputDoubles m.termios byte && decide (e.positions + 2 < ttyBufSize)
    some { e with
      typing := e.typing ++ byte :: (if again then [byte] else [])
      literal := false }

/-- a signal key, and the key of a session's reader, throw away all that was not read -/
def flush : Editor := if m.termios.hasL Flag.noflsh then e else start

def key (byte : UInt8) : LineKey := lineKey m.termios m.sessionReader e.literal byte

/-- a byte is typed; `none` if it waits -/
def press (byte : UInt8) : Option Editor :=
  match e.key m byte with
  | .nothing => some e
  | .erase => some (e.edit (eraseChar m.termios))
  | .kill => some { e with typing := [] }
  | .wordErase => some (e.edit (eraseWord m.termios false))
  | .literalNext => some { e with literal := true }
  | .eof => e.finish ⟨e.typing, true⟩
  | .lineEnd byte => e.finish ⟨e.typing ++ [byte], false⟩
  | .readerKey byte => (e.flush m).finish ⟨(e.flush m).typing ++ [byte], false⟩
  | .signal _ => some (if m.fgGroup = 0 then e else e.flush m)
  | .plain byte => e.type m byte

def Clears (byte : UInt8) : Prop :=
  m.termios.hasL Flag.noflsh = false ∧
    ((∃ i, e.key m byte = .signal i) ∧ m.fgGroup ≠ 0 ∨ ∃ b, e.key m byte = .readerKey b)

/-- a read of at most `size` bytes; `none` if it waits -/
def read (size : Nat) : Option (List UInt8 × Editor) :=
  match e.ready with
  | [] => none
  | p :: ready =>
    some (p.bytes.take size,
      { e with
        ready := if size < p.bytes.length then { p with bytes := p.bytes.drop size } :: ready
          else ready })

end Editor

/-! ## steps -/

inductive LineEvent where
  | press (byte : UInt8)
  | refused (byte : UInt8)
  | work
  | read (size : Nat) (out : List UInt8)
  | empty
deriving DecidableEq, Repr

inductive EditorStep (m : EditorModes) : Editor → LineEvent → Editor → Prop where
  | press {e e' : Editor} {byte : UInt8} (h : e.press m byte = some e') :
      EditorStep m e (.press byte) e'
  | refused {e : Editor} {byte : UInt8} (h : e.press m byte = none) :
      EditorStep m e (.refused byte) e
  | work {e : Editor} : EditorStep m e .work e
  | read {e e' : Editor} {size : Nat} {out : List UInt8} (hsize : 0 < size)
      (h : e.read size = some (out, e')) :
      EditorStep m e (.read size out) e'
  | empty {e : Editor} (h : e.ready = []) : EditorStep m e .empty e

/-- a terminal, and what is left of the work on the last byte -/
structure Typist where
  tty : Tty
  rest : Rest

inductive LineStep : Typist → LineEvent → Typist → Prop where
  | press {tty : Tty} {byte : UInt8} (c : Collected) {run : TtyInputRun} {rest : Rest}
      (h : ttyInputByte { c with tty := tty } byte = some (run, rest)) :
      LineStep ⟨tty, .done⟩ (.press byte) ⟨run.tty, rest⟩
  | refused {tty : Tty} {byte : UInt8} (c : Collected)
      (h : ttyInputByte { c with tty := tty } byte = none) :
      LineStep ⟨tty, .done⟩ (.refused byte) ⟨tty, .done⟩
  | work {tty : Tty} {rest : Rest} :
      LineStep ⟨tty, rest⟩ .work ⟨(restStep tty rest).1, (restStep tty rest).2⟩
  | read {tty tty' : Tty} {rest : Rest} {size : Nat} {nonblocking : Bool} {out : List UInt8}
      (hsize : 0 < size) (h : ttyReadTurn tty size nonblocking = .returned (some out) tty') :
      LineStep ⟨tty, rest⟩ (.read size out) ⟨tty', rest⟩
  | empty {tty : Tty} {rest : Rest} {size : Nat}
      (h : ttyReadTurn tty size false = .waiting false) :
      LineStep ⟨tty, rest⟩ .empty ⟨tty, rest⟩

/-! ## what reads cut -/

/-- reads that return `outs` take the pieces from the front, each read within one piece, and leave
`left` -/
inductive Cut : List Piece → List (List UInt8) → List Piece → Prop where
  | nil {ps : List Piece} : Cut ps [] ps
  | part {p : Piece} {ps left : List Piece} {outs : List (List UInt8)} {size : Nat}
      (hpos : 0 < size) (hsize : size < p.bytes.length)
      (h : Cut ({ p with bytes := p.bytes.drop size } :: ps) outs left) :
      Cut (p :: ps) (p.bytes.take size :: outs) left
  | whole {p : Piece} {ps left : List Piece} {outs : List (List UInt8)} (h : Cut ps outs left) :
      Cut (p :: ps) (p.bytes :: outs) left

def reads (tr : List LineEvent) : List (List UInt8) :=
  tr.filterMap fun
    | .read _ out => some out
    | _ => none

/-- no byte of a run of the editor throws away what was not read -/
def KeepsAll (m : EditorModes) (e₀ : Editor) (tr : List LineEvent) : Prop :=
  ∀ tr₁ byte tr₂ e, tr = tr₁ ++ .press byte :: tr₂ → Transitions.Run (EditorStep m) e₀ tr₁ e →
    ¬ e.Clears m byte

end Pscal.Terminal
