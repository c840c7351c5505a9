import Pscal.Lib.Ring

/-!
# The input queue of a terminal

The queue of `pscal_tty.c`: a ring of cells, each a byte with what it was when it went in.

* `CellKind`, `TtyCell`, `TtyQueue`  the cells and the three counters;
* `ttyQueuePush`, `ttyQueuePop`  a cell at the end, a cell from the head;
* `ttyQueueDropLast`  the last cell of the line being typed taken back;
* `ttyQueueRelabel`  what becomes of the cells at a change of mode.
-/

namespace Pscal.Terminal

def ttyBufSize : Nat := 4096

inductive CellKind where
  | byte
  | lineEnd
  | eofMark
deriving DecidableEq, Repr

structure TtyCell where
  value : UInt8
  kind : CellKind
deriving DecidableEq, Repr

structure TtyQueue where
  cells : List TtyCell
  head : Nat
  used : Nat
  /-- the positions from the head that are ready for a read in line mode -/
  released : Nat
  size : cells.length = ttyBufSize
  head_lt : head < ttyBufSize
deriving DecidableEq

namespace TtyQueue

/-- as `calloc` leaves it -/
def empty : TtyQueue where
  cells := List.replicate ttyBufSize ⟨0, .byte⟩
  head := 0
  used := 0
  released := 0
  size := List.length_replicate
  head_lt := by decide

variable (q : TtyQueue)

def setCells (cells : List TtyCell) (h : cells.length = q.cells.length) : TtyQueue :=
  { q with cells := cells, size := h.trans q.size }

/-- `ttyQueueCell`: a cell counted from the head -/
def ttyQueueCell (i : Nat) : TtyCell :=
  q.cells.getD (Ring.slot q.cells q.head i) ⟨0, .byte⟩

def ttyQueuePush (value : UInt8) (kind : CellKind) : TtyQueue :=
  { q.setCells (q.cells.set (Ring.slot q.cells q.head q.used) ⟨value, kind⟩) List.length_set with
    used := q.used + 1
    released := if kind = .byte then q.released else q.used + 1 }

/-- the queue after `ttyQueuePop`, which returns the cell at the head -/
def ttyQueuePop : TtyQueue :=
  { q with
    head := (q.head + 1) % ttyBufSize
    used := q.used - 1
    released := q.released - 1
    head_lt := Nat.mod_lt _ (by decide) }

def ttyQueueDropLast : TtyQueue := { q with used := q.used - 1 }

/-- the end of the line being typed moves back by `size` positions -/
def drop (size : Nat) : TtyQueue := { q with used := q.used - size }

def ttyQueueHasUnfinished : Bool := decide (q.released < q.used)

def ttyQueueHeadIsMark : Bool := decide (0 < q.used) && (q.ttyQueueCell 0).kind == .eofMark

/-- the queue part of `ttyQueueClearLocked` -/
def clear : TtyQueue := { q with head := 0, used := 0, released := 0, head_lt := by decide }

def relabelCell (toLineMode last : Bool) (c : TtyCell) : TtyCell :=
  if !toLineMode then
    if c.kind = .lineEnd then { c with kind := .byte } else c
  else if last then
    if c.kind = .eofMark then c else { c with kind := .lineEnd }
  else { c with kind := .byte }

def relabelCells (toLineMode : Bool) : List TtyCell :=
  (List.range q.used).foldl
    (fun cells i => cells.modify (Ring.slot q.cells q.head i)
      (relabelCell toLineMode (i + 1 == q.used))) q.cells

theorem relabelCells_length (toLineMode : Bool) :
    (q.relabelCells toLineMode).length = q.cells.length := by
  unfold relabelCells
  generalize List.range q.used = is
  suffices ∀ cells : List TtyCell, (is.foldl (fun cells i => cells.modify
      (Ring.slot q.cells q.head i) (relabelCell toLineMode (i + 1 == q.used))) cells).length =
      cells.length from this q.cells
  induction is with
  | nil => exact fun _ => rfl
  | cons i is ih =>
    intro cells
    rw [List.foldl_cons, ih, List.length_modify]

def ttyQueueRelabel (toLineMode : Bool) : TtyQueue :=
  { q.setCells (q.relabelCells toLineMode) (q.relabelCells_length toLineMode) with
    released := if toLineMode then q.used else 0 }

end TtyQueue

end Pscal.Terminal
