import Pscal.Tty.Editor
import Pscal.Tty.TerminalSpec

/-!
# Lines in the queue

How the queue of a terminal holds finished pieces and the line being typed.

* `Piece.cells`, `TtyQueue.Holds`  the cells of a piece; the queue holds finished cells and a line;
* `pushByte`, `pushEnd`, `drop`  the operations, seen there;
* `ttyEraseChar_holds`  the last character of the queue is that of the line.
-/

namespace Pscal.Terminal

open List

/-! ## pieces in the queue -/

def plainCell (byte : UInt8) : TtyCell := ⟨byte, .byte⟩

def lineCells : List UInt8 → List TtyCell
  | [] => []
  | [byte] => [⟨byte, .lineEnd⟩]
  | byte :: next :: bytes => plainCell byte :: lineCells (next :: bytes)

def Piece.cells (p : Piece) : List TtyCell :=
  if p.byKey then p.bytes.map plainCell ++ [⟨0, .eofMark⟩] else lineCells p.bytes

def Piece.Whole (p : Piece) : Prop := p.byKey = false → p.bytes ≠ []

theorem lineCells_append (bytes : List UInt8) (byte : UInt8) :
    lineCells (bytes ++ [byte]) = bytes.map plainCell ++ [⟨byte, .lineEnd⟩] := by
  induction bytes with
  | nil => rfl
  | cons b bytes ih =>
    have hcons : lineCells (b :: (bytes ++ [byte])) = plainCell b :: lineCells (bytes ++ [byte]) := by
      cases bytes <;> rfl
    rw [cons_append, hcons, ih]
    rfl

theorem lineCells_length (bytes : List UInt8) : (lineCells bytes).length = bytes.length := by
  rcases eq_nil_or_concat bytes with rfl | ⟨bytes, byte, rfl⟩
  · rfl
  · rw [concat_eq_append, lineCells_append]
    simp

theorem Piece.cells_length (p : Piece) : p.cells.length = p.positions := by
  unfold cells positions
  split
  · rw [length_append, length_map]
    rfl
  · rw [lineCells_length]
    rfl

def pieceCells (ps : List Piece) : List TtyCell := ps.flatMap Piece.cells

theorem pieceCells_cons (p : Piece) (ps : List Piece) :
    pieceCells (p :: ps) = p.cells ++ pieceCells ps := rfl

theorem pieceCells_append (ps ps' : List Piece) :
    pieceCells (ps ++ ps') = pieceCells ps ++ pieceCells ps' := flatMap_append

theorem pieceCells_length (ps : List Piece) :
    (pieceCells ps).length = (ps.map Piece.positions).sum := by
  induction ps with
  | nil => rfl
  | cons p ps ih =>
    rw [pieceCells_cons, length_append, ih, p.cells_length, map_cons, sum_cons]

theorem Piece.Whole.cells_ne_nil {p : Piece} (h : p.Whole) : p.cells ≠ [] := by
  unfold cells
  split
  · exact append_ne_nil_of_right_ne_nil _ (cons_ne_nil _ _)
  · next hkey =>
    rw [← length_pos_iff, lineCells_length, length_pos_iff]
    exact h (by rwa [Bool.not_eq_true] at hkey)

theorem pieceCells_eq_nil {ps : List Piece} (h : ∀ p ∈ ps, p.Whole) :
    (pieceCells ps).length = 0 ↔ ps = [] := by
  cases ps with
  | nil => exact ⟨fun _ => rfl, fun _ => rfl⟩
  | cons p ps =>
    have hpos := length_pos_iff.mpr (h p mem_cons_self).cells_ne_nil
    rw [pieceCells_cons, length_append]
    refine ⟨fun h => by omega, fun h => nomatch h⟩

/-! ## the end of the line -/

/-- the queue holds `done`, all of it finished, and the line `u` -/
structure TtyQueue.Holds (q : TtyQueue) (done : List TtyCell) (u : List UInt8) : Prop where
  fits : q.Fits
  text : q.text = done ++ u.map plainCell
  released : q.released = done.length

namespace TtyQueue.Holds

variable {q : TtyQueue} {done : List TtyCell} {u : List UInt8} (h : q.Holds done u)
include h

theorem used : q.used = done.length + u.length := by
  rw [← q.text_length, h.text, length_append, length_map]

theorem hasUnfinished : q.ttyQueueHasUnfinished = true ↔ u ≠ [] := by
  rw [hasUnfinished_iff, h.released, h.used, ← length_pos_iff]
  omega

theorem cell_back {i : Nat} {c : UInt8} (hc : u.reverse[i]? = some c) :
    (q.ttyQueueCell (q.used - (i + 1))).value = c := by
  obtain ⟨hi, hget⟩ := List.getElem?_eq_some_iff.mp hc
  rw [length_reverse] at hi
  have hused := h.used
  have htext := q.text_getElem? (i := q.used - (i + 1)) (by omega)
  rw [h.text, getElem?_append_right (by omega), getElem?_map] at htext
  obtain ⟨b, hb, hcell⟩ := Option.map_eq_some_iff.mp htext
  rw [← hcell]
  show b = c
  rw [getElem?_reverse hi] at hc
  have hindex : q.used - (i + 1) - done.length = u.length - 1 - i := by omega
  rw [hindex] at hb
  exact Option.some_inj.mp (hb.symm.trans hc)

theorem drop {size : Nat} (hsize : size ≤ u.length) :
    (q.drop size).Holds done (u.reverse.drop size).reverse := by
  have hused := h.used
  refine ⟨h.fits.drop (by rw [h.released]; omega), ?_, h.released⟩
  have htake : (u.reverse.drop size).reverse = u.take (u.length - size) := by
    rw [drop_reverse, reverse_reverse]
  rw [q.text_drop, h.text, htake, take_append, map_take]
  rw [take_of_length_le (by omega)]
  congr 2
  omega

theorem pushByte (hroom : q.used < ttyBufSize) (byte : UInt8) :
    (q.ttyQueuePush byte .byte).Holds done (u ++ [byte]) := by
  refine ⟨h.fits.push hroom _ _, ?_, h.released⟩
  rw [text_push hroom, h.text, map_append, append_assoc]
  rfl

theorem pushEnd (hroom : q.used < ttyBufSize) (byte : UInt8) {kind : CellKind}
    (hkind : kind ≠ .byte) :
    (q.ttyQueuePush byte kind).Holds (done ++ (u.map plainCell ++ [⟨byte, kind⟩])) [] := by
  refine ⟨h.fits.push hroom _ _, ?_, ?_⟩
  · rw [text_push hroom, h.text, map_nil, append_nil, append_assoc]
  · show (if kind = .byte then q.released else q.used + 1) = _
    rw [if_neg hkind, h.used, length_append, length_append, length_map]
    rfl

omit h in
theorem clear : q.clear.Holds [] [] := ⟨.clear, rfl, rfl⟩

end TtyQueue.Holds

section
variable {tty : Tty} {done : List TtyCell} {u : List UInt8}

theorem lastCharLoop_eq (tty : Tty) (rest : List UInt8) {size : Nat} {byte : UInt8}
    (hpos : 1 ≤ size) (hcells : ∀ i c, rest[i]? = some c →
      (tty.queue.ttyQueueCell (tty.queue.used - (size + 1 + i))).value = c) :
    lastCharLoop tty rest.length size byte =
      ((lastChar tty.termios byte rest).1 + (size - 1), (lastChar tty.termios byte rest).2) := by
  induction rest generalizing size byte with
  | nil => exact Prod.ext (by show size = 1 + (size - 1); omega) rfl
  | cons before rest ih =>
    rw [length_cons, lastCharLoop, lastChar]
    split
    · have hbefore := hcells 0 before rfl
      rw [Nat.add_zero] at hbefore
      rw [hbefore, ih (by omega) fun i c hc => ?_]
      · exact Prod.ext (by show _ + _ = _ + 1 + _; omega) rfl
      · have := hcells (i + 1) c hc
        rwa [show size + 1 + (i + 1) = size + 1 + 1 + i from by omega] at this
    · exact Prod.ext (by show size = 1 + (size - 1); omega) rfl

theorem ttyLastCharSize_eq (h : tty.queue.Holds done u) {byte : UInt8} {rest : List UInt8}
    (hu : u.reverse = byte :: rest) : ttyLastCharSize tty = lastChar tty.termios byte rest := by
  have hlen : u.length = rest.length + 1 := by rw [← length_reverse, hu, length_cons]
  have hused := h.used
  have hleft : tty.queue.used - tty.queue.released - 1 = rest.length := by
    rw [h.released]
    omega
  have hlast := h.cell_back (i := 0) (c := byte) (by rw [hu]; rfl)
  rw [ttyLastCharSize, hleft, hlast, lastCharLoop_eq tty rest (Nat.le_refl 1) fun i c hc => ?_]
  · rfl
  · have := h.cell_back (i := i + 1) (c := c) (by rw [hu]; exact hc)
    rwa [show i + 1 + 1 = 1 + 1 + i from by omega] at this

theorem ttyEraseChar_holds (h : tty.queue.Holds done u) (hne : u ≠ []) :
    (ttyEraseChar tty).queue.Holds done (eraseChar tty.termios u.reverse).reverse := by
  obtain ⟨byte, rest, hu⟩ := exists_cons_of_ne_nil (reverse_ne_nil_iff.mpr hne)
  have hsize := (ttyLastCharSize_le (h.hasUnfinished.mpr hne)).2
  have hused := h.used
  rw [h.released] at hsize
  have hle : (ttyLastCharSize tty).1 ≤ u.length := by omega
  have hdrop := h.drop hle
  have hpos := lastChar_pos tty.termios byte rest
  rw [ttyLastCharSize_eq h hu, hu] at hdrop
  obtain ⟨n, hn⟩ : ∃ n, (lastChar tty.termios byte rest).1 = n + 1 :=
    ⟨_, (Nat.sub_add_cancel hpos).symm⟩
  rw [hu, eraseChar]
  show (tty.queue.drop (ttyLastCharSize tty).1).Holds done _
  rw [ttyLastCharSize_eq h hu]
  rw [hn] at hdrop ⊢
  exact hdrop

end

end Pscal.Terminal
