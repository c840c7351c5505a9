import Pscal.Tty.Queue

/-!
# What the queue holds

* `TtyQueue.text`  the cells in use, the next to be read first;
* `text_push`, `text_pop`, `text_drop`, `text_relabel`  the operations seen there;
* `TtyQueue.Fits`  no more cells are in use than there are;
* `TtyQueue.LineShaped`  what line mode keeps: the finished part ends with the end of a line or a
  mark, and only plain bytes follow it.
-/

namespace Pscal.Terminal

open List Option

namespace TtyQueue

variable (q : TtyQueue)

def text : List TtyCell := Ring.contents q.cells q.head q.used

/-- `released` is within `used`, and `used` within the cells -/
structure Fits : Prop where
  released_le : q.released ≤ q.used
  used_le : q.used ≤ ttyBufSize

theorem cells_pos : 0 < q.cells.length := q.size ▸ by decide

@[simp] theorem text_length : q.text.length = q.used := Ring.contents_length q.cells_pos

theorem text_getElem? {i : Nat} (hi : i < q.used) : q.text[i]? = some (q.ttyQueueCell i) := by
  have hslot := getElem?_eq_getElem (Ring.slot_lt q.cells_pos q.head i)
  rw [text, Ring.getElem?_contents q.cells_pos hi, ttyQueueCell, getD_eq_getElem?_getD, hslot]
  rfl

theorem text_push {q : TtyQueue} (h : q.used < ttyBufSize) (value : UInt8) (kind : CellKind) :
    (q.ttyQueuePush value kind).text = q.text ++ [⟨value, kind⟩] :=
  Ring.contents_push (q.size ▸ h) _

theorem text_pop {q : TtyQueue} (hpos : 0 < q.used) (hle : q.used ≤ ttyBufSize) :
    q.text = q.ttyQueueCell 0 :: q.ttyQueuePop.text := by
  obtain ⟨k, hk⟩ : ∃ k, q.used = k + 1 := ⟨q.used - 1, by omega⟩
  have hhead : q.head < q.cells.length := q.size ▸ q.head_lt
  have hcount : k < q.cells.length := by rw [q.size]; omega
  have hpop : q.ttyQueuePop.text = Ring.contents q.cells ((q.head + 1) % q.cells.length) k := by
    show Ring.contents q.cells ((q.head + 1) % ttyBufSize) (q.used - 1) = _
    rw [hk, Nat.add_sub_cancel, q.size]
  have hcell : q.ttyQueueCell 0 = q.cells[q.head] := by
    rw [ttyQueueCell, Ring.slot_zero hhead, getD_eq_getElem?_getD, getElem?_eq_getElem hhead]
    rfl
  rw [text, hk, Ring.contents_tail hhead hcount, hpop, hcell]

theorem text_drop (size : Nat) : (q.drop size).text = q.text.take (q.used - size) :=
  Ring.contents_take q.cells_pos (Nat.sub_le _ _)

theorem text_relabel {q : TtyQueue} (h : q.used ≤ ttyBufSize) (toLineMode : Bool) :
    (q.ttyQueueRelabel toLineMode).text =
      q.text.mapIdx fun i => relabelCell toLineMode (i + 1 == q.used) :=
  Ring.contents_modifyAll (q.size ▸ h) _

theorem hasUnfinished_iff : q.ttyQueueHasUnfinished = true ↔ q.released < q.used :=
  decide_eq_true_iff

theorem headIsMark_iff {q : TtyQueue} {c : TtyCell} {rest : List TtyCell}
    (h : q.text = c :: rest) : q.ttyQueueHeadIsMark = true ↔ c.kind = .eofMark := by
  have hpos : 0 < q.used := by rw [← q.text_length, h]; exact Nat.succ_pos _
  have hcell : some c = some (q.ttyQueueCell 0) := by
    rw [← q.text_getElem? hpos, h]
    rfl
  obtain rfl := some_inj.mp hcell
  rw [ttyQueueHeadIsMark, Bool.and_eq_true, decide_eq_true_iff, beq_iff_eq]
  exact and_iff_right hpos

/-! ## the counters -/

namespace Fits

variable {q}

theorem clear : q.clear.Fits := ⟨Nat.le_refl _, Nat.zero_le _⟩

theorem push (h : q.Fits) (hroom : q.used < ttyBufSize) (value : UInt8) (kind : CellKind) :
    (q.ttyQueuePush value kind).Fits := by
  refine ⟨?_, hroom⟩
  show (if kind = .byte then q.released else q.used + 1) ≤ q.used + 1
  have := h.released_le
  split <;> omega

theorem pop (h : q.Fits) : q.ttyQueuePop.Fits := by
  have hrel := h.released_le
  have hused := h.used_le
  exact ⟨Nat.sub_le_sub_right hrel 1, Nat.le_trans (Nat.sub_le _ _) hused⟩

theorem drop (h : q.Fits) {size : Nat} (hsize : size ≤ q.used - q.released) :
    (q.drop size).Fits := by
  have hrel := h.released_le
  have hused := h.used_le
  refine ⟨?_, Nat.le_trans (Nat.sub_le _ _) hused⟩
  show q.released ≤ q.used - size
  omega

theorem relabel (h : q.Fits) (toLineMode : Bool) : (q.ttyQueueRelabel toLineMode).Fits := by
  refine ⟨?_, h.used_le⟩
  show (if toLineMode then q.used else 0) ≤ q.used
  split <;> omega

end Fits

/-! ## lines -/

/-- the finished part ends with the end of a line or a mark, and plain bytes follow it -/
structure LineShaped : Prop where
  finished : ∀ c ∈ (q.text.take q.released).getLast?, c.kind ≠ .byte
  plain : ∀ c ∈ q.text.drop q.released, c.kind = .byte

namespace LineShaped

variable {q}

theorem of_released_eq (h : q.released = q.used) (hlast : ∀ c ∈ q.text.getLast?, c.kind ≠ .byte) :
    q.LineShaped := by
  refine ⟨?_, ?_⟩
  · rw [take_of_length_le (by rw [q.text_length, h])]
    exact hlast
  · rw [drop_eq_nil_of_le (by rw [q.text_length, h])]
    exact fun _ hc => nomatch hc

theorem pushByte (h : q.LineShaped) (hfits : q.Fits) (hroom : q.used < ttyBufSize)
    (value : UInt8) : (q.ttyQueuePush value .byte).LineShaped := by
  have hle : q.released ≤ q.text.length := q.text_length ▸ hfits.released_le
  refine ⟨?_, ?_⟩
  · rw [text_push hroom]
    show ∀ c ∈ ((q.text ++ _).take q.released).getLast?, _
    rw [take_append_of_le_length hle]
    exact h.finished
  · rw [text_push hroom]
    show ∀ c ∈ (q.text ++ _).drop q.released, _
    rw [drop_append_of_le_length hle]
    intro c hc
    rcases mem_append.mp hc with hc | hc
    · exact h.plain c hc
    · rw [mem_singleton.mp hc]

theorem pushEnd (hroom : q.used < ttyBufSize) (value : UInt8) {kind : CellKind}
    (hkind : kind ≠ .byte) : (q.ttyQueuePush value kind).LineShaped := by
  refine of_released_eq (if_neg hkind) ?_
  rw [text_push hroom, getLast?_concat]
  rintro c ⟨⟩
  exact hkind

theorem pop (h : q.LineShaped) (hfits : q.Fits) (hpos : 0 < q.used) : q.ttyQueuePop.LineShaped := by
  obtain ⟨hfinished, hplain⟩ := h
  rw [text_pop hpos hfits.used_le] at hfinished hplain
  generalize q.ttyQueueCell 0 = c at hfinished hplain
  have hrel : q.ttyQueuePop.released = q.released - 1 := rfl
  cases hr : q.released with
  | zero =>
    rw [hr, Nat.zero_sub] at hrel
    rw [hr] at hplain
    refine ⟨?_, ?_⟩
    · rw [hrel]
      exact fun _ hc => nomatch hc
    · rw [hrel]
      exact fun c hc => hplain c (mem_cons_of_mem _ hc)
  | succ k =>
    rw [hr, Nat.add_sub_cancel] at hrel
    rw [hr, take_succ_cons] at hfinished
    rw [hr, drop_succ_cons] at hplain
    refine ⟨?_, ?_⟩
    · rw [hrel]
      intro c' hc'
      refine hfinished c' ?_
      rw [getLast?_cons, mem_def.mp hc']
      rfl
    · rwa [hrel]

theorem drop (h : q.LineShaped) (hfits : q.Fits) {size : Nat}
    (hsize : size ≤ q.used - q.released) : (q.drop size).LineShaped := by
  have hle := hfits.released_le
  refine ⟨?_, ?_⟩
  · rw [text_drop]
    show ∀ c ∈ ((q.text.take (q.used - size)).take q.released).getLast?, _
    rw [take_take, Nat.min_eq_left (by omega)]
    exact h.finished
  · rw [text_drop]
    show ∀ c ∈ (q.text.take (q.used - size)).drop q.released, _
    rw [drop_take]
    exact fun c hc => h.plain c (mem_of_mem_take hc)

theorem relabel (hfits : q.Fits) : (q.ttyQueueRelabel true).LineShaped := by
  refine of_released_eq rfl fun c hc => ?_
  rw [text_relabel hfits.used_le, getLast?_eq_getElem?, getElem?_mapIdx,
    length_mapIdx, q.text_length] at hc
  obtain ⟨c', hc', rfl⟩ := map_eq_some_iff.mp hc
  have hpos : 0 < q.used := by
    have := (List.getElem?_eq_some_iff.mp hc').1
    rw [q.text_length] at this
    omega
  have hlast : (q.used - 1 + 1 == q.used) = true := by
    rw [beq_iff_eq]
    omega
  show (relabelCell true (q.used - 1 + 1 == q.used) c').kind ≠ .byte
  rw [hlast]
  show (if c'.kind = .eofMark then c' else { c' with kind := .lineEnd }).kind ≠ .byte
  split
  · next hmark =>
    rw [hmark]
    exact fun h => nomatch h
  · exact fun h => nomatch h

end LineShaped

/-! ## the queue in a mode -/

/-- what holds of the queue of a terminal in line mode or out of it -/
structure Ok (lineMode : Bool) : Prop where
  fits : q.Fits
  line : lineMode = true → q.LineShaped
  raw : lineMode = false → q.released = 0

namespace Ok

variable {q} {lineMode : Bool}

theorem of_empty (hused : q.used = 0) (hreleased : q.released = 0) : q.Ok lineMode := by
  have htext : q.text = [] := eq_nil_of_length_eq_zero (q.text_length.trans hused)
  refine ⟨⟨by omega, by omega⟩, fun _ => .of_released_eq (by omega) ?_, fun _ => hreleased⟩
  rw [htext]
  exact fun _ hc => nomatch hc

theorem clear : q.clear.Ok lineMode := of_empty rfl rfl

theorem pushByte (h : q.Ok lineMode) (hroom : q.used < ttyBufSize) (value : UInt8) :
    (q.ttyQueuePush value .byte).Ok lineMode :=
  ⟨h.fits.push hroom _ _, fun hline => (h.line hline).pushByte h.fits hroom value, h.raw⟩

theorem pushEnd (h : q.Ok true) (hroom : q.used < ttyBufSize) (value : UInt8)
    {kind : CellKind} (hkind : kind ≠ .byte) : (q.ttyQueuePush value kind).Ok true :=
  ⟨h.fits.push hroom _ _, fun _ => .pushEnd hroom value hkind, fun h => nomatch h⟩

theorem pop (h : q.Ok lineMode) (hpos : 0 < q.used) : q.ttyQueuePop.Ok lineMode :=
  ⟨h.fits.pop, fun hline => (h.line hline).pop h.fits hpos, fun hraw => by
    show q.released - 1 = 0
    rw [h.raw hraw]⟩

theorem drop (h : q.Ok lineMode) {size : Nat} (hsize : size ≤ q.used - q.released) :
    (q.drop size).Ok lineMode :=
  ⟨h.fits.drop hsize, fun hline => (h.line hline).drop h.fits hsize, h.raw⟩

theorem relabel (h : q.Ok lineMode) (toLineMode : Bool) :
    (q.ttyQueueRelabel toLineMode).Ok toLineMode := by
  refine ⟨h.fits.relabel _, ?_, ?_⟩
  · rintro rfl
    exact .relabel h.fits
  · rintro rfl
    rfl

end Ok

end TtyQueue

end Pscal.Terminal
