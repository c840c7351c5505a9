import Pscal.Tty.EditorSpec
import Pscal.Tty.ThreadsSpec

/-!
# What is typed and read in line mode

* `cut_of_run`  the reads of the editor cut its pieces, in order;
* `lineStep_editor`  a step of the terminal is a step of the editor;
* `ttyLine_editor`  so is a run.
-/

namespace Pscal.Terminal

open Transitions List Option

/-! ## what the reads of the editor cut -/

namespace Cut

variable {ps left : List Piece} {outs : List (List UInt8)}

theorem append (h : Cut ps outs left) (qs : List Piece) : Cut (ps ++ qs) outs (left ++ qs) := by
  induction h with
  | nil => exact .nil
  | part hpos hsize h ih => exact .part hpos hsize ih
  | whole h ih => exact .whole ih

theorem trans {left' : List Piece} {outs' : List (List UInt8)} (h : Cut ps outs left)
    (h' : Cut left outs' left') : Cut ps (outs ++ outs') left' := by
  induction h with
  | nil => exact h'
  | part hpos hsize h ih => exact .part hpos hsize (ih h')
  | whole h ih => exact .whole (ih h')

end Cut

variable {e e' : Editor}

theorem cut_read {size : Nat} {out : List UInt8} (hsize : 0 < size)
    (h : e.read size = some (out, e')) : Cut e.ready [out] e'.ready := by
  unfold Editor.read at h
  cases hps : e.ready with
  | nil =>
    rw [hps] at h
    cases h
  | cons p ps =>
    rw [hps] at h
    obtain ⟨rfl, rfl⟩ := Prod.mk.inj (some_inj.mp h)
    dsimp only
    by_cases hshort : size < p.bytes.length
    · rw [if_pos hshort]
      exact .part hsize hshort .nil
    · rw [if_neg hshort, take_of_length_le (by omega)]
      exact .whole .nil

theorem finish_ready {p : Piece} (h : e.finish p = some e') : e'.ready = e.ready ++ [p] := by
  unfold Editor.finish at h
  split at h
  · cases h
  · rw [← some_inj.mp h]

theorem press_ready {m : EditorModes} {byte : UInt8} (h : e.press m byte = some e')
    (hkeeps : ¬ e.Clears m byte) : ∃ new, e'.ready = e.ready ++ new := by
  have hsame : ∀ {e' : Editor}, e'.ready = e.ready → ∃ new, e'.ready = e.ready ++ new :=
    fun h => ⟨[], by rw [h, append_nil]⟩
  unfold Editor.press at h
  cases hkey : e.key m byte with
  | eof =>
    rw [hkey] at h
    exact ⟨_, finish_ready h⟩
  | lineEnd b =>
    rw [hkey] at h
    exact ⟨_, finish_ready h⟩
  | readerKey b =>
    rw [hkey] at h
    have hnoflsh : m.termios.hasL Flag.noflsh = true := by
      rw [← Bool.not_eq_false]
      exact fun hclear => hkeeps ⟨hclear, .inr ⟨b, hkey⟩⟩
    have hflush : e.flush m = e := if_pos hnoflsh
    dsimp only at h
    rw [hflush] at h
    exact ⟨_, finish_ready h⟩
  | signal i =>
    rw [hkey] at h
    have h := some_inj.mp h
    split at h
    · exact hsame (by rw [← h])
    · next hgroup =>
      have hnoflsh : m.termios.hasL Flag.noflsh = true := by
        rw [← Bool.not_eq_false]
        exact fun hclear => hkeeps ⟨hclear, .inl ⟨⟨i, hkey⟩, hgroup⟩⟩
      rw [show e.flush m = e from if_pos hnoflsh] at h
      exact hsame (by rw [← h])
  | plain b =>
    rw [hkey] at h
    dsimp only at h
    unfold Editor.type at h
    split at h
    · exact hsame (by rw [← some_inj.mp h])
    · split at h
      · cases h
      · exact hsame (by rw [← some_inj.mp h])
  | nothing | erase | kill | wordErase | literalNext =>
    rw [hkey] at h
    obtain rfl := some_inj.mp h
    exact hsame rfl

theorem cut_of_run {m : EditorModes} {e₀ : Editor} {tr : List LineEvent}
    (h : Run (EditorStep m) e₀ tr e) (hkeeps : KeepsAll m e₀ tr) :
    ∃ finished, Cut (e₀.ready ++ finished) (reads tr) e.ready := by
  induction h with
  | start => exact ⟨[], by rw [append_nil]; exact .nil⟩
  | @next tr e e' ev h hstep ih =>
    obtain ⟨finished, hcut⟩ := ih fun tr₁ byte tr₂ e₁ htr =>
      hkeeps tr₁ byte (tr₂ ++ [ev]) e₁ (by rw [htr, append_assoc]; rfl)
    have hreads : reads (tr ++ [ev]) = reads tr ++ reads [ev] := filterMap_append
    rw [hreads]
    cases hstep with
    | press hpress =>
      obtain ⟨new, hnew⟩ := press_ready hpress (hkeeps tr _ [] e rfl h)
      refine ⟨finished ++ new, ?_⟩
      show Cut _ (reads tr ++ []) _
      rw [append_nil, hnew, ← append_assoc]
      exact hcut.append new
    | read hsize hread => exact ⟨finished, hcut.trans (cut_read hsize hread)⟩
    | refused | work | empty =>
      refine ⟨finished, ?_⟩
      show Cut _ (reads tr ++ []) _
      rw [append_nil]
      exact hcut

/-! ## runs -/

theorem pieceCells_last {ps : List Piece} (h : ∀ p ∈ ps, p.Whole) :
    ∀ c ∈ (pieceCells ps).getLast?, c.kind ≠ .byte := by
  rcases eq_nil_or_concat ps with rfl | ⟨ps, ⟨bytes, byKey⟩, rfl⟩
  · exact fun _ hc => nomatch hc
  · rw [concat_eq_append] at h ⊢
    have hwhole := h ⟨bytes, byKey⟩ (mem_append_right _ (mem_singleton_self _))
    have hlast : ∃ (line : List TtyCell) (kind : CellKind) (byte : UInt8), kind ≠ .byte ∧
        (Piece.mk bytes byKey).cells = line ++ [(⟨byte, kind⟩ : TtyCell)] := by
      cases byKey with
      | true => exact ⟨bytes.map plainCell, .eofMark, 0, eofMark_ne_byte, rfl⟩
      | false =>
        rcases eq_nil_or_concat bytes with rfl | ⟨bytes, byte, rfl⟩
        · exact absurd rfl (hwhole rfl)
        · rw [concat_eq_append]
          exact ⟨bytes.map plainCell, .lineEnd, byte, lineEnd_ne_byte, Piece.cells_line bytes byte⟩
    obtain ⟨line, kind, byte, hkind, hcells⟩ := hlast
    rw [pieceCells_append, pieceCells_cons, hcells]
    show ∀ c ∈ (pieceCells ps ++ (line ++ [(⟨byte, kind⟩ : TtyCell)] ++ [])).getLast?, _
    rw [append_nil, ← append_assoc, getLast?_concat]
    rintro c ⟨⟩
    exact hkind

theorem Represents.ok {tty : Tty} {rest : Rest} (h : Represents tty rest e) (htyped : tty.Typed) :
    tty.Ok := by
  obtain ⟨u, hholds, -, -⟩ := h.line
  refine ⟨hholds.fits, fun _ => ⟨?_, ?_⟩, fun hraw => ?_⟩
  · rw [hholds.text, hholds.released, take_left]
    exact pieceCells_last h.whole
  · rw [hholds.text, hholds.released, drop_left]
    intro c hc
    obtain ⟨byte, -, rfl⟩ := List.mem_map.mp hc
    rfl
  · rw [htyped.lineMode] at hraw
    cases hraw

theorem Tty.SameModes.typed {tty tty' : Tty} (h : tty.SameModes tty') (htyped : tty.Typed) :
    tty'.Typed ∧ tty'.editorModes = tty.editorModes := by
  refine ⟨⟨h.lineMode.trans htyped.lineMode, h.down.trans htyped.up⟩, ?_⟩
  show tty'.modes.editorModes = tty.modes.editorModes
  exact congrArg Tty.editorModes h

theorem lineStep_editor {t t' : Typist} {ev : LineEvent} (h : LineStep t ev t')
    (htyped : t.tty.Typed) (hrep : Represents t.tty t.rest e) :
    t.tty.SameModes t'.tty ∧ ∃ e', EditorStep t.tty.editorModes e ev e' ∧
      Represents t'.tty t'.rest e' := by
  cases h with
  | @press tty byte c run rest hbyte =>
    refine ⟨(ttyInputByte_ok (hrep.ok htyped) hbyte).2, ?_⟩
    rw [ttyInputByte, if_pos htyped.lineMode] at hbyte
    rcases @represents_press e { c with tty := tty } hrep byte with ⟨-, h'⟩ |
      ⟨e', run', rest', he', h', hrep'⟩
    · cases h'.symm.trans hbyte
    · obtain ⟨rfl, rfl⟩ := Prod.mk.inj (some_inj.mp (h'.symm.trans hbyte))
      exact ⟨e', .press he', hrep'⟩
  | @refused tty byte c hbyte =>
    rw [ttyInputByte, if_pos htyped.lineMode] at hbyte
    rcases @represents_press e { c with tty := tty } hrep byte with ⟨he', -⟩ |
      ⟨e', run', rest', -, h', -⟩
    · exact ⟨rfl, e, .refused he', hrep⟩
    · cases h'.symm.trans hbyte
  | @work tty rest => exact ⟨restStep_modes tty rest, e, .work, represents_work hrep⟩
  | @read tty tty' rest size nonblocking out hsize hread =>
    rw [ttyReadTurn_typed htyped] at hread
    split at hread
    · next hrel =>
      have hready : e.ready ≠ [] := fun hnil => by
        have := hrep.released_eq_zero.mpr hnil
        omega
      obtain ⟨e', he', hrep'⟩ := represents_read hrep hready size
      cases hread
      exact ⟨(ttyCopyLine_ok (hrep.ok htyped) size).2, e', .read hsize he', hrep'⟩
    · unfold ReadTurn.orWait at hread
      split at hread <;> cases hread
  | @empty tty rest size hread =>
    rw [ttyReadTurn_typed htyped] at hread
    split at hread
    · cases hread
    · next hrel =>
      exact ⟨rfl, e, .empty (hrep.released_eq_zero.mp (by omega)), hrep⟩

/-- whatever is typed and read in line mode, the terminal does what the editor does, and the reads
cut the finished pieces in order while no key throws them away -/
theorem ttyLine_editor {t₀ t : Typist} {e₀ : Editor} {tr : List LineEvent}
    (htyped : t₀.tty.Typed) (hrep : Represents t₀.tty t₀.rest e₀) (h : Run LineStep t₀ tr t) :
    ∃ e, Run (EditorStep t₀.tty.editorModes) e₀ tr e ∧ Represents t.tty t.rest e ∧
      (KeepsAll t₀.tty.editorModes e₀ tr →
        ∃ finished, Cut (e₀.ready ++ finished) (reads tr) e.ready) := by
  suffices hrun : t.tty.Typed ∧ t.tty.editorModes = t₀.tty.editorModes ∧
      ∃ e, Run (EditorStep t₀.tty.editorModes) e₀ tr e ∧ Represents t.tty t.rest e by
    obtain ⟨-, -, e, hrun, hrep⟩ := hrun
    exact ⟨e, hrun, hrep, cut_of_run hrun⟩
  induction h with
  | start => exact ⟨htyped, rfl, e₀, .start, hrep⟩
  | next h hstep ih =>
    obtain ⟨htyped, hmodes, e, hrun, hrep⟩ := ih
    obtain ⟨hsame, e', hstep', hrep'⟩ := lineStep_editor hstep htyped hrep
    obtain ⟨htyped', hmodes'⟩ := hsame.typed htyped
    exact ⟨htyped', hmodes'.trans hmodes, e', hrun.next (hmodes ▸ hstep'), hrep'⟩

/-- a line is typed at a slave just made -/
theorem ttyLine_editor_line : ∃ t : Typist,
    Run LineStep ⟨.ttyCreate false, .done⟩ [.press 97, .press 10] t ∧
      ∃ e, Run (EditorStep (Tty.ttyCreate false).editorModes) .start [.press 97, .press 10] e ∧
        Represents t.tty t.rest e := by
  obtain ⟨t, hrun⟩ : ∃ t : Typist, Run LineStep ⟨.ttyCreate false, .done⟩
      [.press 97, .press 10] t :=
    ⟨_, (Run.start.next (.press .fresh rfl)).next (.press .fresh rfl)⟩
  obtain ⟨e, he, hrep, -⟩ := @ttyLine_editor ⟨.ttyCreate false, .done⟩ t .start _ ⟨rfl, rfl⟩
    (represents_start rfl rfl rfl) hrun
  exact ⟨t, hrun, e, he, hrep⟩

/-- a line is typed, its end, and the key of `SIGINT_`: the line is gone -/
theorem ttyLine_lost : ∃ t₁ t₂ : Typist,
    Run LineStep ⟨{ Tty.ttyCreate false with fgGroup := 1 }, .done⟩ [.press 97, .press 10] t₁ ∧
      t₁.tty.queue.released = 2 ∧ LineStep t₁ (.press 3) t₂ ∧ t₂.tty.queue.used = 0 ∧
      LineStep t₂ .empty t₂ :=
  ⟨_, _, (Run.start.next (.press .fresh rfl)).next (.press .fresh rfl), rfl, .press .fresh rfl, rfl,
    @LineStep.empty _ _ 1 rfl⟩

end Pscal.Terminal
