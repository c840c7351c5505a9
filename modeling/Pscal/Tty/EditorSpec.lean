import Pscal.Tty.LineQueue

/-!
# A terminal in line mode is the line editor

* `Represents`  a terminal holds the pieces and the line of an editor;
* `represents_press`  a byte does the same to both;
* `represents_work`  the work on a byte ends where the editor already is;
* `ttyCopyLine_piece`, `represents_read`  a read takes the same bytes from both.
-/

namespace Pscal.Terminal

open List

/-! ## the relation -/

/-- what becomes of the line, given backwards, when the work on a byte is done -/
def Rest.edit (t : Termios) : Rest → List UInt8 → List UInt8
  | .done | .literalTaken => id
  | .killing => fun _ => []
  | .wordErasing inWord => eraseWord t inWord

def Tty.editorModes (tty : Tty) : EditorModes := ⟨tty.termios, tty.sessionReader, tty.fgGroup⟩

structure Tty.Typed (tty : Tty) : Prop where
  lineMode : tty.ttyLineMode = true
  up : tty.ttyIsDown = false

/-- the terminal holds the pieces of the editor, and a line that is the editor's when the work on
the last byte is done -/
structure Represents (tty : Tty) (rest : Rest) (e : Editor) : Prop where
  whole : ∀ p ∈ e.ready, p.Whole
  line : ∃ u : List UInt8, tty.queue.Holds (pieceCells e.ready) u ∧ u.length < ttyBufSize ∧
    (rest.edit tty.termios u.reverse).reverse = e.typing
  literal : e.literal = (tty.literalNext && rest != .literalTaken)

theorem represents_start {tty : Tty} (hused : tty.queue.used = 0)
    (hreleased : tty.queue.released = 0) (hliteral : tty.literalNext = false) :
    Represents tty .done .start where
  whole := fun _ hp => nomatch hp
  line := ⟨[], ⟨⟨by omega, by omega⟩,
    eq_nil_of_length_eq_zero (tty.queue.text_length.trans hused), hreleased⟩, by decide, rfl⟩
  literal := by rw [hliteral]; rfl

section
variable {tty : Tty} {rest : Rest} {e : Editor}

theorem Represents.holds (h : Represents tty .done e) :
    tty.queue.Holds (pieceCells e.ready) e.typing ∧ e.typing.length < ttyBufSize := by
  obtain ⟨u, hholds, hlen, hu⟩ := h.line
  obtain rfl : u = e.typing := by
    rw [← hu]
    exact (reverse_reverse u).symm
  exact ⟨hholds, hlen⟩

theorem Represents.used (h : Represents tty .done e) : tty.queue.used = e.positions := by
  rw [h.holds.1.used, pieceCells_length]
  rfl

theorem Represents.released_eq_zero (h : Represents tty rest e) :
    tty.queue.released = 0 ↔ e.ready = [] := by
  obtain ⟨u, hholds, -, -⟩ := h.line
  rw [hholds.released]
  exact pieceCells_eq_nil h.whole

/-! ## the work on a byte -/

theorem eraseWord_cons (t : Termios) (inWord : Bool) (byte : UInt8) (line : List UInt8) :
    eraseWord t inWord (byte :: line) =
      if ttyByteInWord (lastChar t byte line).2 then eraseWord t true (eraseChar t (byte :: line))
      else if inWord then byte :: line
      else eraseWord t inWord (eraseChar t (byte :: line)) := by
  rw [eraseWord, eraseChar]

theorem eraseChar_length_le (t : Termios) (line : List UInt8) :
    (eraseChar t line).length ≤ line.length := by
  cases line with
  | nil => exact Nat.le_refl _
  | cons byte line =>
    rw [eraseChar, length_drop, length_cons]
    omega

theorem represents_work (h : Represents tty rest e) :
    Represents (restStep tty rest).1 (restStep tty rest).2 e := by
  obtain ⟨u, hholds, hlen, hu⟩ := h.line
  have herased : u ≠ [] → (ttyEraseChar tty).queue.Holds (pieceCells e.ready)
      (eraseChar tty.termios u.reverse).reverse ∧
      (eraseChar tty.termios u.reverse).reverse.length < ttyBufSize := by
    intro hne
    refine ⟨ttyEraseChar_holds hholds hne, ?_⟩
    have := eraseChar_length_le tty.termios u.reverse
    rw [length_reverse] at this ⊢
    omega
  cases rest with
  | done => exact h
  | literalTaken =>
    refine ⟨h.whole, ⟨u, hholds, hlen, hu⟩, ?_⟩
    rw [h.literal]
    show (tty.literalNext && false) = (false && true)
    rw [Bool.and_false, Bool.false_and]
  | killing =>
    have htyping : e.typing = [] := hu.symm
    rw [restStep]
    split
    · next hun =>
      obtain ⟨hholds', hlen'⟩ := herased (hholds.hasUnfinished.mp hun)
      exact ⟨h.whole, ⟨_, hholds', hlen', hu⟩, h.literal⟩
    · next hun =>
      obtain rfl : u = [] := not_not.mp fun hne => hun (hholds.hasUnfinished.mpr hne)
      exact ⟨h.whole, ⟨[], hholds, hlen, htyping.symm⟩, h.literal⟩
  | wordErasing inWord =>
    rw [restStep]
    split
    · next hun =>
      have hne := hholds.hasUnfinished.mp hun
      obtain ⟨hholds', hlen'⟩ := herased hne
      obtain ⟨byte, line, hrev⟩ := exists_cons_of_ne_nil (reverse_ne_nil_iff.mpr hne)
      have hu' := hu
      rw [Rest.edit, hrev, eraseWord_cons] at hu'
      rw [ttyLastCharSize_eq hholds hrev]
      split at hu'
      · next hword =>
        rw [if_pos hword]
        refine ⟨h.whole, ⟨_, hholds', hlen', ?_⟩, h.literal⟩
        rw [reverse_reverse, hrev]
        exact hu'
      · next hword =>
        rw [if_neg hword]
        split at hu'
        · next hin =>
          rw [if_pos hin]
          refine ⟨h.whole, ⟨u, hholds, hlen, ?_⟩, h.literal⟩
          rw [← hu', ← hrev]
          rfl
        · next hin =>
          rw [if_neg hin]
          refine ⟨h.whole, ⟨_, hholds', hlen', ?_⟩, h.literal⟩
          rw [reverse_reverse, hrev]
          exact hu'
    · next hun =>
      obtain rfl : u = [] := not_not.mp fun hne => hun (hholds.hasUnfinished.mpr hne)
      refine ⟨h.whole, ⟨[], hholds, hlen, ?_⟩, h.literal⟩
      rw [← hu]
      show [] = (eraseWord tty.termios inWord []).reverse
      rw [eraseWord]
      rfl

/-! ## a byte -/

theorem represents_full (h : Represents tty .done e) :
    e.full = true ↔ ttyBufSize ≤ tty.queue.used := by
  rw [Editor.full, decide_eq_true_iff, h.used]

theorem Represents.ready_of_full (h : Represents tty .done e) (hfull : e.full = true) :
    e.ready ≠ [] := by
  intro hready
  obtain ⟨hholds, hlen⟩ := h.holds
  have hused := hholds.used
  rw [hready] at hused
  have := (represents_full h).mp hfull
  have hnil : (pieceCells []).length = 0 := rfl
  omega

theorem Piece.cells_line (bytes : List UInt8) (byte : UInt8) :
    (Piece.mk (bytes ++ [byte]) false).cells = bytes.map plainCell ++ [⟨byte, .lineEnd⟩] :=
  lineCells_append bytes byte

theorem represents_lineEnd {run : TtyInputRun} (h : Represents run.tty .done e) (byte : UInt8)
    {kind : CellKind} {p : Piece} (hkind : kind ≠ .byte) (hwhole : p.Whole)
    (hp : p.cells = e.typing.map plainCell ++ [⟨byte, kind⟩]) :
    (e.finish p = none ∧ ttyInputLineEnd run byte kind = none) ∨
    ∃ e' run', e.finish p = some e' ∧ ttyInputLineEnd run byte kind = some run' ∧
      Represents run'.tty .done e' := by
  unfold Editor.finish ttyInputLineEnd
  obtain ⟨hholds, -⟩ := h.holds
  by_cases hfull : e.full = true
  · rw [if_pos hfull]
    have hrel : 0 < run.tty.queue.released :=
      Nat.pos_of_ne_zero fun hrel => h.ready_of_full hfull (h.released_eq_zero.mp hrel)
    have hused := (represents_full h).mp hfull
    rw [ttyMakeRoomForLineEnd, if_neg (by omega), if_pos hrel]
    exact .inl ⟨rfl, rfl⟩
  · have hroom : run.tty.queue.used < ttyBufSize := by
      rw [represents_full h] at hfull
      omega
    rw [if_neg hfull, ttyMakeRoomForLineEnd, if_pos hroom]
    refine .inr ⟨_, _, rfl, rfl, ?_, ⟨[], ?_, by decide, rfl⟩, h.literal⟩
    · intro p' hp'
      rcases mem_append.mp hp' with hp' | hp'
      · exact h.whole p' hp'
      · rw [mem_singleton.mp hp']
        exact hwhole
    · have hpush := hholds.pushEnd hroom byte hkind
      rw [← hp] at hpush
      show (run.tty.queue.ttyQueuePush byte kind).Holds (pieceCells (e.ready ++ [p])) []
      rw [pieceCells_append]
      show (run.tty.queue.ttyQueuePush byte kind).Holds (_ ++ (p.cells ++ [])) []
      rwa [append_nil]

theorem represents_plain {run : TtyInputRun} (h : Represents run.tty .done e) (byte : UInt8) :
    (e.type run.tty.editorModes byte = none ∧ ttyInputPlainByte run byte = none) ∨
    ∃ e' run', e.type run.tty.editorModes byte = some e' ∧
      ttyInputPlainByte run byte = some run' ∧
      Represents run'.tty (if run.tty.literalNext then .literalTaken else .done) e' := by
  obtain ⟨hholds, hlen⟩ := h.holds
  have hused := h.used
  have hliteral : ∀ rest : Rest, rest = (if run.tty.literalNext then .literalTaken else .done) →
      false = (run.tty.literalNext && rest != .literalTaken) := by
    rintro rest rfl
    cases run.tty.literalNext <;> rfl
  have hedit : ∀ line : List UInt8, ((if run.tty.literalNext then Rest.literalTaken
      else .done : Rest).edit run.tty.termios line.reverse).reverse = line := by
    intro line
    cases run.tty.literalNext <;> exact reverse_reverse line
  unfold Editor.type
  rcases ttyInputPlainByte_cases run byte with ⟨hroom, hrel, h'⟩ | ⟨hfull, hrel, h'⟩ |
    ⟨hfull, hrel, h'⟩
  · rw [h', if_pos ⟨h.released_eq_zero.mp hrel, by omega⟩]
    exact .inr ⟨_, _, rfl, rfl, h.whole, ⟨e.typing, hholds, hlen, hedit _⟩, hliteral _ rfl⟩
  · have hready : ¬ (e.ready = [] ∧ ttyBufSize ≤ e.positions + 1) := fun hready => by
      have := h.released_eq_zero.mpr hready.1
      omega
    rw [h', if_neg hready, if_pos ((represents_full h).mpr (by omega))]
    exact .inl ⟨rfl, rfl⟩
  · have hle := hholds.fits.used_le
    have hready : ¬ (e.ready = [] ∧ ttyBufSize ≤ e.positions + 1) := fun hready => by
      have := hrel (h.released_eq_zero.mpr hready.1)
      omega
    have hnot : ¬ e.full = true := by
      rw [represents_full h]
      omega
    rw [h', if_neg hready, if_neg hnot]
    refine .inr ⟨_, _, rfl, rfl, h.whole, ⟨_, ?_, ?_, hedit _⟩, hliteral _ rfl⟩
    · -- the byte, and again where it is doubled
      have hone := hholds.pushByte (by omega) byte
      have hroom : (run.tty.queue.ttyQueuePush byte .byte).used = e.positions + 1 := by
        rw [← hused]
        rfl
      show (pushDoubled run.tty.termios run.tty.queue byte
        fun q => decide (q.used + 1 < ttyBufSize)).Holds (pieceCells e.ready)
        (e.typing ++ byte :: (if (ttyInputDoubles run.tty.termios byte &&
          decide (e.positions + 2 < ttyBufSize)) = true then [byte] else []))
      rw [pushDoubled, hroom]
      split
      · next hagain =>
        have hlt := decide_eq_true_iff.mp (Bool.and_eq_true_iff.mp hagain).2
        have htwo := hone.pushByte (by omega) byte
        rwa [append_assoc] at htwo
      · exact hone
    · -- a piece takes a position, and a line of its own leaves one free
      have hpos : e.positions = (pieceCells e.ready).length + e.typing.length := by
        rw [pieceCells_length]
        rfl
      have hsome : (pieceCells e.ready).length = 0 → e.positions + 1 < ttyBufSize := by
        intro hzero
        have := hrel (by rw [hholds.released, hzero])
        omega
      rw [length_append, length_cons]
      split
      · next hagain =>
        have hlt := decide_eq_true_iff.mp (Bool.and_eq_true_iff.mp hagain).2
        rw [length_singleton]
        omega
      · rw [length_nil]
        omega

theorem represents_clear (tty : Tty) : Represents tty.ttyQueueClear .done .start where
  whole := fun _ hp => nomatch hp
  line := ⟨[], .clear, by decide, rfl⟩
  literal := rfl

theorem Represents.key_eq {rest : Rest} (h : Represents tty rest e) (hrest : rest = .done)
    (byte : UInt8) : e.key tty.editorModes byte = tty.key byte := by
  subst hrest
  have hliteral : e.literal = tty.literalNext := by
    rw [h.literal]
    exact Bool.and_true _
  rw [Editor.key, Tty.key, hliteral]
  rfl

theorem represents_edit (h : Represents tty .done e) {size : Nat} (hsize : size ≤ e.typing.length)
    (rest : Rest) {typing : List UInt8} (hrest : rest ≠ .literalTaken)
    (htyping : (rest.edit tty.termios (e.typing.reverse.drop size)).reverse = typing) :
    Represents (tty.setQueue (tty.queue.drop size)) rest { e with typing := typing } := by
  obtain ⟨hholds, hlen⟩ := h.holds
  refine ⟨h.whole, ⟨_, hholds.drop hsize, ?_, ?_⟩, ?_⟩
  · rw [length_reverse, length_drop, length_reverse]
    omega
  · rw [reverse_reverse]
    exact htyping
  · show e.literal = (tty.literalNext && rest != .literalTaken)
    rw [h.literal, bne_iff_ne.mpr hrest]
    rfl

theorem represents_eraseKey (h : Represents tty .done e) :
    Represents (ttyInputEraseKey tty) .done (e.edit (eraseChar tty.termios)) := by
  obtain ⟨hholds, hlen⟩ := h.holds
  unfold ttyInputEraseKey
  split
  · next hun =>
    refine ⟨h.whole, ⟨_, ttyEraseChar_holds hholds (hholds.hasUnfinished.mp hun), ?_, ?_⟩,
      h.literal⟩
    · have := eraseChar_length_le tty.termios e.typing.reverse
      rw [length_reverse] at this ⊢
      omega
    · exact reverse_reverse _
  · next hun =>
    have hnil : e.typing = [] := not_not.mp fun hne => hun (hholds.hasUnfinished.mpr hne)
    refine ⟨h.whole, ⟨[], hnil ▸ hholds, by decide, ?_⟩, h.literal⟩
    show [] = (eraseChar tty.termios e.typing.reverse).reverse
    rw [hnil]
    rfl

theorem represents_killKey (h : Represents tty .done e) :
    Represents (ttyInputKillKey tty).1 (ttyInputKillKey tty).2 { e with typing := [] } := by
  obtain ⟨hholds, hlen⟩ := h.holds
  unfold ttyInputKillKey
  split
  · next hun =>
    rw [Bool.not_eq_true'] at hun
    have hnil : e.typing = [] := not_not.mp fun hne =>
      absurd (hholds.hasUnfinished.mpr hne) (by rw [hun]; exact Bool.false_ne_true)
    exact ⟨h.whole, ⟨[], hnil ▸ hholds, by decide, rfl⟩, h.literal⟩
  · dsimp only
    split
    · exact ⟨h.whole, ⟨_, hholds, hlen, rfl⟩, h.literal⟩
    · have hsize : tty.queue.used - tty.queue.released = e.typing.length := by
        rw [hholds.used, hholds.released]
        omega
      refine represents_edit h (by omega) .done (fun h => nomatch h) ?_
      rw [hsize, drop_eq_nil_of_le (Nat.le_of_eq (length_reverse))]
      rfl

theorem represents_press {run : TtyInputRun} (h : Represents run.tty .done e) (byte : UInt8) :
    (e.press run.tty.editorModes byte = none ∧ ttyInputLineByte run byte = none) ∨
    ∃ e' run' rest', e.press run.tty.editorModes byte = some e' ∧
      ttyInputLineByte run byte = some (run', rest') ∧ Represents run'.tty rest' e' := by
  have htermios : run.tty.editorModes.termios = run.tty.termios := rfl
  rw [ttyInputLineByte_eq, Editor.press, h.key_eq rfl byte]
  -- the end of a line, at a terminal that is as it was or has just been cleared
  have hend : ∀ {run : TtyInputRun} {e : Editor}, Represents run.tty .done e → ∀ (byte : UInt8)
      (kind : CellKind) (p : Piece), kind ≠ .byte → p.Whole →
      p.cells = e.typing.map plainCell ++ [⟨byte, kind⟩] →
      (e.finish p = none ∧ (ttyInputLineEnd run byte kind).map (·, Rest.done) = none) ∨
      ∃ e' run' rest', e.finish p = some e' ∧
        (ttyInputLineEnd run byte kind).map (·, Rest.done) = some (run', rest') ∧
        Represents run'.tty rest' e' := by
    intro run e h byte kind p hkind hwhole hp
    rcases represents_lineEnd h byte hkind hwhole hp with ⟨he, hr⟩ | ⟨e', run', he, hr, h'⟩
    · exact .inl ⟨he, by rw [hr]; rfl⟩
    · exact .inr ⟨e', run', .done, he, by rw [hr]; rfl, h'⟩
  cases hkey : run.tty.key byte with
  | nothing => exact .inr ⟨_, _, _, rfl, rfl, h⟩
  | erase => exact .inr ⟨_, _, _, rfl, rfl, represents_eraseKey h⟩
  | kill => exact .inr ⟨_, _, _, rfl, rfl, represents_killKey h⟩
  | wordErase =>
    obtain ⟨hholds, hlen⟩ := h.holds
    exact .inr ⟨_, _, _, rfl, rfl, h.whole, ⟨_, hholds, hlen, rfl⟩, h.literal⟩
  | literalNext =>
    obtain ⟨hholds, hlen⟩ := h.holds
    exact .inr ⟨_, _, _, rfl, rfl, h.whole, ⟨_, hholds, hlen, reverse_reverse _⟩, rfl⟩
  | eof => exact hend h 0 .eofMark ⟨e.typing, true⟩ eofMark_ne_byte (fun h => nomatch h) rfl
  | lineEnd byte =>
    exact hend h byte .lineEnd ⟨e.typing ++ [byte], false⟩ lineEnd_ne_byte
      (fun _ => append_ne_nil_of_right_ne_nil _ (cons_ne_nil _ _))
      (Piece.cells_line _ _)
  | readerKey byte =>
    have hwhole : ∀ line : List UInt8, (Piece.mk (line ++ [byte]) false).Whole :=
      fun line _ => append_ne_nil_of_right_ne_nil _ (cons_ne_nil _ _)
    show (Editor.finish (e.flush run.tty.editorModes) _ = none ∧
      (ttyInputReaderKey run byte).map _ = none) ∨ _
    unfold Editor.flush pressKey ttyInputReaderKey
    dsimp only
    rw [htermios]
    split
    · exact hend h byte .lineEnd _ lineEnd_ne_byte (hwhole _) (Piece.cells_line _ _)
    · have hclear : Represents (run.setTty run.tty.ttyQueueClear).tty .done .start :=
        represents_clear run.tty
      exact hend hclear byte .lineEnd _ lineEnd_ne_byte (hwhole _) (Piece.cells_line _ _)
  | signal signalIndex =>
    refine .inr ⟨_, _, _, rfl, rfl, ?_⟩
    unfold ttySignalKey Editor.flush
    dsimp only
    rw [htermios]
    show Represents _ _ (if run.tty.fgGroup = 0 then _ else _)
    split
    · exact h
    · split
      · exact h
      · exact represents_clear run.tty
  | plain byte =>
    rcases represents_plain h byte with ⟨he, hr⟩ | ⟨e', run', he, hr, h'⟩
    · exact .inl ⟨he, by rw [pressKey, hr]; rfl⟩
    · exact .inr ⟨e', run', _, he, by rw [pressKey, hr]; rfl, h'⟩

end

/-! ## a read -/

theorem Piece.cells_cons (byte : UInt8) (bytes : List UInt8) {byKey : Bool}
    (h : (Piece.mk bytes byKey).Whole) :
    (Piece.mk (byte :: bytes) byKey).cells = plainCell byte :: (Piece.mk bytes byKey).cells := by
  cases byKey with
  | true => rfl
  | false =>
    obtain ⟨next, bytes, rfl⟩ := exists_cons_of_ne_nil (h rfl)
    rfl

theorem copyLineLoop_cons {q : TtyQueue} {cell : TtyCell} {more : List TtyCell} (hfits : q.Fits)
    (htext : q.text = cell :: more) (hkind : cell.kind ≠ .eofMark) (size : Nat) :
    q.ttyQueuePop.text = more ∧ copyLineLoop (size + 1) q =
      if cell.kind = .lineEnd then ([cell.value], true, q.ttyQueuePop)
      else (cell.value :: (copyLineLoop size q.ttyQueuePop).1,
        (copyLineLoop size q.ttyQueuePop).2) := by
  have hpos : 0 < q.used := by
    rw [← q.text_length, htext]
    exact Nat.succ_pos _
  obtain ⟨hcell, hmore⟩ := cons.inj (htext.symm.trans (TtyQueue.text_pop hpos hfits.used_le))
  have hmark : q.ttyQueueHeadIsMark = false := by
    rw [← Bool.not_eq_true, TtyQueue.headIsMark_iff htext]
    exact hkind
  refine ⟨hmore.symm, ?_⟩
  rw [copyLineLoop, hmark, decide_eq_true hpos, if_pos (show (true && !false) = true from rfl),
    hcell]

theorem copyLineLoop_piece (size : Nat) : ∀ {q : TtyQueue} {bytes : List UInt8} {byKey : Bool}
    {more : List TtyCell}, q.Fits → q.text = (Piece.mk bytes byKey).cells ++ more →
    (Piece.mk bytes byKey).Whole →
    (copyLineLoop size q).1 = bytes.take size ∧ (copyLineLoop size q).2.2.Fits ∧
      (copyLineLoop size q).2.2.released = q.released - (bytes.take size).length ∧
      if byKey = false ∧ bytes.length ≤ size then
        (copyLineLoop size q).2.1 = true ∧ (copyLineLoop size q).2.2.text = more
      else (copyLineLoop size q).2.1 = false ∧
        (copyLineLoop size q).2.2.text = (Piece.mk (bytes.drop size) byKey).cells ++ more := by
  induction size with
  | zero =>
    intro q bytes byKey more hfits htext hwhole
    have hnot : ¬ (byKey = false ∧ bytes.length ≤ 0) := fun h =>
      hwhole h.1 (length_eq_zero_iff.mp (Nat.le_zero.mp h.2))
    rw [if_neg hnot]
    exact ⟨rfl, hfits, rfl, rfl, htext⟩
  | succ size ih =>
    intro q bytes byKey more hfits htext hwhole
    cases bytes with
    | nil =>
      -- only the mark is left of the piece
      obtain rfl : byKey = true := by
        cases byKey with
        | true => rfl
        | false => exact absurd rfl (hwhole rfl)
      have hmark : q.ttyQueueHeadIsMark = true := (TtyQueue.headIsMark_iff htext).mpr rfl
      rw [copyLineLoop, hmark, Bool.not_true, Bool.and_false, if_neg Bool.false_ne_true,
        if_neg fun h => Bool.noConfusion h.1]
      exact ⟨rfl, hfits, rfl, rfl, htext⟩
    | cons byte bytes =>
      by_cases hlast : byKey = false ∧ bytes = []
      · -- the end of the line
        obtain ⟨rfl, rfl⟩ := hlast
        obtain ⟨hmore, hloop⟩ := copyLineLoop_cons hfits
          (show q.text = ⟨byte, .lineEnd⟩ :: more from htext) (fun h => by cases h) size
        rw [hloop, if_pos rfl, if_pos ⟨rfl, Nat.succ_le_succ (Nat.zero_le _)⟩,
          take_succ_cons, take_nil]
        exact ⟨rfl, hfits.pop, rfl, rfl, hmore⟩
      · have hwhole' : (Piece.mk bytes byKey).Whole := fun hkey hnil => hlast ⟨hkey, hnil⟩
        rw [Piece.cells_cons byte bytes hwhole'] at htext
        obtain ⟨hmore, hloop⟩ := copyLineLoop_cons hfits htext (fun h => by cases h) size
        obtain ⟨hout, hfits', hrel, hends⟩ := ih hfits.pop hmore hwhole'
        rw [hloop, if_neg (fun h => by cases h)]
        refine ⟨?_, hfits', ?_, ?_⟩
        · rw [hout]
          rfl
        · rw [hrel, take_succ_cons, length_cons]
          show q.released - 1 - _ = _
          omega
        · rw [length_cons, drop_succ_cons]
          simp only [Nat.add_le_add_iff_right]
          exact hends

theorem ttyCopyLine_piece {tty : Tty} {p : Piece} {ps : List Piece} {u : List UInt8}
    (h : tty.queue.Holds (pieceCells (p :: ps)) u) (hwhole : p.Whole) (size : Nat) :
    (ttyCopyLine tty size).1 = p.bytes.take size ∧
      (ttyCopyLine tty size).2.queue.Holds
        (pieceCells (if size < p.bytes.length then { p with bytes := p.bytes.drop size } :: ps
          else ps)) u := by
  obtain ⟨bytes, byKey⟩ := p
  have hcells : tty.queue.text = (Piece.mk bytes byKey).cells ++
      (pieceCells ps ++ u.map plainCell) := by
    rw [h.text, pieceCells_cons, append_assoc]
  have hreleased : tty.queue.released =
      (bytes.length + if byKey then 1 else 0) + (pieceCells ps).length := by
    rw [h.released, pieceCells_cons, length_append, Piece.cells_length]
    rfl
  obtain ⟨hout, hfits, hrel, hends⟩ := copyLineLoop_piece size h.fits hcells hwhole
  rw [hreleased, length_take] at hrel
  unfold ttyCopyLine
  generalize copyLineLoop size tty.queue = copied at hout hfits hrel hends
  obtain ⟨out, ended, q⟩ := copied
  dsimp only at hout hfits hrel hends ⊢
  refine ⟨hout, ?_⟩
  rw [Tty.broadcastWritable_queue, Tty.setQueue_queue]
  by_cases hshort : size < bytes.length
  · -- a part of the text
    rw [if_neg fun h => by omega] at hends
    obtain ⟨b, rest, hdrop⟩ : ∃ b rest, bytes.drop size = b :: rest :=
      exists_cons_of_ne_nil fun hnil => by
        have := drop_eq_nil_iff.mp hnil
        omega
    have hlen : rest.length + 1 = bytes.length - size := by
      rw [← length_drop, hdrop, length_cons]
    have hmark : ¬ q.ttyQueueHeadIsMark = true := by
      have htext := hends.2
      by_cases hlast : byKey = false ∧ rest = []
      · obtain ⟨rfl, rfl⟩ := hlast
        rw [hdrop] at htext
        rw [TtyQueue.headIsMark_iff (show q.text = ⟨b, .lineEnd⟩ :: _ from htext)]
        exact fun h => nomatch h
      · rw [hdrop, Piece.cells_cons b rest fun hkey hnil => hlast ⟨hkey, hnil⟩] at htext
        rw [TtyQueue.headIsMark_iff htext]
        exact fun h => nomatch h
    rw [Bool.not_eq_true] at hmark
    rw [hmark, Bool.false_and, if_neg Bool.false_ne_true, if_pos hshort]
    refine ⟨hfits, ?_, ?_⟩
    · rw [hends.2, pieceCells_cons, append_assoc]
    · rw [hrel, pieceCells_cons, length_append, Piece.cells_length, Piece.positions]
      dsimp only
      rw [length_drop]
      omega
  · rw [if_neg hshort]
    cases byKey with
    | false =>
      -- all of a line
      rw [if_pos ⟨rfl, by omega⟩] at hends
      rw [hends.1, Bool.not_true, Bool.and_false, if_neg Bool.false_ne_true]
      refine ⟨hfits, hends.2, ?_⟩
      rw [hrel, if_neg Bool.false_ne_true]
      omega
    | true =>
      -- all of the text, with the mark
      have hdrop : bytes.drop size = [] := drop_eq_nil_of_le (by omega)
      rw [if_neg (show ¬ (true = false ∧ bytes.length ≤ size) from fun h => nomatch h.1),
        hdrop] at hends
      have htext : q.text = ⟨0, .eofMark⟩ :: (pieceCells ps ++ u.map plainCell) := hends.2
      have hpos : 0 < q.used := by
        rw [← q.text_length, htext]
        exact Nat.succ_pos _
      have hpop := TtyQueue.text_pop hpos hfits.used_le
      rw [(TtyQueue.headIsMark_iff htext).mpr rfl, hends.1,
        if_pos (show (true && !false) = true from rfl)]
      refine ⟨hfits.pop, (cons.inj (hpop.symm.trans htext)).2, ?_⟩
      show q.released - 1 = _
      rw [hrel, if_pos rfl]
      omega

section
variable {tty : Tty} {rest : Rest} {e : Editor}

theorem Tty.Typed.slave {tty : Tty} (h : tty.Typed) : tty.isMaster = false := by
  have := (Bool.and_eq_true_iff.mp h.lineMode).1
  rwa [Bool.not_eq_true'] at this

theorem ttyReadTurn_typed (h : tty.Typed) (size : Nat) (nonblocking : Bool) :
    ttyReadTurn tty size nonblocking =
      if 0 < tty.queue.released then .copied (ttyCopyLine tty size)
      else .orWait tty nonblocking false := by
  unfold ttyReadTurn ttyReadSlaveTurn
  dsimp only
  rw [h.slave, h.up, h.lineMode, if_neg Bool.false_ne_true, if_neg Bool.false_ne_true, if_pos rfl]

theorem represents_read (h : Represents tty rest e) (hready : e.ready ≠ []) (size : Nat) :
    ∃ e', e.read size = some ((ttyCopyLine tty size).1, e') ∧
      Represents (ttyCopyLine tty size).2 rest e' := by
  obtain ⟨u, hholds, hlen, hu⟩ := h.line
  obtain ⟨p, ps, hps⟩ := exists_cons_of_ne_nil hready
  have hwhole := h.whole p (hps ▸ mem_cons_self)
  rw [hps] at hholds
  obtain ⟨hout, hholds'⟩ := ttyCopyLine_piece hholds hwhole size
  have hmodes : (ttyCopyLine tty size).2.termios = tty.termios ∧
      (ttyCopyLine tty size).2.literalNext = tty.literalNext := by
    unfold ttyCopyLine
    dsimp only
    split <;> exact ⟨rfl, rfl⟩
  rw [Editor.read, hps, hout]
  refine ⟨_, rfl, ?_, ⟨u, hholds', hlen, by rw [hmodes.1]; exact hu⟩, ?_⟩
  · intro p' hp'
    have hps' : ∀ p' ∈ ps, p'.Whole := fun p' hp' => h.whole p' (hps ▸ mem_cons_of_mem _ hp')
    dsimp only at hp'
    split at hp'
    · next hshort =>
      rcases mem_cons.mp hp' with rfl | hp'
      · refine fun _ hnil => ?_
        have := drop_eq_nil_iff.mp hnil
        omega
      · exact hps' p' hp'
    · exact hps' p' hp'
  · rw [hmodes.2]
    exact h.literal

end

end Pscal.Terminal
