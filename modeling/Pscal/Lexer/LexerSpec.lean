import Mathlib
import Pscal.Lib.TextPositions
import Pscal.Lexer.Lexer

/-!
# The contract of the lexer

What the calls of `getNextToken` make of a text: tokens with gaps between them.

* `NestedTail`, `Comment`, `Gap`  the grammar of what stands between two tokens;
* `Valid`, `Follows`, `Reaches`  the lexer knows its line and column, and keeps knowing them;
* `iteration_spec`, `getNextToken_spec`  one turn of the loop, and one call;
* `Contract`  the contract of all calls on a text;
* `lexemes_contract`  how far the lexer keeps it.
-/

namespace Pscal.Lexing

open List Option
open Wire (Bytes)
open DecimalText (isDigit)
open Paths (ascii)
open Shell (isspace)
open TextPositions

/-! ## gaps -/

/-- From the level `d` of a comment, the first text closes it and leaves the second one; or it ends
before. -/
inductive NestedTail (opener closer : Bytes) : Nat → Bytes → Bytes → Prop where
  | closed (u : Bytes) : NestedTail opener closer 0 u u
  | cut (d : Nat) : NestedTail opener closer (d + 1) [] []
  | close {d : Nat} {t u : Bytes} (h : NestedTail opener closer d t u) :
      NestedTail opener closer (d + 1) (closer ++ t) u
  | open {d : Nat} {t u : Bytes} (hc : ¬ closer <+: opener ++ t)
      (h : NestedTail opener closer (d + 2) t u) :
      NestedTail opener closer (d + 1) (opener ++ t) u
  | other {d : Nat} {c : UInt8} {t u : Bytes} (hc : ¬ closer <+: c :: t) (ho : ¬ opener <+: c :: t)
      (h : NestedTail opener closer (d + 1) t u) : NestedTail opener closer (d + 1) (c :: t) u

inductive Comment : Bytes → Bytes → Prop where
  | line {body : Bytes} (u : Bytes) (hbody : newline ∉ body) :
      Comment (ascii "//" ++ (body ++ newline :: u)) u
  | lastLine {body : Bytes} (hbody : newline ∉ body) : Comment (ascii "//" ++ body) []
  | brace {t u : Bytes} (h : NestedTail [openBrace] [closeBrace] 1 t u) : Comment (openBrace :: t) u
  | parenStar {t u : Bytes} (h : NestedTail (ascii "(*") (ascii "*)") 1 t u) :
      Comment (ascii "(*" ++ t) u

/-- blanks, comments, and the characters at the start of a text that is `tolerated` -/
inductive Gap (tolerated : Bytes → Prop) : Bytes → Bytes → Prop where
  | none (t : Bytes) : Gap tolerated t t
  | blank {c : UInt8} {t u : Bytes} (hc : isspace c) (h : Gap tolerated t u) :
      Gap tolerated (c :: t) u
  | comment {t v u : Bytes} (hc : Comment t v) (h : Gap tolerated v u) : Gap tolerated t u
  | stray {c : UInt8} {t u : Bytes} (hc : tolerated (c :: t)) (h : Gap tolerated t u) :
      Gap tolerated (c :: t) u

/-- the characters that a token, a blank or a comment begins with, but for the `!` of `!=` -/
def beginsSomething (c : UInt8) : Bool :=
  isspace c || isIdentifierChar c || c = openBrace || (ascii "#$'^:?;,.+-*/%()[]@=<>").contains c

def BeginsNothing (t : Bytes) : Prop :=
  ∃ c u, t = c :: u ∧ beginsSomething c = false ∧ (c = byte '!' → u.head? ≠ some (byte '='))

section
variable {tolerated : Bytes → Prop}

theorem Gap.trans {t v u : Bytes} (h : Gap tolerated t v) (h' : Gap tolerated v u) :
    Gap tolerated t u := by
  induction h with
  | none => exact h'
  | blank hc _ ih => exact .blank hc (ih h')
  | comment hc _ ih => exact .comment hc (ih h')
  | stray hc _ ih => exact .stray hc (ih h')

theorem gap_takeWhile (t : Bytes) : Gap tolerated t (t.dropWhile isspace) := by
  induction t with
  | nil => exact .none []
  | cons c t ih =>
    by_cases hc : isspace c
    · rw [dropWhile_cons_of_pos hc]
      exact .blank hc ih
    · rw [dropWhile_cons_of_neg hc]
      exact .none _

end

/-! ## places -/

/-- the columns of the first line are counted behind the mark of UTF-8 -/
def columnBase (text : Bytes) : Nat := if byteOrderMark.isPrefixOf text then 3 else 0

namespace Lexer

def lineAt (l : Lexer) (i : Nat) : Nat := lineOf newline l.text i

def columnAt (l : Lexer) (i : Nat) : Nat := columnOf newline (columnBase l.text) l.text i

structure Valid (l : Lexer) : Prop where
  noZero : 0 ∉ l.text
  base : columnBase l.text ≤ l.pos
  placed : l.pos < l.text.length → l.line = l.lineAt l.pos ∧ l.column = l.columnAt l.pos

structure Follows (l l' : Lexer) : Prop where
  text : l'.text = l.text
  le : l.pos ≤ l'.pos
  valid : l.Valid → l'.Valid

structure Reaches (l l' : Lexer) : Prop extends Follows l l' where
  inside : l'.pos ≤ max l.pos l.text.length

theorem Follows.refl (l : Lexer) : l.Follows l := ⟨rfl, Nat.le_refl _, id⟩

theorem Follows.trans {l l₁ l₂ : Lexer} (h : l.Follows l₁) (h' : l₁.Follows l₂) : l.Follows l₂ :=
  ⟨h'.text.trans h.text, Nat.le_trans h.le h'.le, h'.valid ∘ h.valid⟩

theorem Reaches.refl (l : Lexer) : l.Reaches l := ⟨.refl l, Nat.le_max_left _ _⟩

theorem Reaches.trans {l l₁ l₂ : Lexer} (h : l.Reaches l₁) (h' : l₁.Reaches l₂) : l.Reaches l₂ := by
  refine ⟨h.toFollows.trans h'.toFollows, ?_⟩
  have hin := h.inside
  have hin' := h'.inside
  rw [h.text] at hin'
  omega

section
variable {l : Lexer}

theorem lt_of_currentChar (h : l.currentChar ≠ 0) : l.pos < l.text.length := by
  by_contra hle
  exact h (getD_eq_default _ _ (Nat.le_of_not_lt hle))

theorem drop_pos (h : l.pos < l.text.length) :
    l.text.drop l.pos = l.currentChar :: l.text.drop (l.pos + 1) := by
  rw [drop_eq_getElem_cons h, currentChar, getD_eq_getElem _ _ h]

theorem currentChar_ne_zero (hv : l.Valid) (h : l.pos < l.text.length) : l.currentChar ≠ 0 := by
  rw [currentChar, getD_eq_getElem _ _ h]
  exact fun hz => hv.noZero (hz ▸ getElem_mem h)

theorem drop_of_currentChar (hv : l.Valid) (h : l.currentChar = 0) : l.text.drop l.pos = [] :=
  drop_eq_nil_of_le (Nat.le_of_not_lt fun hlt => currentChar_ne_zero hv hlt h)

@[simp] theorem advance_text : l.advance.text = l.text := by
  rw [advance]
  split <;> rfl

@[simp] theorem advance_pos : l.advance.pos = l.pos + 1 := by
  rw [advance]
  split <;> rfl

theorem advance_currentChar : l.advance.currentChar = l.nextChar := by
  rw [currentChar, nextChar, advance_text, advance_pos]

theorem advance_follows : l.Follows l.advance := by
  refine ⟨advance_text, by rw [advance_pos]; omega, fun hv => ⟨?_, ?_, ?_⟩⟩
  · rw [advance_text]
    exact hv.noZero
  · rw [advance_text, advance_pos]
    exact Nat.le_succ_of_le hv.base
  · rw [advance_text, advance_pos]
    intro hlt
    have hpos : l.pos < l.text.length := Nat.lt_of_succ_lt hlt
    have hchar : l.text[l.pos]? = some l.currentChar := by
      rw [currentChar, getD_eq_getElem _ _ hpos, getElem?_eq_getElem hpos]
    obtain ⟨hline, hcolumn⟩ := hv.placed hpos
    rw [lineAt, columnAt, advance_text, lineOf_succ newline hchar,
      columnOf_succ newline hchar hv.base, advance]
    by_cases hnl : l.currentChar = newline
    · rw [if_pos hnl, if_pos hnl, if_pos hnl]
      exact ⟨congrArg (· + 1) hline, rfl⟩
    · rw [if_neg hnl, if_neg hnl, if_neg hnl]
      exact ⟨hline, congrArg (· + 1) hcolumn⟩

theorem advance_reaches (h : l.pos < l.text.length) : l.Reaches l.advance := by
  refine ⟨advance_follows, ?_⟩
  rw [advance_pos]
  omega

@[simp] theorem advances_text (n : Nat) : (l.advances n).text = l.text := by
  induction n generalizing l with
  | zero => rfl
  | succ n ih => rw [advances, ih, advance_text]

@[simp] theorem advances_pos (n : Nat) : (l.advances n).pos = l.pos + n := by
  induction n generalizing l with
  | zero => rfl
  | succ n ih =>
    rw [advances, ih, advance_pos]
    omega

theorem advances_reaches {n : Nat} (h : l.pos + n ≤ l.text.length) : l.Reaches (l.advances n) := by
  induction n generalizing l with
  | zero => exact .refl l
  | succ n ih =>
    refine (advance_reaches (by omega)).trans (ih ?_)
    rw [advance_pos, advance_text]
    omega

/-! ## stretches of characters -/

section
variable {p : UInt8 → Bool}

theorem advanceWhileFor_reaches (hp : p 0 = false) (n : Nat) : l.Reaches (advanceWhileFor p n l) := by
  induction n generalizing l with
  | zero => exact .refl l
  | succ n ih =>
    rw [advanceWhileFor]
    by_cases hc : p l.currentChar
    · rw [if_pos hc]
      have hne : l.currentChar ≠ 0 := fun hz => by simp [hz, hp] at hc
      exact (advance_reaches (lt_of_currentChar hne)).trans ih
    · rw [if_neg hc]
      exact .refl l

theorem advanceWhileFor_pos (hp : p 0 = false) {n : Nat} (hn : l.left ≤ n) :
    (advanceWhileFor p n l).pos = l.pos + ((l.text.drop l.pos).takeWhile p).length := by
  induction n generalizing l with
  | zero =>
    have hnil : l.text.drop l.pos = [] :=
      drop_eq_nil_of_le (Nat.le_of_sub_eq_zero (Nat.le_zero.mp hn))
    rw [advanceWhileFor, hnil]
    rfl
  | succ n ih =>
    rw [advanceWhileFor]
    by_cases hlt : l.pos < l.text.length
    · rw [drop_pos hlt]
      by_cases hc : p l.currentChar
      · have hleft : l.advance.left ≤ n := by
          rw [left, advance_text, advance_pos]
          rw [left] at hn
          omega
        rw [if_pos hc, ih hleft, advance_text, advance_pos, takeWhile_cons_of_pos hc, length_cons]
        omega
      · rw [if_neg hc, takeWhile_cons_of_neg hc]
        rfl
    · have hnil : l.text.drop l.pos = [] := drop_eq_nil_of_le (Nat.le_of_not_lt hlt)
      have hzero : l.currentChar = 0 := getD_eq_default _ _ (Nat.le_of_not_lt hlt)
      rw [hzero, hp, hnil]
      rfl

theorem advanceWhile_reaches (hp : p 0 = false) : l.Reaches (l.advanceWhile p) :=
  advanceWhileFor_reaches hp _

theorem advanceWhile_pos (hp : p 0 = false) :
    (l.advanceWhile p).pos = l.pos + ((l.text.drop l.pos).takeWhile p).length :=
  advanceWhileFor_pos hp (Nat.le_refl _)

theorem advanceWhile_drop (hp : p 0 = false) :
    l.text.drop (l.advanceWhile p).pos = (l.text.drop l.pos).dropWhile p := by
  rw [advanceWhile_pos hp, ← drop_drop, drop_takeWhile]

theorem advanceWhile_stops (hp : p 0 = false) : p (l.advanceWhile p).currentChar = false := by
  by_cases hlt : (l.advanceWhile p).pos < (l.advanceWhile p).text.length
  · refine not_of_getElem?_takeWhile p (l.text.drop l.pos) ?_
    rw [getElem?_drop, ← advanceWhile_pos hp, ← (advanceWhile_reaches hp).text, currentChar,
      getD_eq_getElem _ _ hlt, getElem?_eq_getElem hlt]
  · rw [currentChar, getD_eq_default _ _ (Nat.le_of_not_lt hlt)]
    exact hp

theorem lt_advanceWhile (hp : p 0 = false) (hc : p l.currentChar) : l.pos < (l.advanceWhile p).pos := by
  have hne : l.currentChar ≠ 0 := fun hz => by simp [hz, hp] at hc
  rw [advanceWhile_pos hp, drop_pos (lt_of_currentChar hne), takeWhile_cons_of_pos hc, length_cons]
  omega

end

/-! ## comments -/

theorem startsWith_drop {s : Bytes} (h : l.startsWith s) :
    l.text.drop l.pos = s ++ l.text.drop (l.pos + s.length) ∧
      (s ≠ [] → l.pos + s.length ≤ l.text.length) := by
  obtain ⟨t, ht⟩ := isPrefixOf_iff_prefix.mp h
  have hdrop : l.text.drop (l.pos + s.length) = t := by
    rw [← drop_drop, ← ht]
    exact drop_left
  refine ⟨by rw [hdrop, ht], fun hs => ?_⟩
  have hlen : s.length + t.length = l.text.length - l.pos := by
    rw [← length_drop, ← ht, length_append]
  have hpos : 0 < s.length := length_pos_iff.mpr hs
  omega

theorem Reaches.ofSame {l' : Lexer} (htext : l'.text = l.text) (hpos : l'.pos = l.pos)
    (hline : l'.line = l.line) (hcolumn : l'.column = l.column) : l.Reaches l' := by
  refine ⟨⟨htext, by rw [hpos], fun hv => ⟨?_, ?_, ?_⟩⟩, ?_⟩
  · rw [htext]
    exact hv.noZero
  · rw [htext, hpos]
    exact hv.base
  · rw [hline, hcolumn, lineAt, columnAt, htext, hpos]
    exact hv.placed
  · rw [hpos]
    exact Nat.le_max_left _ _

theorem handleCommentDirective_same (c : Bytes) :
    l.Reaches (l.handleCommentDirective c) ∧ (l.handleCommentDirective c).pos = l.pos := by
  unfold handleCommentDirective
  dsimp only
  split
  · split
    · exact ⟨.ofSame rfl rfl rfl rfl, rfl⟩
    · exact ⟨.refl l, rfl⟩
  · exact ⟨.refl l, rfl⟩

theorem skipLineComment_spec (hv : l.Valid) (h : l.startsWith (ascii "//")) :
    l.Reaches l.skipLineComment ∧ l.pos < l.skipLineComment.pos ∧
      Comment (l.text.drop l.pos) (l.text.drop l.skipLineComment.pos) := by
  obtain ⟨hdrop, hfits⟩ := startsWith_drop h
  have hfits := hfits (by decide)
  set q : UInt8 → Bool := fun c => c ≠ 0 && c ≠ newline with hq
  have hq0 : q 0 = false := rfl
  set rest := l.text.drop (l.pos + (ascii "//").length) with hrest
  -- the slashes belong to the stretch that is read
  have htake : (l.text.drop l.pos).takeWhile q = ascii "//" ++ rest.takeWhile q := by
    rw [hdrop]
    rfl
  have hbody : newline ∉ rest.takeWhile q := fun hmem => by
    have := mem_takeWhile_imp hmem
    simp [hq] at this
  have hsplit : l.text.drop l.pos =
      ascii "//" ++ (rest.takeWhile q ++ (l.text.drop l.pos).dropWhile q) := by
    rw [← append_assoc, ← htake, takeWhile_append_dropWhile]
  have hw := advanceWhile_reaches (l := l) hq0
  have hwpos := advanceWhile_pos (l := l) hq0
  have hwdrop := advanceWhile_drop (l := l) hq0
  obtain ⟨hb, hbpos⟩ := handleCommentDirective_same (l := l.advanceWhile q)
    (l.slice (l.pos + 2) (l.advanceWhile q).pos)
  have hshow : l.skipLineComment =
      let b := (l.advanceWhile q).handleCommentDirective
        (l.slice (l.pos + 2) (l.advanceWhile q).pos)
      if b.currentChar = newline then b.advance else b := rfl
  rw [hshow]
  dsimp only
  generalize hbe : (l.advanceWhile q).handleCommentDirective
    (l.slice (l.pos + 2) (l.advanceWhile q).pos) = b at hb hbpos ⊢
  have hlb := hw.trans hb
  have hbdrop : l.text.drop b.pos = (l.text.drop l.pos).dropWhile q := by rw [hbpos, hwdrop]
  have hlt : l.pos < b.pos := by
    rw [hbpos, hwpos, htake, length_append]
    exact Nat.lt_add_of_pos_right (Nat.add_pos_left (by decide) _)
  by_cases hnl : b.currentChar = newline
  · rw [if_pos hnl]
    have hblt : b.pos < b.text.length := lt_of_currentChar (by rw [hnl]; decide)
    have hcons := drop_pos hblt
    rw [hlb.text, hnl] at hcons
    refine ⟨hlb.trans (advance_reaches hblt), by rw [advance_pos]; omega, ?_⟩
    rw [advance_pos, hsplit, ← hbdrop, hcons]
    exact .line _ hbody
  · rw [if_neg hnl]
    have hstop : q b.currentChar = false := by
      rw [currentChar, hb.text, hbpos]
      exact advanceWhile_stops hq0
    have hzero : b.currentChar = 0 := by simpa [hq, hnl] using hstop
    have hnil : l.text.drop b.pos = [] := by
      rw [← hlb.text]
      exact drop_of_currentChar (hlb.valid hv) hzero
    refine ⟨hlb, hlt, ?_⟩
    rw [hnil, hsplit, ← hbdrop, hnil, append_nil]
    exact .lastLine hbody

section
variable {opener closer : Bytes}

theorem nestedTail_stop (hv : l.Valid) {level : Nat} (hz : l.currentChar = 0 ∨ level = 0) :
    NestedTail opener closer level (l.text.drop l.pos) (l.text.drop l.pos) := by
  cases level with
  | zero => exact .closed _
  | succ d =>
    rw [drop_of_currentChar hv (hz.resolve_right (Nat.succ_ne_zero d))]
    exact .cut d

theorem nestedCommentLoop_spec (hopener : opener ≠ []) (hcloser : closer ≠ []) (hv : l.Valid)
    {n : Nat} (hn : l.left ≤ n) (level : Nat) :
    l.Reaches (nestedCommentLoop opener closer n level l).2 ∧
      NestedTail opener closer level (l.text.drop l.pos)
        (l.text.drop (nestedCommentLoop opener closer n level l).2.pos) := by
  induction n generalizing l level with
  | zero =>
    have hle : l.text.length ≤ l.pos := Nat.le_of_sub_eq_zero (Nat.le_zero.mp hn)
    rw [nestedCommentLoop]
    exact ⟨.refl l, nestedTail_stop hv (.inl (getD_eq_default _ _ hle))⟩
  | succ n ih =>
    rw [nestedCommentLoop]
    by_cases hgo : l.currentChar ≠ 0 ∧ 0 < level
    · rw [if_pos hgo]
      obtain ⟨d, rfl⟩ : ∃ d, level = d + 1 := ⟨level - 1, by omega⟩
      -- the loop goes on behind some characters, from another level
      have hnext (m : Nat) (hm : 0 < m) (hfits : l.pos + m ≤ l.text.length) (level' : Nat) :
          l.Reaches (nestedCommentLoop opener closer n level' (l.advances m)).2 ∧
            NestedTail opener closer level' (l.text.drop (l.pos + m))
              (l.text.drop (nestedCommentLoop opener closer n level' (l.advances m)).2.pos) := by
        have hreach := advances_reaches hfits
        have hleft : (l.advances m).left ≤ n := by
          rw [left, advances_text, advances_pos]
          rw [left] at hn
          omega
        obtain ⟨h, htail⟩ := ih (hreach.valid hv) hleft level'
        rw [advances_text, advances_pos] at htail
        exact ⟨hreach.trans h, htail⟩
      by_cases hc : l.startsWith closer
      · rw [if_pos hc]
        obtain ⟨hdrop, hfits⟩ := startsWith_drop hc
        obtain ⟨h, htail⟩ := hnext _ (length_pos_iff.mpr hcloser) (hfits hcloser) d
        rw [Nat.add_sub_cancel]
        refine ⟨h, ?_⟩
        nth_rewrite 1 [hdrop]
        exact .close htail
      · rw [if_neg hc]
        have hcp : ¬ closer <+: l.text.drop l.pos := fun hp =>
          hc ( isPrefixOf_iff_prefix.mpr hp)
        by_cases ho : l.startsWith opener
        · rw [if_pos ho]
          obtain ⟨hdrop, hfits⟩ := startsWith_drop ho
          obtain ⟨h, htail⟩ := hnext _ (length_pos_iff.mpr hopener) (hfits hopener) (d + 2)
          refine ⟨h, ?_⟩
          rw [hdrop] at hcp
          nth_rewrite 1 [hdrop]
          exact .open hcp htail
        · rw [if_neg ho]
          have hop : ¬ opener <+: l.text.drop l.pos := fun hp =>
            ho ( isPrefixOf_iff_prefix.mpr hp)
          have hlt := lt_of_currentChar hgo.1
          obtain ⟨h, htail⟩ := hnext 1 Nat.one_pos hlt (d + 1)
          refine ⟨h, ?_⟩
          rw [drop_pos hlt] at hcp hop
          nth_rewrite 1 [drop_pos hlt]
          exact .other hcp hop htail
    · rw [if_neg hgo]
      exact ⟨.refl l, nestedTail_stop hv ((not_and_or.mp hgo).imp not_not.mp Nat.eq_zero_of_not_pos)⟩

theorem skipNestedComment_spec (hopener : opener ≠ []) (hcloser : closer ≠ []) (hv : l.Valid)
    (h : l.startsWith opener) :
    l.Reaches (skipNestedComment opener closer l) ∧ l.pos < (skipNestedComment opener closer l).pos ∧
      ∃ t, l.text.drop l.pos = opener ++ t ∧
        NestedTail opener closer 1 t (l.text.drop (skipNestedComment opener closer l).pos) := by
  obtain ⟨hdrop, hfits⟩ := startsWith_drop h
  have hin := advances_reaches (hfits hopener)
  obtain ⟨hloop, htail⟩ := nestedCommentLoop_spec hopener hcloser (hin.valid hv) (Nat.le_refl _) 1
  rw [advances_text, advances_pos] at htail
  have hlt : l.pos < (l.advances opener.length).pos := by
    rw [advances_pos]
    exact Nat.lt_add_of_pos_right (length_pos_iff.mpr hopener)
  rw [skipNestedComment]
  generalize nestedCommentLoop opener closer (l.advances opener.length).left 1
    (l.advances opener.length) = r at hloop htail
  obtain ⟨level, behind⟩ := r
  have hbehind := hin.trans hloop
  have hlt' : l.pos < behind.pos := Nat.lt_of_lt_of_le hlt hloop.le
  cases level with
  | zero =>
    obtain ⟨hd, hdpos⟩ := handleCommentDirective_same (l := behind)
      (l.slice (l.advances opener.length).pos (behind.pos - closer.length))
    rw [← hdpos] at hlt' htail
    exact ⟨hbehind.trans hd, hlt', _, hdrop, htail⟩
  | succ level => exact ⟨hbehind, hlt', _, hdrop, htail⟩

end

end

end Lexer

/-! ## tokens -/

def Token.isStringLiteral (t : Token) : Bool := t.type = .stringConst && !t.isCharCode

namespace Lexer

/-- A token is read that starts at the place of `l`. -/
structure Scans (l : Lexer) (t : Token) (l' : Lexer) : Prop where
  reaches : l.Reaches l'
  lt : l.pos < l'.pos
  notEof : t.type ≠ .eof
  place : t.isStringLiteral = false → t.line = l.lineAt l.pos ∧ t.column = l.columnAt l.pos

section
variable {l : Lexer}

theorem isIdentifierChar_zero : isIdentifierChar 0 = false := by decide

theorem isDigit_zero : isDigit 0 = false := by decide

theorem isHexDigit_zero : isHexDigit 0 = false := by decide

@[simp] theorem newToken_type (kind : TokenType) (value : Bytes) (line column : Nat) :
    (newToken kind value line column).type = kind := rfl

theorem keywords_notEof (text : Bytes) : (keywords.lookup text).getD .identifier ≠ .eof := by
  have hall : ∀ e ∈ keywords, e.2 ≠ .eof := by decide
  cases hl : keywords.lookup text with
  | none => decide
  | some k =>
    obtain ⟨l₁, l₂, hsplit, -⟩ := List.lookup_eq_some_iff.mp hl
    exact hall (text, k) (by rw [hsplit]; simp)

theorem identifier_scans (hv : l.Valid) (hc : isIdentifierStartChar l.currentChar) :
    l.Scans l.identifier.1 l.identifier.2 := by
  have hchar : isIdentifierChar l.currentChar := by
    rw [isIdentifierChar, hc]
    rfl
  have hlt := lt_advanceWhile isIdentifierChar_zero hchar
  have hpos : l.pos < l.text.length := lt_of_currentChar fun hz => by
    rw [hz] at hc
    exact absurd hc (by decide)
  exact ⟨advanceWhile_reaches isIdentifierChar_zero, hlt, keywords_notEof _, fun _ => hv.placed hpos⟩

theorem exponentPart_reaches : l.Reaches (exponentPart l).2 := by
  rw [exponentPart]
  split
  · rename_i he
    have hne : l.currentChar ≠ 0 := by
      rcases he with he | he <;> rw [he] <;> decide
    have h₁ := advance_reaches (lt_of_currentChar hne)
    dsimp only
    split
    · rename_i hsign
      have hne' : l.advance.currentChar ≠ 0 := by
        rcases hsign with hs | hs <;> rw [hs] <;> decide
      exact (h₁.trans (advance_reaches (lt_of_currentChar hne'))).trans
        (advanceWhile_reaches isDigit_zero)
    · exact h₁.trans (advanceWhile_reaches isDigit_zero)
  · exact .refl l

theorem number_scans (hv : l.Valid) (hc : isDigit l.currentChar) :
    ∃ t l', l.number = some (t, l') ∧ l.Scans t l' := by
  have hpos : l.pos < l.text.length := lt_of_currentChar fun hz => by
    rw [hz] at hc
    exact absurd hc (by decide)
  have hhash : l.currentChar ≠ byte '#' := fun hz => by
    rw [hz] at hc
    exact absurd hc (by decide)
  obtain ⟨hline, hcolumn⟩ := hv.placed hpos
  have hmax : max 1 l.column = l.columnAt l.pos := by
    rw [hcolumn, columnAt, columnOf]
    exact Nat.max_eq_right (Nat.le_add_right 1 _)
  have hw := advanceWhile_reaches (l := l) isDigit_zero
  have hlt := lt_advanceWhile isDigit_zero hc
  rw [number]
  simp only [if_neg hhash, if_pos hc]
  split
  · exact ⟨_, _, rfl, hw, hlt, by simp, fun _ => ⟨hline, hmax⟩⟩
  · set fraction := if (l.advanceWhile isDigit).currentChar = byte '.' then
        (l.advanceWhile isDigit).advance.advanceWhile isDigit else l.advanceWhile isDigit with hf
    have hfraction : (l.advanceWhile isDigit).Reaches fraction := by
      rw [hf]
      split
      · rename_i hdot
        have hne : (l.advanceWhile isDigit).currentChar ≠ 0 := by
          rw [hdot]
          decide
        exact (advance_reaches (lt_of_currentChar hne)).trans (advanceWhile_reaches isDigit_zero)
      · exact .refl _
    have hbehind := hfraction.trans (exponentPart_reaches (l := fraction))
    refine ⟨_, _, rfl, hw.trans hbehind, Nat.lt_of_lt_of_le hlt hbehind.le, ?_,
      fun _ => ⟨hline, hmax⟩⟩
    rw [newToken_type]
    split <;> decide

theorem hexConst_scans (hv : l.Valid) (hpos : l.pos < l.text.length) {t : Token} {l' : Lexer}
    (h : l.hexConst = .ok (t, l')) : l.Scans t l' := by
  rw [hexConst] at h
  split at h
  · cases h
  · cases h
    have hreach := (advance_reaches hpos).trans (advanceWhile_reaches (l := l.advance) isHexDigit_zero)
    have hle := (advanceWhile_reaches (l := l.advance) isHexDigit_zero).le
    rw [advance_pos] at hle
    exact ⟨hreach, hle, by simp, fun _ => hv.placed hpos⟩

theorem charCode_scans (hv : l.Valid) (hpos : l.pos < l.text.length) {t : Token} {l' : Lexer}
    (h : l.charCode = .ok (t, l')) : l.Scans t l' := by
  rw [charCode] at h
  generalize hd : (if l.nextChar = byte '$' then l.advance.advance else l.advance) = digits at h
  generalize hp : (if l.nextChar = byte '$' then isHexDigit else isDigit) = p at h
  have hdigits : l.advance.Reaches digits := by
    rw [← hd]
    split
    · rename_i hdollar
      refine advance_reaches (lt_of_currentChar ?_)
      rw [advance_currentChar, hdollar]
      decide
    · exact .refl _
  have hzero : p 0 = false := by
    rw [← hp]
    split <;> decide
  have hwhile := hdigits.trans (advanceWhile_reaches (l := digits) hzero)
  have hle := hwhile.le
  rw [advance_pos] at hle
  by_cases hdigit : (digits.advanceWhile p).pos = digits.pos
  · rw [if_pos hdigit] at h
    cases h
  · rw [if_neg hdigit] at h
    generalize strtoul (if l.nextChar = byte '$' then 16 else 10)
      (l.slice digits.pos (digits.advanceWhile p).pos) = val at h
    by_cases hrange : 0x10FFFF < val
    · rw [if_pos hrange] at h
      cases h
    · rw [if_neg hrange] at h
      cases h
      exact ⟨(advance_reaches hpos).trans hwhile, hle, by simp, fun _ => hv.placed hpos⟩

theorem escapedChar_zero : escapedChar 0 = none := by decide

theorem stringLiteralLoop_spec {n : Nat} (hn : l.left < n) (buffer : Bytes) :
    ∃ r, stringLiteralLoop n buffer l = some r ∧
      ∀ buffer' l', r = .ok (buffer', l') → l.Reaches l' := by
  induction n generalizing l buffer with
  | zero => exact absurd hn (Nat.not_lt_zero _)
  | succ n ih =>
    rw [stringLiteralLoop]
    -- the loop goes on behind one character, or two
    have hnext {m : Lexer} (h : l.Reaches m) (hlt : l.pos < m.pos) (hpos : l.pos < l.text.length)
        (buffer : Bytes) : ∃ r, stringLiteralLoop n buffer m = some r ∧
          ∀ buffer' l', r = .ok (buffer', l') → l.Reaches l' := by
      have hleft : m.left < n := by
        rw [left] at hn
        rw [left, h.text]
        omega
      obtain ⟨r, hr, hok⟩ := ih hleft buffer
      exact ⟨r, hr, fun buffer' l' he => h.trans (hok buffer' l' he)⟩
    by_cases hquote : l.currentChar = apostrophe
    · rw [if_pos hquote]
      have hpos : l.pos < l.text.length := lt_of_currentChar (by rw [hquote]; decide)
      have h₁ := advance_reaches hpos
      dsimp only
      by_cases hquote' : l.advance.currentChar = apostrophe
      · rw [if_pos hquote']
        have hpos' : l.advance.pos < l.advance.text.length :=
          lt_of_currentChar (by rw [hquote']; decide)
        exact hnext (h₁.trans (advance_reaches hpos')) (by simp only [advance_pos]; omega) hpos _
      · rw [if_neg hquote']
        refine ⟨_, rfl, fun buffer' l' he => ?_⟩
        cases he
        exact h₁
    · rw [if_neg hquote]
      by_cases hback : l.currentChar = backslash
      · rw [if_pos hback]
        have hpos : l.pos < l.text.length := lt_of_currentChar (by rw [hback]; decide)
        have h₁ := advance_reaches hpos
        cases hesc : escapedChar l.nextChar with
        | none => exact hnext h₁ (by rw [advance_pos]; omega) hpos _
        | some c =>
          have hne : l.advance.currentChar ≠ 0 := by
            rw [advance_currentChar]
            intro hz
            rw [hz, escapedChar_zero] at hesc
            cases hesc
          exact hnext (h₁.trans (advance_reaches (lt_of_currentChar hne)))
            (by simp only [advance_pos]; omega) hpos _
      · rw [if_neg hback]
        by_cases hz : l.currentChar = 0
        · rw [if_pos hz]
          exact ⟨_, rfl, fun buffer' l' he => nomatch he⟩
        · rw [if_neg hz]
          have hpos := lt_of_currentChar hz
          exact hnext (advance_reaches hpos) (by rw [advance_pos]; omega) hpos _

theorem stringLiteral_scans (hpos : l.pos < l.text.length) :
    ∃ r, l.stringLiteral = some r ∧ ∀ t l', r = .ok (t, l') → l.Scans t l' := by
  obtain ⟨r, hr, hok⟩ := stringLiteralLoop_spec (l := l.advance) (Nat.lt_succ_self _) []
  rw [stringLiteral]
  dsimp only
  rw [hr]
  refine ⟨_, rfl, fun t l' he => ?_⟩
  cases r with
  | error e => cases he
  | ok r =>
    obtain ⟨buffer, behind⟩ := r
    cases he
    have hreach := hok _ _ rfl
    have hle := hreach.le
    rw [advance_pos] at hle
    exact ⟨(advance_reaches hpos).trans hreach, hle, by simp, fun h => nomatch h⟩

end

end Lexer

/-! ## operators -/

theorem operators_spec : ∀ e ∈ operators,
    (∀ x ∈ e.2.1, x.1 ≠ 0 ∧ x.2 ≠ .eof ∧ x.2 ≠ .stringConst) ∧
      ∀ kind ∈ e.2.2, kind ≠ .eof ∧ kind ≠ .stringConst := by decide

set_option maxRecDepth 4000 in
theorem operators_alone : ∀ c ∈ ascii "^:?;,.+-*/%()[]@=<>",
    ((operators.lookup c).bind (·.2)).isSome := by decide

theorem mem_of_lookup {α β : Type} [DecidableEq α] {l : List (α × β)} {a : α} {b : β}
    (h : l.lookup a = some b) : (a, b) ∈ l := by
  obtain ⟨l₁, l₂, rfl, -⟩ := List.lookup_eq_some_iff.mp h
  exact mem_append_right _ mem_cons_self

theorem operator_text {c next : UInt8} {kind : TokenType} {text : Bytes}
    (h : operator c next = some (kind, text)) :
    kind ≠ .eof ∧ kind ≠ .stringConst ∧ (text = [c] ∨ text = [c, next] ∧ next ≠ 0) := by
  rw [operator] at h
  cases hc : operators.lookup c with
  | none => simp [hc] at h
  | some e =>
    obtain ⟨longer, alone⟩ := e
    obtain ⟨hlonger, halone⟩ := operators_spec _ (mem_of_lookup hc)
    rw [hc] at h
    dsimp only at h
    cases hn : longer.lookup next with
    | some k =>
      rw [hn] at h
      cases h
      obtain ⟨hne, hkind⟩ := hlonger _ (mem_of_lookup hn)
      exact ⟨hkind.1, hkind.2, .inr ⟨rfl, hne⟩⟩
    | none =>
      rw [hn] at h
      obtain ⟨k, hk, he⟩ := map_eq_some_iff.mp h
      cases he
      obtain ⟨hne, hkind⟩ := halone _ hk
      exact ⟨hne, hkind, .inl rfl⟩

theorem operator_none {c next : UInt8} (h : operator c next = none) :
    c ∉ ascii "^:?;,.+-*/%()[]@=<>" ∧ (c = byte '!' → next ≠ byte '=') := by
  constructor
  · intro hc
    obtain ⟨kind, hkind⟩ := isSome_iff_exists.mp (operators_alone c hc)
    obtain ⟨⟨longer, alone⟩, he, rfl⟩ := bind_eq_some_iff.mp hkind
    rw [operator, he] at h
    dsimp only at h
    cases hn : longer.lookup next <;> simp [hn] at h
  · rintro rfl rfl
    exact absurd h (by decide)

/-! ## one turn of the loop -/

namespace Lexer

/-- Behind a gap, a token is read; its place is what it says. -/
structure TokenAt (l : Lexer) (start : Nat) (t : Token) (l' : Lexer) : Prop where
  follows : l.Follows l'
  le : l.pos ≤ start
  gap : Gap BeginsNothing (l.text.drop l.pos) (l.text.drop start)
  lt : start < l'.pos
  inside : l'.pos ≤ l.text.length
  notEof : t.type ≠ .eof
  place : t.isStringLiteral = false → t.line = l.lineAt start ∧ t.column = l.columnAt start

section
variable {l : Lexer}

theorem Follows.lineAt {l' : Lexer} (h : l.Follows l') (i : Nat) : l'.lineAt i = l.lineAt i := by
  rw [Lexer.lineAt, Lexer.lineAt, h.text]

theorem Follows.columnAt {l' : Lexer} (h : l.Follows l') (i : Nat) :
    l'.columnAt i = l.columnAt i := by
  rw [Lexer.columnAt, Lexer.columnAt, h.text]

theorem Scans.tokenAt {t : Token} {l' : Lexer} (hpos : l.pos < l.text.length) (h : l.Scans t l') :
    l.TokenAt l.pos t l' := by
  refine ⟨h.reaches.toFollows, Nat.le_refl _, .none _, h.lt, ?_, h.notEof, h.place⟩
  have hin := h.reaches.inside
  omega

theorem TokenAt.behind {m : Lexer} {start : Nat} {t : Token} {l' : Lexer} (hm : l.Follows m)
    (hgap : Gap BeginsNothing (l.text.drop l.pos) (l.text.drop m.pos)) (h : m.TokenAt start t l') :
    l.TokenAt start t l' where
  follows := hm.trans h.follows
  le := Nat.le_trans hm.le h.le
  gap := hgap.trans (hm.text ▸ h.gap)
  lt := h.lt
  inside := hm.text ▸ h.inside
  notEof := h.notEof
  place ht := by
    rw [← hm.lineAt, ← hm.columnAt]
    exact h.place ht

end

end Lexer

/-- what a turn of the loop at `l` does -/
def Iteration.Sound (l : Lexer) : Iteration → Prop
  | .again _ _ l' => l.Follows l' ∧ l.pos < l'.pos ∧
      Gap BeginsNothing (l.text.drop l.pos) (l.text.drop l'.pos)
  | .token start t l' => l.TokenAt start t l'
  | .fails _ => True
  | .null => False

namespace Lexer

section
variable {l : Lexer}

theorem sound_behind {m : Lexer} {r : Iteration} (hm : l.Follows m)
    (hgap : Gap BeginsNothing (l.text.drop l.pos) (l.text.drop m.pos)) (h : r.Sound m) :
    r.Sound l := by
  cases r with
  | again sl sc l' =>
    obtain ⟨hf, hlt, hg⟩ := h
    exact ⟨hm.trans hf, Nat.lt_of_le_of_lt hm.le hlt, hgap.trans (hm.text ▸ hg)⟩
  | token start t l' => exact TokenAt.behind hm hgap h
  | fails e => trivial
  | null => exact h

theorem ofScan_sound {r : Except LexicalError (Token × Lexer)} (hpos : l.pos < l.text.length)
    (h : ∀ t l', r = .ok (t, l') → l.Scans t l') : (Iteration.ofScan l.pos r).Sound l := by
  cases r with
  | error e => trivial
  | ok r => exact (h r.1 r.2 rfl).tokenAt hpos

theorem operator_scans (hv : l.Valid) (hpos : l.pos < l.text.length) {kind : TokenType} {text : Bytes}
    (h : operator l.currentChar l.nextChar = some (kind, text)) :
    l.Scans (newToken kind text l.line l.column) (l.advances text.length) := by
  obtain ⟨hne, hstr, htext⟩ := operator_text h
  have hfits : 0 < text.length ∧ l.pos + text.length ≤ l.text.length := by
    rcases htext with rfl | ⟨rfl, hnext⟩
    · exact ⟨Nat.one_pos, hpos⟩
    · rw [← advance_currentChar] at hnext
      have hlt := lt_of_currentChar hnext
      rw [advance_pos, advance_text] at hlt
      exact ⟨Nat.two_pos, hlt⟩
  refine ⟨advances_reaches hfits.2, ?_, ?_, fun _ => hv.placed hpos⟩
  · rw [advances_pos]
    exact Nat.lt_add_of_pos_right hfits.1
  · rw [newToken_type]
    exact hne

theorem scanToken_end (h : l.currentChar = 0) : scanToken l = .again l.line l.column l.advance := by
  have hop : operator 0 l.nextChar = none := rfl
  rw [scanToken, h, hop]
  rfl

theorem scanToken_sound (hv : l.Valid) (hpos : l.pos < l.text.length)
    (hblank : isspace l.currentChar = false) (hbrace : l.currentChar ≠ openBrace) :
    (scanToken l).Sound l := by
  rw [scanToken]
  by_cases hhash : l.currentChar = byte '#'
  · rw [if_pos hhash]
    exact ofScan_sound hpos fun t l' => charCode_scans hv hpos
  rw [if_neg hhash]
  by_cases hdollar : l.currentChar = byte '$'
  · rw [if_pos hdollar]
    exact ofScan_sound hpos fun t l' => hexConst_scans hv hpos
  rw [if_neg hdollar]
  by_cases hstart : isIdentifierStartChar l.currentChar
  · rw [if_pos hstart]
    refine ofScan_sound hpos fun t l' he => ?_
    cases he
    exact identifier_scans hv hstart
  rw [if_neg hstart]
  by_cases hdigit : isDigit l.currentChar
  · rw [if_pos hdigit]
    obtain ⟨t, l', hnumber, hscans⟩ := number_scans hv hdigit
    rw [hnumber]
    exact hscans.tokenAt hpos
  rw [if_neg hdigit]
  by_cases hquote : l.currentChar = apostrophe
  · rw [if_pos hquote]
    obtain ⟨r, hr, hscans⟩ := stringLiteral_scans hpos
    rw [hr]
    exact ofScan_sound hpos hscans
  rw [if_neg hquote]
  cases hop : operator l.currentChar l.nextChar with
  | some e => exact (operator_scans hv hpos hop).tokenAt hpos
  | none =>
    obtain ⟨hmem, hbang⟩ := operator_none hop
    have hnothing : BeginsNothing (l.text.drop l.pos) := by
      refine ⟨_, _, drop_pos hpos, ?_, fun hc hnext => hbang hc ?_⟩
      · have hlist : (ascii "#$'^:?;,.+-*/%()[]@=<>").contains l.currentChar = false := by
          rw [← Bool.not_eq_true, contains_iff_mem]
          intro hc
          have hsplit : ascii "#$'^:?;,.+-*/%()[]@=<>" =
            [byte '#', byte '$', apostrophe] ++ ascii "^:?;,.+-*/%()[]@=<>" := rfl
          rw [hsplit, mem_append] at hc
          rcases hc with hc | hc
          · simp only [mem_cons, not_mem_nil, or_false] at hc
            exact hc.elim hhash (Or.rec hdollar hquote)
          · exact hmem hc
        rw [beginsSomething, hblank, isIdentifierChar, Bool.not_eq_true _ |>.mp hstart,
          Bool.not_eq_true _ |>.mp hdigit, hlist, decide_eq_false hbrace]
        rfl
      · rw [head?_drop] at hnext
        rw [nextChar, getD_eq_getElem?_getD, hnext]
        rfl
    refine ⟨advance_follows, by rw [advance_pos]; omega, ?_⟩
    rw [advance_pos, drop_pos hpos] at *
    exact .stray hnothing (.none _)

theorem startsWith_iff {s : Bytes} : l.startsWith s = true ↔ s <+: l.text.drop l.pos :=
  isPrefixOf_iff_prefix

theorem skipNestedComment_sound {opener closer : Bytes} (hopener : opener ≠ []) (hcloser : closer ≠ [])
    (hv : l.Valid) (h : l.startsWith opener)
    (hcomment : ∀ t u, NestedTail opener closer 1 t u → Comment (opener ++ t) u) (sl sc : Nat) :
    (Iteration.again sl sc (skipNestedComment opener closer l)).Sound l := by
  obtain ⟨hreach, hlt, t, hdrop, htail⟩ := skipNestedComment_spec hopener hcloser hv h
  refine ⟨hreach.toFollows, hlt, ?_⟩
  rw [hdrop]
  exact .comment (hcomment _ _ htail) (.none _)

theorem isspace_zero : isspace 0 = false := by decide

theorem iteration_sound (hv : l.Valid) (hc : l.currentChar ≠ 0) : (iteration l).Sound l := by
  have hpos := lt_of_currentChar hc
  -- behind the blanks, if there are any
  obtain ⟨m, hm, hlm, hgap, hblank, hprogress⟩ : ∃ m : Lexer,
      m = (if isspace l.currentChar then l.skipWhitespace else l) ∧ l.Reaches m ∧
        Gap BeginsNothing (l.text.drop l.pos) (l.text.drop m.pos) ∧
          isspace m.currentChar = false ∧ (m.currentChar = 0 → l.pos < m.pos) := by
    refine ⟨_, rfl, ?_⟩
    by_cases hs : isspace l.currentChar
    · rw [if_pos hs]
      have hreach := advanceWhile_reaches (l := l) isspace_zero
      have hdrop := advanceWhile_drop (l := l) isspace_zero
      refine ⟨hreach, ?_, ?_, fun _ => lt_advanceWhile isspace_zero hs⟩
      · rw [skipWhitespace, hdrop]
        exact gap_takeWhile _
      · exact advanceWhile_stops isspace_zero
    · rw [if_neg hs]
      exact ⟨.refl l, .none _, (Bool.not_eq_true _).mp hs, fun hz => absurd hz hc⟩
  have hvm := hlm.valid hv
  have hshow : iteration l =
      if m.startsWith (ascii "//") then
        .again m.skipLineComment.line m.skipLineComment.column m.skipLineComment
      else if m.currentChar = openBrace then
        .again m.skipBraceComment.line m.skipBraceComment.column m.skipBraceComment
      else if m.startsWith (ascii "(*") then .again m.line m.column m.skipParenStarComment
      else scanToken m := by
    rw [hm]
    rfl
  rw [hshow]
  by_cases hline : m.startsWith (ascii "//")
  · rw [if_pos hline]
    obtain ⟨hreach, hlt, hcomment⟩ := skipLineComment_spec hvm hline
    exact sound_behind hlm.toFollows hgap ⟨hreach.toFollows, hlt, .comment hcomment (.none _)⟩
  rw [if_neg hline]
  by_cases hbrace : m.currentChar = openBrace
  · rw [if_pos hbrace]
    have hmpos : m.pos < m.text.length := lt_of_currentChar (by rw [hbrace]; decide)
    have hstarts : m.startsWith [openBrace] := by
      rw [startsWith_iff, drop_pos hmpos, hbrace]
      exact ⟨_, rfl⟩
    exact sound_behind hlm.toFollows hgap
      (skipNestedComment_sound (by decide) (by decide) hvm hstarts (fun _ _ => .brace) _ _)
  rw [if_neg hbrace]
  by_cases hstar : m.startsWith (ascii "(*")
  · rw [if_pos hstar]
    exact sound_behind hlm.toFollows hgap
      (skipNestedComment_sound (by decide) (by decide) hvm hstar (fun _ _ => .parenStar) _ _)
  rw [if_neg hstar]
  by_cases hz : m.currentChar = 0
  · rw [scanToken_end hz]
    refine ⟨hlm.toFollows.trans advance_follows, ?_, ?_⟩
    · rw [advance_pos]
      exact Nat.lt_succ_of_lt (hprogress hz)
    · have hnil := drop_of_currentChar hvm hz
      rw [hlm.text] at hnil
      rw [hnil] at hgap
      rw [advance_pos, ← drop_drop, hnil]
      exact hgap
  · exact sound_behind hlm.toFollows hgap (scanToken_sound hvm (lt_of_currentChar hz) hblank hbrace)

end

end Lexer

/-! ## one call -/

def Lexeme.stop (x : Lexeme) : Nat := x.next.pos

namespace Lexer

def Finds (l : Lexer) (x : Lexeme) : Prop :=
  x.token.type = .eof ∧ Gap BeginsNothing (l.text.drop l.pos) [] ∨
    l.TokenAt x.start x.token x.next

theorem getNextTokenLoop_spec {l : Lexer} (hv : l.Valid) {n : Nat} (hn : l.left ≤ n)
    (startLine startColumn : Nat) :
    ∃ r, getNextTokenLoop n startLine startColumn l = some r ∧ ∀ x, r = .ok x → l.Finds x := by
  induction n generalizing l startLine startColumn with
  | zero =>
    have hz : l.currentChar = 0 :=
      getD_eq_default _ _ (Nat.le_of_sub_eq_zero (Nat.le_zero.mp hn))
    rw [getNextTokenLoop, if_pos hz]
    refine ⟨_, rfl, fun x hx => ?_⟩
    cases hx
    exact .inl ⟨rfl, drop_of_currentChar hv hz ▸ .none _⟩
  | succ n ih =>
    rw [getNextTokenLoop]
    by_cases hz : l.currentChar = 0
    · rw [if_pos hz]
      refine ⟨_, rfl, fun x hx => ?_⟩
      cases hx
      exact .inl ⟨rfl, drop_of_currentChar hv hz ▸ .none _⟩
    · rw [if_neg hz]
      have hsound := iteration_sound hv hz
      cases hit : iteration l with
      | again startLine startColumn l' =>
        rw [hit] at hsound
        obtain ⟨hf, hlt, hgap⟩ := hsound
        have hleft : l'.left ≤ n := by
          rw [left] at hn
          rw [left, hf.text]
          omega
        obtain ⟨r, hr, hfinds⟩ := ih (hf.valid hv) hleft startLine startColumn
        refine ⟨r, hr, fun x hx => ?_⟩
        rcases hfinds x hx with ⟨heof, hrest⟩ | htoken
        · exact .inl ⟨heof, hgap.trans (hf.text ▸ hrest)⟩
        · exact .inr (htoken.behind hf hgap)
      | token start t l' =>
        rw [hit] at hsound
        refine ⟨_, rfl, fun x hx => ?_⟩
        cases hx
        exact .inr hsound
      | fails e => exact ⟨_, rfl, fun x hx => nomatch hx⟩
      | null =>
        rw [hit] at hsound
        exact hsound.elim

theorem getNextToken_spec {l : Lexer} (hv : l.Valid) :
    ∃ r, getNextToken l = some r ∧ ∀ x, r = .ok x → l.Finds x :=
  getNextTokenLoop_spec hv (Nat.le_refl _) _ _

end Lexer

/-! ## all calls -/

def gapBetween (tolerated : Bytes → Prop) (text : Bytes) (p q : Nat) : Prop :=
  Gap tolerated (text.drop p) (text.drop q)

theorem lexemes_spec {l : Lexer} (hv : l.Valid) {n : Nat} (hn : l.left < n) :
    (lexemes n l).2 ≠ .running ∧
      (∃ q, Tiled (gapBetween BeginsNothing l.text) l.pos
          ((lexemes n l).1.map fun x => (x.start, x.stop)) q ∧
        ∀ x, (lexemes n l).2 = .eof x → Gap BeginsNothing (l.text.drop q) []) ∧
      ∀ x ∈ (lexemes n l).1, x.stop ≤ l.text.length ∧ (x.token.isStringLiteral = false →
        x.token.line = l.lineAt x.start ∧ x.token.column = l.columnAt x.start) := by
  induction n generalizing l with
  | zero => exact absurd hn (Nat.not_lt_zero _)
  | succ n ih =>
    rw [lexemes]
    obtain ⟨r, hr, hfinds⟩ := Lexer.getNextToken_spec hv
    rw [hr]
    cases r with
    | error e =>
      exact ⟨nofun, ⟨l.pos, .nil _, nofun⟩, fun x hx => absurd hx not_mem_nil⟩
    | ok x =>
      dsimp only
      rcases hfinds x rfl with ⟨heof, hgap⟩ | htoken
      · rw [if_pos heof]
        exact ⟨nofun, ⟨l.pos, .nil _, fun _ _ => hgap⟩, fun x hx => absurd hx not_mem_nil⟩
      · rw [if_neg htoken.notEof]
        have hf := htoken.follows
        have hleft : x.next.left < n := by
          have hle := htoken.le
          have hlt := htoken.lt
          have hin := htoken.inside
          rw [Lexer.left] at hn
          rw [Lexer.left, hf.text]
          omega
        obtain ⟨hends, ⟨q, htiled, hlast⟩, hplaces⟩ := ih (hf.valid hv) hleft
        rw [hf.text] at htiled hlast hplaces
        refine ⟨hends, ⟨q, .cons htoken.gap htoken.le htoken.lt htiled, hlast⟩, fun y hy => ?_⟩
        rcases mem_cons.mp hy with rfl | hy
        · exact ⟨htoken.inside, htoken.place⟩
        · rw [← hf.lineAt, ← hf.columnAt]
          exact hplaces y hy

/-- The lexer knows its place at the start, behind the mark of UTF-8 and behind a first line that
starts with `#!`. -/
theorem initLexer_valid (memory : Bytes) : (initLexer memory).Valid := by
  set text := memory.takeWhile (· ≠ 0) with htext
  have hzero : (0 : UInt8) ∉ text := fun hmem => by simpa using mem_takeWhile_imp hmem
  have hbase : (if byteOrderMark.isPrefixOf text then 3 else 0) = columnBase text := rfl
  -- no newline is in the mark
  have hmark : newline ∉ text.take (columnBase text) := by
    rw [columnBase]
    split
    · rename_i hp
      obtain ⟨t, ht⟩ := isPrefixOf_iff_prefix.mp hp
      rw [← ht]
      exact (by decide : newline ∉ byteOrderMark)
    · exact not_mem_nil
  have hstart : lineOf newline text (columnBase text) = 1 ∧
      columnOf newline (columnBase text) text (columnBase text) = 1 := by
    constructor
    · rw [lineOf, count_eq_zero_of_not_mem hmark]
    · rw [columnOf, drop_eq_nil_of_le (length_take_le _ _)]
      rfl
  have hplain : Lexer.Valid { text, pos := columnBase text, line := 1, column := 1 } :=
    ⟨hzero, Nat.le_refl _, fun _ => ⟨hstart.1.symm, hstart.2.symm⟩⟩
  rw [initLexer]
  simp only [← htext, hbase]
  by_cases hbang : (ascii "#!").isPrefixOf (text.drop (columnBase text))
  · rw [if_pos hbang]
    obtain ⟨t, ht⟩ := isPrefixOf_iff_prefix.mp hbang
    have hrest : text.drop (columnBase text + 2) = t := by
      rw [← drop_drop, ← ht]
      rfl
    set k := ((text.drop (columnBase text + 2)).takeWhile (· ≠ newline)).length with hk
    have hle : columnBase text ≤ columnBase text + 2 + k := by omega
    by_cases hlt : columnBase text + 2 + k < text.length
    · rw [if_pos hlt]
      -- the first line, up to its newline
      have hline : newline ∉ text.take (columnBase text + 2 + k) := by
        rw [Nat.add_assoc, take_add, ← ht, mem_append]
        refine not_or.mpr ⟨hmark, ?_⟩
        have htake : (ascii "#!" ++ t).take (2 + k) = ascii "#!" ++ t.take k :=
          @List.take_length_add_append _ (ascii "#!") _ k
        rw [htake, hk, hrest, TextPositions.take_takeWhile, mem_append]
        refine not_or.mpr ⟨by decide, fun hmem => ?_⟩
        simpa using mem_takeWhile_imp hmem
      have hnewline : text[columnBase text + 2 + k]? = some newline := by
        have hstop := not_of_getElem?_takeWhile (· ≠ newline) (text.drop (columnBase text + 2))
          (by rw [← hk, getElem?_drop, getElem?_eq_getElem hlt])
        rw [getElem?_eq_getElem hlt]
        simpa using hstop
      refine ⟨hzero, Nat.le_succ_of_le hle, fun _ => ⟨?_, ?_⟩⟩
      · rw [Lexer.lineAt, lineOf_succ newline hnewline, lineOf, count_eq_zero_of_not_mem hline]
        rfl
      · rw [Lexer.columnAt, columnOf_succ newline hnewline hle]
        rfl
    · rw [if_neg hlt]
      exact ⟨hzero, hle, fun h => absurd h hlt⟩
  · rw [if_neg hbang]
    exact hplain

/-! ## the contract -/

def calls (memory : Bytes) : List Lexeme × Ending :=
  lexemes ((initLexer memory).text.length + 1) (initLexer memory)

/-- The calls come to an end.  The spans are in order and disjoint; between them and behind the last
one are gaps, with `tolerated` characters.  The tokens that are `placed` know their place. -/
structure Contract (tolerated : Bytes → Prop) (placed : Token → Bool) (memory : Bytes) : Prop where
  ends : (calls memory).2 ≠ .running
  ordered : (calls memory).1.Pairwise fun x y => x.stop ≤ y.start
  spans : ∀ x ∈ (calls memory).1, x.start < x.stop ∧ x.stop ≤ (initLexer memory).text.length
  gaps : ∃ q, Tiled (gapBetween tolerated (initLexer memory).text) (initLexer memory).pos
      ((calls memory).1.map fun x => (x.start, x.stop)) q ∧
    ∀ x, (calls memory).2 = .eof x → Gap tolerated ((initLexer memory).text.drop q) []
  places : ∀ x ∈ (calls memory).1, placed x.token →
    x.token.line = (initLexer memory).lineAt x.start ∧
      x.token.column = (initLexer memory).columnAt x.start

/-- Characters that begin nothing are skipped too, and string literals are not `placed`. -/
theorem lexemes_contract (memory : Bytes) :
    Contract BeginsNothing (fun t => !t.isStringLiteral) memory := by
  have hleft : (initLexer memory).left < (initLexer memory).text.length + 1 :=
    Nat.lt_succ_of_le (Nat.sub_le _ _)
  obtain ⟨hends, ⟨q, htiled, hlast⟩, hplaces⟩ := lexemes_spec (initLexer_valid memory) hleft
  exact
    { ends := hends
      ordered := pairwise_map.mp htiled.ordered
      spans := fun x hx =>
        ⟨(htiled.mem (List.mem_map_of_mem hx)).2.1, (hplaces x hx).1⟩
      gaps := ⟨q, htiled, hlast⟩
      places := fun x hx ht => (hplaces x hx).2 ((Bool.not_eq_true' _).mp ht) }

/-- In `a~b`, a tilde stands between two names. -/
theorem tilde_skipped : ¬ Contract (fun _ => False) (fun _ => true) (ascii "a~b") := by
  intro h
  obtain ⟨q, htiled, -⟩ := h.gaps
  have hspans : ((calls (ascii "a~b")).1.map fun x => (x.start, x.stop)) = [(0, 1), (2, 3)] := by
    decide
  rw [hspans] at htiled
  cases htiled with
  | cons _ _ _ htiled =>
    cases htiled with
    | cons hgap _ _ _ =>
      have hgap : Gap (fun _ => False) (ascii "~b") (ascii "b") := hgap
      cases hgap with
      | blank hc _ => exact absurd hc (by decide)
      | comment hc _ => cases hc
      | stray hc _ => exact hc

end Pscal.Lexing
