import Mathlib

/-!
# Fields between delimiters

A text of marked symbols, each of them blank, a separator, or part of a field.

* `Delimiter kind d`  blanks with at most one separator among them;
* `Fields kind l fs`  the fields of a text that does not start with a blank;
* `Fields.unique`  a text has one list of fields;
* `Fields.flatten`  nothing is lost but blanks and separators;
* `afterDelimiter`, `exists_delimiter`  the longest delimiter at the start of a text.
-/

namespace Splitting

open List

inductive Kind where
  | blank
  | separator
  | inField
deriving DecidableEq, Repr

section
variable {α : Type} (kind : α → Kind)

inductive Delimiter : List α → Prop where
  | blanks {b : List α} (hne : b ≠ []) (hb : ∀ a ∈ b, kind a = .blank) : Delimiter b
  | around {b c : List α} {s : α} (hb : ∀ a ∈ b, kind a = .blank) (hs : kind s = .separator)
      (hc : ∀ a ∈ c, kind a = .blank) : Delimiter (b ++ s :: c)

/-- the first symbol, if any, is not of this kind -/
def NotAtStart (k : Kind) (l : List α) : Prop := ∀ a ∈ l.head?, kind a ≠ k

/-- `d` takes from `d ++ rest` all that a delimiter can -/
def Maximal (d rest : List α) : Prop :=
  NotAtStart kind .blank rest ∧
    ((∀ a ∈ d, kind a = .blank) → NotAtStart kind .separator rest)

inductive Fields : List α → List (List α) → Prop where
  | done : Fields [] []
  | last {w : List α} (hne : w ≠ []) (hw : ∀ a ∈ w, kind a = .inField) : Fields w [w]
  | empty {s : α} {b rest : List α} {fs : List (List α)} (hs : kind s = .separator)
      (hb : ∀ a ∈ b, kind a = .blank) (hmax : NotAtStart kind .blank rest)
      (h : Fields rest fs) : Fields (s :: (b ++ rest)) ([] :: fs)
  | field {w d rest : List α} {fs : List (List α)} (hne : w ≠ [])
      (hw : ∀ a ∈ w, kind a = .inField) (hd : Delimiter kind d) (hmax : Maximal kind d rest)
      (h : Fields rest fs) : Fields (w ++ (d ++ rest)) (w :: fs)

/-! ## the longest delimiter -/

def isBlank (a : α) : Bool := kind a = .blank

def isInField (a : α) : Bool := kind a = .inField

/-- what is left after blanks, a separator, blanks -/
def afterDelimiter (l : List α) : List α :=
  match l.dropWhile (isBlank kind) with
  | [] => []
  | s :: rest => if kind s = .separator then rest.dropWhile (isBlank kind) else s :: rest

variable {kind}

variable {l b d : List α} {fs : List (List α)}

theorem dropWhile_of_head {p : α → Bool} (h : ∀ a ∈ l.head?, p a = false) : l.dropWhile p = l := by
  cases l with
  | nil => rfl
  | cons a l => rw [dropWhile_cons, h a rfl, if_neg Bool.false_ne_true]

theorem mem_takeWhile_blank {a : α} (h : a ∈ l.takeWhile (isBlank kind)) : kind a = .blank :=
  of_decide_eq_true (List.all_eq_true.mp all_takeWhile a h)

theorem dropWhile_append_blanks {rest : List α} (hb : ∀ a ∈ b, kind a = .blank)
    (hrest : NotAtStart kind .blank rest) : (b ++ rest).dropWhile (isBlank kind) = rest := by
  have hall : ∀ a ∈ b, isBlank kind a = true := fun a ha => decide_eq_true (hb a ha)
  rw [dropWhile_append_of_pos hall]
  exact dropWhile_of_head fun a ha => decide_eq_false (hrest a ha)

theorem notAtStart_cons {k : Kind} {s : α} {rest : List α} :
    NotAtStart kind k (s :: rest) ↔ kind s ≠ k := by
  constructor
  · intro h
    exact h s rfl
  · intro h a ha
    obtain rfl : s = a := by simpa using ha
    exact h

theorem notAtStart_nil {k : Kind} : NotAtStart kind k ([] : List α) :=
  fun a ha => absurd ha (by simp)

theorem notAtStart_dropKind (k : Kind) (l : List α) :
    NotAtStart kind k (l.dropWhile fun a => kind a = k) := by
  induction l with
  | nil => exact notAtStart_nil
  | cons a l ih =>
    rw [dropWhile_cons]
    split
    · exact ih
    · next h => exact notAtStart_cons.mpr fun hk => h (decide_eq_true hk)

theorem notAtStart_dropWhile (l : List α) : NotAtStart kind .blank (l.dropWhile (isBlank kind)) :=
  notAtStart_dropKind .blank l

theorem notAtStart_dropInField (l : List α) :
    NotAtStart kind .inField (l.dropWhile (isInField kind)) :=
  notAtStart_dropKind .inField l

theorem notAtStart_afterDelimiter (l : List α) :
    NotAtStart kind .blank (afterDelimiter kind l) := by
  have hnot : NotAtStart kind .blank (l.dropWhile (isBlank kind)) := notAtStart_dropWhile l
  unfold afterDelimiter
  split
  · exact notAtStart_nil
  · next s rest hl =>
    split
    · exact notAtStart_dropWhile rest
    · exact hl ▸ hnot

theorem Delimiter.notAtStart (h : Delimiter kind d) (rest : List α) :
    NotAtStart kind .inField (d ++ rest) := by
  have hblank : ∀ a, kind a = .blank → kind a ≠ .inField := fun a ha h => by
    rw [ha] at h
    exact Kind.noConfusion h
  cases h with
  | blanks hne hb =>
    obtain ⟨x, d, rfl⟩ := exists_cons_of_ne_nil hne
    exact notAtStart_cons.mpr (hblank x (hb x mem_cons_self))
  | @around b c s hb hs hc =>
    cases b with
    | nil =>
      refine notAtStart_cons.mpr fun h => ?_
      rw [hs] at h
      exact Kind.noConfusion h
    | cons x b => exact notAtStart_cons.mpr (hblank x (hb x mem_cons_self))

theorem not_all_blank {c : List α} {s : α} (hs : kind s = .separator) :
    ¬ ∀ a ∈ b ++ s :: c, kind a = .blank := by
  intro hall
  have hblank := hall s (mem_append_right _ mem_cons_self)
  rw [hs] at hblank
  exact Kind.noConfusion hblank

theorem Delimiter.after {rest : List α} (h : Delimiter kind d) (hmax : Maximal kind d rest) :
    afterDelimiter kind (d ++ rest) = rest := by
  obtain ⟨hblank, hsep⟩ := hmax
  cases h with
  | blanks hne hb =>
    rw [afterDelimiter, dropWhile_append_blanks hb hblank]
    cases rest with
    | nil => rfl
    | cons s rest =>
      show (if kind s = .separator then _ else s :: rest) = _
      rw [if_neg (notAtStart_cons.mp (hsep hb))]
  | @around b c s hb hs hc =>
    have hstart : NotAtStart kind .blank (s :: (c ++ rest)) := by
      refine notAtStart_cons.mpr fun h => ?_
      rw [hs] at h
      exact Kind.noConfusion h
    rw [afterDelimiter, append_assoc, cons_append, dropWhile_append_blanks hb hstart]
    show (if kind s = .separator then (c ++ rest).dropWhile (isBlank kind) else _) = _
    rw [if_pos hs, dropWhile_append_blanks hc hblank]

theorem exists_delimiter (hne : l ≠ []) (hstart : NotAtStart kind .inField l) :
    ∃ d, l = d ++ afterDelimiter kind l ∧ Delimiter kind d ∧
      Maximal kind d (afterDelimiter kind l) := by
  have hsplit : l.takeWhile (isBlank kind) ++ l.dropWhile (isBlank kind) = l :=
    takeWhile_append_dropWhile
  have hb : ∀ a ∈ l.takeWhile (isBlank kind), kind a = .blank := fun a ha => mem_takeWhile_blank ha
  have hnot : NotAtStart kind .blank (l.dropWhile (isBlank kind)) := notAtStart_dropWhile l
  generalize hbl : l.takeWhile (isBlank kind) = b at hsplit hb
  unfold afterDelimiter
  cases hdrop : l.dropWhile (isBlank kind) with
  | nil =>
    rw [hdrop, append_nil] at hsplit
    exact ⟨l, (append_nil l).symm, .blanks hne (hsplit ▸ hb), notAtStart_nil,
      fun _ => notAtStart_nil⟩
  | cons s rest =>
    rw [hdrop] at hsplit hnot
    show ∃ d, l = d ++ (if kind s = .separator then rest.dropWhile (isBlank kind) else s :: rest) ∧
      Delimiter kind d ∧
      Maximal kind d (if kind s = .separator then rest.dropWhile (isBlank kind) else s :: rest)
    by_cases hs : kind s = .separator
    · rw [if_pos hs]
      refine ⟨b ++ s :: rest.takeWhile (isBlank kind), ?_,
        .around hb hs fun a ha => mem_takeWhile_blank ha, notAtStart_dropWhile rest,
        fun hall => absurd hall (not_all_blank hs)⟩
      rw [append_assoc, cons_append, takeWhile_append_dropWhile, hsplit]
    · rw [if_neg hs]
      refine ⟨b, hsplit.symm, .blanks ?_ hb, hnot, fun _ => notAtStart_cons.mpr hs⟩
      -- without blanks the text starts with `s`, which is of none of the three kinds
      rintro rfl
      rw [nil_append] at hsplit
      rw [← hsplit] at hstart
      have hin := notAtStart_cons.mp hstart
      have hblank := notAtStart_cons.mp hnot
      cases hk : kind s with
      | blank => exact hblank hk
      | separator => exact hs hk
      | inField => exact hin hk

/-! ## one list of fields -/

theorem takeWhile_inField {w rest : List α} (hw : ∀ a ∈ w, kind a = .inField)
    (hrest : NotAtStart kind .inField rest) :
    (w ++ rest).takeWhile (isInField kind) = w ∧ (w ++ rest).dropWhile (isInField kind) = rest := by
  have hall : ∀ a ∈ w, isInField kind a = true := fun a ha => decide_eq_true (hw a ha)
  have hhead : ∀ a ∈ rest.head?, isInField kind a = false := fun a ha => decide_eq_false (hrest a ha)
  constructor
  · rw [takeWhile_append_of_pos hall]
    cases rest with
    | nil => rw [takeWhile_nil, append_nil]
    | cons a rest => rw [takeWhile_cons, hhead a rfl, if_neg Bool.false_ne_true, append_nil]
  · rw [dropWhile_append_of_pos hall, dropWhile_of_head hhead]

theorem Fields.cons_inv {f : List α} (h : Fields kind l (f :: fs)) :
    l.takeWhile (isInField kind) = f ∧
      Fields kind (afterDelimiter kind (l.dropWhile (isInField kind))) fs := by
  cases h with
  | last hne hw =>
    have hread := takeWhile_inField hw notAtStart_nil
    rw [append_nil] at hread
    rw [hread.2]
    exact ⟨hread.1, .done⟩
  | @empty s b rest _ hs hb hmax h =>
    have hd : Delimiter kind ([] ++ s :: b) := .around (by simp) hs hb
    have hnone : ∀ a ∈ ([] : List α), kind a = .inField := fun a ha => absurd ha not_mem_nil
    have hread := takeWhile_inField hnone (hd.notAtStart rest)
    have hafter := hd.after ⟨hmax, fun hall => absurd hall (not_all_blank hs)⟩
    have hl : s :: (b ++ rest) = [] ++ (([] ++ s :: b) ++ rest) := rfl
    rw [hl, hread.1, hread.2, hafter]
    exact ⟨rfl, h⟩
  | @field _ d rest _ hne hw hd hmax h =>
    have hread := takeWhile_inField hw (hd.notAtStart rest)
    rw [hread.1, hread.2, hd.after hmax]
    exact ⟨rfl, h⟩

theorem Fields.nil_iff (h : Fields kind l fs) : l = [] ↔ fs = [] := by
  cases h with
  | done => exact ⟨fun _ => rfl, fun _ => rfl⟩
  | last hne _ => exact ⟨fun h => absurd h hne, fun h => absurd h (cons_ne_nil _ _)⟩
  | empty _ _ _ _ => exact ⟨fun h => absurd h (cons_ne_nil _ _), fun h => absurd h (cons_ne_nil _ _)⟩
  | field hne _ _ _ _ =>
    exact ⟨fun h => absurd (append_eq_nil_iff.mp h).1 hne, fun h => absurd h (cons_ne_nil _ _)⟩

theorem Fields.unique {gs : List (List α)} (h : Fields kind l fs) (h' : Fields kind l gs) :
    fs = gs := by
  induction fs generalizing gs l with
  | nil => exact (h'.nil_iff.mp (h.nil_iff.mpr rfl)).symm
  | cons f fs ih =>
    cases gs with
    | nil => exact absurd (h.nil_iff.mp (h'.nil_iff.mpr rfl)) (cons_ne_nil _ _)
    | cons g gs =>
      obtain ⟨hf, hfs⟩ := h.cons_inv
      obtain ⟨hg, hgs⟩ := h'.cons_inv
      rw [← hf, ← hg, ih hfs hgs]

/-! ## what is in the fields -/

theorem filter_inField_blanks (hb : ∀ a ∈ b, kind a = .blank) : b.filter (isInField kind) = [] := by
  refine filter_eq_nil_iff.mpr fun a ha => ?_
  rw [isInField, hb a ha]
  decide

theorem Delimiter.filter (h : Delimiter kind d) : d.filter (isInField kind) = [] := by
  cases h with
  | blanks _ hb => exact filter_inField_blanks hb
  | around hb hs hc =>
    rw [filter_append, filter_inField_blanks hb, filter_cons,
      filter_inField_blanks hc, isInField, hs]
    rfl

theorem filter_inField {w : List α} (hw : ∀ a ∈ w, kind a = .inField) :
    w.filter (isInField kind) = w :=
  filter_eq_self.mpr fun a ha => decide_eq_true (hw a ha)

theorem Fields.flatten (h : Fields kind l fs) : fs.flatten = l.filter (isInField kind) := by
  induction h with
  | done => rfl
  | last hne hw => rw [filter_inField hw, flatten_cons, flatten_nil, append_nil]
  | @empty s b rest fs hs hb hmax h ih =>
    rw [flatten_cons, nil_append, ih, filter_cons, filter_append,
      filter_inField_blanks hb, isInField, hs]
    rfl
  | field hne hw hd hmax h ih =>
    rw [flatten_cons, ih, filter_append, filter_append, filter_inField hw, hd.filter, nil_append]

end

end Splitting
