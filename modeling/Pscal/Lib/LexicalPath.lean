import Mathlib
import Pscal.Lib.Wire

/-!
# Lexical paths

Paths as text: segments between slashes, `.` and `..`.

* `segments t`, `resolve`, `normalForm t`  the segments of a text, `.` and `..` taken away, and the
  text that this leaves;
* `tail l`, `render l`  the text of segments behind a path, and as a path;
* `Normal t`  a text that is its own normal form;
* `Under h x`  lexically, `h` is `x` or below it;
* `Normal.suffix`, `Normal.append`  a normal path cut at a slash, and put together again.
-/

namespace LexicalPath

open List
open Wire (Bytes)

def slash : UInt8 := 47
def dot : Bytes := [46]
def dotDot : Bytes := [46, 46]

/-! ## segments -/

def segmentsFrom (seen : Bytes) : Bytes → List Bytes
  | [] => if seen = [] then [] else [seen]
  | c :: rest =>
    if c = slash then (if seen = [] then [] else [seen]) ++ segmentsFrom [] rest
    else segmentsFrom (seen ++ [c]) rest

def segments (t : Bytes) : List Bytes := segmentsFrom [] t

/-- a segment has a byte and no slash -/
def IsSegment (s : Bytes) : Prop := s ≠ [] ∧ slash ∉ s

/-- a segment that names something -/
def Plain (s : Bytes) : Prop := IsSegment s ∧ s ≠ dot ∧ s ≠ dotDot

/-- the end of a path, or what a slash starts -/
def AtBoundary (s : Bytes) : Prop := ∀ c ∈ s.head?, c = slash

theorem atBoundary_nil : AtBoundary [] := fun c hc => absurd hc (by simp)

variable {s t : Bytes} {segs l : List Bytes}

theorem atBoundary_cons {c : UInt8} : AtBoundary (c :: s) ↔ c = slash := by
  constructor
  · exact fun h => h c rfl
  · intro h c' hc'
    obtain rfl : c = c' := by simpa using hc'
    exact h

theorem segmentsFrom_append (seen t : Bytes) (hs : AtBoundary s) :
    segmentsFrom seen (t ++ s) = segmentsFrom seen t ++ segments s := by
  induction t generalizing seen with
  | nil =>
    cases s with
    | nil =>
      show segmentsFrom seen [] = segmentsFrom seen [] ++ segmentsFrom [] []
      rw [segmentsFrom, segmentsFrom, if_pos rfl, append_nil]
    | cons c s =>
      obtain rfl := atBoundary_cons.mp hs
      show segmentsFrom seen (slash :: s) = segmentsFrom seen [] ++ segmentsFrom [] (slash :: s)
      rw [segmentsFrom, segmentsFrom, segmentsFrom, if_pos rfl, if_pos rfl]
      rfl
  | cons c t ih =>
    rw [cons_append, segmentsFrom, segmentsFrom]
    split
    · rw [ih, append_assoc]
    · rw [ih]

theorem segments_append (t : Bytes) (hs : AtBoundary s) :
    segments (t ++ s) = segments t ++ segments s :=
  segmentsFrom_append [] t hs

theorem segmentsFrom_noSlash (seen : Bytes) (hs : slash ∉ s) :
    segmentsFrom seen s = if seen ++ s = [] then [] else [seen ++ s] := by
  induction s generalizing seen with
  | nil => rw [segmentsFrom, append_nil]
  | cons c s ih =>
    have hc : c ≠ slash := fun h => hs (h ▸ mem_cons_self)
    rw [segmentsFrom, if_neg hc, ih _ fun h => hs (mem_cons_of_mem _ h), append_assoc]
    rfl

theorem segments_slash (s : Bytes) : segments (slash :: s) = segments s := by
  rw [segments, segmentsFrom, if_pos rfl, if_pos rfl, nil_append]
  rfl

theorem segments_of_isSegment (hs : IsSegment s) : segments s = [s] := by
  rw [segments, segmentsFrom_noSlash [] hs.2, nil_append, if_neg hs.1]

theorem mem_segmentsFrom {seen : Bytes} (hseen : slash ∉ seen) (hs : s ∈ segmentsFrom seen t) :
    IsSegment s := by
  have hone : s ∈ (if seen = [] then [] else [seen]) → IsSegment s := by
    intro h
    split at h
    · exact absurd h not_mem_nil
    · next hne => exact mem_singleton.mp h ▸ ⟨hne, hseen⟩
  induction t generalizing seen with
  | nil => exact hone hs
  | cons c t ih =>
    rw [segmentsFrom] at hs
    split at hs
    · rcases mem_append.mp hs with h | h
      · exact hone h
      · refine ih not_mem_nil h fun h => ?_
        rw [if_pos rfl] at h
        exact absurd h not_mem_nil
    · next hc =>
      have hseen' : slash ∉ seen ++ [c] := by
        rw [mem_append, mem_singleton]
        rintro (h | h)
        · exact hseen h
        · exact hc h.symm
      refine ih hseen' hs fun h => ?_
      split at h
      · exact absurd h not_mem_nil
      · next hne => exact mem_singleton.mp h ▸ ⟨hne, hseen'⟩

theorem isSegment_of_mem (hs : s ∈ segments t) : IsSegment s :=
  mem_segmentsFrom not_mem_nil hs

/-! ## `.` and `..` -/

def push (l : List Bytes) (s : Bytes) : List Bytes :=
  if s = dot then l else if s = dotDot then l.dropLast else l ++ [s]

def resolve (segs : List Bytes) : List Bytes := segs.foldl push []

theorem foldl_push_plain (l : List Bytes) (h : ∀ s ∈ segs, Plain s) :
    segs.foldl push l = l ++ segs := by
  induction segs generalizing l with
  | nil => rw [foldl_nil, append_nil]
  | cons s segs ih =>
    obtain ⟨-, hdot, hdotDot⟩ := h s mem_cons_self
    rw [foldl_cons, push, if_neg hdot, if_neg hdotDot,
      ih _ fun s' hs' => h s' (mem_cons_of_mem _ hs'), append_assoc]
    rfl

theorem resolve_plain (h : ∀ s ∈ segs, Plain s) : resolve segs = segs :=
  foldl_push_plain [] h

theorem resolve_append_plain (segs : List Bytes) {segs' : List Bytes} (h : ∀ s ∈ segs', Plain s) :
    resolve (segs ++ segs') = resolve segs ++ segs' := by
  rw [resolve, foldl_append, foldl_push_plain _ h]
  rfl

theorem plain_foldl (hl : ∀ s ∈ l, Plain s) (hsegs : ∀ s ∈ segs, IsSegment s) :
    ∀ s ∈ segs.foldl push l, Plain s := by
  induction segs generalizing l with
  | nil => exact hl
  | cons s segs ih =>
    refine ih ?_ fun s' hs' => hsegs s' (mem_cons_of_mem _ hs')
    intro s' hs'
    unfold push at hs'
    split at hs'
    · exact hl s' hs'
    · next hdot =>
      split at hs'
      · exact hl s' (mem_of_mem_dropLast hs')
      · next hdotDot =>
        rcases mem_append.mp hs' with h | h
        · exact hl s' h
        · exact mem_singleton.mp h ▸ ⟨hsegs s mem_cons_self, hdot, hdotDot⟩

theorem plain_resolve (t : Bytes) : ∀ s ∈ resolve (segments t), Plain s :=
  plain_foldl (fun _ hs => absurd hs not_mem_nil) fun _ hs => isSegment_of_mem hs

/-! ## normal forms -/

/-- segments behind a path -/
def tail (l : List Bytes) : Bytes := l.flatMap (slash :: ·)

def render (l : List Bytes) : Bytes := if l = [] then [slash] else tail l

def normalForm (t : Bytes) : Bytes := render (resolve (segments t))

def Normal (t : Bytes) : Prop := normalForm t = t

instance (t : Bytes) : Decidable (Normal t) := inferInstanceAs (Decidable (_ = _))

theorem tail_cons (s : Bytes) (l : List Bytes) : tail (s :: l) = slash :: (s ++ tail l) := by
  rw [tail, flatMap_cons]
  rfl

theorem tail_append (l l' : List Bytes) : tail (l ++ l') = tail l ++ tail l' :=
  flatMap_append

theorem atBoundary_tail (l : List Bytes) : AtBoundary (tail l) := by
  cases l with
  | nil => exact atBoundary_nil
  | cons s l => rw [tail_cons]; exact atBoundary_cons.mpr rfl

theorem tail_eq_nil : tail l = [] ↔ l = [] := by
  cases l with
  | nil => exact ⟨fun _ => rfl, fun _ => rfl⟩
  | cons s l =>
    rw [tail_cons]
    exact ⟨fun h => absurd h (cons_ne_nil _ _), fun h => absurd h (cons_ne_nil _ _)⟩

theorem segments_tail (h : ∀ s ∈ l, IsSegment s) : segments (tail l) = l := by
  induction l with
  | nil => rfl
  | cons s l ih =>
    rw [tail_cons, segments_slash, segments_append s (atBoundary_tail l),
      segments_of_isSegment (h s mem_cons_self),
      ih fun s' hs' => h s' (mem_cons_of_mem _ hs')]
    rfl

theorem segments_render (h : ∀ s ∈ l, IsSegment s) : segments (render l) = l := by
  rw [render]
  split
  · next hl => rw [hl]; rfl
  · exact segments_tail h

theorem segments_normalForm (t : Bytes) : segments (normalForm t) = resolve (segments t) :=
  segments_render fun s hs => (plain_resolve t s hs).1

theorem normal_render (h : ∀ s ∈ l, Plain s) : Normal (render l) := by
  rw [Normal, normalForm, segments_render fun s hs => (h s hs).1, resolve_plain h]

theorem normal_normalForm (t : Bytes) : Normal (normalForm t) := normal_render (plain_resolve t)

theorem Normal.eq_render (h : Normal t) : t = render (segments t) := by
  have hsegs : segments t = resolve (segments t) := by
    rw [← segments_normalForm, h]
  rw [hsegs]
  exact h.symm

theorem Normal.plain {t : Bytes} (h : Normal t) : ∀ s ∈ segments t, Plain s := by
  have hsegs : segments t = resolve (segments t) := by
    rw [← segments_normalForm, h]
  rw [hsegs]
  exact plain_resolve t

theorem Normal.starts (h : Normal t) : t.head? = some slash := by
  rw [h.eq_render, render]
  split
  · rfl
  · next hne =>
    obtain ⟨s, l, hl⟩ := exists_cons_of_ne_nil hne
    rw [hl, tail_cons]
    rfl

theorem tail_suffix (hl : ∀ s ∈ l, IsSegment s) {a : Bytes} (h : tail l = a ++ s)
    (hs : AtBoundary s) : ∃ l₁ l₂, l = l₁ ++ l₂ ∧ a = tail l₁ ∧ s = tail l₂ := by
  induction l generalizing a with
  | nil =>
    obtain ⟨rfl, rfl⟩ := append_eq_nil_iff.mp h.symm
    exact ⟨[], [], rfl, rfl, rfl⟩
  | cons seg l ih =>
    rw [tail_cons] at h
    cases a with
    | nil => exact ⟨[], seg :: l, rfl, rfl, by rw [tail_cons]; exact h.symm⟩
    | cons c a =>
      rw [cons_append] at h
      obtain ⟨rfl, hrest⟩ := cons.inj h
      rcases append_eq_append_iff.mp hrest with ⟨a', rfl, h'⟩ | ⟨b, hb, rfl⟩
      · obtain ⟨l₁, l₂, rfl, rfl, rfl⟩ := ih (fun s hs => hl s (mem_cons_of_mem _ hs)) h'
        exact ⟨seg :: l₁, l₂, rfl, by rw [tail_cons], rfl⟩
      · -- the cut is in the segment, where no slash is, unless it is at its end
        cases b with
        | nil =>
          rw [append_nil] at hb
          exact ⟨[seg], l, rfl, by rw [tail_cons, hb]; exact (congrArg (slash :: ·)
            (append_nil a)).symm, rfl⟩
        | cons x b =>
          have hx : x = slash := atBoundary_cons.mp hs
          have hmem : slash ∈ seg := by
            rw [hb, hx]
            exact mem_append_right _ mem_cons_self
          exact absurd hmem (hl seg mem_cons_self).2

theorem Normal.suffix {a : Bytes} (h : Normal t) (heq : t = a ++ s) (ha : a ≠ [])
    (hs : AtBoundary s) : ∃ l, s = tail l ∧ ∀ seg ∈ l, Plain seg := by
  have hrender := h.eq_render
  rw [render] at hrender
  split at hrender
  · -- of the root only the slash itself is before a cut
    rw [heq] at hrender
    obtain ⟨c, a', rfl⟩ := exists_cons_of_ne_nil ha
    have hnil := (cons.inj hrender).2
    obtain ⟨-, rfl⟩ := append_eq_nil_iff.mp hnil
    exact ⟨[], rfl, fun s hs => absurd hs not_mem_nil⟩
  · rw [heq] at hrender
    obtain ⟨l₁, l₂, hl, -, hs'⟩ := tail_suffix (fun s hs => (h.plain s (heq ▸ hs)).1) hrender.symm hs
    refine ⟨l₂, hs', fun seg hseg => h.plain seg ?_⟩
    rw [heq, hl]
    exact mem_append_right _ hseg

theorem Normal.append (h : Normal t) (hroot : t ≠ [slash]) (hl : ∀ s ∈ l, Plain s) :
    Normal (t ++ tail l) := by
  have hne : segments t ≠ [] := by
    intro hnil
    have := h.eq_render
    rw [hnil] at this
    exact hroot this
  have ht : t = tail (segments t) := by
    have := h.eq_render
    rwa [render, if_neg hne] at this
  have heq : t ++ tail l = render (segments t ++ l) := by
    rw [render, if_neg (by simp [hne]), tail_append, ← ht]
  rw [heq]
  refine normal_render fun s hs => ?_
  rcases mem_append.mp hs with hs | hs
  · exact h.plain s hs
  · exact hl s hs

/-! ## below -/

def Under (h x : Bytes) : Prop := resolve (segments x) <+: resolve (segments h)

theorem under_refl (x : Bytes) : Under x x := prefix_refl _

theorem under_append (x : Bytes) (hl : ∀ s ∈ l, Plain s) : Under (x ++ tail l) x := by
  rw [Under, segments_append x (atBoundary_tail l), segments_tail fun s hs => (hl s hs).1,
    resolve_append_plain _ hl]
  exact prefix_append _ _

end LexicalPath
