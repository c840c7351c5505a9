import Mathlib
import Pscal.Paths.Truncate
import Pscal.Shell.ArrayLiteral

/-!
# The separator of a slice

`shellParamEvalSlice` of `shell/shell_parameter.inc`: the offset and the length of
`${x:offset:length}`.  A text is its bytes.  The evaluation of an expression is a parameter, on a
state of its own; memory is never short.

* `sliceSplit`, `shellParamEvalSlice`  the search for the colon, and the two evaluations;
* `outsideColon`  the first colon outside parentheses, spans and `?:`;
* `Counts`  what the bytes in front of a place come to;
* `shellParamEvalSlice_iff`  the split is at that colon just when they come to nothing.

`shell/word_scan.h` is not part of the repository: how far an expansion, a substitution or a quoted
part reaches is a parameter, `spanLength`.
-/

namespace Pscal.Slices

open List
open Wire (Bytes)
open Paths (ascii)
open Shell (openParen closeParen)

abbrev colon : UInt8 := 58
abbrev questionMark : UInt8 := 63

/-! ## the function -/

/-- where the text is split; its length where it is not -/
def sliceSplit (depth ternary : Int) : Bytes → Nat
  | [] => 0
  | c :: raw =>
    if c = openParen then sliceSplit (depth + 1) ternary raw + 1
    else if c = closeParen then sliceSplit (depth - 1) ternary raw + 1
    else if depth = 0 ∧ c = questionMark then sliceSplit depth (ternary + 1) raw + 1
    else if depth = 0 ∧ c = colon then
      if ternary > 0 then sliceSplit depth (ternary - 1) raw + 1 else 0
    else sliceSplit depth ternary raw + 1

def behind (raw : Bytes) (split : Nat) : Option Bytes :=
  if split < raw.length then some (raw.drop (split + 1)) else none

section
variable {σ : Type} (shellArithmeticEvaluate : σ → Bytes → σ × Option Int)
  (shellArithmeticExpansionFail : σ → σ)

/-- an offset and, where there is one, a length; `none`: one of them has no value -/
def evaluateBoth (s : σ) (offset : Bytes) (length : Option Bytes) : σ × Option (Int × Option Int) :=
  match shellArithmeticEvaluate s offset with
  | (s, none) => (shellArithmeticExpansionFail s, none)
  | (s, some outOffset) =>
    match length with
    | none => (s, some (outOffset, none))
    | some length =>
      match shellArithmeticEvaluate s length with
      | (s, none) => (shellArithmeticExpansionFail s, none)
      | (s, some outLength) => (s, some (outOffset, some outLength))

def shellParamEvalSlice (s : σ) (raw : Bytes) : σ × Option (Int × Option Int) :=
  let split := sliceSplit 0 0 raw
  evaluateBoth shellArithmeticEvaluate shellArithmeticExpansionFail s (raw.take split)
    (behind raw split)

end

/-! ## what it is for -/

/-- The first colon outside parentheses, spans and `?:`, or the end.  `skip`: so many bytes of a
span are still to come. -/
def outsideColon (spanLength : Bytes → Nat) (skip depth ternary : Nat) : Bytes → Nat
  | [] => 0
  | c :: raw =>
    if 0 < skip then outsideColon spanLength (skip - 1) depth ternary raw + 1
    else if 0 < spanLength (c :: raw) then
      outsideColon spanLength (spanLength (c :: raw) - 1) depth ternary raw + 1
    else if c = openParen then outsideColon spanLength 0 (depth + 1) ternary raw + 1
    else if c = closeParen then outsideColon spanLength 0 (depth - 1) ternary raw + 1
    else if depth = 0 ∧ c = questionMark then
      outsideColon spanLength 0 depth (ternary + 1) raw + 1
    else if depth = 0 ∧ c = colon then
      if 0 < ternary then outsideColon spanLength 0 depth (ternary - 1) raw + 1 else 0
    else outsideColon spanLength 0 depth ternary raw + 1

/-- The offset is what stands in front of `k`, the length what stands behind it. -/
def SplitsAt (raw : Bytes) (k : Nat) : Prop :=
  ∀ (σ : Type) (evaluate : σ → Bytes → σ × Option Int) (fail : σ → σ) (s : σ),
    shellParamEvalSlice evaluate fail s raw =
      evaluateBoth evaluate fail s (raw.take k) (behind raw k)

/-- Of two expressions with a colon between them the first is the offset, the second the length. -/
def Evaluates (offset length : Bytes) : Prop :=
  ∀ (σ : Type) (evaluate : σ → Bytes → σ × Option Int) (fail : σ → σ) (s : σ),
    shellParamEvalSlice evaluate fail s (offset ++ colon :: length) =
      evaluateBoth evaluate fail s offset (some length)

/-! ## counting -/

def parenWeight (c : UInt8) : Int := if c = openParen then 1 else if c = closeParen then -1 else 0

def parens : Bytes → Int
  | [] => 0
  | c :: raw => parenWeight c + parens raw

def ternaryWeight (depth : Int) (c : UInt8) : Int :=
  if depth = 0 ∧ c = questionMark then 1 else if depth = 0 ∧ c = colon then -1 else 0

/-- question marks less colons, those where the parentheses so far come to nothing -/
def openTernaries (depth : Int) : Bytes → Int
  | [] => 0
  | c :: raw => ternaryWeight depth c + openTernaries (depth + parenWeight c) raw

/-- Up to `k` no colon is without its question mark; where a length follows, the parentheses and
the question marks in front of `k` are closed. -/
def Counts (raw : Bytes) (k : Nat) : Prop :=
  (∀ n ≤ k, 0 ≤ openTernaries 0 (raw.take n)) ∧
    (k < raw.length → parens (raw.take k) = 0 ∧ openTernaries 0 (raw.take k) = 0)

instance (raw : Bytes) (k : Nat) : Decidable (Counts raw k) :=
  inferInstanceAs (Decidable (_ ∧ _))

theorem sliceSplit_cons (depth ternary : Int) (c : UInt8) (raw : Bytes) :
    sliceSplit depth ternary (c :: raw) =
      if depth = 0 ∧ c = colon ∧ ternary ≤ 0 then 0
      else sliceSplit (depth + parenWeight c) (ternary + ternaryWeight depth c) raw + 1 := by
  rw [sliceSplit, parenWeight, ternaryWeight]
  by_cases hopen : c = openParen
  · subst hopen
    simp [openParen, colon, questionMark]
  by_cases hclose : c = closeParen
  · subst hclose
    simp [openParen, closeParen, colon, questionMark, Int.sub_eq_add_neg]
  by_cases hdepth : depth = 0
  · by_cases hmark : c = questionMark
    · subst hmark
      simp [openParen, closeParen, colon, questionMark, hdepth]
    · by_cases hcolon : c = colon
      · subst hcolon
        by_cases ht : 0 < ternary
        · simp [openParen, closeParen, colon, questionMark, hdepth, ht, Int.sub_eq_add_neg]
        · simp [openParen, closeParen, colon, questionMark, hdepth, ht, Int.not_lt.mp ht]
      · simp [hopen, hclose, hmark, hcolon]
  · simp [hopen, hclose, hdepth]

/-- no colon without its question mark, as far as the bytes go -/
def Stays (depth ternary : Int) (raw : Bytes) : Prop :=
  ∀ n, 0 ≤ ternary + openTernaries depth (raw.take n)

theorem stays_nil (depth ternary : Int) : Stays depth ternary [] ↔ 0 ≤ ternary := by
  simp [Stays, openTernaries]

theorem stays_cons (depth ternary : Int) (c : UInt8) (raw : Bytes) :
    Stays depth ternary (c :: raw) ↔
      0 ≤ ternary ∧ Stays (depth + parenWeight c) (ternary + ternaryWeight depth c) raw := by
  constructor
  · intro h
    refine ⟨by simpa [openTernaries] using h 0, fun n => ?_⟩
    have hn := h (n + 1)
    rw [take_succ_cons, openTernaries] at hn
    rwa [Int.add_assoc]
  · rintro ⟨h0, h⟩ n
    cases n with
    | zero => simpa [openTernaries] using h0
    | succ n =>
      have hn := h n
      rwa [take_succ_cons, openTernaries, ← Int.add_assoc]

theorem Stays.start {depth ternary : Int} {raw : Bytes} (h : Stays depth ternary raw) :
    0 ≤ ternary := by
  simpa [openTernaries] using h 0

theorem ternaryWeight_colon : ternaryWeight 0 colon = -1 := by decide

theorem add_ternaryWeight_nonneg {depth ternary : Int} {c : UInt8} (ht : 0 ≤ ternary)
    (hsplit : ¬ (depth = 0 ∧ c = colon ∧ ternary ≤ 0)) : 0 ≤ ternary + ternaryWeight depth c := by
  rw [ternaryWeight]
  split_ifs with hmark hcolon
  · omega
  · have ht' : ¬ ternary ≤ 0 := fun h => hsplit ⟨hcolon.1, hcolon.2, h⟩
    omega
  · omega

theorem sliceSplit_eq_iff (depth ternary : Int) (ht : 0 ≤ ternary) (raw : Bytes) (k : Nat)
    (hk : k ≤ raw.length) (hcolon : k < raw.length → raw[k]? = some colon) :
    sliceSplit depth ternary raw = k ↔
      Stays depth ternary (raw.take k) ∧ (k < raw.length →
        depth + parens (raw.take k) = 0 ∧ ternary + openTernaries depth (raw.take k) = 0) := by
  induction raw generalizing depth ternary k with
  | nil =>
    obtain rfl : k = 0 := Nat.le_zero.mp hk
    simp [sliceSplit, stays_nil, ht]
  | cons c raw ih =>
    rw [sliceSplit_cons]
    cases k with
    | zero =>
      obtain rfl : c = colon := by simpa using hcolon
      rw [take_zero, stays_nil, parens, openTernaries, Int.add_zero, Int.add_zero]
      have hlen : 0 < (colon :: raw).length := Nat.zero_lt_succ _
      by_cases hsplit : depth = 0 ∧ colon = colon ∧ ternary ≤ 0
      · rw [if_pos hsplit]
        exact ⟨fun _ => ⟨ht, fun _ => ⟨hsplit.1, le_antisymm hsplit.2.2 ht⟩⟩, fun _ => rfl⟩
      · rw [if_neg hsplit]
        refine ⟨fun h => absurd h (Nat.succ_ne_zero _), fun h => absurd ?_ hsplit⟩
        exact ⟨(h.2 hlen).1, rfl, (h.2 hlen).2.le⟩
    | succ k =>
      rw [take_succ_cons, stays_cons, parens, openTernaries, ← Int.add_assoc, ← Int.add_assoc]
      by_cases hsplit : depth = 0 ∧ c = colon ∧ ternary ≤ 0
      · rw [if_pos hsplit]
        obtain ⟨rfl, rfl, hle⟩ := hsplit
        refine ⟨fun h => absurd h.symm (Nat.succ_ne_zero k), fun h => ?_⟩
        have hstart := h.1.2.start
        rw [ternaryWeight_colon] at hstart
        omega
      · rw [if_neg hsplit, Nat.add_right_cancel_iff, ih _ _ (add_ternaryWeight_nonneg ht hsplit) k
          (Nat.le_of_succ_le_succ hk) (fun h => by simpa using hcolon (Nat.succ_lt_succ h)),
          length_cons, Nat.add_lt_add_iff_right]
        exact ⟨fun h => ⟨⟨ht, h.1⟩, h.2⟩, fun h => ⟨h.1.2, h.2⟩⟩

theorem sliceSplit_eq_iff_counts (raw : Bytes) (k : Nat) (hk : k ≤ raw.length)
    (hcolon : k < raw.length → raw[k]? = some colon) : sliceSplit 0 0 raw = k ↔ Counts raw k := by
  rw [sliceSplit_eq_iff 0 0 le_rfl raw k hk hcolon, Counts]
  simp only [Int.zero_add, Stays]
  refine and_congr_left fun _ => ⟨fun h n hn => ?_, fun h n => ?_⟩
  · have hn' := h n
    rwa [take_take, Nat.min_eq_left hn] at hn'
  · rw [take_take]
    exact h _ (Nat.min_le_right n k)

theorem sliceSplit_le (depth ternary : Int) (raw : Bytes) :
    sliceSplit depth ternary raw ≤ raw.length := by
  induction raw generalizing depth ternary with
  | nil => exact Nat.zero_le _
  | cons c raw ih =>
    rw [sliceSplit_cons]
    split
    · exact Nat.zero_le _
    · exact Nat.succ_le_succ (ih _ _)

/-! ## the evaluations -/

def record (s : List Bytes) (text : Bytes) : List Bytes × Option Int := (s ++ [text], some 0)

theorem head?_evaluateBoth_record (offset : Bytes) (length : Option Bytes) :
    (evaluateBoth record id [] offset length).1.head? = some offset := by
  cases length <;> rfl

theorem splitsAt_iff (raw : Bytes) (k : Nat) (hk : k ≤ raw.length) :
    SplitsAt raw k ↔ sliceSplit 0 0 raw = k := by
  constructor
  · intro h
    have hoffset := congrArg (fun r => r.1.head?) (h (List Bytes) record id [])
    dsimp only [shellParamEvalSlice] at hoffset
    rw [head?_evaluateBoth_record, head?_evaluateBoth_record] at hoffset
    have hlength := congrArg List.length (Option.some.inj hoffset)
    rwa [length_take_of_le (sliceSplit_le 0 0 raw), length_take_of_le hk] at hlength
  · rintro rfl σ evaluate fail s
    rfl

theorem evaluates_iff (offset length : Bytes) :
    Evaluates offset length ↔ SplitsAt (offset ++ colon :: length) offset.length := by
  have hbehind : behind (offset ++ colon :: length) offset.length = some length := by
    rw [behind, if_pos (by simp), ← drop_drop, drop_left, drop_one, List.tail_cons]
  rw [Evaluates, SplitsAt, hbehind, take_left]

theorem evaluates_iff_counts (offset length : Bytes) :
    Evaluates offset length ↔ Counts (offset ++ colon :: length) offset.length := by
  have hle : offset.length ≤ (offset ++ colon :: length).length := by simp
  rw [evaluates_iff, splitsAt_iff _ _ hle]
  exact sliceSplit_eq_iff_counts _ _ hle fun _ => by simp

theorem outsideColon_le (spanLength : Bytes → Nat) (skip depth ternary : Nat) (raw : Bytes) :
    outsideColon spanLength skip depth ternary raw ≤ raw.length := by
  induction raw generalizing skip depth ternary with
  | nil => exact Nat.zero_le _
  | cons c raw ih =>
    rw [outsideColon]
    split_ifs <;> first | exact Nat.zero_le _ | exact Nat.succ_le_succ (ih _ _ _)

theorem outsideColon_colon (spanLength : Bytes → Nat) (skip depth ternary : Nat) (raw : Bytes)
    (h : outsideColon spanLength skip depth ternary raw < raw.length) :
    raw[outsideColon spanLength skip depth ternary raw]? = some colon := by
  induction raw generalizing skip depth ternary with
  | nil => exact absurd h (Nat.not_lt_zero _)
  | cons c raw ih =>
    have hnext : ∀ skip depth ternary,
        outsideColon spanLength skip depth ternary raw + 1 < (c :: raw).length →
          (c :: raw)[outsideColon spanLength skip depth ternary raw + 1]? = some colon := by
      intro skip depth ternary h
      rw [getElem?_cons_succ]
      exact ih _ _ _ (Nat.lt_of_succ_lt_succ h)
    revert h
    rw [outsideColon]
    split_ifs with _ _ _ _ _ hcolon
    all_goals first | exact hnext _ _ _ | skip
    intro _
    rw [getElem?_cons_zero, hcolon.2]

/-- The split is at the colon outside parentheses, spans and `?:`, and of two expressions with a
colon between them the first is the offset, just when the bytes in front of it count so. -/
theorem shellParamEvalSlice_iff (spanLength : Bytes → Nat) :
    (∀ raw, SplitsAt raw (outsideColon spanLength 0 0 0 raw) ↔
        Counts raw (outsideColon spanLength 0 0 0 raw)) ∧
      ∀ offset length, Evaluates offset length ↔
        Counts (offset ++ colon :: length) offset.length := by
  refine ⟨fun raw => ?_, evaluates_iff_counts⟩
  rw [splitsAt_iff _ _ (outsideColon_le _ _ _ _ _)]
  exact sliceSplit_eq_iff_counts _ _ (outsideColon_le _ _ _ _ _) (outsideColon_colon _ _ _ _ _)

/-- `${` up to the first `}` -/
def braceLength (raw : Bytes) : Nat :=
  if raw.take 2 = ascii "$\x7b" then ((raw.findIdx? (· = 125)).map (· + 1)).getD 0 else 0

/-- `${x:${y:-1}:2}` -/
theorem not_splitsAt_braces :
    ¬ SplitsAt (ascii "$\x7by:-1\x7d:2") (outsideColon braceLength 0 0 0 (ascii "$\x7by:-1\x7d:2")) ∧
      ¬ Evaluates (ascii "$\x7by:-1\x7d") (ascii "2") := by
  refine ⟨fun h => absurd (h (List Bytes) record id []) (by decide), fun h => ?_⟩
  exact absurd (h (List Bytes) record id []) (by decide)

end Pscal.Slices
