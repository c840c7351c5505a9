import Mathlib
import Pscal.VM.Integers

/-!
# Brace sequences

`shell_parameter.inc`: `{a..c}` and `{1..9..2}`.

* `shellBraceParseInteger`, `shellBraceSequence`  the code;
* `Sequence.values`  what a sequence is to run through;
* `Sequence.Fits`  when the code's sums and differences do.
-/

namespace Pscal

open List

namespace BraceSequence

/-- `strtoll` of digits: what does not fit becomes the nearest value that does -/
def strtoll (negative : Bool) (digits : List Char) : Int64 :=
  let n : Nat := digits.foldl (fun n c => 10 * n + (c.toNat - 48)) 0
  Int64.ofIntClamp (if negative then -(n : Int) else n)

def shellBraceParseInteger (s : List Char) : Option (Int64 × Nat) :=
  let digits := if s.head? = some '-' ∨ s.head? = some '+' then s.tail else s
  if digits = [] ∨ digits.all Char.isDigit = false ∨ 32 ≤ s.length then none
  else
    let padded := digits.head? = some '0' ∧ 1 < digits.length
    some (strtoll (s.head? = some '-') digits, if padded then s.length else 0)

/-- the text before the first `..` and the text behind it -/
def splitDots : List Char → Option (List Char × List Char)
  | '.' :: '.' :: rest => some ([], rest)
  | c :: rest => (splitDots rest).map fun p => (c :: p.1, p.2)
  | [] => none

structure Sequence where
  alpha : Bool
  start : Int64
  stop : Int64
  step : Int64
  width : Nat
deriving DecidableEq, Repr

def endpoints (lhs rhs : List Char) (step : Int64) : Option Sequence :=
  match shellBraceParseInteger lhs, shellBraceParseInteger rhs with
  | some (start, fromWidth), some (stop, toWidth) =>
    some ⟨false, start, stop, step, max fromWidth toWidth⟩
  | _, _ =>
    match lhs, rhs with
    | [a], [b] =>
      if a.isAlpha ∧ b.isAlpha then some ⟨true, Int64.ofNat a.toNat, Int64.ofNat b.toNat, step, 0⟩
      else none
    | _, _ => none

def parseSequence (s : List Char) : Option Sequence := do
  let (lhs, rhs) ← splitDots s
  match splitDots rhs with
  | none => endpoints lhs rhs 0
  | some (rhs, by_) =>
    let (step, _) ← shellBraceParseInteger by_
    endpoints lhs rhs step

inductive Outcome where
  | rejected
  | words (ws : List String)
  | overflow
  | running
deriving DecidableEq, Repr

/-- `%0*lld` -/
def paddedDecimal (width : Nat) (v : Int) : String :=
  let sign := if v < 0 then "-" else ""
  let digits := toString v.natAbs
  sign ++ String.ofList (List.replicate (width - sign.length - digits.length) '0') ++ digits

def Sequence.word (p : Sequence) (value : Int) : String :=
  if p.alpha then String.singleton (Char.ofNat value.toNat) else paddedDecimal p.width value

/-- `from <= to` -/
def Sequence.up (p : Sequence) : Bool := p.start ≤ p.stop

/-- `from <= to ? value <= to : value >= to` -/
def Sequence.going (p : Sequence) (value : Int) : Prop :=
  if p.up then value ≤ p.stop.toInt else p.stop.toInt ≤ value

instance (p : Sequence) (value : Int) : Decidable (p.going value) := by
  unfold Sequence.going
  infer_instance

/-- the loop, at `value`, with `step` as it was made positive -/
def Sequence.loop (p : Sequence) (step : Int) : Nat → Int → List String → Outcome
  | 0, _, _ => .running
  | fuel + 1, value, out =>
    if p.going value then
      match checkedLongLong (value + if p.up then step else -step) with
      | some next => p.loop step fuel next (out ++ [p.word value])
      | none => .overflow
    else .words out

/-- `shellBraceSequence` once its text has been read -/
def Sequence.run (p : Sequence) (fuel : Nat) : Outcome :=
  match checkedLongLong (if p.step < 0 then -p.step.toInt else p.step.toInt) with
  | none => .overflow
  | some step =>
    let step := if step = 0 then 1 else step
    match checkedLongLong (if p.stop > p.start then p.stop.toInt - p.start.toInt
      else p.start.toInt - p.stop.toInt) with
    | none => .overflow
    | some span =>
      if span.tdiv step > 10000000 then .rejected
      else p.loop step fuel p.start.toInt []

def shellBraceSequence (fuel : Nat) (s : List Char) : Outcome :=
  match parseSequence s with
  | none => .rejected
  | some p => p.run fuel

example : shellBraceSequence 9 "1..9..4".toList = .words ["1", "5", "9"] := by decide

example : shellBraceSequence 9 "09..c".toList = .rejected := by decide

/-! ## the values -/

def Sequence.absStep (p : Sequence) : Int := if p.step.toInt = 0 then 1 else |p.step.toInt|

def Sequence.move (p : Sequence) : Int := if p.up then p.absStep else -p.absStep

def Sequence.rounds (p : Sequence) : Nat :=
  (|p.stop.toInt - p.start.toInt| / p.absStep).toNat

def Sequence.values (p : Sequence) : List Int :=
  (List.range (p.rounds + 1)).map fun i : Nat => p.start.toInt + i * p.move

def InRange (v : Int) : Prop := -2 ^ 63 ≤ v ∧ v < 2 ^ 63

/-- The step has an absolute value, the endpoints a difference, and the value behind the last
word is in range too, unless there are too many words. -/
structure Sequence.Fits (p : Sequence) : Prop where
  step : p.step.toInt ≠ -2 ^ 63
  span : |p.stop.toInt - p.start.toInt| < 2 ^ 63
  last : p.rounds ≤ 10000000 → InRange (p.start.toInt + (p.rounds + 1) * p.move)

theorem checkedLongLong_some {v : Int} (h : InRange v) : checkedLongLong v = some v := if_pos h

theorem checkedLongLong_none {v : Int} (h : ¬ InRange v) : checkedLongLong v = none := if_neg h

variable {p : Sequence}

theorem Sequence.absStep_pos (p : Sequence) : 0 < p.absStep := by
  unfold Sequence.absStep
  split
  · decide
  · exact abs_pos.mpr ‹_›

def Sequence.gap (p : Sequence) (value : Int) : Int :=
  if p.up then p.stop.toInt - value else value - p.stop.toInt

theorem Sequence.going_iff (p : Sequence) (value : Int) : p.going value ↔ 0 ≤ p.gap value := by
  unfold Sequence.going Sequence.gap
  split <;> omega

theorem Sequence.gap_move (p : Sequence) (value : Int) :
    p.gap (value + p.move) = p.gap value - p.absStep := by
  unfold Sequence.gap Sequence.move
  split <;> omega

theorem Sequence.loop_succ (fuel : Nat) {value : Int} (out : List String) (h : 0 ≤ p.gap value) :
    p.loop p.absStep (fuel + 1) value out =
      match checkedLongLong (value + p.move) with
      | some next => p.loop p.absStep fuel next (out ++ [p.word value])
      | none => .overflow := by
  rw [Sequence.loop, if_pos ((p.going_iff value).mpr h), Sequence.move]

/-- what lies between two values in range is in range -/
theorem InRange.between {value move : Int} {n : Nat} (hvalue : InRange value)
    (hlast : InRange (value + (n + 1) * move)) : InRange (value + move) := by
  obtain ⟨h1, h2⟩ := hvalue
  obtain ⟨h3, h4⟩ := hlast
  rw [add_one_mul] at h3 h4
  unfold InRange
  rcases le_total 0 move with hmove | hmove
  · have h5 : 0 ≤ n * move := mul_nonneg n.cast_nonneg hmove
    omega
  · have h5 : n * move ≤ 0 := mul_nonpos_of_nonneg_of_nonpos n.cast_nonneg hmove
    omega

theorem add_move (value move : Int) (n : Nat) :
    value + ((n + 1 : Nat) + 1) * move = value + move + (n + 1) * move := by
  push_cast
  ring

theorem Sequence.gap_next {n : Nat} {value r : Int}
    (hgap : p.gap value = (n + 1 : Nat) * p.absStep + r) :
    p.gap (value + p.move) = n * p.absStep + r := by
  rw [p.gap_move, hgap]
  push_cast
  ring

theorem Sequence.gap_nonneg {n : Nat} {value r : Int} (hr : 0 ≤ r)
    (hgap : p.gap value = n * p.absStep + r) : 0 ≤ p.gap value := by
  have hpos := p.absStep_pos
  rw [hgap]
  positivity

theorem Sequence.loop_words (n : Nat) {value r : Int} (out : List String) (hr : 0 ≤ r)
    (hrs : r < p.absStep) (hgap : p.gap value = n * p.absStep + r) (hvalue : InRange value)
    (hlast : InRange (value + (n + 1) * p.move)) : p.loop p.absStep (n + 2) value out =
      .words (out ++ (List.range (n + 1)).map fun i : Nat => p.word (value + i * p.move)) := by
  induction n generalizing value out with
  | zero =>
    have hnext := hvalue.between hlast
    rw [loop_succ _ _ (gap_nonneg hr hgap), checkedLongLong_some hnext]
    have hdone : ¬ p.going (value + p.move) := by
      rw [going_iff, p.gap_move, hgap]
      push_cast
      omega
    simp [Sequence.loop, hdone]
  | succ n ih =>
    have hnext := hvalue.between hlast
    rw [loop_succ _ _ (gap_nonneg hr hgap), checkedLongLong_some hnext]
    rw [add_move] at hlast
    dsimp only
    rw [ih _ (gap_next hgap) hnext hlast, append_assoc]
    congr 2
    rw [range_succ_eq_map (n := n + 1), map_cons, List.map_map, Nat.cast_zero, zero_mul, add_zero]
    rw [singleton_append]
    congr 1
    apply map_congr_left
    intro i _
    show p.word (value + p.move + i * p.move) = p.word (value + (i + 1 : Nat) * p.move)
    push_cast
    congr 1
    ring

theorem Sequence.loop_overflow (n : Nat) {value r : Int} (out : List String) (hr : 0 ≤ r)
    (hgap : p.gap value = n * p.absStep + r) (hlast : ¬ InRange (value + (n + 1) * p.move))
    (fuel : Nat) :
    p.loop p.absStep fuel value out = .running ∨ p.loop p.absStep fuel value out = .overflow := by
  induction n generalizing value out fuel with
  | zero =>
    cases fuel with
    | zero => exact .inl rfl
    | succ fuel =>
      rw [Nat.cast_zero, zero_add, one_mul] at hlast
      rw [loop_succ _ _ (gap_nonneg hr hgap), checkedLongLong_none hlast]
      exact .inr rfl
  | succ n ih =>
    cases fuel with
    | zero => exact .inl rfl
    | succ fuel =>
      rw [loop_succ _ _ (gap_nonneg hr hgap)]
      by_cases hnext : InRange (value + p.move)
      · rw [add_move] at hlast
        rw [checkedLongLong_some hnext]
        exact ih _ (gap_next hgap) hlast fuel
      · rw [checkedLongLong_none hnext]
        exact .inr rfl

/-! ## the whole sequence -/

theorem inRange_toInt (v : Int64) : InRange v.toInt := ⟨v.le_toInt, v.toInt_lt⟩

def Sequence.Exact (p : Sequence) (o : Outcome) : Prop :=
  o = .words (p.values.map p.word) ∨ o = .rejected ∧ 10000000 < p.rounds

theorem Sequence.stepRead_eq (p : Sequence) :
    (if p.step < 0 then -p.step.toInt else p.step.toInt) = |p.step.toInt| := by
  have hlt : p.step < 0 ↔ p.step.toInt < 0 := Int64.lt_iff_toInt_lt
  split <;> rename_i h <;> rw [hlt] at h
  · rw [abs_of_neg h]
  · rw [abs_of_nonneg (by omega)]

theorem Sequence.spanRead_eq (p : Sequence) :
    (if p.stop > p.start then p.stop.toInt - p.start.toInt else p.start.toInt - p.stop.toInt) =
      |p.stop.toInt - p.start.toInt| := by
  have hlt : p.stop > p.start ↔ p.start.toInt < p.stop.toInt := Int64.lt_iff_toInt_lt
  split <;> rename_i h <;> rw [hlt] at h
  · rw [abs_of_pos (by omega)]
  · rw [abs_of_nonpos (by omega)]
    omega

theorem abs_inRange {v : Int} : InRange |v| ↔ |v| < 2 ^ 63 := by
  have h := abs_nonneg v
  unfold InRange
  omega

theorem Sequence.run_eq (hstep : p.step.toInt ≠ -2 ^ 63)
    (hspan : |p.stop.toInt - p.start.toInt| < 2 ^ 63) (fuel : Nat) :
    p.run fuel = if 10000000 < p.rounds then .rejected
      else p.loop p.absStep fuel p.start.toInt [] := by
  have hread : InRange |p.step.toInt| := by
    obtain ⟨h1, h2⟩ := inRange_toInt p.step
    rw [abs_inRange, abs_lt]
    omega
  have hzero : (if |p.step.toInt| = 0 then 1 else |p.step.toInt|) = p.absStep := by
    simp only [abs_eq_zero, Sequence.absStep]
  have hpos := p.absStep_pos
  have hdiv := Int.ediv_nonneg (abs_nonneg (p.stop.toInt - p.start.toInt)) hpos.le
  unfold Sequence.run
  rw [stepRead_eq, checkedLongLong_some hread, spanRead_eq,
    checkedLongLong_some (abs_inRange.mpr hspan)]
  dsimp only
  rw [hzero, Int.tdiv_eq_ediv_of_nonneg (abs_nonneg _)]
  unfold Sequence.rounds
  split <;> split <;> first | rfl | omega

theorem Sequence.start_gap (p : Sequence) : p.gap p.start.toInt = p.rounds * p.absStep +
    |p.stop.toInt - p.start.toInt| % p.absStep := by
  have hdiv := Int.ediv_nonneg (abs_nonneg (p.stop.toInt - p.start.toInt)) p.absStep_pos.le
  have hup : p.up = true ↔ p.start.toInt ≤ p.stop.toInt := by
    rw [Sequence.up, decide_eq_true_iff, Int64.le_iff_toInt_le]
  have hgap : p.gap p.start.toInt = |p.stop.toInt - p.start.toInt| := by
    unfold Sequence.gap
    split <;> rename_i h <;> rw [hup] at h
    · rw [abs_of_nonneg (by omega)]
    · rw [abs_of_neg (by omega)]
      omega
  rw [hgap, Sequence.rounds, Int.toNat_of_nonneg hdiv, Int.ediv_mul_add_emod]

theorem Sequence.exact_iff (p : Sequence) : (∃ fuel, p.Exact (p.run fuel)) ↔ p.Fits := by
  have hpos := p.absStep_pos
  have hr : 0 ≤ |p.stop.toInt - p.start.toInt| % p.absStep := Int.emod_nonneg _ hpos.ne'
  constructor
  · rintro ⟨fuel, h⟩
    have hstep : p.step.toInt ≠ -2 ^ 63 := by
      intro hmin
      unfold Sequence.run at h
      have habs : ¬ InRange |(-2 ^ 63 : Int)| := by
        rw [abs_inRange]
        norm_num
      rw [stepRead_eq, hmin, checkedLongLong_none habs] at h
      simp [Sequence.Exact] at h
    have hspan : |p.stop.toInt - p.start.toInt| < 2 ^ 63 := by
      by_contra hspan
      unfold Sequence.run at h
      rw [spanRead_eq, checkedLongLong_none (abs_inRange.not.mpr hspan)] at h
      split at h <;> simp [Sequence.Exact] at h
    refine ⟨hstep, hspan, fun hle => ?_⟩
    by_contra hlast
    rw [run_eq hstep hspan, if_neg (by omega)] at h
    rcases p.loop_overflow p.rounds [] hr p.start_gap hlast fuel with hrun | hrun <;>
      rw [hrun] at h <;> simp [Sequence.Exact] at h
  · rintro ⟨hstep, hspan, hlast⟩
    by_cases hmany : 10000000 < p.rounds
    · refine ⟨0, .inr ⟨?_, hmany⟩⟩
      rw [run_eq hstep hspan, if_pos hmany]
    · refine ⟨p.rounds + 2, .inl ?_⟩
      rw [run_eq hstep hspan, if_neg hmany, p.loop_words p.rounds [] hr (Int.emod_lt_of_pos _ hpos)
        p.start_gap (inRange_toInt _) (hlast (by omega)), nil_append, Sequence.values,
        List.map_map]
      rfl

theorem shellBraceSequence_exact_iff {s : List Char} (h : parseSequence s = some p) :
    (∃ fuel, p.Exact (shellBraceSequence fuel s)) ↔ p.Fits := by
  unfold shellBraceSequence
  rw [h]
  exact p.exact_iff

/-- `{1..9..4}` -/
def toNine : Sequence := ⟨false, 1, 9, 4, 0⟩

theorem shellBraceSequence_exact_toNine :
    (∃ fuel, toNine.Exact (shellBraceSequence fuel "1..9..4".toList)) ↔ toNine.Fits :=
  shellBraceSequence_exact_iff (by decide)

/-- `{9223372036854775807..9223372036854775807}` -/
def atGreatest : Sequence := ⟨false, Int64.maxValue, Int64.maxValue, 0, 0⟩

/-- The one value is stepped over. -/
theorem not_exact_atGreatest :
    parseSequence "9223372036854775807..9223372036854775807".toList = some atGreatest ∧
      ∀ fuel, ¬ atGreatest.Exact
        (shellBraceSequence fuel "9223372036854775807..9223372036854775807".toList) := by
  have hparse : parseSequence "9223372036854775807..9223372036854775807".toList =
    some atGreatest := by decide
  refine ⟨hparse, fun fuel h => ?_⟩
  unfold shellBraceSequence at h
  rw [hparse] at h
  have hfits := atGreatest.exact_iff.mp ⟨fuel, h⟩
  exact absurd (hfits.last (by decide)).2 (by decide)

end BraceSequence

end Pscal
