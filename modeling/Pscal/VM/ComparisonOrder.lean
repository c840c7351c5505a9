import Pscal.VM.Comparisons

/-!
# The order of the comparisons

The six comparison instructions on integers of every width, booleans and characters, and on the
members of one enum type, are the order of the numbers.

* `Value.number?`  the class of a value, and its number there;
* `vmCompare_number`  the answer of an instruction is that of the numbers;
* `vmCompare_totalOrder`  a total order in each class.
-/

namespace Pscal

/-- the classes of values that are compared by number -/
inductive OrderClass where
  | intlike
  | enum (typeName : String)
deriving DecidableEq, Repr

/-- the class of a value and its number there; an int-like value is what its type stores -/
def Value.number? : Value → Option (OrderClass × Int)
  | .scalar t v => some (.intlike, t.store v)
  | .enum name ordinal => some (.enum name, ordinal)
  | _ => none

def compareNumbers : OpCode → Int → Int → Option Bool
  | .equal, x, y => some (decide (x = y))
  | .notEqual, x, y => some (decide (x ≠ y))
  | .greater, x, y => some (decide (x > y))
  | .greaterEqual, x, y => some (decide (x ≥ y))
  | .less, x, y => some (decide (x < y))
  | .lessEqual, x, y => some (decide (x ≤ y))
  | _, _, _ => none

theorem compareNumbers_eq {o : OpCode} {x y : Int} {r : Bool} (h : compareNumbers o x y = some r) :
    compareResult o (threeWay x y) = r := by
  rw [compareResult_threeWay]
  unfold compareNumbers at h
  split at h
  case h_7 => cases h
  all_goals
    cases h
    rfl

theorem compareEnums_same (o : OpCode) (name : String) (x y : Int) :
    compareEnums o name x name y = some (compareResult o (threeWay x y)) := by
  unfold compareEnums
  split
  · rw [compareResult_threeWay]
    simp
  · rw [compareResult_threeWay]
    simp
  · rw [if_pos rfl]

theorem vmCompare_number (ext : Externals) {o : OpCode} {a b : Value} {k : OrderClass} {x y : Int}
    {r : Bool} (ha : a.number? = some (k, x)) (hb : b.number? = some (k, y))
    (h : compareNumbers o x y = some r) : vmCompare ext o a b = some r := by
  have hr := compareNumbers_eq h
  cases a with
  | scalar s v =>
    cases ha
    cases b with
    | scalar t w =>
      cases hb
      show some (compareResult o (vmCompareIntlike _ _)) = _
      rw [vmCompareIntlike_eq]
      exact congrArg some hr
    | enum => cases hb
    | real | str | array | boxed => cases hb
  | enum name ordA =>
    cases ha
    cases b with
    | enum name' ordB =>
      cases hb
      show compareEnums o name _ name _ = _
      rw [compareEnums_same, hr]
    | scalar => cases hb
    | real | str | array | boxed => cases hb
  | real | str | array | boxed => cases ha

def Compares (ext : Externals) (o : OpCode) (a b : Value) : Prop :=
  vmCompare ext o a b = some true

section
variable {ext : Externals} {a b : Value} {k : OrderClass} {x y : Int}
  (ha : a.number? = some (k, x)) (hb : b.number? = some (k, y))
include ha hb

theorem compares_less : Compares ext .less a b ↔ x < y := by
  unfold Compares
  rw [vmCompare_number ext ha hb rfl]
  simp

theorem compares_lessEqual : Compares ext .lessEqual a b ↔ x ≤ y := by
  unfold Compares
  rw [vmCompare_number ext ha hb rfl]
  simp

theorem compares_equal : Compares ext .equal a b ↔ x = y := by
  unfold Compares
  rw [vmCompare_number ext ha hb rfl]
  simp

theorem compares_notEqual : Compares ext .notEqual a b ↔ x ≠ y := by
  unfold Compares
  rw [vmCompare_number ext ha hb rfl]
  simp

theorem compares_greater : Compares ext .greater a b ↔ x > y := by
  unfold Compares
  rw [vmCompare_number ext ha hb rfl]
  simp

theorem compares_greaterEqual : Compares ext .greaterEqual a b ↔ x ≥ y := by
  unfold Compares
  rw [vmCompare_number ext ha hb rfl]
  simp

end

/-- In each class the comparisons are the order of the numbers: one of `LESS`, `EQUAL`, `GREATER`
holds, `LESS_EQUAL` and `GREATER_EQUAL` are its closures, `NOT_EQUAL` is the opposite of `EQUAL`,
and the order carries over from `a` to `c` through any third `b`. -/
theorem vmCompare_totalOrder (ext : Externals) {a b c : Value} {k : OrderClass} {x y z : Int}
    (ha : a.number? = some (k, x)) (hb : b.number? = some (k, y)) (hc : c.number? = some (k, z)) :
    ((Compares ext .less a b ↔ x < y) ∧ (Compares ext .equal a b ↔ x = y) ∧
        (Compares ext .greater a b ↔ x > y)) ∧
      (Compares ext .less a b ∧ ¬Compares ext .equal a b ∧ ¬Compares ext .greater a b ∨
        ¬Compares ext .less a b ∧ Compares ext .equal a b ∧ ¬Compares ext .greater a b ∨
        ¬Compares ext .less a b ∧ ¬Compares ext .equal a b ∧ Compares ext .greater a b) ∧
      (Compares ext .lessEqual a b ↔ Compares ext .less a b ∨ Compares ext .equal a b) ∧
      (Compares ext .greaterEqual a b ↔ Compares ext .greater a b ∨ Compares ext .equal a b) ∧
      (Compares ext .notEqual a b ↔ ¬Compares ext .equal a b) ∧
      (Compares ext .less a b → Compares ext .less b c → Compares ext .less a c) ∧
      (Compares ext .lessEqual a b → Compares ext .lessEqual b c → Compares ext .lessEqual a c) ∧
      (Compares ext .equal a b → Compares ext .equal b c → Compares ext .equal a c) ∧
      (Compares ext .less a b → Compares ext .equal b c → Compares ext .less a c) ∧
      (Compares ext .equal a b → Compares ext .less b c → Compares ext .less a c) := by
  refine ⟨⟨compares_less ha hb, compares_equal ha hb, compares_greater ha hb⟩, ?_⟩
  simp only [compares_less ha hb, compares_less hb hc, compares_less ha hc,
    compares_lessEqual ha hb, compares_lessEqual hb hc, compares_lessEqual ha hc,
    compares_equal ha hb, compares_equal hb hc, compares_equal ha hc,
    compares_greater ha hb, compares_greaterEqual ha hb, compares_notEqual ha hb]
  refine ⟨?_, ?_, ?_, trivial, ?_, ?_, ?_, ?_, ?_⟩ <;> omega

/-- an `INT8`, a character and a `UINT64` -/
theorem vmCompare_totalOrder_widths :
    Compares ⟨fun _ _ _ => false, fun _ _ _ => none, fun _ _ => false, fun _ => false⟩ .less
      (.scalar .int8 (-1)) (.scalar .uint64 (2 ^ 64 - 1)) :=
  have h := vmCompare_totalOrder
    ⟨fun _ _ _ => false, fun _ _ _ => none, fun _ _ => false, fun _ => false⟩
    (a := .scalar .int8 (-1)) (b := .scalar .char 65) (c := .scalar .uint64 (2 ^ 64 - 1))
    (k := .intlike) (x := -1) (y := 65) (z := 2 ^ 64 - 1) rfl rfl rfl
  h.2.2.2.2.2.1 rfl rfl

end Pscal
