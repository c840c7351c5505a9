import Pscal.Bytecode.Opcode
import Pscal.Core.Utf8
import Pscal.VM.IntegersSpec

/-!
# Comparisons and conditions

`EQUAL`, `NOT_EQUAL`, `GREATER`, `GREATER_EQUAL`, `LESS`, `LESS_EQUAL`, `AND` and the condition of
`JUMP_IF_FALSE` of `vm/vm.c`.

* `vmCompareIntlike`  two values of int-like types, by their numbers;
* `vmCompare`  the six comparisons (`none`: a runtime error);
* `vmAnd`, `vmCondition`.

Real arithmetic and the objects of the heap stay open (`Externals`).
-/

namespace Pscal

structure Externals where
  compareReal : OpCode → Value → Value → Bool
  /-- pointers, sets, arrays, maps, streams, closures, and `nil` next to one of them -/
  compareHeap : OpCode → Value → Value → Option Bool
  truthReal : RealType → Nat → Bool
  truthPointer : Nat → Bool

/-- `(x > y) - (x < y)` -/
def threeWay (x y : Int) : Int := (if x > y then 1 else 0) - (if x < y then 1 else 0)

/-- what a comparison instruction makes of such a number -/
def compareResult : OpCode → Int → Bool
  | .equal, cmp => cmp = 0
  | .notEqual, cmp => cmp ≠ 0
  | .greater, cmp => cmp > 0
  | .greaterEqual, cmp => cmp ≥ 0
  | .less, cmp => cmp < 0
  | .lessEqual, cmp => cmp ≤ 0
  | _, _ => false

def vmCompareIntlike (a b : Scalar) : Int :=
  if a.type ≠ .uint64 ∧ b.type ≠ .uint64 then threeWay a.asI64 b.asI64
  else
    let x := vmWideIntOf a
    let y := vmWideIntOf b
    if x.neg ≠ y.neg then (if x.neg = true then -1 else 1)
    else
      let c := threeWay x.mag.toNat y.mag.toNat
      if x.neg = true then -c else c

/-! ## texts -/

/-- `memcmp` of the common part, then the lengths -/
def compareBytes : List UInt8 → List UInt8 → Int
  | [], ys => threeWay 0 ys.length
  | xs, [] => threeWay xs.length 0
  | x :: xs, y :: ys => if x = y then compareBytes xs ys else threeWay x.toNat y.toNat

def Value.text? : Value → Option (List UInt8)
  | .str _ s => some ((s.getD "").toList.map fun c => UInt8.ofNat c.toNat)
  | .scalar .char v => some [UInt8.ofNat (v % 256).toNat]
  | .scalar .widechar v => some (encodeUtf8Codepoint (v % 2 ^ 32).toNat)
  | _ => none

/-- `EQUAL` and `NOT_EQUAL` are for all enums, an order for those of one type -/
def compareEnums (o : OpCode) (nameA : String) (ordA : Int) (nameB : String) (ordB : Int) :
    Option Bool :=
  match o with
  | .equal => some (decide (nameA = nameB) && decide (ordA = ordB))
  | .notEqual => some (!decide (nameA = nameB) || decide (ordA ≠ ordB))
  | _ => if nameA = nameB then some (compareResult o (threeWay ordA ordB)) else none

/-! ## the instructions -/

/-- a comparison.  Characters and booleans are int-like, so that their own branches are not
reached; the fast path for two `INT32` gives what `vmCompareIntlike` gives. -/
def vmCompare (ext : Externals) (o : OpCode) (a b : Value) : Option Bool :=
  match a, b with
  | .scalar s v, .scalar t w =>
    some (compareResult o (vmCompareIntlike (Scalar.ofInt s v) (Scalar.ofInt t w)))
  | .scalar _ _, .real _ _ | .real _ _, .scalar _ _ | .real _ _, .real _ _ =>
    some (ext.compareReal o a b)
  | .enum nameA ordA, .enum nameB ordB => compareEnums o nameA ordA nameB ordB
  | .enum _ _, .scalar _ _ | .scalar _ _, .enum _ _ => none
  | .boxed .nil _, .boxed .nil _ =>
    if o = .equal then some true else if o = .notEqual then some false else none
  | .str _ _, .str _ _ | .str _ _, .scalar _ _ | .scalar _ _, .str _ _ =>
    match a.text?, b.text? with
    | some x, some y => some (compareResult o (compareBytes x y))
    | _, _ => none
  | _, _ => ext.compareHeap o a b

def makeBoolean (b : Bool) : Value := .scalar .boolean (if b then 1 else 0)

def bitAnd (a b : Int) : Int := (BitVec.ofInt 64 a &&& BitVec.ofInt 64 b).toInt

/-- `AND` -/
def vmAnd (a b : Value) : Option Value :=
  match a, b with
  | .scalar .boolean v, .scalar .boolean w => some (makeBoolean (decide (v ≠ 0) && decide (w ≠ 0)))
  | .scalar s v, .scalar t w =>
    let x := Scalar.ofInt s v
    let y := Scalar.ofInt t w
    let r := if s = .int32 ∧ t = .int32 then makeInt (bitAnd x.valInt y.valInt)
      else pscalIntResultLike2 x y (bitAnd x.asI64 y.asI64)
    some (.scalar r.type r.value)
  | _, _ => none

/-- the condition of `JUMP_IF_FALSE` -/
def vmCondition (ext : Externals) : Value → Option Bool
  | .scalar _ v => some (decide (v ≠ 0))
  | .real t bits => some (ext.truthReal t bits)
  | .boxed .nil _ => some false
  | .boxed .pointer obj => some (ext.truthPointer obj)
  | _ => none

theorem vmAnd_makeBoolean (a b : Bool) :
    vmAnd (makeBoolean a) (makeBoolean b) = some (makeBoolean (a && b)) := by
  cases a <;> cases b <;> rfl

theorem vmCondition_makeBoolean (ext : Externals) (b : Bool) :
    vmCondition ext (makeBoolean b) = some b := by
  cases b <;> rfl

/-! ## integers -/

theorem Scalar.range (v : Scalar) : (v.type = .uint64 → 0 ≤ v.value ∧ v.value < 2 ^ 64) ∧
      (v.type ≠ .uint64 → -2 ^ 63 ≤ v.value ∧ v.value < 2 ^ 63) := by
  obtain ⟨type, value, stored⟩ := v
  dsimp only
  cases type <;> simp only [IntType.store] at stored <;> refine ⟨fun h => ?_, fun h => ?_⟩ <;>
    first
    | cases h; done
    | exact absurd rfl h
    | omega
    | (simp only [Int.bmod_def] at stored; omega)

theorem Scalar.asI64_bmod (v : Scalar) : v.asI64 = v.value.bmod (2 ^ 64) := by
  unfold Scalar.asI64
  split <;> first | exact toInt64_ofInt_bmod _ | rfl

theorem Scalar.asI64_value {v : Scalar} (h : v.type ≠ .uint64) : v.asI64 = v.value := by
  obtain ⟨hmin, hmax⟩ := v.range.2 h
  rw [v.asI64_bmod, bmod_of_range hmin hmax]

theorem vmWideIntOf_value (v : Scalar) : (vmWideIntOf v).neg = decide (v.value < 0) ∧
      ((vmWideIntOf v).mag.toNat : Int) = if v.value < 0 then -v.value else v.value := by
  unfold vmWideIntOf
  by_cases h : v.type = .uint64
  · obtain ⟨hmin, hmax⟩ := v.range.1 h
    rw [if_pos h]
    refine ⟨(decide_eq_false (by omega)).symm, ?_⟩
    rw [if_neg (by omega), Scalar.valUInt, toNat_ofInt]
    exact Int.emod_eq_of_lt hmin hmax
  · obtain ⟨hmin, hmax⟩ := v.range.2 h
    rw [if_neg h, Scalar.asI64_value h]
    refine ⟨rfl, ?_⟩
    have hword := toNat_ofInt v.value
    dsimp only
    by_cases hneg : v.value < 0
    · rw [if_pos hneg, if_pos hneg, UInt64.toNat_sub, show (0 : UInt64).toNat = 0 from rfl]
      omega
    · rw [if_neg hneg, if_neg hneg]
      omega

theorem vmCompareIntlike_eq (a b : Scalar) : vmCompareIntlike a b = threeWay a.value b.value := by
  unfold vmCompareIntlike
  by_cases h : a.type ≠ .uint64 ∧ b.type ≠ .uint64
  · rw [if_pos h, Scalar.asI64_value h.1, Scalar.asI64_value h.2]
  · obtain ⟨hna, hma⟩ := vmWideIntOf_value a
    obtain ⟨hnb, hmb⟩ := vmWideIntOf_value b
    rw [if_neg h]
    dsimp only
    rw [hna, hnb, hma, hmb]
    unfold threeWay
    by_cases ha : a.value < 0 <;> by_cases hb : b.value < 0 <;>
      simp only [ha, hb, decide_true, decide_false, if_true, if_false, ne_eq, not_true_eq_false,
        not_false_eq_true, Bool.false_eq_true, reduceCtorEq] <;> split_ifs <;> omega

theorem compareResult_threeWay (o : OpCode) (x y : Int) :
    compareResult o (threeWay x y) =
      match o with
      | .equal => decide (x = y)
      | .notEqual => decide (x ≠ y)
      | .greater => decide (x > y)
      | .greaterEqual => decide (x ≥ y)
      | .less => decide (x < y)
      | .lessEqual => decide (x ≤ y)
      | _ => false := by
  have hcases : x < y ∧ threeWay x y = -1 ∨ x = y ∧ threeWay x y = 0 ∨ x > y ∧ threeWay x y = 1 := by
    unfold threeWay
    split_ifs <;> omega
  unfold compareResult
  split
  case h_7 => split <;> simp_all
  all_goals
    dsimp only
    rw [decide_eq_decide]
    omega

end Pscal
