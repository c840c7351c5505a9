import Pscal.VM.Integers
import Mathlib

/-!
# Integer arithmetic is exact

* `VmWideInt.toInt`  the integer of a sign and a magnitude;
* `wordOf`  the word of an integer that fits one of the two readings of 64 bits;
* `deliver`  the answer for an exact result;
* `binaryOp_eq`, `intDiv_eq`, `mod_eq`, `negate_eq`  what each instruction answers;
* `integerOps_exact`  exact results, or an error, for every pair of operands.
-/

namespace Pscal

open Option VmWideInt

/-! ## operands -/

theorem toNat_ofInt (v : Int) : ((UInt64.ofInt v).toNat : Int) = v % 2 ^ 64 := by
  have hnonneg : 0 ≤ v % 2 ^ 64 := Int.emod_nonneg v (by decide)
  have hlt : v % 2 ^ 64 < 2 ^ 64 := Int.emod_lt_of_pos v (by decide)
  show ((UInt64.ofNat (v % 2 ^ 64).toNat).toNat : Int) = _
  rw [UInt64.toNat_ofNat']
  omega

theorem toInt64_toInt (w : UInt64) : w.toInt64.toInt = (w.toNat : Int).bmod (2 ^ 64) := by
  show w.toBitVec.toInt = _
  rw [BitVec.toInt_eq_toNat_bmod]
  rfl

theorem toInt64_ofInt_bmod (v : Int) : (UInt64.ofInt v).toInt64.toInt = v.bmod (2 ^ 64) := by
  rw [toInt64_toInt, toNat_ofInt]
  exact Int.emod_bmod v (2 ^ 64)

theorem toInt64_emod (w : UInt64) : w.toInt64.toInt % 2 ^ 64 = w.toNat := by
  have hlt := w.toNat_lt
  rw [toInt64_toInt, Int.bmod_def]
  split <;> omega

variable {v exact : Int} {a b : Scalar}

theorem ofInt_eq_iff {w : Int} : UInt64.ofInt v = UInt64.ofInt w ↔ v % 2 ^ 64 = w % 2 ^ 64 := by
  rw [← toNat_ofInt, ← toNat_ofInt, ← UInt64.toNat_inj]
  omega

theorem bmod_of_range (hmin : -2 ^ 63 ≤ v) (hmax : v < 2 ^ 63) : v.bmod (2 ^ 64) = v :=
  Int.bmod_eq_of_le (by omega) (by omega)

theorem IntegerOperand.range (v : IntegerOperand) :
    (v.type = .uint64 → 0 ≤ v.value ∧ v.value < 2 ^ 64) ∧
      (v.type ≠ .uint64 → -2 ^ 63 ≤ v.value ∧ v.value < 2 ^ 63) ∧
      (v.type = .int32 → -2 ^ 31 ≤ v.value ∧ v.value < 2 ^ 31) := by
  obtain ⟨⟨type, value, stored⟩, hint⟩ := v
  dsimp only at *
  cases type <;> simp only [IntType.store] at stored <;>
    first
    | exact absurd hint (by decide)
    | (simp only [Int.bmod_def] at stored
       refine ⟨fun h => ?_, fun h => ?_, fun h => ?_⟩ <;> first | omega | cases h)
    | (refine ⟨fun h => ?_, fun h => ?_, fun h => ?_⟩ <;>
        first | omega | exact absurd rfl h | cases h)

theorem asI64_eq (v : IntegerOperand) : v.toScalar.asI64 = v.value.bmod (2 ^ 64) := by
  rw [Scalar.asI64]
  split <;> first | exact toInt64_ofInt_bmod v.value | rfl

theorem asI64_signed {v : IntegerOperand} (h : v.type ≠ .uint64) : v.toScalar.asI64 = v.value := by
  obtain ⟨hmin, hmax⟩ := v.range.2.1 h
  rw [asI64_eq, bmod_of_range hmin hmax]

theorem asI64_eq_zero (v : IntegerOperand) : v.toScalar.asI64 = 0 ↔ v.value = 0 := by
  by_cases h : v.type = .uint64
  · have := v.range.1 h
    rw [asI64_eq, Int.bmod_def]
    split <;> omega
  · rw [asI64_signed h]

/-! ## sign and magnitude -/

def VmWideInt.toInt (w : VmWideInt) : Int := if w.neg then -(w.mag.toNat : Int) else w.mag.toNat

theorem vmWideIntOf_toInt (v : IntegerOperand) : (vmWideIntOf v.toScalar).toInt = v.value := by
  rw [vmWideIntOf]
  by_cases h : v.type = .uint64
  · obtain ⟨hmin, hmax⟩ := v.range.1 h
    rw [if_pos h, toInt, if_neg Bool.false_ne_true, Scalar.valUInt, toNat_ofInt]
    exact Int.emod_eq_of_lt hmin hmax
  · obtain ⟨hmin, hmax⟩ := v.range.2.1 h
    rw [if_neg h, toInt, asI64_signed h]
    by_cases hneg : v.value < 0
    · have hword := toNat_ofInt v.value
      simp only [if_pos hneg, decide_eq_true hneg, UInt64.toNat_sub, if_true]
      rw [show (0 : UInt64).toNat = 0 from rfl]
      omega
    · have hword := toNat_ofInt v.value
      simp only [if_neg hneg, decide_eq_false hneg, Bool.false_eq_true, if_false]
      omega

/-- the word of an integer that fits one of the two readings of 64 bits -/
def wordOf (v : Int) : Option UInt64 :=
  if -2 ^ 63 ≤ v ∧ v < 2 ^ 64 then some (UInt64.ofInt v) else none

theorem vmWideIntToBits_eq (r : VmWideInt) : vmWideIntToBits r = wordOf r.toInt := by
  obtain ⟨neg, mag⟩ := r
  have hlt := mag.toNat_lt
  have hzero : mag = 0 ↔ mag.toNat = 0 := by
    rw [← UInt64.toNat_inj]
    rfl
  have hgt : mag > (1 : UInt64) <<< 63 ↔ mag.toNat > 2 ^ 63 := UInt64.lt_iff_toNat_lt
  have hpos : UInt64.ofInt (mag.toNat : Int) = mag := by
    have := toNat_ofInt (mag.toNat : Int)
    rw [← UInt64.toNat_inj]
    omega
  have hneg : UInt64.ofInt (-(mag.toNat : Int)) = 0 - mag := by
    have := toNat_ofInt (-(mag.toNat : Int))
    rw [← UInt64.toNat_inj, UInt64.toNat_sub, show (0 : UInt64).toNat = 0 from rfl]
    omega
  unfold vmWideIntToBits wordOf toInt
  dsimp only
  cases neg with
  | false =>
    simp only [ite_self, Bool.false_eq_true, false_and, if_false]
    rw [if_pos (by omega), hpos]
  | true =>
    by_cases h : mag = 0
    · rw [if_pos h, if_neg (by simp), if_neg (by decide), if_pos rfl, hneg,
        if_pos (by have := hzero.mp h; omega), h]
      rfl
    · rw [if_neg h, if_pos rfl, if_pos rfl, hneg]
      by_cases hbig : mag > (1 : UInt64) <<< 63
      · rw [if_pos ⟨rfl, hbig⟩, if_neg (by have := hgt.mp hbig; omega)]
      · rw [if_neg (fun hc => hbig hc.2), if_pos (by have := mt hgt.mpr hbig; omega)]

/-! ## the operations on signs and magnitudes -/

theorem checkedULongLong_bits (neg : Bool) (m : Nat) :
    ((checkedULongLong m).map fun mag => VmWideInt.mk neg mag).bind vmWideIntToBits =
      wordOf (if neg then -(m : Int) else m) := by
  rw [checkedULongLong]
  by_cases h : m < 2 ^ 64
  · have hmag : (UInt64.ofNat m).toNat = m := UInt64.toNat_ofNat_of_lt' h
    rw [if_pos h, map_some, bind_some, vmWideIntToBits_eq, toInt, hmag]
  · rw [if_neg h, map_none, bind_none, wordOf, if_neg]
    split <;> omega

theorem vmWideIntAdd_bits (x y : VmWideInt) :
    (vmWideIntAdd x y).bind vmWideIntToBits = wordOf (x.toInt + y.toInt) := by
  rw [vmWideIntAdd]
  by_cases hsign : x.neg = y.neg
  · rw [if_pos hsign, checkedULongLong_bits, toInt, toInt, ← hsign]
    congr 1
    split <;> omega
  · have hneg : y.neg = !x.neg := by
      cases hx : x.neg <;> cases hy : y.neg <;> simp_all
    rw [if_neg hsign]
    by_cases hge : x.mag ≥ y.mag
    · have hle := UInt64.le_iff_toNat_le.mp hge
      rw [if_pos hge, bind_some, vmWideIntToBits_eq, toInt, toInt,
        toInt, hneg, UInt64.toNat_sub_of_le _ _ hge]
      congr 1
      cases x.neg <;> simp <;> omega
    · have hlt : x.mag.toNat < y.mag.toNat := by
        have := mt UInt64.le_iff_toNat_le.mpr hge
        omega
      have hle : x.mag ≤ y.mag := UInt64.le_iff_toNat_le.mpr (by omega)
      rw [if_neg hge, bind_some, vmWideIntToBits_eq, toInt, toInt,
        toInt, hneg, UInt64.toNat_sub_of_le _ _ hle]
      congr 1
      cases x.neg <;> simp <;> omega

theorem neg_toInt (y : VmWideInt) :
    ({ y with neg := !y.neg && y.mag ≠ 0 } : VmWideInt).toInt = -y.toInt := by
  by_cases hzero : y.mag = 0
  · have h : y.mag.toNat = 0 := by
      rw [hzero]
      rfl
    rw [toInt, toInt, h]
    simp
  · rw [toInt, toInt, decide_eq_true hzero]
    cases y.neg <;> simp

theorem mul_toInt (x y : VmWideInt) :
    (if decide (x.neg ≠ y.neg) = true then -((x.mag.toNat * y.mag.toNat : Nat) : Int)
      else ((x.mag.toNat * y.mag.toNat : Nat) : Int)) = x.toInt * y.toInt := by
  rw [toInt, toInt, Int.natCast_mul]
  cases x.neg <;> cases y.neg <;> simp

theorem vmUInt64Arith_eq (op : ArithOp) (a b : IntegerOperand) :
    vmUInt64Arith op a.toScalar b.toScalar = wordOf (op.apply a.value b.value) := by
  rw [← vmWideIntOf_toInt a, ← vmWideIntOf_toInt b]
  cases op with
  | add => exact vmWideIntAdd_bits _ _
  | subtract =>
    show (vmWideIntAdd _ _).bind vmWideIntToBits = _
    rw [vmWideIntAdd_bits, neg_toInt]
    rfl
  | multiply =>
    show Option.bind _ vmWideIntToBits = _
    rw [checkedULongLong_bits, mul_toInt]
    rfl

theorem div_toInt (x y : VmWideInt) :
    ({ neg := x.neg ≠ y.neg, mag := x.mag / y.mag } : VmWideInt).toInt =
      x.toInt.tdiv y.toInt := by
  rw [toInt, toInt, toInt, UInt64.toNat_div, Int.ofNat_tdiv]
  cases x.neg <;> cases y.neg <;> simp

theorem mod_toInt (x y : VmWideInt) :
    ({ neg := x.neg, mag := x.mag % y.mag } : VmWideInt).toInt = x.toInt.tmod y.toInt := by
  rw [toInt, toInt, toInt, UInt64.toNat_mod, Int.ofNat_tmod]
  cases x.neg <;> cases y.neg <;> simp

theorem vmUInt64DivMod_eq (a b : IntegerOperand) (wantMod : Bool) :
    vmUInt64DivMod a.toScalar b.toScalar wantMod =
      wordOf (if wantMod then a.value.tmod b.value else a.value.tdiv b.value) := by
  rw [← vmWideIntOf_toInt a, ← vmWideIntOf_toInt b, vmUInt64DivMod, vmWideIntToBits_eq]
  cases wantMod with
  | true => exact congrArg wordOf (mod_toInt _ _)
  | false => exact congrArg wordOf (div_toInt _ _)

/-! ## quotients and remainders -/

theorem tdiv_range {N a b : Int} (hmin : -N ≤ a) (hmax : a < N) (h : ¬(a = -N ∧ b = -1)) :
    -N ≤ a.tdiv b ∧ a.tdiv b < N := by
  have habs : (a.tdiv b).natAbs = a.natAbs / b.natAbs := Int.natAbs_tdiv a b
  by_cases hsmall : b.natAbs ≤ 1
  · obtain rfl | rfl | rfl : b = 0 ∨ b = 1 ∨ b = -1 := by omega
    · rw [Int.tdiv_zero]
      omega
    · rw [Int.tdiv_one]
      omega
    · rw [Int.tdiv_neg, Int.tdiv_one]
      omega
  · have hhalf : a.natAbs / b.natAbs ≤ a.natAbs / 2 :=
      Nat.div_le_div_left (by omega) (by decide)
    omega

theorem natAbs_tmod_le (a b : Int) : (a.tmod b).natAbs ≤ a.natAbs := by
  rw [Int.natAbs_tmod]
  exact Nat.mod_le _ _

theorem tmod_range {N a : Int} (b : Int) (hmin : -N ≤ a) (hmax : a < N) :
    -N ≤ a.tmod b ∧ a.tmod b < N := by
  have hle := natAbs_tmod_le a b
  by_cases hneg : a < 0
  · -- the remainder takes the sign of the dividend
    have hsign := Int.tmod_nonneg b (show 0 ≤ -a by omega)
    rw [Int.neg_tmod] at hsign
    omega
  · omega

theorem tmod_neg_one (a : Int) : a.tmod (-1) = 0 := by
  rw [Int.tmod_neg, Int.tmod_one]

/-! ## what the instructions answer -/

def deliver (a b : Scalar) (exact : Int) : Except String Scalar :=
  if a.type = .uint64 ∨ b.type = .uint64 then
    pushOr integerOverflow makeUInt64 (wordOf exact)
  else pushOr integerOverflow (pscalIntResultLike2 a b) (checkedLongLong exact)

theorem deliver_fits (h : ¬(a.type = .uint64 ∨ b.type = .uint64)) (hmin : -2 ^ 63 ≤ exact)
    (hmax : exact < 2 ^ 63) : deliver a b exact = .ok (pscalIntResultLike2 a b exact) := by
  rw [deliver, if_neg h, checkedLongLong, if_pos ⟨hmin, hmax⟩]
  rfl

theorem pscalIntResultLike2_int32 (ha : a.type = .int32) (hb : b.type = .int32) :
    pscalIntResultLike2 a b = pscalIntResultNarrow := by
  funext result
  rw [pscalIntResultLike2, ha, hb, if_neg (by decide), if_neg (by decide)]

theorem pscalIntResultNarrow_fits {result : Int} (hmin : -2 ^ 31 ≤ result)
    (hmax : result < 2 ^ 31) : pscalIntResultNarrow result = makeInt result := by
  rw [pscalIntResultNarrow, if_neg (by omega)]

theorem not_uint64 (ha : a.type = .int32) (hb : b.type = .int32) :
    ¬(a.type = .uint64 ∨ b.type = .uint64) := by
  rw [ha, hb]
  decide

section
variable (a b : IntegerOperand)

theorem valInt_int32 {v : IntegerOperand} (h : v.type = .int32) : v.valInt = v.value := by
  obtain ⟨hmin, hmax⟩ := v.range.2.2 h
  exact bmod_of_range (by omega) (by omega)

theorem valInt_bmod_int32 {v : IntegerOperand} (h : v.type = .int32) :
    v.valInt.bmod (2 ^ 32) = v.value := by
  obtain ⟨hmin, hmax⟩ := v.range.2.2 h
  rw [valInt_int32 h]
  exact Int.bmod_eq_of_le (by omega) (by omega)

theorem binaryOp_eq (op : ArithOp) : binaryOp op a.toScalar b.toScalar =
      deliver a.toScalar b.toScalar (op.apply a.value b.value) := by
  unfold binaryOp
  by_cases hfast : op = .add ∧ a.type = .int32 ∧ b.type = .int32
  · obtain ⟨rfl, ha, hb⟩ := hfast
    rw [if_pos ⟨rfl, ha, hb⟩, deliver, if_neg (not_uint64 ha hb), pscalIntResultLike2_int32 ha hb,
      valInt_int32 ha, valInt_int32 hb]
    rfl
  · rw [if_neg hfast, deliver]
    by_cases hwide : a.type = .uint64 ∨ b.type = .uint64
    · rw [if_pos hwide, if_pos hwide, vmUInt64Arith_eq]
    · rw [if_neg hwide, if_neg hwide, asI64_signed (fun h => hwide (.inl h)),
        asI64_signed (fun h => hwide (.inr h))]

theorem deliver_int32 (ha : a.type = .int32) (hb : b.type = .int32) {result : Int}
    (hlow : -2 ^ 31 ≤ result) (hhigh : result < 2 ^ 31) :
    deliver a.toScalar b.toScalar result = .ok (makeInt result) := by
  rw [deliver_fits (not_uint64 ha hb) (by omega) (by omega), pscalIntResultLike2_int32 ha hb,
    pscalIntResultNarrow_fits hlow hhigh]

/-- `INT_DIV` and `MOD` refuse a zero divisor first, in either width -/
theorem division_eq {message : String} {narrow wide answer : Except String Scalar}
    (hnarrow : a.type = .int32 → b.type = .int32 → narrow = answer)
    (hwide : wide = answer) :
    (if a.type = .int32 ∧ b.type = .int32 then
        if b.valInt.bmod (2 ^ 32) = 0 then .error message else narrow
      else if b.toScalar.asI64 = 0 then .error message else wide) =
      if b.value = 0 then .error message else answer := by
  by_cases hfast : a.type = .int32 ∧ b.type = .int32
  · rw [if_pos hfast, valInt_bmod_int32 hfast.2, hnarrow hfast.1 hfast.2]
  · simp only [if_neg hfast, asI64_eq_zero, hwide]

theorem intDiv_eq : intDiv a.toScalar b.toScalar =
      if b.value = 0 then .error divisionByZero
      else deliver a.toScalar b.toScalar (a.value.tdiv b.value) := by
  refine division_eq a b (fun ha hb => ?_) ?_
  · obtain ⟨hmin, hmax⟩ := a.range.2.2 ha
    rw [valInt_bmod_int32 ha, valInt_bmod_int32 hb]
    by_cases htrap : a.value = -2 ^ 31 ∧ b.value = -1
    · rw [if_pos htrap, htrap.1, htrap.2, deliver_fits (not_uint64 ha hb) (by decide) (by decide),
        pscalIntResultLike2_int32 ha hb]
      rfl
    · obtain ⟨hlow, hhigh⟩ := tdiv_range hmin hmax htrap
      rw [if_neg htrap, deliver_int32 a b ha hb hlow hhigh]
  · by_cases hwide : a.type = .uint64 ∨ b.type = .uint64
    · rw [if_pos hwide, deliver, if_pos hwide, vmUInt64DivMod_eq]
      rfl
    · rw [if_neg hwide, asI64_signed (fun h => hwide (.inl h)),
        asI64_signed (fun h => hwide (.inr h))]
      obtain ⟨hmin, hmax⟩ := a.range.2.1 (fun h => hwide (.inl h))
      by_cases htrap : a.value = -2 ^ 63 ∧ b.value = -1
      · rw [if_pos htrap, deliver, if_neg hwide, htrap.1, htrap.2]
        rfl
      · obtain ⟨hlow, hhigh⟩ := tdiv_range hmin hmax htrap
        rw [if_neg htrap, deliver_fits hwide hlow hhigh]

theorem wordOf_tmod :
    wordOf (a.value.tmod b.value) = some (UInt64.ofInt (a.value.tmod b.value)) := by
  have hle := natAbs_tmod_le a.value b.value
  refine if_pos ?_
  by_cases ha : a.type = .uint64
  · obtain ⟨hmin, hmax⟩ := a.range.1 ha
    have hnonneg := Int.tmod_nonneg b.value hmin
    omega
  · obtain ⟨hmin, hmax⟩ := a.range.2.1 ha
    omega

theorem mod_eq : mod a.toScalar b.toScalar =
      if b.value = 0 then .error moduloByZero
      else deliver a.toScalar b.toScalar (a.value.tmod b.value) := by
  refine division_eq a b (fun ha hb => ?_) ?_
  · obtain ⟨hmin, hmax⟩ := a.range.2.2 ha
    rw [valInt_bmod_int32 ha, valInt_bmod_int32 hb]
    by_cases htrap : a.value = -2 ^ 31 ∧ b.value = -1
    · rw [if_pos htrap, htrap.1, htrap.2, deliver_int32 a b ha hb (by decide) (by decide)]
      rfl
    · obtain ⟨hlow, hhigh⟩ := tmod_range b.value hmin hmax
      rw [if_neg htrap, deliver_int32 a b ha hb hlow hhigh]
  · by_cases hwide : a.type = .uint64 ∨ b.type = .uint64
    · rw [if_pos hwide, deliver, if_pos hwide, vmUInt64DivMod_eq, if_pos rfl, wordOf_tmod a b]
      rfl
    · rw [if_neg hwide, asI64_signed (fun h => hwide (.inl h)),
        asI64_signed (fun h => hwide (.inr h))]
      obtain ⟨hmin, hmax⟩ := a.range.2.1 (fun h => hwide (.inl h))
      obtain ⟨hlow, hhigh⟩ := tmod_range b.value hmin hmax
      rw [deliver_fits hwide hlow hhigh]
      by_cases hone : b.value = -1
      · rw [if_pos hone, hone, tmod_neg_one]
      · rw [if_neg hone]

theorem negate_uint64 (h : a.type = .uint64) :
    negate a.toScalar = .ok (makeUInt64 (UInt64.ofInt (-a.value))) := by
  unfold negate
  dsimp only
  rw [if_neg (fun hc => hc.2 h), pscalIntResultLike1, if_pos h, ofInt_eq_iff.mpr ?_]
  have hread : a.toScalar.asI64 % 2 ^ 64 = a.value % 2 ^ 64 := by
    rw [asI64_eq, Int.bmod_def]
    split <;> omega
  have hword := toNat_ofInt a.toScalar.asI64
  rw [toInt64_emod, UInt64.toNat_sub, show (0 : UInt64).toNat = 0 from rfl]
  omega

theorem negate_signed (h : a.type ≠ .uint64) : negate a.toScalar =
      pushOr integerOverflow (pscalIntResultLike1 a.toScalar) (checkedLongLong (-a.value)) := by
  obtain ⟨hmin, hmax⟩ := a.range.2.1 h
  unfold negate
  dsimp only
  rw [asI64_signed h, checkedLongLong]
  by_cases hlow : a.value = -2 ^ 63
  · rw [if_pos ⟨hlow, h⟩, if_neg (by omega)]
    rfl
  · have hword := toNat_ofInt a.value
    have hneg : (0 - UInt64.ofInt a.value).toInt64.toInt = -a.value := by
      rw [toInt64_toInt, UInt64.toNat_sub, show (0 : UInt64).toNat = 0 from rfl, Int.bmod_def]
      split <;> omega
    rw [if_neg (fun hc => hlow hc.1), if_pos (by omega), hneg]
    rfl

end

/-! ## exactness -/

/-- the integers an instruction can push, next to a `UINT64` or not -/
def Fits (wide : Prop) (exact : Int) : Prop :=
  -2 ^ 63 ≤ exact ∧ (exact < 2 ^ 63 ∨ wide ∧ exact < 2 ^ 64)

/-- An answer to an exact result.  Next to a `UINT64` a negative result is pushed modulo `2 ^ 64`. -/
inductive Answers (wide : Prop) (exact : Int) : Except String Scalar → Prop where
  | signed {r : Scalar} (hwide : ¬wide) (htype : r.type = .int32 ∨ r.type = .int64)
      (hvalue : r.value = exact) : Answers wide exact (.ok r)
  | unsigned {r : Scalar} (hwide : wide) (hmin : -2 ^ 63 ≤ exact) (htype : r.type = .uint64)
      (hvalue : r.value = if exact < 0 then exact + 2 ^ 64 else exact) :
      Answers wide exact (.ok r)
  | overflow (h : ¬Fits wide exact) : Answers wide exact (.error integerOverflow)

theorem makeUInt64_value (w : UInt64) : (makeUInt64 w).value = w.toNat :=
  toInt64_emod w

theorem makeInt64_value (hmin : -2 ^ 63 ≤ v) (hmax : v < 2 ^ 63) : (makeInt64 v).value = v :=
  bmod_of_range hmin hmax

theorem pscalIntResultNarrow_value (hmin : -2 ^ 63 ≤ v) (hmax : v < 2 ^ 63) :
    ((pscalIntResultNarrow v).type = .int32 ∨ (pscalIntResultNarrow v).type = .int64) ∧
      (pscalIntResultNarrow v).value = v := by
  rw [pscalIntResultNarrow]
  by_cases h : v < -2 ^ 31 ∨ v > 2 ^ 31 - 1
  · rw [if_pos h]
    exact ⟨.inr rfl, makeInt64_value hmin hmax⟩
  · rw [if_neg h]
    exact ⟨.inl rfl, Int.bmod_eq_of_le (by omega) (by omega)⟩

theorem answers_signed {wide : Prop} {push : Int → Scalar} (hwide : ¬wide)
    (hpush : -2 ^ 63 ≤ exact → exact < 2 ^ 63 → ((push exact).type = .int32 ∨ (push exact).type =
      .int64) ∧ (push exact).value = exact) :
    Answers wide exact (pushOr integerOverflow push (checkedLongLong exact)) := by
  rw [checkedLongLong]
  by_cases h : -2 ^ 63 ≤ exact ∧ exact < 2 ^ 63
  · obtain ⟨htype, hvalue⟩ := hpush h.1 h.2
    rw [if_pos h]
    exact .signed hwide htype hvalue
  · rw [if_neg h]
    refine .overflow fun hfits => ?_
    obtain ⟨hmin, hmax | ⟨hw, -⟩⟩ := hfits
    · exact h ⟨hmin, hmax⟩
    · exact hwide hw

theorem answers_deliver (a b : Scalar) (exact : Int) :
    Answers (a.type = .uint64 ∨ b.type = .uint64) exact (deliver a b exact) := by
  rw [deliver]
  by_cases hwide : a.type = .uint64 ∨ b.type = .uint64
  · rw [if_pos hwide, wordOf]
    by_cases h : -2 ^ 63 ≤ exact ∧ exact < 2 ^ 64
    · rw [if_pos h]
      refine .unsigned hwide h.1 rfl ?_
      rw [makeUInt64_value, toNat_ofInt]
      split <;> omega
    · rw [if_neg h]
      refine .overflow fun hfits => ?_
      obtain ⟨hmin, hmax | ⟨-, hmax⟩⟩ := hfits <;> omega
  · rw [if_neg hwide]
    refine answers_signed hwide fun hmin hmax => ?_
    rw [pscalIntResultLike2, if_neg hwide]
    by_cases h : a.type = .int64 ∨ b.type = .int64
    · rw [if_pos h]
      exact ⟨.inr rfl, makeInt64_value hmin hmax⟩
    · rw [if_neg h]
      exact pscalIntResultNarrow_value hmin hmax

theorem answers_negate {a : IntegerOperand} (h : a.type ≠ .uint64) :
    Answers False (-a.value) (negate a.toScalar) := by
  rw [negate_signed a h]
  refine answers_signed id fun hmin hmax => ?_
  rw [pscalIntResultLike1, if_neg h]
  by_cases hlong : a.type = .int64
  · rw [if_pos hlong]
    exact ⟨.inr rfl, makeInt64_value hmin hmax⟩
  · rw [if_neg hlong]
    exact pscalIntResultNarrow_value hmin hmax

theorem Answers.pushed {wide : Prop} {r : Scalar} (h : Answers wide exact (.ok r)) :
    ∃ k, r.value = exact + 2 ^ 64 * k ∧ (¬wide ∨ 0 ≤ exact → k = 0) := by
  cases h with
  | signed hwide htype hvalue => exact ⟨0, by omega, fun _ => rfl⟩
  | unsigned hwide hmin htype hvalue =>
    by_cases hneg : exact < 0
    · rw [if_pos hneg] at hvalue
      refine ⟨1, by omega, fun hc => ?_⟩
      rcases hc with hc | hc
      · exact absurd hwide hc
      · omega
    · rw [if_neg hneg] at hvalue
      exact ⟨0, by omega, fun _ => rfl⟩

/-- Every instruction pushes the exact result or reports that it does not fit; a division answers
unless the divisor is `0`; quotient and remainder belong together. -/
theorem integerOps_exact (a b : IntegerOperand) :
    (∀ op, Answers (a.type = .uint64 ∨ b.type = .uint64) (op.apply a.value b.value)
        (binaryOp op a.toScalar b.toScalar)) ∧
      (b.value = 0 → intDiv a.toScalar b.toScalar = .error divisionByZero ∧
        mod a.toScalar b.toScalar = .error moduloByZero) ∧
      (b.value ≠ 0 →
        Answers (a.type = .uint64 ∨ b.type = .uint64) (a.value.tdiv b.value)
          (intDiv a.toScalar b.toScalar) ∧
        Answers (a.type = .uint64 ∨ b.type = .uint64) (a.value.tmod b.value)
          (mod a.toScalar b.toScalar)) ∧
      (a.type ≠ .uint64 → Answers False (-a.value) (negate a.toScalar)) ∧
      (a.type = .uint64 → ∃ r, negate a.toScalar = .ok r ∧ r.type = .uint64 ∧
        r.value = -a.value % 2 ^ 64) ∧
      ∀ q m, intDiv a.toScalar b.toScalar = .ok q → mod a.toScalar b.toScalar = .ok m →
        a.value % 2 ^ 64 = (b.value * q.value + m.value) % 2 ^ 64 ∧
        (¬(a.type = .uint64 ∨ b.type = .uint64) ∨ (0 ≤ a.value ∧ 0 ≤ b.value) →
          a.value = b.value * q.value + m.value) := by
  have hdiv : b.value ≠ 0 → Answers (a.type = .uint64 ∨ b.type = .uint64)
      (a.value.tdiv b.value) (intDiv a.toScalar b.toScalar) := fun h => by
    rw [intDiv_eq, if_neg h]
    exact answers_deliver _ _ _
  have hmod : b.value ≠ 0 → Answers (a.type = .uint64 ∨ b.type = .uint64)
      (a.value.tmod b.value) (mod a.toScalar b.toScalar) := fun h => by
    rw [mod_eq, if_neg h]
    exact answers_deliver _ _ _
  refine ⟨fun op => ?_, fun h => ?_, fun h => ⟨hdiv h, hmod h⟩, answers_negate, fun h => ?_,
    fun q m hq hm => ?_⟩
  · rw [binaryOp_eq]
    exact answers_deliver _ _ _
  · rw [intDiv_eq, mod_eq, if_pos h, if_pos h]
    exact ⟨rfl, rfl⟩
  · refine ⟨_, negate_uint64 a h, rfl, ?_⟩
    rw [makeUInt64_value, toNat_ofInt]
  · have hzero : b.value ≠ 0 := fun h => by
      rw [intDiv_eq, if_pos h] at hq
      cases hq
    obtain ⟨j, hj, hjzero⟩ := (hq ▸ hdiv hzero).pushed
    obtain ⟨k, hk, hkzero⟩ := (hm ▸ hmod hzero).pushed
    have hexact := Int.mul_tdiv_add_tmod a.value b.value
    have hsum : b.value * q.value + m.value = a.value + 2 ^ 64 * (b.value * j + k) := by
      rw [hj, hk]
      linear_combination hexact
    rw [hsum]
    refine ⟨(Int.add_mul_emod_self_left _ _ _).symm, fun h => ?_⟩
    have hj₀ : j = 0 := hjzero (h.imp id fun h => Int.tdiv_nonneg h.1 h.2)
    have hk₀ : k = 0 := hkzero (h.imp id fun h => Int.tmod_nonneg b.value h.1)
    rw [hj₀, hk₀]
    omega

def uint64Seven : IntegerOperand := ⟨Scalar.ofInt .uint64 7, rfl⟩

def int64MinusTwo : IntegerOperand := ⟨Scalar.ofInt .int64 (-2), rfl⟩

/-- the quotient of `7` by `-2` is pushed as `2 ^ 64 - 3` -/
theorem integerOps_wrapped : ∃ q m, intDiv uint64Seven.toScalar int64MinusTwo.toScalar = .ok q ∧
      mod uint64Seven.toScalar int64MinusTwo.toScalar = .ok m ∧
      uint64Seven.value ≠ int64MinusTwo.value * q.value + m.value :=
  ⟨_, _, rfl, rfl, by decide +kernel⟩

end Pscal
