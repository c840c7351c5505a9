import Pscal.VM.IntegersSpec

/-!
# The range check of a constant

`constantFitsInIntType` of `compiler/compiler.c`: a constant that fits is assigned to a variable of
a narrower type without a warning.

* `OrdinalConstant`  an ordinal that `evaluateCompileTimeValue` gives;
* `constantFitsInIntType`  the check;
* `IntType.InRange`  the values of a type;
* `Misjudged`  where the check does not ask for them.
-/

namespace Pscal

/-- the least and the greatest value of a type -/
def IntType.range : IntType → Int × Int
  | .boolean => (0, 1)
  | .char | .byte | .uint8 => (0, 2 ^ 8 - 1)
  | .word | .uint16 => (0, 2 ^ 16 - 1)
  | .widechar | .uint32 => (0, 2 ^ 32 - 1)
  | .uint64 => (0, 2 ^ 64 - 1)
  | .int8 => (-2 ^ 7, 2 ^ 7 - 1)
  | .int16 => (-2 ^ 15, 2 ^ 15 - 1)
  | .int32 | .thread => (-2 ^ 31, 2 ^ 31 - 1)
  | .int64 => (-2 ^ 63, 2 ^ 63 - 1)

def IntType.InRange (t : IntType) (v : Int) : Prop := t.range.1 ≤ v ∧ v ≤ t.range.2

theorem IntType.inRange_iff {t : IntType} {v : Int} : t.InRange v ↔ t.store v = v := by
  unfold IntType.InRange IntType.store
  cases t with
  | boolean =>
    show 0 ≤ v ∧ v ≤ 1 ↔ (if v = 0 then 0 else 1) = v
    split <;> omega
  | int8 | int16 | int32 | int64 | thread =>
    simp only [IntType.range, Int.bmod_def]
    omega
  | _ =>
    simp only [IntType.range]
    omega

namespace ConstantRanges

inductive OrdinalConstant where
  | int (v : Scalar)
  | enum (ordinal : Int32)

/-- the constant as a `long long` and as an `unsigned long long` -/
structure Reading where
  sval : Int
  uval : UInt64
  valueIsUnsigned : Bool

def isUnsignedIntVarType : IntType → Bool
  | .uint8 | .uint16 | .uint32 | .uint64 | .byte | .word => true
  | _ => false

def OrdinalConstant.reading : OrdinalConstant → Reading
  | .int v =>
    { sval := v.valInt
      uval := v.valUInt
      valueIsUnsigned := isUnsignedIntVarType v.type || v.type = .boolean || v.type = .char }
  | .enum ordinal =>
    { sval := ordinal.toInt
      uval := UInt64.ofInt ordinal.toInt
      valueIsUnsigned := 0 ≤ ordinal.toInt }

def Reading.fits (r : Reading) : IntType → Bool
  | .boolean => r.sval = 0 ∨ r.sval = 1
  | .char => 0 ≤ r.sval ∧ r.uval ≤ 255
  | .int8 => -2 ^ 7 ≤ r.sval ∧ r.sval ≤ 2 ^ 7 - 1
  | .uint8 | .byte => (r.valueIsUnsigned ∨ 0 ≤ r.sval) ∧ r.uval ≤ 255
  | .int16 => -2 ^ 15 ≤ r.sval ∧ r.sval ≤ 2 ^ 15 - 1
  | .uint16 | .word => (r.valueIsUnsigned ∨ 0 ≤ r.sval) ∧ r.uval ≤ 65535
  | .int32 => -2 ^ 31 ≤ r.sval ∧ r.sval ≤ 2 ^ 31 - 1
  | .uint32 => (r.valueIsUnsigned ∨ 0 ≤ r.sval) ∧ r.uval ≤ 4294967295
  | .int64 =>
    if r.valueIsUnsigned ∧ r.uval > 9223372036854775807 then false
    else -2 ^ 63 ≤ r.sval ∧ r.sval ≤ 2 ^ 63 - 1
  | .uint64 => r.valueIsUnsigned ∨ 0 ≤ r.sval
  | .widechar | .thread => false

/-- `none`: no expression, or one whose value is no ordinal -/
def constantFitsInIntType (constant : Option OrdinalConstant) (targetType : IntType) : Bool :=
  match constant with
  | none => false
  | some c => c.reading.fits targetType

/-! ## exactness -/

def OrdinalConstant.value : OrdinalConstant → Int
  | .int v => v.value
  | .enum ordinal => ordinal.toInt

/-- A `UINT64` so close to `2 ^ 64` that it is in the range when it is read as signed; and the two
types that the check does not know. -/
def Misjudged (c : OrdinalConstant) (t : IntType) : Prop :=
  (t = .int8 ∨ t = .int16 ∨ t = .int32) ∧ 2 ^ 64 + t.range.1 ≤ c.value ∨
    (t = .widechar ∨ t = .thread) ∧ t.InRange c.value

theorem reading_signed (c : OrdinalConstant) : c.reading.sval = c.value.bmod (2 ^ 64) := by
  cases c with
  | int v => rfl
  | enum ordinal =>
    have hlow := ordinal.le_toInt
    have hhigh := ordinal.toInt_lt
    exact (bmod_of_range (v := ordinal.toInt) (by omega) (by omega)).symm

theorem reading_unsigned (c : OrdinalConstant) : (c.reading.uval.toNat : Int) = c.value % 2 ^ 64 := by
  cases c with
  | int v => exact toNat_ofInt v.value
  | enum ordinal => exact toNat_ofInt ordinal.toInt

theorem reading_range (c : OrdinalConstant) :
    (c.reading.valueIsUnsigned = true → 0 ≤ c.value ∧ c.value < 2 ^ 64) ∧
      (c.reading.valueIsUnsigned = false → -2 ^ 63 ≤ c.value ∧ c.value < 2 ^ 63) := by
  cases c with
  | int v =>
    obtain ⟨t, value, stored⟩ := v
    obtain ⟨hlow, hhigh⟩ := IntType.inRange_iff.mpr stored
    show (_ → 0 ≤ value ∧ value < 2 ^ 64) ∧ (_ → -2 ^ 63 ≤ value ∧ value < 2 ^ 63)
    cases t <;> simp only [IntType.range] at hlow hhigh <;>
      exact ⟨fun h => by first | exact Bool.noConfusion h | omega,
        fun h => by first | exact Bool.noConfusion h | omega⟩
  | enum ordinal =>
    have hlow := ordinal.le_toInt
    have hhigh := ordinal.toInt_lt
    exact ⟨fun h => ⟨of_decide_eq_true h, by show ordinal.toInt < _; omega⟩,
      fun _ => ⟨by show _ ≤ ordinal.toInt; omega, by show ordinal.toInt < _; omega⟩⟩

/-- The narrow signed types take the signed reading as it is. -/
theorem fits_iff (c : OrdinalConstant) (t : IntType) : c.reading.fits t = true ↔
      (t ≠ .widechar ∧ t ≠ .thread) ∧ t.InRange c.value ∨
        (t = .int8 ∨ t = .int16 ∨ t = .int32) ∧ 2 ^ 64 + t.range.1 ≤ c.value := by
  have hsigned := reading_signed c
  have hunsigned := reading_unsigned c
  obtain ⟨hnat, hint⟩ := reading_range c
  generalize c.reading = r at *
  rw [Int.bmod_def] at hsigned
  cases hu : r.valueIsUnsigned with
  | true =>
    obtain ⟨hlow, hhigh⟩ := hnat hu
    cases t <;>
      simp [Reading.fits, IntType.InRange, IntType.range, UInt64.le_iff_toNat_le,
        UInt64.lt_iff_toNat_lt, hu] <;> omega
  | false =>
    obtain ⟨hlow, hhigh⟩ := hint hu
    cases t <;>
      simp [Reading.fits, IntType.InRange, IntType.range, UInt64.le_iff_toNat_le,
        UInt64.lt_iff_toNat_lt, hu] <;> omega

theorem constantFitsInIntType_exact_iff (c : OrdinalConstant) (t : IntType) :
    (constantFitsInIntType (some c) t = true ↔ t.InRange c.value) ↔ ¬ Misjudged c t := by
  have hout : (t = .int8 ∨ t = .int16 ∨ t = .int32) ∧ 2 ^ 64 + t.range.1 ≤ c.value →
      ¬ t.InRange c.value := by
    rintro ⟨rfl | rfl | rfl, hlow⟩ ⟨-, hhigh⟩ <;> simp only [IntType.range] at hlow hhigh <;> omega
  have hunknown : t = .widechar ∨ t = .thread ↔ ¬(t ≠ .widechar ∧ t ≠ .thread) := by
    rw [not_and_or, not_not, not_not]
  unfold Misjudged constantFitsInIntType
  rw [fits_iff, hunknown]
  constructor
  · rintro h (hwrapped | ⟨hother, hin⟩)
    · exact hout hwrapped (h.mp (.inr hwrapped))
    · rcases h.mpr hin with ⟨hknown, -⟩ | hwrapped
      · exact hother hknown
      · exact hout hwrapped hin
  · intro h
    obtain ⟨hwrapped, hother⟩ := not_or.mp h
    refine ⟨fun hfits => (hfits.resolve_right hwrapped).2, fun hin => .inl ⟨?_, hin⟩⟩
    by_contra hne
    exact hother ⟨hne, hin⟩

/-- `2 ^ 64 - 1` passes for an `INT8`. -/
theorem not_exact_byte : ¬ ∀ (c : OrdinalConstant) (t : IntType),
    constantFitsInIntType (some c) t = true ↔ t.InRange c.value := by
  intro h
  have hin := (h (.int (makeUInt64 18446744073709551615)) .int8).mp (by decide)
  exact absurd hin.2 (by decide)

end ConstantRanges

end Pscal
