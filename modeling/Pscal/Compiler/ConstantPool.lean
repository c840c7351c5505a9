import Mathlib
import Pscal.Cache.Values
import Pscal.Lib.Pooling

/-!
# The constant pool

`addConstantToChunk` of `compiler/bytecode.c`: a value that is like a constant of the chunk, by a
test of its type, gets the index of that constant.

* `PoolValue`, `makeCopyOfValue`  the values, strings with their bound;
* `sameConstant`  the test;
* `addConstantToChunk`  the chunk with a value, and the index of it;
* `Transparent`  each index leads to the value that was added;
* `constantPool_transparent_iff`  when it does.
-/

namespace Pscal.ConstantPool

open List
open Wire (Bytes)

/-! ## values -/

/-- A string of bounded length has room for no more than its bound. -/
structure PoolString where
  maxLength : Int
  text : CString
  bounded : 0 < maxLength → (text.bytes.length : Int) ≤ maxLength

/-- A value of the types that are compared, or any other one.  Reals are their bits. -/
inductive PoolValue (α : Type) where
  | scalar (s : Scalar)
  | real (t : RealType) (bits : Nat)
  | str (t : StringType) (s : PoolString)
  | other (v : α)

/-- `strncpy` of as many bytes as the string may have -/
def cutText (n : Nat) (s : CString) : CString where
  bytes := s.bytes.take n
  noNul h := s.noNul (List.mem_of_mem_take h)

variable {α : Type}

/-- of a string; any other copy is the value as it is seen through it -/
def makeCopyOfValue : PoolValue α → PoolValue α
  | .str t s =>
    if h : 0 < s.maxLength then
      .str t {
        maxLength := s.maxLength
        text := cutText s.maxLength.toNat s.text
        bounded := by
          intro _
          rw [cutText, List.length_take]
          omega }
    else .str t s
  | v => v

/-! ## comparison of reals -/

/-- `==` of the format with so many bits for the exponent and the fraction: a NaN is unequal to
everything, and the two zeros are equal -/
def ieeeIsNaN (exponent fraction bits : Nat) : Bool :=
  (2 ^ exponent - 1) * 2 ^ fraction < bits % 2 ^ (exponent + fraction)

def ieeeIsZero (exponent fraction bits : Nat) : Bool := bits % 2 ^ (exponent + fraction) = 0

def ieeeEqual (exponent fraction a b : Nat) : Bool :=
  !ieeeIsNaN exponent fraction a && !ieeeIsNaN exponent fraction b &&
    (a = b || ieeeIsZero exponent fraction a && ieeeIsZero exponent fraction b)

/-- `==` of `long double`, whose format is the platform's -/
structure LongDoubles where
  equal : Nat → Nat → Bool
  symm : ∀ a b, equal a b = equal b a

/-- `AS_REAL(a) == AS_REAL(b)` -/
def asRealEqual (ld : LongDoubles) : RealType → Nat → Nat → Bool
  | .float => ieeeEqual 8 23
  | .double => ieeeEqual 11 52
  | .longDouble => ld.equal

/-! ## the chunk -/

/-- the constants, with what is kept for each of them -/
structure BytecodeChunk (α : Type) where
  constants : List (PoolValue α) := []
  builtinLowercaseIndices : List Int := []
  builtinResolvedIds : List Int := []

/-- `TYPE_INTEGER` is `TYPE_INT32` -/
def sameConstant (ld : LongDoubles) : PoolValue α → PoolValue α → Bool
  | .scalar existing, .scalar value =>
    existing.type = value.type && (value.type = .int32 || value.type = .char) &&
      existing.value = value.value
  | .real t existing, .real u value => t = u && asRealEqual ld t existing value
  | .str t existing, .str u value => t = u && t = .string && existing.text = value.text
  | _, _ => false

def addConstantToChunk (ld : LongDoubles) (chunk : BytecodeChunk α) (value : PoolValue α) :
    BytecodeChunk α × Nat :=
  match chunk.constants.findIdx? (sameConstant ld · value) with
  | some i => (chunk, i)
  | none =>
    ({ constants := chunk.constants ++ [makeCopyOfValue value]
       builtinLowercaseIndices := chunk.builtinLowercaseIndices ++ [-1]
       builtinResolvedIds := chunk.builtinResolvedIds ++ [-2] }, chunk.constants.length)

/-- the chunk in front of value `k` of a sequence -/
def chunkAt (ld : LongDoubles) (vs : List (PoolValue α)) (k : Nat) : BytecodeChunk α :=
  (vs.take k).foldl (fun chunk v => (addConstantToChunk ld chunk v).1) {}

def indexAt (ld : LongDoubles) (vs : List (PoolValue α)) (k : Nat) (v : PoolValue α) : Nat :=
  (addConstantToChunk ld (chunkAt ld vs k) v).2

def deduplicated : PoolValue α → Bool
  | .scalar s => s.type = .int32 || s.type = .char
  | .real _ _ => true
  | .str t _ => t = .string
  | .other _ => false

/-- An index leads to the value that was added, from then on; and a value that is added again has
the same index, of the types that are compared. -/
def Transparent (ld : LongDoubles) (vs : List (PoolValue α)) : Prop :=
  (∀ i k v, vs[i]? = some v → i < k → k ≤ vs.length →
    (chunkAt ld vs k).constants[indexAt ld vs i v]? = some v) ∧
    ∀ i j v, vs[i]? = some v → vs[j]? = some v → deduplicated v = true →
      indexAt ld vs i v = indexAt ld vs j v

/-- Two reals are equal where they are the same bits, and strings of one text have one bound. -/
def Separable (ld : LongDoubles) : PoolValue α → PoolValue α → Prop
  | .real t a, .real u b => t = u → (asRealEqual ld t a b = true ↔ a = b)
  | .str .string s, .str .string s' => s.text = s'.text → s.maxLength = s'.maxLength
  | _, _ => True

/-! ## the test and the copy -/

theorem makeCopyOfValue_eq (v : PoolValue α) : makeCopyOfValue v = v := by
  cases v with
  | str t s =>
    obtain ⟨maxLength, ⟨bytes, noNul⟩, bounded⟩ := s
    unfold makeCopyOfValue
    by_cases h : 0 < maxLength
    · have hfits : bytes.take maxLength.toNat = bytes := by
        refine take_of_length_le ?_
        have hlength := bounded h
        simp only at hlength
        omega
      simp [h, cutText, hfits]
    · simp [h]
  | _ => rfl

theorem ieeeEqual_symm (exponent fraction a b : Nat) :
    ieeeEqual exponent fraction a b = ieeeEqual exponent fraction b a := by
  have hcomm : decide (a = b) = decide (b = a) := decide_eq_decide.mpr eq_comm
  rw [ieeeEqual, ieeeEqual, hcomm, Bool.and_comm (!ieeeIsNaN exponent fraction a),
    Bool.and_comm (ieeeIsZero exponent fraction a)]

variable (ld : LongDoubles)

theorem asRealEqual_symm (t : RealType) (a b : Nat) :
    asRealEqual ld t a b = asRealEqual ld t b a := by
  cases t with
  | float => exact ieeeEqual_symm 8 23 a b
  | double => exact ieeeEqual_symm 11 52 a b
  | longDouble => exact ld.symm a b

theorem sameConstant_symm (a b : PoolValue α) : sameConstant ld a b = sameConstant ld b a := by
  cases a <;> cases b <;> simp only [sameConstant]
  case scalar.scalar s s' =>
    by_cases h : s.type = s'.type
    · simp [h, eq_comm]
    · simp [h, Ne.symm h]
  case real.real t a u b =>
    by_cases h : t = u
    · subst h
      simp [asRealEqual_symm ld t a b]
    · simp [h, Ne.symm h]
  case str.str t s u s' =>
    by_cases h : t = u
    · subst h
      simp [eq_comm]
    · simp [h, Ne.symm h]

theorem deduplicated_of_same {a b : PoolValue α} (h : sameConstant ld a b = true) :
    deduplicated b = true := by
  cases a <;> cases b <;> simp only [sameConstant, Bool.false_eq_true] at h
  case scalar.scalar s s' =>
    simp only [Bool.and_eq_true] at h
    exact h.1.2
  case real.real t a u b => rfl
  case str.str t s u s' =>
    simp only [Bool.and_eq_true, decide_eq_true_eq] at h
    exact decide_eq_true (h.1.1 ▸ h.1.2)

theorem scalar_eq {s s' : Scalar} (htype : s.type = s'.type) (hvalue : s.value = s'.value) :
    s = s' := by
  cases s
  cases s'
  cases htype
  cases hvalue
  rfl

theorem poolString_eq {s s' : PoolString} (hmax : s.maxLength = s'.maxLength)
    (htext : s.text = s'.text) : s = s' := by
  cases s
  cases s'
  cases hmax
  cases htext
  rfl

theorem separable_iff (a b : PoolValue α) :
    Separable ld a b ↔ Pooling.Separable (sameConstant ld) deduplicated a b := by
  unfold Pooling.Separable
  cases a <;> cases b <;> simp only [sameConstant, Separable, deduplicated, reduceCtorEq, and_false,
    false_and, Bool.false_eq_true]
  case scalar.scalar s s' =>
    simp only [Bool.and_eq_true, decide_eq_true_eq, true_iff, PoolValue.scalar.injEq]
    constructor
    · rintro ⟨⟨htype, hkind⟩, hvalue⟩
      exact ⟨hkind, scalar_eq htype hvalue⟩
    · rintro ⟨hkind, rfl⟩
      exact ⟨⟨rfl, hkind⟩, rfl⟩
  case real.real t a u b =>
    simp only [Bool.and_eq_true, decide_eq_true_eq, true_and, PoolValue.real.injEq]
    by_cases h : t = u
    · simp [h]
    · simp [h]
  case str.str t s u s' =>
    simp only [Bool.and_eq_true, decide_eq_true_eq, PoolValue.str.injEq]
    by_cases h : t = .string ∧ u = .string
    · obtain ⟨rfl, rfl⟩ := h
      simp only [true_and]
      constructor
      · intro hmax
        exact ⟨fun htext => poolString_eq (hmax htext) htext, fun e => e ▸ rfl⟩
      · intro hiff htext
        rw [hiff.mp htext]
    · -- strings of the other type are appended
      have hnever : ¬ ((t = u ∧ t = .string) ∧ s.text = s'.text) :=
        fun e => h ⟨e.1.2, e.1.1 ▸ e.1.2⟩
      have hnot : ¬ (u = .string ∧ t = u ∧ s = s') := fun e => h ⟨e.2.1.trans e.1, e.1⟩
      rw [iff_false_left hnever]
      cases t <;> cases u <;> simp_all

/-! ## the runs -/

theorem addConstantToChunk_eq (chunk : BytecodeChunk α) (v : PoolValue α) :
    (addConstantToChunk ld chunk v).1.constants =
        (Pooling.add (sameConstant ld) chunk.constants v).1 ∧
      (addConstantToChunk ld chunk v).2 =
        (Pooling.add (sameConstant ld) chunk.constants v).2 := by
  unfold addConstantToChunk Pooling.add
  cases chunk.constants.findIdx? (sameConstant ld · v) with
  | some i => exact ⟨rfl, rfl⟩
  | none =>
    rw [makeCopyOfValue_eq]
    exact ⟨rfl, rfl⟩

theorem foldl_constants (vs : List (PoolValue α)) (chunk : BytecodeChunk α) :
    (vs.foldl (fun chunk v => (addConstantToChunk ld chunk v).1) chunk).constants =
      vs.foldl (fun pool v => (Pooling.add (sameConstant ld) pool v).1) chunk.constants := by
  induction vs generalizing chunk with
  | nil => rfl
  | cons v vs ih => rw [foldl_cons, ih, (addConstantToChunk_eq ld chunk v).1, foldl_cons]

theorem chunkAt_constants (vs : List (PoolValue α)) (k : Nat) :
    (chunkAt ld vs k).constants = Pooling.poolAt (sameConstant ld) vs k :=
  foldl_constants ld (vs.take k) {}

theorem indexAt_eq (vs : List (PoolValue α)) (k : Nat) (v : PoolValue α) :
    indexAt ld vs k v = Pooling.placeAt (sameConstant ld) vs k v := by
  rw [indexAt, (addConstantToChunk_eq ld _ v).2, chunkAt_constants]
  rfl

/-- The pool gives back what was added if and only if no two reals of a type are zeros of both
signs, no NaN is added twice, and no two strings of one text have different bounds. -/
theorem constantPool_transparent_iff (vs : List (PoolValue α)) :
    Transparent ld vs ↔ vs.Pairwise (Separable ld) := by
  have hpairwise : vs.Pairwise (Separable ld) ↔
      vs.Pairwise (Pooling.Separable (sameConstant ld) deduplicated) :=
    ⟨fun h => h.imp fun {a b} => (separable_iff ld a b).mp,
      fun h => h.imp fun {a b} => (separable_iff ld a b).mpr⟩
  rw [hpairwise, ← Pooling.transparent_iff (sameConstant_symm ld)
    fun a b => deduplicated_of_same ld]
  simp only [Transparent, Pooling.Transparent, chunkAt_constants, indexAt_eq]

/-- the `long double` of 128 bits -/
def binary128 : LongDoubles where
  equal := ieeeEqual 15 112
  symm := ieeeEqual_symm 15 112

def zeros : List (PoolValue Unit) := [.real .double 0, .real .double (2 ^ 63)]

/-- They are one constant. -/
theorem not_transparent_zeros : ¬ Transparent binary128 zeros := by
  intro h
  have hsecond := h.1 1 2 (.real .double (2 ^ 63)) rfl (by decide) (le_refl 2)
  have hzero : (chunkAt binary128 zeros 2).constants[
      indexAt binary128 zeros 1 (.real .double (2 ^ 63))]? = some (.real .double 0) := rfl
  rw [hzero] at hsecond
  simp at hsecond

end Pscal.ConstantPool
