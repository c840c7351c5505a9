import Mathlib
import Pscal.Lib.BinarySearch
import Pscal.VM.Comparisons
import Pscal.VM.Elements

/-!
# Sets

The set values of the VM: `setUnion`, `setDifference` and `setIntersection` of `core/utils.c`, the
constructors, the membership test and the comparisons of `vm/vm.c`.  A set without elements may
have a null array, which is one of no elements here.  Where memory is short a function gives
`none`; a capacity that does not fit a C `int` wraps around and asks for too much.

* `SetObj`, `SetObj.members`  a growable array of ordinals, and the set that it stands for;
* `setUnion`, `setDifference`, `setIntersection`, `vmBuildSetFromRange`, `vmAddOrdinalToSet`;
* `vmSetIsSubset`  pairwise for small sets, else by a sorted copy;
* `vmCompareSets`, `vmSetContains`  the tests;
* `Built`  what the VM makes of all these.
-/

namespace Pscal.Sets

open Elements

abbrev Memory : Type := Nat → Bool

/-- no object is larger than `PTRDIFF_MAX` -/
def Memory.meets (mem : Memory) (bytes : Nat) : Bool := bytes < 2 ^ 63 && mem bytes

/-- `capacity` is a C `int` -/
structure SetObj where
  values : List Int64
  capacity : Nat
  fits : values.length ≤ capacity
  small : capacity < 2 ^ 31
deriving DecidableEq, Repr

def SetObj.empty : SetObj where
  values := []
  capacity := 0
  fits := Nat.le_refl 0
  small := Nat.two_pow_pos 31

namespace SetObj

def setSize (s : SetObj) : Nat := s.values.length

def members (s : SetObj) : Set Int64 := {ordinal | ordinal ∈ s.values}

theorem mem_members {s : SetObj} {ordinal : Int64} :
    ordinal ∈ s.members ↔ ordinal ∈ s.values := Iff.rfl

theorem members_empty : SetObj.empty.members = ∅ := by
  ext ordinal
  simp [members, empty]

end SetObj

/-! ## growing -/

/-- the room for a C `int` of ordinals; `sizeof(long long) * n` is unsigned -/
def requestBytes (n : Int32) : Nat := (8 * n.toInt % 2 ^ 64).toNat

def grownCapacity (capacity : Nat) : Int32 :=
  if capacity = 0 then 8 else Int32.ofNat capacity * 2

theorem grownCapacity_toInt {capacity : Nat} (h : capacity < 2 ^ 31) :
    (grownCapacity capacity).toInt =
      if capacity = 0 then 8 else ((capacity : Int) * 2).bmod (2 ^ 32) := by
  unfold grownCapacity
  split
  · rfl
  · rw [Int32.toInt_mul, Int32.toInt_ofNat_of_lt h]
    rfl

theorem grownCapacity_lt {capacity : Nat} (h : capacity < 2 ^ 31)
    (hpos : 0 ≤ (grownCapacity capacity).toInt) :
    capacity < (grownCapacity capacity).toInt.toNat := by
  rw [grownCapacity_toInt h] at hpos ⊢
  split at hpos <;> rename_i hzero
  · rw [if_pos hzero, hzero]
    decide
  · rw [if_neg hzero]
    rw [Int.bmod_def] at hpos ⊢
    split at hpos <;> split <;> omega

theorem toInt_toNat_lt (n : Int32) : n.toInt.toNat < 2 ^ 31 := by
  have h := Int32.toInt_lt n
  omega

theorem nonneg_of_meets {mem : Memory} {n : Int32} (h : mem.meets (requestBytes n) = true) :
    0 ≤ n.toInt := by
  have hlow := Int32.le_toInt n
  rw [Memory.meets, Bool.and_eq_true, decide_eq_true_eq, requestBytes] at h
  omega

def setContainsOrdinalUtil (s : SetObj) (ordinal : Int64) : Bool := s.values.any (· = ordinal)

/-- `addOrdinalToResultSetUtil`, and `vmAddOrdinalToSet` -/
def addOrdinal (mem : Memory) (s : SetObj) (ordinal : Int64) : Option SetObj :=
  if setContainsOrdinalUtil s ordinal then some s
  else if h : s.values.length < s.capacity then
    some { s with
      values := s.values ++ [ordinal]
      fits := by rw [List.length_append]; exact h }
  else if h' : mem.meets (requestBytes (grownCapacity s.capacity)) = true then
    some {
      values := s.values ++ [ordinal]
      capacity := (grownCapacity s.capacity).toInt.toNat
      fits := by
        rw [List.length_append]
        exact Nat.lt_of_le_of_lt s.fits (grownCapacity_lt s.small (nonneg_of_meets h'))
      small := toInt_toNat_lt _ }
  else none

def addOrdinalToResultSetUtil : Memory → SetObj → Int64 → Option SetObj := addOrdinal

def vmAddOrdinalToSet : Memory → SetObj → Int64 → Option SetObj := addOrdinal

/-! ## operations -/

/-- a result with room for `estimatedCapacity` ordinals -/
def resultWithRoom (mem : Memory) (estimatedCapacity : Int32) : Option SetObj :=
  if 0 < estimatedCapacity.toInt then
    if mem.meets (requestBytes estimatedCapacity) then
      some {
        values := []
        capacity := estimatedCapacity.toInt.toNat
        fits := Nat.zero_le _
        small := toInt_toNat_lt _ }
    else none
  else some SetObj.empty

/-- the ordinals that `keep` lets through, added one after the other -/
def addAll (mem : Memory) (keep : Int64 → Bool) (values : List Int64) (result : SetObj) :
    Option SetObj :=
  values.foldlM (fun r v => if keep v then addOrdinalToResultSetUtil mem r v else some r) result

def setUnion (mem : Memory) (a b : SetObj) : Option SetObj := do
  let result ← resultWithRoom mem (Int32.ofNat a.setSize + Int32.ofNat b.setSize)
  let result ← addAll mem (fun _ => true) a.values result
  addAll mem (fun _ => true) b.values result

def setDifference (mem : Memory) (a b : SetObj) : Option SetObj := do
  let result ← resultWithRoom mem (Int32.ofNat a.setSize)
  addAll mem (fun v => !setContainsOrdinalUtil b v) a.values result

def setIntersection (mem : Memory) (a b : SetObj) : Option SetObj := do
  let result ← resultWithRoom mem (Int32.ofNat (min a.setSize b.setSize))
  addAll mem (fun v => setContainsOrdinalUtil b v) a.values result

def vmBuildSetFromOrdinal (mem : Memory) (ordinal : Int64) : Option SetObj :=
  vmAddOrdinalToSet mem SetObj.empty ordinal

abbrev vmSetRangeMaxElements : Nat := 2 ^ 20

inductive SetRangeError where
  | tooLarge | noMemory
deriving DecidableEq, Repr

/-- `(unsigned long long)end_ord - (unsigned long long)start_ord` -/
def rangeSpan (startOrd endOrd : Int64) : Nat := (endOrd.toUInt64 - startOrd.toUInt64).toNat

def rangeValues (startOrd : Int64) (count : Nat) : List Int64 :=
  (List.range count).map fun i => startOrd + Int64.ofNat i

theorem rangeValues_length (startOrd : Int64) (count : Nat) :
    (rangeValues startOrd count).length = count := by
  simp [rangeValues]

def vmBuildSetFromRange (mem : Memory) (startOrd endOrd : Int64) : Except SetRangeError SetObj :=
  if endOrd < startOrd then .ok SetObj.empty
  else if h : vmSetRangeMaxElements ≤ rangeSpan startOrd endOrd then .error .tooLarge
  else if mem.meets (8 * (rangeSpan startOrd endOrd + 1)) then
    .ok {
      values := rangeValues startOrd (rangeSpan startOrd endOrd + 1)
      capacity := rangeSpan startOrd endOrd + 1
      fits := (rangeValues_length _ _).le
      small := by
        have hspan := Nat.lt_of_not_le h
        exact Nat.lt_of_le_of_lt hspan (by decide) }
  else .error .noMemory

/-- `makeCopyOfValue` of a set -/
def makeCopyOfSet (mem : Memory) (src : SetObj) : Option SetObj :=
  if src.setSize = 0 then some SetObj.empty
  else if mem.meets (8 * src.setSize) then
    some {
      values := src.values
      capacity := src.setSize
      fits := Nat.le_refl _
      small := Nat.lt_of_le_of_lt src.fits src.small }
  else none

/-! ## tests -/

def vmSetContains {F : Reals} (s : SetObj) (item : IndexValue F) : Bool :=
  match tryValueToOrdinal item with
  | none => false
  | some itemOrd => setContainsOrdinalUtil s (Int64.ofInt itemOrd)

def vmCompareOrdinals (x y : Int64) : Int := (if x > y then 1 else 0) - (if x < y then 1 else 0)

/-- `none`: the copy cannot be allocated -/
def vmSetIsSubset (mem : Memory) (sub super : SetObj) : Option Bool :=
  if sub.setSize = 0 then some true
  else if super.setSize = 0 then some false
  else if sub.setSize * super.setSize ≤ 4096 then
    some (sub.values.all fun v => setContainsOrdinalUtil super v)
  else if mem.meets (8 * super.setSize) then
    let sorted := super.values.mergeSort fun x y => vmCompareOrdinals x y ≤ 0
    some (sub.values.all fun v => BinarySearch.search vmCompareOrdinals v sorted)
  else none

inductive SetComparisonError where
  | outOfMemory
  /-- `<` and `>` -/
  | invalidOperator
deriving DecidableEq, Repr

def ofSubset (result : Option Bool) : Except SetComparisonError Bool :=
  match result with
  | some holds => .ok holds
  | none => .error .outOfMemory

def vmSetsEqual (mem : Memory) (a b : SetObj) : Except SetComparisonError Bool := do
  let sub ← ofSubset (vmSetIsSubset mem a b)
  if sub then ofSubset (vmSetIsSubset mem b a) else .ok false

def vmCompareSets (mem : Memory) (instruction : OpCode) (a b : SetObj) :
    Except SetComparisonError Bool :=
  match instruction with
  | .equal => vmSetsEqual mem a b
  | .notEqual => not <$> vmSetsEqual mem a b
  | .lessEqual => ofSubset (vmSetIsSubset mem a b)
  | .greaterEqual => ofSubset (vmSetIsSubset mem b a)
  | _ => .error .invalidOperator

/-- What the VM makes, whatever memory each step finds. -/
inductive Built : SetObj → Prop where
  | empty : Built SetObj.empty
  | singleton {mem ordinal r} : vmBuildSetFromOrdinal mem ordinal = some r → Built r
  | range {mem startOrd endOrd r} : vmBuildSetFromRange mem startOrd endOrd = .ok r → Built r
  | insert {mem s ordinal r} : Built s → vmAddOrdinalToSet mem s ordinal = some r → Built r
  | union {mem a b r} : Built a → Built b → setUnion mem a b = some r → Built r
  | difference {mem a b r} : Built a → Built b → setDifference mem a b = some r → Built r
  | intersection {mem a b r} : Built a → Built b → setIntersection mem a b = some r → Built r
  | copy {mem s r} : Built s → makeCopyOfSet mem s = some r → Built r

end Pscal.Sets
