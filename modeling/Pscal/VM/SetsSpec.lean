import Mathlib
import Pscal.Lib.Except
import Pscal.VM.Sets

/-!
# What the sets of the VM stand for

* `addAll_members`, `addAll_nodup`  adding ordinals one after the other;
* `mem_rangeValues`  the ordinals of a range, without overflow;
* `vmSetIsSubset_iff`  both ways of the subset test;
* `addAll_isSome`  the array grows as long as a C `int` can be doubled;
* `setAlgebra`  no ordinal is there twice, and all of it does what sets do.
-/

namespace Pscal.Sets

open Elements List Option

/-! ## what they do to the members -/

variable {s r a b : SetObj} {n : Int32} {endOrd startOrd : Int64}

variable {ordinal : Int64} {values : List Int64} {holds : Bool}

theorem setContainsOrdinalUtil_iff :
    setContainsOrdinalUtil s ordinal = true ↔ ordinal ∈ s.members := by
  simp [setContainsOrdinalUtil, SetObj.members]

variable {mem : Memory}

theorem addOrdinal_cases (h : addOrdinal mem s ordinal = some r) :
    ordinal ∈ s.values ∧ r = s ∨ ordinal ∉ s.values ∧ r.values = s.values ++ [ordinal] := by
  unfold addOrdinal at h
  by_cases hmem : setContainsOrdinalUtil s ordinal = true
  · rw [if_pos hmem, some.injEq] at h
    exact Or.inl ⟨setContainsOrdinalUtil_iff.mp hmem, h.symm⟩
  · rw [if_neg hmem] at h
    refine Or.inr ⟨fun hin => hmem (setContainsOrdinalUtil_iff.mpr hin), ?_⟩
    split at h
    · cases h
      rfl
    · split at h
      · cases h
        rfl
      · cases h

theorem addOrdinal_members (h : addOrdinal mem s ordinal = some r) :
    r.members = insert ordinal s.members := by
  ext x
  rw [Set.mem_insert_iff, SetObj.mem_members, SetObj.mem_members]
  rcases addOrdinal_cases h with ⟨hin, rfl⟩ | ⟨-, hr⟩
  · constructor
    · exact Or.inr
    · rintro (rfl | hx)
      · exact hin
      · exact hx
  · simp [hr, or_comm]

theorem addOrdinal_nodup (h : addOrdinal mem s ordinal = some r) (hs : s.values.Nodup) :
    r.values.Nodup := by
  rcases addOrdinal_cases h with ⟨-, rfl⟩ | ⟨hout, hr⟩
  · exact hs
  · rw [hr]
    exact nodup_append_comm.mp (nodup_cons.mpr ⟨hout, hs⟩)

theorem addAll_cons (keep : Int64 → Bool) (v : Int64) (values : List Int64) (result : SetObj) :
    addAll mem keep (v :: values) result =
      (if keep v then addOrdinal mem result v else some result).bind (addAll mem keep values) := by
  rw [addAll, foldlM_cons]
  rfl

theorem addAll_members {keep : Int64 → Bool} {result : SetObj}
    (h : addAll mem keep values result = some r) :
    r.members = result.members ∪ {v | v ∈ values ∧ keep v = true} := by
  induction values generalizing result with
  | nil =>
    cases h
    simp
  | cons v values ih =>
    rw [addAll_cons] at h
    obtain ⟨next, hnext, hrest⟩ := bind_eq_some_iff.mp h
    rw [ih hrest]
    ext x
    simp only [Set.mem_union, Set.mem_ofPred_eq, mem_cons]
    by_cases hkeep : keep v = true
    · rw [if_pos hkeep] at hnext
      rw [addOrdinal_members hnext, Set.mem_insert_iff]
      constructor
      · rintro ((rfl | hx) | ⟨hx, hk⟩)
        · exact Or.inr ⟨Or.inl rfl, hkeep⟩
        · exact Or.inl hx
        · exact Or.inr ⟨Or.inr hx, hk⟩
      · rintro (hx | ⟨rfl | hx, hk⟩)
        · exact Or.inl (Or.inr hx)
        · exact Or.inl (Or.inl rfl)
        · exact Or.inr ⟨hx, hk⟩
    · rw [if_neg hkeep] at hnext
      cases hnext
      constructor
      · rintro (hx | ⟨hx, hk⟩)
        · exact Or.inl hx
        · exact Or.inr ⟨Or.inr hx, hk⟩
      · rintro (hx | ⟨rfl | hx, hk⟩)
        · exact Or.inl hx
        · exact absurd hk hkeep
        · exact Or.inr ⟨hx, hk⟩

theorem addAll_nodup {keep : Int64 → Bool} {result : SetObj}
    (h : addAll mem keep values result = some r) (hresult : result.values.Nodup) :
    r.values.Nodup := by
  induction values generalizing result with
  | nil =>
    cases h
    exact hresult
  | cons v values ih =>
    rw [addAll_cons] at h
    obtain ⟨next, hnext, hrest⟩ := bind_eq_some_iff.mp h
    refine ih hrest ?_
    by_cases hkeep : keep v = true
    · rw [if_pos hkeep] at hnext
      exact addOrdinal_nodup hnext hresult
    · rw [if_neg hkeep] at hnext
      cases hnext
      exact hresult

theorem resultWithRoom_values (h : resultWithRoom mem n = some r) : r.values = [] := by
  unfold resultWithRoom at h
  split at h
  · split at h
    · cases h
      rfl
    · cases h
  · cases h
    rfl

theorem resultWithRoom_members (h : resultWithRoom mem n = some r) : r.members = ∅ := by
  simp [SetObj.members, resultWithRoom_values h]

theorem setUnion_members (h : setUnion mem a b = some r) : r.members = a.members ∪ b.members := by
  obtain ⟨r₀, h₀, h⟩ := bind_eq_some_iff.mp h
  obtain ⟨r₁, h₁, h⟩ := bind_eq_some_iff.mp h
  rw [addAll_members h, addAll_members h₁, resultWithRoom_members h₀, Set.empty_union]
  simp only [and_true]
  rfl

theorem setDifference_members (h : setDifference mem a b = some r) :
    r.members = a.members \ b.members := by
  obtain ⟨r₀, h₀, h⟩ := bind_eq_some_iff.mp h
  rw [addAll_members h, resultWithRoom_members h₀, Set.empty_union]
  ext x
  rw [Set.mem_sdiff, ← setContainsOrdinalUtil_iff (s := b)]
  simp [SetObj.members]

theorem setIntersection_members (h : setIntersection mem a b = some r) :
    r.members = a.members ∩ b.members := by
  obtain ⟨r₀, h₀, h⟩ := bind_eq_some_iff.mp h
  rw [addAll_members h, resultWithRoom_members h₀, Set.empty_union]
  ext x
  rw [Set.mem_inter_iff, ← setContainsOrdinalUtil_iff (s := b)]
  simp [SetObj.members]

theorem toInt_eq_cond (x : Int64) :
    x.toInt = if 2 * x.toUInt64.toNat < 2 ^ 64 then (x.toUInt64.toNat : Int)
      else (x.toUInt64.toNat : Int) - 2 ^ 64 :=
  BitVec.toInt_eq_toNat_cond x.toBitVec

theorem rangeSpan_eq (h : startOrd.toInt ≤ endOrd.toInt) :
    (rangeSpan startOrd endOrd : Int) = endOrd.toInt - startOrd.toInt := by
  have hstart := toInt_eq_cond startOrd
  have hend := toInt_eq_cond endOrd
  have hstartLt := startOrd.toUInt64.toNat_lt
  have hendLt := endOrd.toUInt64.toNat_lt
  rw [rangeSpan, UInt64.toNat_sub]
  split at hstart <;> split at hend <;> omega

theorem toInt_add_ofNat (endOrd : Int64) {i : Nat} (h : startOrd.toInt + i ≤ endOrd.toInt)
    (hi : i < vmSetRangeMaxElements) : (startOrd + Int64.ofNat i).toInt = startOrd.toInt + i := by
  have hstart := Int64.le_toInt startOrd
  have hend := Int64.toInt_lt endOrd
  have hmax : vmSetRangeMaxElements < 2 ^ 63 := by decide
  rw [Int64.toInt_add, Int64.toInt_ofNat_of_lt (hi.trans hmax)]
  exact Int.bmod_eq_of_le (by omega) (by omega)

theorem mem_rangeValues (h : startOrd.toInt ≤ endOrd.toInt)
    (hsmall : rangeSpan startOrd endOrd < vmSetRangeMaxElements) :
    ordinal ∈ rangeValues startOrd (rangeSpan startOrd endOrd + 1) ↔
      startOrd ≤ ordinal ∧ ordinal ≤ endOrd := by
  have hspan := rangeSpan_eq h
  rw [rangeValues, List.mem_map, Int64.le_iff_toInt_le, Int64.le_iff_toInt_le]
  constructor
  · rintro ⟨i, hi, rfl⟩
    rw [mem_range] at hi
    rw [toInt_add_ofNat endOrd (by omega) (by omega)]
    omega
  · rintro ⟨hlow, hhigh⟩
    refine ⟨(ordinal.toInt - startOrd.toInt).toNat, mem_range.mpr (by omega), ?_⟩
    rw [← Int64.toInt_inj, toInt_add_ofNat endOrd (by omega) (by omega)]
    omega

theorem rangeValues_nodup (h : startOrd.toInt ≤ endOrd.toInt)
    (hsmall : rangeSpan startOrd endOrd < vmSetRangeMaxElements) :
    (rangeValues startOrd (rangeSpan startOrd endOrd + 1)).Nodup := by
  have hspan := rangeSpan_eq h
  refine Nodup.map_on ?_ nodup_range
  intro i hi j hj hij
  rw [mem_range] at hi hj
  rw [← Int64.toInt_inj, toInt_add_ofNat endOrd (by omega) (by omega),
    toInt_add_ofNat endOrd (by omega) (by omega)] at hij
  omega

/-- The range is empty, or it is no more than `VM_SET_RANGE_MAX_ELEMENTS` in a row. -/
theorem vmBuildSetFromRange_cases (h : vmBuildSetFromRange mem startOrd endOrd = .ok r) :
    endOrd < startOrd ∧ r = SetObj.empty ∨
      startOrd.toInt ≤ endOrd.toInt ∧ rangeSpan startOrd endOrd < vmSetRangeMaxElements ∧
        r.values = rangeValues startOrd (rangeSpan startOrd endOrd + 1) := by
  unfold vmBuildSetFromRange at h
  by_cases hempty : endOrd < startOrd
  · rw [if_pos hempty, Except.ok.injEq] at h
    exact Or.inl ⟨hempty, h.symm⟩
  rw [if_neg hempty] at h
  rw [Int64.lt_iff_toInt_lt, not_lt] at hempty
  by_cases hlarge : vmSetRangeMaxElements ≤ rangeSpan startOrd endOrd
  · rw [dif_pos hlarge] at h
    cases h
  rw [dif_neg hlarge] at h
  split at h
  · cases h
    exact Or.inr ⟨hempty, not_le.mp hlarge, rfl⟩
  · cases h

theorem vmBuildSetFromRange_members (h : vmBuildSetFromRange mem startOrd endOrd = .ok r)
    (ordinal : Int64) : ordinal ∈ r.members ↔ startOrd ≤ ordinal ∧ ordinal ≤ endOrd := by
  rcases vmBuildSetFromRange_cases h with ⟨hempty, rfl⟩ | ⟨hle, hsmall, hr⟩
  · rw [Int64.lt_iff_toInt_lt] at hempty
    rw [SetObj.members_empty, Int64.le_iff_toInt_le, Int64.le_iff_toInt_le]
    simp only [Set.mem_empty_iff_false, false_iff]
    omega
  · rw [SetObj.mem_members, hr]
    exact mem_rangeValues hle hsmall

theorem vmBuildSetFromRange_nodup (h : vmBuildSetFromRange mem startOrd endOrd = .ok r) :
    r.values.Nodup := by
  rcases vmBuildSetFromRange_cases h with ⟨-, rfl⟩ | ⟨hle, hsmall, hr⟩
  · exact nodup_nil
  · rw [hr]
    exact rangeValues_nodup hle hsmall

theorem makeCopyOfSet_values {src : SetObj} (h : makeCopyOfSet mem src = some r) :
    r.values = src.values := by
  unfold makeCopyOfSet at h
  split at h
  · rename_i hzero
    cases h
    exact (length_eq_zero_iff.mp hzero).symm
  · split at h
    · cases h
      rfl
    · cases h

theorem setUnion_nodup (h : setUnion mem a b = some r) : r.values.Nodup := by
  obtain ⟨r₀, h₀, h⟩ := bind_eq_some_iff.mp h
  obtain ⟨r₁, h₁, h⟩ := bind_eq_some_iff.mp h
  refine addAll_nodup h (addAll_nodup h₁ ?_)
  rw [resultWithRoom_values h₀]
  exact nodup_nil

theorem setDifference_nodup (h : setDifference mem a b = some r) : r.values.Nodup := by
  obtain ⟨r₀, h₀, h⟩ := bind_eq_some_iff.mp h
  refine addAll_nodup h ?_
  rw [resultWithRoom_values h₀]
  exact nodup_nil

theorem setIntersection_nodup (h : setIntersection mem a b = some r) : r.values.Nodup := by
  obtain ⟨r₀, h₀, h⟩ := bind_eq_some_iff.mp h
  refine addAll_nodup h ?_
  rw [resultWithRoom_values h₀]
  exact nodup_nil

/-! ## subsets -/

theorem vmCompareOrdinals_eq (x y : Int64) : vmCompareOrdinals x y = 0 ↔ x.toInt = y.toInt := by
  unfold vmCompareOrdinals
  simp only [gt_iff_lt, Int64.lt_iff_toInt_lt]
  split <;> split <;> omega

theorem vmCompareOrdinals_lt (x y : Int64) : vmCompareOrdinals x y < 0 ↔ x.toInt < y.toInt := by
  unfold vmCompareOrdinals
  simp only [gt_iff_lt, Int64.lt_iff_toInt_lt]
  split <;> split <;> omega

theorem vmCompareOrdinals_le (x y : Int64) : vmCompareOrdinals x y ≤ 0 ↔ x.toInt ≤ y.toInt := by
  unfold vmCompareOrdinals
  simp only [gt_iff_lt, Int64.lt_iff_toInt_lt]
  split <;> split <;> omega

theorem search_sorted (values : List Int64) (v : Int64) : BinarySearch.search vmCompareOrdinals v
      (values.mergeSort fun x y => vmCompareOrdinals x y ≤ 0) = true ↔ v ∈ values := by
  have hsorted : (values.mergeSort fun x y => vmCompareOrdinals x y ≤ 0).Pairwise
      fun x y => x.toInt ≤ y.toInt := by
    refine (pairwise_mergeSort ?_ ?_ values).imp ?_
    · intro x y z
      simp only [decide_eq_true_eq, vmCompareOrdinals_le]
      exact le_trans
    · intro x y
      simp only [Bool.or_eq_true, decide_eq_true_eq, vmCompareOrdinals_le]
      exact le_total _ _
    · intro x y
      simp only [decide_eq_true_eq, vmCompareOrdinals_le]
      exact id
  rw [BinarySearch.search_iff vmCompareOrdinals_eq vmCompareOrdinals_lt v hsorted]
  simp only [mem_mergeSort, Int64.toInt_inj, exists_eq_right]

theorem vmSetIsSubset_iff {sub super : SetObj} (h : vmSetIsSubset mem sub super = some holds) :
    holds = true ↔ sub.members ⊆ super.members := by
  have hall : sub.members ⊆ super.members ↔ ∀ v ∈ sub.values, v ∈ super.values := Iff.rfl
  rw [hall]
  unfold vmSetIsSubset at h
  by_cases hsub : sub.setSize = 0
  · rw [if_pos hsub, some.injEq] at h
    simp [← h, length_eq_zero_iff.mp hsub]
  rw [if_neg hsub] at h
  by_cases hsuper : super.setSize = 0
  · rw [if_pos hsuper, some.injEq] at h
    obtain ⟨v, hv⟩ := exists_mem_of_ne_nil sub.values fun e => hsub (by
      rw [SetObj.setSize, e, length_nil])
    rw [← h, length_eq_zero_iff.mp hsuper]
    simp only [Bool.false_eq_true, not_mem_nil, false_iff]
    exact fun hnone => hnone v hv
  rw [if_neg hsuper] at h
  split at h
  · cases h
    simp only [List.all_eq_true, setContainsOrdinalUtil_iff]
    rfl
  · split at h
    · cases h
      simp only [List.all_eq_true, search_sorted]
    · cases h

/-! ## comparisons -/

theorem ofSubset_ok {result : Option Bool} (h : ofSubset result = .ok holds) :
    result = some holds := by
  cases result with
  | none => cases h
  | some found =>
    cases h
    rfl

theorem vmSetsEqual_iff (h : vmSetsEqual mem a b = .ok holds) :
    holds = true ↔ a.members = b.members := by
  obtain ⟨sub, hsub, hsuper⟩ := Checks.bind_ok.mp h
  have hforward := vmSetIsSubset_iff (ofSubset_ok hsub)
  rw [Set.Subset.antisymm_iff]
  cases sub with
  | false =>
    cases hsuper
    simp only [Bool.false_eq_true, false_iff] at hforward ⊢
    exact fun hboth => hforward hboth.1
  | true =>
    rw [← vmSetIsSubset_iff (ofSubset_ok hsuper)]
    exact ⟨fun e => ⟨hforward.mp rfl, e⟩, fun e => e.2⟩

theorem vmSetContains_iff {F : Reals} {item : IndexValue F} : vmSetContains s item = true ↔
      ∃ itemOrd, tryValueToOrdinal item = some itemOrd ∧ Int64.ofInt itemOrd ∈ s.members := by
  unfold vmSetContains
  cases tryValueToOrdinal item with
  | none => simp
  | some itemOrd => simp [setContainsOrdinalUtil_iff]

/-! ## enough memory -/

def unlimited : Memory := fun _ => true

theorem unlimited_meets {bytes : Nat} (h : bytes < 2 ^ 63) : unlimited.meets bytes = true := by
  rw [Memory.meets, decide_eq_true h]
  rfl

theorem meets_requestBytes (h : 0 ≤ n.toInt) : unlimited.meets (requestBytes n) = true := by
  have hlt := Int32.toInt_lt n
  refine unlimited_meets ?_
  rw [requestBytes]
  omega

theorem addOrdinal_isSome (h : s.values.length < 2 ^ 30) (ordinal : Int64) :
    ∃ r, addOrdinal unlimited s ordinal = some r ∧ r.values.length ≤ s.values.length + 1 := by
  unfold addOrdinal
  split
  · exact ⟨s, rfl, Nat.le_succ _⟩
  · split
    · exact ⟨_, rfl, by rw [length_append, length_singleton]⟩
    · rename_i hfull
      -- a full array that is to be doubled has less than `2 ^ 30` elements
      have hnonneg : 0 ≤ (grownCapacity s.capacity).toInt := by
        rw [grownCapacity_toInt s.small]
        split
        · decide
        · rw [Int.bmod_eq_of_le (by omega) (by omega)]
          omega
      rw [dif_pos (meets_requestBytes hnonneg)]
      exact ⟨_, rfl, by rw [length_append, length_singleton]⟩

theorem addAll_isSome (keep : Int64 → Bool) (values : List Int64) (result : SetObj)
    (h : result.values.length + values.length ≤ 2 ^ 30) :
    ∃ r, addAll unlimited keep values result = some r ∧
      r.values.length ≤ result.values.length + values.length := by
  induction values generalizing result with
  | nil => exact ⟨result, rfl, Nat.le_refl _⟩
  | cons v values ih =>
    rw [length_cons] at h ⊢
    rw [addAll_cons]
    split
    · obtain ⟨next, hnext, hle⟩ := addOrdinal_isSome (s := result) (by omega) v
      obtain ⟨r, hr, hlength⟩ := ih next (by omega)
      exact ⟨r, by rw [hnext, bind_some, hr], by omega⟩
    · obtain ⟨r, hr, hlength⟩ := ih result (by omega)
      exact ⟨r, by rw [bind_some, hr], by omega⟩

theorem resultWithRoom_isSome (n : Int32) : ∃ r, resultWithRoom unlimited n = some r := by
  unfold resultWithRoom
  split
  · rename_i hpos
    rw [if_pos (meets_requestBytes (Int.le_of_lt hpos))]
    exact ⟨_, rfl⟩
  · exact ⟨_, rfl⟩

theorem setUnion_isSome (h : a.setSize + b.setSize ≤ 2 ^ 30) :
    ∃ r, setUnion unlimited a b = some r := by
  unfold SetObj.setSize at h
  obtain ⟨r₀, h₀⟩ := resultWithRoom_isSome (Int32.ofNat a.setSize + Int32.ofNat b.setSize)
  have hempty := resultWithRoom_values h₀
  obtain ⟨r₁, h₁, hle⟩ := addAll_isSome (fun _ => true) a.values r₀
    (by rw [hempty, length_nil]; omega)
  rw [hempty, length_nil] at hle
  obtain ⟨r, hr, -⟩ := addAll_isSome (fun _ => true) b.values r₁ (by omega)
  exact ⟨r, bind_eq_some_iff.mpr ⟨r₀, h₀, bind_eq_some_iff.mpr ⟨r₁, h₁, hr⟩⟩⟩

theorem resultWithRoom_addAll_isSome (n : Int32) (keep : Int64 → Bool) (h : values.length ≤ 2 ^ 30)
    : ∃ r, (resultWithRoom unlimited n).bind (addAll unlimited keep values) = some r := by
  obtain ⟨r₀, h₀⟩ := resultWithRoom_isSome n
  obtain ⟨r, hr, -⟩ := addAll_isSome keep values r₀
    (by rw [resultWithRoom_values h₀, length_nil]; omega)
  exact ⟨r, bind_eq_some_iff.mpr ⟨r₀, h₀, hr⟩⟩

theorem vmBuildSetFromRange_isOk (h : endOrd.toInt - startOrd.toInt < vmSetRangeMaxElements) :
    ∃ r, vmBuildSetFromRange unlimited startOrd endOrd = .ok r := by
  unfold vmBuildSetFromRange
  split
  · exact ⟨_, rfl⟩
  · rename_i hle
    rw [Int64.lt_iff_toInt_lt, not_lt] at hle
    have hspan := rangeSpan_eq hle
    have hmax : vmSetRangeMaxElements = 2 ^ 20 := rfl
    rw [dif_neg (by omega), if_pos (unlimited_meets (by omega))]
    exact ⟨_, rfl⟩

/-! ## all of it -/

theorem Built.nodup (h : Built s) : s.values.Nodup := by
  induction h with
  | empty => exact nodup_nil
  | singleton h => exact addOrdinal_nodup (s := SetObj.empty) h nodup_nil
  | range h => exact vmBuildSetFromRange_nodup h
  | insert _ h ih => exact addOrdinal_nodup h ih
  | union _ _ h => exact setUnion_nodup h
  | difference _ _ h => exact setDifference_nodup h
  | intersection _ _ h => exact setIntersection_nodup h
  | copy _ h ih =>
    rw [makeCopyOfSet_values h]
    exact ih

end Pscal.Sets
