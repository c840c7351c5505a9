import Mathlib
import Pscal.Core.Value
import Pscal.Lib.RowMajor

/-!
# Offsets into arrays

`core/utils.c`: the place of an element in the buffer of an array, and slices of the array.  What
the code computes in 32 bits is wrapped by `int`, what it computes in 64 by `longLong`.

* `computeFlatOffset`, `makeDynamicArraySliceValue`  the code;
* `reach`  an element by way of a slice;
* `RowMajorExact`, `flatOffsets_exact_iff`  what offsets and slices are to do, and when.
-/

namespace Pscal

namespace FlatOffsets

open RowMajor List Option

def int (v : Int) : Int := v.bmod (2 ^ 32)

def longLong (v : Int) : Int := v.bmod (2 ^ 64)

/-- `upper - lower + 1` -/
def dimSize (b : Int × Int) : Int := int (int (b.2 - b.1) + 1)

/-- The loop over the dimensions, the last one first, which ends with the offset and the
multiplier; the error is the dimension of an index out of bounds. -/
def offsetLoop (wrap : Int → Int) (inner : Int) (dim : Nat) :
    Frame → List Int → Except Nat (Int × Int)
  | b :: bs, i :: is => do
    let (offset, multiplier) ← offsetLoop wrap inner (dim + 1) bs is
    if i < b.1 ∨ b.2 < i then .error dim
    else .ok (wrap (offset + wrap (int (i - b.1) * multiplier)), wrap (multiplier * dimSize b))
  | _, _ => .ok (0, inner)

/-- an index for each dimension -/
def computeFlatOffset (bs : Frame) (is : List Int) : Except String Int :=
  match offsetLoop int 1 0 bs is with
  | .ok (offset, _) => .ok offset
  | .error dim =>
    let (index, lower, upper) := (is.getD dim 0, bs.getD dim (0, 0))
    .error s!"Runtime error: Index {index} out of bounds [{lower}..{upper}] in dimension {dim + 1}."

def calculateArrayTotalSize (bs : Frame) : Int :=
  if bs = [] then 0 else bs.foldl (fun total b => int (total * dimSize b)) 1

/-- `makeArrayND`: the number of elements with one more dimension (`none`: the array is rejected) -/
def nextSize (usePacked : Bool) (total : Nat) (b : Int × Int) : Option Nat :=
  let size := b.2 - b.1 + 1
  if size ≤ 0 then none
  else
    let total := total * size.toNat
    if 2 ^ 64 ≤ total ∨ (268435456 / if usePacked then 1 else 16) < total then none
    else some total

/-- the number of elements that `makeArrayND` allocates -/
def arraySize (usePacked : Bool) (bs : Frame) : Option Nat :=
  if bs = [] then none else bs.foldlM (nextSize usePacked) 1

inductive Slice where
  /-- of the buffer from `offset` on -/
  | view (offset : Int) (bounds : Frame)
  /-- the array that the element at `slot` is -/
  | element (slot : Int)
deriving DecidableEq

/-- `none`: an internal error, or an index is out of bounds. -/
def makeDynamicArraySliceValue (elementType : VarType) (bs : Frame) (indices : List Int) :
    Option Slice :=
  let consumed := indices.length
  if consumed = 0 ∨ bs.length ≤ consumed then none
  else if elementType = .array then
    match bs, indices with
    | b :: _, [i] => if i < b.1 ∨ b.2 < i then none else some (.element (int (i - b.1)))
    | _, _ => none
  else
    let inner := (bs.drop consumed).foldl (fun size b => longLong (size * dimSize b)) 1
    match offsetLoop longLong inner 0 (bs.take consumed) indices with
    | .ok (offset, _) => some (.view offset (bs.drop consumed))
    | .error _ => none

/-- The place in the array's own buffer of the element at `js` in the slice at `is`; `none`: the
slice has another buffer. -/
def reach (elementType : VarType) (bs : Frame) (is js : List Int) : Option Int :=
  match makeDynamicArraySliceValue elementType bs is with
  | some (.view offset rest) => (computeFlatOffset rest js).toOption.map (offset + ·)
  | _ => none

/-- `size` is the number of elements. -/
structure RowMajorExact (elementType : VarType) (bs : Frame) (size : Nat) : Prop where
  total : calculateArrayTotalSize bs = size
  accepts : ∀ is, is.length = bs.length →
    ((∃ offset, computeFlatOffset bs is = .ok offset) ↔ Inside bs is)
  below : ∀ is offset, Inside bs is → computeFlatOffset bs is = .ok offset →
    0 ≤ offset ∧ offset < size
  onto : ∀ offset : Int, 0 ≤ offset → offset < size →
    ∃! is, Inside bs is ∧ computeFlatOffset bs is = .ok offset
  slices : ∀ is js, is ≠ [] → js ≠ [] → Inside bs (is ++ js) →
    ∃ offset, computeFlatOffset bs (is ++ js) = .ok offset ∧
      reach elementType bs is js = some offset

/-! ## the loops -/

variable {bs : Frame} {is : List Int}

theorem offsetLoop_isOk (wrap : Int → Int) (inner : Int) (dim : Nat)
    (h : is.length = bs.length) : (∃ r, offsetLoop wrap inner dim bs is = .ok r) ↔ Inside bs is := by
  induction bs generalizing is dim with
  | nil =>
    cases is with
    | nil => exact iff_of_true ⟨_, rfl⟩ .nil
    | cons => cases h
  | cons b bs ih =>
    cases is with
    | nil => cases h
    | cons i is =>
      have hrest := ih (dim + 1) (Nat.succ.inj h)
      rw [Inside, forall₂_cons, ← Inside, ← hrest, offsetLoop]
      cases offsetLoop wrap inner (dim + 1) bs is with
      | error d =>
        refine iff_of_false ?_ ?_
        · rintro ⟨_, hr⟩
          cases hr
        · rintro ⟨_, _, hr⟩
          cases hr
      | ok r =>
        show (∃ r', (if i < b.1 ∨ b.2 < i then _ else _) = Except.ok r') ↔ _
        split <;> rename_i hout
        · refine iff_of_false ?_ ?_
          · rintro ⟨_, hr⟩
            cases hr
          · omega
        · exact iff_of_true ⟨_, rfl⟩ ⟨by omega, r, rfl⟩

theorem int_eq {v : Int} (h0 : 0 ≤ v) (h : v < 2 ^ 31) : int v = v :=
  Int.bmod_eq_of_le (by norm_num; omega) (by norm_num; omega)

theorem longLong_eq {v : Int} (h0 : 0 ≤ v) (h : v < 2 ^ 31) : longLong v = v :=
  Int.bmod_eq_of_le (by norm_num; omega) (by norm_num; omega)

theorem dimSize_eq {b : Int × Int} (h : b.1 ≤ b.2) (hfits : extent b < 2 ^ 31) :
    dimSize b = extent b := by
  unfold dimSize extent at *
  have hspan : int (b.2 - b.1) = b.2 - b.1 := int_eq (by omega) (by omega)
  rw [hspan, int_eq (by omega) hfits]

section
variable {wrap : Int → Int} (hwrap : ∀ {v : Int}, 0 ≤ v → v < 2 ^ 31 → wrap v = v)
  {inner : Int} (hinner : 0 < inner)
include hwrap hinner

theorem offsetLoop_eq (dim : Nat) (h : Inside bs is) (hfits : volume bs * inner < 2 ^ 31) :
    offsetLoop wrap inner dim bs is = .ok (position bs is * inner, volume bs * inner) := by
  induction h generalizing dim with
  | nil => simp [offsetLoop, position, volume]
  | @cons b i bs is hi h ih =>
    have hvolume := volume_pos (Inside.solid h)
    have hrest : 0 < volume bs * inner := Int.mul_pos hvolume hinner
    have hcons : volume (b :: bs) * inner = extent b * (volume bs * inner) := by
      rw [volume_cons, Int.mul_assoc]
    have hextent : 0 < extent b := by
      unfold extent
      omega
    have hsize : extent b ≤ volume (b :: bs) * inner := by
      rw [hcons]
      exact le_mul_of_one_le_right hextent.le hrest
    have hle : volume bs * inner ≤ volume (b :: bs) * inner := by
      rw [hcons]
      exact le_mul_of_one_le_left hrest.le hextent
    have hplace : position (b :: bs) (i :: is) * inner =
        position bs is * inner + (i - b.1) * (volume bs * inner) := by
      rw [position]
      ring
    obtain ⟨hlow, hhigh⟩ := position_lt (Forall₂.cons hi h)
    have hlow' : 0 ≤ position bs is * inner := Int.mul_nonneg (position_lt h).1 hinner.le
    have hrow : 0 ≤ (i - b.1) * (volume bs * inner) := Int.mul_nonneg (by omega) hrest.le
    have hbelow : position (b :: bs) (i :: is) * inner < volume (b :: bs) * inner :=
      Int.mul_lt_mul_of_pos_right hhigh hinner
    have hindex : int (i - b.1) = i - b.1 := int_eq (by omega) (by unfold extent at hsize; omega)
    rw [offsetLoop, ih (dim + 1) (by omega)]
    show (if i < b.1 ∨ b.2 < i then _ else _) = _
    rw [if_neg (by omega), hindex, dimSize_eq (by omega) (by omega), hwrap hrow (by omega),
      ← hplace, hwrap (by omega) (by omega), Int.mul_comm _ (extent b), ← hcons,
      hwrap (by omega) hfits]

theorem foldl_dimSize (h : Solid bs) (hfits : inner * volume bs < 2 ^ 31) :
    bs.foldl (fun size b => wrap (size * dimSize b)) inner = inner * volume bs := by
  induction bs generalizing inner with
  | nil => simp [volume]
  | cons b bs ih =>
    have hvolume := volume_pos h.tail
    have hextent : 0 < extent b := by
      have := h.head
      unfold extent
      omega
    rw [volume_cons, ← Int.mul_assoc] at hfits ⊢
    have hpos : 0 < inner * extent b := Int.mul_pos hinner hextent
    have hle : inner * extent b ≤ inner * extent b * volume bs :=
      le_mul_of_one_le_right hpos.le hvolume
    have hsize : extent b ≤ inner * extent b := le_mul_of_one_le_left hextent.le hinner
    rw [foldl_cons, dimSize_eq h.head (by omega), hwrap hpos.le (by omega)]
    exact ih hpos h.tail hfits

end

/-! ## the whole array -/

variable {usePacked : Bool} {size : Nat}

theorem nextSize_some {total : Nat} {b : Int × Int} (h : nextSize usePacked total b = some size) :
    b.1 ≤ b.2 ∧ total * extent b = size ∧ size ≤ 268435456 := by
  unfold nextSize at h
  dsimp only at h
  rw [ite_none_left_eq_some, ite_none_left_eq_some] at h
  obtain ⟨hsize, hcap, htotal⟩ := h
  rw [← some.inj htotal, Nat.cast_mul, Int.toNat_of_nonneg (by omega)]
  refine ⟨by omega, rfl, ?_⟩
  cases usePacked <;> simp at hcap <;> omega

theorem foldlM_size {total : Nat} (h : bs.foldlM (nextSize usePacked) total = some size)
    (htotal : total ≤ 268435456) :
    Solid bs ∧ total * volume bs = size ∧ size ≤ 268435456 := by
  induction bs generalizing total with
  | nil =>
    cases h
    exact ⟨fun _ h => absurd h not_mem_nil, Int.mul_one _, htotal⟩
  | cons b bs ih =>
    rw [foldlM_cons] at h
    obtain ⟨total', hnext, hrest⟩ := bind_eq_some_iff.mp h
    obtain ⟨hle, htotal', hcap⟩ := nextSize_some hnext
    obtain ⟨hsolid, hvolume, hsize⟩ := ih hrest hcap
    refine ⟨fun c hc => ?_, ?_, hsize⟩
    · rcases mem_cons.mp hc with rfl | hc
      · exact hle
      · exact hsolid c hc
    · rw [volume_cons, ← hvolume, ← htotal', Int.mul_assoc]

theorem arraySize_some (h : arraySize usePacked bs = some size) :
    bs ≠ [] ∧ Solid bs ∧ volume bs = size ∧ size ≤ 268435456 := by
  unfold arraySize at h
  split at h <;> rename_i hne
  · cases h
  · obtain ⟨hsolid, hvolume, hle⟩ := foldlM_size h (by decide)
    exact ⟨hne, hsolid, by rw [← hvolume, Nat.cast_one, Int.one_mul], hle⟩

theorem computeFlatOffset_eq (h : Inside bs is) (hfits : volume bs < 2 ^ 31) :
    computeFlatOffset bs is = .ok (position bs is) := by
  unfold computeFlatOffset
  rw [offsetLoop_eq int_eq Int.one_pos 0 h (by rwa [Int.mul_one]), Int.mul_one]

theorem computeFlatOffset_isOk (h : is.length = bs.length) :
    (∃ offset, computeFlatOffset bs is = .ok offset) ↔ Inside bs is := by
  rw [← offsetLoop_isOk int 1 0 h]
  unfold computeFlatOffset
  cases offsetLoop int 1 0 bs is with
  | ok r => exact iff_of_true ⟨_, rfl⟩ ⟨_, rfl⟩
  | error d =>
    refine iff_of_false ?_ ?_
    · rintro ⟨_, h⟩
      cases h
    · rintro ⟨_, h⟩
      cases h

theorem reach_view {elementType : VarType} {bs' : Frame} {js : List Int}
    (htype : elementType ≠ .array) (h : Inside bs is) (h' : Inside bs' js) (his : is ≠ [])
    (hjs : js ≠ []) (hfits : volume (bs ++ bs') < 2 ^ 31) :
    reach elementType (bs ++ bs') is js = some (position (bs ++ bs') (is ++ js)) := by
  have hlen : bs.length = is.length := Forall₂.length_eq h
  have hlen' : bs'.length = js.length := Forall₂.length_eq h'
  have hpos := length_pos_iff.mpr his
  have hpos' := length_pos_iff.mpr hjs
  have hvolume := volume_pos (Inside.solid h)
  have hvolume' := volume_pos (Inside.solid h')
  have hboth : volume (bs ++ bs') = volume bs * volume bs' := by
    rw [volume, map_append, prod_append]
    rfl
  rw [hboth] at hfits
  have hle : volume bs' ≤ volume bs * volume bs' := le_mul_of_one_le_left hvolume'.le hvolume
  have hinner := foldl_dimSize longLong_eq Int.one_pos (Inside.solid h') (by omega)
  rw [Int.one_mul] at hinner
  unfold reach makeDynamicArraySliceValue
  dsimp only
  rw [if_neg (by rw [length_append]; omega), if_neg htype, drop_left' hlen,
    take_left' hlen, hinner, offsetLoop_eq longLong_eq hvolume' 0 h hfits]
  dsimp only
  rw [computeFlatOffset_eq h' (by omega), position_append h]
  rfl

theorem reach_element {b : Int × Int} {i : Int} (hne : bs ≠ []) (is : List Int) :
    reach .array (b :: bs) [i] is = none := by
  unfold reach makeDynamicArraySliceValue
  dsimp only
  rw [if_neg (by simpa using hne), if_pos rfl]
  split <;> rename_i hslice
  · split at hslice <;> cases hslice
  · rfl

theorem flatOffsets_exact_iff {elementType : VarType} (h : arraySize usePacked bs = some size) :
    RowMajorExact elementType bs size ↔ ¬ (elementType = .array ∧ 2 ≤ bs.length) := by
  obtain ⟨hne, hsolid, hvolume, hle⟩ := arraySize_some h
  have hfits : volume bs < 2 ^ 31 := by omega
  constructor
  · rintro hexact ⟨rfl, hdims⟩
    obtain ⟨hin, _⟩ := inside_first hsolid
    obtain ⟨b, rest, rfl⟩ := exists_cons_of_ne_nil hne
    have hrest : rest ≠ [] := by
      rintro rfl
      exact absurd hdims (by simp)
    obtain ⟨_, _, hreach⟩ := hexact.slices [b.1] (rest.map Prod.fst) (by simp)
      (by simpa using hrest) hin
    rw [reach_element hrest] at hreach
    cases hreach
  · intro hflat
    refine ⟨?_, fun is hlen => computeFlatOffset_isOk hlen, fun is offset hin hok => ?_,
      fun offset h0 hlt => ?_, fun is js his hjs hin => ?_⟩
    · unfold calculateArrayTotalSize
      rw [if_neg hne, foldl_dimSize int_eq Int.one_pos hsolid (by rwa [Int.one_mul]), Int.one_mul,
        hvolume]
    · rw [computeFlatOffset_eq hin hfits] at hok
      cases hok
      rw [← hvolume]
      exact position_lt hin
    · obtain ⟨is, ⟨hin, hpos⟩, hunique⟩ := existsUnique_position hsolid h0 (hvolume ▸ hlt)
      refine ⟨is, ⟨hin, by rw [computeFlatOffset_eq hin hfits, hpos]⟩, fun is' his' => ?_⟩
      obtain ⟨hin', hok⟩ := his'
      rw [computeFlatOffset_eq hin' hfits] at hok
      exact hunique is' ⟨hin', Except.ok.inj hok⟩
    · refine ⟨_, computeFlatOffset_eq hin hfits, ?_⟩
      have hlen := Forall₂.length_eq hin
      have hpos := length_pos_iff.mpr his
      have hpos' := length_pos_iff.mpr hjs
      rw [length_append] at hlen
      have hsplit : bs = bs.take is.length ++ bs.drop is.length := (take_append_drop _ _).symm
      have hcut : (bs.take is.length).length = is.length := by
        rw [length_take]
        omega
      rw [hsplit] at hin hfits ⊢
      obtain ⟨hin, hin'⟩ := (inside_append hcut).mp hin
      exact reach_view (fun htype => hflat ⟨htype, by omega⟩) hin hin' his hjs hfits

/-- `array[1..2, 3..5] of integer` -/
theorem flatOffsets_exact_iff_integers : RowMajorExact .int32 [(1, 2), (3, 5)] 6 ↔
    ¬ (VarType.int32 = .array ∧ 2 ≤ [((1 : Int), (2 : Int)), (3, 5)].length) :=
  flatOffsets_exact_iff (by decide : arraySize false [(1, 2), (3, 5)] = some 6)

/-- A row of `array[1..2, 1..2]` of arrays is taken for one of its elements. -/
theorem not_exact_arrays : arraySize false [(1, 2), (1, 2)] = some 4 ∧
    makeDynamicArraySliceValue .array [(1, 2), (1, 2)] [2] = some (.element 1) ∧
    ¬ RowMajorExact .array [(1, 2), (1, 2)] 4 := by
  refine ⟨by decide, by decide, fun h => ?_⟩
  obtain ⟨_, _, hreach⟩ := h.slices [2] [1] (by simp) (by simp)
    (.cons (by decide) (.cons (by decide) .nil))
  rw [reach_element (by simp)] at hreach
  cases hreach

end FlatOffsets

end Pscal
