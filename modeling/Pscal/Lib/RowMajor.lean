import Mathlib

/-!
# Positions in row-major order

A frame is a list of dimensions, each with its first and last index.

* `extent`, `volume`  the number of indices of a dimension, and of positions in a frame;
* `Inside`, `position`  an index for each dimension, and its place in row-major order;
* `position_lt`  the places are those below the volume;
* `Fits`  a frame whose places are those of another;
* `position_append`  the place of a tuple by way of its first indices;
* `existsUnique_position`  each place is that of one tuple.
-/

namespace RowMajor

open List

abbrev Frame := List (Int × Int)

def extent (b : Int × Int) : Int := b.2 - b.1 + 1

def volume (bs : Frame) : Int := (bs.map extent).prod

def Inside (bs : Frame) (is : List Int) : Prop :=
  List.Forall₂ (fun b i => b.1 ≤ i ∧ i ≤ b.2) bs is

def position : Frame → List Int → Int
  | b :: bs, i :: is => (i - b.1) * volume bs + position bs is
  | _, _ => 0

/-- no dimension is empty -/
def Solid (bs : Frame) : Prop := ∀ b ∈ bs, b.1 ≤ b.2

theorem volume_cons (b : Int × Int) (bs : Frame) : volume (b :: bs) = extent b * volume bs := by
  unfold volume
  rw [map_cons, prod_cons]

variable {bs bs' : Frame} {is : List Int}

theorem Solid.head {b : Int × Int} (h : Solid (b :: bs)) : b.1 ≤ b.2 :=
  h b mem_cons_self

theorem Solid.tail {b : Int × Int} {bs : Frame} (h : Solid (b :: bs)) : Solid bs :=
  fun c hc => h c (mem_cons_of_mem _ hc)

theorem volume_pos (h : Solid bs) : 0 < volume bs := by
  induction bs with
  | nil => exact Int.zero_lt_one
  | cons b bs ih =>
    rw [volume_cons]
    have hb := h.head
    exact Int.mul_pos (by unfold extent; omega) (ih h.tail)

theorem Inside.solid (h : Inside bs is) : Solid bs := by
  induction h with
  | nil => exact fun b hb => by cases hb
  | cons hi _ ih =>
    intro b hb
    rcases mem_cons.mp hb with rfl | hb
    · exact Int.le_trans hi.1 hi.2
    · exact ih b hb

theorem position_lt (h : Inside bs is) : 0 ≤ position bs is ∧ position bs is < volume bs := by
  induction h with
  | nil => exact ⟨Int.le_refl 0, Int.zero_lt_one⟩
  | @cons b i bs is hi h ih =>
    have hvolume := volume_pos (Inside.solid h)
    have hlow : 0 ≤ (i - b.1) * volume bs := Int.mul_nonneg (by omega) (by omega)
    have hhigh : (i - b.1) * volume bs ≤ (extent b - 1) * volume bs :=
      Int.mul_le_mul_of_nonneg_right (by unfold extent; omega) (by omega)
    rw [Int.sub_mul (extent b), Int.one_mul] at hhigh
    rw [position, volume_cons]
    constructor
    · omega
    · omega

theorem inside_first (h : Solid bs) :
    Inside bs (bs.map Prod.fst) ∧ position bs (bs.map Prod.fst) = 0 := by
  induction bs with
  | nil => exact ⟨.nil, rfl⟩
  | cons b bs ih =>
    obtain ⟨hinside, hposition⟩ := ih h.tail
    refine ⟨.cons ⟨Int.le_refl _, h.head⟩ hinside, ?_⟩
    rw [map_cons, position, hposition, Int.sub_self, Int.zero_mul, Int.add_zero]

/-! ## two frames -/

/-- The same first indices, no further last ones, and rows of the same size wherever there is more
than one. -/
def Fits : Frame → Frame → Prop
  | [], [] => True
  | b :: bs, b' :: bs' =>
    b.1 = b'.1 ∧ b.2 ≤ b'.2 ∧ (b.1 < b.2 → volume bs = volume bs') ∧ Fits bs bs'
  | _, _ => False

theorem Fits.refl (bs : Frame) : Fits bs bs := by
  induction bs with
  | nil => trivial
  | cons b bs ih => exact ⟨rfl, Int.le_refl _, fun _ => rfl, ih⟩

theorem Fits.volume_le (h : Fits bs bs') (hsolid : Solid bs) : volume bs ≤ volume bs' := by
  induction bs generalizing bs' with
  | nil =>
    cases bs' with
    | nil => exact Int.le_refl _
    | cons b' bs' => exact h.elim
  | cons b bs ih =>
    cases bs' with
    | nil => exact h.elim
    | cons b' bs' =>
      obtain ⟨hfirst, hlast, -, hrest⟩ := h
      have hb := hsolid.head
      have hvolume := ih hrest hsolid.tail
      have hpos := volume_pos hsolid.tail
      rw [volume_cons, volume_cons]
      refine Int.le_trans (Int.mul_le_mul_of_nonneg_left hvolume ?_)
        (Int.mul_le_mul_of_nonneg_right ?_ ?_)
      · unfold extent
        omega
      · unfold extent
        omega
      · omega

theorem Fits.position (h : Fits bs bs') (hin : Inside bs is) :
    Inside bs' is ∧ position bs is = position bs' is := by
  induction hin generalizing bs' with
  | nil =>
    cases bs' with
    | nil => exact ⟨.nil, rfl⟩
    | cons b' bs' => exact h.elim
  | @cons b i bs is hi hin ih =>
    cases bs' with
    | nil => exact h.elim
    | cons b' bs' =>
      obtain ⟨hfirst, hlast, hrows, hrest⟩ := h
      obtain ⟨hinside, hposition⟩ := ih hrest
      refine ⟨.cons ⟨hfirst ▸ hi.1, Int.le_trans hi.2 hlast⟩ hinside, ?_⟩
      rw [RowMajor.position, RowMajor.position, hposition, ← hfirst]
      by_cases hone : b.1 < b.2
      · rw [hrows hone]
      · have hzero : i - b.1 = 0 := by omega
        rw [hzero, Int.zero_mul, Int.zero_mul]

theorem fits_of_position {limit : Int} (hsolid : Solid bs) (hsolid' : Solid bs')
    (hlength : bs.length = bs'.length) (hlimit : volume bs' ≤ limit)
    (h : ∀ is, Inside bs is → position bs is ≤ limit → Inside bs' is ∧ position bs is = position bs'
      is) : Fits bs bs' := by
  induction bs generalizing bs' with
  | nil =>
    cases bs' with
    | nil => trivial
    | cons b' bs' => cases hlength
  | cons b bs ih =>
    cases bs' with
    | nil => cases hlength
    | cons b' bs' =>
      have hb := hsolid.head
      have hb' := hsolid'.head
      have hpos := volume_pos hsolid.tail
      have hpos' := volume_pos hsolid'.tail
      obtain ⟨hin₀, hzero⟩ := inside_first hsolid.tail
      rw [volume_cons] at hlimit
      have htail : volume bs' ≤ limit := by
        have hone : 1 * volume bs' ≤ extent b' * volume bs' :=
          Int.mul_le_mul_of_nonneg_right (by unfold extent; omega) (by omega)
        omega
      -- the first place of all
      have hfirst : b.1 = b'.1 := by
        obtain ⟨hinside, heq⟩ := h (b.1 :: bs.map Prod.fst) (.cons ⟨Int.le_refl _, hb⟩ hin₀) (by
          rw [position, hzero, Int.sub_self, Int.zero_mul]
          omega)
        cases hinside with
        | cons hi hinside =>
          rw [position, position, hzero, Int.sub_self, Int.zero_mul, Int.add_zero] at heq
          have hnonneg := (position_lt hinside).1
          by_contra hne
          have hmore : 1 * volume bs' ≤ (b.1 - b'.1) * volume bs' :=
            Int.mul_le_mul_of_nonneg_right (by omega) (by omega)
          omega
      have hrest : Fits bs bs' := by
        refine ih hsolid.tail hsolid'.tail (Nat.succ_inj.mp hlength) htail fun is hin hle => ?_
        obtain ⟨hinside, heq⟩ := h (b.1 :: is) (.cons ⟨Int.le_refl _, hb⟩ hin) (by
          rw [position, Int.sub_self, Int.zero_mul, Int.zero_add]
          exact hle)
        rw [position, position, ← hfirst, Int.sub_self, Int.zero_mul, Int.zero_mul, Int.zero_add,
          Int.zero_add] at heq
        cases hinside with
        | cons hi hinside => exact ⟨hinside, heq⟩
      have hvolume := hrest.volume_le hsolid.tail
      -- the first place behind the other frame
      have hlast : b.2 ≤ b'.2 := by
        by_contra hbeyond
        have hplace : position (b :: bs) ((b'.2 + 1) :: bs.map Prod.fst) =
            extent b' * volume bs := by
          rw [position, hzero, Int.add_zero, hfirst]
          unfold extent
          congr 1
          omega
        obtain ⟨hinside, -⟩ := h ((b'.2 + 1) :: bs.map Prod.fst) (.cons ⟨by omega, by omega⟩ hin₀)
          (by
            rw [hplace]
            exact Int.le_trans
              (Int.mul_le_mul_of_nonneg_left hvolume (by unfold extent; omega)) hlimit)
        cases hinside with
        | cons hi hinside => omega
      refine ⟨hfirst, hlast, fun hmany => ?_, hrest⟩
      -- the second row
      have hplace : position (b :: bs) ((b.1 + 1) :: bs.map Prod.fst) = volume bs := by
        rw [position, hzero, Int.add_zero, add_sub_cancel_left, Int.one_mul]
      obtain ⟨hinside, heq⟩ := h ((b.1 + 1) :: bs.map Prod.fst) (.cons ⟨by omega, by omega⟩ hin₀)
        (by
          rw [hplace]
          omega)
      have heq' : position bs' (bs.map Prod.fst) = 0 := by
        rw [← (hrest.position hin₀).2, hzero]
      rw [hplace, position, heq', hfirst, add_sub_cancel_left, Int.one_mul, Int.add_zero] at heq
      exact heq

variable {js : List Int}

theorem position_append (h : Inside bs is) :
    position (bs ++ bs') (is ++ js) = position bs is * volume bs' + position bs' js := by
  induction h with
  | nil => simp [position]
  | @cons b i bs is _ _ ih =>
    rw [cons_append, cons_append, position, position, ih, volume, map_append,
      prod_append]
    unfold volume
    ring

theorem inside_append (h : bs.length = is.length) :
    Inside (bs ++ bs') (is ++ js) ↔ Inside bs is ∧ Inside bs' js := by
  induction bs generalizing is with
  | nil =>
    cases is with
    | nil => exact ⟨fun h => ⟨.nil, h⟩, And.right⟩
    | cons => cases h
  | cons b bs ih =>
    cases is with
    | nil => cases h
    | cons i is =>
      have hrest := ih (Nat.succ.inj h)
      unfold Inside at *
      rw [cons_append, cons_append, forall₂_cons, forall₂_cons, hrest]
      exact and_assoc.symm

/-- every place below the volume is that of one tuple -/
theorem existsUnique_position (h : Solid bs) {m : Int} (h0 : 0 ≤ m) (hm : m < volume bs) :
    ∃! is, Inside bs is ∧ position bs is = m := by
  induction bs generalizing m with
  | nil =>
    have hzero : m = 0 := by
      rw [volume, map_nil, prod_nil] at hm
      omega
    refine ⟨[], ⟨.nil, hzero.symm⟩, fun is his => ?_⟩
    cases his.1
    rfl
  | cons b bs ih =>
    have hvolume := volume_pos h.tail
    have hdiv := Int.mul_ediv_add_emod m (volume bs)
    obtain ⟨is, ⟨hin, hpos⟩, hunique⟩ :=
      ih h.tail (Int.emod_nonneg m hvolume.ne') (Int.emod_lt_of_pos m hvolume)
    rw [volume_cons, extent] at hm
    have hlow := Int.ediv_nonneg h0 hvolume.le
    have hhigh := Int.ediv_lt_of_lt_mul hvolume hm
    refine ⟨(b.1 + m / volume bs) :: is, ⟨.cons ⟨by omega, by omega⟩ hin, ?_⟩, ?_⟩
    · rw [position, hpos, add_sub_cancel_left, Int.mul_comm, hdiv]
    · rintro is' ⟨hin', hpos'⟩
      cases hin' with
      | @cons _ i _ is' hi hin' =>
        obtain ⟨hnonneg, hlt⟩ := position_lt hin'
        rw [position] at hpos'
        have hrow : m / volume bs = i - b.1 ∧ m % volume bs = position bs is' := by
          rw [Int.ediv_emod_unique hvolume]
          exact ⟨by rw [Int.mul_comm]; omega, hnonneg, hlt⟩
        rw [hunique is' ⟨hin', hrow.2.symm⟩, hrow.1, add_sub_cancel]

end RowMajor
