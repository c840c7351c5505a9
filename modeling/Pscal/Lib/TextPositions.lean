import Mathlib

/-!
# Places in a text, and spans of it

* `drop_takeWhile`  what is behind the characters that have a property;
* `lineOf`, `columnOf`  the line and the column of a place, both counted from 1;
* `lineOf_succ`, `columnOf_succ`  what one more character does to them;
* `Tiled gap p l q`  the spans `l` between the places `p` and `q`, one behind the other, with a gap
  before each;
* `Tiled.ordered`  they are in order and disjoint.
-/

namespace TextPositions

open List

section
variable {α : Type} (p : α → Bool) (l : List α)

theorem take_takeWhile : l.take (l.takeWhile p).length = l.takeWhile p :=
  (prefix_iff_eq_take.mp ( takeWhile_prefix p)).symm

theorem drop_takeWhile : l.drop (l.takeWhile p).length = l.dropWhile p := by
  calc l.drop (l.takeWhile p).length
      = (l.takeWhile p ++ l.dropWhile p).drop (l.takeWhile p).length := by
        rw [takeWhile_append_dropWhile]
    _ = l.dropWhile p := drop_left

theorem not_of_getElem?_takeWhile {c : α} (hc : l[(l.takeWhile p).length]? = some c) :
    p c = false := by
  have hhead := head?_dropWhile_not p l
  rw [← drop_takeWhile, head?_drop, hc] at hhead
  exact hhead

end

section
variable {α : Type} [DecidableEq α] (eol : α)

def lineOf (text : List α) (i : Nat) : Nat := 1 + (text.take i).count eol

/-- the columns of the first line are counted from the place `base` on -/
def columnOf (base : Nat) (text : List α) (i : Nat) : Nat :=
  1 + (((text.take i).drop base).reverse.takeWhile (· ≠ eol)).length

theorem lineOf_succ {text : List α} {i : Nat} {c : α} (hc : text[i]? = some c) :
    lineOf eol text (i + 1) = lineOf eol text i + if c = eol then 1 else 0 := by
  obtain ⟨hi, rfl⟩ := List.getElem?_eq_some_iff.mp hc
  rw [lineOf, lineOf, take_succ_eq_append_getElem hi, count_append, count_singleton, Nat.add_assoc]
  simp only [beq_iff_eq]

theorem columnOf_succ {base : Nat} {text : List α} {i : Nat} {c : α} (hc : text[i]? = some c)
    (hbase : base ≤ i) :
    columnOf eol base text (i + 1) = if c = eol then 1 else columnOf eol base text i + 1 := by
  obtain ⟨hi, rfl⟩ := List.getElem?_eq_some_iff.mp hc
  have hlen : base ≤ (text.take i).length := by
    rw [length_take]
    omega
  rw [columnOf, columnOf, take_succ_eq_append_getElem hi, drop_append_of_le_length hlen,
    reverse_append, reverse_singleton, singleton_append]
  by_cases heol : text[i] = eol
  · rw [if_pos heol, takeWhile_cons_of_neg (by simpa using heol)]
    rfl
  · rw [if_neg heol, takeWhile_cons_of_pos (by simpa using heol), length_cons]
    omega

end

/-! ## spans -/

section
variable {gap : Nat → Nat → Prop}

inductive Tiled (gap : Nat → Nat → Prop) : Nat → List (Nat × Nat) → Nat → Prop where
  | nil (p : Nat) : Tiled gap p [] p
  | cons {p s e q : Nat} {l : List (Nat × Nat)} (hgap : gap p s) (hle : p ≤ s) (hlt : s < e)
      (h : Tiled gap e l q) : Tiled gap p ((s, e) :: l) q

variable {l : List (Nat × Nat)} {p q : Nat}

theorem Tiled.le (h : Tiled gap p l q) : p ≤ q := by
  induction h with
  | nil => exact Nat.le_refl _
  | cons _ hle hlt _ ih => omega

theorem Tiled.mem (h : Tiled gap p l q) {x : Nat × Nat} (hx : x ∈ l) :
    p ≤ x.1 ∧ x.1 < x.2 ∧ x.2 ≤ q := by
  induction h with
  | nil => exact absurd hx not_mem_nil
  | cons _ hle hlt h ih =>
    rcases mem_cons.mp hx with rfl | hx
    · exact ⟨hle, hlt, h.le⟩
    · obtain ⟨hp, hrest⟩ := ih hx
      exact ⟨by omega, hrest⟩

theorem Tiled.ordered (h : Tiled gap p l q) : l.Pairwise fun x y => x.2 ≤ y.1 := by
  induction h with
  | nil => exact .nil
  | cons _ _ _ h ih => exact .cons (fun y hy => (h.mem hy).1) ih

end

end TextPositions
