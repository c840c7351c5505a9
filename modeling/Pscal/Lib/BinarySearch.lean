import Mathlib

/-!
# Binary search

The search of a sorted list with a three-way comparison, and what it finds.

* `search`  halves the list at the element in the middle;
* `search_iff`  it finds a key if and only if the list has one of the same rank.
-/

namespace BinarySearch

open List

variable {α ι : Type}

/-- `compare key a` is negative where the key belongs in front of `a`. -/
def search (compare : α → α → Int) (key : α) (l : List α) : Bool :=
  match h : l.drop (l.length / 2) with
  | [] => false
  | middle :: behind =>
    if compare key middle = 0 then true
    else if compare key middle < 0 then search compare key (l.take (l.length / 2))
    else search compare key behind
termination_by l.length
decreasing_by
  all_goals
    have hlength := congrArg List.length h
    simp only [List.length_drop, List.length_cons, List.length_take] at hlength ⊢
    omega

theorem search_iff [LinearOrder ι] {compare : α → α → Int} {rank : α → ι}
    (heq : ∀ a b, compare a b = 0 ↔ rank a = rank b)
    (hlt : ∀ a b, compare a b < 0 ↔ rank a < rank b) (key : α) {l : List α}
    (h : l.Pairwise fun a b => rank a ≤ rank b) :
    search compare key l = true ↔ ∃ a ∈ l, rank a = rank key := by
  induction hn : l.length using Nat.strongRecOn generalizing l with
  | ind n ih =>
    subst hn
    have hsplit := take_append_drop (l.length / 2) l
    have hshort : (l.take (l.length / 2)).length ≤ l.length / 2 := by simp
    rw [search]
    split
    · rename_i hnil
      have hlength := congrArg List.length hnil
      simp only [length_drop, length_nil] at hlength
      have hl : l = [] := length_eq_zero_iff.mp (by omega)
      simp [hl]
    · rename_i middle behind hdrop
      rw [hdrop] at hsplit
      have hlength := congrArg List.length hsplit
      rw [length_append, length_cons] at hlength
      have hsorted := h
      rw [← hsplit] at hsorted
      obtain ⟨hfront, hrest, hacross⟩ := pairwise_append.mp hsorted
      obtain ⟨hmiddle, hbehind⟩ := pairwise_cons.mp hrest
      have hmem : ∀ a, a ∈ l ↔ a ∈ l.take (l.length / 2) ∨ a = middle ∨ a ∈ behind := by
        intro a
        rw [← mem_cons, ← mem_append, hsplit]
      by_cases hkey : compare key middle = 0
      · rw [if_pos hkey]
        simp only [true_iff]
        exact ⟨middle, (hmem middle).mpr (by simp), ((heq key middle).mp hkey).symm⟩
      rw [if_neg hkey]
      have hne : rank key ≠ rank middle := fun e => hkey ((heq key middle).mpr e)
      by_cases hless : compare key middle < 0
      · rw [if_pos hless, ih _ (by omega) hfront rfl]
        -- from the middle on the ranks are above the key's
        have hrank := (hlt key middle).mp hless
        constructor
        · rintro ⟨a, ha, hak⟩
          exact ⟨a, (hmem a).mpr (Or.inl ha), hak⟩
        · rintro ⟨a, ha, hak⟩
          rcases (hmem a).mp ha with ha | rfl | ha
          · exact ⟨a, ha, hak⟩
          · exact absurd hak.symm hne
          · exact absurd (hmiddle a ha) (not_le.mpr (hak ▸ hrank))
      · rw [if_neg hless, ih _ (by omega) hbehind rfl]
        -- up to the middle they are below it
        have hrank : rank middle < rank key :=
          lt_of_le_of_ne (not_lt.mp fun e => hless ((hlt key middle).mpr e)) (Ne.symm hne)
        constructor
        · rintro ⟨a, ha, hak⟩
          exact ⟨a, (hmem a).mpr (Or.inr (Or.inr ha)), hak⟩
        · rintro ⟨a, ha, hak⟩
          rcases (hmem a).mp ha with ha | rfl | ha
          · exact absurd (hacross a ha middle mem_cons_self) (not_le.mpr (hak ▸ hrank))
          · exact absurd hak.symm hne
          · exact ⟨a, ha, hak⟩

end BinarySearch
