import Mathlib

/-!
# Insertion sort from the right

Each element is moved to the left past the elements with a greater index.

* `insert`, `sort`  the step and the loop;
* `perm_sort`, `sorted_sort`  the elements stay, and their indices ascend.
-/

namespace RightInsertion

open List

section
variable {α : Type} (index : α → Nat)

def insert (l : List α) (x : α) : List α :=
  l.rdropWhile (fun y => index x < index y) ++ x :: l.rtakeWhile fun y => index x < index y

def sort (l : List α) : List α := l.foldl (insert index) []

theorem perm_insert (l : List α) (x : α) : (insert index l x).Perm (l ++ [x]) := by
  have hsplit : l = l.rdropWhile (fun y => index x < index y) ++
      l.rtakeWhile fun y => index x < index y := rdropWhile_append_rtakeWhile.symm
  have hmoved : (insert index l x).Perm (x :: (l.rdropWhile (fun y => index x < index y) ++
      l.rtakeWhile fun y => index x < index y)) := perm_middle
  rw [← hsplit] at hmoved
  exact hmoved.trans (perm_append_singleton x l).symm

theorem perm_foldl (l sorted : List α) : (l.foldl (insert index) sorted).Perm (sorted ++ l) := by
  induction l generalizing sorted with
  | nil =>
    rw [append_nil]
    exact List.Perm.refl _
  | cons x l ih =>
    have hstep := (ih (insert index sorted x)).trans ((perm_insert index sorted x).append_right l)
    rwa [append_assoc] at hstep

theorem perm_sort (l : List α) : (sort index l).Perm l := perm_foldl index l []

variable {index}

theorem le_of_mem_rdropWhile {l : List α} (h : l.Pairwise fun a b => index a ≤ index b) {x y : α}
    (hy : y ∈ l.rdropWhile fun y => index x < index y) : index y ≤ index x := by
  have hne : (l.rdropWhile fun y => index x < index y) ≠ [] := ne_nil_of_mem hy
  have hlast := rdropWhile_last_not (fun y => decide (index x < index y)) l hne
  rw [decide_eq_true_eq, Nat.not_lt] at hlast
  have hsorted := h.sublist ( rdropWhile_prefix (fun y => decide (index x < index y)) l).sublist
  rw [← dropLast_append_getLast hne] at hsorted hy
  rcases mem_append.mp hy with hfront | hend
  · exact Nat.le_trans ((pairwise_append.mp hsorted).2.2 y hfront _ (mem_singleton.mpr rfl)) hlast
  · rw [mem_singleton.mp hend]
    exact hlast

theorem sorted_insert {l : List α} (h : l.Pairwise fun a b => index a ≤ index b) (x : α) :
    (insert index l x).Pairwise fun a b => index a ≤ index b := by
  have hsplit := h
  rw [← @rdropWhile_append_rtakeWhile _ (fun y => decide (index x < index y)) l] at hsplit
  obtain ⟨hfront, hback, hacross⟩ := pairwise_append.mp hsplit
  have hgreater : ∀ y ∈ l.rtakeWhile fun y => index x < index y, index x ≤ index y := by
    intro y hy
    have hlt := mem_rtakeWhile_imp hy
    exact Nat.le_of_lt (of_decide_eq_true hlt)
  refine pairwise_append.mpr ⟨hfront, pairwise_cons.mpr ⟨hgreater, hback⟩, ?_⟩
  intro a ha b hb
  rcases mem_cons.mp hb with rfl | hb
  · exact le_of_mem_rdropWhile h ha
  · exact hacross a ha b hb

theorem sorted_sort (l : List α) : (sort index l).Pairwise fun a b => index a ≤ index b := by
  have hloop : ∀ sorted : List α, (sorted.Pairwise fun a b => index a ≤ index b) →
      (l.foldl (insert index) sorted).Pairwise fun a b => index a ≤ index b := by
    induction l with
    | nil => exact fun sorted hs => hs
    | cons x l ih => exact fun sorted hs => ih _ (sorted_insert hs x)
  exact hloop [] List.Pairwise.nil

end

end RightInsertion
