import Mathlib

/-!
# Counting the entries of a table

* `count p f`  how many entries of the table `f` satisfy `p`;
* `count_update`  one entry is replaced;
* `Tally p f n`  `n` entries of a table of any size satisfy `p`, and `Tally.enter`, `Tally.leave`,
  `Tally.stay` for one that is replaced.
-/

namespace Counting

open Function

variable {ι α : Type} [Fintype ι] (p : α → Prop) [DecidablePred p]

def count (f : ι → α) : Nat := (Finset.univ.filter fun i => p (f i)).card

variable {p}

theorem count_congr {f g : ι → α} (h : ∀ i, p (f i) ↔ p (g i)) : count p f = count p g := by
  rw [count, count, Finset.filter_congr fun i _ => h i]

theorem count_eq_zero {f : ι → α} : count p f = 0 ↔ ∀ i, ¬p (f i) := by
  rw [count, Finset.card_eq_zero, Finset.filter_eq_empty_iff]
  exact ⟨fun h i => h (Finset.mem_univ i), fun h i _ => h i⟩

variable [DecidableEq ι]

theorem count_update (f : ι → α) (i : ι) (a : α) :
    count p (update f i a) + (if p (f i) then 1 else 0) =
      count p f + (if p a then 1 else 0) := by
  have hmem := Finset.mem_univ i
  have hcomp : (fun j => if p (update f i a j) then 1 else 0) =
      update (fun j => if p (f j) then 1 else 0) i (if p a then 1 else 0) := by
    funext j
    by_cases h : j = i
    · subst h
      rw [update_self, update_self]
    · rw [update_of_ne h, update_of_ne h]
  rw [count, count, Finset.card_filter, Finset.card_filter, hcomp,
    Finset.sum_update_of_mem hmem, Finset.sdiff_singleton_eq_erase,
    ← Finset.add_sum_erase _ (fun j => if p (f j) then 1 else 0) hmem]
  omega

theorem count_update_same {f : ι → α} {i : ι} {a : α} (h : p a ↔ p (f i)) :
    count p (update f i a) = count p f := by
  have hcount := count_update (p := p) f i a
  simp only [h] at hcount
  omega

/-! ## tables of any size -/

section
variable {ι : Type} {p : α → Prop} {f : ι → α} {n : Nat}

def Tally (p : α → Prop) (f : ι → α) (n : Nat) : Prop :=
  ∃ S : Finset ι, (∀ i, i ∈ S ↔ p (f i)) ∧ S.card = n

theorem Tally.of_none (h : ∀ i, ¬p (f i)) : Tally p f 0 :=
  ⟨∅, fun i => ⟨fun hi => absurd hi (Finset.notMem_empty i), fun hi => absurd hi (h i)⟩, rfl⟩

theorem Tally.none (h : Tally p f 0) (i : ι) : ¬p (f i) := by
  obtain ⟨S, hS, hcard⟩ := h
  rw [Finset.card_eq_zero] at hcard
  rw [← hS, hcard]
  exact Finset.notMem_empty i

theorem Tally.eq_zero (h : Tally p f n) (hnone : ∀ i, ¬p (f i)) : n = 0 := by
  obtain ⟨S, hS, rfl⟩ := h
  rw [Finset.card_eq_zero, Finset.eq_empty_iff_forall_notMem]
  exact fun i hi => hnone i ((hS i).mp hi)

theorem Tally.one (h : Tally p f 1) : ∃ i, p (f i) ∧ ∀ j, p (f j) → j = i := by
  obtain ⟨S, hS, hcard⟩ := h
  obtain ⟨i, rfl⟩ := Finset.card_eq_one.mp hcard
  refine ⟨i, (hS i).mp (Finset.mem_singleton_self i), fun j hj => ?_⟩
  exact Finset.mem_singleton.mp ((hS j).mpr hj)

theorem Tally.pos (h : Tally p f n) {i : ι} (hi : p (f i)) : 0 < n := by
  obtain ⟨S, hS, rfl⟩ := h
  exact Finset.card_pos.mpr ⟨i, (hS i).mpr hi⟩

variable [DecidableEq ι] {i : ι} {a : α}

theorem Tally.stay (h : Tally p f n) (ha : p a ↔ p (f i)) : Tally p (update f i a) n := by
  obtain ⟨S, hS, hcard⟩ := h
  refine ⟨S, fun j => ?_, hcard⟩
  by_cases hj : j = i
  · rw [hj, update_self, ha]
    exact hS i
  · rw [update_of_ne hj]
    exact hS j

theorem Tally.enter (h : Tally p f n) (hi : ¬p (f i)) (ha : p a) :
    Tally p (update f i a) (n + 1) := by
  obtain ⟨S, hS, rfl⟩ := h
  refine ⟨insert i S, fun j => ?_, Finset.card_insert_of_notMem fun hmem => hi ((hS i).mp hmem)⟩
  rw [Finset.mem_insert]
  by_cases hj : j = i
  · rw [hj, update_self]
    exact ⟨fun _ => ha, fun _ => .inl rfl⟩
  · rw [update_of_ne hj, ← hS]
    exact ⟨fun h => h.resolve_left hj, .inr⟩

theorem Tally.leave (h : Tally p f n) (hi : p (f i)) (ha : ¬p a) :
    Tally p (update f i a) (n - 1) := by
  obtain ⟨S, hS, rfl⟩ := h
  refine ⟨S.erase i, fun j => ?_, Finset.card_erase_of_mem ((hS i).mpr hi)⟩
  rw [Finset.mem_erase]
  by_cases hj : j = i
  · rw [hj, update_self]
    exact ⟨fun h => absurd rfl h.1, fun h => absurd h ha⟩
  · rw [update_of_ne hj, ← hS]
    exact ⟨fun h => h.2, fun h => ⟨hj, h⟩⟩

end

end Counting
