import Mathlib

/-!
# Loops over lists

A loop keeps what each of its steps keeps, and after the step that establishes it the rest of
the loop keeps it.

* `foldl_keeps`, `foldl_establishes`  for loops that end;
* `foldlM_keeps`, `foldlM_establishes`  for loops that may fail.
-/

namespace Folds

open List Option

variable {α β : Type*} {P : β → Prop}

variable {b : β} {l : List α}

theorem foldl_keeps {f : β → α → β} (hkeep : ∀ a ∈ l, ∀ b, P b → P (f b a)) (hb : P b) :
    P (l.foldl f b) :=
  l.foldlRecOn f hb fun b hb a ha => hkeep a ha b hb

theorem foldl_establishes {f : β → α → β} (hkeep : ∀ a ∈ l, ∀ b, P b → P (f b a)) {a : α}
    (ha : a ∈ l) (hest : ∀ b, P (f b a)) (b : β) : P (l.foldl f b) := by
  obtain ⟨l₁, l₂, rfl⟩ := append_of_mem ha
  rw [foldl_append, foldl_cons]
  refine foldl_keeps (fun a' ha' => hkeep a' ?_) (hest _)
  exact mem_append_right _ (mem_cons_of_mem _ ha')

theorem foldlM_keeps {f : β → α → Option β} (hkeep : ∀ a ∈ l, ∀ b b', f b a = some b' → P b → P b')
    {b' : β} (h : l.foldlM f b = some b') (hb : P b) : P b' := by
  induction l generalizing b with
  | nil =>
    cases h
    exact hb
  | cons a l ih =>
    rw [foldlM_cons, bind_eq_bind, bind_eq_some_iff] at h
    obtain ⟨b₁, ha, h⟩ := h
    refine ih (fun a' ha' => hkeep a' (mem_cons_of_mem _ ha')) h ?_
    exact hkeep a mem_cons_self b b₁ ha hb

theorem foldlM_establishes {f : β → α → Option β}
    (hkeep : ∀ a ∈ l, ∀ b b', f b a = some b' → P b → P b') {a : α} (ha : a ∈ l)
    (hest : ∀ b b', f b a = some b' → P b') {b' : β} (h : l.foldlM f b = some b') : P b' := by
  obtain ⟨l₁, l₂, rfl⟩ := append_of_mem ha
  rw [foldlM_append, bind_eq_bind, bind_eq_some_iff] at h
  obtain ⟨b₁, -, h⟩ := h
  rw [foldlM_cons, bind_eq_bind, bind_eq_some_iff] at h
  obtain ⟨b₂, ha, h⟩ := h
  refine foldlM_keeps (fun a' ha' => hkeep a' ?_) h (hest b₁ b₂ ha)
  exact mem_append_right _ (mem_cons_of_mem _ ha')

end Folds
