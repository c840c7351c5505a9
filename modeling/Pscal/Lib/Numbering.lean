import Mathlib

/-!
# Numberings by lists

A list numbers its elements: each gets its index.  Several lists may number the same element one
after the other.

* `writeIndices l v`  the numbers after `l` has numbered its elements;
* `Agree l l'`  the two lists number what they share alike;
* `Follows log v`  `v` has the number that each list of the log gives.
-/

namespace Numbering

open List Function

variable {α σ : Type*}

def Agree (l l' : List α) : Prop :=
  ∀ (k k' : Nat) (a : α), l[k]? = some a → l'[k']? = some a → k = k'

def Consistent (log : List (List α)) : Prop := ∀ l ∈ log, ∀ l' ∈ log, Agree l l'

/-- some list of the log gives the element this number -/
def NumberedAt (log : List (List α)) (a : α) (k : Nat) : Prop := ∃ l ∈ log, l[k]? = some a

variable {a : α} {k : Nat} {log : List (List α)} {l : List α}

theorem Consistent.unique (h : Consistent log) {k' : Nat} (hk : NumberedAt log a k)
    (hk' : NumberedAt log a k') : k = k' := by
  obtain ⟨l, hl, hk⟩ := hk
  obtain ⟨l', hl', hk'⟩ := hk'
  exact h l hl l' hl' k k' a hk hk'

theorem Consistent.mono {log' : List (List α)} (h : Consistent log') (hsub : log ⊆ log') :
    Consistent log :=
  fun l hl l' hl' => h l (hsub hl) l' (hsub hl')

theorem NumberedAt.mono {log' : List (List α)} (h : NumberedAt log a k) (hsub : log ⊆ log') :
    NumberedAt log' a k := by
  obtain ⟨l, hl, hk⟩ := h
  exact ⟨l, hsub hl, hk⟩

def Follows (log : List (List α)) (v : α → Int) : Prop := ∀ a k, NumberedAt log a k → v a = k

theorem follows_nil (v : α → Int) : Follows [] v := by
  rintro a k ⟨l, hl, -⟩
  cases hl

variable [DecidableEq α]

theorem consistent_of_idxOf (hnodup : ∀ l ∈ log, l.Nodup)
    (h : ∀ l ∈ log, ∀ l' ∈ log, ∀ a ∈ l, a ∈ l' → l.idxOf a = l'.idxOf a) : Consistent log := by
  intro l hl l' hl' k k' a hk hk'
  obtain ⟨hlt, rfl⟩ := List.getElem?_eq_some_iff.mp hk
  obtain ⟨hlt', heq⟩ := List.getElem?_eq_some_iff.mp hk'
  have hidx := h l hl l' hl' _ (getElem_mem hlt) (heq ▸ getElem_mem hlt')
  rw [(hnodup l hl).idxOf_getElem k hlt, ← heq, (hnodup l' hl').idxOf_getElem k' hlt'] at hidx
  exact hidx

/-- the elements from the index `n` on -/
def writeFrom (n : Nat) : List α → (α → Int) → α → Int
  | [], v => v
  | a :: l, v => writeFrom (n + 1) l (Function.update v a n)

def writeIndices (l : List α) (v : α → Int) : α → Int := writeFrom 0 l v

theorem writeFrom_of_notMem (h : a ∉ l) (n : Nat) (v : α → Int) : writeFrom n l v a = v a := by
  induction l generalizing n v with
  | nil => rfl
  | cons b l ih =>
    rw [mem_cons, not_or] at h
    rw [writeFrom, ih h.2, update_of_ne h.1]

theorem writeFrom_get (hl : l.Nodup) (n : Nat) (v : α → Int) (h : l[k]? = some a) :
    writeFrom n l v a = (n + k : Nat) := by
  induction l generalizing n v k with
  | nil => cases h
  | cons b l ih =>
    rw [nodup_cons] at hl
    cases k with
    | zero =>
      cases h
      rw [writeFrom, writeFrom_of_notMem hl.1, update_self, Nat.add_zero]
    | succ k =>
      rw [writeFrom, ih hl.2 (n + 1) _ (by simpa using h)]
      omega

theorem writeIndices_of_notMem (h : a ∉ l) (v : α → Int) : writeIndices l v a = v a :=
  writeFrom_of_notMem h 0 v

theorem writeIndices_get (hl : l.Nodup) (v : α → Int) (h : l[k]? = some a) :
    writeIndices l v a = k := by
  rw [writeIndices, writeFrom_get hl 0 v h, Nat.zero_add]

theorem Follows.write {log : List (List α)} {v : α → Int} (h : Follows log v) {l : List α}
    (hl : l.Nodup) (hlog : Consistent (l :: log)) : Follows (l :: log) (writeIndices l v) := by
  intro a k hk
  by_cases ha : a ∈ l
  · obtain ⟨k', hk'⟩ := mem_iff_getElem?.mp ha
    have heq : k = k' := hlog.unique hk ⟨l, mem_cons_self, hk'⟩
    rw [writeIndices_get hl v hk', heq]
  · rw [writeIndices_of_notMem ha]
    obtain ⟨l', hl', hk⟩ := hk
    rcases mem_cons.mp hl' with rfl | hl'
    · exact absurd (mem_iff_getElem?.mpr ⟨k, hk⟩) ha
    · exact h a k ⟨l', hl', hk⟩

theorem writeFrom_nonneg {v : α → Int} (h : ∀ a, 0 ≤ v a) (n : Nat) (a : α) :
    0 ≤ writeFrom n l v a := by
  induction l generalizing n v with
  | nil => exact h a
  | cons b l ih =>
    refine ih (fun c => ?_) (n + 1)
    rw [update_apply]
    split
    · exact Int.natCast_nonneg n
    · exact h c

theorem foldl_zipIdx_read {γ : Type*} (read : σ → α → Int) (key : γ → α) (f : σ → γ × Nat → σ)
    (hf : ∀ s p, read (f s p) = update (read s) (key p.1) p.2) (l : List γ) (n : Nat)
    (s : σ) : read ((l.zipIdx n).foldl f s) = writeFrom n (l.map key) (read s) := by
  induction l generalizing n s with
  | nil => rfl
  | cons a l ih => rw [zipIdx_cons, foldl_cons, ih, hf, map_cons, writeFrom]

end Numbering
