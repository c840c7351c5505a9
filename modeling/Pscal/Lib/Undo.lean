import Mathlib

/-!
# Undoing changes of keyed state

A state with a cell for each key.  Changes are made one after the other, each to one key, and
each leaves a record; afterwards the records are undone in any order, here the order of the
changes.  What is seen of a cell may be less than the cell.

* `Touches cell k s s'`  only the cell of `k` differs;
* `Undoes`  the record undoes its change, wherever the cell is as the change left it;
* `Changes`  changes to keys that are pairwise distinct, with their records;
* `Changes.undone`  undoing all records shows every cell as it was.
-/

namespace Undo

open List

section
variable {σ κ β γ ρ : Type} (cell : σ → κ → β) (view : β → γ) (undo : ρ → σ → σ) (Side : σ → Prop)

def Touches (k : κ) (s s' : σ) : Prop := ∀ j, j ≠ k → cell s' j = cell s j

def Undoes (k : κ) (r : ρ) (s s' : σ) : Prop :=
  ∀ u, Side u → cell u k = cell s' k →
    Side (undo r u) ∧ Touches cell k u (undo r u) ∧ view (cell (undo r u) k) = view (cell s k)

inductive Changes : σ → List (κ × ρ) → σ → Prop where
  | nil (s : σ) : Changes s [] s
  /-- a step that changes nothing and leaves no record -/
  | skip {s s' t : σ} {l : List (κ × ρ)} (hsame : ∀ j, cell s' j = cell s j) (h : Changes s' l t) :
      Changes s l t
  | step {s s' t : σ} {k : κ} {r : ρ} {l : List (κ × ρ)} (htouch : Touches cell k s s')
      (hundo : Undoes cell view undo Side k r s s') (hnew : k ∉ l.map Prod.fst)
      (h : Changes s' l t) : Changes s ((k, r) :: l) t

end

section
variable {σ κ β γ ρ : Type} {cell : σ → κ → β} {view : β → γ} {undo : ρ → σ → σ} {Side : σ → Prop}
  {s t : σ} {l : List (κ × ρ)}

theorem Changes.frame (h : Changes cell view undo Side s l t) {j : κ} (hj : j ∉ l.map Prod.fst) :
    cell t j = cell s j := by
  induction h with
  | nil => rfl
  | skip hsame _ ih => rw [ih hj, hsame]
  | step htouch _ _ _ ih =>
    rw [map_cons, mem_cons, not_or] at hj
    rw [ih hj.2, htouch j hj.1]

theorem Changes.undo_cells (h : Changes cell view undo Side s l t) {u : σ} (hside : Side u)
    (hu : ∀ k ∈ l.map Prod.fst, cell u k = cell t k) :
    Side ((l.map Prod.snd).foldl (fun u r => undo r u) u) ∧
      (∀ j ∉ l.map Prod.fst, cell ((l.map Prod.snd).foldl (fun u r => undo r u) u) j = cell u j) ∧
      ∀ k ∈ l.map Prod.fst,
        view (cell ((l.map Prod.snd).foldl (fun u r => undo r u) u) k) = view (cell s k) := by
  induction h generalizing u with
  | nil => exact ⟨hside, fun _ _ => rfl, fun k hk => absurd hk not_mem_nil⟩
  | skip hsame _ ih =>
    obtain ⟨hside, hother, hview⟩ := ih hside hu
    exact ⟨hside, hother, fun k hk => by rw [hview k hk, hsame]⟩
  | @step s s' t k r l htouch hundo hnew h ih =>
    have hk : cell u k = cell s' k := by
      rw [hu k mem_cons_self]
      exact h.frame hnew
    obtain ⟨hside, hutouch, huview⟩ := hundo u hside hk
    have hne {j : κ} (hj : j ∈ l.map Prod.fst) : j ≠ k := fun he => hnew (he ▸ hj)
    obtain ⟨hside, hother, hview⟩ := ih hside fun j hj => by
      rw [hutouch j (hne hj), hu j (mem_cons_of_mem _ hj)]
    rw [map_cons, map_cons, foldl_cons]
    refine ⟨hside, fun j hj => ?_, fun j hj => ?_⟩
    · rw [mem_cons, not_or] at hj
      rw [hother j hj.2, hutouch j hj.1]
    · rcases mem_cons.mp hj with rfl | hj
      · rw [hother _ hnew, huview]
      · rw [hview j hj, htouch j (hne hj)]

theorem Changes.undone (h : Changes cell view undo Side s l t) {u : σ} (hside : Side u)
    (hu : ∀ k, cell u k = cell t k) (k : κ) :
    view (cell ((l.map Prod.snd).foldl (fun u r => undo r u) u) k) = view (cell s k) := by
  obtain ⟨-, hother, hview⟩ := h.undo_cells hside fun k _ => hu k
  by_cases hk : k ∈ l.map Prod.fst
  · exact hview k hk
  · rw [hother k hk, hu, h.frame hk]

end

end Undo
