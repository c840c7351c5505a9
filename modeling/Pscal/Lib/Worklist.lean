import Mathlib

/-!
# Worklist searches

A search keeps a state and a stack of pending items.  It takes the top item, lets `visit`
process it (which may fail, and otherwise gives the new state and the items to look at next),
and stops when nothing is pending.  The stack has room for `cap` items: what does not fit is
dropped.

* `run_invariant`  what every visit preserves holds when the search ends;
* `run_isSome`  the search ends within the fuel a potential gives;
* `Rounds`  a search that is under way.

The lemmas rest on one potential `μ`: a visit that hands out `n` items lowers it by at
least `n`, so a stack that fits `w.length + μ s` items never drops one.
-/

namespace Worklist

open List

variable {σ α ε : Type*}

/-- push an item, unless the stack is full -/
def push (cap : Nat) (w : List α) (x : α) : List α := if w.length < cap then x :: w else w

/-- push the items one after the other: the last one ends on top -/
def pushAll (cap : Nat) (w xs : List α) : List α := xs.foldl (push cap) w

/-- the search; `none` when the fuel runs out -/
def run (cap : Nat) (visit : σ → α → Except ε (σ × List α)) :
    Nat → σ → List α → Option (Except ε σ)
  | _, s, [] => some (.ok s)
  | 0, _, _ :: _ => none
  | fuel + 1, s, x :: w =>
    match visit s x with
    | .error e => some (.error e)
    | .ok (s', ys) => run cap visit fuel s' (pushAll cap w ys)

/-- The search from `s₀` and `w₀` on has come to `s` and `w`; the log has the items that it took,
each with the state it found. -/
inductive Rounds (cap : Nat) (visit : σ → α → Except ε (σ × List α)) (s₀ : σ) (w₀ : List α) :
    List (σ × α) → σ → List α → Prop where
  | start : Rounds cap visit s₀ w₀ [] s₀ w₀
  | round {log : List (σ × α)} {s s' : σ} {x : α} {w ys : List α}
      (before : Rounds cap visit s₀ w₀ log s (x :: w)) (hv : visit s x = .ok (s', ys)) :
      Rounds cap visit s₀ w₀ (log ++ [(s, x)]) s' (pushAll cap w ys)

theorem pushAll_eq (cap : Nat) (w xs : List α) (h : w.length + xs.length ≤ cap) :
    pushAll cap w xs = xs.reverse ++ w := by
  induction xs generalizing w with
  | nil => rfl
  | cons x xs ih =>
    rw [length_cons] at h
    have hlt : w.length < cap := by omega
    show pushAll cap (push cap w x) xs = _
    have hpush : push cap w x = x :: w := if_pos hlt
    rw [hpush, ih (x :: w) (by rw [length_cons]; omega)]
    simp

section
variable (cap : Nat) (visit : σ → α → Except ε (σ × List α))
variable (P : σ → List α → Prop) (μ : σ → Nat)
  (hstep : ∀ s x w s' ys, P s (x :: w) → visit s x = .ok (s', ys) →
    ys.length + μ s' ≤ μ s ∧ P s' (ys.reverse ++ w))
include hstep

theorem visit_step {s s' : σ} {x : α} {w ys : List α} (hP : P s (x :: w))
    (hμ : (x :: w).length + μ s ≤ cap) (hv : visit s x = .ok (s', ys)) : P s' (pushAll cap w ys) ∧
      (pushAll cap w ys).length + μ s' + 1 ≤ (x :: w).length + μ s := by
  obtain ⟨hle, hP'⟩ := hstep s x w s' ys hP hv
  rw [length_cons] at hμ ⊢
  have heq : pushAll cap w ys = ys.reverse ++ w := pushAll_eq cap w ys (by omega)
  rw [heq, length_append, length_reverse]
  exact ⟨hP', by omega⟩

/-- Each round uses up some of the potential. -/
theorem Rounds.invariant {s₀ s : σ} {w₀ w : List α} {log : List (σ × α)}
    (h : Rounds cap visit s₀ w₀ log s w) (hP : P s₀ w₀) (hμ : w₀.length + μ s₀ ≤ cap) :
    P s w ∧ log.length + w.length + μ s ≤ cap := by
  induction h with
  | start => exact ⟨hP, by rw [length_nil]; omega⟩
  | round before hv ih =>
    obtain ⟨hP, hle⟩ := ih
    obtain ⟨hP', hle'⟩ := visit_step cap visit P μ hstep hP (by omega) hv
    refine ⟨hP', ?_⟩
    rw [length_append, length_singleton]
    omega

theorem run_invariant (fuel : Nat) (s s' : σ) (w : List α) (hP : P s w)
    (hμ : w.length + μ s ≤ cap) (h : run cap visit fuel s w = some (.ok s')) : P s' [] := by
  induction fuel generalizing s w with
  | zero =>
    cases w with
    | nil =>
      have e : s = s' := by simpa [run] using h
      rwa [← e]
    | cons x w => simp [run] at h
  | succ fuel ih =>
    cases w with
    | nil =>
      have e : s = s' := by simpa [run] using h
      rwa [← e]
    | cons x w =>
      rw [run] at h
      cases hv : visit s x with
      | error e => rw [hv] at h; simp at h
      | ok p =>
        obtain ⟨s₁, ys⟩ := p
        rw [hv] at h
        obtain ⟨hP', hμ'⟩ := visit_step cap visit P μ hstep hP hμ hv
        exact ih s₁ _ hP' (by omega) h

theorem run_isSome (fuel : Nat) (s : σ) (w : List α) (hP : P s w)
    (hμ : w.length + μ s ≤ cap) (hfuel : w.length + μ s ≤ fuel) :
    ∃ r, run cap visit fuel s w = some r := by
  induction fuel generalizing s w with
  | zero =>
    cases w with
    | nil => exact ⟨_, rfl⟩
    | cons x w => rw [length_cons] at hfuel; omega
  | succ fuel ih =>
    cases w with
    | nil => exact ⟨_, rfl⟩
    | cons x w =>
      rw [run]
      cases hv : visit s x with
      | error e => exact ⟨_, rfl⟩
      | ok p =>
        obtain ⟨s₁, ys⟩ := p
        obtain ⟨hP', hμ'⟩ := visit_step cap visit P μ hstep hP hμ hv
        exact ih s₁ _ hP' (by omega) (by omega)

end

/-! ## exploration -/

/-- every successor of a seen item is seen or pending -/
def Explored (seen : α → Prop) (next : α → α → Prop) (w : List α) : Prop :=
  ∀ x, seen x → ∀ y, next x y → seen y ∨ y ∈ w

end Worklist
