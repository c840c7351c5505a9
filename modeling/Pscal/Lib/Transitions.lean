import Mathlib

/-!
# Runs of a labelled transition system

* `Run step s₀ tr s`  a run from `s₀` to `s`, with the labels of its steps, the last one last;
* `Run.invariant`  what holds at the start and is kept by every step holds after every run;
* `Run.split`  a run is cut where its labels are cut;
* `Run.cons`, `Run.trans`  a step or a run before a run;
* `Run.project`  a run seen from a part of the state;
* `Run.ofSteps`  the run of a list of labels, of a step function;
* `Run.determined`  a step function that chooses its label has one run to a halt.
-/

namespace Transitions

open List

variable {σ ε : Type} {step : σ → ε → σ → Prop}

inductive Run (step : σ → ε → σ → Prop) (s₀ : σ) : List ε → σ → Prop where
  | start : Run step s₀ [] s₀
  | next {tr : List ε} {s s' : σ} {e : ε} (h : Run step s₀ tr s) (hstep : step s e s') :
      Run step s₀ (tr ++ [e]) s'

variable {s s₀ : σ} {tr tr' : List ε}

theorem Run.invariant {I : List ε → σ → Prop} (hstart : I [] s₀)
    (hnext : ∀ tr s e s', I tr s → step s e s' → I (tr ++ [e]) s') (h : Run step s₀ tr s) :
    I tr s := by
  induction h with
  | start => exact hstart
  | next h hstep ih => exact hnext _ _ _ _ ih hstep

theorem Run.split (h : Run step s₀ (tr ++ tr') s) :
    ∃ s₁, Run step s₀ tr s₁ ∧ Run step s₁ tr' s := by
  generalize hall : tr ++ tr' = all at h
  induction h generalizing tr' with
  | start =>
    obtain ⟨rfl, rfl⟩ := append_eq_nil_iff.mp hall
    exact ⟨s₀, .start, .start⟩
  | @next all s s' e h hstep ih =>
    rcases eq_nil_or_concat tr' with rfl | ⟨tr'', e', rfl⟩
    · rw [append_nil] at hall
      exact ⟨s', hall ▸ h.next hstep, .start⟩
    · rw [concat_eq_append, ← append_assoc] at hall
      obtain ⟨hall, he⟩ := append_inj' hall rfl
      obtain ⟨s₁, h₁, h₂⟩ := ih hall
      obtain rfl : e' = e := singleton_inj.mp he
      exact ⟨s₁, h₁, by rw [concat_eq_append]; exact h₂.next hstep⟩

theorem Run.at {e : ε} (h : Run step s₀ (tr ++ e :: tr') s) :
    ∃ s₁ s₂, Run step s₀ tr s₁ ∧ step s₁ e s₂ ∧ Run step s₂ tr' s := by
  have happend : tr ++ e :: tr' = (tr ++ [e]) ++ tr' := by rw [append_assoc]; rfl
  obtain ⟨s₂, h₁, h₂⟩ := (happend ▸ h).split
  generalize htr : tr ++ [e] = all at h₁
  cases h₁ with
  | start => exact absurd htr (by simp)
  | next h₁ hstep =>
    obtain ⟨rfl, he⟩ := append_inj' htr rfl
    obtain rfl := singleton_inj.mp he
    exact ⟨_, _, h₁, hstep, h₂⟩

theorem Run.cons {s₀ s₁ s : σ} {e : ε} {tr : List ε} (hstep : step s₀ e s₁)
    (h : Run step s₁ tr s) : Run step s₀ (e :: tr) s := by
  induction h with
  | start => exact Run.next .start hstep
  | next h hstep' ih => exact ih.next hstep'

theorem Run.trans {s₁ s₂ : σ} (h : Run step s₀ tr s₁) (h' : Run step s₁ tr' s₂) :
    Run step s₀ (tr ++ tr') s₂ := by
  induction h' with
  | start => rwa [append_nil]
  | next h' hstep ih =>
    rw [← append_assoc]
    exact ih.next hstep

theorem Run.project {σ₁ ε₁ : Type} {step₁ : σ₁ → ε₁ → σ₁ → Prop} (f : σ → σ₁) (g : ε → Option ε₁)
    (hseen : ∀ {s e s' e₁}, step s e s' → g e = some e₁ → step₁ (f s) e₁ (f s'))
    (hunseen : ∀ {s e s'}, step s e s' → g e = none → f s' = f s) (h : Run step s₀ tr s) :
    Run step₁ (f s₀) (tr.filterMap g) (f s) := by
  induction h with
  | start => exact .start
  | @next tr s s' e h hstep ih =>
    rw [filterMap_append]
    cases he : g e with
    | none =>
      rw [hunseen hstep he, filterMap_cons_none he, filterMap_nil, append_nil]
      exact ih
    | some e₁ =>
      rw [filterMap_cons_some he, filterMap_nil]
      exact ih.next (hseen hstep he)

theorem Run.ofSteps {f : σ → ε → Option σ} (h : tr.foldlM f s₀ = some s) :
    Run (fun s e s' => f s e = some s') s₀ tr s := by
  induction tr generalizing s₀ with
  | nil =>
    rw [foldlM_nil] at h
    exact Option.some_inj.mp h ▸ .start
  | cons e tr ih =>
    rw [foldlM_cons] at h
    obtain ⟨s₁, hstep, h⟩ := Option.bind_eq_some_iff.mp h
    exact Run.cons hstep (ih h)

theorem Run.uncons {e : ε} (h : Run step s₀ (e :: tr) s) :
    ∃ s₁, step s₀ e s₁ ∧ Run step s₁ tr s := by
  obtain ⟨s₁, s₂, h₁, hstep, h₂⟩ := Run.at (show Run step s₀ ([] ++ e :: tr) s from h)
  generalize hnil : ([] : List ε) = all at h₁
  cases h₁ with
  | start => exact ⟨s₂, hstep, h₂⟩
  | next => exact absurd hnil.symm (by simp)

theorem Run.eq_of_nil (h : Run step s₀ [] s) : s = s₀ := by
  generalize hnil : ([] : List ε) = all at h
  cases h with
  | start => rfl
  | next => exact absurd hnil.symm (by simp)

theorem Run.determined {f : σ → Option (ε × σ)} {s' : σ}
    (h : Run (fun s e s' => f s = some (e, s')) s₀ tr s)
    (h' : Run (fun s e s' => f s = some (e, s')) s₀ tr' s') (hs : f s = none) (hs' : f s' = none) :
    tr = tr' ∧ s = s' := by
  induction tr generalizing s₀ tr' with
  | nil =>
    obtain rfl := h.eq_of_nil
    cases tr' with
    | nil => exact ⟨rfl, h'.eq_of_nil.symm⟩
    | cons e tr' =>
      obtain ⟨s₁, hstep, -⟩ := h'.uncons
      rw [hs] at hstep
      cases hstep
  | cons e tr ih =>
    obtain ⟨s₁, hstep, hrest⟩ := h.uncons
    cases tr' with
    | nil =>
      obtain rfl := h'.eq_of_nil
      rw [hs'] at hstep
      cases hstep
    | cons e' tr' =>
      obtain ⟨s₂, hstep', hrest'⟩ := h'.uncons
      rw [hstep] at hstep'
      cases hstep'
      obtain ⟨rfl, rfl⟩ := ih hrest hrest'
      exact ⟨rfl, rfl⟩

end Transitions
