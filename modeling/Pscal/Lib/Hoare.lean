import Mathlib

/-!
# Rules for computations over a state

A computation `StateT σ Option α` reads and changes a state and may give up.

* `Holds P m Q`  started with `P`, a run of `m` that does not give up ends with `Q`;
* `Holds.pure`, `Holds.bind`, `Holds.forM`  one rule per way to build one.
-/

namespace Hoare

variable {σ : Type} {α β : Type}

variable {m : StateT σ Option α} {P : σ → Prop}

theorem bind_run {f : α → StateT σ Option β} {s : σ} {r : β × σ} (h : (m >>= f) s = some r) :
    ∃ a s₁, m s = some (a, s₁) ∧ f a s₁ = some r := by
  obtain ⟨⟨a, s₁⟩, h₁, h₂⟩ := Option.bind_eq_some_iff.mp h
  exact ⟨a, s₁, h₁, h₂⟩

/-- started with `P`, a run of `m` that does not give up ends with `Q` -/
def Holds (P : σ → Prop) (m : StateT σ Option α) (Q : α → σ → Prop) : Prop :=
  ∀ s a s', P s → m s = some (a, s') → Q a s'

theorem Holds.weaken {P' : σ → Prop} {Q Q' : α → σ → Prop} (h : Holds P m Q) (hP : ∀ s, P' s → P s)
    (hQ : ∀ a s, Q a s → Q' a s) : Holds P' m Q' :=
  fun s a s' hs hm => hQ a s' (h s a s' (hP s hs) hm)

theorem Holds.pure {Q : α → σ → Prop} (a : α) (h : ∀ s, P s → Q a s) :
    Holds P (pure a : StateT σ Option α) Q := by
  intro s b s' hs hm
  cases hm
  exact h s hs

theorem Holds.bind {R : α → σ → Prop} {f : α → StateT σ Option β} {Q : β → σ → Prop}
    (hm : Holds P m R) (hf : ∀ a, Holds (R a) (f a) Q) : Holds P (m >>= f) Q := by
  intro s b s' hs h
  obtain ⟨a, s₁, h₁, h₂⟩ := bind_run h
  exact hf a s₁ b s' (hm s a s₁ hs h₁) h₂

theorem Holds.forM {f : α → StateT σ Option PUnit} (l : List α)
    (h : ∀ x ∈ l, Holds P (f x) fun _ => P) : Holds P (l.forM f) fun _ => P := by
  induction l with
  | nil => exact .pure _ fun _ hs => hs
  | cons x l ih =>
    exact (h x List.mem_cons_self).bind fun _ => ih fun y hy => h y (List.mem_cons_of_mem _ hy)

end Hoare
