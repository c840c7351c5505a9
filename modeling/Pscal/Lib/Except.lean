import Mathlib

/-!
# Checks that succeed

What a successful computation in `Except ε` says about its parts: one lemma per way to build
one (`bind`, `map`, a failing branch, `forM`, `mapM`), and `mapM` in `Option`.
-/

namespace Checks

open List Option

universe u

variable {ε : Type*} {α β : Type u}

variable {f : α → Except ε β} {x : Except ε α} {l : List α} {ys : List β}

theorem bind_ok {b : β} : (x >>= f) = .ok b ↔ ∃ a, x = .ok a ∧ f a = .ok b := by
  cases x with
  | error e => simp [bind, Except.bind]
  | ok a => simp [bind, Except.bind]

theorem map_ok {f : α → β} {b : β} : (f <$> x) = .ok b ↔ ∃ a, x = .ok a ∧ f a = b := by
  cases x with
  | error e => simp [Functor.map, Except.map]
  | ok a => simp [Functor.map, Except.map]

theorem pure_ok {a b : α} : (pure a : Except ε α) = .ok b ↔ a = b := by
  simp [pure, Except.pure]

theorem discard_ok {u : PUnit} : discard x = .ok u ↔ ∃ a, x = .ok a := by
  cases x with
  | error e => simp [discard, Functor.mapConst, Except.map]
  | ok a => simp [discard, Functor.mapConst, Except.map]

theorem ite_error_ok {c : Prop} [Decidable c] {e : ε} {a : α} :
    (if c then .error e else x) = .ok a ↔ ¬ c ∧ x = .ok a := by
  by_cases h : c
  · simp [h]
  · simp [h]

theorem forM_ok {f : α → Except ε PUnit} : l.forM f = .ok ⟨⟩ ↔ ∀ x ∈ l, f x = .ok ⟨⟩ := by
  induction l with
  | nil => simp [pure, Except.pure]
  | cons x l ih =>
    rw [show (x :: l).forM f = (f x >>= fun _ => l.forM f) from rfl, bind_ok]
    constructor
    · rintro ⟨_, hx, hl⟩ y hy
      rcases mem_cons.mp hy with rfl | hy
      · exact hx
      · exact ih.mp hl y hy
    · intro h
      exact ⟨⟨⟩, h x mem_cons_self, ih.mpr fun y hy => h y (mem_cons_of_mem _ hy)⟩

theorem mapM_ok : l.mapM f = .ok ys ↔ Forall₂ (fun x y => f x = .ok y) l ys := by
  induction l generalizing ys with
  | nil =>
    rw [mapM_nil, pure_ok, forall₂_nil_left_iff]
    exact eq_comm
  | cons x l ih =>
    rw [mapM_cons, bind_ok, forall₂_cons_left_iff]
    constructor
    · rintro ⟨y, hy, h⟩
      obtain ⟨zs, hzs, hp⟩ := bind_ok.mp h
      exact ⟨y, zs, hy, ih.mp hzs, (pure_ok.mp hp).symm⟩
    · rintro ⟨y, zs, hy, hzs, rfl⟩
      exact ⟨y, hy, bind_ok.mpr ⟨zs, ih.mpr hzs, rfl⟩⟩

theorem mapM_mem (h : l.mapM f = .ok ys) {x : α} (hx : x ∈ l) : ∃ y ∈ ys, f x = .ok y := by
  have hall := mapM_ok.mp h
  clear h
  induction hall with
  | nil => exact absurd hx not_mem_nil
  | cons hhead _ ih =>
    rcases mem_cons.mp hx with rfl | hx
    · exact ⟨_, mem_cons_self, hhead⟩
    · obtain ⟨y, hy, hxy⟩ := ih hx
      exact ⟨y, mem_cons_of_mem _ hy, hxy⟩

theorem mem_mapM (h : l.mapM f = .ok ys) {y : β} (hy : y ∈ ys) : ∃ x ∈ l, f x = .ok y := by
  have hall := mapM_ok.mp h
  clear h
  induction hall with
  | nil => exact absurd hy not_mem_nil
  | cons hhead _ ih =>
    rcases mem_cons.mp hy with rfl | hy
    · exact ⟨_, mem_cons_self, hhead⟩
    · obtain ⟨x, hx, hxy⟩ := ih hy
      exact ⟨x, mem_cons_of_mem _ hx, hxy⟩

theorem mapM_some {f : α → Option β} :
    l.mapM f = some ys ↔ Forall₂ (fun x y => f x = some y) l ys := by
  induction l generalizing ys with
  | nil =>
    rw [mapM_nil, forall₂_nil_left_iff]
    exact some_inj.trans eq_comm
  | cons x l ih =>
    rw [mapM_cons, forall₂_cons_left_iff]
    constructor
    · intro h
      obtain ⟨y, hy, h⟩ := bind_eq_some_iff.mp h
      obtain ⟨zs, hzs, hp⟩ := bind_eq_some_iff.mp h
      exact ⟨y, zs, hy, ih.mp hzs, (some_inj.mp hp).symm⟩
    · rintro ⟨y, zs, hy, hzs, rfl⟩
      exact bind_eq_some_iff.mpr ⟨y, hy, bind_eq_some_iff.mpr ⟨zs, ih.mpr hzs, rfl⟩⟩

theorem mapM_isSome {f : α → Option β} : (l.mapM f).isSome = l.all fun x => (f x).isSome := by
  induction l with
  | nil => rfl
  | cons x l ih =>
    rw [mapM_cons, all_cons, ← ih]
    cases hx : f x with
    | none => rfl
    | some y =>
      cases hl : l.mapM f with
      | none => simp
      | some ys => simp

end Checks
