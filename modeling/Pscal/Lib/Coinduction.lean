import Mathlib

/-!
# Coinductive checks decided by a search with a memo

A question `p` has a script: the questions it asks, in order, and the verdict when all of them
are answered with yes.  It holds when some set of questions that contains it answers itself.

* `Holds script p`  the greatest fixed point;
* `search`  asks to a bounded depth; a question whose key is in the memo counts as answered, since
  it was or is being asked;
* `search_yes`  yes is right: the memo is then part of a set that answers itself;
* `search_no`  no is right;
* `search_unknown`  where it gives up: a question without an answer, or a path as long as the bound
  on which no key comes twice.
-/

namespace Coind

open List Option

inductive Verdict where
  | yes
  | no
  | unknown
deriving DecidableEq, Repr

section
variable {P : Type*} (script : P → List P × Verdict)

/-- every question of `R` is answered by questions of `R` -/
def Closed (R : P → Prop) : Prop :=
  ∀ p, R p → (script p).2 = .yes ∧ ∀ q ∈ (script p).1, R q

def Holds (p : P) : Prop := ∃ R, Closed script R ∧ R p

variable {script}

theorem Holds.verdict {p : P} (h : Holds script p) : (script p).2 = .yes := by
  obtain ⟨R, hclosed, hp⟩ := h
  exact (hclosed p hp).1

theorem Holds.asked {p q : P} (h : Holds script p) (hq : q ∈ (script p).1) : Holds script q := by
  obtain ⟨R, hclosed, hp⟩ := h
  exact ⟨R, hclosed, (hclosed p hp).2 q hq⟩

end

/-! ## the search -/

/-- the questions are asked until one is not answered with yes -/
def askAll {P M : Type*} (ask : P → M → Option (Verdict × M)) (final : Verdict) :
    List P → M → Option (Verdict × M)
  | [], m => some (final, m)
  | q :: qs, m =>
    (ask q m).bind fun (v, m) => if v = .yes then askAll ask final qs m else some (v, m)

/-- `room` is the depth that is left; `key room p` is the key under which `p` is remembered -/
def search {P M K : Type*} (script : P → List P × Verdict) (key : Nat → P → Option K)
    (seen : K → M → Option (Bool × M)) : Nat → P → M → Option (Verdict × M)
  | 0, _, m => some (.unknown, m)
  | room + 1, p, m =>
    let run := askAll (search script key seen room) (script p).2 (script p).1
    match key room p with
    | none => run m
    | some k =>
      (seen k m).bind fun (found, m) => if found then some (.yes, m) else run m

/-- What a memo does: it finds only what was put in, and unless it is `full` it finds all of it
and takes what it does not find. -/
structure MemoSpec {M K : Type*} (seen : K → M → Option (Bool × M)) (valid : M → Prop)
    (known : M → K → Prop) (full : Prop) : Prop where
  total : ∀ k m, valid m → ∃ found m', seen k m = some (found, m') ∧ valid m'
  found : ∀ {k m m'}, valid m → seen k m = some (true, m') → known m k
  old : ∀ {k m found m'}, valid m → seen k m = some (found, m') → ∀ k', known m k' → known m' k'
  new : ∀ {k m found m'}, valid m → seen k m = some (found, m') →
    ∀ k', known m' k' → known m k' ∨ k' = k
  taken : ∀ {k m m'}, valid m → seen k m = some (false, m') → full ∨ ¬ known m k ∧ known m' k

section
variable {P M K : Type*} {script : P → List P × Verdict} {key : Nat → P → Option K}
  {seen : K → M → Option (Bool × M)} {valid : M → Prop} {known : M → K → Prop} {full : Prop}

/-! ## the search ends -/

theorem askAll_total {ask : P → M → Option (Verdict × M)} (final : Verdict)
    (hask : ∀ p m, valid m → ∃ v m', ask p m = some (v, m') ∧ valid m') (qs : List P) {m : M}
    (hm : valid m) : ∃ v m', askAll ask final qs m = some (v, m') ∧ valid m' := by
  induction qs generalizing m with
  | nil => exact ⟨final, m, rfl, hm⟩
  | cons q qs ih =>
    obtain ⟨v, m', hq, hm'⟩ := hask q m hm
    rw [askAll, hq, bind_some]
    dsimp only
    split
    · exact ih hm'
    · exact ⟨v, m', rfl, hm'⟩

theorem search_total (hmemo : MemoSpec seen valid known full) (room : Nat) (p : P) {m : M}
    (hm : valid m) : ∃ v m', search script key seen room p m = some (v, m') ∧ valid m' := by
  induction room generalizing p m with
  | zero => exact ⟨.unknown, m, rfl, hm⟩
  | succ room ih =>
    rw [search]
    have hrun := @askAll_total _ _ valid _ (script p).2 (fun p m hm => ih p hm) (script p).1
    cases key room p with
    | none => exact hrun hm
    | some k =>
      obtain ⟨found, m', hseen, hm'⟩ := hmemo.total k m hm
      dsimp only
      rw [hseen, bind_some]
      dsimp only
      split
      · exact ⟨.yes, m', rfl, hm'⟩
      · exact hrun hm'

/-! ## yes -/

variable (script key) in
/-- answered by questions that are answered, down to keys of `S` -/
inductive Ok (S : K → Prop) : P → Prop where
  | known {room : Nat} {p : P} {k : K} : key room p = some k → S k → Ok S p
  | asked {p : P} : (script p).2 = .yes → (∀ q ∈ (script p).1, Ok S q) → Ok S p

variable (script key) in
def Answered (S : K → Prop) (p : P) : Prop :=
  (script p).2 = .yes ∧ ∀ q ∈ (script p).1, Ok script key S q

variable {p : P} {m m' : M} {v : Verdict} {room : Nat}

theorem Ok.mono {S S' : K → Prop} (hS : ∀ k, S k → S' k) (h : Ok script key S p) :
    Ok script key S' p := by
  induction h with
  | known hkey hk => exact .known hkey (hS _ hk)
  | asked hv _ ih => exact .asked hv ih

variable (script key known) in
/-- the memo has grown by keys of questions that are answered down to its keys -/
structure Grown (m m' : M) : Prop where
  old : ∀ k, known m k → known m' k
  new : ∀ k, known m' k →
    known m k ∨ ∃ room p, key room p = some k ∧ Answered script key (known m') p

theorem Grown.refl (m : M) : Grown script key known m m := ⟨fun _ hk => hk, fun _ hk => .inl hk⟩

theorem Grown.trans {a b c : M} (hab : Grown script key known a b)
    (hbc : Grown script key known b c) : Grown script key known a c where
  old k hk := hbc.old k (hab.old k hk)
  new k hk := by
    rcases hbc.new k hk with hk | hk
    · rcases hab.new k hk with hk | ⟨room, p, hkey, hv, hqs⟩
      · exact .inl hk
      · exact .inr ⟨room, p, hkey, hv, fun q hq => (hqs q hq).mono hbc.old⟩
    · exact .inr hk

theorem askAll_yes {ask : P → M → Option (Verdict × M)} {final : Verdict}
    (hask : ∀ p m m', valid m → ask p m = some (.yes, m') →
      valid m' ∧ Grown script key known m m' ∧ Ok script key (known m') p)
    {qs : List P} {m m' : M} (hm : valid m) (h : askAll ask final qs m = some (.yes, m')) :
    final = .yes ∧ Grown script key known m m' ∧ ∀ q ∈ qs, Ok script key (known m') q := by
  induction qs generalizing m with
  | nil =>
    cases h
    exact ⟨rfl, .refl _, nofun⟩
  | cons q qs ih =>
    rw [askAll, bind_eq_some_iff] at h
    obtain ⟨⟨v, m₁⟩, hq, h⟩ := h
    dsimp only at h
    split at h
    · rename_i hv
      obtain ⟨hm₁, hgrown, hok⟩ := hask q m m₁ hm (hv ▸ hq)
      obtain ⟨hfinal, hgrown', hqs⟩ := ih hm₁ h
      refine ⟨hfinal, hgrown.trans hgrown', fun r hr => ?_⟩
      rcases mem_cons.mp hr with rfl | hr
      · exact hok.mono hgrown'.old
      · exact hqs r hr
    · rename_i hv
      cases h
      exact absurd rfl hv

theorem search_answered (hmemo : MemoSpec seen valid known full) (room : Nat) (hm : valid m)
    (h : search script key seen room p m = some (.yes, m')) :
    valid m' ∧ Grown script key known m m' ∧ Ok script key (known m') p := by
  have hvalid : valid m' := by
    obtain ⟨v, m₁, hrun, hm₁⟩ := @search_total P M K script key seen valid known full hmemo room p m hm
    cases h.symm.trans hrun
    exact hm₁
  refine ⟨hvalid, ?_⟩
  induction room generalizing p m m' with
  | zero => cases h
  | succ room ih =>
    have hrun := fun (m₁ : M) (hm₁ : valid m₁) => @askAll_yes _ _ _ script key valid known
      (search script key seen room) (script p).2 (fun q a b ha hq => by
        obtain ⟨v, b', hb, hb'⟩ := @search_total P M K script key seen valid known full hmemo room q a ha
        cases hq.symm.trans hb
        exact ⟨hb', ih ha hq hb'⟩) (script p).1 m₁ m' hm₁
    rw [search] at h
    cases hkey : key room p with
    | none =>
      rw [hkey] at h
      obtain ⟨hv, hgrown, hqs⟩ := hrun m hm h
      exact ⟨hgrown, .asked hv hqs⟩
    | some k =>
      rw [hkey] at h
      obtain ⟨⟨found, m₁⟩, hseen, h⟩ := bind_eq_some_iff.mp h
      dsimp only at h
      have hm₁ : valid m₁ := by
        obtain ⟨_, _, hs, hvalid⟩ := hmemo.total k m hm
        cases hseen.symm.trans hs
        exact hvalid
      split at h
      · rename_i hfound
        cases h
        subst hfound
        have hk := hmemo.found hm hseen
        refine ⟨⟨hmemo.old hm hseen, fun k' hk' => ?_⟩, .known hkey (hmemo.old hm hseen k hk)⟩
        rcases hmemo.new hm hseen k' hk' with hk' | rfl
        · exact .inl hk'
        · exact .inl hk
      · -- the key of `p` was put in before its script ran
        obtain ⟨hv, hgrown, hqs⟩ := hrun m₁ hm₁ h
        refine ⟨⟨fun k' hk' => hgrown.old k' (hmemo.old hm hseen k' hk'), fun k' hk' => ?_⟩,
          .asked hv hqs⟩
        rcases hgrown.new k' hk' with hk' | hk'
        · rcases hmemo.new hm hseen k' hk' with hk' | rfl
          · exact .inl hk'
          · exact .inr ⟨room, p, hkey, hv, hqs⟩
        · exact .inr hk'

/-- **The search says yes only to what holds.** -/
theorem search_yes (hmemo : MemoSpec seen valid known full)
    (hkey : ∀ {room room' p q k}, key room p = some k → key room' q = some k →
      script p = script q)
    {room : Nat} {p : P} {m m' : M} (hm : valid m) (hempty : ∀ k, ¬ known m k)
    (h : search script key seen room p m = some (.yes, m')) : Holds script p := by
  obtain ⟨-, hgrown, hok⟩ := search_answered hmemo room hm h
  refine ⟨Ok script key (known m'), fun q hq => ?_, hok⟩
  cases hq with
  | known hq hk =>
    rcases hgrown.new _ hk with hk | ⟨room', q', hq', hanswered⟩
    · exact absurd hk (hempty _)
    · rw [hkey hq hq']
      exact hanswered
  | asked hv hqs => exact ⟨hv, hqs⟩

/-! ## no -/

theorem askAll_other {ask : P → M → Option (Verdict × M)} {final v : Verdict} (hv : v ≠ .yes)
    (hask : ∀ p m, valid m → ∃ v m', ask p m = some (v, m') ∧ valid m')
    (hold : ∀ p m v m', valid m → ask p m = some (v, m') → ∀ k, known m k → known m' k)
    {qs : List P} {m m' : M} (hm : valid m) (h : askAll ask final qs m = some (v, m')) :
    final = v ∨ ∃ q ∈ qs, ∃ m₁, valid m₁ ∧ (∀ k, known m k → known m₁ k) ∧
      ask q m₁ = some (v, m') := by
  induction qs generalizing m with
  | nil =>
    cases h
    exact .inl rfl
  | cons q qs ih =>
    rw [askAll, bind_eq_some_iff] at h
    obtain ⟨⟨v₁, m₁⟩, hq, h⟩ := h
    obtain ⟨v₂, m₂, hq', hm₁⟩ := hask q m hm
    cases hq.symm.trans hq'
    dsimp only at h
    split at h
    · rcases ih hm₁ h with hfinal | ⟨r, hr, m₂, hm₂, hknown, hr'⟩
      · exact .inl hfinal
      · exact .inr ⟨r, mem_cons_of_mem q hr, m₂, hm₂,
          fun k hk => hknown k (hold q m _ _ hm hq k hk), hr'⟩
    · cases h
      exact .inr ⟨q, mem_cons_self, m, hm, fun _ hk => hk, hq⟩

theorem askAll_old {ask : P → M → Option (Verdict × M)} {final : Verdict}
    (hask : ∀ p m, valid m → ∃ v m', ask p m = some (v, m') ∧ valid m')
    (hold : ∀ p m v m', valid m → ask p m = some (v, m') → ∀ k, known m k → known m' k)
    {qs : List P} (hm : valid m) (h : askAll ask final qs m = some (v, m')) :
    ∀ k, known m k → known m' k := by
  induction qs generalizing m with
  | nil =>
    cases h
    exact fun _ hk => hk
  | cons q qs ih =>
    rw [askAll, bind_eq_some_iff] at h
    obtain ⟨⟨v₁, m₁⟩, hq, h⟩ := h
    obtain ⟨v₂, m₂, hq', hm₁⟩ := hask q m hm
    cases hq.symm.trans hq'
    have hstep := hold q m _ _ hm hq
    dsimp only at h
    split at h
    · exact fun k hk => ih hm₁ h k (hstep k hk)
    · cases h
      exact hstep

theorem search_old (hmemo : MemoSpec seen valid known full) (hm : valid m)
    (h : search script key seen room p m = some (v, m')) : ∀ k, known m k → known m' k := by
  induction room generalizing p m v m' with
  | zero =>
    cases h
    exact fun _ hk => hk
  | succ room ih =>
    rw [search] at h
    cases hkey : key room p with
    | none =>
      rw [hkey] at h
      exact askAll_old (fun q a ha => search_total hmemo room q ha)
        (fun q a v b ha hq => ih ha hq) hm h
    | some k =>
      rw [hkey] at h
      obtain ⟨⟨found, m₁⟩, hseen, h⟩ := bind_eq_some_iff.mp h
      obtain ⟨found', m₂, hseen', hm₁⟩ := hmemo.total k m hm
      cases hseen.symm.trans hseen'
      dsimp only at h
      split at h
      · cases h
        exact hmemo.old hm hseen
      · exact fun k' hk' => askAll_old (fun q a ha => search_total hmemo room q ha)
          (fun q a v b ha hq => ih ha hq) hm₁ h k' (hmemo.old hm hseen k' hk')

theorem search_other (hmemo : MemoSpec seen valid known full) (hv : v ≠ .yes) (hm : valid m)
    (h : search script key seen (room + 1) p m = some (v, m')) :
    (script p).2 = v ∨ ∃ q ∈ (script p).1, ∃ m₁, valid m₁ ∧ (∀ k, known m k → known m₁ k) ∧
      (∀ k, key room p = some k → full ∨ ¬ known m k ∧ known m₁ k) ∧
      search script key seen room q m₁ = some (v, m') := by
  have hrun := fun (a : M) (ha : valid a) => @askAll_other P M K valid known
    (search script key seen room) (script p).2 v hv (fun q a ha => search_total hmemo room q ha)
    (fun q a v b ha hq => search_old hmemo ha hq) (script p).1 a m' ha
  rw [search] at h
  cases hkey : key room p with
  | none =>
    rw [hkey] at h
    rcases hrun m hm h with hfinal | ⟨q, hq, m₁, hm₁, hold, hask⟩
    · exact .inl hfinal
    · exact .inr ⟨q, hq, m₁, hm₁, hold, nofun, hask⟩
  | some k =>
    rw [hkey] at h
    obtain ⟨⟨found, a⟩, hseen, h⟩ := bind_eq_some_iff.mp h
    obtain ⟨found', a', hseen', ha⟩ := hmemo.total k m hm
    cases hseen.symm.trans hseen'
    dsimp only at h
    split at h
    · cases h
      exact absurd rfl hv
    · rename_i hfound
      rw [Bool.not_eq_true] at hfound
      subst hfound
      rcases hrun a ha h with hfinal | ⟨q, hq, m₁, hm₁, hold, hask⟩
      · exact .inl hfinal
      · refine .inr ⟨q, hq, m₁, hm₁, fun k' hk' => hold k' (hmemo.old hm hseen k' hk'), ?_, hask⟩
        rintro k' ⟨⟩
        rcases hmemo.taken hm hseen with hfull | ⟨hnew, hk⟩
        · exact .inl hfull
        · exact .inr ⟨hnew, hold k hk⟩

/-- **The search says no only to what does not hold.** -/
theorem search_no (hmemo : MemoSpec seen valid known full) (hm : valid m)
    (h : search script key seen room p m = some (.no, m')) : ¬ Holds script p := by
  induction room generalizing p m m' with
  | zero => cases h
  | succ room ih =>
    intro hholds
    have hne : Verdict.no ≠ .yes := nofun
    rcases search_other hmemo hne hm h with hfinal | ⟨q, hq, m₁, hm₁, -, -, hask⟩
    · cases hholds.verdict.symm.trans hfinal
    · exact ih hm₁ hask (hholds.asked hq)

/-! ## unknown -/

variable (script key) in
/-- a path of `room` questions on which no key comes twice -/
structure LongPath (room : Nat) (path : Nat → P) : Prop where
  step : ∀ i < room, path (i + 1) ∈ (script (path i)).1
  fresh : ∀ i j k, i < j → j < room → key (room - 1 - i) (path i) = some k →
    key (room - 1 - j) (path j) ≠ some k

/-- **Where the search gives up.** -/
theorem search_unknown (hmemo : MemoSpec seen valid known full) (hm : valid m)
    (h : search script key seen room p m = some (.unknown, m')) :
    full ∨ ¬ Holds script p ∨ ∃ path, path 0 = p ∧ LongPath script key room path ∧
      ∀ i k, i < room → key (room - 1 - i) (path i) = some k → ¬ known m k := by
  induction room generalizing p m m' with
  | zero => exact .inr (.inr ⟨fun _ => p, rfl, ⟨nofun, nofun⟩, nofun⟩)
  | succ room ih =>
    have hne : Verdict.unknown ≠ .yes := nofun
    rcases search_other hmemo hne hm h with hfinal | ⟨q, hq, m₁, hm₁, hold, hkey, hask⟩
    · exact .inr (.inl fun hholds => nomatch hholds.verdict.symm.trans hfinal)
    · rcases ih hm₁ hask with hfull | hholds | ⟨path, rfl, hpath, hnew⟩
      · exact .inl hfull
      · exact .inr (.inl fun h => hholds (h.asked hq))
      · by_cases hfull : full
        · exact .inl hfull
        · have hroom : ∀ i, room + 1 - 1 - (i + 1) = room - 1 - i := fun i => by omega
          refine .inr (.inr ⟨fun i => Nat.casesOn i p path, rfl, ⟨fun i hi => ?_, ?_⟩, ?_⟩)
          · cases i with
            | zero => exact hq
            | succ i => exact hpath.step i (by omega)
          · intro i j k hij hj hi hjk
            cases j with
            | zero => omega
            | succ j =>
              rw [hroom] at hjk
              cases i with
              | zero =>
                rcases hkey k hi with h | ⟨-, hk⟩
                · exact hfull h
                · exact hnew j k (by omega) hjk hk
              | succ i =>
                rw [hroom] at hi
                exact hpath.fresh i j k (by omega) (by omega) hi hjk
          · intro i k hi hik
            cases i with
            | zero =>
              rcases hkey k hik with h | ⟨hk, -⟩
              · exact absurd h hfull
              · exact hk
            | succ i =>
              rw [hroom] at hik
              exact fun hk => hnew i k (by omega) hik (hold k hk)

end

end Coind
