import Mathlib

/-!
# Pools by a likeness

Values are added to a pool one after the other.  A value that is like one of the pool, by a test
that need not be equality, gets the place of the first such value; every other value is appended.

* `add`, `poolAt`, `placeAt`  the pool in front of a value of a sequence, and the value's place;
* `Transparent`  the places keep their values, and merge the values that are to merge;
* `transparent_iff`  for a symmetric test: it is equality on the values of the sequence.
-/

namespace Pooling

open List Option

variable {α : Type} (same : α → α → Bool)

def add (pool : List α) (v : α) : List α × Nat :=
  match pool.findIdx? (same · v) with
  | some i => (pool, i)
  | none => (pool ++ [v], pool.length)

def poolAt (vs : List α) (k : Nat) : List α := (vs.take k).foldl (fun pool v => (add same pool v).1) []

def placeAt (vs : List α) (k : Nat) (v : α) : Nat := (add same (poolAt same vs k) v).2

/-- From the step that adds it on, a value is at its place; and a value of those that merge has one
place only. -/
def Transparent (merges : α → Bool) (vs : List α) : Prop :=
  (∀ i k v, vs[i]? = some v → i < k → k ≤ vs.length →
    (poolAt same vs k)[placeAt same vs i v]? = some v) ∧
    ∀ i j v, vs[i]? = some v → vs[j]? = some v → merges v = true →
      placeAt same vs i v = placeAt same vs j v

theorem add_cases (pool : List α) (v : α) :
    (∃ i c, add same pool v = (pool, i) ∧ pool[i]? = some c ∧ same c v = true ∧
      ∀ j < i, ∀ d, pool[j]? = some d → same d v = false) ∨
      (∀ c ∈ pool, same c v = false) ∧ add same pool v = (pool ++ [v], pool.length) := by
  unfold add
  cases h : pool.findIdx? (same · v) with
  | some i =>
    obtain ⟨hlt, hsame, hfirst⟩ := findIdx?_eq_some_iff_getElem.mp h
    refine Or.inl ⟨i, pool[i], rfl, getElem?_eq_getElem hlt, hsame, ?_⟩
    intro j hj d hd
    obtain ⟨hjlt, rfl⟩ := List.getElem?_eq_some_iff.mp hd
    simpa using hfirst j hj
  | none =>
    refine Or.inr ⟨?_, rfl⟩
    intro c hc
    exact findIdx?_eq_none_iff.mp h c hc

variable {same}

theorem prefix_add (pool : List α) (v : α) : pool <+: (add same pool v).1 := by
  rcases add_cases same pool v with ⟨i, c, hadd, -⟩ | ⟨-, hadd⟩
  · rw [hadd]
  · rw [hadd]
    exact prefix_append _ _

variable {k i : Nat} {v : α} {vs : List α}

theorem poolAt_succ (h : vs[k]? = some v) :
    poolAt same vs (k + 1) = (add same (poolAt same vs k) v).1 := by
  rw [poolAt, take_add_one, h, foldl_append]
  rfl

theorem poolAt_past (h : vs[k]? = none) : poolAt same vs (k + 1) = poolAt same vs k := by
  have hlen := List.getElem?_eq_none_iff.mp h
  rw [poolAt, poolAt, take_of_length_le hlen, take_of_length_le (by omega)]

theorem poolAt_mono {l : Nat} (h : k ≤ l) : poolAt same vs k <+: poolAt same vs l := by
  induction l with
  | zero =>
    rw [Nat.le_zero.mp h]
  | succ l ih =>
    rcases Nat.lt_or_eq_of_le h with hlt | rfl
    · have hpre := ih (Nat.le_of_lt_succ hlt)
      cases hv : vs[l]? with
      | none =>
        rw [poolAt_past hv]
        exact hpre
      | some v =>
        rw [poolAt_succ hv]
        exact hpre.trans (prefix_add _ v)
    · exact prefix_refl _

theorem mem_poolAt {c : α} (h : c ∈ poolAt same vs k) : ∃ i < k, vs[i]? = some c := by
  induction k with
  | zero => exact absurd h (by simp [poolAt])
  | succ k ih =>
    cases hv : vs[k]? with
    | none =>
      rw [poolAt_past hv] at h
      obtain ⟨i, hi, hc⟩ := ih h
      exact ⟨i, Nat.lt_succ_of_lt hi, hc⟩
    | some v =>
      rw [poolAt_succ hv] at h
      rcases add_cases same (poolAt same vs k) v with ⟨i, c', hadd, -⟩ | ⟨-, hadd⟩
      · rw [hadd] at h
        obtain ⟨i, hi, hc⟩ := ih h
        exact ⟨i, Nat.lt_succ_of_lt hi, hc⟩
      · rw [hadd] at h
        rcases mem_append.mp h with h | h
        · obtain ⟨i, hi, hc⟩ := ih h
          exact ⟨i, Nat.lt_succ_of_lt hi, hc⟩
        · rw [mem_singleton.mp h]
          exact ⟨k, Nat.lt_succ_self k, hv⟩

theorem poolAt_pairwise (vs : List α) (k : Nat) :
    (poolAt same vs k).Pairwise fun c d => same c d = false := by
  induction k with
  | zero => simp [poolAt]
  | succ k ih =>
    cases hv : vs[k]? with
    | none =>
      rw [poolAt_past hv]
      exact ih
    | some v =>
      rw [poolAt_succ hv]
      rcases add_cases same (poolAt same vs k) v with ⟨i, c, hadd, -⟩ | ⟨hnone, hadd⟩
      · rw [hadd]
        exact ih
      · rw [hadd]
        refine pairwise_append.mpr ⟨ih, pairwise_singleton _ _, ?_⟩
        intro c hc d hd
        rw [mem_singleton.mp hd]
        exact hnone c hc

theorem getElem?_of_prefix {pool pool' : List α} (h : pool <+: pool') (hv : pool[i]? = some v) :
    pool'[i]? = some v := by
  obtain ⟨rest, rfl⟩ := h
  rwa [getElem?_append_left (List.getElem?_eq_some_iff.mp hv).1]

theorem not_same_of_lt {j : Nat} {c d : α} (hij : i < j) (hc : (poolAt same vs k)[i]? = some c)
    (hd : (poolAt same vs k)[j]? = some d) : same c d = false := by
  obtain ⟨hi, rfl⟩ := List.getElem?_eq_some_iff.mp hc
  obtain ⟨hj, rfl⟩ := List.getElem?_eq_some_iff.mp hd
  exact pairwise_iff_getElem.mp (poolAt_pairwise vs k) i j hi hj hij

theorem placeAt_eq {p : Nat} (hp : (poolAt same vs k)[p]? = some v) (hv : same v v = true) :
    placeAt same vs k v = p := by
  have hmem := mem_of_getElem? hp
  unfold placeAt
  rcases add_cases same (poolAt same vs k) v with ⟨i, c, hadd, hc, hsame, hfirst⟩ | ⟨hnone, -⟩
  · rw [hadd]
    rcases Nat.lt_trichotomy i p with hlt | rfl | hgt
    · exact absurd hsame (by simp [not_same_of_lt hlt hc hp])
    · rfl
    · exact absurd hv (by simp [hfirst p hgt v hp])
  · exact absurd hv (by simp [hnone v hmem])

/-- the test is equality on an earlier value and a later one -/
def Separable (same : α → α → Bool) (merges : α → Bool) (c v : α) : Prop :=
  same c v = true ↔ merges v = true ∧ c = v

variable {merges : α → Bool} {vs : List α}

theorem getElem?_place (h : vs.Pairwise (Separable same merges)) (hv : vs[i]? = some v) :
    (poolAt same vs (i + 1))[placeAt same vs i v]? = some v := by
  rw [poolAt_succ hv, placeAt]
  rcases add_cases same (poolAt same vs i) v with ⟨j, c, hadd, hc, hsame, -⟩ | ⟨-, hadd⟩
  · obtain ⟨i', hi', hci⟩ := mem_poolAt (mem_of_getElem? hc)
    obtain ⟨hlt, rfl⟩ := List.getElem?_eq_some_iff.mp hci
    obtain ⟨hlt', rfl⟩ := List.getElem?_eq_some_iff.mp hv
    have hsep := pairwise_iff_getElem.mp h i' i hlt hlt' hi'
    rw [hadd, ← (hsep.mp hsame).2]
    exact hc
  · rw [hadd]
    exact getElem?_concat_length

theorem place_eq_of_lt (h : vs.Pairwise (Separable same merges)) {j : Nat} (hij : i < j)
    (hi : vs[i]? = some v) (hj : vs[j]? = some v) (hv : merges v = true) :
    placeAt same vs i v = placeAt same vs j v := by
  have hplace := getElem?_of_prefix (poolAt_mono hij) (getElem?_place h hi)
  obtain ⟨hlt, hvi⟩ := List.getElem?_eq_some_iff.mp hi
  obtain ⟨hlt', hvj⟩ := List.getElem?_eq_some_iff.mp hj
  have hsep := pairwise_iff_getElem.mp h i j hlt hlt' hij
  rw [hvi, hvj] at hsep
  exact (placeAt_eq hplace (hsep.mpr ⟨hv, rfl⟩)).symm

theorem transparent_of_pairwise (h : vs.Pairwise (Separable same merges)) :
    Transparent same merges vs := by
  constructor
  · intro i k v hv hik _
    exact getElem?_of_prefix (poolAt_mono hik) (getElem?_place h hv)
  · intro i j v hi hj hv
    rcases Nat.lt_trichotomy i j with hlt | rfl | hgt
    · exact place_eq_of_lt h hlt hi hj hv
    · rfl
    · exact (place_eq_of_lt h hgt hj hi hv).symm

/-- The pool is transparent if and only if the test is equality, on the values that are to merge,
for an earlier value of the sequence and a later one. -/
theorem transparent_iff (hsymm : ∀ a b, same a b = same b a)
    (hmerges : ∀ a b, same a b = true → merges b = true) :
    Transparent same merges vs ↔ vs.Pairwise (Separable same merges) := by
  refine ⟨fun ⟨hkept, hmerged⟩ => ?_, transparent_of_pairwise⟩
  rw [pairwise_iff_getElem]
  intro i j hi hj hij
  have hvi := getElem?_eq_getElem hi
  have hvj := getElem?_eq_getElem hj
  generalize vs[i] = c at hvi
  generalize vs[j] = v at hvj
  have hpi := hkept i j c hvi hij (Nat.le_of_lt hj)
  have hpj := hkept j (j + 1) v hvj (Nat.lt_succ_self j) hj
  rw [poolAt_succ hvj] at hpj
  constructor
  · intro hsame
    refine ⟨hmerges c v hsame, ?_⟩
    -- the place of `c` is the first one that is like `v`
    unfold placeAt at hpj
    rcases add_cases same (poolAt same vs j) v with
      ⟨k, d, hadd, hd, -, hfirst⟩ | ⟨hnone, -⟩
    · rw [hadd, hd] at hpj
      obtain rfl := some.inj hpj
      rcases Nat.lt_trichotomy k (placeAt same vs i c) with hlt | heq | hgt
      · have hnot := not_same_of_lt hlt hd hpi
        rw [hsymm, hsame] at hnot
        cases hnot
      · rw [heq, hpi] at hd
        exact some.inj hd
      · rw [hfirst _ hgt c hpi] at hsame
        cases hsame
    · rw [hnone c (mem_of_getElem? hpi)] at hsame
      cases hsame
  · rintro ⟨hv, rfl⟩
    have hplace := hmerged i j c hvi hvj hv
    have hlt := (List.getElem?_eq_some_iff.mp hpi).1
    rw [hplace] at hlt hpi
    unfold placeAt at hlt hpi
    rcases add_cases same (poolAt same vs j) c with
      ⟨k, d, hadd, hd, hsame, -⟩ | ⟨-, hadd⟩
    · rw [hadd, hd] at hpi
      rwa [some.inj hpi] at hsame
    · rw [hadd] at hlt
      exact absurd hlt (Nat.lt_irrefl _)

end Pooling
