import Mathlib

/-!
# Interning

A table of keys without duplicates; a key's number is its place in the table.

* `intern`  the table with a key, and the number of the key;
* `intern_getElem?`, `intern_prefix`, `intern_nodup`  what it keeps;
* `index_eq_iff`  equal numbers are equal keys.
-/

namespace Intern

open List

variable {κ : Type*} [DecidableEq κ]

/-- the table with `k`, and the number of `k` -/
def intern (keys : List κ) (k : κ) : List κ × Nat :=
  match keys.findIdx? (· = k) with
  | some i => (keys, i)
  | none => (keys ++ [k], keys.length)

theorem intern_cases (keys : List κ) (k : κ) :
    ((intern keys k).1 = keys ∧ keys[(intern keys k).2]? = some k) ∨
      k ∉ keys ∧ intern keys k = (keys ++ [k], keys.length) := by
  unfold intern
  cases h : keys.findIdx? (· = k) with
  | some i =>
    obtain ⟨hlt, heq, -⟩ := findIdx?_eq_some_iff_getElem.mp h
    refine .inl ⟨rfl, ?_⟩
    rw [getElem?_eq_getElem hlt, of_decide_eq_true heq]
  | none =>
    refine .inr ⟨fun hmem => ?_, rfl⟩
    have hall := findIdx?_eq_none_iff.mp h k hmem
    rw [decide_eq_false_iff_not] at hall
    exact hall rfl

variable {i : Nat} {k : κ} {keys : List κ}

omit [DecidableEq κ] in
theorem getElem?_of_prefix {keys' : List κ} (h : keys <+: keys') (hk : keys[i]? = some k) :
    keys'[i]? = some k := by
  obtain ⟨rest, rfl⟩ := h
  rwa [getElem?_append_left (List.getElem?_eq_some_iff.mp hk).1]

theorem intern_prefix (keys : List κ) (k : κ) : keys <+: (intern keys k).1 := by
  rcases intern_cases keys k with ⟨he, -⟩ | ⟨-, he⟩
  · rw [he]
  · rw [he]
    exact prefix_append _ _

theorem intern_getElem? (keys : List κ) (k : κ) :
    (intern keys k).1[(intern keys k).2]? = some k := by
  rcases intern_cases keys k with ⟨he, hk⟩ | ⟨-, he⟩
  · rw [he]
    exact hk
  · rw [he]
    exact getElem?_concat_length

theorem intern_lt (keys : List κ) (k : κ) : (intern keys k).2 < (intern keys k).1.length :=
  (List.getElem?_eq_some_iff.mp (intern_getElem? keys k)).1

theorem intern_nodup (h : keys.Nodup) (k : κ) : (intern keys k).1.Nodup := by
  rcases intern_cases keys k with ⟨he, -⟩ | ⟨hk, he⟩
  · rwa [he]
  · rw [he]
    exact nodup_append.mpr ⟨h, nodup_singleton k, fun a ha b hb => by
      rw [mem_singleton.mp hb]
      exact fun heq => hk (heq ▸ ha)⟩

theorem mem_intern {x : κ} (h : x ∈ (intern keys k).1) : x ∈ keys ∨ x = k := by
  rcases intern_cases keys k with ⟨he, -⟩ | ⟨-, he⟩
  · rw [he] at h
    exact .inl h
  · rw [he] at h
    exact (mem_append.mp h).imp_right mem_singleton.mp

theorem intern_index (h : i < (intern keys k).1.length) :
    i < keys.length ∨ i = (intern keys k).2 := by
  rcases intern_cases keys k with ⟨he, -⟩ | ⟨-, he⟩
  · rw [he] at h
    exact .inl h
  · rw [he] at h ⊢
    rw [length_append, length_singleton] at h
    show i < keys.length ∨ i = keys.length
    omega

omit [DecidableEq κ] in
theorem index_eq_iff (h : keys.Nodup) {j : Nat} {a b : κ} (ha : keys[i]? = some a)
    (hb : keys[j]? = some b) : i = j ↔ a = b := by
  constructor
  · rintro rfl
    rw [ha] at hb
    exact Option.some.inj hb
  · rintro rfl
    exact (getElem?_inj (List.getElem?_eq_some_iff.mp ha).1 h).mp (ha.trans hb.symm)

end Intern
