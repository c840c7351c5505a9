import Mathlib

/-!
# Open addressing with linear probing

An index of entries, numbered ones unless said otherwise: a slot was never used, is deleted,
or holds an entry.

* `probe cap h i`  the `i`-th slot to try for the hash `h`;
* `Indexed slots hash live`  the index holds every live entry once, where a search reaches it;
* `Indexed.place`, `Indexed.drop`  what writes keep it;
* `Indexed.reached`  a search that stops at a never-used slot has passed the entry.
-/

namespace Probing

open List

inductive Slot (α : Type := Nat) where
  | empty
  | deleted
  | entry (pos : α)
deriving DecidableEq, Repr

variable {α : Type}

def probe (cap h i : Nat) : Nat := (h + i) % cap

variable {cap : Nat}

theorem probe_lt (hcap : 0 < cap) (h i : Nat) : probe cap h i < cap :=
  Nat.mod_lt _ hcap

theorem probe_succ (cap h i : Nat) : (probe cap h i + 1) % cap = probe cap h (i + 1) := by
  rw [probe, probe, Nat.mod_add_mod, Nat.add_assoc]

theorem exists_probe {s : Nat} (hs : s < cap) (h : Nat) : ∃ i, i < cap ∧ probe cap h i = s := by
  have hcap : 0 < cap := by omega
  have hlt := Nat.mod_lt h hcap
  refine ⟨(s + (cap - h % cap)) % cap, Nat.mod_lt _ hcap, ?_⟩
  rw [probe, Nat.add_mod_mod, ← Nat.mod_add_mod,
    show h % cap + (s + (cap - h % cap)) = s + cap by omega, Nat.add_mod_right,
    Nat.mod_eq_of_lt hs]

/-! ## masks -/

theorem and_mask (hcap : ∃ k, cap = 2 ^ k) (x : Nat) : x &&& (cap - 1) = x % cap := by
  obtain ⟨k, rfl⟩ := hcap
  exact Nat.and_two_pow_sub_one_eq_mod x k

theorem hash_and_mask (hcap : ∃ k, cap = 2 ^ k) (h : Nat) : h &&& (cap - 1) = probe cap h 0 := by
  rw [and_mask hcap, probe, Nat.add_zero]

theorem next_and_mask (hcap : ∃ k, cap = 2 ^ k) (h i : Nat) :
    (probe cap h i + 1) &&& (cap - 1) = probe cap h (i + 1) := by
  rw [and_mask hcap, probe_succ]

/-! ## used slots -/

section
variable [DecidableEq α]

/-- the slots that are not empty -/
def used (slots : List (Slot α)) : Nat := slots.countP (· ≠ .empty)

theorem used_set_le (slots : List (Slot α)) (s : Nat) (x : Slot α) :
    used (slots.set s x) ≤ used slots + 1 := by
  by_cases hs : s < slots.length
  · rw [used, used, countP_set hs]
    split <;> split <;> omega
  · rw [set_eq_of_length_le (by omega)]
    omega

variable {slots : List (Slot α)}

theorem used_set_of_used {s : Nat} {y : Slot α} (hy : slots[s]? = some y) (hne : y ≠ .empty)
    (x : Slot α) : used (slots.set s x) ≤ used slots := by
  obtain ⟨hs, heq⟩ := List.getElem?_eq_some_iff.mp hy
  have hpos : 0 < used slots :=
    countP_pos_iff.mpr ⟨y, heq ▸ getElem_mem hs, decide_eq_true hne⟩
  rw [used] at hpos
  rw [used, used, countP_set hs, heq, if_pos (decide_eq_true hne)]
  split <;> omega

theorem used_replicate (cap : Nat) : used (replicate cap (Slot.empty : Slot α)) = 0 := by
  rw [used, countP_eq_zero]
  intro s hs
  rw [eq_of_mem_replicate hs, decide_eq_true_eq]
  exact not_not_intro rfl

theorem exists_empty (h : used slots < slots.length) : ∃ s : Nat, slots[s]? = some .empty := by
  obtain ⟨x, hx, hempty⟩ := countP_lt_length_iff.mp h
  obtain ⟨s, hs, rfl⟩ := mem_iff_getElem.mp hx
  refine ⟨s, ?_⟩
  rw [getElem?_eq_getElem hs]
  by_contra hne
  exact of_decide_eq_false hempty fun heq => hne (congrArg some heq)

theorem exists_first_empty (h : used slots < slots.length) (hash : Nat) :
    ∃ i, i < slots.length ∧ slots[probe slots.length hash i]? = some .empty ∧
      ∀ j < i, slots[probe slots.length hash j]? ≠ some .empty := by
  obtain ⟨s, hs⟩ := exists_empty h
  obtain ⟨i, hi, rfl⟩ := exists_probe (List.getElem?_eq_some_iff.mp hs).1 hash
  have hex : ∃ i, slots[probe slots.length hash i]? = some .empty := ⟨i, hs⟩
  exact ⟨Nat.find hex, Nat.lt_of_le_of_lt (Nat.find_le hs) hi, Nat.find_spec hex,
    fun j hj => Nat.find_min hex hj⟩

/-- the first empty slot from `slot` on takes `x`; a round without one goes on for ever -/
def placeLoop (x : Slot α) (mask : Nat) : Nat → Nat → List (Slot α) → Option (List (Slot α))
  | 0, _, _ => none
  | probes + 1, slot, slots =>
    if slots[slot]? = some .empty then some (slots.set slot x)
    else placeLoop x mask probes ((slot + 1) &&& mask) slots

theorem placeLoop_spec (hcap : ∃ k, slots.length = 2 ^ k) (h : Nat) (x : Slot α)
    (hused : used slots < slots.length) (probes : Nat) {i : Nat} (hi : i + probes = slots.length)
    (hpath : ∀ j < i, slots[probe slots.length h j]? ≠ some .empty) :
    ∃ l, placeLoop x (slots.length - 1) probes (probe slots.length h i) slots =
        some (slots.set (probe slots.length h l) x) ∧
      slots[probe slots.length h l]? = some .empty ∧
      ∀ j < l, slots[probe slots.length h j]? ≠ some .empty := by
  induction probes generalizing i with
  | zero =>
    obtain ⟨l, hl, hempty, -⟩ := exists_first_empty hused h
    exact absurd hempty (hpath l (by omega))
  | succ probes ih =>
    rw [placeLoop]
    split
    · rename_i hempty
      exact ⟨i, rfl, hempty, hpath⟩
    · rename_i hne
      rw [next_and_mask hcap]
      refine ih (by omega) fun j hj => ?_
      rcases Nat.lt_succ_iff_lt_or_eq.mp hj with hj | rfl
      · exact hpath j hj
      · exact hne

end

/-! ## the index -/

/-- every live entry has one slot, and a search for its hash passes no empty slot before it -/
structure Indexed (slots : List (Slot α)) (hash : α → Nat) (live : α → Prop) : Prop where
  sound : ∀ (s : Nat) (p : α), slots[s]? = some (.entry p) → live p
  path : ∀ (s : Nat) (p : α), slots[s]? = some (.entry p) → ∃ i, s = probe slots.length (hash p) i ∧
    ∀ j < i, slots[probe slots.length (hash p) j]? ≠ some .empty
  complete : ∀ p : α, live p → ∃ s : Nat, slots[s]? = some (.entry p)
  unique : ∀ (s s' : Nat) (p : α),
    slots[s]? = some (.entry p) → slots[s']? = some (.entry p) → s = s'

theorem indexed_replicate (cap : Nat) (hash : α → Nat) :
    Indexed (replicate cap .empty) hash fun _ => False := by
  have hnone : ∀ (s : Nat) (p : α), (replicate cap Slot.empty)[s]? ≠ some (.entry p) := by
    intro s p
    rw [getElem?_replicate]
    split <;> nofun
  exact ⟨fun s p h => hnone s p h, fun s p h => absurd h (hnone s p), fun p h => h.elim,
    fun s s' p h => absurd h (hnone s p)⟩

theorem Indexed.congr {slots : List (Slot α)} {hash hash' : α → Nat} {live live' : α → Prop}
    (h : Indexed slots hash live) (hlive : ∀ p, live p ↔ live' p)
    (hhash : ∀ p, live p → hash p = hash' p) : Indexed slots hash' live' where
  sound s p hs := (hlive p).mp (h.sound s p hs)
  path s p hs := hhash p (h.sound s p hs) ▸ h.path s p hs
  complete p hp := h.complete p ((hlive p).mpr hp)
  unique := h.unique

section
variable {slots : List (Slot α)} {hash : α → Nat} {live : α → Prop} (h : Indexed slots hash live)
include h

variable {p : α}

theorem Indexed.reached {i : Nat} (hp : live p)
    (hempty : slots[probe slots.length (hash p) i]? = some .empty) :
    ∃ j, j < i ∧ slots[probe slots.length (hash p) j]? = some (.entry p) := by
  obtain ⟨s, hs⟩ := h.complete p hp
  obtain ⟨k, rfl, hpath⟩ := h.path s p hs
  rcases Nat.lt_trichotomy k i with hlt | rfl | hgt
  · exact ⟨k, hlt, hs⟩
  · rw [hempty] at hs
    cases hs
  · exact absurd hempty (hpath i hgt)

theorem Indexed.path_set {x : Slot α} (hx : x ≠ .empty) {s t : Nat}
    (ht : slots[t]? = some (.entry p)) : ∃ i, t = probe (slots.set s x).length (hash p) i ∧
      ∀ j < i, (slots.set s x)[probe (slots.set s x).length (hash p) j]? ≠ some .empty := by
  obtain ⟨i, rfl, hpath⟩ := h.path t p ht
  rw [List.length_set]
  refine ⟨i, rfl, fun j hj heq => ?_⟩
  rw [getElem?_set] at heq
  split at heq
  · split at heq
    · exact hx (Option.some.inj heq)
    · cases heq
  · exact hpath j hj heq

theorem Indexed.place {i : Nat} (hp : ¬ live p)
    (hs : slots[probe slots.length (hash p) i]? = some .empty ∨ slots[probe slots.length (hash p)
      i]? = some .deleted) (hpath : ∀ j < i, slots[probe slots.length (hash p) j]? ≠ some .empty) :
    Indexed (slots.set (probe slots.length (hash p) i) (.entry p)) hash
      fun q => live q ∨ q = p := by
  generalize hslot : probe slots.length (hash p) i = s at hs
  have hlt : s < slots.length := by
    rcases hs with hs | hs
    · exact (List.getElem?_eq_some_iff.mp hs).1
    · exact (List.getElem?_eq_some_iff.mp hs).1
  have hread : ∀ (t : Nat) (q : α), (slots.set s (.entry p))[t]? = some (.entry q) →
      t = s ∧ q = p ∨ t ≠ s ∧ slots[t]? = some (.entry q) := by
    intro t q ht
    rw [getElem?_set] at ht
    split at ht
    · rename_i heq
      cases ht
      exact .inl ⟨heq.symm, rfl⟩
    · rename_i hne
      exact .inr ⟨fun heq => hne heq.symm, ht⟩
  refine ⟨fun t q ht => ?_, fun t q ht => ?_, fun q hq => ?_, fun t t' q ht ht' => ?_⟩
  · rcases hread t q ht with ⟨-, rfl⟩ | ⟨-, ht⟩
    · exact .inr rfl
    · exact .inl (h.sound t q ht)
  · rcases hread t q ht with ⟨rfl, rfl⟩ | ⟨-, ht⟩
    · refine ⟨i, by rw [List.length_set]; exact hslot.symm, fun j hj heq => ?_⟩
      rw [List.length_set, getElem?_set] at heq
      split at heq
      · cases heq
      · exact hpath j hj heq
    · exact h.path_set (x := .entry p) nofun ht
  · rcases hq with hq | rfl
    · obtain ⟨t, ht⟩ := h.complete q hq
      refine ⟨t, ?_⟩
      rw [getElem?_set_ne, ht]
      rintro rfl
      rcases hs with hs | hs <;>
      · rw [hs] at ht
        cases ht
    · exact ⟨s, getElem?_set_self hlt⟩
  · rcases hread t q ht with ⟨rfl, rfl⟩ | ⟨-, hold⟩
    · rcases hread t' q ht' with ⟨rfl, -⟩ | ⟨-, hold'⟩
      · rfl
      · exact absurd (h.sound t' q hold') hp
    · rcases hread t' q ht' with ⟨-, rfl⟩ | ⟨-, hold'⟩
      · exact absurd (h.sound t q hold) hp
      · exact h.unique t t' q hold hold'

theorem Indexed.drop {s : Nat} (hs : slots[s]? = some (.entry p)) :
    Indexed (slots.set s .deleted) hash fun q => live q ∧ q ≠ p := by
  have hread : ∀ (t : Nat) (q : α), (slots.set s .deleted)[t]? = some (.entry q) →
      t ≠ s ∧ slots[t]? = some (.entry q) := by
    intro t q ht
    rw [getElem?_set] at ht
    split at ht
    · split at ht
      · cases ht
      · cases ht
    · rename_i hne
      exact ⟨fun heq => hne heq.symm, ht⟩
  refine ⟨fun t q ht => ?_, fun t q ht => ?_, fun q hq => ?_, fun t t' q ht ht' => ?_⟩
  · obtain ⟨hne, ht⟩ := hread t q ht
    refine ⟨h.sound t q ht, ?_⟩
    rintro rfl
    exact hne (h.unique t s q ht hs)
  · exact h.path_set (x := .deleted) nofun (hread t q ht).2
  · obtain ⟨t, ht⟩ := h.complete q hq.1
    refine ⟨t, ?_⟩
    rw [getElem?_set_ne, ht]
    rintro rfl
    rw [hs] at ht
    cases ht
    exact hq.2 rfl
  · exact h.unique t t' q (hread t q ht).2 (hread t' q ht').2

end

end Probing
