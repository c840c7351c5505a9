import Pscal.Lib.Counting

/-!
# Queues with a place for some of their entries

* `Reserved p l m`  each entry of the queue `l` with `p` stands among its first `m`;
* `Reserved.push`, `Reserved.pop`, `Reserved.erase`  the operations of a queue;
* `Reserved.places`  the entries with `p` have distinct places of a table.
-/

namespace Reservation

open Counting List

variable {α : Type}

def Reserved (p : α → Prop) (l : List α) (m : Nat) : Prop :=
  ∀ k a, l[k]? = some a → p a → k < m

variable {p q : α → Prop} {l : List α} {m m' : Nat}

theorem reserved_nil : Reserved p [] m := nofun

theorem Reserved.mono (h : Reserved p l m) (hm : m ≤ m') : Reserved p l m' :=
  fun k a hk hp => Nat.lt_of_lt_of_le (h k a hk hp) hm

theorem Reserved.congr (h : Reserved p l m) (hq : ∀ a ∈ l, q a → p a) : Reserved q l m :=
  fun k a hk ha => h k a hk (hq a (mem_of_getElem? hk) ha)

theorem reserved_of_length (h : l.length ≤ m) : Reserved p l m := fun k _ hk _ => by
  obtain ⟨hlt, -⟩ := List.getElem?_eq_some_iff.mp hk
  exact Nat.lt_of_lt_of_le hlt h

theorem Reserved.push (h : Reserved p l m) {a : α} (ha : p a → l.length < m) :
    Reserved p (l ++ [a]) m := fun k b hk hb => by
  rcases Nat.lt_or_ge k l.length with hlt | hge
  · rw [getElem?_append_left hlt] at hk
    exact h k b hk hb
  · rw [getElem?_append_right hge] at hk
    cases hd : k - l.length with
    | zero =>
      rw [hd] at hk
      cases hk
      have hlt := ha hb
      omega
    | succ d =>
      rw [hd] at hk
      cases hk

theorem Reserved.pop {a : α} (h : Reserved p (a :: l) m) : Reserved p l (m - 1) :=
  fun k b hk hb => Nat.lt_sub_of_add_lt (h (k + 1) b hk hb)

theorem Reserved.erase [DecidableEq α] (h : Reserved p l m) (a : α) : Reserved p (l.erase a) m := by
  intro k b hk hb
  by_cases ha : a ∈ l
  · obtain ⟨l₁, l₂, -, hl, hl'⟩ := exists_erase_eq ha
    rw [hl'] at hk
    subst hl
    rcases Nat.lt_or_ge k l₁.length with hlt | hge
    · rw [getElem?_append_left hlt] at hk
      exact h k b (by rw [getElem?_append_left hlt]; exact hk) hb
    · rw [getElem?_append_right hge] at hk
      have hnext : (l₁ ++ a :: l₂)[k + 1]? = some b := by
        rw [getElem?_append_right (Nat.le_succ_of_le hge), Nat.succ_sub hge]
        exact hk
      exact Nat.lt_of_succ_lt (h (k + 1) b hnext hb)
  · rw [erase_of_not_mem ha] at hk
    exact h k b hk hb

section
variable {ι β : Type} [Fintype ι] {r : β → Prop} [DecidablePred r] {f : ι → β}

theorem Reserved.places (h : Reserved p l (count r f)) :
    ∃ place : {k : Fin l.length // p (l.get k)} → ι,
      Function.Injective place ∧ ∀ k, r (f (place k)) := by
  let s := Finset.univ.filter fun i => r (f i)
  have hlt : ∀ k : {k : Fin l.length // p (l.get k)}, k.val.val < s.card := fun k =>
    h k.val.val (l.get k.val) (getElem?_eq_getElem k.val.isLt) k.property
  refine ⟨fun k => s.equivFin.symm ⟨k.val.val, hlt k⟩, fun k₁ k₂ hk => ?_, fun k => ?_⟩
  · have hfin := s.equivFin.symm.injective (Subtype.ext hk)
    exact Subtype.ext (Fin.ext (Fin.mk.inj hfin))
  · exact (Finset.mem_filter.mp (s.equivFin.symm ⟨k.val.val, hlt k⟩).property).2

end

end Reservation
