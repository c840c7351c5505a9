import Mathlib

/-!
# Maps in insertion order

A map as the list of its pairs, first inserted first, and what a history of operations says
about it.

* `set`, `remove`, `mapValues`  the operations;
* `content past`  the map after a history, newest operation first;
* `lastStored`, `insertedAt`  the value stored last, and the time of the insertion;
* `lookup_content`, `order_content`  the content of a map is what its history says;
* `modify_eq_set`, `eraseIdx_eq_remove`, `lookup_perm`  maps that are kept by their places.
-/

namespace OrderedMap

open List Option

variable {κ α : Type*} [DecidableEq κ]

def keys (l : List (κ × α)) : List κ := l.map Prod.fst

def lookup (l : List (κ × α)) (k : κ) : Option α := (l.find? (·.1 = k)).map (·.2)

/-- a key that is there keeps its place, a new one goes last -/
def set (l : List (κ × α)) (k : κ) (v : α) : List (κ × α) :=
  if k ∈ keys l then l.map fun e => if e.1 = k then (e.1, v) else e else l ++ [(k, v)]

def remove (l : List (κ × α)) (k : κ) : List (κ × α) := l.filter (·.1 ≠ k)

def mapValues (f : α → α) (l : List (κ × α)) : List (κ × α) := l.map fun e => (e.1, f e.2)

/-! ## keys -/

variable {k : κ} {l : List (κ × α)} {i : Nat}

theorem keys_set_of_mem (h : k ∈ keys l) (v : α) : keys (set l k v) = keys l := by
  rw [set, if_pos h, keys, keys, List.map_map]
  refine map_congr_left fun e _ => ?_
  show (if e.1 = k then (e.1, v) else e).1 = e.1
  split <;> rfl

theorem keys_set_of_not_mem (h : k ∉ keys l) (v : α) : keys (set l k v) = keys l ++ [k] := by
  rw [set, if_neg h, keys, map_append]
  rfl

theorem keys_remove (l : List (κ × α)) (k : κ) : keys (remove l k) = (keys l).filter (· ≠ k) := by
  rw [keys, keys, remove, List.filter_map]
  rfl

omit [DecidableEq κ] in
theorem keys_mapValues (f : α → α) (l : List (κ × α)) : keys (mapValues f l) = keys l := by
  rw [keys, keys, mapValues, List.map_map]
  rfl

theorem nodup_set (h : (keys l).Nodup) (k : κ) (v : α) : (keys (set l k v)).Nodup := by
  by_cases hk : k ∈ keys l
  · rwa [keys_set_of_mem hk]
  · rw [keys_set_of_not_mem hk]
    exact nodup_append.mpr ⟨h, nodup_singleton k, fun a ha b hb => by
      rw [mem_singleton.mp hb]
      exact fun heq => hk (heq ▸ ha)⟩

omit [DecidableEq κ] in
theorem length_keys (l : List (κ × α)) : (keys l).length = l.length := length_map _

theorem length_remove (h : (keys l).Nodup) (hk : k ∈ keys l) :
    (remove l k).length = l.length - 1 := by
  have herase : (keys l).filter (· ≠ k) = (keys l).erase k := by
    rw [h.erase_eq_filter]
    refine filter_congr fun a _ => ?_
    by_cases ha : a = k <;> simp [ha]
  rw [← length_keys, keys_remove, herase, length_erase_of_mem hk, length_keys]

/-! ## lookup -/

theorem lookup_eq_none_iff : lookup l k = none ↔ k ∉ keys l := by
  rw [lookup, map_eq_none_iff, find?_eq_none, keys, List.mem_map]
  constructor
  · rintro h ⟨e, he, heq⟩
    exact h e he (decide_eq_true heq)
  · intro h e he heq
    exact h ⟨e, he, of_decide_eq_true heq⟩

theorem lookup_map (f : κ × α → α) (l : List (κ × α)) (k : κ) :
    lookup (l.map fun e => (e.1, f e)) k = (l.find? (·.1 = k)).map f := by
  rw [lookup, find?_map, Option.map_map]
  rfl

theorem lookup_set (l : List (κ × α)) (k k' : κ) (v : α) :
    lookup (set l k v) k' = if k = k' then some v else lookup l k' := by
  by_cases hk : k ∈ keys l
  · have hmap : set l k v = l.map fun e => (e.1, if e.1 = k then v else e.2) := by
      rw [set, if_pos hk]
      refine map_congr_left fun e _ => ?_
      split <;> rfl
    rw [hmap, lookup_map]
    cases hfind : l.find? (·.1 = k') with
    | none =>
      have hnone : lookup l k' = none := by
        rw [lookup, hfind]
        rfl
      rw [if_neg]
      · rw [hnone]
        rfl
      · rintro rfl
        exact lookup_eq_none_iff.mp hnone hk
    | some e =>
      have hmatch := find?_some hfind
      have he : e.1 = k' := of_decide_eq_true hmatch
      rw [lookup, hfind, map_some, map_some, he]
      by_cases heq : k = k'
      · rw [if_pos heq, if_pos heq.symm]
      · rw [if_neg heq, if_neg (Ne.symm heq)]
  · rw [set, if_neg hk, lookup, find?_append, map_or]
    by_cases heq : k = k'
    · have hnone : (l.find? (·.1 = k')).map (·.2) = none :=
        lookup_eq_none_iff.mpr (heq ▸ hk)
      rw [hnone, if_pos heq, find?_singleton, if_pos (decide_eq_true heq)]
      rfl
    · rw [if_neg heq, find?_singleton, if_neg (by simpa using heq), map_none, or_none, lookup]

theorem lookup_remove (l : List (κ × α)) (k k' : κ) :
    lookup (remove l k) k' = if k = k' then none else lookup l k' := by
  by_cases heq : k = k'
  · rw [if_pos heq, lookup_eq_none_iff, keys_remove, mem_filter]
    rintro ⟨-, hne⟩
    exact of_decide_eq_true hne heq.symm
  · rw [if_neg heq, lookup, lookup, remove, find?_filter]
    congr 2
    funext e
    by_cases hk : e.1 = k'
    · simp [hk, Ne.symm heq]
    · simp [hk]

theorem lookup_mapKeys {κ' : Type*} [DecidableEq κ'] {f : κ → κ'} (hf : Function.Injective f)
    (l : List (κ × α)) (k : κ) : lookup (l.map (Prod.map f id)) (f k) = lookup l k := by
  rw [lookup, lookup, find?_map, Option.map_map]
  have hp : ((fun e : κ' × α => decide (e.1 = f k)) ∘ Prod.map f id) = fun e => decide (e.1 = k) := by
    funext e
    exact decide_eq_decide.mpr hf.eq_iff
  rw [hp]
  rfl

theorem lookup_mapValues (f : α → α) (l : List (κ × α)) (k : κ) :
    lookup (mapValues f l) k = (lookup l k).map f := by
  rw [mapValues, lookup_map, lookup, Option.map_map]
  rfl

/-! ## keys without repetition -/

theorem lookup_eq_some_iff (h : (keys l).Nodup) {v : α} : lookup l k = some v ↔ (k, v) ∈ l := by
  induction l with
  | nil => exact ⟨nofun, nofun⟩
  | cons e l ih =>
    obtain ⟨hnot, hnodup⟩ := nodup_cons.mp h
    rw [lookup, find?_cons, mem_cons]
    by_cases hk : e.1 = k
    · rw [decide_eq_true hk]
      constructor
      · intro hv
        exact .inl (Prod.ext hk.symm (some.inj hv).symm)
      · rintro (rfl | hmem)
        · rfl
        · exact absurd (List.mem_map.mpr ⟨(k, v), hmem, hk.symm⟩) hnot
    · rw [decide_eq_false hk]
      refine Iff.trans (ih hnodup) ⟨.inr, fun hmem => hmem.resolve_left fun heq => hk ?_⟩
      rw [← heq]

theorem lookup_perm {l' : List (κ × α)} (h : (keys l).Nodup) (hperm : l'.Perm l) (k : κ) :
    lookup l' k = lookup l k := by
  have h' : (keys l').Nodup := (hperm.map Prod.fst).nodup_iff.mpr h
  refine Option.ext fun v => ?_
  rw [lookup_eq_some_iff h, lookup_eq_some_iff h', hperm.mem_iff]

theorem modify_eq_set (h : (keys l).Nodup) {e : κ × α} (hi : l[i]? = some e) (v : α) :
    l.modify i (fun e => (e.1, v)) = set l e.1 v := by
  have hmem : e.1 ∈ keys l := List.mem_map.mpr ⟨e, mem_of_getElem? hi, rfl⟩
  rw [set, if_pos hmem]
  clear hmem
  induction l generalizing i with
  | nil => cases hi
  | cons d l ih =>
    obtain ⟨hnot, hnodup⟩ := nodup_cons.mp h
    cases i with
    | zero =>
      cases some.inj hi
      rw [modify_zero_cons, map_cons, if_pos rfl]
      congr 1
      refine (List.map_id l).symm.trans (map_congr_left fun x hx => ?_)
      rw [if_neg fun heq => hnot (List.mem_map.mpr ⟨x, hx, heq⟩)]
      rfl
    | succ i =>
      rw [getElem?_cons_succ] at hi
      have hne : d.1 ≠ e.1 := fun heq =>
        hnot (List.mem_map.mpr ⟨e, mem_of_getElem? hi, heq.symm⟩)
      rw [modify_succ_cons, map_cons, if_neg hne, ih hnodup hi]

theorem eraseIdx_eq_remove (h : (keys l).Nodup) {e : κ × α} (hi : l[i]? = some e) :
    l.eraseIdx i = remove l e.1 := by
  rw [remove]
  induction l generalizing i with
  | nil => cases hi
  | cons d l ih =>
    obtain ⟨hnot, hnodup⟩ := nodup_cons.mp h
    cases i with
    | zero =>
      cases some.inj hi
      rw [eraseIdx_zero, List.tail_cons, filter_cons_of_neg (by simp)]
      refine (filter_eq_self.mpr fun x hx => ?_).symm
      exact decide_eq_true fun heq => hnot (List.mem_map.mpr ⟨x, hx, heq⟩)
    | succ i =>
      rw [getElem?_cons_succ] at hi
      have hne : d.1 ≠ e.1 := fun heq =>
        hnot (List.mem_map.mpr ⟨e, mem_of_getElem? hi, heq.symm⟩)
      rw [eraseIdx_cons_succ, filter_cons_of_pos (by simpa using hne), ih hnodup hi]

/-! ## histories -/

inductive Op (κ α : Type*) where
  | set (k : κ) (v : α)
  | remove (k : κ)
  | update (f : α → α)

def Op.apply (l : List (κ × α)) : Op κ α → List (κ × α)
  | .set k v => OrderedMap.set l k v
  | .remove k => OrderedMap.remove l k
  | .update f => mapValues f l

/-- the map after a history, newest operation first -/
def content : List (Op κ α) → List (κ × α)
  | [] => []
  | op :: past => op.apply (content past)

/-- the value stored last under a key, unless the key was removed since -/
def lastStored : List (Op κ α) → κ → Option α
  | [], _ => none
  | .set k v :: past, k' => if k = k' then some v else lastStored past k'
  | .remove k :: past, k' => if k = k' then none else lastStored past k'
  | .update f :: past, k' => (lastStored past k').map f

/-- the time a key was first inserted since its last removal -/
def insertedAt : List (Op κ α) → κ → Option Nat
  | [], _ => none
  | .set k _ :: past, k' =>
    if k = k' then (insertedAt past k').or (some past.length) else insertedAt past k'
  | .remove k :: past, k' => if k = k' then none else insertedAt past k'
  | .update _ :: past, k' => insertedAt past k'

theorem lookup_content (past : List (Op κ α)) (k : κ) :
    lookup (content past) k = lastStored past k := by
  induction past with
  | nil => rfl
  | cons op past ih =>
    cases op with
    | set k' v => exact (lookup_set _ _ _ _).trans (by rw [ih, lastStored])
    | remove k' => exact (lookup_remove _ _ _).trans (by rw [ih, lastStored])
    | update f => exact (lookup_mapValues _ _ _).trans (by rw [ih, lastStored])

theorem insertedAt_isSome (past : List (Op κ α)) (k : κ) :
    (insertedAt past k).isSome ↔ k ∈ keys (content past) := by
  induction past with
  | nil => exact ⟨nofun, nofun⟩
  | cons op past ih =>
    cases op with
    | set k' v =>
      show _ ↔ k ∈ keys (OrderedMap.set _ _ _)
      rw [insertedAt]
      by_cases hk : k' ∈ keys (content past)
      · rw [keys_set_of_mem hk, ← ih]
        split
        · rename_i heq
          have hsome := ih.mpr (heq ▸ hk)
          obtain ⟨i, hi⟩ := isSome_iff_exists.mp hsome
          rw [hi]
          rfl
        · rfl
      · rw [keys_set_of_not_mem hk, mem_append, mem_singleton, ← ih]
        split
        · rename_i heq
          rw [isSome_or]
          simp [heq]
        · rename_i hne
          exact ⟨.inl, fun h => h.resolve_right (Ne.symm hne)⟩
    | remove k' =>
      show _ ↔ k ∈ keys (OrderedMap.remove _ _)
      rw [insertedAt, keys_remove, mem_filter, ← ih, decide_eq_true_eq]
      split
      · rename_i heq
        exact ⟨nofun, fun h => absurd heq.symm h.2⟩
      · rename_i hne
        exact ⟨fun h => ⟨h, Ne.symm hne⟩, fun h => h.1⟩
    | update f =>
      show _ ↔ k ∈ keys (mapValues _ _)
      rw [insertedAt, keys_mapValues, ih]

theorem insertedAt_lt {past : List (Op κ α)} (h : insertedAt past k = some i) :
    i < past.length := by
  induction past with
  | nil => cases h
  | cons op past ih =>
    rw [length_cons]
    cases op with
    | set k' v =>
      rw [insertedAt] at h
      split at h
      · cases hold : insertedAt past k with
        | none =>
          rw [hold] at h
          cases h
          exact Nat.lt_succ_self _
        | some j =>
          rw [hold] at h
          cases h
          exact Nat.lt_succ_of_lt (ih hold)
      · exact Nat.lt_succ_of_lt (ih h)
    | remove k' =>
      rw [insertedAt] at h
      split at h
      · cases h
      · exact Nat.lt_succ_of_lt (ih h)
    | update f => exact Nat.lt_succ_of_lt (ih h)

/-- `a` was inserted before `b` -/
def Earlier (past : List (Op κ α)) (a b : κ) : Prop :=
  ∃ i j, insertedAt past a = some i ∧ insertedAt past b = some j ∧ i < j

theorem order_content (past : List (Op κ α)) : (keys (content past)).Pairwise (Earlier past) := by
  induction past with
  | nil => exact List.Pairwise.nil
  | cons op past ih =>
    have hkept : ∀ l : List κ, l.Sublist (keys (content past)) →
        (∀ a ∈ l, insertedAt (op :: past) a = insertedAt past a) →
        l.Pairwise (Earlier (op :: past)) := by
      intro l hl hsame
      refine (ih.sublist hl).imp_of_mem fun ha hb ⟨i, j, hi, hj, hlt⟩ => ?_
      exact ⟨i, j, (hsame _ ha).trans hi, (hsame _ hb).trans hj, hlt⟩
    cases op with
    | set k v =>
      show (keys (OrderedMap.set _ _ _)).Pairwise _
      by_cases hk : k ∈ keys (content past)
      · rw [keys_set_of_mem hk]
        refine hkept _ (Sublist.refl _) fun a ha => ?_
        rw [insertedAt]
        split
        · obtain ⟨i, hi⟩ := isSome_iff_exists.mp ((insertedAt_isSome past a).mpr ha)
          rw [hi]
          rfl
        · rfl
      · rw [keys_set_of_not_mem hk]
        have hsame : ∀ a ∈ keys (content past),
            insertedAt (.set k v :: past) a = insertedAt past a := by
          intro a ha
          rw [insertedAt, if_neg]
          rintro rfl
          exact hk ha
        refine pairwise_append.mpr ⟨hkept _ (Sublist.refl _) hsame,
          pairwise_singleton _ _, fun a ha b hb => ?_⟩
        rw [mem_singleton.mp hb]
        obtain ⟨i, hi⟩ := isSome_iff_exists.mp ((insertedAt_isSome past a).mpr ha)
        have hnone : insertedAt past k = none := by
          rw [← not_isSome_iff_eq_none, insertedAt_isSome]
          exact hk
        refine ⟨i, past.length, (hsame a ha).trans hi, ?_, insertedAt_lt hi⟩
        rw [insertedAt, if_pos rfl, hnone]
        rfl
    | remove k =>
      show (keys (OrderedMap.remove _ _)).Pairwise _
      rw [keys_remove]
      refine hkept _ filter_sublist fun a ha => ?_
      rw [insertedAt, if_neg]
      rintro rfl
      exact of_decide_eq_true (mem_filter.mp ha).2 rfl
    | update f =>
      show (keys (mapValues _ _)).Pairwise _
      rw [keys_mapValues]
      exact hkept _ (Sublist.refl _) fun a _ => rfl

end OrderedMap
