import Mathlib

/-!
# Ring buffers

A list of `buf.length` slots of which `count` are in use, from `head` on and around the end.

* `contents buf head count`  the values in use, the oldest first;
* `contents_push`  a value is put into the slot after the last;
* `contents_pop`  the oldest value is taken out;
* `contents_take`  the newest values are taken back;
* `contents_modifyAll`  each value in use is changed where it is.
-/

namespace Ring

open List

variable {α : Type}

/-- the slot at a distance from `head` -/
def slot (buf : List α) (head i : Nat) : Nat := (head + i) % buf.length

def contents (buf : List α) (head count : Nat) : List α :=
  (List.range count).filterMap fun i => buf[slot buf head i]?

/-- the slots that are not in use hold `d` -/
def Vacant (buf : List α) (head count : Nat) (d : α) : Prop :=
  ∀ i, count ≤ i → i < buf.length → buf[slot buf head i]? = some d

variable {buf : List α} {i : Nat}

variable {head count : Nat}

theorem slot_inj {j : Nat} (hi : i < buf.length) (hj : j < buf.length)
    (h : slot buf head i = slot buf head j) : i = j := by
  have hmod : i ≡ j [MOD buf.length] := Nat.ModEq.add_left_cancel' head h
  rwa [Nat.ModEq, Nat.mod_eq_of_lt hi, Nat.mod_eq_of_lt hj] at hmod

theorem slot_set (buf : List α) (k : Nat) (v : α) (head i : Nat) :
    slot (buf.set k v) head i = slot buf head i := by
  rw [slot, slot, List.length_set]

theorem slot_lt (h : 0 < buf.length) (head i : Nat) : slot buf head i < buf.length :=
  Nat.mod_lt _ h

theorem slot_zero (h : head < buf.length) : slot buf head 0 = head :=
  Nat.mod_eq_of_lt h

theorem slot_succ (buf : List α) (head i : Nat) :
    slot buf ((head + 1) % buf.length) i = slot buf head (i + 1) := by
  rw [slot, slot, Nat.mod_add_mod]
  congr 1
  omega

theorem contents_push {buf : List α} {head count : Nat} (hcount : count < buf.length) (v : α) :
    contents (buf.set (slot buf head count) v) head (count + 1) =
      contents buf head count ++ [v] := by
  have hlt := slot_lt (Nat.zero_lt_of_lt hcount) head count
  have hlast : (buf.set (slot buf head count) v)[slot buf head count]? = some v := by
    rw [getElem?_set_self hlt]
  rw [contents, contents, List.range_succ, filterMap_append]
  congr 1
  · refine filterMap_congr fun i hi => ?_
    have hi := mem_range.mp hi
    rw [slot_set, getElem?_set_ne fun h => ?_]
    have := slot_inj hcount (by omega) h
    omega
  · rw [filterMap_cons, slot_set, hlast, filterMap_nil]

theorem vacant_push {d : α} (h : Vacant buf head count d) (hcount : count < buf.length) (v : α) :
    Vacant (buf.set (slot buf head count) v) head (count + 1) d := by
  intro i hle hlt
  rw [List.length_set] at hlt
  rw [slot_set, getElem?_set_ne fun h => ?_]
  · exact h i (by omega) hlt
  · have := slot_inj hcount hlt h
    omega

theorem contents_pop (hhead : head < buf.length) (hcount : count < buf.length) (d : α) :
    contents buf head (count + 1) =
      buf[head] :: contents (buf.set head d) ((head + 1) % buf.length) count := by
  rw [contents, contents, range_succ_eq_map, filterMap_cons, slot_zero hhead,
    getElem?_eq_getElem hhead, filterMap_map]
  refine congrArg (buf[head] :: ·) ?_
  refine filterMap_congr fun i hi => ?_
  have hi := mem_range.mp hi
  rw [slot_set, slot_succ, getElem?_set_ne fun h => ?_]
  · rfl
  · have := slot_inj (by omega) (by omega) ((slot_zero hhead).trans h)
    omega

theorem vacant_pop {d : α} (h : Vacant buf head (count + 1) d) (hhead : head < buf.length) :
    Vacant (buf.set head d) ((head + 1) % buf.length) count d := by
  intro i hle hlt
  rw [List.length_set] at hlt
  rw [slot_set, slot_succ]
  by_cases hlast : i + 1 = buf.length
  · -- the slot that was emptied is now the last
    have hself : slot buf head (i + 1) = head := by
      rw [slot, hlast, Nat.add_mod_right, Nat.mod_eq_of_lt hhead]
    rw [hself, getElem?_set_self hhead]
  · rw [getElem?_set_ne fun h => ?_]
    · exact h (i + 1) (by omega) (by omega)
    · have := slot_inj (by omega) (by omega) ((slot_zero hhead).trans h)
      omega

theorem contents_length {buf : List α} {head count : Nat} (h : 0 < buf.length) :
    (contents buf head count).length = count := by
  induction count with
  | zero => rfl
  | succ count ih =>
    rw [contents] at ih ⊢
    rw [List.range_succ, filterMap_append, length_append, ih, filterMap_cons,
      getElem?_eq_getElem (slot_lt h head count)]
    rfl

theorem getElem?_contents (h : 0 < buf.length) (hi : i < count) :
    (contents buf head count)[i]? = buf[slot buf head i]? := by
  induction count with
  | zero => omega
  | succ count ih =>
    have hlen := @contents_length _ buf head count h
    have hlt := slot_lt h head count
    have hslot := getElem?_eq_getElem hlt
    have hsplit : contents buf head (count + 1) =
        contents buf head count ++ [buf[slot buf head count]] := by
      rw [contents, List.range_succ, filterMap_append, filterMap_cons, hslot]
      rfl
    rw [hsplit]
    by_cases hlt : i < count
    · rw [getElem?_append_left (by omega), ih hlt]
    · obtain rfl : i = count := by omega
      rw [getElem?_append_right (by omega), hlen, Nat.sub_self, hslot]
      rfl

theorem contents_take {k : Nat} (h : 0 < buf.length) (hk : k ≤ count) :
    contents buf head k = (contents buf head count).take k := by
  refine ext_getElem? fun i => ?_
  by_cases hi : i < k
  · rw [getElem?_take_of_lt hi, getElem?_contents h hi, getElem?_contents h (by omega)]
  · rw [getElem?_take_eq_none (by omega), getElem?_eq_none]
    rw [contents_length h]
    omega

theorem contents_tail (hhead : head < buf.length) (hcount : count < buf.length) :
    contents buf head (count + 1) =
      buf[head] :: contents buf ((head + 1) % buf.length) count := by
  rw [contents_pop hhead hcount buf[head], set_getElem_self]

theorem contents_modify (hi : i < count) (hcount : count ≤ buf.length) (f : α → α) :
    contents (buf.modify (slot buf head i) f) head count =
      (contents buf head count).modify i f := by
  have hpos : 0 < buf.length := by omega
  have hpos' : 0 < (buf.modify (slot buf head i) f).length := by rwa [length_modify]
  refine ext_getElem? fun j => ?_
  rw [getElem?_modify]
  by_cases hj : j < count
  · have hslot : slot (buf.modify (slot buf head i) f) head j = slot buf head j := by
      rw [slot, length_modify, slot]
    rw [getElem?_contents hpos' hj, getElem?_contents hpos hj, hslot, getElem?_modify]
    have hiff : slot buf head i = slot buf head j ↔ i = j :=
      ⟨slot_inj (by omega) (by omega), congrArg _⟩
    simp only [hiff]
  · have hlen := @contents_length _ buf head count hpos
    have hlen' := @contents_length _ (buf.modify (slot buf head i) f) head count hpos'
    rw [getElem?_eq_none (by omega), getElem?_eq_none (by omega), Option.map_eq_map,
      Option.map_none]

theorem contents_modifyAll (hcount : count ≤ buf.length) (f : Nat → α → α) :
    contents ((List.range count).foldl (fun b i => b.modify (slot buf head i) (f i)) buf)
      head count = (contents buf head count).mapIdx f := by
  suffices ∀ n ≤ count, ∃ b : List α,
      (List.range n).foldl (fun b i => b.modify (slot buf head i) (f i)) buf = b ∧
      b.length = buf.length ∧ contents b head count =
        (contents buf head count).mapIdx fun i v => if i < n then f i v else v by
    obtain ⟨b, hb, -, h⟩ := this count (Nat.le_refl _)
    rw [hb, h]
    refine mapIdx_eq_mapIdx_iff.mpr fun i hi => ?_
    by_cases hpos : 0 < buf.length
    · rw [contents_length hpos] at hi
      rw [if_pos hi]
    · obtain rfl : count = 0 := by omega
      exact absurd hi (by simp [contents])
  intro n hn
  induction n with
  | zero =>
    refine ⟨buf, rfl, rfl, ?_⟩
    simp only [Nat.not_lt_zero, if_false]
    exact (mapIdx_eq_iff.mpr fun i => by simp).symm
  | succ n ih =>
    obtain ⟨b, hb, hlen, h⟩ := ih (by omega)
    have hslot : slot buf head n = slot b head n := by rw [slot, slot, hlen]
    refine ⟨b.modify (slot b head n) (f n), ?_, by rw [length_modify, hlen], ?_⟩
    · rw [List.range_succ, foldl_append, hb, foldl_cons, foldl_nil, hslot]
    · rw [contents_modify (by omega) (by omega), h]
      refine ext_getElem? fun i => ?_
      rw [getElem?_modify, getElem?_mapIdx, getElem?_mapIdx, Option.map_eq_map, Option.map_map]
      refine congrArg (Option.map · _) (funext fun v => ?_)
      show (if n = i then f n (if i < n then f i v else v) else if i < n then f i v else v) = _
      rcases Nat.lt_trichotomy i n with hlt | rfl | hgt
      · rw [if_neg (by omega), if_pos hlt, if_pos (by omega)]
      · rw [if_pos rfl, if_neg (by omega), if_pos (by omega)]
      · rw [if_neg (by omega), if_neg (by omega), if_neg (by omega)]

end Ring
