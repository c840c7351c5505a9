import Mathlib

/-!
# Patches of a list

A patch is a position and the elements that go there.

* `write`, `getElem?_write_of_outside`, `getElem?_write_of_inside`  one patch;
* `Apart`  patches do not overlap;
* `writeAll`, `getElem?_writeAll_of_outside`, `getElem?_writeAll_of_mem`  a list of patches.
-/

namespace Patch

open List

variable {α : Type*}

/-- `xs` with the elements from `pos` on replaced by `ys` -/
def write (xs : List α) (pos : Nat) (ys : List α) : List α :=
  xs.take pos ++ ys ++ xs.drop (pos + ys.length)

/-- the position `k` is not touched by the patch `p` -/
def Outside (p : Nat × List α) (k : Nat) : Prop := k < p.1 ∨ p.1 + p.2.length ≤ k

def Inside (p : Nat × List α) (n : Nat) : Prop := p.1 + p.2.length ≤ n

/-- no position is touched by both patches -/
def Apart (p q : Nat × List α) : Prop := p.1 + p.2.length ≤ q.1 ∨ q.1 + q.2.length ≤ p.1

section
variable {xs ys : List α} {pos : Nat} (h : pos + ys.length ≤ xs.length)
include h

theorem length_write : (write xs pos ys).length = xs.length := by
  rw [write, length_append, length_append, length_take, length_drop, Nat.min_eq_left (by omega)]
  omega

theorem write_append_right (rest : List α) : write (xs ++ rest) pos ys = write xs pos ys ++ rest := by
  rw [write, write, take_append_of_le_length (by omega), drop_append_of_le_length h,
    append_assoc, append_assoc, append_assoc]

theorem getElem?_write_of_outside {k : Nat} (hk : Outside (pos, ys) k) :
    (write xs pos ys)[k]? = xs[k]? := by
  have htake : (xs.take pos).length = pos := by
    rw [length_take]
    omega
  rcases hk with hk | hk
  · have hlt : k < pos := hk
    rw [write, append_assoc, getElem?_append_left (by omega), getElem?_take, if_pos hlt]
  · have hle : pos + ys.length ≤ k := hk
    have hlen : (xs.take pos ++ ys).length = pos + ys.length := by
      rw [length_append, htake]
    rw [write, getElem?_append_right (by omega), hlen, getElem?_drop, Nat.add_sub_cancel' hle]

theorem getElem?_write_of_inside {i : Nat} (hi : i < ys.length) :
    (write xs pos ys)[pos + i]? = ys[i]? := by
  have htake : (xs.take pos).length = pos := by
    rw [length_take]
    omega
  rw [write, append_assoc, getElem?_append_right (by omega), htake,
    Nat.add_sub_cancel_left, getElem?_append_left hi]

end

/-- the patches one after the other -/
def writeAll (xs : List α) (ps : List (Nat × List α)) : List α :=
  ps.foldl (fun xs p => write xs p.1 p.2) xs

theorem writeAll_cons (xs : List α) (p : Nat × List α) (ps : List (Nat × List α)) :
    writeAll xs (p :: ps) = writeAll (write xs p.1 p.2) ps := rfl

theorem writeAll_append (xs : List α) (ps qs : List (Nat × List α)) :
    writeAll xs (ps ++ qs) = writeAll (writeAll xs ps) qs := foldl_append

theorem length_writeAll (ps : List (Nat × List α)) {xs : List α}
    (h : ∀ p ∈ ps, Inside p xs.length) : (writeAll xs ps).length = xs.length := by
  induction ps generalizing xs with
  | nil => rfl
  | cons p ps ih =>
    have hp : (write xs p.1 p.2).length = xs.length := length_write (h p mem_cons_self)
    rw [writeAll_cons, ih fun q hq => hp ▸ h q (mem_cons_of_mem _ hq), hp]

theorem getElem?_writeAll_of_outside (ps : List (Nat × List α)) {xs : List α}
    (h : ∀ p ∈ ps, Inside p xs.length) {k : Nat} (hk : ∀ p ∈ ps, Outside p k) :
    (writeAll xs ps)[k]? = xs[k]? := by
  induction ps generalizing xs with
  | nil => rfl
  | cons p ps ih =>
    have hin : Inside p xs.length := h p mem_cons_self
    have hp : (write xs p.1 p.2).length = xs.length := length_write hin
    rw [writeAll_cons, ih (fun q hq => hp ▸ h q (mem_cons_of_mem _ hq))
      fun q hq => hk q (mem_cons_of_mem _ hq)]
    exact getElem?_write_of_outside hin (hk p mem_cons_self)

theorem getElem?_writeAll_of_mem (ps : List (Nat × List α)) {xs : List α}
    (h : ∀ p ∈ ps, Inside p xs.length) {p : Nat × List α} (hp : p ∈ ps)
    (happart : ∀ q ∈ ps, q = p ∨ Apart p q) {i : Nat} (hi : i < p.2.length) :
    (writeAll xs ps)[p.1 + i]? = p.2[i]? := by
  induction ps generalizing xs with
  | nil => cases hp
  | cons q ps ih =>
    have hin : Inside q xs.length := h q mem_cons_self
    have hlen : (write xs q.1 q.2).length = xs.length := length_write hin
    have hrest : ∀ q' ∈ ps, Inside q' (write xs q.1 q.2).length :=
      fun q' hq' => hlen ▸ h q' (mem_cons_of_mem _ hq')
    have hapart : ∀ q' ∈ ps, q' = p ∨ Apart p q' :=
      fun q' hq' => happart q' (mem_cons_of_mem _ hq')
    rw [writeAll_cons]
    by_cases hmem : p ∈ ps
    · exact ih hrest hmem hapart
    · have he : p = q := (mem_cons.mp hp).resolve_right hmem
      subst he
      rw [getElem?_writeAll_of_outside ps hrest]
      · exact getElem?_write_of_inside hin hi
      · intro q' hq'
        rcases hapart q' hq' with rfl | hq'
        · exact absurd hq' hmem
        · exact hq'.elim (fun hle => .inl (by omega)) fun hle => .inr (by omega)

end Patch
