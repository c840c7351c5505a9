import Mathlib

/-!
# Chained hash tables

A table is a chain per hash value, the last entry inserted first in its chain.

* `chains`  the table of a list of entries, the last one inserted first in the list;
* `chain_eq`  a chain is the entries of its hash value;
* `find_chain`  the first entry of a key in its chain is the first one of the list.
-/

namespace Chaining

open List Function

variable {ι κ ε : Type} [DecidableEq ι] [DecidableEq κ] {hash : κ → ι} {key : ε → κ}

def insert (hash : κ → ι) (key : ε → κ) (t : ι → List ε) (e : ε) : ι → List ε :=
  Function.update t (hash (key e)) (e :: t (hash (key e)))

def chains (hash : κ → ι) (key : ε → κ) : List ε → ι → List ε
  | [] => fun _ => []
  | e :: es => insert hash key (chains hash key es) e

omit [DecidableEq κ] in
theorem chain_eq (es : List ε) (i : ι) :
    chains hash key es i = es.filter fun e => hash (key e) = i := by
  induction es with
  | nil => rfl
  | cons e es ih =>
    rw [chains, insert]
    by_cases hi : hash (key e) = i
    · subst hi
      rw [update_self, ih, filter_cons_of_pos (by simp)]
    · rw [update_of_ne (Ne.symm hi), ih, filter_cons_of_neg (by simpa using hi)]

theorem find_chain (es : List ε) (k : κ) :
    (chains hash key es (hash k)).find? (fun e => key e = k) = es.find? fun e => key e = k := by
  rw [chain_eq, find?_filter]
  congr 1
  funext e
  by_cases hk : key e = k
  · simp [hk]
  · simp [hk]

end Chaining
