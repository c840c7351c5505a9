import Mathlib
import Pscal.Compiler.Peephole

/-!
# The procedure table and the pool after the pass

* `relocateSymbols_apply`  the address of every symbol;
* `lastEntry`  the last note of a place in the pool, which decides what it holds;
* `entryRoutine`  the routine whose address a note gets, known before the pass.
-/

namespace Pscal

open List Option Function

/-! ## symbols -/

section
variable (count : Nat) (offsetMap : Nat → Option Nat)

def Moves (heap : SymbolRef → Symbol) (r : SymbolRef) : Prop :=
  resolveSymbolAlias heap r = r ∧ (heap r).isDefined = true ∧ 0 ≤ (heap r).bytecodeAddress ∧
    (heap r).bytecodeAddress ≤ count

def moveSymbol (s : Symbol) : Symbol :=
  { s with bytecodeAddress := mappedAddress count offsetMap s.bytecodeAddress }

theorem relocateSymbols_cons (heap : SymbolRef → Symbol) (r : SymbolRef) (rest : List SymbolRef) :
    (Moves count heap r ∧ relocateSymbols count offsetMap heap (r :: rest) =
      relocateSymbols count offsetMap
        (update heap r (moveSymbol count offsetMap (heap r))) rest) ∨
    (¬ Moves count heap r ∧ relocateSymbols count offsetMap heap (r :: rest) =
      relocateSymbols count offsetMap heap rest) := by
  rw [relocateSymbols]
  by_cases h : resolveSymbolAlias heap r = r ∧ (heap r).isDefined = true ∧
      0 ≤ (heap r).bytecodeAddress ∧ (heap r).bytecodeAddress ≤ count
  · exact .inl ⟨h, by rw [if_pos h]; rfl⟩
  · exact .inr ⟨h, by rw [if_neg h]⟩

theorem relocateSymbols_of_notMem {heap : SymbolRef → Symbol} {refs : List SymbolRef}
    {r : SymbolRef} (h : r ∉ refs) : relocateSymbols count offsetMap heap refs r = heap r := by
  induction refs generalizing heap with
  | nil => rfl
  | cons r' rest ih =>
    rw [mem_cons, not_or] at h
    rcases relocateSymbols_cons count offsetMap heap r' rest with ⟨-, he⟩ | ⟨-, he⟩
    · rw [he, ih h.2, update_of_ne h.1]
    · rw [he, ih h.2]

theorem relocateSymbols_of_mem {heap : SymbolRef → Symbol} {refs : List SymbolRef} {r : SymbolRef}
    (hnodup : refs.Nodup) (h : r ∈ refs) :
    (Moves count heap r → relocateSymbols count offsetMap heap refs r =
      moveSymbol count offsetMap (heap r)) ∧
    (¬ Moves count heap r → relocateSymbols count offsetMap heap refs r = heap r) := by
  induction refs generalizing heap with
  | nil => cases h
  | cons r' rest ih =>
    obtain ⟨hnot, hrest⟩ := nodup_cons.mp hnodup
    rcases relocateSymbols_cons count offsetMap heap r' rest with ⟨hmoves, he⟩ | ⟨hstays, he⟩
    · rw [he]
      by_cases hr : r = r'
      · subst hr
        rw [relocateSymbols_of_notMem count offsetMap hnot, update_self]
        exact ⟨fun _ => rfl, fun hn => absurd hmoves hn⟩
      · have hmem := (mem_cons.mp h).resolve_left hr
        have hsame : update heap r' (moveSymbol count offsetMap (heap r')) r = heap r :=
          update_of_ne hr _ _
        have := @ih (update heap r' (moveSymbol count offsetMap (heap r'))) hrest hmem
        rw [Moves, resolveSymbolAlias, hsame] at this
        exact this
    · rw [he]
      by_cases hr : r = r'
      · subst hr
        rw [relocateSymbols_of_notMem count offsetMap hnot]
        exact ⟨fun hm => absurd hm hstays, fun _ => rfl⟩
      · exact ih hrest ((mem_cons.mp h).resolve_left hr)

end

/-! ## the routines notes name -/

/-- two heaps that the lookups of the pass cannot tell apart -/
structure SameRoutes (heap heap' : SymbolRef → Symbol) : Prop where
  name : ∀ r, (heap' r).name = (heap r).name
  isAlias : ∀ r, (heap' r).isAlias = (heap r).isAlias
  realSymbol : ∀ r, (heap' r).realSymbol = (heap r).realSymbol
  isDefined : ∀ r, (heap' r).isDefined = (heap r).isDefined
  usable : ∀ r, 0 ≤ (heap' r).bytecodeAddress ↔ 0 ≤ (heap r).bytecodeAddress

theorem SameRoutes.refl (heap : SymbolRef → Symbol) : SameRoutes heap heap :=
  ⟨fun _ => rfl, fun _ => rfl, fun _ => rfl, fun _ => rfl, fun _ => Iff.rfl⟩

theorem SameRoutes.trans {heap heap' heap'' : SymbolRef → Symbol} (h : SameRoutes heap heap')
    (h' : SameRoutes heap' heap'') : SameRoutes heap heap'' :=
  ⟨fun r => (h'.name r).trans (h.name r), fun r => (h'.isAlias r).trans (h.isAlias r),
    fun r => (h'.realSymbol r).trans (h.realSymbol r),
    fun r => (h'.isDefined r).trans (h.isDefined r), fun r => (h'.usable r).trans (h.usable r)⟩

theorem sameRoutes_move {count : Nat} {offsetMap : Nat → Option Nat} {heap : SymbolRef → Symbol}
    {r : SymbolRef} (h : Moves count heap r) :
    SameRoutes heap (update heap r (moveSymbol count offsetMap (heap r))) := by
  have hfield : ∀ {α : Type} (f : Symbol → α), (∀ s, f (moveSymbol count offsetMap s) = f s) →
      ∀ r', f (update heap r (moveSymbol count offsetMap (heap r)) r') = f (heap r') := by
    intro α f hf r'
    by_cases hr : r' = r
    · rw [hr, update_self, hf]
    · rw [update_of_ne hr]
  refine ⟨hfield _ fun _ => rfl, hfield _ fun _ => rfl, hfield _ fun _ => rfl,
    hfield _ fun _ => rfl, fun r' => ?_⟩
  by_cases hr : r' = r
  · rw [hr, update_self]
    exact ⟨fun _ => h.2.2.1, fun _ => Int.natCast_nonneg _⟩
  · rw [update_of_ne hr]

theorem sameRoutes_relocateSymbols (count : Nat) (offsetMap : Nat → Option Nat)
    (heap : SymbolRef → Symbol) (refs : List SymbolRef) :
    SameRoutes heap (relocateSymbols count offsetMap heap refs) := by
  induction refs generalizing heap with
  | nil => exact .refl heap
  | cons r rest ih =>
    rcases relocateSymbols_cons count offsetMap heap r rest with ⟨hmoves, he⟩ | ⟨-, he⟩
    · rw [he]
      exact (sameRoutes_move hmoves).trans (ih _)
    · rw [he]
      exact ih heap

/-- the routine whose address a note gets -/
def entryRoutine (procedures : Procedures) (entry : AddressConstantEntry) : Option SymbolRef :=
  let heap := procedures.heap
  let usable := fun r => decide ((heap r).isDefined = true ∧ 0 ≤ (heap r).bytecodeAddress)
  let target := entry.symbolRef.map (resolveSymbolAlias heap)
  let target :=
    if (target.filter usable).isNone ∧ entry.symbolName.isSome then namedTarget procedures entry
    else target
  ((target.map (resolveSymbolAlias heap)).filter usable).or
    ((namedTarget procedures entry).filter usable)

theorem usableAddress_eq (heap : SymbolRef → Symbol) (target : Option SymbolRef) :
    target.bind (usableAddress heap) =
      (target.filter fun r => decide ((heap r).isDefined = true ∧
        0 ≤ (heap r).bytecodeAddress)).map fun r => (heap r).bytecodeAddress := by
  cases target with
  | none => rfl
  | some r =>
    rw [bind_some, usableAddress, filter_some]
    by_cases h : (heap r).isDefined = true ∧ 0 ≤ (heap r).bytecodeAddress
    · rw [if_pos h, if_pos (decide_eq_true h)]
      rfl
    · rw [if_neg h, if_neg (by rwa [decide_eq_true_eq])]
      rfl

theorem firstAddress_or (address : SymbolRef → Int) (fallback : Int) (a b : Option SymbolRef) :
    (match a.map address with
      | some address => address
      | none => match b.map address with
        | some address => address
        | none => fallback) =
    match a.or b with
    | some r => address r
    | none => fallback := by
  cases a with
  | some r => rfl
  | none =>
    cases b with
    | some r => rfl
    | none => rfl

theorem entryAddress_eq (count : Nat) (offsetMap : Nat → Option Nat) (procedures : Procedures)
    (entry : AddressConstantEntry) :
    entryAddress count offsetMap procedures entry =
      match entryRoutine procedures entry with
      | some r => (procedures.heap r).bytecodeAddress
      | none => mappedAddress count offsetMap entry.originalAddress := by
  unfold entryAddress entryRoutine
  simp only [usableAddress_eq, isNone_map]
  exact firstAddress_or _ _ _ _

theorem entryRoutine_usable {procedures : Procedures} {entry : AddressConstantEntry}
    {r : SymbolRef} (h : entryRoutine procedures entry = some r) :
    (procedures.heap r).isDefined = true ∧ 0 ≤ (procedures.heap r).bytecodeAddress := by
  unfold entryRoutine at h
  rcases or_eq_some_iff.mp h with h | ⟨-, h⟩
  · exact of_decide_eq_true (filter_eq_some_iff.mp h).2
  · exact of_decide_eq_true (filter_eq_some_iff.mp h).2

theorem entryRoutine_congr {procedures procedures' : Procedures}
    (h : SameRoutes procedures.heap procedures'.heap)
    (htable : procedures'.table = procedures.table) (entry : AddressConstantEntry) :
    entryRoutine procedures' entry = entryRoutine procedures entry := by
  have hresolve : resolveSymbolAlias procedures'.heap = resolveSymbolAlias procedures.heap := by
    funext r
    rw [resolveSymbolAlias, resolveSymbolAlias, h.isAlias, h.realSymbol]
  have hnamed : namedTarget procedures' entry = namedTarget procedures entry := by
    unfold namedTarget hashTableLookup
    simp only [h.name, htable, hresolve]
  unfold entryRoutine
  simp only [hresolve, hnamed, h.isDefined, h.usable]

/-! ## constants -/

/-- the last note of the constant `i`, or of element `j` of the array there -/
def lastEntry (entries : List AddressConstantEntry) (i : Nat) (j : Option Nat) :
    Option AddressConstantEntry :=
  entries.reverse.find? fun e => decide (e.constantIndex = i ∧ e.elementIndex = j)

theorem lastEntry_cons (e : AddressConstantEntry) (entries : List AddressConstantEntry) (i : Nat)
    (j : Option Nat) : lastEntry (e :: entries) i j = (lastEntry entries i j).or
      (if e.constantIndex = i ∧ e.elementIndex = j then some e else none) := by
  rw [lastEntry, reverse_cons, find?_append, lastEntry]
  congr 1
  by_cases h : e.constantIndex = i ∧ e.elementIndex = j
  · rw [if_pos h, find?_cons_of_pos (by rwa [decide_eq_true_eq])]
  · rw [if_neg h, find?_cons_of_neg (by rwa [decide_eq_true_eq])]
    rfl

theorem lastEntry_mem {entries : List AddressConstantEntry} {i : Nat} {j : Option Nat}
    {e : AddressConstantEntry} (h : lastEntry entries i j = some e) :
    e ∈ entries ∧ e.constantIndex = i ∧ e.elementIndex = j := by
  have hmem := mem_reverse.mp (mem_of_find?_eq_some h)
  have hfound := find?_some h
  exact ⟨hmem, of_decide_eq_true hfound⟩

section
variable (count : Nat) (offsetMap : Nat → Option Nat) (procedures : Procedures)

variable {constants : List Value} {i : Nat}

theorem relocateConstants_of_noNote {entries : List AddressConstantEntry}
    (h : ∀ e ∈ entries, e.constantIndex ≠ i) :
    (relocateConstants count offsetMap procedures entries constants)[i]? = constants[i]? := by
  induction entries generalizing constants with
  | nil => rfl
  | cons e entries ih =>
    have hstep : relocateConstants count offsetMap procedures (e :: entries) constants =
        relocateConstants count offsetMap procedures entries
          (constants.modify e.constantIndex (relocateConstant count offsetMap procedures e)) := rfl
    rw [hstep, ih fun e' he' => h e' (mem_cons_of_mem _ he'),
      getElem?_modify_ne _ _ (h e mem_cons_self)]

theorem relocateConstants_scalar (entries : List AddressConstantEntry) {t : IntType} {v : Int}
    (h : constants[i]? = some (.scalar t v)) :
    (relocateConstants count offsetMap procedures entries constants)[i]? =
      some (match lastEntry entries i none with
        | some e => .scalar t (setIntBits t (entryAddress count offsetMap procedures e))
        | none => .scalar t v) := by
  induction entries generalizing constants v with
  | nil => exact h
  | cons e entries ih =>
    have hstep : relocateConstants count offsetMap procedures (e :: entries) constants =
        relocateConstants count offsetMap procedures entries
          (constants.modify e.constantIndex (relocateConstant count offsetMap procedures e)) := rfl
    rw [hstep, lastEntry_cons]
    by_cases hi : e.constantIndex = i
    · have hmod : (constants.modify e.constantIndex
          (relocateConstant count offsetMap procedures e))[i]? =
          some (relocateConstant count offsetMap procedures e (.scalar t v)) := by
        rw [hi, getElem?_modify_eq, h]
        rfl
      cases hj : e.elementIndex with
      | some j =>
        rw [relocateConstant, hj] at hmod
        rw [ih hmod, if_neg (by simp), or_none]
      | none =>
        rw [relocateConstant, hj] at hmod
        rw [ih hmod, if_pos ⟨hi, rfl⟩]
        cases lastEntry entries i none with
        | some e' => rfl
        | none => rfl
    · have hmod : (constants.modify e.constantIndex
          (relocateConstant count offsetMap procedures e))[i]? = some (.scalar t v) := by
        rw [getElem?_modify_ne _ _ hi, h]
      rw [ih hmod, if_neg (fun hc => hi hc.1), or_none]

theorem relocateConstants_element (entries : List AddressConstantEntry) {j : Nat} {elem : VarType}
    {elems : List Value} {v : Value} (h : constants[i]? = some (.array elem elems))
    (hv : elems[j]? = some v) :
    ∃ elems', (relocateConstants count offsetMap procedures entries constants)[i]? =
        some (.array elem elems') ∧
      elems'[j]? = some (match lastEntry entries i (some j) with
        | some e => .scalar .int32 (setIntBits .int32 (entryAddress count offsetMap procedures e))
        | none => v) := by
  induction entries generalizing constants elems v with
  | nil => exact ⟨elems, h, hv⟩
  | cons e entries ih =>
    have hstep : relocateConstants count offsetMap procedures (e :: entries) constants =
        relocateConstants count offsetMap procedures entries
          (constants.modify e.constantIndex (relocateConstant count offsetMap procedures e)) := rfl
    have hlt := (List.getElem?_eq_some_iff.mp hv).1
    rw [hstep, lastEntry_cons]
    by_cases hi : e.constantIndex = i
    · have hmod : (constants.modify e.constantIndex
          (relocateConstant count offsetMap procedures e))[i]? =
          some (relocateConstant count offsetMap procedures e (.array elem elems)) := by
        rw [hi, getElem?_modify_eq, h]
        rfl
      cases hj : e.elementIndex with
      | none =>
        rw [relocateConstant, hj] at hmod
        rw [if_neg (by simp), or_none]
        exact ih hmod hv
      | some j' =>
        rw [relocateConstant, hj] at hmod
        by_cases hjj : j' = j
        · subst hjj
          dsimp only at hmod
          rw [if_pos hlt] at hmod
          have hset : (elems.set j' (.scalar .int32 (setIntBits .int32
              (entryAddress count offsetMap procedures e))))[j']? =
              some (.scalar .int32 (setIntBits .int32
                (entryAddress count offsetMap procedures e))) := getElem?_set_self hlt
          obtain ⟨elems', harray, helem⟩ := ih hmod hset
          refine ⟨elems', harray, ?_⟩
          rw [helem, if_pos ⟨hi, rfl⟩]
          cases lastEntry entries i (some j') with
          | some e' => rfl
          | none => rfl
        · rw [if_neg (fun hc => hjj (some.inj hc.2)), or_none]
          dsimp only at hmod
          split at hmod
          · have hset : (elems.set j' (.scalar .int32 (setIntBits .int32
                (entryAddress count offsetMap procedures e))))[j]? = some v :=
              (getElem?_set_ne hjj).trans hv
            exact ih hmod hset
          · exact ih hmod hv
    · have hmod : (constants.modify e.constantIndex
          (relocateConstant count offsetMap procedures e))[i]? = some (.array elem elems) := by
        rw [getElem?_modify_ne _ _ hi, h]
      rw [if_neg (fun hc => hi hc.1), or_none]
      exact ih hmod hv

end

end Pscal
