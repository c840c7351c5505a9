import Mathlib
import Pscal.Lib.Chaining
import Pscal.Symbol.Table

/-!
# The buckets of a symbol table

`hashFunctionName`, `hashTableLookup`, `hashTableInsert` and `insertGlobalSymbol` of
`symbol/symbol.c`.  A name is the bytes before its terminator.  The locale is "C", where `tolower`
changes the letters `A` to `Z` and nothing else, as a signed or as an unsigned byte.

* `Buckets.hashTableLookup`  the lookup, of at most 254 bytes of the name;
* `Buckets.step`  one insertion or lookup;
* `lookup_eq`  what a lookup finds, among the symbols inserted so far;
* `symbolTable_refines`  when that is the last symbol inserted under the name.
-/

namespace Pscal

open List

namespace Buckets

/-- `tolower` of a byte -/
def toLower (c : UInt8) : UInt8 := if 0x41 ≤ c ∧ c ≤ 0x5A then c + 0x20 else c

def toLowerString (name : List UInt8) : List UInt8 := name.map toLower

abbrev hashtableSize : Nat := 256

/-- an `unsigned long` is reduced at the end -/
def hashFunctionName (name : List UInt8) : Fin hashtableSize :=
  Fin.ofNat hashtableSize
    (name.foldl (fun hash c => hash * 31 + (toLower c).toUInt64) (0 : UInt64)).toNat

/-- A symbol as its table sees it.  Whoever inserts one has lower-cased its name. -/
structure Entry (α : Type) where
  name : List UInt8
  lower : toLowerString name = name
  symbol : α

variable {α : Type}

@[ext] theorem Entry.eq {e e' : Entry α} (hname : e.name = e'.name) (hsymbol : e.symbol = e'.symbol) :
    e = e' := by
  cases e
  cases e'
  subst hname
  subst hsymbol
  rfl

/-- `inserted` is not in the source: the symbols of the table, the last one inserted first. -/
structure Table (α : Type) where
  buckets : Fin hashtableSize → List (Entry α)
  inserted : List (Entry α)

def createHashTable : Table α := { buckets := fun _ => [], inserted := [] }

def hashTableLookup (t : Table α) (name : List UInt8) : Option (Entry α) :=
  let lowerName := toLowerString (name.take (maxSymbolLength - 1))
  (t.buckets (hashFunctionName lowerName)).find? fun e => e.name = lowerName

def hashTableInsert (t : Table α) (e : Entry α) : Table α :=
  { buckets := Chaining.insert hashFunctionName Entry.name t.buckets e
    inserted := e :: t.inserted }

theorem toLower_toLower (c : UInt8) : toLower (toLower c) = toLower c := by
  have hall : ∀ n : Fin 256, toLower (toLower (UInt8.ofNat n)) = toLower (UInt8.ofNat n) := by
    decide +kernel
  have h := hall ⟨c.toNat, c.toNat_lt⟩
  rwa [UInt8.ofNat_toNat] at h

theorem toLowerString_idem (name : List UInt8) :
    toLowerString (toLowerString name) = toLowerString name := by
  rw [toLowerString, toLowerString, List.map_map]
  exact map_congr_left fun c _ => toLower_toLower c

def Entry.ofName (name : List UInt8) (symbol : α) : Entry α :=
  { name := toLowerString name, lower := toLowerString_idem name, symbol := symbol }

def insertGlobalSymbol (t : Table α) (name : List UInt8) (symbol : α) : Table α :=
  if name = [] then t
  else if (hashTableLookup t name).isSome then t
  else hashTableInsert t (Entry.ofName name symbol)

inductive TableOp (α : Type) where
  | insert (e : Entry α)
  | insertGlobal (name : List UInt8) (symbol : α)
  | lookup (name : List UInt8)

def step (t : Table α) : TableOp α → Table α
  | .insert e => hashTableInsert t e
  | .insertGlobal name symbol => insertGlobalSymbol t name symbol
  | .lookup _ => t

def run (ops : List (TableOp α)) : Table α := ops.foldl step createHashTable

/-! ## the buckets hold what was inserted -/

/-- each symbol is in the bucket of its name, the last one first -/
def Table.Chained (t : Table α) : Prop :=
  t.buckets = Chaining.chains hashFunctionName Entry.name t.inserted

variable {t : Table α}

theorem chained_insert (ht : t.Chained) (e : Entry α) : (hashTableInsert t e).Chained := by
  unfold Table.Chained at ht ⊢
  rw [hashTableInsert, ht]
  rfl

theorem chained_step (ht : t.Chained) (op : TableOp α) : (step t op).Chained := by
  cases op with
  | insert e => exact chained_insert ht e
  | insertGlobal name symbol =>
    show (insertGlobalSymbol t name symbol).Chained
    unfold insertGlobalSymbol
    split_ifs
    · exact ht
    · exact ht
    · exact chained_insert ht _
  | lookup name => exact ht

theorem chained_run (ops : List (TableOp α)) : (run ops : Table α).Chained := by
  have hfold : ∀ t : Table α, t.Chained → (ops.foldl step t).Chained := by
    induction ops with
    | nil => exact fun t ht => ht
    | cons op ops ih => exact fun t ht => ih (step t op) (chained_step ht op)
  exact hfold createHashTable rfl

def Table.latest (t : Table α) (lowerName : List UInt8) : Option (Entry α) :=
  t.inserted.find? fun e => e.name = lowerName

theorem lookup_eq (ht : t.Chained) (name : List UInt8) :
    hashTableLookup t name = t.latest (toLowerString (name.take (maxSymbolLength - 1))) := by
  unfold Table.Chained at ht
  rw [hashTableLookup, ht, Table.latest]
  exact Chaining.find_chain t.inserted _

theorem lookup_short (ht : t.Chained) {name : List UInt8} (hshort : name.length < maxSymbolLength) :
    hashTableLookup t name = t.latest (toLowerString name) := by
  rw [lookup_eq ht, take_of_length_le (Nat.le_sub_one_of_lt hshort)]

theorem latest_name {lowerName : List UInt8} {e : Entry α} (h : t.latest lowerName = some e) :
    e.name = lowerName := by
  simpa using find?_some h

theorem latest_eq_none {lowerName : List UInt8} :
    t.latest lowerName = none ↔ ∀ e ∈ t.inserted, e.name ≠ lowerName := by
  simp [Table.latest, find?_eq_none]

theorem lookup_long (ht : t.Chained) {name : List UInt8} (hlong : maxSymbolLength ≤ name.length) :
    hashTableLookup t name = t.latest (toLowerString name) ↔
      ∀ e ∈ t.inserted, e.name ≠ toLowerString name ∧
        e.name ≠ toLowerString (name.take (maxSymbolLength - 1)) := by
  have hne : toLowerString name ≠ toLowerString (name.take (maxSymbolLength - 1)) := by
    intro h
    have hlength := congrArg List.length h
    rw [toLowerString, toLowerString, length_map, length_map, length_take] at hlength
    unfold maxSymbolLength at hlong hlength
    omega
  rw [lookup_eq ht]
  constructor
  · intro h
    cases hwhole : t.latest (toLowerString name) with
    | some e =>
      rw [hwhole] at h
      exact absurd ((latest_name hwhole).symm.trans (latest_name h)) hne
    | none =>
      rw [hwhole] at h
      intro e he
      exact ⟨latest_eq_none.mp hwhole e he, latest_eq_none.mp h e he⟩
  · intro h
    rw [latest_eq_none.mpr fun e he => (h e he).1, latest_eq_none.mpr fun e he => (h e he).2]

theorem insertGlobal_short (ht : t.Chained) {name : List UInt8}
    (hshort : name.length < maxSymbolLength) (hname : name ≠ []) (symbol : α) :
    (insertGlobalSymbol t name symbol).inserted =
      if (t.latest (toLowerString name)).isSome then t.inserted
      else Entry.ofName name symbol :: t.inserted := by
  unfold insertGlobalSymbol
  rw [if_neg hname, lookup_short ht hshort]
  split_ifs <;> rfl

/-- A lookup finds the last symbol inserted under the name exactly when the name has at most 254
bytes, or no symbol bears it or its first 254 bytes; of names of at most 254 bytes,
`insertGlobalSymbol` inserts those that no symbol bears, and two find one symbol only when they are
one name in lower case. -/
theorem symbolTable_refines (ops : List (TableOp α)) (name : List UInt8) :
    (hashTableLookup (run ops) name = (run ops).latest (toLowerString name) ↔
      name.length < maxSymbolLength ∨ ∀ e ∈ (run ops).inserted,
        e.name ≠ toLowerString name ∧
          e.name ≠ toLowerString (name.take (maxSymbolLength - 1))) ∧
    (name.length < maxSymbolLength → name ≠ [] → ∀ symbol,
      (insertGlobalSymbol (run ops) name symbol).inserted =
        if ((run ops).latest (toLowerString name)).isSome then (run ops).inserted
        else Entry.ofName name symbol :: (run ops).inserted) ∧
    ∀ name' e, name.length < maxSymbolLength → name'.length < maxSymbolLength →
      hashTableLookup (run ops) name = some e → hashTableLookup (run ops) name' = some e →
        toLowerString name = toLowerString name' := by
  have ht := chained_run ops
  refine ⟨?_, fun hshort hname symbol => insertGlobal_short ht hshort hname symbol, ?_⟩
  · by_cases hshort : name.length < maxSymbolLength
    · exact iff_of_true (lookup_short ht hshort) (.inl hshort)
    · rw [lookup_long ht (Nat.le_of_not_lt hshort)]
      exact ⟨.inr, fun h => h.resolve_left hshort⟩
  · intro name' e hshort hshort' h h'
    rw [lookup_short ht hshort] at h
    rw [lookup_short ht hshort'] at h'
    exact (latest_name h).symm.trans (latest_name h')

/-- after `Name` is inserted, `NAME` finds it and is not inserted again -/
theorem symbolTable_refines_folded :
    (insertGlobalSymbol (run [.insertGlobal [0x4E, 0x61] 0]) [0x4E, 0x41] 1).inserted =
      [Entry.ofName [0x4E, 0x61] 0] :=
  ((symbolTable_refines [.insertGlobal [0x4E, 0x61] 0] [0x4E, 0x41]).2.1 (by decide) (by decide)
    1).trans (by rfl)

/-- 255 times the letter `a` -/
def longName : List UInt8 := List.replicate 255 0x61

theorem longName_lookup (t : Table Nat) (ht : t.Chained)
    (honly : ∀ e ∈ t.inserted, e.name = toLowerString longName) :
    hashTableLookup t longName = none := by
  rw [lookup_eq ht, latest_eq_none]
  intro e he h
  have hlength := congrArg List.length ((honly e he).symm.trans h)
  rw [toLowerString, toLowerString, length_map, length_map, length_take, longName,
    length_replicate] at hlength
  exact absurd hlength (by decide)

theorem longName_inserted {t : Table Nat} (ht : t.Chained)
    (honly : ∀ e ∈ t.inserted, e.name = toLowerString longName) (symbol : Nat) :
    (insertGlobalSymbol t longName symbol).inserted = Entry.ofName longName symbol :: t.inserted := by
  unfold insertGlobalSymbol
  rw [if_neg (by decide), longName_lookup t ht honly]
  rfl

/-- A symbol with a name of 255 bytes is not found, and is inserted a second time. -/
theorem longName_twice : ¬ (∀ (ops : List (TableOp Nat)) name,
        hashTableLookup (run ops) name = (run ops).latest (toLowerString name)) ∧
    ¬ ∀ (ops : List (TableOp Nat)) name symbol, ((run ops).latest (toLowerString name)).isSome →
        (insertGlobalSymbol (run ops) name symbol).inserted = (run ops).inserted := by
  let ops : List (TableOp Nat) := [.insertGlobal longName 0]
  have ht : (run ops).Chained := chained_run ops
  have hfirst : (run ops).inserted = [Entry.ofName longName 0] :=
    longName_inserted (chained_run []) (fun e he => absurd he not_mem_nil) 0
  have honly : ∀ e ∈ (run ops).inserted, e.name = toLowerString longName := by
    rw [hfirst]
    intro e he
    obtain rfl := mem_singleton.mp he
    rfl
  have hlatest : (run ops).latest (toLowerString longName) = some (Entry.ofName longName 0) := by
    rw [Table.latest, hfirst]
    exact find?_cons_of_pos (by simp [Entry.ofName])
  refine ⟨fun h => ?_, fun h => ?_⟩
  · have hfound := h ops longName
    rw [longName_lookup _ ht honly, hlatest] at hfound
    cases hfound
  · have hsame := h ops longName 1 (by rw [hlatest]; rfl)
    rw [longName_inserted ht honly, hfirst] at hsame
    exact absurd (congrArg List.length hsame) (by decide)

end Buckets

end Pscal
