import Pscal.Core.Value
import Pscal.Lib.Probing

/-!
# Maps

`core/utils.c`: a `MapObj` is an array of entries in insertion order, dead ones included, and a
hash index of their positions.

* `mapIndexFind`  the search for a key;
* `mapRehash`  the array without its dead entries, and a new index;
* `pscalMapFind`, `pscalMapSet`, `pscalMapRemove`, `pscalMapClone`  the operations.

A result `none` of an operation that writes stands for a loop that does not end or a write
outside the index.
-/

namespace Pscal

open Probing

structure ValueOps (V : Type) where
  makeNil : V
  /-- `mapCoerceStored`, a value as a map of the declared type stores it -/
  mapCoerceStored : VarType → V → V
  /-- a value as a clone of the map holds it -/
  pscalMapCopyValue : V → V

/-- `MapEntry`; `key_len` is the length of the key -/
structure MapEntry (V : Type) where
  key : List UInt8
  hash : UInt64
  value : V
  live : Bool
deriving DecidableEq, Repr

/-- `MapObj`; the slots of the index are `-1` (empty), `-2` (deleted) and entry positions -/
structure MapObj (V : Type) where
  valueType : VarType
  entries : List (MapEntry V) := []
  entryCap : Nat := 0
  liveCount : Nat := 0
  index : List Slot := []
deriving DecidableEq, Repr

namespace MapObj

variable {V : Type}

def entryCount (m : MapObj V) : Nat := m.entries.length

def indexCap (m : MapObj V) : Nat := m.index.length

end MapObj

section
variable {V : Type}

def pscalMapObjCreate (valueType : VarType) : MapObj V := { valueType := valueType }

/-- FNV-1a -/
def mapHashKey (key : List UInt8) : UInt64 :=
  key.foldl (fun h byte => (h ^^^ byte.toUInt64) * 1099511628211) 1469598103934665603

/-- the entry at `pos` has the key -/
def entryMatches (m : MapObj V) (key : List UInt8) (h : UInt64) (pos : Nat) : Bool :=
  (m.entries[pos]?).any fun e => e.hash = h ∧ e.key = key

/-- the loop of `mapIndexFind` with the probes that are left -/
def mapIndexFindLoop (m : MapObj V) (key : List UInt8) (h : UInt64) :
    Nat → Nat → Option Nat → Option Nat × Bool
  | 0, _, firstDeleted => (firstDeleted, false)
  | probes + 1, slot, firstDeleted =>
    let next := (slot + 1) &&& (m.indexCap - 1)
    match m.index[slot]? with
    | some .empty => (some (firstDeleted.getD slot), false)
    | some .deleted => mapIndexFindLoop m key h probes next (some (firstDeleted.getD slot))
    | some (.entry pos) =>
      if entryMatches m key h pos then (some slot, true)
      else mapIndexFindLoop m key h probes next firstDeleted
    | none => (none, false)

/-- the slot of the key's entry, or the first free slot for it (`none` for `-1`), and `*found` -/
def mapIndexFind (m : MapObj V) (key : List UInt8) (h : UInt64) : Option Nat × Bool :=
  if m.indexCap = 0 then (none, false)
  else mapIndexFindLoop m key h m.indexCap (h.toNat &&& (m.indexCap - 1)) none

/-- the first empty slot from `slot` on takes the entry; a round without one goes on for ever -/
def mapPlace (pos mask : Nat) : Nat → Nat → List Slot → Option (List Slot)
  | 0, _, _ => none
  | probes + 1, slot, index =>
    if index[slot]? = some .empty then some (index.set slot (.entry pos))
    else mapPlace pos mask probes ((slot + 1) &&& mask) index

/-- the second loop of `mapRehash`, from the entry at `pos` on -/
def mapReindex (cap : Nat) : List (MapEntry V) → Nat → List Slot → Option (List Slot)
  | [], _, index => some index
  | e :: entries, pos, index =>
    (mapPlace pos (cap - 1) cap (e.hash.toNat &&& (cap - 1)) index).bind
      (mapReindex cap entries (pos + 1))

def mapRehash (m : MapObj V) (cap : Nat) : Option (MapObj V) :=
  let entries := m.entries.filter (·.live)
  (mapReindex cap entries 0 (List.replicate cap .empty)).map fun index =>
    { m with entries := entries, index := index }

/-- `while (need > cap) cap *= 2`; `need` rounds are enough -/
def growCap (need : Nat) : Nat → Nat → Nat
  | 0, cap => cap
  | rounds + 1, cap => if cap < need then growCap need rounds (cap * 2) else cap

def mapCap (liveCount : Nat) : Nat := growCap ((liveCount + 1) * 2) ((liveCount + 1) * 2) 8

def pscalMapFind (m : MapObj V) (key : List UInt8) : Option V :=
  match mapIndexFind m key (mapHashKey key) with
  | (some slot, true) =>
    match m.index[slot]? with
    | some (.entry pos) => (m.entries[pos]?).map (·.value)
    | _ => none
  | _ => none

/-- a new entry, with its position in the slot -/
def mapAppend (m : MapObj V) (slot : Nat) (e : MapEntry V) : MapObj V :=
  { m with
    entries := m.entries ++ [e]
    entryCap :=
      if m.entryCount = m.entryCap then (if m.entryCap = 0 then 8 else m.entryCap * 2)
      else m.entryCap
    liveCount := m.liveCount + 1
    index := m.index.set slot (.entry m.entryCount) }

def pscalMapSet (ops : ValueOps V) (m : MapObj V) (key : List UInt8) (value : V) :
    Option (MapObj V) :=
  let value := ops.mapCoerceStored m.valueType value
  let h := mapHashKey key
  match mapIndexFind m key h with
  | (some slot, true) =>
    match m.index[slot]? with
    | some (.entry pos) =>
      some { m with entries := m.entries.modify pos fun e => { e with value := value } }
    | _ => none
  | (slot, _) =>
    let e : MapEntry V := { key := key, hash := h, value := value, live := true }
    if m.indexCap = 0 ∨ m.indexCap < (m.entryCount + 1) * 2 then
      (mapRehash m (mapCap m.liveCount)).bind fun m =>
        (mapIndexFind m key h).1.map fun slot => mapAppend m slot e
    else slot.map fun slot => mapAppend m slot e

/-- the map after the call, and whether the key was there -/
def pscalMapRemove (ops : ValueOps V) (m : MapObj V) (key : List UInt8) :
    Option (MapObj V × Bool) :=
  match mapIndexFind m key (mapHashKey key) with
  | (some slot, true) =>
    match m.index[slot]? with
    | some (.entry pos) =>
      let m : MapObj V :=
        { m with
          entries := m.entries.modify pos fun e => { e with live := false, value := ops.makeNil }
          index := m.index.set slot .deleted
          liveCount := m.liveCount - 1 }
      if 16 < m.entryCount ∧ m.liveCount < m.entryCount - m.liveCount then
        (mapRehash m (mapCap m.liveCount)).map fun m => (m, true)
      else some (m, true)
    | _ => none
  | _ => some (m, false)

def pscalMapClone (ops : ValueOps V) (src : MapObj V) : Option (MapObj V) :=
  (src.entries.filter (·.live)).foldlM
    (fun m e => pscalMapSet ops m e.key (ops.pscalMapCopyValue e.value))
    (pscalMapObjCreate src.valueType)

/-! ## runs -/

/-- one call; after `clone` the run goes on with the clone -/
inductive MapOp (V : Type) where
  | set (key : List UInt8) (value : V)
  | remove (key : List UInt8)
  | clone

def MapOp.apply (ops : ValueOps V) (m : MapObj V) : MapOp V → Option (MapObj V)
  | .set key value => pscalMapSet ops m key value
  | .remove key => (pscalMapRemove ops m key).map (·.1)
  | .clone => pscalMapClone ops m

def mapRun (ops : ValueOps V) (valueType : VarType) : List (MapOp V) → Option (MapObj V)
  | [] => some (pscalMapObjCreate valueType)
  | op :: past => (mapRun ops valueType past).bind fun m => op.apply ops m

end

end Pscal
