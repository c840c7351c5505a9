import Mathlib
import Pscal.Symbol.Table

/-!
# Field slots

The four places that number the fields of a record or class:

* `pushFieldBaseAndResolveOffset`  a field access;
* `emitDefaultFieldInitializers`  the defaults of a constructed object;
* `emitArrayFieldInitializers`  its arrays;
* `buildRecordLayoutFields`  the layout of the virtual machine.

A record type comes as the list of its levels: itself, its parent, and so on up to the root;
the empty list is a type that is no record.
-/

namespace Pscal

/-- a field of a record; `slot` is the `i_val` of its variable node -/
structure Field where
  name : String
  slot : Nat := 0
  /-- the `var_type` of its declaration is `TYPE_ARRAY` -/
  arrayVar : Bool := false
  /-- its declared type resolves to an array type node -/
  arrayType : Bool := false
deriving DecidableEq, Repr

/-- A child of a record type node.  A declaration of several fields is given field by field:
nothing here depends on the grouping. -/
inductive Member where
  | field (f : Field)
  | method (name : String) (isVirtual : Bool)
  /-- a field flattened into the record, neither a declaration nor a method -/
  | flat (name : String)
deriving DecidableEq, Repr

def Member.isField : Member → Bool
  | .field _ => true
  | _ => false

def Member.isFlat : Member → Bool
  | .flat _ => true
  | _ => false

def Member.name : Member → String
  | .field f => f.name
  | .method name _ => name
  | .flat name => name

/-- One level of a hierarchy.  `slots` is the `i_val` of the node: the number of explicit slots,
or 0 when slots are sequential; `typeName` is its name in the type table. -/
structure RecordType where
  typeName : Option String := none
  slots : Nat := 0
  members : List Member
  slotsOk : 0 < slots → ∀ f, Member.field f ∈ members → f.slot < slots

/-- a procedure table entry: is it virtual, and the class its first parameter points to -/
structure MethodSymbol where
  name : String
  isVirtual : Bool
  receiver : Option String
deriving DecidableEq, Repr

/-- the entry is a virtual method `<name>.<method>` on a pointer to the class `name` -/
def MethodSymbol.isVirtualOf (m : MethodSymbol) (name : String) : Bool :=
  m.isVirtual && (toLowerString name ++ ".").toList.isPrefixOf (toLowerString m.name).toList &&
    m.receiver.any fun target => strcasecmpEq target name

/-- `recordUsesExplicitFieldSlots` -/
def RecordType.usesExplicitSlots (r : RecordType) : Bool := 0 < r.slots

def RecordType.hasVirtualMember (r : RecordType) : Bool :=
  r.members.any fun m => match m with
    | .method _ isVirtual => isVirtual
    | _ => false

def virtualInTable (procs : List MethodSymbol) (r : RecordType) : Bool :=
  r.typeName.any fun name => procs.any fun m => m.isVirtualOf name

def recordTypeHasVTable (procs : List MethodSymbol) : List RecordType → Bool
  | [] => false
  | r :: _ => r.hasVirtualMember || virtualInTable procs r

def recordTypeNeedsVTableSlot (procs : List MethodSymbol) : List RecordType → Bool
  | [] => false
  | r :: parents =>
    r.hasVirtualMember || recordTypeNeedsVTableSlot procs parents || virtualInTable procs r

/-! ## the compiler's slots -/

def getLocalRecordFieldCount (r : RecordType) : Nat :=
  if r.usesExplicitSlots then r.slots
  else (r.members.filter fun m => m.isField || m.isFlat).length

def getRecordFieldCount : List RecordType → Nat
  | [] => 0
  | r :: parents => getLocalRecordFieldCount r + getRecordFieldCount parents

/-- the loop of `getRecordFieldOffset` over the members of one level -/
def localFieldOffset (explicit : Bool) (parentCount : Nat) (fieldName : String) :
    List Member → Nat → Int
  | [], _ => -1
  | .field f :: ms, offset =>
    if f.name = fieldName then (if explicit then parentCount + f.slot else offset : Nat)
    else localFieldOffset explicit parentCount fieldName ms (if explicit then offset else offset + 1)
  | .method _ _ :: ms, offset => localFieldOffset explicit parentCount fieldName ms offset
  | .flat name :: ms, offset =>
    if name = fieldName then (offset : Int)
    else localFieldOffset explicit parentCount fieldName ms (offset + 1)

/-- `-1`: no level has the field; the parents are asked first -/
def getRecordFieldOffset : List RecordType → String → Int
  | [], _ => -1
  | r :: parents, fieldName =>
    let parentOffset := getRecordFieldOffset parents fieldName
    if parentOffset ≠ -1 then parentOffset
    else
      let parentCount := getRecordFieldCount parents
      localFieldOffset r.usesExplicitSlots parentCount fieldName r.members parentCount

/-- the search `myself.name` falls back to; it counts every member, methods too -/
def memberOffsetIgnoringCase (fieldName : String) : List Member → Nat → Option Nat
  | [], _ => none
  | m :: ms, offset =>
    if strcasecmpEq m.name fieldName then some offset
    else memberOffsetIgnoringCase fieldName ms (offset + 1)

/-- the offset `pushFieldBaseAndResolveOffset` finds ahead of the bias, `-1` for none; `myself`
says that the base is the variable `myself` or `my` -/
def accessOffset (recType : List RecordType) (myself : Bool) (fieldName : String) : Int :=
  let fieldOffset := getRecordFieldOffset recType fieldName
  match recType with
  | [] => fieldOffset
  | r :: parents =>
    if fieldOffset < 0 ∧ myself = true then
      match memberOffsetIgnoringCase fieldName r.members (getRecordFieldCount parents) with
      | some offset => offset
      | none => fieldOffset
    else fieldOffset

/-- the slot of `base.fieldName`, for a base of the given record type -/
def pushFieldBaseAndResolveOffset (procs : List MethodSymbol) (recType : List RecordType)
    (myself : Bool) (line : Int) (fieldName : String) : Except String Nat :=
  let fieldOffset := accessOffset recType myself fieldName +
    if recordTypeHasVTable procs recType then 1 else 0
  if fieldOffset < 0 then .error s!"L{line}: Compiler error: Unknown field '{fieldName}'."
  else .ok fieldOffset.toNat

/-- the operand of `GET_FIELD_OFFSET` or `GET_FIELD_OFFSET16` -/
def fieldOffsetOperand (offset : Nat) : Nat := if offset ≤ 255 then offset else offset % 2 ^ 16

/-- the operand of `ALLOC_OBJECT` or `ALLOC_OBJECT16` that `new` emits -/
def allocatedFieldCount (procs : List MethodSymbol) (classType : List RecordType) : Nat :=
  let fieldCount := getRecordFieldCount classType +
    if recordTypeHasVTable procs classType then 1 else 0
  if fieldCount ≤ 255 then fieldCount else fieldCount % 2 ^ 16

/-- which declaration: the level by its number of ancestors, the member by its position -/
structure FieldId where
  level : Nat
  index : Nat
deriving DecidableEq, Repr

/-- an initialiser of a constructed object: the field it is for, and the slot it fills -/
structure FieldInit where
  field : FieldId
  slot : Nat
deriving DecidableEq, Repr

/-- the offset the initialisers of one level compute for a field of it; `-1` may turn into 0 -/
def initOffset (recType : List RecordType) (hasVTable : Bool) (f : Field) : Int :=
  getRecordFieldOffset recType f.name + if hasVTable then 1 else 0

/-- the loop both initialisers run over one level: `chosen` are the fields it is about, and
`operand` how the offset is written into the code -/
def levelInitializers (recType : List RecordType) (hasVTable : Bool) (chosen : Field → Bool)
    (operand : Nat → Nat) (level : Nat) : List Member → Nat → List FieldInit
  | [], _ => []
  | .field f :: ms, index =>
    let rest := levelInitializers recType hasVTable chosen operand level ms (index + 1)
    let offset := initOffset recType hasVTable f
    if chosen f = true ∧ ¬ offset < 0 then ⟨⟨level, index⟩, operand offset.toNat⟩ :: rest else rest
  | _ :: ms, index => levelInitializers recType hasVTable chosen operand level ms (index + 1)

/-- the recursion of both initialisers: the levels above first, each with its own test for a
v-table -/
def fieldInitializers (procs : List MethodSymbol) (chosen : Field → Bool) (operand : Nat → Nat) :
    List RecordType → Bool → List FieldInit
  | [], _ => []
  | r :: parents, hasVTable =>
    fieldInitializers procs chosen operand parents (recordTypeHasVTable procs parents) ++
      levelInitializers (r :: parents) hasVTable chosen operand parents.length r.members 0

def emitDefaultFieldInitializers (procs : List MethodSymbol) :
    List RecordType → Bool → List FieldInit :=
  fieldInitializers procs (fun f => !f.arrayVar) fieldOffsetOperand

/-- `INIT_FIELD_ARRAY` has a one-byte operand -/
def emitArrayFieldInitializers (procs : List MethodSymbol) :
    List RecordType → Bool → List FieldInit :=
  fieldInitializers procs (fun f => f.arrayType) (· % 2 ^ 8)

/-! ## the machine's layout -/

/-- `RecordLayoutField`: its declaration (none: the hidden `__vtable`), its slot, and the
position of the field that owns its storage -/
structure RecordLayoutField where
  field : Option FieldId
  name : String
  slotIndex : Nat
  owner : Nat
deriving DecidableEq, Repr

def getLocalRecordSlotCount (r : RecordType) : Nat :=
  if 0 < r.slots then r.slots else (r.members.filter Member.isField).length

def getRecordSlotCount : List RecordType → Nat
  | [] => 0
  | r :: parents => getLocalRecordSlotCount r + getRecordSlotCount parents

/-- `PSCAL_MAX_RECORD_EMBED_DEPTH` -/
def maxRecordEmbedDepth : Nat := 256

/-- the owner table after the parent's fields: each field that owns its storage owns its slot -/
def inheritedOwners : List RecordLayoutField → Nat → (Nat → Option Nat) → Nat → Option Nat
  | [], _, owners => owners
  | f :: fs, k, owners =>
    inheritedOwners fs (k + 1)
      (if f.owner = k then Function.update owners f.slotIndex (some k) else owners)

/-- the loop over the members of one level; `base` is the first slot of the level -/
def levelLayout (r : RecordType) (base level : Nat) :
    List Member → Nat → Nat → (Nat → Option Nat) → List RecordLayoutField → List RecordLayoutField
  | [], _, _, _, b => b
  | .field f :: ms, index, sequentialSlot, owners, b =>
    let slotIndex := if 0 < r.slots then base + f.slot else sequentialSlot
    let next := if 0 < r.slots then sequentialSlot else sequentialSlot + 1
    match owners slotIndex with
    | some owner =>
      levelLayout r base level ms (index + 1) next owners
        (b ++ [⟨some ⟨level, index⟩, f.name, slotIndex, owner⟩])
    | none =>
      levelLayout r base level ms (index + 1) next
        (Function.update owners slotIndex (some b.length))
        (b ++ [⟨some ⟨level, index⟩, f.name, slotIndex, b.length⟩])
  | _ :: ms, index, sequentialSlot, owners, b =>
    levelLayout r base level ms (index + 1) sequentialSlot owners b

/-- Appends the fields of a record type to `b`; `none`: the process exits, with more than
`0x10000` slots.  Past `maxRecordEmbedDepth` levels nothing is added. -/
def buildRecordLayoutFields (procs : List MethodSymbol) :
    List RecordType → Nat → List RecordLayoutField → Option (List RecordLayoutField)
  | [], _, b => some b
  | r :: parents, depth, b =>
    if maxRecordEmbedDepth ≤ depth then some b
    else
      let parentNeedsVTableSlot := recordTypeNeedsVTableSlot procs parents
      let needsVTableSlot := recordTypeNeedsVTableSlot procs (r :: parents) && !parentNeedsVTableSlot
      let slotBias := if needsVTableSlot then 1 else 0
      let base := slotBias + getRecordSlotCount parents
      if 0x10000 < getRecordSlotCount (r :: parents) + slotBias then none
      else
        let b := if needsVTableSlot then b ++ [⟨none, "__vtable", 0, b.length⟩] else b
        let first := b.length
        (buildRecordLayoutFields procs parents (depth + 1) b).map fun b =>
          levelLayout r base parents.length r.members 0 base
            (inheritedOwners (b.drop first) first fun _ => none) b

end Pscal
