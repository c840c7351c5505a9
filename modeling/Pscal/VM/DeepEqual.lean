import Pscal.Core.Utf8
import Pscal.Core.Map
import Pscal.Lib.Coinduction
import Pscal.Symbol.Table

/-!
# Deep equality of values

`vm/vm.c`: what `==` and `<>` do on arrays, on maps, and on record pointers of an Aether program.

* `GraphValue`, `ValueGraph`  the values and the objects they point to;
* `pscalEqMemoSeen`  the table of the record pairs met past depth 8;
* `pscalValuesDeepEqualD`  the comparison, with the record, array and map comparisons it and they
  call;
* `vmDeepEqual`  the three entry points.

The result `1`, `0` or `-1` of the source is a `Verdict`; `none` stands for a probe of the memo
that does not end.
-/

namespace Pscal

open Probing Coind

/-! ## values and objects -/

/-- A value as the comparison reads it.  An object is its address (`none`: a null pointer); a
record is the address of its first field; `otherType` is a value of any other type. -/
inductive GraphValue where
  | scalar (t : IntType) (v : Int)
  | real (t : RealType) (bits : Nat)
  | str (t : StringType) (buffer : Option (List UInt8))
  | nil
  | pointer (address : Option Nat)
  | record (fields : Option Nat)
  | array (obj : Option Nat)
  | map (obj : Option Nat)
  | mstream (obj : Option Nat)
  | otherType
deriving DecidableEq, Repr

structure FieldValue where
  name : Option String
  storage : Option GraphValue
deriving DecidableEq, Repr

/-- the union of the packed bytes and the elements, and `is_packed` -/
inductive ArrayBuffer where
  | raw (raw : Option (Nat → UInt8))
  | elements (elements : Option (Nat → GraphValue))

structure ArrayObj where
  dimensions : Nat
  lowerBounds : Option (Nat → Int)
  upperBounds : Option (Nat → Int)
  buffer : ArrayBuffer

/-- what the pointers of the values lead to, and what the comparison asks of its surroundings -/
structure ValueGraph where
  cells : Nat → GraphValue
  /-- the field at an address and the ones its `next` leads to -/
  fields : Nat → FieldValue × List FieldValue
  arrays : Nat → ArrayObj
  maps : Nat → MapObj GraphValue
  /-- a map is what its operations have made of it -/
  maps_built : ∀ p, ∃ ops valueType past, mapRun ops valueType past = some (maps p)
  frontendIsAether : Bool
  /-- `asLd(a) == asLd(b)` -/
  ldEqual : GraphValue → GraphValue → Bool
  /-- whether `calloc` has room for a memo of that many slots -/
  calloc : Nat → Bool

def ValueGraph.fieldsAt (g : ValueGraph) : Option Nat → List FieldValue
  | none => []
  | some a => (g.fields a).1 :: (g.fields a).2

namespace GraphValue

/-- `IS_INTLIKE`, which `IS_BOOLEAN` and `IS_CHAR` imply -/
def isIntlike : GraphValue → Bool
  | .scalar _ _ => true
  | _ => false

def isReal : GraphValue → Bool
  | .real _ _ => true
  | _ => false

def isNumeric (a : GraphValue) : Bool := a.isIntlike || a.isReal

def asI64 : GraphValue → Int
  | .scalar _ v => v.bmod (2 ^ 64)
  | _ => 0

end GraphValue

/-- the text of a string or a character (`none`: the value is neither) -/
def pscalTextForCompare : GraphValue → Option (List UInt8)
  | .str _ buffer => some (buffer.getD [])
  | .scalar .widechar v => some (encodeUtf8Codepoint (v % 2 ^ 32).toNat)
  | .scalar .char v => some [UInt8.ofNat (v % 2 ^ 8).toNat]
  | _ => none

/-- `strcmp(a, b) == 0`, on bytes -/
def textEqual (a b : List UInt8) : Bool := a.takeWhile (· ≠ 0) == b.takeWhile (· ≠ 0)

/-! ## the memo -/

/-- `PscalEqMemo`; no slot is ever deleted -/
structure PscalEqMemo where
  slots : List (Slot (Nat × Nat)) := []
  count : Nat := 0
deriving DecidableEq, Repr

def PscalEqMemo.cap (m : PscalEqMemo) : Nat := m.slots.length

def pscalEqPairHash (p : Nat × Nat) : Nat :=
  let h := UInt64.ofNat p.1 * 0x9E3779B97F4A7C15
  let h := h ^^^ (UInt64.ofNat p.2 * 0xC2B2AE3D27D4EB4F)
  (h ^^^ (h >>> 29)).toNat

/-- the loop of the growth, over the old slots -/
def eqMemoRehash (newCap : Nat) :
    List (Slot (Nat × Nat)) → List (Slot (Nat × Nat)) → Option (List (Slot (Nat × Nat)))
  | [], grown => some grown
  | .entry p :: slots, grown =>
    (placeLoop (.entry p) (newCap - 1) newCap (pscalEqPairHash p &&& (newCap - 1)) grown).bind
      (eqMemoRehash newCap slots)
  | _ :: slots, grown => eqMemoRehash newCap slots grown

/-- the second loop of `pscalEqMemoSeen`: whether the pair is there, and the slots with it -/
def eqMemoProbe (p : Nat × Nat) (mask : Nat) :
    Nat → Nat → List (Slot (Nat × Nat)) → Option (Bool × List (Slot (Nat × Nat)))
  | 0, _, _ => none
  | probes + 1, slot, slots =>
    if slots[slot]? = some .empty then some (false, slots.set slot (.entry p))
    else if slots[slot]? = some (.entry p) then some (true, slots)
    else eqMemoProbe p mask probes ((slot + 1) &&& mask) slots

/-- the memo with room for one more pair (`some none`: it cannot grow) -/
def eqMemoGrow (calloc : Nat → Bool) (m : PscalEqMemo) : Option (Option PscalEqMemo) :=
  if m.cap / 2 < m.count + 1 then
    let newCap := if m.cap = 0 then 64 else m.cap * 2
    if calloc newCap then
      (eqMemoRehash newCap m.slots (List.replicate newCap .empty)).map fun slots =>
        some { m with slots := slots }
    else some none
  else some (some m)

def pscalEqMemoSeen (calloc : Nat → Bool) (p : Nat × Nat) (m : PscalEqMemo) :
    Option (Bool × PscalEqMemo) :=
  (eqMemoGrow calloc m).bind fun
    | none => some (false, m)
    | some m =>
      (eqMemoProbe p (m.cap - 1) m.cap (pscalEqPairHash p &&& (m.cap - 1)) m.slots).map
        fun (found, slots) =>
          (found, { slots := slots, count := if found then m.count else m.count + 1 })

/-! ## the comparison -/

/-- `PSCAL_DEEP_EQUAL_MAX_DEPTH` -/
def deepEqualMaxDepth : Nat := 512

/-- `PSCAL_DEEP_EQUAL_MEMO_DEPTH` -/
def deepEqualMemoDepth : Nat := 8

def Verdict.ofBool (b : Bool) : Verdict := if b then .yes else .no

abbrev DeepCompare := GraphValue → GraphValue → PscalEqMemo → Option (Verdict × PscalEqMemo)

/-- compiler-owned fields (the hidden `__vtable`) are not data -/
def FieldValue.hidden (f : FieldValue) : Bool :=
  f.name.any fun name => name.toList.take 2 = ['_', '_']

/-- the loop of `pscalRecordFieldsDeepEqual` -/
def recordFieldsLoop (next : DeepCompare) :
    List FieldValue → List FieldValue → PscalEqMemo → Option (Verdict × PscalEqMemo)
  | [], [], m => some (.yes, m)
  | fa :: as, fb :: bs, m =>
    if fa.hidden ≠ fb.hidden then some (.no, m)
    else if fa.hidden then recordFieldsLoop next as bs m
    else if (fa.name.any fun na => fb.name.any fun nb => !strcasecmpEq na nb) then some (.no, m)
    else match fa.storage, fb.storage with
      | some va, some vb =>
        (next va vb m).bind fun (r, m) =>
          if r = .yes then recordFieldsLoop next as bs m else some (r, m)
      | none, none => recordFieldsLoop next as bs m
      | _, _ => some (.no, m)
  | _, _, m => some (.no, m)

section
variable (g : ValueGraph) (next : DeepCompare)

/-- `depth` is the depth of the fields -/
def pscalRecordFieldsDeepEqual (fa fb : Option Nat) (depth : Nat) (m : PscalEqMemo) :
    Option (Verdict × PscalEqMemo) :=
  let loop := recordFieldsLoop next (g.fieldsAt fa) (g.fieldsAt fb)
  match fa, fb with
  | some a, some b =>
    if deepEqualMemoDepth < depth then
      (pscalEqMemoSeen g.calloc (a, b) m).bind fun (seen, m) =>
        if seen then some (.yes, m) else loop m
    else loop m
  | _, _ => loop m

/-- two record pointers under Aether: identical, both nil, or field-wise equal -/
def pscalRecordPointersDeepEqualD (pa pb : Option Nat) (depth : Nat) (m : PscalEqMemo) :
    Option (Verdict × PscalEqMemo) :=
  if pa = pb then some (.yes, m)
  else match pa, pb with
    | some a, some b =>
      if deepEqualMaxDepth < depth then some (.unknown, m)
      else match g.cells a, g.cells b with
        | .record fa, .record fb => pscalRecordFieldsDeepEqual g next fa fb (depth + 1) m
        | _, _ => some (.no, m)
    | _, _ => some (.no, m)

def calculateArrayTotalSize (a : ArrayObj) : Int :=
  match a.lowerBounds, a.upperBounds with
  | some lower, some upper =>
    if a.dimensions = 0 then 0
    else (List.range a.dimensions).foldl (fun total d => total * (upper d - lower d + 1)) 1
  | _, _ => 0

/-- the bounds of every dimension agree; missing bounds do not -/
def boundsEqual (a b : ArrayObj) : Bool :=
  a.dimensions == 0 ||
    match a.lowerBounds, b.lowerBounds, a.upperBounds, b.upperBounds with
    | some la, some lb, some ua, some ub =>
      (List.range a.dimensions).all fun d => la d = lb d ∧ ua d = ub d
    | _, _, _, _ => false

/-- one packed byte buffer against one boxed buffer, element by element -/
def packedEqual (raw : Nat → UInt8) (elements : Nat → GraphValue) : List Nat → Verdict
  | [] => .yes
  | i :: is =>
    if !(elements i).isIntlike then .unknown
    else if ((raw i).toNat : Int) ≠ (elements i).asI64 then .no
    else packedEqual raw elements is

def arrayElementsLoop (a b : Nat → GraphValue) :
    List Nat → PscalEqMemo → Option (Verdict × PscalEqMemo)
  | [], m => some (.yes, m)
  | i :: is, m =>
    (next (a i) (b i) m).bind fun (r, m) =>
      if r = .yes then arrayElementsLoop a b is m else some (r, m)

def arrayBuffersDeepEqual (total : Nat) (m : PscalEqMemo) :
    ArrayBuffer → ArrayBuffer → Option (Verdict × PscalEqMemo)
  | .raw (some a), .raw (some b) =>
    some (Verdict.ofBool ((List.range total).all fun i => a i = b i), m)
  | .raw none, .raw none => some (.yes, m)
  | .raw (some a), .elements (some b) => some (packedEqual a b (List.range total), m)
  | .elements (some a), .raw (some b) => some (packedEqual b a (List.range total), m)
  | .elements (some a), .elements (some b) => arrayElementsLoop next a b (List.range total) m
  | .elements none, .elements none => some (.yes, m)
  | _, _ => some (.no, m)

def pscalArraysDeepEqualD (pa pb : Option Nat) (m : PscalEqMemo) : Option (Verdict × PscalEqMemo) :=
  if pa = pb then some (.yes, m)
  else match pa, pb with
    | some a, some b =>
      let a := g.arrays a
      let b := g.arrays b
      if a.dimensions ≠ b.dimensions then some (.no, m)
      else if !boundsEqual a b then some (.no, m)
      else
        let total := calculateArrayTotalSize a
        if total ≠ calculateArrayTotalSize b then some (.no, m)
        else if total ≤ 0 then some (.yes, m)
        else arrayBuffersDeepEqual next total.toNat m a.buffer b.buffer
    | _, _ => some (.no, m)

def mapEntriesLoop (mb : MapObj GraphValue) :
    List (MapEntry GraphValue) → PscalEqMemo → Option (Verdict × PscalEqMemo)
  | [], m => some (.yes, m)
  | e :: es, m =>
    if !e.live then mapEntriesLoop mb es m
    else match pscalMapFind mb e.key with
      | none => some (.no, m)
      | some other =>
        (next e.value other m).bind fun (r, m) =>
          if r = .yes then mapEntriesLoop mb es m else some (r, m)

def pscalMapsDeepEqualD (pa pb : Option Nat) (depth : Nat) (m : PscalEqMemo) :
    Option (Verdict × PscalEqMemo) :=
  if pa = pb then some (.yes, m)
  else
    let liveCount (p : Option Nat) : Nat := p.elim 0 fun p => (g.maps p).liveCount
    if liveCount pa ≠ liveCount pb then some (.no, m)
    else match pa, pb with
      | some a, some b =>
        if (g.maps a).liveCount = 0 then some (.yes, m)
        else if deepEqualMaxDepth < depth then some (.unknown, m)
        else mapEntriesLoop next (g.maps b) (g.maps a).entries m
      | _, _ => some (.yes, m)

/-- the values that are compared without going deeper -/
def leafEqual (a b : GraphValue) : Verdict :=
  match a, b with
  | .nil, .nil => .yes
  | .nil, .pointer p => Verdict.ofBool p.isNone
  | .pointer p, .nil => Verdict.ofBool p.isNone
  | .nil, _ => .no
  | _, .nil => .no
  | .pointer p, .pointer q => Verdict.ofBool (p = q)
  | .mstream p, .mstream q => Verdict.ofBool (p = q)
  | a, b =>
    if a.isNumeric && b.isNumeric then
      if a.isReal || b.isReal then Verdict.ofBool (g.ldEqual a b)
      else Verdict.ofBool (a.asI64 = b.asI64)
    else match pscalTextForCompare a, pscalTextForCompare b with
      | some s, some t => Verdict.ofBool (textEqual s t)
      | _, _ => .unknown

end

/-- The comparison with `levels` levels left to the depth cap; a level before the last one is at
the depth `deepEqualMaxDepth - levels`. -/
def pscalValuesDeepEqualD (g : ValueGraph) : Nat → DeepCompare
  | 0, _, _, m => some (.unknown, m)
  | levels + 1, a, b, m =>
    let next := pscalValuesDeepEqualD g levels
    let depth := deepEqualMaxDepth - levels
    match a, b with
    | .array pa, .array pb => pscalArraysDeepEqualD g next pa pb m
    | .map pa, .map pb => pscalMapsDeepEqualD g next pa pb depth m
    | .pointer pa, .pointer pb =>
      if g.frontendIsAether then pscalRecordPointersDeepEqualD g next pa pb depth m
      else some (leafEqual g a b, m)
    | .record fa, .record fb =>
      if g.frontendIsAether then pscalRecordFieldsDeepEqual g next fa fb (depth + 1) m
      else some (.unknown, m)
    | a, b => some (leafEqual g a b, m)

/-! ## the entry points -/

/-- two operands of an equality that is decided here -/
inductive DeepOperands where
  | pointers (pa pb : Option Nat)
  | arrays (pa pb : Option Nat)
  | maps (pa pb : Option Nat)
deriving DecidableEq, Repr

def DeepOperands.left : DeepOperands → GraphValue
  | .pointers pa _ => .pointer pa
  | .arrays pa _ => .array pa
  | .maps pa _ => .map pa

def DeepOperands.right : DeepOperands → GraphValue
  | .pointers _ pb => .pointer pb
  | .arrays _ pb => .array pb
  | .maps _ pb => .map pb

section
variable (g : ValueGraph) (pa pb : Option Nat)

def pscalArraysDeepEqual : Option Verdict :=
  (pscalArraysDeepEqualD g (pscalValuesDeepEqualD g deepEqualMaxDepth) pa pb {}).map (·.1)

def pscalMapsDeepEqual : Option Verdict :=
  (pscalMapsDeepEqualD g (pscalValuesDeepEqualD g deepEqualMaxDepth) pa pb 0 {}).map (·.1)

def pscalRecordPointersDeepEqual : Option Verdict :=
  (pscalRecordPointersDeepEqualD g (pscalValuesDeepEqualD g deepEqualMaxDepth) pa pb 0 {}).map
    (·.1)

end

/-- `==` of the VM on pointers, arrays and maps; `unknown` becomes a runtime error -/
def vmDeepEqual (g : ValueGraph) : DeepOperands → Option Verdict
  | .pointers pa pb =>
    if g.frontendIsAether then pscalRecordPointersDeepEqual g pa pb
    else some (Verdict.ofBool (pa = pb))
  | .arrays pa pb => pscalArraysDeepEqual g pa pb
  | .maps pa pb => pscalMapsDeepEqual g pa pb

end Pscal
