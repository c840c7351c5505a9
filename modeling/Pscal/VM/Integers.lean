import Pscal.Core.Scalar

/-!
# Integer arithmetic of the VM

`ADD`, `SUBTRACT`, `MULTIPLY`, `INT_DIV`, `MOD` and `NEGATE` of `vm/vm.c` on values of the integer
types.

* `asI64`  a value read as a `long long`;
* `VmWideInt`  sign and magnitude, for an operand next to a `UINT64`;
* `vmUInt64Arith`, `vmUInt64DivMod`  the operations with a `UINT64` operand;
* `pscalIntResultLike2`  the type of a result;
* `binaryOp`, `intDiv`, `mod`, `negate`  the instructions.
-/

namespace Pscal

def IntType.isIntegerFamilyType : IntType → Bool
  | .int8 | .uint8 | .int16 | .uint16 | .int32 | .uint32 | .int64 | .uint64 | .byte | .word => true
  | .boolean | .char | .widechar | .thread => false

structure IntegerOperand extends Scalar where
  integer : type.isIntegerFamilyType = true

/-! ## reading and making values -/

/-- `__builtin_add_overflow` and its siblings into a `long long` (`none`: overflow) -/
def checkedLongLong (v : Int) : Option Int :=
  if -2 ^ 63 ≤ v ∧ v < 2 ^ 63 then some v else none

/-- the same into an `unsigned long long` -/
def checkedULongLong (v : Nat) : Option UInt64 :=
  if v < 2 ^ 64 then some (UInt64.ofNat v) else none

def Scalar.valInt (v : Scalar) : Int := v.value.bmod (2 ^ 64)

def Scalar.valUInt (v : Scalar) : UInt64 := UInt64.ofInt v.value

def Scalar.asI64 (v : Scalar) : Int :=
  match v.type with
  | .uint64 | .uint32 | .uint16 | .uint8 | .word | .byte => v.valUInt.toInt64.toInt
  | _ => v.valInt

def makeInt (val : Int) : Scalar := Scalar.ofInt .int32 val

def makeInt64 (val : Int) : Scalar := Scalar.ofInt .int64 val

def makeUInt64 (val : UInt64) : Scalar := Scalar.ofInt .uint64 val.toInt64.toInt

def pscalIntResultNarrow (result : Int) : Scalar :=
  if result < -2 ^ 31 ∨ result > 2 ^ 31 - 1 then makeInt64 result else makeInt result

def pscalIntResultLike1 (a : Scalar) (result : Int) : Scalar :=
  if a.type = .uint64 then makeUInt64 (UInt64.ofInt result)
  else if a.type = .int64 then makeInt64 result
  else pscalIntResultNarrow result

def pscalIntResultLike2 (a b : Scalar) (result : Int) : Scalar :=
  if a.type = .uint64 ∨ b.type = .uint64 then makeUInt64 (UInt64.ofInt result)
  else if a.type = .int64 ∨ b.type = .int64 then makeInt64 result
  else pscalIntResultNarrow result

/-! ## with a `UINT64` operand -/

structure VmWideInt where
  neg : Bool
  mag : UInt64
deriving DecidableEq, Repr

def vmWideIntOf (v : Scalar) : VmWideInt :=
  if v.type = .uint64 then { neg := false, mag := v.valUInt }
  else
    let s := v.asI64
    { neg := decide (s < 0), mag := if s < 0 then 0 - UInt64.ofInt s else UInt64.ofInt s }

def vmWideIntToBits (r : VmWideInt) : Option UInt64 :=
  let neg := if r.mag = 0 then false else r.neg
  if neg = true ∧ r.mag > (1 : UInt64) <<< 63 then none
  else some (if neg = true then 0 - r.mag else r.mag)

inductive ArithOp where
  | add | subtract | multiply
deriving DecidableEq, Repr

/-- the branch of `vmUInt64Arith` for `ADD` -/
def vmWideIntAdd (x y : VmWideInt) : Option VmWideInt :=
  if x.neg = y.neg then
    (checkedULongLong (x.mag.toNat + y.mag.toNat)).map fun mag => { neg := x.neg, mag := mag }
  else if x.mag ≥ y.mag then some { neg := x.neg, mag := x.mag - y.mag }
  else some { neg := y.neg, mag := y.mag - x.mag }

def vmUInt64Arith (op : ArithOp) (a b : Scalar) : Option UInt64 :=
  let x := vmWideIntOf a
  let y := vmWideIntOf b
  match op with
  | .add => (vmWideIntAdd x y).bind vmWideIntToBits
  | .subtract => (vmWideIntAdd x { y with neg := !y.neg && y.mag ≠ 0 }).bind vmWideIntToBits
  | .multiply =>
    ((checkedULongLong (x.mag.toNat * y.mag.toNat)).map fun mag =>
      { neg := x.neg ≠ y.neg, mag := mag }).bind vmWideIntToBits

def vmUInt64DivMod (a b : Scalar) (wantMod : Bool) : Option UInt64 :=
  let x := vmWideIntOf a
  let y := vmWideIntOf b
  vmWideIntToBits <|
    if wantMod then { neg := x.neg, mag := x.mag % y.mag }
    else { neg := x.neg ≠ y.neg, mag := x.mag / y.mag }

/-! ## the instructions -/

def integerOverflow : String := "Runtime Error: Integer overflow."

def divisionByZero : String := "Runtime Error: Integer division by zero."

def moduloByZero : String := "Runtime Error: Modulo by zero."

def pushOr {α : Type} (message : String) (push : α → Scalar) : Option α → Except String Scalar
  | none => .error message
  | some v => .ok (push v)

def ArithOp.apply : ArithOp → Int → Int → Int
  | .add, a, b => a + b
  | .subtract, a, b => a - b
  | .multiply, a, b => a * b

/-- `BINARY_OP` on two integers -/
def binaryOp (op : ArithOp) (a b : Scalar) : Except String Scalar :=
  if op = .add ∧ a.type = .int32 ∧ b.type = .int32 then
    pushOr integerOverflow pscalIntResultNarrow (checkedLongLong (a.valInt + b.valInt))
  else if a.type = .uint64 ∨ b.type = .uint64 then
    pushOr integerOverflow makeUInt64 (vmUInt64Arith op a b)
  else
    pushOr integerOverflow (pscalIntResultLike2 a b)
      (checkedLongLong (op.apply a.asI64 b.asI64))

def intDiv (a b : Scalar) : Except String Scalar :=
  if a.type = .int32 ∧ b.type = .int32 then
    let ia := a.valInt.bmod (2 ^ 32)
    let ib := b.valInt.bmod (2 ^ 32)
    if ib = 0 then .error divisionByZero
    else if ia = -2 ^ 31 ∧ ib = -1 then .ok (makeInt64 2147483648)
    else .ok (makeInt (ia.tdiv ib))
  else
    let ia := a.asI64
    let ib := b.asI64
    if ib = 0 then .error divisionByZero
    else if a.type = .uint64 ∨ b.type = .uint64 then
      pushOr integerOverflow makeUInt64 (vmUInt64DivMod a b false)
    else if ia = -2 ^ 63 ∧ ib = -1 then .error integerOverflow
    else .ok (pscalIntResultLike2 a b (ia.tdiv ib))

/-- `MOD`; its call of `vmUInt64DivMod` leaves the result at `0` when it fails -/
def mod (a b : Scalar) : Except String Scalar :=
  if a.type = .int32 ∧ b.type = .int32 then
    let ia := a.valInt.bmod (2 ^ 32)
    let ib := b.valInt.bmod (2 ^ 32)
    if ib = 0 then .error moduloByZero
    else if ia = -2 ^ 31 ∧ ib = -1 then .ok (makeInt 0)
    else .ok (makeInt (ia.tmod ib))
  else
    let ia := a.asI64
    let ib := b.asI64
    if ib = 0 then .error moduloByZero
    else if a.type = .uint64 ∨ b.type = .uint64 then
      .ok (makeUInt64 ((vmUInt64DivMod a b true).getD 0))
    else .ok (pscalIntResultLike2 a b (if ib = -1 then 0 else ia.tmod ib))

def negate (v : Scalar) : Except String Scalar :=
  let iv := v.asI64
  if iv = -2 ^ 63 ∧ v.type ≠ .uint64 then .error integerOverflow
  else .ok (pscalIntResultLike1 v (0 - UInt64.ofInt iv).toInt64.toInt)

end Pscal
