import Pscal.Core.Scalar

/-!
# Reals and their conversion to integers

A real is a `long double` while the machine computes with it, and the bits of its type where it is
stored.  The operations on it are those of the C compiler.

* `Reals`  these operations;
* `VarType.intType`, `VarType.realType`  `isIntlikeType` and `isRealType`;
* `assignRealToIntChecked`  a real assigned to an int-like cell: out of range is a warning;
* `integralReals`  whole numbers, as IEEE doubles are stored.
-/

namespace Pscal

structure Reals where
  LongDouble : Type
  ofInt : Int → LongDouble
  /-- `VAL_REAL32`, `VAL_REAL64`, `VAL_REAL_LD` -/
  load : RealType → Nat → LongDouble
  /-- `SET_REAL_VALUE` -/
  store : RealType → LongDouble → Nat
  isnan : LongDouble → Bool
  lt : LongDouble → LongDouble → Bool
  le : LongDouble → LongDouble → Bool
  /-- `== 0.0L` -/
  isZero : LongDouble → Bool
  /-- the cast to an integer type that holds the result -/
  trunc : LongDouble → Int

/-- the types `isIntlikeType` accepts -/
def VarType.intType : VarType → Option IntType
  | .int8 => some .int8 | .uint8 => some .uint8 | .int16 => some .int16
  | .uint16 => some .uint16 | .int32 => some .int32 | .uint32 => some .uint32
  | .int64 => some .int64 | .uint64 => some .uint64 | .byte => some .byte
  | .word => some .word | .boolean => some .boolean | .char => some .char
  | .widechar => some .widechar | .thread => some .thread
  | _ => none

/-- the types `isRealType` accepts -/
def VarType.realType : VarType → Option RealType
  | .float => some .float | .double => some .double | .longDouble => some .longDouble
  | _ => none

/-- the range that a real must be in: from the first number to the second, which is itself in the
range for the types of at most 32 bits only -/
def IntType.realRange : IntType → Int × Int
  | .boolean => (0, 1)
  | .char | .uint8 | .byte => (0, 2 ^ 8 - 1)
  | .int8 => (-2 ^ 7, 2 ^ 7 - 1)
  | .uint16 | .word => (0, 2 ^ 16 - 1)
  | .int16 => (-2 ^ 15, 2 ^ 15 - 1)
  | .uint32 => (0, 2 ^ 32 - 1)
  | .int32 => (-2 ^ 31, 2 ^ 31 - 1)
  | .uint64 => (0, 2 ^ 64)
  | .int64 | .widechar | .thread => (-2 ^ 63, 2 ^ 63)

def IntType.realRangeOpen : IntType → Bool
  | .uint64 | .int64 | .widechar | .thread => true
  | _ => false

/-- what `assignRealToIntChecked` stores in a cell of the type -/
def assignRealToIntChecked (F : Reals) (t : IntType) (x : F.LongDouble) : Int :=
  if t = .boolean then (if F.isZero x then 0 else 1)
  else
    let x := if F.isnan x then F.ofInt 0 else x
    let low := t.realRange.1
    let high := t.realRange.2
    if F.lt x (F.ofInt low) then t.store low
    else if t.realRangeOpen then
      if F.le (F.ofInt high) x then t.store (high - 1) else t.store (F.trunc x)
    else if F.lt (F.ofInt high) x then t.store high
    else t.store (F.trunc x)

/-! ## whole numbers -/

/-- the bits of a whole number, with `m` bits after the leading one and the exponent `b` for 1 -/
def wholeBits (b m w : Nat) (v : Int) : Nat :=
  if v = 0 then 0
  else
    let a := v.natAbs
    let e := a.log2
    (if v < 0 then 2 ^ w else 0) + (b + e) * 2 ^ m + (a - 2 ^ e) * 2 ^ m / 2 ^ e

def wholeOfBits (b m w : Nat) (bits : Nat) : Int :=
  let magnitude := bits % 2 ^ w
  let a := (2 ^ m + magnitude % 2 ^ m) * 2 ^ (magnitude / 2 ^ m - b) / 2 ^ m
  if magnitude = 0 then 0 else if 2 ^ w ≤ bits then -(a : Int) else a

/-- `float` and `double` on the whole numbers that they hold exactly -/
def integralReals : Reals where
  LongDouble := Int
  ofInt v := v
  load
    | .float => wholeOfBits 127 23 31
    | .double => wholeOfBits 1023 52 63
    | .longDouble => wholeOfBits 16383 63 79
  store
    | .float => wholeBits 127 23 31
    | .double => wholeBits 1023 52 63
    | .longDouble => wholeBits 16383 63 79
  isnan _ := false
  lt x y := decide (x < y)
  le x y := decide (x ≤ y)
  isZero x := decide (x = 0)
  trunc x := x

end Pscal
