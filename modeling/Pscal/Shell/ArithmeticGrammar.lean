import Pscal.Paths.Truncate
import Pscal.Shell.ArithmeticTrees
import Pscal.Shell.Identifiers

/-!
# The grammar of shell arithmetic

What an expression is, apart from how it is read: C's levels of operators, with `**` above them.

* `ArithmeticOp.symbol`, `ArithmeticOp.level`  the operators;
* `ConstantAt`, `LvalueAt`  numbers to any base, names and elements;
* `Derives`  the levels of an expression;
* `InGrammar`  the tree of a text.

A relation takes a text to what is left of it, where the blanks before the next part are dropped.
A step binds to a name beside it: behind a name, `++` is a step, and before one it is a step where
an operand is due; any other `++` is two signs.
-/

namespace Pscal.Shell

open Wire (Bytes)
open Paths (ascii)
open DecimalText (isDigit value)

/-! ## symbols -/

def ArithmeticOp.symbol : ArithmeticOp → Bytes
  | .logicalOr => ascii "||"
  | .logicalAnd => ascii "&&"
  | .bitOr => ascii "|"
  | .bitXor => ascii "^"
  | .bitAnd => ascii "&"
  | .equal => ascii "=="
  | .notEqual => ascii "!="
  | .less => ascii "<"
  | .lessEqual => ascii "<="
  | .greater => ascii ">"
  | .greaterEqual => ascii ">="
  | .shiftLeft => ascii "<<"
  | .shiftRight => ascii ">>"
  | .add => ascii "+"
  | .subtract => ascii "-"
  | .multiply => ascii "*"
  | .divide => ascii "/"
  | .modulo => ascii "%"
  | .power => ascii "**"

/-- C's levels, the loosest first -/
def ArithmeticOp.level : ArithmeticOp → Nat
  | .logicalOr => 1
  | .logicalAnd => 2
  | .bitOr => 3
  | .bitXor => 4
  | .bitAnd => 5
  | .equal | .notEqual => 6
  | .less | .lessEqual | .greater | .greaterEqual => 7
  | .shiftLeft | .shiftRight => 8
  | .add | .subtract => 9
  | .multiply | .divide | .modulo => 10
  | .power => 11

def assignmentSymbol : Option CompoundOp → Bytes
  | none => ascii "="
  | some op => op.op.symbol ++ ascii "="

def UnaryOp.symbol : UnaryOp → UInt8
  | .plus => 43
  | .minus => 45
  | .logicalNot => 33
  | .complement => 126

def stepSymbol (increment : Bool) : Bytes := if increment then ascii "++" else ascii "--"

def behindBlanks (s : Bytes) : Bytes := s.dropWhile isspace

/-! ## operands -/

/-- the digit of a byte, 0 where it is none -/
def digitOf (base : Nat) (b : UInt8) : Nat := (shellArithmeticDigitValue b base).getD 0

def digitsValue (base : Nat) (digits : Bytes) : Nat :=
  Nat.ofDigits base (digits.map (digitOf base)).reverse

def DigitsTo (base : Nat) (digits : Bytes) : Prop :=
  ∀ b ∈ digits, ∃ d < base, shellArithmeticDigitValue b base = some d

/-- A number goes as far as letters, digits, `@` and `_` do. -/
def EndsNumber (rest : Bytes) : Prop := ∀ b ∈ rest.head?, isNumeral b = false

inductive ConstantAt : Bytes → Nat → Bytes → Prop where
  | decimal {digits rest : Bytes} (hne : digits ≠ []) (hzero : digits.head? ≠ some 48)
      (h : DigitsTo 10 digits) (hend : EndsNumber rest) (hbase : rest.head? ≠ some 35) :
      ConstantAt (digits ++ rest) (digitsValue 10 digits) rest
  | octal {digits rest : Bytes} (h : DigitsTo 8 digits) (hend : EndsNumber rest)
      (hbase : rest.head? ≠ some 35) :
      ConstantAt (48 :: digits ++ rest) (digitsValue 8 digits) rest
  | hexadecimal {x : UInt8} {digits rest : Bytes} (hx : x = 120 ∨ x = 88) (h : DigitsTo 16 digits)
      (hend : EndsNumber rest) : ConstantAt (48 :: x :: digits ++ rest) (digitsValue 16 digits) rest
  /-- `base#digits` -/
  | based {lead digits rest : Bytes} (hlead : ∀ b ∈ lead, isDigit b = true) (hlead_ne : lead ≠ [])
      (hlow : 2 ≤ value lead) (hhigh : value lead ≤ 64) (hne : digits ≠ [])
      (h : DigitsTo (value lead) digits) (hend : EndsNumber rest) :
      ConstantAt (lead ++ 35 :: digits ++ rest) (digitsValue (value lead) digits) rest

/-- a name, or an element, whose subscript goes to the bracket that closes it -/
inductive LvalueAt : Bytes → ShellArithmeticLvalue → Bytes → Prop where
  | name {s : Bytes} {n : Nat} (h : consumeShellIdentifier s false = some n)
      (hno : (s.drop n).head? ≠ some openBracket) : LvalueAt s ⟨s.take n, none⟩ (s.drop n)
  | element {s body : Bytes} {n stop : Nat} (h : consumeShellIdentifier s false = some n)
      (hopen : s.drop n = openBracket :: body) (hclose : subscriptEnd 0 body = some stop) :
      LvalueAt s ⟨s.take n, some (body.take (stop - 1))⟩ (body.drop stop)

def StepAt (s : Bytes) : Prop := ∃ increment s', s = stepSymbol increment ++ s'

def SteppedAt (s : Bytes) : Prop :=
  ∃ increment s₁ lvalue s', s = stepSymbol increment ++ s₁ ∧ LvalueAt (behindBlanks s₁) lvalue s'

/-! ## levels -/

inductive ExpressionLevel where
  | comma | assignment | conditional
  | binary (level : Nat)
  | unary | primary
deriving DecidableEq, Repr

inductive Derives : ExpressionLevel → Bytes → ArithmeticTree → Bytes → Prop where
  | number {s rest : Bytes} {n : Nat} (h : ConstantAt s n rest) :
      Derives .primary s (.number (BitVec.ofNat 64 n)) (behindBlanks rest)
  | parens {s s' : Bytes} {tree : ArithmeticTree}
      (h : Derives .comma (behindBlanks s) tree (closeParen :: s')) :
      Derives .primary (openParen :: s) tree (behindBlanks s')
  | read {s s' : Bytes} {lvalue : ShellArithmeticLvalue} (h : LvalueAt s lvalue s')
      (hno : ¬ StepAt (behindBlanks s')) : Derives .primary s (.read lvalue) (behindBlanks s')
  | thenStep {s s₁ s' : Bytes} {lvalue : ShellArithmeticLvalue} {increment : Bool}
      (h : LvalueAt s lvalue s₁) (hstep : behindBlanks s₁ = stepSymbol increment ++ s') :
      Derives .primary s (.thenStep lvalue increment) (behindBlanks s')
  | ofPrimary {s s' : Bytes} {tree : ArithmeticTree} (h : Derives .primary s tree s') :
      Derives .unary s tree s'
  | stepped {s s' : Bytes} {lvalue : ShellArithmeticLvalue} {increment : Bool}
      (h : LvalueAt (behindBlanks s) lvalue s') (hno : ¬ StepAt (behindBlanks s')) :
      Derives .unary (stepSymbol increment ++ s) (.stepped increment lvalue) (behindBlanks s')
  | sign {s s' : Bytes} {op : UnaryOp} {tree : ArithmeticTree}
      (hno : ¬ SteppedAt (op.symbol :: s)) (h : Derives .unary (behindBlanks s) tree s') :
      Derives .unary (op.symbol :: s) (.unary op tree) s'
  | ofUnary {s s' : Bytes} {tree : ArithmeticTree} (h : Derives .unary s tree s') :
      Derives (.binary 11) s tree s'
  /-- `**` is right associative -/
  | power {s s₁ s' : Bytes} {lhs rhs : ArithmeticTree}
      (hl : Derives .unary s lhs (ArithmeticOp.power.symbol ++ s₁))
      (hr : Derives (.binary 11) (behindBlanks s₁) rhs s') :
      Derives (.binary 11) s (.binary .power lhs rhs) s'
  | tighter {s s' : Bytes} {tree : ArithmeticTree} {level : Nat} (hlevel : level < 11)
      (h : Derives (.binary (level + 1)) s tree s') : Derives (.binary level) s tree s'
  /-- everything else is left associative -/
  | operator {s s₁ s' : Bytes} {op : ArithmeticOp} {lhs rhs : ArithmeticTree}
      (hlevel : op.level < 11) (hl : Derives (.binary op.level) s lhs (op.symbol ++ s₁))
      (hr : Derives (.binary (op.level + 1)) (behindBlanks s₁) rhs s') :
      Derives (.binary op.level) s (.binary op lhs rhs) s'
  | ofBinary {s s' : Bytes} {tree : ArithmeticTree} (h : Derives (.binary 1) s tree s') :
      Derives .conditional s tree s'
  | conditional {s s₁ s₂ s' : Bytes} {condition whenTrue whenFalse : ArithmeticTree}
      (hc : Derives (.binary 1) s condition (63 :: s₁))
      (ht : Derives .comma (behindBlanks s₁) whenTrue (58 :: s₂))
      (hf : Derives .conditional (behindBlanks s₂) whenFalse s') :
      Derives .conditional s (.conditional condition whenTrue whenFalse) s'
  | ofConditional {s s' : Bytes} {tree : ArithmeticTree} (h : Derives .conditional s tree s') :
      Derives .assignment s tree s'
  | assign {s s₁ s₂ s' : Bytes} {lvalue : ShellArithmeticLvalue} {op : Option CompoundOp}
      {rhs : ArithmeticTree} (h : LvalueAt s lvalue s₁)
      (hop : behindBlanks s₁ = assignmentSymbol op ++ s₂)
      (hr : Derives .assignment (behindBlanks s₂) rhs s') :
      Derives .assignment s (.assign lvalue op rhs) s'
  | ofAssignment {s s' : Bytes} {tree : ArithmeticTree} (h : Derives .assignment s tree s') :
      Derives .comma s tree s'
  | comma {s s₁ s' : Bytes} {first second : ArithmeticTree}
      (hf : Derives .comma s first (44 :: s₁))
      (hs : Derives .assignment (behindBlanks s₁) second s') :
      Derives .comma s (.comma first second) s'

/-- the tree of a text; a blank text is 0 -/
inductive InGrammar : Bytes → ArithmeticTree → Prop where
  | blank {text : Bytes} (h : behindBlanks text = []) : InGrammar text (.number 0)
  | expression {text : Bytes} {tree : ArithmeticTree}
      (h : Derives .comma (behindBlanks text) tree []) : InGrammar text tree

end Pscal.Shell
