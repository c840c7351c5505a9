import Mathlib
import Pscal.Shell.ArithmeticGrammar
import Pscal.Shell.ArithmeticUntaken

/-!
# Arithmetic as C has it

A value of an expression without the parser: the exact result of an operator, modulo `2 ^ 64`, over
the trees of the grammar.

* `wrap`, `ArithmeticOp.reference`  the operators;
* `ArithmeticTree.reference`  the value of a tree, without the sides that are skipped;
* `referenceText`, `Reference`  the value of a text, with the texts of its variables;
* `ArithmeticTree.Along`  what holds of each step and each skipped side;
* `ChainsBelow`, `Steady`, `QuietRun`  the depth of a text, its steps and its skipped sides.
-/

namespace Pscal.Shell

open Wire (Bytes)

/-! ## operators -/

/-- modulo `2 ^ 64`, as two's complement -/
def wrap (x : Int) : Word := BitVec.ofInt 64 x

/-- no value where the operator has none: a zero divisor, a negative exponent -/
def ArithmeticOp.reference (op : ArithmeticOp) (lhs rhs : Word) : Option Word :=
  let a := lhs.toInt
  let b := rhs.toInt
  match op with
  | .add => some (wrap (a + b))
  | .subtract => some (wrap (a - b))
  | .multiply => some (wrap (a * b))
  | .power => if b < 0 then none else some (wrap (a ^ b.toNat))
  | .divide => if b = 0 then none else some (wrap (a.tdiv b))
  | .modulo => if b = 0 then none else some (wrap (a.tmod b))
  | .shiftLeft => some (wrap (a * 2 ^ (b % 64).toNat))
  | .shiftRight => some (wrap (a / 2 ^ (b % 64).toNat))
  | .bitAnd => some (lhs &&& rhs)
  | .bitOr => some (lhs ||| rhs)
  | .bitXor => some (lhs ^^^ rhs)
  | .equal => some (truth (a = b))
  | .notEqual => some (truth (a ≠ b))
  | .less => some (truth (a < b))
  | .lessEqual => some (truth (a ≤ b))
  | .greater => some (truth (b < a))
  | .greaterEqual => some (truth (b ≤ a))
  | .logicalOr => some (truth (a ≠ 0 || b ≠ 0))
  | .logicalAnd => some (truth (a ≠ 0 && b ≠ 0))

def UnaryOp.reference (op : UnaryOp) (value : Word) : Word :=
  match op with
  | .plus => value
  | .minus => wrap (-value.toInt)
  | .complement => wrap (-value.toInt - 1)
  | .logicalNot => truth (value.toInt = 0)

def stepReference (increment : Bool) (value : Word) : Word :=
  wrap (if increment then value.toInt + 1 else value.toInt - 1)

/-! ## trees -/

def orNone {σ α : Type} : Option α → Evaluation σ α
  | some a => pure a
  | none => failure

section
variable {σ : Type} (world : ArithmeticWorld σ) (texts : Bytes → Evaluation σ Word)

/-- `texts` is the value of the text that a variable holds -/
def readReference (lvalue : ShellArithmeticLvalue) : Evaluation σ Word := do
  match ← lvalueText world lvalue with
  | none => pure 0
  | some text => texts text

def storeReference (lvalue : ShellArithmeticLvalue) (value : Word) : Evaluation σ Unit := do
  let text := signedDecimal value.toInt
  let stored ← match lvalue.subscript with
    | none => liftM (world.setVariable lvalue.name text)
    | some subscript => do
      match ← liftM (world.subscriptKey lvalue.name subscript) with
      | some (some key) => liftM (world.setElement lvalue.name key text)
      | _ => failure
  if stored then pure () else failure

def ArithmeticTree.reference : ArithmeticTree → Evaluation σ Word
  | .number value => pure value
  | .read lvalue => readReference world texts lvalue
  | .thenStep lvalue increment => do
    let value ← readReference world texts lvalue
    storeReference world lvalue (stepReference increment value)
    pure value
  | .stepped increment lvalue => do
    let value ← readReference world texts lvalue
    storeReference world lvalue (stepReference increment value)
    pure (stepReference increment value)
  | .unary op operand => do
    let value ← operand.reference
    pure (op.reference value)
  | .binary op lhs rhs => do
    let left ← lhs.reference
    if skips op left then pure (truth (op = .logicalOr))
    else
      let right ← rhs.reference
      orNone (op.reference left right)
  | .conditional condition whenTrue whenFalse => do
    let test ← condition.reference
    if test ≠ 0 then whenTrue.reference else whenFalse.reference
  | .assign lvalue none rhs => do
    let value ← rhs.reference
    storeReference world lvalue value
    pure value
  | .assign lvalue (some op) rhs => do
    let right ← rhs.reference
    let current ← readReference world texts lvalue
    let value ← orNone (op.op.reference current right)
    storeReference world lvalue value
    pure value
  | .comma first second => do
    let _ ← first.reference
    second.reference

end

/-! ## along an evaluation -/

/-- what holds of the value of a computation and the state behind it, if it has a value -/
def Behind {σ α : Type} (x : Evaluation σ α) (s : σ) (P : α → σ → Prop) : Prop :=
  ∀ a s', x.run s = (some a, s') → P a s'

section
variable {σ : Type} (world : ArithmeticWorld σ) (texts : Bytes → Evaluation σ Word)

/-- what holds of the text that a variable holds, where it is read -/
def ReadAlong (atText : Bytes → σ → Prop) (lvalue : ShellArithmeticLvalue) (s : σ) : Prop :=
  Behind (lvalueText world lvalue) s fun text s' => ∀ t, text = some t → atText t s'

variable (atStep : Bool → Word → Prop) (atSkip : ArithmeticTree → Prop) (atText : Bytes → σ → Prop)

/-- what holds of each step that the evaluation comes to, of each side that it skips, and of each
text that it reads -/
def ArithmeticTree.Along : ArithmeticTree → σ → Prop
  | .number _, _ => True
  | .read lvalue, s => ReadAlong world atText lvalue s
  | .thenStep lvalue increment, s =>
    ReadAlong world atText lvalue s ∧
      Behind (readReference world texts lvalue) s fun value _ => atStep increment value
  | .stepped increment lvalue, s =>
    ReadAlong world atText lvalue s ∧
      Behind (readReference world texts lvalue) s fun value _ => atStep increment value
  | .unary _ operand, s => operand.Along s
  | .binary op lhs rhs, s =>
    lhs.Along s ∧
      Behind (lhs.reference world texts) s fun left s' =>
        if skips op left then atSkip rhs else rhs.Along s'
  | .conditional condition whenTrue whenFalse, s =>
    condition.Along s ∧
      Behind (condition.reference world texts) s fun test s' =>
        if test ≠ 0 then whenTrue.Along s' ∧ atSkip whenFalse
        else atSkip whenTrue ∧ whenFalse.Along s'
  | .assign _ none rhs, s => rhs.Along s
  | .assign lvalue (some _) rhs, s =>
    rhs.Along s ∧
      Behind (rhs.reference world texts) s fun _ s' => ReadAlong world atText lvalue s'
  | .comma first second, s =>
    first.Along s ∧ Behind (first.reference world texts) s fun _ s' => second.Along s'

end

/-! ## texts -/

section
variable {σ : Type} (world : ArithmeticWorld σ)

open Classical in
/-- the value of a text of the grammar, where the texts of variables go `depth` deep at most -/
noncomputable def referenceText : Nat → Bytes → Evaluation σ Word
  | 0, text =>
    if h : ∃ tree, InGrammar text tree then h.choose.reference world fun _ => failure else failure
  | depth + 1, text =>
    if h : ∃ tree, InGrammar text tree then h.choose.reference world (referenceText depth)
    else failure

def Reference (text : Bytes) (s : σ) (value : Word) (s' : σ) : Prop :=
  ∃ depth, (referenceText world depth text).run s = (some value, s')

/-- the chains of variables that a value rests on are no deeper than `depth` -/
def ChainsBelow (depth : Nat) (text : Bytes) (s : σ) : Prop :=
  ∀ value s', Reference world text s value s' →
    (referenceText world depth text).run s = (some value, s')

/-- the texts of variables, one level deeper -/
noncomputable def deeperReference : Nat → Bytes → Evaluation σ Word
  | 0 => fun _ => failure
  | depth + 1 => referenceText world depth

def AlongText (atStep : Bool → Word → Prop) (atSkip : ArithmeticTree → Prop) :
    Nat → Bytes → σ → Prop
  | 0, text, s =>
    ∀ tree, InGrammar text tree →
      tree.Along world (deeperReference world 0) atStep atSkip (fun _ _ => True) s
  | depth + 1, text, s =>
    ∀ tree, InGrammar text tree →
      tree.Along world (deeperReference world (depth + 1)) atStep atSkip
        (AlongText atStep atSkip depth) s

/-- `value + 1` or `value - 1` is a `long long` -/
def StepFits (increment : Bool) (value : Word) : Prop :=
  value.saddOverflow (if increment then 1 else -1) = false

/-- no `++` or `--` that the evaluation comes to overflows -/
def Steady : Nat → Bytes → σ → Prop := AlongText world StepFits fun _ => True

def QuietRun : Nat → Bytes → σ → Prop := AlongText world (fun _ _ => True) ArithmeticTree.Quiet

end

end Pscal.Shell
