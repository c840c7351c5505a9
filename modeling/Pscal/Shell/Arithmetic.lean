import Pscal.Shell.Arrays

/-!
# Arithmetic of the shell

`shell_arithmetic.inc`: the parser that evaluates an expression while it reads it.

* `Cursor`, `shellArithmeticSkipWhitespace`, `shellArithmeticPeek`  the place in the text;
* `shellArithmeticParseNumber`, `shellArithmeticParseLvalue`, `shellArithmeticPeekBinaryOp`,
  `shellArithmeticPeekAssignment` what stands there;
* `ArithmeticWorld`  the variables of the shell, and its reports;
* `shellArithmeticReadVariable`, `shellArithmeticStoreVariable`, `shellArithmeticApply`  the
  effects, which `noeval` suppresses;
* `parsePrimary` … `parseComma`  the levels of the expression;
* `shellArithmeticEvaluateText`  an expression, with the depth that is left.

A report is kept by its label and message; what it quotes of the expression is not.
`consumeShellIdentifier` is a parameter, `IdentifierScanner`.
-/

namespace Pscal.Shell

open Wire (Bytes)
open DecimalText (isDigit)

/-- `long long` -/
abbrev Word := BitVec 64

/-! ## the place in the text -/

structure Cursor where
  pos : Nat
  lastToken : Nat
deriving DecidableEq, Repr

def Cursor.advance (c : Cursor) (n : Nat) : Cursor := { c with pos := c.pos + n }

section
variable (text : Bytes)

def shellArithmeticSkipWhitespace (c : Cursor) : Cursor :=
  let pos := c.pos + ((text.drop c.pos).takeWhile isspace).length
  ⟨pos, if pos < text.length then pos else c.lastToken⟩

def shellArithmeticPeek (c : Cursor) (op : Bytes) : Bool := op.isPrefixOf (text.drop c.pos)

end

/-! ## numbers -/

def isalpha (b : UInt8) : Bool := (65 ≤ b && b ≤ 90) || (97 ≤ b && b ≤ 122)

def isalnum (b : UInt8) : Bool := isDigit b || isalpha b

/-- a letter, a digit, `@` or `_` -/
def isNumeral (b : UInt8) : Bool := isalnum b || b = 64 || b = 95

def shellArithmeticDigitValue (b : UInt8) (base : Nat) : Option Nat :=
  if isDigit b then some (b.toNat - 48)
  else if 97 ≤ b && b ≤ 122 then some (b.toNat - 97 + 10)
  else if 65 ≤ b && b ≤ 90 then some (if base ≤ 36 then b.toNat - 65 + 10 else b.toNat - 65 + 36)
  else if b = 64 then some 62
  else if b = 95 then some 63
  else none

def numberDigits (base : Nat) (value : Word) : Bytes → Except String (Word × Nat)
  | [] => .ok (value, 0)
  | b :: rest =>
    if isNumeral b then
      match shellArithmeticDigitValue b base with
      | none => .error "value too great for base"
      | some digit =>
        if base ≤ digit then .error "value too great for base"
        else
          (numberDigits base (value * BitVec.ofNat 64 base + BitVec.ofNat 64 digit) rest).map
            fun r => (r.1, r.2 + 1)
    else .ok (value, 0)

/-- the base of a number, where its digits start, and whether a `#` says so -/
def numberBase (s : Bytes) : Except String (Nat × Nat × Bool) :=
  let lead := s.takeWhile isDigit
  if s[lead.length]? = some 35 then
    let parsed := (strtol s).1
    if parsed < 2 ∨ 64 < parsed then
      .error (if parsed = 0 then "invalid number" else "invalid arithmetic base")
    else .ok (parsed.toNat, lead.length + 1, true)
  else if s[0]? = some 48 ∧ (s[1]? = some 120 ∨ s[1]? = some 88) then .ok (16, 2, false)
  else if s[0]? = some 48 then .ok (8, 0, false)
  else .ok (10, 0, false)

def shellArithmeticParseNumber (text : Bytes) (c : Cursor) : Except String (Word × Cursor) := do
  let (base, start, based) ← numberBase (text.drop c.pos)
  let (value, digits) ← numberDigits base 0 (text.drop (c.pos + start))
  if digits = 0 ∧ based then .error "invalid integer constant"
  else .ok (value, c.advance (start + digits))

/-! ## names -/

structure ShellArithmeticLvalue where
  name : Bytes
  subscript : Option Bytes
deriving DecidableEq, Repr

/-- the length of the identifier that a text starts with -/
structure IdentifierScanner where
  consumeShellIdentifier : Bytes → Option Nat
  le : ∀ {text n}, consumeShellIdentifier text = some n → n ≤ text.length

/-- behind the bracket that closes a subscript -/
def subscriptEnd : Nat → Bytes → Option Nat
  | _, [] => none
  | depth, b :: rest =>
    if b = openBracket then (subscriptEnd (depth + 1) rest).map (· + 1)
    else if b = closeBracket then
      match depth with
      | 0 => some 1
      | depth + 1 => (subscriptEnd depth rest).map (· + 1)
    else (subscriptEnd depth rest).map (· + 1)

def shellArithmeticParseLvalue (identifiers : IdentifierScanner) (text : Bytes) (c : Cursor) :
    Except String (Option (ShellArithmeticLvalue × Cursor)) :=
  match identifiers.consumeShellIdentifier (text.drop c.pos) with
  | none => .ok none
  | some length =>
    let name := (text.drop c.pos).take length
    let c := c.advance length
    if text[c.pos]? = some openBracket then
      match subscriptEnd 0 (text.drop (c.pos + 1)) with
      | none => .error "bad array subscript"
      | some stop =>
        .ok (some (⟨name, some ((text.drop (c.pos + 1)).take (stop - 1))⟩, c.advance (stop + 1)))
    else .ok (some (⟨name, none⟩, c))

/-! ## operators -/

inductive ArithmeticOp where
  | logicalOr | logicalAnd | equal | notEqual | lessEqual | greaterEqual | shiftLeft | shiftRight
  | power | bitOr | bitXor | bitAnd | less | greater | add | subtract | multiply | divide | modulo
deriving DecidableEq, Repr

structure ShellArithmeticBinaryOp where
  op : ArithmeticOp
  text : Bytes
  precedence : Nat
deriving DecidableEq, Repr

/-- longest first -/
def gShellArithmeticOps : List ShellArithmeticBinaryOp :=
  [⟨.logicalOr, [124, 124], 1⟩, ⟨.logicalAnd, [38, 38], 2⟩, ⟨.equal, [61, 61], 6⟩,
    ⟨.notEqual, [33, 61], 6⟩, ⟨.lessEqual, [60, 61], 7⟩, ⟨.greaterEqual, [62, 61], 7⟩,
    ⟨.shiftLeft, [60, 60], 8⟩, ⟨.shiftRight, [62, 62], 8⟩, ⟨.power, [42, 42], 11⟩,
    ⟨.bitOr, [124], 3⟩, ⟨.bitXor, [94], 4⟩, ⟨.bitAnd, [38], 5⟩, ⟨.less, [60], 7⟩,
    ⟨.greater, [62], 7⟩, ⟨.add, [43], 9⟩, ⟨.subtract, [45], 9⟩, ⟨.multiply, [42], 10⟩,
    ⟨.divide, [47], 10⟩, ⟨.modulo, [37], 10⟩]

/-- `+-*/%<>=!&|^~?:,()` -/
def arithmeticCharacters : Bytes :=
  [43, 45, 42, 47, 37, 60, 62, 61, 33, 38, 124, 94, 126, 63, 58, 44, 40, 41]

/-- an operator that an `=` behind it makes part of an assignment -/
def ShellArithmeticBinaryOp.assigns (op : ShellArithmeticBinaryOp) : Bool :=
  op.precedence ≠ 6 && op.precedence ≠ 11 && 2 < op.precedence && op.op ≠ .lessEqual &&
    op.op ≠ .greaterEqual

def shellArithmeticPeekBinaryOp (text : Bytes) (c : Cursor) :
    Except String (Option ShellArithmeticBinaryOp × Cursor) :=
  let afterParen := text[c.lastToken]? = some closeParen
  let c := shellArithmeticSkipWhitespace text c
  let foreign := text[c.pos]?.any fun b =>
    b < 128 && !isalnum b && b ≠ 95 && !arithmeticCharacters.contains b
  if foreign then
    .error (if afterParen then "syntax error: operand expected"
      else "syntax error: invalid arithmetic operator")
  else
    match gShellArithmeticOps.find? fun op => shellArithmeticPeek text c op.text with
    | none => .ok (none, c)
    | some op =>
      if op.assigns && text[c.pos + op.text.length]? = some equalsSign then .ok (none, c)
      else .ok (some op, c)

inductive CompoundOp where
  | shiftLeft | shiftRight | add | subtract | multiply | divide | modulo | bitAnd | bitXor | bitOr
deriving DecidableEq, Repr

def CompoundOp.op : CompoundOp → ArithmeticOp
  | .shiftLeft => .shiftLeft
  | .shiftRight => .shiftRight
  | .add => .add
  | .subtract => .subtract
  | .multiply => .multiply
  | .divide => .divide
  | .modulo => .modulo
  | .bitAnd => .bitAnd
  | .bitXor => .bitXor
  | .bitOr => .bitOr

def assignmentOps : List (CompoundOp × Bytes) :=
  [(.shiftLeft, [60, 60, 61]), (.shiftRight, [62, 62, 61]), (.add, [43, 61]), (.subtract, [45, 61]),
    (.multiply, [42, 61]), (.divide, [47, 61]), (.modulo, [37, 61]), (.bitAnd, [38, 61]),
    (.bitXor, [94, 61]), (.bitOr, [124, 61])]

def shellArithmeticPeekAssignment (text : Bytes) (c : Cursor) : Option (Option CompoundOp × Nat) :=
  match assignmentOps.find? fun op => shellArithmeticPeek text c op.2 with
  | some op => some (some op.1, op.2.length)
  | none =>
    if shellArithmeticPeek text c [61] && !shellArithmeticPeek text c [61, 61] then some (none, 1)
    else none

/-- the squarings of `**` -/
def powerLoop : Nat → (result base : Word) → (exponent : Nat) → Word
  | 0, result, _, _ => result
  | rounds + 1, result, base, exponent =>
    if exponent = 0 then result
    else powerLoop rounds (if exponent % 2 = 1 then result * base else result) (base * base)
      (exponent / 2)

def truth (b : Bool) : Word := if b then 1 else 0

/-- the operators but `&&` and `||` -/
def shellArithmeticApply (noeval : Nat) (op : ArithmeticOp) (lhs rhs : Word) : Except String Word :=
  match op with
  | .add => .ok (lhs + rhs)
  | .subtract => .ok (lhs - rhs)
  | .bitXor => .ok (lhs ^^^ rhs)
  | .bitOr => .ok (lhs ||| rhs)
  | .bitAnd => .ok (lhs &&& rhs)
  | .power =>
    if rhs.slt 0 then .error "exponent less than 0" else .ok (powerLoop 64 1 lhs rhs.toNat)
  | .multiply => .ok (lhs * rhs)
  | .divide =>
    if rhs = 0 then (if 0 < noeval then .ok 0 else .error "division by 0")
    else if rhs = -1 then .ok (0 - lhs)
    else .ok (lhs.sdiv rhs)
  | .modulo =>
    if rhs = 0 then (if 0 < noeval then .ok 0 else .error "division by 0")
    else if rhs = -1 then .ok 0
    else .ok (lhs.srem rhs)
  | .shiftLeft => .ok (lhs <<< (rhs &&& 63).toNat)
  | .lessEqual => .ok (truth (lhs.sle rhs))
  | .less => .ok (truth (lhs.slt rhs))
  | .shiftRight => .ok (lhs.sshiftRight (rhs &&& 63).toNat)
  | .greaterEqual => .ok (truth (rhs.sle lhs))
  | .greater => .ok (truth (rhs.slt lhs))
  | .equal => .ok (truth (lhs = rhs))
  | .notEqual => .ok (truth (lhs ≠ rhs))
  | .logicalOr | .logicalAnd => .error "syntax error"

/-- the operand that an operator does not need after this one -/
def skips (op : ArithmeticOp) (lhs : Word) : Bool :=
  (op = .logicalOr && lhs ≠ 0) || (op = .logicalAnd && lhs = 0)

def applyBinary (noeval : Nat) (op : ArithmeticOp) (lhs rhs : Word) : Except String Word :=
  match op with
  | .logicalOr => .ok (truth (lhs ≠ 0 || rhs ≠ 0))
  | .logicalAnd => .ok (truth (lhs ≠ 0 && rhs ≠ 0))
  | op => shellArithmeticApply noeval op lhs rhs

inductive UnaryOp where
  | plus | minus | logicalNot | complement
deriving DecidableEq, Repr

def UnaryOp.ofByte (b : UInt8) : Option UnaryOp :=
  if b = 43 then some .plus else if b = 45 then some .minus
  else if b = 33 then some .logicalNot else if b = 126 then some .complement else none

def UnaryOp.apply : UnaryOp → Word → Word
  | .minus, value => 0 - value
  | .logicalNot, value => truth (value = 0)
  | .complement, value => ~~~value
  | .plus, value => value

/-! ## variables -/

inductive ArithmeticReport where
  | expression (label message : String)
  | unbound (name : Bytes)
  | isReadonly (name : Bytes)
deriving DecidableEq, Repr

/-- what arithmetic calls of the shell; each call may change its state -/
structure ArithmeticWorld (σ : Type) where
  /-- `shellParamSubscriptKeyChecked`: it failed, or there is no key, or a key -/
  subscriptKey : Bytes → Bytes → StateM σ (Option (Option Bytes))
  /-- `shellExpandArraySubscriptValue` -/
  element : Bytes → Bytes → StateM σ (Option Bytes)
  /-- `shellLookupParameterValueInternal`: the text, and whether it is set -/
  parameter : Bytes → StateM σ (Option Bytes × Bool)
  nounset : StateM σ Bool
  /-- `shellArrayRegistrySetElement` -/
  setElement : Bytes → Bytes → Bytes → StateM σ Bool
  /-- `shellSetTrackedVariable` -/
  setVariable : Bytes → Bytes → StateM σ Bool
  /-- `shellReportRecoverableError` -/
  report : ArithmeticReport → StateM σ Unit
  /-- the sum of two `long long`, where it overflows -/
  overflowed : Word → Word → Word

/-- a computation that may fail, which leaves its changes of the state -/
abbrev Evaluation (σ α : Type) := OptionT (StateM σ) α

section
variable {σ : Type} (world : ArithmeticWorld σ) (label : String)

def shellArithmeticFail {α : Type} (message : String) : Evaluation σ α := do
  liftM (world.report (.expression label message))
  failure

def orFail {α : Type} : Except String α → Evaluation σ α
  | .ok a => pure a
  | .error message => shellArithmeticFail world label message

def stepValue (increment : Bool) (value : Word) : Word :=
  let by' : Word := if increment then 1 else -1
  if value.saddOverflow by' then world.overflowed value by' else value + by'

/-- the text that a variable holds -/
def lvalueText (lvalue : ShellArithmeticLvalue) : Evaluation σ (Option Bytes) := do
  match lvalue.subscript with
  | some subscript =>
    match ← liftM (world.subscriptKey lvalue.name subscript) with
    | none => failure
    | some none => pure none
    | some (some key) => liftM (world.element lvalue.name key)
  | none =>
    let (value, isSet) ← liftM (world.parameter lvalue.name)
    if !isSet && (← liftM world.nounset) then
      liftM (world.report (.unbound lvalue.name))
      failure
    else pure value

/-- `evaluate` is the evaluation of a text one level deeper, where there is one -/
def shellArithmeticReadVariable (evaluate : Option (Bytes → Evaluation σ Word)) (noeval : Nat)
    (lvalue : ShellArithmeticLvalue) : Evaluation σ Word :=
  if 0 < noeval then pure 0
  else do
    match ← lvalueText world lvalue with
    | none => pure 0
    | some value =>
      match evaluate with
      | none => shellArithmeticFail world label "expression recursion level exceeded"
      | some evaluate => evaluate value

/-- where a value is stored: an element, by its key, or the variable -/
def lvalueKey (lvalue : ShellArithmeticLvalue) : Evaluation σ (Option Bytes) := do
  match lvalue.subscript with
  | none => pure none
  | some subscript =>
    match ← liftM (world.subscriptKey lvalue.name subscript) with
    | none => failure
    | some none => shellArithmeticFail world label "bad array subscript"
    | some (some key) => pure (some key)

def shellArithmeticStoreVariable (noeval : Nat) (lvalue : ShellArithmeticLvalue) (value : Word) :
    Evaluation σ Unit :=
  if 0 < noeval then pure ()
  else do
    let text := signedDecimal value.toInt
    let stored ← match ← lvalueKey world label lvalue with
      | some key => liftM (world.setElement lvalue.name key text)
      | none => liftM (world.setVariable lvalue.name text)
    if stored then pure ()
    else
      liftM (world.report (.isReadonly lvalue.name))
      failure

/-! ## the levels of an expression -/

variable (evaluate : Option (Bytes → Evaluation σ Word)) (identifiers : IdentifierScanner)
  (text : Bytes)

/-- `++` or `--` at the cursor -/
def peekStep (text : Bytes) (c : Cursor) : Option Bool :=
  if shellArithmeticPeek text c [43, 43] then some true
  else if shellArithmeticPeek text c [45, 45] then some false
  else none

/-- the name behind a `++` or `--` at the cursor -/
def steppedLvalue (identifiers : IdentifierScanner) (text : Bytes) (c : Cursor) :
    Except String (Option (Bool × ShellArithmeticLvalue × Cursor)) :=
  match peekStep text c with
  | none => .ok none
  | some increment =>
    (shellArithmeticParseLvalue identifiers text
      (shellArithmeticSkipWhitespace text (c.advance 2))).map
        fun lvalue => lvalue.map fun lvalue => (increment, lvalue)

def afterStep (text : Bytes) (c : Cursor) : Except String Cursor :=
  let c := shellArithmeticSkipWhitespace text c
  match peekStep text c with
  | some true => .error "++: assignment requires lvalue"
  | some false => .error "--: assignment requires lvalue"
  | none => .ok c

mutual

def parsePrimary : Nat → Nat → Cursor → Evaluation σ (Word × Cursor)
  | 0, _, _ => failure
  | fuel + 1, noeval, c =>
    let c := shellArithmeticSkipWhitespace text c
    match text[c.pos]? with
    | none => shellArithmeticFail world label "syntax error: operand expected"
    | some ch =>
      if ch = openParen then do
        let (value, c) ← parseComma fuel noeval (c.advance 1)
        let c := shellArithmeticSkipWhitespace text c
        if text[c.pos]? = some closeParen then pure (value, c.advance 1)
        else shellArithmeticFail world label "missing `)'"
      else if isDigit ch then orFail world label (shellArithmeticParseNumber text c)
      else do
        match ← orFail world label (shellArithmeticParseLvalue identifiers text c) with
        | none => shellArithmeticFail world label "syntax error: operand expected"
        | some (lvalue, c) =>
          let value ← shellArithmeticReadVariable world label evaluate noeval lvalue
          let c := shellArithmeticSkipWhitespace text c
          match peekStep text c with
          | some increment =>
            shellArithmeticStoreVariable world label noeval lvalue (stepValue world increment value)
            pure (value, c.advance 2)
          | none => pure (value, c)

def parseUnary : Nat → Nat → Cursor → Evaluation σ (Word × Cursor)
  | 0, _, _ => failure
  | fuel + 1, noeval, c => do
    let c := shellArithmeticSkipWhitespace text c
    match text[c.pos]? with
    | none => shellArithmeticFail world label "syntax error: operand expected"
    | some ch =>
      match ← orFail world label (steppedLvalue identifiers text c) with
      | some (increment, lvalue, c) =>
        let value ← shellArithmeticReadVariable world label evaluate noeval lvalue
        let value := stepValue world increment value
        shellArithmeticStoreVariable world label noeval lvalue value
        let c ← orFail world label (afterStep text c)
        pure (value, c)
      | none =>
        match UnaryOp.ofByte ch with
        | some op =>
          let (value, c) ← parseUnary fuel noeval (c.advance 1)
          pure (op.apply value, c)
        | none => parsePrimary fuel noeval c

def parseBinary : Nat → Nat → Nat → Cursor → Evaluation σ (Word × Cursor)
  | 0, _, _, _ => failure
  | fuel + 1, noeval, minPrecedence, c => do
    let (lhs, c) ← parseUnary fuel noeval c
    parseOperators fuel noeval minPrecedence lhs c

/-- the loop over the operators behind the first operand -/
def parseOperators : Nat → Nat → Nat → Word → Cursor → Evaluation σ (Word × Cursor)
  | 0, _, _, _, _ => failure
  | fuel + 1, noeval, minPrecedence, lhs, c => do
    let (op, c) ← orFail world label (shellArithmeticPeekBinaryOp text c)
    match op with
    | none => pure (lhs, c)
    | some op =>
      if op.precedence < minPrecedence then pure (lhs, c)
      else
        -- everything is left associative but `**`
        let next := if op.precedence = 11 then op.precedence else op.precedence + 1
        let (rhs, c) ← parseBinary fuel (if skips op.op lhs then noeval + 1 else noeval) next
          (c.advance op.text.length)
        let value ← orFail world label (applyBinary noeval op.op lhs rhs)
        parseOperators fuel noeval minPrecedence value c

def parseTernary : Nat → Nat → Cursor → Evaluation σ (Word × Cursor)
  | 0, _, _ => failure
  | fuel + 1, noeval, c => do
    let (condition, c) ← parseBinary fuel noeval 1 c
    let c := shellArithmeticSkipWhitespace text c
    if text[c.pos]? ≠ some 63 then pure (condition, c)
    else
      let c := shellArithmeticSkipWhitespace text (c.advance 1)
      if text[c.pos]? = none ∨ text[c.pos]? = some 58 then
        shellArithmeticFail world label "expression expected"
      else
        let (whenTrue, c) ← parseComma fuel (if condition = 0 then noeval + 1 else noeval) c
        let c := shellArithmeticSkipWhitespace text c
        if text[c.pos]? ≠ some 58 then
          shellArithmeticFail world label "`:' expected for conditional expression"
        else
          let c := shellArithmeticSkipWhitespace text (c.advance 1)
          if text[c.pos]? = none then shellArithmeticFail world label "expression expected"
          else
            -- not an assignment: `a?b:c=1` is `(a?b:c)=1`, which is an error
            let (whenFalse, c) ← parseTernary fuel (if condition ≠ 0 then noeval + 1 else noeval) c
            pure (if condition ≠ 0 then whenTrue else whenFalse, c)

def parseAssignment : Nat → Nat → Cursor → Evaluation σ (Word × Cursor)
  | 0, _, _ => failure
  | fuel + 1, noeval, c => do
    let c := shellArithmeticSkipWhitespace text c
    let target ← orFail world label (shellArithmeticParseLvalue identifiers text c)
    let assignment := target.bind fun target =>
      let behind := shellArithmeticSkipWhitespace text target.2
      (shellArithmeticPeekAssignment text behind).map fun op =>
        (target.1, op.1, behind.advance op.2)
    match assignment with
    | some (lvalue, op, c) =>
      let (rhs, c) ← parseAssignment fuel noeval c
      let value ← match op with
        | none => pure rhs
        | some op => do
          let current ← shellArithmeticReadVariable world label evaluate noeval lvalue
          orFail world label (shellArithmeticApply noeval op.op current rhs)
      shellArithmeticStoreVariable world label noeval lvalue value
      pure (value, c)
    | none =>
      let (value, c) ← parseTernary fuel noeval c
      let c := shellArithmeticSkipWhitespace text c
      if (shellArithmeticPeekAssignment text c).isSome then
        shellArithmeticFail world label "attempted assignment to non-variable"
      else pure (value, c)

def parseComma : Nat → Nat → Cursor → Evaluation σ (Word × Cursor)
  | 0, _, _ => failure
  | fuel + 1, noeval, c => do
    let (value, c) ← parseAssignment fuel noeval c
    parseList fuel noeval value c

/-- the loop over the expressions behind the first comma -/
def parseList : Nat → Nat → Word → Cursor → Evaluation σ (Word × Cursor)
  | 0, _, _, _ => failure
  | fuel + 1, noeval, value, c => do
    let c := shellArithmeticSkipWhitespace text c
    if text[c.pos]? ≠ some 44 then pure (value, c)
    else
      let (value, c) ← parseAssignment fuel noeval (c.advance 1)
      parseList fuel noeval value c

end

/-- how deep the levels call each other on a text of this length at most -/
def levelsFuel (length : Nat) : Nat := 8 * length + 8

end

def shellArithmeticMaxDepth : Nat := 1024

section
variable {σ : Type} (world : ArithmeticWorld σ) (label : String) (identifiers : IdentifierScanner)

/-- `evaluate` is the evaluation of a text one level deeper, where there is one -/
def evaluateTextWith (evaluate : Option (Bytes → Evaluation σ Word)) (text : Bytes) :
    Evaluation σ Word :=
  let c := shellArithmeticSkipWhitespace text ⟨0, 0⟩
  if text.length ≤ c.pos then pure 0
  else do
    let (value, c) ← parseComma world label evaluate identifiers text (levelsFuel text.length) 0 c
    if (shellArithmeticSkipWhitespace text c).pos < text.length then
      shellArithmeticFail world label "syntax error in expression"
    else pure value

/-- `left` is what is left of the depth: `shellArithmeticMaxDepth` for an expression as written -/
def shellArithmeticEvaluateText : Nat → Bytes → Evaluation σ Word
  | 0 => evaluateTextWith world label identifiers none
  | left + 1 => evaluateTextWith world label identifiers (some (shellArithmeticEvaluateText left))

end

end Pscal.Shell
