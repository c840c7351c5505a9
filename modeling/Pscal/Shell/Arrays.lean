import Pscal.Shell.ArrayLiteral
import Pscal.Lib.DecimalText
import Pscal.Lib.RightInsertion
import Pscal.Lib.OrderedMap

/-!
# The registry of shell arrays

`shell_command_utils.inc`, `shell_parameter.inc`: what an assignment, an element assignment and an
element unset make of the registry's entry for a name.

* `Valuation`  what arithmetic and expansion give in the state of a step;
* `shellParamSubscriptKey`  the key that a subscript stands for;
* `shellArrayRegistryAssignFromText`  an array from the text of its literal;
* `shellArrayRegistrySetElement`, `shellArrayRegistryUnsetElement`  one element;
* `shellParamLoadSubject`  the element that a subscript finds;
* `ArrayEvent`  a step of the registry.

An entry is an `Option`: `none` where the name has none.  Allocations do not fail here, and the
text of the array in the environment is not part of the entry.
-/

namespace Pscal.Shell

open Wire (Bytes)
open DecimalText (decimal value isDigit)

/-! ## numbers as text -/

abbrev minusSign : UInt8 := 45
abbrev plusSign : UInt8 := 43

def behindSign (text : Bytes) : Bytes :=
  let text := text.dropWhile isspace
  if text.head? = some minusSign ∨ text.head? = some plusSign then text.tail else text

def hasMinus (text : Bytes) : Bool := (text.dropWhile isspace).head? = some minusSign

/-- `strtoull` to the base 10 -/
def strtoull (text : Bytes) : Nat :=
  let n := value ((behindSign text).takeWhile isDigit)
  if 2 ^ 64 ≤ n then 2 ^ 64 - 1 else if hasMinus text then (2 ^ 64 - n) % 2 ^ 64 else n

/-- `strtol` to the base 10, and what it leaves -/
def strtol (text : Bytes) : Int × Bytes :=
  let digits := (behindSign text).takeWhile isDigit
  let n := value digits
  let number : Int :=
    if hasMinus text then (if 2 ^ 63 < n then -2 ^ 63 else -n)
    else if 2 ^ 63 ≤ n then 2 ^ 63 - 1 else n
  if digits = [] then (0, text) else (number, (behindSign text).dropWhile isDigit)

/-- `%lld` -/
def signedDecimal (x : Int) : Bytes :=
  if x < 0 then minusSign :: decimal x.natAbs else decimal x.toNat

def shellSubscriptIsNumeric (text : Bytes) : Bool :=
  let text := text.dropWhile isspace
  text ≠ [] && (text.dropWhile isDigit).all isspace

/-! ## subscripts -/

structure Valuation where
  /-- `shellArithmeticEvaluate` of a subscript -/
  evaluate : Bytes → Option Int
  /-- `shellArithmeticEvaluateText` of a literal's keys, one after the other -/
  evaluateText : Nat → Bytes → Option Int
  /-- `shellParamExpandWord` -/
  expandWord : Bytes → Option Bytes
  evaluate_lt : ∀ {text x}, evaluate text = some x → x < 2 ^ 63
  evaluateText_lt : ∀ {i text x}, evaluateText i text = some x → x < 2 ^ 63
  evaluate_decimal : ∀ n < 2 ^ 63, evaluate (decimal n) = some (n : Int)
  evaluate_trimSpaces : ∀ text, evaluate (trimSpaces text) = evaluate text

/-- made by `declare -A` -/
def declaredAssociative (entry : Option ShellArrayVariable) : Bool :=
  entry.any fun var => var.kind = .associative && !var.sparse

section
variable (v : Valuation)

/-- the index that a subscript of an array of `count` elements stands for -/
def subscriptIndex (count : Nat) (subscript : Bytes) : Option Nat :=
  match v.evaluate subscript with
  | none => none
  | some x =>
    if 0 ≤ x then some x.toNat else if 0 ≤ x + count then some (x + count).toNat else none

def shellParamSubscriptKey (entry : Option ShellArrayVariable) (subscript : Bytes) : Option Bytes :=
  if declaredAssociative entry then v.expandWord subscript
  else (subscriptIndex v (entry.elim 0 ShellArrayVariable.count) subscript).map decimal

end

/-! ## elements -/

/-- `shellArrayMakeSparse`: the elements under the decimal text of their indices -/
def shellArrayMakeSparse (values : List Bytes) : List (Bytes × Bytes) :=
  values.zipIdx.map fun e => (decimal e.2, e.1)

def shellArraySortSparse (elements : List (Bytes × Bytes)) : List (Bytes × Bytes) :=
  RightInsertion.sort (fun e => strtoull e.1) elements

/-- the first element with the key is replaced, or one is added -/
def storeKey (elements : List (Bytes × Bytes)) (key text : Bytes) : List (Bytes × Bytes) :=
  match elements.findIdx? fun e => e.1 = key with
  | some i => elements.modify i fun e => (e.1, text)
  | none => elements ++ [(key, text)]

def removeKey (elements : List (Bytes × Bytes)) (key : Bytes) : List (Bytes × Bytes) :=
  match elements.findIdx? fun e => e.1 = key with
  | some i => elements.eraseIdx i
  | none => elements

def leavesGap (var : ShellArrayVariable) (key : Bytes) : Bool :=
  match var with
  | .indexed values => values.length < strtoull key
  | .associative _ _ => false

/-- `shellArrayRegistrySetElement` from the key on; `supported` is
`shellAssociativeArraysSupported` -/
def storeElement (supported : Bool) (var : ShellArrayVariable) (key text : Bytes) :
    Bool × ShellArrayVariable :=
  let var := if leavesGap var key then .associative true (shellArrayMakeSparse var.values) else var
  match var with
  | .associative sparse elements =>
    if !supported then (false, .associative sparse elements)
    else
      let elements := storeKey elements (shellDecodeAssociativeKey key) text
      (true, .associative sparse (if sparse then shellArraySortSparse elements else elements))
  | .indexed values =>
    match strtol key with
    | (parsed, rest) =>
      if rest ≠ [] ∨ parsed < 0 then (false, .indexed values)
      else
        let index := parsed.toNat
        (true, .indexed ((values ++ List.replicate (index + 1 - values.length) []).set index text))

section
variable (v : Valuation)

/-- `found` says whether the name had an entry before its subscript was evaluated.  Where it had
none, the element goes to a new one, which stays behind an entry made by the evaluation. -/
def shellArrayRegistrySetElement (readonly supported found : Bool)
    (entry : Option ShellArrayVariable) (subscript text : Bytes) :
    Bool × Option ShellArrayVariable :=
  if readonly then (false, entry)
  else
    let subscript := trimSpaces subscript
    let key :=
      if declaredAssociative entry || shellSubscriptIsNumeric subscript then some subscript
      else shellParamSubscriptKey v entry subscript
    match key with
    | none => (false, entry)
    | some key =>
      if found then
        let stored := storeElement supported (entry.getD (.indexed [])) key text
        (stored.1, some stored.2)
      else
        let stored := storeElement supported (.indexed []) key text
        (stored.1, entry.or (some stored.2))

def shellArrayRegistryUnsetElement (entry : Option ShellArrayVariable) (subscript : Bytes) :
    Option ShellArrayVariable :=
  match entry with
  | none => none
  | some (.associative sparse elements) => some (.associative sparse (removeKey elements subscript))
  | some (.indexed values) =>
    let victim := strtoull subscript
    if victim < values.length then
      some (.associative true ((shellArrayMakeSparse values).eraseIdx victim))
    else some (.indexed values)

/-- `unset name[subscript]` -/
def vmBuiltinShellUnset (entry : Option ShellArrayVariable) (subscript : Bytes) :
    Option ShellArrayVariable :=
  match shellParamSubscriptKey v entry subscript with
  | none => entry
  | some key => shellArrayRegistryUnsetElement entry key

/-! ## whole arrays -/

def evaluateKey (i : Nat) (key : Bytes) : Option Bytes :=
  if shellSubscriptIsNumeric key then some key else (v.evaluateText i key).map signedDecimal

/-- the keys of a literal, up to the first that arithmetic fails at -/
def evaluateKeys : Nat → List Bytes → Option (List Bytes)
  | _, [] => some []
  | i, key :: keys =>
    match evaluateKey v i key with
    | none => none
    | some first => (evaluateKeys (i + 1) keys).map (first :: ·)

def shellArrayRegistryAssignFromText (scanner : WordScanner) (before : Option ShellArrayVariable)
    (text : Option Bytes) : Option ShellArrayVariable :=
  match text with
  | none => none
  | some text =>
    match shellParseArrayLiteral scanner text with
    | none => none
    | some ⟨.indexed, _, items⟩ => some (.indexed items)
    | some ⟨.associative, keys, items⟩ =>
      if declaredAssociative before then some (.associative false (keys.zip items))
      else
        match evaluateKeys v 0 keys with
        | none => some (.indexed [])
        | some keys =>
          -- without elements there is no list of keys, and nothing makes the array sparse
          if keys ≠ [] ∧ keys.all shellSubscriptIsNumeric then
            some (.associative true (shellArraySortSparse (keys.zip items)))
          else some (.associative false (keys.zip items))

/-! ## reading an element -/

/-- `shellExpandArraySubscriptValue` for one element, by its key -/
def shellExpandArraySubscriptValue (var : ShellArrayVariable) (key : Bytes) : Bytes :=
  let key := trimSpaces key
  if key = [] then []
  else
    match var with
    | .associative _ elements =>
      (OrderedMap.lookup elements (shellDecodeAssociativeKey key)).getD []
    | .indexed values =>
      match strtol key with
      | (index, rest) => if rest = [] ∧ 0 ≤ index then values[index.toNat]?.getD [] else []

/-- whether the element is set, and its text -/
def shellParamLoadSubject (var : ShellArrayVariable) (subscript : Bytes) : Bool × Bytes :=
  match shellParamSubscriptKey v (some var) subscript with
  | none => (false, [])
  | some key =>
    let isSet :=
      match var with
      | .associative _ elements => elements.any fun e => e.1 = key
      | .indexed values => decide (strtoull key < values.length)
    (isSet, shellExpandArraySubscriptValue var key)

end

/-! ## steps -/

/-- what happens to the entry; the steps that an index expression makes while it is evaluated
come before its own -/
inductive ArrayEvent where
  | assign (v : Valuation) (text : Option Bytes)
  | set (v : Valuation) (readonly supported found : Bool) (subscript text : Bytes)
  | unset (v : Valuation) (subscript : Bytes)

def ArrayEvent.apply (scanner : WordScanner) (entry : Option ShellArrayVariable) :
    ArrayEvent → Option ShellArrayVariable
  | .assign v text => shellArrayRegistryAssignFromText v scanner entry text
  | .set v readonly supported found subscript text =>
    (shellArrayRegistrySetElement v readonly supported found entry subscript text).2
  | .unset v subscript => vmBuiltinShellUnset v entry subscript

end Pscal.Shell
