import Pscal.Core.Value

/-!
# Symbols and procedure tables

A pointer to a symbol is a `SymbolRef`, an address in a heap of symbols.  A `HashTable` is the
chain of its symbols in the order the bucket loops visit them, each with the table of its own
type definition (`type_def->symbol_table`, `nil` when it has none).
-/

namespace Pscal

def maxSymbolLength : Nat := 255

/-- one entry of `Symbol.upvalues` -/
structure UpvalueDescriptor where
  index : UInt8
  isLocal : Bool
  isRef : Bool := false
  sourceIsRef : Bool := false
deriving DecidableEq, Repr

abbrev SymbolRef := Nat

structure Symbol where
  name : String
  type : VarType := .void
  isAlias : Bool := false
  isDefined : Bool := false
  isBodyCompiled : Bool := false
  bytecodeAddress : Int := 0
  arity : UInt8 := 0
  localsCount : UInt16 := 0
  realSymbol : Option SymbolRef := none
  enclosing : Option SymbolRef := none
  upvalues : List UpvalueDescriptor := []
  upvaluesLe : upvalues.length ≤ 255 := by decide
deriving DecidableEq, Repr

/-- `upvalue_count`, a `uint8_t`: the used entries of the descriptor array -/
def Symbol.upvalueCount (s : Symbol) : Nat := s.upvalues.length

inductive HashTable where
  | nil
  | node (sym : SymbolRef) (nested next : HashTable)
deriving DecidableEq, Repr

/-- the symbols of a table, those of nested tables after the symbol that owns them -/
def HashTable.refs : HashTable → List SymbolRef
  | .nil => []
  | .node s nested next => s :: (nested.refs ++ next.refs)

def HashTable.top : HashTable → List SymbolRef
  | .nil => []
  | .node s _ next => s :: next.top

/-- the procedure table with the heap its pointers lead to -/
structure Procedures where
  heap : SymbolRef → Symbol
  table : HashTable

def noSymbol : Symbol := { name := "" }

def heapOf (cells : List Symbol) : SymbolRef → Symbol := fun r => cells.getD r noSymbol

/-- `toLowerString` (`tolower` of the C locale) -/
def toLowerString (s : String) : String := String.ofList (s.toList.map Char.toLower)

/-- `strcasecmp(a, b) == 0` -/
def strcasecmpEq (a b : String) : Bool := toLowerString a == toLowerString b

/-- `strncpy` into a buffer of `n` bytes and a terminator -/
def truncateTo (n : Nat) (s : String) : String := String.ofList (s.toList.take n)

/-- `hashTableLookup`: the first symbol of the table with the lower-cased name -/
def hashTableLookup (heap : SymbolRef → Symbol) (table : HashTable) (name : String) :
    Option SymbolRef :=
  let lowerName := toLowerString (truncateTo (maxSymbolLength - 1) name)
  table.top.find? fun r => (heap r).name = lowerName

/-- `resolveSymbolAlias` of a symbol that is not null -/
def resolveSymbolAlias (heap : SymbolRef → Symbol) (r : SymbolRef) : SymbolRef :=
  if (heap r).isAlias then (heap r).realSymbol.getD r else r

end Pscal
