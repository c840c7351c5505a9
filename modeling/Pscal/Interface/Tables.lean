import Pscal.Compiler.VTables
import Pscal.Interface.Layout

/-!
# Interface method tables in the VM

* `collectRuntimeInterfaceMethods`  the methods of an interface, by a rule of the VM's own;
* `buildRuntimeInterfaceVTable`  the addresses of a class's methods by slot;
* `ensureRuntimeInterfaceVTable`  the table of a class and an interface, built once.

`none` stands for a run-time error.
-/

namespace Pscal

namespace InterfaceProgram

variable (p : InterfaceProgram)

def runtimeAddInterfaceMethod (methods : List InterfaceMethod) (method : InterfaceMethod) :
    List InterfaceMethod :=
  if methods.any fun existing => strcasecmpEq existing.name method.name then methods
  else methods ++ [method]

def collectRuntimeInterfaceMethods (i : InterfaceRef) : Option (List InterfaceMethod) :=
  p.collectMethods runtimeAddInterfaceMethod (fun _ => none) interfaceDepths [] (some i)

/-- `strncpy(lower, name, MAX_SYMBOL_LENGTH - 1)`, lower-cased -/
def lowerName (name : String) : String := toLowerString (truncateTo (maxSymbolLength - 1) name)

def methodSymbol (className methodName : String) : Option RoutineSymbol :=
  p.lookupProcedure (lowerName className ++ "." ++ lowerName methodName) <|>
    p.lookupProcedure (truncateTo (2 * maxSymbolLength + 1) (className ++ "." ++ methodName))

/-- `addrs` up to `method_count` -/
def placeMethods (className : String) (iVal : InterfaceMethod → Int) :
    List (InterfaceMethod × Nat) → List Int → Option (List Int)
  | [], addrs => some addrs
  | (m, i) :: methods, addrs =>
    let slot := if 0 ≤ iVal m then (iVal m).toNat else i
    (p.methodSymbol className m.name).bind fun sym =>
      placeMethods className iVal methods ((growAddrs addrs (slot + 1)).set slot sym.address)

def tableElements (addrs : List Int) : List Int := addrs.map fun addr => if 0 ≤ addr then addr else 0

def buildRuntimeInterfaceVTable (className : String) (i : InterfaceRef) (s : Layouts) :
    Option (List Int) :=
  (p.collectRuntimeInterfaceMethods i).bind fun methods =>
    (p.placeMethods className s.slot methods.zipIdx []).bind fun addrs =>
      if addrs = [] then none else some (tableElements addrs)

end InterfaceProgram

/-- `RuntimeVTableEntry` -/
structure InterfaceTable where
  className : String
  interfaceName : String
  interface : InterfaceRef
  addrs : List Int
deriving DecidableEq, Repr

/-- `cache_key` -/
def InterfaceTable.key (t : InterfaceTable) : String × String :=
  (InterfaceProgram.lowerName t.className, InterfaceProgram.lowerName t.interfaceName)

/-- the tables after a boxing of a `className` as an `interfaceName` -/
def InterfaceProgram.ensureRuntimeInterfaceVTable (p : InterfaceProgram)
    (className interfaceName : String) (s : Layouts) (tables : List InterfaceTable) :
    Option (List InterfaceTable) :=
  (p.lookupType interfaceName).bind fun i =>
    if tables.any fun t => t.key = (lowerName className, lowerName interfaceName) then some tables
    else (p.buildRuntimeInterfaceVTable className i s).map fun addrs =>
      ⟨className, interfaceName, i, addrs⟩ :: tables

end Pscal
