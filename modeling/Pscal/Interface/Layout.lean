import Pscal.Symbol.Table
import Mathlib

/-!
# Interface method slots in the compiler

The slot of a method is `i_val` of its declaration, a child of the interface that declares it.
Each interface that inherits the declaration writes it.

* `collectInterfaceMethods`  the methods of an interface, those of its bases first;
* `ensureInterfaceMethodLayout`  an interface without a layout numbers its methods;
* `ensureInterfaceMethodSlot`  the slot of a method of an interface;
* `validateInterfaceImplementation`  a boxing numbers the methods once more;
* `compileInterfaceCall`  the slot that is compiled into a call.

`none` stands for a compile error, after which there is no program.
-/

namespace Pscal

abbrev InterfaceRef := Nat

abbrev RoutineRef := Nat

/-- a routine declaration among the children of an interface -/
structure InterfaceMethod where
  owner : InterfaceRef
  child : Nat
  name : String
deriving DecidableEq, Repr

structure InterfaceDecl where
  /-- `extra`; `none`: not an interface -/
  bases : List (Option InterfaceRef) := []
  methods : List String
deriving DecidableEq, Repr

/-- the nodes whose `i_val` holds a slot or, for an interface, that it has a layout -/
inductive AstNode where
  | interface (i : InterfaceRef)
  | method (m : InterfaceMethod)
  | routine (r : RoutineRef)
deriving DecidableEq, Repr

/-- a procedure symbol, aliases followed: `type_def` and `bytecode_address` -/
structure RoutineSymbol where
  typeDef : Option RoutineRef := none
  address : Int
deriving DecidableEq, Repr

structure InterfaceProgram where
  interfaces : InterfaceRef → InterfaceDecl
  lookupType : String → Option InterfaceRef
  /-- the procedure table by the names under which `hashTableLookup` finds them -/
  procedures : String → Option RoutineSymbol
  /-- `compareMethodSignatures` -/
  signaturesAgree : InterfaceMethod → RoutineRef → Bool

namespace InterfaceProgram

variable (p : InterfaceProgram)

def ownMethods (i : InterfaceRef) : List InterfaceMethod :=
  (p.interfaces i).methods.mapIdx fun child name => ⟨i, child, name⟩

def lookupProcedure (name : String) : Option RoutineSymbol :=
  p.procedures (toLowerString (truncateTo (maxSymbolLength - 1) name))

/-! ## collecting the methods -/

/-- The methods of the bases come first; the first argument bounds the depth of inheritance. -/
def collectMethods (add : List InterfaceMethod → InterfaceMethod → List InterfaceMethod)
    (absent : List InterfaceMethod → Option (List InterfaceMethod)) :
    Nat → List InterfaceMethod → Option InterfaceRef → Option (List InterfaceMethod)
  | 0, _, _ => none
  | _ + 1, methods, none => absent methods
  | depth + 1, methods, some i =>
    ((p.interfaces i).bases.foldlM (collectMethods add absent depth) methods).map fun methods =>
      (p.ownMethods i).foldl add methods

def addInterfaceMethod (methods : List InterfaceMethod) (method : InterfaceMethod) :
    List InterfaceMethod :=
  match methods.findIdx? fun existing => strcasecmpEq existing.name method.name with
  | some i => methods.set i method
  | none => methods ++ [method]

/-- depths 0 to 32 -/
def interfaceDepths : Nat := 33

def collectInterfaceMethods (i : InterfaceRef) : Option (List InterfaceMethod) :=
  p.collectMethods addInterfaceMethod some interfaceDepths [] (some i)

end InterfaceProgram

/-! ## the layouts -/

structure Layouts where
  iVal : AstNode → Int := fun _ => 0
  /-- the lists of methods that were numbered, the last one first -/
  numbered : List (List InterfaceMethod) := []

namespace Layouts

def set (s : Layouts) (n : AstNode) (slot : Int) : Layouts :=
  { s with iVal := Function.update s.iVal n slot }

/-- `method->i_val = i; method->parent->i_val = 1` -/
def numberMethod (s : Layouts) (m : InterfaceMethod × Nat) : Layouts :=
  (s.set (.method m.1) m.2).set (.interface m.1.owner) 1

def slot (s : Layouts) (m : InterfaceMethod) : Int := s.iVal (.method m)

end Layouts

namespace InterfaceProgram

variable (p : InterfaceProgram)

def ensureInterfaceMethodLayout (i : InterfaceRef) (s : Layouts) : Option Layouts :=
  if s.iVal (.interface i) ≠ 0 then some s
  else (p.collectInterfaceMethods i).map fun methods =>
    { methods.zipIdx.foldl Layouts.numberMethod s with numbered := methods :: s.numbered }.set
      (.interface i) 1

/-- The first of an interface's own methods that `own` takes, else that of the first base that
has one.  Every interface on the way gets a layout. -/
def searchInterface (own : Layouts → InterfaceMethod → Bool) :
    Nat → Option InterfaceRef → Layouts → Option (Option InterfaceMethod × Layouts)
  | _, none, s => some (none, s)
  | 0, some _, _ => none
  | depth + 1, some i, s =>
    (p.ensureInterfaceMethodLayout i s).bind fun s =>
      match (p.ownMethods i).find? (own s) with
      | some m => some (some m, s)
      | none => searchBases (p.interfaces i).bases (searchInterface own depth) s
where
  searchBases : List (Option InterfaceRef) →
      (Option InterfaceRef → Layouts → Option (Option InterfaceMethod × Layouts)) →
      Layouts → Option (Option InterfaceMethod × Layouts)
    | [], _, s => some (none, s)
    | base :: bases, search, s =>
      (search base s).bind fun r =>
        match r.1 with
        | some m => some (some m, r.2)
        | none => searchBases bases search r.2

def ensureInterfaceMethodSlot (i : InterfaceRef) (name : String) (s : Layouts) :
    Option (Option Int × Layouts) :=
  (p.searchInterface (fun s m => strcasecmpEq m.name name && decide (0 ≤ s.slot m))
    interfaceDepths (some i) s).map fun r => (r.1.map r.2.slot, r.2)

def findInterfaceMethodDecl (i : InterfaceRef) (name : String) (s : Layouts) :
    Option (Option InterfaceMethod × Layouts) :=
  p.searchInterface (fun _ m => strcasecmpEq m.name name) interfaceDepths (some i) s

end InterfaceProgram

/-! ## boxing -/

structure RecordMethod where
  name : String
  isVirtual : Bool
  decl : RoutineRef
deriving DecidableEq, Repr

structure ClassRecord where
  name : String
  /-- the methods of the record and then those of its ancestors, nearest first -/
  methods : List RecordMethod
deriving DecidableEq, Repr

def ClassRecord.findRecordMethodInHierarchy (r : ClassRecord) (name : String) :
    Option RecordMethod :=
  r.methods.find? fun m => strcasecmpEq m.name name

namespace InterfaceProgram

variable (p : InterfaceProgram)

def propagateMethodSlotToSymbol (r : ClassRecord) (m : RecordMethod) (slot : Int) (s : Layouts) :
    Layouts :=
  match (p.lookupProcedure (toLowerString (r.name ++ "." ++ m.name))).bind (·.typeDef) with
  | some decl => s.set (.routine decl) slot
  | none => s

/-- `recordMethod->i_val = i`, with the symbol's declaration -/
def numberRecordMethod (r : ClassRecord) (s : Layouts) (m : RecordMethod × Nat) : Layouts :=
  p.propagateMethodSlotToSymbol r m.1 m.2 (s.set (.routine m.1.decl) m.2)

/-- the method that implements `m` -/
def matchMethod (r : ClassRecord) (m : InterfaceMethod) : Option (InterfaceMethod × RecordMethod) :=
  ((r.findRecordMethodInHierarchy m.name).filter fun rm =>
    rm.isVirtual && p.signaturesAgree m rm.decl).map fun rm => (m, rm)

/-- `ifaceMethod->i_val = i` and `recordMethod->i_val = i` -/
def numberMatch (r : ClassRecord) (s : Layouts) (m : (InterfaceMethod × RecordMethod) × Nat) :
    Layouts :=
  p.numberRecordMethod r (s.numberMethod (m.1.1, m.2)) (m.1.2, m.2)

def validateInterfaceImplementation (r : ClassRecord) (i : InterfaceRef) (s : Layouts) :
    Option Layouts :=
  (p.collectInterfaceMethods i).bind fun methods =>
    (methods.mapM (p.matchMethod r)).map fun pairs =>
      { pairs.zipIdx.foldl (p.numberMatch r) s with numbered := methods :: s.numbered }.set
        (.interface i) 1

end InterfaceProgram

/-! ## calls -/

/-- A call of the method `name` of an interface; `symbol` is the declaration of the procedure
symbol to which the name leads, if there is one. -/
structure InterfaceCall where
  interface : InterfaceRef
  name : String
  symbol : Option RoutineRef := none
  isFunction : Bool := false
deriving DecidableEq, Repr

namespace InterfaceProgram

variable (p : InterfaceProgram)

def methodSignature (call : InterfaceCall) (s : Layouts) : Option (Option AstNode × Layouts) :=
  match call.symbol with
  | some r => some (some (.routine r), s)
  | none =>
    if call.isFunction then
      (p.findInterfaceMethodDecl call.interface call.name s).bind fun r =>
        r.1.map fun m => (some (.method m), r.2)
    else
      some (((p.ownMethods call.interface).find? fun m => strcasecmpEq m.name call.name).map
        .method, s)

/-- the slot that a call looks up at run time -/
def compileInterfaceCall (call : InterfaceCall) (s : Layouts) : Option (Int × Layouts) :=
  (p.methodSignature call s).bind fun (signature, s) =>
    let methodSlot := signature.elim (-1) s.iVal
    (p.ensureInterfaceMethodSlot call.interface call.name s).bind fun (resolved, s) =>
      match resolved with
      | some slot => some (slot, signature.elim s (s.set · slot))
      | none => if methodSlot < 0 then none else some (methodSlot, s)

end InterfaceProgram

end Pscal
