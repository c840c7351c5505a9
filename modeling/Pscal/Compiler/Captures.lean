import Mathlib
import Pscal.Symbol.Table

/-!
# Capture lists of nested routines

A nested routine reaches variables of the routines around it through upvalues.  The compiler
collects them while it compiles the body (`resolveUpvalue`), records the calls between nested
routines, and passes the growth of a list on to the recorded callers
(`passOnCaptureGrowth`).  `CompileEvent` is what the rest of the compiler asks of this part,
`step` how it answers.
-/

namespace Pscal

/-- `MAX_GLOBALS`, also the locals of one function -/
def maxGlobals : Nat := 256

def maxUpvalues : Nat := 256

def nestedCaptureListMax : Nat := 255

def nestedCapturePathMax : Nat := 64

structure CompilerLocal where
  name : String
  isRef : Bool := false
  isCaptured : Bool := false
deriving DecidableEq, Repr

/-- a routine whose body is being compiled; the enclosing one is next in the list of them -/
structure FunctionCompilerState where
  functionSymbol : SymbolRef
  locals : List CompilerLocal := []
  upvalues : List UpvalueDescriptor := []
deriving DecidableEq, Repr

/-! ## upvalues of a live routine -/

def resolveLocal (locals : List CompilerLocal) (name : String) : Option Nat :=
  (locals.zipIdx.reverse.find? fun p => strcasecmpEq name p.1.name).map Prod.snd

def UpvalueDescriptor.isAt (d : UpvalueDescriptor) (isLocal : Bool) (index : UInt8) : Bool :=
  d.isLocal == isLocal && d.index == index

/-- the position of `(isLocal, index)` in a capture list -/
def captureAt (ups : List UpvalueDescriptor) (isLocal : Bool) (index : UInt8) : Option Nat :=
  ups.findIdx? fun d => d.isAt isLocal index

/-- the new state, the position, and whether an error was reported (with position 0) -/
def addUpvalue (fc : FunctionCompilerState) (index : UInt8) (isLocal isRef sourceIsRef : Bool) :
    FunctionCompilerState × Nat × Bool :=
  match captureAt fc.upvalues isLocal index with
  | some i => (fc, i, false)
  | none =>
    if maxUpvalues ≤ fc.upvalues.length then (fc, 0, true)
    else ({ fc with upvalues := fc.upvalues ++ [⟨index, isLocal, isRef, sourceIsRef⟩] },
      fc.upvalues.length, false)

/-- `resolveUpvalue` in the first of the live routines: the routines after it, the position (none:
`-1`), and whether an error was reported -/
def resolveUpvalue : List FunctionCompilerState → String →
    List FunctionCompilerState × Option Nat × Bool
  | fc :: enclosing :: outer, name =>
    match resolveLocal enclosing.locals name with
    | some i =>
      let source := (enclosing.locals[i]?.map CompilerLocal.isRef).getD false
      let locals := enclosing.locals.modify i fun l => { l with isCaptured := true }
      let (fc, at', err) := addUpvalue fc (UInt8.ofNat i) true false source
      (fc :: { enclosing with locals := locals } :: outer, some at', err)
    | none =>
      match resolveUpvalue (enclosing :: outer) name with
      | (rest, some i, err) =>
        let source := ((rest.head?.bind fun e => e.upvalues[i]?).map
          UpvalueDescriptor.sourceIsRef).getD false
        let (fc, at', err') := addUpvalue fc (UInt8.ofNat i) false false source
        (fc :: rest, some at', err || err')
      | (rest, none, err) => (fc :: rest, none, err)
  | live, _ => (live, none, false)

/-! ## the state of the part -/

structure NestedCallCapture where
  caller : SymbolRef
  callee : SymbolRef
deriving DecidableEq, Repr

/-- `grown` is a stack, its top first.  `inlined` are the routines whose bodies are being
inlined; `inline_routine_active` says that there are any, and nothing here asks for the live
routine of a symbol while there are.  `refused` is not in the source: it remembers the full
lists `addCapture` met. -/
structure CaptureState where
  heap : SymbolRef → Symbol
  live : List FunctionCompilerState := []
  calls : List NestedCallCapture := []
  fixed : List SymbolRef := []
  grown : List SymbolRef := []
  inlined : List SymbolRef := []
  hadError : Bool := false
  refused : List SymbolRef := []

def appendCaptureSymbol (list : List SymbolRef) (sym : SymbolRef) : List SymbolRef :=
  if sym ∈ list then list else sym :: list

def liveFunctionCompilerFor (live : List FunctionCompilerState) (sym : SymbolRef) :
    Option FunctionCompilerState :=
  live.find? fun fc => fc.functionSymbol == sym

/-- the capture list of a routine: that of its compiler state while its body is compiled -/
def CaptureState.captures (st : CaptureState) (sym : SymbolRef) : List UpvalueDescriptor :=
  match liveFunctionCompilerFor st.live sym with
  | some fc => fc.upvalues
  | none => (st.heap sym).upvalues

def findCapture (st : CaptureState) (sym : SymbolRef) (isLocal : Bool) (index : UInt8) :
    Option Nat :=
  captureAt (st.captures sym) isLocal index

def replaceLive (fc : FunctionCompilerState) :
    List FunctionCompilerState → List FunctionCompilerState
  | [] => []
  | f :: fs => if f.functionSymbol = fc.functionSymbol then fc :: fs else f :: replaceLive fc fs

/-- one more entry for a list that has room -/
def Symbol.addUpvalue (s : Symbol) (d : UpvalueDescriptor)
    (hroom : s.upvalues.length < nestedCaptureListMax) : Symbol :=
  { s with
    upvalues := s.upvalues ++ [d]
    upvaluesLe := by
      have hlt : s.upvalues.length < 255 := hroom
      rw [List.length_append, List.length_singleton]
      omega }

/-- adds `(isLocal, index)` to a list that lacks it; none: the list cannot grow -/
def addCapture (st : CaptureState) (sym : SymbolRef) (isLocal : Bool) (index : UInt8)
    (sourceIsRef : Bool) : CaptureState × Option Nat :=
  match liveFunctionCompilerFor st.live sym with
  | some fc =>
    if nestedCaptureListMax ≤ fc.upvalues.length then ({ st with refused := sym :: st.refused }, none)
    else
      let (fc, at', err) := addUpvalue fc index isLocal false sourceIsRef
      ({ st with live := replaceLive fc st.live, hadError := st.hadError || err }, some at')
  | none =>
    let s := st.heap sym
    if sym ∈ st.fixed then (st, none)
    else if hroom : s.upvalues.length < nestedCaptureListMax then
      ({ st with
        heap := Function.update st.heap sym
          (s.addUpvalue ⟨index, isLocal, false, sourceIsRef⟩ hroom)
        grown := appendCaptureSymbol st.grown sym }, some s.upvalues.length)
    else ({ st with refused := sym :: st.refused }, none)

/-- the routines from the first one outwards, up to `home` and not including it -/
def lexicalPathFrom (heap : SymbolRef → Symbol) (home : Option SymbolRef) :
    Nat → Option SymbolRef → Option (List SymbolRef)
  | _, none => none
  | room, some s =>
    if home = some s then some []
    else match room with
      | 0 => none
      | room + 1 => (lexicalPathFrom heap home room (heap s).enclosing).map (s :: ·)

def lexicalPathTo (heap : SymbolRef → Symbol) (routine : SymbolRef) (home : Option SymbolRef) :
    Option (List SymbolRef) :=
  lexicalPathFrom heap home nestedCapturePathMax (some routine)

/-- `captureThroughPath`; the routines of the path come outermost first -/
def captureThroughPath (st : CaptureState) :
    List SymbolRef → Bool → UInt8 → Bool → CaptureState × Option UInt8
  | [], _, index, _ => (st, some index)
  | s :: inner, isLocal, index, sourceIsRef =>
    match findCapture st s isLocal index with
    | some at' => captureThroughPath st inner false (UInt8.ofNat at') sourceIsRef
    | none =>
      match addCapture st s isLocal index sourceIsRef with
      | (st, some at') => captureThroughPath st inner false (UInt8.ofNat at') sourceIsRef
      | (st, none) => (st, none)

/-- the descriptors one after the other, up to the first that fails; whether all succeeded -/
def captureAll (st : CaptureState) (path : List SymbolRef) :
    List UpvalueDescriptor → CaptureState × Bool
  | [] => (st, true)
  | d :: ds =>
    match captureThroughPath st path d.isLocal d.index d.sourceIsRef with
    | (st, some _) => captureAll st path ds
    | (st, none) => (st, false)

/-- The callee's list does not shrink and keeps its entries, so it is read once. -/
def captureCalleeVariables (st : CaptureState) (caller callee : SymbolRef) : CaptureState :=
  match lexicalPathTo st.heap caller (st.heap callee).enclosing with
  | none | some [] => st
  | some path => (captureAll st path.reverse (st.captures callee)).1

def passOnTo (grown : SymbolRef) : List NestedCallCapture → CaptureState → CaptureState
  | [], st => st
  | c :: cs, st =>
    passOnTo grown cs (if c.callee = grown then captureCalleeVariables st c.caller grown else st)

/-- `none`: the fuel ran out -/
def passOnCaptureGrowth : Nat → CaptureState → Option CaptureState
  | fuel, st =>
    match st.grown, fuel with
    | [], _ => some st
    | _ :: _, 0 => none
    | s :: grown, fuel + 1 =>
      passOnCaptureGrowth fuel (passOnTo s st.calls { st with grown := grown })

/-- `lexicalPathTo(routine, home, path) > 0` -/
def isBelow (heap : SymbolRef → Symbol) (routine : SymbolRef) (home : Option SymbolRef) : Bool :=
  match lexicalPathTo heap routine home with
  | none | some [] => false
  | some (_ :: _) => true

def recordCall (calls : List NestedCallCapture) (c : NestedCallCapture) : List NestedCallCapture :=
  if c ∈ calls then calls else calls ++ [c]

/-- a call or spawn of `callee` in the current routine -/
def captureForNestedCall (fuel : Nat) (st : CaptureState) (callee : SymbolRef) :
    Option CaptureState :=
  let callee := resolveSymbolAlias st.heap callee
  match st.live with
  | fc :: _ :: _ =>
    if st.inlined ≠ [] then some st
    else
      let caller := fc.functionSymbol
      let s := st.heap callee
      let pending := s.enclosing = none ∧ s.isBodyCompiled = false
      if ¬ pending ∧ (s.enclosing = none ∨ isBelow st.heap caller s.enclosing = false) then some st
      else
        let st := { st with calls := recordCall st.calls ⟨caller, callee⟩ }
        passOnCaptureGrowth fuel (captureCalleeVariables st caller callee)
  | _ => some st

/-- the body of `sym` has been compiled, and its symbol holds its list -/
def captureListCompiled (fuel : Nat) (st : CaptureState) (sym : SymbolRef) : Option CaptureState :=
  if st.inlined ≠ [] then some st
  else passOnCaptureGrowth fuel { st with grown := appendCaptureSymbol st.grown sym }

/-! ## what the compiler asks -/

inductive CompileEvent where
  | prototype (sym : SymbolRef)
  | beginRoutine (sym : SymbolRef)
  | addLocal (name : String) (isRef : Bool)
  | endScope (startingLocal : Nat)
  | resolveUpvalue (name : String)
  | call (callee : SymbolRef)
  | closureLiteral (sym : SymbolRef)
  | beginInline (sym : SymbolRef)
  | endInline
  | endRoutine
deriving DecidableEq, Repr

/-- the `function_symbol` of the current compiler state -/
def CaptureState.currentSymbol (st : CaptureState) : Option SymbolRef :=
  match st.inlined with
  | s :: _ => some s
  | [] => st.live.head?.map FunctionCompilerState.functionSymbol

def resetNestedCallCaptures (st : CaptureState) : CaptureState :=
  { st with calls := [], fixed := [], grown := [], refused := [] }

/-- the hand-over of a list: `upvalue_count` is a `uint8_t` -/
def Symbol.setUpvalues (s : Symbol) (ups : List UpvalueDescriptor) : Symbol :=
  { s with
    upvalues := ups.take (ups.length % 2 ^ 8)
    upvaluesLe := by
      rw [List.length_take]
      omega }

/-- the end of `compileDefinedFunction`, ahead of the reset after an outermost routine -/
def finishRoutine (fuel : Nat) (st : CaptureState) : Option CaptureState :=
  match st.live with
  | [] => some st
  | fc :: outer =>
    let s := (st.heap fc.functionSymbol).setUpvalues fc.upvalues
    captureListCompiled fuel
      { st with heap := Function.update st.heap fc.functionSymbol s, live := outer }
      fc.functionSymbol

def resetAfterOutermost (st : CaptureState) : CaptureState :=
  if st.live = [] then resetNestedCallCaptures st else st

/-- the routines a closure literal captures through -/
def closurePath (st : CaptureState) (s : Symbol) : List SymbolRef :=
  match st.live with
  | [] => []
  | fc :: _ =>
    if s.upvalues ≠ [] ∧ s.enclosing ≠ none ∧ st.inlined = [] then
      (lexicalPathTo st.heap fc.functionSymbol s.enclosing).getD []
    else []

/-- what `emitClosureLiteral` does to the capture lists -/
def closureCaptures (st : CaptureState) (sym : SymbolRef) : CaptureState :=
  let s := st.heap sym
  if s.upvalues ≠ [] ∧ st.live = [] ∧ st.inlined = [] then { st with hadError := true }
  else
    let path := closurePath st s
    let st := { st with fixed := appendCaptureSymbol st.fixed sym }
    if path = [] then st
    else
      let (st, ok) := captureAll st path.reverse s.upvalues
      if ok then st else { st with hadError := true }

def modifyLocals (f : List CompilerLocal → List CompilerLocal) :
    List FunctionCompilerState → List FunctionCompilerState
  | [] => []
  | fc :: outer => { fc with locals := f fc.locals } :: outer

def step (fuel : Nat) (st : CaptureState) : CompileEvent → Option CaptureState
  | .prototype sym =>
    let s := { (st.heap sym).setUpvalues [] with isDefined := true, enclosing := st.currentSymbol }
    (captureListCompiled fuel { st with heap := Function.update st.heap sym s } sym).map
      resetAfterOutermost
  | .beginRoutine sym =>
    let s := { st.heap sym with
      isDefined := true
      isBodyCompiled := true
      enclosing := st.currentSymbol }
    some { st with
      heap := Function.update st.heap sym s
      live := { functionSymbol := sym } :: st.live }
  | .addLocal name isRef =>
    let full := (st.live.head?.map fun fc => decide (maxGlobals ≤ fc.locals.length)).getD true
    if full then some { st with hadError := true }
    else some { st with live := modifyLocals (· ++ [{ name := name, isRef := isRef }]) st.live }
  | .endScope startingLocal =>
    some { st with live := modifyLocals (List.take startingLocal) st.live }
  | .resolveUpvalue name =>
    let (live, _, err) := resolveUpvalue st.live name
    some { st with live := live, hadError := st.hadError || err }
  | .call callee => captureForNestedCall fuel st callee
  | .closureLiteral sym => some (closureCaptures st sym)
  | .beginInline sym => some { st with inlined := sym :: st.inlined }
  | .endInline => some { st with inlined := st.inlined.tail }
  | .endRoutine => (finishRoutine fuel st).map resetAfterOutermost

end Pscal
