import Pscal.Compiler.CaptureGrowth
import Pscal.Lib.Except

/-!
# Call frames and the upvalues of a call

`vmBindCallUpvalues`, `vmBindUpvaluesThrough` and `vmBindNestedCallUpvalues` of `vm/vm.c`, and the
addresses of `emitClosureLiteral` of `compiler/compiler.c`.

* `CallFrame`  a frame, over any type of addresses;
* `vmBindNestedCallUpvalues`  the upvalues of a call without a closure environment;
* `closureAddresses`  the addresses a closure literal pushes;
* `nestedCall_cases`  where a call that binds its upvalues takes them from.
-/

namespace Pscal

open List Option

/-- the slots of a routine's frames, in 16 bits -/
def Symbol.slotCount (s : Symbol) : Nat := (s.arity.toNat + s.localsCount.toNat) % 65536

/-- A frame; `slots` is the place of its first slot on the stack. -/
structure CallFrame (α : Type) where
  functionSymbol : Option SymbolRef
  slots : Nat
  slotCount : Nat
  slotAddress : Nat → α
  upvalues : List α

section
variable {α : Type}

/-- how many slots of a frame an index may name while the stack ends at `top` -/
def CallFrame.window (f : CallFrame α) (top : Nat) : Nat :=
  if f.functionSymbol.isSome then min f.slotCount (top - f.slots) else top - f.slots

def CallFrame.bindUpvalue (parent : CallFrame α) (top : Nat) (u : UpvalueDescriptor) : Option α :=
  if u.isLocal then
    if u.index.toNat < parent.window top then some (parent.slotAddress u.index.toNat) else none
  else parent.upvalues[u.index.toNat]?

/-- `top` is the place of the new frame's first slot -/
def vmBindCallUpvalues (top : Nat) (parent : CallFrame α) (proc : Symbol) : Option (List α) :=
  proc.upvalues.mapM (parent.bindUpvalue top)

def vmLexicalPathMax : Nat := 64

/-- the place of `(isLocal, index)` in a capture list: `i` when it is there, else the first -/
def captureNear (i : Nat) (ups : List UpvalueDescriptor) (isLocal : Bool) (index : UInt8) :
    Option Nat :=
  match ups[i]? with
  | none => captureAt ups isLocal index
  | some d => if d.isAt isLocal index then some i else captureAt ups isLocal index

/-- Down the path from the enclosing routine's child on, to the place among the upvalues of its
first routine. -/
def matchUpvalue (heap : SymbolRef → Symbol)
    (find : List UpvalueDescriptor → Bool → UInt8 → Option Nat) :
    List SymbolRef → UpvalueDescriptor → Option UpvalueDescriptor
  | [], u => some u
  | s :: path, u =>
    (matchUpvalue heap find path u).bind fun u =>
      (find (heap s).upvalues u.isLocal u.index).map fun at' => ⟨UInt8.ofNat at', false, false, false⟩

/-- the upvalue of a frame whose routine is the first of the path -/
def CallFrame.bindMatched (fromFrame : CallFrame α) (heap : SymbolRef → Symbol)
    (find : List UpvalueDescriptor → Bool → UInt8 → Option Nat) (path : List SymbolRef)
    (u : UpvalueDescriptor) : Option α :=
  (matchUpvalue heap find path u).bind fun u => fromFrame.upvalues[u.index.toNat]?

def vmBindUpvaluesThrough (heap : SymbolRef → Symbol) (fromFrame : CallFrame α) (proc : Symbol) :
    Option (List α) :=
  match lexicalPathFrom heap proc.enclosing vmLexicalPathMax fromFrame.functionSymbol with
  | none => none
  | some path =>
    if path.isEmpty || fromFrame.upvalues.isEmpty then none
    else proc.upvalues.zipIdx.mapM fun p => fromFrame.bindMatched heap (captureNear p.2) path p.1

/-- `frames` are the callers, the nearest first -/
def vmBindNestedCallUpvalues (heap : SymbolRef → Symbol) (frames : List (CallFrame α)) (top : Nat)
    (proc : Symbol) : Option (List α) :=
  if proc.enclosing = none ∨ (frames.head?.bind CallFrame.functionSymbol) = proc.enclosing then
    frames.head?.bind fun caller => vmBindCallUpvalues top caller proc
  else
    match frames.head?.bind fun caller => vmBindUpvaluesThrough heap caller proc with
    | some upvalues => some upvalues
    | none =>
      (frames.find? fun f => f.functionSymbol = proc.enclosing).bind fun parent =>
        vmBindCallUpvalues top parent proc

/-- What a literal of `proc` pushes in the routine of `fromFrame`, which `proc.enclosing` encloses:
`GET_LOCAL_ADDRESS` and `GET_UPVALUE_ADDRESS` there, or, from deeper, `GET_UPVALUE_ADDRESS` of the
captures `captureThroughPath` found or made. -/
def closureAddresses (heap : SymbolRef → Symbol) (fromFrame : CallFrame α) (top : Nat)
    (proc : Symbol) : Option (List α) :=
  if proc.enclosing = none then vmBindCallUpvalues top fromFrame proc
  else
    match lexicalPathFrom heap proc.enclosing nestedCapturePathMax fromFrame.functionSymbol with
    | none => none
    | some [] => vmBindCallUpvalues top fromFrame proc
    | some path => proc.upvalues.mapM (fromFrame.bindMatched heap captureAt path)

variable {heap : SymbolRef → Symbol} {proc : Symbol} {ups : List α} {f : CallFrame α}

theorem nestedCall_cases {frames : List (CallFrame α)} {top : Nat}
    (h : vmBindNestedCallUpvalues heap frames top proc = some ups) :
    ((∃ caller, frames.head? = some caller ∧
        (proc.enclosing = none ∨ caller.functionSymbol = proc.enclosing) ∧
        vmBindCallUpvalues top caller proc = some ups) ∨
      proc.enclosing ≠ none ∧
        (frames.head?.bind CallFrame.functionSymbol) ≠ proc.enclosing ∧
        ((∃ caller, frames.head? = some caller ∧ vmBindUpvaluesThrough heap caller proc = some ups) ∨
          ∃ parent, (∀ caller, frames.head? = some caller →
              vmBindUpvaluesThrough heap caller proc = none) ∧
            frames.find? (fun f => f.functionSymbol = proc.enclosing) = some parent ∧
            vmBindCallUpvalues top parent proc = some ups)) := by
  unfold vmBindNestedCallUpvalues at h
  split at h
  case isTrue hown =>
    obtain ⟨caller, hcaller, h⟩ := bind_eq_some_iff.mp h
    refine .inl ⟨caller, hcaller, ?_, h⟩
    rwa [hcaller, bind_some] at hown
  case isFalse hdeeper =>
    rw [not_or] at hdeeper
    refine .inr ⟨hdeeper.1, hdeeper.2, ?_⟩
    split at h
    case h_1 through hthrough =>
      obtain ⟨caller, hcaller, hthrough⟩ := bind_eq_some_iff.mp hthrough
      obtain rfl := some_inj.mp h
      exact .inl ⟨caller, hcaller, hthrough⟩
    case h_2 hthrough =>
      obtain ⟨parent, hparent, h⟩ := bind_eq_some_iff.mp h
      refine .inr ⟨parent, fun caller hcaller => ?_, hparent, h⟩
      rwa [hcaller, bind_some] at hthrough

def Finds (find : List UpvalueDescriptor → Bool → UInt8 → Option Nat) : Prop :=
  ∀ {ups isLocal index i}, find ups isLocal index = some i →
    ∃ d, ups[i]? = some d ∧ d.isLocal = isLocal ∧ d.index = index

theorem captureAt_finds : Finds captureAt := captureAt_some

theorem captureNear_finds (i : Nat) : Finds (captureNear i) := by
  intro ups isLocal index j h
  unfold captureNear at h
  split at h
  case h_1 => exact captureAt_finds h
  case h_2 d hd =>
    split at h
    case isTrue hat =>
      obtain rfl := some_inj.mp h
      rw [UpvalueDescriptor.isAt, Bool.and_eq_true, beq_iff_eq, beq_iff_eq] at hat
      exact ⟨d, hd, hat⟩
    case isFalse => exact captureAt_finds h

/-! ## every address bound is on the stack -/

def CallFrame.Has (f : CallFrame α) (top : Nat) (a : α) : Prop :=
  (∃ i < f.window top, a = f.slotAddress i) ∨ a ∈ f.upvalues

theorem CallFrame.has_bindUpvalue {top : Nat} {u : UpvalueDescriptor} {a : α}
    (h : f.bindUpvalue top u = some a) : f.Has top a := by
  unfold CallFrame.bindUpvalue at h
  split at h
  case isTrue =>
    obtain ⟨hi, ha⟩ := ite_none_right_eq_some.mp h
    exact .inl ⟨_, hi, (some_inj.mp ha).symm⟩
  case isFalse => exact .inr (mem_of_getElem? h)

theorem mem_of_bindMatched {find : List UpvalueDescriptor → Bool → UInt8 → Option Nat}
    {path : List SymbolRef} {u : UpvalueDescriptor} {a : α}
    (h : f.bindMatched heap find path u = some a) : a ∈ f.upvalues := by
  obtain ⟨u', -, ha⟩ := bind_eq_some_iff.mp h
  exact mem_of_getElem? ha

theorem has_of_mapM {β : Type} {l : List β} {g : β → Option α} {P : α → Prop} {as : List α}
    (h : l.mapM g = some as) (hg : ∀ x a, g x = some a → P a) : ∀ a ∈ as, P a := by
  have hall := Checks.mapM_some.mp h
  clear h
  induction hall with
  | nil => exact fun a ha => absurd ha not_mem_nil
  | cons hhead _ ih =>
    rintro a (_ | ⟨_, ha⟩)
    · exact hg _ _ hhead
    · exact ih a ha

theorem has_of_bindCall {top : Nat} {parent : CallFrame α}
    (h : vmBindCallUpvalues top parent proc = some ups) : ∀ a ∈ ups, parent.Has top a :=
  has_of_mapM h fun _ _ => CallFrame.has_bindUpvalue

theorem mem_of_through (h : vmBindUpvaluesThrough heap f proc = some ups) :
    ∀ a ∈ ups, a ∈ f.upvalues := by
  unfold vmBindUpvaluesThrough at h
  split at h
  case h_1 => cases h
  case h_2 path _ =>
    obtain ⟨-, h⟩ := ite_none_left_eq_some.mp h
    exact has_of_mapM h fun _ _ => mem_of_bindMatched

theorem has_of_nestedCall {frames : List (CallFrame α)} {top : Nat}
    (h : vmBindNestedCallUpvalues heap frames top proc = some ups) :
    ∀ a ∈ ups, ∃ f ∈ frames, f.Has top a := by
  intro a ha
  rcases nestedCall_cases h with ⟨caller, hcaller, -, h⟩ | ⟨-, -, ⟨caller, hcaller, h⟩ | h⟩
  · exact ⟨caller, mem_of_head? hcaller, has_of_bindCall h a ha⟩
  · exact ⟨caller, mem_of_head? hcaller, .inr (mem_of_through h a ha)⟩
  · obtain ⟨parent, -, hparent, h⟩ := h
    exact ⟨parent, mem_of_find?_eq_some hparent, has_of_bindCall h a ha⟩

theorem has_of_closureAddresses {top : Nat} {as : List α}
    (h : closureAddresses heap f top proc = some as) : ∀ a ∈ as, f.Has top a := by
  unfold closureAddresses at h
  split at h
  case isTrue => exact has_of_bindCall h
  case isFalse =>
    split at h
    case h_1 => cases h
    case h_2 => exact has_of_bindCall h
    case h_3 => exact has_of_mapM h fun _ _ ha => .inr (mem_of_bindMatched ha)

end

end Pscal
