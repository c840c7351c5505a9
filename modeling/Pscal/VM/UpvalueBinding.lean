import Pscal.Lib.Transitions
import Pscal.VM.CallFrames
import Pscal.Verify.Check

/-!
# Upvalues and static scope

Runs of calls, closure literals and returns of `vm/vm.c`, with every activation a routine ever had.
A variable keeps its name, activation and index, when its frame returns and its value moves to a
closure cell.

* `CallState.step`  one call, closure literal, call of a closure, or return;
* `CallState.boundIn`  the activation a call takes the variables of its callee from;
* `CallState.Names`  what a descriptor names in an activation;
* `callUpvalues_static`  in every run, what a call and a closure bind is what the descriptors name
  in that activation;
* `callUpvalues_nearest`  it need not be the one on the caller's static chain.
-/

namespace Pscal

open Transitions List Option

/-- a variable, or the copy that a closure stored past its routine takes of one -/
inductive UpvalueCell where
  | slot (act index : Nat)
  | copy (id : Nat) (of : UpvalueCell)
deriving DecidableEq

def UpvalueCell.variable : UpvalueCell → UpvalueCell
  | .slot act index => .slot act index
  | .copy _ of => of.variable

/-- `link` is not in the source: the activation the variables of this one were taken from. -/
structure Activation where
  routine : Option SymbolRef
  link : Option Nat
  slotCount : Nat
  upvalues : List UpvalueCell
deriving DecidableEq

instance : Inhabited Activation :=
  ⟨{ routine := none, link := none, slotCount := 0, upvalues := [] }⟩

structure ClosureEnv where
  routine : SymbolRef
  link : Option Nat
  slots : List UpvalueCell
deriving DecidableEq

/-- `acts` are all activations so far, the first one first; a frame is one of them and the place of
its first slot; `copies` counts the cells that hold copies. -/
structure CallState where
  acts : List Activation
  frames : List (Nat × Nat)
  closures : List ClosureEnv
  copies : Nat
deriving DecidableEq

def CallState.start : CallState :=
  { acts := [default], frames := [(0, 0)], closures := [], copies := 0 }

namespace CallState

def act (w : CallState) (a : Nat) : Activation := w.acts.getD a default

def callFrame (w : CallState) (f : Nat × Nat) : CallFrame UpvalueCell :=
  { functionSymbol := (w.act f.1).routine
    slots := f.2
    slotCount := (w.act f.1).slotCount
    slotAddress := .slot f.1
    upvalues := (w.act f.1).upvalues }

def callFrames (w : CallState) : List (CallFrame UpvalueCell) := w.frames.map w.callFrame

/-! ## static chains -/

/-- the first activation of a routine on the static chain from `a` on -/
def onChain (w : CallState) (routine : Option Nat) : Nat → Nat → Option Nat
  | 0, _ => none
  | n + 1, a =>
    if (w.act a).routine = routine then some a
    else (w.act a).link.bind (w.onChain routine n)

/-- the activation of `routine` that `a` belongs to -/
def instanceOf (w : CallState) (routine : Option Nat) (a : Nat) : Option Nat :=
  w.onChain routine w.acts.length a

end CallState

/-- the routines from `s` up capture the variables of `proc`, whose routine encloses them -/
def capturedAlong (heap : SymbolRef → Symbol) (s : Option SymbolRef) (proc : Symbol) : Bool :=
  match lexicalPathFrom heap proc.enclosing vmLexicalPathMax s with
  | none => false
  | some path =>
    !path.isEmpty &&
      proc.upvalues.zipIdx.all fun p => (matchUpvalue heap (captureNear p.2) path p.1).isSome

namespace CallState

/-- The activation a call takes the callee's variables from: the caller, for a routine of its own or
one without an enclosing routine; the instance of the enclosing routine the caller belongs to; or,
where the routines from the caller's up lack a capture, the nearest on the stack. -/
def boundIn (heap : SymbolRef → Symbol) (w : CallState) (proc : Symbol) : Option Nat :=
  w.frames.head?.bind fun caller =>
    if proc.enclosing = none ∨ (w.act caller.1).routine = proc.enclosing then some caller.1
    else if capturedAlong heap (w.act caller.1).routine proc then
      w.instanceOf proc.enclosing caller.1
    else (w.frames.find? fun f => (w.act f.1).routine = proc.enclosing).map Prod.fst

/-- The activation a closure literal takes its variables from. -/
def literalIn (w : CallState) (proc : Symbol) : Option Nat :=
  w.frames.head?.bind fun caller =>
    if proc.enclosing = none then some caller.1 else w.instanceOf proc.enclosing caller.1

/-! ## steps -/

def push (w : CallState) (frameSlots s : Nat) (proc : Symbol) (link : Option Nat)
    (upvalues : List UpvalueCell) : CallState :=
  { w with
    acts := w.acts ++ [{ routine := some s, link := link, slotCount := proc.slotCount,
                         upvalues := upvalues }]
    frames := (w.acts.length, frameSlots) :: w.frames }

def bindCall (heap : SymbolRef → Symbol) (w : CallState) (frameSlots : Nat) (proc : Symbol) :
    Option (List UpvalueCell) :=
  if proc.upvalues.isEmpty then some []
  else vmBindNestedCallUpvalues heap w.callFrames frameSlots proc

def vmHostCreateClosure (w : CallState) (s : SymbolRef) (proc : Symbol) (escapes : Bool)
    (captured : List UpvalueCell) : CallState :=
  { w with
    closures := w.closures ++
      [{ routine := s, link := w.literalIn proc,
         slots := if escapes then captured.mapIdx fun i c => .copy (w.copies + i) c
                  else captured }]
    copies := if escapes then w.copies + captured.length else w.copies }

end CallState

/-- `frameSlots` is where the arguments begin, `stackTop` the height of the stack, `escapes` the
routine's `closure_escapes` -/
inductive CallEvent where
  | call (s frameSlots : Nat)
  | literal (s stackTop : Nat) (escapes : Bool)
  | callClosure (k frameSlots : Nat)
  | ret

/-- none: a runtime error, or the end of the program -/
def CallState.step (heap : SymbolRef → Symbol) (w : CallState) : CallEvent → Option CallState
  | .call s frameSlots =>
    (w.bindCall heap frameSlots (heap s)).map fun ups =>
      w.push frameSlots s (heap s) (w.boundIn heap (heap s)) ups
  | .literal s stackTop escapes =>
    (w.callFrames.head?.bind fun f => closureAddresses heap f stackTop (heap s)).map
      fun captured => w.vmHostCreateClosure s (heap s) escapes captured
  | .callClosure k frameSlots =>
    w.closures[k]?.bind fun c =>
      if c.slots.length = (heap c.routine).upvalues.length then
        some (w.push frameSlots c.routine (heap c.routine) c.link c.slots)
      else none
  | .ret =>
    match w.frames with
    | [] => none
    | _ :: frames => some { w with frames := frames }

/-! ## what the descriptors name -/

/-- `c` is the variable a descriptor names in the activation `b`, which has it -/
def CallState.Names (w : CallState) (b : Nat) (u : UpvalueDescriptor) (c : UpvalueCell) : Prop :=
  if u.isLocal then
    c.variable = .slot b u.index.toNat ∧
      ((w.act b).routine = none ∨ u.index.toNat < (w.act b).slotCount)
  else ∃ d, (w.act b).upvalues[u.index.toNat]? = some d ∧ c.variable = d.variable

/-- the variables of a routine are those its descriptors name in `link`, an activation of the
enclosing routine made before `limit` -/
def CallState.Bound (heap : SymbolRef → Symbol) (w : CallState) (limit s : Nat) (link : Option Nat)
    (upvalues : List UpvalueCell) : Prop :=
  List.Forall₂ (fun u c => ∃ b, link = some b ∧ b < limit ∧
    ((heap s).enclosing = none ∨ (w.act b).routine = (heap s).enclosing) ∧
    w.Names b u c) (heap s).upvalues upvalues

variable {w w' : CallState} {heap : SymbolRef → Symbol} {ups : List UpvalueCell}

theorem CallState.Names.mono {b : Nat} {u : UpvalueDescriptor} {c : UpvalueCell}
    (hact : w'.act b = w.act b) (h : w.Names b u c) : w'.Names b u c := by
  unfold CallState.Names at h ⊢
  rwa [hact]

theorem CallState.Bound.mono {limit limit' s : Nat} {link : Option Nat}
    (hact : ∀ b < limit, w'.act b = w.act b) (hle : limit ≤ limit')
    (h : w.Bound heap limit s link ups) : w'.Bound heap limit' s link ups := by
  refine h.imp ?_
  rintro u c ⟨b, hlink, hb, hencl, hnames⟩
  exact ⟨b, hlink, Nat.lt_of_lt_of_le hb hle, by rwa [hact b hb], hnames.mono (hact b hb)⟩

/-- every activation and every closure has the variables its descriptors name -/
structure CallState.Linked (heap : SymbolRef → Symbol) (w : CallState) : Prop where
  frames : ∀ f ∈ w.frames, f.1 < w.acts.length
  acts : ∀ a < w.acts.length, ∀ s, (w.act a).routine = some s →
    w.Bound heap a s (w.act a).link (w.act a).upvalues
  closures : ∀ c ∈ w.closures, w.Bound heap w.acts.length c.routine c.link c.slots

/-! ## binding in one frame -/

section
variable {heap : SymbolRef → Symbol} {w : CallState}

theorem window_le (w : CallState) (f : Nat × Nat) (top : Nat) :
    (w.act f.1).routine = none ∨ (w.callFrame f).window top ≤ (w.act f.1).slotCount := by
  unfold CallFrame.window
  cases hr : (w.act f.1).routine with
  | none => exact .inl rfl
  | some s =>
    right
    rw [show (w.callFrame f).functionSymbol = some s from hr, isSome_some, if_pos rfl]
    exact Nat.min_le_left ..

variable {c : UpvalueCell} {f : Nat × Nat} {u : UpvalueDescriptor} {ups : List UpvalueCell}
  {s e : SymbolRef} {b room a : Nat} {link : Option Nat} {path : List SymbolRef}

variable {top : Nat} {find : List UpvalueDescriptor → Bool → UInt8 → Option Nat}

theorem names_of_bindUpvalue (h : (w.callFrame f).bindUpvalue top u = some c) :
    w.Names f.1 u c := by
  unfold CallFrame.bindUpvalue at h
  unfold CallState.Names
  split at h
  case isTrue hlocal =>
    obtain ⟨hindex, hc⟩ := ite_none_right_eq_some.mp h
    rw [if_pos hlocal]
    refine ⟨(some_inj.mp hc) ▸ rfl, ?_⟩
    exact (window_le w f top).imp_right (Nat.lt_of_lt_of_le hindex)
  case isFalse hlocal =>
    rw [if_neg hlocal]
    exact ⟨c, h, rfl⟩

theorem names_of_bindCall {proc : Symbol}
    (h : vmBindCallUpvalues top (w.callFrame f) proc = some ups) :
    Forall₂ (w.Names f.1) proc.upvalues ups :=
  (Checks.mapM_some.mp h).imp fun _ _ => names_of_bindUpvalue

/-! ## binding through the upvalues of a frame -/

theorem matched_index_lt (hfind : Finds find) {i : Nat}
    (h : find (heap s).upvalues u.isLocal u.index = some i) : (UInt8.ofNat i).toNat = i := by
  obtain ⟨d, hd, -⟩ := hfind h
  have hi := (List.getElem?_eq_some_iff.mp hd).1
  have hle := (heap s).upvaluesLe
  rw [UInt8.toNat_ofNat']
  exact Nat.mod_eq_of_lt (by omega)

theorem CallState.Names.congr {d : UpvalueDescriptor} (hlocal : d.isLocal = u.isLocal)
    (hindex : d.index = u.index) (h : w.Names b d c) : w.Names b u c := by
  unfold CallState.Names at h ⊢
  rwa [← hlocal, ← hindex]

theorem names_of_found (hfind : Finds find) {limit s : Nat} (hbound : w.Bound heap limit s link ups)
    {i : Nat} (hi : find (heap s).upvalues u.isLocal u.index = some i) (hc : ups[i]? = some c) :
    ∃ b, link = some b ∧ b < limit ∧
      ((heap s).enclosing = none ∨ (w.act b).routine = (heap s).enclosing) ∧ w.Names b u c := by
  obtain ⟨d, hd, hlocal, hindex⟩ := hfind hi
  obtain ⟨hid, hd⟩ := List.getElem?_eq_some_iff.mp hd
  obtain ⟨hic, hc⟩ := List.getElem?_eq_some_iff.mp hc
  obtain ⟨b, hlink, hb, hencl, hnames⟩ := Forall₂.get hbound hid hic
  rw [get_eq_getElem, get_eq_getElem, hd, hc] at hnames
  exact ⟨b, hlink, hb, hencl, hnames.congr hlocal hindex⟩

theorem matchUpvalue_isLocal {u' : UpvalueDescriptor} (hne : path ≠ [])
    (h : matchUpvalue heap find path u = some u') : u'.isLocal = false := by
  cases path with
  | nil => exact absurd rfl hne
  | cons s path =>
    obtain ⟨u₁, -, h⟩ := bind_eq_some_iff.mp h
    obtain ⟨i, -, rfl⟩ := map_eq_some_iff.mp h
    rfl

theorem lexicalPathFrom_nil (h : lexicalPathFrom heap (some e) room (some s) = some []) :
    s = e := by
  unfold lexicalPathFrom at h
  split at h
  case isTrue he => exact (some_inj.mp he).symm
  case isFalse =>
    cases room with
    | zero => cases h
    | succ room =>
      obtain ⟨path, -, hpath⟩ := map_eq_some_iff.mp h
      cases hpath

/-- Up the path from `a`, one activation after the other, to that of the enclosing routine. -/
theorem names_of_match (hw : w.Linked heap) (hfind : Finds find) {s : Nat} {u' : UpvalueDescriptor}
    {n : Nat} (hpath : lexicalPathFrom heap (some e) room (some s) = some path) (hne : path ≠ [])
    (hs : (w.act a).routine = some s) (ha : a < w.acts.length) (hn : a < n)
    (hmatch : matchUpvalue heap find path u = some u')
    (hc : (w.act a).upvalues[u'.index.toNat]? = some c) :
    ∃ b, w.onChain (some e) n a = some b ∧ (w.act b).routine = some e ∧ w.Names b u c := by
  induction room generalizing path a s u' c n with
  | zero =>
    unfold lexicalPathFrom at hpath
    split at hpath
    case isTrue => exact absurd (some_inj.mp hpath).symm hne
    case isFalse => cases hpath
  | succ room ih =>
    unfold lexicalPathFrom at hpath
    split at hpath
    case isTrue => exact absurd (some_inj.mp hpath).symm hne
    case isFalse hse =>
      obtain ⟨rest, hrest, rfl⟩ := map_eq_some_iff.mp hpath
      obtain ⟨u₁, hmatch₁, hfound⟩ := bind_eq_some_iff.mp hmatch
      obtain ⟨i, hi, rfl⟩ := map_eq_some_iff.mp hfound
      rw [matched_index_lt hfind hi] at hc
      obtain ⟨l, hlink, hla, hencl, hnames⟩ := names_of_found hfind (hw.acts a ha s hs) hi hc
      obtain ⟨n, rfl⟩ : ∃ n', n = n' + 1 := ⟨n - 1, by omega⟩
      have hchain : w.onChain (some e) (n + 1) a = w.onChain (some e) n l := by
        rw [CallState.onChain, hs, if_neg fun h => hse h.symm, hlink, bind_some]
      rw [hchain]
      cases hes : (heap s).enclosing with
      | none =>
        rw [hes] at hrest
        cases room <;> cases hrest
      | some s₁ =>
        rw [hes] at hrest hencl
        have hl : (w.act l).routine = some s₁ := hencl.resolve_left (some_ne_none _)
        by_cases hlast : rest = []
        · -- `l` is the instance of the enclosing routine
          subst hlast
          obtain rfl := lexicalPathFrom_nil hrest
          obtain rfl : u = u₁ := some_inj.mp hmatch₁
          obtain ⟨n, rfl⟩ : ∃ n', n = n' + 1 := ⟨n - 1, by omega⟩
          exact ⟨l, by rw [CallState.onChain, if_pos hl], hl, hnames⟩
        · unfold CallState.Names at hnames
          rw [matchUpvalue_isLocal hlast hmatch₁, if_neg Bool.false_ne_true] at hnames
          obtain ⟨d, hd, hcd⟩ := hnames
          obtain ⟨b, hb, hbe, hnames⟩ :=
            ih (n := n) hrest hlast hl (Nat.lt_trans hla ha) (by omega) hmatch₁ hd
          refine ⟨b, hb, hbe, ?_⟩
          unfold CallState.Names at hnames ⊢
          rwa [hcd]

theorem names_of_bindMatched (hw : w.Linked heap) (hfind : Finds find) (hf : f.1 < w.acts.length)
    (hpath : lexicalPathFrom heap (some e) room (w.callFrame f).functionSymbol = some path)
    (hne : path ≠ []) (h : (w.callFrame f).bindMatched heap find path u = some c) :
    ∃ b, w.instanceOf (some e) f.1 = some b ∧ (w.act b).routine = some e ∧ w.Names b u c := by
  obtain ⟨u', hmatch, hc⟩ := bind_eq_some_iff.mp h
  have hr : (w.callFrame f).functionSymbol = (w.act f.1).routine := rfl
  cases hs : (w.act f.1).routine with
  | none =>
    rw [hr, hs] at hpath
    cases room <;> cases hpath
  | some s =>
    rw [hr, hs] at hpath
    exact names_of_match hw hfind hpath hne hs hf hf hmatch hc

theorem CallState.Linked.length_upvalues (hw : w.Linked heap) {s : Nat} (ha : a < w.acts.length)
    (hs : (w.act a).routine = some s) : (w.act a).upvalues.length = (heap s).upvalues.length :=
  (hw.acts a ha s hs).length_eq.symm

theorem lexicalPathFrom_head {s' : SymbolRef}
    (h : lexicalPathFrom heap (some e) room (some s) = some (s' :: path)) : s' = s := by
  unfold lexicalPathFrom at h
  split at h
  case isTrue => cases h
  case isFalse =>
    cases room with
    | zero => cases h
    | succ room =>
      obtain ⟨rest, -, hpath⟩ := map_eq_some_iff.mp h
      exact (cons.inj hpath).1.symm

theorem bindMatched_isSome (hw : w.Linked heap) (hfind : Finds find) (hf : f.1 < w.acts.length)
    (hs : (w.act f.1).routine = some s) :
    ((w.callFrame f).bindMatched heap find (s :: path) u).isSome =
      (matchUpvalue heap find (s :: path) u).isSome := by
  unfold CallFrame.bindMatched
  cases hmatch : matchUpvalue heap find (s :: path) u with
  | none => rfl
  | some u' =>
    obtain ⟨u₁, -, hfound⟩ := bind_eq_some_iff.mp hmatch
    obtain ⟨i, hi, rfl⟩ := map_eq_some_iff.mp hfound
    obtain ⟨d, hd, -⟩ := hfind hi
    have hlt : i < (w.callFrame f).upvalues.length :=
      (hw.length_upvalues hf hs) ▸ (List.getElem?_eq_some_iff.mp hd).1
    rw [bind_some, matched_index_lt hfind hi, getElem?_eq_getElem hlt]
    rfl

/-- A call is bound through the caller's frame exactly when the routines on the path capture the
callee's variables. -/
theorem through_isSome (hw : w.Linked heap) (hf : f.1 < w.acts.length) {proc : Symbol}
    (hups : proc.upvalues ≠ []) (hencl : proc.enclosing ≠ none) :
    (vmBindUpvaluesThrough heap (w.callFrame f) proc).isSome =
      capturedAlong heap (w.act f.1).routine proc := by
  obtain ⟨e, he⟩ := ne_none_iff_exists'.mp hencl
  unfold vmBindUpvaluesThrough capturedAlong
  rw [he, show (w.callFrame f).functionSymbol = (w.act f.1).routine from rfl]
  cases hpath : lexicalPathFrom heap (some e) vmLexicalPathMax (w.act f.1).routine with
  | none => rfl
  | some path =>
    cases path with
    | nil => rfl
    | cons s path =>
      cases hs : (w.act f.1).routine with
      | none =>
        rw [hs] at hpath
        cases hpath
      | some s' =>
        rw [hs] at hpath
        obtain rfl := lexicalPathFrom_head hpath
        have hall : (proc.upvalues.zipIdx.mapM fun p =>
            (w.callFrame f).bindMatched heap (captureNear p.2) (s :: path) p.1).isSome =
            proc.upvalues.zipIdx.all fun p =>
              (matchUpvalue heap (captureNear p.2) (s :: path) p.1).isSome := by
          rw [Checks.mapM_isSome]
          exact congrArg _ (funext fun p => bindMatched_isSome hw (captureNear_finds p.2) hf hs)
        show (if (w.callFrame f).upvalues.isEmpty then none
            else proc.upvalues.zipIdx.mapM fun p =>
              (w.callFrame f).bindMatched heap (captureNear p.2) (s :: path) p.1).isSome =
          proc.upvalues.zipIdx.all fun p =>
            (matchUpvalue heap (captureNear p.2) (s :: path) p.1).isSome
        rw [← hall]
        split
        case isTrue hnone =>
          -- nothing is found in an empty list
          rw [Checks.mapM_isSome]
          cases hups' : proc.upvalues with
          | nil => exact absurd hups' hups
          | cons u us =>
            have hu : (w.callFrame f).bindMatched heap (captureNear 0) (s :: path) u = none := by
              unfold CallFrame.bindMatched
              rw [List.isEmpty_iff.mp hnone]
              cases matchUpvalue heap (captureNear 0) (s :: path) u with
              | none => rfl
              | some u' => rfl
            rw [zipIdx_cons, all_cons, hu]
            rfl
        case isFalse => rfl

/-! ## calls -/

theorem bound_in (w : CallState) (hlink : link = some b) (hb : b < w.acts.length)
    (hencl : (heap s).enclosing = none ∨ (w.act b).routine = (heap s).enclosing)
    (h : Forall₂ (w.Names b) (heap s).upvalues ups) : w.Bound heap w.acts.length s link ups :=
  h.imp fun _ _ hn => ⟨b, hlink, hb, hencl, hn⟩

theorem CallState.lt_of_routine (h : (w.act b).routine = some s) : b < w.acts.length := by
  by_contra hb
  rw [CallState.act, getD_eq_getElem?_getD, getElem?_eq_none (Nat.le_of_not_lt hb)] at h
  cases h

theorem bound_of_matched (hw : w.Linked heap) (hes : (heap s).enclosing = some e)
    (hf : f.1 < w.acts.length)
    (hpath : lexicalPathFrom heap (some e) room (w.act f.1).routine = some path) (hne : path ≠ [])
    (h : Forall₂ (fun u c => ∃ find, Finds find ∧ (w.callFrame f).bindMatched heap find path u
      = some c) (heap s).upvalues ups) :
    w.Bound heap w.acts.length s (w.instanceOf (some e) f.1) ups := by
  refine h.imp ?_
  rintro u c ⟨find, hfind, hc⟩
  obtain ⟨b, hb, hbe, hnames⟩ := names_of_bindMatched hw hfind hf hpath hne hc
  exact ⟨b, hb, CallState.lt_of_routine hbe, .inr (hbe.trans hes.symm), hnames⟩

theorem head_callFrames {f : CallFrame UpvalueCell} (h : w.callFrames.head? = some f) :
    ∃ p, w.frames.head? = some p ∧ w.callFrame p = f := by
  rwa [CallState.callFrames, head?_map, map_eq_some_iff] at h

theorem bound_of_through (hw : w.Linked heap) {p : Nat × Nat} (hp : p.1 < w.acts.length)
    (hencl : (heap s).enclosing ≠ none)
    (h : vmBindUpvaluesThrough heap (w.callFrame p) (heap s) = some ups) :
    w.Bound heap w.acts.length s (w.instanceOf (heap s).enclosing p.1) ups := by
  obtain ⟨e, he⟩ := ne_none_iff_exists'.mp hencl
  unfold vmBindUpvaluesThrough at h
  rw [he] at h ⊢
  split at h
  case h_1 => cases h
  case h_2 path hpath =>
    obtain ⟨hne, h⟩ := ite_none_left_eq_some.mp h
    rw [Bool.or_eq_true, not_or, List.isEmpty_iff] at hne
    refine bound_of_matched hw he hp hpath hne.1 ?_
    have hall := Checks.mapM_some.mp h
    rw [← zipIdx_map_fst 0 (heap s).upvalues, forall₂_map_left_iff]
    exact hall.imp fun x c hc => ⟨_, captureNear_finds x.2, hc⟩

theorem bound_of_nestedCall (hw : w.Linked heap) (hups : (heap s).upvalues ≠ [])
    (h : vmBindNestedCallUpvalues heap w.callFrames top (heap s) = some ups) :
    w.Bound heap w.acts.length s (w.boundIn heap (heap s)) ups := by
  rcases nestedCall_cases h with ⟨caller, hcaller, hown, h⟩ | ⟨hencl, hdeeper, h⟩
  · obtain ⟨p, hp, rfl⟩ := head_callFrames hcaller
    have hown : (heap s).enclosing = none ∨ (w.act p.1).routine = (heap s).enclosing := hown
    have hin : w.boundIn heap (heap s) = some p.1 := by
      rw [CallState.boundIn, hp, bind_some, if_pos hown]
    exact bound_in w hin (hw.frames p (mem_of_head? hp)) hown (names_of_bindCall h)
  · obtain ⟨p, hp⟩ : ∃ p, w.frames.head? = some p := by
      cases hframes : w.frames with
      | nil =>
        rcases h with ⟨caller, hcaller, -⟩ | ⟨parent, -, hparent, -⟩
        · rw [CallState.callFrames, hframes] at hcaller
          cases hcaller
        · rw [CallState.callFrames, hframes] at hparent
          cases hparent
      | cons p _ => exact ⟨p, rfl⟩
    have hlt := hw.frames p (mem_of_head? hp)
    have hhead : w.callFrames.head? = some (w.callFrame p) := by
      rw [CallState.callFrames, head?_map, hp, map_some]
    have hcaptured := through_isSome hw hlt hups hencl
    rw [hhead, bind_some] at hdeeper
    have hdeeper : ¬ ((heap s).enclosing = none ∨ (w.act p.1).routine = (heap s).enclosing) :=
      not_or.mpr ⟨hencl, hdeeper⟩
    rw [CallState.boundIn, hp, bind_some, if_neg hdeeper]
    rcases h with ⟨caller, hcaller, h⟩ | ⟨parent, hthrough, hparent, h⟩
    · obtain rfl := some_inj.mp (hhead.symm.trans hcaller)
      rw [h] at hcaptured
      rw [← hcaptured, if_pos isSome_some]
      exact bound_of_through hw hlt hencl h
    · rw [hthrough _ hhead] at hcaptured
      rw [← hcaptured, isSome_none, if_neg Bool.false_ne_true]
      rw [CallState.callFrames, find?_map, map_eq_some_iff] at hparent
      obtain ⟨q, hq, rfl⟩ := hparent
      have hq : (w.frames.find? fun f => (w.act f.1).routine = (heap s).enclosing) = some q := hq
      have hfound := find?_some hq
      have hqe : (w.act q.1).routine = (heap s).enclosing := of_decide_eq_true hfound
      rw [hq]
      exact bound_in w rfl (hw.frames q (mem_of_find?_eq_some hq)) (.inr hqe) (names_of_bindCall h)

theorem bound_of_bindCall (hw : w.Linked heap) (h : w.bindCall heap top (heap s) = some ups) :
    w.Bound heap w.acts.length s (w.boundIn heap (heap s)) ups := by
  unfold CallState.bindCall at h
  split at h
  case isTrue hnone =>
    obtain rfl := some_inj.mp h
    unfold CallState.Bound
    rw [List.isEmpty_iff.mp hnone]
    exact .nil
  case isFalse hsome => exact bound_of_nestedCall hw (fun h => hsome (List.isEmpty_iff.mpr h)) h

theorem bound_of_closureAddresses (hw : w.Linked heap) (hf : w.frames.head? = some f)
    (h : closureAddresses heap (w.callFrame f) top (heap s) = some ups) :
    w.Bound heap w.acts.length s (w.literalIn (heap s)) ups := by
  have hlt := hw.frames f (mem_of_head? hf)
  unfold closureAddresses at h
  split at h
  case isTrue hencl =>
    have hin : w.literalIn (heap s) = some f.1 := by
      rw [CallState.literalIn, hf, bind_some, if_pos hencl]
    exact bound_in w hin hlt (.inl hencl) (names_of_bindCall h)
  case isFalse hencl =>
    have hin : w.literalIn (heap s) = w.instanceOf (heap s).enclosing f.1 := by
      rw [CallState.literalIn, hf, bind_some, if_neg hencl]
    rw [hin]
    obtain ⟨e, he⟩ := ne_none_iff_exists'.mp hencl
    rw [he] at h ⊢
    split at h
    case h_1 => cases h
    case h_2 hpath =>
      have hfe : (w.act f.1).routine = some e := by
        cases hr : (w.act f.1).routine with
        | none =>
          rw [show (w.callFrame f).functionSymbol = none from hr] at hpath
          cases hpath
        | some r =>
          rw [show (w.callFrame f).functionSymbol = some r from hr] at hpath
          rw [lexicalPathFrom_nil hpath]
      have hinst : w.instanceOf (some e) f.1 = some f.1 := by
        obtain ⟨n, hn⟩ : ∃ n, w.acts.length = n + 1 := ⟨w.acts.length - 1, by omega⟩
        rw [CallState.instanceOf, hn, CallState.onChain, if_pos hfe]
      exact bound_in w hinst hlt (.inr (hfe.trans he.symm)) (names_of_bindCall h)
    case h_3 path hne hpath =>
      refine bound_of_matched hw he hlt hpath hne ?_
      exact (Checks.mapM_some.mp h).imp fun u c hc => ⟨_, captureAt_finds, hc⟩

/-! ## runs -/

theorem act_push_of_lt {w : CallState} (ha : a < w.acts.length) (top s : Nat) (proc : Symbol)
    (link : Option Nat) (ups : List UpvalueCell) :
    (w.push top s proc link ups).act a = w.act a := by
  unfold CallState.act CallState.push
  rw [getD_eq_getElem?_getD, getD_eq_getElem?_getD, getElem?_append_left ha]

theorem act_push_new (w : CallState) (top s : Nat) (proc : Symbol) (link : Option Nat)
    (ups : List UpvalueCell) : (w.push top s proc link ups).act w.acts.length =
      { routine := some s, link := link, slotCount := proc.slotCount, upvalues := ups } := by
  unfold CallState.act CallState.push
  rw [getD_eq_getElem?_getD, getElem?_concat_length]
  rfl

theorem CallState.Linked.push (hw : w.Linked heap) {top s : Nat} {link : Option Nat}
    {ups : List UpvalueCell} (h : w.Bound heap w.acts.length s link ups) :
    (w.push top s (heap s) link ups).Linked heap := by
  have hlength : (w.push top s (heap s) link ups).acts.length = w.acts.length + 1 :=
    length_append
  have hold : ∀ b < w.acts.length, (w.push top s (heap s) link ups).act b = w.act b :=
    fun b hb => act_push_of_lt hb ..
  refine ⟨?_, ?_, ?_⟩
  · intro f hf
    rw [hlength]
    rcases mem_cons.mp hf with rfl | hf
    · exact Nat.lt_succ_self _
    · exact Nat.lt_succ_of_lt (hw.frames f hf)
  · intro a ha s' hs'
    rw [hlength] at ha
    rcases Nat.lt_succ_iff_lt_or_eq.mp ha with ha | rfl
    · rw [hold a ha] at hs' ⊢
      exact (hw.acts a ha s' hs').mono (fun b hb => hold b (Nat.lt_trans hb ha)) (Nat.le_refl _)
    · rw [act_push_new] at hs' ⊢
      obtain rfl := some_inj.mp hs'
      exact h.mono hold (Nat.le_refl _)
  · intro c hc
    rw [hlength]
    exact (hw.closures c hc).mono hold (Nat.le_succ _)

theorem variable_copies {captured : List UpvalueCell} {n : Nat} :
    Forall₂ (fun c c' => UpvalueCell.variable c' = c.variable) captured
      (captured.mapIdx fun i c => .copy (n + i) c) := by
  rw [forall₂_iff_get]
  refine ⟨length_mapIdx.symm, fun i h h' => ?_⟩
  rw [get_eq_getElem, get_eq_getElem, getElem_mapIdx]
  rfl

theorem CallState.Bound.copies {limit s : Nat} {ups' : List UpvalueCell}
    (h : w.Bound heap limit s link ups)
    (hcopies : Forall₂ (fun c c' => UpvalueCell.variable c' = c.variable) ups ups') :
    w.Bound heap limit s link ups' := by
  unfold CallState.Bound at h ⊢
  rw [forall₂_iff_get] at h hcopies ⊢
  refine ⟨h.1.trans hcopies.1, fun i hi hi' => ?_⟩
  have hi₁ : i < ups.length := hcopies.1.symm ▸ hi'
  obtain ⟨b, hlink, hb, hencl, hnames⟩ := h.2 i hi hi₁
  refine ⟨b, hlink, hb, hencl, ?_⟩
  unfold CallState.Names at hnames ⊢
  rwa [hcopies.2 i hi₁ hi']

theorem linked_literal (hw : w.Linked heap) {escapes : Bool} {captured : List UpvalueCell}
    (h : w.Bound heap w.acts.length s (w.literalIn (heap s)) captured) :
    (w.vmHostCreateClosure s (heap s) escapes captured).Linked heap := by
  refine ⟨hw.frames, hw.acts, ?_⟩
  intro c hc
  rcases mem_append.mp hc with hc | hc
  · exact hw.closures c hc
  · obtain rfl := mem_singleton.mp hc
    cases escapes with
    | false => exact h
    | true => exact h.copies variable_copies

end

theorem CallState.linked_start (heap : SymbolRef → Symbol) : CallState.start.Linked heap := by
  refine ⟨?_, ?_, ?_⟩
  · intro f hf
    obtain rfl := mem_singleton.mp hf
    exact Nat.zero_lt_one
  · intro a ha s hs
    obtain rfl : a = 0 := Nat.lt_one_iff.mp ha
    cases hs
  · intro c hc
    cases hc

theorem CallState.linked_step {e : CallEvent} (hw : w.Linked heap) (h : w.step heap e = some w') :
    w'.Linked heap := by
  cases e with
  | call s top =>
    obtain ⟨ups, hups, rfl⟩ := map_eq_some_iff.mp h
    exact hw.push (bound_of_bindCall hw hups)
  | literal s top escapes =>
    obtain ⟨captured, hcaptured, rfl⟩ := map_eq_some_iff.mp h
    obtain ⟨f, hf, hcaptured⟩ := bind_eq_some_iff.mp hcaptured
    obtain ⟨p, hp, rfl⟩ := head_callFrames hf
    exact linked_literal hw (bound_of_closureAddresses hw hp hcaptured)
  | callClosure k top =>
    obtain ⟨c, hc, h⟩ := bind_eq_some_iff.mp h
    obtain ⟨-, h⟩ := ite_none_right_eq_some.mp h
    obtain rfl := some_inj.mp h
    exact hw.push (hw.closures c (mem_of_getElem? hc))
  | ret =>
    unfold CallState.step at h
    cases hframes : w.frames with
    | nil =>
      rw [hframes] at h
      cases h
    | cons f frames =>
      rw [hframes] at h
      obtain rfl := some_inj.mp h
      exact ⟨fun f' hf' => hw.frames f' (hframes ▸ mem_cons_of_mem f hf'), hw.acts, hw.closures⟩

/-- the routine of a literal was not seen to be stored past the routine that makes it -/
def CallEvent.Keeps : CallEvent → Prop
  | .literal _ _ escapes => escapes = false
  | _ => True

structure CallState.Plain (w : CallState) : Prop where
  acts : ∀ act ∈ w.acts, ∀ c ∈ act.upvalues, c.variable = c
  closures : ∀ env ∈ w.closures, ∀ c ∈ env.slots, c.variable = c

variable {top : Nat}

theorem CallState.Plain.has (hw : w.Plain) {p : Nat × Nat} {c : UpvalueCell}
    (h : (w.callFrame p).Has top c) : c.variable = c := by
  rcases h with ⟨i, -, rfl⟩ | h
  · rfl
  · have h : c ∈ (w.acts.getD p.1 default).upvalues := h
    rw [getD_eq_getElem?_getD] at h
    cases hact : w.acts[p.1]? with
    | none =>
      rw [hact] at h
      cases h
    | some act =>
      rw [hact] at h
      exact hw.acts act (mem_of_getElem? hact) c h

theorem plain_bindCall (hw : w.Plain) {proc : Symbol} (h : w.bindCall heap top proc = some ups) :
    ∀ c ∈ ups, c.variable = c := by
  unfold CallState.bindCall at h
  split at h
  case isTrue =>
    obtain rfl := some_inj.mp h
    exact fun c hc => absurd hc not_mem_nil
  case isFalse =>
    intro c hc
    obtain ⟨f, hf, hhas⟩ := has_of_nestedCall h c hc
    obtain ⟨p, -, rfl⟩ := List.mem_map.mp hf
    exact hw.has hhas

theorem CallState.Plain.push {w : CallState} (hw : w.Plain) {top s : Nat} {proc : Symbol}
    {link : Option Nat} {ups : List UpvalueCell} (hups : ∀ c ∈ ups, c.variable = c) :
    (w.push top s proc link ups).Plain := by
  refine ⟨?_, hw.closures⟩
  intro act hact
  rcases mem_append.mp hact with hact | hact
  · exact hw.acts act hact
  · obtain rfl := mem_singleton.mp hact
    exact hups

theorem plain_step {e : CallEvent} (hw : w.Plain) (hkeeps : e.Keeps) (h : w.step heap e = some w') :
    w'.Plain := by
  cases e with
  | call s top =>
    obtain ⟨ups, hups, rfl⟩ := map_eq_some_iff.mp h
    exact hw.push (plain_bindCall hw hups)
  | literal s top escapes =>
    obtain rfl : escapes = false := hkeeps
    obtain ⟨captured, hcaptured, rfl⟩ := map_eq_some_iff.mp h
    obtain ⟨f, hf, hcaptured⟩ := bind_eq_some_iff.mp hcaptured
    obtain ⟨p, hp, rfl⟩ := head_callFrames hf
    refine ⟨hw.acts, ?_⟩
    intro env henv
    rcases mem_append.mp henv with henv | henv
    · exact hw.closures env henv
    · obtain rfl := mem_singleton.mp henv
      exact fun c hc => hw.has (has_of_closureAddresses hcaptured c hc)
  | callClosure k top =>
    obtain ⟨c, hc, h⟩ := bind_eq_some_iff.mp h
    obtain ⟨-, h⟩ := ite_none_right_eq_some.mp h
    obtain rfl := some_inj.mp h
    exact hw.push (hw.closures c (mem_of_getElem? hc))
  | ret =>
    unfold CallState.step at h
    cases hframes : w.frames with
    | nil =>
      rw [hframes] at h
      cases h
    | cons f frames =>
      rw [hframes] at h
      obtain rfl := some_inj.mp h
      exact ⟨hw.acts, hw.closures⟩

abbrev CallRun (heap : SymbolRef → Symbol) (tr : List CallEvent) (w : CallState) : Prop :=
  Run (fun w e w' => CallState.step heap w e = some w') CallState.start tr w

theorem CallState.linked_run {tr : List CallEvent} (h : CallRun heap tr w) : w.Linked heap :=
  h.invariant (I := fun _ w => w.Linked heap) (CallState.linked_start heap)
    fun _ _ _ _ hw hstep => CallState.linked_step hw hstep

theorem plain_run {tr : List CallEvent} (h : CallRun heap tr w) (hkeeps : ∀ e ∈ tr, e.Keeps) :
    w.Plain := by
  refine h.invariant (I := fun tr w => (∀ e ∈ tr, e.Keeps) → w.Plain) ?_ ?_ hkeeps
  · refine fun _ => ⟨?_, fun env henv => absurd henv not_mem_nil⟩
    intro act hact
    obtain rfl := mem_singleton.mp hact
    exact fun c hc => absurd hc not_mem_nil
  · intro tr w e w' ih hstep hkeeps
    have hw := ih fun e he => hkeeps e (mem_append_left _ he)
    exact plain_step hw (hkeeps e (mem_append_right _ mem_cons_self)) hstep

theorem index_lt_window {proc : Symbol} (h : w.bindCall heap top proc = some ups)
    (hencl : proc.enclosing = none) {f : Nat × Nat} (hf : w.frames.head? = some f) :
    ∀ u ∈ proc.upvalues, u.isLocal → u.index.toNat < (w.callFrame f).window top := by
  intro u hu hlocal
  unfold CallState.bindCall at h
  split at h
  case isTrue hnone =>
    rw [List.isEmpty_iff.mp hnone] at hu
    cases hu
  case isFalse =>
    unfold vmBindNestedCallUpvalues at h
    rw [if_pos (.inl hencl), CallState.callFrames, head?_map, hf, map_some, bind_some] at h
    obtain ⟨i, hi, rfl⟩ := getElem_of_mem hu
    have hall := Checks.mapM_some.mp h
    have hbind := Forall₂.get hall hi (hall.length_eq ▸ hi)
    rw [get_eq_getElem, CallFrame.bindUpvalue, if_pos hlocal] at hbind
    exact (ite_none_right_eq_some.mp hbind).1

/-! ## a list that could not grow -/

/-- a routine with two locals, a sibling and two that capture one of them each -/
def instanceRoutines : Procedures :=
  { heap := heapOf [
      { noSymbol with name := "outer", localsCount := 2 },
      { name := "keeps", enclosing := some 0, upvalues := [⟨1, true, false, false⟩] },
      { name := "caller", enclosing := some 0, upvalues := [⟨1, true, false, false⟩] },
      { name := "callee", enclosing := some 0, upvalues := [⟨0, true, false, false⟩] }]
    table := .node 0 .nil (.node 1 .nil (.node 2 .nil (.node 3 .nil .nil))) }

/-- A sibling takes a closure of `caller`, whose list is then complete; a second instance of `outer`
calls it. -/
def instanceTrace : List CallEvent :=
  [.call 0 1, .call 1 3, .literal 2 4 false, .ret, .call 0 3, .callClosure 0 5]

def instanceState : CallState :=
  { acts := [default,
      { routine := some 0, link := some 0, slotCount := 2, upvalues := [] },
      { routine := some 1, link := some 1, slotCount := 0, upvalues := [.slot 1 1] },
      { routine := some 0, link := some 1, slotCount := 2, upvalues := [] },
      { routine := some 2, link := some 1, slotCount := 0, upvalues := [.slot 1 1] }]
    frames := [(4, 5), (3, 3), (1, 1), (0, 0)]
    closures := [{ routine := 2, link := some 1, slots := [.slot 1 1] }]
    copies := 0 }

theorem instance_run : CallRun instanceRoutines.heap instanceTrace instanceState :=
  Run.ofSteps rfl

/-- Every call and every closure has the variables its routine's descriptors name, inside the slots
and upvalues of one activation of the enclosing routine: the one the caller's static chain leads to
where the routines on it capture what the callee does, else the nearest on the stack. -/
theorem callUpvalues_static {heap : SymbolRef → Symbol} {tr : List CallEvent} {w : CallState}
    (h : CallRun heap tr w) : (∀ s top ups, w.bindCall heap top (heap s) = some ups →
      w.Bound heap w.acts.length s (w.boundIn heap (heap s)) ups ∧
      ((heap s).enclosing = none → ∀ f, w.frames.head? = some f →
        ∀ u ∈ (heap s).upvalues, u.isLocal → u.index.toNat < (w.callFrame f).window top) ∧
      ((∀ e ∈ tr, e.Keeps) → ∀ c ∈ ups, c.variable = c)) ∧
    (∀ c ∈ w.closures, w.Bound heap w.acts.length c.routine c.link c.slots) ∧
    ∀ a < w.acts.length, ∀ s, (w.act a).routine = some s →
      w.Bound heap a s (w.act a).link (w.act a).upvalues := by
  have hw := CallState.linked_run h
  refine ⟨fun s top ups hups => ⟨bound_of_bindCall hw hups, fun hencl f hf => ?_, fun hkeeps => ?_⟩,
    hw.closures, hw.acts⟩
  · exact index_lt_window hups hencl hf
  · exact plain_bindCall (plain_run h hkeeps) hups

theorem callUpvalues_static_caller :
    instanceState.Bound instanceRoutines.heap 5 2 (some 1) [.slot 1 1] :=
  ((callUpvalues_static instance_run).1 2 5 [.slot 1 1] rfl).1

/-- a direct call binds in the instance of the enclosing routine the caller belongs to -/
def StaticallyBound (heap : SymbolRef → Symbol) : Prop :=
  ∀ tr w s e top ups f b, CallRun heap tr w → (heap s).enclosing = some e →
    w.bindCall heap top (heap s) = some ups → w.frames.head? = some f →
    w.instanceOf (some e) f.1 = some b → List.Forall₂ (w.Names b) (heap s).upvalues ups

theorem callUpvalues_nearest :
    ¬ ∀ procs : Procedures, verifyUpvaluesInTable procs.heap procs.table = .ok () →
      StaticallyBound procs.heap := by
  intro h
  have hbound := h instanceRoutines rfl instanceTrace instanceState 3 0 5 [.slot 3 0] (4, 5) 1
    instance_run rfl rfl rfl rfl
  obtain ⟨hnames, -⟩ := forall₂_cons.mp hbound
  have hslot : UpvalueCell.slot 3 0 = .slot 1 0 := hnames.1
  cases hslot

end Pscal
