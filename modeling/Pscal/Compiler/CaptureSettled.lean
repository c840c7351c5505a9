import Pscal.Compiler.CaptureNests

/-!
# What the lists say in the end

* `Names`  the variable an entry of a capture list stands for;
* `vmUpvalueThrough`  how the VM follows an entry through the lists of a lexical path;
* `runEvents_inv`  the invariant of the lists in every state of a compilation;
* `capture_lists_settled`  what the lists of a nest say when its outermost routine is compiled.
-/

namespace Pscal

open List Option

/-- the routines from one inside `home` outwards, up to `home` and not including it -/
inductive LexicalPath (heap : SymbolRef → Symbol) (home : SymbolRef) :
    SymbolRef → List SymbolRef → Prop
  | home : LexicalPath heap home home []
  | inside {s e : SymbolRef} {path : List SymbolRef} : s ≠ home → (heap s).enclosing = some e →
      LexicalPath heap home e path → LexicalPath heap home s (s :: path)

/-- The variable (a slot of a routine) an entry `(isLocal, index)` names in the list of a routine
directly inside `home`. -/
inductive Names (st : CaptureState) : SymbolRef → Bool → UInt8 → SymbolRef × UInt8 → Prop
  | slot {home : SymbolRef} {index : UInt8} : Names st home true index (home, index)
  | upvalue {home outer : SymbolRef} {index : UInt8} {d : UpvalueDescriptor}
      {var : SymbolRef × UInt8} : (st.captures home)[index.toNat]? = some d →
      (st.heap home).enclosing = some outer → Names st outer d.isLocal d.index var →
      Names st home false index var

/-! ## the virtual machine -/

def UpvalueDescriptor.refersTo (d : UpvalueDescriptor) (isLocal : Bool) (index : Nat) : Bool :=
  d.isLocal == isLocal && d.index.toNat == index

/-- one level of `vmBindUpvaluesThrough`: position `i` if it matches, else the first that does -/
def vmMatchUpvalue (ups : List UpvalueDescriptor) (i : Nat) (isLocal : Bool) (index : Nat) :
    Option Nat :=
  if (ups[i]?).any fun d => d.refersTo isLocal index then some i
  else ups.findIdx? fun d => d.refersTo isLocal index

/-- `vmBindUpvaluesThrough` for entry `i` of the called routine: the position among the upvalues
of the calling frame.  The routines of the path come outermost first. -/
def vmUpvalueThrough (st : CaptureState) (i : Nat) : List SymbolRef → Bool → Nat → Option Nat
  | [], _, index => some index
  | s :: inner, isLocal, index =>
    (vmMatchUpvalue (st.captures s) i isLocal index).bind fun at' =>
      vmUpvalueThrough st i inner false at'

variable {d : UpvalueDescriptor} {index : UInt8} {path : List SymbolRef} {st : CaptureState}
  {home s : SymbolRef} {heap : SymbolRef → Symbol}

variable {isLocal : Bool}

theorem refersTo_eq (h : d.refersTo isLocal index.toNat = true) : d.key = (isLocal, index) := by
  rw [UpvalueDescriptor.refersTo, Bool.and_eq_true, beq_iff_eq, beq_iff_eq] at h
  rw [UpvalueDescriptor.key, h.1, UInt8.toNat_inj.mp h.2]

theorem vmMatchUpvalue_eq {ups : List UpvalueDescriptor} (hok : ListOk ups) {at' : Nat}
    (hd : ups[at']? = some d) (hlocal : d.isLocal = isLocal) (hindex : d.index = index) (i : Nat) :
    vmMatchUpvalue ups i isLocal index.toNat = some at' := by
  have hkey : d.key = (isLocal, index) := by rw [UpvalueDescriptor.key, hlocal, hindex]
  have huniq : ∀ j e, ups[j]? = some e → e.refersTo isLocal index.toNat = true → j = at' := by
    intro j e he href
    have hj : (ups.map UpvalueDescriptor.key)[j]? = some (isLocal, index) := by
      rw [getElem?_map, he, map_some, refersTo_eq href]
    have ha : (ups.map UpvalueDescriptor.key)[at']? = some (isLocal, index) := by
      rw [getElem?_map, hd, map_some, hkey]
    obtain ⟨hlt, -⟩ := List.getElem?_eq_some_iff.mp hj
    exact (getElem?_inj hlt hok.nodup).mp (hj.trans ha.symm)
  have href : d.refersTo isLocal index.toNat = true := by
    rw [UpvalueDescriptor.refersTo, hlocal, hindex, beq_self_eq_true, beq_self_eq_true]
    rfl
  have hfirst : ups.findIdx? (fun d => d.refersTo isLocal index.toNat) = some at' := by
    obtain ⟨hlt, hget⟩ := List.getElem?_eq_some_iff.mp hd
    refine findIdx?_eq_some_iff_getElem.mpr ⟨hlt, by rw [hget]; exact href, fun j hj hm => ?_⟩
    have hne := huniq j _ (getElem?_eq_getElem (hj.trans hlt)) hm
    omega
  unfold vmMatchUpvalue
  rw [hfirst]
  cases hi : ups[i]? with
  | none => rfl
  | some e =>
    by_cases hrefe : e.refersTo isLocal index.toNat = true
    · rw [any_some, if_pos hrefe, huniq i e hi hrefe]
    · rw [any_some, if_neg hrefe]

theorem BindsThrough.vm (hok : ListsOk st) {pos : UInt8}
    (h : BindsThrough st path isLocal index pos) (i : Nat) :
    vmUpvalueThrough st i path isLocal index.toNat = some pos.toNat := by
  induction path generalizing isLocal index with
  | nil => rw [vmUpvalueThrough, show pos = index from h]
  | cons s inner ih =>
    obtain ⟨at', d, hd, hlocal, hindex, hrest⟩ := h
    rw [vmUpvalueThrough, vmMatchUpvalue_eq (hok s) hd hlocal hindex]
    exact ih hrest

/-! ## the named variable -/

theorem names_upvalue_iff {i : UInt8} (hs : (st.heap s).enclosing = some home)
    (hd : (st.captures s)[i.toNat]? = some d) (var : SymbolRef × UInt8) :
    Names st s false i var ↔ Names st home d.isLocal d.index var := by
  constructor
  · intro h
    cases h with
    | upvalue hd' hs' h =>
      rw [hd] at hd'
      rw [hs] at hs'
      cases hd'
      cases hs'
      exact h
  · exact Names.upvalue hd hs

/-- the routines of a path, outermost first, each directly inside the one before it -/
def Inward (heap : SymbolRef → Symbol) : SymbolRef → List SymbolRef → Prop
  | _, [] => True
  | home, s :: inner => (heap s).enclosing = some home ∧ Inward heap s inner

theorem Inward.append (h : Inward heap home path)
    (hs : (heap s).enclosing = some (path.getLastD home)) : Inward heap home (path ++ [s]) := by
  induction path generalizing home with
  | nil => exact ⟨hs, trivial⟩
  | cons t inner ih =>
    rw [getLastD_cons] at hs
    exact ⟨h.1, ih h.2 hs⟩

theorem LexicalPath.inward (h : LexicalPath heap home s path) :
    Inward heap home path.reverse ∧ path.reverse.getLastD home = s := by
  induction h with
  | home => exact ⟨trivial, rfl⟩
  | inside _ he _ ih =>
    obtain ⟨hin, hlast⟩ := ih
    rw [reverse_cons]
    refine ⟨hin.append (by rw [he, hlast]), ?_⟩
    rw [getLastD_concat]

theorem names_bindsThrough {pos : UInt8} (hin : Inward st.heap home path) (hne : path ≠ [])
    (h : BindsThrough st path isLocal index pos) :
    (∃ d, (st.captures (path.getLastD home))[pos.toNat]? = some d) ∧
      ∀ var, Names st home isLocal index var ↔ Names st (path.getLastD home) false pos var := by
  induction path generalizing home isLocal index with
  | nil => exact absurd rfl hne
  | cons s inner ih =>
    obtain ⟨i, d, hd, rfl, rfl, hrest⟩ := h
    obtain ⟨hs, hin⟩ := hin
    have hnames := names_upvalue_iff hs hd
    rw [getLastD_cons]
    by_cases hinner : inner = []
    · subst hinner
      have hpos : pos = i := hrest
      rw [hpos]
      exact ⟨⟨d, hd⟩, fun var => (hnames var).symm⟩
    · obtain ⟨hget, hvar⟩ := ih hin hinner hrest
      exact ⟨hget, fun var => (hnames var).symm.trans (hvar var)⟩

/-! ## lexical paths -/

theorem LexicalPath.lexicalPathFrom_eq (h : LexicalPath heap home s path) {room : Nat}
    (hlen : path.length ≤ room) : lexicalPathFrom heap (some home) room (some s) = some path := by
  induction h generalizing room with
  | home =>
    rw [lexicalPathFrom.eq_def]
    dsimp only
    rw [if_pos rfl]
  | @inside s e path hne he _ ih =>
    rw [length_cons] at hlen
    obtain ⟨room, rfl⟩ := Nat.exists_eq_add_of_le' (Nat.lt_of_lt_of_le (Nat.succ_pos _) hlen)
    rw [lexicalPathFrom, if_neg fun e => hne (some.inj e).symm, he, ih (by omega)]
    rfl

theorem lexicalPath_of_from {room : Nat}
    (h : lexicalPathFrom heap (some home) room (some s) = some path) :
    LexicalPath heap home s path := by
  induction room generalizing s path with
  | zero =>
    rw [lexicalPathFrom] at h
    split at h
    · rename_i he
      cases he
      cases h
      exact .home
    · cases h
  | succ room ih =>
    rw [lexicalPathFrom] at h
    split at h
    · rename_i he
      cases he
      cases h
      exact .home
    · rename_i hne
      obtain ⟨rest, hrest, rfl⟩ := map_eq_some_iff.mp h
      cases he : (heap s).enclosing with
      | none =>
        rw [he] at hrest
        cases room <;> cases hrest
      | some e =>
        rw [he] at hrest
        exact .inside (fun heq => hne (by rw [heq])) he (ih hrest)

/-! ## compilations -/

def FreshHeap (heap : SymbolRef → Symbol) : Prop :=
  ∀ s, (heap s).upvalues = [] ∧ (heap s).enclosing = none ∧ (heap s).isBodyCompiled = false

def CompileStep (st st' : CaptureState) : Prop :=
  ∃ ev fuel, Allowed st ev ∧ step fuel st ev = some st'

def Compiles (heap : SymbolRef → Symbol) (st : CaptureState) : Prop :=
  Relation.ReflTransGen CompileStep { heap := heap } st

theorem fresh_inv (h : FreshHeap heap) : CaptureInv { heap := heap } where
  ok := {
    lists := fun s => by
      rw [captures_not_live rfl, (h s).1]
      exact ⟨nodup_nil, Nat.zero_le _⟩
    enclosing := fun s e hs he => by
      rw [(h s).2.2] at hs
      cases hs
    callers := nofun }
  grown := rfl
  nodup := nodup_nil
  chained := trivial
  live := nofun
  bare s _ := (captures_not_live rfl).trans (h s).1
  settled := nofun

theorem compiles_inv (hfresh : FreshHeap heap) (hrun : Compiles heap st) : CaptureInv st := by
  induction hrun with
  | refl => exact fresh_inv hfresh
  | tail _ hstep ih =>
    obtain ⟨ev, fuel, ha, hstep⟩ := hstep
    exact step_inv ih ha hstep

/-- the events of a run, `none` when one is not allowed or takes more than the fuel -/
def runEvents (fuel : Nat) (st : CaptureState) : List CompileEvent → Option CaptureState
  | [] => some st
  | ev :: evs =>
    if Allowed st ev then (step fuel st ev).bind fun st => runEvents fuel st evs else none

theorem runEvents_compiles {fuel : Nat} {evs : List CompileEvent} {st' : CaptureState}
    (h : runEvents fuel st evs = some st') : Relation.ReflTransGen CompileStep st st' := by
  induction evs generalizing st with
  | nil =>
    cases h
    exact .refl
  | cons ev evs ih =>
    rw [runEvents] at h
    split at h
    · rename_i ha
      obtain ⟨st₁, hstep, hrest⟩ := bind_eq_some_iff.mp h
      exact .head ⟨ev, fuel, ha, hstep⟩ (ih hrest)
    · cases h

/-! ## the end of a nest -/

/-- The VM binds entry `d` of the callee through the lists of the path, to an upvalue of the
caller that is the same variable. -/
def BindsEntry (st : CaptureState) (c : NestedCallCapture) (home : SymbolRef)
    (path : List SymbolRef) (i : Nat) (d : UpvalueDescriptor) : Prop :=
  ∃ pos : UInt8,
    vmUpvalueThrough st i path.reverse d.isLocal d.index.toNat = some pos.toNat ∧
      pos.toNat < (st.captures c.caller).length ∧
      ∀ var, Names st home d.isLocal d.index var ↔ Names st c.caller false pos var

structure CallBelow (st : CaptureState) (c : NestedCallCapture) (home : SymbolRef)
    (path : List SymbolRef) : Prop where
  recorded : c ∈ st.calls
  enclosing : (st.heap c.callee).enclosing = some home
  lexical : LexicalPath st.heap home c.caller path
  below : path ≠ []
  notFixed : ∀ s ∈ path, s ∉ st.fixed

structure NestSettled (st : CaptureState) : Prop where
  nodup : ∀ s, ((st.heap s).upvalues.map UpvalueDescriptor.key).Nodup
  count : ∀ s, (st.heap s).upvalueCount < 2 ^ 8
  calls : ∀ c home path, CallBelow st c home path → path.length ≤ nestedCapturePathMax →
    (∀ s ∈ path, s ∉ st.refused) →
    ∀ i d, (st.captures c.callee)[i]? = some d → BindsEntry st c home path i d

theorem settled_bindsEntry (h : CaptureInv st) (hlive : st.live = []) {c : NestedCallCapture}
    (hc : CallBelow st c home path) (hlen : path.length ≤ nestedCapturePathMax)
    (hroom : ∀ s ∈ path, s ∉ st.refused) {i : Nat} (hd : (st.captures c.callee)[i]? = some d) :
    BindsEntry st c home path i d := by
  have hbinds : CallBinds st c := by
    refine (h.settled c hc.recorded).resolve_left fun hmem => ?_
    rw [CaptureState.liveSymbols, hlive] at hmem
    cases hmem
  have hpath : lexicalPathTo st.heap c.caller (st.heap c.callee).enclosing = some path := by
    rw [hc.enclosing]
    exact hc.lexical.lexicalPathFrom_eq hlen
  rcases hbinds path hpath hc.below with ⟨s, hs, hf⟩ | hall
  · rcases hf with hf | hr
    · exact absurd hf (hc.notFixed s hs)
    · exact absurd hr (hroom s hs)
  · obtain ⟨pos, hpos⟩ := hall d (mem_of_getElem? hd)
    obtain ⟨hin, hlast⟩ := hc.lexical.inward
    have hne : path.reverse ≠ [] := fun e => hc.below (reverse_eq_nil_iff.mp e)
    obtain ⟨⟨e, he⟩, hnames⟩ := names_bindsThrough hin hne hpos
    rw [hlast] at he hnames
    exact ⟨pos, hpos.vm h.ok.lists i, (List.getElem?_eq_some_iff.mp he).1, hnames⟩

theorem settled_nest (h : CaptureInv st) (hlive : st.live = []) : NestSettled st where
  nodup s := by
    have hok := (h.ok.lists s).nodup
    rwa [captures_not_live (by rw [hlive]; rfl)] at hok
  count s := Nat.lt_of_le_of_lt (st.heap s).upvaluesLe (by decide)
  calls _ _ _ hc hlen hroom _ _ hd := settled_bindsEntry h hlive hc hlen hroom hd

/-- In every compilation no list holds a duplicate and the propagation of every event ends; when
an outermost routine has been compiled, it has its whole list and every recorded call is
settled. -/
theorem capture_lists_settled {heap : SymbolRef → Symbol} (hfresh : FreshHeap heap)
    {st : CaptureState} (hrun : Compiles heap st) :
    (∀ s, ((st.captures s).map UpvalueDescriptor.key).Nodup) ∧
      (∀ ev, Allowed st ev → ∃ fuel st', ∀ n ≥ fuel, step n st ev = some st') ∧
      ∀ fuel st', Allowed st .endRoutine → finishRoutine fuel st = some st' →
        (∀ fc ∈ st.live.head?, fc.upvalues <+: st'.captures fc.functionSymbol) ∧
          (st'.live = [] → NestSettled st') := by
  have hinv := compiles_inv hfresh hrun
  refine ⟨fun s => (hinv.ok.lists s).nodup, fun ev ha => step_isSome hinv ha, ?_⟩
  intro fuel st' ha hfinish
  obtain ⟨hinv', hlist⟩ := finishRoutine_spec hinv ha hfinish
  exact ⟨hlist, settled_nest hinv'⟩

def freshHeap : SymbolRef → Symbol := fun _ => noSymbol

theorem freshHeap_fresh : FreshHeap freshHeap := fun _ => ⟨rfl, rfl, rfl⟩

/-- `proc outer; var x; proc inner begin x end; proc sibling begin inner end; begin end`, all but
the end of `outer` -/
def siblingCall : List CompileEvent :=
  [.beginRoutine 0, .addLocal "x" false, .beginRoutine 1, .resolveUpvalue "x", .endRoutine,
    .beginRoutine 2, .call 1, .endRoutine]

theorem capture_lists_settled_siblingCall :
    ∃ st st', runEvents 4 { heap := freshHeap } siblingCall = some st ∧
      finishRoutine 4 st = some st' ∧ (⟨2, 1⟩ : NestedCallCapture) ∈ st'.calls ∧
      NestSettled st' := by
  have hsome : ((runEvents 4 { heap := freshHeap } siblingCall).bind fun st =>
      (finishRoutine 4 st).map fun st' =>
        decide (Allowed st .endRoutine ∧ st'.live = [] ∧ ⟨2, 1⟩ ∈ st'.calls)) = some true := by
    decide +kernel
  obtain ⟨st, hst, hmap⟩ := bind_eq_some_iff.mp hsome
  obtain ⟨st', hfinish, hdec⟩ := map_eq_some_iff.mp hmap
  obtain ⟨ha, hlive, hmem⟩ := of_decide_eq_true hdec
  obtain ⟨-, -, hend⟩ := capture_lists_settled freshHeap_fresh (runEvents_compiles hst)
  exact ⟨st, st', hst, hfinish, hmem, (hend 4 st' ha hfinish).2 hlive⟩

/-! ## the limit of a path -/

/-- The innermost of 66 routines calls a routine of the outermost one, whose body comes later and
captures a variable: the path has 65 routines. -/
def deepCall : List CompileEvent :=
  [.beginRoutine 0, .addLocal "x" false] ++ (List.range 65).map (fun i => .beginRoutine (i + 1)) ++
    [.call 100] ++ List.replicate 65 .endRoutine ++
    [.beginRoutine 100, .resolveUpvalue "x", .endRoutine]

/-- the path of a recorded call in the finished nest, if the VM fails to bind an entry through it -/
def unboundPath (st : CaptureState) (c : NestedCallCapture) (home : SymbolRef) (i : Nat)
    (d : UpvalueDescriptor) : Option (List SymbolRef) :=
  if st.live = [] ∧ c ∈ st.calls ∧ st.fixed = [] ∧ (st.heap c.callee).enclosing = some home ∧
      (st.captures c.callee)[i]? = some d then
    (lexicalPathFrom st.heap (some home) 100 (some c.caller)).filter fun path =>
      !path.isEmpty && (vmUpvalueThrough st i path.reverse d.isLocal d.index.toNat).isNone
  else none

theorem unboundPath_spec {c : NestedCallCapture} {i : Nat}
    (h : (unboundPath st c home i d).isSome = true) :
    st.live = [] ∧ (st.captures c.callee)[i]? = some d ∧
      ∃ path, CallBelow st c home path ∧ ¬ BindsEntry st c home path i d := by
  obtain ⟨path, hpath⟩ := isSome_iff_exists.mp h
  unfold unboundPath at hpath
  split at hpath
  · rename_i hst
    obtain ⟨hlive, hrec, hfixed, henc, hd⟩ := hst
    obtain ⟨hfrom, hunbound⟩ := filter_eq_some_iff.mp hpath
    rw [Bool.and_eq_true, Bool.not_eq_true', isEmpty_eq_false_iff, isNone_iff_eq_none] at hunbound
    obtain ⟨hne, hnone⟩ := hunbound
    refine ⟨hlive, hd, path, ⟨hrec, henc, lexicalPath_of_from hfrom, hne, fun s _ => ?_⟩, ?_⟩
    · rw [hfixed]
      exact not_mem_nil
    · rintro ⟨pos, hpos, -⟩
      rw [hnone] at hpos
      cases hpos
  · cases hpath

/-- without a limit on the path, a recorded call can be left unsettled -/
theorem capture_lists_not_settled :
    ¬ ∀ (st st' : CaptureState) (fuel : Nat), Compiles freshHeap st → Allowed st .endRoutine →
      finishRoutine fuel st = some st' → st'.live = [] → ∀ c home path, CallBelow st' c home path →
      ∀ i d, (st'.captures c.callee)[i]? = some d → BindsEntry st' c home path i d := by
  intro hclaim
  have hsome : ((runEvents 4 { heap := freshHeap } deepCall).bind fun st =>
      (finishRoutine 4 st).map fun st' => decide (Allowed st .endRoutine) &&
        (unboundPath st' ⟨65, 100⟩ 0 0 ⟨0, true, false, false⟩).isSome) = some true := by
    decide +kernel
  obtain ⟨st, hst, hmap⟩ := bind_eq_some_iff.mp hsome
  obtain ⟨st', hfinish, hdec⟩ := map_eq_some_iff.mp hmap
  rw [Bool.and_eq_true, decide_eq_true_eq] at hdec
  obtain ⟨hlive, hd, path, hbelow, hnot⟩ := unboundPath_spec hdec.2
  exact hnot (hclaim st st' 4 (runEvents_compiles hst) hdec.1 hfinish hlive _ 0 path hbelow 0 _ hd)

end Pscal
