import Pscal.Compiler.Captures

/-!
# How capture lists grow

* `BindsThrough`  an entry of a callee's list, followed inwards through the lists of the routines
  around its caller;
* `Grows`  what captures are added to, and what stays as it was;
* `captureThroughPath_spec`  one descriptor: the lists grow, and the path binds it unless a list on
  it is fixed or full;
* `captureCalleeVariables_spec`  the same for a whole call.
-/

namespace Pscal

open List Option Function

/-- The chain of positions `vmBindUpvaluesThrough` follows: the routines of the path come
outermost first, and `pos` is the position in the list of the last one. -/
def BindsThrough (st : CaptureState) : List SymbolRef → Bool → UInt8 → UInt8 → Prop
  | [], _, index, pos => pos = index
  | s :: inner, isLocal, index, pos =>
    ∃ (i : UInt8) (d : UpvalueDescriptor), (st.captures s)[i.toNat]? = some d ∧
      d.isLocal = isLocal ∧ d.index = index ∧ BindsThrough st inner false i pos

def Frozen (st : CaptureState) (path : List SymbolRef) : Prop :=
  ∃ s ∈ path, s ∈ st.fixed ∨ s ∈ st.refused

/-- the caller of a recorded call reaches all its callee captures -/
def CallBinds (st : CaptureState) (c : NestedCallCapture) : Prop :=
  ∀ path, lexicalPathTo st.heap c.caller (st.heap c.callee).enclosing = some path → path ≠ [] →
    Frozen st path ∨
      ∀ d ∈ st.captures c.callee, ∃ pos, BindsThrough st path.reverse d.isLocal d.index pos

def CaptureState.liveSymbols (st : CaptureState) : List SymbolRef :=
  st.live.map FunctionCompilerState.functionSymbol

def UpvalueDescriptor.key (d : UpvalueDescriptor) : Bool × UInt8 := (d.isLocal, d.index)

/-- no list names one source twice, and every position fits the index of an upvalue -/
structure ListOk (ups : List UpvalueDescriptor) : Prop where
  nodup : (ups.map UpvalueDescriptor.key).Nodup
  le : ups.length ≤ maxUpvalues

/-- captures are added to lists of compiled routines, and the rest stays as it was -/
structure Extends (st st' : CaptureState) : Prop where
  calls : st'.calls = st.calls
  fixed : st'.fixed = st.fixed
  inlined : st'.inlined = st.inlined
  refused : st.refused ⊆ st'.refused
  liveSymbols : st'.liveSymbols = st.liveSymbols
  enclosing : ∀ s, (st'.heap s).enclosing = (st.heap s).enclosing
  isBodyCompiled : ∀ s, (st'.heap s).isBodyCompiled = (st.heap s).isBodyCompiled
  captures : ∀ s, st.captures s <+: st'.captures s
  bare : ∀ s, (st.heap s).isBodyCompiled = false → st'.captures s = st.captures s

/-- captures are added, and what gets them is live or to be passed on -/
structure Grows (st st' : CaptureState) : Prop extends Extends st st' where
  grown : st.grown ⊆ st'.grown
  changed : ∀ s, st'.captures s ≠ st.captures s → s ∈ st.liveSymbols ∨ s ∈ st'.grown

theorem Extends.refl (st : CaptureState) : Extends st st where
  calls := rfl
  fixed := rfl
  inlined := rfl
  refused := Subset.refl _
  liveSymbols := rfl
  enclosing _ := rfl
  isBodyCompiled _ := rfl
  captures _ := prefix_rfl
  bare _ _ := rfl

theorem Extends.trans {st₁ st₂ st₃ : CaptureState} (h₁ : Extends st₁ st₂) (h₂ : Extends st₂ st₃) :
    Extends st₁ st₃ where
  calls := h₂.calls.trans h₁.calls
  fixed := h₂.fixed.trans h₁.fixed
  inlined := h₂.inlined.trans h₁.inlined
  refused := Subset.trans h₁.refused h₂.refused
  liveSymbols := h₂.liveSymbols.trans h₁.liveSymbols
  enclosing s := (h₂.enclosing s).trans (h₁.enclosing s)
  isBodyCompiled s := (h₂.isBodyCompiled s).trans (h₁.isBodyCompiled s)
  captures s := (h₁.captures s).trans (h₂.captures s)
  bare s hs := (h₂.bare s (by rw [h₁.isBodyCompiled, hs])).trans (h₁.bare s hs)

theorem Grows.refl (st : CaptureState) : Grows st st where
  toExtends := Extends.refl st
  grown := Subset.refl _
  changed _ h := absurd rfl h

theorem Grows.trans {st₁ st₂ st₃ : CaptureState} (h₁ : Grows st₁ st₂) (h₂ : Grows st₂ st₃) :
    Grows st₁ st₃ where
  toExtends := h₁.toExtends.trans h₂.toExtends
  grown := Subset.trans h₁.grown h₂.grown
  changed s hs := by
    by_cases h : st₂.captures s = st₁.captures s
    · have hs₂ : st₃.captures s ≠ st₂.captures s := by rwa [h]
      have hl := h₂.changed s hs₂
      rwa [h₁.liveSymbols] at hl
    · exact (h₁.changed s h).imp_right fun hg => h₂.grown hg

/-! ## chains -/

variable {i : Nat} {index : UInt8} {path : List SymbolRef} {st st' : CaptureState}
  {c : NestedCallCapture} {ups : List UpvalueDescriptor} {d : UpvalueDescriptor}
  {fc : FunctionCompilerState} {live : List FunctionCompilerState} {s : SymbolRef}

theorem getElem?_of_prefix {α : Type*} {xs ys : List α} (h : xs <+: ys) {x : α}
    (hx : xs[i]? = some x) : ys[i]? = some x := by
  obtain ⟨_, rfl⟩ := h
  have hi : i < xs.length := (List.getElem?_eq_some_iff.mp hx).1
  rw [getElem?_append_left hi, hx]

variable {isLocal : Bool}

theorem BindsThrough.grow (hg : ∀ s, st.captures s <+: st'.captures s) {pos : UInt8}
    (h : BindsThrough st path isLocal index pos) : BindsThrough st' path isLocal index pos := by
  induction path generalizing isLocal index with
  | nil => exact h
  | cons s inner ih =>
    obtain ⟨i, d, hd, hlocal, hindex, hrest⟩ := h
    exact ⟨i, d, getElem?_of_prefix (hg s) hd, hlocal, hindex, ih hrest⟩

theorem Frozen.grow (hg : Extends st st') (h : Frozen st path) : Frozen st' path := by
  obtain ⟨s, hs, hf⟩ := h
  refine ⟨s, hs, ?_⟩
  rw [hg.fixed]
  exact hf.imp_right fun hr => hg.refused hr

theorem lexicalPathFrom_congr {heap heap' : SymbolRef → Symbol}
    (h : ∀ s, (heap' s).enclosing = (heap s).enclosing) (home : Option SymbolRef) (room : Nat)
    (from' : Option SymbolRef) :
    lexicalPathFrom heap' home room from' = lexicalPathFrom heap home room from' := by
  induction room generalizing from' with
  | zero => cases from' <;> rfl
  | succ room ih =>
    cases from' with
    | none => rfl
    | some s => rw [lexicalPathFrom, lexicalPathFrom, h, ih]

theorem Extends.lexicalPathTo (hg : Extends st st') (routine : SymbolRef) (home : Option SymbolRef)
    : Pscal.lexicalPathTo st'.heap routine home = Pscal.lexicalPathTo st.heap routine home :=
  lexicalPathFrom_congr hg.enclosing home _ _

theorem CallBinds.mono
    (hpath : Pscal.lexicalPathTo st'.heap c.caller (st'.heap c.callee).enclosing =
      Pscal.lexicalPathTo st.heap c.caller (st.heap c.callee).enclosing)
    (hfrozen : ∀ path, Frozen st path → Frozen st' path)
    (hcaptures : ∀ s, st.captures s <+: st'.captures s)
    (hc : st'.captures c.callee = st.captures c.callee) (h : CallBinds st c) : CallBinds st' c := by
  intro path hp hne
  rw [hpath] at hp
  rcases h path hp hne with hf | hd
  · exact .inl (hfrozen path hf)
  · refine .inr fun d hmem => ?_
    rw [hc] at hmem
    obtain ⟨pos, hpos⟩ := hd d hmem
    exact ⟨pos, hpos.grow hcaptures⟩

theorem CallBinds.same (h : CallBinds st c) (hheap : st'.heap = st.heap)
    (hcaptures : st'.captures = st.captures) (hfixed : st.fixed ⊆ st'.fixed)
    (hrefused : st'.refused = st.refused) : CallBinds st' c := by
  refine CallBinds.mono ?_ (fun path hf => ?_) (fun s => ?_) ?_ h
  · rw [hheap]
  · obtain ⟨s, hs, hf⟩ := hf
    refine ⟨s, hs, ?_⟩
    rw [hrefused]
    exact hf.imp_left fun hf => hfixed hf
  · rw [hcaptures]
  · rw [hcaptures]

theorem CallBinds.grow (hg : Extends st st') (hc : st'.captures c.callee = st.captures c.callee)
    (h : CallBinds st c) : CallBinds st' c :=
  h.mono (by rw [hg.enclosing, hg.lexicalPathTo]) (fun _ hf => hf.grow hg) hg.captures hc

/-! ## one list -/

theorem captureAt_some (h : captureAt ups isLocal index = some i) :
    ∃ d, ups[i]? = some d ∧ d.isLocal = isLocal ∧ d.index = index := by
  obtain ⟨hi, hd, -⟩ := findIdx?_eq_some_iff_getElem.mp h
  rw [UpvalueDescriptor.isAt, Bool.and_eq_true, beq_iff_eq, beq_iff_eq] at hd
  exact ⟨ups[i], getElem?_eq_getElem hi, hd⟩

theorem captureAt_none (h : captureAt ups isLocal index = none) :
    (isLocal, index) ∉ ups.map UpvalueDescriptor.key := by
  intro hmem
  obtain ⟨d, hd, hkey⟩ := List.mem_map.mp hmem
  have hnot := findIdx?_eq_none_iff.mp h d hd
  obtain ⟨hlocal, hindex⟩ := Prod.mk.inj hkey
  rw [UpvalueDescriptor.isAt, hlocal, hindex] at hnot
  simp at hnot

theorem ListOk.append (h : ListOk ups) (hroom : ups.length < maxUpvalues)
    (hnew : captureAt ups d.isLocal d.index = none) : ListOk (ups ++ [d]) where
  nodup := by
    rw [map_append, map_singleton]
    have hd : d.key ∉ ups.map UpvalueDescriptor.key := captureAt_none hnew
    exact nodup_append.mpr ⟨h.nodup, pairwise_singleton _ _,
      fun a ha b hb => by rw [mem_singleton.mp hb]; exact fun e => hd (e ▸ ha)⟩
  le := by
    rw [length_append, length_singleton]
    omega

/-- what happens to the compiler state of a live routine -/
structure LiveGrows (fc fc' : FunctionCompilerState) : Prop where
  functionSymbol : fc'.functionSymbol = fc.functionSymbol
  upvalues : fc.upvalues <+: fc'.upvalues
  listOk : ListOk fc.upvalues → ListOk fc'.upvalues

theorem LiveGrows.refl (fc : FunctionCompilerState) : LiveGrows fc fc :=
  ⟨rfl, prefix_rfl, id⟩

theorem addUpvalue_grows (fc : FunctionCompilerState) (index : UInt8)
    (isLocal isRef sourceIsRef : Bool) :
    LiveGrows fc (addUpvalue fc index isLocal isRef sourceIsRef).1 := by
  unfold addUpvalue
  split
  · exact LiveGrows.refl fc
  · rename_i hnew
    split
    · exact LiveGrows.refl fc
    · rename_i hroom
      exact ⟨rfl, prefix_append _ _, fun hok => hok.append (Nat.not_le.mp hroom) hnew⟩

/-! ## the lists of a state -/

theorem liveFunctionCompilerFor_symbol {sym : SymbolRef}
    (h : liveFunctionCompilerFor live sym = some fc) : fc.functionSymbol = sym := by
  have := find?_some h
  exact beq_iff_eq.mp this

theorem liveFunctionCompilerFor_isSome {sym : SymbolRef} :
    (liveFunctionCompilerFor live sym).isSome ↔
      sym ∈ live.map FunctionCompilerState.functionSymbol := by
  rw [liveFunctionCompilerFor, find?_isSome, List.mem_map]
  exact exists_congr fun fc => and_congr_right fun _ => beq_iff_eq

theorem liveFunctionCompilerFor_cons (f : FunctionCompilerState) (fs : List FunctionCompilerState)
    (sym : SymbolRef) : liveFunctionCompilerFor (f :: fs) sym =
      if f.functionSymbol = sym then some f else liveFunctionCompilerFor fs sym := by
  rw [liveFunctionCompilerFor, find?_cons]
  by_cases h : f.functionSymbol = sym
  · rw [if_pos h, beq_iff_eq.mpr h]
  · rw [if_neg h, beq_false_of_ne h]
    rfl

theorem liveFunctionCompilerFor_replaceLive (fc : FunctionCompilerState)
    (h : fc.functionSymbol ∈ live.map FunctionCompilerState.functionSymbol) (sym : SymbolRef) :
    liveFunctionCompilerFor (replaceLive fc live) sym =
      if fc.functionSymbol = sym then some fc else liveFunctionCompilerFor live sym := by
  induction live with
  | nil => exact absurd h not_mem_nil
  | cons f fs ih =>
    rw [replaceLive]
    by_cases hf : f.functionSymbol = fc.functionSymbol
    · rw [if_pos hf, liveFunctionCompilerFor_cons, liveFunctionCompilerFor_cons, hf]
      by_cases hs : fc.functionSymbol = sym
      · rw [if_pos hs, if_pos hs]
      · rw [if_neg hs, if_neg hs, if_neg hs]
    · rw [if_neg hf, liveFunctionCompilerFor_cons, liveFunctionCompilerFor_cons]
      rw [map_cons, mem_cons] at h
      rw [ih (h.resolve_left fun e => hf e.symm)]
      by_cases hs : f.functionSymbol = sym
      · have hne : fc.functionSymbol ≠ sym := fun e => hf (hs.trans e.symm)
        rw [if_pos hs, if_neg hne, if_pos hs]
      · rw [if_neg hs, if_neg hs]

theorem replaceLive_symbols (fc : FunctionCompilerState) (live : List FunctionCompilerState) :
    (replaceLive fc live).map FunctionCompilerState.functionSymbol =
      live.map FunctionCompilerState.functionSymbol := by
  induction live with
  | nil => rfl
  | cons f fs ih =>
    rw [replaceLive]
    split
    · rename_i hf
      rw [map_cons, map_cons, hf]
    · rw [map_cons, map_cons, ih]

theorem captures_live (h : liveFunctionCompilerFor st.live s = some fc) :
    st.captures s = fc.upvalues := by
  rw [CaptureState.captures, h]

theorem captures_not_live (h : liveFunctionCompilerFor st.live s = none) :
    st.captures s = (st.heap s).upvalues := by
  rw [CaptureState.captures, h]

/-! ## one more capture -/

def CaptureState.pushLive (st : CaptureState) (fc : FunctionCompilerState)
    (d : UpvalueDescriptor) : CaptureState :=
  { st with live := replaceLive { fc with upvalues := fc.upvalues ++ [d] } st.live }

def CaptureState.pushHeap (st : CaptureState) (s : SymbolRef) (d : UpvalueDescriptor)
    (hroom : (st.heap s).upvalues.length < nestedCaptureListMax) : CaptureState :=
  { st with
    heap := Function.update st.heap s ((st.heap s).addUpvalue d hroom)
    grown := appendCaptureSymbol st.grown s }

/-- what `addCapture` can do to a list without the entry -/
theorem addCapture_cases (sourceIsRef : Bool) (hnew : findCapture st s isLocal index = none) :
    (∃ fc, liveFunctionCompilerFor st.live s = some fc ∧
      fc.upvalues.length < nestedCaptureListMax ∧
      addCapture st s isLocal index sourceIsRef =
        (st.pushLive fc ⟨index, isLocal, false, sourceIsRef⟩, some fc.upvalues.length)) ∨
    (∃ hroom, liveFunctionCompilerFor st.live s = none ∧
      addCapture st s isLocal index sourceIsRef =
        (st.pushHeap s ⟨index, isLocal, false, sourceIsRef⟩ hroom,
          some (st.heap s).upvalues.length)) ∨
    (s ∈ st.fixed ∧ addCapture st s isLocal index sourceIsRef = (st, none)) ∨
    addCapture st s isLocal index sourceIsRef = ({ st with refused := s :: st.refused }, none) := by
  unfold addCapture
  cases hlive : liveFunctionCompilerFor st.live s with
  | some fc =>
    dsimp only
    by_cases hfull : nestedCaptureListMax ≤ fc.upvalues.length
    · rw [if_pos hfull]
      exact .inr (.inr (.inr rfl))
    · have hlt : fc.upvalues.length < nestedCaptureListMax := Nat.not_le.mp hfull
      have hroom : ¬ maxUpvalues ≤ fc.upvalues.length := by
        unfold maxUpvalues
        unfold nestedCaptureListMax at hlt
        omega
      rw [findCapture, captures_live hlive] at hnew
      refine .inl ⟨fc, rfl, hlt, ?_⟩
      rw [if_neg hfull, addUpvalue, hnew]
      dsimp only
      rw [if_neg hroom, Bool.or_false]
      rfl
  | none =>
    dsimp only
    by_cases hfixed : s ∈ st.fixed
    · rw [if_pos hfixed]
      exact .inr (.inr (.inl ⟨hfixed, rfl⟩))
    · rw [if_neg hfixed]
      by_cases hroom : (st.heap s).upvalues.length < nestedCaptureListMax
      · rw [dif_pos hroom]
        exact .inr (.inl ⟨hroom, rfl, rfl⟩)
      · rw [dif_neg hroom]
        exact .inr (.inr (.inr rfl))

theorem subset_appendCaptureSymbol (list : List SymbolRef) (sym : SymbolRef) :
    list ⊆ appendCaptureSymbol list sym := by
  rw [appendCaptureSymbol]
  split
  · exact Subset.refl _
  · exact subset_cons_self _ _

theorem mem_appendCaptureSymbol (list : List SymbolRef) (sym : SymbolRef) :
    sym ∈ appendCaptureSymbol list sym := by
  rw [appendCaptureSymbol]
  split
  · assumption
  · exact mem_cons_self

structure AddsTo (st st' : CaptureState) (s : SymbolRef) (d : UpvalueDescriptor) : Prop where
  grows : Grows st st'
  room : (st.captures s).length < nestedCaptureListMax
  captures : ∀ s', st'.captures s' = if s' = s then st.captures s ++ [d] else st.captures s'

theorem grows_captures
    (hcap : ∀ s', st'.captures s' = if s' = s then st.captures s ++ [d] else st.captures s')
    (s' : SymbolRef) : st.captures s' <+: st'.captures s' := by
  rw [hcap]
  split
  · rename_i h
    rw [h]
    exact prefix_append _ _
  · exact prefix_rfl

theorem eq_of_changed
    (hcap : ∀ s', st'.captures s' = if s' = s then st.captures s ++ [d] else st.captures s')
    {s' : SymbolRef} (h : st'.captures s' ≠ st.captures s') : s' = s := by
  by_contra hne
  rw [hcap, if_neg hne] at h
  exact h rfl

theorem bare_of_compiled
    (hcap : ∀ s', st'.captures s' = if s' = s then st.captures s ++ [d] else st.captures s')
    (hbody : (st.heap s).isBodyCompiled = true) (s' : SymbolRef)
    (hs' : (st.heap s').isBodyCompiled = false) : st'.captures s' = st.captures s' := by
  by_contra h
  rw [eq_of_changed hcap h, hbody] at hs'
  cases hs'

theorem pushLive_adds (hlive : liveFunctionCompilerFor st.live s = some fc)
    (hroom : fc.upvalues.length < nestedCaptureListMax) (hbody : (st.heap s).isBodyCompiled = true)
    (d : UpvalueDescriptor) : AddsTo st (st.pushLive fc d) s d := by
  have hsym : fc.functionSymbol = s := liveFunctionCompilerFor_symbol hlive
  have hmem : s ∈ st.liveSymbols := liveFunctionCompilerFor_isSome.mp (by rw [hlive]; rfl)
  have hcap : ∀ s', (st.pushLive fc d).captures s' =
      if s' = s then st.captures s ++ [d] else st.captures s' := by
    intro s'
    rw [captures_live hlive, CaptureState.captures, CaptureState.pushLive,
      liveFunctionCompilerFor_replaceLive _ (by rw [hsym]; exact hmem), hsym]
    by_cases hs : s' = s
    · rw [if_pos hs, if_pos hs.symm]
    · rw [if_neg hs, if_neg fun e => hs e.symm]
      rfl
  exact {
    grows := {
      calls := rfl
      fixed := rfl
      inlined := rfl
      refused := Subset.refl _
      grown := Subset.refl _
      liveSymbols := replaceLive_symbols _ _
      enclosing := fun _ => rfl
      isBodyCompiled := fun _ => rfl
      captures := grows_captures hcap
      bare := bare_of_compiled hcap hbody
      changed := fun s' h => by
        rw [eq_of_changed hcap h]
        exact .inl hmem }
    room := by rw [captures_live hlive]; exact hroom
    captures := hcap }

theorem pushHeap_adds (hlive : liveFunctionCompilerFor st.live s = none)
    (hroom : (st.heap s).upvalues.length < nestedCaptureListMax)
    (hbody : (st.heap s).isBodyCompiled = true) (d : UpvalueDescriptor) :
    AddsTo st (st.pushHeap s d hroom) s d := by
  have hcap : ∀ s', (st.pushHeap s d hroom).captures s' =
      if s' = s then st.captures s ++ [d] else st.captures s' := by
    intro s'
    rw [captures_not_live hlive, CaptureState.captures, CaptureState.pushHeap]
    dsimp only
    by_cases hs : s' = s
    · rw [if_pos hs, hs, hlive, update_self]
      rfl
    · rw [if_neg hs, update_of_ne hs]
      rfl
  have hheap : ∀ {α : Type} (f : Symbol → α),
      f ((st.heap s).addUpvalue d hroom) = f (st.heap s) →
      ∀ s', f ((st.pushHeap s d hroom).heap s') = f (st.heap s') := by
    intro α f hf s'
    show f (update st.heap s _ s') = _
    by_cases hs : s' = s
    · rw [hs, update_self, hf]
    · rw [update_of_ne hs]
  exact {
    grows := {
      calls := rfl
      fixed := rfl
      inlined := rfl
      refused := Subset.refl _
      grown := subset_appendCaptureSymbol _ _
      liveSymbols := rfl
      enclosing := hheap Symbol.enclosing rfl
      isBodyCompiled := hheap Symbol.isBodyCompiled rfl
      captures := grows_captures hcap
      bare := bare_of_compiled hcap hbody
      changed := fun s' h => by
        rw [eq_of_changed hcap h]
        exact .inr (mem_appendCaptureSymbol _ _) }
    room := by rw [captures_not_live hlive]; exact hroom
    captures := hcap }

theorem addCapture_some {sourceIsRef : Bool} (hnew : findCapture st s isLocal index = none)
    (hbody : (st.heap s).isBodyCompiled = true)
    (h : addCapture st s isLocal index sourceIsRef = (st', some i)) :
    i = (st.captures s).length ∧ AddsTo st st' s ⟨index, isLocal, false, sourceIsRef⟩ := by
  rcases addCapture_cases sourceIsRef hnew with
    ⟨fc, hlive, hroom, he⟩ | ⟨hroom, hlive, he⟩ | ⟨-, he⟩ | he <;> rw [he] at h <;> cases h
  · exact ⟨by rw [captures_live hlive], pushLive_adds hlive hroom hbody _⟩
  · exact ⟨by rw [captures_not_live hlive], pushHeap_adds hlive hroom hbody _⟩

theorem addCapture_none {sourceIsRef : Bool} (hnew : findCapture st s isLocal index = none)
    (h : addCapture st s isLocal index sourceIsRef = (st', none)) :
    Grows st st' ∧ st'.captures = st.captures ∧ (s ∈ st'.fixed ∨ s ∈ st'.refused) := by
  rcases addCapture_cases sourceIsRef hnew with
    ⟨fc, hlive, hroom, he⟩ | ⟨hroom, hlive, he⟩ | ⟨hfixed, he⟩ | he <;> rw [he] at h <;> cases h
  · exact ⟨Grows.refl _, rfl, .inl hfixed⟩
  · exact ⟨{ Grows.refl st with refused := subset_cons_self _ _ }, rfl,
      .inr mem_cons_self⟩

/-! ## one descriptor -/

def ListsOk (st : CaptureState) : Prop := ∀ s, ListOk (st.captures s)

theorem AddsTo.listsOk (h : AddsTo st st' s d) (hok : ListsOk st)
    (hnew : findCapture st s d.isLocal d.index = none) : ListsOk st' := by
  intro s'
  rw [h.captures]
  split
  · refine (hok s).append ?_ hnew
    have hroom := h.room
    unfold nestedCaptureListMax at hroom
    unfold maxUpvalues
    omega
  · exact hok s'

theorem toNat_ofNat_of_lt_max (h : i < maxUpvalues) : (UInt8.ofNat i).toNat = i := by
  unfold maxUpvalues at h
  rw [UInt8.toNat_ofNat']
  omega

theorem captureThroughPath_spec (path : List SymbolRef) (st : CaptureState) (isLocal : Bool)
    (index : UInt8) (sourceIsRef : Bool) (hok : ListsOk st)
    (hbody : ∀ s ∈ path, (st.heap s).isBodyCompiled = true) :
    Grows st (captureThroughPath st path isLocal index sourceIsRef).1 ∧
      ListsOk (captureThroughPath st path isLocal index sourceIsRef).1 ∧
      (∀ pos, (captureThroughPath st path isLocal index sourceIsRef).2 = some pos →
        BindsThrough (captureThroughPath st path isLocal index sourceIsRef).1 path isLocal index
          pos) ∧
      ((captureThroughPath st path isLocal index sourceIsRef).2 = none →
        Frozen (captureThroughPath st path isLocal index sourceIsRef).1 path) := by
  induction path generalizing st isLocal index with
  | nil => exact ⟨Grows.refl _, hok, fun pos h => (some.inj h).symm, nofun⟩
  | cons s inner ih =>
    have hs : (st.heap s).isBodyCompiled = true := hbody s mem_cons_self
    have hinner : ∀ t ∈ inner, (st.heap t).isBodyCompiled = true :=
      fun t ht => hbody t (mem_cons_of_mem _ ht)
    rw [captureThroughPath]
    -- the position in the list of `s`, then the routines inside `s`
    have hrest : ∀ (st₁ : CaptureState) (i : Nat) (d : UpvalueDescriptor), Grows st st₁ →
        ListsOk st₁ → (st₁.captures s)[i]? = some d → d.isLocal = isLocal → d.index = index →
        let r := captureThroughPath st₁ inner false (UInt8.ofNat i) sourceIsRef
        Grows st r.1 ∧ ListsOk r.1 ∧
          (∀ pos, r.2 = some pos → BindsThrough r.1 (s :: inner) isLocal index pos) ∧
          (r.2 = none → Frozen r.1 (s :: inner)) := by
      intro st₁ i d hg hok₁ hd hlocal hindex r
      obtain ⟨hg', hok', hsome, hnone⟩ := ih st₁ false (UInt8.ofNat i) hok₁
        fun t ht => by rw [hg.isBodyCompiled]; exact hinner t ht
      have hi : i < maxUpvalues :=
        Nat.lt_of_lt_of_le (List.getElem?_eq_some_iff.mp hd).1 (hok₁ s).le
      refine ⟨hg.trans hg', hok', fun pos hpos => ⟨UInt8.ofNat i, d, ?_, hlocal, hindex, ?_⟩, ?_⟩
      · rw [toNat_ofNat_of_lt_max hi]
        exact getElem?_of_prefix (hg'.captures s) hd
      · exact hsome pos hpos
      · intro hr
        obtain ⟨t, ht, hf⟩ := hnone hr
        exact ⟨t, mem_cons_of_mem _ ht, hf⟩
    cases hfind : findCapture st s isLocal index with
    | some i =>
      obtain ⟨d, hd, hlocal, hindex⟩ := captureAt_some hfind
      exact hrest st i d (Grows.refl _) hok hd hlocal hindex
    | none =>
      dsimp only
      rcases hadd : addCapture st s isLocal index sourceIsRef with ⟨st₁, _ | i⟩
      · obtain ⟨hg, hcap, hf⟩ := addCapture_none hfind hadd
        exact ⟨hg, fun t => by rw [hcap]; exact hok t, nofun,
          fun _ => ⟨s, mem_cons_self, hf⟩⟩
      · obtain ⟨hi, hadds⟩ := addCapture_some hfind hs hadd
        refine hrest st₁ i ⟨index, isLocal, false, sourceIsRef⟩ hadds.grows
          (hadds.listsOk hok hfind) ?_ rfl rfl
        rw [hadds.captures, if_pos rfl, hi, getElem?_concat_length]

/-! ## one call -/

theorem captureAll_spec (path : List SymbolRef) (ds : List UpvalueDescriptor) (st : CaptureState)
    (hok : ListsOk st) (hbody : ∀ s ∈ path, (st.heap s).isBodyCompiled = true) :
    Grows st (captureAll st path ds).1 ∧ ListsOk (captureAll st path ds).1 ∧
      (Frozen (captureAll st path ds).1 path ∨
        ∀ d ∈ ds, ∃ pos, BindsThrough (captureAll st path ds).1 path d.isLocal d.index pos) := by
  induction ds generalizing st with
  | nil => exact ⟨Grows.refl _, hok, .inr nofun⟩
  | cons d ds ih =>
    obtain ⟨hg, hok₁, hsome, hnone⟩ :=
      captureThroughPath_spec path st d.isLocal d.index d.sourceIsRef hok hbody
    rw [captureAll]
    rcases hr : captureThroughPath st path d.isLocal d.index d.sourceIsRef with ⟨st₁, _ | pos⟩
    · rw [hr] at hg hok₁ hnone
      exact ⟨hg, hok₁, .inl (hnone rfl)⟩
    · rw [hr] at hg hok₁ hsome
      obtain ⟨hg', hok', hds⟩ := ih st₁ hok₁
        fun s hs => by rw [hg.isBodyCompiled]; exact hbody s hs
      refine ⟨hg.trans hg', hok', hds.imp_right fun hds d' hd' => ?_⟩
      rcases mem_cons.mp hd' with rfl | hd'
      · exact ⟨pos, (hsome pos rfl).grow hg'.captures⟩
      · exact hds d' hd'

theorem Frozen.reverse (h : Frozen st path.reverse) : Frozen st path := by
  obtain ⟨s, hs, hf⟩ := h
  exact ⟨s, mem_reverse.mp hs, hf⟩

def EnclosingCompiled (heap : SymbolRef → Symbol) : Prop :=
  ∀ s e, (heap s).isBodyCompiled = true → (heap s).enclosing = some e →
    (heap e).isBodyCompiled = true

theorem lexicalPathFrom_mem_compiled {heap : SymbolRef → Symbol} (henc : EnclosingCompiled heap)
    {home : Option SymbolRef} {room : Nat} {from' : Option SymbolRef}
    (hfrom : ∀ s, from' = some s → (heap s).isBodyCompiled = true)
    (h : lexicalPathFrom heap home room from' = some path) :
    ∀ s ∈ path, (heap s).isBodyCompiled = true := by
  induction room generalizing from' path with
  | zero =>
    cases from' with
    | none => cases h
    | some s =>
      rw [lexicalPathFrom] at h
      split at h
      · cases h
        nofun
      · cases h
  | succ room ih =>
    cases from' with
    | none => cases h
    | some s =>
      rw [lexicalPathFrom] at h
      split at h
      · cases h
        nofun
      · obtain ⟨rest, hrest, rfl⟩ := map_eq_some_iff.mp h
        have hs := hfrom s rfl
        intro t ht
        rcases mem_cons.mp ht with rfl | ht
        · exact hs
        · exact ih (fun e he => henc s e hs he) hrest t ht

theorem captureCalleeVariables_spec (st : CaptureState) (c : NestedCallCapture) (hok : ListsOk st)
    (henc : EnclosingCompiled st.heap) (hcaller : (st.heap c.caller).isBodyCompiled = true) :
    Grows st (captureCalleeVariables st c.caller c.callee) ∧
      ListsOk (captureCalleeVariables st c.caller c.callee) ∧
      ((captureCalleeVariables st c.caller c.callee).captures c.callee = st.captures c.callee →
        CallBinds (captureCalleeVariables st c.caller c.callee) c) := by
  unfold captureCalleeVariables
  rcases hpath : lexicalPathTo st.heap c.caller (st.heap c.callee).enclosing with _ | _ | ⟨s, inner⟩
  · refine ⟨Grows.refl _, hok, fun _ path h => ?_⟩
    rw [hpath] at h
    cases h
  · refine ⟨Grows.refl _, hok, fun _ path h hne => ?_⟩
    rw [hpath] at h
    exact absurd (some.inj h).symm hne
  · dsimp only
    have hbody : ∀ t ∈ s :: inner, (st.heap t).isBodyCompiled = true :=
      lexicalPathFrom_mem_compiled henc (fun _ e => some.inj e ▸ hcaller) hpath
    obtain ⟨hg, hok', hr⟩ := captureAll_spec (s :: inner).reverse (st.captures c.callee) st hok
      fun t ht => hbody t (mem_reverse.mp ht)
    refine ⟨hg, hok', fun hsame path hp hne => ?_⟩
    rw [hg.enclosing, hg.lexicalPathTo, hpath] at hp
    cases hp
    rw [hsame]
    exact hr.imp_left Frozen.reverse

end Pscal
