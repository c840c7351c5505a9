import Mathlib
import Pscal.Compiler.CaptureGrowth

/-!
# Passing growth on

The lists that grew are a worklist.  `Pending` is what holds of a recorded call while it is
worked off: its callee is live, or grew since, or the call is settled.

* `passOnCaptureGrowth_spec`  at the end every call with a callee that is not live is settled;
* `passOnCaptureGrowth_isSome`  the end comes: a list that grows loses room, and only the routines
  on the paths of recorded calls can grow.
-/

namespace Pscal

open Finset List Function

/-- what holds of the lists and the recorded callers at any time -/
structure CapturesOk (st : CaptureState) : Prop where
  lists : ListsOk st
  enclosing : EnclosingCompiled st.heap
  callers : ∀ c ∈ st.calls, (st.heap c.caller).isBodyCompiled = true

def Pending (st : CaptureState) (c : NestedCallCapture) : Prop :=
  c.callee ∈ st.liveSymbols ∨ c.callee ∈ st.grown ∨ CallBinds st c

variable {st st' : CaptureState} {s : SymbolRef} {U : Finset SymbolRef}

theorem Pending.grow (hg : Grows st st') {c : NestedCallCapture} (h : Pending st c) :
    Pending st' c := by
  rcases h with hl | hgrown | hr
  · exact .inl (by rwa [hg.liveSymbols])
  · exact .inr (.inl (hg.grown hgrown))
  · by_cases hc : st'.captures c.callee = st.captures c.callee
    · exact .inr (.inr (hr.grow hg.toExtends hc))
    · rcases hg.changed _ hc with hl | hgrown
      · exact .inl (by rwa [hg.liveSymbols])
      · exact .inr (.inl hgrown)

theorem Extends.enclosingCompiled (hg : Extends st st') (h : EnclosingCompiled st.heap) :
    EnclosingCompiled st'.heap := by
  intro s e hs he
  rw [hg.isBodyCompiled] at hs ⊢
  rw [hg.enclosing] at he
  exact h s e hs he

theorem CapturesOk.extend (h : CapturesOk st) (hg : Extends st st') (hok : ListsOk st') :
    CapturesOk st' where
  lists := hok
  enclosing := hg.enclosingCompiled h.enclosing
  callers c hc := by
    rw [hg.isBodyCompiled]
    rw [hg.calls] at hc
    exact h.callers c hc

theorem captureCalleeVariables_pending (st : CaptureState) (c : NestedCallCapture)
    (h : CapturesOk st) (hcaller : (st.heap c.caller).isBodyCompiled = true) :
    Grows st (captureCalleeVariables st c.caller c.callee) ∧
      CapturesOk (captureCalleeVariables st c.caller c.callee) ∧
      Pending (captureCalleeVariables st c.caller c.callee) c := by
  obtain ⟨hg, hok, hr⟩ := captureCalleeVariables_spec st c h.lists h.enclosing hcaller
  refine ⟨hg, h.extend hg.toExtends hok, ?_⟩
  by_cases hc : (captureCalleeVariables st c.caller c.callee).captures c.callee =
      st.captures c.callee
  · exact .inr (.inr (hr hc))
  · rcases hg.changed _ hc with hl | hgrown
    · exact .inl (by rwa [hg.liveSymbols])
    · exact .inr (.inl hgrown)

section
variable (sym : SymbolRef) (cs : List NestedCallCapture) (st : CaptureState) (h : CapturesOk st)
  (hcs : ∀ c ∈ cs, (st.heap c.caller).isBodyCompiled = true)
include h hcs

theorem passOnTo_grows : Grows st (passOnTo sym cs st) ∧ CapturesOk (passOnTo sym cs st) := by
  induction cs generalizing st with
  | nil => exact ⟨Grows.refl _, h⟩
  | cons c cs ih =>
    rw [passOnTo]
    have hcs' : ∀ c' ∈ cs, (st.heap c'.caller).isBodyCompiled = true :=
      fun c' hc' => hcs c' (mem_cons_of_mem _ hc')
    by_cases hsym : c.callee = sym
    · rw [if_pos hsym]
      obtain ⟨hg, hok, -⟩ := captureCalleeVariables_pending st c h (hcs c mem_cons_self)
      rw [hsym] at hg hok
      obtain ⟨hg', hok'⟩ := ih _ hok fun c' hc' => by rw [hg.isBodyCompiled]; exact hcs' c' hc'
      exact ⟨hg.trans hg', hok'⟩
    · rw [if_neg hsym]
      exact ih st h hcs'

theorem passOnTo_pending (hpending : ∀ c ∈ st.calls, Pending st c ∨ (c.callee = sym ∧ c ∈ cs)) :
    ∀ c ∈ st.calls, Pending (passOnTo sym cs st) c := by
  induction cs generalizing st with
  | nil => exact fun c hc => (hpending c hc).resolve_right fun hn => nomatch hn.2
  | cons c cs ih =>
    rw [passOnTo]
    have hcs' : ∀ c' ∈ cs, (st.heap c'.caller).isBodyCompiled = true :=
      fun c' hc' => hcs c' (mem_cons_of_mem _ hc')
    by_cases hsym : c.callee = sym
    · rw [if_pos hsym]
      obtain ⟨hg, hok, hc⟩ := captureCalleeVariables_pending st c h (hcs c mem_cons_self)
      rw [hsym] at hg hok hc
      intro c' hc'
      refine ih _ hok (fun c' hc' => by rw [hg.isBodyCompiled]; exact hcs' c' hc') ?_ c'
        (by rwa [hg.calls])
      intro c' hc'
      rw [hg.calls] at hc'
      rcases hpending c' hc' with hp | ⟨hp, hmem⟩
      · exact .inl (hp.grow hg)
      · rcases mem_cons.mp hmem with rfl | hmem
        · exact .inl hc
        · exact .inr ⟨hp, hmem⟩
    · rw [if_neg hsym]
      refine ih st h hcs' fun c' hc' => (hpending c' hc').imp_right fun ⟨hp, hmem⟩ => ?_
      rcases mem_cons.mp hmem with rfl | hmem
      · exact absurd hp hsym
      · exact ⟨hp, hmem⟩

end

theorem passOnCaptureGrowth_nil (h : st.grown = []) (fuel : Nat) :
    passOnCaptureGrowth fuel st = some st := by
  rw [passOnCaptureGrowth.eq_def]
  dsimp only
  rw [h]

variable {grown : List SymbolRef}

theorem passOnCaptureGrowth_zero (h : st.grown = s :: grown) : passOnCaptureGrowth 0 st = none := by
  rw [passOnCaptureGrowth.eq_def]
  dsimp only
  rw [h]

theorem passOnCaptureGrowth_succ (h : st.grown = s :: grown) (fuel : Nat) :
    passOnCaptureGrowth (fuel + 1) st =
      passOnCaptureGrowth fuel (passOnTo s st.calls { st with grown := grown }) := by
  rw [passOnCaptureGrowth.eq_def]
  dsimp only
  rw [h]

theorem extends_grown (st : CaptureState) (grown : List SymbolRef) :
    Extends st { st with grown := grown } := { Extends.refl st with }

theorem passOnCaptureGrowth_spec (fuel : Nat) (st st' : CaptureState) (h : CapturesOk st)
    (hpending : ∀ c ∈ st.calls, Pending st c) (hrun : passOnCaptureGrowth fuel st = some st') :
    Extends st st' ∧ CapturesOk st' ∧ st'.grown = [] ∧
      ∀ c ∈ st.calls, c.callee ∈ st.liveSymbols ∨ CallBinds st' c := by
  induction fuel generalizing st with
  | zero =>
    cases hgrown : st.grown with
    | nil =>
      rw [passOnCaptureGrowth_nil hgrown] at hrun
      cases hrun
      refine ⟨Extends.refl _, h, hgrown, fun c hc => ?_⟩
      have hp := hpending c hc
      rw [Pending, hgrown] at hp
      exact hp.imp_right fun hp => hp.resolve_left not_mem_nil
    | cons s grown =>
      rw [passOnCaptureGrowth_zero hgrown] at hrun
      cases hrun
  | succ fuel ih =>
    cases hgrown : st.grown with
    | nil =>
      rw [passOnCaptureGrowth_nil hgrown] at hrun
      cases hrun
      refine ⟨Extends.refl _, h, hgrown, fun c hc => ?_⟩
      have hp := hpending c hc
      rw [Pending, hgrown] at hp
      exact hp.imp_right fun hp => hp.resolve_left not_mem_nil
    | cons s grown =>
      rw [passOnCaptureGrowth_succ hgrown] at hrun
      have hpop := extends_grown st grown
      have hok : CapturesOk { st with grown := grown } := h.extend hpop h.lists
      -- a call to the routine taken off the list waits for its turn in `passOnTo`
      have hp : ∀ c ∈ st.calls,
          Pending { st with grown := grown } c ∨ (c.callee = s ∧ c ∈ st.calls) := by
        intro c hc
        rcases hpending c hc with hl | hmem | hr
        · exact .inl (.inl hl)
        · rw [hgrown] at hmem
          rcases mem_cons.mp hmem with he | hmem
          · exact .inr ⟨he, hc⟩
          · exact .inl (.inr (.inl hmem))
        · exact .inl (.inr (.inr (hr.grow hpop rfl)))
      obtain ⟨hg, hok'⟩ := passOnTo_grows s st.calls { st with grown := grown } hok h.callers
      have hp' := passOnTo_pending s st.calls { st with grown := grown } hok h.callers hp
      obtain ⟨he, hok'', hnil, hr⟩ := ih _ hok' (fun c hc => hp' c (by rwa [hg.calls] at hc)) hrun
      refine ⟨(hpop.trans hg.toExtends).trans he, hok'', hnil, fun c hc => ?_⟩
      have := hr c (by rwa [hg.calls])
      rwa [hg.liveSymbols] at this

/-! ## the end of the worklist -/

def callPath (st : CaptureState) (c : NestedCallCapture) : List SymbolRef :=
  (lexicalPathTo st.heap c.caller (st.heap c.callee).enclosing).getD []

/-- pending work: the worklist, and the room in the lists that can still get onto it -/
def passOnMeasure (U : Finset SymbolRef) (st : CaptureState) : Nat :=
  st.grown.length + ∑ s ∈ U, (nestedCaptureListMax - (st.heap s).upvalues.length)

theorem passOnMeasure_cons (h : st.grown = s :: grown) :
    passOnMeasure U st = passOnMeasure U { st with grown := grown } + 1 := by
  rw [passOnMeasure, h, length_cons, Nat.add_right_comm]
  rfl

theorem length_appendCaptureSymbol (list : List SymbolRef) (sym : SymbolRef) :
    (appendCaptureSymbol list sym).length ≤ list.length + 1 := by
  rw [appendCaptureSymbol]
  split
  · omega
  · rw [length_cons]

theorem pushHeap_measure {d : UpvalueDescriptor}
    (hroom : (st.heap s).upvalues.length < nestedCaptureListMax) (hs : s ∈ U) :
    passOnMeasure U (st.pushHeap s d hroom) ≤ passOnMeasure U st := by
  have hlt : ∑ t ∈ U, (nestedCaptureListMax - ((st.pushHeap s d hroom).heap t).upvalues.length) <
      ∑ t ∈ U, (nestedCaptureListMax - (st.heap t).upvalues.length) := by
    refine Finset.sum_lt_sum (fun t _ => ?_) ⟨s, hs, ?_⟩
    · show _ - (update st.heap s _ t).upvalues.length ≤ _
      by_cases ht : t = s
      · rw [ht, update_self, Symbol.addUpvalue, length_append]
        omega
      · rw [update_of_ne ht]
    · show _ - (update st.heap s _ s).upvalues.length < _
      rw [update_self, Symbol.addUpvalue, length_append, length_singleton]
      omega
  have hlen := length_appendCaptureSymbol st.grown s
  unfold passOnMeasure
  show (appendCaptureSymbol st.grown s).length + _ ≤ _
  omega

theorem addCapture_measure {isLocal : Bool} {index : UInt8} (sourceIsRef : Bool)
    (hnew : findCapture st s isLocal index = none) (hs : s ∈ U) :
    passOnMeasure U (addCapture st s isLocal index sourceIsRef).1 ≤ passOnMeasure U st := by
  rcases addCapture_cases sourceIsRef hnew with
    ⟨fc, -, -, he⟩ | ⟨hroom, -, he⟩ | ⟨-, he⟩ | he <;> rw [he]
  · exact le_refl _
  · exact pushHeap_measure hroom hs
  · exact le_refl _

theorem captureThroughPath_measure (path : List SymbolRef) (st : CaptureState) (isLocal : Bool)
    (index : UInt8) (sourceIsRef : Bool) (hU : ∀ s ∈ path, s ∈ U) :
    passOnMeasure U (captureThroughPath st path isLocal index sourceIsRef).1 ≤
      passOnMeasure U st := by
  induction path generalizing st isLocal index with
  | nil => exact le_refl _
  | cons s inner ih =>
    have hinner : ∀ t ∈ inner, t ∈ U := fun t ht => hU t (mem_cons_of_mem _ ht)
    rw [captureThroughPath]
    cases hfind : findCapture st s isLocal index with
    | some i => exact ih st _ _ hinner
    | none =>
      dsimp only
      have hadd := addCapture_measure sourceIsRef hfind (hU s mem_cons_self)
      rcases hr : addCapture st s isLocal index sourceIsRef with ⟨st₁, _ | i⟩ <;> rw [hr] at hadd
      · exact hadd
      · exact (ih st₁ _ _ hinner).trans hadd

theorem captureAll_measure (path : List SymbolRef) (hU : ∀ s ∈ path, s ∈ U)
    (ds : List UpvalueDescriptor) (st : CaptureState) :
    passOnMeasure U (captureAll st path ds).1 ≤ passOnMeasure U st := by
  induction ds generalizing st with
  | nil => exact le_refl _
  | cons d ds ih =>
    have hd := captureThroughPath_measure path st d.isLocal d.index d.sourceIsRef hU
    rw [captureAll]
    rcases hr : captureThroughPath st path d.isLocal d.index d.sourceIsRef with ⟨st₁, _ | pos⟩ <;>
      rw [hr] at hd
    · exact hd
    · exact (ih st₁).trans hd

theorem captureCalleeVariables_measure (st : CaptureState) (c : NestedCallCapture)
    (hU : ∀ s ∈ callPath st c, s ∈ U) :
    passOnMeasure U (captureCalleeVariables st c.caller c.callee) ≤ passOnMeasure U st := by
  rw [callPath] at hU
  unfold captureCalleeVariables
  rcases hpath : lexicalPathTo st.heap c.caller (st.heap c.callee).enclosing with _ | _ | ⟨s, inner⟩
  · exact le_refl _
  · exact le_refl _
  · rw [hpath] at hU
    exact captureAll_measure _ (fun t ht => hU t (mem_reverse.mp ht)) _ _

theorem Extends.callPath (h : Extends st st') (c : NestedCallCapture) :
    Pscal.callPath st' c = Pscal.callPath st c := by
  rw [Pscal.callPath, Pscal.callPath, h.enclosing, h.lexicalPathTo]

theorem passOnTo_measure (sym : SymbolRef) (cs : List NestedCallCapture) (st : CaptureState)
    (h : CapturesOk st) (hcs : ∀ c ∈ cs, (st.heap c.caller).isBodyCompiled = true)
    (hU : ∀ c ∈ cs, ∀ s ∈ callPath st c, s ∈ U) :
    passOnMeasure U (passOnTo sym cs st) ≤ passOnMeasure U st := by
  induction cs generalizing st with
  | nil => exact le_refl _
  | cons c cs ih =>
    rw [passOnTo]
    have hcs' : ∀ c' ∈ cs, (st.heap c'.caller).isBodyCompiled = true :=
      fun c' hc' => hcs c' (mem_cons_of_mem _ hc')
    have hU' : ∀ c' ∈ cs, ∀ s ∈ callPath st c', s ∈ U :=
      fun c' hc' => hU c' (mem_cons_of_mem _ hc')
    by_cases hsym : c.callee = sym
    · rw [if_pos hsym]
      obtain ⟨hg, hok, -⟩ := captureCalleeVariables_pending st c h (hcs c mem_cons_self)
      have hm := captureCalleeVariables_measure st c (hU c mem_cons_self)
      rw [hsym] at hg hok hm
      refine (ih _ hok (fun c' hc' => ?_) fun c' hc' s hs => ?_).trans hm
      · rw [hg.isBodyCompiled]
        exact hcs' c' hc'
      · rw [hg.callPath] at hs
        exact hU' c' hc' s hs
    · rw [if_neg hsym]
      exact ih st h hcs' hU'

theorem passOnCaptureGrowth_of_measure (fuel : Nat) (st : CaptureState) (h : CapturesOk st)
    (hU : ∀ c ∈ st.calls, ∀ s ∈ callPath st c, s ∈ U) (hfuel : passOnMeasure U st ≤ fuel) :
    ∃ st', passOnCaptureGrowth fuel st = some st' := by
  induction fuel generalizing st with
  | zero =>
    cases hgrown : st.grown with
    | nil => exact ⟨st, passOnCaptureGrowth_nil hgrown 0⟩
    | cons s grown =>
      rw [passOnMeasure, hgrown, length_cons] at hfuel
      omega
  | succ fuel ih =>
    cases hgrown : st.grown with
    | nil => exact ⟨st, passOnCaptureGrowth_nil hgrown _⟩
    | cons s grown =>
      rw [passOnCaptureGrowth_succ hgrown]
      have hpop := extends_grown st grown
      have hok : CapturesOk { st with grown := grown } := h.extend hpop h.lists
      have hm := passOnTo_measure (U := U) s st.calls { st with grown := grown } hok h.callers hU
      obtain ⟨hg, hok'⟩ := passOnTo_grows s st.calls { st with grown := grown } hok h.callers
      refine ih _ hok' (fun c hc t ht => ?_) ?_
      · rw [hg.callPath] at ht
        rw [hg.calls] at hc
        exact hU c hc t ht
      · have hcons := passOnMeasure_cons (U := U) hgrown
        omega

theorem passOnCaptureGrowth_mono {fuel : Nat} (h : passOnCaptureGrowth fuel st = some st')
    {fuel' : Nat} (hle : fuel ≤ fuel') : passOnCaptureGrowth fuel' st = some st' := by
  induction fuel generalizing st fuel' with
  | zero =>
    cases hgrown : st.grown with
    | nil => rwa [passOnCaptureGrowth_nil hgrown] at h ⊢
    | cons s grown =>
      rw [passOnCaptureGrowth_zero hgrown] at h
      cases h
  | succ fuel ih =>
    cases hgrown : st.grown with
    | nil => rwa [passOnCaptureGrowth_nil hgrown] at h ⊢
    | cons s grown =>
      obtain ⟨n, rfl⟩ := Nat.exists_eq_add_of_le hle
      rw [passOnCaptureGrowth_succ hgrown] at h
      rw [Nat.add_right_comm, passOnCaptureGrowth_succ hgrown]
      exact ih h (by omega)

theorem passOnCaptureGrowth_isSome (st : CaptureState) (h : CapturesOk st) :
    ∃ fuel st', ∀ n ≥ fuel, passOnCaptureGrowth n st = some st' := by
  let U : Finset SymbolRef := (st.calls.flatMap (callPath st)).toFinset
  have hU : ∀ c ∈ st.calls, ∀ s ∈ callPath st c, s ∈ U :=
    fun c hc s hs => List.mem_toFinset.mpr (mem_flatMap.mpr ⟨c, hc, hs⟩)
  obtain ⟨st', hst'⟩ := passOnCaptureGrowth_of_measure _ st h hU (le_refl _)
  exact ⟨_, st', fun n hn => passOnCaptureGrowth_mono hst' hn⟩

end Pscal
