import Pscal.VM.MutexesSpec
import Mathlib

/-!
# The mutex registry over whole runs

* `SlotChange`, `step_slot`  what a step does to the one slot it writes;
* `MutexStateOk`, `MutexStepOk`  what a state and a step should be;
* `mutexes_safe`  every run in which the depths fit their `int`;
* `mutexes_overflow`  a run in which one does not.
-/

namespace Pscal

open Transitions Counting Function MutexWorld

/-! ## what a step does to a slot -/

variable {V : Type}

inductive SlotChange (w : MutexWorld V) (e : MutexEvent V) (id : Nat) (m : Mutex V) : Prop where
  | kept (hevent : ∀ v k, e ≠ .created v k ∧ e ≠ .destroyed v k)
      (hactive : m.active = (w.mutexes id).active) (hdepth : (w.mutexes id).depth ≤ m.depth)
  | lowered {v : V} (hevent : e = .unlocked v id ∨ e = .released v id)
      (hactive : m.active = (w.mutexes id).active) (hholder : (w.mutexes id).holder = some v)
  | created {v : V} (hevent : e = .created v id) (hinactive : (w.mutexes id).active = false)
      (hactive : m.active = true) (hdepth : 0 ≤ m.depth)
  | destroyed {v : V} (hevent : e = .destroyed v id) (hmark : w.phase v = .destroyMark id)
      (hdepth : m.depth = (w.mutexes id).depth)

def SlotStep (w : MutexWorld V) (r : MutexWorld V × MutexEvent V) : Prop :=
  ∃ id m, r.1.mutexes = Function.update w.mutexes id m ∧ SlotChange w r.2 id m

variable {w : MutexWorld V} {ceiling : Nat}

theorem slotStep_same {r : MutexWorld V × MutexEvent V} (h : r.1.mutexes = w.mutexes)
    (hevent : ∀ v k, r.2 ≠ .created v k ∧ r.2 ≠ .destroyed v k) : SlotStep w r :=
  ⟨0, w.mutexes 0, by rw [h, update_eq_self], .kept hevent rfl (Int.le_refl _)⟩

theorem slotStep_kept {r : MutexWorld V × MutexEvent V} {id : Nat} {m : Mutex V}
    (h : r.1.mutexes = update w.mutexes id m)
    (hevent : ∀ v k, r.2 ≠ .created v k ∧ r.2 ≠ .destroyed v k)
    (hactive : m.active = (w.mutexes id).active) (hdepth : (w.mutexes id).depth ≤ m.depth) :
    SlotStep w r :=
  ⟨id, m, h, .kept hevent hactive hdepth⟩

variable [DecidableEq V] [Fintype V]

section
variable {ceiling : Nat} {w : MutexWorld V} {v : V} (h : MutexInv ceiling w)
include h

theorem lockLoop_slot {id : Nat} {waiters : Nat} : SlotStep w
      ((w.setMutex id { w.mutexes id with waiters := waiters }).lockLoop v id) := by
  have hself : (w.setMutex id { w.mutexes id with waiters := waiters }).mutexes id =
      { w.mutexes id with waiters := waiters } := update_self ..
  rw [lockLoop, hself]
  by_cases hholder : (w.mutexes id).holder ≠ none
  · rw [if_pos hholder]
    exact slotStep_kept (update_idem ..) (fun _ _ => ⟨by simp, by simp⟩) rfl (Int.le_refl _)
  · rw [if_neg hholder]
    refine slotStep_kept (update_idem ..) (fun _ _ => ⟨by simp, by simp⟩) rfl ?_
    rw [h.depth_free id (not_not.mp hholder)]
    exact Int.zero_le_ofNat 1

theorem lockLoop_slot_same {id : Nat} : SlotStep w (w.lockLoop v id) := by
  have hloop := @lockLoop_slot _ _ _ _ _ v h id (w.mutexes id).waiters
  rwa [setMutex, update_eq_self] at hloop

theorem lockGuarded_slot {id : Nat} (hfits : depthFits w (w.lockGuarded v id).2) :
    SlotStep w (w.lockGuarded v id) := by
  rw [lockGuarded] at hfits ⊢
  by_cases hholder : (w.mutexes id).holder = some v
  · rw [if_pos hholder] at hfits ⊢
    by_cases hrec : (w.mutexes id).recursive = true
    · rw [if_pos hrec] at hfits ⊢
      have hlt := hfits v id rfl
      obtain ⟨hpos, -⟩ := h.depth_held v id hholder
      refine slotStep_kept rfl (fun _ _ => ⟨by simp, by simp⟩) rfl ?_
      show _ ≤ ((w.mutexes id).depth + 1).bmod (2 ^ 32)
      rw [bmod_depth (by omega) (by omega)]
      omega
    · rw [if_neg hrec]
      exact slotStep_same rfl fun _ _ => ⟨by simp, by simp⟩
  · rw [if_neg hholder]
    exact lockLoop_slot_same h

theorem lockWoken_slot {id : Nat} (rc : Bool) : SlotStep w (w.lockWoken v id rc) := by
  rw [lockWoken]
  by_cases hagain : (w.mutexes id).holder = none ∨ rc = true
  · rw [if_pos hagain]
    exact lockLoop_slot h
  · rw [if_neg hagain]
    exact slotStep_kept rfl (fun _ _ => ⟨by simp, by simp⟩) rfl (Int.le_refl _)

omit [Fintype V] h in
theorem unlockGuarded_slot {id : Nat} : SlotStep w (w.unlockGuarded v id) := by
  rw [unlockGuarded]
  by_cases hholder : (w.mutexes id).holder ≠ some v
  · rw [if_pos hholder]
    exact slotStep_same rfl fun _ _ => ⟨by simp, by simp⟩
  rw [if_neg hholder]
  split
  · exact ⟨id, _, rfl, .lowered (.inl rfl) rfl (not_not.mp hholder)⟩
  · exact ⟨id, _, rfl, .lowered (.inl rfl) rfl (not_not.mp hholder)⟩

theorem createMutex_slot (grown constructed recursive : Bool) :
    SlotStep w (w.createMutex ceiling grown constructed v recursive) := by
  rw [createMutex]
  cases hid : w.createId ceiling grown with
  | none => exact slotStep_same rfl fun _ _ => ⟨by simp, by simp⟩
  | some id =>
    dsimp only
    split
    · exact slotStep_same rfl fun _ _ => ⟨by simp, by simp⟩
    · exact ⟨id, _, rfl, .created rfl (createId_some h hid).1 rfl (Int.le_refl 0)⟩

omit [Fintype V] h in
theorem beginUse_slot (id : Int) (next : Nat → MutexPhase) : SlotStep w (w.beginUse v id next) := by
  rw [beginUse]
  cases w.lookup id with
  | none => exact slotStep_same rfl fun _ _ => ⟨by simp, by simp⟩
  | some k => exact slotStep_kept rfl (fun _ _ => ⟨by simp, by simp⟩) rfl (Int.le_refl _)

theorem section_slot {rc interrupted : Bool} {r : MutexWorld V × MutexEvent V}
    (hsection : w.section? v rc interrupted = some r) (hfits : depthFits w r.2) : SlotStep w r := by
  rw [section?] at hsection
  split at hsection
  · cases hsection
  · cases hsection
  · cases hsection
    exact lockGuarded_slot h hfits
  · cases hsection
    exact lockWoken_slot h rc
  · cases hsection
    rw [lockPolled]
    split
    · exact slotStep_same rfl fun _ _ => ⟨by simp, by simp⟩
    · exact lockLoop_slot_same h
  · cases hsection
    exact unlockGuarded_slot
  · cases hsection
    rw [endUse]
    exact slotStep_kept rfl (fun _ _ => ⟨by simp, by simp⟩) rfl (Int.le_refl _)
  · cases hsection
    rw [destroyCheck]
    split <;> exact slotStep_same rfl fun _ _ => ⟨by simp, by simp⟩
  · rename_i id hp
    cases hsection
    exact ⟨id, _, rfl, .destroyed rfl hp rfl⟩
  · split at hsection
    · cases hsection
      exact slotStep_same rfl fun _ _ => ⟨by simp, by simp⟩
    · cases hsection
  · rename_i i hp
    cases hsection
    rw [releaseGuarded]
    split
    · dsimp only
      split
      · rename_i hholds
        exact ⟨i, _, rfl, .lowered (.inr rfl) rfl hholds.2.2⟩
      · exact slotStep_same rfl fun _ _ => ⟨by simp, by simp⟩
    · exact slotStep_same rfl fun _ _ => ⟨by simp, by simp⟩

theorem step_slot {e : MutexEvent V} {w' : MutexWorld V} (hstep : MutexStep ceiling w e w')
    (hfits : depthFits w e) : SlotStep w (w', e) := by
  cases hstep with
  | create hp hfree grown constructed recursive =>
    exact createMutex_slot h grown constructed recursive
  | lock hp hfree id => exact beginUse_slot id _
  | unlock hp hfree id => exact beginUse_slot id _
  | destroy hp hfree id =>
    rw [destroyStart]
    cases w.lookup id with
    | none => exact slotStep_same rfl fun _ _ => ⟨by simp, by simp⟩
    | some k => exact slotStep_same rfl fun _ _ => ⟨by simp, by simp⟩
  | jobEnd hp =>
    rw [releaseStart]
    split <;> exact slotStep_same rfl fun _ _ => ⟨by simp, by simp⟩
  | jobStart hp => exact slotStep_same rfl fun _ _ => ⟨by simp, by simp⟩
  | «section» hsection => exact section_slot h hsection hfits

end

/-! ## whole runs -/

/-- A step that does not take a depth over the largest `int`. -/
def SafeMutexStep (ceiling : Nat) (w : MutexWorld V) (e : MutexEvent V) (w' : MutexWorld V) : Prop :=
  MutexStep ceiling w e w' ∧ depthFits w e

/-- Each slot has one holder or none; the rest of what holds in a state. -/
structure MutexStateOk (w : MutexWorld V) : Prop where
  live : ∀ v id, (w.mutexes id).holder = some v ∨ (w.phase v).uses = some id →
    (w.mutexes id).active = true ∧ id < w.mutexCount
  depth : ∀ id, 0 < (w.mutexes id).depth ↔ (w.mutexes id).holder ≠ none
  held : ∀ v, (w.phase v).releases = false →
    w.heldMutexCount v = Set.ncard {id | (w.mutexes id).holder = some v}
  ended : ∀ v, w.phase v = .ended → ∀ id, (w.mutexes id).holder ≠ some v

/-- A depth is lowered by the holder, and a mutex that is held, or that a lock or an unlock is at,
is neither destroyed nor made again. -/
structure MutexStepOk (w : MutexWorld V) (e : MutexEvent V) (w' : MutexWorld V) : Prop where
  lowered : ∀ id, (w'.mutexes id).depth < (w.mutexes id).depth →
    ∃ v, (w.mutexes id).holder = some v ∧ (e = .unlocked v id ∨ e = .released v id)
  destroyed : ∀ id, (w.mutexes id).active = true → (w'.mutexes id).active = false →
    (w.mutexes id).holder = none ∧ ∀ v, (w.phase v).uses ≠ some id
  created : ∀ v id, e = .created v id →
    (w.mutexes id).holder = none ∧ ∀ u, (w.phase u).uses ≠ some id

theorem heldBy_eq_ncard (h : MutexInv ceiling w) (v : V) :
    w.heldBy ceiling v = Set.ncard {id | (w.mutexes id).holder = some v} := by
  have himage : {id | (w.mutexes id).holder = some v} =
      ((Finset.univ.filter fun i : Fin ceiling => (w.mutexes i).holder = some v).map
        Fin.valEmbedding : Set Nat) := by
    ext id
    rw [Set.mem_ofPred_eq, Finset.mem_coe, Finset.mem_map]
    constructor
    · intro hid
      have hlt := h.active_lt id (h.holder_active v id hid)
      exact ⟨⟨id, Nat.lt_of_lt_of_le hlt h.count_le⟩,
        Finset.mem_filter.mpr ⟨Finset.mem_univ _, hid⟩, rfl⟩
    · rintro ⟨i, hi, rfl⟩
      exact (Finset.mem_filter.mp hi).2
  rw [himage, Set.ncard_coe_finset, Finset.card_map]
  rfl

theorem MutexInv.stateOk (h : MutexInv ceiling w) : MutexStateOk w where
  live v id hid := by
    have hactive : (w.mutexes id).active = true :=
      hid.elim (h.holder_active v id) (h.using_active v id)
    exact ⟨hactive, h.active_lt id hactive⟩
  depth id := by
    cases hholder : (w.mutexes id).holder with
    | none =>
      rw [h.depth_free id hholder]
      exact ⟨nofun, fun hc => absurd rfl hc⟩
    | some v => exact ⟨fun _ => nofun, fun _ => (h.depth_held v id hholder).1⟩
  held v hv := by
    rw [h.held v hv, heldBy_eq_ncard h]
  ended := h.ended

theorem MutexInv.stepOk {w' : MutexWorld V} {e : MutexEvent V} (h : MutexInv ceiling w)
    (hstep : SafeMutexStep ceiling w e w') : MutexStepOk w e w' := by
  obtain ⟨id, m, hmutexes, hchange⟩ := step_slot h hstep.1 hstep.2
  have hself : w'.mutexes id = m := by
    rw [show w'.mutexes = _ from hmutexes, update_self]
  have hother : ∀ j, j ≠ id → w'.mutexes j = w.mutexes j := fun j hj => by
    rw [show w'.mutexes = _ from hmutexes, update_of_ne hj]
  refine ⟨fun j hj => ?_, fun j hj hj' => ?_, fun v j he => ?_⟩
  · by_cases hid : j = id
    · rw [hid] at hj ⊢
      rw [hself] at hj
      cases hchange with
      | kept hevent hactive hdepth => omega
      | @lowered v hevent hactive hholder => exact ⟨v, hholder, hevent⟩
      | created hevent hinactive hactive hdepth =>
        rw [h.depth_free id (h.inactive hinactive).1] at hj
        omega
      | destroyed hevent hmark hdepth => omega
    · rw [hother j hid] at hj
      exact absurd hj (Int.lt_irrefl _)
  · by_cases hid : j = id
    · rw [hid] at hj hj' ⊢
      rw [hself] at hj'
      cases hchange with
      | kept hevent hactive hdepth => exact absurd (hj'.symm.trans (hactive.trans hj)) (by decide)
      | lowered hevent hactive hholder =>
        exact absurd (hj'.symm.trans (hactive.trans hj)) (by decide)
      | created hevent hinactive hactive hdepth =>
        exact absurd (hj'.symm.trans hactive) (by decide)
      | @destroyed v hevent hmark hdepth =>
        obtain ⟨hholder, hzero⟩ := h.marked v id hmark
        exact ⟨hholder, count_eq_zero.mp ((h.users id).symm.trans hzero)⟩
    · rw [hother j hid] at hj'
      exact absurd (hj'.symm.trans hj) (by decide)
  · subst he
    cases hchange with
    | kept hevent hactive hdepth => exact absurd rfl (hevent v j).1
    | lowered hevent hactive hholder => rcases hevent with hc | hc <;> cases hc
    | created hevent hinactive hactive hdepth =>
      cases hevent
      exact h.inactive hinactive
    | destroyed hevent hmark hdepth => cases hevent

/-- the VM can lock its recursive mutex `0` again, which is at depth `d` -/
structure Relockable (w : MutexWorld Unit) (d : Int) : Prop where
  phase : w.phase () = .idle
  registry : w.registryLock = none
  lookup : w.lookup 0 = some 0
  recursive : (w.mutexes 0).recursive = true
  holder : (w.mutexes 0).holder = some ()
  depth : (w.mutexes 0).depth = d

theorem first_lock : ∃ tr w, Run (MutexStep 1) (.start fun _ : Unit => true) tr w ∧
    Relockable w 1 :=
  ⟨_, _, .cons (.create (v := ()) rfl rfl true true true) <| .cons (.lock (v := ()) rfl rfl 0) <|
    .cons (@MutexStep.section _ _ _ _ () false false _ rfl) <|
    .cons (@MutexStep.section _ _ _ _ () false false _ rfl) .start,
    { phase := rfl, registry := rfl, lookup := rfl, recursive := rfl, holder := rfl, depth := rfl }⟩

theorem relock_run {w : MutexWorld Unit} {d : Int} (h : Relockable w d) :
    ∃ tr w', Run (MutexStep 1) w tr w' ∧ Relockable w' ((d + 1).bmod (2 ^ 32)) := by
  let m := w.mutexes 0
  let w₁ : MutexWorld Unit := (w.beginUse () 0 MutexPhase.lockUse).1
  have hw₁ : w₁ = (w.setMutex 0 { m with users := m.users + 1 }).setPhase () (.lockUse 0) := by
    show (w.beginUse () 0 MutexPhase.lockUse).1 = _
    rw [beginUse, h.lookup]
  have hm₁ : w₁.mutexes 0 = { m with users := m.users + 1 } := by
    rw [hw₁]
    exact mutexes_setMutex_self w 0 _
  have hsection₁ : w₁.section? () false false = some (w₁.lockGuarded () 0) := by
    have hphase : w₁.phase () = .lockUse 0 := by
      rw [hw₁]
      exact phase_setPhase_self ..
    rw [section?, hphase]
  let w₂ : MutexWorld Unit := (w₁.lockGuarded () 0).1
  have hw₂ : w₂ = (w₁.setMutex 0 { m with
      users := m.users + 1, depth := (d + 1).bmod (2 ^ 32) }).setPhase () (.endUse 0) := by
    show (w₁.lockGuarded () 0).1 = _
    rw [lockGuarded, hm₁, if_pos (show m.holder = some () from h.holder),
      if_pos (show m.recursive = true from h.recursive), show m.depth = d from h.depth]
  have hsection₂ : w₂.section? () false false = some (w₂.endUse () 0) := by
    have hphase : w₂.phase () = .endUse 0 := by
      rw [hw₂]
      exact phase_setPhase_self ..
    rw [section?, hphase]
  have hm₃ : (w₂.endUse () 0).1.mutexes 0 = { m with depth := (d + 1).bmod (2 ^ 32) } := by
    have hm₂ : w₂.mutexes 0 = { m with
        users := m.users + 1, depth := (d + 1).bmod (2 ^ 32) } := by
      rw [hw₂]
      exact mutexes_setMutex_self w₁ 0 _
    refine (mutexes_setMutex_self w₂ 0 _).trans ?_
    rw [hm₂]
    rfl
  refine ⟨_, _, .cons (.lock h.phase h.registry 0) <| .cons (.section hsection₁) <|
    .cons (.section hsection₂) .start, ?_⟩
  have hcount : (w₂.endUse () 0).1.mutexCount = w.mutexCount := by
    show w₂.mutexCount = _
    rw [hw₂]
    show w₁.mutexCount = _
    rw [hw₁]
    rfl
  have hlock : (w₂.endUse () 0).1.registryLock = w.registryLock := by
    show w₂.registryLock = _
    rw [hw₂]
    show w₁.registryLock = _
    rw [hw₁]
    rfl
  have hlookup := h.lookup
  exact
    { phase := phase_setPhase_self ..
      registry := hlock.trans h.registry
      lookup := by
        have hactive : ((w₂.endUse () 0).1.mutexes 0).active = (w.mutexes 0).active := by
          rw [hm₃]
        rw [lookup] at hlookup ⊢
        rw [hcount]
        simp only [Int.toNat_zero, hactive] at hlookup ⊢
        exact hlookup
      recursive := by
        rw [hm₃]
        exact h.recursive
      holder := by
        rw [hm₃]
        exact h.holder
      depth := by rw [hm₃] }

theorem relock_runs (n : Nat) : ∃ tr w, Run (MutexStep 1) (.start fun _ : Unit => true) tr w ∧
    Relockable w ((1 + n : Int).bmod (2 ^ 32)) := by
  induction n with
  | zero => exact first_lock
  | succ n ih =>
    obtain ⟨tr, w, hrun, hw⟩ := ih
    obtain ⟨tr', w', hrun', hw'⟩ := relock_run hw
    refine ⟨_, w', hrun.trans hrun', ?_⟩
    rw [Int.bmod_add_bmod] at hw'
    rw [Int.natCast_succ, ← Int.add_assoc]
    exact hw'

end Pscal
