import Pscal.VM.ThreadPool

/-!
# Whose result a take delivers

* `slot_run`  a run of the pool is, at each slot, a run of the slot;
* `ResultLog`  the job of a slot, what it stored last and what was taken of it;
* `ResultChange`  what a step does to the result of a slot;
* `ResultInv`  what holds of a slot after every run;
* `taskResults_ok`  a take delivers the job it names, and once.
-/

namespace Pscal

open Transitions List Function Thread

/-! ## a run of the pool at a slot -/

section
variable {C : Type} [DecidableEq C] {n ceiling : Nat}

variable {i : Fin n} {w w' : Pool C n}

theorem PoolEffect.threads {e : SlotEvent C} (h : PoolEffect ceiling w i e w') :
    w'.threads = w.threads := by
  cases h <;> rfl

def AnyThreadStep (t : Thread C) (e : SlotEvent C) (t' : Thread C) : Prop :=
  ∃ sd, ThreadStep sd t e t'

theorem step_slot_self {e : SlotEvent C} (h : PoolStep ceiling w (.slot i e) w') :
    ThreadStep w.shuttingDownWorkers (w.threads i) e (w'.threads i) := by
  cases h with
  | slot hstep heffect =>
    rename_i w₁ t
    rwa [Pool.threads_setThread, if_pos rfl]

theorem step_slot_other {e : PoolEvent C n} (h : PoolStep ceiling w e w') (he : e.at i = none) :
    w'.threads i = w.threads i := by
  cases h with
  | slot hstep heffect =>
    rename_i w₁ j e t
    by_cases hij : j = i
    · rw [PoolEvent.at, if_pos hij] at he
      cases he
    · rw [Pool.threads_setThread, if_neg fun hc => hij hc.symm, heffect.threads]
  | spawn | refuse | full | toQueue | pushFail | push | assigned | takeBack | consume | take
  | shutdown | queueShutdown => rfl

theorem step_slot_at {e : PoolEvent C n} {e' : SlotEvent C} (h : PoolStep ceiling w e w')
    (he : e.at i = some e') : AnyThreadStep (w.threads i) e' (w'.threads i) := by
  cases e with
  | slot j e'' =>
    rw [PoolEvent.at] at he
    split at he
    · rename_i hij
      cases he
      cases hij
      exact ⟨w.shuttingDownWorkers, step_slot_self h⟩
    · cases he
  | queued | spawned | moved => cases he

theorem slot_run {w₀ : Pool C n} {tr : List (PoolEvent C n)} (h : Run (PoolStep ceiling) w₀ tr w)
    (i : Fin n) : Run AnyThreadStep (w₀.threads i) (slotTrace i tr) (w.threads i) :=
  h.project (fun w => w.threads i) (PoolEvent.at i) step_slot_at step_slot_other

end

/-! ## the history of a result -/

structure ResultLog where
  job : Option (Nat × Nat) := none
  /-- the value and the status that it stored last -/
  stored : Option (Option Value × Bool) := none
  valueTaken : Bool := false
  /-- a take that names the generation has delivered -/
  taken : Bool := false

variable {C : Type}

def ResultLog.next (log : ResultLog) : SlotEvent C → ResultLog
  | .picked j generation => { job := some (j, generation) }
  | .stored _ result success => { log with stored := some (result, success), valueTaken := false }
  | .taken _ args _ _ _ =>
    { log with
      valueTaken := log.valueTaken || args.takeValue, taken := log.taken || args.generation != 0 }
  | _ => log

def resultLog (tr : List (SlotEvent C)) : ResultLog := tr.foldl ResultLog.next {}

theorem resultLog_snoc (tr : List (SlotEvent C)) (e : SlotEvent C) :
    resultLog (tr ++ [e]) = (resultLog tr).next e := by
  rw [resultLog, foldl_append]
  rfl

/-! ## the stages of a worker -/

inductive Stage where
  | fresh
  /-- from the start of a job until the slot is published -/
  | working
  | finished
deriving DecidableEq

def WorkerPhase.stage : WorkerPhase → Stage
  | .prepare _ | .signal .. | .unprepared _ | .awaitResume _ | .startCheck _ | .code .. | .store ..
  | .ran .. | .ranStore .. | .ranStopped _ | .awaitConsumed _ | .park => .working
  | .parked | .leave _ | .exitRegistry | .exitVm | .exitReset => .finished
  | _ => .fresh

def WorkerPhase.job : WorkerPhase → Option Nat
  | .flags j | .prepare j | .signal j _ | .unprepared j | .awaitResume j | .startCheck j | .code j _
  | .store j _ _ _ | .ran j _ | .ranStore j _ | .ranStopped j | .awaitConsumed j => some j
  | _ => none

def SlotEvent.quiet : SlotEvent C → Bool
  | .picked .. | .stored .. | .taken .. => false
  | _ => true

variable {e : SlotEvent C} {log : ResultLog} {t t' : Thread C} {sd : Bool} {j : Nat}
  {tr : List (SlotEvent C)}

theorem next_quiet (h : e.quiet = true) : log.next e = log := by
  cases e <;> first | rfl | cases h

/-- the status and the value, and the generation they are under -/
def Thread.result (t : Thread C) : Nat × Bool × Bool × Bool × Value :=
  (t.jobGeneration, t.statusReady, t.statusFlag, t.resultReady, t.resultValue)

inductive ResultChange (t : Thread C) : SlotEvent C → Thread C → Prop where
  | same {e : SlotEvent C} {t' : Thread C} (he : e.quiet = true) (hresult : t'.result = t.result)
      (hmutex : t'.resultMutex = t.resultMutex) (hactive : t'.active = t.active)
      (hawaiting : t'.awaitingReuse = t.awaitingReuse) (hstage : t'.worker.stage = t.worker.stage)
      (hjob : t'.worker.job = t.worker.job ∨ t'.worker.job = none) : ResultChange t e t'
  | fresh {e : SlotEvent C} {t' : Thread C} (he : e.quiet = true) (hresult : t'.result = t.result)
      (hmutex : t'.resultMutex = t.resultMutex)
      (hawaiting : t'.awaitingReuse = t.awaitingReuse ∨ t'.awaitingReuse = false)
      (hstage : t.worker.stage = .fresh) (hstage' : t'.worker.stage = .fresh)
      (hjob : t'.worker.job = none) : ResultChange t e t'
  | begun {e : SlotEvent C} {t' : Thread C} {j : Nat} (he : e.quiet = true)
      (hresult : t'.result = t.result) (hmutex : t'.resultMutex = t.resultMutex)
      (hawaiting : t'.awaitingReuse = t.awaitingReuse) (hworker : t.worker = .flags j)
      (hworker' : t'.worker = .prepare j) (hactive : t'.active = true) : ResultChange t e t'
  | finished {e : SlotEvent C} {t' : Thread C} (he : e.quiet = true)
      (hresult : t'.result = t.result) (hmutex : t'.resultMutex = t.resultMutex)
      (hstage : t'.worker.stage = .finished) : ResultChange t e t'
  | reset {e : SlotEvent C} {t' : Thread C} (he : e.quiet = true)
      (hgeneration : t'.jobGeneration = t.jobGeneration) (hstatus : t'.statusReady = false)
      (hvalue : t'.resultReady = false)
      (hawaiting : t'.awaitingReuse = false) (hmutex : t'.resultMutex = .free)
      (hstage : t'.worker.stage = .fresh ∧ t'.worker.job = none ∨
        t'.worker = t.worker ∧ t'.active = t.active) : ResultChange t e t'
  | picked {t' : Thread C} {j generation : Nat} (hworker : t.worker = .generation j)
      (hworker' : t'.worker = .flags j) (hgeneration : t'.jobGeneration = generation)
      (hstatus : t'.statusReady = t.statusReady) (hvalue : t'.resultReady = t.resultReady)
      (hawaiting : t'.awaitingReuse = t.awaitingReuse) :
      ResultChange t (.picked j generation) t'
  | stored {t' : Thread C} {j : Nat} {result : Option Value} {success : Bool}
      (hworker : t.worker.job = some j) (hstage : t.worker.stage = .working)
      (hstage' : t'.worker.stage = .working) (hjob : t'.worker.job = some j)
      (hactive : t'.active = t.active) (hawaiting : t'.awaitingReuse = t.awaitingReuse)
      (hresult : t'.result =
        (t.jobGeneration, true, success, result.isSome, result.getD makeNil))
      (hmutex : t'.resultMutex = .free) : ResultChange t (.stored j result success) t'
  | taken {c : C} {args : TakeArgs} (hmutex : t.resultMutex = .matched c args)
      (hfinished : t.vmThreadJobFinishedLocked = true) :
      ResultChange t (.taken c args (t.takenValue args) t.statusFlag (t.takeResult args).2)
        { (t.takeResult args).1 with resultMutex := .free }
  | mutex {e : SlotEvent C} {m : ResultMutex C} (he : e.quiet = true)
      (hm : ∀ c args, m = .matched c args → t.holdsGeneration args.generation = true) :
      ResultChange t e { t with resultMutex := m }

theorem codeStep_result (h : CodeStep t e t') : ResultChange t e t' := by
  cases h with
  | nativeStore h hfree value success =>
    rename_i j
    have hjob : t.worker.job = some j := by
      rw [h]
      rfl
    have hstage : t.worker.stage = .working := by
      rw [h]
      rfl
    exact .stored hjob hstage hstage hjob rfl rfl rfl hfree
  | poll h => exact .same rfl rfl rfl rfl rfl rfl (.inl rfl)
  | nativeFail h => exact .same rfl rfl rfl rfl rfl rfl (.inl rfl)
  | loop h hvm attention =>
    refine .same rfl rfl rfl rfl rfl ?_ (.inl ?_) <;> rw [h] <;> dsimp only <;> split <;> rfl
  | rearm h =>
    refine .same rfl ?_ ?_ ?_ ?_ ?_ (.inl ?_)
    · dsimp only [result]
      split <;> rfl
    · dsimp only
      split <;> rfl
    · dsimp only
      split <;> rfl
    · dsimp only
      split <;> rfl
    · rw [h]
      rfl
    · rw [h]
      rfl
  | exitCheck h hvm hflags hstop defer =>
    refine .same rfl rfl rfl rfl rfl ?_ (.inl ?_) <;> rw [h] <;> cases defer <;> rfl
  | fail h returns =>
    refine .same rfl rfl rfl rfl rfl ?_ (.inl ?_) <;> rw [h] <;> cases returns <;> rfl
  | unwindHalt h result =>
    refine .same rfl rfl rfl rfl rfl ?_ (.inl ?_) <;> rw [h] <;> cases result <;> rfl
  | finish h result =>
    refine .same rfl rfl rfl rfl rfl ?_ (.inl ?_) <;> rw [h] <;> cases result <;> rfl
  | callbackDone h | builtinDone h | entry h | interruptStop h | interrupt h | errorReturn h
  | errorCheck h | exitStop h | fetch h | unwindFail h | unwind h | done h | exit h | readKey h
  | abortKey h | recover h | waitStop h | nested h =>
    exact .same rfl rfl rfl rfl rfl (by rw [h]; rfl) (.inl (by rw [h]; rfl))

theorem workerStep_result (h : WorkerStep sd t e t') : ResultChange t e t' := by
  cases h with
  | topExit h => exact .finished rfl rfl rfl rfl
  | topExitJob h | top h | topJob h | announce h | popNone h | pop h | exitJob h =>
    exact .fresh rfl rfl rfl (.inl rfl) (by rw [h]; rfl) rfl rfl
  | unidle h =>
    rename_i job
    cases job with
    | none => exact .finished rfl rfl rfl rfl
    | some j => exact .fresh rfl rfl rfl (.inl rfl) (by rw [h]; rfl) rfl rfl
  | reset h hfree => exact .reset rfl rfl rfl rfl rfl hfree (.inl ⟨rfl, rfl⟩)
  | generation h => exact .picked h rfl rfl rfl rfl rfl
  | flags h => exact .begun rfl rfl rfl rfl h rfl rfl
  | prepare h | prepareFail h | awaitResume h | startStop h | startShutdown h =>
    exact .same rfl rfl rfl rfl rfl (by rw [h]; rfl) (.inl (by rw [h]; rfl))
  | signal h =>
    rename_i prepared
    refine .same rfl rfl rfl rfl rfl ?_ (.inl ?_) <;> rw [h] <;> cases prepared <;> rfl
  | start h hstop hsd bytecode =>
    refine .same rfl rfl rfl rfl rfl ?_ (.inl ?_) <;> rw [h] <;> cases bytecode <;> rfl
  | unprepared h hfree | ranStopped h hfree | store h hfree =>
    exact .stored (by rw [h]; rfl) (by rw [h]; rfl) rfl rfl rfl rfl rfl hfree
  | ran h hfree =>
    refine .same rfl rfl rfl rfl rfl ?_ (.inl ?_) <;> rw [h] <;> dsimp only <;> split <;>
      first | rfl | (split <;> rfl)
  | ranStore h hfree =>
    rename_i stopped
    refine .stored (by rw [h]; rfl) (by rw [h]; rfl) ?_ ?_ rfl rfl rfl hfree <;>
      cases stopped <;> rfl
  | awaitConsumed h => exact .same rfl rfl rfl rfl rfl (by rw [h]; rfl) (.inr rfl)
  | park h hfree | leave h | leaveExit h | leaveAwaiting h | exitConsumed h | exitRegistry h
  | exitVm h => exact .finished rfl rfl rfl rfl
  | leaveReset h hfree | exitReset h hfree => exact .reset rfl rfl rfl rfl rfl hfree (.inl ⟨rfl, rfl⟩)
  | exitPool h => exact .fresh rfl rfl rfl (.inl rfl) (by rw [h]; rfl) rfl rfl

theorem callerStep_result (h : CallerStep sd t e t') : ResultChange t e t' := by
  cases h with
  | claim h | claimClear h | create h | abandon h =>
    exact .fresh rfl rfl rfl (by first | exact .inl rfl | exact .inr rfl) (by rw [h]; rfl) rfl rfl
  | abandonReset hfree c => exact .reset rfl rfl rfl rfl rfl hfree (.inr ⟨rfl, rfl⟩)
  | abandonClear c | joinRead hfree c | interruptCancel hsd | pause hpool =>
    exact .same rfl rfl rfl rfl rfl rfl (.inl rfl)
  | lock hfree c args => exact .mutex rfl nofun
  | generationMatches h hgen =>
    refine .mutex rfl fun c args hm => ?_
    cases hm
    exact hgen
  | generationDiffers h hgen => exact .mutex rfl nofun
  | unfinished h hfinished => exact .mutex rfl nofun
  | take h hfinished => exact .taken h hfinished
  | release hstate hfree c generation =>
    rw [releaseForReuse]
    split <;> exact .same rfl rfl rfl rfl rfl rfl (.inl rfl)
  | stopJob hstate hfree hpool hjob c hgen kill =>
    rw [stopJob, vmThreadRequestStopLocked]
    split
    · exact .same rfl rfl rfl rfl rfl rfl (.inl rfl)
    · cases kill <;> dsimp only <;> split <;> exact .same rfl rfl rfl rfl rfl rfl (.inl rfl)
  | interruptKill hsd hstate =>
    rw [vmThreadRequestStopLocked]
    split <;> exact .same rfl rfl rfl rfl rfl rfl (.inl rfl)

theorem threadStep_result (h : ThreadStep sd t e t') : ResultChange t e t' := by
  cases h with
  | code h => exact codeStep_result h
  | worker h => exact workerStep_result h
  | caller h => exact callerStep_result h

/-! ## what holds of a slot -/

/-- a status that stands is that of the last store, and the value is there unless it was taken -/
structure ResultStands (log : ResultLog) (t : Thread C) : Prop where
  stage : t.worker.stage ≠ .fresh
  untaken : log.taken = false
  job : log.job.isSome = true
  stored : ∃ result, log.stored = some (result, t.statusFlag) ∧
    if t.resultReady then result = some t.resultValue ∧ log.valueTaken = false
    else result = none ∨ log.valueTaken = true

structure ResultInv (log : ResultLog) (t : Thread C) : Prop where
  generation : ∀ j g, log.job = some (j, g) → g = t.jobGeneration
  job : ∀ j, t.worker.job = some j →
    log.job = some (j, t.jobGeneration) ∧ log.taken = false
  park : t.worker = .park → log.taken = false
  working : t.worker.stage = .working → t.active = true
  awaiting : t.awaitingReuse = true → t.worker.stage = .finished
  ready : t.statusReady = true → ResultStands log t
  value : t.resultReady = true → t.statusReady = true
  matched : ∀ c args, t.resultMutex = .matched c args → args.generation ≠ 0 →
    t.jobGeneration = args.generation ∨ t.statusReady = false

theorem resultInv_start : ResultInv {} ({} : Thread C) where
  generation := nofun
  job := nofun
  park := nofun
  working := nofun
  awaiting := nofun
  ready := nofun
  value := nofun
  matched := nofun

theorem stage_of_job {p : WorkerPhase} (h : p.job = some j) :
    p = .flags j ∨ p.stage = .working := by
  cases p <;> first | (cases h; exact .inl rfl) | exact .inr rfl | cases h

theorem park_of_working {p : WorkerPhase} (hstage : p.stage = .working) (hjob : p.job = none) :
    p = .park := by
  cases p <;> first | rfl | (cases hjob; done) | cases hstage

theorem untaken_of_working (h : ResultInv log t) (hstage : t.worker.stage = .working) :
    log.taken = false := by
  cases hjob : t.worker.job with
  | some j => exact (h.job j hjob).2
  | none => exact h.park (park_of_working hstage hjob)

section
variable {log : ResultLog} {t t' : Thread C}

theorem ResultStands.congr (h : ResultStands log t) (hresult : t'.result = t.result)
    (hstage : t'.worker.stage ≠ .fresh) : ResultStands log t' := by
  simp only [result, Prod.mk.injEq] at hresult
  obtain ⟨-, -, hflag, hready, hvalue⟩ := hresult
  obtain ⟨result, hstored, hvalues⟩ := h.stored
  refine ⟨hstage, h.untaken, h.job, result, by rw [hflag, hstored], ?_⟩
  rw [hready, hvalue]
  exact hvalues

theorem status_of_fresh (h : ResultInv log t) (hstage : t.worker.stage = .fresh) :
    t.statusReady = false := by
  cases hready : t.statusReady with
  | false => rfl
  | true => exact absurd hstage (h.ready hready).stage

theorem stage_of_finished (h : ResultInv log t) (hfinished : t.vmThreadJobFinishedLocked = true) :
    t.statusReady = true ∧ t.worker.stage = .finished := by
  rw [vmThreadJobFinishedLocked, Bool.and_eq_true, Bool.or_eq_true, Bool.not_eq_true'] at hfinished
  obtain ⟨hready, hdone⟩ := hfinished
  refine ⟨hready, ?_⟩
  rcases hdone with hawaiting | hactive
  · exact h.awaiting hawaiting
  · cases hstage : t.worker.stage with
    | fresh => exact absurd hstage (h.ready hready).stage
    | working => exact absurd ((h.working hstage).symm.trans hactive) (by decide)
    | finished => rfl

end

/-! ## one take -/

section
variable (t : Thread C) (args : TakeArgs)

theorem takeResult_kept : (t.takeResult args).1.worker = t.worker ∧
    (t.takeResult args).1.jobGeneration = t.jobGeneration ∧
    (t.takeResult args).1.statusFlag = t.statusFlag := by
  rw [takeResult]
  split <;> exact ⟨rfl, rfl, rfl⟩

theorem takeResult_both (hvalue : args.takeValue = true) (hstatus : args.takeStatus = true) :
    (t.takeResult args).1.statusReady = false := by
  have hready : (t.consume args).resultReady = false := by
    show (t.resultReady && !args.takeValue) = false
    rw [hvalue, Bool.not_true, Bool.and_false]
  have hconsumed : (t.consume args).statusConsumed = true := by
    show (t.statusConsumed || args.takeStatus) = true
    rw [hstatus, Bool.or_true]
  rw [takeResult, if_pos ⟨hconsumed, .inl hready⟩]
  rfl

theorem takeResult_stands (h : (t.takeResult args).1.statusReady = true) :
    (t.takeResult args).1 = t.consume args := by
  rw [takeResult] at h ⊢
  split at h
  · cases h
  · rename_i hnot
    rw [if_neg hnot]

theorem takeResult_value (h : t.resultReady = true → t.statusReady = true)
    (hready : (t.takeResult args).1.resultReady = true) :
    (t.takeResult args).1.statusReady = true := by
  rw [takeResult] at hready ⊢
  split at hready
  · cases hready
  · rename_i hnot
    rw [if_neg hnot]
    have hboth : (t.resultReady && !args.takeValue) = true := hready
    rw [Bool.and_eq_true] at hboth
    exact h hboth.1

end

/-! ## the steps of a slot -/

section
variable {log : ResultLog} {t t' : Thread C} {e : SlotEvent C}

theorem resultInv_taken (h : ResultInv log t) {c : C} {args : TakeArgs}
    (hfinished : t.vmThreadJobFinishedLocked = true) :
    ResultInv (log.next (.taken c args (t.takenValue args) t.statusFlag (t.takeResult args).2))
      ({ (t.takeResult args).1 with resultMutex := .free } : Thread C) := by
  obtain ⟨hworker, hgeneration, hflag⟩ := takeResult_kept t args
  obtain ⟨hready, hstage⟩ := stage_of_finished h hfinished
  have hnojob : t.worker.job = none := by
    cases hjob : t.worker.job with
    | none => rfl
    | some j =>
      rcases stage_of_job hjob with hc | hc
      · rw [hc] at hstage
        cases hstage
      · rw [hc] at hstage
        cases hstage
  refine
    { generation := fun j g hg => (h.generation j g hg).trans hgeneration.symm
      job := fun j hj => ?_
      park := fun hp => ?_
      working := fun hs => ?_
      awaiting := fun _ => by
        show WorkerPhase.stage (t.takeResult args).1.worker = _
        rw [hworker, hstage]
      ready := fun hr => ?_
      value := fun hv => takeResult_value t args (h.value) hv
      matched := nofun }
  · rw [show (t.takeResult args).1.worker.job = t.worker.job by rw [hworker], hnojob] at hj
    cases hj
  · rw [show (t.takeResult args).1.worker = .park from hp] at hworker
    rw [← hworker] at hstage
    cases hstage
  · rw [show (t.takeResult args).1.worker.stage = t.worker.stage by rw [hworker], hstage] at hs
    cases hs
  · have hr' : (t.takeResult args).1.statusReady = true := hr
    have hstands := takeResult_stands t args hr'
    have hany : args.generation = 0 := by
      by_contra hne
      obtain ⟨hvalue, hstatus⟩ := args.task hne
      rw [takeResult_both t args hvalue hstatus] at hr'
      cases hr'
    obtain ⟨-, huntaken, hjob, result, hstored, hvalues⟩ := h.ready hready
    refine
      { stage := fun hs => ?_
        untaken := by
          show (log.taken || args.generation != 0) = false
          rw [huntaken, hany]
          rfl
        job := hjob
        stored := ⟨result, by rw [show (log.next _).stored = log.stored from rfl, hstored, ← hflag], ?_⟩ }
    · rw [show (t.takeResult args).1.worker.stage = t.worker.stage by rw [hworker], hstage] at hs
      cases hs
    · show if (t.takeResult args).1.resultReady then
          result = some (t.takeResult args).1.resultValue ∧ (log.valueTaken || args.takeValue) = false
        else result = none ∨ (log.valueTaken || args.takeValue) = true
      have hready' : (t.consume args).resultReady = (t.resultReady && !args.takeValue) := rfl
      have hvalue' : (t.consume args).resultValue =
          if args.takeValue && t.resultReady then makeNil else t.resultValue := rfl
      rw [hstands, hready', hvalue']
      cases args.takeValue with
      | true =>
        rw [Bool.not_true, Bool.and_false, Bool.or_true, if_neg Bool.false_ne_true]
        exact .inr rfl
      | false =>
        rw [Bool.not_false, Bool.and_true, Bool.or_false, Bool.false_and, if_neg Bool.false_ne_true]
        exact hvalues

theorem resultInv_change (h : ResultInv log t) (hchange : ResultChange t e t') :
    ResultInv (log.next e) t' := by
  cases hchange with
  | same he hresult hmutex hactive hawaiting hstage hjob =>
    rw [next_quiet he]
    have hresult' := hresult
    simp only [result, Prod.mk.injEq] at hresult'
    obtain ⟨hgeneration, hstatus, -, hready, -⟩ := hresult'
    refine
      { generation := fun j g hg => (h.generation j g hg).trans hgeneration.symm
        job := fun j hj => ?_
        park := fun hp => ?_
        working := fun hs => hactive.trans (h.working (hstage.symm.trans hs))
        awaiting := fun ha => hstage.trans (h.awaiting (hawaiting.symm.trans ha))
        ready := fun hr => ?_
        value := fun hv => hstatus.trans (h.value (hready.symm.trans hv))
        matched := fun c args hm hne => ?_ }
    · rcases hjob with hc | hc
      · rw [hgeneration]
        exact h.job j (hc.symm.trans hj)
      · rw [hc] at hj
        cases hj
    · exact untaken_of_working h (hstage.symm.trans (by rw [hp]; rfl))
    · have hstands := h.ready (hstatus.symm.trans hr)
      exact hstands.congr hresult (hstage ▸ hstands.stage)
    · rw [hgeneration, hstatus]
      exact h.matched c args (hmutex.symm.trans hm) hne
  | fresh he hresult hmutex hawaiting hstage hstage' hjob =>
    rw [next_quiet he]
    have hready := status_of_fresh h hstage
    simp only [result, Prod.mk.injEq] at hresult
    obtain ⟨hgeneration, hstatus, -, hvalue, -⟩ := hresult
    refine
      { generation := fun j g hg => (h.generation j g hg).trans hgeneration.symm
        job := fun j hj => by rw [hjob] at hj; cases hj
        park := fun hp => by rw [hp] at hstage'; cases hstage'
        working := fun hs => by rw [hs] at hstage'; cases hstage'
        awaiting := fun ha => ?_
        ready := fun hr => by rw [hstatus, hready] at hr; cases hr
        value := fun hv => hstatus.trans (h.value (hvalue.symm.trans hv))
        matched := fun c args hm hne => .inr (hstatus.trans hready) }
    rcases hawaiting with hc | hc
    · have hfinished := h.awaiting (hc.symm.trans ha)
      rw [hstage] at hfinished
      cases hfinished
    · rw [hc] at ha
      cases ha
  | @begun _ _ j he hresult hmutex hawaiting hworker hworker' hactive =>
    rw [next_quiet he]
    have hready := status_of_fresh h (by rw [hworker]; rfl)
    simp only [result, Prod.mk.injEq] at hresult
    obtain ⟨hgeneration, hstatus, -, hvalue, -⟩ := hresult
    refine
      { generation := fun j g hg => (h.generation j g hg).trans hgeneration.symm
        job := fun k hk => ?_
        park := fun hp => by rw [hp] at hworker'; cases hworker'
        working := fun _ => hactive
        awaiting := fun ha => ?_
        ready := fun hr => by rw [hstatus, hready] at hr; cases hr
        value := fun hv => hstatus.trans (h.value (hvalue.symm.trans hv))
        matched := fun c args hm hne => .inr (hstatus.trans hready) }
    · rw [hworker'] at hk
      cases hk
      rw [hgeneration]
      exact h.job j (by rw [hworker]; rfl)
    · have hfinished := h.awaiting (hawaiting.symm.trans ha)
      rw [hworker] at hfinished
      cases hfinished
  | finished he hresult hmutex hstage =>
    rw [next_quiet he]
    have hresult' := hresult
    simp only [result, Prod.mk.injEq] at hresult'
    obtain ⟨hgeneration, hstatus, -, hready, -⟩ := hresult'
    refine
      { generation := fun j g hg => (h.generation j g hg).trans hgeneration.symm
        job := fun j hj => ?_
        park := fun hp => by rw [hp] at hstage; cases hstage
        working := fun hs => by rw [hs] at hstage; cases hstage
        awaiting := fun _ => hstage
        ready := fun hr => ?_
        value := fun hv => hstatus.trans (h.value (hready.symm.trans hv))
        matched := fun c args hm hne => ?_ }
    · rcases stage_of_job hj with hc | hc
      · rw [hc] at hstage
        cases hstage
      · rw [hc] at hstage
        cases hstage
    · exact (h.ready (hstatus.symm.trans hr)).congr hresult (by rw [hstage]; nofun)
    · rw [hgeneration, hstatus]
      exact h.matched c args (hmutex.symm.trans hm) hne
  | reset he hgeneration hstatus hvalue hawaiting hmutex hstage =>
    rw [next_quiet he]
    refine
      { generation := fun j g hg => (h.generation j g hg).trans hgeneration.symm
        job := fun j hj => ?_
        park := fun hp => ?_
        working := fun hs => ?_
        awaiting := fun ha => by rw [hawaiting] at ha; cases ha
        ready := fun hr => by rw [hstatus] at hr; cases hr
        value := fun hv => by rw [hvalue] at hv; cases hv
        matched := fun c args hm hne => .inr hstatus }
    · rcases hstage with ⟨-, hc⟩ | ⟨hc, -⟩
      · rw [hc] at hj
        cases hj
      · rw [hgeneration]
        exact h.job j (hc ▸ hj)
    · rcases hstage with ⟨hc, -⟩ | ⟨hc, -⟩
      · rw [hp] at hc
        cases hc
      · exact h.park (hc.symm.trans hp)
    · rcases hstage with ⟨hc, -⟩ | ⟨hc, hactive⟩
      · rw [hs] at hc
        cases hc
      · exact hactive.trans (h.working (hc ▸ hs))
  | @picked _ j generation hworker hworker' hgeneration hstatus hvalue hawaiting =>
    have hready := status_of_fresh h (by rw [hworker]; rfl)
    refine
      { generation := fun k g hg => by cases hg; exact hgeneration.symm
        job := fun k hk => ?_
        park := fun hp => by rw [hp] at hworker'; cases hworker'
        working := fun hs => by rw [hworker'] at hs; cases hs
        awaiting := fun ha => ?_
        ready := fun hr => by rw [hstatus, hready] at hr; cases hr
        value := fun hv => hstatus.trans (h.value (hvalue.symm.trans hv))
        matched := fun c args hm hne => .inr (hstatus.trans hready) }
    · rw [hworker'] at hk
      cases hk
      exact ⟨by rw [hgeneration]; rfl, rfl⟩
    · have hfinished := h.awaiting (hawaiting.symm.trans ha)
      rw [hworker] at hfinished
      cases hfinished
  | @stored _ j result success hworker hstage hstage' hjob hactive hawaiting hresult hmutex =>
    simp only [Thread.result, Prod.mk.injEq] at hresult
    obtain ⟨hgeneration, hstatus, hflag, hready, hvalue⟩ := hresult
    obtain ⟨hlog, huntaken⟩ := h.job j hworker
    refine
      { generation := fun k g hg => (h.generation k g hg).trans hgeneration.symm
        job := fun k hk => ?_
        park := fun hp => huntaken
        working := fun _ => hactive.trans (h.working hstage)
        awaiting := fun ha => ?_
        ready := fun _ => ?_
        value := fun _ => hstatus
        matched := fun c args hm hne => by rw [hmutex] at hm; cases hm }
    · rw [hjob] at hk
      cases hk
      rw [hgeneration]
      exact ⟨hlog, huntaken⟩
    · have hfinished := h.awaiting (hawaiting.symm.trans ha)
      rw [hstage] at hfinished
      cases hfinished
    · refine ⟨by rw [hstage']; nofun, huntaken, ?_, result, by rw [hflag]; rfl, ?_⟩
      · show log.job.isSome = true
        rw [hlog]
        rfl
      · rw [hready, hvalue]
        cases result with
        | none => exact .inl rfl
        | some v => exact ⟨rfl, rfl⟩
  | taken hmutex hfinished => exact resultInv_taken h hfinished
  | mutex he hm =>
    rw [next_quiet he]
    refine
      { generation := h.generation, job := h.job, park := h.park, working := h.working
        awaiting := h.awaiting, value := h.value
        ready := fun hr => (h.ready hr).congr rfl (h.ready hr).stage
        matched := fun c args hc hne => ?_ }
    have hgen := hm c args hc
    rw [holdsGeneration, Bool.or_eq_true, beq_iff_eq, beq_iff_eq] at hgen
    exact .inl (hgen.resolve_left hne)

end

/-! ## every run -/

theorem resultInv_run (h : Run AnyThreadStep {} tr t) : ResultInv (resultLog tr) t := by
  refine h.invariant (I := fun tr t => ResultInv (resultLog tr) t) resultInv_start ?_
  rintro tr t e t' hinv ⟨sd, hstep⟩
  rw [resultLog_snoc]
  exact resultInv_change hinv (threadStep_result hstep)

/-- A take that names a generation delivers the status, and the value unless it was taken, that the
job of this generation stored last, and no such take did so before. -/
def TakeOk (log : ResultLog) (args : TakeArgs) (value : Option Value) (status : Bool) : Prop :=
  ∃ j result, log.job = some (j, args.generation) ∧ log.stored = some (result, status) ∧
    log.taken = false ∧ value = if args.wantsResult ∧ log.valueTaken = false then result else none

/-- A store is one of the job of the slot's generation, and so is the value it replaces. -/
def StoreOk (log : ResultLog) (t : Thread C) (j : Nat) : Prop :=
  log.job = some (j, t.jobGeneration) ∧
    (t.resultReady = true → ∃ status, log.stored = some (some t.resultValue, status))

section
variable {log : ResultLog} {t : Thread C}

theorem takeOk_of_inv (h : ResultInv log t) {c : C} {args : TakeArgs}
    (hmutex : t.resultMutex = .matched c args) (hfinished : t.vmThreadJobFinishedLocked = true)
    (hnamed : args.generation ≠ 0) : TakeOk log args (t.takenValue args) t.statusFlag := by
  obtain ⟨hready, -⟩ := stage_of_finished h hfinished
  obtain ⟨-, huntaken, hjob, result, hstored, hvalues⟩ := h.ready hready
  obtain ⟨⟨j, g⟩, hlog⟩ := Option.isSome_iff_exists.mp hjob
  have hgeneration : t.jobGeneration = args.generation :=
    (h.matched c args hmutex hnamed).resolve_right (by rw [hready]; decide)
  refine ⟨j, result, ?_, hstored, huntaken, ?_⟩
  · rw [hlog, h.generation j g hlog, hgeneration]
  · rw [takenValue]
    cases hvalue : t.resultReady with
    | true =>
      rw [hvalue] at hvalues
      obtain ⟨hresult, htaken⟩ := hvalues
      rw [hresult, htaken]
      by_cases hwants : args.wantsResult = true
      · rw [if_pos ⟨hwants, rfl⟩, if_pos ⟨hwants, rfl⟩]
      · rw [if_neg fun hc => hwants hc.1, if_neg fun hc => hwants hc.1]
    | false =>
      rw [hvalue] at hvalues
      rw [if_neg fun hc => Bool.false_ne_true hc.2]
      rcases hvalues with hresult | htaken
      · rw [hresult, ite_self]
      · rw [htaken, if_neg fun hc => Bool.false_ne_true hc.2.symm]

theorem storeOk_of_inv (h : ResultInv log t) {j : Nat} (hworker : t.worker.job = some j) :
    StoreOk log t j := by
  refine ⟨(h.job j hworker).1, fun hvalue => ?_⟩
  obtain ⟨-, -, -, result, hstored, hvalues⟩ := h.ready (h.value hvalue)
  rw [hvalue] at hvalues
  exact ⟨t.statusFlag, by rw [hstored, hvalues.1]⟩

end

/-- a step on a slot whose history is `log` -/
structure ResultStepOk (log : ResultLog) (t : Thread C) (e : SlotEvent C) : Prop where
  taken : ∀ c args value status release, e = .taken c args value status release →
    args.generation ≠ 0 → TakeOk log args value status
  stored : ∀ j result success, e = .stored j result success → StoreOk log t j

theorem resultStepOk_of_change (h : ResultInv log t) (hchange : ResultChange t e t') :
    ResultStepOk log t e := by
  refine ⟨?_, ?_⟩
  · rintro c args value status release rfl hnamed
    cases hchange with
    | taken hmutex hfinished => exact takeOk_of_inv h hmutex hfinished hnamed
    | same he | fresh he | begun he | finished he | reset he | mutex he => cases he
  · rintro j result success rfl
    cases hchange with
    | stored hworker => exact storeOk_of_inv h hworker
    | same he | fresh he | begun he | finished he | reset he | mutex he => cases he

theorem picked_of_job (h : Run AnyThreadStep {} tr t) {g : Nat}
    (hjob : (resultLog tr).job = some (j, g)) : SlotEvent.picked j g ∈ tr := by
  induction h with
  | start => cases hjob
  | @next tr t t' e h hstep ih =>
    rw [resultLog_snoc] at hjob
    rw [mem_append, mem_singleton]
    cases e with
    | picked j' g' =>
      cases hjob
      exact .inr rfl
    | _ => exact .inl (ih hjob)

theorem picked_of_assigned (h : Run AnyThreadStep {} tr t) {g : Nat}
    (hmem : SlotEvent.assigned j g ∈ tr) : SlotEvent.picked j g ∈ tr := by
  obtain ⟨pre, post, rfl⟩ := append_of_mem hmem
  obtain ⟨t₁, t₂, h₁, ⟨sd, hstep⟩, -⟩ := h.at
  refine mem_append_left _ (picked_of_job h₁ ?_)
  cases hstep with
  | code h => cases h
  | caller h => cases h
  | worker h =>
    cases h with
    | signal hw =>
      have hjob := (resultInv_run h₁).job j (by rw [hw]; rfl)
      exact hjob.1

/-! ## the pool -/

section
variable [DecidableEq C] {n ceiling : Nat}

variable {g j : Nat} {i : Fin n} {w : Pool C n} {tr : List (PoolEvent C n)}

theorem PoolEffect.assigned_jobs {w' : Pool C n} {e : SlotEvent C} (h : PoolEffect ceiling w i e w')
    {k : Fin n} (hjob : (w'.jobs j).assigned = some (some (k, g))) :
    (w.jobs j).assigned = some (some (k, g)) ∨ k = i ∧ e = .assigned j g := by
  cases h with
  | assigned j' g' =>
    rw [Pool.jobs_setJob] at hjob
    split at hjob
    · rename_i hj
      cases hjob
      exact .inr ⟨rfl, by rw [hj]⟩
    · exact .inl hjob
  | refused j' =>
    rw [Pool.jobs_setJob] at hjob
    split at hjob
    · cases hjob
    · exact .inl hjob
  | _ => exact .inl hjob

theorem assigned_run {committed : Nat} (h : Run (PoolStep ceiling) (.init committed) tr w)
    (hjob : (w.jobs j).assigned = some (some (i, g))) : .slot i (.assigned j g) ∈ tr := by
  induction h with
  | start => cases hjob
  | @next tr w w' e h hstep ih =>
    rw [mem_append, mem_singleton]
    cases hstep with
    | slot hs heffect =>
      rcases heffect.assigned_jobs hjob with hc | ⟨rfl, rfl⟩
      · exact .inl (ih hc)
      · exact .inr rfl
    | spawn hc submitOnly =>
      have hjob' : ((w.setJob w.nextJob { submitOnly := submitOnly }).jobs j).assigned =
          some (some (i, g)) := hjob
      rw [Pool.jobs_setJob] at hjob'
      split at hjob'
      · cases hjob'
      · exact .inl (ih hjob')
    | @consume c j' a hc ha =>
      have hjob' : ((w.setJob j' { w.jobs j' with assignmentConsumed := true }).jobs j).assigned =
          some (some (i, g)) := hjob
      rw [Pool.jobs_setJob] at hjob'
      split at hjob'
      · rename_i hj
        rw [hj] at ih
        exact .inl (hj ▸ ih hjob')
      · exact .inl (ih hjob')
    | refuse | full | toQueue | pushFail | push | assigned | takeBack | take | shutdown
    | queueShutdown => exact .inl (ih hjob)

omit [DecidableEq C] in
theorem mem_slotTrace {e : SlotEvent C} (h : .slot i e ∈ tr) : e ∈ slotTrace i tr :=
  mem_filterMap.mpr ⟨_, h, if_pos rfl⟩

theorem picked_of_spawned {committed : Nat} (h : Run (PoolStep ceiling) (.init committed) tr w)
    {c : C} (hmem : .spawned c j (some (i, g)) ∈ tr) : .picked j g ∈ slotTrace i tr := by
  have hassigned : .slot i (.assigned j g) ∈ tr := by
    obtain ⟨pre, post, rfl⟩ := append_of_mem hmem
    obtain ⟨w₁, w₂, h₁, hstep, -⟩ := h.at
    cases hstep with
    | consume hc hjob => exact mem_append_left _ (assigned_run h₁ hjob)
  exact picked_of_assigned (slot_run h i) (mem_slotTrace hassigned)

/-- In every run a spawn is told the slot and the generation its job is given, a take that names
them delivers what this job stored, once, and a job only replaces a result of its own. -/
theorem taskResults_ok {committed : Nat} {tr : List (PoolEvent C n)} {w : Pool C n}
    (h : Run (PoolStep ceiling) (.init committed) tr w) :
    (∀ c j i g, .spawned c j (some (i, g)) ∈ tr → .picked j g ∈ slotTrace i tr) ∧
      ∀ i e w', PoolStep ceiling w (.slot i e) w' →
        ResultStepOk (resultLog (slotTrace i tr)) (w.threads i) e := by
  refine ⟨fun c j i g hmem => picked_of_spawned h hmem, fun i e w' hstep => ?_⟩
  exact resultStepOk_of_change (resultInv_run (slot_run h i))
    (threadStep_result (step_slot_self hstep))

end

/-! ## one job -/

abbrev soloSlot : Fin 2 := 1

/-- a pool in which one caller has spawned the job `0` to the slot `1` -/
def soloPool (t : Thread Unit) (job : ThreadJob 2) (p : CallerPhase 2) : Pool Unit 2 where
  threads := fun i => if i = 1 then t else {}
  threadsCommittedCount := 2
  availableWorkers := 0
  workerCount := 1
  shuttingDownWorkers := false
  queue := []
  queueShuttingDown := false
  jobs := fun j => if j = 0 then job else { submitOnly := false }
  nextJob := 1
  caller := fun _ => p

section
variable {t t' : Thread Unit} {job job' : ThreadJob 2} {p p' : CallerPhase 2} {e : SlotEvent Unit}

theorem soloPool_setThread : (soloPool t job p).setThread 1 t' = soloPool t' job p := by
  have hthreads : update (soloPool t job p).threads 1 t' = (soloPool t' job p).threads := by
    funext i
    rw [update_apply]
    by_cases hi : i = 1
    · rw [if_pos hi]
      exact (if_pos hi).symm
    · rw [if_neg hi]
      exact (if_neg hi).trans (if_neg hi).symm
  rw [Pool.setThread, hthreads]
  rfl

theorem soloPool_setCaller : (soloPool t job p).setCaller () p' = soloPool t job p' := by
  have hcaller : update (soloPool t job p).caller () p' = (soloPool t job p').caller := by
    funext c
    rw [update_apply, if_pos rfl]
    rfl
  rw [Pool.setCaller, hcaller]
  rfl

theorem soloPool_setJob : (soloPool t job p).setJob 0 job' = soloPool t job' p := by
  have hjobs : update (soloPool t job p).jobs 0 job' = (soloPool t job' p).jobs := by
    funext j
    rw [update_apply]
    by_cases hj : j = 0
    · rw [if_pos hj]
      exact (if_pos hj).symm
    · rw [if_neg hj]
      exact (if_neg hj).trans (if_neg hj).symm
  rw [Pool.setJob, hjobs]
  rfl

theorem solo_step (h : ThreadStep false t e t')
    (heffect : PoolEffect 2 (soloPool t job p) 1 e (soloPool t job' p')) :
    PoolStep 2 (soloPool t job p) (.slot 1 e) (soloPool t' job' p') :=
  @soloPool_setThread t _ job' p' ▸ PoolStep.slot (i := 1) h heffect

theorem solo_caller (h : ThreadStep false t e t')
    (heffect : PoolEffect 2 (soloPool t job p) 1 e ((soloPool t job p).setCaller () p')) :
    PoolStep 2 (soloPool t job p) (.slot 1 e) (soloPool t' job p') := by
  rw [soloPool_setCaller] at heffect
  exact solo_step h heffect

theorem solo_assigned {generation : Nat} (h : ThreadStep false t (.assigned 0 generation) t') :
    PoolStep 2 (soloPool t job p) (.slot 1 (.assigned 0 generation))
      (soloPool t' { job with assigned := some (some (1, generation)) } p) := by
  have heffect : PoolEffect 2 (soloPool t job p) 1 _ _ := .assigned 0 generation
  rw [soloPool_setJob] at heffect
  exact solo_step h heffect

theorem solo_consume {a : Option (Fin 2 × Nat)} (hjob : job.assigned = some a) :
    PoolStep 2 (soloPool t job (.awaitAssignment 0)) (.spawned () 0 a)
      (soloPool t { job with assignmentConsumed := true } .idle) := by
  have hstep : PoolStep 2 (soloPool t job (.awaitAssignment 0)) _ _ := .consume (c := ()) rfl hjob
  rw [soloPool_setJob, soloPool_setCaller] at hstep
  exact hstep

theorem solo_take (args : TakeArgs) :
    PoolStep 2 (soloPool t job .idle) .moved (soloPool t job (.take 1 args false)) := by
  have hstep : PoolStep 2 (soloPool t job .idle) _ _ :=
    .take (c := ()) (i := 1) rfl ⟨Nat.one_pos, (1 : Fin 2).isLt⟩ args false
  rw [soloPool_setCaller] at hstep
  exact hstep

theorem solo_local (h : ThreadStep false t e t') (he : e.isLocal = true) :
    PoolStep 2 (soloPool t job p) (.slot 1 e) (soloPool t' job p) :=
  solo_step h (.local he)

end

/-- the slot of a job whose code starts -/
def startedThread (code : CodePhase) : Thread Unit where
  worker := .code 0 code
  vm := some {}
  active := true
  inPool := true
  jobGeneration := 1
  currentJob := some 0

def assignedJob : ThreadJob 2 where
  submitOnly := false
  assigned := some (some (1, 1))

def claimedTrace : List (PoolEvent Unit 2) := [.moved, .slot 1 (.claimed ())]

def startedTrace : List (PoolEvent Unit 2) :=
  claimedTrace ++ [.slot 1 (.claimCleared ()), .slot 1 (.created () 0), .slot 1 .moved,
    .slot 1 .moved, .slot 1 (.picked 0 1), .slot 1 .moved, .slot 1 .moved, .slot 1 (.assigned 0 1),
    .slot 1 .moved, .slot 1 (.started 0)]

theorem claimed_run : Run (PoolStep 2) (.init 2) claimedTrace
    (soloPool { worker := .claimed, inPool := true, active := true } { submitOnly := false }
      (.claimed 0 1)) := by
  let w : Pool Unit 2 :=
    { ((Pool.init 2).setJob 0 { submitOnly := false }).setCaller () (.claim 0) with nextJob := 1 }
  have hslot : w.claimSlot 2 true = some (1, 2) := rfl
  have hrun : Run (PoolStep 2) (.init 2) claimedTrace _ := .cons (.spawn (c := ()) rfl false) <|
    .cons (.caller (w := w) (i := 1) (.claim rfl ()) (.claimed true rfl rfl hslot)) .start
  refine Eq.mp (congrArg (Run (PoolStep 2) (.init 2) _) ?_) hrun
  refine (Pool.mk.injEq ..).mpr ⟨?_, rfl, rfl, rfl, rfl, rfl, rfl, ?_, rfl, ?_⟩
  · funext i
    rw [update_apply]
    rfl
  · funext j
    exact Pool.jobs_setJob (.init 2 : Pool Unit 2) 0 j { submitOnly := false }
  · rfl

theorem started_run (bytecode : Bool) : Run (PoolStep 2) (.init 2) startedTrace
    (soloPool (startedThread (if bytecode then .entry else .native)) assignedJob
      (.awaitAssignment 0)) :=
  claimed_run.trans <|
    .cons (solo_caller (.caller (.claimClear rfl ())) (.claimCleared rfl)) <|
    .cons (solo_caller (.caller (.create rfl () 0)) (.created rfl)) <|
    .cons (solo_local (.worker (.topJob rfl rfl)) rfl) <|
    .cons (solo_local (.worker (.reset rfl rfl)) rfl) <|
    .cons (solo_local (.worker (.generation rfl)) rfl) <|
    .cons (solo_local (.worker (.flags rfl)) rfl) <|
    .cons (solo_local (.worker (.prepare rfl)) rfl) <|
    .cons (solo_assigned (.worker (.signal rfl))) <|
    .cons (solo_local (.worker (.awaitResume rfl (.inl rfl))) rfl) <|
    .cons (solo_local (.worker (.start rfl rfl rfl bytecode)) rfl) .start

/-- the slot of a finished job -/
def parkedThread (m : ResultMutex Unit) : Thread Unit where
  worker := .parked
  vm := some {}
  active := true
  statusReady := true
  statusFlag := true
  resultReady := true
  resultMutex := m
  inPool := true
  jobGeneration := 1
  currentJob := some 0
  awaitingReuse := true

def handedJob : ThreadJob 2 := { assignedJob with assignmentConsumed := true }

def finishedTrace : List (PoolEvent Unit 2) :=
  startedTrace ++ [.slot 1 (.stored 0 (some makeNil) true), .slot 1 .moved, .slot 1 .moved,
    .spawned () 0 (some (1, 1)), .slot 1 (.jobConsumed 0), .slot 1 .moved]

theorem finished_run : Run (PoolStep 2) (.init 2) finishedTrace
    (soloPool (parkedThread .free) handedJob .idle) :=
  (started_run false).trans <|
    .cons (solo_local (.code (.nativeStore rfl rfl makeNil true)) rfl) <|
    .cons (solo_local (.code (.callbackDone rfl)) rfl) <|
    .cons (solo_local (.worker (.ran rfl rfl)) rfl) <|
    .cons (solo_consume rfl) <|
    .cons (solo_step (.worker (.awaitConsumed rfl)) (.jobConsumed rfl)) <|
    .cons (solo_local (.worker (.park rfl rfl)) rfl) .start

theorem awaited_run (args : TakeArgs) (hargs : args.generation = 1) :
    ∃ tr, Run (PoolStep 2) (.init 2) tr
      (soloPool (parkedThread (.matched () args)) handedJob (.taking 1 args false)) := by
  have hgen : (parkedThread (.waiting () args)).holdsGeneration args.generation = true := by
    rw [holdsGeneration, hargs]
    rfl
  have hmatch : PoolStep 2 (soloPool (parkedThread (.waiting () args)) handedJob (.taking 1 args false)) _
      (soloPool (parkedThread (.matched () args)) handedJob (.taking 1 args false)) :=
    solo_local (.caller (.generationMatches rfl hgen)) rfl
  exact ⟨_, finished_run.trans <| .cons (solo_take args) <|
    .cons (solo_caller (.caller (.lock rfl () args)) (.locked rfl)) <| .cons hmatch .start⟩

/-- the await of that job -/
theorem taskResults_ok_awaited : ∃ (tr : List (PoolEvent Unit 2)) (args : TakeArgs),
    args.generation ≠ 0 ∧ TakeOk (resultLog (slotTrace 1 tr)) args (some makeNil) true := by
  let args : TakeArgs :=
    { generation := 1, wantsResult := true, takeValue := true, takeStatus := true
      task := fun _ => ⟨rfl, rfl⟩ }
  obtain ⟨tr, hrun⟩ := awaited_run args rfl
  have hstep : PoolStep 2 (soloPool (parkedThread (.matched () args)) handedJob
      (.taking 1 args false)) _ _ := .caller (i := 1) (.take rfl rfl) (.taken (c := ()) rfl _ _ _)
  exact ⟨tr, args, by decide,
    ((taskResults_ok hrun).2 1 _ _ hstep).taken () args _ _ _ rfl (by decide)⟩

end Pscal
