import Pscal.Lib.Reservation
import Pscal.VM.TaskResults

/-!
# Idle workers and queued jobs

* `IdleInv`  where the worker of an idle slot is;
* `IdleChange`  what a step does to the flag of a slot and to the counter;
* `availableWorkers_eq`  the counter is the number of idle slots, in every run;
* `Thread.awaitsJob`  an idle worker that goes to the queue;
* `KeepsWorkers`  a step leaves a worker to every job that waits for one;
* `idleWorkers_ok`  in runs of such steps each of these jobs has an idle worker;
* `idleWorkers_short`  a run after which a job has none.
-/

namespace Pscal

open Transitions Counting Reservation List Function

variable {C : Type}

/-! ## the flag of a slot -/

def WorkerPhase.mayIdle : WorkerPhase → Bool
  | .parked | .leave _ | .top none | .announce | .pop | .popped _ | .exitRegistry => true
  | _ => false

def WorkerPhase.announced : WorkerPhase → Bool
  | .pop | .popped _ => true
  | _ => false

def WorkerPhase.mayAwait : WorkerPhase → Bool
  | .parked | .leave _ => true
  | _ => false

structure IdleInv (t : Thread C) : Prop where
  idle : t.idle = true → t.worker.mayIdle = true
  announced : t.worker.announced = true → t.idle = true
  awaiting : t.awaitingReuse = true → t.worker.mayAwait = true

theorem idleInv_start : IdleInv ({} : Thread C) where
  idle := nofun
  announced := nofun
  awaiting := nofun

/-- what a step does to the flag, and whether the counter goes with it -/
inductive IdleChange (t : Thread C) : SlotEvent C → Thread C → Prop where
  | announced {t' : Thread C} (h : t'.idle = true) : IdleChange t .announced t'
  | unidled {t' : Thread C} (h : t.idle = true) (h' : t'.idle = false) : IdleChange t .unidled t'
  | left {t' : Thread C} (h : t'.idle = false) : IdleChange t .left t'
  | released {t' : Thread C} (c : C) (generation : Nat) (h : t'.idle = true) :
      IdleChange t (.released c generation !t.idle) t'
  | unreleased {t' : Thread C} (c : C) (generation : Nat) (h : t'.idle = t.idle) :
      IdleChange t (.released c generation false) t'
  | same {e : SlotEvent C} {t' : Thread C} (h : t'.idle = t.idle)
      (he : e ≠ .announced ∧ e ≠ .unidled ∧ e ≠ .left ∧ ∀ c g b, e ≠ .released c g b) :
      IdleChange t e t'

section
variable {t t' : Thread C} {e : SlotEvent C} {sd : Bool}

variable {p : WorkerPhase}

theorem IdleInv.moved (h : IdleInv t) (hw : t.worker = p) (hidle : t'.idle = t.idle)
    (hmay : p.mayIdle = true → t'.worker.mayIdle = true)
    (hannounced : t'.worker.announced = true → p.announced = true)
    (hawaiting : t'.awaitingReuse = false ∨ t'.awaitingReuse = t.awaitingReuse ∧ (p.mayAwait = true
      → t'.worker.mayAwait = true)) :
    IdleInv t' where
  idle hi := hmay (hw ▸ h.idle (hidle.symm.trans hi))
  announced ha := hidle.trans (h.announced (by rw [hw]; exact hannounced ha))
  awaiting ha := by
    rcases hawaiting with hc | ⟨hc, hp⟩
    · exact absurd (hc.symm.trans ha) Bool.false_ne_true
    · exact hp (hw ▸ h.awaiting (hc.symm.trans ha))

theorem IdleInv.same (h : IdleInv t) (hidle : t'.idle = t.idle)
    (hawaiting : t'.awaitingReuse = false ∨ t'.awaitingReuse = t.awaitingReuse)
    (hworker : t'.worker = t.worker) : IdleInv t' :=
  h.moved rfl hidle (by rw [hworker]; exact id) (by rw [hworker]; exact id)
    (hawaiting.imp_right fun hc => ⟨hc, by rw [hworker]; exact id⟩)

theorem busy_of_working (h : p.stage = .working) :
    p.mayIdle = false ∧ p.announced = false ∧ p.mayAwait = false := by
  cases p <;> first | exact ⟨rfl, rfl, rfl⟩ | cases h

theorem codeStep_kept (h : CodeStep t e t') : t'.idle = t.idle ∧
    t'.awaitingReuse = t.awaitingReuse ∧ t.worker.stage = .working ∧ t'.worker.stage = .working := by
  cases h with
  | poll h | nativeFail h | nativeStore h =>
    have hstage : t.worker.stage = .working := by
      rw [h]
      rfl
    exact ⟨rfl, rfl, hstage, hstage⟩
  | rearm h =>
    refine ⟨?_, ?_, by rw [h]; rfl, rfl⟩
    · show (if t.vmThreadStopPending then t.stopVm else t).idle = _
      split <;> rfl
    · show (if t.vmThreadStopPending then t.stopVm else t).awaitingReuse = _
      split <;> rfl
  | loop h hvm attention =>
    refine ⟨rfl, rfl, by rw [h]; rfl, ?_⟩
    dsimp only
    split <;> rfl
  | exitCheck h hvm hflags hstop defer => cases defer <;> exact ⟨rfl, rfl, by rw [h]; rfl, rfl⟩
  | fail h returns => cases returns <;> exact ⟨rfl, rfl, by rw [h]; rfl, rfl⟩
  | unwindHalt h result | finish h result =>
    cases result <;> exact ⟨rfl, rfl, by rw [h]; rfl, rfl⟩
  | callbackDone h | builtinDone h | entry h | interruptStop h | interrupt h | errorReturn h
  | errorCheck h | exitStop h | fetch h | unwindFail h | unwind h | done h | exit h | readKey h
  | abortKey h | recover h | waitStop h | nested h => exact ⟨rfl, rfl, by rw [h]; rfl, rfl⟩

theorem codeStep_idle (h : IdleInv t) (hstep : CodeStep t e t') :
    IdleInv t' ∧ IdleChange t e t' := by
  obtain ⟨hidle, hawaiting, hstage, hstage'⟩ := codeStep_kept hstep
  obtain ⟨hmay, -, hwait⟩ := busy_of_working hstage
  obtain ⟨-, hannounced, -⟩ := busy_of_working hstage'
  refine ⟨h.moved rfl hidle (fun hc => ?_) (fun hc => ?_) (.inr ⟨hawaiting, fun hc => ?_⟩),
    .same hidle ?_⟩
  · exact absurd (hmay.symm.trans hc) Bool.false_ne_true
  · exact absurd (hannounced.symm.trans hc) Bool.false_ne_true
  · exact absurd (hwait.symm.trans hc) Bool.false_ne_true
  · cases hstep <;> exact ⟨nofun, nofun, nofun, nofun⟩

theorem IdleInv.notIdle (h : IdleInv t) (hw : t.worker = p) (hp : p.mayIdle = false) :
    t.idle = false := by
  cases hi : t.idle with
  | false => rfl
  | true => exact absurd (hp.symm.trans (hw ▸ h.idle hi)) Bool.false_ne_true

theorem IdleInv.notAwaiting (h : IdleInv t) (hw : t.worker = p) (hp : p.mayAwait = false) :
    t.awaitingReuse = false := by
  cases ha : t.awaitingReuse with
  | false => rfl
  | true => exact absurd (hp.symm.trans (hw ▸ h.awaiting ha)) Bool.false_ne_true

theorem workerStep_idle (h : IdleInv t) (hstep : WorkerStep sd t e t') : IdleInv t' := by
  cases hstep with
  | topExitJob hw | topJob hw | generation hw | flags hw | prepare hw | prepareFail hw
  | unprepared hw | awaitResume hw | startStop hw | startShutdown hw | store hw | ranStopped hw
  | awaitConsumed hw | exitJob hw | exitConsumed hw | exitVm hw | exitPool hw =>
    exact h.moved hw rfl nofun nofun (.inr ⟨rfl, nofun⟩)
  | @signal j prepared hw => cases prepared <;> exact h.moved hw rfl nofun nofun (.inr ⟨rfl, nofun⟩)
  | start hw hstop hsd bytecode =>
    cases bytecode <;> exact h.moved hw rfl nofun nofun (.inr ⟨rfl, nofun⟩)
  | @ran j stopped hw =>
    split
    · exact h.moved hw rfl nofun nofun (.inr ⟨rfl, nofun⟩)
    · cases stopped <;> exact h.moved hw rfl nofun nofun (.inr ⟨rfl, nofun⟩)
  | @ranStore j stopped hw =>
    cases stopped <;> exact h.moved hw rfl nofun nofun (.inr ⟨rfl, nofun⟩)
  | reset hw | exitReset hw => exact h.moved hw rfl nofun nofun (.inl rfl)
  | topExit hw | top hw => exact h.moved hw rfl (fun _ => rfl) nofun (.inr ⟨rfl, nofun⟩)
  | leaveReset hw | leaveAwaiting hw => exact h.moved hw rfl (fun _ => rfl) nofun (.inl rfl)
  | leave hw | leaveExit hw =>
    exact h.moved hw rfl (fun _ => rfl) nofun (.inr ⟨rfl, fun _ => rfl⟩)
  | popNone hw | pop hw => exact h.moved hw rfl (fun _ => rfl) (fun _ => rfl) (.inr ⟨rfl, nofun⟩)
  | announce hw =>
    refine ⟨fun _ => rfl, fun _ => rfl, fun ha => ?_⟩
    exact absurd ((h.notAwaiting hw rfl).symm.trans ha) Bool.false_ne_true
  | @unidle job hw =>
    refine ⟨nofun, fun ha => ?_, fun ha => ?_⟩
    · cases job <;> cases ha
    · exact absurd ((h.notAwaiting hw rfl).symm.trans ha) Bool.false_ne_true
  | park hw =>
    refine ⟨fun hi => ?_, nofun, fun _ => rfl⟩
    exact absurd ((h.notIdle hw rfl).symm.trans hi) Bool.false_ne_true
  | exitRegistry hw =>
    refine ⟨nofun, nofun, fun ha => ?_⟩
    exact absurd ((h.notAwaiting hw rfl).symm.trans ha) Bool.false_ne_true

theorem workerStep_change (h : IdleInv t) (hstep : WorkerStep sd t e t') : IdleChange t e t' := by
  cases hstep with
  | announce hw => exact .announced rfl
  | unidle hw => exact .unidled (h.announced (by rw [hw]; rfl)) rfl
  | exitRegistry hw => exact .left rfl
  | _ => exact .same rfl ⟨nofun, nofun, nofun, nofun⟩

theorem takeResult_idle (args : TakeArgs) : (t.takeResult args).1.idle = t.idle ∧
    (t.takeResult args).1.awaitingReuse = t.awaitingReuse ∧
    (t.takeResult args).1.killRequested = t.killRequested ∧
    (t.takeResult args).1.readyForReuse = t.readyForReuse := by
  rw [Thread.takeResult]
  split <;> exact ⟨rfl, rfl, rfl, rfl⟩

theorem stopJob_idle (kill : Bool) : (t.stopJob kill).idle = t.idle ∧
    (t.stopJob kill).awaitingReuse = t.awaitingReuse ∧ (t.stopJob kill).worker = t.worker := by
  rw [Thread.stopJob, Thread.vmThreadRequestStopLocked]
  split
  · exact ⟨rfl, rfl, rfl⟩
  · cases kill <;> split <;> exact ⟨rfl, rfl, rfl⟩

theorem callerStep_idle (h : IdleInv t) (hstep : CallerStep sd t e t') : IdleInv t' := by
  cases hstep with
  | claim hw =>
    refine ⟨nofun, nofun, fun ha => ?_⟩
    exact absurd ((h.notAwaiting hw rfl).symm.trans ha) Bool.false_ne_true
  | claimClear hw => exact h.moved hw rfl nofun nofun (.inl rfl)
  | create hw => exact h.moved hw rfl nofun nofun (.inr ⟨rfl, nofun⟩)
  | abandon hw => exact ⟨nofun, nofun, nofun⟩
  | abandonReset => exact h.same rfl (.inl rfl) rfl
  | abandonClear | lock | generationMatches | generationDiffers | unfinished | joinRead
  | interruptCancel | pause => exact h.same rfl (.inr rfl) rfl
  | @take c args hm =>
    obtain ⟨hworker, -, -⟩ := takeResult_kept t args
    obtain ⟨hidle, hawaiting, -⟩ := takeResult_idle (t := t) args
    exact h.same hidle (.inr hawaiting) hworker
  | release hstate hfree c generation =>
    rw [Thread.releaseForReuse]
    split
    · rename_i hready
      -- the slot is published and its worker has not left it
      have hparked := h.awaiting hready.1
      refine ⟨fun _ => ?_, fun _ => rfl, fun _ => hparked⟩
      show t.worker.mayIdle = true
      cases hw : t.worker <;> rw [hw] at hparked <;> first | rfl | cases hparked
    · exact h
  | stopJob hstate hfree hpool hjob c hgen kill =>
    obtain ⟨hidle, hawaiting, hworker⟩ := stopJob_idle (t := t) kill
    exact h.same hidle (.inr hawaiting) hworker
  | interruptKill hsd hstate =>
    rw [Thread.vmThreadRequestStopLocked]
    split <;> exact h.same rfl (.inr rfl) rfl

theorem callerStep_change (h : IdleInv t) (hstep : CallerStep sd t e t') : IdleChange t e t' := by
  cases hstep with
  | claim hw => exact .same (h.notIdle hw rfl).symm ⟨by simp, by simp, by simp, by simp⟩
  | abandon hw => exact .same (h.notIdle hw rfl).symm ⟨by simp, by simp, by simp, by simp⟩
  | @take c args hm => exact .same (takeResult_idle (t := t) args).1 ⟨by simp, by simp, by simp, by simp⟩
  | release hstate hfree c generation =>
    rw [Thread.releaseForReuse]
    split
    · exact .released c generation rfl
    · exact .unreleased c generation rfl
  | stopJob hstate hfree hpool hjob c hgen kill =>
    exact .same (stopJob_idle (t := t) kill).1 ⟨by simp, by simp, by simp, by simp⟩
  | interruptKill hsd hstate =>
    refine .same ?_ ⟨by simp, by simp, by simp, by simp⟩
    rw [Thread.vmThreadRequestStopLocked]
    split <;> rfl
  | _ => exact .same rfl ⟨by simp, by simp, by simp, by simp⟩

theorem threadStep_idle (h : IdleInv t) (hstep : ThreadStep sd t e t') :
    IdleInv t' ∧ IdleChange t e t' := by
  cases hstep with
  | code hstep => exact codeStep_idle h hstep
  | worker hstep => exact ⟨workerStep_idle h hstep, workerStep_change h hstep⟩
  | caller hstep => exact ⟨callerStep_idle h hstep, callerStep_change h hstep⟩

theorem idleInv_run {tr : List (SlotEvent C)} {t : Thread C} (h : Run AnyThreadStep {} tr t) :
    IdleInv t :=
  Run.invariant (I := fun _ t => IdleInv t) idleInv_start
    (fun _ _ _ _ hinv ⟨_, hstep⟩ => (threadStep_idle hinv hstep).1) h

end

/-! ## the counter -/

section
variable [DecidableEq C] {n ceiling : Nat} {w w' : Pool C n}

def Pool.idleCount (w : Pool C n) : Nat := count (fun t : Thread C => t.idle = true) w.threads

theorem available_slot {w₁ : Pool C n} {i : Fin n} {e : SlotEvent C} {t : Thread C}
    (h : w.availableWorkers = w.idleCount) (hchange : IdleChange (w.threads i) e t)
    (heffect : PoolEffect ceiling w i e w₁) :
    (w₁.setThread i t).availableWorkers = (w₁.setThread i t).idleCount := by
  have hcount := count_update (p := fun t : Thread C => t.idle = true) w.threads i t
  have hidle : (w₁.setThread i t).idleCount =
      count (fun t : Thread C => t.idle = true) (update w.threads i t) := by
    rw [← heffect.threads]
    rfl
  rw [hidle]
  rw [Pool.idleCount] at h
  show w₁.availableWorkers = _
  cases hchange with
  | announced ht =>
    cases heffect with
    | «local» he => cases he
    | announced =>
      show w.availableWorkers + _ = _
      rw [ht, if_pos rfl] at hcount
      split at hcount <;> rename_i hi
      · rw [if_pos hi]
        omega
      · rw [if_neg hi]
        omega
  | unidled hi ht =>
    cases heffect with
    | «local» he => cases he
    | unidled =>
      show w.availableWorkers - _ = _
      rw [hi, ht, if_pos rfl, if_neg Bool.false_ne_true] at hcount
      rw [if_pos (by omega)]
      omega
  | left ht =>
    cases heffect with
    | «local» he => cases he
    | left =>
      show w.availableWorkers - _ = _
      rw [ht, if_neg Bool.false_ne_true] at hcount
      split at hcount <;> rename_i hi
      · rw [if_pos ⟨by omega, hi⟩]
        omega
      · rw [if_neg fun hc => hi hc.2]
        omega
  | released c generation ht =>
    cases heffect with
    | «local» he => cases he
    | released hc =>
      show w.availableWorkers + _ = _
      rw [ht, if_pos rfl] at hcount
      cases hi : (w.threads i).idle <;> rw [hi] at hcount
      · rw [if_neg Bool.false_ne_true] at hcount
        rw [Bool.not_false, if_pos rfl]
        omega
      · rw [if_pos rfl] at hcount
        rw [Bool.not_true, if_neg Bool.false_ne_true]
        omega
  | unreleased c generation ht =>
    cases heffect with
    | «local» he => cases he
    | released hc =>
      show w.availableWorkers + _ = _
      rw [count_update_same (by rw [ht]), if_neg Bool.false_ne_true, Int.add_zero, h]
  | same ht he =>
    rw [count_update_same (by rw [ht]), ← h]
    obtain ⟨hannounced, hunidled, hleft, hreleased⟩ := he
    cases heffect with
    | announced => exact absurd rfl hannounced
    | unidled => exact absurd rfl hunidled
    | left => exact absurd rfl hleft
    | @released c generation join hc counted => exact absurd rfl (hreleased c generation counted)
    | _ => rfl

theorem available_step (h : w.availableWorkers = w.idleCount) (hidle : ∀ i, IdleInv (w.threads i))
    {e : PoolEvent C n} (hstep : PoolStep ceiling w e w') : w'.availableWorkers = w'.idleCount := by
  cases hstep with
  | slot hs heffect => exact available_slot h (threadStep_idle (hidle _) hs).2 heffect
  | spawn | refuse | full | toQueue | pushFail | push | assigned | takeBack | consume | take
  | shutdown | queueShutdown => exact h

theorem availableWorkers_eq {committed : Nat} {tr : List (PoolEvent C n)}
    (h : Run (PoolStep ceiling) (.init committed) tr w) : w.availableWorkers = w.idleCount := by
  induction h with
  | start =>
    have hzero : (Pool.init committed : Pool C n).idleCount = 0 := count_eq_zero.mpr fun i hi => by
      cases hi
    rw [hzero]
    rfl
  | next h hstep ih => exact available_step ih (fun i => idleInv_run (slot_run h i)) hstep

end

/-! ## the workers that wait for a job -/

def WorkerPhase.toQueue (readyForReuse : Bool) : WorkerPhase → Bool
  | .parked => readyForReuse
  | .leave exitLoop => !exitLoop
  | .top none | .announce | .pop => true
  | _ => false

/-- an idle worker that nobody has killed and that takes a job next -/
def Thread.awaitsJob (t : Thread C) : Bool :=
  t.idle && !t.killRequested && t.worker.toQueue t.readyForReuse

def SlotEvent.losesWorker : SlotEvent C → Bool
  | .retired | .popped none | .abandonReset _ | .stopRequested _ _ _ true _ | .interrupted => true
  | _ => false

section
variable {t t' : Thread C} {e : SlotEvent C} {sd : Bool}

theorem awaitsJob_iff : t.awaitsJob = true ↔
    t.idle = true ∧ t.killRequested = false ∧ t.worker.toQueue t.readyForReuse = true := by
  rw [Thread.awaitsJob, Bool.and_eq_true, Bool.and_eq_true, Bool.not_eq_true', and_assoc]

variable {p : WorkerPhase}

theorem toQueue_mono {b b' : Bool} (hb : b = true → b' = true) (h : p.toQueue b = true) :
    p.toQueue b' = true := by
  cases p with
  | parked => exact hb h
  | top job => cases job <;> exact h
  | _ => exact h

theorem mayIdle_of_toQueue {b : Bool} (h : p.toQueue b = true) : p.mayIdle = true := by
  cases p with
  | top job => cases job <;> first | rfl | cases h
  | _ => first | rfl | cases h

theorem awaitsJob_same (h : t.awaitsJob = true) (hidle : t'.idle = t.idle)
    (hkill : t.killRequested = false → t'.killRequested = false) (hworker : t'.worker = t.worker)
    (hready : t.readyForReuse = true → t'.readyForReuse = true) : t'.awaitsJob = true := by
  obtain ⟨hi, hk, hw⟩ := awaitsJob_iff.mp h
  exact awaitsJob_iff.mpr ⟨hidle.trans hi, hkill hk, by rw [hworker]; exact toQueue_mono hready hw⟩

theorem not_awaitsJob (hw : t.worker = p) (hp : p.mayIdle = false) :
    t.awaitsJob ≠ true := fun h => by
  have hmay := mayIdle_of_toQueue (awaitsJob_iff.mp h).2.2
  rw [hw, hp] at hmay
  cases hmay

theorem workerStep_awaits (h : t.awaitsJob = true) (hstep : WorkerStep sd t e t')
    (hloses : e.losesWorker = false) (hpop : ∀ j, e ≠ .popped (some j)) : t'.awaitsJob = true := by
  obtain ⟨hi, hk, hq⟩ := awaitsJob_iff.mp h
  cases hstep with
  | topExit | popNone | leaveExit => cases hloses
  | pop hw hkill j => exact absurd rfl (hpop j)
  | top | announce | leave | leaveReset => exact awaitsJob_iff.mpr ⟨by first | exact hi | rfl, hk, rfl⟩
  | unidle hw | leaveAwaiting hw | exitRegistry hw =>
    rw [hw] at hq
    cases hq
  | topExitJob hw | topJob hw | reset hw | generation hw | flags hw | prepare hw | prepareFail hw
  | signal hw | unprepared hw | awaitResume hw | startStop hw | startShutdown hw | start hw
  | store hw | ran hw | ranStore hw | ranStopped hw | awaitConsumed hw | park hw | exitJob hw
  | exitConsumed hw | exitVm hw | exitReset hw | exitPool hw =>
    exact absurd h (not_awaitsJob hw rfl)

theorem callerStep_awaits (h : t.awaitsJob = true) (hstep : CallerStep sd t e t')
    (hloses : e.losesWorker = false) : t'.awaitsJob = true := by
  cases hstep with
  | claim hw | claimClear hw | create hw | abandon hw => exact absurd h (not_awaitsJob hw rfl)
  | abandonReset | interruptCancel | interruptKill => cases hloses
  | abandonClear => exact awaitsJob_same h rfl (fun _ => rfl) rfl id
  | lock | generationMatches | generationDiffers | unfinished | joinRead | pause =>
    exact awaitsJob_same h rfl id rfl id
  | @take c args hm =>
    obtain ⟨hworker, -, -⟩ := takeResult_kept t args
    obtain ⟨hidle, -, hkill, hready⟩ := takeResult_idle (t := t) args
    exact awaitsJob_same h hidle hkill.trans hworker hready.trans
  | release hstate hfree c generation =>
    rw [Thread.releaseForReuse]
    split
    · refine awaitsJob_same h (awaitsJob_iff.mp h).1.symm id rfl fun _ => rfl
    · exact h
  | @stopJob j hstate hfree hpool hjob c generation hgen kill =>
    cases kill with
    | true => cases hloses
    | false =>
      obtain ⟨hidle, -, hworker⟩ := stopJob_idle (t := t) false
      refine awaitsJob_same h hidle (fun hk => ?_) hworker fun hr => ?_
      · rw [Thread.stopJob, Thread.vmThreadRequestStopLocked]
        split
        · exact (Bool.or_false _).trans hk
        · split <;> exact hk
      · rw [Thread.stopJob, Thread.vmThreadRequestStopLocked]
        split
        · exact hr
        · split <;> rfl

theorem threadStep_awaits (h : t.awaitsJob = true) (hstep : ThreadStep sd t e t')
    (hloses : e.losesWorker = false) (hpop : ∀ j, e ≠ .popped (some j)) : t'.awaitsJob = true := by
  cases hstep with
  | code hstep =>
    obtain ⟨-, -, hstage, -⟩ := codeStep_kept hstep
    exact absurd h (not_awaitsJob rfl (busy_of_working hstage).1)
  | worker hstep => exact workerStep_awaits h hstep hloses hpop
  | caller hstep => exact callerStep_awaits h hstep hloses

end

/-! ## the jobs of the queue -/

def CallerPhase.job {n : Nat} : CallerPhase n → Option Nat
  | .claim j | .claimed j _ | .cleared j _ | .push j | .wait j | .awaitAssignment j => some j
  | _ => none

section
variable [DecidableEq C] {n ceiling : Nat} {w w' : Pool C n}

def Pool.waitingCount (w : Pool C n) : Nat := count (fun t : Thread C => t.awaitsJob = true) w.threads

/-- A job that must have a worker is queued, and a worker that waits is taken from the pool, while
more workers wait than jobs are queued. -/
structure KeepsWorkers (w : Pool C n) (e : PoolEvent C n) : Prop where
  queued : ∀ c j, e = .queued c j → (w.jobs j).submitOnly = false →
    w.queue.length < w.waitingCount
  lost : ∀ i e', e = .slot i e' → e'.losesWorker = true → (w.threads i).awaitsJob = true →
    w.queue.length < w.waitingCount

def KeepingStep (ceiling : Nat) (w : Pool C n) (e : PoolEvent C n) (w' : Pool C n) : Prop :=
  PoolStep ceiling w e w' ∧ KeepsWorkers w e

structure QueueInv (w : Pool C n) : Prop where
  queue : ∀ j ∈ w.queue, j < w.nextJob
  caller : ∀ c j, (w.caller c).job = some j → j < w.nextJob
  reserved : Reserved (fun j => (w.jobs j).submitOnly = false) w.queue w.waitingCount

omit [DecidableEq C] in
theorem queueInv_init (committed : Nat) : QueueInv (Pool.init committed : Pool C n) where
  queue := nofun
  caller := nofun
  reserved := reserved_nil

theorem job_setCaller {c d : C} {p : CallerPhase n} {j : Nat}
    (h : ((w.setCaller c p).caller d).job = some j) : (w.caller d).job = some j ∨ p.job = some j := by
  rw [Pool.caller_setCaller] at h
  split at h
  · exact .inr h
  · exact .inl h

omit [DecidableEq C] in
theorem submitOnly_setJob {j k : Nat} {job : ThreadJob n} (h : job.submitOnly = (w.jobs j).submitOnly) :
    ((w.setJob j job).jobs k).submitOnly = (w.jobs k).submitOnly := by
  rw [Pool.jobs_setJob]
  split
  · rename_i hk
    rw [hk, h]
  · rfl

variable {e : SlotEvent C} {i : Fin n}

theorem PoolEffect.submitOnly (h : PoolEffect ceiling w i e w') (j : Nat) :
    (w'.jobs j).submitOnly = (w.jobs j).submitOnly := by
  cases h <;> first | rfl | exact submitOnly_setJob rfl

theorem PoolEffect.callerJob (h : PoolEffect ceiling w i e w') {c : C} {j : Nat}
    (hj : (w'.caller c).job = some j) : ∃ d, (w.caller d).job = some j := by
  have hset : ∀ {d : C} {p : CallerPhase n}, ((w.setCaller d p).caller c).job = some j →
      (p.job = some j → (w.caller d).job = some j) → ∃ d, (w.caller d).job = some j := by
    intro d p hd hp
    rcases job_setCaller hd with hc | hc
    · exact ⟨c, hc⟩
    · exact ⟨d, hp hc⟩
  cases h with
  | «local» | announced | popNone | pop | unidled | assigned | refused | jobConsumed | left =>
    exact ⟨c, hj⟩
  | claimed grown hc | claimCleared hc | created hc => exact hset hj fun hp => by rw [hc]; exact hp
  | abandoned hc | abandonReset hc | abandonCleared hc | locked hc => exact hset hj nofun
  | unlocked hc hp =>
    refine hset hj fun hpj => ?_
    rcases hp with rfl | rfl | ⟨-, rfl⟩ <;> cases hpj
  | taken hc value status release =>
    refine hset hj fun hpj => ?_
    cases release with
    | true => cases hpj
    | false =>
      rename_i join
      cases join <;> cases hpj
  | joinRead hc statusReady => exact hset hj fun hpj => by cases statusReady <;> cases hpj
  | released hc =>
    rename_i join hcounted
    exact hset hj fun hpj => by cases join <;> cases hpj
  | stopRequested hc hslot j' generation kill parked =>
    exact hset hj fun hpj => by cases parked <;> cases hpj

theorem PoolEffect.queue (h : PoolEffect ceiling w i e w') :
    w'.queue = w.queue ∨ ∃ j, e = .popped (some j) ∧ w.queue = j :: w'.queue := by
  cases h with
  | pop hqueue hrest => exact .inr ⟨_, rfl, hrest⟩
  | _ => exact .inl rfl

theorem PoolEffect.nextJob (h : PoolEffect ceiling w i e w') : w'.nextJob = w.nextJob := by
  cases h <;> rfl

theorem waitingCount_slot {w₁ : Pool C n} (t : Thread C) (heffect : PoolEffect ceiling w i e w₁) :
    (w₁.setThread i t).waitingCount + (if (w.threads i).awaitsJob = true then 1 else 0) =
      w.waitingCount + if t.awaitsJob = true then 1 else 0 := by
  have hcount := count_update (p := fun t : Thread C => t.awaitsJob = true) w.threads i t
  have hwaiting : (w₁.setThread i t).waitingCount =
      count (fun t : Thread C => t.awaitsJob = true) (update w.threads i t) := by
    rw [← heffect.threads]
    rfl
  rw [hwaiting]
  exact hcount

theorem reserved_slot {w₁ : Pool C n} {t : Thread C}
    (h : Reserved (fun j => (w.jobs j).submitOnly = false) w.queue w.waitingCount)
    (hkeeps : KeepsWorkers w (.slot i e))
    (hstep : ThreadStep w.shuttingDownWorkers (w.threads i) e t)
    (heffect : PoolEffect ceiling w i e w₁) :
    Reserved (fun j => (w.jobs j).submitOnly = false) w₁.queue (w₁.setThread i t).waitingCount := by
  have hcount := waitingCount_slot t heffect
  rcases heffect.queue with hqueue | ⟨j, -, hqueue⟩
  · rw [hqueue]
    by_cases ht : t.awaitsJob = true
    · refine h.mono ?_
      rw [if_pos ht] at hcount
      split at hcount <;> omega
    by_cases hw : (w.threads i).awaitsJob = true
    · rw [if_pos hw, if_neg ht] at hcount
      by_cases hloses : e.losesWorker = true
      · have hlost := hkeeps.lost i e rfl hloses hw
        exact reserved_of_length (by omega)
      · refine absurd (threadStep_awaits hw hstep (Bool.eq_false_iff.mpr hloses) fun j he => ?_) ht
        subst he
        cases heffect with
        | «local» he => cases he
        | pop hq hrest => exact absurd (hrest.symm.trans hqueue.symm) (cons_ne_self _ _)
    · refine h.mono ?_
      rw [if_neg hw, if_neg ht] at hcount
      omega
  · rw [hqueue] at h
    refine h.pop.mono ?_
    split at hcount <;> omega

theorem queueInv_step (h : QueueInv w) {e : PoolEvent C n} (hstep : KeepingStep ceiling w e w') :
    QueueInv w' := by
  obtain ⟨hstep, hkeeps⟩ := hstep
  have hset : ∀ {c : C} {p : CallerPhase n}, (∀ j, p.job = some j → j < w.nextJob) →
      ∀ d j, ((w.setCaller c p).caller d).job = some j → j < w.nextJob := fun hp d j hj => by
    rcases job_setCaller hj with hc | hc
    · exact h.caller d j hc
    · exact hp j hc
  have hof : ∀ {c : C} {j : Nat} {p : CallerPhase n}, w.caller c = p → p.job = some j →
      j < w.nextJob := fun {c j p} hc hp => h.caller c j (by rw [hc]; exact hp)
  cases hstep with
  | @slot w₁ i e t hs heffect =>
    refine ⟨fun j hj => ?_, fun c j hj => ?_, ?_⟩
    · show j < w₁.nextJob
      rw [heffect.nextJob]
      rcases heffect.queue with hqueue | ⟨k, -, hqueue⟩
      · exact h.queue j (hqueue ▸ hj)
      · exact h.queue j (by rw [hqueue]; exact mem_cons_of_mem _ hj)
    · show j < w₁.nextJob
      rw [heffect.nextJob]
      obtain ⟨d, hd⟩ := heffect.callerJob hj
      exact h.caller d j hd
    · refine (reserved_slot h.reserved hkeeps hs heffect).congr fun j _ hj => ?_
      exact (heffect.submitOnly j).symm.trans hj
  | @spawn c hc submitOnly =>
    refine ⟨fun j hj => Nat.lt_succ_of_lt (h.queue j hj), fun d j hj => ?_, ?_⟩
    · rcases job_setCaller (w := w.setJob w.nextJob { submitOnly := submitOnly }) hj with hd | hd
      · exact Nat.lt_succ_of_lt (h.caller d j hd)
      · cases hd
        exact Nat.lt_succ_self _
    · refine h.reserved.congr fun j hj ho => ?_
      have ho' : ((w.setJob w.nextJob { submitOnly := submitOnly }).jobs j).submitOnly = false := ho
      rwa [Pool.jobs_setJob, if_neg (Nat.ne_of_lt (h.queue j hj))] at ho'
  | refuse | full | pushFail | take => exact ⟨h.queue, hset nofun, h.reserved⟩
  | toQueue grown hc | assigned hc =>
    refine ⟨h.queue, hset fun k hk => ?_, h.reserved⟩
    exact hof hc hk
  | @push c j hc hqueue =>
    refine ⟨fun k hk => ?_, hset fun k hk => hof hc hk, h.reserved.push fun ho => ?_⟩
    · rcases mem_append.mp hk with hk | hk
      · exact h.queue k hk
      · rw [mem_singleton.mp hk]
        exact hof hc rfl
    · exact hkeeps.queued c j rfl ho
  | @takeBack c j hc hmem retry =>
    refine ⟨fun k hk => h.queue k (mem_of_mem_erase hk), hset fun k hk => hof hc ?_,
      h.reserved.erase j⟩
    cases retry with
    | true => exact hk
    | false => cases hk
  | @consume c j a hc hjob =>
    refine ⟨h.queue, fun d k hk => ?_, h.reserved.congr fun k _ hk => ?_⟩
    · have hcaller : ((w.setJob j { w.jobs j with assignmentConsumed := true }).caller d).job =
          some k ∨ CallerPhase.job (.idle : CallerPhase n) = some k := job_setCaller hk
      rcases hcaller with hd | hd
      · exact h.caller d k hd
      · cases hd
    · have hsame := @submitOnly_setJob _ _ w j k { w.jobs j with assignmentConsumed := true } rfl
      exact hsame.symm.trans hk
  | shutdown | queueShutdown => exact ⟨h.queue, h.caller, h.reserved⟩

/-- each queued job that must have a worker has one of its own that waits for a job -/
def Pool.JobsHaveWorkers (w : Pool C n) : Prop :=
  ∃ place : {k : Fin w.queue.length // (w.jobs (w.queue.get k)).submitOnly = false} → Fin n,
    Function.Injective place ∧ ∀ k, (w.threads (place k)).awaitsJob = true

def PoolEvent.takesWorker : PoolEvent C n → Bool
  | .queued .. => true
  | .slot _ e => e.losesWorker
  | _ => false

theorem keeping_run {w₀ w : Pool C n} {tr : List (PoolEvent C n)}
    (h : Run (PoolStep ceiling) w₀ tr w) (htr : ∀ e ∈ tr, e.takesWorker = false) :
    Run (KeepingStep ceiling) w₀ tr w := by
  induction h with
  | start => exact .start
  | @next tr w w' e h hstep ih =>
    have htakes : e.takesWorker = false := htr e (mem_append_right _ (mem_singleton_self e))
    refine (ih fun e' he' => htr e' (mem_append_left _ he')).next ⟨hstep, ?_, ?_⟩
    · rintro c j rfl
      cases htakes
    · rintro i e' rfl hloses
      exact absurd (htakes.symm.trans hloses) Bool.false_ne_true

/-- The counter is right in every run, and in a run that leaves workers to the jobs that wait for
one, each of these jobs has one. -/
theorem idleWorkers_ok {committed : Nat} {tr : List (PoolEvent C n)} {w : Pool C n}
    (h : Run (PoolStep ceiling) (.init committed) tr w) : w.availableWorkers = w.idleCount ∧
      (Run (KeepingStep ceiling) (.init committed) tr w → w.JobsHaveWorkers) := by
  refine ⟨availableWorkers_eq h, fun hkeeping => ?_⟩
  have hinv : QueueInv w := Run.invariant (I := fun _ w => QueueInv w) (queueInv_init committed)
    (fun _ _ _ _ hinv hstep => queueInv_step hinv hstep) hkeeping
  exact hinv.reserved.places

end

/-! ## one worker -/

/-- the worker of a finished job after its caller has cancelled or killed it -/
def releasedThread (kill : Bool) : Thread Unit :=
  { parkedThread .free with killRequested := kill, idle := true, readyForReuse := true }

def countedPool (t : Thread Unit) (p : CallerPhase 2) (availableWorkers workerCount : Int)
    (queue : List Nat) (nextJob : Nat) : Pool Unit 2 :=
  { soloPool t handedJob p with
    availableWorkers := availableWorkers, workerCount := workerCount, queue := queue
    nextJob := nextJob }

section
variable {t t' : Thread Unit} {p p' : CallerPhase 2} {a a' m m' : Int} {q q' : List Nat} {k k' : Nat}
  {e : SlotEvent Unit}

theorem countedPool_setThread :
    (countedPool t p a m q k).setThread 1 t' = countedPool t' p a m q k := by
  have hthreads := congrArg Pool.threads (@soloPool_setThread t t' handedJob p)
  rw [Pool.setThread] at hthreads ⊢
  exact (Pool.mk.injEq ..).mpr ⟨hthreads, rfl, rfl, rfl, rfl, rfl, rfl, rfl, rfl, rfl⟩

theorem countedPool_setCaller :
    (countedPool t p a m q k).setCaller () p' = countedPool t p' a m q k := by
  have hcaller := congrArg Pool.caller (@soloPool_setCaller t handedJob p p')
  exact (Pool.mk.injEq ..).mpr ⟨rfl, rfl, rfl, rfl, rfl, rfl, rfl, rfl, rfl, hcaller⟩

theorem counted_step (h : ThreadStep false t e t')
    (heffect : PoolEffect 2 (countedPool t p a m q k) 1 e (countedPool t p' a' m' q' k')) :
    PoolStep 2 (countedPool t p a m q k) (.slot 1 e) (countedPool t' p' a' m' q' k') :=
  @countedPool_setThread t t' p' a' m' q' k' ▸ PoolStep.slot (i := 1) h heffect

end

/-- the caller cancels or kills its finished job, and spawns another -/
def requeuedTrace (kill : Bool) : List (PoolEvent Unit 2) :=
  finishedTrace ++ [.slot soloSlot (.stopRequested () 0 1 kill true),
    .slot soloSlot (.released () 1 true), .moved, .moved]

theorem requeued_run (kill : Bool) : Run (PoolStep 2) (.init 2) (requeuedTrace kill)
    (countedPool (releasedThread kill) (.push 1) 1 1 [] 2) := by
  have hstop : PoolStep 2 (countedPool (parkedThread .free) .idle 0 1 [] 1)
      (.slot 1 (.stopRequested () 0 1 kill true))
      (countedPool { parkedThread .free with killRequested := kill } (.release 1 1 false) 0 1 [] 1) := by
    refine counted_step (.caller (.stopJob rfl rfl rfl rfl () rfl kill)) ?_
    rw [← countedPool_setCaller (p := .idle)]
    exact .stopRequested rfl ⟨Nat.one_pos, (1 : Fin 2).isLt⟩ 0 1 kill true
  have hrelease : PoolStep 2
      (countedPool { parkedThread .free with killRequested := kill } (.release 1 1 false) 0 1 [] 1)
      (.slot 1 (.released () 1 true)) (countedPool (releasedThread kill) .idle 1 1 [] 1) := by
    refine counted_step (.caller (.release rfl rfl () 1)) ?_
    have heffect : PoolEffect 2 (countedPool { parkedThread .free with killRequested := kill }
      (.release 1 1 false) 0 1 [] 1) 1 (.released () 1 true) _ := .released rfl true
    rw [countedPool_setCaller] at heffect
    exact heffect
  have hspawn : PoolStep 2 (countedPool (releasedThread kill) .idle 1 1 [] 1) .moved
      (countedPool (releasedThread kill) (.claim 1) 1 1 [] 2) := by
    have hstep : PoolStep 2 (countedPool (releasedThread kill) .idle 1 1 [] 1) .moved _ :=
      .spawn (c := ()) rfl false
    have hjobs : (countedPool (releasedThread kill) .idle 1 1 [] 1).setJob 1 { submitOnly := false } =
        countedPool (releasedThread kill) .idle 1 1 [] 1 := by
      refine (Pool.mk.injEq ..).mpr ⟨rfl, rfl, rfl, rfl, rfl, rfl, rfl, ?_, rfl, rfl⟩
      exact update_eq_self 1 _
    rw [show (countedPool (releasedThread kill) .idle 1 1 [] 1).nextJob = 1 from rfl, hjobs,
      countedPool_setCaller] at hstep
    exact hstep
  have hqueue : PoolStep 2 (countedPool (releasedThread kill) (.claim 1) 1 1 [] 2) .moved
      (countedPool (releasedThread kill) (.push 1) 1 1 [] 2) := by
    have hstep : PoolStep 2 (countedPool (releasedThread kill) (.claim 1) 1 1 [] 2) .moved _ :=
      .toQueue (c := ()) true rfl rfl rfl (.inl Int.one_ne_zero)
    rw [countedPool_setCaller] at hstep
    exact hstep
  exact finished_run.trans <| .cons hstop <| .cons hrelease <| .cons hspawn <| .cons hqueue .start

theorem pushed_step (kill : Bool) : PoolStep 2
    (countedPool (releasedThread kill) (.push 1) 1 1 [] 2) (.queued () 1)
    (countedPool (releasedThread kill) (.wait 1) 1 1 [1] 2) := by
  have hstep : PoolStep 2 (countedPool (releasedThread kill) (.push 1) 1 1 [] 2) (.queued () 1) _ :=
    .push rfl rfl
  rw [countedPool_setCaller] at hstep
  exact hstep

/-- a worker is there for the second job -/
theorem idleWorkers_ok_queued :
    ∃ w : Pool Unit 2, w.queue = [1] ∧ w.availableWorkers = w.idleCount ∧ w.JobsHaveWorkers := by
  have hkeeping : Run (KeepingStep 2) (.init 2) (requeuedTrace false) _ :=
    keeping_run (requeued_run false) (by decide)
  have hwaiting : 0 < (countedPool (releasedThread false) (.push 1) 1 1 [] 2).waitingCount := by
    decide
  have hpushed := hkeeping.next ⟨pushed_step false, fun _ _ _ _ => hwaiting, nofun⟩
  obtain ⟨havailable, hworkers⟩ := idleWorkers_ok ((requeued_run false).next (pushed_step false))
  exact ⟨_, rfl, havailable, hworkers hpushed⟩

/-- A killed worker is counted as available until it is gone, so a spawn queues a job for it. -/
theorem idleWorkers_short : ∃ (tr : List (PoolEvent Unit 2)) (w : Pool Unit 2) (j : Nat),
    Run (PoolStep 2) (.init 2) tr w ∧ (∀ c k, w.caller c ≠ .push k) ∧ j ∈ w.queue ∧
      (w.jobs j).submitOnly = false ∧ ∀ i, (w.threads i).idle = false := by
  let t₁ : Thread Unit :=
    { releasedThread true with
      readyForReuse := false, active := false, cancelRequested := false, worker := .leave true }
  let t₂ : Thread Unit := { t₁ with awaitingReuse := false, worker := .exitRegistry }
  let t₃ : Thread Unit := { t₂ with idle := false, active := false, worker := .exitVm }
  have hretired : PoolStep 2 (countedPool (releasedThread true) (.wait 1) 1 1 [1] 2)
      (.slot 1 .retired) (countedPool t₁ (.wait 1) 1 1 [1] 2) :=
    counted_step (.worker (.leaveExit rfl rfl)) (.local rfl)
  have hawaiting : PoolStep 2 (countedPool t₁ (.wait 1) 1 1 [1] 2) (.slot 1 .moved)
      (countedPool t₂ (.wait 1) 1 1 [1] 2) :=
    counted_step (.worker (.leaveAwaiting rfl rfl)) (.local rfl)
  have hleft : PoolStep 2 (countedPool t₂ (.wait 1) 1 1 [1] 2) (.slot 1 .left)
      (countedPool t₃ (.wait 1) 0 0 [1] 2) :=
    counted_step (.worker (.exitRegistry rfl)) .left
  refine ⟨_, _, 1, (requeued_run true).trans <| .cons (pushed_step true) <| .cons hretired <|
    .cons hawaiting <| .cons hleft .start, nofun, mem_singleton_self 1, rfl, fun i => ?_⟩
  show (if i = 1 then t₃ else {}).idle = false
  split <;> rfl

end Pscal
