import Pscal.Lib.Transitions
import Pscal.VM.BuiltinRegistry

/-!
# Denied effects

`vmApplyFxPolicy`, the calls of `vm/vm.c` that go through it, and the builtin jobs, whose handler a
worker calls with no check of its own: `threadSpawnOrSubmitCommon` checks before the job is made.

* `resolveBuiltinProc`, `resolveBuiltin`  how the two opcodes find a handler;
* `step`  one call, job or end of a session, of some thread of the run;
* `deniedEffects_never`  no handler with a denied effect is invoked;
* `halt_deniedEffect`  another thread's `halt` lifts the mask while a worker runs.
-/

namespace Pscal

open List Option Function

namespace Fx

/-! ## the gate -/

inductive FxReplayOutcome where
  | substituted | mismatch | runLive

inductive FxStatus where
  | invoke | substituted | error
deriving DecidableEq

/-- what does not change while the program runs; `nameAlias` gives the front ends' own spellings -/
structure Session where
  registry : Registry
  targetIos : Bool
  envDeniedMask : EffectMask
  recording : Bool
  replaying : Bool
  nameAlias : FrontendKind → Name → Option Name

def pscalFxEffectiveDeniedMask (ss : Session) (cli : EffectMask) : EffectMask :=
  cli ||| ss.envDeniedMask

def pscalFxPolicyActive (ss : Session) (cli : EffectMask) : Bool :=
  pscalFxEffectiveDeniedMask ss cli ≠ fxPure ∨ ss.recording ∨ ss.replaying

def fxDenies (ss : Session) (kind : FrontendKind) (cli : EffectMask) (id : Nat) : Bool :=
  pscalFxEffectiveDeniedMask ss cli &&& getVmBuiltinEffectMaskById ss.registry kind id ≠ 0 ∧
    pscalFxBuiltinIsDenyExempt (getVmBuiltinNameById ss.registry id) = false

def vmApplyFxPolicy (ss : Session) (kind : FrontendKind) (cli : EffectMask) (id : Nat)
    (replay : FxReplayOutcome) : FxStatus :=
  if pscalFxPolicyActive ss cli = false then .invoke
  else if getVmBuiltinEffectMaskById ss.registry kind id = fxPure then .invoke
  else if fxDenies ss kind cli id then .error
  else if pscalFxBuiltinIsJournalExempt (getVmBuiltinNameById ss.registry id) then .invoke
  else if ss.replaying then
    match replay with
    | .mismatch => .error
    | .substituted => .substituted
    | .runLive => .invoke
  else .invoke

theorem fxDenies_pure {ss : Session} {kind : FrontendKind} {cli : EffectMask} {id : Nat}
    (h : getVmBuiltinEffectMaskById ss.registry kind id = fxPure) :
    fxDenies ss kind cli id = false := by
  unfold fxDenies
  rw [h, fxPure, UInt32.and_zero]
  exact decide_eq_false fun h => h.1 rfl

theorem fxDenies_inactive {ss : Session} {kind : FrontendKind} {cli : EffectMask} {id : Nat}
    (h : pscalFxPolicyActive ss cli = false) : fxDenies ss kind cli id = false := by
  have hmask : pscalFxEffectiveDeniedMask ss cli = fxPure := by
    by_contra hne
    exact of_decide_eq_false h (.inl hne)
  unfold fxDenies
  rw [hmask, fxPure, UInt32.zero_and]
  exact decide_eq_false fun h => h.1 rfl

/-- **the gate lets no denied id through** -/
theorem vmApplyFxPolicy_invoke {ss : Session} {kind : FrontendKind} {cli : EffectMask} {id : Nat}
    {replay : FxReplayOutcome} (h : vmApplyFxPolicy ss kind cli id replay = .invoke) :
    fxDenies ss kind cli id = false := by
  by_cases hactive : pscalFxPolicyActive ss cli = false
  · exact fxDenies_inactive hactive
  by_cases hpure : getVmBuiltinEffectMaskById ss.registry kind id = fxPure
  · exact fxDenies_pure hpure
  unfold vmApplyFxPolicy at h
  rw [if_neg hactive, if_neg hpure] at h
  by_contra hdenies
  rw [if_pos (Bool.of_not_eq_false hdenies)] at h
  cases h

/-! ## finding the handler -/

/-- `byName` is not in the source: the handler comes from `getVmBuiltinMapping` -/
structure Resolved where
  handler : Option VmBuiltinFn
  id : Nat
  byName : Bool

/-- `CALL_BUILTIN_PROC`; the encoded name is that of the constant, if it is a string -/
def resolveBuiltinProc (r : Registry) (kind : FrontendKind) (builtinId : Nat)
    (encodedName : Option Name) : Resolved :=
  let builtinName := getVmBuiltinNameById r builtinId
  let handler := getVmBuiltinHandlerById r kind builtinId
  let byId : Resolved := { handler := handler, id := builtinId, byName := false }
  match encodedName.filter fun n => n ≠ [] with
  | some encoded =>
    let idNameMismatch := handler.isSome && builtinName.any fun n => !strcasecmp n encoded
    if handler.isNone || builtinName.isNone || idNameMismatch then
      match getVmBuiltinMapping r encoded with
      | some (id, m) => { handler := m.handler, id := id, byName := true }
      | none => if idNameMismatch then { byId with handler := none } else byId
    else byId
  | none =>
    match handler, builtinName with
    | none, some canonical =>
      match getVmBuiltinMapping r canonical with
      | some (id, m) => { handler := m.handler, id := id, byName := true }
      | none => byId
    | _, _ => byId

/-- an entry of `builtin_resolved_ids`: -2, -1 or an id -/
inductive ResolvedId where
  | pending | unknown | id (n : Nat)

def resolveByName (r : Registry) (nameLower : Option Name) (name : Name) :
    Option (Nat × VmBuiltinMapping) :=
  match nameLower.bind (getVmBuiltinMappingCanonical r) with
  | some found => some found
  | none => getVmBuiltinMapping r name

def resolvedByName (found : Option (Nat × VmBuiltinMapping)) : Resolved :=
  match found with
  | some (id, m) => { handler := m.handler, id := id, byName := true }
  | none => { handler := none, id := 0, byName := true }

/-- `CALL_BUILTIN`, with the entry of its constant, if the chunk has the table -/
def resolveBuiltin (r : Registry) (kind : FrontendKind) (entry : Option ResolvedId)
    (nameLower : Option Name) (name : Name) : Resolved :=
  match entry with
  | some (.id n) => { handler := getVmBuiltinHandlerById r kind n, id := n, byName := false }
  | some .unknown => { handler := none, id := 0, byName := false }
  | _ => resolvedByName (resolveByName r nameLower name)

def resolveEntry (r : Registry) (nameLower : Option Name) (name : Name) : ResolvedId → ResolvedId
  | .pending =>
    match resolveByName r nameLower name with
    | some (id, _) => .id id
    | none => .unknown
  | entry => entry

/-- the shell's handler found by name, for a front end that sees the builtin it replaced -/
def Resolved.replaced (r : Registry) (kind : FrontendKind) (res : Resolved) : Prop :=
  res.byName = true ∧ shellViewOfId r kind res.id = .replaced

theorem resolveByName_mem {r : Registry} {nameLower : Option Name} {name : Name} {id : Nat}
    {m : VmBuiltinMapping} (h : resolveByName r nameLower name = some (id, m)) :
    r.mappings[id]? = some m := by
  unfold resolveByName at h
  split at h
  · next hlower =>
    obtain ⟨lower, -, hlookup⟩ := bind_eq_some_iff.mp hlower
    cases h
    exact lookup_mem hlookup
  · exact mapping_mem h

/-- the handler, unless it is the shell's, has the mask that the gate will look up -/
def Resolved.Gated (r : Registry) (kind : FrontendKind) (res : Resolved) : Prop :=
  ∀ h, res.handler = some h → ¬res.replaced r kind →
    h.effects = getVmBuiltinEffectMaskById r kind res.id

section
variable {r : Registry} {kind : FrontendKind} (hr : Sound r)
include hr

theorem gated_byId (id : Nat) (byName : Bool) :
    Resolved.Gated r kind ⟨getVmBuiltinHandlerById r kind id, id, byName⟩ :=
  fun _ hh _ => effects_of_id hr hh

theorem gated_byName {id : Nat} {m : VmBuiltinMapping} (hm : r.mappings[id]? = some m) :
    Resolved.Gated r kind ⟨m.handler, id, true⟩ :=
  fun _ hh hview => effects_of_name hr hm hh fun hv => hview ⟨rfl, hv⟩

theorem resolveBuiltinProc_gated (builtinId : Nat) (encodedName : Option Name) :
    (resolveBuiltinProc r kind builtinId encodedName).Gated r kind := by
  unfold resolveBuiltinProc
  simp only
  split
  · split
    · split
      · next id m hm => exact gated_byName hr (mapping_mem hm)
      · split
        · exact fun h hh => nomatch hh
        · exact gated_byId hr builtinId false
    · exact gated_byId hr builtinId false
  · split
    · split
      · next id m hm => exact gated_byName hr (mapping_mem hm)
      · exact gated_byId hr builtinId false
    · exact gated_byId hr builtinId false

theorem resolveBuiltin_gated (entry : Option ResolvedId) (nameLower : Option Name) (name : Name) :
    (resolveBuiltin r kind entry nameLower name).Gated r kind := by
  unfold resolveBuiltin
  split
  · exact gated_byId hr _ false
  · exact fun h hh => nomatch hh
  · unfold resolvedByName
    split
    · next hfound => exact gated_byName hr (resolveByName_mem hfound)
    · exact fun h hh => nomatch hh

end

/-! ## the run -/

abbrev ThreadId : Type := Nat

inductive Work where
  | bytecode
  | builtin (id : Nat) (handler : VmBuiltinFn)

/-- `frontendKind` and `fxDeniedMask` are fields of the iOS build only -/
structure ThreadJob where
  work : Work
  frontendKind : FrontendKind
  fxDeniedMask : EffectMask

structure Invocation where
  id : Nat
  handler : VmBuiltinFn

/-- `cli` is `g_fx_cli_denied_mask` as each thread sees it: one variable, but on iOS one for each
thread.  `ended` and `invoked` are not in the source: whether the mask was lifted, and the
handlers called so far. -/
structure RunState where
  cli : ThreadId → EffectMask
  frontend : ThreadId → FrontendKind
  running : ThreadId → Bool
  jobs : List ThreadJob
  resolvedIds : Option (Nat → ResolvedId)
  ended : Bool
  invoked : List Invocation

inductive SpawnTarget where
  | name (n : Name)
  | id (n : Nat)

inductive Action where
  | callBuiltinProc (t : ThreadId) (builtinId : Nat) (encodedName : Option Name)
      (replay : FxReplayOutcome)
  | callBuiltin (t : ThreadId) (nameIdx : Nat) (nameLower : Option Name) (name : Name)
      (replay : FxReplayOutcome)
  | spawnBuiltin (t : ThreadId) (target : SpawnTarget)
  | spawnBytecode (t : ThreadId)
  | startJob (w : ThreadId) (i : Nat) (canceled : Bool)
  | finishJob (w : ThreadId)
  | endSession (t : ThreadId)

def kThreadBuiltinAllowlistNames : List String := [
  "delay", "httprequest", "httprequesttofile", "httprequestasync", "httprequestasynctofile",
  "httptryawait", "httpawait", "httpisdone", "httpcancel", "httpgetasyncprogress",
  "httpgetasynctotal", "httpgetlastheaders", "httpgetheader", "httpclearheaders",
  "httpsetheader", "httpsetoption", "httperrorcode", "httplasterror", "apireceive", "apisend",
  "dnslookup"]

def threadBuiltinIsAllowlisted (r : Registry) (kind : FrontendKind) (id : Nat) : Bool :=
  id < r.numVmBuiltins ∧
    kThreadBuiltinAllowlistNames.any fun n => getVmBuiltinID r kind (cName n) = some id

def spawnTargetId (ss : Session) (kind : FrontendKind) : SpawnTarget → Option Nat
  | .id n => some n
  | .name n =>
    match (ss.nameAlias kind n).bind (getVmBuiltinID ss.registry kind) with
    | some id => some id
    | none => getVmBuiltinID ss.registry kind n

def RunState.stop (s : RunState) (t : ThreadId) : RunState :=
  { s with running := Function.update s.running t false }

def RunState.enqueue (s : RunState) (t : ThreadId) (work : Work) : RunState :=
  { s with
    jobs := s.jobs ++
      [{ work := work, frontendKind := s.frontend t, fxDeniedMask := s.cli t }] }

/-- what both opcodes do with the handler -/
def callResolved (ss : Session) (s : RunState) (t : ThreadId) (res : Resolved)
    (replay : FxReplayOutcome) : RunState :=
  match res.handler with
  | none => s.stop t
  | some h =>
    match vmApplyFxPolicy ss (s.frontend t) (s.cli t) res.id replay with
    | .error => s.stop t
    | .substituted => s
    | .invoke => { s with invoked := s.invoked ++ [⟨res.id, h⟩] }

/-- `threadSpawnOrSubmitCommon` and `vmSpawnBuiltinThread` -/
def threadSpawnOrSubmitCommon (ss : Session) (s : RunState) (t : ThreadId) (target : SpawnTarget) :
    RunState :=
  match spawnTargetId ss (s.frontend t) target with
  | none => s.stop t
  | some id =>
    if (getVmBuiltinNameById ss.registry id).isNone then s.stop t
    else if threadBuiltinIsAllowlisted ss.registry (s.frontend t) id = false then s.stop t
    else if fxDenies ss (s.frontend t) (s.cli t) id then s.stop t
    else
      match getVmBuiltinHandlerById ss.registry (s.frontend t) id with
      | none => s.stop t
      | some h => s.enqueue t (.builtin id h)

/-- `vmThreadPrepareWorkerVm`: a worker takes the mask and the front end of its job on iOS -/
def vmThreadPrepareWorkerVm (ss : Session) (s : RunState) (w : ThreadId) (job : ThreadJob) :
    RunState :=
  if ss.targetIos then
    { s with
      cli := Function.update s.cli w job.fxDeniedMask
      frontend := Function.update s.frontend w job.frontendKind }
  else s

/-- `threadStart` for one job -/
def threadStart (ss : Session) (s : RunState) (w : ThreadId) (i : Nat) (job : ThreadJob)
    (canceled : Bool) : RunState :=
  let s := vmThreadPrepareWorkerVm ss { s with jobs := s.jobs.eraseIdx i } w job
  match job.work with
  | .bytecode => { s with running := Function.update s.running w !canceled }
  | .builtin id h =>
    if canceled then s else { s with invoked := s.invoked ++ [⟨id, h⟩] }

/-- `vmAtExitCleanup`, which `halt` calls on its thread before the process exits -/
def pscalFxEndSession (ss : Session) (s : RunState) (t : ThreadId) : RunState :=
  { s.stop t with
    cli := if ss.targetIos then Function.update s.cli t fxPure else fun _ => fxPure
    ended := true }

/-- The program's own thread is 0, the others are workers. -/
def step (ss : Session) (s : RunState) : Action → Option RunState
  | .callBuiltinProc t builtinId encodedName replay =>
    if s.running t then
      some (callResolved ss s t
        (resolveBuiltinProc ss.registry (s.frontend t) builtinId encodedName) replay)
    else none
  | .callBuiltin t nameIdx nameLower name replay =>
    if s.running t then
      let s' := { s with
        resolvedIds := s.resolvedIds.map fun ids =>
          Function.update ids nameIdx (resolveEntry ss.registry nameLower name (ids nameIdx)) }
      some (callResolved ss s' t
        (resolveBuiltin ss.registry (s.frontend t) (s.resolvedIds.map fun ids => ids nameIdx)
          nameLower name) replay)
    else none
  | .spawnBuiltin t target =>
    if s.running t then some (threadSpawnOrSubmitCommon ss s t target) else none
  | .spawnBytecode t => if s.running t then some (s.enqueue t .bytecode) else none
  | .startJob w i canceled =>
    match s.jobs[i]? with
    | none => none
    | some job =>
      if w ≠ 0 ∧ s.running w = false then some (threadStart ss s w i job canceled) else none
  | .finishJob w => if s.running w then some (s.stop w) else none
  | .endSession t => if s.running t then some (pscalFxEndSession ss s t) else none

def startState (denied : EffectMask) (kind : FrontendKind) (resolvedIds : Option (Nat → ResolvedId)) :
    RunState :=
  { cli := fun _ => denied
    frontend := fun _ => kind
    running := fun t => t = 0
    jobs := []
    resolvedIds := resolvedIds
    ended := false
    invoked := [] }

/-- what must not happen: the handler of a builtin with a denied effect, not exempt, is called -/
def Invocation.deniedBy (ss : Session) (denied : EffectMask) (inv : Invocation) : Bool :=
  pscalFxEffectiveDeniedMask ss denied &&& inv.handler.effects ≠ 0 ∧
    pscalFxBuiltinIsDenyExempt (getVmBuiltinNameById ss.registry inv.id) = false

/-! ## where the mask holds -/

/-- no thread has ended the session, or it was not the mask of the others -/
def Masked (ss : Session) (s : RunState) : Prop := ss.targetIos = true ∨ s.ended = false

/-- The condition on a step: whoever starts a builtin or a builtin job still has the mask, and does
not find by its name a builtin that the shell replaced for its front end. -/
def Keeps (ss : Session) (s : RunState) : Action → Prop
  | .callBuiltinProc t builtinId encodedName _ =>
    Masked ss s ∧
      ¬(resolveBuiltinProc ss.registry (s.frontend t) builtinId encodedName).replaced ss.registry
        (s.frontend t)
  | .callBuiltin t nameIdx nameLower name _ =>
    Masked ss s ∧
      ¬(resolveBuiltin ss.registry (s.frontend t) (s.resolvedIds.map fun ids => ids nameIdx)
        nameLower name).replaced ss.registry (s.frontend t)
  | .spawnBuiltin _ _ => Masked ss s
  | _ => True

/-- Every thread at work has the mask of the run, and so has every job; the handlers called, and
those that wait in a job, are none that it denies. -/
structure Denying (ss : Session) (denied : EffectMask) (s : RunState) : Prop where
  ios : ss.targetIos = true → ∀ t, s.running t = true → s.cli t = denied
  host : ss.targetIos = false → s.ended = false → ∀ t, s.cli t = denied
  job : ss.targetIos = true → ∀ j ∈ s.jobs, j.fxDeniedMask = denied
  waiting : ∀ j ∈ s.jobs, ∀ id h, j.work = .builtin id h →
    (Invocation.mk id h).deniedBy ss denied = false
  invoked : ∀ inv ∈ s.invoked, inv.deniedBy ss denied = false

section
variable {ss : Session} {denied : EffectMask} {s : RunState}

theorem Denying.cli (h : Denying ss denied s) (hmasked : Masked ss s) {t : ThreadId}
    (ht : s.running t = true) : s.cli t = denied := by
  cases hios : ss.targetIos with
  | true => exact h.ios hios t ht
  | false =>
    rcases hmasked with htrue | hended
    · rw [hios] at htrue
      cases htrue
    · exact h.host hios hended t

theorem deniedBy_of_fxDenies {kind : FrontendKind} {id : Nat} {f : VmBuiltinFn}
    (heffects : f.effects = getVmBuiltinEffectMaskById ss.registry kind id)
    (hdenies : fxDenies ss kind denied id = false) :
    (Invocation.mk id f).deniedBy ss denied = false := by
  unfold Invocation.deniedBy
  rw [heffects]
  exact hdenies

theorem Denying.stop (h : Denying ss denied s) (t : ThreadId) : Denying ss denied (s.stop t) := by
  refine ⟨?_, h.host, h.job, h.waiting, h.invoked⟩
  intro hios u hu
  by_cases hut : u = t
  · subst hut
    exact Bool.noConfusion ((update_self ..).symm.trans hu)
  · exact h.ios hios u ((update_of_ne hut ..).symm.trans hu)

theorem Denying.invoke (h : Denying ss denied s) {inv : Invocation}
    (hinv : inv.deniedBy ss denied = false) :
    Denying ss denied { s with invoked := s.invoked ++ [inv] } := by
  refine ⟨h.ios, h.host, h.job, h.waiting, ?_⟩
  intro inv' hmem
  rcases mem_append.mp hmem with hmem | hmem
  · exact h.invoked inv' hmem
  · rw [mem_singleton.mp hmem]
    exact hinv

theorem Denying.enqueue (h : Denying ss denied s) {t : ThreadId} (ht : s.running t = true)
    {work : Work} (hwork : ∀ id f, work = .builtin id f →
      (Invocation.mk id f).deniedBy ss denied = false) :
    Denying ss denied (s.enqueue t work) := by
  refine ⟨h.ios, h.host, ?_, ?_, h.invoked⟩
  · intro hios j hj
    rcases mem_append.mp hj with hj | hj
    · exact h.job hios j hj
    · rw [mem_singleton.mp hj]
      exact h.ios hios t ht
  · intro j hj id f hjwork
    rcases mem_append.mp hj with hj | hj
    · exact h.waiting j hj id f hjwork
    · rw [mem_singleton.mp hj] at hjwork
      exact hwork id f hjwork

theorem Denying.callResolved (h : Denying ss denied s) {t : ThreadId} (hcli : s.cli t = denied)
    {res : Resolved} (hgated : res.Gated ss.registry (s.frontend t))
    (hview : ¬res.replaced ss.registry (s.frontend t)) (replay : FxReplayOutcome) :
    Denying ss denied (callResolved ss s t res replay) := by
  unfold Fx.callResolved
  split
  · exact h.stop t
  · next f hf =>
    split
    · exact h.stop t
    · exact h
    · next hinvoke =>
      have hdenies := vmApplyFxPolicy_invoke hinvoke
      rw [hcli] at hdenies
      exact h.invoke (deniedBy_of_fxDenies (hgated f hf hview) hdenies)

theorem Denying.threadSpawnOrSubmitCommon (h : Denying ss denied s) (hr : Sound ss.registry)
    {t : ThreadId} (ht : s.running t = true) (hcli : s.cli t = denied) (target : SpawnTarget) :
    Denying ss denied (threadSpawnOrSubmitCommon ss s t target) := by
  unfold Fx.threadSpawnOrSubmitCommon
  split
  · exact h.stop t
  · next id _ =>
    split
    · exact h.stop t
    split
    · exact h.stop t
    split
    · exact h.stop t
    next hdenies =>
    split
    · exact h.stop t
    next f hf =>
    refine h.enqueue ht ?_
    rintro _ _ ⟨⟩
    have hdenies := Bool.of_not_eq_true hdenies
    rw [hcli] at hdenies
    exact deniedBy_of_fxDenies (effects_of_id hr hf) hdenies

theorem Denying.eraseJob (h : Denying ss denied s) (i : Nat) :
    Denying ss denied { s with jobs := s.jobs.eraseIdx i } :=
  ⟨h.ios, h.host, fun hios j hj => h.job hios j (mem_of_mem_eraseIdx hj),
    fun j hj => h.waiting j (mem_of_mem_eraseIdx hj), h.invoked⟩

theorem Denying.vmThreadPrepareWorkerVm (h : Denying ss denied s) (w : ThreadId) {job : ThreadJob}
    (hjob : ss.targetIos = true → job.fxDeniedMask = denied) :
    Denying ss denied (vmThreadPrepareWorkerVm ss s w job) := by
  unfold Fx.vmThreadPrepareWorkerVm
  split
  · next hios =>
    refine ⟨?_, ?_, h.job, h.waiting, h.invoked⟩
    · intro _ u hu
      by_cases huw : u = w
      · subst huw
        exact (update_self ..).trans (hjob hios)
      · exact (update_of_ne huw ..).trans (h.ios hios u hu)
    · intro hhost
      rw [hios] at hhost
      cases hhost
  · exact h

theorem Denying.run (h : Denying ss denied s) (w : ThreadId) (b : Bool)
    (hcli : ss.targetIos = true → s.cli w = denied) :
    Denying ss denied { s with running := update s.running w b } := by
  refine ⟨?_, h.host, h.job, h.waiting, h.invoked⟩
  intro hios u hu
  by_cases huw : u = w
  · subst huw
    exact hcli hios
  · exact h.ios hios u ((update_of_ne huw ..).symm.trans hu)

theorem Denying.threadStart (h : Denying ss denied s) (w : ThreadId) {i : Nat} {job : ThreadJob}
    (hjob : s.jobs[i]? = some job) (canceled : Bool) :
    Denying ss denied (threadStart ss s w i job canceled) := by
  have hmem : job ∈ s.jobs := mem_of_getElem? hjob
  have hprepared := (h.eraseJob i).vmThreadPrepareWorkerVm w fun hios => h.job hios job hmem
  unfold Fx.threadStart
  simp only
  split
  · refine hprepared.run w _ fun hios => ?_
    unfold Fx.vmThreadPrepareWorkerVm
    rw [if_pos hios]
    exact (update_self ..).trans (h.job hios job hmem)
  · next id f hwork =>
    split
    · exact hprepared
    · exact hprepared.invoke (h.waiting job hmem id f hwork)

theorem Denying.pscalFxEndSession (h : Denying ss denied s) (t : ThreadId) :
    Denying ss denied (pscalFxEndSession ss s t) := by
  refine ⟨?_, ?_, h.job, h.waiting, h.invoked⟩
  · intro hios u hu
    by_cases hut : u = t
    · subst hut
      exact Bool.noConfusion ((update_self ..).symm.trans hu)
    · rw [Fx.pscalFxEndSession, if_pos hios]
      exact (update_of_ne hut ..).trans ((h.stop t).ios hios u hu)
  · intro _ hended
    cases hended

theorem Denying.resolve (h : Denying ss denied s) (ids : Option (Nat → ResolvedId)) :
    Denying ss denied { s with resolvedIds := ids } :=
  ⟨h.ios, h.host, h.job, h.waiting, h.invoked⟩

/-- **one step** -/
theorem Denying.step (hr : Sound ss.registry) (h : Denying ss denied s) {a : Action} {s' : RunState}
    (hkeeps : Keeps ss s a) (hstep : step ss s a = some s') : Denying ss denied s' := by
  cases a with
  | callBuiltinProc t builtinId encodedName replay =>
    obtain ⟨ht, hs⟩ := ite_none_right_eq_some.mp hstep
    cases hs
    exact h.callResolved (h.cli hkeeps.1 ht) (resolveBuiltinProc_gated hr _ _) hkeeps.2 replay
  | callBuiltin t nameIdx nameLower name replay =>
    obtain ⟨ht, hs⟩ := ite_none_right_eq_some.mp hstep
    cases hs
    let ids := s.resolvedIds.map fun ids =>
      update ids nameIdx (resolveEntry ss.registry nameLower name (ids nameIdx))
    exact (h.resolve ids).callResolved (h.cli hkeeps.1 ht) (resolveBuiltin_gated hr _ _ _) hkeeps.2
      replay
  | spawnBuiltin t target =>
    obtain ⟨ht, hs⟩ := ite_none_right_eq_some.mp hstep
    cases hs
    exact h.threadSpawnOrSubmitCommon hr ht (h.cli hkeeps ht) target
  | spawnBytecode t =>
    obtain ⟨ht, hs⟩ := ite_none_right_eq_some.mp hstep
    cases hs
    exact h.enqueue ht (fun _ _ hwork => nomatch hwork)
  | startJob w i canceled =>
    simp only [Fx.step] at hstep
    split at hstep
    · cases hstep
    next job hjob =>
    obtain ⟨-, hs⟩ := ite_none_right_eq_some.mp hstep
    cases hs
    exact h.threadStart w hjob canceled
  | finishJob w =>
    obtain ⟨-, hs⟩ := ite_none_right_eq_some.mp hstep
    cases hs
    exact h.stop w
  | endSession t =>
    obtain ⟨-, hs⟩ := ite_none_right_eq_some.mp hstep
    cases hs
    exact h.pscalFxEndSession t

theorem denying_start (kind : FrontendKind) (resolvedIds : Option (Nat → ResolvedId)) :
    Denying ss denied (startState denied kind resolvedIds) :=
  ⟨fun _ _ _ => rfl, fun _ _ _ => rfl, fun _ _ hj => absurd hj not_mem_nil,
    fun _ hj => absurd hj not_mem_nil, fun _ hinv => absurd hinv not_mem_nil⟩

end

/-- **Denied effects never happen.**  In a run of any program, with any front end and after any
registrations, in which whoever starts a builtin still has the mask and none is found by a name
that the shell took, no handler is called, by an opcode or by a worker, whose effects meet the
denied mask, those of `halt` and `exit` apart. -/
theorem deniedEffects_never (core : List (Name × Option Nat)) (regs : List Registration)
    (ss : Session) (hregistry : ss.registry = registered core regs) (denied : EffectMask)
    (kind : FrontendKind) (resolvedIds : Option (Nat → ResolvedId)) {tr : List Action}
    {s : RunState} (h : Transitions.Run (fun s a s' => Keeps ss s a ∧ step ss s a = some s')
      (startState denied kind resolvedIds) tr s) :
    ∀ inv ∈ s.invoked, inv.deniedBy ss denied = false := by
  have hr : Sound ss.registry := hregistry ▸ sound_registered core regs
  have hall : Denying ss denied s :=
    Transitions.Run.invariant (I := fun _ s => Denying ss denied s) (denying_start kind resolvedIds)
      (fun _ _ _ _ hdenying hstep => hdenying.step hr hstep.1 hstep.2) h
  exact hall.invoked

def instanceTable : List (Name × Option Nat) :=
  [(cName "halt", some 1), (cName "delay", some 2), (cName "writeln", some 3)]

def instanceSession : Session :=
  { registry := registered instanceTable []
    targetIos := false
    envDeniedMask := fxPure
    recording := false
    replaying := false
    nameAlias := fun _ _ => none }

theorem deniedEffects_never_writeln :
    ∃ s, step instanceSession (startState fxClock .pascal none)
        (.callBuiltinProc 0 2 (some (cName "writeln")) .runLive) = some s ∧
      s.invoked.length = 1 ∧ ∀ inv ∈ s.invoked, inv.deniedBy instanceSession fxClock = false := by
  have hkeeps : Keeps instanceSession (startState fxClock .pascal none)
      (.callBuiltinProc 0 2 (some (cName "writeln")) .runLive) :=
    ⟨.inr rfl, fun hreplaced => absurd hreplaced.1 (by decide +kernel)⟩
  exact ⟨_, rfl, by decide +kernel, deniedEffects_never instanceTable [] instanceSession rfl fxClock
    .pascal none (Transitions.Run.next .start ⟨hkeeps, rfl⟩)⟩

/-- the program starts a worker and halts, and the worker calls `delay` before the process ends -/
def haltTrace : List Action := [
  .spawnBytecode 0, .startJob 1 0 false, .callBuiltinProc 0 0 (some (cName "halt")) .runLive,
  .endSession 0, .callBuiltinProc 1 1 (some (cName "delay")) .runLive]

/-- under `--deny clock`: `halt` lifts the mask, which is the worker's too -/
theorem halt_deniedEffect : ∃ s, Transitions.Run (fun s a s' => step instanceSession s a = some s')
        (startState fxClock .pascal none) haltTrace s ∧
      ∃ inv ∈ s.invoked, inv.deniedBy instanceSession fxClock = true := by
  have heval : (haltTrace.foldlM (step instanceSession) (startState fxClock .pascal none)).any
      (fun s => s.invoked.any fun inv => inv.deniedBy instanceSession fxClock) = true := by
    decide +kernel
  obtain ⟨s, hs, hany⟩ := (Option.any_eq_true _ _).mp heval
  obtain ⟨inv, hmem, hdenied⟩ := List.any_eq_true.mp hany
  exact ⟨s, .ofSteps hs, inv, hmem, hdenied⟩

/-- on iOS, under `--deny io`: Aether's `exec`, of the effect `FX_PROC`, is found by its name, and
the handler called is the shell's, of the effects `FX_PROC | FX_IO` -/
example :
    let ss : Session := { instanceSession with
      registry := registered [(cName "exec", some 1)] [⟨true, cName "exec", 2, fxProc ||| fxIO⟩]
      targetIos := true }
    (step ss (startState fxIO .aether none)
        (.callBuiltin 0 0 (some (cName "exec")) (cName "exec") .runLive)).any
      (fun s => s.invoked.any fun inv => inv.deniedBy ss fxIO) = true := by
  decide +kernel

end Fx

end Pscal
