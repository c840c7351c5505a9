import Pscal.Symbol.Buckets

/-!
# The registry of builtins

The dispatch table of `backend_ast/builtin.c`, what registration does to it, and its lookups by id
and by name.  In the app the shell's builtins go into the one table of the process, and Aether
sees the builtins that they replaced.

* `Registry`  the tables, and `registerVmBuiltin`, `registerShellVmBuiltin`;
* `getVmBuiltinHandlerById`, `getVmBuiltinEffectMaskById`  as the front end sees an id;
* `getVmBuiltinMapping`  by name: as registered, for every front end;
* `sound_registered`  a handler carries the mask it was registered with.
-/

namespace Pscal

open List Option Function

namespace Fx

abbrev Name : Type := List UInt8

def cName (s : String) : Name := s.toList.map fun c => c.toNat.toUInt8

/-! ## effect masks -/

abbrev EffectMask : Type := UInt32

def fxPure : EffectMask := 0
def fxIO : EffectMask := 1
def fxNet : EffectMask := 2
def fxProc : EffectMask := 4
def fxClock : EffectMask := 8
def fxRandom : EffectMask := 16

def kEffectClassifiedNames : List (String × EffectMask) := [
    ("print", fxIO), ("printf", fxIO), ("println", fxIO), ("fprintf", fxIO), ("write", fxIO),
    ("writeln", fxIO), ("read", fxIO), ("readln", fxIO), ("flush", fxIO), ("exit", fxProc),
    ("halt", fxProc), ("store", fxProc), ("swap", fxProc), ("fetch", fxProc), ("delay", fxClock),
    ("sleep", fxClock), ("openaichatcompletions", fxNet), ("ai_chat", fxNet),
    ("task_spawn", fxProc), ("task_queue", fxProc), ("task_wait", fxProc),
    ("task_lookup", fxProc), ("task_status", fxProc), ("task_result", fxProc),
    ("task_stats", fxProc), ("task_cancel", fxProc), ("task_pause", fxProc),
    ("task_resume", fxProc), ("task_set_name", fxProc), ("thread_spawn_named", fxProc),
    ("thread_pool_submit", fxProc), ("thread_set_name", fxProc), ("thread_cancel", fxProc),
    ("thread_pause", fxProc), ("thread_resume", fxProc), ("thread_get_result", fxProc),
    ("thread_get_status", fxProc), ("thread_lookup", fxProc), ("thread_stats", fxProc),
    ("threadspawnbuiltin", fxProc), ("waitforthread", fxProc), ("threadpoolsubmit", fxProc),
    ("threadgetresult", fxProc), ("threadgetstatus", fxProc), ("threadcancel", fxProc),
    ("threadlookup", fxProc), ("threadpause", fxProc), ("threadresume", fxProc),
    ("threadsetname", fxProc), ("threadstats", fxProc), ("threadstatsjson", fxProc),
    ("taskspawn", fxProc), ("taskawait", fxProc), ("taskdone", fxProc), ("taskcancel", fxProc),
    ("fileexists", fxIO), ("getcurrentdir", fxIO), ("mkdir", fxIO), ("rmdir", fxIO),
    ("rename", fxIO), ("erase", fxIO), ("findfirst", fxIO), ("findnext", fxIO),
    ("getfattr", fxIO), ("fopen", fxIO), ("fclose", fxIO), ("fflush", fxIO), ("filesize", fxIO),
    ("blockread", fxIO), ("blockwrite", fxIO), ("ioresult", fxIO), ("eof", fxIO),
    ("assignfile", fxIO), ("closefile", fxIO), ("mstreamloadfromfile", fxIO),
    ("mstreamsavetofile", fxIO), ("toon_parse_file", fxIO), ("yyjsonreadfile", fxIO),
    ("getenv", fxIO), ("getenvint", fxIO), ("paramstr", fxIO), ("paramcount", fxIO),
    ("getpid", fxProc), ("exec", fxProc), ("beep", fxIO), ("dosexec", fxProc),
    ("dosgetenv", fxIO), ("dosfindfirst", fxIO), ("dosfindnext", fxIO), ("dosgetdate", fxClock),
    ("dosgettime", fxClock), ("dosgetfattr", fxIO), ("dosmkdir", fxIO), ("dosrmdir", fxIO),
    ("random", fxRandom), ("randomize", fxRandom), ("gettime", fxClock), ("getdate", fxClock),
    ("realtimeclock", fxClock), ("readkey", fxIO), ("keypressed", fxIO), ("dnslookup", fxNet),
    ("apisend", fxNet), ("apireceive", fxNet), ("httpsession", fxNet), ("httpclose", fxNet),
    ("httperrorcode", fxNet), ("httpgetlastheaders", fxNet), ("httpgetheader", fxNet),
    ("httpsetheader", fxNet), ("httpclearheaders", fxNet), ("httpsetoption", fxNet),
    ("httprequest", fxNet), ("httprequesttofile", fxNet), ("httprequestasync", fxNet),
    ("httprequestasynctofile", fxNet), ("httpisdone", fxNet), ("httptryawait", fxNet),
    ("httpcancel", fxNet), ("httpgetasyncprogress", fxNet), ("httpgetasynctotal", fxNet),
    ("httpawait", fxNet), ("httplasterror", fxNet), ("socketcreate", fxNet),
    ("socketbind", fxNet), ("socketbindaddr", fxNet), ("socketlisten", fxNet),
    ("socketaccept", fxNet), ("socketconnect", fxNet), ("socketsend", fxNet),
    ("socketreceive", fxNet), ("socketpoll", fxNet), ("socketclose", fxNet),
    ("socketsetblocking", fxNet), ("socketpeeraddr", fxNet), ("socketlasterror", fxNet),
    ("sqliteopen", fxIO), ("sqliteclose", fxIO), ("sqliteexec", fxIO), ("sqliteprepare", fxIO),
    ("sqlitefinalize", fxIO), ("sqlitestep", fxIO), ("sqlitereset", fxIO),
    ("sqlitecolumncount", fxIO), ("sqlitecolumntype", fxIO), ("sqlitecolumnname", fxIO),
    ("sqlitecolumnint", fxIO), ("sqlitecolumndouble", fxIO), ("sqlitecolumntext", fxIO),
    ("sqlitebindtext", fxIO), ("sqlitebindint", fxIO), ("sqlitebinddouble", fxIO),
    ("sqlitebindnull", fxIO), ("sqliteclearbindings", fxIO), ("sqliteerrmsg", fxIO),
    ("sqlitelastinsertrowid", fxIO), ("sqlitechanges", fxIO)]

def strcasecmp (a b : Name) : Bool := Buckets.toLowerString a = Buckets.toLowerString b

def pscalBuiltinNameEffectMask (name : Name) : EffectMask :=
  match kEffectClassifiedNames.find? fun e => strcasecmp (cName e.1) name with
  | some e => e.2
  | none => fxPure

def kFxDenyExemptNames : List String := ["halt", "exit"]

def pscalFxBuiltinIsDenyExempt (name : Option Name) : Bool :=
  name.any fun n => kFxDenyExemptNames.any fun e => strcasecmp (cName e) n

def kFxJournalExemptNames : List String := [
  "socketcreate", "socketbind", "socketbindaddr", "socketlisten", "socketaccept", "socketconnect",
  "socketsend", "socketreceive", "socketpoll", "socketclose", "socketsetblocking",
  "socketpeeraddr", "socketlasterror"]

def pscalFxBuiltinIsJournalExempt (name : Option Name) : Bool :=
  name.any fun n => kFxJournalExemptNames.any fun e => strcasecmp (cName e) n

/-! ## the registry -/

inductive FrontendKind where
  | unknown | pascal | rea | aether | clike | shell
deriving DecidableEq

/-- `effects` is not in the source, where a handler is its address: the mask it was registered
with, for an entry of the dispatch table that of its name. -/
structure VmBuiltinFn where
  address : Nat
  effects : EffectMask
deriving DecidableEq

structure VmBuiltinMapping where
  name : Name
  handler : Option VmBuiltinFn

/-- `g_shell_view` of an id -/
inductive ShellView where
  | none | only | replaced
deriving DecidableEq

/-- an entry of `g_shell_replaced` -/
structure ShellReplaced where
  id : Nat
  handler : VmBuiltinFn
  mask : EffectMask

def shellViewMaxIds : Nat := 4096
def shellReplacedMax : Nat := 32

/-- `mappings` is `vmBuiltinDispatchTable`, of `numVmBuiltins` entries, and after it the extra
table, so that an id is an index of it. -/
structure Registry where
  numVmBuiltins : Nat
  mappings : List VmBuiltinMapping
  names : Name → Option Nat
  effectOverrides : Nat → Option EffectMask
  shellViewUsed : Bool
  shellView : Nat → ShellView
  shellReplaced : List ShellReplaced

def canonicalizeBuiltinName (name : Name) : Option Name :=
  let canonical := Buckets.toLowerString (name.take (maxSymbolLength - 1))
  if canonical = [] then none else some canonical

def builtinRegistryLookupMapping (r : Registry) (canonical : Name) :
    Option (Nat × VmBuiltinMapping) :=
  if canonical = [] then none else
  match r.names (Buckets.toLowerString (canonical.take (maxSymbolLength - 1))) with
  | none => none
  | some id => (r.mappings[id]?).map fun m => (id, m)

def getVmBuiltinMappingCanonical (r : Registry) (canonical : Name) :
    Option (Nat × VmBuiltinMapping) :=
  builtinRegistryLookupMapping r canonical

def getVmBuiltinMapping (r : Registry) (name : Name) : Option (Nat × VmBuiltinMapping) :=
  (canonicalizeBuiltinName name).bind (builtinRegistryLookupMapping r)

def getVmBuiltinNameById (r : Registry) (id : Nat) : Option Name :=
  (r.mappings[id]?).map VmBuiltinMapping.name

def handlerByIdAsRegistered (r : Registry) (id : Nat) : Option VmBuiltinFn :=
  (r.mappings[id]?).bind VmBuiltinMapping.handler

def effectMaskByIdAsRegistered (r : Registry) (id : Nat) : EffectMask :=
  match r.effectOverrides id with
  | some mask => mask
  | none =>
    if id < r.numVmBuiltins then
      match r.mappings[id]? with
      | some m => pscalBuiltinNameEffectMask m.name
      | none => fxPure
    else fxIO

def builtinIdAsRegistered (r : Registry) (name : Name) : Option Nat :=
  match getVmBuiltinMapping r name with
  | none => none
  | some (id, m) =>
    if id < r.numVmBuiltins then (if m.handler.isSome then some id else none) else some id

def shellViewOfId (r : Registry) (kind : FrontendKind) (id : Nat) : ShellView :=
  if r.shellViewUsed = false ∨ shellViewMaxIds ≤ id ∨ kind ≠ .aether then .none
  else r.shellView id

def shellReplacedOfId (r : Registry) (id : Nat) : Option ShellReplaced :=
  r.shellReplaced.find? fun e => e.id = id

def getVmBuiltinEffectMaskById (r : Registry) (kind : FrontendKind) (id : Nat) : EffectMask :=
  if shellViewOfId r kind id = .replaced then
    match shellReplacedOfId r id with
    | some e => e.mask
    | none => effectMaskByIdAsRegistered r id
  else effectMaskByIdAsRegistered r id

def getVmBuiltinHandlerById (r : Registry) (kind : FrontendKind) (id : Nat) : Option VmBuiltinFn :=
  match shellViewOfId r kind id with
  | .only => none
  | .replaced =>
    match shellReplacedOfId r id with
    | some e => some e.handler
    | none => handlerByIdAsRegistered r id
  | .none => handlerByIdAsRegistered r id

def getVmBuiltinID (r : Registry) (kind : FrontendKind) (name : Name) : Option Nat :=
  match builtinIdAsRegistered r name with
  | none => none
  | some id => if shellViewOfId r kind id = .only then none else some id

/-! ## registration -/

/-- the table before anything is registered -/
def initBuiltinRegistry (vmBuiltinDispatchTable : List (Name × Option Nat)) : Registry :=
  { numVmBuiltins := vmBuiltinDispatchTable.length
    mappings := vmBuiltinDispatchTable.map fun e =>
      { name := e.1, handler := e.2.map fun a => ⟨a, pscalBuiltinNameEffectMask e.1⟩ }
    names := vmBuiltinDispatchTable.zipIdx.foldl
      (fun names e =>
        match canonicalizeBuiltinName e.1.1 with
        | some canonical => Function.update names canonical (some e.2)
        | none => names)
      fun _ => none
    effectOverrides := fun _ => none
    shellViewUsed := false
    shellView := fun _ => .none
    shellReplaced := [] }

def registerVmBuiltinFrom (r : Registry) (name : Name) (address : Nat) (mask : EffectMask)
    (fromShell : Bool) : Registry :=
  match canonicalizeBuiltinName name with
  | none => r
  | some canonical =>
    match builtinRegistryLookupMapping r canonical with
    | some (id, _) =>
      { r with
        mappings := r.mappings.modify id fun m => { m with handler := some ⟨address, mask⟩ }
        effectOverrides := Function.update r.effectOverrides id (some mask)
        shellView :=
          if fromShell = false ∧ id < shellViewMaxIds then Function.update r.shellView id .none
          else r.shellView }
    | none =>
      { r with
        mappings := r.mappings ++ [{ name := canonical, handler := some ⟨address, mask⟩ }]
        names := Function.update r.names canonical (some r.mappings.length)
        effectOverrides := Function.update r.effectOverrides r.mappings.length (some mask) }

def registerVmBuiltin (r : Registry) (name : Name) (address : Nat) (mask : EffectMask) : Registry :=
  registerVmBuiltinFrom r name address mask false

/-- what `registerShellVmBuiltin` keeps of the builtin that it is about to replace -/
def keepReplaced (r : Registry) (prior : Nat) : Registry :=
  match handlerByIdAsRegistered r prior with
  | some handler =>
    if prior < shellViewMaxIds ∧ r.shellView prior = .none ∧
        r.shellReplaced.length < shellReplacedMax then
      { r with
        shellReplaced :=
          r.shellReplaced ++ [⟨prior, handler, effectMaskByIdAsRegistered r prior⟩]
        shellView := Function.update r.shellView prior .replaced
        shellViewUsed := true }
    else r
  | none => r

def registerShellVmBuiltin (r : Registry) (name : Name) (address : Nat) (mask : EffectMask) :
    Registry :=
  match builtinIdAsRegistered r name with
  | some prior => registerVmBuiltinFrom (keepReplaced r prior) name address mask true
  | none =>
    let r := registerVmBuiltinFrom r name address mask true
    match builtinIdAsRegistered r name with
    | some id =>
      if id < shellViewMaxIds then
        { r with shellView := Function.update r.shellView id .only, shellViewUsed := true }
      else r
    | none => r

structure Registration where
  fromShell : Bool
  name : Name
  address : Nat
  mask : EffectMask

def Registration.apply (r : Registry) (reg : Registration) : Registry :=
  if reg.fromShell then registerShellVmBuiltin r reg.name reg.address reg.mask
  else registerVmBuiltin r reg.name reg.address reg.mask

/-- the registry after the registrations of start-up, in their order -/
def registered (core : List (Name × Option Nat)) (regs : List Registration) : Registry :=
  regs.foldl Registration.apply (initBuiltinRegistry core)

/-! ## a handler carries the mask it was registered with -/

structure Sound (r : Registry) : Prop where
  core : r.numVmBuiltins ≤ r.mappings.length
  asRegistered : ∀ id h, handlerByIdAsRegistered r id = some h →
    h.effects = effectMaskByIdAsRegistered r id
  replaced : ∀ e ∈ r.shellReplaced, e.handler.effects = e.mask

theorem sound_init (core : List (Name × Option Nat)) : Sound (initBuiltinRegistry core) := by
  refine ⟨?_, ?_, ?_⟩
  · exact Nat.le_of_eq (length_map ..).symm
  · intro id h hh
    obtain ⟨m, hm, hh⟩ := bind_eq_some_iff.mp hh
    have hid : id < core.length := by
      obtain ⟨hlt, -⟩ := List.getElem?_eq_some_iff.mp hm
      rwa [initBuiltinRegistry, length_map] at hlt
    have hmask : effectMaskByIdAsRegistered (initBuiltinRegistry core) id =
        pscalBuiltinNameEffectMask m.name := by
      unfold effectMaskByIdAsRegistered
      rw [hm]
      exact if_pos hid
    rw [hmask]
    rw [initBuiltinRegistry, getElem?_map] at hm
    obtain ⟨e, -, rfl⟩ := map_eq_some_iff.mp hm
    obtain ⟨a, -, rfl⟩ := map_eq_some_iff.mp hh
    rfl
  · intro e he
    cases he

variable {r : Registry}

theorem Sound.congr {r' : Registry} (h : Sound r) (hnum : r'.numVmBuiltins = r.numVmBuiltins)
    (hmappings : r'.mappings = r.mappings) (hmasks : r'.effectOverrides = r.effectOverrides)
    (hreplaced : ∀ e ∈ r'.shellReplaced, e.handler.effects = e.mask) : Sound r' := by
  refine ⟨by rw [hnum, hmappings]; exact h.core, ?_, hreplaced⟩
  intro id f hf
  have hmask : effectMaskByIdAsRegistered r' id = effectMaskByIdAsRegistered r id := by
    unfold effectMaskByIdAsRegistered
    rw [hnum, hmappings, hmasks]
  rw [hmask]
  refine h.asRegistered id f ?_
  unfold handlerByIdAsRegistered at hf ⊢
  rwa [hmappings] at hf

theorem lookup_mem {canonical : Name} {id : Nat} {m : VmBuiltinMapping}
    (h : builtinRegistryLookupMapping r canonical = some (id, m)) : r.mappings[id]? = some m := by
  unfold builtinRegistryLookupMapping at h
  split at h
  · cases h
  split at h
  · cases h
  obtain ⟨m', hm', hpair⟩ := map_eq_some_iff.mp h
  cases hpair
  exact hm'

theorem Sound.set {r' : Registry} (h : Sound r) (id address : Nat) (mask : EffectMask)
    (hnum : r'.numVmBuiltins = r.numVmBuiltins) (hlen : r.mappings.length ≤ r'.mappings.length)
    (hself : ∀ f, handlerByIdAsRegistered r' id = some f → f = ⟨address, mask⟩)
    (hothers : ∀ id', id' ≠ id → r'.mappings[id']? = r.mappings[id']?)
    (hmasks : r'.effectOverrides = update r.effectOverrides id (some mask))
    (hreplaced : r'.shellReplaced = r.shellReplaced) : Sound r' := by
  refine ⟨hnum ▸ Nat.le_trans h.core hlen, ?_, hreplaced ▸ h.replaced⟩
  intro id' f hf
  by_cases hid : id' = id
  · subst hid
    rw [hself f hf]
    unfold effectMaskByIdAsRegistered
    rw [hmasks, update_self]
  · have hmask : effectMaskByIdAsRegistered r' id' = effectMaskByIdAsRegistered r id' := by
      unfold effectMaskByIdAsRegistered
      rw [hmasks, update_of_ne hid, hothers id' hid, hnum]
    rw [hmask]
    refine h.asRegistered id' f ?_
    unfold handlerByIdAsRegistered at hf ⊢
    rwa [hothers id' hid] at hf

theorem Sound.registerVmBuiltinFrom (h : Sound r) (name : Name) (address : Nat) (mask : EffectMask)
    (fromShell : Bool) : Sound (registerVmBuiltinFrom r name address mask fromShell) := by
  unfold Fx.registerVmBuiltinFrom
  split
  · exact h
  split
  · next id m hlookup =>
    have hm := lookup_mem hlookup
    refine h.set id address mask rfl ?_ ?_ ?_ rfl rfl
    · exact Nat.le_of_eq (length_modify ..).symm
    · intro f hf
      obtain ⟨m', hm', hf⟩ := bind_eq_some_iff.mp hf
      rw [getElem?_modify_eq, hm] at hm'
      cases hm'
      exact (some_inj.mp hf).symm
    · intro id' hid
      exact getElem?_modify_ne _ _ (Ne.symm hid)
  · next hlookup =>
    refine h.set r.mappings.length address mask rfl ?_ ?_ ?_ rfl rfl
    · rw [length_append]
      exact Nat.le_add_right _ _
    · intro f hf
      obtain ⟨m', hm', hf⟩ := bind_eq_some_iff.mp hf
      rw [getElem?_append_right (Nat.le_refl _), Nat.sub_self] at hm'
      cases hm'
      exact (some_inj.mp hf).symm
    · intro id' hid
      rcases Nat.lt_or_gt_of_ne hid with hlt | hgt
      · exact getElem?_append_left hlt
      · rw [getElem?_append_right (Nat.le_of_lt hgt), getElem?_eq_none (Nat.le_of_lt hgt)]
        refine getElem?_eq_none ?_
        rw [length_singleton]
        omega

theorem Sound.keepReplaced (h : Sound r) (prior : Nat) : Sound (keepReplaced r prior) := by
  unfold Fx.keepReplaced
  split
  · next handler hhandler =>
    split
    · refine h.congr rfl rfl rfl ?_
      intro e he
      rcases mem_append.mp he with he | he
      · exact h.replaced e he
      · rw [mem_singleton.mp he]
        exact h.asRegistered prior handler hhandler
    · exact h
  · exact h

theorem Sound.registerShellVmBuiltin (h : Sound r) (name : Name) (address : Nat) (mask : EffectMask)
    : Sound (registerShellVmBuiltin r name address mask) := by
  unfold Fx.registerShellVmBuiltin
  split
  · next prior _ => exact (h.keepReplaced prior).registerVmBuiltinFrom name address mask true
  · have h' := h.registerVmBuiltinFrom name address mask true
    simp only
    split
    · split
      · exact h'.congr rfl rfl rfl h'.replaced
      · exact h'
    · exact h'

/-- **whatever is registered, in whatever order** -/
theorem sound_registered (core : List (Name × Option Nat)) (regs : List Registration) :
    Sound (registered core regs) := by
  unfold registered
  have hall : ∀ r, Sound r → Sound (regs.foldl Registration.apply r) := by
    induction regs with
    | nil => exact fun r h => h
    | cons reg regs ih =>
      intro r h
      refine ih _ ?_
      unfold Registration.apply
      split
      · exact h.registerShellVmBuiltin reg.name reg.address reg.mask
      · exact h.registerVmBuiltinFrom reg.name reg.address reg.mask false
  exact hall _ (sound_init core)

section
variable {r : Registry} {kind : FrontendKind} {id : Nat}

/-- **the handler that the front end sees under an id has the mask that it sees there** -/
theorem effects_of_id (hr : Sound r) {h : VmBuiltinFn}
    (hh : getVmBuiltinHandlerById r kind id = some h) :
    h.effects = getVmBuiltinEffectMaskById r kind id := by
  unfold getVmBuiltinHandlerById at hh
  unfold getVmBuiltinEffectMaskById
  split at hh
  · cases hh
  · next hview =>
    rw [if_pos hview]
    split at hh
    · next e he =>
      cases hh
      exact hr.replaced e (mem_of_find?_eq_some he)
    · exact hr.asRegistered id h hh
  · next hview =>
    rw [if_neg (by rw [hview]; decide)]
    exact hr.asRegistered id h hh

theorem effects_of_name (hr : Sound r) {m : VmBuiltinMapping} {h : VmBuiltinFn}
    (hm : r.mappings[id]? = some m) (hh : m.handler = some h)
    (hview : shellViewOfId r kind id ≠ .replaced) :
    h.effects = getVmBuiltinEffectMaskById r kind id := by
  unfold getVmBuiltinEffectMaskById
  rw [if_neg hview]
  refine hr.asRegistered id h ?_
  unfold handlerByIdAsRegistered
  rw [hm]
  exact hh

end

theorem mapping_mem {name : Name} {id : Nat} {m : VmBuiltinMapping}
    (h : getVmBuiltinMapping r name = some (id, m)) : r.mappings[id]? = some m := by
  obtain ⟨canonical, -, hlookup⟩ := bind_eq_some_iff.mp h
  exact lookup_mem hlookup

end Fx

end Pscal
