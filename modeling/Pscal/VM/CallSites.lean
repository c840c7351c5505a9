import Mathlib
import Pscal.Symbol.Table

/-!
# The caches of the call sites

`CALL` and `CALL_USER_PROC` of `vm/vm.c`: how they find their routines, by the address of the code
or by a name, and the two caches in front of that.

* `findProcedureByAddress`, `vmResolveUserProc`  the lookups;
* `CallVM`, `vmGetProcedureByAddress`, `vmUserProcSiteLookup`  the caches;
* `step`  a run begins, a routine is called, the procedures change, the VM is reset;
* `freshCallee`  what a lookup without the caches gives;
* `Meets`  what keeps the caches true;
* `callees_transparent`  the routines entered are those of the lookups.

The chain of the routines around a routine is followed for as many steps as there may be (the code
follows it to its end).  Memory is never short.
-/

namespace Pscal.CallSites

open List Option

/-! ## lookups -/

/-- `bytecode_address == address` -/
def hasAddress (s : Symbol) (address : UInt32) : Bool :=
  s.bytecodeAddress % 2 ^ 32 = address.toNat

def findProcedureByAddress (heap : SymbolRef → Symbol) (address : UInt32) :
    HashTable → Option SymbolRef
  | .nil => none
  | .node s nested next =>
    if (heap s).isDefined && hasAddress (heap s) address then some s
    else
      (findProcedureByAddress heap address nested).or (findProcedureByAddress heap address next)

/-- the table of a routine's own routines (`type_def->symbol_table`) -/
def symbolTable : HashTable → SymbolRef → Option HashTable
  | .nil, _ => none
  | .node s nested next, r =>
    if s = r then some nested else (symbolTable nested r).or (symbolTable next r)

structure Procs where
  heap : SymbolRef → Symbol
  table : HashTable
  depth : Nat

def scopes (heap : SymbolRef → Symbol) : Nat → Option SymbolRef → List SymbolRef
  | 0, _ => []
  | _, none => []
  | n + 1, some r => r :: scopes heap n (heap r).enclosing

section
variable (p : Procs)

/-- `resolveProcedureAlias(hashTableLookup(table, name))` -/
def lookupRoutine (table : HashTable) (name : String) : Option SymbolRef :=
  (hashTableLookup p.heap table name).map (resolveSymbolAlias p.heap)

/-- `frames`: the routines of the frames, the last one called first -/
def procedureVisibleFromFrames (frames : List (Option SymbolRef)) (symbol : SymbolRef) : Bool :=
  match (p.heap symbol).enclosing with
  | none => true
  | some enclosing => frames.any fun f => (scopes p.heap p.depth f).contains enclosing

def visibleIn (frames : List (Option SymbolRef)) (name : String) (table : HashTable) :
    Option SymbolRef :=
  (lookupRoutine p table name).filter (procedureVisibleFromFrames p frames)

/-- `findProcedureByName` of the tables of the entries, each with those within it -/
def findInEntries (frames : List (Option SymbolRef)) (name : String) : HashTable → Option SymbolRef
  | .nil => none
  | .node _ nested next =>
    ((visibleIn p frames name nested).or (findInEntries frames name nested)).or
      (findInEntries frames name next)

def findProcedureByName (frames : List (Option SymbolRef)) (name : String) : Option SymbolRef :=
  (visibleIn p frames name p.table).or (findInEntries p frames name p.table)

/-- the routines nested in the calling routine, then those in each one around it, then the global
table -/
def lexicalCallee (caller : Option SymbolRef) (name : String) : Option SymbolRef :=
  ((scopes p.heap p.depth caller).findSome? fun scope =>
    (symbolTable p.table scope).bind fun nested => lookupRoutine p nested name).or
    (lookupRoutine p p.table name)

def vmResolveUserProc (frames : List (Option SymbolRef)) (name : String) : Option SymbolRef :=
  (lexicalCallee p frames.head?.join name).or (findProcedureByName p frames name)

/-- what `CALL_USER_PROC` enters: a routine that has no body is an error -/
def compiledBody (symbol : SymbolRef) : Bool :=
  (p.heap symbol).isDefined && 0 ≤ (p.heap symbol).bytecodeAddress

end

/-! ## the caches -/

/-- a chunk by its address and the size of its code -/
structure Chunk where
  id : Nat
  count : Nat
deriving DecidableEq, Repr

structure CallVM where
  chunk : Option Chunk := none
  procedureByAddress : List (Option SymbolRef) := []
  userProcBySite : List (Option SymbolRef) := []
  userProcBySiteChunk : Option Nat := none
deriving DecidableEq, Repr

/-- one entry of `populateProcedureCacheFromTable` -/
def populateEntry (heap : SymbolRef → Symbol) (cache : List (Option SymbolRef)) (entry : SymbolRef) :
    List (Option SymbolRef) :=
  let resolved := resolveSymbolAlias heap entry
  if (heap resolved).isDefined && 0 ≤ (heap resolved).bytecodeAddress then
    cache.set (heap resolved).bytecodeAddress.toNat (some resolved)
  else cache

def populateProcedureCacheFromTable (p : Procs) (cache : List (Option SymbolRef)) :
    List (Option SymbolRef) :=
  p.table.refs.foldl (populateEntry p.heap) cache

def vmPopulateProcedureAddressCache (p : Procs) (vm : CallVM) : CallVM :=
  let required := (vm.chunk.map Chunk.count).getD 0
  let cleared := List.replicate (max required vm.procedureByAddress.length) none
  if required = 0 then { vm with procedureByAddress := cleared }
  else { vm with procedureByAddress := populateProcedureCacheFromTable p cleared }

def vmGetProcedureByAddress (p : Procs) (vm : CallVM) (address : UInt32) :
    CallVM × Option SymbolRef :=
  let cached := (vm.procedureByAddress[address.toNat]?).join
  let symbol := cached.or (findProcedureByAddress p.heap address p.table)
  match symbol.map (resolveSymbolAlias p.heap) with
  | none => (vm, none)
  | some resolved =>
    ({ vm with procedureByAddress := vm.procedureByAddress.set address.toNat (some resolved) },
      some resolved)

def vmUserProcSiteLookup (vm : CallVM) (site : Nat) : Option SymbolRef :=
  if vm.userProcBySiteChunk ≠ vm.chunk.map Chunk.id then none
  else (vm.userProcBySite[site]?).join

def vmUserProcSiteStore (vm : CallVM) (site : Nat) (symbol : SymbolRef) : CallVM :=
  match vm.chunk with
  | none => vm
  | some chunk =>
    if chunk.count = 0 then vm
    else if vm.userProcBySiteChunk ≠ some chunk.id ∨ vm.userProcBySite.length ≠ chunk.count then
      { vm with
        userProcBySite := (List.replicate chunk.count none).set site (some symbol)
        userProcBySiteChunk := some chunk.id }
    else { vm with userProcBySite := vm.userProcBySite.set site (some symbol) }

/-- at most `MAX_SYMBOL_LENGTH` bytes of a constant, in lower case -/
def lookupName (name : String) : String := toLowerString (truncateTo maxSymbolLength name)

def callUserProc (p : Procs) (vm : CallVM) (site : Nat) (name : String)
    (frames : List (Option SymbolRef)) : CallVM × Option SymbolRef :=
  match vmUserProcSiteLookup vm site with
  | some symbol => (vm, some symbol)
  | none =>
    match vmResolveUserProc p frames (lookupName name) with
    | none => (vm, none)
    | some symbol =>
      if compiledBody p symbol then (vmUserProcSiteStore vm site symbol, some symbol)
      else (vm, none)

/-! ## runs -/

inductive Event where
  /-- `interpretBytecode` with a chunk and its procedures -/
  | interpret (chunk : Chunk) (procs : Procs)
  | call (address : UInt32)
  | callUserProc (site : Nat) (name : String) (frames : List (Option SymbolRef))
  /-- the procedure table, or a symbol of it, is another one from now on -/
  | change (procs : Procs)
  /-- `vmResetExecutionState` -/
  | reset

structure State where
  procs : Procs
  vm : CallVM := {}

def initVM : State := { procs := { heap := fun _ => noSymbol, table := .nil, depth := 0 } }

/-- the state after an event, and the routine that the event enters -/
def step (s : State) : Event → State × Option SymbolRef
  | .interpret chunk procs =>
    ({ procs := procs, vm := vmPopulateProcedureAddressCache procs { s.vm with chunk := some chunk } },
      none)
  | .call address =>
    let r := vmGetProcedureByAddress s.procs s.vm address
    ({ s with vm := r.1 }, r.2)
  | .callUserProc site name frames =>
    let r := callUserProc s.procs s.vm site name frames
    ({ s with vm := r.1 }, r.2)
  | .change procs => ({ s with procs := procs }, none)
  | .reset => ({ s with vm := {} }, none)

def calleeAt (p : Procs) (address : UInt32) : Option SymbolRef :=
  (findProcedureByAddress p.heap address p.table).map (resolveSymbolAlias p.heap)

def freshCallee (s : State) : Event → Option SymbolRef
  | .call address => calleeAt s.procs address
  | .callUserProc _ name frames =>
    (vmResolveUserProc s.procs frames (lookupName name)).filter (compiledBody s.procs)
  | _ => none

/-- Every event enters what a lookup of its own gives at that moment. -/
def Transparent : State → List Event → Prop
  | _, [] => True
  | s, e :: tr => (step s e).2 = freshCallee s e ∧ Transparent (step s e).1 tr

/-! ## when the caches are true -/

def OneDeep (p : Procs) : Prop :=
  ∀ r ∈ p.table.refs,
    resolveSymbolAlias p.heap (resolveSymbolAlias p.heap r) = resolveSymbolAlias p.heap r

def OwnAddresses (p : Procs) : Prop :=
  ∀ r ∈ p.table.refs, ∀ address : UInt32, (p.heap (resolveSymbolAlias p.heap r)).isDefined →
    (p.heap (resolveSymbolAlias p.heap r)).bytecodeAddress = address.toNat →
    calleeAt p address = some (resolveSymbolAlias p.heap r)

def cachedAt (vm : CallVM) (address : UInt32) : Option SymbolRef :=
  (vm.procedureByAddress[address.toNat]?).join

def cachedSite (vm : CallVM) (site : Nat) : Option SymbolRef := (vm.userProcBySite[site]?).join

def AddressesHold (p : Procs) (vm : CallVM) : Prop :=
  ∀ address r, cachedAt vm address = some r → calleeAt p address = some r

def BodiesHold (p : Procs) (vm : CallVM) : Prop :=
  ∀ site r, cachedSite vm site = some r → compiledBody p r

/-- `callees`: for each chunk and site the routine of the name around the caller -/
def Allowed (callees : Nat → Nat → Option SymbolRef) (s : State) : Event → Prop
  | .interpret _ procs => OneDeep procs ∧ OwnAddresses procs ∧ BodiesHold procs s.vm
  | .change procs => OneDeep procs ∧ AddressesHold procs s.vm ∧ BodiesHold procs s.vm
  | .callUserProc site name frames =>
    ∃ chunk, s.vm.chunk = some chunk ∧
      lexicalCallee s.procs frames.head?.join (lookupName name) = callees chunk.id site ∧
      (callees chunk.id site = none → findProcedureByName s.procs frames (lookupName name) = none)
  | _ => True

/-- The routines of the sites stay as they are for the chunk that the cache belongs to. -/
def Meets : (Nat → Nat → Option SymbolRef) → State → List Event → Prop
  | _, _, [] => True
  | callees, s, e :: tr =>
    ∃ callees' : Nat → Nat → Option SymbolRef,
      (∀ chunk, s.vm.userProcBySiteChunk = some chunk → callees' chunk = callees chunk) ∧
        Allowed callees' s e ∧ Meets callees' (step s e).1 tr

/-! ## the addresses -/

theorem join_getElem?_set {cache : List (Option SymbolRef)} {i j : Nat} {r r' : SymbolRef}
    (h : ((cache.set i (some r))[j]?).join = some r') :
    (i = j ∧ r = r') ∨ (cache[j]?).join = some r' := by
  rw [getElem?_set] at h
  by_cases hij : i = j
  · rw [if_pos hij] at h
    split at h
    · exact .inl ⟨hij, some.inj h⟩
    · simp at h
  · rw [if_neg hij] at h
    exact .inr h

theorem join_getElem?_replicate (n i : Nat) :
    ((replicate n (none : Option SymbolRef))[i]?).join = none := by
  rw [getElem?_replicate]
  split <;> rfl

section
variable {p : Procs} {vm : CallVM} {address : UInt32} {r : SymbolRef}

theorem findProcedureByAddress_mem {heap : SymbolRef → Symbol} {table : HashTable}
    (h : findProcedureByAddress heap address table = some r) : r ∈ table.refs := by
  induction table with
  | nil => simp [findProcedureByAddress] at h
  | node s nested next ihn ihx =>
    rw [findProcedureByAddress] at h
    rw [HashTable.refs, mem_cons, mem_append]
    split at h
    · exact .inl (some.inj h).symm
    · rcases or_eq_some_iff.mp h with h | ⟨_, h⟩
      · exact .inr (.inl (ihn h))
      · exact .inr (.inr (ihx h))

theorem calleeAt_resolved (hp : OneDeep p) (h : calleeAt p address = some r) :
    resolveSymbolAlias p.heap r = r := by
  obtain ⟨s, hs, rfl⟩ := map_eq_some_iff.mp h
  exact hp s (findProcedureByAddress_mem hs)

theorem populated (heap : SymbolRef → Symbol) (refs : List SymbolRef)
    (cache : List (Option SymbolRef)) (i : Nat)
    (h : ((refs.foldl (populateEntry heap) cache)[i]?).join = some r) :
    (cache[i]?).join = some r ∨ ∃ entry ∈ refs, resolveSymbolAlias heap entry = r ∧
      (heap r).isDefined ∧ (heap r).bytecodeAddress = i := by
  induction refs generalizing cache with
  | nil => exact .inl h
  | cons entry refs ih =>
    rw [foldl_cons] at h
    rcases ih _ h with h | ⟨entry', hmem, h⟩
    · rw [populateEntry] at h
      split at h
      · rename_i hdef
        rw [Bool.and_eq_true, decide_eq_true_eq] at hdef
        rcases join_getElem?_set h with ⟨hi, rfl⟩ | h
        · exact .inr ⟨entry, mem_cons_self, rfl, hdef.1, by omega⟩
        · exact .inl h
      · exact .inl h
    · exact .inr ⟨entry', mem_cons_of_mem _ hmem, h⟩

theorem vmPopulateProcedureAddressCache_hold (hp : OwnAddresses p) (vm : CallVM) :
    AddressesHold p (vmPopulateProcedureAddressCache p vm) := by
  intro address r h
  rw [cachedAt, vmPopulateProcedureAddressCache] at h
  split at h
  · rw [join_getElem?_replicate] at h
    cases h
  · rcases populated _ _ _ _ h with h | ⟨entry, hmem, rfl, hdef, haddress⟩
    · rw [join_getElem?_replicate] at h
      cases h
    · exact hp entry hmem address hdef haddress

theorem vmGetProcedureByAddress_eq (hp : OneDeep p) (h : AddressesHold p vm) (address : UInt32) :
    vmGetProcedureByAddress p vm address =
      ({ vm with
          procedureByAddress := ((calleeAt p address).map fun r =>
            vm.procedureByAddress.set address.toNat (some r)).getD vm.procedureByAddress },
        calleeAt p address) := by
  have hcallee : (((cachedAt vm address).or
      (findProcedureByAddress p.heap address p.table)).map (resolveSymbolAlias p.heap)) =
      calleeAt p address := by
    cases hc : cachedAt vm address with
    | none => rfl
    | some r =>
      rw [h address r hc, some_or, map_some, calleeAt_resolved hp (h address r hc)]
  rw [vmGetProcedureByAddress]
  simp only [cachedAt] at hcallee
  rw [hcallee]
  cases calleeAt p address <;> rfl

theorem vmGetProcedureByAddress_hold (hp : OneDeep p) (h : AddressesHold p vm) :
    AddressesHold p (vmGetProcedureByAddress p vm address).1 := by
  rw [vmGetProcedureByAddress_eq hp h]
  cases hc : calleeAt p address with
  | none => exact h
  | some r =>
    intro address' r' hr
    rcases join_getElem?_set hr with ⟨haddress, rfl⟩ | hr
    · rw [← UInt32.toNat_inj.mp haddress]
      exact hc
    · exact h address' r' hr

end

/-! ## the sites -/

section
variable {callees callees' : Nat → Nat → Option SymbolRef} {p : Procs} {vm : CallVM}

/-- the cache of the sites: the routine around each caller, with its code -/
def SitesHold (callees : Nat → Nat → Option SymbolRef) (p : Procs) (vm : CallVM) : Prop :=
  ∀ chunk, vm.userProcBySiteChunk = some chunk → ∀ site r, cachedSite vm site = some r →
    callees chunk site = some r ∧ compiledBody p r

theorem SitesHold.procs {p' : Procs} (h : SitesHold callees p vm) (hp : BodiesHold p' vm) :
    SitesHold callees p' vm :=
  fun chunk hchunk site r hr => ⟨(h chunk hchunk site r hr).1, hp site r hr⟩

theorem SitesHold.congr (h : SitesHold callees p vm)
    (hc : ∀ chunk, vm.userProcBySiteChunk = some chunk → callees' chunk = callees chunk) :
    SitesHold callees' p vm := by
  intro chunk hchunk
  rw [hc chunk hchunk]
  exact h chunk hchunk

theorem SitesHold.store {chunk : Chunk} {site : Nat} {r : SymbolRef} (h : SitesHold callees p vm)
    (hchunk : vm.chunk = some chunk) (hr : callees chunk.id site = some r)
    (hbody : compiledBody p r) : SitesHold callees p (vmUserProcSiteStore vm site r) := by
  rw [vmUserProcSiteStore, hchunk]
  dsimp only
  split_ifs with hcount hother
  · exact h
  · intro id hid site' r' hr'
    obtain rfl : chunk.id = id := some.inj hid
    rcases join_getElem?_set hr' with ⟨rfl, rfl⟩ | hr'
    · exact ⟨hr, hbody⟩
    · rw [join_getElem?_replicate] at hr'
      cases hr'
  · rw [not_or, not_not, not_not] at hother
    intro id hid site' r' hr'
    rcases join_getElem?_set hr' with ⟨rfl, rfl⟩ | hr'
    · obtain rfl : chunk.id = id := some.inj (hother.1.symm.trans hid)
      exact ⟨hr, hbody⟩
    · exact h id hid site' r' hr'

@[simp]
theorem vmUserProcSiteStore_procedureByAddress (vm : CallVM) (site : Nat) (r : SymbolRef) :
    (vmUserProcSiteStore vm site r).procedureByAddress = vm.procedureByAddress := by
  rw [vmUserProcSiteStore]
  split
  · rfl
  · split_ifs <;> rfl

theorem vmPopulateProcedureAddressCache_sites (vm : CallVM) (chunk : Option Chunk)
    (h : SitesHold callees p vm) :
    SitesHold callees p (vmPopulateProcedureAddressCache p { vm with chunk := chunk }) := by
  rw [vmPopulateProcedureAddressCache]
  split <;> exact h

theorem callUserProc_cases (p : Procs) (vm : CallVM) (site : Nat) (name : String)
    (frames : List (Option SymbolRef)) : (∃ r, vmUserProcSiteLookup vm site = some r ∧
        callUserProc p vm site name frames = (vm, some r)) ∨
      ∃ vm', callUserProc p vm site name frames =
          (vm', (vmResolveUserProc p frames (lookupName name)).filter (compiledBody p)) ∧
        (vm' = vm ∨ ∃ r, vmResolveUserProc p frames (lookupName name) = some r ∧
          compiledBody p r ∧ vm' = vmUserProcSiteStore vm site r) := by
  rw [callUserProc]
  cases vmUserProcSiteLookup vm site with
  | some r => exact .inl ⟨r, rfl, rfl⟩
  | none =>
    refine .inr ?_
    cases hr : vmResolveUserProc p frames (lookupName name) with
    | none => exact ⟨vm, rfl, .inl rfl⟩
    | some r =>
      by_cases hbody : compiledBody p r
      · refine ⟨_, ?_, .inr ⟨r, rfl, hbody, rfl⟩⟩
        rw [filter_some, if_pos hbody]
        exact if_pos hbody
      · refine ⟨vm, ?_, .inl rfl⟩
        rw [filter_some, if_neg hbody]
        exact if_neg hbody

theorem vmResolveUserProc_lexical {frames : List (Option SymbolRef)} {name : String}
    (h : lexicalCallee p frames.head?.join name = none → findProcedureByName p frames name = none) :
    vmResolveUserProc p frames name = lexicalCallee p frames.head?.join name := by
  rw [vmResolveUserProc]
  cases hl : lexicalCallee p frames.head?.join name with
  | some r => rfl
  | none => rw [h hl]; rfl

end

/-! ## runs -/

structure Holds (callees : Nat → Nat → Option SymbolRef) (s : State) : Prop where
  oneDeep : OneDeep s.procs
  addresses : AddressesHold s.procs s.vm
  sites : SitesHold callees s.procs s.vm

variable {callees : Nat → Nat → Option SymbolRef} {s : State}

theorem holds_callUserProc {site : Nat} {name : String} {frames : List (Option SymbolRef)}
    (h : Holds callees s) (ha : Allowed callees s (.callUserProc site name frames)) :
    (step s (.callUserProc site name frames)).2 = freshCallee s (.callUserProc site name frames) ∧
      Holds callees (step s (.callUserProc site name frames)).1 := by
  obtain ⟨chunk, hchunk, hcallee, hnone⟩ := ha
  have hfresh : vmResolveUserProc s.procs frames (lookupName name) = callees chunk.id site := by
    rw [vmResolveUserProc_lexical (by rw [hcallee]; exact hnone), hcallee]
  rw [step, freshCallee]
  rcases callUserProc_cases s.procs s.vm site name frames with
    ⟨r, hlookup, heq⟩ | ⟨vm', heq, rfl | ⟨r, hr, hbody, rfl⟩⟩
  · rw [heq]
    rw [vmUserProcSiteLookup, hchunk] at hlookup
    split_ifs at hlookup with hid
    obtain ⟨hc, hbody⟩ := h.sites chunk.id (not_not.mp hid) site r hlookup
    refine ⟨?_, h⟩
    rw [hfresh, hc, filter_some, if_pos hbody]
  · rw [heq]
    exact ⟨rfl, h⟩
  · rw [heq]
    refine ⟨rfl, h.oneDeep, ?_, h.sites.store hchunk (hfresh ▸ hr) hbody⟩
    intro address r' hr'
    rw [cachedAt] at hr'
    rw [vmUserProcSiteStore_procedureByAddress] at hr'
    exact h.addresses address r' hr'

theorem holds_step {e : Event} (h : Holds callees s) (ha : Allowed callees s e) :
    (step s e).2 = freshCallee s e ∧ Holds callees (step s e).1 := by
  cases e with
  | interpret chunk procs =>
    exact ⟨rfl, ha.1, vmPopulateProcedureAddressCache_hold ha.2.1 _,
      vmPopulateProcedureAddressCache_sites _ _ (h.sites.procs ha.2.2)⟩
  | call address =>
    refine ⟨congrArg Prod.snd (vmGetProcedureByAddress_eq h.oneDeep h.addresses address),
      h.oneDeep, vmGetProcedureByAddress_hold h.oneDeep h.addresses, ?_⟩
    rw [step, vmGetProcedureByAddress_eq h.oneDeep h.addresses]
    exact h.sites
  | callUserProc site name frames => exact holds_callUserProc h ha
  | change procs => exact ⟨rfl, ha.1, ha.2.1, h.sites.procs ha.2.2⟩
  | reset => exact ⟨rfl, h.oneDeep, by simp [AddressesHold, cachedAt, step], by simp [SitesHold, step]⟩

theorem callees_transparent {tr : List Event} (h : Holds callees s) (hm : Meets callees s tr) :
    Transparent s tr := by
  induction tr generalizing s callees with
  | nil => trivial
  | cons e tr ih =>
    obtain ⟨callees', hc, ha, hm⟩ := hm
    obtain ⟨heq, h'⟩ := holds_step ⟨h.oneDeep, h.addresses, h.sites.congr hc⟩ ha
    exact ⟨heq, ih h' hm⟩

theorem holds_initVM (callees : Nat → Nat → Option SymbolRef) : Holds callees initVM where
  oneDeep := by simp [OneDeep, initVM, HashTable.refs]
  addresses := by simp [AddressesHold, cachedAt, initVM]
  sites := by simp [SitesHold, initVM]

/-- From a new VM on, every routine entered is the one that a lookup gives. -/
theorem callSites_transparent (callees : Nat → Nat → Option SymbolRef) (tr : List Event)
    (hm : Meets callees initVM tr) : Transparent initVM tr :=
  callees_transparent (holds_initVM callees) hm

/-- `p`, `q` with its own `helper` at 40, `r` with its own at 60 -/
def twoHelpers : Procs where
  heap := heapOf [
    { noSymbol with name := "p", isDefined := true, bytecodeAddress := 10 },
    { noSymbol with name := "q", isDefined := true, bytecodeAddress := 20 },
    { noSymbol with name := "r", isDefined := true, bytecodeAddress := 30 },
    { noSymbol with name := "helper", isDefined := true, bytecodeAddress := 40, enclosing := some 1 },
    { noSymbol with name := "helper", isDefined := true, bytecodeAddress := 60, enclosing := some 2 }]
  table := .node 0 .nil (.node 1 (.node 3 .nil .nil) (.node 2 (.node 4 .nil .nil) .nil))
  depth := 5

theorem oneDeep_twoHelpers : OneDeep twoHelpers := by
  unfold OneDeep
  decide

theorem ownAddresses_of {p : Procs} (h : ∀ r ∈ p.table.refs, calleeAt p (UInt32.ofNat
      (p.heap (resolveSymbolAlias p.heap r)).bytecodeAddress.toNat) =
        some (resolveSymbolAlias p.heap r)) : OwnAddresses p := by
  intro r hr address _ haddress
  have hr := h r hr
  rwa [haddress, Int.toNat_natCast, UInt32.ofNat_toNat] at hr

/-- `helper` is called by `q` twice, and by its address -/
theorem callSites_transparent_q : Transparent initVM
    [.interpret ⟨1, 100⟩ twoHelpers, .callUserProc 22 "Helper" [some 1],
      .callUserProc 22 "Helper" [some 1], .call 40] := by
  have hown : OwnAddresses twoHelpers := ownAddresses_of (by decide)
  refine callSites_transparent (fun _ _ => some 3) _ ⟨_, fun _ _ => rfl, ⟨oneDeep_twoHelpers, hown,
    by simp [BodiesHold, cachedSite, initVM]⟩, ?_⟩
  refine ⟨_, fun _ _ => rfl, ⟨⟨1, 100⟩, rfl, by decide, by simp⟩, ?_⟩
  refine ⟨_, fun _ _ => rfl, ⟨⟨1, 100⟩, by decide, by decide, by simp⟩, ?_⟩
  exact ⟨_, fun _ _ => rfl, trivial, trivial⟩

/-- `p` calls `helper`, first when `q` called it, then when `r` did: the second one is cached. -/
theorem not_transparent_helper : ¬ Transparent initVM
    [.interpret ⟨1, 100⟩ twoHelpers, .callUserProc 12 "Helper" [some 0, some 1],
      .callUserProc 12 "Helper" [some 0, some 2]] := by
  rintro ⟨-, -, h, -⟩
  exact absurd h (by decide)

end Pscal.CallSites
