import Pscal.Interface.TablesSpec

/-!
# Interface dispatch over whole runs

* `InterfaceRun`  the layouts, the calls compiled so far and the tables built so far;
* `MethodsSettled log i`  the compiler and the VM take the same numbers for the methods of `i`;
* `InterfaceReaches p s`  the states of the runs whose steps move no method;
* `InterfacesDispatch p s`  a compiled slot leads to the class's method of the call's name.
-/

namespace Pscal

open Numbering List Option

structure InterfaceRun where
  layouts : Layouts := {}
  /-- the calls with the slots compiled into them -/
  calls : List (InterfaceCall × Int) := []
  tables : List InterfaceTable := []

inductive InterfaceEvent where
  | call (c : InterfaceCall)
  | box (r : ClassRecord) (i : InterfaceRef)
  | build (className interfaceName : String)
deriving DecidableEq, Repr

namespace InterfaceProgram

variable (p : InterfaceProgram)

def step (s : InterfaceRun) : InterfaceEvent → Option InterfaceRun
  | .call c => (p.compileInterfaceCall c s.layouts).map fun r =>
    { s with layouts := r.2, calls := (c, r.1) :: s.calls }
  | .box r i => (p.validateInterfaceImplementation r i s.layouts).map fun layouts =>
    { s with layouts }
  | .build className interfaceName =>
    (p.ensureRuntimeInterfaceVTable className interfaceName s.layouts s.tables).map fun tables =>
      { s with tables }

def interfaceRun (events : List InterfaceEvent) : Option InterfaceRun := events.foldlM p.step {}

/-- Under each method name of the interface, the declarations that the compiler and the VM take
have both been numbered, with the index that one of the numbered lists gives the name. -/
def MethodsSettled (log : List (List InterfaceMethod)) (i : InterfaceRef) : Prop :=
  ∃ l ∈ log, ∀ m, p.Declares i m → ∃ (k : Nat) (d : InterfaceMethod), l[k]? = some d ∧
    toLowerString d.name = toLowerString m.name ∧
    (∃ d, p.findDeclared m.name interfaceDepths (some i) = some d ∧ NumberedAt log d k) ∧
    ∀ d, p.runtimeDeclared i m.name = some d → NumberedAt log d k

/-- Nothing that is numbered gets another number, and the interface of a call or of a table is
settled. -/
def InterfaceStepOk (s s' : InterfaceRun) (event : InterfaceEvent) : Prop :=
  Consistent s'.layouts.numbered ∧
    match event with
    | .call c => p.MethodsSettled s'.layouts.numbered c.interface
    | .box _ _ => True
    | .build _ interfaceName => ∀ i, p.lookupType interfaceName = some i →
      p.MethodsSettled s.layouts.numbered i

inductive InterfaceReaches : InterfaceRun → Prop where
  | start : InterfaceReaches {}
  | step {s s' : InterfaceRun} {event : InterfaceEvent} : InterfaceReaches s →
      p.step s event = some s' → p.InterfaceStepOk s s' event → InterfaceReaches s'

structure InterfacesDispatch (s : InterfaceRun) : Prop where
  /-- the table of a class has the class's method at the slot of a call -/
  reaches : ∀ call ∈ s.calls, ∀ table ∈ s.tables, table.interface = call.1.interface →
    ∀ m, p.Declares call.1.interface m → toLowerString m.name = toLowerString call.1.name →
      ∃ sym, p.methodSymbol table.className m.name = some sym ∧ 0 ≤ call.2 ∧
        table.addrs[call.2.toNat]? = some (if 0 ≤ sym.address then sym.address else 0)
  /-- calls of distinct methods have distinct slots -/
  distinct : ∀ call ∈ s.calls, ∀ call' ∈ s.calls, call'.1.interface = call.1.interface →
    ∀ m m', p.Declares call.1.interface m → p.Declares call.1.interface m' →
      toLowerString m.name = toLowerString call.1.name →
      toLowerString m'.name = toLowerString call'.1.name →
      toLowerString m.name ≠ toLowerString m'.name → call.2 ≠ call'.2
  /-- a call of a declared method compiles -/
  compiles : ∀ c m, p.DepthLe interfaceDepths (some c.interface) → p.Declares c.interface m →
    toLowerString m.name = toLowerString c.name → (p.step s (.call c)).isSome

/-! ## the invariant -/

variable {p}

variable {i : InterfaceRef} {log log' : List (List InterfaceMethod)} {s s' : InterfaceRun}

theorem MethodsSettled.mono (h : p.MethodsSettled log i) (hsub : log ⊆ log') :
    p.MethodsSettled log' i := by
  obtain ⟨l, hl, hsettled⟩ := h
  refine ⟨l, hsub hl, fun m hm => ?_⟩
  obtain ⟨k, d, hk, hname, ⟨dc, hdc, hcompile⟩, hruntime⟩ := hsettled m hm
  exact ⟨k, d, hk, hname, ⟨dc, hdc, hcompile.mono hsub⟩, fun d hd => (hruntime d hd).mono hsub⟩

variable (p)

/-- the slot of a call is a number of the declaration that the compiler takes -/
structure CallSettled (log : List (List InterfaceMethod)) (call : InterfaceCall × Int) : Prop where
  settled : p.MethodsSettled log call.1.interface
  slot : ∀ m, p.Declares call.1.interface m → toLowerString m.name = toLowerString call.1.name →
    ∃ (k : Nat) (d : InterfaceMethod), p.findDeclared m.name interfaceDepths
      (some call.1.interface) = some d ∧ NumberedAt log d k ∧ call.2 = k

/-- the addresses stand at numbers of the declarations that the VM takes -/
structure TableSettled (log : List (List InterfaceMethod)) (table : InterfaceTable) : Prop where
  settled : p.MethodsSettled log table.interface
  addrs : ∀ m, p.Declares table.interface m → ∃ (k : Nat) (d : InterfaceMethod) (sym : _),
    p.runtimeDeclared table.interface m.name = some d ∧ NumberedAt log d k ∧
      p.methodSymbol table.className m.name = some sym ∧
      table.addrs[k]? = some (if 0 ≤ sym.address then sym.address else 0)

structure InterfaceInv (s : InterfaceRun) : Prop where
  layouts : LayoutInv s.layouts
  consistent : Consistent s.layouts.numbered
  calls : ∀ call ∈ s.calls, p.CallSettled s.layouts.numbered call
  tables : ∀ table ∈ s.tables, p.TableSettled s.layouts.numbered table

variable {p}

theorem CallSettled.mono {call : InterfaceCall × Int} (h : p.CallSettled log call)
    (hsub : log ⊆ log') : p.CallSettled log' call := by
  refine ⟨h.settled.mono hsub, fun m hm hname => ?_⟩
  obtain ⟨k, d, hd, hk, hslot⟩ := h.slot m hm hname
  exact ⟨k, d, hd, hk.mono hsub, hslot⟩

theorem TableSettled.mono {table : InterfaceTable} (h : p.TableSettled log table)
    (hsub : log ⊆ log') : p.TableSettled log' table := by
  refine ⟨h.settled.mono hsub, fun m hm => ?_⟩
  obtain ⟨k, d, sym, hd, hk, hsym⟩ := h.addrs m hm
  exact ⟨k, d, sym, hd, hk.mono hsub, hsym⟩

theorem findDeclared_congr {name name' : String} (h : toLowerString name = toLowerString name')
    (depth : Nat) (i : Option InterfaceRef) :
    p.findDeclared name depth i = p.findDeclared name' depth i := by
  have hpred : (fun m : InterfaceMethod => strcasecmpEq m.name name) =
      fun m => strcasecmpEq m.name name' := by
    funext m
    rw [strcasecmpEq, strcasecmpEq, h]
  induction depth generalizing i with
  | zero => rfl
  | succ depth ih =>
    cases i with
    | none => rfl
    | some i => rw [findDeclared, findDeclared, hpred, funext ih]

theorem InterfaceInv.call {s s' : InterfaceRun} (h : p.InterfaceInv s) {c : InterfaceCall}
    (hstep : p.step s (.call c) = some s') (hok : p.InterfaceStepOk s s' (.call c)) :
    p.InterfaceInv s' := by
  obtain ⟨⟨slot, layouts⟩, hcompile, rfl⟩ := map_eq_some_iff.mp hstep
  obtain ⟨hlog, hsettled⟩ := hok
  obtain ⟨⟨s₁, hsteps, hslots, hnumbered⟩, hslot⟩ :=
    compileInterfaceCall_spec hcompile h.layouts.nonneg
  simp only at hlog hsettled hslots hnumbered hslot
  rw [hnumbered] at hlog hsettled
  have hinv := hsteps.inv p h.layouts hlog
  have hsub := hsteps.numbered_sub p
  have hlayouts : LayoutInv layouts := by
    constructor
    · rw [hslots, hnumbered]
      exact hinv.follows
    · rw [hslots]
      exact hinv.nonneg
  have hnew : p.CallSettled layouts.numbered (c, slot) := by
    rw [hnumbered]
    refine ⟨hsettled, fun m hm hname => ?_⟩
    obtain ⟨l, hl, hall⟩ := hsettled
    obtain ⟨k, -, -, -, ⟨d, hd, hk⟩, -⟩ := hall m hm
    refine ⟨k, d, hd, hk, ?_⟩
    rw [findDeclared_congr hname] at hd
    show slot = k
    rw [hslot d hd, hslots]
    exact hinv.follows d k hk
  rw [← hnumbered] at hlog hsub
  refine ⟨hlayouts, hlog, fun call hcall => ?_, fun table ht => (h.tables table ht).mono hsub⟩
  rcases mem_cons.mp hcall with rfl | hcall
  · exact hnew
  · exact (h.calls call hcall).mono hsub

theorem InterfaceInv.box (h : p.InterfaceInv s) {r : ClassRecord}
    (hstep : p.step s (.box r i) = some s') (hok : p.InterfaceStepOk s s' (.box r i)) :
    p.InterfaceInv s' := by
  obtain ⟨layouts, hvalidate, rfl⟩ := map_eq_some_iff.mp hstep
  have hlayout := p.validateInterfaceImplementation_step hvalidate
  have hsub := hlayout.numbered_sub p
  exact ⟨hlayout.inv p h.layouts hok.1, hok.1, fun call hcall => (h.calls call hcall).mono hsub,
    fun table ht => (h.tables table ht).mono hsub⟩

theorem tableSettled_of_build {s : Layouts} (hs : LayoutInv s) {className interfaceName : String}
    {addrs : List Int} (hsettled : p.MethodsSettled s.numbered i)
    (h : p.buildRuntimeInterfaceVTable className i s = some addrs) :
    p.TableSettled s.numbered ⟨className, interfaceName, i, addrs⟩ := by
  have hnumber : ∀ methods, p.collectRuntimeInterfaceMethods i = some methods →
      ∃ l ∈ s.numbered, ∀ d ∈ methods, ∃ (k : Nat) (d' : InterfaceMethod), l[k]? = some d' ∧
        toLowerString d'.name = toLowerString d.name ∧ NumberedAt s.numbered d k := by
    intro methods hmethods
    obtain ⟨l, hl, hall⟩ := hsettled
    refine ⟨l, hl, fun d hd => ?_⟩
    have hdeclared := collectRuntimeInterfaceMethods_declares hmethods d hd
    obtain ⟨k, d', hk, hname, -, hruntime⟩ := hall d hdeclared
    exact ⟨k, d', hk, hname, hruntime d (runtimeDeclared_of_mem hmethods hd rfl)⟩
  obtain ⟨methods, hmethods, haddrs⟩ := buildRuntimeInterfaceVTable_spec h hs.nonneg (by
    intro methods hmethods
    obtain ⟨l, -, hall⟩ := hnumber methods hmethods
    refine (collectRuntimeInterfaceMethods_distinct hmethods).imp_of_mem fun {a b} ha hb hne heq => ?_
    obtain ⟨k, d, hk, hname, ha⟩ := hall a ha
    obtain ⟨k', d', hk', hname', hb⟩ := hall b hb
    rw [hs.follows a k ha, hs.follows b k' hb, Int.natCast_inj] at heq
    rw [heq, hk'] at hk
    cases hk
    exact hne (by rw [← hname, ← hname']))
  obtain ⟨l, -, hall⟩ := hnumber methods hmethods
  refine ⟨hsettled, fun m hm => ?_⟩
  obtain ⟨d, hd, hname⟩ := collectRuntimeInterfaceMethods_hasName hmethods hm
  obtain ⟨k, -, -, -, hk⟩ := hall d hd
  obtain ⟨sym, hsym, haddr⟩ := haddrs d hd
  rw [hs.follows d k hk, Int.toNat_natCast] at haddr
  rw [methodSymbol_congr className hname] at hsym
  exact ⟨k, d, sym, runtimeDeclared_of_mem hmethods hd hname, hk, hsym, haddr⟩

theorem InterfaceInv.build (h : p.InterfaceInv s) {className interfaceName : String}
    (hstep : p.step s (.build className interfaceName) = some s')
    (hok : p.InterfaceStepOk s s' (.build className interfaceName)) : p.InterfaceInv s' := by
  obtain ⟨tables, hensure, rfl⟩ := map_eq_some_iff.mp hstep
  obtain ⟨i, hi, hensure⟩ := bind_eq_some_iff.mp hensure
  refine ⟨h.layouts, h.consistent, h.calls, fun table ht => ?_⟩
  split at hensure
  · cases hensure
    exact h.tables table ht
  · obtain ⟨addrs, hbuild, rfl⟩ := map_eq_some_iff.mp hensure
    rcases mem_cons.mp ht with rfl | ht
    · exact tableSettled_of_build h.layouts (hok.2 i hi) hbuild
    · exact h.tables table ht

theorem InterfaceReaches.inv (h : p.InterfaceReaches s) : p.InterfaceInv s := by
  induction h with
  | start => exact ⟨layoutInv_start, nofun, nofun, nofun⟩
  | @step s s' event _ hstep hok ih =>
    cases event with
    | call c => exact ih.call hstep hok
    | box r i => exact ih.box hstep hok
    | build className interfaceName => exact ih.build hstep hok

/-! ## dispatch -/

theorem interfaces_dispatch {s : InterfaceRun} (h : p.InterfaceReaches s) :
    p.InterfacesDispatch s := by
  have hinv := h.inv
  constructor
  · intro call hcall table htable heq m hm hname
    obtain ⟨k, d, hd, hk, hslot⟩ := (hinv.calls call hcall).slot m hm hname
    have ht := hinv.tables table htable
    obtain ⟨k', d', sym, hd', hk', hsym, haddr⟩ := ht.addrs m (heq ▸ hm)
    obtain ⟨l, -, hall⟩ := ht.settled
    obtain ⟨k₀, -, -, -, ⟨d₀, hd₀, hcompile⟩, hruntime⟩ := hall m (heq ▸ hm)
    rw [heq, hd] at hd₀
    cases hd₀
    have hcall₀ : k = k₀ := hinv.consistent.unique hk hcompile
    have htable₀ : k' = k₀ := hinv.consistent.unique hk' (hruntime d' hd')
    refine ⟨sym, hsym, ?_, ?_⟩
    · rw [hslot]
      exact Int.natCast_nonneg k
    · rw [hslot, Int.toNat_natCast, hcall₀, ← htable₀]
      exact haddr
  · intro call hcall call' hcall' heq m m' hm hm' hname hname' hne hslots
    obtain ⟨k, d, hd, hk, hslot⟩ := (hinv.calls call hcall).slot m hm hname
    obtain ⟨k', d', hd', hk', hslot'⟩ := (hinv.calls call' hcall').slot m' (heq ▸ hm') hname'
    obtain ⟨l, -, hall⟩ := (hinv.calls call hcall).settled
    obtain ⟨j, e, hj, hename, ⟨d₀, hd₀, hnumbered⟩, -⟩ := hall m hm
    obtain ⟨j', e', hj', hename', ⟨d₀', hd₀', hnumbered'⟩, -⟩ := hall m' hm'
    rw [hd] at hd₀
    cases hd₀
    rw [← heq, hd'] at hd₀'
    cases hd₀'
    have hkj : k = j := hinv.consistent.unique hk hnumbered
    have hkj' : k' = j' := hinv.consistent.unique hk' hnumbered'
    rw [hslot, hslot', Int.natCast_inj, hkj, hkj'] at hslots
    rw [hslots, hj'] at hj
    cases hj
    exact hne (by rw [← hename, ← hename'])
  · intro c m hdepth hm hname
    show ((p.compileInterfaceCall c s.layouts).map _).isSome
    rw [isSome_map]
    exact compileInterfaceCall_isSome hinv.layouts.nonneg hdepth hm hname

/-! ## the condition, computed -/

variable (p)

/-- the methods that the interface and those it extends declare -/
def declaredMethods : Nat → Option InterfaceRef → List InterfaceMethod
  | 0, _ => []
  | _ + 1, none => []
  | depth + 1, some i => p.ownMethods i ++ (p.interfaces i).bases.flatMap (declaredMethods depth)

theorem mem_declaredMethods {m : InterfaceMethod} (hm : p.Declares i m) {depth : Nat}
    (hi : p.DepthLe depth (some i)) : m ∈ p.declaredMethods depth (some i) := by
  induction hm generalizing depth with
  | own hm =>
    cases depth with
    | zero => exact hi.elim
    | succ depth => exact mem_append_left _ hm
  | base hj _ ih =>
    cases depth with
    | zero => exact hi.elim
    | succ depth =>
      exact mem_append_right _ (mem_flatMap.mpr ⟨_, hj, ih (hi _ hj)⟩)

/-- both declarations of the method have the index of its name in `l` -/
def settledIn (log : List (List InterfaceMethod)) (i : InterfaceRef) (l : List InterfaceMethod)
    (m : InterfaceMethod) : Bool :=
  let numbered (k : Nat) (d : InterfaceMethod) : Bool := log.any fun l => l[k]? = some d
  (l.findIdx? fun d => strcasecmpEq d.name m.name).any fun k =>
    (p.findDeclared m.name interfaceDepths (some i)).any (numbered k) &&
      (p.runtimeDeclared i m.name).all (numbered k)

theorem exists_of_any {α : Type*} {o : Option α} {q : α → Bool} (h : o.any q = true) :
    ∃ a, o = some a ∧ q a = true := by
  cases o with
  | none => cases h
  | some a => exact ⟨a, rfl, h⟩

theorem methodsSettled_of_settledIn (hi : p.DepthLe interfaceDepths (some i))
    {l : List InterfaceMethod} (hl : l ∈ log)
    (h : (p.declaredMethods interfaceDepths (some i)).all (p.settledIn log i l)) :
    p.MethodsSettled log i := by
  refine ⟨l, hl, fun m hm => ?_⟩
  have hm := List.all_eq_true.mp h m (p.mem_declaredMethods hm hi)
  obtain ⟨k, hk, hm⟩ := exists_of_any hm
  obtain ⟨hcompile, hruntime⟩ := Bool.and_eq_true_iff.mp hm
  obtain ⟨d, hd, hcompile⟩ := exists_of_any hcompile
  obtain ⟨hlt, hname, -⟩ := findIdx?_eq_some_iff_getElem.mp hk
  have hnumbered : ∀ {d : InterfaceMethod}, (log.any fun l => l[k]? = some d) = true →
      NumberedAt log d k := by
    intro d hd
    obtain ⟨l', hl', hd⟩ := List.any_eq_true.mp hd
    exact ⟨l', hl', of_decide_eq_true hd⟩
  refine ⟨k, l[k], getElem?_eq_getElem hlt, strcasecmpEq_iff_lower.mp hname,
    ⟨d, hd, hnumbered hcompile⟩, fun d hd => ?_⟩
  rw [hd] at hruntime
  exact hnumbered hruntime

variable {p}

theorem interfaceRun_concat (events : List InterfaceEvent) {event : InterfaceEvent}
    (h : p.interfaceRun (events ++ [event]) = some s') :
    ∃ s, p.interfaceRun events = some s ∧ p.step s event = some s' := by
  rw [interfaceRun, foldlM_append, bind_eq_bind, bind_eq_some_iff] at h
  obtain ⟨s, hs, h⟩ := h
  rw [foldlM_cons, bind_eq_bind, bind_eq_some_iff] at h
  obtain ⟨_, hstep, ⟨⟩⟩ := h
  exact ⟨s, hs, hstep⟩

/-- A ball is boxed as a solid.  The solids redeclare the second method of the shapes, which have
a layout by then. -/
def solids : InterfaceProgram where
  interfaces i := [⟨[], ["area", "name"]⟩, ⟨[some 0], ["Name", "volume"]⟩].getD i ⟨[], []⟩
  lookupType name := if name = "Solid" then some 1 else none
  procedures name :=
    if name = "ball.area" then some { address := 10 }
    else if name = "ball.name" then some { address := 20 }
    else if name = "ball.volume" then some { address := 30 }
    else none
  signaturesAgree _ _ := true

def solidEvents : List InterfaceEvent :=
  [.call { interface := 0, name := "name" }, .call { interface := 1, name := "volume" },
    .build "Ball" "Solid"]

def shapeMethods : List InterfaceMethod := [⟨0, 0, "area"⟩, ⟨0, 1, "name"⟩]

def solidMethods : List InterfaceMethod := [⟨0, 0, "area"⟩, ⟨1, 0, "Name"⟩, ⟨1, 1, "volume"⟩]

theorem solids_depth (i : InterfaceRef) (hi : i < 2) : solids.DepthLe interfaceDepths (some i) := by
  rw [← solids.collectMethods_isSome_iff (l := [])]
  revert i
  decide +kernel

theorem interfaces_dispatch_solids : ∃ s, solids.interfaceRun solidEvents = some s ∧
      s.calls.map Prod.snd = [2, 1] ∧ s.tables.map (·.addrs) = [[10, 20, 30]] ∧
      solids.InterfacesDispatch s := by
  have hshape : solids.MethodsSettled [shapeMethods] 0 :=
    solids.methodsSettled_of_settledIn (solids_depth 0 (by decide)) mem_cons_self
      (by decide +kernel)
  have hsolid : solids.MethodsSettled [solidMethods, shapeMethods] 1 :=
    solids.methodsSettled_of_settledIn (solids_depth 1 (by decide)) mem_cons_self
      (by decide +kernel)
  have hlog : Consistent [solidMethods, shapeMethods] :=
    consistent_of_idxOf (by decide +kernel) (by decide +kernel)
  have hlog₁ : Consistent [shapeMethods] := hlog.mono (subset_cons_self _ _)
  -- the layouts after each event
  have hnumbered : ∀ n log s, (solids.interfaceRun (solidEvents.take n)).map
      (·.layouts.numbered) = some log → solids.interfaceRun (solidEvents.take n) = some s →
      s.layouts.numbered = log := by
    intro n log s hmap hs
    rw [hs] at hmap
    exact some.inj hmap
  obtain ⟨s₃, h₃⟩ := isSome_iff_exists.mp
    (by decide +kernel : (solids.interfaceRun solidEvents).isSome)
  obtain ⟨s₂, h₂, hbuild⟩ := interfaceRun_concat (solidEvents.take 2) h₃
  obtain ⟨s₁, h₁, hvolume⟩ := interfaceRun_concat (solidEvents.take 1) h₂
  obtain ⟨s₀, h₀, hname⟩ := interfaceRun_concat (solidEvents.take 0) h₁
  cases h₀
  have hlog₁' := hnumbered 1 [shapeMethods] s₁ (by decide +kernel) h₁
  have hlog₂' := hnumbered 2 [solidMethods, shapeMethods] s₂ (by decide +kernel) h₂
  have hlog₃' := hnumbered 3 [solidMethods, shapeMethods] s₃ (by decide +kernel) h₃
  have hr₁ : solids.InterfaceReaches s₁ :=
    .step .start hname ⟨by rwa [hlog₁'], by rw [hlog₁']; exact hshape⟩
  have hr₂ : solids.InterfaceReaches s₂ :=
    .step hr₁ hvolume ⟨by rwa [hlog₂'], by rw [hlog₂']; exact hsolid⟩
  have hr₃ : solids.InterfaceReaches s₃ := by
    refine .step hr₂ hbuild ⟨by rwa [hlog₃'], fun i hi => ?_⟩
    cases hi
    rw [hlog₂']
    exact hsolid
  have hcalls : (solids.interfaceRun solidEvents).map (·.calls.map Prod.snd) = some [2, 1] := by
    decide +kernel
  have htables : (solids.interfaceRun solidEvents).map (·.tables.map (·.addrs)) =
      some [[10, 20, 30]] := by
    decide +kernel
  rw [h₃] at hcalls htables
  exact ⟨s₃, h₃, some.inj hcalls, some.inj htables, interfaces_dispatch hr₃⟩

/-- Two interfaces extend the same two others in different orders. -/
def swappedBases : InterfaceProgram where
  interfaces i := [⟨[], ["draw"]⟩, ⟨[], ["save"]⟩, ⟨[some 0, some 1], []⟩,
    ⟨[some 1, some 0], []⟩].getD i ⟨[], []⟩
  lookupType name := if name = "Left" then some 2 else none
  procedures name :=
    if name = "disc.draw" then some { address := 10 }
    else if name = "disc.save" then some { address := 20 }
    else none
  signaturesAgree _ _ := true

/-- A call compiled between the two layouts reaches the other method. -/
theorem interfaces_dispatch_swapped : ¬ ∀ (p : InterfaceProgram) (events : List InterfaceEvent)
    (s : InterfaceRun), p.interfaceRun events = some s → p.InterfacesDispatch s := by
  intro h
  let events : List InterfaceEvent := [.call { interface := 2, name := "save" },
    .call { interface := 3, name := "save" }, .build "Disc" "Left"]
  have hrun : (swappedBases.interfaceRun events).isSome := by decide +kernel
  obtain ⟨s, hs⟩ := isSome_iff_exists.mp hrun
  have hcalls : (swappedBases.interfaceRun events).map (·.calls) =
      some [({ interface := 3, name := "save" }, 0), ({ interface := 2, name := "save" }, 1)] := by
    decide +kernel
  have htables : (swappedBases.interfaceRun events).map (·.tables) =
      some [⟨"Disc", "Left", 2, [20, 10]⟩] := by
    decide +kernel
  rw [hs, map_some, some_inj] at hcalls htables
  obtain ⟨sym, hsym, -, haddr⟩ := (h swappedBases events s hs).reaches
    ({ interface := 2, name := "save" }, 1) (by rw [hcalls]; exact .tail _ (.head _))
    ⟨"Disc", "Left", 2, [20, 10]⟩ (by rw [htables]; exact .head _) rfl ⟨1, 0, "save"⟩
    (.base (j := 1) (.tail _ (.head _)) (.own (.head _))) rfl
  have hsave : swappedBases.methodSymbol "Disc" "save" = some { address := 20 } := by
    decide +kernel
  rw [hsave] at hsym
  cases hsym
  exact absurd haddr (by decide)

end InterfaceProgram

end Pscal
