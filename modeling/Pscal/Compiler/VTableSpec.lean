import Mathlib
import Pscal.Compiler.VTables

/-!
# Virtual method tables hold the nearest definitions

* `OwnMethod`, `NearestMethod`, `HasVirtual`  what a hierarchy says about a class;
* `VTablesReady`  the inputs on which one call emits what the hierarchy says;
* `emitVTables_spec`  one call;
* `vtables_inherit`  every run of compilations.
-/

namespace Pscal

open List Function

/-! ## the hierarchy -/

namespace VTableInput

variable (input : VTableInput)

def OwnMethod (cls : String) (e : MethodEntry) : Prop :=
  e ∈ input.entries ∧ e.isVirtual = true ∧ e.className? = some cls

/-- the parent of a class; symbols spell a class in lower case -/
def parentClass (cls : String) : Option String := (input.parentName cls).map toLowerString

/-- the first definition of a slot on the way from a class, in lower case, to its root -/
inductive NearestMethod : String → Nat → Int → Prop where
  | own {cls : String} {e : MethodEntry} {j : Nat} : input.OwnMethod cls e → e.slot = j →
      NearestMethod cls j e.address
  | inherited {cls parent : String} {j : Nat} {address : Int} : toLowerString cls = cls →
      (∀ e, input.OwnMethod cls e → e.slot ≠ j) → input.parentClass cls = some parent →
      NearestMethod parent j address → NearestMethod cls j address

/-- the class has a virtual method, its own or an inherited one -/
inductive HasVirtual : String → Prop where
  | own {cls : String} {e : MethodEntry} : input.OwnMethod cls e → HasVirtual cls
  | inherited {cls parent : String} : toLowerString cls = cls →
      input.parentClass cls = some parent → HasVirtual parent → HasVirtual cls

structure VTablesReady : Prop where
  /-- every virtual method has a slot and an address -/
  resolved : ∀ cls e, input.OwnMethod cls e → 0 ≤ e.slot ∧ 0 < e.address
  oneAddress : ∀ cls e e', input.OwnMethod cls e → input.OwnMethod cls e' → e.slot = e'.slot →
    e.address = e'.address
  /-- a class that inherits a virtual method has one of its own -/
  present : ∀ cls, input.HasVirtual cls → ∃ e, input.OwnMethod cls e
  /-- the parent is spelled as its methods are, or the class has all of its slots -/
  spelled : ∀ cls name, input.parentName cls = some name →
    (∃ e, input.OwnMethod cls e) → input.HasVirtual (toLowerString name) →
    toLowerString name = name ∨ ∀ j address, input.NearestMethod (toLowerString name) j address →
      ∃ e, input.OwnMethod cls e ∧ e.slot = j
  /-- every class comes after its parent, at some distance from a root -/
  levels : ∃ level : String → Nat, ∀ cls parent, input.parentClass cls = some parent →
    level parent < level cls

end VTableInput

open VTableInput

/-! ## class names -/

theorem takeWhile_length_le {α : Type*} (p : α → Bool) (l : List α) :
    (l.takeWhile p).length ≤ l.length := (takeWhile_sublist p).length_le

theorem MethodEntry.virtualOf_eq (e : MethodEntry) :
    e.virtualOf = if e.isVirtual then e.className? else none := by
  rw [virtualOf, className?]
  split
  · split
    · have hshort := e.short
      have hle := takeWhile_length_le (· ≠ '.') e.name.toList
      rw [String.length_toList] at hle
      rw [maxSymbolLength] at hshort
      rw [Option.filter_some, if_pos]
      rw [decide_eq_true_eq, String.length_ofList]
      omega
    · rfl
  · rfl

variable {cls c : String} {e : MethodEntry} {classes : List String} {f : String → VTableInfo}
  {vt : VTableInfo}

theorem MethodEntry.virtualOf_eq_some :
    e.virtualOf = some cls ↔ e.isVirtual = true ∧ e.className? = some cls := by
  rw [e.virtualOf_eq]
  split
  · rename_i h
    exact ⟨fun hcls => ⟨h, hcls⟩, fun hcls => hcls.2⟩
  · rename_i h
    exact ⟨nofun, fun hcls => absurd hcls.1 h⟩

variable {input : VTableInput}

theorem VTableInput.ownMethod_iff :
    input.OwnMethod cls e ↔ e ∈ input.entries.filter (·.virtualOf = some cls) := by
  rw [OwnMethod, mem_filter, decide_eq_true_eq, MethodEntry.virtualOf_eq_some]

theorem VTableInput.OwnMethod.lower (h : input.OwnMethod cls e) : toLowerString cls = cls := by
  have hcls := h.2.2
  rw [MethodEntry.className?] at hcls
  split at hcls
  · cases hcls
    have hlower := congrArg String.toList e.lower
    rw [toLowerString, String.toList_ofList, ← List.map_id e.name.toList, List.map_map,
      map_inj_left] at hlower
    rw [toLowerString, String.toList_ofList]
    congr 1
    refine (map_congr_left fun c hc => ?_).trans (List.map_id _)
    exact hlower c ((takeWhile_sublist _).mem hc)
  · cases hcls

/-! ## the scan -/

def ownTable (entries : List MethodEntry) (cls : String) : VTableInfo :=
  (entries.filter (·.virtualOf = some cls)).foldl VTableInfo.addMethod { className := cls }

def virtualClasses : List MethodEntry → List String → List String
  | [], classes => classes
  | e :: entries, classes =>
    virtualClasses entries (e.virtualOf.elim classes (VTableTracker.recordClass classes))

theorem addMethod_className (vt : VTableInfo) (e : MethodEntry) :
    (vt.addMethod e).className = vt.className := by
  rw [VTableInfo.addMethod]
  split <;> rfl

theorem ownTable_className (entries : List MethodEntry) (cls : String) :
    (ownTable entries cls).className = cls := by
  rw [ownTable]
  generalize entries.filter (·.virtualOf = some cls) = own
  suffices h : ∀ vt : VTableInfo, vt.className = cls →
      (own.foldl VTableInfo.addMethod vt).className = cls from h _ rfl
  induction own with
  | nil => exact fun _ h => h
  | cons e own ih => exact fun vt h => ih _ ((addMethod_className vt e).trans h)

theorem ownTable_append (entries : List MethodEntry) (e : MethodEntry) (cls : String) :
    ownTable (entries ++ [e]) cls =
      if e.virtualOf = some cls then (ownTable entries cls).addMethod e
      else ownTable entries cls := by
  rw [ownTable, filter_append, foldl_append, filter_singleton]
  by_cases h : e.virtualOf = some cls
  · rw [if_pos h, decide_eq_true h]
    rfl
  · rw [if_neg h, decide_eq_false h]
    rfl

theorem recordClass_nodup (h : classes.Nodup) (name : String) :
    (VTableTracker.recordClass classes name).Nodup := by
  rw [VTableTracker.recordClass]
  split
  · exact h
  · rename_i hname
    exact Nodup.append h (nodup_singleton name) (disjoint_singleton.mpr hname)

theorem mem_recordClass {name : String} :
    c ∈ VTableTracker.recordClass classes name ↔ c ∈ classes ∨ c = name := by
  rw [VTableTracker.recordClass]
  split
  · rename_i hname
    exact ⟨.inl, fun h => h.elim id fun h => h ▸ hname⟩
  · rw [mem_append, mem_singleton]

theorem virtualClasses_append (entries : List MethodEntry) (e : MethodEntry)
    (classes : List String) : virtualClasses (entries ++ [e]) classes =
      e.virtualOf.elim (virtualClasses entries classes)
        (VTableTracker.recordClass (virtualClasses entries classes)) := by
  induction entries generalizing classes with
  | nil => rfl
  | cons a entries ih => exact ih _

theorem virtualClasses_nodup (entries : List MethodEntry) (h : classes.Nodup) :
    (virtualClasses entries classes).Nodup := by
  induction entries generalizing classes with
  | nil => exact h
  | cons e entries ih =>
    refine ih ?_
    cases e.virtualOf with
    | none => exact h
    | some name => exact recordClass_nodup h name

theorem mem_virtualClasses {entries : List MethodEntry} :
    c ∈ virtualClasses entries classes ↔ c ∈ classes ∨ ∃ e ∈ entries, e.virtualOf = some c := by
  induction entries generalizing classes with
  | nil => exact ⟨.inl, fun h => h.elim id fun ⟨_, he, _⟩ => absurd he not_mem_nil⟩
  | cons e entries ih =>
    rw [virtualClasses, ih, exists_mem_cons_iff, ← or_assoc]
    refine or_congr_left ?_
    cases e.virtualOf with
    | none => exact ⟨.inl, fun h => h.elim id nofun⟩
    | some name =>
      rw [Option.some.injEq, eq_comm]
      exact mem_recordClass

theorem findVTableIndex_map (hf : ∀ c, (f c).className = c) (classes : List String) (name : String)
    : findVTableIndex (classes.map f) name = classes.findIdx? (· = name) := by
  rw [findVTableIndex, findIdx?_map]
  congr 1
  funext c
  show decide ((f c).className = name) = decide (c = name)
  rw [hf]

theorem map_set_update (hnodup : classes.Nodup) (f : String → VTableInfo) {idx : Nat}
    (h : classes[idx]? = some cls) (vt : VTableInfo) :
    (classes.map f).set idx vt = classes.map (update f cls vt) := by
  obtain ⟨hidx, rfl⟩ := List.getElem?_eq_some_iff.mp h
  refine ext_getElem (by rw [List.length_set, length_map, length_map]) ?_
  intro i hi hi'
  rw [length_map] at hi'
  rw [getElem_set, getElem_map, getElem_map]
  by_cases heq : idx = i
  · subst heq
    rw [if_pos rfl, update_self]
  · rw [if_neg heq, update_of_ne fun h =>
      heq ((hnodup.getElem_inj_iff).mp h).symm]

theorem findIdx?_eq_some {name : String} {idx : Nat} (h : classes.findIdx? (· = name) = some idx) :
    classes[idx]? = some name := by
  obtain ⟨hidx, heq, -⟩ := findIdx?_eq_some_iff_getElem.mp h
  rw [getElem?_eq_getElem hidx, of_decide_eq_true heq]

/-- **The scan makes one table for each class.** -/
theorem scanVirtualMethods_eq (entries : List MethodEntry) :
    scanVirtualMethods entries = (virtualClasses entries []).map (ownTable entries) := by
  induction entries using reverseRecOn with
  | nil => rfl
  | append_singleton entries e ih =>
    rw [scanVirtualMethods, foldl_append, virtualClasses_append]
    show addEntry (scanVirtualMethods entries) e = _
    rw [ih, addEntry]
    cases hcls : e.virtualOf with
    | none =>
      refine map_congr_left fun c _ => ?_
      rw [ownTable_append, hcls, if_neg nofun]
    | some cls =>
      have hnodup := virtualClasses_nodup entries nodup_nil
      dsimp only [Option.elim_some]
      rw [findVTableIndex_map (ownTable_className entries), VTableTracker.recordClass]
      cases hidx : (virtualClasses entries []).findIdx? (· = cls) with
      | none =>
        have hnew : cls ∉ virtualClasses entries [] := fun hmem =>
          absurd (findIdx?_eq_none_iff.mp hidx cls hmem) (by simp)
        rw [if_neg hnew, map_append, map_singleton, ownTable_append, if_pos hcls]
        have hempty : ownTable entries cls = { className := cls } := by
          rw [ownTable, filter_eq_nil_iff.mpr]
          · rfl
          · intro a ha hcls'
            exact hnew (mem_virtualClasses.mpr (.inr ⟨a, ha, of_decide_eq_true hcls'⟩))
        rw [hempty]
        show (virtualClasses entries []).map (ownTable entries) ++ _ = _
        congr 1
        refine map_congr_left fun c hc => ?_
        rw [ownTable_append, if_neg]
        rw [hcls]
        rintro ⟨⟩
        exact hnew hc
      | some idx =>
        have hget := findIdx?_eq_some hidx
        dsimp only
        rw [if_pos (mem_of_getElem? hget), modify_eq_set_getElem?, getElem?_map, hget]
        show ((virtualClasses entries []).map (ownTable entries)).set idx _ = _
        rw [map_set_update hnodup _ hget]
        refine map_congr_left fun c _ => ?_
        rw [ownTable_append, hcls]
        by_cases hc : c = cls
        · subst hc
          rw [update_self, if_pos rfl]
        · rw [update_of_ne hc, if_neg fun h => hc (Option.some.inj h).symm]

/-! ## the table of one class -/

theorem getElem?_growAddrs (addrs : List Int) (capacity j : Nat) : (growAddrs addrs capacity)[j]? =
      if j < addrs.length then addrs[j]?
      else if j < capacity then some noVTableEntry else none := by
  rw [growAddrs]
  split
  · rename_i hj
    exact getElem?_append_left hj
  · rename_i hj
    rw [getElem?_append_right (by omega), getElem?_replicate]
    exact if_congr (by omega) rfl rfl

theorem length_growAddrs (addrs : List Int) (capacity : Nat) :
    (growAddrs addrs capacity).length = max addrs.length capacity := by
  rw [growAddrs, length_append, length_replicate]
  omega

/-- a table that holds the methods `own` and nothing else -/
structure OwnAddrs (own : List MethodEntry) (vt : VTableInfo) : Prop where
  count : vt.methodCount = vt.addrs.length
  resolved : vt.hasUnresolved = false
  unmerged : vt.merged = false
  holds : ∀ e ∈ own, vt.addrs[e.slot.toNat]? = some e.address
  only : ∀ (j : Nat) a, vt.addrs[j]? = some a → a = noVTableEntry ∨ ∃ e ∈ own, e.slot = j

theorem ownAddrs_foldl {own : List MethodEntry} (cls : String)
    (hresolved : ∀ e ∈ own, 0 ≤ e.slot ∧ 0 < e.address)
    (hone : ∀ e ∈ own, ∀ e' ∈ own, e.slot = e'.slot → e.address = e'.address) :
    OwnAddrs own (own.foldl VTableInfo.addMethod { className := cls }) := by
  induction own using reverseRecOn with
  | nil => exact ⟨rfl, rfl, rfl, nofun, nofun⟩
  | append_singleton own e ih =>
    have hmem : ∀ a ∈ own, a ∈ own ++ [e] := fun a ha => mem_append_left _ ha
    have hlast : e ∈ own ++ [e] := mem_append_right _ (mem_singleton.mpr rfl)
    have hown := ih (fun a ha => hresolved a (hmem a ha))
      fun a ha b hb => hone a (hmem a ha) b (hmem b hb)
    rw [foldl_append]
    generalize own.foldl VTableInfo.addMethod { className := cls } = vt at hown
    obtain ⟨hslot, haddress⟩ := hresolved e hlast
    have hget : ∀ j, (vt.addMethod e).addrs[j]? =
        if e.slot.toNat = j then some e.address
        else (growAddrs vt.addrs (e.slot.toNat + 1))[j]? := by
      intro j
      rw [VTableInfo.addMethod, if_neg (by omega)]
      show ((growAddrs vt.addrs (e.slot.toNat + 1)).set e.slot.toNat e.address)[j]? = _
      have hlt : e.slot.toNat < (growAddrs vt.addrs (e.slot.toNat + 1)).length := by
        rw [length_growAddrs]
        omega
      rw [getElem?_set, if_pos hlt]
    show OwnAddrs (own ++ [e]) (vt.addMethod e)
    refine ⟨?_, ?_, ?_, fun a ha => ?_, fun j a ha => ?_⟩
    · rw [VTableInfo.addMethod, if_neg (by omega)]
      show max vt.methodCount _ = ((growAddrs _ _).set _ _).length
      rw [List.length_set, length_growAddrs, hown.count]
    · rw [VTableInfo.addMethod, if_neg (by omega)]
      show (vt.hasUnresolved || decide (e.address ≤ 0)) = false
      rw [hown.resolved, decide_eq_false (by omega)]
      rfl
    · rw [VTableInfo.addMethod, if_neg (by omega)]
      exact hown.unmerged
    · rw [hget]
      split
      · rename_i heq
        have hslot' := (hresolved a ha).1
        rw [hone e hlast a ha (by omega)]
      · rename_i hne
        rcases mem_append.mp ha with ha | ha
        · have hold := hown.holds a ha
          obtain ⟨hlt, -⟩ := List.getElem?_eq_some_iff.mp hold
          rw [getElem?_growAddrs, if_pos hlt]
          exact hold
        · rw [mem_singleton.mp ha] at hne
          exact absurd rfl hne
    · rw [hget] at ha
      split at ha
      · rename_i heq
        exact .inr ⟨e, hlast, by omega⟩
      · rw [getElem?_growAddrs] at ha
        split at ha
        · rcases hown.only j a ha with hno | ⟨b, hb, hbj⟩
          · exact .inl hno
          · exact .inr ⟨b, hmem b hb, hbj⟩
        · split at ha
          · cases ha
            exact .inl rfl
          · cases ha

section
variable {input : VTableInput} (hready : input.VTablesReady)
include hready

theorem ownTable_spec (cls : String) :
    OwnAddrs (input.entries.filter (·.virtualOf = some cls)) (ownTable input.entries cls) :=
  ownAddrs_foldl cls (fun e he => hready.resolved cls e (ownMethod_iff.mpr he))
    fun e he e' he' => hready.oneAddress cls e e' (ownMethod_iff.mpr he) (ownMethod_iff.mpr he')

end

/-! ## the merge -/

/-- a table with the nearest definition of every slot -/
structure NearestAddrs (input : VTableInput) (cls : String) (vt : VTableInfo) : Prop where
  count : vt.methodCount = vt.addrs.length
  resolved : vt.hasUnresolved = false
  nearest : ∀ j a, input.NearestMethod cls j a → vt.addrs[j]? = some a

theorem NearestMethod.hasVirtual {j : Nat} {a : Int} (h : input.NearestMethod cls j a) :
    input.HasVirtual cls := by
  induction h with
  | own he => exact .own he
  | inherited hlower _ hparent _ ih => exact .inherited hlower hparent ih

theorem getElem?_inherit {parent : VTableInfo} (hcount : parent.methodCount = parent.addrs.length)
    (j : Nat) : (vt.inherit parent).addrs[j]? =
      ((growAddrs vt.addrs parent.methodCount)[j]?).map fun a => inheritAddr a parent.addrs[j]? := by
  show ((growAddrs vt.addrs parent.methodCount).mapIdx _)[j]? = _
  rw [getElem?_mapIdx, hcount, take_length]

section
variable {input : VTableInput} (hready : input.VTablesReady)
include hready

theorem nearestAddrs_inherit {cls p : String} {parent : VTableInfo}
    (hparent : input.parentClass cls = some p) (hnearest : NearestAddrs input p parent) :
    NearestAddrs input cls { (ownTable input.entries cls).inherit parent with merged := true } := by
  have hown := ownTable_spec hready cls
  refine ⟨?_, ?_, fun j a ha => ?_⟩
  · show max (ownTable input.entries cls).methodCount _ = ((growAddrs _ _).mapIdx _).length
    rw [length_mapIdx, length_growAddrs, hown.count]
  · show ((ownTable input.entries cls).hasUnresolved || parent.hasUnresolved) = false
    rw [hown.resolved, hnearest.resolved]
    rfl
  · show ((ownTable input.entries cls).inherit parent).addrs[j]? = some a
    rw [getElem?_inherit hnearest.count, getElem?_growAddrs]
    cases ha with
    | own he hslot =>
      rename_i e
      have hget := hown.holds e (ownMethod_iff.mp he)
      obtain rfl : e.slot.toNat = j := by omega
      obtain ⟨hlt, -⟩ := List.getElem?_eq_some_iff.mp hget
      have haddress := (hready.resolved cls e he).2
      rw [if_pos hlt, hget, Option.map_some, inheritAddr, if_neg]
      show e.address ≠ -1
      omega
    | inherited _ hnone hp hinherited =>
      cases hparent.symm.trans hp
      have hget := hnearest.nearest j a hinherited
      obtain ⟨hlt, -⟩ := List.getElem?_eq_some_iff.mp hget
      have hfill : (inheritAddr noVTableEntry parent.addrs[j]?) = a := by
        rw [inheritAddr, if_pos rfl, hget]
        rfl
      split
      · rename_i hj
        rw [getElem?_eq_getElem hj, Option.map_some]
        rcases hown.only j _ (getElem?_eq_getElem hj) with hno | ⟨e, he, hslot⟩
        · rw [hno, hfill]
        · exact absurd hslot (hnone e (ownMethod_iff.mpr he))
      · rw [if_pos (by rw [hnearest.count]; exact hlt), Option.map_some, hfill]

theorem nearestAddrs_root {cls : String} (hmem : ∃ e, input.OwnMethod cls e)
    (hroot : ∀ name, input.parentName cls = some name → ∀ e, ¬ input.OwnMethod name e) :
    NearestAddrs input cls { ownTable input.entries cls with merged := true } := by
  have hown := ownTable_spec hready cls
  refine ⟨hown.count, hown.resolved, fun j a ha => ?_⟩
  cases ha with
  | own he hslot =>
    rename_i e
    have hget := hown.holds e (ownMethod_iff.mp he)
    obtain rfl : e.slot.toNat = j := by omega
    exact hget
  | inherited _ hnone hp hinherited =>
    rw [parentClass, Option.map_eq_some_iff] at hp
    obtain ⟨name, hname, rfl⟩ := hp
    have hvirtual := NearestMethod.hasVirtual hinherited
    rcases hready.spelled cls name hname hmem hvirtual with hspelled | hall
    · obtain ⟨e, he⟩ := hready.present _ hvirtual
      rw [hspelled] at he
      exact absurd he (hroot name hname e)
    · obtain ⟨e, he, hslot⟩ := hall j a hinherited
      exact absurd hslot (hnone e he)

end

/-- a table is untouched, or it is merged and has the nearest definitions -/
def MergeInv (input : VTableInput) (f : String → VTableInfo) : Prop :=
  ∀ c, f c = ownTable input.entries c ∨
    (f c).className = c ∧ (f c).merged = true ∧ NearestAddrs input c (f c)

theorem MergeInv.className (h : MergeInv input f) (c : String) : (f c).className = c := by
  rcases h c with heq | ⟨hname, -⟩
  · rw [heq, ownTable_className]
  · exact hname

theorem MergeInv.update (h : MergeInv input f) (hname : vt.className = c)
    (hmerged : vt.merged = true) (hnearest : NearestAddrs input c vt) :
    MergeInv input (update f c vt) := by
  intro d
  by_cases hdc : d = c
  · subst hdc
    rw [update_self]
    exact .inr ⟨hname, hmerged, hnearest⟩
  · rw [update_of_ne hdc]
    exact h d

theorem merged_update (hmerged : vt.merged = true) {d : String} (hd : (f d).merged = true) :
    (update f c vt d).merged = true := by
  by_cases hdc : d = c
  · subst hdc
    rw [update_self]
    exact hmerged
  · rw [update_of_ne hdc]
    exact hd

theorem countP_lt_of_level {level : String → Nat} {p : String} (hp : p ∈ classes)
    (hlevel : level p < level c) :
    classes.countP (level · < level p) < classes.countP (level · < level c) := by
  induction classes with
  | nil => cases hp
  | cons a classes ih =>
    rw [countP_cons, countP_cons]
    have hmono : classes.countP (level · < level p) ≤ classes.countP (level · < level c) :=
      countP_mono_left fun b _ hb => by
        rw [decide_eq_true_eq] at hb ⊢
        omega
    rcases mem_cons.mp hp with rfl | hp
    · rw [if_neg (by simp), if_pos (decide_eq_true hlevel)]
      omega
    · have hlt := ih hp
      by_cases ha : level a < level p
      · rw [if_pos (decide_eq_true ha), if_pos (decide_eq_true (by omega))]
        omega
      · rw [if_neg (by simpa using ha)]
        omega

section
variable {input : VTableInput} (hready : input.VTablesReady)
include hready

/-- **Merging one table.**  The recursion ends, since the chain of parents climbs the levels. -/
theorem mergeParentTable_spec {classes : List String} (hnodup : classes.Nodup)
    (hclasses : ∀ c, c ∈ classes ↔ ∃ e, input.OwnMethod c e) {level : String → Nat}
    (hlevel : ∀ c p, input.parentClass c = some p → level p < level c) (fuel : Nat)
    {f : String → VTableInfo} (hf : MergeInv input f) {idx : Nat} {c : String}
    (hidx : classes[idx]? = some c) (hfuel : classes.countP (level · < level c) < fuel) :
    ∃ f', mergeParentTable input fuel (classes.map f) idx = some (classes.map f') ∧
      MergeInv input f' ∧ (f' c).merged = true ∧
      ∀ d, (f d).merged = true → (f' d).merged = true := by
  induction fuel generalizing f idx c with
  | zero => omega
  | succ fuel ih =>
    have hc : c ∈ classes := mem_of_getElem? hidx
    rw [mergeParentTable, getElem?_map, hidx, Option.map_some, Option.bind_some]
    by_cases hmerged : (f c).merged = true
    · rw [if_pos hmerged]
      exact ⟨f, rfl, hf, hmerged, fun _ h => h⟩
    rw [if_neg hmerged]
    have hown : f c = ownTable input.entries c := (hf c).resolve_right fun h => hmerged h.2.1
    have hfind : (input.parentName (f c).className).bind (findVTableIndex (classes.map f)) =
        (input.parentName c).bind fun name => classes.findIdx? (· = name) := by
      rw [hf.className]
      congr 1
      funext name
      exact findVTableIndex_map hf.className classes name
    rw [hfind]
    cases hparent : (input.parentName c).bind fun name => classes.findIdx? (· = name) with
    | none =>
      have hroot : ∀ name, input.parentName c = some name → ∀ e, ¬ input.OwnMethod name e := by
        intro name hname e he
        rw [hname, Option.bind_some, findIdx?_eq_none_iff] at hparent
        exact absurd (hparent name ((hclasses name).mpr ⟨e, he⟩)) (by simp)
      have hnearest : NearestAddrs input c { f c with merged := true } := by
        rw [hown]
        exact nearestAddrs_root hready ((hclasses c).mp hc) hroot
      refine ⟨update f c { f c with merged := true }, ?_,
        hf.update (hf.className c) rfl hnearest, ?_, fun d hd => merged_update rfl hd⟩
      · exact congrArg some (map_set_update hnodup f hidx _)
      · rw [update_self]
    | some pidx =>
      obtain ⟨p, hname, hpidx⟩ := Option.bind_eq_some_iff.mp hparent
      have hget := findIdx?_eq_some hpidx
      have hp : p ∈ classes := mem_of_getElem? hget
      obtain ⟨e, he⟩ := (hclasses p).mp hp
      have hpc : input.parentClass c = some p := by
        rw [parentClass, hname, Option.map_some, he.lower]
      have hcount := countP_lt_of_level hp (hlevel c p hpc)
      obtain ⟨f', hrun, hf', hpmerged, hkeep⟩ := ih hf hget (by omega)
      have hpnearest : NearestAddrs input p (f' p) := by
        rcases hf' p with heq | ⟨-, -, h⟩
        · rw [heq, (ownTable_spec hready p).unmerged] at hpmerged
          cases hpmerged
        · exact h
      have hname' : ({ (f c).inherit (f' p) with merged := true } : VTableInfo).className = c :=
        hf.className c
      have hnearest : NearestAddrs input c { (f c).inherit (f' p) with merged := true } := by
        rw [hown]
        exact nearestAddrs_inherit hready hpc hpnearest
      refine ⟨update f' c { (f c).inherit (f' p) with merged := true }, ?_,
        hf'.update hname' rfl hnearest, ?_, fun d hd => merged_update rfl (hkeep d hd)⟩
      · dsimp only
        rw [hrun, Option.bind_some, getElem?_map, hget]
        exact congrArg some (map_set_update hnodup f' hidx _)
      · rw [update_self]

theorem mergeTables_spec {classes : List String} (hnodup : classes.Nodup)
    (hclasses : ∀ c, c ∈ classes ↔ ∃ e, input.OwnMethod c e) :
    ∃ f, mergeTables input (classes.map (ownTable input.entries)) = some (classes.map f) ∧
      ∀ c ∈ classes, (f c).className = c ∧ NearestAddrs input c (f c) := by
  obtain ⟨level, hlevel⟩ := hready.levels
  rw [mergeTables, length_map]
  have hloop : ∀ (is : List Nat), (∀ i ∈ is, i < classes.length) → ∀ f, MergeInv input f →
      ∃ f', is.foldlM (mergeParentTable input (classes.length + 1)) (classes.map f) =
          some (classes.map f') ∧ MergeInv input f' ∧
        (∀ i ∈ is, ∀ c, classes[i]? = some c → (f' c).merged = true) ∧
        ∀ d, (f d).merged = true → (f' d).merged = true := by
    intro is
    induction is with
    | nil => exact fun _ f hf => ⟨f, rfl, hf, nofun, fun _ h => h⟩
    | cons i is ih =>
      intro his f hf
      have hi := his i mem_cons_self
      have hidx := getElem?_eq_getElem hi
      have hle := countP_le_length (p := (level · < level classes[i])) (l := classes)
      obtain ⟨f₁, hrun, hf₁, hmerged, hkeep⟩ :=
        mergeParentTable_spec hready hnodup hclasses hlevel (classes.length + 1) hf hidx (by omega)
      obtain ⟨f', hrun', hf', hall, hkeep'⟩ := ih (fun j hj => his j (mem_cons_of_mem i hj)) f₁ hf₁
      refine ⟨f', ?_, hf', fun j hj c hc => ?_, fun d hd => hkeep' d (hkeep d hd)⟩
      · rw [foldlM_cons, hrun]
        exact hrun'
      · rcases mem_cons.mp hj with rfl | hj
        · cases hidx.symm.trans hc
          exact hkeep' _ hmerged
        · exact hall j hj c hc
  obtain ⟨f, hrun, hf, hall, -⟩ := hloop (List.range classes.length)
    (fun i hi => mem_range.mp hi) (ownTable input.entries) fun _ => .inl rfl
  refine ⟨f, hrun, fun c hc => ⟨hf.className c, ?_⟩⟩
  obtain ⟨i, hi, rfl⟩ := mem_iff_getElem.mp hc
  have hmerged := hall i (mem_range.mpr hi) _ (getElem?_eq_getElem hi)
  rcases hf classes[i] with heq | ⟨-, -, h⟩
  · rw [heq, (ownTable_spec hready _).unmerged] at hmerged
    cases hmerged
  · exact h

/-! ## one call -/

theorem NearestMethod.pos {cls : String} {j : Nat} {a : Int} (h : input.NearestMethod cls j a) :
    0 < a := by
  induction h with
  | own he => exact (hready.resolved _ _ he).2
  | inherited _ _ _ _ ih => exact ih

theorem NearestAddrs.emitted {cls : String} {vt : VTableInfo} (h : NearestAddrs input cls vt)
    {j : Nat} {a : Int} (ha : input.NearestMethod cls j a) : vt.emitted[j]? = some a := by
  have hpos := NearestMethod.pos hready ha
  rw [VTableInfo.emitted, h.count, take_length, getElem?_map, h.nearest j a ha,
    Option.map_some, if_neg]
  show a ≠ -1
  omega

omit hready in
theorem emitTables_spec {tables : List VTableInfo} (hnodup : (tables.map (·.className)).Nodup)
    (hemit : ∀ vt ∈ tables, vt.methodCount ≠ 0 ∧ vt.hasUnresolved = false) (classes : List String) :
    emitTables tables classes =
      ((tables.filter (·.className ∉ classes)).map fun vt => (vt.className, vt.emitted),
        classes ++ (tables.filter (·.className ∉ classes)).map (·.className)) := by
  induction tables generalizing classes with
  | nil => rw [emitTables, filter_nil, map_nil, map_nil, append_nil]
  | cons vt tables ih =>
    obtain ⟨hcount, hresolved⟩ := hemit vt mem_cons_self
    have hrest := ih hnodup.of_cons fun a ha => hemit a (mem_cons_of_mem vt ha)
    have hnew : vt.className ∉ tables.map (·.className) := (nodup_cons.mp hnodup).1
    rw [emitTables]
    by_cases hmem : vt.className ∈ classes
    · rw [if_pos (.inr (.inr hmem)), hrest, filter_cons_of_neg (by simpa using hmem)]
    · rw [if_neg, filter_cons_of_pos (by simpa using hmem), hrest]
      · have hfilter : tables.filter (·.className ∉ classes ++ [vt.className]) =
            tables.filter (·.className ∉ classes) := by
          refine filter_congr fun a ha => ?_
          have hne : a.className ≠ vt.className := fun h =>
            hnew (h ▸ List.mem_map_of_mem ha)
          simp [hne]
        dsimp only
        rw [hfilter, map_cons, map_cons, append_assoc, singleton_append]
      · rintro (h | h | h)
        · exact hcount h
        · rw [hresolved] at h
          cases h
        · exact hmem h

/-- **One call.**  It ends, and emits one right table for each class that has none yet. -/
theorem emitVTables_spec (classes : List String) :
    ∃ out, emitVTables input classes = some (out, classes ++ out.map Prod.fst) ∧
      (out.map Prod.fst).Nodup ∧ (∀ c ∈ out.map Prod.fst, c ∉ classes) ∧
      (∀ c, input.HasVirtual c → c ∈ classes ∨ c ∈ out.map Prod.fst) ∧
      ∀ entry ∈ out, ∀ j a, input.NearestMethod entry.1 j a → entry.2[j]? = some a := by
  have hnodup := virtualClasses_nodup input.entries nodup_nil
  have hclasses : ∀ c, c ∈ virtualClasses input.entries [] ↔ ∃ e, input.OwnMethod c e := by
    intro c
    rw [mem_virtualClasses]
    constructor
    · rintro (h | ⟨e, he, hc⟩)
      · cases h
      · exact ⟨e, he, MethodEntry.virtualOf_eq_some.mp hc⟩
    · rintro ⟨e, he⟩
      exact .inr ⟨e, he.1, MethodEntry.virtualOf_eq_some.mpr he.2⟩
  obtain ⟨f, hmerge, hf⟩ := mergeTables_spec hready hnodup hclasses
  have hnames : ((virtualClasses input.entries []).map f).map (·.className) =
      virtualClasses input.entries [] := by
    rw [List.map_map]
    exact (map_congr_left fun c hc => (hf c hc).1).trans (List.map_id _)
  have hemit : ∀ vt ∈ (virtualClasses input.entries []).map f,
      vt.methodCount ≠ 0 ∧ vt.hasUnresolved = false := by
    intro vt hvt
    obtain ⟨c, hc, rfl⟩ := List.mem_map.mp hvt
    obtain ⟨e, he⟩ := (hclasses c).mp hc
    obtain ⟨-, hnearest⟩ := hf c hc
    have hslot := (hready.resolved c e he).1
    have hget := hnearest.nearest _ _ (.own he (j := e.slot.toNat) (by omega))
    obtain ⟨hlt, -⟩ := List.getElem?_eq_some_iff.mp hget
    rw [hnearest.count]
    exact ⟨by omega, hnearest.resolved⟩
  -- the tables that are not recorded, by their classes
  have hfilter : ((virtualClasses input.entries []).map f).filter (·.className ∉ classes) =
      ((virtualClasses input.entries []).filter (· ∉ classes)).map f := by
    rw [List.filter_map]
    congr 1
    refine filter_congr fun c hc => ?_
    show decide ((f c).className ∉ classes) = _
    rw [(hf c hc).1]
  have hmem : ∀ c ∈ (virtualClasses input.entries []).filter (· ∉ classes),
      c ∈ virtualClasses input.entries [] := fun c hc => (mem_filter.mp hc).1
  have hfst : (((virtualClasses input.entries []).filter (· ∉ classes)).map
      fun c => (c, (f c).emitted)).map Prod.fst =
        (virtualClasses input.entries []).filter (· ∉ classes) := by
    rw [List.map_map]
    exact List.map_id _
  refine ⟨((virtualClasses input.entries []).filter (· ∉ classes)).map fun c => (c, (f c).emitted),
    ?_, ?_, ?_, ?_, ?_⟩
  · rw [emitVTables, scanVirtualMethods_eq, hmerge, Option.map_some,
      emitTables_spec (hnames.symm ▸ hnodup) hemit, hfilter, List.map_map, List.map_map, hfst]
    congr 2
    · exact map_congr_left fun c hc => congrArg (·, (f c).emitted) (hf c (hmem c hc)).1
    · congr 1
      exact (map_congr_left fun c hc => (hf c (hmem c hc)).1).trans (List.map_id _)
  · rw [hfst]
    exact hnodup.filter _
  · rw [hfst]
    intro c hc
    exact of_decide_eq_true (mem_filter.mp hc).2
  · rw [hfst]
    intro c hc
    by_cases hrecorded : c ∈ classes
    · exact .inl hrecorded
    · exact .inr (mem_filter.mpr ⟨(hclasses c).mpr (hready.present c hc), decide_eq_true hrecorded⟩)
  · intro entry hentry j a ha
    obtain ⟨c, hc, rfl⟩ := List.mem_map.mp hentry
    exact NearestAddrs.emitted hready (hf c (hmem c hc)).2 ha

end

end Pscal
