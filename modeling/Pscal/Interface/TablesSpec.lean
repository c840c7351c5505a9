import Pscal.Compiler.VTableSpec
import Pscal.Interface.LayoutSpec
import Pscal.Interface.Tables

/-!
# What the VM's tables hold

* `runtimeDeclared`  the declaration whose slot the VM takes for a method;
* `placeMethods_spec`  the table has the address of each method at its slot;
* `methodSymbol_congr`  the symbol of a method does not depend on the case of its name.
-/

namespace Pscal

open Numbering Folds List Option

namespace InterfaceProgram

variable (p : InterfaceProgram)

theorem runtimeAddInterfaceMethod_cases (l : List InterfaceMethod) (m : InterfaceMethod) :
    HasName l m.name ∧ runtimeAddInterfaceMethod l m = l ∨
    ¬ HasName l m.name ∧ runtimeAddInterfaceMethod l m = l ++ [m] := by
  have hany : (l.any fun existing => strcasecmpEq existing.name m.name) = true ↔
      HasName l m.name := by
    rw [List.any_eq_true]
    exact exists_congr fun d => and_congr_right fun _ => strcasecmpEq_iff_lower
  unfold runtimeAddInterfaceMethod
  by_cases h : HasName l m.name
  · exact .inl ⟨h, if_pos (hany.mpr h)⟩
  · exact .inr ⟨h, if_neg fun hm => h (hany.mp hm)⟩

theorem runtimeAddInterfaceMethod_distinct {l : List InterfaceMethod} (h : NamesDistinct l)
    (m : InterfaceMethod) : NamesDistinct (runtimeAddInterfaceMethod l m) := by
  rcases runtimeAddInterfaceMethod_cases l m with ⟨-, he⟩ | ⟨hnot, he⟩
  · rwa [he]
  · rw [he]
    exact h.append hnot

/-! ## the list of methods -/

theorem runtimeAddInterfaceMethod_hasName (l : List InterfaceMethod) (m : InterfaceMethod) :
    HasName (runtimeAddInterfaceMethod l m) m.name := by
  rcases runtimeAddInterfaceMethod_cases l m with ⟨hname, he⟩ | ⟨-, he⟩
  · rwa [he]
  · rw [he]
    exact hasName_append.mpr (.inr rfl)

theorem HasName.runtimeAdd {l : List InterfaceMethod} {name : String} (h : HasName l name)
    (m : InterfaceMethod) : HasName (runtimeAddInterfaceMethod l m) name := by
  rcases runtimeAddInterfaceMethod_cases l m with ⟨-, he⟩ | ⟨-, he⟩
  · rwa [he]
  · rw [he]
    exact hasName_append.mpr (.inl h)

variable {p} {i : InterfaceRef} {methods : List InterfaceMethod}

theorem collectRuntimeInterfaceMethods_distinct
    (h : p.collectRuntimeInterfaceMethods i = some methods) : NamesDistinct methods := by
  refine collectMethods_keeps (P := NamesDistinct) (by rintro _ _ ⟨⟩)
    (fun _ m _ _ l hl => runtimeAddInterfaceMethod_distinct hl m) h .nil

theorem collectRuntimeInterfaceMethods_declares
    (h : p.collectRuntimeInterfaceMethods i = some methods) : ∀ m ∈ methods, p.Declares i m := by
  refine collectMethods_keeps (P := fun l => ∀ m ∈ l, p.Declares i m)
    (by rintro _ _ ⟨⟩) (fun j m hj hm l hl d hd => ?_) h nofun
  rcases runtimeAddInterfaceMethod_cases l m with ⟨-, he⟩ | ⟨-, he⟩
  · rw [he] at hd
    exact hl d hd
  · rw [he] at hd
    rcases mem_append.mp hd with hd | hd
    · exact hl d hd
    · rw [mem_singleton.mp hd, some.inj hj]
      exact hm

theorem collectRuntimeInterfaceMethods_hasName
    (h : p.collectRuntimeInterfaceMethods i = some methods) {m : InterfaceMethod}
    (hm : p.Declares i m) : HasName methods m.name :=
  collectMethods_hasName (by rintro _ _ ⟨⟩) (fun _ m _ hl => hl.runtimeAdd m)
    runtimeAddInterfaceMethod_hasName hm h

variable (p i) in
/-- the declaration whose slot the VM takes for the method `name` of an interface -/
def runtimeDeclared (name : String) : Option InterfaceMethod :=
  (p.collectRuntimeInterfaceMethods i).bind fun methods =>
    methods.find? fun m => strcasecmpEq m.name name

theorem runtimeDeclared_of_mem (h : p.collectRuntimeInterfaceMethods i = some methods)
    {d : InterfaceMethod} (hd : d ∈ methods) {name : String}
    (hname : toLowerString d.name = toLowerString name) : p.runtimeDeclared i name = some d := by
  rw [runtimeDeclared, h, bind_some]
  have hsome : (methods.find? fun m => strcasecmpEq m.name name).isSome :=
    find?_isSome.mpr ⟨d, hd, strcasecmpEq_iff_lower.mpr hname⟩
  obtain ⟨d', hfind⟩ := isSome_iff_exists.mp hsome
  have hd' := find?_some hfind
  rw [strcasecmpEq_iff_lower] at hd'
  obtain ⟨k, hk⟩ := mem_iff_getElem?.mp hd
  obtain ⟨k', hk'⟩ := mem_iff_getElem?.mp (mem_of_find?_eq_some hfind)
  have heq := (collectRuntimeInterfaceMethods_distinct h).eq_of_name hk hk' (by rw [hname, hd'])
  subst heq
  rw [hfind, ← hk, hk']

/-! ## the symbols of methods -/

theorem toLowerString_truncateTo (n : Nat) (s : String) :
    toLowerString (truncateTo n s) = truncateTo n (toLowerString s) := by
  simp only [toLowerString, truncateTo, String.toList_ofList, map_take]

theorem toLowerString_append (s t : String) :
    toLowerString (s ++ t) = toLowerString s ++ toLowerString t := by
  simp only [toLowerString, String.toList_append, map_append, String.ofList_append]

theorem lookupProcedure_congr {name name' : String} (h : toLowerString name = toLowerString name') :
    p.lookupProcedure name = p.lookupProcedure name' := by
  rw [lookupProcedure, lookupProcedure, toLowerString_truncateTo, toLowerString_truncateTo, h]

theorem methodSymbol_congr (className : String) {name name' : String}
    (h : toLowerString name = toLowerString name') :
    p.methodSymbol className name = p.methodSymbol className name' := by
  have hlower : lowerName name = lowerName name' := by
    rw [lowerName, lowerName, toLowerString_truncateTo, toLowerString_truncateTo, h]
  have hfull : p.lookupProcedure (truncateTo (2 * maxSymbolLength + 1) (className ++ "." ++ name)) =
      p.lookupProcedure (truncateTo (2 * maxSymbolLength + 1) (className ++ "." ++ name')) := by
    refine lookupProcedure_congr ?_
    rw [toLowerString_truncateTo, toLowerString_truncateTo, toLowerString_append,
      toLowerString_append _ name', h]
  rw [methodSymbol, methodSymbol, hlower, hfull]

/-! ## the table -/

theorem placeMethods_spec {className : String} {v : InterfaceMethod → Int}
    {methods : List (InterfaceMethod × Nat)} {addrs addrs' : List Int}
    (h : p.placeMethods className v methods addrs = some addrs') (hv : ∀ m ∈ methods, 0 ≤ v m.1)
    (hdistinct : methods.Pairwise fun a b => v a.1 ≠ v b.1) :
    (∀ j : Nat, j < addrs.length → (∀ m ∈ methods, v m.1 ≠ j) → addrs'[j]? = addrs[j]?) ∧
      ∀ m ∈ methods, ∃ sym, p.methodSymbol className m.1.name = some sym ∧
        addrs'[(v m.1).toNat]? = some sym.address := by
  induction methods generalizing addrs with
  | nil =>
    cases h
    exact ⟨fun _ _ _ => rfl, nofun⟩
  | cons head methods ih =>
    obtain ⟨m, i⟩ := head
    rw [placeMethods, if_pos (hv _ mem_cons_self)] at h
    obtain ⟨sym, hsym, h⟩ := bind_eq_some_iff.mp h
    obtain ⟨hhead, htail⟩ := pairwise_cons.mp hdistinct
    have hother : ∀ m' ∈ methods, v m ≠ v m'.1 := hhead
    have hm : 0 ≤ v m := hv _ mem_cons_self
    obtain ⟨hkeep, hplaced⟩ := ih h (fun m' hm' => hv m' (mem_cons_of_mem _ hm')) htail
    have hlength : ((growAddrs addrs ((v m).toNat + 1)).set (v m).toNat sym.address).length =
        max addrs.length ((v m).toNat + 1) := by
      rw [List.length_set, length_growAddrs]
    refine ⟨fun j hj hne => ?_, fun m' hm' => ?_⟩
    · have hne₀ : v m ≠ j := hne _ mem_cons_self
      rw [hkeep j (by omega) fun m' hm' => hne m' (mem_cons_of_mem _ hm'),
        getElem?_set_ne (by omega), getElem?_growAddrs, if_pos hj]
    · rcases mem_cons.mp hm' with rfl | hm'
      · refine ⟨sym, hsym, ?_⟩
        show addrs'[(v m).toNat]? = _
        rw [hkeep (v m).toNat (by omega) fun m' hm' heq => hother m' hm' (by omega),
          getElem?_set_self (by rw [length_growAddrs]; omega)]
      · exact hplaced m' hm'

theorem buildRuntimeInterfaceVTable_spec {className : String} {s : Layouts} {addrs : List Int}
    (h : p.buildRuntimeInterfaceVTable className i s = some addrs) (hs : ∀ m, 0 ≤ s.slot m)
    (hdistinct : ∀ methods, p.collectRuntimeInterfaceMethods i = some methods →
      methods.Pairwise fun a b => s.slot a ≠ s.slot b) :
    ∃ methods, p.collectRuntimeInterfaceMethods i = some methods ∧
      ∀ m ∈ methods, ∃ sym, p.methodSymbol className m.name = some sym ∧
        addrs[(s.slot m).toNat]? = some (if 0 ≤ sym.address then sym.address else 0) := by
  obtain ⟨methods, hcollect, h⟩ := bind_eq_some_iff.mp h
  obtain ⟨placed, hplace, h⟩ := bind_eq_some_iff.mp h
  refine ⟨methods, hcollect, fun m hm => ?_⟩
  have hpairs : methods.zipIdx.Pairwise fun a b => s.slot a.1 ≠ s.slot b.1 := by
    have hmap : (methods.zipIdx.map Prod.fst).Pairwise fun a b => s.slot a ≠ s.slot b := by
      rw [zipIdx_map_fst]
      exact hdistinct methods hcollect
    have hpairs := pairwise_map.mp hmap
    exact hpairs
  obtain ⟨-, hplaced⟩ := placeMethods_spec hplace (fun m _ => hs m.1) hpairs
  obtain ⟨k, hk⟩ := mem_iff_getElem?.mp hm
  obtain ⟨sym, hsym, haddr⟩ := hplaced (m, k) (mem_zipIdx_iff_getElem?.mpr hk)
  split at h
  · cases h
  · cases h
    refine ⟨sym, hsym, ?_⟩
    rw [tableElements, getElem?_map, haddr]
    rfl

end InterfaceProgram

end Pscal
