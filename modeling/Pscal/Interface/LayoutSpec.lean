import Pscal.Interface.Layout
import Pscal.Lib.Folds
import Pscal.Lib.Numbering
import Mathlib

/-!
# What the compiler's layouts do

* `Declares i m`  `m` is declared in the interface or in one that it extends;
* `LayoutStep s s'`  the methods of one interface get their indices;
* `LayoutInv s`  a slot is the index that every numbering so far gives;
* `findDeclared`  the declaration whose slot a call takes, apart from the layouts.
-/

namespace Pscal

open Numbering Folds List Option Function

theorem strcasecmpEq_iff_lower {a b : String} :
    strcasecmpEq a b = true ↔ toLowerString a = toLowerString b :=
  beq_iff_eq

namespace InterfaceProgram

variable (p : InterfaceProgram)

/-! ## the lists of methods -/

inductive Declares : InterfaceRef → InterfaceMethod → Prop where
  | own {i : InterfaceRef} {m : InterfaceMethod} : m ∈ p.ownMethods i → Declares i m
  | base {i j : InterfaceRef} {m : InterfaceMethod} : some j ∈ (p.interfaces i).bases →
      Declares j m → Declares i m

def NamesDistinct (methods : List InterfaceMethod) : Prop :=
  methods.Pairwise fun a b => toLowerString a.name ≠ toLowerString b.name

def HasName (methods : List InterfaceMethod) (name : String) : Prop :=
  ∃ m ∈ methods, toLowerString m.name = toLowerString name

variable {methods : List InterfaceMethod} {call : InterfaceCall}

theorem NamesDistinct.nodup (h : NamesDistinct methods) : methods.Nodup :=
  h.imp fun {a b} hne heq => hne (by rw [heq])

variable {m : InterfaceMethod} {l : List InterfaceMethod} {i : InterfaceRef} {depth : Nat}
  {s s' : Layouts}

theorem NamesDistinct.eq_of_name (h : NamesDistinct methods) {k k' : Nat} {m' : InterfaceMethod}
    (hk : methods[k]? = some m) (hk' : methods[k']? = some m')
    (hname : toLowerString m.name = toLowerString m'.name) : k = k' := by
  obtain ⟨hlt, rfl⟩ := List.getElem?_eq_some_iff.mp hk
  obtain ⟨hlt', rfl⟩ := List.getElem?_eq_some_iff.mp hk'
  rcases Nat.lt_trichotomy k k' with hlt'' | heq | hlt''
  · exact absurd hname (pairwise_iff_getElem.mp h k k' hlt hlt' hlt'')
  · exact heq
  · exact absurd hname.symm (pairwise_iff_getElem.mp h k' k hlt' hlt hlt'')

section
variable {p} {add : List InterfaceMethod → InterfaceMethod → List InterfaceMethod}
  {absent : List InterfaceMethod → Option (List InterfaceMethod)}

theorem collectMethods_keeps {P : List InterfaceMethod → Prop}
    (habsent : ∀ l l', absent l = some l' → P l → P l') {depth : Nat} {i : Option InterfaceRef}
    (hadd : ∀ j m, i = some j → p.Declares j m → ∀ l, P l → P (add l m))
    {l l' : List InterfaceMethod} (h : p.collectMethods add absent depth l i = some l')
    (hl : P l) : P l' := by
  induction depth generalizing i l l' with
  | zero => cases h
  | succ depth ih =>
    cases i with
    | none => exact habsent l l' h hl
    | some i =>
      rw [collectMethods, map_eq_some_iff] at h
      obtain ⟨l₁, hbases, rfl⟩ := h
      refine foldl_keeps (fun m hm => hadd i m rfl (.own hm)) ?_
      refine foldlM_keeps (fun base hbase l l' h => ih ?_ h) hbases hl
      exact fun j m hj hm => hadd i m rfl (.base (hj ▸ hbase) hm)

theorem collectMethods_hasName (habsent : ∀ l l', absent l = some l' → l' = l)
    (hkeep : ∀ l m name, HasName l name → HasName (add l m) name)
    (hadd : ∀ l m, HasName (add l m) m.name) {depth : Nat} {i : InterfaceRef}
    {m : InterfaceMethod} (hm : p.Declares i m) {l l' : List InterfaceMethod}
    (h : p.collectMethods add absent depth l (some i) = some l') : HasName l' m.name := by
  have hstay : ∀ (depth : Nat) (base : Option InterfaceRef) (l l' : List InterfaceMethod),
      p.collectMethods add absent depth l base = some l' → HasName l m.name → HasName l' m.name :=
    fun depth base l l' => collectMethods_keeps (fun l l' heq hl => by rwa [habsent l l' heq])
      fun _ m' _ _ l => hkeep l m' m.name
  induction hm generalizing depth l l' with
  | own hm =>
    cases depth with
    | zero => cases h
    | succ depth =>
      rw [collectMethods, map_eq_some_iff] at h
      obtain ⟨l₁, -, rfl⟩ := h
      exact foldl_establishes (fun m' _ l => hkeep l m' _) hm (fun l => hadd l _) l₁
  | @base i j m hj _ ih =>
    cases depth with
    | zero => cases h
    | succ depth =>
      rw [collectMethods, map_eq_some_iff] at h
      obtain ⟨l₁, hbases, rfl⟩ := h
      refine foldl_keeps (fun m' _ l => hkeep l m' _) ?_
      exact foldlM_establishes (fun base _ => hstay depth base) hj (fun l l' h => ih h hstay) hbases

end

theorem addInterfaceMethod_cases (l : List InterfaceMethod) (m : InterfaceMethod) :
    (∃ k d, l[k]? = some d ∧ toLowerString d.name = toLowerString m.name ∧
      addInterfaceMethod l m = l.set k m) ∨
    ¬ HasName l m.name ∧ addInterfaceMethod l m = l ++ [m] := by
  unfold addInterfaceMethod
  cases h : l.findIdx? fun existing => strcasecmpEq existing.name m.name with
  | some k =>
    obtain ⟨hlt, heq, -⟩ := findIdx?_eq_some_iff_getElem.mp h
    exact .inl ⟨k, l[k], getElem?_eq_getElem hlt, strcasecmpEq_iff_lower.mp heq, rfl⟩
  | none =>
    refine .inr ⟨fun ⟨d, hd, heq⟩ => ?_, rfl⟩
    have hne := findIdx?_eq_none_iff.mp h d hd
    rw [strcasecmpEq_iff_lower.mpr heq] at hne
    cases hne

theorem hasName_append {name : String} :
    HasName (l ++ [m]) name ↔ HasName l name ∨ toLowerString m.name = toLowerString name := by
  constructor
  · rintro ⟨d, hd, heq⟩
    rcases mem_append.mp hd with hd | hd
    · exact .inl ⟨d, hd, heq⟩
    · rw [mem_singleton.mp hd] at heq
      exact .inr heq
  · rintro (⟨d, hd, heq⟩ | heq)
    · exact ⟨d, mem_append_left _ hd, heq⟩
    · exact ⟨m, mem_append_right _ (mem_singleton_self m), heq⟩

theorem NamesDistinct.append (h : NamesDistinct l) (hm : ¬ HasName l m.name) :
    NamesDistinct (l ++ [m]) := by
  refine pairwise_append.mpr ⟨h, pairwise_singleton _ m, fun d hd m' hm' heq => ?_⟩
  rw [mem_singleton.mp hm'] at heq
  exact hm ⟨d, hd, heq⟩

theorem NamesDistinct.set (h : NamesDistinct l) {k : Nat} {d : InterfaceMethod}
    (hd : l[k]? = some d) (hname : toLowerString d.name = toLowerString m.name) :
    NamesDistinct (l.set k m) := by
  obtain ⟨hlt, rfl⟩ := List.getElem?_eq_some_iff.mp hd
  have hmap : (l.set k m).map (fun d => toLowerString d.name) =
      l.map fun d => toLowerString d.name := by
    rw [map_set, ← hname]
    refine ext_getElem (List.length_set ..) fun j hj hj' => ?_
    rw [getElem_set]
    split
    · rename_i heq
      subst heq
      rw [getElem_map]
    · rfl
  have hpair := pairwise_map.mpr h
  rw [← hmap] at hpair
  exact pairwise_map.mp hpair

theorem addInterfaceMethod_distinct (h : NamesDistinct l) (m : InterfaceMethod) :
    NamesDistinct (addInterfaceMethod l m) := by
  rcases addInterfaceMethod_cases l m with ⟨k, d, hd, hname, he⟩ | ⟨hnot, he⟩
  · rw [he]
    exact h.set hd hname
  · rw [he]
    exact h.append hnot

theorem collectInterfaceMethods_distinct (h : p.collectInterfaceMethods i = some l) :
    NamesDistinct l := by
  refine collectMethods_keeps (P := NamesDistinct) (fun l l' heq hl => ?_)
    (fun _ m _ _ l hl => addInterfaceMethod_distinct hl m) h .nil
  cases heq
  exact hl

/-! ## the depth of inheritance -/

/-- the interface has no more than `depth` levels -/
def DepthLe : Nat → Option InterfaceRef → Prop
  | 0, _ => False
  | _ + 1, none => True
  | depth + 1, some i => ∀ base ∈ (p.interfaces i).bases, DepthLe depth base

theorem DepthLe.succ {p : InterfaceProgram} {i : Option InterfaceRef} (h : p.DepthLe depth i) :
    p.DepthLe (depth + 1) i := by
  induction depth generalizing i with
  | zero => exact h.elim
  | succ depth ih =>
    cases i with
    | none => trivial
    | some i => exact fun base hbase => ih (h base hbase)

theorem DepthLe.mono {p : InterfaceProgram} {depth' : Nat} {i : Option InterfaceRef}
    (h : p.DepthLe depth i) (hle : depth ≤ depth') : p.DepthLe depth' i := by
  induction hle with
  | refl => exact h
  | step _ ih => exact ih.succ

theorem collectMethods_isSome_iff {i : Option InterfaceRef} :
    (p.collectMethods addInterfaceMethod some depth l i).isSome ↔ p.DepthLe depth i := by
  induction depth generalizing i l with
  | zero => exact ⟨nofun, False.elim⟩
  | succ depth ih =>
    cases i with
    | none => exact ⟨fun _ => trivial, fun _ => rfl⟩
    | some i =>
      rw [collectMethods, isSome_map, DepthLe]
      generalize (p.interfaces i).bases = bases
      induction bases generalizing l with
      | nil => exact ⟨fun _ => nofun, fun _ => rfl⟩
      | cons base bases ihb =>
        rw [foldlM_cons, bind_eq_bind, forall_mem_cons]
        cases hbase : p.collectMethods addInterfaceMethod some depth l base with
        | none =>
          have hnot := (not_congr ih).mp (by rw [hbase]; nofun : ¬ (p.collectMethods
            addInterfaceMethod some depth l base).isSome)
          exact ⟨nofun, fun h => absurd h.1 hnot⟩
        | some l₁ =>
          have hyes := ih.mp (by rw [hbase]; rfl : (p.collectMethods
            addInterfaceMethod some depth l base).isSome)
          rw [bind_some, ihb, and_iff_right hyes]

/-! ## numbering -/

inductive LayoutStep (s s' : Layouts) : Prop where
  | number {i : InterfaceRef} {methods : List InterfaceMethod} :
      p.collectInterfaceMethods i = some methods → s'.numbered = methods :: s.numbered →
      s'.slot = writeIndices methods s.slot → LayoutStep s s'

structure LayoutInv (s : Layouts) : Prop where
  follows : Follows s.numbered s.slot
  nonneg : ∀ m, 0 ≤ s.slot m

theorem layoutInv_start : LayoutInv {} := ⟨follows_nil _, fun _ => Int.le_refl 0⟩

theorem LayoutStep.inv (h : p.LayoutStep s s') (hs : LayoutInv s) (hlog : Consistent s'.numbered) :
    LayoutInv s' := by
  obtain ⟨hcollect, hnumbered, hslot⟩ := h
  rw [hnumbered] at hlog
  constructor
  · rw [hnumbered, hslot]
    exact hs.follows.write (p.collectInterfaceMethods_distinct hcollect).nodup hlog
  · intro m
    rw [hslot]
    exact writeFrom_nonneg hs.nonneg 0 m

theorem LayoutStep.numbered_sub (h : p.LayoutStep s s') : s.numbered ⊆ s'.numbered := by
  obtain ⟨-, hnumbered, -⟩ := h
  rw [hnumbered]
  exact subset_cons_self _ _

theorem LayoutStep.nonneg (h : p.LayoutStep s s') (hs : ∀ m, 0 ≤ s.slot m) (m : InterfaceMethod) :
    0 ≤ s'.slot m := by
  obtain ⟨-, -, hslot⟩ := h
  rw [hslot]
  exact writeFrom_nonneg hs 0 m

abbrev LayoutSteps : Layouts → Layouts → Prop := Relation.ReflTransGen p.LayoutStep

theorem LayoutSteps.numbered_sub (h : p.LayoutSteps s s') : s.numbered ⊆ s'.numbered := by
  induction h with
  | refl => exact Subset.refl _
  | tail _ hstep ih => exact Subset.trans ih (hstep.numbered_sub p)

theorem LayoutSteps.inv (h : p.LayoutSteps s s') (hs : LayoutInv s) (hlog : Consistent s'.numbered)
    : LayoutInv s' := by
  induction h with
  | refl => exact hs
  | tail _ hstep ih => exact hstep.inv p (ih (hlog.mono (hstep.numbered_sub p))) hlog

theorem LayoutSteps.nonneg (h : p.LayoutSteps s s') (hs : ∀ m, 0 ≤ s.slot m) :
    ∀ m, 0 ≤ s'.slot m := by
  induction h with
  | refl => exact hs
  | tail _ hstep ih => exact hstep.nonneg p ih

theorem slot_set_interface (s : Layouts) (i : InterfaceRef) (v : Int) :
    (s.set (.interface i) v).slot = s.slot := by
  funext m
  have hne : AstNode.method m ≠ .interface i := nofun
  exact update_of_ne hne v s.iVal

theorem slot_set_routine (s : Layouts) (r : RoutineRef) (v : Int) :
    (s.set (.routine r) v).slot = s.slot := by
  funext m
  have hne : AstNode.method m ≠ .routine r := nofun
  exact update_of_ne hne v s.iVal

theorem slot_set_method (s : Layouts) (m : InterfaceMethod) (v : Int) :
    (s.set (.method m) v).slot = update s.slot m v := by
  funext m'
  show update s.iVal (.method m) v (.method m') = update s.slot m v m'
  rw [update_apply, update_apply]
  simp only [AstNode.method.injEq]
  rfl

theorem slot_numberMethod (s : Layouts) (m : InterfaceMethod × Nat) :
    (s.numberMethod m).slot = update s.slot m.1 m.2 := by
  rw [Layouts.numberMethod, slot_set_interface, slot_set_method]

theorem slot_propagate (r : ClassRecord) (m : RecordMethod) (v : Int) (s : Layouts) :
    (p.propagateMethodSlotToSymbol r m v s).slot = s.slot := by
  unfold propagateMethodSlotToSymbol
  split
  · exact slot_set_routine s _ v
  · rfl

theorem slot_numberMatch (r : ClassRecord) (s : Layouts)
    (m : (InterfaceMethod × RecordMethod) × Nat) :
    (p.numberMatch r s m).slot = update s.slot m.1.1 m.2 := by
  rw [numberMatch, numberRecordMethod, slot_propagate, slot_set_routine, slot_numberMethod]

theorem ensureInterfaceMethodLayout_steps (h : p.ensureInterfaceMethodLayout i s = some s') :
    p.LayoutSteps s s' := by
  unfold ensureInterfaceMethodLayout at h
  split at h
  · cases h
    exact .refl
  · obtain ⟨methods, hcollect, rfl⟩ := map_eq_some_iff.mp h
    refine .single (.number hcollect rfl ?_)
    rw [slot_set_interface]
    have hread := foldl_zipIdx_read Layouts.slot id Layouts.numberMethod slot_numberMethod methods 0 s
    rwa [List.map_id] at hread

theorem map_fst_of_mapM {r : ClassRecord} {pairs : List (InterfaceMethod × RecordMethod)}
    (h : methods.mapM (p.matchMethod r) = some pairs) : pairs.map Prod.fst = methods := by
  induction methods generalizing pairs with
  | nil =>
    cases h
    rfl
  | cons m methods ih =>
    rw [mapM_cons, bind_eq_bind, bind_eq_some_iff] at h
    obtain ⟨pair, hpair, h⟩ := h
    rw [bind_eq_bind, bind_eq_some_iff] at h
    obtain ⟨pairs', hpairs, h⟩ := h
    cases h
    obtain ⟨rm, -, rfl⟩ := map_eq_some_iff.mp hpair
    rw [map_cons, ih hpairs]

theorem validateInterfaceImplementation_step {r : ClassRecord}
    (h : p.validateInterfaceImplementation r i s = some s') : p.LayoutStep s s' := by
  obtain ⟨methods, hcollect, h⟩ := bind_eq_some_iff.mp h
  obtain ⟨pairs, hpairs, rfl⟩ := map_eq_some_iff.mp h
  refine .number hcollect rfl ?_
  rw [slot_set_interface, ← p.map_fst_of_mapM hpairs]
  exact foldl_zipIdx_read Layouts.slot Prod.fst (p.numberMatch r) (p.slot_numberMatch r) pairs 0 s

/-! ## the search for a method -/

/-- the first own method with the name, else that of the first base that has one -/
def findDeclared (name : String) : Nat → Option InterfaceRef → Option InterfaceMethod
  | 0, _ => none
  | _ + 1, none => none
  | depth + 1, some i =>
    ((p.ownMethods i).find? fun m => strcasecmpEq m.name name).or
      ((p.interfaces i).bases.findSome? (findDeclared name depth))

variable (own : Layouts → InterfaceMethod → Bool) (name : String)

theorem searchInterface_spec {own : Layouts → InterfaceMethod → Bool}
    (hown : ∀ s, (∀ m, 0 ≤ s.slot m) → ∀ m, own s m = strcasecmpEq m.name name)
    {i : Option InterfaceRef} {r : Option InterfaceMethod × Layouts}
    (h : p.searchInterface own depth i s = some r) (hs : ∀ m, 0 ≤ s.slot m) :
    r.1 = p.findDeclared name depth i ∧ p.LayoutSteps s r.2 := by
  induction depth generalizing i s r with
  | zero =>
    cases i with
    | none =>
      cases h
      exact ⟨rfl, .refl⟩
    | some i => cases h
  | succ depth ih =>
    cases i with
    | none =>
      cases h
      exact ⟨rfl, .refl⟩
    | some i =>
      rw [searchInterface, bind_eq_some_iff] at h
      obtain ⟨s₁, hensure, h⟩ := h
      have hsteps := p.ensureInterfaceMethodLayout_steps hensure
      have hs₁ := hsteps.nonneg p hs
      have heq : (fun m => own s₁ m) = fun m => strcasecmpEq m.name name := funext (hown s₁ hs₁)
      rw [show own s₁ = fun m => strcasecmpEq m.name name from heq] at h
      rw [findDeclared]
      cases hfind : (p.ownMethods i).find? fun m => strcasecmpEq m.name name with
      | some m =>
        rw [hfind] at h
        cases h
        exact ⟨rfl, hsteps⟩
      | none =>
        rw [hfind] at h
        rw [none_or]
        suffices hbases : ∀ bases s₁, (∀ m, 0 ≤ s₁.slot m) →
            searchInterface.searchBases bases (p.searchInterface own depth) s₁ = some r →
            r.1 = bases.findSome? (p.findDeclared name depth) ∧ p.LayoutSteps s₁ r.2 by
          obtain ⟨hr, hsteps'⟩ := hbases _ s₁ hs₁ h
          exact ⟨hr, hsteps.trans hsteps'⟩
        intro bases
        induction bases with
        | nil =>
          intro s₁ _ h
          cases h
          exact ⟨rfl, .refl⟩
        | cons base bases ihb =>
          intro s₁ hs₁ h
          rw [searchInterface.searchBases, bind_eq_some_iff] at h
          obtain ⟨r₁, hbase, h⟩ := h
          obtain ⟨hr₁, hsteps₁⟩ := ih hbase hs₁
          rw [findSome?_cons, ← hr₁]
          cases hfst : r₁.1 with
          | some m =>
            rw [hfst] at h
            cases h
            exact ⟨rfl, hsteps₁⟩
          | none =>
            rw [hfst] at h
            obtain ⟨hr, hsteps'⟩ := ihb r₁.2 (hsteps₁.nonneg p hs₁) h
            exact ⟨hr, hsteps₁.trans hsteps'⟩

theorem searchInterface_isSome (hle : depth ≤ interfaceDepths) {i : Option InterfaceRef}
    (hi : p.DepthLe depth i) (s : Layouts) : (p.searchInterface own depth i s).isSome := by
  induction depth generalizing i s with
  | zero => exact hi.elim
  | succ depth ih =>
    cases i with
    | none => rfl
    | some i =>
      have hensure : ∃ s₁, p.ensureInterfaceMethodLayout i s = some s₁ := by
        unfold ensureInterfaceMethodLayout
        split
        · exact ⟨_, rfl⟩
        · refine isSome_iff_exists.mp ?_
          rw [isSome_map]
          exact p.collectMethods_isSome_iff.mpr (hi.mono hle)
      obtain ⟨s₁, hensure⟩ := hensure
      rw [searchInterface, hensure, bind_some]
      split
      · rfl
      · have hbases : ∀ base ∈ (p.interfaces i).bases, p.DepthLe depth base := hi
        generalize (p.interfaces i).bases = bases at hbases
        rename_i hnone
        clear hensure hnone
        induction bases generalizing s₁ with
        | nil => rfl
        | cons base bases ihb =>
          obtain ⟨r₁, hr₁⟩ := isSome_iff_exists.mp
            (ih (Nat.le_of_succ_le hle) (hbases base mem_cons_self) s₁)
          rw [searchInterface.searchBases, hr₁, bind_some]
          split
          · rfl
          · exact ihb r₁.2 fun base' hbase' => hbases base' (mem_cons_of_mem _ hbase')

variable {name}

theorem findDeclared_isSome (hm : p.Declares i m)
    (hname : toLowerString m.name = toLowerString name) (hi : p.DepthLe depth (some i)) :
    (p.findDeclared name depth (some i)).isSome := by
  induction hm generalizing depth with
  | own hm =>
    cases depth with
    | zero => exact hi.elim
    | succ depth =>
      rw [findDeclared, isSome_or, Bool.or_eq_true]
      exact .inl (find?_isSome.mpr ⟨_, hm, strcasecmpEq_iff_lower.mpr hname⟩)
  | base hj _ ih =>
    cases depth with
    | zero => exact hi.elim
    | succ depth =>
      rw [findDeclared, isSome_or, Bool.or_eq_true]
      exact .inr (findSome?_isSome_iff.mpr ⟨_, hj, ih hname (hi _ hj)⟩)

/-! ## calls -/

variable {p}

theorem ensureInterfaceMethodSlot_spec {r : Option Int × Layouts}
    (h : p.ensureInterfaceMethodSlot i name s = some r) (hs : ∀ m, 0 ≤ s.slot m) :
    p.LayoutSteps s r.2 ∧
      r.1 = (p.findDeclared name interfaceDepths (some i)).map r.2.slot := by
  obtain ⟨r₁, hsearch, rfl⟩ := map_eq_some_iff.mp h
  obtain ⟨hr, hsteps⟩ := p.searchInterface_spec name (fun s hs m => by
    rw [decide_eq_true (hs m), Bool.and_true]) hsearch hs
  exact ⟨hsteps, by rw [hr]⟩

theorem methodSignature_spec {r : Option AstNode × Layouts} (h : p.methodSignature call s = some r)
    (hs : ∀ m, 0 ≤ s.slot m) : p.LayoutSteps s r.2 ∧ ∀ m, r.1 = some (.method m) →
      p.findDeclared call.name interfaceDepths (some call.interface) = some m := by
  unfold methodSignature at h
  split at h
  · cases h
    exact ⟨.refl, nofun⟩
  split at h
  · obtain ⟨r₁, hfind, h⟩ := bind_eq_some_iff.mp h
    obtain ⟨hr, hsteps⟩ := p.searchInterface_spec call.name (fun s _ m => rfl) hfind hs
    obtain ⟨m, hm, rfl⟩ := map_eq_some_iff.mp h
    refine ⟨hsteps, fun m' hm' => ?_⟩
    cases hm'
    rw [← hr, hm]
  · cases h
    refine ⟨.refl, fun m hm => ?_⟩
    obtain ⟨m', hm', heq⟩ := map_eq_some_iff.mp hm
    cases heq
    rw [interfaceDepths, findDeclared, hm', some_or]

theorem compileInterfaceCall_spec {r : Int × Layouts} (h : p.compileInterfaceCall call s = some r)
    (hs : ∀ m, 0 ≤ s.slot m) :
    (∃ s₁, p.LayoutSteps s s₁ ∧ r.2.slot = s₁.slot ∧ r.2.numbered = s₁.numbered) ∧
      ∀ d, p.findDeclared call.name interfaceDepths (some call.interface) = some d →
        r.1 = r.2.slot d := by
  obtain ⟨⟨signature, s₀⟩, hsignature, h⟩ := bind_eq_some_iff.mp h
  obtain ⟨hsteps₀, hmethod⟩ := methodSignature_spec hsignature hs
  obtain ⟨⟨resolved, s₁⟩, hresolved, h⟩ := bind_eq_some_iff.mp h
  obtain ⟨hsteps₁, hslot⟩ := ensureInterfaceMethodSlot_spec hresolved (hsteps₀.nonneg p hs)
  have hsteps := hsteps₀.trans hsteps₁
  cases hfound : p.findDeclared call.name interfaceDepths (some call.interface) with
  | none =>
    rw [hfound] at hslot
    refine ⟨⟨s₁, hsteps, ?_⟩, nofun⟩
    simp only [map_none] at hslot
    subst hslot
    simp only at h
    split at h
    · cases h
    · cases h
      exact ⟨rfl, rfl⟩
  | some d =>
    rw [hfound] at hslot
    simp only [map_some] at hslot
    subst hslot
    cases h
    -- what is written to the signature is its slot already
    have hsame : (signature.elim s₁ (s₁.set · (s₁.slot d))).slot = s₁.slot := by
      match signature, hmethod with
      | none, _ => rfl
      | some (.interface i), _ => exact slot_set_interface s₁ i _
      | some (.routine i), _ => exact slot_set_routine s₁ i _
      | some (.method m), hmethod =>
        have hm := hmethod m rfl
        rw [hfound] at hm
        cases hm
        show (s₁.set (.method d) (s₁.slot d)).slot = s₁.slot
        rw [slot_set_method, update_eq_self]
    refine ⟨⟨s₁, hsteps, hsame, ?_⟩, fun d' hd' => ?_⟩
    · cases signature <;> rfl
    · cases hd'
      show s₁.slot d = (signature.elim s₁ (s₁.set · (s₁.slot d))).slot d
      rw [hsame]

theorem compileInterfaceCall_isSome (hs : ∀ m, 0 ≤ s.slot m)
    (hdepth : p.DepthLe interfaceDepths (some call.interface)) (hm : p.Declares call.interface m)
    (hname : toLowerString m.name = toLowerString call.name) :
    (p.compileInterfaceCall call s).isSome := by
  obtain ⟨d, hd⟩ := isSome_iff_exists.mp (p.findDeclared_isSome hm hname hdepth)
  have hsignature : (p.methodSignature call s).isSome := by
    unfold methodSignature
    split
    · rfl
    split
    · obtain ⟨r, hr⟩ := isSome_iff_exists.mp (p.searchInterface_isSome
        (fun _ m => strcasecmpEq m.name call.name) Nat.le.refl hdepth s)
      have hfind := (p.searchInterface_spec call.name (fun s _ m => rfl) hr hs).1
      rw [findInterfaceMethodDecl, hr, bind_some, hfind, hd]
      rfl
    · rfl
  obtain ⟨⟨signature, s₀⟩, hsignature⟩ := isSome_iff_exists.mp hsignature
  obtain ⟨r, hr⟩ := isSome_iff_exists.mp (p.searchInterface_isSome
    (fun s m => strcasecmpEq m.name call.name && decide (0 ≤ s.slot m)) Nat.le.refl hdepth s₀)
  have hensure : p.ensureInterfaceMethodSlot call.interface call.name s₀ =
      some (r.1.map r.2.slot, r.2) := by
    rw [ensureInterfaceMethodSlot, hr]
    rfl
  have hslot := (ensureInterfaceMethodSlot_spec hensure
    ((methodSignature_spec hsignature hs).1.nonneg p hs)).2
  rw [hd] at hslot
  rw [compileInterfaceCall, hsignature, bind_some]
  simp only [hensure, bind_some]
  simp only at hslot
  rw [hslot]
  rfl

end InterfaceProgram

end Pscal
