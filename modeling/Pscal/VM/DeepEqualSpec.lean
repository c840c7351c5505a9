import Pscal.Core.MapSpec
import Pscal.VM.DeepEqual

/-!
# Deep equality decides bisimilarity, up to the depth cap

* `Matches g R a b`  `a` and `b` have the same shape, and their parts are related by `R`;
* `Bisimilar g a b`  the greatest such relation relates them;
* `pscalEqMemoSeen_spec`  the memo finds what was put in;
* `deepScript`  the comparison of one level as a script, and the whole as a search;
* `vmDeepEqual_correct`.
-/

namespace Pscal

open Probing Coind List

/-! ## bisimilarity -/

section
variable (g : ValueGraph) (R : GraphValue → GraphValue → Prop)

/-- two fields at the same place: hidden ones, or equal names and related storages -/
inductive SameField : FieldValue → FieldValue → Prop where
  | hidden {fa fb : FieldValue} : fa.hidden = true → fb.hidden = true → SameField fa fb
  | unset {fa fb : FieldValue} : fa.hidden = false → fb.hidden = false →
      (∀ na ∈ fa.name, ∀ nb ∈ fb.name, strcasecmpEq na nb = true) →
      fa.storage = none → fb.storage = none → SameField fa fb
  | stored {fa fb : FieldValue} {va vb : GraphValue} : fa.hidden = false → fb.hidden = false →
      (∀ na ∈ fa.name, ∀ nb ∈ fb.name, strcasecmpEq na nb = true) →
      fa.storage = some va → fb.storage = some vb → R va vb → SameField fa fb

/-- equal packed bytes, packed bytes equal to int-like elements, or related elements -/
inductive SameElements (total : Nat) : ArrayBuffer → ArrayBuffer → Prop where
  | rawNull : SameElements total (.raw none) (.raw none)
  | raw {a b : Nat → UInt8} : (∀ i < total, a i = b i) →
      SameElements total (.raw (some a)) (.raw (some b))
  | packedLeft {a : Nat → UInt8} {b : Nat → GraphValue} :
      (∀ i < total, (b i).isIntlike = true ∧ ((a i).toNat : Int) = (b i).asI64) →
      SameElements total (.raw (some a)) (.elements (some b))
  | packedRight {a : Nat → GraphValue} {b : Nat → UInt8} :
      (∀ i < total, (a i).isIntlike = true ∧ ((b i).toNat : Int) = (a i).asI64) →
      SameElements total (.elements (some a)) (.raw (some b))
  | elementsNull : SameElements total (.elements none) (.elements none)
  | elements {a b : Nat → GraphValue} : (∀ i < total, R (a i) (b i)) →
      SameElements total (.elements (some a)) (.elements (some b))

/-- the same rank, bounds and size, and the same elements if there are any -/
structure SameArray (a b : ArrayObj) : Prop where
  dimensions : a.dimensions = b.dimensions
  bounds : boundsEqual a b = true
  total : calculateArrayTotalSize a = calculateArrayTotalSize b
  elements : 0 < calculateArrayTotalSize a →
    SameElements R (calculateArrayTotalSize a).toNat a.buffer b.buffer

def ValueGraph.pairsAt : Option Nat → List (List UInt8 × GraphValue)
  | none => []
  | some p => (g.maps p).pairs

structure SameEntries (a b : List (List UInt8 × GraphValue)) : Prop where
  keys : ∀ key, key ∈ OrderedMap.keys a ↔ key ∈ OrderedMap.keys b
  values : ∀ key va vb, OrderedMap.lookup a key = some va → OrderedMap.lookup b key = some vb →
    R va vb

/-- The same shape, with parts related by `R`.  One array, one map and one cell match
themselves; records match by their fields in an Aether program only. -/
inductive Matches : GraphValue → GraphValue → Prop where
  | leaf {a b : GraphValue} : leafEqual g a b = .yes → Matches a b
  | sameArray (p : Option Nat) : Matches (.array p) (.array p)
  | array {p q : Nat} : SameArray R (g.arrays p) (g.arrays q) →
      Matches (.array (some p)) (.array (some q))
  | sameMap (p : Option Nat) : Matches (.map p) (.map p)
  | map {p q : Option Nat} : SameEntries R (g.pairsAt p) (g.pairsAt q) →
      Matches (.map p) (.map q)
  | record {fa fb : Option Nat} : g.frontendIsAether = true →
      List.Forall₂ (SameField R) (g.fieldsAt fa) (g.fieldsAt fb) →
      Matches (.record fa) (.record fb)
  | pointer {p q : Nat} {fa fb : Option Nat} : g.frontendIsAether = true →
      g.cells p = .record fa → g.cells q = .record fb →
      List.Forall₂ (SameField R) (g.fieldsAt fa) (g.fieldsAt fb) →
      Matches (.pointer (some p)) (.pointer (some q))

end

def Bisimilar (g : ValueGraph) (a b : GraphValue) : Prop :=
  ∃ R : GraphValue → GraphValue → Prop, (∀ x y, R x y → Matches g R x y) ∧ R a b

/-! ## the memo -/

namespace PscalEqMemo

def Known (m : PscalEqMemo) (p : Nat × Nat) : Prop := Slot.entry p ∈ m.slots

structure WF (m : PscalEqMemo) : Prop where
  cap : m.slots = [] ∨ ∃ k, m.slots.length = 2 ^ k
  indexed : Indexed m.slots pscalEqPairHash m.Known
  used : used m.slots ≤ m.count
  half : m.count * 2 ≤ m.slots.length

end PscalEqMemo

theorem PscalEqMemo.wf_empty : ({} : PscalEqMemo).WF where
  cap := .inl rfl
  indexed := ⟨nofun, nofun, nofun, nofun⟩
  used := Nat.le_refl 0
  half := Nat.le_refl 0

theorem eqMemoRehash_spec {newCap : Nat} (hcap : ∃ k, newCap = 2 ^ k)
    (slots : List (Slot (Nat × Nat))) {grown : List (Slot (Nat × Nat))}
    {live : Nat × Nat → Prop} (hlength : grown.length = newCap)
    (h : Indexed grown pscalEqPairHash live) (hroom : used grown + used slots < newCap)
    (hunique : ∀ (s t : Nat) p, slots[s]? = some (.entry p) → slots[t]? = some (.entry p) → s = t)
    (hnew : ∀ p, .entry p ∈ slots → ¬ live p) :
    ∃ grown', eqMemoRehash newCap slots grown = some grown' ∧ grown'.length = newCap ∧
      used grown' ≤ used grown + used slots ∧
      Indexed grown' pscalEqPairHash fun p => live p ∨ .entry p ∈ slots := by
  induction slots generalizing grown live with
  | nil =>
    exact ⟨grown, rfl, hlength, Nat.le_refl _,
      h.congr (fun p => ⟨.inl, fun hp => hp.resolve_right not_mem_nil⟩) fun _ _ => rfl⟩
  | cons slot slots ih =>
    have htail : ∀ (s t : Nat) p, slots[s]? = some (.entry p) → slots[t]? = some (.entry p) →
        s = t := fun s t p hs ht => Nat.succ.inj (hunique (s + 1) (t + 1) p hs ht)
    have hused : used (slot :: slots) = used slots + if slot ≠ .empty then 1 else 0 := by
      rw [used, used, countP_cons]
      simp only [decide_eq_true_eq]
    by_cases hentry : ∃ p, slot = .entry p
    · obtain ⟨p, rfl⟩ := hentry
      rw [if_pos (by simp)] at hused
      have hp : ¬ live p := hnew p mem_cons_self
      subst hlength
      obtain ⟨l, hplace, hempty, hpath⟩ := placeLoop_spec hcap (pscalEqPairHash p)
        (.entry p) (by omega) grown.length (Nat.zero_add _) fun j hj => absurd hj (Nat.not_lt_zero j)
      have hnext := h.place (i := l) hp (.inl hempty) hpath
      have hle := used_set_le grown (probe grown.length (pscalEqPairHash p) l) (.entry p)
      obtain ⟨grown', hrun, hlength', hused', hindexed⟩ := ih List.length_set hnext (by omega)
        htail fun q hq hlive => by
          rcases hlive with hlive | rfl
          · exact hnew q (mem_cons_of_mem _ hq) hlive
          · obtain ⟨t, ht, heq⟩ := mem_iff_getElem.mp hq
            have ht' : slots[t]? = some (.entry q) := by
              rw [getElem?_eq_getElem ht, heq]
            exact absurd (hunique 0 (t + 1) q rfl ht') (by omega)
      refine ⟨grown', ?_, hlength', by omega, hindexed.congr (fun q => ?_) fun _ _ => rfl⟩
      · rw [eqMemoRehash, hash_and_mask hcap, hplace]
        exact hrun
      · rw [mem_cons, Slot.entry.injEq, or_assoc]
    · have hskip : eqMemoRehash newCap (slot :: slots) grown = eqMemoRehash newCap slots grown := by
        cases slot with
        | entry p => exact absurd ⟨p, rfl⟩ hentry
        | empty => rfl
        | deleted => rfl
      obtain ⟨grown', hrun, hlength', hused', hindexed⟩ := ih hlength h (by omega) htail
        fun q hq => hnew q (mem_cons_of_mem _ hq)
      refine ⟨grown', hskip ▸ hrun, hlength', by omega,
        hindexed.congr (fun q => or_congr_right ?_) fun _ _ => rfl⟩
      rw [mem_cons]
      exact ⟨.inr, fun hq => hq.resolve_left fun heq => hentry ⟨q, heq.symm⟩⟩

variable {m : PscalEqMemo}

theorem eqMemoGrow_spec (calloc : Nat → Bool) (h : m.WF) :
    ∃ r, eqMemoGrow calloc m = some r ∧ (r = none → ∃ n, calloc n = false) ∧
      ∀ m', r = some m' → m'.WF ∧ (∃ k, m'.slots.length = 2 ^ k) ∧
        (m'.count + 1) * 2 ≤ m'.slots.length ∧ ∀ p, m'.Known p ↔ m.Known p := by
  rw [eqMemoGrow, PscalEqMemo.cap]
  have hhalf := h.half
  split
  · generalize hnew : (if m.slots.length = 0 then 64 else m.slots.length * 2) = newCap
    have hcap : ∃ k, newCap = 2 ^ k := by
      split at hnew
      · exact ⟨6, hnew.symm⟩
      · rename_i hne
        rcases h.cap with hnil | ⟨k, hk⟩
        · rw [hnil] at hne
          exact absurd rfl hne
        · exact ⟨k + 1, by rw [← hnew, hk, Nat.pow_succ]⟩
    have hroom : (m.count + 1) * 2 ≤ newCap := by
      split at hnew
      · omega
      · omega
    have hused := h.used
    dsimp only
    split
    · obtain ⟨slots, hrun, hlength, hused', hindexed⟩ := eqMemoRehash_spec hcap m.slots
        length_replicate (indexed_replicate newCap pscalEqPairHash)
        (by rw [used_replicate]; omega) (fun s t p => h.indexed.unique s t p) fun p _ => id
      rw [used_replicate] at hused'
      have hknown : ∀ p, (⟨slots, m.count⟩ : PscalEqMemo).Known p ↔ m.Known p := by
        intro p
        constructor
        · intro hp
          obtain ⟨s, hs, heq⟩ := mem_iff_getElem.mp hp
          refine (hindexed.sound s p ?_).resolve_left id
          rw [getElem?_eq_getElem hs, heq]
        · intro hp
          obtain ⟨s, hs⟩ := hindexed.complete p (.inr hp)
          exact mem_of_getElem? hs
      refine ⟨some ⟨slots, m.count⟩, by rw [hrun]; rfl, nofun, ?_⟩
      rintro m' ⟨⟩
      refine ⟨⟨.inr (hlength ▸ hcap), hindexed.congr (fun p => ?_) fun _ _ => rfl, ?_, ?_⟩,
        hlength ▸ hcap, hlength ▸ hroom, hknown⟩
      · rw [hknown p]
        exact ⟨fun hp => hp.resolve_left id, .inr⟩
      · show used slots ≤ m.count
        omega
      · show m.count * 2 ≤ slots.length
        omega
    · rename_i hcalloc
      exact ⟨none, rfl, fun _ => ⟨newCap, Bool.not_eq_true _ ▸ hcalloc⟩, nofun⟩
  · rename_i hroom
    refine ⟨some m, rfl, nofun, ?_⟩
    rintro m' ⟨⟩
    refine ⟨h, h.cap.resolve_left fun hnil => ?_, by omega, fun p => Iff.rfl⟩
    have hzero : m.slots.length = 0 := length_eq_zero_iff.mpr hnil
    omega

/-- a search ends at the pair, or at the free slot that takes it -/
theorem eqMemoProbe_spec {slots : List (Slot (Nat × Nat))} (hcap : ∃ k, slots.length = 2 ^ k)
    {p : Nat × Nat} (hused : used slots < slots.length) (probes : Nat) {i : Nat}
    (hi : i + probes = slots.length)
    (hpath : ∀ j < i, slots[probe slots.length (pscalEqPairHash p) j]? ≠ some .empty ∧
      slots[probe slots.length (pscalEqPairHash p) j]? ≠ some (.entry p)) :
    (eqMemoProbe p (slots.length - 1) probes (probe slots.length (pscalEqPairHash p) i) slots =
        some (true, slots) ∧ Slot.entry p ∈ slots) ∨
    ∃ l, eqMemoProbe p (slots.length - 1) probes (probe slots.length (pscalEqPairHash p) i) slots =
        some (false, slots.set (probe slots.length (pscalEqPairHash p) l) (.entry p)) ∧
      slots[probe slots.length (pscalEqPairHash p) l]? = some .empty ∧
      ∀ j < l, slots[probe slots.length (pscalEqPairHash p) j]? ≠ some .empty ∧
        slots[probe slots.length (pscalEqPairHash p) j]? ≠ some (.entry p) := by
  induction probes generalizing i with
  | zero =>
    obtain ⟨l, hl, hempty, -⟩ := exists_first_empty hused (pscalEqPairHash p)
    exact absurd hempty (hpath l (by omega)).1
  | succ probes ih =>
    rw [eqMemoProbe]
    split
    · rename_i hempty
      exact .inr ⟨i, rfl, hempty, hpath⟩
    · rename_i hne
      split
      · rename_i hentry
        exact .inl ⟨rfl, mem_of_getElem? hentry⟩
      · rename_i hne'
        rw [next_and_mask hcap]
        refine ih (by omega) fun j hj => ?_
        rcases Nat.lt_succ_iff_lt_or_eq.mp hj with hj | rfl
        · exact hpath j hj
        · exact ⟨hne, hne'⟩

theorem PscalEqMemo.WF.insert (h : m.WF) (hcap : ∃ k, m.slots.length = 2 ^ k)
    (hroom : (m.count + 1) * 2 ≤ m.slots.length) {p : Nat × Nat} {l : Nat} (hp : ¬ m.Known p)
    (hempty : m.slots[probe m.slots.length (pscalEqPairHash p) l]? = some .empty)
    (hpath : ∀ j < l, m.slots[probe m.slots.length (pscalEqPairHash p) j]? ≠ some .empty) :
    let slots := m.slots.set (probe m.slots.length (pscalEqPairHash p) l) (.entry p)
    (⟨slots, m.count + 1⟩ : PscalEqMemo).WF ∧ ∀ q, .entry q ∈ slots ↔ m.Known q ∨ q = p := by
  intro slots
  have hindexed := h.indexed.place hp (.inl hempty) hpath
  have hknown : ∀ q, .entry q ∈ slots ↔ m.Known q ∨ q = p := by
    intro q
    constructor
    · intro hq
      obtain ⟨s, hs, heq⟩ := mem_iff_getElem.mp hq
      exact hindexed.sound s q (by rw [getElem?_eq_getElem hs, heq])
    · intro hq
      obtain ⟨s, hs⟩ := hindexed.complete q hq
      exact mem_of_getElem? hs
  refine ⟨⟨.inr ?_, hindexed.congr (fun q => (hknown q).symm) fun _ _ => rfl, ?_, ?_⟩, hknown⟩
  · show ∃ k, slots.length = _
    rw [List.length_set]
    exact hcap
  · exact Nat.le_trans (used_set_le _ _ _) (Nat.succ_le_succ h.used)
  · show _ ≤ slots.length
    rw [List.length_set]
    exact hroom

theorem pscalEqMemoSeen_spec (calloc : Nat → Bool) (p : Nat × Nat) (h : m.WF) :
    ∃ found m', pscalEqMemoSeen calloc p m = some (found, m') ∧ m'.WF ∧
      (found = true → m.Known p) ∧ (∀ q, m.Known q → m'.Known q) ∧
      (∀ q, m'.Known q → m.Known q ∨ q = p) ∧
      (found = false → (∃ n, calloc n = false) ∨ ¬ m.Known p ∧ m'.Known p) := by
  obtain ⟨r, hgrow, hfull, hroom⟩ := eqMemoGrow_spec calloc h
  rw [pscalEqMemoSeen, hgrow, Option.bind_some]
  cases r with
  | none =>
    exact ⟨false, m, rfl, h, nofun, fun _ hq => hq, fun _ hq => .inl hq, fun _ => .inl (hfull rfl)⟩
  | some a =>
    obtain ⟨ha, hcap, hhalf, hknown⟩ := hroom a rfl
    have hused := ha.used
    dsimp only
    rw [PscalEqMemo.cap, hash_and_mask hcap]
    rcases eqMemoProbe_spec hcap (p := p) (by omega) a.slots.length (Nat.zero_add _)
      (fun j hj => absurd hj (Nat.not_lt_zero j)) with ⟨hrun, hp⟩ | ⟨l, hrun, hempty, hpath⟩
    · refine ⟨true, a, by rw [hrun]; rfl, ha, fun _ => (hknown p).mp hp,
        fun q hq => (hknown q).mpr hq, fun q hq => .inl ((hknown q).mp hq), nofun⟩
    · have hp : ¬ a.Known p := fun hp => by
        obtain ⟨j, hj, heq⟩ := ha.indexed.reached hp hempty
        exact (hpath j hj).2 heq
      obtain ⟨hwf, hset⟩ := ha.insert hcap hhalf hp hempty fun j hj => (hpath j hj).1
      refine ⟨false, _, by rw [hrun]; rfl, hwf, nofun,
        fun q hq => (hset q).mpr (.inl ((hknown q).mpr hq)), fun q hq => ?_,
        fun _ => .inr ⟨fun hm => hp ((hknown p).mpr hm), (hset p).mpr (.inr rfl)⟩⟩
      rcases (hset q).mp hq with hq | rfl
      · exact .inl ((hknown q).mp hq)
      · exact .inr rfl

theorem eqMemo_spec (calloc : Nat → Bool) :
    MemoSpec (pscalEqMemoSeen calloc) PscalEqMemo.WF PscalEqMemo.Known (∃ n, calloc n = false) where
  total p m hm := by
    obtain ⟨found, m', hrun, hm', -⟩ := pscalEqMemoSeen_spec calloc p hm
    exact ⟨found, m', hrun, hm'⟩
  found {p m m'} hm h := by
    obtain ⟨found, m', hrun, -, hfound, -⟩ := pscalEqMemoSeen_spec calloc p hm
    cases h.symm.trans hrun
    exact hfound rfl
  old {p m found m'} hm h := by
    obtain ⟨found, m', hrun, -, -, hold, -⟩ := pscalEqMemoSeen_spec calloc p hm
    cases h.symm.trans hrun
    exact hold
  new {p m found m'} hm h := by
    obtain ⟨found, m', hrun, -, -, -, hnew, -⟩ := pscalEqMemoSeen_spec calloc p hm
    cases h.symm.trans hrun
    exact hnew
  taken {p m m'} hm h := by
    obtain ⟨found, m', hrun, -, -, -, -, htaken⟩ := pscalEqMemoSeen_spec calloc p hm
    cases h.symm.trans hrun
    exact htaken rfl

/-! ## the comparison as a search -/

/-- the pairs of storages `recordFieldsLoop` compares, and its result when all are equal -/
def fieldsScript : List FieldValue → List FieldValue → List (GraphValue × GraphValue) × Verdict
  | [], [] => ([], .yes)
  | fa :: as, fb :: bs =>
    if fa.hidden ≠ fb.hidden then ([], .no)
    else if fa.hidden then fieldsScript as bs
    else if (fa.name.any fun na => fb.name.any fun nb => !strcasecmpEq na nb) then ([], .no)
    else match fa.storage, fb.storage with
      | some va, some vb => ((va, vb) :: (fieldsScript as bs).1, (fieldsScript as bs).2)
      | none, none => fieldsScript as bs
      | _, _ => ([], .no)
  | _, _ => ([], .no)

def buffersScript (total : Nat) :
    ArrayBuffer → ArrayBuffer → List (GraphValue × GraphValue) × Verdict
  | .raw (some a), .raw (some b) =>
    ([], Verdict.ofBool ((List.range total).all fun i => a i = b i))
  | .raw none, .raw none => ([], .yes)
  | .raw (some a), .elements (some b) => ([], packedEqual a b (List.range total))
  | .elements (some a), .raw (some b) => ([], packedEqual b a (List.range total))
  | .elements (some a), .elements (some b) => ((List.range total).map fun i => (a i, b i), .yes)
  | .elements none, .elements none => ([], .yes)
  | _, _ => ([], .no)

def entriesScript (mb : MapObj GraphValue) :
    List (MapEntry GraphValue) → List (GraphValue × GraphValue) × Verdict
  | [] => ([], .yes)
  | e :: es =>
    if !e.live then entriesScript mb es
    else match pscalMapFind mb e.key with
      | none => ([], .no)
      | some v => ((e.value, v) :: (entriesScript mb es).1, (entriesScript mb es).2)

section
variable (g : ValueGraph)

def arraysScript (pa pb : Option Nat) : List (GraphValue × GraphValue) × Verdict :=
  if pa = pb then ([], .yes)
  else match pa, pb with
    | some a, some b =>
      let a := g.arrays a
      let b := g.arrays b
      if a.dimensions ≠ b.dimensions then ([], .no)
      else if !boundsEqual a b then ([], .no)
      else
        let total := calculateArrayTotalSize a
        if total ≠ calculateArrayTotalSize b then ([], .no)
        else if total ≤ 0 then ([], .yes)
        else buffersScript total.toNat a.buffer b.buffer
    | _, _ => ([], .no)

def mapsScript (pa pb : Option Nat) : List (GraphValue × GraphValue) × Verdict :=
  if pa = pb then ([], .yes)
  else
    let liveCount (p : Option Nat) : Nat := p.elim 0 fun p => (g.maps p).liveCount
    if liveCount pa ≠ liveCount pb then ([], .no)
    else match pa, pb with
      | some a, some b =>
        if (g.maps a).liveCount = 0 then ([], .yes)
        else entriesScript (g.maps b) (g.maps a).entries
      | _, _ => ([], .yes)

def pointersScript (pa pb : Option Nat) : List (GraphValue × GraphValue) × Verdict :=
  if pa = pb then ([], .yes)
  else match pa, pb with
    | some a, some b =>
      match g.cells a, g.cells b with
      | .record fa, .record fb => fieldsScript (g.fieldsAt fa) (g.fieldsAt fb)
      | _, _ => ([], .no)
    | _, _ => ([], .no)

/-- one level of the comparison -/
def deepScript : GraphValue × GraphValue → List (GraphValue × GraphValue) × Verdict
  | (.array pa, .array pb) => arraysScript g pa pb
  | (.map pa, .map pb) => mapsScript g pa pb
  | (.pointer pa, .pointer pb) =>
    if g.frontendIsAether then pointersScript g pa pb
    else ([], leafEqual g (.pointer pa) (.pointer pb))
  | (.record fa, .record fb) =>
    if g.frontendIsAether then fieldsScript (g.fieldsAt fa) (g.fieldsAt fb) else ([], .unknown)
  | (a, b) => ([], leafEqual g a b)

def fieldHeads : Option Nat → Option Nat → Option (Nat × Nat)
  | some a, some b => some (a, b)
  | _, _ => none

/-- the two records a pair of values stands for in an Aether program -/
def recordHeads : GraphValue × GraphValue → Option (Nat × Nat)
  | (.record fa, .record fb) => if g.frontendIsAether then fieldHeads fa fb else none
  | (.pointer (some a), .pointer (some b)) =>
    if g.frontendIsAether ∧ a ≠ b then
      match g.cells a, g.cells b with
      | .record fa, .record fb => fieldHeads fa fb
      | _, _ => none
    else none
  | _ => none

/-- the key of a pair with `levels` levels left below it -/
def recordKey (levels : Nat) (p : GraphValue × GraphValue) : Option (Nat × Nat) :=
  if deepEqualMemoDepth < deepEqualMaxDepth - levels + 1 then recordHeads g p else none

end

section
variable (next : DeepCompare)

theorem recordFieldsLoop_eq (as bs : List FieldValue) (m : PscalEqMemo) :
    recordFieldsLoop next as bs m =
      askAll (fun p => next p.1 p.2) (fieldsScript as bs).2 (fieldsScript as bs).1 m := by
  induction as generalizing bs m with
  | nil => cases bs <;> rfl
  | cons fa as ih =>
    cases bs with
    | nil => rfl
    | cons fb bs =>
      rw [recordFieldsLoop, fieldsScript]
      split
      · rfl
      · split
        · exact ih bs m
        · split
          · rfl
          · cases fa.storage with
            | none =>
              cases fb.storage with
              | none => exact ih bs m
              | some vb => rfl
            | some va =>
              cases fb.storage with
              | none => rfl
              | some vb =>
                dsimp only
                rw [askAll]
                simp only [ih]

theorem arrayElementsLoop_eq (a b : Nat → GraphValue) (is : List Nat) (m : PscalEqMemo) :
    arrayElementsLoop next a b is m =
      askAll (fun p => next p.1 p.2) .yes (is.map fun i => (a i, b i)) m := by
  induction is generalizing m with
  | nil => rfl
  | cons i is ih =>
    rw [arrayElementsLoop, map_cons, askAll]
    simp only [ih]

theorem arrayBuffersDeepEqual_eq (total : Nat) (m : PscalEqMemo) (a b : ArrayBuffer) :
    arrayBuffersDeepEqual next total m a b =
      askAll (fun p => next p.1 p.2) (buffersScript total a b).2 (buffersScript total a b).1 m := by
  rcases a with (_ | a) | (_ | a) <;> rcases b with (_ | b) | (_ | b)
  case elements.some.elements.some => exact arrayElementsLoop_eq next a b _ m
  all_goals rfl

theorem mapEntriesLoop_eq (mb : MapObj GraphValue) (es : List (MapEntry GraphValue))
    (m : PscalEqMemo) : mapEntriesLoop next mb es m =
      askAll (fun p => next p.1 p.2) (entriesScript mb es).2 (entriesScript mb es).1 m := by
  induction es generalizing m with
  | nil => rfl
  | cons e es ih =>
    rw [mapEntriesLoop, entriesScript]
    split
    · exact ih m
    · cases pscalMapFind mb e.key with
      | none => rfl
      | some v =>
        dsimp only
        rw [askAll]
        simp only [ih]

variable (g : ValueGraph)

theorem pscalArraysDeepEqualD_eq (pa pb : Option Nat) (m : PscalEqMemo) :
    pscalArraysDeepEqualD g next pa pb m =
      askAll (fun p => next p.1 p.2) (arraysScript g pa pb).2 (arraysScript g pa pb).1 m := by
  unfold pscalArraysDeepEqualD arraysScript
  split
  · rfl
  · rcases pa with _ | a <;> rcases pb with _ | b
    case some.some =>
      dsimp only
      split
      · rfl
      · split
        · rfl
        · split
          · rfl
          · split
            · rfl
            · exact arrayBuffersDeepEqual_eq next _ m _ _
    all_goals rfl

theorem pscalMapsDeepEqualD_eq (pa pb : Option Nat) {depth : Nat} (hdepth : depth ≤ deepEqualMaxDepth)
    (m : PscalEqMemo) : pscalMapsDeepEqualD g next pa pb depth m =
      askAll (fun p => next p.1 p.2) (mapsScript g pa pb).2 (mapsScript g pa pb).1 m := by
  unfold pscalMapsDeepEqualD mapsScript
  split
  · rfl
  · dsimp only
    split
    · rfl
    · rcases pa with _ | a <;> rcases pb with _ | b
      case some.some =>
        dsimp only
        split
        · rfl
        · rw [if_neg (Nat.not_lt_of_le hdepth)]
          exact mapEntriesLoop_eq next _ _ m
      all_goals rfl

theorem pscalRecordFieldsDeepEqual_eq (fa fb : Option Nat) (depth : Nat) (m : PscalEqMemo) :
    pscalRecordFieldsDeepEqual g next fa fb depth m =
      let script := fieldsScript (g.fieldsAt fa) (g.fieldsAt fb)
      let run := askAll (fun p => next p.1 p.2) script.2 script.1
      match if deepEqualMemoDepth < depth then fieldHeads fa fb else none with
      | none => run m
      | some k => (pscalEqMemoSeen g.calloc k m).bind fun (found, m) =>
        if found then some (.yes, m) else run m := by
  rcases fa with _ | a <;> rcases fb with _ | b
  case some.some =>
    unfold pscalRecordFieldsDeepEqual
    dsimp only
    split
    · simp only [recordFieldsLoop_eq]
      rfl
    · exact recordFieldsLoop_eq next _ _ m
  all_goals
    unfold pscalRecordFieldsDeepEqual
    dsimp only
    rw [recordFieldsLoop_eq]
    split
    · rfl
    · rename_i heq
      split at heq
      · cases heq
      · cases heq

variable {levels : Nat}

theorem search_unkeyed {p : GraphValue × GraphValue} (hheads : recordHeads g p = none)
    (m : PscalEqMemo) :
    search (deepScript g) (recordKey g) (pscalEqMemoSeen g.calloc) (levels + 1) p m =
      askAll (search (deepScript g) (recordKey g) (pscalEqMemoSeen g.calloc) levels)
        (deepScript g p).2 (deepScript g p).1 m := by
  have hkey : recordKey g levels p = none := by
    rw [recordKey, hheads]
    split <;> rfl
  rw [search, hkey]

theorem search_records {p : GraphValue × GraphValue} {fa fb : Option Nat}
    (hscript : deepScript g p = fieldsScript (g.fieldsAt fa) (g.fieldsAt fb))
    (hheads : recordHeads g p = fieldHeads fa fb) (m : PscalEqMemo) :
    search (deepScript g) (recordKey g) (pscalEqMemoSeen g.calloc) (levels + 1) p m =
      pscalRecordFieldsDeepEqual g
        (fun a b => search (deepScript g) (recordKey g) (pscalEqMemoSeen g.calloc) levels (a, b))
        fa fb (deepEqualMaxDepth - levels + 1) m := by
  rw [pscalRecordFieldsDeepEqual_eq, search, hscript, recordKey, hheads]
  dsimp only
  generalize (if deepEqualMemoDepth < deepEqualMaxDepth - levels + 1 then fieldHeads fa fb
    else none) = k
  cases k <;> rfl

theorem search_pointers (haether : g.frontendIsAether = true) (pa pb : Option Nat)
    (hdepth : deepEqualMaxDepth - levels ≤ deepEqualMaxDepth) (m : PscalEqMemo) :
    search (deepScript g) (recordKey g) (pscalEqMemoSeen g.calloc) (levels + 1)
        (.pointer pa, .pointer pb) m =
      pscalRecordPointersDeepEqualD g
        (fun a b => search (deepScript g) (recordKey g) (pscalEqMemoSeen g.calloc) levels (a, b))
        pa pb (deepEqualMaxDepth - levels) m := by
  have hscript : deepScript g (.pointer pa, .pointer pb) = pointersScript g pa pb :=
    if_pos haether
  unfold pscalRecordPointersDeepEqualD
  unfold pointersScript at hscript
  rcases pa with _ | a <;> rcases pb with _ | b
  case some.some =>
    by_cases hab : a = b
    · subst hab
      rw [if_pos rfl] at hscript ⊢
      have hheads : recordHeads g (.pointer (some a), .pointer (some a)) = none :=
        if_neg fun h => h.2 rfl
      rw [search_unkeyed g hheads, hscript]
      rfl
    · have hne : some a ≠ some b := fun h => hab (Option.some.inj h)
      rw [if_neg hne] at hscript ⊢
      dsimp only at hscript ⊢
      rw [if_neg (Nat.not_lt_of_le hdepth)]
      have hheads : recordHeads g (.pointer (some a), .pointer (some b)) = _ :=
        if_pos ⟨haether, hab⟩
      split
      · rename_i fa fb ha hb
        rw [ha, hb] at hscript hheads
        exact search_records g hscript hheads m
      · rename_i hother
        have hno : deepScript g (.pointer (some a), .pointer (some b)) = ([], .no) := by
          rw [hscript]
          split
          · rename_i fa fb ha hb
            exact absurd hb (hother fa fb ha)
          · rfl
        have hnone : recordHeads g (.pointer (some a), .pointer (some b)) = none := by
          rw [hheads]
          split
          · rename_i fa fb ha hb
            exact absurd hb (hother fa fb ha)
          · rfl
        rw [search_unkeyed g hnone, hno]
        rfl
  all_goals
    rw [search_unkeyed g rfl, hscript]
    rfl

/-- **The comparison is the search of its script.** -/
theorem pscalValuesDeepEqualD_eq (a b : GraphValue) (m : PscalEqMemo) :
    pscalValuesDeepEqualD g levels a b m =
      search (deepScript g) (recordKey g) (pscalEqMemoSeen g.calloc) levels (a, b) m := by
  induction levels generalizing a b m with
  | zero => rfl
  | succ levels ih =>
    have hnext : pscalValuesDeepEqualD g levels = fun a b =>
        search (deepScript g) (recordKey g) (pscalEqMemoSeen g.calloc) levels (a, b) := by
      funext a b m
      exact ih a b m
    have hdepth : deepEqualMaxDepth - levels ≤ deepEqualMaxDepth := Nat.sub_le _ _
    unfold pscalValuesDeepEqualD
    rw [hnext]
    cases a with
    | array pa =>
      cases b with
      | array pb =>
        rw [search_unkeyed g rfl]
        exact pscalArraysDeepEqualD_eq _ g pa pb m
      | _ => rw [search_unkeyed g rfl]; rfl
    | map pa =>
      cases b with
      | map pb =>
        rw [search_unkeyed g rfl]
        exact pscalMapsDeepEqualD_eq _ g pa pb hdepth m
      | _ => rw [search_unkeyed g rfl]; rfl
    | record fa =>
      cases b with
      | record fb =>
        dsimp only
        split
        · rename_i haether
          have hscript : deepScript g (.record fa, .record fb) =
              fieldsScript (g.fieldsAt fa) (g.fieldsAt fb) := if_pos haether
          have hheads : recordHeads g (.record fa, .record fb) = fieldHeads fa fb :=
            if_pos haether
          rw [search_records g hscript hheads]
        · rename_i haether
          have hheads : recordHeads g (.record fa, .record fb) = none := if_neg haether
          rw [search_unkeyed g hheads, deepScript, if_neg haether]
          rfl
      | _ => rw [search_unkeyed g rfl]; rfl
    | pointer pa =>
      cases b with
      | pointer pb =>
        dsimp only
        split
        · rename_i haether
          exact (search_pointers g haether pa pb hdepth m).symm
        · rename_i haether
          have hheads : recordHeads g (.pointer pa, .pointer pb) = none := by
            rcases pa with _ | a <;> rcases pb with _ | b
            case some.some => exact if_neg fun h => haether h.1
            all_goals rfl
          rw [search_unkeyed g hheads, deepScript, if_neg haether]
          rfl
      | _ => cases pa <;> (rw [search_unkeyed g rfl]; rfl)
    | _ => rw [search_unkeyed g rfl]; rfl

end

/-! ## a script checks a match -/

theorem Verdict.ofBool_yes {b : Bool} : Verdict.ofBool b = .yes ↔ b = true := by
  cases b <;> decide

/-- the script `s` checks that its pairs are related by `R` and nothing else is wrong -/
def Checks (R : GraphValue → GraphValue → Prop) (s : List (GraphValue × GraphValue) × Verdict) :
    Prop :=
  s.2 = .yes ∧ ∀ q ∈ s.1, R q.1 q.2

section
variable {R : GraphValue → GraphValue → Prop}

theorem checks_nil {v : Verdict} : Checks R ([], v) ↔ v = .yes :=
  ⟨fun h => h.1, fun h => ⟨h, fun _ hq => absurd hq not_mem_nil⟩⟩

theorem checks_cons {a b : GraphValue} {qs : List (GraphValue × GraphValue)} {v : Verdict} :
    Checks R ((a, b) :: qs, v) ↔ R a b ∧ Checks R (qs, v) := by
  rw [Checks, Checks, forall_mem_cons]
  exact and_left_comm

theorem not_checks_no : ¬ Checks R ([], .no) := fun h => nomatch h.1

theorem names_iff {na nb : Option String} :
    (na.any fun a => nb.any fun b => !strcasecmpEq a b) = true ↔
      ¬ ∀ a ∈ na, ∀ b ∈ nb, strcasecmpEq a b = true := by
  cases na with
  | none => simp
  | some a =>
    cases nb with
    | none => simp
    | some b => simp

theorem fieldsScript_checks (as bs : List FieldValue) :
    Checks R (fieldsScript as bs) ↔ Forall₂ (SameField R) as bs := by
  induction as generalizing bs with
  | nil =>
    cases bs with
    | nil => exact ⟨fun _ => .nil, fun _ => checks_nil.mpr rfl⟩
    | cons fb bs => exact ⟨fun h => absurd h not_checks_no, nofun⟩
  | cons fa as ih =>
    cases bs with
    | nil => exact ⟨fun h => absurd h not_checks_no, nofun⟩
    | cons fb bs =>
      rw [forall₂_cons, ← ih, fieldsScript]
      by_cases hhidden : fa.hidden = fb.hidden
      · rw [if_neg (not_not_intro hhidden)]
        cases hfa : fa.hidden with
        | true => exact ⟨fun h => ⟨.hidden hfa (hhidden ▸ hfa), h⟩, fun h => h.2⟩
        | false =>
          have hfb : fb.hidden = false := hhidden ▸ hfa
          rw [if_neg Bool.false_ne_true]
          by_cases hnames : ∀ na ∈ fa.name, ∀ nb ∈ fb.name, strcasecmpEq na nb = true
          · rw [if_neg fun h => names_iff.mp h hnames]
            cases ha : fa.storage with
            | none =>
              cases hb : fb.storage with
              | none => exact ⟨fun h => ⟨.unset hfa hfb hnames ha hb, h⟩, fun h => h.2⟩
              | some vb =>
                refine ⟨fun h => absurd h not_checks_no, fun h => ?_⟩
                cases h.1 <;> simp_all
            | some va =>
              cases hb : fb.storage with
              | none =>
                refine ⟨fun h => absurd h not_checks_no, fun h => ?_⟩
                cases h.1 <;> simp_all
              | some vb =>
                refine checks_cons.trans (and_congr_left fun _ => ⟨fun h => ?_, fun h => ?_⟩)
                · exact .stored hfa hfb hnames ha hb h
                · cases h with
                  | hidden h => cases hfa.symm.trans h
                  | unset _ _ _ h => cases ha.symm.trans h
                  | stored _ _ _ h h' hR =>
                    cases ha.symm.trans h
                    cases hb.symm.trans h'
                    exact hR
          · rw [if_pos (names_iff.mpr hnames)]
            refine ⟨fun h => absurd h not_checks_no, fun h => ?_⟩
            cases h.1 with
            | hidden h => cases hfa.symm.trans h
            | unset _ _ h => exact absurd h hnames
            | stored _ _ h => exact absurd h hnames
      · rw [if_pos hhidden]
        refine ⟨fun h => absurd h not_checks_no, fun h => absurd ?_ hhidden⟩
        cases h.1 with
        | hidden ha hb => exact ha.trans hb.symm
        | unset ha hb => exact ha.trans hb.symm
        | stored ha hb => exact ha.trans hb.symm

theorem packedEqual_yes (raw : Nat → UInt8) (elements : Nat → GraphValue) (is : List Nat) :
    packedEqual raw elements is = .yes ↔
      ∀ i ∈ is, (elements i).isIntlike = true ∧ ((raw i).toNat : Int) = (elements i).asI64 := by
  induction is with
  | nil => exact ⟨fun _ => nofun, fun _ => rfl⟩
  | cons i is ih =>
    rw [packedEqual, forall_mem_cons, ← ih]
    cases (elements i).isIntlike with
    | false => exact ⟨nofun, fun h => nomatch h.1.1⟩
    | true =>
      rw [if_neg (by decide)]
      split
      · rename_i hne
        exact ⟨nofun, fun h => absurd h.1.2 hne⟩
      · rename_i heq
        exact ⟨fun h => ⟨⟨rfl, not_not.mp heq⟩, h⟩, fun h => h.2⟩

theorem buffersScript_checks (total : Nat) (a b : ArrayBuffer) :
    Checks R (buffersScript total a b) ↔ SameElements R total a b := by
  rcases a with (_ | a) | (_ | a) <;> rcases b with (_ | b) | (_ | b)
  case raw.none.raw.none => exact ⟨fun _ => .rawNull, fun _ => checks_nil.mpr rfl⟩
  case elements.none.elements.none => exact ⟨fun _ => .elementsNull, fun _ => checks_nil.mpr rfl⟩
  case raw.some.raw.some =>
    refine checks_nil.trans (Verdict.ofBool_yes.trans ?_)
    rw [List.all_eq_true]
    simp only [mem_range, decide_eq_true_eq]
    exact ⟨.raw, fun | .raw h => h⟩
  case raw.some.elements.some =>
    refine checks_nil.trans ((packedEqual_yes a b _).trans ?_)
    simp only [mem_range]
    exact ⟨.packedLeft, fun | .packedLeft h => h⟩
  case elements.some.raw.some =>
    refine checks_nil.trans ((packedEqual_yes b a _).trans ?_)
    simp only [mem_range]
    exact ⟨.packedRight, fun | .packedRight h => h⟩
  case elements.some.elements.some =>
    rw [Checks, buffersScript, List.forall_mem_map]
    simp only [mem_range, true_and]
    exact ⟨.elements, fun | .elements h => h⟩
  all_goals exact ⟨fun h => absurd h not_checks_no, nofun⟩

theorem entriesScript_checks {mb : MapObj GraphValue} (hmb : mb.WF)
    (es : List (MapEntry GraphValue)) : Checks R (entriesScript mb es) ↔ ∀ e ∈ es, e.live = true →
      ∃ v, OrderedMap.lookup mb.pairs e.key = some v ∧ R e.value v := by
  induction es with
  | nil => exact ⟨fun _ => nofun, fun _ => checks_nil.mpr rfl⟩
  | cons e es ih =>
    rw [entriesScript, forall_mem_cons, ← ih]
    cases hlive : e.live with
    | false => exact ⟨fun h => ⟨nofun, h⟩, fun h => h.2⟩
    | true =>
      rw [if_neg (by decide), hmb.pscalMapFind]
      cases hfind : OrderedMap.lookup mb.pairs e.key with
      | none =>
        refine ⟨fun h => absurd h not_checks_no, fun h => ?_⟩
        obtain ⟨v, hv, -⟩ := h.1 rfl
        cases hv
      | some v =>
        refine checks_cons.trans (and_congr_left fun _ => ⟨fun h _ => ⟨v, rfl, h⟩, fun h => ?_⟩)
        obtain ⟨v', hv, hR⟩ := h rfl
        cases hv
        exact hR

theorem lookup_isSome {κ α : Type*} [DecidableEq κ] {l : List (κ × α)} {k : κ} :
    k ∈ OrderedMap.keys l ↔ ∃ v, OrderedMap.lookup l k = some v := by
  rw [← Option.isSome_iff_exists, ← not_iff_not, Bool.not_eq_true, Option.isSome_eq_false_iff,
    Option.isNone_iff_eq_none, OrderedMap.lookup_eq_none_iff]

theorem sameEntries_iff {a b : List (List UInt8 × GraphValue)}
    (ha : (OrderedMap.keys a).Nodup) (hlength : a.length = b.length) :
    SameEntries R a b ↔ ∀ key va, OrderedMap.lookup a key = some va →
      ∃ vb, OrderedMap.lookup b key = some vb ∧ R va vb := by
  constructor
  · intro h key va hva
    obtain ⟨vb, hvb⟩ := lookup_isSome.mp ((h.keys key).mp (lookup_isSome.mpr ⟨va, hva⟩))
    exact ⟨vb, hvb, h.values key va vb hva hvb⟩
  · intro h
    have hsub : OrderedMap.keys a ⊆ OrderedMap.keys b := fun key hkey => by
      obtain ⟨va, hva⟩ := lookup_isSome.mp hkey
      obtain ⟨vb, hvb, -⟩ := h key va hva
      exact lookup_isSome.mpr ⟨vb, hvb⟩
    have hperm := (subperm_of_subset ha hsub).perm_of_length_le
      (by rw [OrderedMap.length_keys, OrderedMap.length_keys, hlength])
    refine ⟨fun key => hperm.mem_iff, fun key va vb hva hvb => ?_⟩
    obtain ⟨vb', hvb', hR⟩ := h key va hva
    cases hvb.symm.trans hvb'
    exact hR

theorem SameEntries.length {a b : List (List UInt8 × GraphValue)} (h : SameEntries R a b)
    (ha : (OrderedMap.keys a).Nodup) (hb : (OrderedMap.keys b).Nodup) : a.length = b.length := by
  have hperm := (perm_ext_iff_of_nodup ha hb).mpr h.keys
  rw [← OrderedMap.length_keys a, hperm.length_eq, OrderedMap.length_keys]

variable (g : ValueGraph)

theorem ValueGraph.maps_wf (p : Nat) : (g.maps p).WF := by
  obtain ⟨ops, valueType, past, hrun⟩ := g.maps_built p
  obtain ⟨m, hrun', hwf, -⟩ := mapRun_spec ops valueType past
  cases hrun.symm.trans hrun'
  exact hwf

theorem arraysScript_checks (pa pb : Option Nat) :
    Checks R (arraysScript g pa pb) ↔ Matches g R (.array pa) (.array pb) := by
  unfold arraysScript
  by_cases hne : pa = pb
  · subst hne
    rw [if_pos rfl]
    exact ⟨fun _ => .sameArray pa, fun _ => checks_nil.mpr rfl⟩
  rw [if_neg hne]
  rcases pa with _ | a <;> rcases pb with _ | b
  case some.some =>
    have hmatch : Matches g R (.array (some a)) (.array (some b)) ↔
        SameArray R (g.arrays a) (g.arrays b) := by
      refine ⟨fun h => ?_, .array⟩
      cases h with
      | leaf h => cases h
      | sameArray => exact absurd rfl hne
      | array h => exact h
    rw [hmatch]
    dsimp only
    split
    · rename_i hdims
      exact ⟨fun h => absurd h not_checks_no, fun h => absurd h.dimensions hdims⟩
    · rename_i hdims
      split
      · rename_i hbounds
        refine ⟨fun h => absurd h not_checks_no, fun h => ?_⟩
        rw [h.bounds] at hbounds
        cases hbounds
      · rename_i hbounds
        rw [Bool.not_eq_true, Bool.not_eq_false'] at hbounds
        split
        · rename_i htotal
          exact ⟨fun h => absurd h not_checks_no, fun h => absurd h.total htotal⟩
        · rename_i htotal
          split
          · rename_i hempty
            exact ⟨fun _ => ⟨not_not.mp hdims, hbounds, not_not.mp htotal, fun h => by omega⟩,
              fun _ => checks_nil.mpr rfl⟩
          · rename_i hpos
            rw [buffersScript_checks]
            exact ⟨fun h => ⟨not_not.mp hdims, hbounds, not_not.mp htotal, fun _ => h⟩,
              fun h => h.elements (by omega)⟩
  case none.none => exact absurd rfl hne
  all_goals
    refine ⟨fun h => absurd h not_checks_no, fun h => ?_⟩
    cases h with
    | leaf h => cases h

theorem ValueGraph.nodup_pairsAt (p : Option Nat) : (OrderedMap.keys (g.pairsAt p)).Nodup := by
  cases p with
  | none => exact nodup_nil
  | some p => exact (g.maps_wf p).nodup

theorem ValueGraph.length_pairsAt (p : Option Nat) :
    (p.elim 0 fun p => (g.maps p).liveCount) = (g.pairsAt p).length := by
  cases p with
  | none => rfl
  | some p => exact (g.maps_wf p).count

theorem mapsScript_checks (pa pb : Option Nat) :
    Checks R (mapsScript g pa pb) ↔ Matches g R (.map pa) (.map pb) := by
  unfold mapsScript
  by_cases hne : pa = pb
  · subst hne
    rw [if_pos rfl]
    exact ⟨fun _ => .sameMap pa, fun _ => checks_nil.mpr rfl⟩
  have hmatch : Matches g R (.map pa) (.map pb) ↔ SameEntries R (g.pairsAt pa) (g.pairsAt pb) := by
    refine ⟨fun h => ?_, .map⟩
    cases h with
    | leaf h => cases h
    | sameMap => exact absurd rfl hne
    | map h => exact h
  rw [if_neg hne, hmatch]
  dsimp only
  split
  · rename_i hlength
    rw [g.length_pairsAt pa, g.length_pairsAt pb] at hlength
    exact ⟨fun h => absurd h not_checks_no, fun h =>
      absurd (h.length (g.nodup_pairsAt pa) (g.nodup_pairsAt pb)) hlength⟩
  · rename_i hlength
    rw [not_not, g.length_pairsAt pa, g.length_pairsAt pb] at hlength
    rw [sameEntries_iff (g.nodup_pairsAt pa) hlength]
    have hempty : g.pairsAt pa = [] → (Checks R ([], .yes) ↔ ∀ key va,
        OrderedMap.lookup (g.pairsAt pa) key = some va →
          ∃ vb, OrderedMap.lookup (g.pairsAt pb) key = some vb ∧ R va vb) := fun hnil =>
      ⟨fun _ key va hva => (nomatch hnil ▸ hva), fun _ => checks_nil.mpr rfl⟩
    rcases pa with _ | a <;> rcases pb with _ | b
    case some.some =>
      dsimp only
      split
      · rename_i hzero
        refine hempty (length_eq_zero_iff.mp ?_)
        rw [← g.length_pairsAt (some a)]
        exact hzero
      · rw [entriesScript_checks (g.maps_wf b)]
        constructor
        · intro h key va hva
          rw [OrderedMap.lookup, Option.map_eq_some_iff] at hva
          obtain ⟨⟨k, w⟩, hfind, rfl⟩ := hva
          have hkey := find?_some hfind
          obtain rfl := of_decide_eq_true hkey
          obtain ⟨e, he, hlive, rfl, rfl⟩ := MapObj.mem_pairs.mp (mem_of_find?_eq_some hfind)
          exact h e he hlive
        · intro h e he hlive
          obtain ⟨pos, hpos, rfl⟩ := mem_iff_getElem.mp he
          exact h _ _ ((g.maps_wf a).lookup (getElem?_eq_getElem hpos) hlive)
    case some.none => exact hempty (length_eq_zero_iff.mp hlength)
    all_goals exact hempty rfl

theorem pointersScript_checks (haether : g.frontendIsAether = true) (pa pb : Option Nat) :
    Checks R (pointersScript g pa pb) ↔ Matches g R (.pointer pa) (.pointer pb) := by
  unfold pointersScript
  by_cases hne : pa = pb
  · subst hne
    rw [if_pos rfl]
    refine ⟨fun _ => .leaf ?_, fun _ => checks_nil.mpr rfl⟩
    exact Verdict.ofBool_yes.mpr (decide_eq_true rfl)
  have hleaf : leafEqual g (.pointer pa) (.pointer pb) ≠ .yes := fun h =>
    hne (of_decide_eq_true (Verdict.ofBool_yes.mp h))
  rw [if_neg hne]
  rcases pa with _ | a <;> rcases pb with _ | b
  case some.some =>
    dsimp only
    split
    · rename_i fa fb ha hb
      rw [fieldsScript_checks]
      refine ⟨.pointer haether ha hb, fun h => ?_⟩
      cases h with
      | leaf h => exact absurd h hleaf
      | pointer _ ha' hb' h =>
        cases ha.symm.trans ha'
        cases hb.symm.trans hb'
        exact h
    · rename_i hother
      refine ⟨fun h => absurd h not_checks_no, fun h => ?_⟩
      cases h with
      | leaf h => exact absurd h hleaf
      | pointer _ ha hb => exact absurd hb (hother _ _ ha)
  all_goals
    refine ⟨fun h => absurd h not_checks_no, fun h => ?_⟩
    cases h with
    | leaf h => exact absurd h hleaf

/-- **One level of the comparison checks a match.** -/
theorem deepScript_checks (a b : GraphValue) :
    Checks R (deepScript g (a, b)) ↔ Matches g R a b := by
  have hleaf : deepScript g (a, b) = ([], leafEqual g a b) →
      (Matches g R a b → leafEqual g a b = .yes) →
      (Checks R (deepScript g (a, b)) ↔ Matches g R a b) := fun hscript hmatch => by
    rw [hscript]
    exact checks_nil.trans ⟨.leaf, hmatch⟩
  cases a with
  | array pa =>
    cases b with
    | array pb => exact arraysScript_checks g pa pb
    | _ => exact hleaf rfl fun | .leaf h => h
  | map pa =>
    cases b with
    | map pb => exact mapsScript_checks g pa pb
    | _ => exact hleaf rfl fun | .leaf h => h
  | pointer pa =>
    cases b with
    | pointer pb =>
      by_cases haether : g.frontendIsAether = true
      · rw [deepScript, if_pos haether]
        exact pointersScript_checks g haether pa pb
      · refine hleaf (if_neg haether) fun h => ?_
        cases h with
        | leaf h => exact h
        | pointer h => exact absurd h haether
    | _ => exact hleaf rfl fun | .leaf h => h
  | record fa =>
    cases b with
    | record fb =>
      by_cases haether : g.frontendIsAether = true
      · rw [deepScript, if_pos haether, fieldsScript_checks]
        refine ⟨.record haether, fun h => ?_⟩
        cases h with
        | leaf h => cases h
        | record _ h => exact h
      · refine hleaf (if_neg haether) fun h => ?_
        cases h with
        | leaf h => exact h
        | record h => exact absurd h haether
    | _ => exact hleaf rfl fun | .leaf h => h
  | _ => exact hleaf rfl fun | .leaf h => h

theorem holds_deepScript (a b : GraphValue) : Holds (deepScript g) (a, b) ↔ Bisimilar g a b := by
  constructor
  · rintro ⟨R, hclosed, hab⟩
    exact ⟨fun x y => R (x, y), fun x y hxy => (deepScript_checks g x y).mp (hclosed _ hxy), hab⟩
  · rintro ⟨R, hmatch, hab⟩
    exact ⟨fun p => R p.1 p.2, fun p hp => (deepScript_checks g p.1 p.2).mpr (hmatch _ _ hp), hab⟩

end

/-! ## the result -/

section
variable (g : ValueGraph)

/-- Nesting beyond the cap: a path of 513 steps from a pair of values to a pair of parts, on which
no pair of records comes twice from the level on where the memo is used. -/
def NestedTooDeep (a b : GraphValue) : Prop :=
  ∃ path : Nat → GraphValue × GraphValue, path 0 = (a, b) ∧
    (∀ i ≤ deepEqualMaxDepth, path (i + 1) ∈ (deepScript g (path i)).1) ∧
    ∀ i j k, deepEqualMemoDepth ≤ i → i < j → j ≤ deepEqualMaxDepth →
      recordHeads g (path i) = some k → recordHeads g (path j) ≠ some k

structure DeepEqualCorrect (a b : GraphValue) (r : Verdict) : Prop where
  equal : r = .yes → Bisimilar g a b
  unequal : r = .no → ¬ Bisimilar g a b
  unknown : r = .unknown →
    ¬ Bisimilar g a b ∨ NestedTooDeep g a b ∨ ∃ slots, g.calloc slots = false

theorem deepScript_of_heads {p : GraphValue × GraphValue} {k : Nat × Nat}
    (h : recordHeads g p = some k) :
    deepScript g p = fieldsScript (g.fieldsAt (some k.1)) (g.fieldsAt (some k.2)) := by
  have hheads : ∀ {fa fb : Option Nat}, fieldHeads fa fb = some k →
      fa = some k.1 ∧ fb = some k.2 := by
    intro fa fb h
    rcases fa with _ | a <;> rcases fb with _ | b <;> cases h
    exact ⟨rfl, rfl⟩
  obtain ⟨a, b⟩ := p
  unfold recordHeads at h
  split at h
  · rename_i fa fb heq
    cases heq
    split at h
    · rename_i haether
      obtain ⟨rfl, rfl⟩ := hheads h
      exact if_pos haether
    · cases h
  · rename_i a b heq
    cases heq
    split at h
    · rename_i hab
      have hne : some a ≠ some b := fun h => hab.2 (Option.some.inj h)
      split at h
      · rename_i fa fb ha hb
        obtain ⟨rfl, rfl⟩ := hheads h
        rw [deepScript, if_pos hab.1, pointersScript, if_neg hne, ha, hb]
      · cases h
    · cases h
  · cases h

theorem pscalValuesDeepEqual_correct (a b : GraphValue) :
    ∃ r m, pscalValuesDeepEqualD g (deepEqualMaxDepth + 1) a b {} = some (r, m) ∧
      DeepEqualCorrect g a b r := by
  have hmemo := eqMemo_spec g.calloc
  have hempty : ∀ k, ¬ ({} : PscalEqMemo).Known k := fun k => not_mem_nil
  have hheads : ∀ {levels : Nat} {p : GraphValue × GraphValue} {k : Nat × Nat},
      recordKey g levels p = some k → recordHeads g p = some k := by
    intro levels p k h
    rw [recordKey] at h
    split at h
    · exact h
    · cases h
  have hrun : ∃ r m, search (deepScript g) (recordKey g) (pscalEqMemoSeen g.calloc)
      (deepEqualMaxDepth + 1) (a, b) {} = some (r, m) ∧ m.WF :=
    search_total hmemo _ _ PscalEqMemo.wf_empty
  obtain ⟨r, m, hrun, -⟩ := hrun
  refine ⟨r, m, (pscalValuesDeepEqualD_eq g a b {}).trans hrun, ?_, ?_, ?_⟩
  · rintro rfl
    refine (holds_deepScript g a b).mp
      (search_yes hmemo (fun hp hq => ?_) PscalEqMemo.wf_empty hempty hrun)
    rw [deepScript_of_heads g (hheads hp), deepScript_of_heads g (hheads hq)]
  · rintro rfl
    exact fun h => search_no hmemo PscalEqMemo.wf_empty hrun ((holds_deepScript g a b).mpr h)
  · rintro rfl
    rcases search_unknown hmemo PscalEqMemo.wf_empty hrun with hfull | hholds |
      ⟨path, hstart, hpath, -⟩
    · exact .inr (.inr hfull)
    · exact .inl fun h => hholds ((holds_deepScript g a b).mpr h)
    · refine .inr (.inl ⟨path, hstart, fun i hi => hpath.step i (by omega), ?_⟩)
      intro i j k hi hij hj hik hjk
      have hlevel : ∀ l, deepEqualMemoDepth ≤ l → l ≤ deepEqualMaxDepth →
          recordKey g (deepEqualMaxDepth + 1 - 1 - l) (path l) = recordHeads g (path l) := by
        intro l hl hl'
        rw [recordKey, if_pos]
        omega
      refine hpath.fresh i j k hij (by omega) ?_ ?_
      · rw [hlevel i hi (by omega)]
        exact hik
      · rw [hlevel j (by omega) hj]
        exact hjk

/-- **Deep equality.**  Every call returns; equal is bisimilar, unequal is not, and without a
result the two are not bisimilar or nested beyond the cap. -/
theorem vmDeepEqual_correct (operands : DeepOperands) : ∃ r, vmDeepEqual g operands = some r ∧
      DeepEqualCorrect g operands.left operands.right r := by
  obtain ⟨r, m, hrun, hcorrect⟩ := pscalValuesDeepEqual_correct g operands.left operands.right
  refine ⟨r, ?_, hcorrect⟩
  cases operands with
  | arrays pa pb =>
    have hrun : pscalArraysDeepEqualD g (pscalValuesDeepEqualD g deepEqualMaxDepth) pa pb {} =
        some (r, m) := hrun
    rw [vmDeepEqual, pscalArraysDeepEqual, hrun]
    rfl
  | maps pa pb =>
    have hrun : pscalMapsDeepEqualD g (pscalValuesDeepEqualD g deepEqualMaxDepth) pa pb 0 {} =
        some (r, m) := hrun
    rw [vmDeepEqual, pscalMapsDeepEqual, hrun]
    rfl
  | pointers pa pb =>
    have hrun : (if g.frontendIsAether then
        pscalRecordPointersDeepEqualD g (pscalValuesDeepEqualD g deepEqualMaxDepth) pa pb 0 {}
        else some (leafEqual g (.pointer pa) (.pointer pb), {})) = some (r, m) := hrun
    rw [vmDeepEqual]
    split
    · rename_i haether
      rw [if_pos haether] at hrun
      rw [pscalRecordPointersDeepEqual, hrun]
      rfl
    · rename_i haether
      rw [if_neg haether] at hrun
      cases hrun
      rfl

end

/-! ## two long chains -/

/-- two chains of 600 one-element arrays, the array `p` holds the array `p + 2` -/
def twoChains : ValueGraph where
  cells _ := .nil
  fields _ := (⟨none, none⟩, [])
  arrays p :=
    { dimensions := 1
      lowerBounds := some fun _ => 0
      upperBounds := some fun _ => if p < 1200 then 0 else -1
      buffer := .elements (some fun _ => .array (some (p + 2))) }
  maps _ := pscalMapObjCreate .unknown
  maps_built _ := ⟨⟨.nil, fun _ v => v, id⟩, .unknown, [], rfl⟩
  frontendIsAether := true
  ldEqual _ _ := false
  calloc _ := true

theorem twoChains_total (p : Nat) :
    calculateArrayTotalSize (twoChains.arrays p) = if p < 1200 then 1 else 0 := by
  show 1 * ((if p < 1200 then 0 else -1) - 0 + 1 : Int) = _
  split <;> rfl

theorem twoChains_script (i : Nat) : arraysScript twoChains (some (2 * i)) (some (2 * i + 1)) =
      if i < 600 then ([(.array (some (2 * i + 2)), .array (some (2 * i + 3)))], .yes)
      else ([], .yes) := by
  have hne : some (2 * i) ≠ some (2 * i + 1) := fun h => Nat.succ_ne_self _ (Option.some.inj h).symm
  have hside : 2 * i + 1 < 1200 ↔ 2 * i < 1200 := by omega
  have hbounds : boundsEqual (twoChains.arrays (2 * i)) (twoChains.arrays (2 * i + 1)) = true := by
    show ((List.range 1).all fun d => decide ((0 : Int) = 0 ∧
      (if 2 * i < 1200 then (0 : Int) else -1) = if 2 * i + 1 < 1200 then 0 else -1)) = true
    rw [if_congr hside rfl rfl]
    simp
  rw [arraysScript, if_neg hne]
  dsimp only
  have hdims : ¬ (twoChains.arrays (2 * i)).dimensions ≠ (twoChains.arrays (2 * i + 1)).dimensions :=
    not_not_intro rfl
  rw [if_neg hdims, hbounds, if_neg (by decide), twoChains_total, twoChains_total,
    if_congr hside rfl rfl, if_neg (not_not_intro rfl)]
  by_cases hi : i < 600
  · rw [if_pos hi, if_pos (show 2 * i < 1200 by omega), if_neg (by decide)]
    rfl
  · rw [if_neg hi, if_neg (show ¬ 2 * i < 1200 by omega), if_pos (by decide)]

theorem twoChains_unknown (levels i : Nat) (h : levels + i ≤ 600) (m : PscalEqMemo) :
    pscalValuesDeepEqualD twoChains levels (.array (some (2 * i))) (.array (some (2 * i + 1))) m =
      some (.unknown, m) := by
  induction levels generalizing i with
  | zero => rfl
  | succ levels ih =>
    have hnext := ih (i + 1) (by omega)
    show pscalArraysDeepEqualD twoChains (pscalValuesDeepEqualD twoChains levels) (some (2 * i))
      (some (2 * i + 1)) m = _
    rw [pscalArraysDeepEqualD_eq, twoChains_script, if_pos (by omega), askAll]
    show Option.bind (pscalValuesDeepEqualD twoChains levels (.array (some (2 * (i + 1))))
      (.array (some (2 * (i + 1) + 1))) m) _ = _
    rw [hnext]
    rfl

theorem twoChains_bisimilar : Bisimilar twoChains (.array (some 0)) (.array (some 1)) := by
  refine ⟨fun a b => ∃ i, a = .array (some (2 * i)) ∧ b = .array (some (2 * i + 1)),
    ?_, 0, rfl, rfl⟩
  rintro _ _ ⟨i, rfl, rfl⟩
  rw [← arraysScript_checks, twoChains_script]
  split
  · refine ⟨rfl, fun q hq => ?_⟩
    rw [mem_singleton] at hq
    subst hq
    exact ⟨i + 1, rfl, rfl⟩
  · exact checks_nil.mpr rfl

/-- bisimilar, and no result -/
theorem vmDeepEqual_depth_cap : Bisimilar twoChains (.array (some 0)) (.array (some 1)) ∧
      vmDeepEqual twoChains (.arrays (some 0) (some 1)) = some .unknown := by
  refine ⟨twoChains_bisimilar, ?_⟩
  have hrun : pscalArraysDeepEqualD twoChains (pscalValuesDeepEqualD twoChains deepEqualMaxDepth)
      (some 0) (some 1) {} = some (.unknown, {}) :=
    twoChains_unknown (deepEqualMaxDepth + 1) 0 (by decide) {}
  rw [vmDeepEqual, pscalArraysDeepEqual, hrun]
  rfl

end Pscal
