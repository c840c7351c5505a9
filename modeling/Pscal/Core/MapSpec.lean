import Pscal.Core.Map
import Pscal.Lib.OrderedMap

/-!
# Maps are insertion-ordered

* `MapObj.WF m`  the entries, the index and the counters of a map fit together;
* `mapIndexFind_found`, `mapIndexFind_free`  what a search finds;
* `pscalMapSet_spec`, `pscalMapRemove_spec`, `pscalMapClone_spec`  the operations keep it;
* `mapRun_correct`  a map after any history.
-/

namespace Pscal

open Probing List Option

variable {V : Type}

namespace MapObj

def pairs (m : MapObj V) : List (List UInt8 × V) :=
  (m.entries.filter (·.live)).map fun e => (e.key, e.value)

def hashAt (m : MapObj V) (pos : Nat) : Nat := ((m.entries[pos]?).map (·.hash.toNat)).getD 0

def LiveAt (m : MapObj V) (pos : Nat) : Prop := ∃ e, m.entries[pos]? = some e ∧ e.live = true

/-- the entries, the index and the counters fit together -/
structure WF (m : MapObj V) : Prop where
  hash : ∀ e ∈ m.entries, e.hash = mapHashKey e.key
  keys : m.entries.Pairwise fun a b => a.live = true → b.live = true → a.key ≠ b.key
  count : m.liveCount = m.pairs.length
  cap : m.index = [] ∨ ∃ k, m.index.length = 2 ^ k
  indexed : Indexed m.index m.hashAt m.LiveAt
  used : Probing.used m.index ≤ m.entries.length
  half : m.entries.length * 2 ≤ m.index.length
  fits : m.entries.length ≤ m.entryCap

end MapObj

open MapObj

/-! ## searches -/

def Passed (m : MapObj V) (key : List UInt8) (h : UInt64) (slot : Nat) : Prop :=
  m.index[slot]? ≠ some .empty ∧
    ∀ pos, m.index[slot]? = some (.entry pos) → entryMatches m key h pos = false

inductive FindResult (m : MapObj V) (key : List UInt8) (h : UInt64) : Option Nat × Bool → Prop where
  | found {slot pos : Nat} (hslot : m.index[slot]? = some (.entry pos))
      (hmatch : entryMatches m key h pos = true) : FindResult m key h (some slot, true)
  | free {i j : Nat} (hempty : m.index[probe m.index.length h.toNat i]? = some .empty)
      (hpassed : ∀ l < i, Passed m key h (probe m.index.length h.toNat l)) (hle : j ≤ i)
      (hfree : m.index[probe m.index.length h.toNat j]? = some .empty ∨
        m.index[probe m.index.length h.toNat j]? = some .deleted) :
      FindResult m key h (some (probe m.index.length h.toNat j), false)
  | full {result : Option Nat × Bool}
      (hpassed : ∀ l < m.index.length, Passed m key h (probe m.index.length h.toNat l)) :
      FindResult m key h result

variable {m : MapObj V} {e : MapEntry V}

variable {key : List UInt8} {pos cap : Nat}

theorem mapIndexFindLoop_result {h : UInt64} (hcap : ∃ k, m.index.length = 2 ^ k) (probes : Nat)
    {i : Nat} {firstDeleted : Option Nat} (hi : i + probes = m.index.length)
    (hpassed : ∀ l < i, Passed m key h (probe m.index.length h.toNat l))
    (hdeleted : ∀ d, firstDeleted = some d → ∃ j, j < i ∧ d = probe m.index.length h.toNat j ∧
      m.index[d]? = some .deleted) :
    FindResult m key h
      (mapIndexFindLoop m key h probes (probe m.index.length h.toNat i) firstDeleted) := by
  induction probes generalizing i firstDeleted with
  | zero => exact .full fun l hl => hpassed l (by omega)
  | succ probes ih =>
    have hpos : 0 < m.index.length := by omega
    have hlt := probe_lt hpos h.toNat i
    have hslot := getElem?_eq_getElem hlt
    have hnext : ∀ {firstDeleted' : Option Nat},
        Passed m key h (probe m.index.length h.toNat i) →
        (∀ d, firstDeleted' = some d → ∃ j, j < i + 1 ∧
          d = probe m.index.length h.toNat j ∧ m.index[d]? = some .deleted) →
        FindResult m key h (mapIndexFindLoop m key h probes
          ((probe m.index.length h.toNat i + 1) &&& (m.index.length - 1)) firstDeleted') := by
      intro firstDeleted' hpassed' hdeleted'
      rw [next_and_mask hcap]
      refine ih (by omega) (fun l hl => ?_) hdeleted'
      rcases Nat.lt_succ_iff_lt_or_eq.mp hl with hl | rfl
      · exact hpassed l hl
      · exact hpassed'
    have hkeep : ∀ d, firstDeleted = some d → ∃ j, j < i + 1 ∧
        d = probe m.index.length h.toNat j ∧ m.index[d]? = some .deleted := fun d hd => by
      obtain ⟨j, hj, hrest⟩ := hdeleted d hd
      exact ⟨j, by omega, hrest⟩
    rw [mapIndexFindLoop, indexCap]
    cases hread : m.index[probe m.index.length h.toNat i] with
    | empty =>
      rw [hread] at hslot
      rw [hslot]
      cases firstDeleted with
      | none => exact .free hslot hpassed (Nat.le_refl i) (.inl hslot)
      | some d =>
        obtain ⟨j, hj, rfl, hd⟩ := hdeleted d rfl
        exact .free hslot hpassed (Nat.le_of_lt hj) (.inr hd)
    | deleted =>
      rw [hread] at hslot
      rw [hslot]
      refine hnext ⟨by rw [hslot]; nofun, by rw [hslot]; nofun⟩ fun d hd => ?_
      cases firstDeleted with
      | none =>
        cases hd
        exact ⟨i, Nat.lt_succ_self i, rfl, hslot⟩
      | some d' => exact hkeep d hd
    | entry pos =>
      rw [hread] at hslot
      rw [hslot]
      dsimp only
      split
      · rename_i hmatch
        exact .found hslot hmatch
      · rename_i hmatch
        refine hnext ⟨by rw [hslot]; nofun, fun pos' hpos' => ?_⟩ hkeep
        rw [hslot] at hpos'
        cases hpos'
        exact Bool.eq_false_iff.mpr hmatch

theorem mapIndexFind_result (hcap : ∃ k, m.index.length = 2 ^ k) (key : List UInt8) (h : UInt64) :
    FindResult m key h (mapIndexFind m key h) := by
  have hpos : m.index.length ≠ 0 := by
    obtain ⟨k, hk⟩ := hcap
    rw [hk]
    exact Nat.pos_iff_ne_zero.mp (Nat.two_pow_pos k)
  rw [mapIndexFind, indexCap, if_neg hpos, hash_and_mask hcap]
  exact mapIndexFindLoop_result hcap _ (Nat.zero_add _) (fun l hl => absurd hl (Nat.not_lt_zero l))
    nofun

/-! ## searches of a map -/

theorem MapObj.hashAt_eq (he : m.entries[pos]? = some e) : m.hashAt pos = e.hash.toNat := by
  rw [hashAt, he]
  rfl

theorem entryMatches_iff {h : UInt64} (he : m.entries[pos]? = some e) :
    entryMatches m key h pos = true ↔ e.hash = h ∧ e.key = key := by
  rw [entryMatches, he, any_some, decide_eq_true_eq]

section
variable {m : MapObj V} (h : m.WF)
include h

theorem MapObj.WF.key_inj {p q : Nat} {a b : MapEntry V} (ha : m.entries[p]? = some a)
    (hb : m.entries[q]? = some b) (hla : a.live = true) (hlb : b.live = true)
    (hkey : a.key = b.key) : p = q := by
  obtain ⟨hp, rfl⟩ := List.getElem?_eq_some_iff.mp ha
  obtain ⟨hq, rfl⟩ := List.getElem?_eq_some_iff.mp hb
  have hpair := pairwise_iff_getElem.mp h.keys
  rcases Nat.lt_trichotomy p q with hlt | heq | hgt
  · exact absurd hkey (hpair p q hp hq hlt hla hlb)
  · exact heq
  · exact absurd hkey.symm (hpair q p hq hp hgt hlb hla)

/-- what a search finds: the live entry with the key, or a free slot its entry may take -/
theorem MapObj.WF.find (hcap : ∃ k, m.index.length = 2 ^ k) (key : List UInt8) :
    (∃ slot pos e, mapIndexFind m key (mapHashKey key) = (some slot, true) ∧
      m.index[slot]? = some (.entry pos) ∧ m.entries[pos]? = some e ∧ e.live = true ∧
      e.key = key) ∨
    (∀ e ∈ m.entries, e.live = true → e.key ≠ key) ∧ ∃ i, mapIndexFind m key (mapHashKey key) =
        (some (probe m.index.length (mapHashKey key).toNat i), false) ∧
      (m.index[probe m.index.length (mapHashKey key).toNat i]? = some .empty ∨
        m.index[probe m.index.length (mapHashKey key).toNat i]? = some .deleted) ∧
      ∀ j < i, m.index[probe m.index.length (mapHashKey key).toNat j]? ≠ some .empty := by
  have hpos : 0 < m.index.length := by
    obtain ⟨k, hk⟩ := hcap
    rw [hk]
    exact Nat.two_pow_pos k
  have hused : Probing.used m.index < m.index.length := by
    have h₁ := h.used
    have h₂ := h.half
    omega
  have hresult := mapIndexFind_result hcap key (mapHashKey key)
  generalize mapIndexFind m key (mapHashKey key) = result at hresult
  cases hresult with
  | @found slot pos hslot hmatch =>
    obtain ⟨e, he, hlive⟩ := h.indexed.sound slot pos hslot
    exact .inl ⟨slot, pos, e, rfl, hslot, he, hlive, ((entryMatches_iff he).mp hmatch).2⟩
  | @free i j hempty hpassed hle hfree =>
    refine .inr ⟨fun e he hlive hkey => ?_, j, rfl, hfree, fun l hl => (hpassed l (by omega)).1⟩
    obtain ⟨pos, hlt, rfl⟩ := mem_iff_getElem.mp he
    have hget := getElem?_eq_getElem hlt
    have hhash : m.entries[pos].hash = mapHashKey key := hkey ▸ h.hash _ he
    have hempty' : m.index[probe m.index.length (m.hashAt pos) i]? = some .empty := by
      rw [hashAt_eq hget, hhash]
      exact hempty
    obtain ⟨l, hl, hentry⟩ := h.indexed.reached ⟨_, hget, hlive⟩ hempty'
    rw [hashAt_eq hget, hhash] at hentry
    have hmatch := (hpassed l hl).2 pos hentry
    rw [(entryMatches_iff hget).mpr ⟨hhash, hkey⟩] at hmatch
    cases hmatch
  | full hpassed =>
    obtain ⟨i, hi, hempty, -⟩ := exists_first_empty hused (mapHashKey key).toNat
    exact absurd hempty (hpassed i hi).1

end

/-! ## lookup -/

theorem MapObj.mem_pairs {v : V} :
    (key, v) ∈ m.pairs ↔ ∃ e ∈ m.entries, e.live = true ∧ e.key = key ∧ e.value = v := by
  rw [pairs, List.mem_map]
  constructor
  · rintro ⟨e, he, heq⟩
    obtain ⟨he, hlive⟩ := mem_filter.mp he
    exact ⟨e, he, hlive, congrArg Prod.fst heq, congrArg Prod.snd heq⟩
  · rintro ⟨e, he, hlive, rfl, rfl⟩
    exact ⟨e, mem_filter.mpr ⟨he, hlive⟩, rfl⟩

theorem MapObj.mem_keys :
    key ∈ OrderedMap.keys m.pairs ↔ ∃ e ∈ m.entries, e.live = true ∧ e.key = key := by
  rw [OrderedMap.keys, List.mem_map]
  constructor
  · rintro ⟨⟨k, v⟩, hmem, rfl⟩
    obtain ⟨e, he, hlive, hkey, -⟩ := mem_pairs.mp hmem
    exact ⟨e, he, hlive, hkey⟩
  · rintro ⟨e, he, hlive, rfl⟩
    exact ⟨(e.key, e.value), mem_pairs.mpr ⟨e, he, hlive, rfl, rfl⟩, rfl⟩

theorem MapObj.WF.nodup (h : m.WF) : (OrderedMap.keys m.pairs).Nodup := by
  rw [OrderedMap.keys, pairs, List.map_map]
  refine pairwise_map.mpr (pairwise_filter.mpr ?_)
  exact h.keys.imp fun hne ha hb => hne ha hb

theorem MapObj.WF.lookup (h : m.WF) (he : m.entries[pos]? = some e) (hlive : e.live = true) :
    OrderedMap.lookup m.pairs e.key = some e.value := by
  cases hfind : OrderedMap.lookup m.pairs e.key with
  | none =>
    refine absurd (mem_keys.mpr ⟨e, mem_of_getElem? he, hlive, rfl⟩)
      (OrderedMap.lookup_eq_none_iff.mp hfind)
  | some v =>
    rw [OrderedMap.lookup, map_eq_some_iff] at hfind
    obtain ⟨⟨k, w⟩, hfind, rfl⟩ := hfind
    have hkey := find?_some hfind
    obtain ⟨e', he', hlive', rfl, rfl⟩ := mem_pairs.mp (mem_of_find?_eq_some hfind)
    obtain ⟨q, hq, rfl⟩ := mem_iff_getElem.mp he'
    have hget := getElem?_eq_getElem hq
    obtain rfl := h.key_inj hget he hlive' hlive (of_decide_eq_true hkey)
    rw [hget] at he
    rw [some.inj he]

theorem MapObj.WF.pscalMapFind (h : m.WF) (key : List UInt8) :
    pscalMapFind m key = OrderedMap.lookup m.pairs key := by
  have hnone : (∀ e ∈ m.entries, e.live = true → e.key ≠ key) →
      OrderedMap.lookup m.pairs key = none := fun hall =>
    OrderedMap.lookup_eq_none_iff.mpr fun hmem => by
      obtain ⟨e, he, hlive, hkey⟩ := mem_keys.mp hmem
      exact hall e he hlive hkey
  rcases h.cap with hnil | hcap
  · have hempty : m.entries = [] := by
      have hhalf := h.half
      rw [hnil, length_nil] at hhalf
      exact length_eq_zero_iff.mp (by omega)
    rw [hnone (by rw [hempty]; nofun), Pscal.pscalMapFind, mapIndexFind, indexCap, hnil]
    rfl
  · rw [Pscal.pscalMapFind]
    rcases h.find hcap key with ⟨slot, pos, e, hfind, hslot, he, hlive, rfl⟩ |
      ⟨hall, i, hfind, -, -⟩
    · rw [hfind]
      dsimp only
      rw [hslot]
      dsimp only
      rw [he, h.lookup he hlive]
      rfl
    · rw [hfind, hnone hall]

/-! ## writes -/

/-- `f` at the live entry with the key -/
def atKey (key : List UInt8) (f : MapEntry V → MapEntry V) (a : MapEntry V) : MapEntry V :=
  if a.live = true ∧ a.key = key then f a else a

section
variable {key : List UInt8} {f : MapEntry V → MapEntry V} (a : MapEntry V)

theorem atKey_key (hf : ∀ a, (f a).key = a.key) : (atKey key f a).key = a.key := by
  rw [atKey]
  split
  · exact hf a
  · rfl

theorem atKey_hash (hf : ∀ a, (f a).hash = a.hash) : (atKey key f a).hash = a.hash := by
  rw [atKey]
  split
  · exact hf a
  · rfl

end

theorem MapObj.WF.modify_eq (h : m.WF) (he : m.entries[pos]? = some e) (hlive : e.live = true)
    (f : MapEntry V → MapEntry V) : m.entries.modify pos f = m.entries.map (atKey e.key f) := by
  refine ext_getElem? fun p => ?_
  rw [getElem?_modify, getElem?_map]
  cases hp : m.entries[p]? with
  | none => rfl
  | some a =>
    show some (if pos = p then f a else a) = some (atKey e.key f a)
    by_cases heq : pos = p
    · subst heq
      rw [he] at hp
      cases hp
      rw [if_pos rfl, atKey, if_pos ⟨hlive, rfl⟩]
    · rw [if_neg heq, atKey, if_neg]
      rintro ⟨hlive', hkey⟩
      exact heq (h.key_inj he hp hlive hlive' hkey.symm)

theorem MapObj.hashAt_map {m' : MapObj V} {g : MapEntry V → MapEntry V}
    (hentries : m'.entries = m.entries.map g) (hg : ∀ a, (g a).hash = a.hash) (pos : Nat) :
    m'.hashAt pos = m.hashAt pos := by
  rw [hashAt, hashAt, hentries, getElem?_map, Option.map_map]
  congr 2
  funext a
  exact congrArg UInt64.toNat (hg a)

theorem MapObj.WF.update (h : m.WF) (he : m.entries[pos]? = some e) (hlive : e.live = true) (v : V)
    {m' : MapObj V}
    (hm' : m' = { m with entries := m.entries.modify pos fun a => { a with value := v } }) :
    m'.WF ∧ m'.pairs = OrderedMap.set m.pairs e.key v := by
  let g := atKey e.key fun a : MapEntry V => { a with value := v }
  have hentries : m'.entries = m.entries.map g := by
    rw [hm']
    exact h.modify_eq he hlive _
  have hkey : ∀ a, (g a).key = a.key := fun a => atKey_key a fun _ => rfl
  have hhash : ∀ a, (g a).hash = a.hash := fun a => atKey_hash a fun _ => rfl
  have hlive' : ∀ a, (g a).live = a.live := fun a => by
    show (atKey _ _ a).live = _
    rw [atKey]
    split <;> rfl
  have hpairs : m'.pairs = OrderedMap.set m.pairs e.key v := by
    have hmem : e.key ∈ OrderedMap.keys m.pairs :=
      mem_keys.mpr ⟨e, mem_of_getElem? he, hlive, rfl⟩
    rw [OrderedMap.set, if_pos hmem, pairs, pairs, hentries, List.filter_map, List.map_map,
      List.map_map]
    have hfilter : (MapEntry.live ∘ g) = (MapEntry.live : MapEntry V → Bool) := funext hlive'
    rw [hfilter]
    refine map_congr_left fun a ha => ?_
    have halive := (mem_filter.mp ha).2
    show ((g a).key, (g a).value) = if a.key = e.key then (a.key, v) else (a.key, a.value)
    rw [hkey]
    show (a.key, (atKey e.key _ a).value) = _
    rw [atKey]
    by_cases heq : a.key = e.key
    · rw [if_pos ⟨halive, heq⟩, if_pos heq]
    · rw [if_neg fun hand => heq hand.2, if_neg heq]
  have hlength : m'.entries.length = m.entries.length := by
    rw [hentries, length_map]
  refine ⟨?_, hpairs⟩
  exact {
    hash := fun a ha => by
      rw [hentries] at ha
      obtain ⟨b, hb, rfl⟩ := List.mem_map.mp ha
      rw [hhash, hkey]
      exact h.hash b hb
    keys := by
      rw [hentries, pairwise_map]
      refine h.keys.imp fun {a b} hne => ?_
      rw [hlive', hlive', hkey, hkey]
      exact hne
    count := by
      rw [hpairs, OrderedMap.set, if_pos (mem_keys.mpr ⟨e, mem_of_getElem? he, hlive, rfl⟩),
        length_map, ← h.count, hm']
    cap := by
      rw [hm']
      exact h.cap
    indexed := by
      have hindex : m'.index = m.index := by rw [hm']
      rw [hindex]
      refine h.indexed.congr (fun p => ?_) fun p _ => (hashAt_map hentries hhash p).symm
      rw [LiveAt, LiveAt, hentries, getElem?_map]
      constructor
      · rintro ⟨a, ha, hla⟩
        exact ⟨g a, by rw [ha]; rfl, (hlive' a).trans hla⟩
      · rintro ⟨b, hb, hlb⟩
        obtain ⟨a, ha, rfl⟩ := map_eq_some_iff.mp hb
        exact ⟨a, ha, (hlive' a).symm.trans hlb⟩
    used := by
      rw [hlength, hm']
      exact h.used
    half := by
      rw [hlength, hm']
      exact h.half
    fits := by
      rw [hlength, hm']
      exact h.fits }

theorem MapObj.WF.kill {m : MapObj V} (h : m.WF) {slot pos : Nat} {e : MapEntry V}
    (hslot : m.index[slot]? = some (.entry pos)) (he : m.entries[pos]? = some e)
    (hlive : e.live = true) (nil : V) {m' : MapObj V} (hm' : m' = { m with
      entries := m.entries.modify pos fun a => { a with live := false, value := nil }
      index := m.index.set slot .deleted
      liveCount := m.liveCount - 1 }) :
    m'.WF ∧ m'.pairs = OrderedMap.remove m.pairs e.key := by
  let g := atKey e.key fun a : MapEntry V => { a with live := false, value := nil }
  have hentries : m'.entries = m.entries.map g := by
    rw [hm']
    exact h.modify_eq he hlive _
  have hkey : ∀ a, (g a).key = a.key := fun a => atKey_key a fun _ => rfl
  have hhash : ∀ a, (g a).hash = a.hash := fun a => atKey_hash a fun _ => rfl
  have hlive' : ∀ a, (g a).live = true ↔ a.live = true ∧ a.key ≠ e.key := fun a => by
    show (atKey _ _ a).live = true ↔ _
    rw [atKey]
    split
    · rename_i hand
      exact ⟨fun hdead => absurd hdead Bool.false_ne_true, fun hne => absurd hand.2 hne.2⟩
    · rename_i hand
      exact ⟨fun hla => ⟨hla, fun heq => hand ⟨hla, heq⟩⟩, fun hne => hne.1⟩
  have hsame : ∀ a, (g a).live = true → g a = a := fun a hla => by
    have hne := ((hlive' a).mp hla).2
    exact if_neg fun hand => hne hand.2
  have hpairs : m'.pairs = OrderedMap.remove m.pairs e.key := by
    rw [OrderedMap.remove, pairs, pairs, hentries, List.filter_map, List.filter_map,
      List.filter_filter, List.map_map]
    have hfilter : (MapEntry.live ∘ g) =
        fun a => ((fun e' : List UInt8 × V => decide (e'.1 ≠ e.key)) ∘
          fun e : MapEntry V => (e.key, e.value)) a && a.live := by
      funext a
      rw [Bool.eq_iff_iff, Bool.and_eq_true]
      show (g a).live = true ↔ decide (a.key ≠ e.key) = true ∧ _
      rw [hlive', decide_eq_true_eq, and_comm]
    rw [hfilter]
    refine map_congr_left fun a ha => ?_
    have hla : (g a).live = true := by
      have := (mem_filter.mp ha).2
      rw [← congrFun hfilter a] at this
      exact this
    show ((g a).key, (g a).value) = _
    rw [hsame a hla]
  have hlength : m'.entries.length = m.entries.length := by
    rw [hentries, length_map]
  have hdrop := h.indexed.drop hslot
  refine ⟨?_, hpairs⟩
  exact {
    hash := fun a ha => by
      rw [hentries] at ha
      obtain ⟨b, hb, rfl⟩ := List.mem_map.mp ha
      rw [hhash, hkey]
      exact h.hash b hb
    keys := by
      rw [hentries, pairwise_map]
      refine h.keys.imp fun {a b} hne hla hlb => ?_
      rw [hkey, hkey]
      exact hne ((hlive' a).mp hla).1 ((hlive' b).mp hlb).1
    count := by
      rw [hpairs, OrderedMap.length_remove h.nodup
        (mem_keys.mpr ⟨e, mem_of_getElem? he, hlive, rfl⟩), ← h.count, hm']
    cap := by
      rw [hm']
      refine h.cap.imp (fun hnil => ?_) fun hcap =>
        hcap.imp fun k hk => by rw [List.length_set, hk]
      rw [hnil]
      rfl
    indexed := by
      have hindex : m'.index = m.index.set slot .deleted := by rw [hm']
      rw [hindex]
      refine hdrop.congr (fun p => ?_) fun p _ => (hashAt_map hentries hhash p).symm
      rw [LiveAt, LiveAt, hentries, getElem?_map]
      constructor
      · rintro ⟨⟨a, ha, hla⟩, hne⟩
        refine ⟨g a, by rw [ha]; rfl, (hlive' a).mpr ⟨hla, fun heq => hne ?_⟩⟩
        exact h.key_inj ha he hla hlive heq
      · rintro ⟨b, hb, hlb⟩
        obtain ⟨a, ha, rfl⟩ := map_eq_some_iff.mp hb
        obtain ⟨hla, hne⟩ := (hlive' a).mp hlb
        refine ⟨⟨a, ha, hla⟩, ?_⟩
        rintro rfl
        rw [ha] at he
        exact hne (congrArg MapEntry.key (some.inj he))
    used := by
      rw [hlength, hm']
      exact Nat.le_trans (used_set_of_used hslot (by simp) _) h.used
    half := by
      rw [hlength, hm']
      show _ ≤ (m.index.set slot .deleted).length
      rw [List.length_set]
      exact h.half
    fits := by
      rw [hlength, hm']
      exact h.fits }

theorem MapObj.WF.append {m : MapObj V} (h : m.WF) {key : List UInt8} {i : Nat} {v : V}
    (hnew : ∀ e ∈ m.entries, e.live = true → e.key ≠ key)
    (hroom : (m.entries.length + 1) * 2 ≤ m.index.length)
    (hslot : m.index[probe m.index.length (mapHashKey key).toNat i]? = some .empty ∨
      m.index[probe m.index.length (mapHashKey key).toNat i]? = some .deleted)
    (hpath : ∀ j < i, m.index[probe m.index.length (mapHashKey key).toNat j]? ≠ some .empty)
    {m' : MapObj V} (hm' : m' = mapAppend m (probe m.index.length (mapHashKey key).toNat i)
      { key := key, hash := mapHashKey key, value := v, live := true }) :
    m'.WF ∧ m'.pairs = OrderedMap.set m.pairs key v := by
  let e : MapEntry V := { key := key, hash := mapHashKey key, value := v, live := true }
  have hentries : m'.entries = m.entries ++ [e] := by rw [hm', mapAppend]
  have hindex : m'.index =
      m.index.set (probe m.index.length (mapHashKey key).toNat i) (.entry m.entries.length) := by
    rw [hm', mapAppend]
    rfl
  have hlength : m'.entries.length = m.entries.length + 1 := by
    rw [hentries, length_append]
    rfl
  have hold : ∀ p < m.entries.length, m'.entries[p]? = m.entries[p]? := fun p hp => by
    rw [hentries, getElem?_append_left hp]
  have hlast : m'.entries[m.entries.length]? = some e := by
    rw [hentries]
    exact getElem?_concat_length
  have hpairs : m'.pairs = OrderedMap.set m.pairs key v := by
    have hmem : key ∉ OrderedMap.keys m.pairs := fun hmem => by
      obtain ⟨a, ha, hlive, hkey⟩ := mem_keys.mp hmem
      exact hnew a ha hlive hkey
    rw [OrderedMap.set, if_neg hmem, pairs, pairs, hentries, filter_append, map_append]
    rfl
  have hindexed : Indexed m.index m'.hashAt m.LiveAt :=
    h.indexed.congr (fun _ => Iff.rfl) fun p hp => by
      obtain ⟨a, ha, -⟩ := hp
      rw [hashAt, hashAt, hold p (List.getElem?_eq_some_iff.mp ha).1]
  have hhash : m'.hashAt m.entries.length = (mapHashKey key).toNat := hashAt_eq hlast
  have hplace := hindexed.place (p := m.entries.length) (i := i)
    (fun hlive => hlive.elim fun a ha =>
      absurd (List.getElem?_eq_some_iff.mp ha.1).1 (Nat.lt_irrefl _))
    (by rw [hhash]; exact hslot) (by rw [hhash]; exact hpath)
  rw [hhash] at hplace
  refine ⟨?_, hpairs⟩
  exact {
    hash := fun a ha => by
      rw [hentries] at ha
      rcases mem_append.mp ha with ha | ha
      · exact h.hash a ha
      · rw [mem_singleton.mp ha]
    keys := by
      rw [hentries]
      refine pairwise_append.mpr ⟨h.keys, pairwise_singleton _ _, fun a ha b hb => ?_⟩
      rw [mem_singleton.mp hb]
      exact fun hlive _ => hnew a ha hlive
    count := by
      have hcount : m'.liveCount = m.liveCount + 1 := by rw [hm', mapAppend]
      rw [hcount, h.count, pairs, pairs, hentries, filter_append, map_append, length_append]
      rfl
    cap := by
      refine .inr ?_
      rw [hindex, List.length_set]
      refine h.cap.resolve_left fun hnil => ?_
      rw [hnil, length_nil] at hroom
      omega
    indexed := by
      rw [hindex]
      refine hplace.congr (fun p => ?_) fun _ _ => rfl
      rcases Nat.lt_trichotomy p m.entries.length with hlt | rfl | hgt
      · rw [LiveAt, LiveAt, hold p hlt]
        exact ⟨fun hp => hp.resolve_right (Nat.ne_of_lt hlt), .inl⟩
      · exact ⟨fun _ => ⟨e, hlast, rfl⟩, fun _ => .inr rfl⟩
      · constructor
        · rintro (⟨a, ha, -⟩ | rfl)
          · exact absurd (List.getElem?_eq_some_iff.mp ha).1 (by omega)
          · exact absurd hgt (Nat.lt_irrefl _)
        · rintro ⟨a, ha, -⟩
          exact absurd (List.getElem?_eq_some_iff.mp ha).1 (by omega)
    used := by
      rw [hindex, hlength]
      exact Nat.le_trans (used_set_le _ _ _) (Nat.add_le_add_right h.used 1)
    half := by
      rw [hindex, hlength, List.length_set]
      exact hroom
    fits := by
      have hfits := h.fits
      rw [hlength, hm', mapAppend, entryCount]
      dsimp only
      split
      · split <;> omega
      · omega }

/-! ## rehashing -/

theorem le_growCap {need : Nat} (rounds : Nat) (h : need ≤ cap * 2 ^ rounds) :
    need ≤ growCap need rounds cap := by
  induction rounds generalizing cap with
  | zero =>
    rw [Nat.pow_zero, Nat.mul_one] at h
    exact h
  | succ rounds ih =>
    rw [growCap]
    split
    · refine ih ?_
      rw [Nat.pow_succ, Nat.mul_comm _ 2, ← Nat.mul_assoc] at h
      exact h
    · rename_i hle
      omega

theorem growCap_two_pow (need rounds k : Nat) : ∃ k', growCap need rounds (2 ^ k) = 2 ^ k' := by
  induction rounds generalizing k with
  | zero => exact ⟨k, rfl⟩
  | succ rounds ih =>
    rw [growCap]
    split
    · rw [← Nat.pow_succ]
      exact ih (k + 1)
    · exact ⟨k, rfl⟩

theorem mapCap_spec (liveCount : Nat) :
    (liveCount + 1) * 2 ≤ mapCap liveCount ∧ ∃ k, mapCap liveCount = 2 ^ k := by
  constructor
  · refine le_growCap _ ?_
    have hlt := Nat.lt_two_pow_self (n := (liveCount + 1) * 2)
    omega
  · exact growCap_two_pow _ _ 3

theorem mapPlace_eq (pos mask probes slot : Nat) (index : List Slot) :
    mapPlace pos mask probes slot index = placeLoop (.entry pos) mask probes slot index := by
  induction probes generalizing slot with
  | zero => rfl
  | succ probes ih => rw [mapPlace, placeLoop, ih]

theorem mapReindex_spec (hcap : ∃ k, cap = 2 ^ k) (hash : Nat → Nat) (entries : List (MapEntry V))
    {index : List Slot} (hlength : index.length = cap)
    (hhash : ∀ i e, entries[i]? = some e → hash (pos + i) = e.hash.toNat)
    (hroom : pos + entries.length < cap) (hused : used index ≤ pos)
    (h : Indexed index hash fun p => p < pos) :
    ∃ index', mapReindex cap entries pos index = some index' ∧ index'.length = cap ∧
      used index' ≤ pos + entries.length ∧
      Indexed index' hash fun p => p < pos + entries.length := by
  induction entries generalizing pos index with
  | nil => exact ⟨index, rfl, hlength, hused, h⟩
  | cons e entries ih =>
    subst hlength
    rw [length_cons] at hroom ⊢
    have hpos : hash pos = e.hash.toNat := hhash 0 e rfl
    obtain ⟨l, hplace, hempty, hpath⟩ := placeLoop_spec hcap e.hash.toNat
      (.entry pos) (by omega) index.length (Nat.zero_add _) fun j hj => absurd hj (Nat.not_lt_zero j)
    rw [← hpos] at hempty hpath
    have hnext := h.place (p := pos) (i := l) (Nat.lt_irrefl pos) (.inl hempty) hpath
    rw [hpos] at hnext
    rw [mapReindex, mapPlace_eq, hash_and_mask hcap, hplace, bind_some,
      show pos + (entries.length + 1) = pos + 1 + entries.length by omega]
    refine ih (List.length_set) (fun i a ha => ?_) (by omega)
      (Nat.le_trans (used_set_le _ _ _) (by omega)) (hnext.congr (fun p => ?_) fun _ _ => rfl)
    · rw [show pos + 1 + i = pos + (i + 1) by omega]
      exact hhash (i + 1) a ha
    · omega

theorem MapObj.WF.rehash (h : m.WF) (hcap : ∃ k, cap = 2 ^ k) (hroom : (m.liveCount + 1) * 2 ≤ cap)
    : ∃ m', mapRehash m cap = some m' ∧ m'.WF ∧ m'.pairs = m.pairs ∧ m'.index.length = cap ∧
      m'.valueType = m.valueType ∧ m'.entries.length = m.liveCount := by
  let entries := m.entries.filter (·.live)
  have hlength : entries.length = m.liveCount := by
    rw [h.count, pairs, length_map]
  have hempty : Probing.used (replicate cap (Slot.empty : Slot)) = 0 := used_replicate cap
  obtain ⟨index, hindex, hindexLength, hused, hindexed⟩ := mapReindex_spec hcap
    (fun pos => ((entries[pos]?).map (·.hash.toNat)).getD 0) entries length_replicate (fun i e he => by rw [Nat.zero_add, he]; rfl) (by omega)
    (Nat.le_of_eq hempty)
    ((indexed_replicate cap _).congr (fun p => ⟨False.elim, Nat.not_lt_zero p⟩) fun _ _ => rfl)
  rw [Nat.zero_add] at hused hindexed
  have hlive : ∀ e ∈ entries, e.live = true := fun e he => (mem_filter.mp he).2
  have hpairs : ({ m with entries := entries, index := index } : MapObj V).pairs = m.pairs := by
    show (entries.filter (·.live)).map _ = (m.entries.filter (·.live)).map _
    rw [filter_eq_self.mpr hlive]
  refine ⟨{ m with entries := entries, index := index }, ?_, ?_, hpairs, hindexLength, rfl,
    hlength⟩
  · rw [mapRehash, hindex]
    rfl
  · exact {
      hash := fun e he => h.hash e (mem_filter.mp he).1
      keys := h.keys.sublist filter_sublist
      count := by
        rw [hpairs]
        exact h.count
      cap := .inr (by
        show ∃ k, index.length = _
        rwa [hindexLength])
      indexed := hindexed.congr
        (fun p => ⟨fun hp => ⟨entries[p], getElem?_eq_getElem hp, hlive _ (getElem_mem hp)⟩,
          fun ⟨e, he, _⟩ => (List.getElem?_eq_some_iff.mp he).1⟩) fun _ _ => rfl
      used := hused
      half := by
        show entries.length * 2 ≤ index.length
        omega
      fits := Nat.le_trans (length_filter_le _ _) h.fits }

/-! ## the operations -/

theorem MapObj.wf_create (valueType : VarType) : (pscalMapObjCreate valueType : MapObj V).WF where
  hash _ he := nomatch he
  keys := List.Pairwise.nil
  count := rfl
  cap := .inl rfl
  indexed := ⟨nofun, nofun, fun _ ⟨_, he, _⟩ => absurd he nofun, nofun⟩
  used := Nat.le_refl 0
  half := Nat.le_refl 0
  fits := Nat.le_refl 0

theorem MapObj.WF.find_empty (h : m.WF) (hnil : m.index = []) (key : List UInt8) :
    mapIndexFind m key (mapHashKey key) = (none, false) ∧ m.entries = [] := by
  constructor
  · rw [mapIndexFind, indexCap, hnil]
    rfl
  · have hhalf := h.half
    rw [hnil, length_nil] at hhalf
    exact length_eq_zero_iff.mp (by omega)

section
variable {m : MapObj V} (h : m.WF) (ops : ValueOps V) (key : List UInt8)
include h

theorem pscalMapSet_new (value : V) (hnew : ∀ e ∈ m.entries, e.live = true → e.key ≠ key) :
    ∃ m', ((mapRehash m (mapCap m.liveCount)).bind fun m =>
        (mapIndexFind m key (mapHashKey key)).1.map fun slot => mapAppend m slot
          { key := key, hash := mapHashKey key, value := value, live := true }) = some m' ∧
      m'.WF ∧ m'.valueType = m.valueType ∧ m'.pairs = OrderedMap.set m.pairs key value := by
  obtain ⟨hroom, hcap⟩ := mapCap_spec m.liveCount
  obtain ⟨m₁, hrehash, hwf, hpairs, hlength, htype, hcount⟩ := h.rehash hcap hroom
  have hkey : key ∉ OrderedMap.keys m₁.pairs := by
    rw [hpairs]
    intro hmem
    obtain ⟨e, he, hlive, hkey⟩ := mem_keys.mp hmem
    exact hnew e he hlive hkey
  rw [hrehash, bind_some]
  rcases hwf.find (by rwa [hlength]) key with ⟨slot, pos, e, -, -, he, hlive, hekey⟩ |
    ⟨hnew₁, i, hfind, hslot, hpath⟩
  · exact absurd (mem_keys.mpr ⟨e, mem_of_getElem? he, hlive, hekey⟩) hkey
  · rw [hfind]
    obtain ⟨hwf', hpairs'⟩ := hwf.append (v := value) hnew₁ (by omega) hslot hpath rfl
    exact ⟨_, rfl, hwf', htype, hpairs ▸ hpairs'⟩

theorem pscalMapSet_spec (value : V) : ∃ m', pscalMapSet ops m key value = some m' ∧ m'.WF ∧
    m'.valueType = m.valueType ∧
    m'.pairs = OrderedMap.set m.pairs key (ops.mapCoerceStored m.valueType value) := by
  rw [pscalMapSet]
  dsimp only
  rcases h.cap with hnil | hcap
  · obtain ⟨hfind, hempty⟩ := h.find_empty hnil key
    rw [hfind]
    dsimp only
    have hzero : m.indexCap = 0 := by
      rw [indexCap, hnil]
      rfl
    rw [if_pos (.inl hzero)]
    exact pscalMapSet_new h key _ (by rw [hempty]; nofun)
  · rcases h.find hcap key with ⟨slot, pos, e, hfind, hslot, he, hlive, rfl⟩ |
      ⟨hnew, i, hfind, hslot, hpath⟩
    · rw [hfind]
      dsimp only
      rw [hslot]
      obtain ⟨hwf, hpairs⟩ := h.update he hlive (ops.mapCoerceStored m.valueType value) rfl
      exact ⟨_, rfl, hwf, rfl, hpairs⟩
    · rw [hfind]
      dsimp only
      split
      · exact pscalMapSet_new h key _ hnew
      · rename_i hroom
        obtain ⟨-, hroom⟩ := not_or.mp hroom
        rw [indexCap, entryCount] at hroom
        obtain ⟨hwf, hpairs⟩ := h.append (v := ops.mapCoerceStored m.valueType value) hnew
          (by omega) hslot hpath rfl
        exact ⟨_, rfl, hwf, rfl, hpairs⟩

theorem pscalMapRemove_spec : ∃ m' found, pscalMapRemove ops m key = some (m', found) ∧ m'.WF ∧
    m'.valueType = m.valueType ∧ m'.pairs = OrderedMap.remove m.pairs key ∧
    (found = true ↔ key ∈ OrderedMap.keys m.pairs) := by
  have habsent : (∀ e ∈ m.entries, e.live = true → e.key ≠ key) →
      key ∉ OrderedMap.keys m.pairs ∧ OrderedMap.remove m.pairs key = m.pairs := by
    intro hnew
    have hkey : key ∉ OrderedMap.keys m.pairs := fun hmem => by
      obtain ⟨e, he, hlive, hkey⟩ := mem_keys.mp hmem
      exact hnew e he hlive hkey
    refine ⟨hkey, filter_eq_self.mpr fun e he => decide_eq_true fun heq => hkey ?_⟩
    exact List.mem_map.mpr ⟨e, he, heq⟩
  have hmiss : mapIndexFind m key (mapHashKey key) = (none, false) ∨
      (∃ slot, mapIndexFind m key (mapHashKey key) = (some slot, false)) →
      pscalMapRemove ops m key = some (m, false) := by
    rintro (hfind | ⟨slot, hfind⟩)
    · rw [pscalMapRemove, hfind]
    · rw [pscalMapRemove, hfind]
  rcases h.cap with hnil | hcap
  · obtain ⟨hfind, hempty⟩ := h.find_empty hnil key
    obtain ⟨hkey, hsame⟩ := habsent (by rw [hempty]; nofun)
    exact ⟨m, false, hmiss (.inl hfind), h, rfl, hsame.symm, nofun, fun hmem => absurd hmem hkey⟩
  · rcases h.find hcap key with ⟨slot, pos, e, hfind, hslot, he, hlive, rfl⟩ |
      ⟨hnew, i, hfind, -, -⟩
    · have hkey : e.key ∈ OrderedMap.keys m.pairs :=
        mem_keys.mpr ⟨e, mem_of_getElem? he, hlive, rfl⟩
      obtain ⟨hwf, hpairs⟩ := h.kill hslot he hlive ops.makeNil rfl
      rw [pscalMapRemove, hfind]
      dsimp only
      rw [hslot]
      dsimp only
      split
      · obtain ⟨hroom, hcap'⟩ := mapCap_spec (m.liveCount - 1)
        obtain ⟨m', hrehash, hwf', hpairs', -, htype, -⟩ := hwf.rehash hcap' hroom
        exact ⟨m', true, by rw [hrehash]; rfl, hwf', htype, hpairs'.trans hpairs,
          fun _ => hkey, fun _ => rfl⟩
      · exact ⟨_, true, rfl, hwf, rfl, hpairs, fun _ => hkey, fun _ => rfl⟩
    · obtain ⟨hkey, hsame⟩ := habsent hnew
      exact ⟨m, false, hmiss (.inr ⟨_, hfind⟩), h, rfl, hsame.symm, nofun,
        fun hmem => absurd hmem hkey⟩

end

theorem foldlM_pscalMapSet (ops : ValueOps V) (entries : List (MapEntry V)) (h : m.WF)
    (hnodup : (entries.map (·.key)).Nodup) (hfresh : ∀ e ∈ entries, e.key ∉ OrderedMap.keys m.pairs)
    : ∃ m', entries.foldlM (fun m e => pscalMapSet ops m e.key (ops.pscalMapCopyValue e.value)) m =
        some m' ∧ m'.WF ∧ m'.valueType = m.valueType ∧
      m'.pairs = m.pairs ++ entries.map fun e =>
        (e.key, ops.mapCoerceStored m.valueType (ops.pscalMapCopyValue e.value)) := by
  induction entries generalizing m with
  | nil => exact ⟨m, rfl, h, rfl, (append_nil _).symm⟩
  | cons e entries ih =>
    obtain ⟨hnot, hnodup⟩ := nodup_cons.mp hnodup
    obtain ⟨m₁, hset, hwf, htype, hpairs⟩ :=
      pscalMapSet_spec h ops e.key (ops.pscalMapCopyValue e.value)
    have hnew := hfresh e mem_cons_self
    rw [OrderedMap.set, if_neg hnew] at hpairs
    have hfresh₁ : ∀ a ∈ entries, a.key ∉ OrderedMap.keys m₁.pairs := by
      intro a ha hmem
      rw [hpairs, OrderedMap.keys, map_append, mem_append] at hmem
      rcases hmem with hmem | hmem
      · exact hfresh a (mem_cons_of_mem _ ha) hmem
      · have hkey : a.key = e.key := mem_singleton.mp hmem
        exact hnot (List.mem_map.mpr ⟨a, ha, hkey⟩)
    obtain ⟨m', hfold, hwf', htype', hpairs'⟩ := ih hwf hnodup hfresh₁
    refine ⟨m', ?_, hwf', htype'.trans htype, ?_⟩
    · rw [foldlM_cons, hset]
      exact hfold
    · rw [hpairs', hpairs, htype, append_assoc]
      rfl

theorem pscalMapClone_spec (h : m.WF) (ops : ValueOps V) :
    ∃ m', pscalMapClone ops m = some m' ∧ m'.WF ∧ m'.valueType = m.valueType ∧
      m'.pairs = OrderedMap.mapValues
        (fun v => ops.mapCoerceStored m.valueType (ops.pscalMapCopyValue v)) m.pairs := by
  have hnodup : ((m.entries.filter (·.live)).map (·.key)).Nodup := by
    have hkeys := h.nodup
    rw [OrderedMap.keys, pairs, List.map_map] at hkeys
    exact hkeys
  obtain ⟨m', hfold, hwf, htype, hpairs⟩ := foldlM_pscalMapSet ops (m.entries.filter (·.live))
    (wf_create m.valueType) hnodup
    fun _ _ hmem => absurd hmem not_mem_nil
  refine ⟨m', hfold, hwf, htype, ?_⟩
  rw [hpairs, OrderedMap.mapValues, pairs, pairs, List.map_map]
  rfl

/-! ## runs -/

def MapOp.toOp (ops : ValueOps V) (valueType : VarType) : MapOp V → OrderedMap.Op (List UInt8) V
  | .set key value => .set key (ops.mapCoerceStored valueType value)
  | .remove key => .remove key
  | .clone => .update fun v => ops.mapCoerceStored valueType (ops.pscalMapCopyValue v)

theorem MapOp.apply_spec (h : m.WF) (ops : ValueOps V) (op : MapOp V) :
    ∃ m', op.apply ops m = some m' ∧ m'.WF ∧ m'.valueType = m.valueType ∧
      m'.pairs = (op.toOp ops m.valueType).apply m.pairs := by
  cases op with
  | set key value => exact pscalMapSet_spec h ops key value
  | remove key =>
    obtain ⟨m', found, hremove, hwf, htype, hpairs, -⟩ := pscalMapRemove_spec h ops key
    exact ⟨m', by rw [MapOp.apply, hremove]; rfl, hwf, htype, hpairs⟩
  | clone => exact pscalMapClone_spec h ops

theorem mapRun_spec (ops : ValueOps V) (valueType : VarType) (past : List (MapOp V)) :
    ∃ m, mapRun ops valueType past = some m ∧ m.WF ∧ m.valueType = valueType ∧
      m.pairs = OrderedMap.content (past.map (MapOp.toOp ops valueType)) := by
  induction past with
  | nil => exact ⟨_, rfl, wf_create valueType, rfl, rfl⟩
  | cons op past ih =>
    obtain ⟨m, hrun, hwf, htype, hpairs⟩ := ih
    obtain ⟨m', happly, hwf', htype', hpairs'⟩ := op.apply_spec hwf ops
    refine ⟨m', ?_, hwf', htype'.trans htype, ?_⟩
    · rw [mapRun, hrun]
      exact happly
    · rw [hpairs', hpairs, htype]
      rfl

/-- a map is the insertion-ordered map of its history -/
structure MapCorrect (history : List (OrderedMap.Op (List UInt8) V)) (m : MapObj V) : Prop where
  content : m.pairs = OrderedMap.content history
  lookup : ∀ key, pscalMapFind m key = OrderedMap.lastStored history key
  count : m.liveCount = (OrderedMap.keys m.pairs).length
  nodup : (OrderedMap.keys m.pairs).Nodup
  order : (OrderedMap.keys m.pairs).Pairwise (OrderedMap.Earlier history)
  once : ∀ pos, m.LiveAt pos → ∃! slot : Nat, m.index[slot]? = some (.entry pos)
  sound : ∀ slot pos : Nat, m.index[slot]? = some (.entry pos) → m.LiveAt pos
  neverUsed : m.index ≠ [] → ∃ slot : Nat, m.index[slot]? = some .empty

/-- Every call of every history returns, and the map is the ordered map of that history. -/
theorem mapRun_correct (ops : ValueOps V) (valueType : VarType) (past : List (MapOp V)) :
    ∃ m, mapRun ops valueType past = some m ∧
      MapCorrect (past.map (MapOp.toOp ops valueType)) m := by
  obtain ⟨m, hrun, hwf, -, hpairs⟩ := mapRun_spec ops valueType past
  refine ⟨m, hrun, ?_⟩
  exact {
    content := hpairs
    lookup := fun key => by
      rw [hwf.pscalMapFind, hpairs, OrderedMap.lookup_content]
    count := by
      rw [OrderedMap.length_keys]
      exact hwf.count
    nodup := hwf.nodup
    order := by
      rw [hpairs]
      exact OrderedMap.order_content _
    once := fun pos hpos => by
      obtain ⟨slot, hslot⟩ := hwf.indexed.complete pos hpos
      exact ⟨slot, hslot, fun slot' hslot' => hwf.indexed.unique slot' slot pos hslot' hslot⟩
    sound := hwf.indexed.sound
    neverUsed := fun hne => by
      have hpos := length_pos_iff.mpr hne
      have hused := hwf.used
      have hhalf := hwf.half
      exact exists_empty (by omega) }

end Pscal
