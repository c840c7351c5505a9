import Pscal.Cache.SectionsSpec

/-!
# Values with shell functions are read back

A shell function in a value is a chunk with constants of its own.

* `CacheValue.Functions`, `CacheValue.Reloaded`  the functions in a value, and a value with other
  functions in their places;
* `SameValue.writePayload_eq`  what a value comes back as is written as the same bytes;
* `CachedChunk.Storable`, `SameChunk`  which chunks are stored, and what they come back as;
* `readsBack_function`, `readsBack_stored`  functions and values of any depth.
-/

namespace Pscal

open Wire Wire.Reader List Option

/-! ## the functions in a value -/

section
variable {σ κ : Type} {ops : CodecOps σ κ}

def CodecOps.withoutFunctions (ops : CodecOps σ κ) : CodecOps σ κ :=
  { ops with writeFunction := fun _ => none }

/-- `P` holds of every function in a value, with the levels of nesting that are left in it -/
def CacheValue.Functions (P : Nat → κ → Prop) : Nat → CacheValue κ → Prop
  | 0, _ => False
  | levels + 1, .array _ _ _ elements => ∀ v ∈ elements, v.Functions P levels
  | levels + 1, .map _ entries => ∀ e ∈ entries, e.2.Functions P levels
  | levels + 1, .pointer (some (.function (some fn))) => P levels fn
  | _ + 1, _ => True

/-- the same value with functions that are each related by `R` -/
def CacheValue.Reloaded (R : Nat → κ → κ → Prop) : Nat → CacheValue κ → CacheValue κ → Prop
  | 0, _, _ => False
  | levels + 1, .array elementType isDynamic bounds elements, w =>
    ∃ elements', List.Forall₂ (Reloaded R levels) elements elements' ∧
      w = .array elementType isDynamic bounds elements'
  | levels + 1, .map valueType entries, w =>
    ∃ entries', List.Forall₂ (fun e e' => e.1 = e'.1 ∧ Reloaded R levels e.2 e'.2) entries
      entries' ∧ w = .map valueType entries'
  | levels + 1, .pointer (some (.function (some fn))), w =>
    ∃ fn', R levels fn fn' ∧ w = .pointer (some (.function (some fn')))
  | _ + 1, v, w => w = v

def CacheValue.isLeaf : CacheValue κ → Bool
  | .array _ _ _ _ | .map _ _ | .pointer (some (.function (some _))) => false
  | _ => true

variable {R : Nat → κ → κ → Prop} {v w : CacheValue κ} {vs ws : List (CacheValue κ)}
  {es : List (Bytes × CacheValue κ)} {α β : Type} {bs p : Bytes}

variable {levels : Nat}

/-- what a value is reloaded as, one level at a time -/
theorem CacheValue.Reloaded.invert {motive : CacheValue κ → CacheValue κ → Prop}
    (h : v.Reloaded R (levels + 1) w) (leaf : ∀ v, v.isLeaf = true → motive v v)
    (array : ∀ t d b vs ws, Forall₂ (Reloaded R levels) vs ws → motive (.array t d b vs)
      (.array t d b ws))
    (map : ∀ t es es', Forall₂ (fun e e' => e.1 = e'.1 ∧ Reloaded R levels e.2 e'.2) es es' →
      motive (.map t es) (.map t es'))
    (function : ∀ f f', R levels f f' → motive (.pointer (some (.function (some f)))) (.pointer
      (some (.function (some f'))))) : motive v w := by
  cases v with
  | array t d b vs =>
    obtain ⟨ws, hws, rfl⟩ := h
    exact array t d b vs ws hws
  | map t es =>
    obtain ⟨es', hes, rfl⟩ := h
    exact map t es es' hes
  | pointer obj =>
    rcases obj with _ | _ | ⟨_ | f⟩ | _ | _
    case some.function.some =>
      obtain ⟨f', hf, rfl⟩ := h
      exact function f f' hf
    all_goals
      obtain rfl := h
      exact leaf _ rfl
  | _ =>
    obtain rfl := h
    exact leaf _ rfl

theorem CacheValue.Reloaded.type_eq (h : v.Reloaded R levels w) : w.type = v.type := by
  cases levels with
  | zero => exact False.elim h
  | succ levels =>
    exact CacheValue.Reloaded.invert (motive := fun v w => w.type = v.type) h (fun _ _ => rfl)
      (fun _ _ _ _ _ _ => rfl) (fun _ _ _ _ => rfl) fun _ _ _ => rfl

theorem writeValues_congr (ops : CodecOps σ κ) (n : Nat)
    (h : Forall₂ (fun v w => w.type = v.type ∧ writePayload ops w = writePayload ops v) vs ws) :
    writeValues ops n ws = writeValues ops n vs := by
  induction h generalizing n with
  | nil => rfl
  | cons h _ ih =>
    cases n with
    | zero => rfl
    | succ n => rw [writeValues, writeValues, h.1, h.2, ih]

theorem writeEntries_congr (ops : CodecOps σ κ) {es' : List (Bytes × CacheValue κ)}
    (h : Forall₂ (fun e e' => e.1 = e'.1 ∧ e'.2.type = e.2.type ∧ writePayload ops e'.2 =
      writePayload ops e.2) es es') : writeEntries ops es' = writeEntries ops es := by
  induction h with
  | nil => rfl
  | @cons e e' es es' h _ ih =>
    obtain ⟨key, v⟩ := e
    obtain ⟨key', v'⟩ := e'
    obtain ⟨rfl, htype, hpayload⟩ := h
    rw [writeEntries, writeEntries, htype, hpayload, ih]

theorem CacheValue.Reloaded.writePayload_eq
    (hR : ∀ l f f', R l f f' → ops.writeFunction f' = ops.writeFunction f)
    (h : v.Reloaded R levels w) : writePayload ops w = writePayload ops v := by
  induction levels generalizing v w with
  | zero => exact False.elim h
  | succ levels ih =>
    refine CacheValue.Reloaded.invert (motive := fun v w => writePayload ops w = writePayload ops v) h
      (fun _ _ => rfl) ?_ ?_ ?_
    · intro t d b vs ws hsame
      have hcells := fun n => writeValues_congr ops n (hsame.imp fun _ _ hv => ⟨hv.type_eq, ih hv⟩)
      simp only [writePayload, hcells]
    · intro t es es' hsame
      have hcells := writeEntries_congr ops (hsame.imp fun _ _ he => ⟨he.1, he.2.type_eq, ih he.2⟩)
      simp only [writePayload, hcells, hsame.length_eq]
    · intro f f' hf
      simp only [writePayload, writePointerValue, bind_eq_bind, bind_some, hR levels f f' hf]

theorem writeValue_congr (htype : w.type = v.type) (h : writePayload ops w = writePayload ops v) :
    writeValue ops w = writeValue ops v := by
  rw [writeValue, writeValue, h, htype]

theorem mapCoerceStored_withoutFunctions (want : UInt32) (v : CacheValue κ) :
    mapCoerceStored ops.withoutFunctions want v = mapCoerceStored ops want v := by
  cases v with
  | scalar s => rfl
  | _ => rfl

theorem CacheValue.Reloaded.coerced {want : UInt32} (h : v.Reloaded R levels w)
    (hv : mapCoerceStored ops want v = v) : mapCoerceStored ops want w = w := by
  cases levels with
  | zero => exact False.elim h
  | succ levels =>
    exact CacheValue.Reloaded.invert
      (motive := fun v w => mapCoerceStored ops want v = v → mapCoerceStored ops want w = w) h
      (fun _ _ hv => hv) (fun _ _ _ _ _ _ _ => rfl) (fun _ _ _ _ _ => rfl) (fun _ _ _ _ => rfl) hv

theorem CacheValue.isLeaf.storable (hleaf : v.isLeaf = true)
    (hv : v.Storable ops.withoutFunctions (levels + 1)) : v.Storable ops (levels + 1) := by
  cases v with
  | array t d b vs => cases hleaf
  | map t es => cases hleaf
  | pointer obj =>
    intro p hp
    have h := hv p hp
    cases p with
    | function f =>
      cases f with
      | none => exact fun f hf => absurd hf.symm (some_ne_none f)
      | some f =>
        obtain rfl := hp
        cases hleaf
    | _ => exact h
  | _ => exact hv

theorem forall₂_mem_right {P : α → β → Prop} {l : List α} {l' : List β} (h : Forall₂ P l l') :
    ∀ b ∈ l', ∃ a ∈ l, P a b := by
  induction h with
  | nil => exact fun _ hb => absurd hb not_mem_nil
  | cons h _ ih =>
    intro b hb
    rcases mem_cons.mp hb with rfl | hb
    · exact ⟨_, mem_cons_self, h⟩
    · obtain ⟨a, ha, hab⟩ := ih b hb
      exact ⟨a, mem_cons_of_mem _ ha, hab⟩

theorem exists_forall₂ {P : α → β → Prop} {l : List α} (h : ∀ a ∈ l, ∃ b, P a b) :
    ∃ l', Forall₂ P l l' := by
  induction l with
  | nil => exact ⟨[], Forall₂.nil⟩
  | cons a l ih =>
    obtain ⟨b, hb⟩ := h a mem_cons_self
    obtain ⟨l', hl'⟩ := ih fun a ha => h a (mem_cons_of_mem _ ha)
    exact ⟨b :: l', Forall₂.cons hb hl'⟩

theorem CacheValue.Reloaded.storable
    (hR : ∀ l f f', R l f f' → ∀ bs, ops.writeFunction f' = some bs → ReadsBack (ops.readFunction l)
      bs f') (h : v.Reloaded R levels w) (hv : v.Storable ops.withoutFunctions levels) :
    w.Storable ops levels := by
  induction levels generalizing v w with
  | zero => exact False.elim h
  | succ levels ih =>
    refine CacheValue.Reloaded.invert (motive := fun v w =>
      v.Storable ops.withoutFunctions (levels + 1) → w.Storable ops (levels + 1)) h ?_ ?_ ?_ ?_ hv
    · exact fun v hleaf hv => CacheValue.isLeaf.storable hleaf hv
    · rintro t d b vs ws hsame ⟨hpacked, hdims, hcount, hvs⟩
      refine ⟨hpacked, hdims, fun total htotal => ?_, fun w hw => ?_⟩
      · rw [← hsame.length_eq]
        exact hcount total htotal
      · obtain ⟨v, hmem, hvw⟩ := forall₂_mem_right hsame w hw
        exact ih hvw (hvs v hmem)
    · rintro t es es' hsame ⟨htype, hcount, hkeys, hes⟩
      have hkeys' : OrderedMap.keys es' = OrderedMap.keys es := by
        refine forall₂_eq_eq_eq ▸ ?_
        rw [OrderedMap.keys, OrderedMap.keys, forall₂_map_left_iff, forall₂_map_right_iff]
        exact hsame.flip.imp fun _ _ he => he.1.symm
      refine ⟨htype, hsame.length_eq ▸ hcount, hkeys' ▸ hkeys, fun e' he' => ?_⟩
      obtain ⟨e, hmem, hkey, hvw⟩ := forall₂_mem_right hsame e' he'
      obtain ⟨hlen, hcoerced, hstored⟩ := hes e hmem
      rw [mapCoerceStored_withoutFunctions] at hcoerced
      exact ⟨hkey ▸ hlen, hvw.coerced hcoerced, ih hvw hstored⟩
    · intro f f' hf _ p hp
      obtain rfl := some.inj hp
      intro g hg
      obtain rfl := some.inj hg
      exact hR levels f _ hf

theorem writeEntries_spec (hw : writeEntries ops es = some bs) :
    ∀ e ∈ es, ∃ p, writePayload ops e.2 = some p := by
  induction es generalizing bs with
  | nil => exact fun e he => absurd he not_mem_nil
  | cons e es ih =>
    obtain ⟨key, v⟩ := e
    simp only [writeEntries, bind_eq_bind, bind_eq_some_iff] at hw
    obtain ⟨p, hp, cells, hcells, -⟩ := hw
    intro e he
    rcases mem_cons.mp he with rfl | he
    · exact ⟨p, hp⟩
    · exact ih hcells e he

theorem written_elements {t : UInt32} {d : Bool} {b : List (Int32 × Int32)}
    (hcount : ∀ total ∈ arrayCodecElementCount b, vs.length = total)
    (hw : writePayload ops (.array t d b vs) = some p) :
    ∀ v ∈ vs, ∃ p, writePayload ops v = some p := by
  simp only [writePayload, bind_eq_bind, bind_eq_some_iff] at hw
  obtain ⟨total, htotal, cells, hcells, -⟩ := hw
  rw [← hcount total htotal] at hcells
  intro v hv
  obtain ⟨bs, hbs⟩ := (writeValues_spec hcells).1 v hv
  obtain ⟨p, hp, -⟩ := writeValue_eq_some.mp hbs
  exact ⟨p, hp⟩

theorem written_entries {t : UInt32} (hw : writePayload ops (.map t es) = some p) :
    ∀ e ∈ es, ∃ p, writePayload ops e.2 = some p := by
  simp only [writePayload, bind_eq_bind, bind_eq_some_iff] at hw
  obtain ⟨cells, hcells, -⟩ := hw
  exact writeEntries_spec hcells

theorem CacheValue.Functions.reloaded {P : Nat → κ → Prop}
    (hR : ∀ l f bs, P l f → ops.writeFunction f = some bs → ∃ f', R l f f')
    (h : v.Functions P levels) (hv : v.Storable ops.withoutFunctions levels)
    (hw : writePayload ops v = some p) : ∃ w, v.Reloaded R levels w := by
  induction levels generalizing v p with
  | zero => exact False.elim h
  | succ levels ih =>
    cases v with
    | array t d b vs =>
      have hwritten := written_elements hv.2.2.1 hw
      obtain ⟨ws, hws⟩ := exists_forall₂ (P := CacheValue.Reloaded R levels) fun v hmem => by
        obtain ⟨p, hp⟩ := hwritten v hmem
        exact ih (h v hmem) (hv.2.2.2 v hmem) hp
      exact ⟨_, ws, hws, rfl⟩
    | map t es =>
      have hwritten := written_entries hw
      obtain ⟨es', hes⟩ := exists_forall₂
        (P := fun e e' : Bytes × CacheValue κ => e.1 = e'.1 ∧ e.2.Reloaded R levels e'.2)
        (l := es) fun e hmem => by
          obtain ⟨p, hp⟩ := hwritten e hmem
          obtain ⟨w, hw⟩ := ih (h e hmem) (hv.2.2.2 e hmem).2.2 hp
          exact ⟨(e.1, w), rfl, hw⟩
      exact ⟨_, es', hes, rfl⟩
    | pointer obj =>
      rcases obj with _ | _ | ⟨_ | f⟩ | _ | _
      case some.function.some =>
        simp only [writePayload, writePointerValue, bind_eq_bind, bind_some, bind_eq_some_iff] at hw
        obtain ⟨bs, hbs, -⟩ := hw
        obtain ⟨f', hf⟩ := hR levels f bs h hbs
        exact ⟨_, f', hf, rfl⟩
      all_goals exact ⟨_, rfl⟩
    | _ => exact ⟨_, rfl⟩

/-! ## what a value comes back as is written as the same bytes -/

theorem SameToken.writeToken_eq {tok tok' : Option CacheToken} (h : SameToken tok tok') :
    writeToken tok' = writeToken tok := by
  cases tok with
  | none =>
    cases tok' with
    | none => rfl
    | some tok' => cases h
  | some tok =>
    cases tok' with
    | none => cases h
    | some tok' =>
      obtain ⟨htype, htext⟩ := Prod.mk.inj (some.inj h)
      show bufU8 1 ++ bufU32LE tok'.type ++ bufLenPrefixedBytes tok'.text = _
      rw [← htype, ← htext]
      rfl

theorem SameAst.writeAst_eq {t t' : TypeAst} (ht : t.Within levels) (h : SameAst t t') :
    writeAst t' = writeAst t := by
  induction levels generalizing t t' with
  | zero => exact False.elim ht
  | succ levels ih =>
    cases h with
    | null => rfl
    | @node type varType _ _ _ _ token token' iVal left right extra _ _ _ children children' htoken
        hleft hright hextra hchildren =>
      obtain ⟨-, hl, hr, he, -, hc⟩ := ht
      have hasts : writeAsts children' = writeAsts children := by
        have hsame := (forall₂_and_left _ _).mpr ⟨hc, hchildren⟩
        clear hc hchildren
        induction hsame with
        | nil => rfl
        | cons h _ ihs => rw [writeAsts, writeAsts, ih h.1 h.2, ihs]
      simp only [writeAst]
      rw [htoken.writeToken_eq, ih hl hleft, ih hr hright, ih he hextra, hasts, hchildren.length_eq]

theorem SameValue.type_eq {v' : CacheValue κ} (h : SameValue ops v v') : v'.type = v.type := by
  cases h with
  | _ => rfl

theorem SamePointer.writePointerValue_eq {p p' : PointerObj κ} (hp : p.Storable ops levels)
    (h : SamePointer p p') (hw : writePointerValue ops (some p) = some bs) :
    writePointerValue ops (some p') = some bs := by
  cases h with
  | charPtr base base' text => exact hw
  | function fn => exact hw
  | nil h =>
    rw [writePointerValue, if_pos rfl] at hw ⊢
    rw [h.writeAst_eq (hp rfl)]
    exact hw
  | typed h =>
    rw [writePointerValue, if_neg h] at hw
    rw [writePointerValue, if_neg fun hnil => h hnil.1]
    exact hw
  | marked base address =>
    rw [writePointerValue] at hw ⊢
    rw [if_neg fun hnil => by cases hnil.2]
    by_cases howned : address = 0 ∧ base = .ownedPointer
    · rw [if_pos howned] at hw
      cases hw
    · rwa [if_neg howned] at hw

theorem forall₂_zip_keys {γ : Type} {P : β → γ → Prop} {es : List (α × β)} {vs : List γ}
    (h : Forall₂ P (es.map Prod.snd) vs) :
    Forall₂ (fun e e' => e.1 = e'.1 ∧ P e.2 e'.2) es ((es.map Prod.fst).zip vs) := by
  induction es generalizing vs with
  | nil => exact Forall₂.nil
  | cons e es ih =>
    cases h with
    | cons h hs => exact Forall₂.cons ⟨rfl, h⟩ (ih hs)

theorem SameValue.writePayload_eq {v' : CacheValue κ}
    (hlaw : ∀ bits, ops.doubleOfLd (ops.ldOfDouble (ops.doubleOfLd bits)) = ops.doubleOfLd bits)
    (hv : v.Storable ops levels) (h : SameValue ops v v') (hw : writePayload ops v = some p) :
    writePayload ops v' = some p := by
  induction levels generalizing v v' p with
  | zero => exact False.elim hv
  | succ levels ih =>
    cases h with
    | longDouble bits => rwa [writePayload, hlaw]
    | str h => rwa [writePayload, ← h]
    | @enum obj obj' hname hordinal =>
      rw [writePayload] at hw ⊢
      show some (bufLenPrefixedBytes (EnumObj.nameText obj') ++ _) = _
      rw [← hname, ← hordinal]
      exact hw
    | set h => rwa [writePayload, ← h]
    | nullArray => rwa [writePayload] at hw
    | @array t d d' b vs vs' h =>
      have hstored := (forall₂_and_left _ _).mpr
        ⟨fun v hmem => And.intro (written_elements hv.2.2.1 hw v hmem) (hv.2.2.2 v hmem), h⟩
      have hcells := fun n => writeValues_congr ops n (hstored.imp fun v v' hvv => by
        obtain ⟨⟨⟨p, hp⟩, hv⟩, hsame⟩ := hvv
        exact ⟨hsame.type_eq, (ih hv hsame hp).trans hp.symm⟩)
      simp only [writePayload, hcells] at hw ⊢
      exact hw
    | @packedArray t d d' b raw raw' h =>
      simp only [writePayload, bind_eq_bind, bind_eq_some_iff] at hw ⊢
      obtain ⟨total, htotal, hw⟩ := hw
      refine ⟨total, htotal, ?_⟩
      by_cases hzero : total = 0
      · rwa [if_pos hzero] at hw ⊢
      · have hlen := hv.2.2.1 total htotal
        rw [if_neg hzero] at hw ⊢
        cases raw' with
        | none =>
          rw [h] at hlen
          exact absurd hlen.symm hzero
        | some bytes' =>
          cases raw with
          | none => exact absurd hlen.symm hzero
          | some bytes => rwa [← (show bytes = bytes' from h)]
    | @map t es vs h =>
      have hwritten := written_entries hw
      have hstored := (forall₂_and_left _ _).mpr ⟨fun e hmem =>
        And.intro (hwritten e hmem) (hv.2.2.2 e hmem).2.2, forall₂_zip_keys h⟩
      have hcells := writeEntries_congr ops (hstored.imp fun e e' hee => by
        obtain ⟨⟨⟨p, hp⟩, hv⟩, hkey, hsame⟩ := hee
        exact ⟨hkey, hsame.type_eq, (ih hv hsame hp).trans hp.symm⟩)
      have hlen := (forall₂_zip_keys h).length_eq
      simp only [writePayload, hcells, ← hlen] at hw ⊢
      exact hw
    | pointer h =>
      rw [writePayload] at hw ⊢
      exact h.writePointerValue_eq (hv _ rfl) hw
    | _ => exact hw

/-! ## chunks -/

/-- the counts of a chunk are within the limits of its readers, and `V` holds of its constants -/
structure CachedChunk.Storable (V : CacheValue κ → Prop) (chunk : CachedChunk κ) : Prop where
  code_le : chunk.code.length ≤ psb3MaxCodeBytes
  cacheCount_nonneg : 0 ≤ chunk.cacheCount.toInt
  cacheCount_le : chunk.cacheCount.toInt ≤ psb3MaxCacheCount
  lines_length : chunk.lines.length = chunk.code.length
  constants_lt : chunk.constants.length < 2 ^ 31
  constants : ∀ v ∈ chunk.constants, V v
  indices_length : ∀ l ∈ chunk.builtinLowercaseIndices, l.length = chunk.constants.length

/-- A chunk and what it comes back as, but for the frontend: the same, with constants that are
related by `S`. -/
structure SameChunk (S : CacheValue κ → CacheValue κ → Prop) (chunk chunk' : CachedChunk κ) :
    Prop where
  version : chunk'.version = chunk.version
  code : chunk'.code = chunk.code
  cacheCount : chunk'.cacheCount = chunk.cacheCount
  lines : chunk'.lines = chunk.lines
  constants : List.Forall₂ S chunk.constants chunk'.constants
  indices : chunk'.builtinLowercaseIndices
    = loadedIndices chunk.constants.length chunk.builtinLowercaseIndices

theorem SameChunk.imp {S T : CacheValue κ → CacheValue κ → Prop} {chunk chunk' : CachedChunk κ}
    (h : SameChunk S chunk chunk') (hS : ∀ v v', S v v' → T v v') : SameChunk T chunk chunk' :=
  { h with constants := h.constants.imp fun {v v'} => hS v v' }

theorem writeConsts_congr (h : Forall₂ (fun v w => writeValue ops w = writeValue ops v) vs ws) :
    writeConsts ops ws = writeConsts ops vs := by
  induction h with
  | nil => rfl
  | cons h _ ih => rw [writeConsts, writeConsts, h, ih]

theorem constText_getElem?
    (h : Forall₂ (fun v w => CacheValue.constText (some w) = CacheValue.constText (some v)) vs
      ws) (i : Nat) : CacheValue.constText ws[i]? = CacheValue.constText vs[i]? := by
  induction h generalizing i with
  | nil => rfl
  | cons h _ ih =>
    cases i with
    | zero => exact h
    | succ i => exact ih i

theorem bmapPairs_loaded (n i : Nat) (indices : List Int32) :
    bmapPairs n i (indices.map (loadedIndex n)) = bmapPairs n i indices := by
  induction indices generalizing i with
  | nil => rfl
  | cons lower indices ih =>
    rw [map_cons, bmapPairs, bmapPairs, ih]
    by_cases hvalid : 0 ≤ lower.toInt ∧ lower.toInt < n
    · rw [loadedIndex, if_pos hvalid]
    · rw [if_neg hvalid, loadedIndex, if_neg hvalid, if_neg (by simp)]

theorem bmapPairs_loadedIndices {n : Nat} {indices : Option (List Int32)}
    (hlen : ∀ l ∈ indices, l.length = n) :
    bmapPairs n 0 ((loadedIndices n indices).getD []) = bmapPairs n 0 (indices.getD []) := by
  cases indices with
  | none =>
    rw [loadedIndices]
    split
    · rfl
    · rw [getD_some, getD_none, bmapPairs_loaded, bmapPairs_replicate]
      rfl
  | some l =>
    rw [loadedIndices]
    split
    · rename_i hzero
      have hnil : l = [] := length_eq_zero_iff.mp ((hlen l rfl).trans hzero)
      rw [hnil]
      rfl
    · rw [getD_some, getD_some, getD_some, bmapPairs_loaded]

theorem SameChunk.writeChunkCoreInline_eq {ops : CodecOps σ ShellFunction}
    (tables : SymbolTables) {chunk chunk' : CachedChunk ShellFunction}
    (h : SameChunk (fun v w => writeValue ops w = writeValue ops v ∧
      CacheValue.constText (some w) = CacheValue.constText (some v)) chunk chunk')
    (hlen : ∀ l ∈ chunk.builtinLowercaseIndices, l.length = chunk.constants.length) :
    writeChunkCoreInline ops tables chunk' = writeChunkCoreInline ops tables chunk := by
  have hcount := h.constants.length_eq
  have hconsts := writeConsts_congr (h.constants.imp fun {_ _} hv => hv.1)
  have htexts := constText_getElem? (h.constants.imp fun {_ _} hv => hv.2)
  have hpairs := bmapPairs_loadedIndices hlen
  simp only [writeChunkCoreInline, writeConstSection, writeCodeSection, writeLinesSection,
    writeBmapSection, bmapFingerprint, h.code, h.cacheCount, h.lines, h.indices, hconsts, htexts,
    ← hcount, hpairs]

theorem readsBack_chunkCore {host : CacheHost σ} {ops : CodecOps σ ShellFunction}
    {tables : SymbolTables} {V : CacheValue ShellFunction → Prop}
    {S : CacheValue ShellFunction → CacheValue ShellFunction → Prop}
    {chunk : CachedChunk ShellFunction} (hchunk : chunk.Storable V)
    (htables : tables.Storable host V levels)
    (hvalue : ∀ v, V v → ∀ p, writeValue ops v = some p → ∃ v', S v v' ∧ ReadsBack (readValue ops
      levels) p v') (hw : writeChunkCoreInline ops tables chunk = some bs) :
    ∃ chunk', SameChunk S chunk chunk' ∧ chunk'.frontendKind = host.frontendGetKind ∧
      ReadsBack (readChunkCoreInline host ops levels chunk.version) bs chunk' := by
  simp only [writeChunkCoreInline, bind_eq_bind, bind_eq_some_iff, Option.pure_def,
    some.injEq] at hw
  obtain ⟨consts, hconsts, procs, hprocs, rfl⟩ := hw
  have hcap : psb3MaxCodeBytes < 2 ^ 31 := by decide
  have hlines : chunk.lines.length < 2 ^ 31 := by
    have hle := hchunk.code_le
    rw [hchunk.lines_length]
    omega
  have hread_lines := readsBack_linesSection (σ := σ) hlines
  rw [hchunk.lines_length] at hread_lines
  obtain ⟨vs, hsame, hread_consts⟩ := readsBack_constSection hchunk.constants_lt
    (fun v hv => hvalue v (hchunk.constants v hv)) hconsts
  obtain ⟨_, _, hread_procs⟩ := readsBack_procsSection htables hvalue hprocs
  obtain ⟨_, _, hread_types⟩ := readsBack_typesSection htables
  refine ⟨{ version := chunk.version, frontendKind := host.frontendGetKind, code := chunk.code
            cacheCount := chunk.cacheCount, lines := chunk.lines, constants := vs
            builtinLowercaseIndices :=
              loadedIndices chunk.constants.length chunk.builtinLowercaseIndices },
    ⟨rfl, rfl, rfl, rfl, hsame, rfl⟩, rfl, ?_⟩
  simp only [append_assoc]
  refine .bind
    (readsBack_codeSection hchunk.code_le hchunk.cacheCount_nonneg hchunk.cacheCount_le) ?_
  refine .bind hread_lines (.bind hread_consts ?_)
  rw [← hsame.length_eq]
  refine .bind (readsBack_bmapSection hchunk.constants_lt hchunk.indices_length) ?_
  refine .bind hread_procs (.last hread_types ?_)
  exact .pure _

end

/-! ## functions of any depth -/

section
variable {σ κ : Type}

variable {v : CacheValue κ}

theorem CacheValue.Reloaded.mono {R T : Nat → κ → κ → Prop} {levels : Nat} {w : CacheValue κ}
    (hR : ∀ l f f', R l f f' → T l f f') (h : v.Reloaded R levels w) : v.Reloaded T levels w := by
  induction levels generalizing v w with
  | zero => exact False.elim h
  | succ levels ih =>
    refine CacheValue.Reloaded.invert
      (motive := fun v w => v.Reloaded R (levels + 1) w → v.Reloaded T (levels + 1) w) h
      ?_ ?_ ?_ ?_ h
    · intro v hleaf h
      cases v with
      | array => cases hleaf
      | map => cases hleaf
      | pointer obj =>
        rcases obj with _ | _ | ⟨_ | f⟩ | _ | _
        case some.function.some => cases hleaf
        all_goals exact h
      | _ => exact h
    · intro t d b vs ws hsame _
      exact ⟨ws, hsame.imp fun {_ _} h => ih h, rfl⟩
    · intro t es es' hsame _
      exact ⟨es', hsame.imp fun {_ _} h => ⟨h.1, ih h.2⟩, rfl⟩
    · intro f f' hf _
      exact ⟨f', hR levels f f' hf, rfl⟩

theorem CacheValue.Reloaded.constText_eq {R : Nat → κ → κ → Prop} {levels : Nat} {w : CacheValue κ}
    (h : v.Reloaded R levels w) :
    CacheValue.constText (some w) = CacheValue.constText (some v) := by
  cases levels with
  | zero => exact False.elim h
  | succ levels =>
    exact CacheValue.Reloaded.invert
      (motive := fun v w => CacheValue.constText (some w) = CacheValue.constText (some v)) h
      (fun _ _ => rfl) (fun _ _ _ _ _ _ => rfl) (fun _ _ _ _ => rfl) fun _ _ _ => rfl

theorem SameValue.constText_eq {ops : CodecOps σ κ} {v' : CacheValue κ} (h : SameValue ops v v') :
    CacheValue.constText (some v') = CacheValue.constText (some v) := by
  cases h with
  | @str t obj obj' h =>
    cases t with
    | string =>
      rw [CacheValue.constText, CacheValue.constText, h]
    | unicodeString => rfl
  | _ => rfl

variable (host : CacheHost σ) (tables : SymbolTables)

/-- A function and what it comes back as, with the frontend of the process that loads it.  The
values in it that are functions come back in the same way. -/
def ShellFunction.Same : Nat → Nat → ShellFunction → ShellFunction → Prop
  | 0, _, _, _ => False
  | depth + 1, levels, f, f' =>
    SameChunk (fun v v' => ∃ w, v.Reloaded (ShellFunction.Same depth) levels w ∧
      SameValue (functionOps host tables depth) w v') f.chunk f'.chunk ∧
    f'.chunk.frontendKind = host.frontendGetKind

/-- a value and what it comes back as, once its functions have -/
def SameStored (depth levels : Nat) (v v' : CacheValue ShellFunction) : Prop :=
  ∃ w, v.Reloaded (ShellFunction.Same host tables depth) levels w ∧
    SameValue (functionOps host tables depth) w v'

/-- the chunk of a function is stored, and the linker and the verifier let it pass -/
def ShellFunction.Storable : Nat → Nat → ShellFunction → Prop
  | 0, _, _ => False
  | depth + 1, levels, f =>
    let V := fun v : CacheValue ShellFunction =>
      v.Storable (functionOps host tables depth).withoutFunctions levels ∧
        v.Functions (ShellFunction.Storable depth) levels
    f.chunk.Storable V ∧ tables.Storable host V levels ∧
      ∀ chunk', SameChunk (SameStored host tables depth levels) f.chunk chunk' →
        chunk'.frontendKind = host.frontendGetKind → host.linkAndVerify chunk' = some chunk'

def StorableValue (depth levels : Nat) (v : CacheValue ShellFunction) : Prop :=
  v.Storable (functionOps host tables depth).withoutFunctions levels ∧
    v.Functions (ShellFunction.Storable host tables depth) levels

variable {host tables}

theorem narrow_widen (depth : Nat) (bits : Nat) :
    (functionOps host tables depth).doubleOfLd ((functionOps host tables depth).ldOfDouble
      ((functionOps host tables depth).doubleOfLd bits))
      = (functionOps host tables depth).doubleOfLd bits := by
  cases depth with
  | zero => exact host.narrow_widen bits
  | succ depth => exact host.narrow_widen bits

def FunctionsReadBack (host : CacheHost σ) (tables : SymbolTables) (depth : Nat) : Prop :=
  ∀ levels f bs, ShellFunction.Storable host tables depth levels f →
    (functionOps host tables depth).writeFunction f = some bs →
    ∃ f', ShellFunction.Same host tables depth levels f f' ∧
      (functionOps host tables depth).writeFunction f' = some bs ∧
      ReadsBack ((functionOps host tables depth).readFunction levels) bs f'

theorem FunctionsReadBack.value {depth levels : Nat} {v : CacheValue ShellFunction} {p : Bytes}
    (ih : FunctionsReadBack host tables depth) (hv : StorableValue host tables depth levels v)
    (hw : writeValue (functionOps host tables depth) v = some p) :
    ∃ v', (SameStored host tables depth levels v v' ∧
        writeValue (functionOps host tables depth) v'
          = writeValue (functionOps host tables depth) v ∧
        CacheValue.constText (some v') = CacheValue.constText (some v)) ∧
      ReadsBack (readValue (functionOps host tables depth) levels) p v' := by
  let ops := functionOps host tables depth
  let R : Nat → ShellFunction → ShellFunction → Prop := fun l f f' =>
    ShellFunction.Same host tables depth l f f' ∧ ops.writeFunction f' = ops.writeFunction f ∧
      ∀ bs, ops.writeFunction f' = some bs → ReadsBack (ops.readFunction l) bs f'
  obtain ⟨payload, hpayload, -⟩ := writeValue_eq_some.mp hw
  obtain ⟨w, hvw⟩ := hv.2.reloaded (R := R) (fun l f bs hf hbs => by
    obtain ⟨f', hsame, hf', hread⟩ := ih l f bs hf hbs
    refine ⟨f', hsame, hf'.trans hbs.symm, fun bs' hbs' => ?_⟩
    rwa [← some.inj (hf'.symm.trans hbs')]) hv.1 hpayload
  have hpayload_w : writePayload ops w = some payload :=
    (hvw.writePayload_eq fun _ _ _ h => h.2.1).trans hpayload
  have hw_eq : writeValue ops w = writeValue ops v :=
    writeValue_congr hvw.type_eq (hpayload_w.trans hpayload.symm)
  have hstored : w.Storable ops levels := hvw.storable (fun _ _ _ h => h.2.2) hv.1
  obtain ⟨v', hsame, hread⟩ := readsBack_value levels w p hstored (hw_eq.trans hw)
  have hpayload' := hsame.writePayload_eq (narrow_widen depth) hstored hpayload_w
  refine ⟨v', ⟨⟨w, hvw.mono fun _ _ _ h => h.1, hsame⟩, ?_, ?_⟩, hread⟩
  · rw [← hw_eq]
    exact writeValue_congr hsame.type_eq (hpayload'.trans hpayload_w.symm)
  · exact hsame.constText_eq.trans hvw.constText_eq

theorem readsBack_function (depth : Nat) : FunctionsReadBack host tables depth := by
  induction depth with
  | zero => exact fun _ _ _ h _ => False.elim h
  | succ depth ih =>
    intro levels f bs hf hw
    obtain ⟨hchunk, htables, haccepted⟩ := hf
    obtain ⟨core, hcore, hbs⟩ := bind_eq_some_iff.mp
      (show writeShellFunction (functionOps host tables depth) tables f = some bs from hw)
    obtain rfl := some.inj hbs
    obtain ⟨chunk', hsame, hfrontend, hread⟩ := readsBack_chunkCore hchunk htables
      (fun v hv p hp => ih.value hv hp) hcore
    have hsame' := hsame.imp fun v v' h => h.1
    have hcore' := (hsame.imp fun v v' h => h.2).writeChunkCoreInline_eq tables
      hchunk.indices_length
    refine ⟨.mk chunk', ⟨hsame', hfrontend⟩, ?_, ?_⟩
    · show writeShellFunction (functionOps host tables depth) tables (.mk chunk') = _
      rw [writeShellFunction, ShellFunction.chunk, hcore', hcore, hsame.version]
      rfl
    · refine .bind (Reads.back (reads_curU32LE _)) (.then readsBack_hasError ?_)
      rw [if_neg Bool.false_ne_true]
      refine .last hread ?_
      rw [haccepted chunk' hsame' hfrontend]
      exact .pure _

theorem readsBack_stored {depth levels : Nat} {v : CacheValue ShellFunction} {p : Bytes}
    (hv : StorableValue host tables depth levels v)
    (hw : writeValue (functionOps host tables depth) v = some p) :
    ∃ v', SameStored host tables depth levels v v' ∧
      ReadsBack (readValue (functionOps host tables depth) levels) p v' := by
  obtain ⟨v', h, hread⟩ := (readsBack_function depth).value hv hw
  exact ⟨v', h.1, hread⟩

end

end Pscal
