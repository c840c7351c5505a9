import Pscal.Record.Slots

/-!
# Where the numberings put a field

Each numbering in closed form, for hierarchies without flattened members: `memberSlot` is the
slot of a field ahead of any v-table bias, and

* `getRecordFieldOffset_spec`  an access finds a field with the name, or there is none;
* `mem_fieldInitializers`  the initialisers of an object;
* `mem_buildRecordLayoutFields` the layout.
-/

namespace Pscal

open List

def fieldsBefore (ms : List Member) (index : Nat) : Nat :=
  ((ms.take index).filter Member.isField).length

/-- the slot of a field behind the slots of the levels above, without a hidden slot -/
def memberSlot (r : RecordType) (parents : List RecordType) (index : Nat) (f : Field) : Nat :=
  getRecordFieldCount parents +
    if r.usesExplicitSlots then f.slot else fieldsBefore r.members index

/-- `f` is member `index` of the level `r :: parents` of the hierarchy `h` -/
structure FieldAt (h : List RecordType) (r : RecordType) (parents : List RecordType) (index : Nat)
    (f : Field) : Prop where
  level : r :: parents <:+ h
  member : r.members[index]? = some (.field f)

def NoFlat (h : List RecordType) : Prop := ∀ r ∈ h, ∀ name, Member.flat name ∉ r.members

variable {h h' ps : List RecordType} {f : Field} {r : RecordType}

theorem NoFlat.suffix (hflat : NoFlat h) (hsuf : h' <:+ h) : NoFlat h' :=
  fun r hr => hflat r (hsuf.subset hr)

theorem fieldsBefore_zero (ms : List Member) : fieldsBefore ms 0 = 0 := rfl

theorem fieldsBefore_succ (m : Member) (ms : List Member) (index : Nat) :
    fieldsBefore (m :: ms) (index + 1) = (if m.isField then 1 else 0) + fieldsBefore ms index := by
  unfold fieldsBefore
  rw [take_succ_cons, filter_cons]
  split
  · rw [length_cons]
    omega
  · omega

theorem fieldsBefore_lt {ms : List Member} {index : Nat} (h : ms[index]? = some (.field f)) :
    fieldsBefore ms index < (ms.filter Member.isField).length := by
  induction ms generalizing index with
  | nil => simp at h
  | cons m ms ih =>
    cases index with
    | zero =>
      obtain rfl : m = .field f := by simpa using h
      simp [fieldsBefore, Member.isField]
    | succ index =>
      rw [fieldsBefore_succ, filter_cons]
      have hlt := ih (by simpa using h)
      split
      · rw [length_cons]
        omega
      · omega

theorem fieldsBefore_inj {ms : List Member} {i j : Nat} {g : Field} (hi : ms[i]? = some (.field f))
    (hj : ms[j]? = some (.field g)) (h : fieldsBefore ms i = fieldsBefore ms j) : i = j := by
  induction ms generalizing i j with
  | nil => simp at hi
  | cons m ms ih =>
    cases i with
    | zero =>
      cases j with
      | zero => rfl
      | succ j =>
        obtain rfl : m = .field f := by simpa using hi
        rw [fieldsBefore_succ, fieldsBefore_zero, Member.isField, if_pos rfl] at h
        omega
    | succ i =>
      cases j with
      | zero =>
        obtain rfl : m = .field g := by simpa using hj
        rw [fieldsBefore_succ, fieldsBefore_zero, Member.isField, if_pos rfl] at h
        omega
      | succ j =>
        rw [fieldsBefore_succ, fieldsBefore_succ] at h
        have hij : i = j := ih (by simpa using hi) (by simpa using hj) (by omega)
        rw [hij]

/-! ## counts -/

theorem getLocalRecordFieldCount_eq (hflat : ∀ name, Member.flat name ∉ r.members) :
    getLocalRecordFieldCount r = getLocalRecordSlotCount r := by
  have hfilter : r.members.filter (fun m => m.isField || m.isFlat) =
      r.members.filter Member.isField := by
    apply filter_congr
    intro m hm
    cases m with
    | flat name => exact absurd hm (hflat name)
    | _ => simp [Member.isFlat]
  unfold getLocalRecordFieldCount getLocalRecordSlotCount RecordType.usesExplicitSlots
  rw [hfilter]
  simp

theorem getRecordFieldCount_eq (hflat : NoFlat h) :
    getRecordFieldCount h = getRecordSlotCount h := by
  induction h with
  | nil => rfl
  | cons r parents ih =>
    rw [getRecordFieldCount, getRecordSlotCount,
      getLocalRecordFieldCount_eq (hflat r mem_cons_self),
      ih (hflat.suffix (suffix_cons r parents))]

theorem getRecordFieldCount_suffix (hsuf : h' <:+ h) :
    getRecordFieldCount h' ≤ getRecordFieldCount h := by
  obtain ⟨front, rfl⟩ := hsuf
  induction front with
  | nil => exact Nat.le_refl _
  | cons r front ih =>
    rw [cons_append, getRecordFieldCount]
    omega

theorem memberSlot_lt (parents : List RecordType) {index : Nat}
    (hmem : r.members[index]? = some (.field f)) :
    memberSlot r parents index f < getRecordFieldCount (r :: parents) := by
  have hlocal : (if r.usesExplicitSlots then f.slot else fieldsBefore r.members index) <
      getLocalRecordFieldCount r := by
    unfold getLocalRecordFieldCount
    by_cases he : r.usesExplicitSlots = true
    · rw [if_pos he, if_pos he]
      exact r.slotsOk (by simpa [RecordType.usesExplicitSlots] using he) f (mem_of_getElem? hmem)
    · rw [if_neg he, if_neg he]
      refine Nat.lt_of_lt_of_le (fieldsBefore_lt hmem) ?_
      apply Sublist.length_le
      apply monotone_filter_right
      intro m hm
      simp [hm]
  unfold memberSlot
  rw [getRecordFieldCount]
  omega

theorem le_memberSlot (r : RecordType) (parents : List RecordType) (index : Nat) (f : Field) :
    getRecordFieldCount parents ≤ memberSlot r parents index f := Nat.le_add_right _ _

/-! ## accesses -/

theorem localFieldOffset_spec (explicit : Bool) (parentCount : Nat) (name : String)
    (ms : List Member) (offset : Nat) (hflat : ∀ n, Member.flat n ∉ ms) :
    (localFieldOffset explicit parentCount name ms offset = -1 ∧
      ∀ f, Member.field f ∈ ms → f.name ≠ name) ∨
    ∃ index f, ms[index]? = some (.field f) ∧ f.name = name ∧
      localFieldOffset explicit parentCount name ms offset =
        (if explicit then parentCount + f.slot else offset + fieldsBefore ms index : Nat) := by
  induction ms generalizing offset with
  | nil => exact .inl ⟨rfl, nofun⟩
  | cons m ms ih =>
    have hflat' : ∀ n, .flat n ∉ ms := fun n hn => hflat n (mem_cons_of_mem _ hn)
    cases m with
    | field f =>
      rw [localFieldOffset]
      by_cases hname : f.name = name
      · refine .inr ⟨0, f, rfl, hname, ?_⟩
        rw [if_pos hname]
        rfl
      · rw [if_neg hname]
        rcases ih (if explicit then offset else offset + 1) hflat' with ⟨hnone, hall⟩ | ⟨i, g, hg, hgn, hv⟩
        · refine .inl ⟨hnone, fun g hg => ?_⟩
          rcases mem_cons.mp hg with heq | hg
          · cases heq
            exact hname
          · exact hall g hg
        · refine .inr ⟨i + 1, g, by simpa using hg, hgn, ?_⟩
          rw [hv, fieldsBefore_succ]
          cases explicit
          · simp [Member.isField]
            omega
          · rfl
    | method n v =>
      rw [localFieldOffset]
      rcases ih offset hflat' with ⟨hnone, hall⟩ | ⟨i, g, hg, hgn, hv⟩
      · refine .inl ⟨hnone, fun g hg => ?_⟩
        rcases mem_cons.mp hg with heq | hg
        · cases heq
        · exact hall g hg
      · refine .inr ⟨i + 1, g, by simpa using hg, hgn, ?_⟩
        rw [hv, fieldsBefore_succ]
        simp [Member.isField]
    | flat n => exact absurd mem_cons_self (hflat n)

theorem getRecordFieldOffset_spec (hflat : NoFlat h) (name : String) :
    (getRecordFieldOffset h name = -1 ∧
      ∀ r parents index f, FieldAt h r parents index f → f.name ≠ name) ∨
    ∃ r parents index f, FieldAt h r parents index f ∧ f.name = name ∧
      getRecordFieldOffset h name = (memberSlot r parents index f : Nat) := by
  induction h with
  | nil =>
    refine .inl ⟨rfl, fun r parents index f hf => ?_⟩
    exact absurd (suffix_nil.mp hf.level) (by simp)
  | cons r parents ih =>
    rw [getRecordFieldOffset]
    dsimp only
    rcases ih (hflat.suffix (suffix_cons r parents)) with ⟨hnone, hall⟩ | ⟨r', ps, i, f, hf, hn, hv⟩
    · have hne : ¬ getRecordFieldOffset parents name ≠ -1 := by simp [hnone]
      rw [if_neg hne]
      rcases localFieldOffset_spec r.usesExplicitSlots (getRecordFieldCount parents) name r.members
        (getRecordFieldCount parents) (hflat r mem_cons_self) with ⟨hl, hlall⟩ | ⟨i, f, hf, hn, hv⟩
      · refine .inl ⟨hl, fun r' ps i f hf => ?_⟩
        rcases suffix_cons_iff.mp hf.level with heq | hsuf
        · cases heq
          exact hlall f (mem_of_getElem? hf.member)
        · exact hall r' ps i f ⟨hsuf, hf.member⟩
      · refine .inr ⟨r, parents, i, f, ⟨suffix_rfl, hf⟩, hn, ?_⟩
        rw [hv, memberSlot]
        split <;> rfl
    · have hne : getRecordFieldOffset parents name ≠ -1 := by
        rw [hv]
        omega
      rw [if_pos hne]
      exact .inr ⟨r', ps, i, f, ⟨hf.level.trans (suffix_cons r parents), hf.member⟩, hn, hv⟩

theorem getRecordFieldOffset_suffix (hsuf : h' <:+ h) {name : String}
    (hne : getRecordFieldOffset h' name ≠ -1) :
    getRecordFieldOffset h name = getRecordFieldOffset h' name := by
  obtain ⟨front, rfl⟩ := hsuf
  induction front with
  | nil => rfl
  | cons r front ih =>
    rw [cons_append, getRecordFieldOffset]
    dsimp only
    rw [if_pos (by rw [ih]; exact hne), ih]

theorem level_unique {r' : RecordType} {ps' : List RecordType} (hr : r :: ps <:+ h)
    (hr' : r' :: ps' <:+ h) (hlen : ps.length = ps'.length) : r = r' ∧ ps = ps' := by
  have hsuf : r :: ps <:+ r' :: ps' :=
    suffix_of_suffix_length_le hr hr' (by simp [hlen])
  have heq : r :: ps = r' :: ps' := hsuf.eq_of_length (by simp [hlen])
  exact ⟨(cons.inj heq).1, (cons.inj heq).2⟩

theorem level_total {a b : List RecordType} (ha : a <:+ h) (hb : b <:+ h) : a <:+ b ∨ b <:+ a := by
  rcases Nat.le_total a.length b.length with hle | hle
  · exact .inl (suffix_of_suffix_length_le ha hb hle)
  · exact .inr (suffix_of_suffix_length_le hb ha hle)

theorem memberSlot_level {r' : RecordType} {ps' : List RecordType} {i i' : Nat} {f' : Field}
    (hf : FieldAt h r ps i f) (hf' : FieldAt h r' ps' i' f')
    (heq : memberSlot r ps i f = memberSlot r' ps' i' f') : ps.length = ps'.length := by
  have hlt : ∀ {r r' : RecordType} {ps ps' : List RecordType} {i i' : Nat} {f f' : Field},
      FieldAt h r ps i f → FieldAt h r' ps' i' f' → r :: ps <:+ ps' →
      memberSlot r ps i f < memberSlot r' ps' i' f' := by
    intro r r' ps ps' i i' f f' hf hf' hsuf
    have hcount := getRecordFieldCount_suffix hsuf
    have hle := le_memberSlot r' ps' i' f'
    have hslot := memberSlot_lt ps hf.member
    omega
  rcases level_total hf.level hf'.level with hsuf | hsuf
  · rcases suffix_cons_iff.mp hsuf with hsame | hsuf
    · rw [(cons.inj hsame).2]
    · have := hlt hf hf' hsuf
      omega
  · rcases suffix_cons_iff.mp hsuf with hsame | hsuf
    · rw [(cons.inj hsame).2]
    · have := hlt hf' hf hsuf
      omega

/-! ## initialisers -/

theorem mem_levelInitializers (recType : List RecordType) (hasVTable : Bool)
    (chosen : Field → Bool) (operand : Nat → Nat) (level : Nat) (ms : List Member) (index : Nat)
    (i : FieldInit) : i ∈ levelInitializers recType hasVTable chosen operand level ms index ↔
      ∃ k f, ms[k]? = some (.field f) ∧ chosen f = true ∧
        ¬ initOffset recType hasVTable f < 0 ∧
        i = ⟨⟨level, index + k⟩, operand (initOffset recType hasVTable f).toNat⟩ := by
  induction ms generalizing index with
  | nil => simp [levelInitializers]
  | cons m ms ih =>
    have hskip : (∃ k f, ms[k]? = some (.field f) ∧ chosen f = true ∧
        ¬ initOffset recType hasVTable f < 0 ∧
        i = ⟨⟨level, index + 1 + k⟩, operand (initOffset recType hasVTable f).toNat⟩) ↔
        ∃ k f, (m :: ms)[k + 1]? = some (.field f) ∧ chosen f = true ∧
        ¬ initOffset recType hasVTable f < 0 ∧
        i = ⟨⟨level, index + (k + 1)⟩, operand (initOffset recType hasVTable f).toNat⟩ := by
      simp only [getElem?_cons_succ, Nat.add_assoc, Nat.add_comm 1]
    cases m with
    | field f =>
      rw [levelInitializers]
      by_cases hf : chosen f = true ∧ ¬ initOffset recType hasVTable f < 0
      · rw [if_pos hf, mem_cons, ih (index + 1), hskip]
        constructor
        · rintro (rfl | ⟨k, g, hg, h⟩)
          · exact ⟨0, f, rfl, hf.1, hf.2, rfl⟩
          · exact ⟨k + 1, g, hg, h⟩
        · rintro ⟨k, g, hg, hc, ho, hi⟩
          cases k with
          | zero =>
            cases hg
            exact .inl hi
          | succ k => exact .inr ⟨k, g, hg, hc, ho, hi⟩
      · rw [if_neg hf, ih (index + 1), hskip]
        constructor
        · rintro ⟨k, g, hg, h⟩
          exact ⟨k + 1, g, hg, h⟩
        · rintro ⟨k, g, hg, hc, ho, hi⟩
          cases k with
          | zero =>
            cases hg
            exact absurd ⟨hc, ho⟩ hf
          | succ k => exact ⟨k, g, hg, hc, ho, hi⟩
    | method n v | flat n =>
      show i ∈ levelInitializers recType hasVTable chosen operand level ms (index + 1) ↔ _
      rw [ih (index + 1), hskip]
      constructor
      · rintro ⟨k, g, hg, h⟩
        exact ⟨k + 1, g, hg, h⟩
      · rintro ⟨k, g, hg, h⟩
        cases k with
        | zero => cases hg
        | succ k => exact ⟨k, g, hg, h⟩

/-- the initialisers of an object of the class `h`: each level works with its own v-table test -/
theorem mem_fieldInitializers (procs : List MethodSymbol) (chosen : Field → Bool)
    (operand : Nat → Nat) (h : List RecordType) (i : FieldInit) :
    i ∈ fieldInitializers procs chosen operand h (recordTypeHasVTable procs h) ↔
      ∃ r ps k f, FieldAt h r ps k f ∧ chosen f = true ∧
        ¬ initOffset (r :: ps) (recordTypeHasVTable procs (r :: ps)) f < 0 ∧
        i = ⟨⟨ps.length, k⟩,
          operand (initOffset (r :: ps) (recordTypeHasVTable procs (r :: ps)) f).toNat⟩ := by
  induction h with
  | nil =>
    simp only [fieldInitializers, not_mem_nil, false_iff]
    rintro ⟨r, ps, k, f, hf, _⟩
    exact absurd (suffix_nil.mp hf.level) (by simp)
  | cons r ps ih =>
    rw [fieldInitializers, mem_append, ih, mem_levelInitializers]
    simp only [Nat.zero_add]
    constructor
    · rintro (⟨r', ps', k, f, hf, h⟩ | ⟨k, f, hf, h⟩)
      · exact ⟨r', ps', k, f, ⟨hf.level.trans (suffix_cons r ps), hf.member⟩, h⟩
      · exact ⟨r, ps, k, f, ⟨suffix_rfl, hf⟩, h⟩
    · rintro ⟨r', ps', k, f, hf, h⟩
      rcases suffix_cons_iff.mp hf.level with heq | hsuf
      · cases heq
        exact .inr ⟨k, f, hf.member, h⟩
      · exact .inl ⟨r', ps', k, f, ⟨hsuf, hf.member⟩, h⟩

/-! ## the layout -/

def slotBias (procs : List MethodSymbol) (r : RecordType) (parents : List RecordType) : Nat :=
  if recordTypeNeedsVTableSlot procs (r :: parents) && !recordTypeNeedsVTableSlot procs parents
  then 1 else 0

theorem slotBias_le (procs : List MethodSymbol) (r : RecordType) (parents : List RecordType) :
    slotBias procs r parents ≤ 1 := by
  unfold slotBias
  split <;> omega

/-- a layout gives the declaration `id` the slot `s` -/
def HasSlot (b : List RecordLayoutField) (id : Option FieldId) (s : Nat) : Prop :=
  ∃ e ∈ b, e.field = id ∧ e.slotIndex = s

theorem HasSlot_append {b : List RecordLayoutField} {e : RecordLayoutField} {id : Option FieldId}
    {s : Nat} : HasSlot (b ++ [e]) id s ↔ HasSlot b id s ∨ (e.field = id ∧ e.slotIndex = s) := by
  simp only [HasSlot, mem_append, mem_singleton, or_and_right, exists_or, exists_eq_left]

theorem levelLayout_slot (r : RecordType) (base level : Nat) (ms : List Member)
    (index sequentialSlot : Nat) (owners : Nat → Option Nat) (b : List RecordLayoutField)
    (id : Option FieldId) (s : Nat) :
    HasSlot (levelLayout r base level ms index sequentialSlot owners b) id s ↔
      HasSlot b id s ∨ ∃ k f, ms[k]? = some (.field f) ∧ id = some ⟨level, index + k⟩ ∧
        s = if 0 < r.slots then base + f.slot else sequentialSlot + fieldsBefore ms k := by
  induction ms generalizing index sequentialSlot owners b with
  | nil => simp [levelLayout]
  | cons m ms ih =>
    cases m with
    | field f =>
      have hnext : ∀ (owners : Nat → Option Nat) (e : RecordLayoutField),
          e.field = some ⟨level, index⟩ →
          e.slotIndex = (if 0 < r.slots then base + f.slot else sequentialSlot) →
          (HasSlot (levelLayout r base level ms (index + 1)
              (if 0 < r.slots then sequentialSlot else sequentialSlot + 1) owners (b ++ [e])) id s ↔
            HasSlot b id s ∨ ∃ k g, (.field f :: ms)[k]? = some (.field g) ∧
              id = some ⟨level, index + k⟩ ∧ s = if 0 < r.slots then base + g.slot
                else sequentialSlot + fieldsBefore (.field f :: ms) k) := by
        intro owners e hfield hslot
        rw [ih, HasSlot_append, or_assoc]
        apply or_congr_right
        constructor
        · rintro (⟨hid, hs⟩ | ⟨k, g, hg, hid, hs⟩)
          · refine ⟨0, f, rfl, hid.symm.trans hfield, ?_⟩
            rw [fieldsBefore_zero, Nat.add_zero, ← hs, hslot]
          · refine ⟨k + 1, g, hg, by rw [hid]; congr 2; omega, ?_⟩
            rw [hs, fieldsBefore_succ, Member.isField, if_pos rfl]
            split <;> omega
        · rintro ⟨k, g, hg, hid, hs⟩
          cases k with
          | zero =>
            cases hg
            rw [fieldsBefore_zero, Nat.add_zero] at hs
            exact .inl ⟨hfield.trans hid.symm, hslot.trans hs.symm⟩
          | succ k =>
            refine .inr ⟨k, g, hg, by rw [hid]; congr 2; omega, ?_⟩
            rw [hs, fieldsBefore_succ, Member.isField, if_pos rfl]
            split <;> omega
      rw [levelLayout]
      split
      · exact hnext _ _ rfl rfl
      · exact hnext _ _ rfl rfl
    | method n v | flat n =>
      show HasSlot (levelLayout r base level ms (index + 1) sequentialSlot owners b) id s ↔ _
      rw [ih]
      apply or_congr_right
      constructor
      · rintro ⟨k, g, hg, hid, hs⟩
        refine ⟨k + 1, g, hg, by rw [hid]; congr 2; omega, ?_⟩
        rw [hs, fieldsBefore_succ]
        simp [Member.isField]
      · rintro ⟨k, g, hg, hid, hs⟩
        cases k with
        | zero => cases hg
        | succ k =>
          refine ⟨k, g, hg, by rw [hid]; congr 2; omega, ?_⟩
          rw [hs, fieldsBefore_succ]
          simp [Member.isField]

def layoutSlot (procs : List MethodSymbol) (r : RecordType) (parents : List RecordType)
    (index : Nat) (f : Field) : Nat :=
  slotBias procs r parents + getRecordSlotCount parents +
    if 0 < r.slots then f.slot else fieldsBefore r.members index

theorem buildRecordLayoutFields_cons {procs : List MethodSymbol} {depth : Nat}
    {b l : List RecordLayoutField} (hl : buildRecordLayoutFields procs (r :: ps) depth b = some l)
    (hdepth : depth < maxRecordEmbedDepth) :
    getRecordSlotCount (r :: ps) + slotBias procs r ps ≤ 0x10000 ∧
      ∃ b₁ b₂ owners, buildRecordLayoutFields procs ps (depth + 1) b₁ = some b₂ ∧
        (∀ id s, HasSlot b₁ (some id) s ↔ HasSlot b (some id) s) ∧
        l = levelLayout r (slotBias procs r ps + getRecordSlotCount ps) ps.length r.members 0
          (slotBias procs r ps + getRecordSlotCount ps) owners b₂ := by
  rw [buildRecordLayoutFields, if_neg (Nat.not_le.mpr hdepth)] at hl
  dsimp only at hl
  by_cases hbig : 0x10000 < getRecordSlotCount (r :: ps) + slotBias procs r ps
  · rw [slotBias] at hbig
    rw [if_pos hbig] at hl
    cases hl
  · refine ⟨Nat.le_of_not_lt hbig, ?_⟩
    rw [slotBias] at hbig
    rw [if_neg hbig] at hl
    obtain ⟨b₂, hb₂, rfl⟩ := Option.map_eq_some_iff.mp hl
    refine ⟨_, b₂, _, hb₂, fun id s => ?_, rfl⟩
    split
    · rw [HasSlot_append]
      simp
    · exact Iff.rfl

theorem buildRecordLayoutFields_slot (procs : List MethodSymbol) (h : List RecordType) (depth : Nat)
    (b l : List RecordLayoutField) (hl : buildRecordLayoutFields procs h depth b = some l)
    (id : FieldId) (s : Nat) : HasSlot l (some id) s ↔ HasSlot b (some id) s ∨
      ∃ r ps k f, FieldAt h r ps k f ∧ depth + h.length < maxRecordEmbedDepth + ps.length + 1 ∧
        id = ⟨ps.length, k⟩ ∧ s = layoutSlot procs r ps k f := by
  induction h generalizing depth b l with
  | nil =>
    cases hl
    refine ⟨.inl, fun h => h.resolve_right ?_⟩
    rintro ⟨r, ps, k, f, hf, _⟩
    exact absurd (suffix_nil.mp hf.level) (by simp)
  | cons r ps ih =>
    by_cases hdepth : depth < maxRecordEmbedDepth
    · obtain ⟨_, b₁, b₂, owners, hb₂, hb, rfl⟩ := buildRecordLayoutFields_cons hl hdepth
      rw [levelLayout_slot, ih _ _ _ hb₂, hb, or_assoc]
      apply or_congr_right
      rw [length_cons]
      constructor
      · rintro (⟨r', ps', k, f, hf, hd, hid, hs⟩ | ⟨k, f, hf, hid, hs⟩)
        · exact ⟨r', ps', k, f, ⟨hf.level.trans (suffix_cons r ps), hf.member⟩, by omega, hid, hs⟩
        · refine ⟨r, ps, k, f, ⟨suffix_rfl, hf⟩, by omega, by simpa using hid, ?_⟩
          rw [hs, layoutSlot]
          split <;> omega
      · rintro ⟨r', ps', k, f, hf, hd, hid, hs⟩
        rcases suffix_cons_iff.mp hf.level with heq | hsuf
        · cases heq
          refine .inr ⟨k, f, hf.member, by rw [hid, Nat.zero_add], ?_⟩
          rw [hs, layoutSlot]
          split <;> omega
        · exact .inl ⟨r', ps', k, f, ⟨hsuf, hf.member⟩, by omega, hid, hs⟩
    · rw [buildRecordLayoutFields, if_pos (Nat.le_of_not_lt hdepth)] at hl
      cases hl
      refine ⟨.inl, fun h => h.resolve_right ?_⟩
      rintro ⟨r', ps', k, f, hf, hd, _⟩
      have hlen := hf.level.length_le
      rw [length_cons, length_cons] at hlen
      rw [length_cons] at hd
      omega

theorem buildRecordLayoutFields_isSome (procs : List MethodSymbol) (h : List RecordType)
    (depth : Nat) (b : List RecordLayoutField) (hcount : getRecordSlotCount h < 0x10000) :
    ∃ l, buildRecordLayoutFields procs h depth b = some l := by
  induction h generalizing depth b with
  | nil => exact ⟨b, rfl⟩
  | cons r ps ih =>
    rw [buildRecordLayoutFields]
    by_cases hdepth : maxRecordEmbedDepth ≤ depth
    · rw [if_pos hdepth]
      exact ⟨b, rfl⟩
    · rw [if_neg hdepth]
      dsimp only
      have hbias := slotBias_le procs r ps
      have hfit : ¬ 0x10000 < getRecordSlotCount (r :: ps) + slotBias procs r ps := by omega
      rw [slotBias] at hfit
      rw [if_neg hfit]
      have hps : getRecordSlotCount ps < 0x10000 := by
        rw [getRecordSlotCount] at hcount
        omega
      obtain ⟨l, hl⟩ := ih (depth + 1) _ hps
      rw [hl]
      exact ⟨_, rfl⟩

theorem layoutSlot_eq (procs : List MethodSymbol) (r : RecordType) (hflat : NoFlat ps) (k : Nat)
    (f : Field) : layoutSlot procs r ps k f = slotBias procs r ps + memberSlot r ps k f := by
  unfold layoutSlot memberSlot RecordType.usesExplicitSlots
  rw [getRecordFieldCount_eq hflat]
  simp only [decide_eq_true_eq]
  omega

end Pscal
