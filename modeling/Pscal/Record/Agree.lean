import Pscal.Record.Offsets

/-!
# When the field slots agree

`SlotsAgree` is what the four numberings owe each other: one slot for each field, slots of
their own, and no slot for a name that nobody declares.  It fails as soon as a v-table is in
play, since each numbering adds the hidden slot at a level of its own, and
`slotsAgree_iff` says exactly where it holds.
-/

namespace Pscal

open List Option

def Member.fieldName? : Member → Option String
  | .field f => some f.name
  | .flat name => some name
  | .method _ _ => none

def Declared (h : List RecordType) (name : String) : Prop :=
  ∃ r ∈ h, ∃ m ∈ r.members, ∃ n, m.fieldName? = some n ∧ strcasecmpEq n name = true

/-- `s` is the slot of the declaration `id` for everyone -/
structure FieldSlot (procs : List MethodSymbol) (h : List RecordType) (id : FieldId)
    (name : String) (s : Nat) : Prop where
  access : ∀ myself line, pushFieldBaseAndResolveOffset procs h myself line name = .ok s
  operand : fieldOffsetOperand s = s
  default : ∀ i ∈ emitDefaultFieldInitializers procs h (recordTypeHasVTable procs h),
    i.field = id → i.slot = s
  array : ∀ i ∈ emitArrayFieldInitializers procs h (recordTypeHasVTable procs h),
    i.field = id → i.slot = s
  layout : ∃ l, buildRecordLayoutFields procs h 0 [] = some l ∧ HasSlot l (some id) s
  allocated : s < allocatedFieldCount procs h
  hidden : recordTypeNeedsVTableSlot procs h = true → s ≠ 0

structure SlotsAgree (procs : List MethodSymbol) (h : List RecordType) : Prop where
  field : ∀ r ps k f, FieldAt h r ps k f → ∃ s, FieldSlot procs h ⟨ps.length, k⟩ f.name s
  flat : ∀ r ps k name, r :: ps <:+ h → r.members[k]? = some (.flat name) →
    ∃ s, FieldSlot procs h ⟨ps.length, k⟩ name s
  /-- fields share a slot only as variants: explicit slots of one level -/
  distinct : ∀ r ps k f r' ps' k' f', FieldAt h r ps k f → FieldAt h r' ps' k' f' →
    (⟨ps.length, k⟩ : FieldId) ≠ ⟨ps'.length, k'⟩ →
    ¬ (ps.length = ps'.length ∧ r.usesExplicitSlots = true ∧ f.slot = f'.slot) →
    ∀ s s', FieldSlot procs h ⟨ps.length, k⟩ f.name s →
      FieldSlot procs h ⟨ps'.length, k'⟩ f'.name s' → s ≠ s'
  rejected : ∀ name, ¬ Declared h name → ∀ myself line,
    ∃ e, pushFieldBaseAndResolveOffset procs h myself line name = .error e

structure FieldFits (procs : List MethodSymbol) (h : List RecordType) (r : RecordType)
    (ps : List RecordType) (k : Nat) (f : Field) : Prop where
  /-- the hidden slot of the layout does not appear at the level of the field -/
  bias : slotBias procs r ps = 0
  initialised : f.arrayVar = false ∨ f.arrayType = true →
    recordTypeHasVTable procs (r :: ps) = false
  array : f.arrayType = true → memberSlot r ps k f < 2 ^ 8
  hidden : recordTypeNeedsVTableSlot procs h = true → memberSlot r ps k f ≠ 0
  depth : h.length ≤ maxRecordEmbedDepth + ps.length
  count : getRecordFieldCount h < 2 ^ 16

/-- the condition under which the slots of a hierarchy agree -/
structure SlotsAgreeWhen (procs : List MethodSymbol) (h : List RecordType) : Prop where
  noVTable : recordTypeHasVTable procs h = false
  noFlat : NoFlat h
  /-- `myself.method` is taken for a field -/
  methods : ∀ r ps name isVirtual, h = r :: ps → Member.method name isVirtual ∈ r.members →
    Declared h name
  field : ∀ r ps k f, FieldAt h r ps k f → FieldFits procs h r ps k f
  unique : ∀ r ps k f r' ps' k' f', FieldAt h r ps k f → FieldAt h r' ps' k' f' →
    f.name = f'.name → memberSlot r ps k f = memberSlot r' ps' k' f'

/-! ## accesses -/

theorem strcasecmpEq_iff (a b : String) :
    strcasecmpEq a b = true ↔ toLowerString a = toLowerString b := by
  unfold strcasecmpEq
  exact beq_iff_eq

theorem toLowerString_length (s : String) : (toLowerString s).length = s.length := by
  rw [toLowerString, String.length_ofList, length_map, String.length_toList]

variable {h : List RecordType} {myself : Bool}

theorem FieldAt.declared {r : RecordType} {ps : List RecordType} {k : Nat} {f : Field}
    (hf : FieldAt h r ps k f) : Declared h f.name :=
  ⟨r, hf.level.subset mem_cons_self, .field f, mem_of_getElem? hf.member, f.name, rfl,
    (strcasecmpEq_iff _ _).mpr rfl⟩

theorem exists_undeclared (h : List RecordType) : ∃ name, ¬ Declared h name := by
  have hbound : ∀ names : List String, ∃ n, ∀ s ∈ names, s.length < n := by
    intro names
    induction names with
    | nil => exact ⟨0, nofun⟩
    | cons s names ih =>
      obtain ⟨n, hn⟩ := ih
      refine ⟨n + s.length + 1, fun t ht => ?_⟩
      rcases mem_cons.mp ht with rfl | ht
      · omega
      · have := hn t ht
        omega
  obtain ⟨n, hn⟩ := hbound (h.flatMap fun r => r.members.filterMap Member.fieldName?)
  refine ⟨String.ofList (replicate n 'a'), ?_⟩
  rintro ⟨r, hr, m, hm, s, hs, heq⟩
  have hlt := hn s (mem_flatMap.mpr ⟨r, hr, mem_filterMap.mpr ⟨m, hm, hs⟩⟩)
  have hlen := congrArg String.length ((strcasecmpEq_iff _ _).mp heq)
  rw [toLowerString_length, toLowerString_length, String.length_ofList, length_replicate] at hlen
  omega

variable {name : String} {procs : List MethodSymbol}

theorem undeclared_offset (hflat : NoFlat h) (hname : ¬ Declared h name) :
    getRecordFieldOffset h name = -1 := by
  rcases getRecordFieldOffset_spec hflat name with ⟨hnone, _⟩ | ⟨r, ps, k, f, hf, rfl, _⟩
  · exact hnone
  · exact absurd hf.declared hname

/-- an access of a known field does not fall back on the search behind `myself` -/
theorem accessOffset_known {n : Nat} (hoff : getRecordFieldOffset h name = n) (myself : Bool) :
    accessOffset h myself name = n := by
  unfold accessOffset
  dsimp only
  rw [hoff]
  cases h with
  | nil => rfl
  | cons r ps =>
    have hfallback : ¬ ((n : Int) < 0 ∧ myself = true) := by omega
    exact if_neg hfallback

theorem pushField_ok (procs : List MethodSymbol) {n : Nat} (hoff : accessOffset h myself name = n)
    (line : Int) : pushFieldBaseAndResolveOffset procs h myself line name =
      .ok (n + if recordTypeHasVTable procs h then 1 else 0) := by
  unfold pushFieldBaseAndResolveOffset
  dsimp only
  rw [hoff, if_neg (by split <;> omega)]
  congr 1
  split <;> omega

theorem pushField_unknown_vtable (hoff : accessOffset h myself name = -1)
    (hv : recordTypeHasVTable procs h = true) (line : Int) :
    pushFieldBaseAndResolveOffset procs h myself line name = .ok 0 := by
  unfold pushFieldBaseAndResolveOffset
  dsimp only
  rw [hoff, if_pos hv]
  rfl

theorem pushField_unknown (hoff : accessOffset h myself name = -1)
    (hv : recordTypeHasVTable procs h = false) (line : Int) :
    ∃ e, pushFieldBaseAndResolveOffset procs h myself line name = .error e := by
  unfold pushFieldBaseAndResolveOffset
  dsimp only
  rw [hoff, hv]
  exact ⟨_, rfl⟩

theorem memberOffsetIgnoringCase_none (name : String) (ms : List Member) (offset : Nat) :
    memberOffsetIgnoringCase name ms offset = none ↔
      ∀ m ∈ ms, ¬ strcasecmpEq m.name name = true := by
  induction ms generalizing offset with
  | nil => simp [memberOffsetIgnoringCase]
  | cons m ms ih =>
    rw [memberOffsetIgnoringCase, forall_mem_cons]
    by_cases hm : strcasecmpEq m.name name = true
    · simp [hm]
    · rw [if_neg hm, ih]
      exact (and_iff_right hm).symm

theorem accessOffset_unknown {r : RecordType} {ps : List RecordType}
    (hoff : getRecordFieldOffset (r :: ps) name = -1) :
    accessOffset (r :: ps) true name =
      match memberOffsetIgnoringCase name r.members (getRecordFieldCount ps) with
      | some offset => (offset : Int)
      | none => -1 := by
  unfold accessOffset
  dsimp only
  rw [hoff]
  exact if_pos ⟨by omega, rfl⟩

theorem accessOffset_false : accessOffset h false name = getRecordFieldOffset h name := by
  unfold accessOffset
  cases h with
  | nil => rfl
  | cons r ps =>
    dsimp only
    exact if_neg (by simp)

theorem allocatedFieldCount_noVTable (hv : recordTypeHasVTable procs h = false) :
    allocatedFieldCount procs h =
      if getRecordFieldCount h ≤ 255 then getRecordFieldCount h
      else getRecordFieldCount h % 2 ^ 16 := by
  unfold allocatedFieldCount
  rw [hv]
  rfl

/-! ## the condition is necessary -/

section
variable {procs : List MethodSymbol} {h : List RecordType} (hagree : SlotsAgree procs h)
include hagree

theorem SlotsAgree.noFlat : NoFlat h := by
  intro r hr name hmem
  obtain ⟨front, ps, rfl⟩ := append_of_mem hr
  obtain ⟨k, hk⟩ := getElem?_of_mem hmem
  have hsuf : r :: ps <:+ front ++ r :: ps := suffix_append _ _
  obtain ⟨s, hs⟩ := hagree.flat r ps k name hsuf hk
  obtain ⟨l, hl, hslot⟩ := hs.layout
  rcases (buildRecordLayoutFields_slot procs _ 0 [] l hl _ s).mp hslot with
    ⟨e, he, _⟩ | ⟨r', ps', k', f, hf, _, hid, _⟩
  · exact absurd he not_mem_nil
  · obtain ⟨hlen, rfl⟩ := FieldId.mk.inj hid
    obtain ⟨rfl, rfl⟩ := level_unique hsuf hf.level hlen
    cases hk.symm.trans hf.member

theorem SlotsAgree.noVTable : recordTypeHasVTable procs h = false := by
  by_contra hv
  obtain ⟨name, hname⟩ := exists_undeclared h
  have hoff : accessOffset h false name = -1 := by
    rw [accessOffset_false]
    exact undeclared_offset hagree.noFlat hname
  obtain ⟨e, he⟩ := hagree.rejected name hname false 0
  rw [pushField_unknown_vtable hoff (by simpa using hv)] at he
  cases he

theorem SlotsAgree.methods {r : RecordType} {ps : List RecordType} {name : String}
    {isVirtual : Bool} (hh : h = r :: ps) (hmem : Member.method name isVirtual ∈ r.members) :
    Declared h name := by
  by_contra hname
  have hoff := undeclared_offset hagree.noFlat hname
  obtain ⟨e, he⟩ := hagree.rejected name hname true 0
  subst hh
  have hfound : memberOffsetIgnoringCase name r.members (getRecordFieldCount ps) ≠ none := by
    intro hnone
    exact (memberOffsetIgnoringCase_none _ _ _).mp hnone _ hmem ((strcasecmpEq_iff _ _).mpr rfl)
  obtain ⟨offset, hoffset⟩ := ne_none_iff_exists'.mp hfound
  have haccess : accessOffset (r :: ps) true name = (offset : Int) := by
    rw [accessOffset_unknown hoff, hoffset]
  rw [pushField_ok procs haccess] at he
  cases he

theorem SlotsAgree.slot {r : RecordType} {ps : List RecordType} {k : Nat} {f : Field}
    (hf : FieldAt h r ps k f) :
    slotBias procs r ps = 0 ∧ getRecordFieldOffset (r :: ps) f.name = memberSlot r ps k f ∧
      FieldSlot procs h ⟨ps.length, k⟩ f.name (memberSlot r ps k f) := by
  have hflat := hagree.noFlat
  obtain ⟨s, hs⟩ := hagree.field r ps k f hf
  -- the layout slot of any field, in closed form
  have hlayout : ∀ {r ps k f s}, FieldAt h r ps k f → FieldSlot procs h ⟨ps.length, k⟩ f.name s →
      s = slotBias procs r ps + memberSlot r ps k f := by
    intro r ps k f s hf hs
    obtain ⟨l, hl, hslot⟩ := hs.layout
    rcases (buildRecordLayoutFields_slot procs _ 0 [] l hl _ s).mp hslot with
      ⟨e, he, _⟩ | ⟨r', ps', k', f', hf', _, hid, hs'⟩
    · exact absurd he not_mem_nil
    · obtain ⟨hlen, rfl⟩ := FieldId.mk.inj hid
      obtain ⟨rfl, rfl⟩ := level_unique hf.level hf'.level hlen
      cases some.inj (hf.member.symm.trans hf'.member)
      rw [hs', layoutSlot_eq procs r (hflat.suffix ((suffix_cons r ps).trans hf.level))]
  -- the access finds a field `w` with the name, at this level or above
  rcases getRecordFieldOffset_spec (hflat.suffix hf.level) f.name with
    ⟨_, hall⟩ | ⟨r', ps', k', w, hw, hname, hoff⟩
  · exact absurd rfl (hall r ps k f ⟨suffix_rfl, hf.member⟩)
  · have hw' : FieldAt h r' ps' k' w := ⟨hw.level.trans hf.level, hw.member⟩
    have hoffh : getRecordFieldOffset h f.name = memberSlot r' ps' k' w := by
      rw [getRecordFieldOffset_suffix hf.level (by rw [hoff]; omega), hoff]
    have haccess : ∀ {s name id}, name = f.name → FieldSlot procs h id name s →
        s = memberSlot r' ps' k' w := by
      rintro s _ id rfl hs
      have hok := pushField_ok procs (accessOffset_known hoffh false) 0
      rw [hs.access false 0, hagree.noVTable] at hok
      simpa using hok
    obtain ⟨s', hs'⟩ := hagree.field r' ps' k' w hw'
    have hbias' : slotBias procs r' ps' = 0 := by
      have h1 := haccess hname hs'
      have h2 := hlayout hw' hs'
      omega
    have hsame : ps'.length = ps.length := by
      rcases suffix_cons_iff.mp hw.level with heq | hsuf
      · rw [(cons.inj heq).2]
      · have h1 := haccess rfl hs
        have h2 := hlayout hf hs
        have h3 := memberSlot_lt ps' hw.member
        have h4 := getRecordFieldCount_suffix hsuf
        have h5 := le_memberSlot r ps k f
        omega
    obtain ⟨rfl, rfl⟩ := level_unique hw'.level hf.level hsame
    have h1 := haccess rfl hs
    have h2 := hlayout hf hs
    have heq : memberSlot r' ps' k' w = memberSlot r' ps' k f := by omega
    have hsf : s = memberSlot r' ps' k f := by omega
    exact ⟨hbias', hoff.trans (by rw [heq]), hsf ▸ hs⟩

theorem SlotsAgree.fits {r : RecordType} {ps : List RecordType} {k : Nat} {f : Field}
    (hf : FieldAt h r ps k f) : FieldFits procs h r ps k f := by
  obtain ⟨hbias, hoff, hs⟩ := hagree.slot hf
  obtain ⟨l, hl, hslot⟩ := hs.layout
  have hlt : memberSlot r ps k f < getRecordFieldCount h :=
    Nat.lt_of_lt_of_le (memberSlot_lt ps hf.member) (getRecordFieldCount_suffix hf.level)
  -- one slot more than an operand can hold leaves no slot for anyone
  have hcount : getRecordFieldCount h < 2 ^ 16 := by
    have hle : getRecordFieldCount h ≤ 2 ^ 16 := by
      obtain ⟨r₀, ps₀, rfl⟩ : ∃ r₀ ps₀, h = r₀ :: ps₀ := by
        cases h with
        | nil => exact absurd (suffix_nil.mp hf.level) (by simp)
        | cons r₀ ps₀ => exact ⟨r₀, ps₀, rfl⟩
      have hfit := (buildRecordLayoutFields_cons hl (by decide)).1
      rw [getRecordFieldCount_eq hagree.noFlat]
      omega
    have halloc := hs.allocated
    rw [allocatedFieldCount_noVTable hagree.noVTable] at halloc
    split at halloc <;> omega
  have hinit : initOffset (r :: ps) (recordTypeHasVTable procs (r :: ps)) f =
      (memberSlot r ps k f + if recordTypeHasVTable procs (r :: ps) then 1 else 0 : Nat) := by
    rw [initOffset, hoff]
    split <;> rfl
  -- what the array initialiser of the field writes
  have harray : f.arrayType = true →
      (memberSlot r ps k f + if recordTypeHasVTable procs (r :: ps) then 1 else 0) % 2 ^ 8 =
        memberSlot r ps k f := by
    intro ha
    refine hs.array ⟨⟨ps.length, k⟩, _⟩ ?_ rfl
    refine (mem_fieldInitializers _ _ _ _ _).mpr ⟨r, ps, k, f, hf, ha, ?_, ?_⟩
    · rw [hinit]
      omega
    · rw [hinit]
      rfl
  refine ⟨hbias, fun hchosen => ?_, fun ha => ?_, fun hneed => hs.hidden hneed, ?_, hcount⟩
  · by_contra hv
    have hv : recordTypeHasVTable procs (r :: ps) = true := by simpa using hv
    rcases hchosen with hd | ha
    · have hslot : fieldOffsetOperand (memberSlot r ps k f + 1) = memberSlot r ps k f := by
        refine hs.default ⟨⟨ps.length, k⟩, _⟩ ?_ rfl
        refine (mem_fieldInitializers _ _ _ _ _).mpr ⟨r, ps, k, f, hf, by simp [hd], ?_, ?_⟩
        · rw [hinit]
          omega
        · rw [hinit, if_pos hv]
          rfl
      unfold fieldOffsetOperand at hslot
      split at hslot <;> omega
    · have := harray ha
      rw [if_pos hv] at this
      omega
  · have := harray ha
    omega
  · rcases (buildRecordLayoutFields_slot procs _ 0 [] l hl _ _).mp hslot with
      ⟨e, he, _⟩ | ⟨r', ps', k', f', hf', hd, hid, _⟩
    · exact absurd he not_mem_nil
    · obtain ⟨hlen, _⟩ := FieldId.mk.inj hid
      omega

theorem SlotsAgree.when : SlotsAgreeWhen procs h where
  noVTable := hagree.noVTable
  noFlat := hagree.noFlat
  methods := fun _ _ _ _ hh hmem => hagree.methods hh hmem
  field := fun _ _ _ _ hf => hagree.fits hf
  unique := by
    intro r ps k f r' ps' k' f' hf hf' hname
    have h1 := (hagree.slot hf).2.2.access false 0
    have h2 := (hagree.slot hf').2.2.access false 0
    rw [hname] at h1
    simpa using h1.symm.trans h2

end

/-! ## and sufficient -/

section
variable {procs : List MethodSymbol} {h : List RecordType} (hwhen : SlotsAgreeWhen procs h)
include hwhen

variable {f : Field} {k : Nat} {ps : List RecordType} {r : RecordType}

theorem SlotsAgreeWhen.offset (hf : FieldAt h r ps k f) :
    getRecordFieldOffset (r :: ps) f.name = memberSlot r ps k f ∧
      getRecordFieldOffset h f.name = memberSlot r ps k f := by
  rcases getRecordFieldOffset_spec (hwhen.noFlat.suffix hf.level) f.name with
    ⟨_, hall⟩ | ⟨r', ps', k', w, hw, hname, hoff⟩
  · exact absurd rfl (hall r ps k f ⟨suffix_rfl, hf.member⟩)
  · have hsame : memberSlot r' ps' k' w = memberSlot r ps k f :=
      hwhen.unique _ _ _ _ _ _ _ _ ⟨hw.level.trans hf.level, hw.member⟩ hf hname
    rw [hsame] at hoff
    exact ⟨hoff, by rw [getRecordFieldOffset_suffix hf.level (by rw [hoff]; omega), hoff]⟩

theorem SlotsAgreeWhen.init (hf : FieldAt h r ps k f) {chosen : Field → Bool} {operand : Nat → Nat}
    (hchosen : chosen f = true → f.arrayVar = false ∨ f.arrayType = true)
    (hoperand : chosen f = true → operand (memberSlot r ps k f) = memberSlot r ps k f)
    {i : FieldInit}
    (hi : i ∈ fieldInitializers procs chosen operand h (recordTypeHasVTable procs h))
    (hid : i.field = ⟨ps.length, k⟩) : i.slot = memberSlot r ps k f := by
  obtain ⟨r', ps', k', f', hf', hc, _, rfl⟩ := (mem_fieldInitializers _ _ _ _ _).mp hi
  obtain ⟨hlen, rfl⟩ := FieldId.mk.inj hid
  obtain ⟨rfl, rfl⟩ := level_unique hf'.level hf.level hlen
  cases some.inj (hf.member.symm.trans hf'.member)
  rw [initOffset, (hwhen.field _ _ _ _ hf).initialised (hchosen hc), (hwhen.offset hf).1]
  simpa using hoperand hc

theorem SlotsAgreeWhen.fieldSlot (hf : FieldAt h r ps k f) :
    FieldSlot procs h ⟨ps.length, k⟩ f.name (memberSlot r ps k f) := by
  have hfits := hwhen.field r ps k f hf
  have hlt : memberSlot r ps k f < getRecordFieldCount h :=
    Nat.lt_of_lt_of_le (memberSlot_lt ps hf.member) (getRecordFieldCount_suffix hf.level)
  have hcount := hfits.count
  have hoperand : fieldOffsetOperand (memberSlot r ps k f) = memberSlot r ps k f := by
    unfold fieldOffsetOperand
    split <;> omega
  refine ⟨fun myself line => ?_, hoperand, fun i hi hid => ?_, fun i hi hid => ?_, ?_, ?_,
    hfits.hidden⟩
  · rw [pushField_ok procs (accessOffset_known (hwhen.offset hf).2 myself), hwhen.noVTable]
    rfl
  · exact hwhen.init hf (fun hc => .inl (by simpa using hc)) (fun _ => hoperand) hi hid
  · refine hwhen.init hf .inr (fun ha => ?_) hi hid
    exact Nat.mod_eq_of_lt (hfits.array ha)
  · have hslots : getRecordSlotCount h < 0x10000 := by
      rw [← getRecordFieldCount_eq hwhen.noFlat]
      exact hcount
    obtain ⟨l, hl⟩ := buildRecordLayoutFields_isSome procs h 0 [] hslots
    refine ⟨l, hl, (buildRecordLayoutFields_slot procs _ 0 [] l hl _ _).mpr (.inr ?_)⟩
    refine ⟨r, ps, k, f, hf, ?_, rfl, ?_⟩
    · have := hfits.depth
      omega
    · rw [layoutSlot_eq procs r (hwhen.noFlat.suffix ((suffix_cons r ps).trans hf.level)),
        hfits.bias, Nat.zero_add]
  · rw [allocatedFieldCount_noVTable hwhen.noVTable]
    split <;> omega

theorem SlotsAgreeWhen.agree : SlotsAgree procs h where
  field := fun _ _ _ _ hf => ⟨_, hwhen.fieldSlot hf⟩
  flat := by
    intro r ps k name hsuf hmem
    exact absurd (mem_of_getElem? hmem) (hwhen.noFlat r (hsuf.subset mem_cons_self) name)
  distinct := by
    intro r ps k f r' ps' k' f' hf hf' hid hshare s s' hs hs' heq
    have hslot : memberSlot r ps k f = memberSlot r' ps' k' f' := by
      have h1 := (hs.access false 0).symm.trans ((hwhen.fieldSlot hf).access false 0)
      have h2 := (hs'.access false 0).symm.trans ((hwhen.fieldSlot hf').access false 0)
      have h1 : s = memberSlot r ps k f := by simpa using h1
      have h2 : s' = memberSlot r' ps' k' f' := by simpa using h2
      omega
    have hlen := memberSlot_level hf hf' hslot
    obtain ⟨rfl, rfl⟩ := level_unique hf.level hf'.level hlen
    unfold memberSlot at hslot
    by_cases he : r.usesExplicitSlots = true
    · rw [if_pos he, if_pos he] at hslot
      exact hshare ⟨rfl, he, by omega⟩
    · rw [if_neg he, if_neg he] at hslot
      exact hid (by rw [fieldsBefore_inj hf.member hf'.member (by omega)])
  rejected := by
    intro name hname myself line
    have hoff := undeclared_offset hwhen.noFlat hname
    refine pushField_unknown ?_ hwhen.noVTable line
    cases myself with
    | false => rw [accessOffset_false, hoff]
    | true =>
      cases h with
      | nil => rfl
      | cons r ps =>
        rw [accessOffset_unknown hoff]
        have hnone : memberOffsetIgnoringCase name r.members (getRecordFieldCount ps) = none := by
          refine (memberOffsetIgnoringCase_none _ _ _).mpr fun m hm heq => hname ?_
          cases m with
          | field f => exact ⟨r, mem_cons_self, _, hm, _, rfl, heq⟩
          | flat n => exact ⟨r, mem_cons_self, _, hm, _, rfl, heq⟩
          | method n v =>
            -- the method is named like a field, so the name is declared after all
            obtain ⟨r', hr', m, hm', n', hn', heq'⟩ := hwhen.methods r ps n v rfl hm
            refine ⟨r', hr', m, hm', n', hn', (strcasecmpEq_iff _ _).mpr ?_⟩
            exact ((strcasecmpEq_iff _ _).mp heq').trans ((strcasecmpEq_iff _ _).mp heq)
        rw [hnone]

end

theorem slotsAgree_iff (procs : List MethodSymbol) (h : List RecordType) :
    SlotsAgree procs h ↔ SlotsAgreeWhen procs h :=
  ⟨SlotsAgree.when, SlotsAgreeWhen.agree⟩

def shapeClass : RecordType where
  typeName := some "shape"
  members := [.field { name := "x" }]
  slotsOk := fun h => absurd h (by decide)

def circleClass : RecordType where
  typeName := some "circle"
  members := [.field { name := "r" }, .method "draw" true]
  slotsOk := fun h => absurd h (by decide)

/-- `x` is read in slot 1 of a circle, while its default goes into slot 0; and the unknown
field `q` is slot 0. -/
theorem circle_slots_disagree :
    ¬ SlotsAgree [] [circleClass, shapeClass] ∧
    pushFieldBaseAndResolveOffset [] [circleClass, shapeClass] false 1 "x" = .ok 1 ∧
    emitDefaultFieldInitializers [] [circleClass, shapeClass] true = [⟨⟨0, 0⟩, 0⟩, ⟨⟨1, 0⟩, 2⟩] ∧
    pushFieldBaseAndResolveOffset [] [circleClass, shapeClass] false 1 "q" = .ok 0 := by
  refine ⟨fun hagree => ?_, rfl, by decide, rfl⟩
  obtain ⟨s, hs⟩ := hagree.field shapeClass [] 0 { name := "x" } ⟨⟨[circleClass], rfl⟩, rfl⟩
  have haccess := hs.access false 1
  have hdefault : (0 : Nat) = s := hs.default ⟨⟨0, 0⟩, 0⟩ (by decide) rfl
  rw [← hdefault] at haccess
  revert haccess
  decide

end Pscal
