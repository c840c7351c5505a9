import Pscal.Cache.Values
import Mathlib

/-!
# A written value is read back

* `SameValue`  a value and what it comes back as;
* `CacheValue.Storable`  the lengths of a value are of their C types, its scalars and the values of
  its maps are as they are stored, and it nests within the limit;
* `readsBack_value`  a storable value that is written is read back.
-/

namespace Pscal

open Wire Wire.Reader List Option

/-! ## scalars -/

theorem toInt64_ofInt (v : Int) : (UInt64.ofInt v).toInt64.toInt = v.bmod (2 ^ 64) := by
  have hnonneg : 0 ≤ v % 2 ^ 64 := Int.emod_nonneg v (by decide)
  show (Int64.ofNat (v % 2 ^ 64).toNat).toInt = _
  rw [Int64.toInt_ofNat', Int.toNat_of_nonneg hnonneg]
  exact Int.emod_bmod v (2 ^ 64)

theorem Scalar.ofInt_eq {t : IntType} {v : Int} {s : Scalar} (ht : s.type = t)
    (hv : t.store v = s.value) : Scalar.ofInt t v = s := by
  subst ht
  cases s
  simp only [Scalar.ofInt, hv]

theorem Scalar.ofInt_toInt64 (s : Scalar) :
    Scalar.ofInt s.type (UInt64.ofInt s.value).toInt64.toInt = s :=
  Scalar.ofInt_eq rfl (by rw [toInt64_ofInt]; exact IntType.store_bmod s.stored)

theorem toNat_ofInt32 (v : Int) : ((UInt32.ofInt v).toNat : Int) = v % 2 ^ 32 := by
  have hnonneg : 0 ≤ v % 2 ^ 32 := Int.emod_nonneg v (by decide)
  have hlt : v % 2 ^ 32 < 2 ^ 32 := Int.emod_lt_of_pos v (by decide)
  show ((UInt32.ofNat (v % 2 ^ 32).toNat).toNat : Int) = _
  rw [UInt32.toNat_ofNat']
  omega

/-! ## what a value comes back as -/

section
variable {σ κ : Type} (ops : CodecOps σ κ)

def EnumObj.nameText (obj : Option EnumObj) : Bytes :=
  (obj.bind EnumObj.enumName).elim [] CString.bytes

inductive SamePointer : PointerObj κ → PointerObj κ → Prop where
  | charPtr (base base' : CharPtrSentinel) (text : CString) :
      SamePointer (.charPtr base (some text)) (.charPtr base' (some text))
  | function (fn : κ) : SamePointer (.function (some fn)) (.function (some fn))
  | nil {base base' : TypeAst} (h : SameAst base base') :
      SamePointer (.typed base 0) (.typed base' 0)
  /-- of another pointer the address comes back, not the base type -/
  | typed {base : TypeAst} {address : UInt64} (h : address ≠ 0) :
      SamePointer (.typed base address) (.marked .opaquePointer address)
  | marked (base : PointerSentinel) (address : UInt64) :
      SamePointer (.marked base address) (.marked .opaquePointer address)

/-- A null object comes back as an empty one of its kind, unless the format can tell them apart;
a `long double` comes back from a `double`. -/
inductive SameValue : CacheValue κ → CacheValue κ → Prop where
  | scalar (s : Scalar) : SameValue (.scalar s) (.scalar s)
  | float (bits : UInt32) : SameValue (.float bits) (.float bits)
  | double (word : UInt64) : SameValue (.double word) (.double word)
  | longDouble (bits : Nat) :
      SameValue (.longDouble bits) (.longDouble (ops.ldOfDouble (ops.doubleOfLd bits)))
  | void : SameValue .void .void
  | nil : SameValue .nil .nil
  | handle (t : HandleType) : SameValue (.handle t false) (.handle t false)
  | str {t : StringType} {obj obj' : Option StringObj}
      (h : obj.bind StringObj.buffer = obj'.bind StringObj.buffer) :
      SameValue (.str t obj) (.str t obj')
  | enum {obj obj' : Option EnumObj} (hname : EnumObj.nameText obj = EnumObj.nameText obj')
      (hordinal : obj.elim 0 EnumObj.ordinal = obj'.elim 0 EnumObj.ordinal) :
      SameValue (.enum obj) (.enum obj')
  | set {obj obj' : Option (List Int64)} (h : obj.getD [] = obj'.getD []) :
      SameValue (.set obj) (.set obj')
  | nullArray : SameValue .nullArray (.array VarType.void.code false [] [])
  | array {elementType : UInt32} {isDynamic isDynamic' : Bool} {bounds : List (Int32 × Int32)}
      {elements elements' : List (CacheValue κ)} (h : List.Forall₂ SameValue elements elements') :
      SameValue (.array elementType isDynamic bounds elements)
        (.array elementType isDynamic' bounds elements')
  | packedArray {elementType : UInt32} {isDynamic isDynamic' : Bool}
      {bounds : List (Int32 × Int32)} {raw raw' : Option Bytes} (h : raw.getD [] = raw'.getD []) :
      SameValue (.packedArray elementType isDynamic bounds raw)
        (.packedArray elementType isDynamic' bounds raw')
  | nullMap : SameValue .nullMap .nullMap
  | map {valueType : UInt32} {entries : List (Bytes × CacheValue κ)} {values : List (CacheValue κ)}
      (h : List.Forall₂ SameValue (entries.map Prod.snd) values) :
      SameValue (.map valueType entries) (.map valueType ((entries.map Prod.fst).zip values))
  | mstream (contents : Option Bytes) : SameValue (.mstream contents) (.mstream contents)
  | nullPointer : SameValue (.pointer none) (.pointer none)
  | pointer {p p' : PointerObj κ} (h : SamePointer p p') :
      SameValue (.pointer (some p)) (.pointer (some p'))

/-! ## which values are stored -/

def PointerObj.Storable (levels : Nat) : PointerObj κ → Prop
  | .charPtr _ text => ∀ t ∈ text, t.bytes.length < 2 ^ 64
  -- a shell function is read back by the reader of its sections
  | .function fn =>
    ∀ f ∈ fn, ∀ bs, ops.writeFunction f = some bs → ReadsBack (ops.readFunction levels) bs f
  | .typed base address => address = 0 → base.Within levels
  | .marked _ _ => True

def CacheValue.Storable : Nat → CacheValue κ → Prop
  | 0, _ => False
  | _ + 1, .float bits => ops.floatOfFloat bits = bits
  | _ + 1, .double word => pscalBoxDouble word = word
  | _ + 1, .str _ obj => ∀ buf ∈ obj.bind StringObj.buffer, buf.bytes.length < 2 ^ 64
  | _ + 1, .enum obj => (EnumObj.nameText obj).length < 2 ^ 64
  | _ + 1, .set obj => (obj.getD []).length < 2 ^ 31
  | levels + 1, .array elementType _ bounds elements =>
    isPackedByteElementType elementType = false ∧ bounds.length < 2 ^ 31 ∧
      (∀ total ∈ arrayCodecElementCount bounds, elements.length = total) ∧
      ∀ v ∈ elements, v.Storable levels
  | levels + 1, .packedArray elementType _ bounds raw =>
    isPackedByteElementType elementType = true ∧ bounds.length < 2 ^ 31 ∧
      (∀ total ∈ arrayCodecElementCount bounds, (raw.getD []).length = total) ∧
      (raw.getD [] ≠ [] → 0 < levels)
  | levels + 1, .map valueType entries =>
    valueType.toNat < 2 ^ 8 ∧ entries.length < 2 ^ 32 ∧ (OrderedMap.keys entries).Nodup ∧
      ∀ e ∈ entries, e.1.length < 2 ^ 64 ∧ mapCoerceStored ops valueType e.2 = e.2 ∧
        e.2.Storable levels
  | _ + 1, .mstream contents => (contents.getD []).length < 2 ^ 31
  | levels + 1, .pointer obj => ∀ p ∈ obj, p.Storable ops levels
  | _ + 1, _ => True

/-! ## the readers of the switch -/

variable {ops}

theorem CString.ofBuffer_bytes (text : CString) : CString.ofBuffer text.bytes = text := by
  have h : text.bytes.takeWhile (· ≠ 0) = text.bytes := by
    rw [takeWhile_eq_self_iff]
    intro b hb
    exact decide_eq_true fun h0 => text.noNul (h0 ▸ hb)
  cases text
  simpa only [CString.ofBuffer, CString.mk.injEq] using h

variable {s : Scalar} {p : Bytes} {v : CacheValue κ} {bounds : List (Int32 × Int32)}
  {P : CacheValue κ → Prop}

theorem readsBack_int (h : ¬ (s.type = .char ∨ s.type = .widechar)) :
    ReadsBack (readInt s.type) (writeScalar s) (CacheValue.scalar (κ := κ) s) (σ := σ) := by
  rw [writeScalar, if_neg h]
  have hread := (Reads.back (σ := σ) (reads_curU64LE (UInt64.ofInt s.value))).map fun n =>
    CacheValue.scalar (κ := κ) (Scalar.ofInt s.type n.toInt64.toInt)
  rwa [Scalar.ofInt_toInt64] at hread

theorem readsBack_string {t : StringType} {obj : Option StringObj}
    (h : ∀ buf ∈ obj.bind StringObj.buffer, buf.bytes.length < 2 ^ 64)
    (hw : writePayload ops (.str t obj) = some p) :
    ∃ v', SameValue ops (.str t obj) v' ∧ ReadsBack (σ := σ) (readString t) p v' := by
  rw [writePayload] at hw
  cases hbuf : obj.bind StringObj.buffer with
  | none =>
    rw [hbuf] at hw
    obtain rfl := some.inj hw
    refine ⟨.str t (some { buffer := none }), .str hbuf, ?_⟩
    refine .last (Reads.back (reads_curU8 0)) (.then readsBack_hasError ?_)
    exact .pure _
  | some buf =>
    rw [hbuf] at hw
    obtain rfl := some.inj hw
    refine ⟨.str t (some { buffer := some buf }), .str hbuf, ?_⟩
    refine .bind (Reads.back (reads_curU8 1)) (.then readsBack_hasError ?_)
    refine .last (Reads.back (reads_curLenPrefixedString (h buf hbuf))) ?_
    refine .then readsBack_hasError ?_
    rw [if_neg (by simp), map_some, CString.ofBuffer_bytes]
    exact .pure _

def EnumObj.storedName (name : Bytes) : Option CString :=
  if name.length = 0 then none else some (CString.ofBuffer name)

theorem EnumObj.storedName_text (obj : Option EnumObj) :
    (storedName (nameText obj)).elim [] CString.bytes = nameText obj := by
  rw [nameText]
  cases obj.bind EnumObj.enumName with
  | none => rfl
  | some text =>
    rw [storedName, elim_some, CString.ofBuffer_bytes]
    split
    · exact (length_eq_zero_iff.mp ‹_›).symm
    · rfl

theorem readsBack_enum {obj : Option EnumObj} (h : (EnumObj.nameText obj).length < 2 ^ 64)
    (hw : writePayload ops (.enum obj) = some p) :
    ∃ v', SameValue ops (.enum obj) v' ∧ ReadsBack (σ := σ) readEnum p v' := by
  rw [writePayload] at hw
  obtain rfl := some.inj hw
  refine ⟨.enum (some
      { enumName := EnumObj.storedName (EnumObj.nameText obj)
        ordinal := obj.elim 0 EnumObj.ordinal }),
    .enum (EnumObj.storedName_text obj).symm rfl, ?_⟩
  refine .bind (Reads.back (reads_curLenPrefixedString h)) ?_
  refine .then readsBack_hasError ?_
  refine .last (Reads.back (reads_curI32LE _)) (.then readsBack_hasError ?_)
  exact .pure _

theorem readsBack_set {obj : Option (List Int64)} (h : (obj.getD []).length < 2 ^ 31)
    (hw : writePayload ops (.set obj) = some p) :
    ∃ v', SameValue ops (.set obj) v' ∧ ReadsBack (σ := σ) readSet p v' := by
  rw [writePayload] at hw
  obtain rfl := some.inj hw
  have hvalues := readsBack_times_map (l := obj.getD []) (f := Int64.toUInt64) fun v _ =>
    Reads.back (σ := σ) (reads_curU64LE v.toUInt64)
  have hback : ((obj.getD []).map Int64.toUInt64).map UInt64.toInt64 = obj.getD [] := by
    rw [List.map_map]
    exact (map_congr_left fun v _ => Int64.toInt64_toUInt64 v).trans (List.map_id _)
  refine ⟨.set (some (obj.getD [])), .set rfl, ?_⟩
  refine .bind (Reads.back (reads_curI32LE _)) (.then readsBack_hasError ?_)
  rw [if_neg (by rw [toInt_ofNat h]; simp), toInt_ofNat h, Int.toNat_natCast]
  refine .last hvalues (.then readsBack_hasError ?_)
  rw [hback]
  exact .pure _

theorem readsBack_mstream {contents : Option Bytes} (h : (contents.getD []).length < 2 ^ 31)
    (hw : writePayload ops (.mstream contents) = some p) :
    ∃ v', SameValue ops (.mstream contents) v' ∧ ReadsBack (σ := σ) readMemoryStream p v' := by
  refine ⟨.mstream contents, .mstream contents, ?_⟩
  cases contents with
  | none =>
    rw [writePayload] at hw
    obtain rfl := some.inj hw
    refine .last (Reads.back (reads_curU8 0)) (.then readsBack_hasError ?_)
    exact .pure _
  | some contents =>
    rw [writePayload] at hw
    obtain rfl := some.inj hw
    have hlt : contents.length < 2 ^ 64 := Nat.lt_trans h (by decide)
    refine .bind (Reads.back (reads_curU8 1)) (.then readsBack_hasError ?_)
    refine .last (Reads.back (reads_curLenPrefixedString hlt)) ?_
    refine .then readsBack_hasError ?_
    rw [if_neg (by simp)]
    exact .pure _

variable {levels : Nat} {value : Reader σ (CacheValue κ)}

theorem readsBack_address (address : UInt64) :
    ReadsBack (readPointerValue ops levels) (bufU8 3 ++ bufU64LE address)
      (some (.marked .opaquePointer address)) := by
  refine .bind (Reads.back (reads_curU8 3)) (.then readsBack_hasError ?_)
  refine .last (Reads.back (reads_curU64LE address)) ?_
  exact .then readsBack_hasError (.pure _)

theorem readsBack_pointer {obj : Option (PointerObj κ)} (h : ∀ q ∈ obj, q.Storable ops levels)
    (hw : writePointerValue ops obj = some p) :
    ∃ obj', SameValue ops (.pointer obj) (.pointer obj') ∧
      ReadsBack (readPointerValue ops levels) p obj' := by
  cases obj with
  | none =>
    obtain rfl := some.inj hw
    refine ⟨none, .nullPointer, ?_⟩
    refine .last (Reads.back (reads_curU8 0)) (.then readsBack_hasError ?_)
    exact .pure none
  | some q =>
    have hq := h q rfl
    cases q with
    | charPtr base text =>
      cases text with
      | none => exact absurd hw (by simp [writePointerValue])
      | some text =>
        obtain rfl := some.inj hw
        refine ⟨some (.charPtr .serializedCharPtr (some text)),
          .pointer (SamePointer.charPtr _ _ text), ?_⟩
        refine .bind (Reads.back (reads_curU8 2)) (.then readsBack_hasError ?_)
        refine .last (Reads.back (reads_curLenPrefixedString (hq text rfl))) ?_
        refine .then readsBack_hasError ?_
        rw [if_neg (by simp), map_some, CString.ofBuffer_bytes]
        exact .pure _
    | function fn =>
      cases fn with
      | none => exact absurd hw (by simp [writePointerValue])
      | some fn =>
        simp only [writePointerValue, bind_eq_bind, bind_some, bind_eq_some_iff] at hw
        obtain ⟨chunk, hchunk, hp⟩ := hw
        obtain rfl := some.inj hp
        refine ⟨some (.function (some fn)), .pointer (SamePointer.function fn), ?_⟩
        refine .bind (Reads.back (reads_curU8 1)) (.then readsBack_hasError ?_)
        exact .last (hq fn rfl chunk hchunk) (.pure _)
    | typed base address =>
      rw [writePointerValue] at hw
      by_cases hnil : address = 0
      · rw [if_pos hnil] at hw
        obtain rfl := some.inj hw
        subst hnil
        obtain ⟨base', hsame, hbase⟩ := readsBack_ast (σ := σ) (hq rfl)
        refine ⟨some (.typed base' 0), .pointer (SamePointer.nil hsame), ?_⟩
        refine .bind (Reads.back (reads_curU8 4)) (.then readsBack_hasError ?_)
        refine .last hbase (.then readsBack_hasError ?_)
        exact .pure _
      · rw [if_neg hnil] at hw
        obtain rfl := some.inj hw
        exact ⟨_, .pointer (SamePointer.typed hnil), readsBack_address address⟩
    | marked base address =>
      rw [writePointerValue] at hw
      by_cases howned : address = 0 ∧ base = .ownedPointer
      · rw [if_pos howned] at hw
        cases hw
      · rw [if_neg howned] at hw
        obtain rfl := some.inj hw
        exact ⟨_, .pointer (SamePointer.marked base address), readsBack_address address⟩

/-! ## arrays and maps -/

theorem writeValue_eq_some {bs : Bytes} : writeValue ops v = some bs ↔
      ∃ payload, writePayload ops v = some payload ∧ bufU32LE v.type.code ++ payload = bs := by
  rw [writeValue]
  simp only [bind_eq_bind, bind_eq_some_iff, Option.pure_def, some.injEq]

theorem four_le_length_writeValue {bs : Bytes} (h : writeValue ops v = some bs) :
    4 ≤ bs.length := by
  obtain ⟨payload, _, rfl⟩ := writeValue_eq_some.mp h
  rw [length_append, bufU32LE, length_le]
  omega

theorem writeValues_spec {vs : List (CacheValue κ)} {cells : Bytes}
    (hw : writeValues ops vs.length vs = some cells) :
    (∀ v ∈ vs, ∃ bs, writeValue ops v = some bs) ∧
      cells = vs.flatMap (fun v => (writeValue ops v).getD []) ∧ 4 * vs.length ≤ cells.length := by
  induction vs generalizing cells with
  | nil =>
    obtain rfl := some.inj hw
    exact ⟨fun _ h => absurd h not_mem_nil, rfl, Nat.le.refl⟩
  | cons v vs ih =>
    simp only [length_cons, writeValues, bind_eq_bind, bind_eq_some_iff,
      Option.pure_def, some.injEq] at hw
    obtain ⟨payload, hpayload, cells', hcells, rfl⟩ := hw
    have hv := writeValue_eq_some.mpr ⟨payload, hpayload, rfl⟩
    have hlen := four_le_length_writeValue hv
    obtain ⟨hall, heq, hle⟩ := ih hcells
    refine ⟨?_, ?_, ?_⟩
    · intro u hu
      rcases mem_cons.mp hu with rfl | hu
      · exact ⟨_, hv⟩
      · exact hall u hu
    · rw [flatMap_cons, hv, getD_some, ← heq]
    · rw [length_append, length_cons]
      omega

/-- a reader of values that reads back what is written of some of them -/
def ReadsValues (ops : CodecOps σ κ) (value : Reader σ (CacheValue κ))
    (P : CacheValue κ → Prop) : Prop :=
  ∀ v bs, P v → writeValue ops v = some bs → ∃ v', SameValue ops v v' ∧ ReadsBack value bs v'

theorem readsBack_bounds (bounds : List (Int32 × Int32)) : ReadsBack (σ := σ) (times (do
      let lb ← curI32LE
      let ub ← curI32LE
      return (lb, ub)) bounds.length)
      (bounds.flatMap fun b => bufI32LE b.1 ++ bufI32LE b.2) bounds := by
  have h := readsBack_times_map (σ := σ) (m := do
    let lb ← curI32LE
    let ub ← curI32LE
    return (lb, ub)) (l := bounds) (f := id) fun b _ =>
      .bind (Reads.back (reads_curI32LE b.1))
        (.map (Reads.back (reads_curI32LE b.2)) fun ub => (b.1, ub))
  rwa [List.map_id] at h

/-- the cells of an array after its head, by the reader of its values -/
theorem readsBack_arrayHead (elementType : UInt32) {total : Nat} {cells : Bytes}
    {elements : List (CacheValue κ)} (hdims : bounds.length < 2 ^ 31)
    (htotal : arrayCodecElementCount bounds = some total) (hlen : 4 * total ≤ cells.length)
    (hcells : ReadsBack (times value total) cells elements) :
    ReadsBack (readArray value) (writeArrayHead elementType bounds ++ cells)
      (if isPackedByteElementType elementType then
        .packedArray elementType false bounds
          (if total = 0 then none else some (elements.map fun v => UInt8.ofInt v.asInteger))
      else .array elementType false bounds elements) := by
  have hcount := toInt_ofNat hdims
  rw [writeArrayHead, append_assoc, append_assoc]
  refine .bind (Reads.back (reads_curI32LE _)) (.then readsBack_hasError ?_)
  rw [if_neg (by rw [hcount]; simp), hcount, Int.toNat_natCast]
  refine .bind (Reads.back (reads_curU32LE elementType)) ?_
  refine .then readsBack_hasError ?_
  refine .bind (readsBack_bounds bounds) (.then readsBack_hasError ?_)
  rw [if_neg Bool.false_ne_true, htotal]
  refine .remaining ?_ fun n hn => if_neg ?_
  · refine .last hcells ?_
    cases isPackedByteElementType elementType with
    | true => exact .pure _
    | false => exact .pure _
  · omega

theorem readsBack_array {elementType : UInt32} {isDynamic : Bool} {elements : List (CacheValue κ)}
    (hvalue : ReadsValues ops value P) (helem : isPackedByteElementType elementType = false)
    (hdims : bounds.length < 2 ^ 31)
    (hcount : ∀ total ∈ arrayCodecElementCount bounds, elements.length = total)
    (hP : ∀ v ∈ elements, P v)
    (hw : writePayload ops (.array elementType isDynamic bounds elements) = some p) :
    ∃ v', SameValue ops (.array elementType isDynamic bounds elements) v' ∧
      ReadsBack (readArray value) p v' := by
  simp only [writePayload, bind_eq_bind, bind_eq_some_iff, Option.pure_def, some.injEq] at hw
  obtain ⟨total, htotal, cells, hcells, rfl⟩ := hw
  obtain rfl := hcount total htotal
  obtain ⟨hall, rfl, hle⟩ := writeValues_spec hcells
  obtain ⟨elements', hsame, hread⟩ := readsBack_times (m := value) (R := SameValue ops)
    (w := fun v => (writeValue ops v).getD []) (l := elements) fun v hv => by
      obtain ⟨bs, hbs⟩ := hall v hv
      show ∃ v', SameValue ops v v' ∧ ReadsBack value ((writeValue ops v).getD []) v'
      rw [hbs]
      exact hvalue v bs (hP v hv) hbs
  have harray := readsBack_arrayHead elementType hdims htotal hle hread
  rw [helem] at harray
  exact ⟨_, .array hsame, harray⟩

theorem length_writePackedBytes (raw : Bytes) :
    (writePackedBytes raw).length = 12 * raw.length := by
  induction raw with
  | nil => rfl
  | cons b raw ih =>
    rw [writePackedBytes, flatMap_cons, length_append, ← writePackedBytes, ih]
    simp only [length_append, length_cons, bufU32LE, bufU64LE, length_le]
    omega

theorem byteValue (b : UInt8) : (Scalar.ofInt .byte b.toNat).value = b.toNat := by
  have hlt := b.toNat_lt
  exact Int.emod_eq_of_lt (by omega) (by omega)

theorem asInteger_byteValue (b : UInt8) :
    UInt8.ofInt (CacheValue.asInteger (κ := κ) (.scalar (Scalar.ofInt .byte b.toNat))) = b := by
  have hlt := b.toNat_lt
  have hvalue : ((Scalar.ofInt .byte b.toNat).value).bmod (2 ^ 64) = b.toNat := by
    rw [byteValue]
    exact Int.bmod_eq_of_le (by omega) (by omega)
  rw [CacheValue.asInteger, hvalue]
  apply UInt8.toNat_inj.mp
  show (UInt8.ofNat ((b.toNat : Int) % 2 ^ 8).toNat).toNat = _
  rw [UInt8.toNat_ofNat']
  omega

theorem readsBack_packedBytes (hvalue : ReadsValues ops value P) {raw : Bytes}
    (hP : raw ≠ [] → ∀ s, s.type = .byte → P (.scalar s)) :
    ReadsBack (times value raw.length) (writePackedBytes raw)
      (raw.map fun b => .scalar (Scalar.ofInt .byte b.toNat)) := by
  refine readsBack_times_map fun b hb => ?_
  have hs := hP (ne_nil_of_mem hb) (Scalar.ofInt .byte b.toNat) rfl
  obtain ⟨v', hsame, hread⟩ := hvalue _ _ hs rfl
  cases hsame
  have hlt := b.toNat_lt
  have hword : UInt64.ofInt (Scalar.ofInt .byte b.toNat).value = b.toUInt64 := by
    rw [byteValue]
    apply UInt64.toNat_inj.mp
    show (UInt64.ofNat ((b.toNat : Int) % 2 ^ 64).toNat).toNat = _
    rw [UInt8.toNat_toUInt64, UInt64.toNat_ofNat']
    omega
  rw [← hword]
  exact hread

theorem readsBack_packedArray {elementType : UInt32} {isDynamic : Bool} {raw : Option Bytes}
    (hvalue : ReadsValues ops value P) (helem : isPackedByteElementType elementType = true)
    (hdims : bounds.length < 2 ^ 31)
    (hcount : ∀ total ∈ arrayCodecElementCount bounds, (raw.getD []).length = total)
    (hP : raw.getD [] ≠ [] → ∀ s, s.type = .byte → P (.scalar s))
    (hw : writePayload ops (.packedArray elementType isDynamic bounds raw) = some p) :
    ∃ v', SameValue ops (.packedArray elementType isDynamic bounds raw) v' ∧
      ReadsBack (readArray value) p v' := by
  simp only [writePayload, bind_eq_bind, bind_eq_some_iff] at hw
  obtain ⟨total, htotal, hw⟩ := hw
  have hlen := hcount total htotal
  have hread := readsBack_packedBytes hvalue hP
  have hp : p = writeArrayHead elementType bounds ++ writePackedBytes (raw.getD []) := by
    by_cases hzero : total = 0
    · rw [if_pos hzero] at hw
      rw [length_eq_zero_iff.mp (hlen.trans hzero)]
      exact (some.inj hw).symm.trans (append_nil _).symm
    · rw [if_neg hzero] at hw
      cases raw with
      | none => exact absurd hlen.symm hzero
      | some raw =>
        rw [getD_some] at hlen ⊢
        rw [← hlen, bind_some, take_length] at hw
        exact (some.inj hw).symm
  have hle : 4 * total ≤ (writePackedBytes (raw.getD [])).length := by
    rw [length_writePackedBytes, hlen]
    omega
  rw [hlen] at hread
  have harray := readsBack_arrayHead elementType hdims htotal hle hread
  rw [helem] at harray
  rw [hp]
  refine ⟨_, .packedArray ?_, harray⟩
  by_cases hzero : total = 0
  · rw [if_pos hzero]
    exact length_eq_zero_iff.mp (hlen.trans hzero)
  · rw [if_neg hzero, getD_some, List.map_map]
    exact ((map_congr_left fun b _ => asInteger_byteValue b).trans (List.map_id _)).symm

theorem SameValue.coerced {want : UInt32} {v' : CacheValue κ} (h : SameValue ops v v')
    (hv : mapCoerceStored ops want v = v) : mapCoerceStored ops want v' = v' := by
  cases h with
  | scalar s => exact hv
  | _ => rfl

theorem readsBack_entries {valueType : UInt32} {m entries : List (Bytes × CacheValue κ)}
    (hvalue : ReadsValues ops value P) (hkeys : (OrderedMap.keys (m ++ entries)).Nodup)
    (hentries : ∀ e ∈ entries, e.1.length < 2 ^ 64 ∧ mapCoerceStored ops valueType e.2 = e.2 ∧ P
      e.2) (hw : writeEntries ops entries = some p) :
    ∃ values, Forall₂ (SameValue ops) (entries.map Prod.snd) values ∧
      ReadsBack (readEntries ops valueType value entries.length m) p
        (m ++ (entries.map Prod.fst).zip values) := by
  induction entries generalizing m p with
  | nil =>
    obtain rfl := some.inj hw
    refine ⟨[], Forall₂.nil, ?_⟩
    rw [map_nil, zip_nil_left, append_nil]
    exact .pure m
  | cons e entries ih =>
    obtain ⟨key, v⟩ := e
    simp only [writeEntries, bind_eq_bind, bind_eq_some_iff, Option.pure_def, some.injEq] at hw
    obtain ⟨payload, hpayload, cells, hcells, rfl⟩ := hw
    obtain ⟨hlen, hcoerce, hP⟩ := hentries (key, v) mem_cons_self
    obtain ⟨v', hsame, hread⟩ := hvalue v _ hP (writeValue_eq_some.mpr ⟨payload, hpayload, rfl⟩)
    have hkeys' : (OrderedMap.keys ((m ++ [(key, v')]) ++ entries)).Nodup := by
      simpa only [OrderedMap.keys, map_append, map_cons, map_nil,
        append_assoc, singleton_append] using hkeys
    have hnew : key ∉ OrderedMap.keys m := by
      rw [OrderedMap.keys, map_append, map_cons] at hkeys
      exact fun hmem => (nodup_append.mp hkeys).2.2 key hmem key mem_cons_self rfl
    have hset : OrderedMap.set m key (mapCoerceStored ops valueType v') = m ++ [(key, v')] := by
      rw [hsame.coerced hcoerce, OrderedMap.set, if_neg hnew]
    obtain ⟨values, hvalues, hrest⟩ := ih hkeys'
      (fun e he => hentries e (mem_cons_of_mem _ he)) hcells
    refine ⟨v' :: values, Forall₂.cons hsame hvalues, ?_⟩
    rw [append_assoc]
    refine .bind (Reads.back (reads_curLenPrefixedString hlen)) ?_
    refine .then readsBack_hasError ?_
    rw [if_neg (by simp)]
    refine .bind hread ?_
    rw [getD_some, hset]
    rw [append_assoc] at hrest
    exact hrest

theorem readsBack_map {valueType : UInt32} {entries : List (Bytes × CacheValue κ)}
    (hvalue : ReadsValues ops value P) (htype : valueType.toNat < 2 ^ 8)
    (hcount : entries.length < 2 ^ 32) (hkeys : (OrderedMap.keys entries).Nodup)
    (hentries : ∀ e ∈ entries, e.1.length < 2 ^ 64 ∧ mapCoerceStored ops valueType e.2 = e.2 ∧ P
      e.2) (hw : writePayload ops (.map valueType entries) = some p) :
    ∃ v', SameValue ops (.map valueType entries) v' ∧ ReadsBack (readMap ops value) p v' := by
  simp only [writePayload, bind_eq_bind, bind_eq_some_iff, Option.pure_def, some.injEq] at hw
  obtain ⟨cells, hcells, rfl⟩ := hw
  obtain ⟨values, hsame, hread⟩ := readsBack_entries (m := []) hvalue hkeys hentries hcells
  refine ⟨_, .map hsame, ?_⟩
  have hcode : valueType.toUInt8.toUInt32 = valueType := by
    apply UInt32.toNat_inj.mp
    rw [UInt8.toNat_toUInt32, UInt32.toNat_toUInt8, Nat.mod_eq_of_lt htype]
  have hlen : (UInt32.ofNat entries.length).toNat = entries.length :=
    UInt32.toNat_ofNat_of_lt' hcount
  rw [append_assoc, append_assoc]
  refine .bind (Reads.back (reads_curU8 1)) (.then readsBack_hasError ?_)
  refine .bind (Reads.back (reads_curU8 _)) ?_
  refine .bind (Reads.back (reads_curU32LE _)) (.then readsBack_hasError ?_)
  rw [hcode, hlen]
  exact .last hread (.pure _)

/-! ## a value is read back -/

theorem readsBack_wide {m : Reader σ (CacheValue κ)} (h : ¬ (s.type = .char ∨ s.type = .widechar))
    (hm : m = readInt s.type) (hw : writePayload ops (.scalar s) = some p) :
    ∃ v', SameValue ops (.scalar s) v' ∧ ReadsBack m p v' := by
  rw [writePayload] at hw
  obtain rfl := some.inj hw
  rw [hm]
  exact ⟨_, .scalar s, readsBack_int h⟩

theorem readsBack_char (h : s.type = .char ∨ s.type = .widechar)
    (hw : writePayload ops (.scalar s) = some p) : ∃ v', SameValue ops (.scalar s) v' ∧
      ReadsBack (readPayload ops levels (readValue ops levels) s.type.varType) p v' := by
  refine ⟨_, .scalar s, ?_⟩
  rw [writePayload, writeScalar, if_pos h] at hw
  obtain rfl := some.inj hw
  obtain ⟨t, i, stored⟩ := s
  have hcode : t.store ((UInt32.ofInt i).toNat : Int) = i := by
    rw [toNat_ofInt32]
    rcases h with rfl | rfl
    · exact (Int.emod_emod_of_dvd i (by decide)).trans stored
    · exact (Int.emod_emod_of_dvd i (by decide)).trans stored
  have hback := Scalar.ofInt_eq (s := ⟨t, i, stored⟩) rfl hcode
  rcases h with rfl | rfl
  · refine .last (Reads.back (reads_curU32LE _)) ?_
    rw [hback]
    exact .pure _
  · refine .last (Reads.back (reads_curU32LE _)) (.then readsBack_hasError ?_)
    rw [if_neg Bool.false_ne_true, hback]
    exact .pure _

theorem readsBack_payload
    (ih : ReadsValues ops (readValue ops levels) (CacheValue.Storable ops levels))
    (h : v.Storable ops (levels + 1)) (hw : writePayload ops v = some p) :
    ∃ v', SameValue ops v v' ∧
      ReadsBack (readPayload ops levels (readValue ops levels) v.type) p v' := by
  cases v with
  | scalar s =>
    obtain ⟨t, i, stored⟩ := s
    cases t with
    | char => exact readsBack_char (Or.inl rfl) hw
    | widechar => exact readsBack_char (Or.inr rfl) hw
    | _ => exact readsBack_wide (by simp) rfl hw
  | float bits =>
    rw [writePayload] at hw
    obtain rfl := some.inj hw
    refine ⟨_, .float bits, .last (Reads.back (reads_curU32LE bits)) ?_⟩
    rw [show ops.floatOfFloat bits = bits from h]
    exact .pure _
  | double word =>
    rw [writePayload] at hw
    obtain rfl := some.inj hw
    refine ⟨_, .double word, .last (Reads.back (reads_curU64LE word)) ?_⟩
    rw [show pscalBoxDouble word = word from h]
    exact .pure _
  | longDouble bits =>
    rw [writePayload] at hw
    obtain rfl := some.inj hw
    exact ⟨_, .longDouble bits,
      .last (Reads.back (reads_curU64LE _)) (.pure _)⟩
  | void =>
    rw [writePayload] at hw
    obtain rfl := some.inj hw
    exact ⟨_, .void, .pure _⟩
  | nil =>
    rw [writePayload] at hw
    obtain rfl := some.inj hw
    exact ⟨_, .nil, .pure _⟩
  | handle t live =>
    rw [writePayload] at hw
    cases live with
    | true => cases hw
    | false =>
      obtain rfl := some.inj hw
      refine ⟨_, .handle t, ?_⟩
      cases t <;> exact .pure _
  | str t obj =>
    cases t with
    | string => exact readsBack_string h hw
    | unicodeString => exact readsBack_string h hw
  | enum obj => exact readsBack_enum h hw
  | set obj => exact readsBack_set h hw
  | nullArray =>
    rw [writePayload] at hw
    obtain rfl := some.inj hw
    have hcells : ReadsBack (times (readValue ops levels) 0) [] [] := .pure []
    have hdims : ([] : List (Int32 × Int32)).length < 2 ^ 31 := by decide
    have harray := readsBack_arrayHead VarType.void.code hdims rfl Nat.le.refl hcells
    rw [append_nil] at harray
    exact ⟨_, .nullArray, harray⟩
  | array elementType isDynamic bounds elements =>
    exact readsBack_array ih h.1 h.2.1 h.2.2.1 h.2.2.2 hw
  | packedArray elementType isDynamic bounds raw =>
    refine readsBack_packedArray ih h.1 h.2.1 h.2.2.1 (fun hraw s _ => ?_) hw
    obtain ⟨n, rfl⟩ := Nat.exists_eq_succ_of_ne_zero (Nat.pos_iff_ne_zero.mp (h.2.2.2 hraw))
    trivial
  | nullMap =>
    rw [writePayload] at hw
    obtain rfl := some.inj hw
    refine ⟨_, .nullMap, ?_⟩
    refine .last (Reads.back (reads_curU8 0)) (.then readsBack_hasError ?_)
    exact .pure _
  | map valueType entries =>
    exact readsBack_map ih h.1 h.2.1 h.2.2.1 h.2.2.2 hw
  | mstream contents => exact readsBack_mstream h hw
  | pointer obj =>
    rw [writePayload] at hw
    obtain ⟨obj', hsame, hread⟩ := readsBack_pointer h hw
    exact ⟨_, hsame, hread.map CacheValue.pointer⟩
  | other t =>
    rw [writePayload] at hw
    cases hw

theorem readsBack_value (levels : Nat) :
    ReadsValues ops (readValue ops levels) (CacheValue.Storable ops levels) := by
  induction levels with
  | zero => exact fun v bs h _ => h.elim
  | succ levels ih =>
    intro v bs h hw
    obtain ⟨payload, hpayload, rfl⟩ := writeValue_eq_some.mp hw
    obtain ⟨v', hsame, hread⟩ := readsBack_payload ih h hpayload
    refine ⟨v', hsame, ?_⟩
    refine .bind (Reads.back (reads_curU32LE v.type.code)) ?_
    refine .then readsBack_hasError ?_
    rw [if_neg Bool.false_ne_true, VarType.ofCode_code]
    exact hread

/-- What is written of a value is read back: the reader succeeds, takes exactly those bytes, and
gives the value again but for what the format does not hold. -/
theorem writeValue_readValue {v : CacheValue κ} {bs : Bytes}
    (hv : v.Storable ops cacheMaxNesting) (hw : writeValue ops v = some bs) :
    ∃ v', SameValue ops v v' ∧ ∀ s, ∃ s', ∀ rest,
      readValue ops cacheMaxNesting { rest := bs ++ rest } s = (some v', { rest := rest }, s') :=
  readsBack_value cacheMaxNesting v bs hv hw

end

/-- a machine whose `long double` is wider than a `double` -/
def wideLongDouble : CodecOps Unit Unit where
  doubleOfLd bits := UInt64.ofNat bits
  ldOfDouble bits := bits.toNat
  floatOfFloat bits := bits
  doubleOfInt i := UInt64.ofInt i
  writeFunction _ := some []
  readFunction _ := Pure.pure ()

def recordTypeAst : TypeAst :=
  .node 12 6 false false false true (some { type := 3, value := some [112, 116] }) 0
    .null .null .null [.null]

def mixedArray : CacheValue Unit :=
  .array VarType.pointer.code true [(1, 2)]
    [.pointer (some (.typed recordTypeAst 0)), .str .string (some { buffer := none })]

theorem within_recordTypeAst : recordTypeAst.Within 998 := by
  refine ⟨?_, trivial, trivial, trivial, by decide, ?_⟩
  · intro tok htok
    obtain rfl := some.inj htok
    decide
  · intro child hchild
    obtain rfl := mem_singleton.mp hchild
    trivial

theorem writeValue_readValue_mixedArray : mixedArray.Storable wideLongDouble cacheMaxNesting ∧
      ∃ bs, writeValue wideLongDouble mixedArray = some bs ∧
        ∃ v', SameValue wideLongDouble mixedArray v' ∧ ∀ s, ∃ s', ∀ rest,
          readValue wideLongDouble cacheMaxNesting { rest := bs ++ rest } s
            = (some v', { rest := rest }, s') := by
  have hv : mixedArray.Storable wideLongDouble cacheMaxNesting := by
    refine ⟨by decide, by decide, by decide, ?_⟩
    intro v hv
    rcases mem_cons.mp hv with rfl | hv
    · intro p hp
      obtain rfl := some.inj hp
      exact fun _ => within_recordTypeAst
    · obtain rfl := mem_singleton.mp hv
      intro buf hbuf
      cases hbuf
  exact ⟨hv, _, rfl, writeValue_readValue hv rfl⟩

/-- values and what they come back as: a pointer to a record, a character pointer, a string, an
enum and an array without an object, and a wide `long double` -/
def changedValues : List (CacheValue Unit × CacheValue Unit) :=
  [(.pointer (some (.typed recordTypeAst 16)), .pointer (some (.marked .opaquePointer 16))),
   (.pointer (some (.charPtr .stringCharPtr (some (CString.ofBuffer [65])))),
    .pointer (some (.charPtr .serializedCharPtr (some (CString.ofBuffer [65]))))),
   (.str .string none, .str .string (some { buffer := none })),
   (.enum none, .enum (some { enumName := none, ordinal := 0 })),
   (.nullArray, .array VarType.void.code false [] []),
   (.longDouble (2 ^ 64), .longDouble 0)]

theorem readValue_changedValues :
    changedValues.Forall fun p => p.1 ≠ p.2 ∧ ∃ bs, writeValue wideLongDouble p.1 = some bs ∧
      readValue wideLongDouble cacheMaxNesting { rest := bs } () = (some p.2, { rest := [] }, ()) := by
  rw [forall_iff_forall_mem]
  simp only [changedValues, forall_mem_cons]
  refine ⟨⟨by simp, _, rfl, rfl⟩, ⟨by simp, _, rfl, rfl⟩, ⟨by simp, _, rfl, rfl⟩,
    ⟨by simp, _, rfl, rfl⟩, ⟨by simp, _, rfl, rfl⟩, ⟨by simp, _, rfl, rfl⟩, by simp⟩

end Pscal
