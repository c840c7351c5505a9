import Pscal.Cache.ChunkHash

/-!
# What the integrity hash sees of a value

The bytes that a value is hashed as can be read back, but for the kinds of its pointers.

* `CacheValue.fedPart`  what is hashed of a value;
* `CacheValue.pointerKinds`  the kinds of its pointers, in the order of the bytes;
* `readFed`  a reader of the hashed bytes, to which the kinds are told;
* `hashes_stable`  hashes of values and chunks, and what they tell apart.
-/

namespace Pscal

open Wire Wire.Reader List Option

/-! ## what is hashed of a value -/

inductive PointerKind where
  | text | address | function
deriving DecidableEq, Repr

section
variable {κ : Type}

def PointerObj.kind : Option (PointerObj κ) → PointerKind
  | some (.charPtr _ _) => .text
  | some (.function (some _)) => .function
  | _ => .address

def CacheValue.pointerKinds : Nat → CacheValue κ → List PointerKind
  | levels + 1, .array _ _ _ elements => elements.flatMap (pointerKinds levels)
  | levels + 1, .map _ entries => entries.flatMap fun e => pointerKinds levels e.2
  | _ + 1, .pointer obj => [PointerObj.kind obj]
  | _, _ => []

/-- of a pointer its text, its address or the bytes of its function; the address `0` for none -/
def PointerObj.fedPart (function : κ → Bytes) : Option (PointerObj κ) → PointerObj Bytes
  | none | some (.function none) => .marked .opaquePointer 0
  | some (.charPtr _ text) => .charPtr .serializedCharPtr (some (text.getD CString.empty))
  | some (.function (some fn)) => .function (some (function fn))
  | some (.typed _ address) | some (.marked _ address) => .marked .opaquePointer address

/-- The value without what is not hashed: the limit of a string, whether an array is dynamic, the
base type of a pointer, and whether an empty object is a null one. -/
def CacheValue.fedPart (function : κ → Bytes) : Nat → CacheValue κ → CacheValue Bytes
  | 0, _ => .nil
  | _ + 1, .scalar s => .scalar s
  | _ + 1, .float bits => .float bits
  | _ + 1, .double word => .double word
  | _ + 1, .longDouble bits => .longDouble bits
  | _ + 1, .void => .void
  | _ + 1, .nil => .nil
  | _ + 1, .handle t _ => .handle t false
  | _ + 1, .str t obj => .str t (some { buffer := obj.bind StringObj.buffer })
  | _ + 1, .enum obj =>
    .enum (some
      { enumName := EnumObj.storedName (EnumObj.nameText obj)
        ordinal := obj.elim 0 EnumObj.ordinal })
  | _ + 1, .set obj => .set (some (obj.getD []))
  | _ + 1, .nullArray => .array VarType.void.code false [] []
  | levels + 1, .array elementType _ bounds elements =>
    .array elementType false bounds (elements.map (fedPart function levels))
  | _ + 1, .packedArray elementType _ bounds raw =>
    .packedArray elementType false bounds (some (raw.getD []))
  | _ + 1, .nullMap => .nullMap
  | levels + 1, .map valueType entries =>
    .map valueType (entries.map fun e => (e.1, fedPart function levels e.2))
  | _ + 1, .mstream contents => .mstream contents
  | _ + 1, .pointer obj => .pointer (some (PointerObj.fedPart function obj))
  | _ + 1, .other t => .other t

/-- The lengths of a value are of their C types, its arrays have the elements that their bounds
say, its values are stored ones, and it nests within the limit. -/
def CacheValue.Sized (ldSize : Nat) : Nat → CacheValue κ → Prop
  | 0, _ => False
  | _ + 1, .longDouble bits => bits < 256 ^ ldSize
  | _ + 1, .str _ obj => ∀ buf ∈ obj.bind StringObj.buffer, buf.bytes.length < 2 ^ 31
  | _ + 1, .enum obj => (EnumObj.nameText obj).length < 2 ^ 31
  | _ + 1, .set obj => (obj.getD []).length < 2 ^ 31
  | levels + 1, .array elementType _ bounds elements =>
    isPackedByteElementType elementType = false ∧ bounds.length < 2 ^ 31 ∧
      elements.length = hashedCount bounds ∧ ∀ v ∈ elements, v.Sized ldSize levels
  | _ + 1, .packedArray elementType _ bounds raw =>
    isPackedByteElementType elementType = true ∧ bounds.length < 2 ^ 31 ∧
      (raw.getD []).length = hashedCount bounds
  | levels + 1, .map _ entries =>
    entries.length < 2 ^ 31 ∧ ∀ e ∈ entries, e.1.length < 2 ^ 31 ∧ e.2.Sized ldSize levels
  | _ + 1, .mstream contents => (contents.getD []).length < 2 ^ 31
  | _ + 1, .pointer (some (.charPtr _ (some text))) => text.bytes.length < 2 ^ 31
  | _ + 1, .other _ => False
  | _ + 1, _ => True

end

/-! ## the reader of the hashed bytes -/

abbrev FedReader := Reader (List PointerKind)

def readFedText (len : Int32) : FedReader Bytes := do
  let text ← bytes len.toInt.toNat
  return text.getD []

def readFedString (t : StringType) : FedReader (CacheValue Bytes) := do
  let len ← curI32LE
  if len.toInt < 0 then
    return .str t (some { buffer := none })
  let text ← readFedText len
  return .str t (some { buffer := some (CString.ofBuffer text) })

def readFedEnum : FedReader (CacheValue Bytes) := do
  let len ← curI32LE
  let name ← readFedText len
  let ordinal ← curI32LE
  return .enum (some { enumName := EnumObj.storedName name, ordinal := ordinal })

def readFedSet : FedReader (CacheValue Bytes) := do
  let sz ← curI32LE
  let values ← times curU64LE sz.toInt.toNat
  return .set (some (values.map UInt64.toInt64))

def readFedBound : FedReader (Int32 × Int32) := do
  let lb ← curI32LE
  let ub ← curI32LE
  return (lb, ub)

def readFedArray (value : FedReader (CacheValue Bytes)) : FedReader (CacheValue Bytes) := do
  let dims ← curI32LE
  let elementType ← curU32LE
  let bounds ← times readFedBound dims.toInt.toNat
  if isPackedByteElementType elementType then
    let raw ← bytes (hashedCount bounds)
    return .packedArray elementType false bounds (some (raw.getD []))
  let elements ← times value (hashedCount bounds)
  return .array elementType false bounds elements

def readFedEntry (value : FedReader (CacheValue Bytes)) : FedReader (Bytes × CacheValue Bytes) := do
  let len ← curI32LE
  let key ← readFedText len
  let item ← value
  return (key, item)

def readFedMap (value : FedReader (CacheValue Bytes)) : FedReader (CacheValue Bytes) := do
  let valueType ← curU32LE
  let count ← curI32LE
  if count.toInt < 0 then
    return .nullMap
  let entries ← times (readFedEntry value) count.toInt.toNat
  return .map valueType entries

def readFedMemoryStream : FedReader (CacheValue Bytes) := do
  let len ← curI32LE
  if len.toInt < 0 then
    return .mstream none
  let contents ← readFedText len
  return .mstream (some contents)

def readFedPointer : FedReader (CacheValue Bytes) := do
  match ← get with
  | [] => fail
  | kind :: kinds =>
    set kinds
    match kind with
    | .text =>
      let len ← curI32LE
      let text ← readFedText len
      return .pointer (some (.charPtr .serializedCharPtr (some (CString.ofBuffer text))))
    | .address =>
      let address ← curU64LE
      return .pointer (some (.marked .opaquePointer address))
    | .function =>
      let fed ← bytes 12
      return .pointer (some (.function (some (fed.getD []))))

def readFedHandle (t : HandleType) : FedReader (CacheValue Bytes) := do
  let _ ← curU64LE
  return .handle t false

def readFedPayload (ldSize : Nat) (value : FedReader (CacheValue Bytes)) :
    VarType → FedReader (CacheValue Bytes)
  | .int32 => readInt .int32
  | .word => readInt .word
  | .byte => readInt .byte
  | .boolean => readInt .boolean
  | .int8 => readInt .int8
  | .int16 => readInt .int16
  | .int64 => readInt .int64
  | .uint8 => readInt .uint8
  | .uint16 => readInt .uint16
  | .uint32 => readInt .uint32
  | .uint64 => readInt .uint64
  | .widechar => readInt .widechar
  | .thread => do
    let word ← curU64LE
    return .scalar (Scalar.ofInt .thread word.toUInt32.toNat)
  | .char => do
    let c ← curU32LE
    return .scalar (Scalar.ofInt .char c.toNat)
  | .float => do
    let bits ← curU32LE
    return .float bits
  | .double => do
    let word ← curU64LE
    return .double word
  | .longDouble => do
    let bits ← number ldSize
    return .longDouble bits
  | .task => readFedHandle .task
  | .channel => readFedHandle .channel
  | .void => return .void
  | .nil => return .nil
  | .string => readFedString .string
  | .unicodeString => readFedString .unicodeString
  | .enum => readFedEnum
  | .set => readFedSet
  | .array => readFedArray value
  | .map => readFedMap value
  | .memorystream => readFedMemoryStream
  | .pointer => readFedPointer
  | .unknown | .record | .file | .interface | .closure => fail

def readFed (ldSize : Nat) : Nat → FedReader (CacheValue Bytes)
  | 0 => fail
  | levels + 1 => do
    let code ← curU32LE
    match VarType.ofCode code with
    | none => fail
    | some type => readFedPayload ldSize (readFed ldSize levels) type

/-! ## its parts -/

/-- the reader takes the kinds `ks` -/
def Pops {α : Type} (m : FedReader α) (bs : Bytes) (ks : List PointerKind) (a : α) : Prop :=
  ∀ rest, Reads m bs (ks ++ rest) a rest

section
variable {α β : Type}

variable {m : FedReader α}

theorem Pops.of_reads {bs : Bytes} {a : α} (h : ∀ s, Reads m bs s a s) : Pops m bs [] a :=
  fun rest => h rest

theorem Pops.bind {f : α → FedReader β} {bs bs' : Bytes} {ks ks' : List PointerKind} {a : α} {b : β}
    (h : Pops m bs ks a) (h' : Pops (f a) bs' ks' b) :
    Pops (m >>= f) (bs ++ bs') (ks ++ ks') b := by
  intro rest
  rw [append_assoc]
  exact (h _).bind (h' rest)

theorem Pops.step {m : FedReader α} {f : α → FedReader β} {bs bs' : Bytes} {ks : List PointerKind}
    {a : α} {b : β} (h : ∀ s, Reads m bs s a s) (h' : Pops (f a) bs' ks b) :
    Pops (m >>= f) (bs ++ bs') ks b :=
  .bind (.of_reads h) h'

theorem Pops.map {m : FedReader α} {bs : Bytes} {ks : List PointerKind} {a : α}
    (h : Pops m bs ks a) (f : α → β) : Pops (m >>= fun a => Pure.pure (f a)) bs ks (f a) :=
  fun rest => (h rest).map f

theorem pops_times {γ : Type} {w : γ → Bytes} {k : γ → List PointerKind} {f : γ → α} {l : List γ}
    (h : ∀ c ∈ l, Pops m (w c) (k c) (f c)) :
    Pops (times m l.length) (l.flatMap w) (l.flatMap k) (l.map f) := by
  induction l with
  | nil => exact .of_reads (Reads.pure [])
  | cons c l ih =>
    have hl := ih fun c hc => h c (mem_cons_of_mem _ hc)
    exact .bind (h c mem_cons_self) (.map hl _)

end

section
variable {κ : Type}

/-! ## scalars -/

theorem reads_fedInt (s : Scalar) (ks : List PointerKind) :
    Reads (readInt s.type) (bufU64LE (UInt64.ofInt s.value)) ks (CacheValue.scalar (κ := Bytes) s)
      ks := by
  have hread := (reads_curU64LE (UInt64.ofInt s.value) ks).map fun n =>
    CacheValue.scalar (κ := Bytes) (Scalar.ofInt s.type n.toInt64.toInt)
  rwa [Scalar.ofInt_toInt64] at hread

theorem Scalar.ofInt_emod {t : IntType} {v : Int} (ht : t = .char ∨ t = .thread)
    (h : t.store v = v) : Scalar.ofInt t (v % 2 ^ 32) = { type := t, value := v, stored := h } := by
  refine Scalar.ofInt_eq rfl ?_
  show t.store (v % 2 ^ 32) = v
  rw [← h]
  rcases ht with rfl | rfl
  · exact (Int.emod_emod_of_dvd _ (by decide)).trans (Int.emod_emod_of_dvd _ (by decide))
  · exact (Int.emod_bmod _ _).trans Int.bmod_bmod

theorem toUInt32_ofInt (v : Int) : (Int32.ofInt v).toUInt32 = UInt32.ofInt v := by
  refine UInt32.toNat_inj.mp ?_
  have hword := toNat_ofInt32 v
  have hbits : (BitVec.ofInt 32 v).toNat = (v % 2 ^ 32).toNat := BitVec.toNat_ofInt ..
  show (BitVec.ofInt 32 v).toNat = _
  omega

theorem threadWord_low (v : Int) : (threadWord v).toUInt32 = UInt32.ofInt v := by
  have htag : ((11 : UInt64) <<< 45).toUInt32 = 0 := by decide
  rw [threadWord, UInt64.toUInt32_or, htag, UInt32.toUInt32_toUInt64, UInt32.zero_or]

theorem reads_fedScalar (ldSize : Nat) (value : FedReader (CacheValue Bytes)) (s : Scalar)
    (ks : List PointerKind) :
    Reads (readFedPayload ldSize value s.type.varType) (feedScalar s) ks (.scalar s) ks := by
  obtain ⟨t, v, stored⟩ := s
  cases t with
  | char =>
    have hread := (reads_curU32LE (UInt32.ofInt v) ks).map fun c =>
      CacheValue.scalar (κ := Bytes) (Scalar.ofInt .char c.toNat)
    rw [toNat_ofInt32, Scalar.ofInt_emod (Or.inl rfl) stored, ← toUInt32_ofInt] at hread
    exact hread
  | thread =>
    have hread := (reads_curU64LE (threadWord v) ks).map fun word =>
      CacheValue.scalar (κ := Bytes) (Scalar.ofInt .thread word.toUInt32.toNat)
    rw [threadWord_low, toNat_ofInt32, Scalar.ofInt_emod (Or.inr rfl) stored] at hread
    exact hread
  | _ => exact reads_fedInt { type := _, value := v, stored := stored } ks

/-! ## texts and objects -/

theorem reads_fedText {text : Bytes} (h : text.length < 2 ^ 31) (ks : List PointerKind) :
    Reads (readFedText (Int32.ofNat text.length)) text ks text ks := by
  rw [readFedText, toInt_ofNat h, Int.toNat_natCast]
  exact (reads_bytes text ks).map fun text => text.getD []

theorem feedText_eq {text : Bytes} (h : text.length < 2 ^ 31) :
    feedText text = bufInt text.length ++ text := by
  rw [feedText, toInt_ofNat h, Int.toNat_natCast, take_length]

theorem not_marked {n : Nat} (h : n < 2 ^ 31) : ¬ (Int32.ofNat n).toInt < 0 := by
  rw [toInt_ofNat h]
  omega

theorem reads_fedString {t : StringType} {obj : Option StringObj} (ldSize : Nat)
    (function : κ → Bytes) (h : ∀ buf ∈ obj.bind StringObj.buffer, buf.bytes.length < 2 ^ 31)
    (ks : List PointerKind) : Reads (readFedString t) (feedPayload ldSize function (.str t obj)) ks
      (.str t (some { buffer := obj.bind StringObj.buffer })) ks := by
  rw [feedPayload]
  cases hbuf : obj.bind StringObj.buffer with
  | none => exact Reads.last (reads_curI32LE (-1) ks) (Reads.pure _ ks)
  | some buf =>
    have hlen := h buf hbuf
    show Reads _ (feedText buf.bytes) _ _ _
    rw [feedText_eq hlen]
    refine Reads.bind (reads_curI32LE _ ks) ?_
    rw [if_neg (not_marked hlen)]
    refine Reads.last (reads_fedText hlen ks) ?_
    rw [CString.ofBuffer_bytes]
    exact Reads.pure _ ks

theorem reads_fedEnum {obj : Option EnumObj} (h : (EnumObj.nameText obj).length < 2 ^ 31)
    (ks : List PointerKind) :
    Reads readFedEnum (feedText (EnumObj.nameText obj) ++ bufI32LE (obj.elim 0 EnumObj.ordinal)) ks
      (.enum (some
        { enumName := EnumObj.storedName (EnumObj.nameText obj)
          ordinal := obj.elim 0 EnumObj.ordinal })) ks := by
  rw [feedText_eq h, append_assoc]
  refine Reads.bind (reads_curI32LE _ ks) (Reads.bind (reads_fedText h ks) ?_)
  exact Reads.last (reads_curI32LE _ ks) (Reads.pure _ ks)

theorem reads_fedSet {values : List Int64} (h : values.length < 2 ^ 31) (ks : List PointerKind) :
    Reads readFedSet (bufInt values.length ++ values.flatMap fun v => bufU64LE v.toUInt64) ks
      (.set (some values)) ks := by
  have hvalues := pops_times (l := values) (k := fun _ => []) (f := Int64.toUInt64) fun v _ =>
    .of_reads (reads_curU64LE v.toUInt64)
  have hback : (values.map Int64.toUInt64).map UInt64.toInt64 = values := by
    rw [List.map_map]
    exact (map_congr_left fun v _ => Int64.toInt64_toUInt64 v).trans (List.map_id _)
  have hnone : values.flatMap (fun _ => ([] : List PointerKind)) = [] := by simp
  rw [hnone] at hvalues
  refine Reads.bind (reads_curI32LE _ ks) ?_
  rw [toInt_ofNat h, Int.toNat_natCast]
  refine Reads.last (hvalues ks) ?_
  rw [hback]
  exact Reads.pure _ ks

theorem reads_fedMemoryStream {contents : Option Bytes} (h : (contents.getD []).length < 2 ^ 31)
    (ks : List PointerKind) :
    Reads readFedMemoryStream (contents.elim (bufI32LE (-1)) feedText) ks (.mstream contents)
      ks := by
  cases contents with
  | none => exact Reads.last (reads_curI32LE (-1) ks) (Reads.pure _ ks)
  | some contents =>
    have hlen : contents.length < 2 ^ 31 := h
    rw [elim_some, feedText_eq hlen]
    refine Reads.bind (reads_curI32LE _ ks) ?_
    rw [if_neg (not_marked hlen)]
    exact Reads.last (reads_fedText hlen ks) (Reads.pure _ ks)

/-! ## pointers -/

variable {function : κ → Bytes} {ldSize : Nat} {v : CacheValue κ}

theorem pops_fedPointer (hfunction : ∀ fn, (function fn).length = 12) {obj : Option (PointerObj κ)}
    (levels ldSize : Nat) (h : (CacheValue.pointer obj).Sized ldSize (levels + 1)) :
    Pops readFedPointer (feedPointer function obj) [PointerObj.kind obj]
      (.pointer (some (PointerObj.fedPart function obj))) := by
  intro ks
  refine Reads.then (reads_get _) (Reads.then (reads_set _ ks) ?_)
  have haddress := fun address : UInt64 =>
    (reads_curU64LE address ks).map fun address =>
      CacheValue.pointer (κ := Bytes) (some (.marked .opaquePointer address))
  rcases obj with _ | ⟨base, _ | text⟩ | ⟨_ | fn⟩ | ⟨base, address⟩ | ⟨base, address⟩
  · exact haddress 0
  · have hempty : ([] : Bytes).length < 2 ^ 31 := by decide
    exact Reads.last (reads_curI32LE 0 ks) (Reads.last (reads_fedText hempty ks) (Reads.pure _ ks))
  · show Reads _ (feedText text.bytes) _ _ _
    rw [feedText_eq h]
    refine Reads.bind (reads_curI32LE _ ks) (Reads.last (reads_fedText h ks) ?_)
    rw [CString.ofBuffer_bytes]
    exact Reads.pure _ ks
  · exact haddress 0
  · have hread := (reads_bytes (function fn) ks).map fun fed =>
      CacheValue.pointer (some (.function (some (fed.getD []))))
    rwa [hfunction fn] at hread
  · exact haddress address
  · exact haddress address

/-! ## arrays and maps -/

theorem reads_fedBounds (bounds : List (Int32 × Int32)) (ks : List PointerKind) :
    Reads (times readFedBound bounds.length)
      (bounds.flatMap fun b => bufI32LE b.1 ++ bufI32LE b.2) ks bounds ks := by
  have hbound : ∀ b : Int32 × Int32, Pops readFedBound (bufI32LE b.1 ++ bufI32LE b.2) [] b :=
    fun b => .of_reads fun ks => Reads.bind (reads_curI32LE b.1 ks)
      (Reads.map (reads_curI32LE b.2 ks) fun ub => (b.1, ub))
  have hbounds := pops_times (l := bounds) (k := fun _ => []) (f := id) fun b _ => hbound b
  have hnone : bounds.flatMap (fun _ => ([] : List PointerKind)) = [] := by simp
  rw [hnone, List.map_id] at hbounds
  exact hbounds ks

theorem feedValues_eq (ldSize : Nat) (function : κ → Bytes) (vs : List (CacheValue κ)) :
    feedValues ldSize function vs.length vs = vs.flatMap (hashFeed ldSize function) := by
  induction vs with
  | nil => rfl
  | cons v vs ih => rw [length_cons, feedValues, ih, flatMap_cons, hashFeed]

theorem feedEntries_eq (ldSize : Nat) (function : κ → Bytes) (es : List (Bytes × CacheValue κ)) :
    feedEntries ldSize function es
      = es.flatMap fun e => bufInt e.1.length ++ (e.1 ++ hashFeed ldSize function e.2) := by
  induction es with
  | nil => rfl
  | cons e es ih =>
    rw [feedEntries, ih, flatMap_cons, hashFeed]
    simp only [append_assoc]

section
variable {ldSize levels : Nat} {function : κ → Bytes}
  (ih : ∀ v : CacheValue κ, v.Sized ldSize levels →
    Pops (readFed ldSize levels) (hashFeed ldSize function v) (v.pointerKinds levels)
      (v.fedPart function levels))

include ih

theorem pops_fedArray {elementType : UInt32} {isDynamic : Bool} {bounds : List (Int32 × Int32)}
    {elements : List (CacheValue κ)}
    (h : (CacheValue.array elementType isDynamic bounds elements).Sized ldSize (levels + 1)) :
    Pops (readFedArray (readFed ldSize levels))
      (feedPayload ldSize function (.array elementType isDynamic bounds elements))
      (elements.flatMap (CacheValue.pointerKinds levels))
      (.array elementType false bounds (elements.map (CacheValue.fedPart function levels))) := by
  obtain ⟨hpacked, hdims, hcount, helements⟩ := h
  have hcells := pops_times fun v hv => ih v (helements v hv)
  rw [hcount] at hcells
  rw [feedPayload, feedArrayHead, ← hcount, feedValues_eq]
  simp only [append_assoc]
  refine .step (reads_curI32LE _) (.step (reads_curU32LE elementType) ?_)
  rw [toInt_ofNat hdims, Int.toNat_natCast]
  refine .step (reads_fedBounds bounds) ?_
  rw [hpacked, if_neg Bool.false_ne_true]
  exact hcells.map _

theorem pops_fedMap {valueType : UInt32} {entries : List (Bytes × CacheValue κ)}
    (h : (CacheValue.map valueType entries).Sized ldSize (levels + 1)) :
    Pops (readFedMap (readFed ldSize levels)) (feedPayload ldSize function (.map valueType entries))
      (entries.flatMap fun e => e.2.pointerKinds levels)
      (.map valueType (entries.map fun e => (e.1, e.2.fedPart function levels))) := by
  obtain ⟨hcount, hentries⟩ := h
  have hentry : ∀ e ∈ entries, Pops (readFedEntry (readFed ldSize levels))
      (bufInt e.1.length ++ (e.1 ++ hashFeed ldSize function e.2)) (e.2.pointerKinds levels)
      (e.1, e.2.fedPart function levels) := by
    intro e he
    have hitem := (ih e.2 (hentries e he).2).map fun item => (e.1, item)
    exact .step (reads_curI32LE _) (.step (reads_fedText (hentries e he).1) hitem)
  have hcells := pops_times hentry
  rw [feedPayload, feedEntries_eq, append_assoc]
  refine .step (reads_curU32LE valueType) (.step (reads_curI32LE _) ?_)
  rw [if_neg (not_marked hcount), toInt_ofNat hcount, Int.toNat_natCast]
  exact hcells.map _

end

theorem pops_fedPackedArray {ldSize levels : Nat} {function : κ → Bytes} {elementType : UInt32}
    {isDynamic : Bool} {bounds : List (Int32 × Int32)} {raw : Option Bytes}
    (value : FedReader (CacheValue Bytes))
    (h : (CacheValue.packedArray (κ := κ) elementType isDynamic bounds raw).Sized ldSize
      (levels + 1)) :
    Pops (readFedArray value)
      (feedPayload ldSize function (.packedArray elementType isDynamic bounds raw)) []
      (.packedArray elementType false bounds (some (raw.getD []))) := by
  obtain ⟨hpacked, hdims, hcount⟩ := h
  have hraw := fun ks : List PointerKind => (reads_bytes (raw.getD []) ks).map fun raw =>
    CacheValue.packedArray (κ := Bytes) elementType false bounds (some (raw.getD []))
  rw [hcount] at hraw
  rw [feedPayload, feedArrayHead, ← hcount, take_length]
  simp only [append_assoc]
  refine .step (reads_curI32LE _) (.step (reads_curU32LE elementType) ?_)
  rw [toInt_ofNat hdims, Int.toNat_natCast]
  refine .step (reads_fedBounds bounds) ?_
  rw [hpacked, if_pos rfl]
  exact .of_reads hraw

/-! ## values -/

theorem pops_fed (hfunction : ∀ fn, (function fn).length = 12) {levels : Nat}
    (h : v.Sized ldSize levels) :
    Pops (readFed ldSize levels) (hashFeed ldSize function v) (v.pointerKinds levels)
      (v.fedPart function levels) := by
  induction levels generalizing v with
  | zero => exact False.elim h
  | succ levels ih =>
    refine .step (reads_curU32LE _) ?_
    rw [VarType.ofCode_code]
    cases v with
    | scalar s => exact .of_reads (reads_fedScalar ldSize _ s)
    | float bits => exact .of_reads fun ks => (reads_curU32LE bits ks).map _
    | double word => exact .of_reads fun ks => (reads_curU64LE word ks).map _
    | longDouble bits => exact .of_reads fun ks => (reads_number_of_lt h ks).map _
    | void => exact .of_reads (Reads.pure _)
    | nil => exact .of_reads (Reads.pure _)
    | handle t live =>
      have hread : Pops (readFedHandle t) (bufU64LE 0) [] (.handle t false) :=
        .of_reads fun ks => (reads_curU64LE 0 ks).map _
      cases t with
      | task => exact hread
      | channel => exact hread
    | str t obj =>
      cases t with
      | string => exact .of_reads (reads_fedString ldSize function h)
      | unicodeString => exact .of_reads (reads_fedString ldSize function h)
    | enum obj => exact .of_reads (reads_fedEnum h)
    | set obj => exact .of_reads (reads_fedSet h)
    | nullArray =>
      refine .of_reads fun ks => ?_
      rw [feedPayload, feedArrayHead, append_assoc]
      refine Reads.bind (reads_curI32LE 0 ks) (Reads.bind (reads_curU32LE _ ks) ?_)
      exact Reads.then (reads_fedBounds [] ks) (Reads.pure _ ks)
    | array elementType isDynamic bounds elements => exact pops_fedArray (fun _ => ih) h
    | packedArray elementType isDynamic bounds raw => exact pops_fedPackedArray _ h
    | nullMap =>
      refine .of_reads fun ks => ?_
      exact Reads.bind (reads_curU32LE _ ks) (Reads.last (reads_curI32LE (-1) ks) (Reads.pure _ ks))
    | map valueType entries => exact pops_fedMap (fun _ => ih) h
    | mstream contents => exact .of_reads (reads_fedMemoryStream h)
    | pointer obj => exact pops_fedPointer hfunction levels ldSize h
    | other t => exact False.elim h

theorem CacheValue.type_fedPart (function : κ → Bytes) {levels : Nat} (h : v.Sized ldSize levels) :
    (v.fedPart function levels).type = v.type := by
  cases levels with
  | zero => exact False.elim h
  | succ levels => cases v <;> rfl

/-- Values whose pointers are of the same kinds are hashed as the same bytes only if they are the
same for the hash. -/
theorem hashFeed_inj (hfunction : ∀ fn, (function fn).length = 12) {levels : Nat} {w : CacheValue κ}
    (hv : v.Sized ldSize levels) (hw : w.Sized ldSize levels)
    (hkinds : v.pointerKinds levels = w.pointerKinds levels)
    (hfeed : hashFeed ldSize function v = hashFeed ldSize function w) :
    v.fedPart function levels = w.fedPart function levels := by
  have hreadv := pops_fed hfunction hv [] []
  have hreadw := pops_fed hfunction hw [] []
  rw [hkinds, hfeed, hreadw] at hreadv
  exact (some.inj (congrArg Prod.fst hreadv)).symm

end

theorem length_functionFeed (ldSize depth : Nat) (f : ShellFunction) :
    (functionFeed ldSize (depth + 1) f).length = 12 := by
  rw [functionFeed, length_append, bufU32LE, bufU64LE, length_le, length_le]

/-! ## round trips -/

section
variable {σ : Type}

theorem hashValue_roundTrip {host : CacheHost σ} {tables : SymbolTables} {ldSize depth levels : Nat}
    {v : CacheValue ShellFunction} {bs : Bytes} (hv : StorableValue host tables depth levels v)
    (hkept : LongDoublesKept host tables depth levels v)
    (hw : writeValue (functionOps host tables depth) v = some bs) :
    ∃ v', SameStored host tables depth levels v v' ∧
      ReadsBack (readValue (functionOps host tables depth) levels) bs v' ∧
      ∀ hash, hashValue ldSize (functionFeed ldSize depth) hash v'
        = hashValue ldSize (functionFeed ldSize depth) hash v := by
  obtain ⟨v', hsame, hread⟩ := readsBack_stored hv hw
  refine ⟨v', hsame, hread, fun hash => ?_⟩
  rw [hashValue, hashValue, (functionsHashed ldSize depth).value hkept hsame]

/-- a chunk comes back from its file with the hash that is stored there -/
theorem chunkHash_roundTrip {host : CacheHost σ} {tables : SymbolTables} {ldSize depth : Nat}
    {chunk : CachedChunk ShellFunction} {data : MetaSection} {file : Bytes}
    (hchunk : chunk.Storable (StorableValue host tables depth cacheMaxNesting))
    (htables : tables.Storable host (StorableValue host tables depth cacheMaxNesting)
      cacheMaxNesting)
    (hkept : ∀ v ∈ chunk.constants, LongDoublesKept host tables depth cacheMaxNesting v)
    (hversion : chunk.version.toNat < 2 ^ 16) (hsize : file.length < 2 ^ 32)
    (hdata : data.combinedHash = computeCombinedHash ldSize depth data.sourceHash chunk)
    (hw : psb3Write (functionOps host tables depth) tables chunk (some data) = some file) :
    ∃ pf chunk' tables', psb3ParseHeader file = .ok pf ∧
      ReadsBack (psb3ReadChunk host (functionOps host tables depth) cacheMaxNesting pf) []
        (chunk', tables') ∧
      ReadsBack (psb3ReadMeta (σ := σ) pf) [] data ∧
      computeCombinedHash ldSize depth data.sourceHash chunk' = data.combinedHash := by
  obtain ⟨sections, pf, hsections, hparse, hvm, hkind, -, hplaced, hfind⟩ :=
    psb3Write_layout hsize hw
  have hpf : pf.vmVersion.toUInt32 = chunk.version := by rw [hvm, toUInt32_toUInt16 hversion]
  obtain ⟨chunk', tables', hsame, -, -, hread⟩ := readsBack_psb3ReadChunk hchunk htables
    (fun v hv p hp => readsBack_stored hv hp) hpf hkind hsections hfind
  refine ⟨pf, chunk', tables', hparse, hread, readsBack_psb3ReadMeta hsize hsections hplaced hfind,
    ?_⟩
  rw [hdata]
  exact hsame.computeCombinedHash_eq hkept data.sourceHash

end

/-! ## the hash -/

section
variable {σ : Type}

/-- Values and chunks come back with the hash that they had, if each `long double` in them is a
`double`; and values of which different things are hashed are hashed as different bytes, if their
pointers are of the same kinds. -/
theorem hashes_stable (host : CacheHost σ) (tables : SymbolTables) (ldSize depth : Nat) :
    (∀ levels v bs, StorableValue host tables depth levels v →
      LongDoublesKept host tables depth levels v →
      writeValue (functionOps host tables depth) v = some bs →
      ∃ v', SameStored host tables depth levels v v' ∧
        ReadsBack (readValue (functionOps host tables depth) levels) bs v' ∧
        ∀ hash, hashValue ldSize (functionFeed ldSize depth) hash v'
          = hashValue ldSize (functionFeed ldSize depth) hash v) ∧
    (∀ chunk data file, chunk.Storable (StorableValue host tables depth cacheMaxNesting) →
      tables.Storable host (StorableValue host tables depth cacheMaxNesting) cacheMaxNesting →
      (∀ v ∈ chunk.constants, LongDoublesKept host tables depth cacheMaxNesting v) →
      chunk.version.toNat < 2 ^ 16 → file.length < 2 ^ 32 →
      data.combinedHash = computeCombinedHash ldSize depth data.sourceHash chunk →
      psb3Write (functionOps host tables depth) tables chunk (some data) = some file →
      ∃ pf chunk' tables', psb3ParseHeader file = .ok pf ∧
        ReadsBack (psb3ReadChunk host (functionOps host tables depth) cacheMaxNesting pf) []
          (chunk', tables') ∧
        ReadsBack (psb3ReadMeta (σ := σ) pf) [] data ∧
        computeCombinedHash ldSize depth data.sourceHash chunk' = data.combinedHash) ∧
    ∀ levels (v w : CacheValue ShellFunction), v.Sized ldSize levels → w.Sized ldSize levels →
      v.pointerKinds levels = w.pointerKinds levels →
      (v.type ≠ w.type ∨ v.fedPart (functionFeed ldSize (depth + 1)) levels
        ≠ w.fedPart (functionFeed ldSize (depth + 1)) levels) →
      hashFeed ldSize (functionFeed ldSize (depth + 1)) v
        ≠ hashFeed ldSize (functionFeed ldSize (depth + 1)) w := by
  refine ⟨fun levels v bs => hashValue_roundTrip, fun chunk data file => chunkHash_roundTrip, ?_⟩
  intro levels v w hv hw hkinds hne hfeed
  have hpart := hashFeed_inj (length_functionFeed ldSize depth) hv hw hkinds hfeed
  rcases hne with hne | hne
  · have htype := congrArg CacheValue.type hpart
    rw [CacheValue.type_fedPart _ hv, CacheValue.type_fedPart _ hw] at htype
    exact hne htype
  · exact hne hpart

end

def emptyFunction : CacheValue ShellFunction := .pointer (some (.function (some (.mk emptyChunk))))

/-- a chunk whose constants are a text and a function -/
def textConstant : CachedChunk ShellFunction where
  version := 9
  frontendKind := .shell
  code := [1]
  cacheCount := 0
  lines := [7]
  constants := [.str .string (some { buffer := some (CString.ofBuffer [65]) }), emptyFunction]
  builtinLowercaseIndices := none

theorem textConstant_storable :
    textConstant.Storable (StorableValue plainHost nestedTables 1 cacheMaxNesting) where
  code_le := by decide
  cacheCount_nonneg := by decide
  cacheCount_le := by decide
  lines_length := rfl
  constants_lt := by decide
  constants := by
    intro v hv
    rcases mem_cons.mp hv with rfl | hv
    · refine ⟨fun buf hbuf => ?_, trivial⟩
      obtain rfl := some.inj hbuf
      decide
    · obtain rfl := mem_singleton.mp hv
      refine ⟨fun p hp => ?_, ?_⟩
      · obtain rfl := some.inj hp
        intro f _ bs hbs
        cases hbs
      · exact ⟨emptyChunk_storable _, nestedTables_storable _ within_recordTypeAst.mono,
          fun _ _ _ => rfl⟩
  indices_length _ hl := absurd hl.symm (some_ne_none _)

theorem textConstant_kept :
    ∀ v ∈ textConstant.constants, LongDoublesKept plainHost nestedTables 1 cacheMaxNesting v := by
  intro v hv
  rcases mem_cons.mp hv with rfl | hv
  · trivial
  · obtain rfl := mem_singleton.mp hv
    exact fun _ h => absurd h not_mem_nil

def textSource : MetaSection where
  sourceHash := 5
  combinedHash := computeCombinedHash 16 1 5 textConstant
  sourcePath := CString.ofBuffer [112]

theorem psb3Write_textConstant : ∃ file, file.length < 2 ^ 32 ∧
    psb3Write (functionOps plainHost nestedTables 1) nestedTables textConstant (some textSource) = some file :=
  ⟨_, by decide +kernel, rfl⟩

theorem hashes_stable_textConstant :
    (∃ bs v', ReadsBack (readValue (functionOps plainHost nestedTables 1) cacheMaxNesting) bs v' ∧
      hashValue 16 (functionFeed 16 1) fnv1a64Offset v'
        = hashValue 16 (functionFeed 16 1) fnv1a64Offset
          emptyFunction) ∧
    (∃ pf chunk' tables', ReadsBack (psb3ReadChunk plainHost (functionOps plainHost nestedTables 1)
        cacheMaxNesting pf) [] (chunk', tables') ∧
      computeCombinedHash 16 1 5 chunk' = textSource.combinedHash) ∧
    hashFeed 16 (functionFeed 16 2) (.set (some [1])) ≠
      hashFeed 16 (functionFeed 16 2) (.set (some [2])) := by
  obtain ⟨hvalues, hchunks, hdistinct⟩ := hashes_stable plainHost nestedTables 16 1
  refine ⟨?_, ?_, ?_⟩
  · have hmem : emptyFunction ∈ textConstant.constants :=
      mem_cons_of_mem _ (mem_singleton_self _)
    obtain ⟨v', -, hread, hhash⟩ := hvalues _ _ _ (textConstant_storable.constants _ hmem)
      (textConstant_kept _ hmem) rfl
    exact ⟨_, v', hread, hhash _⟩
  · obtain ⟨file, hsize, hw⟩ := psb3Write_textConstant
    obtain ⟨pf, chunk', tables', -, hread, -, hhash⟩ := hchunks _ _ _ textConstant_storable
      (nestedTables_storable _ within_recordTypeAst_max) textConstant_kept (by decide) hsize rfl hw
    exact ⟨pf, chunk', tables', hread, hhash⟩
  · have hsized : ∀ x : Int64, (CacheValue.set (κ := ShellFunction) (some [x])).Sized 16 1 := by
      intro x
      show 1 < 2 ^ 31
      decide
    exact hdistinct 1 _ _ (hsized 1) (hsized 2) rfl (Or.inr (by simp [CacheValue.fedPart]))

/-- a `long double` that is not a `double` comes back as another one, with another hash -/
theorem hashValue_wideConstant :
    ∃ bs v', writeValue (functionOps plainHost nestedTables 1) (.longDouble (2 ^ 64)) = some bs ∧
      ReadsBack (readValue (functionOps plainHost nestedTables 1) cacheMaxNesting) bs v' ∧
      hashValue 16 (functionFeed 16 1) fnv1a64Offset v'
        ≠ hashValue 16 (functionFeed 16 1) fnv1a64Offset (.longDouble (2 ^ 64)) := by
  obtain ⟨v', ⟨w, hw, hsame⟩, hread⟩ := @readsBack_stored _ plainHost nestedTables 1 cacheMaxNesting
    (.longDouble (2 ^ 64)) _ ⟨trivial, trivial⟩ rfl
  obtain rfl := hw
  cases hsame
  exact ⟨_, _, rfl, hread, by decide +kernel⟩

end Pscal
