import Mathlib
import Pscal.Core.TaggedWord
import Pscal.Lib.BitFields
import Pscal.VM.IntegersSpec

/-!
# What tagged words decode to

* `pscalTagImmediate_toNat`  the fields of a word, as a number;
* `decodeWord_tag`  immediates tell their kind and payload;
* `pscalBoxDouble_untagged`  no double is in the reserved region;
* `decodeInt_setIntBits`  what a cell of an int-like type keeps of a `long long`;
* `taggedWords_decode`  all of it.
-/

namespace Pscal.TaggedWord

/-! ## the fields of a word -/

theorem pscalWordIsNanBoxTag_iff (w : UInt64) :
    pscalWordIsNanBoxTag w = true ↔ w.toNat / 2 ^ 51 = 0xFFF := by
  have hlt := w.toNat_lt
  have hmask := BitFields.toNat_and_mask w pscalNanboxHeaderMask 51 13 rfl
  have hheader : pscalNanboxHeader.toNat = 0xFFF * 2 ^ 51 := rfl
  rw [pscalWordIsNanBoxTag, decide_eq_true_eq, ← UInt64.toNat_inj, hmask, hheader]
  omega

theorem pscalTaggedWordIsPointer_iff (w : UInt64) :
    pscalTaggedWordIsPointer w = true ↔ w.toNat / 2 ^ 50 % 2 = 0 := by
  have hmask := BitFields.toNat_and_mask w pscalTagDiscriminantBit 50 1 rfl
  have hzero : (0 : UInt64).toNat = 0 := rfl
  rw [pscalTaggedWordIsPointer, decide_eq_true_eq, ← UInt64.toNat_inj, hmask, hzero]
  omega

theorem pscalTagPointer_toNat (ptr : UInt64) :
    (pscalTagPointer ptr).toNat = 0xFFF * 2 ^ 51 + ptr.toNat % 2 ^ 50 := by
  have hlow := BitFields.toNat_and_low ptr pscalTagPointerPayloadMask 50 rfl
  rw [pscalTagPointer, BitFields.toNat_or_field (a := 0xFFF) (k := 51) rfl (by omega), hlow]

theorem pscalUntagPointer_toNat (w : UInt64) : (pscalUntagPointer w).toNat = w.toNat % 2 ^ 50 :=
  BitFields.toNat_and_low w pscalTagPointerPayloadMask 50 rfl

theorem code_lt (kind : PscalTaggedKind) : kind.code.toNat < 14 := by
  cases kind <;> decide

theorem pscalTagImmediate_toNat (kind : PscalTaggedKind) (rawPayload : UInt64) :
    (pscalTagImmediate kind rawPayload).toNat =
      (0xFFF * 2 ^ 6 + 2 ^ 5 + kind.code.toNat) * 2 ^ 45 + rawPayload.toNat % 2 ^ 45 := by
  have hcode := code_lt kind
  have hlow := BitFields.toNat_and_low rawPayload pscalTagImmediatePayloadMask 45
    rfl
  have hshift : (kind.code <<< pscalTagKindShift).toNat = kind.code.toNat * 2 ^ 45 := by
    have hmod : pscalTagKindShift.toNat % 64 = 45 := rfl
    rw [UInt64.toNat_shiftLeft, hmod, Nat.shiftLeft_eq]
    omega
  have hkind : ((kind.code <<< pscalTagKindShift) &&& pscalTagKindMask).toNat =
      kind.code.toNat * 2 ^ 45 := by
    rw [BitFields.toNat_and_mask _ _ 45 5 rfl, hshift]
    omega
  have hhead : (pscalNanboxHeader ||| pscalTagDiscriminantBit |||
      ((kind.code <<< pscalTagKindShift) &&& pscalTagKindMask)).toNat =
        (0xFFF * 2 ^ 6 + 2 ^ 5 + kind.code.toNat) * 2 ^ 45 := by
    rw [BitFields.toNat_or_field (a := 0xFFF * 2 + 1) (k := 50) rfl (by omega), hkind]
    omega
  rw [pscalTagImmediate, BitFields.toNat_or_field hhead (by omega), hlow]

theorem pscalTaggedWordKind_tagImmediate (kind : PscalTaggedKind) (rawPayload : UInt64) :
    pscalTaggedWordKind (pscalTagImmediate kind rawPayload) = some kind := by
  have hcode := code_lt kind
  have hkind : (pscalTagImmediate kind rawPayload &&& pscalTagKindMask) >>> pscalTagKindShift =
      kind.code := by
    have hmod : pscalTagKindShift.toNat % 64 = 45 := rfl
    rw [← UInt64.toNat_inj, UInt64.toNat_shiftRight, hmod, Nat.shiftRight_eq_div_pow,
      BitFields.toNat_and_mask _ _ 45 5 rfl, pscalTagImmediate_toNat]
    omega
  rw [pscalTaggedWordKind, hkind, PscalTaggedKind.ofCode_code]

theorem pscalTaggedWordPayload_tagImmediate (kind : PscalTaggedKind) {rawPayload : UInt64}
    (h : rawPayload.toNat < 2 ^ 45) :
    pscalTaggedWordPayload (pscalTagImmediate kind rawPayload) = rawPayload := by
  have hcode := code_lt kind
  rw [← UInt64.toNat_inj, pscalTaggedWordPayload, BitFields.toNat_and_low _ _ 45 rfl,
    pscalTagImmediate_toNat]
  omega

/-! ## immediates -/

theorem decodeWord_tagImmediate (kind : PscalTaggedKind) (rawPayload : UInt64) :
    decodeWord (pscalTagImmediate kind rawPayload) =
      some (.inline (kind.untag (pscalTagImmediate kind rawPayload))) := by
  have hcode := code_lt kind
  have hword := pscalTagImmediate_toNat kind rawPayload
  have htag : pscalWordIsNanBoxTag (pscalTagImmediate kind rawPayload) = true := by
    rw [pscalWordIsNanBoxTag_iff]
    omega
  have himmediate : ¬ pscalTaggedWordIsPointer (pscalTagImmediate kind rawPayload) = true := by
    rw [pscalTaggedWordIsPointer_iff]
    omega
  rw [decodeWord, htag, if_neg (by simp), if_neg himmediate, pscalTaggedWordKind_tagImmediate]
  rfl

theorem payload_boolean (b : Bool) :
    pscalTaggedWordPayload (pscalTagBoolean b) = if b then 1 else 0 := by
  refine pscalTaggedWordPayload_tagImmediate .boolean ?_
  cases b <;> decide

theorem payload_uint8 (kind : PscalTaggedKind) (v : UInt8) :
    pscalTaggedWordPayload (pscalTagImmediate kind v.toUInt64) = v.toUInt64 := by
  have hlt := v.toNat_lt
  refine pscalTaggedWordPayload_tagImmediate kind ?_
  rw [UInt8.toNat_toUInt64]
  omega

theorem payload_uint16 (kind : PscalTaggedKind) (v : UInt16) :
    pscalTaggedWordPayload (pscalTagImmediate kind v.toUInt64) = v.toUInt64 := by
  have hlt := v.toNat_lt
  refine pscalTaggedWordPayload_tagImmediate kind ?_
  rw [UInt16.toNat_toUInt64]
  omega

theorem payload_uint32 (kind : PscalTaggedKind) (v : UInt32) :
    pscalTaggedWordPayload (pscalTagImmediate kind v.toUInt64) = v.toUInt64 := by
  have hlt := v.toNat_lt
  refine pscalTaggedWordPayload_tagImmediate kind ?_
  rw [UInt32.toNat_toUInt64]
  omega

@[simp] theorem untag_boolean (b : Bool) : pscalUntagBoolean (pscalTagBoolean b) = b := by
  rw [pscalUntagBoolean, payload_boolean]
  cases b <;> rfl

@[simp] theorem untag_char (c : UInt8) : pscalUntagChar (pscalTagChar c) = c := by
  rw [pscalUntagChar, pscalTagChar, payload_uint8, UInt8.toUInt8_toUInt64]

@[simp] theorem untag_wideChar (codepoint : UInt32) :
    pscalUntagWideChar (pscalTagWideChar codepoint) = codepoint := by
  rw [pscalUntagWideChar, pscalTagWideChar, payload_uint32, UInt32.toUInt32_toUInt64]

@[simp] theorem untag_byte (b : UInt8) : pscalUntagByte (pscalTagByte b) = b := by
  rw [pscalUntagByte, pscalTagByte, payload_uint8, UInt8.toUInt8_toUInt64]

@[simp] theorem untag_word (w : UInt16) : pscalUntagWord (pscalTagWord w) = w := by
  rw [pscalUntagWord, pscalTagWord, payload_uint16, UInt16.toUInt16_toUInt64]

@[simp] theorem untag_int8 (v : Int8) : pscalUntagInt8 (pscalTagInt8 v) = v := by
  rw [pscalUntagInt8, pscalTagInt8, payload_uint8, UInt8.toUInt8_toUInt64, Int8.toInt8_toUInt8]

@[simp] theorem untag_uint8 (v : UInt8) : pscalUntagUInt8 (pscalTagUInt8 v) = v := by
  rw [pscalUntagUInt8, pscalTagUInt8, payload_uint8, UInt8.toUInt8_toUInt64]

@[simp] theorem untag_int16 (v : Int16) : pscalUntagInt16 (pscalTagInt16 v) = v := by
  rw [pscalUntagInt16, pscalTagInt16, payload_uint16, UInt16.toUInt16_toUInt64,
    Int16.toInt16_toUInt16]

@[simp] theorem untag_uint16 (v : UInt16) : pscalUntagUInt16 (pscalTagUInt16 v) = v := by
  rw [pscalUntagUInt16, pscalTagUInt16, payload_uint16, UInt16.toUInt16_toUInt64]

@[simp] theorem untag_int32 (v : Int32) : pscalUntagInt32 (pscalTagInt32 v) = v := by
  rw [pscalUntagInt32, pscalTagInt32, payload_uint32, UInt32.toUInt32_toUInt64,
    Int32.toInt32_toUInt32]

@[simp] theorem untag_uint32 (v : UInt32) : pscalUntagUInt32 (pscalTagUInt32 v) = v := by
  rw [pscalUntagUInt32, pscalTagUInt32, payload_uint32, UInt32.toUInt32_toUInt64]

@[simp] theorem untag_float (bits : UInt32) : pscalUntagFloat (pscalTagFloat bits) = bits := by
  rw [pscalUntagFloat, pscalTagFloat, payload_uint32, UInt32.toUInt32_toUInt64]

def Inline.kind : Inline → PscalTaggedKind
  | .void => .void
  | .nil => .nil
  | .boolean _ => .boolean
  | .char _ => .char
  | .widechar _ => .widechar
  | .byte _ => .byte
  | .word _ => .word
  | .int8 _ => .int8
  | .uint8 _ => .uint8
  | .int16 _ => .int16
  | .uint16 _ => .uint16
  | .int32 _ => .int32
  | .uint32 _ => .uint32
  | .float _ => .float

theorem tag_eq (value : Inline) :
    ∃ rawPayload, value.tag = pscalTagImmediate value.kind rawPayload := by
  cases value <;> exact ⟨_, rfl⟩

theorem untag_tag (value : Inline) : value.kind.untag value.tag = value := by
  cases value <;> simp [Inline.kind, Inline.tag, PscalTaggedKind.untag]

theorem decodeWord_tag (value : Inline) : decodeWord value.tag = some (.inline value) := by
  obtain ⟨rawPayload, htag⟩ := tag_eq value
  have huntag := untag_tag value
  rw [htag] at huntag ⊢
  rw [decodeWord_tagImmediate, huntag]

/-! ## pointers and doubles -/

theorem decodeWord_tagPointer {ptr : UInt64} (h : pscalObjPointerFitsPayload ptr = true) :
    decodeWord (pscalTagPointer ptr) = some (.pointer ptr) := by
  have hword := pscalTagPointer_toNat ptr
  have hfits : ptr.toNat / 2 ^ 50 = 0 := by
    rw [pscalObjPointerFitsPayload, decide_eq_true_eq, ← UInt64.toNat_inj,
      UInt64.toNat_shiftRight, Nat.shiftRight_eq_div_pow] at h
    exact h
  have htag : pscalWordIsNanBoxTag (pscalTagPointer ptr) = true := by
    rw [pscalWordIsNanBoxTag_iff]
    omega
  have hpointer : pscalTaggedWordIsPointer (pscalTagPointer ptr) = true := by
    rw [pscalTaggedWordIsPointer_iff]
    omega
  have huntag : pscalUntagPointer (pscalTagPointer ptr) = ptr := by
    rw [← UInt64.toNat_inj, pscalUntagPointer_toNat]
    omega
  rw [decodeWord, htag, if_neg (by simp), if_pos hpointer, huntag]

/-- a NaN: the exponent is all ones and the fraction is not zero -/
def isNaN (bits : UInt64) : Bool := 0x7FF * 2 ^ 52 < bits.toNat % 2 ^ 63

theorem pscalBoxDouble_eq (bits : UInt64) : pscalBoxDouble bits =
      if pscalWordIsNanBoxTag bits = true then bits ||| (1 : UInt64) <<< 63 else bits := by
  by_cases h : bits &&& pscalNanboxHeaderMask = pscalNanboxHeader
  · rw [pscalWordIsNanBoxTag, decide_eq_true h, if_pos rfl]
    exact if_pos h
  · rw [pscalWordIsNanBoxTag, decide_eq_false h, if_neg (by simp)]
    exact if_neg h

theorem pscalBoxDouble_toNat (bits : UInt64) : (pscalBoxDouble bits).toNat =
      if bits.toNat / 2 ^ 51 = 0xFFF then bits.toNat + 2 ^ 63 else bits.toNat := by
  rw [pscalBoxDouble_eq]
  by_cases h : bits.toNat / 2 ^ 51 = 0xFFF
  · have hsign : ((1 : UInt64) <<< 63).toNat = 1 * 2 ^ 63 := rfl
    rw [if_pos ((pscalWordIsNanBoxTag_iff bits).mpr h), if_pos h, UInt64.toNat_or, Nat.or_comm,
      hsign, BitFields.or_field 1 (by omega)]
    omega
  · rw [if_neg (fun htag => h ((pscalWordIsNanBoxTag_iff bits).mp htag)), if_neg h]

theorem pscalBoxDouble_untagged (bits : UInt64) :
    pscalWordIsNanBoxTag (pscalBoxDouble bits) = false := by
  have hlt := bits.toNat_lt
  have hbox := pscalBoxDouble_toNat bits
  rw [Bool.eq_false_iff, ne_eq, pscalWordIsNanBoxTag_iff]
  split at hbox <;> omega

theorem decodeWord_boxDouble (bits : UInt64) :
    decodeWord (pscalBoxDouble bits) = some (.double (pscalBoxDouble bits)) := by
  rw [decodeWord, if_pos (pscalBoxDouble_untagged bits)]
  rfl

theorem isNaN_boxDouble (bits : UInt64) : isNaN (pscalBoxDouble bits) = isNaN bits := by
  have hbox := pscalBoxDouble_toNat bits
  rw [isNaN, isNaN, hbox]
  split
  · rw [Nat.add_mod_right]
  · rfl

theorem isNaN_of_tag {bits : UInt64} (h : pscalWordIsNanBoxTag bits = true) :
    isNaN bits = true := by
  rw [pscalWordIsNanBoxTag_iff] at h
  rw [isNaN, decide_eq_true_eq]
  omega

/-! ## cells -/

/-- what the word of a cell tells, of a type whose words are tagged or doubles -/
def Payload.word : Payload → Option Word
  | .void => some (.inline .void)
  | .nil => some (.inline .nil)
  | .integer t val =>
    match t with
    | .boolean => some (.inline (.boolean (val ≠ 0)))
    | .char => some (.inline (.char val.toUInt64.toUInt8))
    | .widechar => some (.inline (.widechar val.toUInt64.toUInt32))
    | .byte => some (.inline (.byte val.toUInt64.toUInt8))
    | .word => some (.inline (.word val.toUInt64.toUInt16))
    | .int8 => some (.inline (.int8 val.toInt8))
    | .uint8 => some (.inline (.uint8 val.toUInt64.toUInt8))
    | .int16 => some (.inline (.int16 val.toInt16))
    | .uint16 => some (.inline (.uint16 val.toUInt64.toUInt16))
    | .int32 | .thread => some (.inline (.int32 val.toInt32))
    | .uint32 => some (.inline (.uint32 val.toUInt64.toUInt32))
    | .int64 | .uint64 => none
  | .float bits => some (.inline (.float bits))
  | .double bits => some (.double (pscalBoxDouble bits))
  | .object _ _ ptr _ => some (.pointer ptr)

theorem make_type (p : Payload) : p.make.type = p.type := by
  cases p with
  | integer t val => cases t <;> rfl
  | _ => rfl

theorem integer_bits {t : IntType} {val : Int64} {w : Word}
    (h : (Payload.integer t val).word = some w) :
    ∃ value : Inline, w = .inline value ∧ (Payload.integer t val).make.bits = value.tag := by
  cases t with
  | int64 => simp [Payload.word] at h
  | uint64 => simp [Payload.word] at h
  | _ => exact ⟨_, (Option.some.inj h).symm, rfl⟩

theorem decodeWord_make {p : Payload} {w : Word} (h : p.word = some w) :
    decodeWord p.make.bits = some w := by
  cases p with
  | integer t val =>
    obtain ⟨value, rfl, hbits⟩ := integer_bits h
    rw [hbits, decodeWord_tag]
  | void =>
    rw [← h]
    exact decodeWord_tag .void
  | nil =>
    rw [← h]
    exact decodeWord_tag .nil
  | float bits =>
    rw [← h]
    exact decodeWord_tag (.float bits)
  | double bits =>
    rw [← h]
    exact decodeWord_boxDouble bits
  | object t heap ptr fits =>
    rw [← h]
    exact decodeWord_tagPointer fits

/-- the word of what a word tells, of a double as it is stored -/
def Word.bits : Word → UInt64
  | .double bits => bits
  | .pointer ptr => pscalTagPointer ptr
  | .inline value => value.tag

theorem make_bits {p : Payload} {w : Word} (h : p.word = some w) : p.make.bits = w.bits := by
  cases p with
  | integer t val =>
    obtain ⟨value, rfl, hbits⟩ := integer_bits h
    exact hbits
  | void =>
    cases h
    rfl
  | nil =>
    cases h
    rfl
  | float bits =>
    cases h
    rfl
  | double bits =>
    cases h
    rfl
  | object t heap ptr fits =>
    cases h
    rfl

/-! ## integers -/

/-- whether `VAL_INT` reads a type, and not `VAL_UINT` -/
def readsSigned : IntType → Bool
  | .int8 | .int16 | .int32 | .int64 | .thread => true
  | _ => false

def width : IntType → Nat
  | .boolean => 1
  | .char | .byte | .int8 | .uint8 => 8
  | .word | .int16 | .uint16 => 16
  | .widechar | .int32 | .uint32 | .thread => 32
  | .int64 | .uint64 => 64

def twosComplement (signed : Bool) (bits : Nat) (v : Int) : Int :=
  if signed then v.bmod (2 ^ bits) else v % 2 ^ bits

theorem store_eq {t : IntType} (h : t ≠ .boolean) (v : Int) :
    t.store v = twosComplement (readsSigned t) (width t) v := by
  cases t <;> first | exact absurd rfl h | rfl

def readInteger (t : IntType) (v : ValueStruct) : Int :=
  if readsSigned t then (pscalValueDecodeInt v).toInt else (pscalValueDecodeUInt v).toNat

theorem toNat_toUInt64 (v : Int64) : (v.toUInt64.toNat : Int) = v.toInt % 2 ^ 64 := by
  rw [← toInt64_emod]
  rfl

theorem toNat_uint8 (v : Int64) : (v.toUInt64.toUInt8.toUInt64.toNat : Int) = v.toInt % 2 ^ 8 := by
  have h := toNat_toUInt64 v
  rw [UInt8.toNat_toUInt64, UInt64.toNat_toUInt8]
  omega

theorem toNat_uint16 (v : Int64) :
    (v.toUInt64.toUInt16.toUInt64.toNat : Int) = v.toInt % 2 ^ 16 := by
  have h := toNat_toUInt64 v
  rw [UInt16.toNat_toUInt64, UInt64.toNat_toUInt16]
  omega

theorem toNat_uint32 (v : Int64) :
    (v.toUInt64.toUInt32.toUInt64.toNat : Int) = v.toInt % 2 ^ 32 := by
  have h := toNat_toUInt64 v
  rw [UInt32.toNat_toUInt64, UInt64.toNat_toUInt32]
  omega

theorem toInt_int64 (v : Int64) : v.toInt.bmod (2 ^ 64) = v.toInt := by
  have hlow := Int64.le_toInt v
  have hhigh := Int64.toInt_lt v
  exact Int.bmod_eq_of_le (by omega) (by omega)

theorem readInteger_make (t : IntType) (val : Int64) :
    readInteger t (Payload.integer t val).make = t.store val.toInt := by
  cases t with
  | boolean =>
    show ((if pscalUntagBoolean (pscalTagBoolean (val ≠ 0)) = true then (1 : UInt64) else 0).toNat :
      Int) = if val.toInt = 0 then 0 else 1
    rw [untag_boolean]
    by_cases h : val.toInt = 0
    · have hzero : val = 0 := Int64.toInt_inj.mp (h.trans Int64.toInt_zero.symm)
      rw [if_pos h, hzero]
      rfl
    · have hne : val ≠ 0 := fun e => h (e ▸ rfl)
      rw [if_neg h, decide_eq_true hne]
      rfl
  | char =>
    show ((pscalUntagChar (pscalTagChar val.toUInt64.toUInt8)).toUInt64.toNat : Int) = _
    rw [untag_char]
    exact toNat_uint8 val
  | byte =>
    show ((pscalUntagByte (pscalTagByte val.toUInt64.toUInt8)).toUInt64.toNat : Int) = _
    rw [untag_byte]
    exact toNat_uint8 val
  | uint8 =>
    show ((pscalUntagUInt8 (pscalTagUInt8 val.toUInt64.toUInt8)).toUInt64.toNat : Int) = _
    rw [untag_uint8]
    exact toNat_uint8 val
  | word =>
    show ((pscalUntagWord (pscalTagWord val.toUInt64.toUInt16)).toUInt64.toNat : Int) = _
    rw [untag_word]
    exact toNat_uint16 val
  | uint16 =>
    show ((pscalUntagUInt16 (pscalTagUInt16 val.toUInt64.toUInt16)).toUInt64.toNat : Int) = _
    rw [untag_uint16]
    exact toNat_uint16 val
  | widechar =>
    show ((pscalUntagWideChar (pscalTagWideChar val.toUInt64.toUInt32)).toUInt64.toNat : Int) = _
    rw [untag_wideChar]
    exact toNat_uint32 val
  | uint32 =>
    show ((pscalUntagUInt32 (pscalTagUInt32 val.toUInt64.toUInt32)).toUInt64.toNat : Int) = _
    rw [untag_uint32]
    exact toNat_uint32 val
  | uint64 => exact toNat_toUInt64 val
  | int8 =>
    show (pscalUntagInt8 (pscalTagInt8 val.toInt8)).toInt64.toInt = _
    rw [untag_int8, Int8.toInt_toInt64, Int64.toInt_toInt8]
    rfl
  | int16 =>
    show (pscalUntagInt16 (pscalTagInt16 val.toInt16)).toInt64.toInt = _
    rw [untag_int16, Int16.toInt_toInt64, Int64.toInt_toInt16]
    rfl
  | int32 =>
    show (pscalUntagInt32 (pscalTagInt32 val.toInt32)).toInt64.toInt = _
    rw [untag_int32, Int32.toInt_toInt64, Int64.toInt_toInt32]
    rfl
  | thread =>
    show (pscalUntagInt32 (pscalTagInt32 val.toInt32)).toInt64.toInt = _
    rw [untag_int32, Int32.toInt_toInt64, Int64.toInt_toInt32]
    rfl
  | int64 => exact (toInt_int64 val).symm

/-! ## all of it -/

/-- Every cell has its type; a word of a type other than `INT64` and `UINT64` tells its kind and
payload, so that words of different kinds differ; doubles are no tagged words, and only NaNs of the
reserved region are changed, to NaNs; and a cell keeps the two's complement of its width. -/
theorem taggedWords_decode : (∀ p : Payload, p.make.type = p.type ∧
      ∀ w, p.word = some w → decodeWord p.make.bits = some w) ∧
    (∀ (p q : Payload) (w w' : Word), p.word = some w → q.word = some w' →
      (p.make.bits = q.make.bits ↔ w = w')) ∧
    (∀ bits, pscalWordIsNanBoxTag (pscalBoxDouble bits) = false ∧
      isNaN (pscalBoxDouble bits) = isNaN bits ∧
      (pscalWordIsNanBoxTag bits = false → pscalUnboxDouble (pscalBoxDouble bits) = bits) ∧
      (pscalWordIsNanBoxTag bits = true → isNaN bits = true)) ∧
    (∀ t val, t ≠ .boolean → readInteger t (Payload.integer t val).make =
      twosComplement (readsSigned t) (width t) val.toInt) ∧
    ∀ val, readInteger .boolean (Payload.integer .boolean val).make =
      if val.toInt = 0 then 0 else 1 := by
  refine ⟨fun p => ⟨make_type p, fun w => decodeWord_make⟩, ?_, ?_, ?_,
    fun val => readInteger_make .boolean val⟩
  · intro p q w w' hp hq
    have hdecode := decodeWord_make hp
    have hdecode' := decodeWord_make hq
    constructor
    · intro hbits
      rw [hbits, hdecode'] at hdecode
      exact (Option.some.inj hdecode).symm
    · rintro rfl
      rw [make_bits hp, make_bits hq]
  · intro bits
    refine ⟨pscalBoxDouble_untagged bits, isNaN_boxDouble bits, fun h => ?_, isNaN_of_tag⟩
    rw [pscalUnboxDouble, pscalBoxDouble_eq, if_neg (by simp [h])]
  · intro t val h
    rw [readInteger_make, store_eq h]

/-- An `INT64` has the word of another type's value, and a NaN does not keep its sign. -/
theorem taggedWords_shared : (Payload.integer .int32 5).make.type ≠
        (Payload.integer .int64 (pscalTagInt32 5).toInt64).make.type ∧
      (Payload.integer .int32 5).make.bits =
        (Payload.integer .int64 (pscalTagInt32 5).toInt64).make.bits ∧
      pscalUnboxDouble (Payload.double 0x7FF8000000000000).make.bits ≠ 0x7FF8000000000000 := by
  decide

end Pscal.TaggedWord
