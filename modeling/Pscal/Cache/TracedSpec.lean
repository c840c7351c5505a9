import Pscal.Cache.ContainerSpec
import Pscal.Cache.TracedReaders

/-!
# What a load may do

* `cachePolicy`  the counts and the depth that are allowed;
* `sound_readValue`, …  the readers do nothing else, and give what the readers of bytes give;
* `loadBytecode_agrees`  so does a load;
* `cacheReads_safe`  a load is safe just when no unchecked count goes beyond what is left.
-/

namespace Pscal.Trace

open Wire List

def cachePolicy : Policy CountKind where
  limit := cacheMaxNesting
  fits kind n left := kind.Unchecked ∨ kind.Checked n left

theorem fits_unchecked {kind : CountKind} (h : kind.Unchecked) (n left : Nat) :
    cachePolicy.fits kind n left :=
  Or.inl h

theorem fits_cap {kind : CountKind} {cap n : Nat} (hcap : kind.cap = some cap) (h : n ≤ cap)
    (left : Nat) : cachePolicy.fits kind n left :=
  Or.inr (Or.inr ⟨cap, hcap, h⟩)

/-- the reader does only what is allowed, and gives what the other one gives -/
abbrev Safe {σ α : Type} (buf : Bytes) (d : Nat) (m : CacheReader σ α) (m' : Reader σ α) : Prop :=
  Sound cachePolicy buf d (fun _ => True) m m'

section
variable {σ κ : Type} {buf : Bytes} {d : Nat}

/-! ## the cursor -/

theorem sound_curU8 : Safe (σ := σ) buf d curU8 Pscal.curU8 :=
  .bind (sound_number 1) fun _ _ => .pure trivial

theorem sound_curU16LE : Safe (σ := σ) buf d curU16LE Pscal.curU16LE :=
  .bind (sound_number 2) fun _ _ => .pure trivial

theorem sound_curU32LE : Safe (σ := σ) buf d curU32LE Pscal.curU32LE :=
  .bind (sound_number 4) fun _ _ => .pure trivial

theorem sound_curU64LE : Safe (σ := σ) buf d curU64LE Pscal.curU64LE :=
  .bind (sound_number 8) fun _ _ => .pure trivial

theorem sound_curI32LE : Safe (σ := σ) buf d curI32LE Pscal.curI32LE :=
  .bind sound_curU32LE fun _ _ => .pure trivial

theorem sound_curVarint : Safe (σ := σ) buf d curVarint Pscal.curVarint :=
  .bind (sound_groups Nat.le.refl (by decide) 0) fun _ _ => .pure trivial

theorem sound_curSVarint : Safe (σ := σ) buf d curSVarint Pscal.curSVarint :=
  .bind sound_curVarint fun _ _ => .pure trivial

theorem sound_curLenPrefixedString : Safe (σ := σ) buf d curLenPrefixedString
      Pscal.curLenPrefixedString := by
  refine .bind sound_curVarint fun len _ => ?_
  intro c s hc hd
  have hallot : Safe (σ := σ) buf d
      (Traced.allot .text len.toNat >>= fun _ => Traced.bytes len.toNat) (Reader.bytes len.toNat) :=
    .allot (fits_unchecked (by decide) _) ((sound_bytes _).weaken fun _ _ => trivial)
  show Run.Kept cachePolicy d buf c
      ((if c.error = true ∨ c.size < len.toNat then (Traced.overrun >>= fun _ => pure none)
        else (Traced.allot CountKind.text len.toNat >>= fun _ => Traced.bytes len.toNat)) buf c s) ∧
    Run.Agrees buf (fun _ => True)
      ((if c.error = true ∨ c.size < len.toNat then (Traced.overrun >>= fun _ => pure none)
        else (Traced.allot CountKind.text len.toNat >>= fun _ => Traced.bytes len.toNat)) buf c s)
      ((if c.error = true then pure none else Reader.bytes len.toNat) (c.input buf) s)
  by_cases herror : c.error = true
  · rw [if_pos (Or.inl herror), if_pos herror]
    refine ⟨⟨fun _ he => absurd he not_mem_nil, hc, rfl, rfl, hd⟩, trivial, ?_⟩
    show _ = (some none, { c.input buf with error := true }, s)
    rw [← herror]
    rfl
  rw [if_neg herror]
  by_cases hsize : c.size < len.toNat
  · have hleft : (c.input buf).rest.length < len.toNat := by
      rw [hc.length_rest, Cursor.left]
      omega
    rw [if_pos (Or.inr hsize), Reader.bytes, if_pos (Or.inr hleft)]
    exact ⟨⟨fun _ he => absurd he not_mem_nil, hc, rfl, rfl, hd⟩, trivial, rfl⟩
  · rw [if_neg (not_or.mpr ⟨herror, hsize⟩)]
    exact hallot c s hc hd

theorem sound_readToken : Safe (σ := σ) buf d readToken Pscal.readToken := by
  refine .bind sound_curU8 fun has _ => .bind sound_hasError fun e _ => ?_
  refine .ite (fun _ => .pure trivial) fun _ => ?_
  refine .bind sound_curU32LE fun type _ => ?_
  refine .bind sound_curLenPrefixedString fun b _ => .bind sound_hasError fun e _ => ?_
  exact .ite (fun _ => .pure trivial) fun _ => .pure trivial

variable {ast : CacheReader σ TypeAst} {value' : Reader σ (CacheValue κ)} {ops ops' : CodecOps σ κ}

variable {levels : Nat} {value : CacheReader σ (CacheValue κ)}

theorem sound_readAstNested (h : Safe buf d ast (Pscal.readAst levels)) :
    Safe buf d (readAstNested ast) (Pscal.readAst (levels + 1)) := by
  rw [Pscal.readAst]
  refine .bind sound_curU8 fun has _ => .bind sound_hasError fun e _ => ?_
  refine .ite (fun _ => .pure trivial) fun _ => ?_
  refine .bind sound_curU32LE fun type _ => .bind sound_curU32LE fun varType _ => ?_
  refine .bind sound_curU8 fun flags _ => .bind sound_readToken fun token _ => ?_
  refine .bind sound_hasError fun e _ => ?_
  refine .ite (fun _ => .pure trivial) fun _ => ?_
  refine .bind sound_curI32LE fun iVal _ => .bind sound_hasError fun e _ => ?_
  refine .ite (fun _ => .pure trivial) fun _ => ?_
  refine .bind h fun left _ => .bind h fun right _ => .bind h fun extra _ => ?_
  refine .bind sound_hasError fun e _ => ?_
  refine .ite (fun _ => .pure trivial) fun _ => ?_
  refine .bind sound_curI32LE fun childCount _ => .bind sound_hasError fun e _ => ?_
  refine .ite (fun _ => .pure trivial) fun _ => ?_
  refine .checked (fun left hleft => Or.inr (Or.inl (Nat.le_of_not_lt hleft)))
    (.pure trivial) ?_
  refine .bind (sound_times h _) fun children _ => .bind sound_hasError fun e _ => ?_
  exact .ite (fun _ => .pure trivial) fun _ => .pure trivial

theorem sound_readAst {fuel : Nat} (hd : d ≤ cacheMaxNesting) (hfuel : cacheMaxNesting < fuel + d) :
    Safe (σ := σ) buf d (readAst fuel) (Pscal.readAst (cacheMaxNesting - d)) := by
  induction fuel generalizing d with
  | zero => omega
  | succ fuel ih =>
    by_cases hdeep : cacheMaxNesting ≤ d
    · rw [Nat.sub_eq_zero_of_le hdeep, readAst, Pscal.readAst]
      exact .nested_deep (p := cachePolicy) hdeep (.pure trivial)
    · have hlt : d < cacheMaxNesting := Nat.lt_of_not_le hdeep
      have hlevels : cacheMaxNesting - d = cacheMaxNesting - (d + 1) + 1 := by omega
      rw [hlevels, readAst]
      exact .nested (p := cachePolicy) hlt
        (sound_readAstNested (ih (d := d + 1) hlt (by omega)))

/-! ## values -/

theorem sound_readInt (t : IntType) : Safe (σ := σ) buf d (readInt (κ := κ) t) (Pscal.readInt t) :=
  .bind sound_curU64LE fun _ _ => .pure trivial

theorem sound_readString (t : StringType) :
    Safe (σ := σ) buf d (readString (κ := κ) t) (Pscal.readString t) := by
  refine .bind sound_curU8 fun present _ => .bind sound_hasError fun e _ => ?_
  refine .ite (fun _ => .fail_bind) fun _ => ?_
  refine .ite (fun _ => .pure trivial) fun _ => ?_
  refine .bind sound_curLenPrefixedString fun b _ => .bind sound_hasError fun e _ => ?_
  exact .ite (fun _ => .fail_bind) fun _ => .pure trivial

theorem sound_readEnum : Safe (σ := σ) buf d (readEnum (κ := κ)) Pscal.readEnum := by
  refine .bind sound_curLenPrefixedString fun b _ => .bind sound_hasError fun e _ => ?_
  refine .ite (fun _ => .fail_bind) fun _ => ?_
  refine .bind sound_curI32LE fun ordinal _ => .bind sound_hasError fun e _ => ?_
  exact .ite (fun _ => .fail_bind) fun _ => .pure trivial

theorem sound_readSet : Safe (σ := σ) buf d (readSet (κ := κ)) Pscal.readSet := by
  refine .bind sound_curI32LE fun sz _ => .bind sound_hasError fun e _ => ?_
  refine .ite (fun _ => .fail_bind) fun _ => ?_
  refine .allot (fits_unchecked (by decide) _) ?_
  refine .bind (sound_times sound_curU64LE _) fun values _ => ?_
  refine .bind sound_hasError fun e _ => ?_
  exact .ite (fun _ => .fail_bind) fun _ => .pure trivial

theorem sound_readMemoryStream :
    Safe (σ := σ) buf d (readMemoryStream (κ := κ)) Pscal.readMemoryStream := by
  refine .bind sound_curU8 fun present _ => .bind sound_hasError fun e _ => ?_
  refine .ite (fun _ => .fail_bind) fun _ => ?_
  refine .ite (fun _ => .pure trivial) fun _ => ?_
  refine .bind sound_curLenPrefixedString fun b _ => .bind sound_hasError fun e _ => ?_
  exact .ite (fun _ => .fail_bind) fun _ => .pure trivial

theorem sound_readArray (h : Safe buf d value value') :
    Safe buf d (readArray value) (Pscal.readArray value') := by
  refine .bind sound_curI32LE fun dims _ => .bind sound_hasError fun e _ => ?_
  refine .ite (fun _ => .fail_bind) fun _ => ?_
  refine .bind sound_curU32LE fun elementType _ => .bind sound_hasError fun e _ => ?_
  refine .ite (fun _ => .fail_bind) fun _ => ?_
  have hbound : Safe (σ := σ) buf d readBound _ :=
    .bind sound_curI32LE fun lb _ => .bind sound_curI32LE fun ub _ => .pure trivial
  refine .allot (fits_unchecked (by decide) _) ?_
  refine .bind (sound_times hbound _) fun bounds _ => .bind sound_hasError fun e _ => ?_
  refine .ite (fun _ => .fail_bind) fun _ => ?_
  cases arrayCodecElementCount bounds with
  | none => exact .fail
  | some total =>
    -- an element takes four bytes at least
    refine .checked (fun left hleft => Or.inr (Or.inl ?_)) .fail_bind ?_
    · omega
    refine .bind (sound_times h total) fun elements _ => ?_
    exact .ite (fun _ => .pure trivial) fun _ => .pure trivial

theorem sound_readEntries {valueType : UInt32} (hops : mapCoerceStored ops = mapCoerceStored ops')
    (h : Safe buf d value value') (n : Nat) (m : List (Bytes × CacheValue κ)) :
    Safe buf d (readEntries ops valueType value n m) (Pscal.readEntries ops' valueType value' n m) := by
  induction n generalizing m with
  | zero => exact .pure trivial
  | succ n ih =>
    rw [readEntries, Pscal.readEntries, hops]
    refine .bind sound_curLenPrefixedString fun b _ => .bind sound_hasError fun e _ => ?_
    refine .ite (fun _ => .fail_bind) fun _ => ?_
    exact .bind h fun item _ => ih _

theorem sound_readMap (hops : mapCoerceStored ops = mapCoerceStored ops')
    (h : Safe buf d value value') : Safe buf d (readMap ops value) (Pscal.readMap ops' value') := by
  refine .bind sound_curU8 fun present _ => .bind sound_hasError fun e _ => ?_
  refine .ite (fun _ => .fail_bind) fun _ => ?_
  refine .ite (fun _ => .pure trivial) fun _ => ?_
  refine .bind sound_curU8 fun valueType _ => .bind sound_curU32LE fun count _ => ?_
  refine .bind sound_hasError fun e _ => ?_
  refine .ite (fun _ => .fail_bind) fun _ => ?_
  refine .allot (fits_unchecked (by decide) _) ?_
  exact .bind (sound_readEntries hops h _ _) fun entries _ => .pure trivial

theorem sound_readPointerValue {function : CacheReader σ κ}
    (hast : Safe buf d ast (Pscal.readAst levels))
    (hfunction : Safe buf d function (ops.readFunction levels)) :
    Safe buf d (readPointerValue ast function) (Pscal.readPointerValue ops levels) := by
  refine .bind sound_curU8 fun kind _ => .bind sound_hasError fun e _ => ?_
  refine .ite (fun _ => .fail_bind) fun _ => ?_
  refine .ite (fun _ => .pure trivial) fun _ => ?_
  refine .ite (fun _ => ?_) fun _ => ?_
  · refine .bind sound_curLenPrefixedString fun b _ => .bind sound_hasError fun e _ => ?_
    exact .ite (fun _ => .fail_bind) fun _ => .pure trivial
  refine .ite (fun _ => ?_) fun _ => ?_
  · refine .bind sound_curU64LE fun address _ => .bind sound_hasError fun e _ => ?_
    exact .ite (fun _ => .fail_bind) fun _ => .pure trivial
  refine .ite (fun _ => ?_) fun _ => ?_
  · refine .bind hast fun base _ => .bind sound_hasError fun e _ => ?_
    exact .ite (fun _ => .fail_bind) fun _ => .pure trivial
  refine .ite (fun _ => ?_) fun _ => .fail
  exact .bind hfunction fun fn _ => .pure trivial

structure SameConversions (ops ops' : CodecOps σ κ) : Prop where
  floatOfFloat : ops.floatOfFloat = ops'.floatOfFloat
  ldOfDouble : ops.ldOfDouble = ops'.ldOfDouble
  coerce : mapCoerceStored ops = mapCoerceStored ops'

theorem sound_readPayload {function : CacheReader σ κ} (hops : SameConversions ops ops')
    (hast : Safe buf d ast (Pscal.readAst levels))
    (hfunction : Safe buf d function (ops'.readFunction levels)) (hvalue : Safe buf d value value')
    (type : VarType) : Safe buf d (readPayload ops ast function value type)
      (Pscal.readPayload ops' levels value' type) := by
  cases type with
  | float =>
    rw [readPayload, Pscal.readPayload, hops.floatOfFloat]
    exact .bind sound_curU32LE fun _ _ => .pure trivial
  | double => exact .bind sound_curU64LE fun _ _ => .pure trivial
  | longDouble =>
    rw [readPayload, Pscal.readPayload, hops.ldOfDouble]
    exact .bind sound_curU64LE fun _ _ => .pure trivial
  | char => exact .bind sound_curU32LE fun _ _ => .pure trivial
  | widechar =>
    refine .bind sound_curU32LE fun cp _ => .bind sound_hasError fun e _ => ?_
    exact .ite (fun _ => .fail_bind) fun _ => .pure trivial
  | task => exact .pure trivial
  | channel => exact .pure trivial
  | void => exact .pure trivial
  | nil => exact .pure trivial
  | string => exact sound_readString .string
  | unicodeString => exact sound_readString .unicodeString
  | enum => exact sound_readEnum
  | set => exact sound_readSet
  | array => exact sound_readArray hvalue
  | map => exact sound_readMap hops.coerce hvalue
  | memorystream => exact sound_readMemoryStream
  | pointer => exact .bind (sound_readPointerValue hast hfunction) fun _ _ => .pure trivial
  | unknown => exact .fail
  | record => exact .fail
  | file => exact .fail
  | interface => exact .fail
  | closure => exact .fail
  | _ => exact sound_readInt _

/-! ## sections -/

theorem sound_readCodeSection :
    Sound (σ := σ) cachePolicy buf d (fun code => code.1.length ≤ psb3MaxCodeBytes) readCodeSection
      Pscal.readCodeSection := by
  refine .bind sound_curVarint fun count _ => .bind sound_hasError fun e _ => ?_
  refine .ite (fun _ => .fail_bind) fun hcount => ?_
  refine .bind sound_curVarint fun cacheCount _ => .bind sound_hasError fun e _ => ?_
  refine .ite (fun _ => .fail_bind) fun hslots => ?_
  have hcode := Nat.le_of_not_lt (not_or.mp hcount).2
  refine .allot (fits_cap rfl (Nat.le_of_not_lt (not_or.mp hslots).2)) ?_
  refine .allot (fits_cap rfl hcode) ?_
  refine .bind (sound_bytes _) fun code hlen => ?_
  cases code with
  | none => exact .fail
  | some code => exact .pure (hlen code rfl ▸ hcode)

theorem sound_readRuns (count runs : Nat) (first : Bool) (curPc : Nat) (curLine : Int32)
    (lines : List Int32) : Safe (σ := σ) buf d (readRuns count runs first curPc curLine lines)
      (Pscal.readRuns count runs first curPc curLine lines) := by
  induction runs generalizing first curPc curLine lines with
  | zero => exact .pure trivial
  | succ runs ih =>
    refine .bind sound_curVarint fun pcDelta _ => ?_
    refine .bind sound_curSVarint fun lineDelta _ => .bind sound_hasError fun e _ => ?_
    refine .ite (fun _ => .fail_bind) fun _ => ?_
    refine .ite (fun _ => .fail_bind) fun _ => ?_
    exact .ite (fun _ => .fail_bind) fun _ => ih _ _ _ _

theorem sound_readLinesSection {count : Nat} (hcount : count ≤ psb3MaxCodeBytes) :
    Safe (σ := σ) buf d (readLinesSection count) (Pscal.readLinesSection count) := by
  refine .bind sound_curVarint fun runCount _ => .bind sound_hasError fun e _ => ?_
  refine .ite (fun _ => ?_) fun hruns => ?_
  · exact .ite (fun _ => .pure trivial) fun _ => .fail
  refine .ite (fun _ => .pure trivial) fun _ => ?_
  have hle := Nat.le_of_not_lt (not_or.mp hruns).2
  refine .allot (fits_cap rfl hcount) ?_
  exact .allot (fits_cap rfl (Nat.le_trans hle hcount)) (sound_readRuns _ _ _ _ _ _)

theorem sound_readConstSection (h : Safe buf d value value') :
    Sound cachePolicy buf d (fun constants => constants.length ≤ 2 ^ 31 - 1)
      (readConstSection value) (Pscal.readConstSection value') := by
  refine .bind sound_curVarint fun count _ => .bind sound_hasError fun e _ => ?_
  refine .ite (fun _ => .fail_bind) fun hcount => ?_
  have hle := Nat.le_of_not_lt (not_or.mp hcount).2
  refine .allot (fits_cap rfl hle) ?_
  exact (sound_times h _).weaken fun constants hlen => hlen.1 ▸ hle

theorem sound_readBmapPairs (constantsCount n : Nat) (indices : List Int32) :
    Safe (σ := σ) buf d (readBmapPairs constantsCount n indices)
      (Pscal.readBmapPairs constantsCount n indices) := by
  induction n generalizing indices with
  | zero => exact .pure trivial
  | succ n ih =>
    refine .bind sound_curVarint fun origIdx _ => ?_
    refine .bind sound_curVarint fun lowerIdx _ => .bind sound_hasError fun e _ => ?_
    refine .ite (fun _ => .fail_bind) fun _ => ?_
    exact .ite (fun _ => .fail_bind) fun _ => ih _

theorem sound_readBmapSection {constantsCount : Nat} (hcount : constantsCount ≤ 2 ^ 31 - 1) :
    Safe (σ := σ) buf d (readBmapSection constantsCount) (Pscal.readBmapSection constantsCount) := by
  refine .allot (fits_cap rfl hcount) ?_
  refine .bind sound_curVarint fun count _ => .bind sound_hasError fun e _ => ?_
  refine .ite (fun _ => .fail_bind) fun _ => ?_
  refine .allot (fits_unchecked (by decide) _) ?_
  refine .bind (sound_readBmapPairs _ _ _) fun indices _ => ?_
  refine .bind sound_curU64LE fun fingerprint _ => .bind sound_hasError fun e _ => ?_
  exact .ite (fun _ => .fail_bind) fun _ => .pure trivial

theorem sound_readUpvalue : Safe (σ := σ) buf d readUpvalue Pscal.readUpvalue := by
  refine .bind sound_curU8 fun index _ => .bind sound_curU8 fun isLocal _ => ?_
  refine .bind sound_curU8 fun isRef _ => .bind sound_hasError fun e _ => ?_
  exact .ite (fun _ => .fail_bind) fun _ => .pure trivial

theorem sound_readName : Safe (σ := σ) buf d readName Pscal.readName := by
  refine .bind sound_curLenPrefixedString fun name _ => ?_
  cases name with
  | none => exact .fail
  | some name =>
    refine .bind sound_hasError fun e _ => ?_
    exact .ite (fun _ => .fail_bind) fun _ => .pure trivial

theorem sound_readEnclosing (host : CacheHost σ) :
    Safe buf d (readEnclosing host) (Pscal.readEnclosing host) := by
  refine .bind sound_curU8 fun has _ => .bind sound_hasError fun e _ => ?_
  refine .ite (fun _ => .fail_bind) fun _ => ?_
  refine .ite (fun _ => .pure trivial) fun _ => ?_
  refine .bind sound_readName fun name _ => .bind sound_get fun s _ => ?_
  cases host.findProcedureScope s name with
  | none => exact .fail
  | some s => exact .bind (sound_set s) fun _ _ => .pure trivial

theorem sound_readProcedureEntry (host : CacheHost σ) :
    Safe buf d (readProcedureEntry host) (Pscal.readProcedureEntry host) := by
  refine .bind sound_readName fun name _ => .bind sound_curI32LE fun addr _ => ?_
  refine .bind sound_curU16LE fun locals _ => .bind sound_curU8 fun upvals _ => ?_
  refine .bind sound_curU32LE fun type _ => .bind sound_curU8 fun arity _ => ?_
  refine .bind sound_curU8 fun closureCaptures _ => ?_
  refine .bind sound_curU8 fun closureEscapes _ => ?_
  refine .bind (sound_readEnclosing host) fun enclosing _ => ?_
  refine .allot (fits_cap rfl (Nat.le_of_lt_succ upvals.toNat_lt)) ?_
  refine .bind (sound_times sound_readUpvalue _) fun upvalues _ => ?_
  refine .bind sound_get fun s _ => .bind (sound_set _) fun _ _ => ?_
  exact .pure trivial

theorem sound_readConstGlobal (host : CacheHost σ)
    {value : CacheReader σ (CacheValue ShellFunction)} {value' : Reader σ (CacheValue ShellFunction)}
    (h : Safe buf d value value') :
    Safe buf d (readConstGlobal host value) (Pscal.readConstGlobal host value') := by
  refine .bind sound_readName fun name _ => .bind sound_curU32LE fun type _ => ?_
  refine .bind sound_hasError fun e _ => ?_
  refine .ite (fun _ => .fail_bind) fun _ => ?_
  refine .bind h fun val _ => .bind sound_get fun s _ => ?_
  exact .bind (sound_set _) fun _ _ => .pure trivial

theorem sound_readProcsSection (host : CacheHost σ)
    {value : CacheReader σ (CacheValue ShellFunction)} {value' : Reader σ (CacheValue ShellFunction)}
    (h : Safe buf d value value') :
    Safe buf d (readProcsSection host value) (Pscal.readProcsSection host value') := by
  refine .bind sound_curVarint fun procCount _ => .bind sound_hasError fun e _ => ?_
  refine .ite (fun _ => .fail_bind) fun hcount => ?_
  refine .allot (fits_cap rfl (Nat.le_of_not_lt (not_or.mp hcount).2)) ?_
  refine .bind (sound_times (sound_readProcedureEntry host) _) fun procedures _ => ?_
  refine .bind sound_curVarint fun constSymCount _ => .bind sound_hasError fun e _ => ?_
  refine .ite (fun _ => .fail_bind) fun _ => ?_
  refine .allot (fits_unchecked (by decide) _) ?_
  exact .bind (sound_times (sound_readConstGlobal host h) _) fun _ _ => .pure trivial

theorem sound_readTypesSection (host : CacheHost σ) (h : Safe buf d ast (Pscal.readAst levels)) :
    Safe buf d (readTypesSection host ast) (Pscal.readTypesSection host levels) := by
  refine .bind sound_curVarint fun typeCount _ => .bind sound_hasError fun e _ => ?_
  refine .ite (fun _ => .fail_bind) fun _ => ?_
  refine .allot (fits_unchecked (by decide) _) ?_
  have hentry : Safe buf d (readTypeEntry host ast) (Pscal.readTypeEntry host levels) := by
    refine .bind sound_readName fun name _ => .bind h fun typeAst _ => ?_
    refine .bind sound_hasError fun e _ => ?_
    refine .ite (fun _ => .fail_bind) fun _ => ?_
    refine .bind sound_get fun s _ => ?_
    exact .bind (sound_set _) fun _ _ => .pure trivial
  exact (sound_times hentry _).weaken fun _ _ => trivial

theorem sound_readShellFunction (host : CacheHost σ) {ops : CodecOps σ ShellFunction}
    {value : CacheReader σ (CacheValue ShellFunction)}
    (hast : Safe buf d ast (Pscal.readAst levels))
    (hvalue : Safe buf d value (Pscal.readValue ops levels)) :
    Safe buf d (readShellFunction host ast value) (Pscal.readShellFunction host ops levels) := by
  refine .bind sound_curU32LE fun version _ => .bind sound_hasError fun e _ => ?_
  refine .ite (fun _ => .fail_bind) fun _ => ?_
  have hchunk : Safe buf d (readChunkCoreInline host ast value version)
      (Pscal.readChunkCoreInline host ops levels version) := by
    refine .bind sound_readCodeSection fun code hcode => ?_
    refine .bind (sound_readLinesSection hcode) fun lines _ => ?_
    refine .bind (sound_readConstSection hvalue) fun constants hconstants => ?_
    refine .bind (sound_readBmapSection hconstants) fun indices _ => ?_
    refine .bind (sound_readProcsSection host hvalue) fun _ _ => ?_
    exact .bind (sound_readTypesSection host hast) fun _ _ => .pure trivial
  refine .bind hchunk fun chunk _ => ?_
  cases host.linkAndVerify chunk with
  | none => exact .fail
  | some chunk => exact .pure trivial

/-! ## values and functions -/

theorem sameConversions (host : CacheHost σ) (tables : SymbolTables) (depth : Nat) :
    SameConversions (functionOps host {} 0) (functionOps host tables depth) := by
  have hcoerce : mapCoerceStored (functionOps host {} 0)
      = mapCoerceStored (functionOps host tables depth) := by
    funext want v
    cases depth <;> rfl
  cases depth with
  | zero => exact ⟨rfl, rfl, hcoerce⟩
  | succ depth => exact ⟨rfl, rfl, hcoerce⟩

theorem sound_readValue (host : CacheHost σ) (tables : SymbolTables) {fuel depth : Nat}
    (hd : d ≤ cacheMaxNesting) (hfuel : cacheMaxNesting < fuel + d)
    (hdepth : cacheMaxNesting - d ≤ depth) : Safe buf d (readValue host fuel)
      (Pscal.readValue (functionOps host tables depth) (cacheMaxNesting - d)) := by
  induction fuel generalizing d depth with
  | zero => omega
  | succ fuel ih =>
    by_cases hdeep : cacheMaxNesting ≤ d
    · rw [Nat.sub_eq_zero_of_le hdeep, readValue, Pscal.readValue]
      exact .nested_deep (p := cachePolicy) hdeep .fail
    have hlt : d < cacheMaxNesting := Nat.lt_of_not_le hdeep
    have hlevels : cacheMaxNesting - d = cacheMaxNesting - (d + 1) + 1 := by omega
    obtain ⟨depth, rfl⟩ := Nat.exists_eq_succ_of_ne_zero (n := depth) (by omega)
    have hfuel' : cacheMaxNesting < fuel + (d + 1) := by omega
    have hast : Safe (σ := σ) buf (d + 1) (readAst fuel) _ := sound_readAst hlt hfuel'
    -- a function in the value is read by the codec of functions one less deep
    have hfunction := sound_readShellFunction host hast (@ih (d + 1) depth hlt hfuel' (by omega))
    have hvalue := @ih (d + 1) (depth + 1) hlt hfuel' (by omega)
    rw [hlevels, readValue, Pscal.readValue]
    refine .nested (p := cachePolicy) hlt ?_
    refine .bind sound_curU32LE fun code _ => .bind sound_hasError fun e _ => ?_
    refine .ite (fun _ => .fail_bind) fun _ => ?_
    cases VarType.ofCode code with
    | none => exact .fail
    | some type =>
      exact sound_readPayload (sameConversions host tables _) hast hfunction hvalue type

/-! ## the header -/

theorem sound_readHeader : Safe buf d readHeader Pscal.readHeader := by
  refine .bind sound_curU32LE fun magic _ => .bind sound_curU16LE fun formatVer _ => ?_
  refine .bind sound_curU16LE fun vmVer _ => .bind sound_curU32LE fun flags _ => ?_
  exact .bind sound_curU32LE fun sectionCount _ => .pure trivial

theorem sound_readDirectory {sectionCount : Nat} (hcount : sectionCount ≤ psb3MaxSections) :
    Safe buf d (readDirectory sectionCount) (Reader.times Pscal.readSectionEntry sectionCount) := by
  have hentry : Safe buf d readSectionEntry Pscal.readSectionEntry := by
    refine .bind sound_curU32LE fun id _ => .bind sound_curU32LE fun offset _ => ?_
    exact .bind sound_curU32LE fun length _ => .pure trivial
  refine .allot (fits_cap rfl hcount) ?_
  exact (sound_times hentry _).weaken fun _ _ => trivial

end

theorem psb3ParseDirectory_agrees {pf : Psb3File} {sectionCount : Nat} {c : Cursor}
    (hcount : sectionCount ≤ psb3MaxSections) (hc : c.Inside pf.fileData) :
    (psb3ParseDirectory pf sectionCount c).1
        = Pscal.psb3ParseDirectory pf sectionCount (c.input pf.fileData) ∧
      ∀ e ∈ (psb3ParseDirectory pf sectionCount c).2, e.Sound cachePolicy pf.fileData := by
  obtain ⟨hkept, hagree⟩ := sound_readDirectory (d := c.depth) hcount c () hc rfl
  have hevents := hkept.events
  unfold psb3ParseDirectory Pscal.psb3ParseDirectory
  generalize readDirectory sectionCount pf.fileData c () = r at hagree hevents ⊢
  generalize Reader.times Pscal.readSectionEntry sectionCount (c.input pf.fileData) () = o
    at hagree ⊢
  obtain ⟨outcome, cursor, state, events⟩ := r
  cases outcome with
  | done sections =>
    obtain ⟨-, rfl⟩ := hagree
    cases herror : cursor.error with
    | false =>
      simp only [Cursor.input, herror]
      exact ⟨trivial, hevents⟩
    | true =>
      simp only [Cursor.input, herror]
      exact ⟨trivial, hevents⟩
  | failed =>
    obtain ⟨_, input, state'⟩ := o
    obtain rfl := hagree
    exact ⟨rfl, hevents⟩
  | stuck => exact hagree.elim

theorem psb3ParseHeader_agrees (fileData : Bytes) :
    (psb3ParseHeader fileData).1 = Pscal.psb3ParseHeader fileData ∧
      ∀ e ∈ (psb3ParseHeader fileData).2, e.Sound cachePolicy fileData := by
  have hc : Cursor.Inside fileData { base := 0, size := fileData.length } :=
    ⟨Nat.zero_le _, Or.inr (Nat.zero_add _).le⟩
  have hinput : Cursor.input fileData { base := 0, size := fileData.length }
      = { rest := fileData } := by
    simp only [Cursor.input, Cursor.left, Nat.add_zero, drop_zero, Nat.sub_zero, take_length]
  obtain ⟨hkept, hagree⟩ := sound_readHeader _ () hc rfl
  have hevents := hkept.events
  have hinside := hkept.inside
  rw [hinput] at hagree
  unfold psb3ParseHeader Pscal.psb3ParseHeader
  generalize readHeader fileData { base := 0, size := fileData.length } () = r
    at hagree hevents hinside ⊢
  generalize Pscal.readHeader { rest := fileData } () = o at hagree ⊢
  obtain ⟨outcome, cursor, state, events⟩ := r
  cases outcome with
  | done header =>
    obtain ⟨magic, formatVer, vmVer, flags, sectionCount⟩ := header
    obtain ⟨-, rfl⟩ := hagree
    cases herror : cursor.error with
    | false =>
      simp only [Cursor.input, herror]
      split
      · exact ⟨rfl, hevents⟩
      split
      · exact ⟨rfl, hevents⟩
      split
      · exact ⟨rfl, hevents⟩
      rename_i hcount
      cases FrontendKind.ofCode (flags &&& psb3FlagFrontendMask) with
      | none => exact ⟨rfl, hevents⟩
      | some kind =>
        let pf : Psb3File :=
          { fileData := fileData, formatVersion := formatVer, vmVersion := vmVer, flags := flags
            frontendKind := kind, sections := [] }
        obtain ⟨hdir, hdirEvents⟩ :=
          @psb3ParseDirectory_agrees pf _ _ (Nat.le_of_not_lt hcount) hinside
        rw [Cursor.input, herror] at hdir
        refine ⟨hdir, fun e he => ?_⟩
        rcases mem_append.mp he with he | he
        · exact hevents e he
        · exact hdirEvents e he
    | true =>
      simp only [Cursor.input, herror]
      exact ⟨trivial, hevents⟩
  | failed =>
    obtain ⟨_, input, state'⟩ := o
    obtain rfl := hagree
    exact ⟨rfl, hevents⟩
  | stuck => exact hagree.elim

theorem psb3CheckSections_inside {fileSize : Nat} {sections : List Psb3SectionEntry}
    (h : psb3CheckSections fileSize sections = .ok ()) :
    ∀ e ∈ sections, e.length.toNat = 0 ∨ e.offset.toNat + e.length.toNat ≤ fileSize := by
  induction sections with
  | nil => exact fun _ he => absurd he not_mem_nil
  | cons e sections ih =>
    rw [psb3CheckSections] at h
    split at h
    · cases h
    rename_i hfits
    cases hoverlap : psb3CheckOverlap e sections with
    | error message =>
      rw [hoverlap] at h
      cases h
    | ok =>
      rw [hoverlap] at h
      refine forall_mem_cons.mpr ⟨?_, ih h⟩
      omega

theorem psb3ParseHeader_inside {fileData : Bytes} {pf : Psb3File}
    (h : Pscal.psb3ParseHeader fileData = .ok pf) : pf.fileData = fileData ∧ ∀ e ∈ pf.sections,
      e.length.toNat = 0 ∨ e.offset.toNat + e.length.toNat ≤ fileData.length := by
  unfold Pscal.psb3ParseHeader at h
  split at h
  · split at h
    · cases h
    split at h
    · cases h
    split at h
    · cases h
    dsimp only at h
    split at h
    · cases h
    unfold Pscal.psb3ParseDirectory at h
    split at h
    · rename_i sections _ _ _
      cases hcheck : psb3CheckSections fileData.length sections with
      | error message =>
        rw [hcheck] at h
        cases h
      | ok =>
        rw [hcheck] at h
        cases h
        exact ⟨rfl, psb3CheckSections_inside hcheck⟩
    · cases h
  · cases h

/-! ## a load -/

section
variable {σ α : Type} {buf : Bytes} {d : Nat} {pf : Psb3File}

def Psb3Inside (buf : Bytes) (pf : Psb3File) : Prop :=
  pf.fileData = buf ∧
    ∀ e ∈ pf.sections, e.length.toNat = 0 ∨ e.offset.toNat + e.length.toNat ≤ buf.length

theorem sound_inSection {Q : α → Prop} {id : UInt32} {m : CacheReader σ α} {m' : Reader σ α}
    (hpf : Psb3Inside buf pf) (h : Sound cachePolicy buf 0 Q m m') :
    Sound cachePolicy buf d Q (inSection pf id m) (Pscal.inSection pf id m') := by
  obtain ⟨rfl, hinside⟩ := hpf
  unfold inSection Pscal.inSection psb3FindSection
  cases hfind : pf.sections.find? fun e => e.id = id with
  | none => exact .fail
  | some e => exact .inPart (hinside e (mem_of_find?_eq_some hfind)) h

theorem sound_psb3ReadMeta (hpf : Psb3Inside buf pf) :
    Safe (σ := σ) buf d (psb3ReadMeta pf) (Pscal.psb3ReadMeta pf) := by
  refine sound_inSection hpf ?_
  refine .bind sound_curU64LE fun sourceHash _ => ?_
  refine .bind sound_curU64LE fun combinedHash _ => ?_
  exact .bind sound_readName fun sourcePath _ => .pure trivial

theorem sound_psb3ReadChunk (host : CacheHost σ) (tables : SymbolTables) (hpf : Psb3Inside buf pf) :
    Safe buf d (psb3ReadChunk host pf) (Pscal.psb3ReadChunk host
      (functionOps host tables cacheMaxNesting) cacheMaxNesting pf) := by
  have hfuel : cacheMaxNesting < cacheMaxNesting + 1 + 0 := Nat.lt_succ_self _
  have hvalue : Safe buf 0 (readValue host _) _ :=
    sound_readValue host tables (Nat.zero_le _) hfuel Nat.le.refl
  have hast : Safe (σ := σ) buf 0 (readAst _) _ := sound_readAst (Nat.zero_le _) hfuel
  refine .ite (fun _ => .fail_bind) fun _ => ?_
  refine .bind (sound_inSection hpf sound_readCodeSection) fun code hcode => ?_
  refine .bind (sound_inSection hpf (sound_readLinesSection hcode)) fun lines _ => ?_
  refine .bind (sound_inSection hpf (sound_readConstSection hvalue)) fun cs hcs => ?_
  refine .bind (sound_inSection hpf (sound_readBmapSection hcs)) fun indices _ => ?_
  refine .bind (sound_inSection hpf (sound_readProcsSection host hvalue)) fun procs _ => ?_
  refine .bind (sound_inSection hpf (sound_readTypesSection host hast)) fun types _ => ?_
  exact .pure trivial

/-- `psb3Read` on the bytes -/
def plainRead (host : CacheHost σ) (tables : SymbolTables) (includeMeta : Bool) (pf : Psb3File) :
    Reader σ (CachedChunk ShellFunction × SymbolTables) :=
  let chunk := Pscal.psb3ReadChunk host (functionOps host tables cacheMaxNesting) cacheMaxNesting pf
  if includeMeta then Pscal.psb3ReadMeta pf >>= fun _ => chunk else chunk

theorem sound_psb3Read (host : CacheHost σ) (tables : SymbolTables) (includeMeta : Bool)
    (hpf : Psb3Inside buf pf) :
    Safe buf d (psb3Read host includeMeta pf) (plainRead host tables includeMeta pf) := by
  have hchunk := sound_psb3ReadChunk (d := d) host tables hpf
  exact .ite (fun _ => .bind (sound_psb3ReadMeta hpf) fun _ _ => hchunk) fun _ => hchunk

/-- A load does only what is allowed, does not run out of fuel, and gives what the readers of the
bytes give. -/
theorem loadBytecode_agrees (host : CacheHost σ) (tables : SymbolTables) (includeMeta : Bool)
    (fileData : Bytes) (s : σ) :
    (∀ e ∈ (loadBytecode host includeMeta fileData s).events, e.Sound cachePolicy fileData) ∧
      match Pscal.psb3ParseHeader fileData with
      | .error _ => (loadBytecode host includeMeta fileData s).outcome = .failed
      | .ok pf => (loadBytecode host includeMeta fileData s).Agrees fileData (fun _ => True)
          (plainRead host tables includeMeta pf { rest := [] } s) := by
  obtain ⟨hheader, hevents⟩ := psb3ParseHeader_agrees fileData
  rw [← hheader]
  unfold loadBytecode
  generalize psb3ParseHeader fileData = parsed at hheader hevents ⊢
  obtain ⟨_ | pf, events⟩ := parsed
  · exact ⟨hevents, rfl⟩
  · have hpf := psb3ParseHeader_inside hheader.symm
    have hc : Cursor.Inside fileData { base := 0, size := 0 } := ⟨Nat.le.refl, Or.inl rfl⟩
    obtain ⟨hkept, hagree⟩ := sound_psb3Read host tables includeMeta hpf _ s hc rfl
    refine ⟨fun e he => ?_, hagree⟩
    rcases mem_append.mp he with he | he
    · exact hevents e he
    · exact hkept.events e he

/-! ## safety -/

/-- The load succeeds or fails, reads only inside of the section that it is in, checks each count
before it allocates or loops for it, and nests within the limit. -/
structure ReaderSafe (fileData : Bytes) (r : Run CountKind σ α) : Prop where
  ends : r.outcome ≠ .stuck
  reads : ∀ base size offset n, .read base size offset n ∈ r.events →
    base ≤ offset ∧ offset + n ≤ base + size ∧ offset + n ≤ fileData.length
  counts : ∀ kind n left, .count kind n left ∈ r.events → kind.Checked n left
  nesting : ∀ depth, .enter depth ∈ r.events → depth ≤ cacheMaxNesting

/-- no count that is not checked goes beyond the bytes that are left behind it -/
def CountsFit (r : Run CountKind σ α) : Prop :=
  ∀ kind n left, .count kind n left ∈ r.events → kind.Unchecked → n ≤ left

theorem CountKind.Unchecked.cap_eq {kind : CountKind} (h : kind.Unchecked) : kind.cap = none := by
  revert h
  cases kind <;> decide

/-- a load of any bytes is safe just when its unchecked counts fit -/
theorem cacheReads_safe (host : CacheHost σ) (includeMeta : Bool) (fileData : Bytes) (s : σ) :
    ReaderSafe fileData (loadBytecode host includeMeta fileData s) ↔
      CountsFit (loadBytecode host includeMeta fileData s) := by
  obtain ⟨hevents, hends⟩ := loadBytecode_agrees host {} includeMeta fileData s
  constructor
  · intro h kind n left hmem hunchecked
    rcases h.counts kind n left hmem with hleft | ⟨cap, hcap, -⟩
    · exact hleft
    · rw [hunchecked.cap_eq] at hcap
      cases hcap
  · intro hfit
    refine ⟨fun hstuck => ?_, fun _ _ _ _ hmem => hevents _ hmem, fun kind n left hmem => ?_,
      fun _ hmem => hevents _ hmem⟩
    · split at hends
      · rw [hstuck] at hends
        cases hends
      · rw [Run.Agrees, hstuck] at hends
        exact hends
    · rcases hevents _ hmem with hunchecked | hchecked
      · exact Or.inl (hfit kind n left hmem hunchecked)
      · exact hchecked

end

/-- a file whose only constant is a set of 300 elements of which there are none -/
def hugeSetFile : Bytes :=
  psb3Layout 9 .pascal
    [(psb3SecCode, [0, 0]), (psb3SecLine, [0]),
      (psb3SecCons, [1] ++ bufU32LE VarType.set.code ++ bufI32LE 300),
      (psb3SecBmap, [0] ++ bufU64LE 0), (psb3SecProc, [0, 0]), (psb3SecType, [0])]

theorem not_readerSafe_hugeSet :
    ¬ ReaderSafe hugeSetFile (loadBytecode plainHost false hugeSetFile ()) := by
  intro h
  have hmem : Event.count CountKind.setValue 300 0
      ∈ (loadBytecode plainHost false hugeSetFile ()).events := by decide +kernel
  rcases h.counts _ _ _ hmem with hleft | ⟨cap, hcap, -⟩
  · exact absurd hleft (by decide)
  · cases hcap

end Pscal.Trace
