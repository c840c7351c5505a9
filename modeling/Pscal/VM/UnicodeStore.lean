import Mathlib
import Pscal.Lib.Patch
import Pscal.VM.ElementsSpec

/-!
# Characters of a UnicodeString

`utf8ByteOffsetForCodepointIndex` of `core/utils.c` against `utf8CodepointCount`, and
`vmStoreUnicodeChar` of `vm/vm.c`.

* `Decodes`  a text as its code points and what no longer decodes;
* `Decodes.offset`  the offset of an index, whatever the text;
* `indexingAgrees_iff`  when the offsets fit the count;
* `vmStoreUnicodeChar_ok`  what a store makes of the text, and that an error leaves it.
-/

namespace Pscal

open List Option

namespace Elements

open Wire

/-! ## code points and what is behind them -/

def encodeAll (cps : List Nat) : Bytes := cps.flatMap encodeUtf8Codepoint

theorem encodeAll_cons (cp : Nat) (cps : List Nat) :
    encodeAll (cp :: cps) = encodeUtf8Codepoint cp ++ encodeAll cps := rfl

theorem encodeAll_append (cps cps' : List Nat) :
    encodeAll (cps ++ cps') = encodeAll cps ++ encodeAll cps' := flatMap_append

/-- The text is the code points `cps`, and `bad` behind them, which starts with none. -/
structure Decodes (text : Bytes) (cps : List Nat) (bad : Bytes) : Prop where
  valid : ∀ cp ∈ cps, cp.isValidChar
  text_eq : text = encodeAll cps ++ bad
  stops : decodeUtf8Codepoint bad = none

theorem exists_decodes (text : Bytes) : ∃ cps bad, Decodes text cps bad := by
  induction hn : text.length using Nat.strong_induction_on generalizing text with
  | _ n ih =>
    cases hdecode : decodeUtf8Codepoint text with
    | none => exact ⟨[], text, by simp, rfl, hdecode⟩
    | some p =>
      obtain ⟨hvalid, hlen, htext⟩ := decode_isScalar (show _ = some (p.1, p.2) from hdecode)
      have hpos := length_pos_iff.mpr (encode_ne_nil hvalid)
      have hshort : (text.drop p.2).length < n := by
        have hle := congrArg List.length htext
        rw [length_append] at hle
        omega
      obtain ⟨cps, bad, h⟩ := ih _ hshort (text.drop p.2) rfl
      refine ⟨p.1 :: cps, bad, ?_, ?_, h.stops⟩
      · exact forall_mem_cons.mpr ⟨hvalid, h.valid⟩
      · rw [encodeAll_cons, append_assoc, ← h.text_eq]
        exact htext

section
variable {text : Bytes} {cps cps' : List Nat} {bad bad' : Bytes}

theorem Decodes.head {cp : Nat} (h : Decodes text (cp :: cps) bad) :
    decodeUtf8Codepoint text = some (cp, (encodeUtf8Codepoint cp).length) := by
  rw [h.text_eq, encodeAll_cons, append_assoc]
  exact decode_encode (h.valid cp mem_cons_self) _

theorem Decodes.tail {cp : Nat} (h : Decodes text (cp :: cps) bad) :
    Decodes (encodeAll cps ++ bad) cps bad where
  valid cp' hcp' := h.valid cp' (mem_cons_of_mem cp hcp')
  text_eq := rfl
  stops := h.stops

theorem Decodes.unique (h : Decodes text cps bad) (h' : Decodes text cps' bad') :
    cps = cps' ∧ bad = bad' := by
  induction cps generalizing text cps' with
  | nil =>
    have htext : text = bad := h.text_eq
    cases cps' with
    | nil => exact ⟨rfl, htext.symm.trans h'.text_eq⟩
    | cons cp cps' =>
      have hfirst := h'.head
      rw [htext, h.stops] at hfirst
      cases hfirst
  | cons cp cps ih =>
    cases cps' with
    | nil =>
      have htext : text = bad' := h'.text_eq
      have hfirst := h.head
      rw [htext, h'.stops] at hfirst
      cases hfirst
    | cons cp' cps' =>
      have hfirst := h.head.symm.trans h'.head
      obtain ⟨rfl, -⟩ := Prod.mk.inj (some.inj hfirst)
      have htail : encodeAll cps ++ bad = encodeAll cps' ++ bad' := by
        have htext := h.text_eq.symm.trans h'.text_eq
        rw [encodeAll_cons, encodeAll_cons, append_assoc, append_assoc] at htext
        exact append_cancel_left htext
      obtain ⟨rfl, hbad⟩ := ih h.tail (htail ▸ h'.tail)
      exact ⟨rfl, hbad⟩

theorem decodeUtf8_iff : decodeUtf8 text = some cps ↔ Decodes text cps [] := by
  rw [decodeUtf8, decodeFrom_iff (Nat.le_refl _)]
  constructor
  · rintro ⟨hvalid, htext⟩
    exact ⟨hvalid, by rw [append_nil]; exact htext.symm, rfl⟩
  · intro h
    refine ⟨h.valid, ?_⟩
    rw [h.text_eq, append_nil]
    rfl

theorem Decodes.decodeUtf8 (h : Decodes text cps bad) :
    decodeUtf8 text = if bad = [] then some cps else none := by
  split
  · next hbad => exact decodeUtf8_iff.mpr (hbad ▸ h)
  · next hbad =>
    rw [eq_none_iff_forall_ne_some]
    intro cps' h'
    exact hbad (h.unique (decodeUtf8_iff.mp h')).2

theorem Decodes.count (h : Decodes text cps bad) :
    utf8CodepointCount text = if bad = [] then cps.length else text.length := by
  rw [utf8CodepointCount, h.decodeUtf8]
  by_cases hbad : bad = []
  · rw [if_pos hbad, if_pos hbad]
  · rw [if_neg hbad, if_neg hbad]

theorem Decodes.isValid_iff (h : Decodes text cps bad) : isValidUtf8Bytes text ↔ bad = [] := by
  rw [isValid_decodeFrom (Nat.le_refl _)]
  show (Pscal.decodeUtf8 text).isSome = true ↔ _
  rw [h.decodeUtf8]
  split <;> simp [*]

/-! ## offsets -/

theorem offsetLoop_eq (done : Bytes) (h : Decodes (encodeAll cps ++ bad) cps bad) (index n : Nat) :
    utf8ByteOffsetLoop (done ++ (encodeAll cps ++ bad)) index n done.length =
      if n ≤ cps.length then done.length + (encodeAll (cps.take n)).length
      else if bad = [] then (done ++ (encodeAll cps ++ bad)).length
      else min index (done ++ (encodeAll cps ++ bad)).length := by
  induction n generalizing done cps with
  | zero => simp [utf8ByteOffsetLoop, encodeAll]
  | succ n ih =>
    rw [utf8ByteOffsetLoop, drop_left]
    cases cps with
    | nil =>
      have hnil : encodeAll [] ++ bad = bad := rfl
      have hn : ¬ n + 1 ≤ ([] : List Nat).length := Nat.not_succ_le_zero n
      rw [hnil, h.stops, if_neg hn]
      by_cases hbad : bad = []
      · rw [if_pos hbad, hbad, append_nil, if_pos (Nat.le_refl _)]
      · have hpos := length_pos_iff.mpr hbad
        have hmore : ¬ (done ++ bad).length ≤ done.length := by
          rw [length_append]
          omega
        rw [if_neg hbad, if_neg hmore]
    | cons cp cps =>
      have hpos := length_pos_iff.mpr (encode_ne_nil (h.valid cp mem_cons_self))
      have hmore : ¬ (done ++ (encodeAll (cp :: cps) ++ bad)).length ≤ done.length := by
        rw [encodeAll_cons, length_append, length_append, length_append]
        omega
      have hassoc : done ++ (encodeAll (cp :: cps) ++ bad) =
          (done ++ encodeUtf8Codepoint cp) ++ (encodeAll cps ++ bad) := by
        rw [encodeAll_cons, append_assoc, append_assoc]
      rw [if_neg hmore, h.head]
      show utf8ByteOffsetLoop _ index n (done.length + (encodeUtf8Codepoint cp).length) = _
      rw [hassoc, ← length_append, ih _ h.tail, length_cons, take_succ_cons,
        encodeAll_cons]
      by_cases hn : n ≤ cps.length
      · rw [if_pos hn, if_pos (Nat.succ_le_succ hn), length_append, length_append,
          Nat.add_assoc]
      · rw [if_neg hn, if_neg (fun hle => hn (Nat.le_of_succ_le_succ hle))]

theorem Decodes.offset (h : Decodes text cps bad) (index : Nat) :
    utf8ByteOffsetForCodepointIndex text index =
      if index ≤ cps.length then (encodeAll (cps.take index)).length
      else if bad = [] then text.length
      else min index text.length := by
  have hloop := offsetLoop_eq [] (h.text_eq ▸ h) index index
  rw [nil_append, ← h.text_eq] at hloop
  rw [utf8ByteOffsetForCodepointIndex]
  simpa using hloop

theorem encodeAll_take_lt (hvalid : ∀ cp ∈ cps, cp.isValidChar) {i : Nat} (hi : i < cps.length) :
    (encodeAll (cps.take i)).length < (encodeAll (cps.take (i + 1))).length := by
  have hpos := length_pos_iff.mpr (encode_ne_nil (hvalid _ (getElem_mem hi)))
  rw [take_add_one, getElem?_eq_getElem hi, encodeAll_append, length_append,
    toList_some, encodeAll_cons, length_append]
  omega

/-! ## counting against indexing -/

/-- An index leads into the text exactly below the count, the count to its end, and the offsets
between cut the text into pieces that are not empty. -/
structure IndexingAgrees (text : Bytes) : Prop where
  succeeds : ∀ i, utf8ByteOffsetForCodepointIndex text i < text.length ↔
    i < utf8CodepointCount text
  first : utf8ByteOffsetForCodepointIndex text 0 = 0
  last : utf8ByteOffsetForCodepointIndex text (utf8CodepointCount text) = text.length
  increasing : ∀ i j, i < j → j ≤ utf8CodepointCount text →
    utf8ByteOffsetForCodepointIndex text i < utf8ByteOffsetForCodepointIndex text j

theorem lt_of_steps (f : Nat → Nat) (count : Nat) (hstep : ∀ i, i < count → f i < f (i + 1)) :
    ∀ i j, i < j → j ≤ count → f i < f j := by
  intro i j hij hj
  induction j with
  | zero => omega
  | succ j ih =>
    have hlast := hstep j hj
    rcases Nat.lt_succ_iff_lt_or_eq.mp hij with hlt | rfl
    · exact Nat.lt_trans (ih hlt (Nat.le_of_succ_le hj)) hlast
    · exact hlast

theorem Decodes.indexingAgrees_of_valid (h : Decodes text cps []) : IndexingAgrees text := by
  have hcount : utf8CodepointCount text = cps.length := h.count.trans (if_pos rfl)
  have hlength : text.length = (encodeAll cps).length := by rw [h.text_eq, append_nil]
  have hoffset : ∀ i, i ≤ cps.length →
      utf8ByteOffsetForCodepointIndex text i = (encodeAll (cps.take i)).length := fun i hi =>
    (h.offset i).trans (if_pos hi)
  have hend : utf8ByteOffsetForCodepointIndex text cps.length = text.length := by
    rw [hoffset _ (Nat.le_refl _), take_length, hlength]
  have hsteps := lt_of_steps (utf8ByteOffsetForCodepointIndex text) cps.length
    fun i hi => by
      rw [hoffset i hi.le, hoffset (i + 1) hi]
      exact encodeAll_take_lt h.valid hi
  constructor
  · intro i
    rw [hcount]
    constructor
    · intro hi
      by_contra hge
      rcases Nat.eq_or_lt_of_le (Nat.le_of_not_lt hge) with rfl | hlt
      · omega
      · rw [h.offset, if_neg (Nat.not_le.mpr hlt), if_pos rfl] at hi
        omega
    · intro hi
      rw [← hend]
      exact hsteps i _ hi (Nat.le_refl _)
  · exact (hoffset 0 (Nat.zero_le _)).trans rfl
  · rw [hcount, hend]
  · rw [hcount]
    exact hsteps

/-! ## text that does not decode -/

theorem encode_length_one {cp : Nat} (hvalid : cp.isValidChar)
    (h : (encodeUtf8Codepoint cp).length = 1) : cp ≤ 0x7F := by
  by_contra hlong
  have hrange := hvalid
  unfold Nat.isValidChar at hrange
  by_cases h2 : cp ≤ 0x7FF
  · rw [encode_two (by omega) h2] at h
    cases h
  by_cases h3 : cp ≤ 0xFFFF
  · rw [encode_three hvalid (by omega) h3] at h
    cases h
  · rw [encode_four hvalid (by omega)] at h
    cases h

theorem length_le_encodeAll (hvalid : ∀ cp ∈ cps, cp.isValidChar) :
    cps.length ≤ (encodeAll cps).length := by
  induction cps with
  | nil => simp
  | cons cp cps ih =>
    obtain ⟨hcp, hcps⟩ := forall_mem_cons.mp hvalid
    have hpos := length_pos_iff.mpr (encode_ne_nil hcp)
    have hle := ih hcps
    rw [encodeAll_cons, length_append, length_cons]
    omega

theorem ascii_of_length (hvalid : ∀ cp ∈ cps, cp.isValidChar)
    (h : (encodeAll cps).length ≤ cps.length) : ∀ cp ∈ cps, cp ≤ 0x7F := by
  induction cps with
  | nil => simp
  | cons cp cps ih =>
    obtain ⟨hcp, hcps⟩ := forall_mem_cons.mp hvalid
    have hpos := length_pos_iff.mpr (encode_ne_nil hcp)
    have hle := length_le_encodeAll hcps
    rw [encodeAll_cons, length_append, length_cons] at h
    intro cp' hcp'
    rcases mem_cons.mp hcp' with rfl | hmem
    · exact encode_length_one hcp (by omega)
    · exact ih hcps (by omega) cp' hmem

theorem length_encodeAll_ascii (h : ∀ cp ∈ cps, cp ≤ 0x7F) :
    (encodeAll cps).length = cps.length := by
  induction cps with
  | nil => rfl
  | cons cp cps ih =>
    obtain ⟨hcp, hcps⟩ := forall_mem_cons.mp h
    rw [encodeAll_cons, encode_one hcp, length_append, ih hcps]
    simp [Nat.add_comm]

theorem decode_ascii {c : UInt8} (hc : c ≤ 0x7F) (t : Bytes) :
    decodeUtf8Codepoint (c :: t) = some (c.toNat, 1) :=
  form_decode (.one (UInt8.le_iff_toNat_le.mp hc))

theorem Decodes.dropWhile (h : Decodes text cps bad) :
    text.dropWhile (· ≤ 0x7F) = encodeAll (cps.dropWhile (· ≤ 0x7F)) ++ bad := by
  induction cps generalizing text with
  | nil =>
    have htext : text = bad := h.text_eq
    rw [htext]
    cases hbad : bad with
    | nil => rfl
    | cons c t =>
      have hc : ¬ c ≤ 0x7F := by
        intro hc
        have hstops := h.stops
        rw [hbad, decode_ascii hc] at hstops
        cases hstops
      simp [hc, encodeAll]
  | cons cp cps ih =>
    by_cases hcp : cp ≤ 0x7F
    · have hbyte : UInt8.ofNat cp ≤ 0x7F := by
        rw [UInt8.le_iff_toNat_le, toNat_byte (by omega)]
        exact hcp
      rw [h.text_eq, encodeAll_cons, encode_one hcp]
      simp [hcp, hbyte, ih h.tail]
    · obtain ⟨c, t, hct⟩ := exists_cons_of_ne_nil (encode_ne_nil (h.valid cp mem_cons_self))
      have hc : ¬ c ≤ 0x7F := by
        intro hc
        have hfirst := h.head
        rw [h.text_eq, encodeAll_cons, hct, append_assoc, cons_append,
          decode_ascii hc] at hfirst
        obtain ⟨rfl, -⟩ := Prod.mk.inj (some.inj hfirst)
        exact hcp (UInt8.le_iff_toNat_le.mp hc)
      rw [h.text_eq, encodeAll_cons, hct]
      simp [hc, hcp, encodeAll_cons, hct]

theorem Decodes.ascii_iff (h : Decodes text cps bad) :
    decodeUtf8Codepoint (text.dropWhile (· ≤ 0x7F)) = none ↔ ∀ cp ∈ cps, cp ≤ 0x7F := by
  rw [h.dropWhile]
  cases hrest : cps.dropWhile (· ≤ 0x7F) with
  | nil =>
    have hall := dropWhile_eq_nil_iff.mp hrest
    exact iff_of_true h.stops fun cp hcp => of_decide_eq_true (hall cp hcp)
  | cons cp rest =>
    have hmem : ∀ cp' ∈ cp :: rest, cp' ∈ cps := fun cp' hcp' =>
      (dropWhile_suffix _).mem (hrest ▸ hcp')
    have hfirst : ¬ cp ≤ 0x7F := by
      have hhead := head?_dropWhile_not (p := fun cp : Nat => decide (cp ≤ 0x7F)) cps
      rw [hrest] at hhead
      simpa using hhead
    refine iff_of_false ?_ fun hall => hfirst (hall cp (hmem cp mem_cons_self))
    rw [encodeAll_cons, append_assoc,
      decode_encode (h.valid cp (hmem cp mem_cons_self))]
    simp

theorem Decodes.indexingAgrees_of_ascii (h : Decodes text cps bad) (hbad : bad ≠ [])
    (hascii : ∀ cp ∈ cps, cp ≤ 0x7F) : IndexingAgrees text := by
  have hcount : utf8CodepointCount text = text.length := h.count.trans (if_neg hbad)
  have hoffset : ∀ i, utf8ByteOffsetForCodepointIndex text i = min i text.length := by
    intro i
    rw [h.offset, if_neg hbad]
    by_cases hi : i ≤ cps.length
    · have hlength := congrArg List.length h.text_eq
      rw [length_append, length_encodeAll_ascii hascii] at hlength
      rw [if_pos hi, length_encodeAll_ascii fun cp hcp => hascii cp (mem_of_mem_take hcp),
        length_take]
      omega
    · rw [if_neg hi]
  constructor
  · intro i
    rw [hoffset, hcount]
    omega
  · rw [hoffset, Nat.zero_min]
  · rw [hcount, hoffset, Nat.min_self]
  · intro i j hij hj
    rw [hoffset, hoffset]
    omega

theorem Decodes.ascii_of_agrees (h : Decodes text cps bad) (hbad : bad ≠ [])
    (hagrees : IndexingAgrees text) : ∀ cp ∈ cps, cp ≤ 0x7F := by
  have hpos := length_pos_iff.mpr hbad
  have hcount : utf8CodepointCount text = text.length := h.count.trans (if_neg hbad)
  have hlength := congrArg List.length h.text_eq
  have hle := length_le_encodeAll h.valid
  rw [length_append] at hlength
  have hnext := hagrees.increasing cps.length (cps.length + 1) (Nat.lt_succ_self _)
    (by rw [hcount]; omega)
  rw [h.offset, h.offset, if_pos (Nat.le_refl _), if_neg (by omega), if_neg hbad,
    take_length] at hnext
  exact ascii_of_length h.valid (by omega)

/-- **The count and the offsets agree on valid text, and on text whose first byte that is not ASCII
starts no code point.** -/
theorem indexingAgrees_iff (text : Bytes) :
    IndexingAgrees text ↔
      isValidUtf8Bytes text = true ∨ decodeUtf8Codepoint (text.dropWhile (· ≤ 0x7F)) = none := by
  obtain ⟨cps, bad, h⟩ := exists_decodes text
  rw [h.isValid_iff, h.ascii_iff]
  by_cases hbad : bad = []
  · exact iff_of_true (hbad ▸ h).indexingAgrees_of_valid (.inl hbad)
  · constructor
    · intro hagrees
      exact .inr (h.ascii_of_agrees hbad hagrees)
    · rintro (hnil | hascii)
      · exact absurd hnil hbad
      · exact h.indexingAgrees_of_ascii hbad hascii

/-- `é` and a stray byte: the index `2` leads back to where the index `1` led -/
theorem not_indexingAgrees_stray : ¬ IndexingAgrees [0xC3, 0xA9, 0xFF] := by
  intro hagrees
  exact absurd (hagrees.increasing 1 2 (by decide) (by decide)) (by decide)

/-! ## the span of a character -/

theorem Decodes.drop_offset (h : Decodes text cps []) (i : Nat) :
    text.drop (encodeAll (cps.take i)).length = encodeAll (cps.drop i) := by
  have htext : text = encodeAll (cps.take i) ++ encodeAll (cps.drop i) := by
    rw [← encodeAll_append, take_append_drop, h.text_eq, append_nil]
  rw [htext, drop_left]

theorem Decodes.span (h : Decodes text cps []) {i : Nat} (hi : i < cps.length) :
    vmUnicodeCharSpan text i =
      some ((encodeAll (cps.take i)).length, (encodeUtf8Codepoint cps[i]).length) := by
  have hcount : utf8CodepointCount text = cps.length := h.count.trans (if_pos rfl)
  have hlength : text.length = (encodeAll cps).length := by rw [h.text_eq, append_nil]
  have hcp := h.valid _ (getElem_mem hi)
  rw [vmUnicodeCharSpan, hcount]
  by_cases hbytes : cps.length = text.length
  · -- one byte for each code point
    have hascii := ascii_of_length h.valid (by omega)
    have htake : (encodeAll (cps.take i)).length = i := by
      rw [length_encodeAll_ascii fun cp hmem => hascii cp (mem_of_mem_take hmem),
        length_take]
      omega
    have hone : (encodeUtf8Codepoint cps[i]).length = 1 := by
      rw [encode_one (hascii _ (getElem_mem hi))]
      rfl
    rw [if_pos hbytes, if_neg (by omega), htake, hone]
  · have hoffset : utf8ByteOffsetForCodepointIndex text i = (encodeAll (cps.take i)).length :=
      (h.offset i).trans (if_pos hi.le)
    have hlt : (encodeAll (cps.take i)).length < text.length := by
      rw [← hoffset]
      exact (h.indexingAgrees_of_valid.succeeds i).mpr (by rw [hcount]; exact hi)
    have hdecode : decodeUtf8Codepoint (text.drop (encodeAll (cps.take i)).length) =
        some (cps[i], (encodeUtf8Codepoint cps[i]).length) := by
      rw [h.drop_offset, drop_eq_getElem_cons hi, encodeAll_cons]
      exact decode_encode hcp _
    rw [if_neg hbytes, hoffset]
    show (if _ then _ else _) = _
    rw [if_neg (by omega), hdecode]
    rfl

theorem Decodes.span_none (h : Decodes text cps []) {i : Nat} (hi : cps.length ≤ i) :
    vmUnicodeCharSpan text i = none := by
  have hagrees := h.indexingAgrees_of_valid.succeeds i
  have hcount : utf8CodepointCount text = cps.length := h.count.trans (if_pos rfl)
  rw [hcount] at hagrees
  rw [vmUnicodeCharSpan, hcount]
  by_cases hbytes : cps.length = text.length
  · rw [if_pos hbytes, if_pos (by omega)]
  · rw [if_neg hbytes]
    exact if_pos (by omega)

end

/-! ## storing a character -/

inductive CharSource where
  | char (c : UInt8)
  | wideChar (code : Int)
  | str (text : Bytes)
  /-- a string without text is one of these -/
  | other (t : VarType)

inductive StoreError where
  | invalidCodePoint (code : Int)
  | notOneCharacter
  | typeMismatch (t : VarType)
  | shortenedString
  | doesNotFit (maxLength : Int)
  | outOfMemory
deriving DecidableEq, Repr

def StoreError.message : StoreError → String
  | .invalidCodePoint code => s!"VM Error: Invalid character code point {code}."
  | .notOneCharacter =>
    "VM Error: Cannot assign multi-character or empty string to a single character location."
  | .typeMismatch t =>
    "VM Error: Type mismatch for character assignment. Expected CHAR or single-char STRING, got " ++
      t.toString ++ "."
  | .shortenedString => "Runtime Error: String index out of range: the string was shortened " ++
      "after the character was addressed."
  | .doesNotFit maxLength => s!"Runtime Error: Character does not fit in string[{maxLength}]."
  | .outOfMemory => "VM Error: Out of memory writing a string character."

/-- the code point to store -/
def CharSource.codepoint : CharSource → Except StoreError Nat
  | .char c => .ok c.toNat
  | .wideChar code =>
    if code < 0 ∨ 0x10FFFF < code then .error (.invalidCodePoint code) else .ok code.toNat
  | .str text =>
    match decodeUtf8Codepoint text with
    | some (codepoint, advance) =>
      if advance = text.length then .ok codepoint else .error .notOneCharacter
    | none => .error .notOneCharacter
  | .other t => .error (.typeMismatch t)

/-- a string with all the bytes of its buffer, those behind the terminator among them -/
structure StringBuffer where
  maxLength : Int32 := -1
  buffer : Option Bytes
deriving DecidableEq, Repr

def StringBuffer.text (so : StringBuffer) : Bytes := (so.buffer.getD []).takeWhile (· ≠ 0)

/-- `allocated` is whether `calloc` has the memory for a new buffer. -/
def vmStoreUnicodeChar (allocated : Bool) (index : Nat) (value : CharSource) (so : StringBuffer) :
    Except StoreError Unit × StringBuffer :=
  match value.codepoint with
  | .error e => (.error e, so)
  | .ok codepoint =>
    match so.buffer with
    | none => (.error .shortenedString, so)
    | some buffer =>
      let text := buffer.takeWhile (· ≠ 0)
      match vmUnicodeCharSpan text index with
      | none => (.error .shortenedString, so)
      | some (offset, oldLen) =>
        let encoded := encodeUtf8Codepoint codepoint
        if encoded.length = oldLen then
          (.ok (), { so with buffer := some (Patch.write buffer offset encoded) })
        else
          let newTotal := text.length - oldLen + encoded.length
          if 0 < so.maxLength.toInt ∧ so.maxLength.toInt < newTotal then
            (.error (.doesNotFit so.maxLength.toInt), so)
          else if allocated = false then (.error .outOfMemory, so)
          else
            let capacity := if 0 < so.maxLength.toInt ∧ newTotal < so.maxLength.toInt then
              so.maxLength.toInt.toNat else newTotal
            let spliced := text.take offset ++ encoded ++ text.drop (offset + oldLen)
            (.ok (), { so with
              buffer := some (spliced ++ List.replicate (capacity + 1 - newTotal) 0) })

theorem codepoint_wideChar {c : Nat} (hc : c.isValidChar) :
    (CharSource.wideChar c).codepoint = .ok c := by
  unfold Nat.isValidChar at hc
  exact if_neg (by omega)

theorem zero_notMem_encode {c : Nat} (hc : c.isValidChar) (h0 : c ≠ 0) :
    (0 : UInt8) ∉ encodeUtf8Codepoint c := by
  have hform := form_encode hc
  generalize encodeUtf8Codepoint c = head at hform
  have hnot : ∀ b : UInt8, 0 < b.toNat → 0 ≠ b := by
    rintro b hb rfl
    exact absurd hb (by decide)
  have hcont : ∀ b : UInt8, isContinuation b = true → 0 ≠ b := fun b hb =>
    hnot b (Nat.lt_of_lt_of_le (by decide) ((isContinuation_iff b).mp hb).1)
  cases hform with
  | @one c0 _ =>
    have hc0 : 0 ≠ c0 := hnot c0 (Nat.pos_of_ne_zero h0)
    simpa using hc0
  | @two c0 c1 hc0 h1 => simp [hnot c0 (by omega), hcont c1 h1]
  | @three c0 c1 c2 hc0 h1 h2 => simp [hnot c0 (by omega), hcont c1 h1, hcont c2 h2]
  | @four c0 c1 c2 c3 hc0 h1 h2 h3 =>
    simp [hnot c0 (by omega), hcont c1 h1, hcont c2 h2, hcont c3 h3]

theorem takeWhile_text {text rest : Bytes} (htext : (0 : UInt8) ∉ text)
    (hrest : rest.takeWhile (· ≠ 0) = []) : (text ++ rest).takeWhile (· ≠ 0) = text := by
  rw [takeWhile_append_of_pos, hrest, append_nil]
  intro b hb
  rw [decide_eq_true_eq]
  rintro rfl
  exact htext hb

theorem takeWhile_dropWhile (buffer : Bytes) :
    (buffer.dropWhile (· ≠ 0)).takeWhile (· ≠ 0) = [] := by
  induction buffer with
  | nil => rfl
  | cons b buffer ih =>
    by_cases hb : b = 0
    · simp [hb]
    · simpa [hb] using ih

section
variable {text : Bytes} {cps : List Nat}

theorem Decodes.spliced (h : Decodes text cps []) {i : Nat} (hi : i < cps.length) (c : Nat) :
    text.take (encodeAll (cps.take i)).length ++ encodeUtf8Codepoint c ++
        text.drop ((encodeAll (cps.take i)).length + (encodeUtf8Codepoint cps[i]).length) =
      encodeAll (cps.set i c) := by
  have htext : text = encodeAll (cps.take i) ++ encodeAll (cps.drop i) := by
    rw [← encodeAll_append, take_append_drop, h.text_eq, append_nil]
  have htake : text.take (encodeAll (cps.take i)).length = encodeAll (cps.take i) := by
    rw [htext, take_left]
  rw [htake, ← drop_drop, h.drop_offset, drop_eq_getElem_cons hi, encodeAll_cons,
    drop_left, set_eq_take_append_cons_drop, if_pos hi, encodeAll_append, encodeAll_cons,
    append_assoc]

theorem Decodes.end_le (h : Decodes text cps []) {i : Nat} (hi : i < cps.length) :
    (encodeAll (cps.take i)).length + (encodeUtf8Codepoint cps[i]).length ≤ text.length := by
  have htext : text = encodeAll (cps.take i) ++ encodeAll (cps.drop i) := by
    rw [← encodeAll_append, take_append_drop, h.text_eq, append_nil]
  rw [htext, drop_eq_getElem_cons hi, encodeAll_cons, length_append, length_append]
  omega

theorem Decodes.set (h : Decodes text cps []) {c : Nat} (hc : c.isValidChar) (i : Nat) :
    Decodes (encodeAll (cps.set i c)) (cps.set i c) [] where
  valid cp hcp := by
    rcases mem_or_eq_of_mem_set hcp with hmem | rfl
    · exact h.valid cp hmem
    · exact hc
  text_eq := (append_nil _).symm
  stops := rfl

end

section
variable {so : StringBuffer} {cps : List Nat} {i c : Nat} {value : CharSource}

/-- the text keeps its length, or the new one is within the declared maximum -/
def StringBuffer.HasRoom (so : StringBuffer) (cps : List Nat) (i c : Nat) : Prop :=
  (∀ cp ∈ cps[i]?, (encodeUtf8Codepoint c).length = (encodeUtf8Codepoint cp).length) ∨
    so.maxLength.toInt ≤ 0 ∨ (encodeAll (cps.set i c)).length ≤ so.maxLength.toInt

theorem StringBuffer.exists_buffer (hdecode : decodeUtf8 so.text = some cps)
    (hi : i < cps.length) :
    ∃ buffer, so.buffer = some buffer ∧ so.text = buffer.takeWhile (· ≠ 0) := by
  have h := decodeUtf8_iff.mp hdecode
  cases hbuffer : so.buffer with
  | some buffer => exact ⟨buffer, rfl, by rw [StringBuffer.text, hbuffer]; rfl⟩
  | none =>
    have htext : so.text = [] := by rw [StringBuffer.text, hbuffer]; rfl
    have hlength := congrArg List.length h.text_eq
    have hle := length_le_encodeAll h.valid
    rw [htext, append_nil, length_nil] at hlength
    omega

theorem StringBuffer.zero_notMem_text (so : StringBuffer) : (0 : UInt8) ∉ so.text := by
  intro hmem
  have hzero := mem_takeWhile_imp hmem
  simp at hzero

theorem zero_notMem_set (hdecode : decodeUtf8 so.text = some cps) (hi : i < cps.length)
    (hc : c.isValidChar) (h0 : c ≠ 0) : (0 : UInt8) ∉ encodeAll (cps.set i c) := by
  rw [← (decodeUtf8_iff.mp hdecode).spliced hi c, mem_append, mem_append]
  rintro ((hmem | hmem) | hmem)
  · exact so.zero_notMem_text (mem_of_mem_take hmem)
  · exact zero_notMem_encode hc h0 hmem
  · exact so.zero_notMem_text (mem_of_mem_drop hmem)

theorem length_set (hdecode : decodeUtf8 so.text = some cps) (hi : i < cps.length) (c : Nat) :
    so.text.length - (encodeUtf8Codepoint cps[i]).length + (encodeUtf8Codepoint c).length =
      (encodeAll (cps.set i c)).length := by
  have h := decodeUtf8_iff.mp hdecode
  have hend := h.end_le hi
  have hlength := congrArg List.length (h.spliced hi c)
  rw [length_append, length_append, length_take, length_drop] at hlength
  omega

theorem vmStoreUnicodeChar_set (hdecode : decodeUtf8 so.text = some cps) (hi : i < cps.length)
    (hvalue : value.codepoint = .ok c) (hc : c.isValidChar) (h0 : c ≠ 0)
    (hroom : so.HasRoom cps i c) :
    ∃ so', vmStoreUnicodeChar true i value so = (.ok (), so') ∧
      so'.text = encodeAll (cps.set i c) ∧ so'.maxLength = so.maxLength := by
  have h := decodeUtf8_iff.mp hdecode
  obtain ⟨buffer, hbuffer, htext⟩ := StringBuffer.exists_buffer hdecode hi
  have hnew := zero_notMem_set hdecode hi hc h0
  have hspliced := h.spliced hi c
  have hend := h.end_le hi
  unfold vmStoreUnicodeChar
  rw [hvalue]
  simp only [hbuffer, ← htext, h.span hi]
  by_cases hlen : (encodeUtf8Codepoint c).length = (encodeUtf8Codepoint cps[i]).length
  · -- the bytes behind the terminator stay too
    have hwrite : Patch.write buffer (encodeAll (cps.take i)).length (encodeUtf8Codepoint c) =
        encodeAll (cps.set i c) ++ buffer.dropWhile (· ≠ 0) := by
      have hwhole : so.text ++ buffer.dropWhile (· ≠ 0) = buffer := by
        rw [htext, takeWhile_append_dropWhile]
      conv_lhs => rw [← hwhole]
      rw [Patch.write_append_right (hlen ▸ hend), Patch.write, hlen, hspliced]
    rw [if_pos hlen]
    refine ⟨_, rfl, ?_, rfl⟩
    show (Patch.write buffer _ _).takeWhile _ = _
    rw [hwrite, takeWhile_text hnew (takeWhile_dropWhile buffer)]
  · have hfits : ¬ (0 < so.maxLength.toInt ∧
        so.maxLength.toInt < (encodeAll (cps.set i c)).length) := by
      rcases hroom with hsame | hle | hle
      · exact absurd (hsame _ (by simp [hi])) hlen
      · omega
      · omega
    rw [if_neg hlen, length_set hdecode hi c, if_neg hfits, if_neg (by simp)]
    refine ⟨_, rfl, ?_, rfl⟩
    show (List.append _ _).takeWhile _ = _
    rw [hspliced]
    apply takeWhile_text hnew
    rw [Nat.sub_add_comm (by split <;> omega), replicate_succ]
    rfl

theorem vmStoreUnicodeChar_full (allocated : Bool) (hdecode : decodeUtf8 so.text = some cps)
    (hi : i < cps.length) (hvalue : value.codepoint = .ok c) (hroom : ¬ so.HasRoom cps i c) :
    vmStoreUnicodeChar allocated i value so = (.error (.doesNotFit so.maxLength.toInt), so) := by
  have h := decodeUtf8_iff.mp hdecode
  obtain ⟨buffer, hbuffer, htext⟩ := StringBuffer.exists_buffer hdecode hi
  rw [StringBuffer.HasRoom, not_or, not_or] at hroom
  obtain ⟨hlen, hbounded, hlong⟩ := hroom
  have hlen' : ¬ (encodeUtf8Codepoint c).length = (encodeUtf8Codepoint cps[i]).length := by
    intro hsame
    apply hlen
    intro cp hcp
    rw [getElem?_eq_getElem hi] at hcp
    cases hcp
    exact hsame
  unfold vmStoreUnicodeChar
  rw [hvalue]
  simp only [hbuffer, ← htext, h.span hi]
  rw [if_neg hlen', length_set hdecode hi c, if_pos (by omega)]

theorem vmStoreUnicodeChar_error {allocated : Bool} {e : StoreError} {so' : StringBuffer}
    (h : vmStoreUnicodeChar allocated i value so = (.error e, so')) : so' = so := by
  unfold vmStoreUnicodeChar at h
  split at h
  · exact (Prod.mk.inj h).2.symm
  split at h
  · exact (Prod.mk.inj h).2.symm
  dsimp only at h
  split at h
  · exact (Prod.mk.inj h).2.symm
  split at h
  · cases h
  split at h
  · exact (Prod.mk.inj h).2.symm
  split at h
  · exact (Prod.mk.inj h).2.symm
  · cases h

theorem vmStoreUnicodeChar_range (allocated : Bool) (hdecode : decodeUtf8 so.text = some cps)
    (hi : cps.length ≤ i) : ∃ e, vmStoreUnicodeChar allocated i value so = (.error e, so) := by
  have hspan := (decodeUtf8_iff.mp hdecode).span_none hi
  unfold vmStoreUnicodeChar
  split
  · exact ⟨_, rfl⟩
  split
  · exact ⟨_, rfl⟩
  · next buffer hbuffer =>
    have htext : buffer.takeWhile (· ≠ 0) = so.text := by rw [StringBuffer.text, hbuffer]; rfl
    simp only [htext, hspan]
    exact ⟨_, rfl⟩

end

end Elements

end Pscal
