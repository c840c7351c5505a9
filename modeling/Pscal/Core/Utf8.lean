import Mathlib

/-!
# UTF-8

`encodeUtf8Codepoint`, `isValidUtf8Bytes`, `decodeUtf8Codepoint` and `utf8CodepointCount` of
`core/utils.c`: three branch trees over the forms of one to four bytes.

* `Utf8Form`  the forms of one to four bytes;
* `encode_form`, `form_encode`  the forms are what the encoder makes of the scalar values;
* `isValid_decode`  the validator goes on where the decoder does;
* `utf8_codec`  the three agree on all byte strings.
-/

namespace Pscal

open List Option

/-- the bytes before the terminator -/
def encodeUtf8Codepoint (codepoint : Nat) : List UInt8 :=
  let c := if 0x10FFFF < codepoint ∨ 0xD800 ≤ codepoint ∧ codepoint ≤ 0xDFFF then 0xFFFD
    else codepoint
  let tail (shift : Nat) : UInt8 := UInt8.ofNat (0x80 ||| ((c >>> shift) &&& 0x3F))
  if c ≤ 0x7F then [UInt8.ofNat c]
  else if c ≤ 0x7FF then [UInt8.ofNat (0xC0 ||| (c >>> 6)), tail 0]
  else if c ≤ 0xFFFF then [UInt8.ofNat (0xE0 ||| (c >>> 12)), tail 6, tail 0]
  else [UInt8.ofNat (0xF0 ||| (c >>> 18)), tail 12, tail 6, tail 0]

/-- `(c & 0xC0) == 0x80` -/
def isContinuation (c : UInt8) : Bool := c &&& 0xC0 == 0x80

def isValidUtf8Bytes : List UInt8 → Bool
  | [] => true
  | c :: text =>
    if c ≤ 0x7F then isValidUtf8Bytes text
    else if c ≥ 0xC2 ∧ c ≤ 0xDF then
      match text with
      | c1 :: text => isContinuation c1 && isValidUtf8Bytes text
      | _ => false
    else if c = 0xE0 then
      match text with
      | c1 :: c2 :: text => !(c1 < 0xA0 || c1 > 0xBF) && isContinuation c2 && isValidUtf8Bytes text
      | _ => false
    else if c ≥ 0xE1 ∧ c ≤ 0xEC then
      match text with
      | c1 :: c2 :: text => isContinuation c1 && isContinuation c2 && isValidUtf8Bytes text
      | _ => false
    else if c = 0xED then
      match text with
      | c1 :: c2 :: text => !(c1 < 0x80 || c1 > 0x9F) && isContinuation c2 && isValidUtf8Bytes text
      | _ => false
    else if c ≥ 0xEE ∧ c ≤ 0xEF then
      match text with
      | c1 :: c2 :: text => isContinuation c1 && isContinuation c2 && isValidUtf8Bytes text
      | _ => false
    else if c = 0xF0 then
      match text with
      | c1 :: c2 :: c3 :: text =>
        !(c1 < 0x90 || c1 > 0xBF) && isContinuation c2 && isContinuation c3 && isValidUtf8Bytes text
      | _ => false
    else if c ≥ 0xF1 ∧ c ≤ 0xF3 then
      match text with
      | c1 :: c2 :: c3 :: text =>
        isContinuation c1 && isContinuation c2 && isContinuation c3 && isValidUtf8Bytes text
      | _ => false
    else if c = 0xF4 then
      match text with
      | c1 :: c2 :: c3 :: text =>
        !(c1 < 0x80 || c1 > 0x8F) && isContinuation c2 && isContinuation c3 && isValidUtf8Bytes text
      | _ => false
    else false

def codepoint2 (c0 c1 : UInt8) : Nat := (c0 &&& 0x1F).toNat <<< 6 ||| (c1 &&& 0x3F).toNat

def codepoint3 (c0 c1 c2 : UInt8) : Nat :=
  (c0 &&& 0x0F).toNat <<< 12 ||| (c1 &&& 0x3F).toNat <<< 6 ||| (c2 &&& 0x3F).toNat

def codepoint4 (c0 c1 c2 c3 : UInt8) : Nat :=
  (c0 &&& 0x07).toNat <<< 18 ||| (c1 &&& 0x3F).toNat <<< 12 ||| (c2 &&& 0x3F).toNat <<< 6 |||
    (c3 &&& 0x3F).toNat

/-- the code point and how many bytes it takes -/
def decodeUtf8Codepoint : List UInt8 → Option (Nat × Nat)
  | [] => none
  | c0 :: text =>
    if c0 ≤ 0x7F then some (c0.toNat, 1)
    else if c0 ≥ 0xC2 ∧ c0 ≤ 0xDF then
      match text with
      | c1 :: _ => if isContinuation c1 then some (codepoint2 c0 c1, 2) else none
      | _ => none
    else if c0 = 0xE0 then
      match text with
      | c1 :: c2 :: _ =>
        if c1 < 0xA0 || c1 > 0xBF || !isContinuation c2 then none
        else some (codepoint3 c0 c1 c2, 3)
      | _ => none
    else if (c0 ≥ 0xE1 ∧ c0 ≤ 0xEC) ∨ (c0 ≥ 0xEE ∧ c0 ≤ 0xEF) then
      match text with
      | c1 :: c2 :: _ =>
        if !isContinuation c1 || !isContinuation c2 then none else some (codepoint3 c0 c1 c2, 3)
      | _ => none
    else if c0 = 0xED then
      match text with
      | c1 :: c2 :: _ =>
        if c1 < 0x80 || c1 > 0x9F || !isContinuation c2 then none
        else some (codepoint3 c0 c1 c2, 3)
      | _ => none
    else if c0 = 0xF0 then
      match text with
      | c1 :: c2 :: c3 :: _ =>
        if c1 < 0x90 || c1 > 0xBF || !isContinuation c2 || !isContinuation c3 then none
        else some (codepoint4 c0 c1 c2 c3, 4)
      | _ => none
    else if c0 ≥ 0xF1 ∧ c0 ≤ 0xF3 then
      match text with
      | c1 :: c2 :: c3 :: _ =>
        if !isContinuation c1 || !isContinuation c2 || !isContinuation c3 then none
        else some (codepoint4 c0 c1 c2 c3, 4)
      | _ => none
    else if c0 = 0xF4 then
      match text with
      | c1 :: c2 :: c3 :: _ =>
        if c1 < 0x80 || c1 > 0x8F || !isContinuation c2 || !isContinuation c3 then none
        else some (codepoint4 c0 c1 c2 c3, 4)
      | _ => none
    else none

/-- one code point after the other; `room` bounds their number -/
def decodeFrom : Nat → List UInt8 → Option (List Nat)
  | _, [] => some []
  | 0, _ :: _ => none
  | room + 1, text =>
    (decodeUtf8Codepoint text).bind fun (codepoint, advance) =>
      (decodeFrom room (text.drop advance)).map (codepoint :: ·)

/-- the loop of `utf8CodepointCount`, with the code points it goes past -/
def decodeUtf8 (text : List UInt8) : Option (List Nat) := decodeFrom text.length text

def utf8CodepointCount (text : List UInt8) : Nat :=
  match decodeUtf8 text with
  | some codepoints => codepoints.length
  | none => text.length

/-! ## the bits of a byte -/

theorem isContinuation_iff (c : UInt8) : isContinuation c ↔ 0x80 ≤ c.toNat ∧ c.toNat ≤ 0xBF := by
  have hall : ∀ n : Fin 256, (UInt8.ofNat n &&& 0xC0 == 0x80) = true ↔ 0x80 ≤ n.1 ∧ n.1 ≤ 0xBF := by
    decide +kernel
  have h := hall ⟨c.toNat, c.toNat_lt⟩
  rwa [UInt8.ofNat_toNat] at h

variable {k cp n room : Nat}

theorem toNat_and_mask (c : UInt8) {m : UInt8} (hm : m.toNat = 2 ^ k - 1) :
    (c &&& m).toNat = c.toNat % 2 ^ k := by
  rw [UInt8.toNat_and, hm, Nat.and_two_pow_sub_one_eq_mod]

theorem shiftLeft_or (a : Nat) {b : Nat} (hb : b < 2 ^ k) : a <<< k ||| b = a * 2 ^ k + b := by
  rw [← Nat.shiftLeft_add_eq_or_of_lt hb, Nat.shiftLeft_eq]

theorem codepoint2_eq (c0 c1 : UInt8) : codepoint2 c0 c1 = c0.toNat % 32 * 64 + c1.toNat % 64 := by
  unfold codepoint2
  rw [toNat_and_mask c0 (k := 5) rfl, toNat_and_mask c1 (k := 6) rfl,
    shiftLeft_or _ (Nat.mod_lt _ (by decide))]
  rfl

theorem codepoint3_eq (c0 c1 c2 : UInt8) :
    codepoint3 c0 c1 c2 = c0.toNat % 16 * 4096 + c1.toNat % 64 * 64 + c2.toNat % 64 := by
  unfold codepoint3
  rw [toNat_and_mask c0 (k := 4) rfl, toNat_and_mask c1 (k := 6) rfl, toNat_and_mask c2 (k := 6) rfl,
    Nat.or_assoc, shiftLeft_or (c1.toNat % 2 ^ 6) (Nat.mod_lt _ (by decide)),
    shiftLeft_or _ (by omega)]
  omega

theorem codepoint4_eq (c0 c1 c2 c3 : UInt8) : codepoint4 c0 c1 c2 c3 =
      c0.toNat % 8 * 262144 + c1.toNat % 64 * 4096 + c2.toNat % 64 * 64 + c3.toNat % 64 := by
  unfold codepoint4
  rw [toNat_and_mask c0 (k := 3) rfl, toNat_and_mask c1 (k := 6) rfl, toNat_and_mask c2 (k := 6) rfl,
    toNat_and_mask c3 (k := 6) rfl, Nat.or_assoc, Nat.or_assoc,
    shiftLeft_or (c2.toNat % 2 ^ 6) (Nat.mod_lt _ (by decide)),
    shiftLeft_or (c1.toNat % 2 ^ 6) (by omega), shiftLeft_or _ (by omega)]
  omega

/-! ## the encoder -/

theorem ofNat_or {m x : Nat} (hx : x < 2 ^ k) (hm : m % 2 ^ k = 0) :
    UInt8.ofNat (m ||| x) = UInt8.ofNat (m + x) := by
  obtain ⟨a, rfl⟩ := Nat.dvd_of_mod_eq_zero hm
  rw [Nat.two_pow_add_eq_or_of_lt hx]

theorem ofNat_continuation (x : Nat) :
    UInt8.ofNat (0x80 ||| x &&& 0x3F) = UInt8.ofNat (0x80 + x % 64) := by
  rw [show (0x3F : Nat) = 2 ^ 6 - 1 from rfl, Nat.and_two_pow_sub_one_eq_mod,
    ofNat_or (Nat.mod_lt _ (by decide)) (by decide)]
  rfl

theorem encode_scalar (h : cp.isValidChar) :
    (if 0x10FFFF < cp ∨ 0xD800 ≤ cp ∧ cp ≤ 0xDFFF then 0xFFFD else cp) = cp := by
  unfold Nat.isValidChar at h
  exact if_neg (by omega)

theorem encode_one (h : cp ≤ 0x7F) : encodeUtf8Codepoint cp = [UInt8.ofNat cp] := by
  have hs : (if 0x10FFFF < cp ∨ 0xD800 ≤ cp ∧ cp ≤ 0xDFFF then 0xFFFD else cp) = cp :=
    encode_scalar (.inl (by omega))
  simp only [encodeUtf8Codepoint, hs, if_pos h]

theorem encode_two (h : 0x7F < cp) (h' : cp ≤ 0x7FF) :
    encodeUtf8Codepoint cp = [UInt8.ofNat (0xC0 + cp / 64), UInt8.ofNat (0x80 + cp % 64)] := by
  have hs : (if 0x10FFFF < cp ∨ 0xD800 ≤ cp ∧ cp ≤ 0xDFFF then 0xFFFD else cp) = cp :=
    encode_scalar (.inl (by omega))
  simp only [encodeUtf8Codepoint, hs, if_neg (Nat.not_le.mpr h), if_pos h', ofNat_continuation,
    Nat.shiftRight_eq_div_pow, Nat.pow_zero, Nat.div_one]
  rw [ofNat_or (k := 6) (by omega) (by decide)]

theorem encode_three (hv : cp.isValidChar) (h : 0x7FF < cp) (h' : cp ≤ 0xFFFF) :
    encodeUtf8Codepoint cp = [UInt8.ofNat (0xE0 + cp / 4096), UInt8.ofNat (0x80 + cp / 64 % 64),
      UInt8.ofNat (0x80 + cp % 64)] := by
  simp only [encodeUtf8Codepoint, encode_scalar hv, if_neg (show ¬ cp ≤ 0x7F by omega),
    if_neg (Nat.not_le.mpr h), if_pos h', ofNat_continuation,
    Nat.shiftRight_eq_div_pow, Nat.pow_zero, Nat.div_one]
  rw [ofNat_or (k := 4) (by omega) (by decide)]

theorem encode_four (hv : cp.isValidChar) (h : 0xFFFF < cp) :
    encodeUtf8Codepoint cp = [UInt8.ofNat (0xF0 + cp / 262144), UInt8.ofNat (0x80 + cp / 4096 % 64),
      UInt8.ofNat (0x80 + cp / 64 % 64), UInt8.ofNat (0x80 + cp % 64)] := by
  have hmax : cp < 0x110000 := by
    unfold Nat.isValidChar at hv
    omega
  simp only [encodeUtf8Codepoint, encode_scalar hv, if_neg (show ¬ cp ≤ 0x7F by omega),
    if_neg (show ¬ cp ≤ 0x7FF by omega), if_neg (Nat.not_le.mpr h), ofNat_continuation,
    Nat.shiftRight_eq_div_pow, Nat.pow_zero, Nat.div_one]
  rw [ofNat_or (k := 3) (by omega) (by decide)]

/-! ## the forms of one to four bytes -/

/-- The forms with what they stand for: no overlong form, no surrogate, nothing past `UNICODE_MAX`. -/
inductive Utf8Form : List UInt8 → Nat → Prop where
  | one {c0 : UInt8} (h0 : c0.toNat ≤ 0x7F) : Utf8Form [c0] c0.toNat
  | two {c0 c1 : UInt8} (h0 : 0xC2 ≤ c0.toNat ∧ c0.toNat ≤ 0xDF) (h1 : isContinuation c1) :
      Utf8Form [c0, c1] (codepoint2 c0 c1)
  | three {c0 c1 c2 : UInt8} (h0 : 0xE0 ≤ c0.toNat ∧ c0.toNat ≤ 0xEF) (h1 : isContinuation c1)
      (h2 : isContinuation c2) (hlong : c0.toNat = 0xE0 → 0xA0 ≤ c1.toNat)
      (hsurrogate : c0.toNat = 0xED → c1.toNat ≤ 0x9F) : Utf8Form [c0, c1, c2] (codepoint3 c0 c1 c2)
  | four {c0 c1 c2 c3 : UInt8} (h0 : 0xF0 ≤ c0.toNat ∧ c0.toNat ≤ 0xF4) (h1 : isContinuation c1)
      (h2 : isContinuation c2) (h3 : isContinuation c3) (hlong : c0.toNat = 0xF0 → 0x90 ≤ c1.toNat)
      (hmax : c0.toNat = 0xF4 → c1.toNat ≤ 0x8F) :
      Utf8Form [c0, c1, c2, c3] (codepoint4 c0 c1 c2 c3)

theorem form_decode {head rest : List UInt8} (h : Utf8Form head cp) :
    decodeUtf8Codepoint (head ++ rest) = some (cp, head.length) := by
  cases h with
  | one h0 =>
    simp only [cons_append, decodeUtf8Codepoint, UInt8.le_iff_toNat_le, UInt8.reduceToNat]
    rw [if_pos h0]
    rfl
  | two h0 h1 =>
    simp only [cons_append, decodeUtf8Codepoint, UInt8.le_iff_toNat_le, ge_iff_le,
      UInt8.reduceToNat, h1]
    rw [if_neg (by omega), if_pos h0]
    rfl
  | @three c0 c1 c2 h0 h1 h2 hlong hsurrogate =>
    have hc1 := (isContinuation_iff c1).mp h1
    simp only [cons_append, decodeUtf8Codepoint, UInt8.le_iff_toNat_le,
      UInt8.lt_iff_toNat_lt, ge_iff_le, gt_iff_lt, UInt8.reduceToNat, ← UInt8.toNat_inj, h1, h2,
      Bool.or_eq_true, decide_eq_true_eq, Bool.not_true, Bool.false_eq_true, or_false]
    rw [if_neg (by omega), if_neg (by omega)]
    by_cases he0 : c0.toNat = 0xE0
    · rw [if_pos he0, if_neg (by omega)]
      rfl
    · rw [if_neg he0]
      by_cases hed : c0.toNat = 0xED
      · rw [if_neg (by omega), if_pos hed, if_neg (by omega)]
        rfl
      · rw [if_pos (by omega), if_neg not_false]
        rfl
  | @four c0 c1 c2 c3 h0 h1 h2 h3 hlong hmax =>
    have hc1 := (isContinuation_iff c1).mp h1
    simp only [cons_append, decodeUtf8Codepoint, UInt8.le_iff_toNat_le,
      UInt8.lt_iff_toNat_lt, ge_iff_le, gt_iff_lt, UInt8.reduceToNat, ← UInt8.toNat_inj, h1, h2, h3,
      Bool.or_eq_true, decide_eq_true_eq, Bool.not_true, Bool.false_eq_true, or_false]
    rw [if_neg (by omega), if_neg (by omega), if_neg (by omega), if_neg (by omega),
      if_neg (by omega)]
    by_cases hf0 : c0.toNat = 0xF0
    · rw [if_pos hf0, if_neg (by omega)]
      rfl
    · rw [if_neg hf0]
      by_cases hf4 : c0.toNat = 0xF4
      · rw [if_neg (by omega), if_pos hf4, if_neg (by omega)]
        rfl
      · rw [if_pos (by omega), if_neg not_false]
        rfl

/-- the text begins with a form of `n` bytes that stands for `cp` -/
def BeginsWith (text : List UInt8) (cp n : Nat) : Prop :=
  ∃ head rest, text = head ++ rest ∧ Utf8Form head cp ∧ head.length = n

theorem BeginsWith.three {c0 c1 c2 : UInt8} {rest : List UInt8} {cp n : Nat}
    (h0 : 0xE0 ≤ c0.toNat ∧ c0.toNat ≤ 0xEF) (h1 : 0x80 ≤ c1.toNat ∧ c1.toNat ≤ 0xBF)
    (h2 : isContinuation c2) (hlong : c0.toNat = 0xE0 → 0xA0 ≤ c1.toNat)
    (hsurrogate : c0.toNat = 0xED → c1.toNat ≤ 0x9F)
    (h : some (codepoint3 c0 c1 c2, 3) = some (cp, n)) :
    BeginsWith (c0 :: c1 :: c2 :: rest) cp n := by
  obtain ⟨rfl, rfl⟩ := Prod.mk.inj (some_inj.mp h)
  exact ⟨[c0, c1, c2], rest, rfl,
    .three h0 ((isContinuation_iff c1).mpr h1) h2 hlong hsurrogate, rfl⟩

theorem BeginsWith.four {c0 c1 c2 c3 : UInt8} {rest : List UInt8} {cp n : Nat}
    (h0 : 0xF0 ≤ c0.toNat ∧ c0.toNat ≤ 0xF4) (h1 : 0x80 ≤ c1.toNat ∧ c1.toNat ≤ 0xBF)
    (h2 : isContinuation c2) (h3 : isContinuation c3)
    (hlong : c0.toNat = 0xF0 → 0x90 ≤ c1.toNat) (hmax : c0.toNat = 0xF4 → c1.toNat ≤ 0x8F)
    (h : some (codepoint4 c0 c1 c2 c3, 4) = some (cp, n)) :
    BeginsWith (c0 :: c1 :: c2 :: c3 :: rest) cp n := by
  obtain ⟨rfl, rfl⟩ := Prod.mk.inj (some_inj.mp h)
  exact ⟨[c0, c1, c2, c3], rest, rfl,
    .four h0 ((isContinuation_iff c1).mpr h1) h2 h3 hlong hmax, rfl⟩

variable {text : List UInt8}

theorem decode_some (h : decodeUtf8Codepoint text = some (cp, n)) : BeginsWith text cp n := by
  cases text with
  | nil => cases h
  | cons c0 text =>
    simp only [decodeUtf8Codepoint, UInt8.le_iff_toNat_le, UInt8.lt_iff_toNat_lt, ge_iff_le,
      gt_iff_lt, UInt8.reduceToNat, ← UInt8.toNat_inj, Bool.or_eq_true, decide_eq_true_eq,
      Bool.not_eq_true'] at h
    rw [ite_eq_iff] at h
    rcases h with ⟨h0, h⟩ | ⟨h1', h⟩
    · obtain ⟨rfl, rfl⟩ := Prod.mk.inj (some_inj.mp h)
      exact ⟨[c0], text, rfl, .one h0, rfl⟩
    rw [ite_eq_iff] at h
    rcases h with ⟨h0, h⟩ | ⟨h2', h⟩
    · split at h
      case h_1 c1 rest =>
        obtain ⟨h1, h⟩ := ite_none_right_eq_some.mp h
        obtain ⟨rfl, rfl⟩ := Prod.mk.inj (some_inj.mp h)
        exact ⟨[c0, c1], rest, rfl, .two h0 h1, rfl⟩
      case h_2 => cases h
    rw [ite_eq_iff] at h
    rcases h with ⟨h0, h⟩ | ⟨h3', h⟩
    · split at h
      case h_1 c1 c2 rest =>
        obtain ⟨h1, h⟩ := ite_none_left_eq_some.mp h
        simp only [not_or, Bool.not_eq_false] at h1
        exact .three (by omega) (by omega) h1.2 (by omega) (by omega) h
      case h_2 => cases h
    rw [ite_eq_iff] at h
    rcases h with ⟨h0, h⟩ | ⟨h4', h⟩
    · split at h
      case h_1 c1 c2 rest =>
        obtain ⟨h1, h⟩ := ite_none_left_eq_some.mp h
        simp only [not_or, Bool.not_eq_false] at h1
        exact .three (by omega) ((isContinuation_iff c1).mp h1.1) h1.2 (by omega) (by omega) h
      case h_2 => cases h
    rw [ite_eq_iff] at h
    rcases h with ⟨h0, h⟩ | ⟨h5', h⟩
    · split at h
      case h_1 c1 c2 rest =>
        obtain ⟨h1, h⟩ := ite_none_left_eq_some.mp h
        simp only [not_or, Bool.not_eq_false] at h1
        exact .three (by omega) (by omega) h1.2 (by omega) (by omega) h
      case h_2 => cases h
    rw [ite_eq_iff] at h
    rcases h with ⟨h0, h⟩ | ⟨h6', h⟩
    · split at h
      case h_1 c1 c2 c3 rest =>
        obtain ⟨h1, h⟩ := ite_none_left_eq_some.mp h
        simp only [not_or, Bool.not_eq_false] at h1
        exact .four (by omega) (by omega) h1.1.2 h1.2 (by omega) (by omega) h
      case h_2 => cases h
    rw [ite_eq_iff] at h
    rcases h with ⟨h0, h⟩ | ⟨h7', h⟩
    · split at h
      case h_1 c1 c2 c3 rest =>
        obtain ⟨h1, h⟩ := ite_none_left_eq_some.mp h
        simp only [not_or, Bool.not_eq_false] at h1
        exact .four (by omega) ((isContinuation_iff c1).mp h1.1.1) h1.1.2 h1.2 (by omega)
          (by omega) h
      case h_2 => cases h
    rw [ite_eq_iff] at h
    rcases h with ⟨h0, h⟩ | ⟨h8', h⟩
    · split at h
      case h_1 c1 c2 c3 rest =>
        obtain ⟨h1, h⟩ := ite_none_left_eq_some.mp h
        simp only [not_or, Bool.not_eq_false] at h1
        exact .four (by omega) (by omega) h1.1.2 h1.2 (by omega) (by omega) h
      case h_2 => cases h
    cases h

/-! ## the validator -/

theorem any_unless {b : Bool} {x : Nat × Nat} {f : Nat × Nat → Bool} :
    (if b then none else some x).any f = (!b && f x) := by
  cases b <;> rfl

theorem any_when {b : Bool} {x : Nat × Nat} {f : Nat × Nat → Bool} :
    (if b then some x else none).any f = (b && f x) := by
  cases b <;> rfl

theorem isValid_decode (c0 : UInt8) (text : List UInt8) :
    isValidUtf8Bytes (c0 :: text) = (decodeUtf8Codepoint (c0 :: text)).any fun p =>
      isValidUtf8Bytes ((c0 :: text).drop p.2) := by
  conv_lhs => unfold isValidUtf8Bytes
  unfold decodeUtf8Codepoint
  dsimp only
  by_cases h7f : c0 ≤ 0x7F
  · rw [if_pos h7f, if_pos h7f]
    rfl
  rw [if_neg h7f, if_neg h7f]
  by_cases hc2 : c0 ≥ 0xC2 ∧ c0 ≤ 0xDF
  · rw [if_pos hc2, if_pos hc2]
    rcases text with _ | ⟨c1, text⟩
    · rfl
    · simp only [any_when]
      rfl
  rw [if_neg hc2, if_neg hc2]
  by_cases he0 : c0 = 0xE0
  · rw [if_pos he0, if_pos he0]
    rcases text with _ | ⟨c1, _ | ⟨c2, text⟩⟩
    · rfl
    · rfl
    · simp only [any_unless, Bool.not_or, Bool.not_not]
      rfl
  rw [if_neg he0, if_neg he0]
  by_cases he1 : c0 ≥ 0xE1 ∧ c0 ≤ 0xEC
  · rw [if_pos he1, if_pos (.inl he1)]
    rcases text with _ | ⟨c1, _ | ⟨c2, text⟩⟩
    · rfl
    · rfl
    · simp only [any_unless, Bool.not_or, Bool.not_not]
      rfl
  rw [if_neg he1]
  by_cases hed : c0 = 0xED
  · subst hed
    rw [if_pos rfl, if_neg (by decide), if_pos rfl]
    rcases text with _ | ⟨c1, _ | ⟨c2, text⟩⟩
    · rfl
    · rfl
    · simp only [any_unless, Bool.not_or, Bool.not_not]
      rfl
  rw [if_neg hed]
  by_cases hee : c0 ≥ 0xEE ∧ c0 ≤ 0xEF
  · rw [if_pos hee, if_pos (.inr hee)]
    rcases text with _ | ⟨c1, _ | ⟨c2, text⟩⟩
    · rfl
    · rfl
    · simp only [any_unless, Bool.not_or, Bool.not_not]
      rfl
  rw [if_neg hee, if_neg (not_or.mpr ⟨he1, hee⟩), if_neg hed]
  by_cases hf0 : c0 = 0xF0
  · rw [if_pos hf0, if_pos hf0]
    rcases text with _ | ⟨c1, _ | ⟨c2, _ | ⟨c3, text⟩⟩⟩
    · rfl
    · rfl
    · rfl
    · simp only [any_unless, Bool.not_or, Bool.not_not]
      rfl
  rw [if_neg hf0, if_neg hf0]
  by_cases hf1 : c0 ≥ 0xF1 ∧ c0 ≤ 0xF3
  · rw [if_pos hf1, if_pos hf1]
    rcases text with _ | ⟨c1, _ | ⟨c2, _ | ⟨c3, text⟩⟩⟩
    · rfl
    · rfl
    · rfl
    · simp only [any_unless, Bool.not_or, Bool.not_not]
      rfl
  rw [if_neg hf1, if_neg hf1]
  by_cases hf4 : c0 = 0xF4
  · rw [if_pos hf4, if_pos hf4]
    rcases text with _ | ⟨c1, _ | ⟨c2, _ | ⟨c3, text⟩⟩⟩
    · rfl
    · rfl
    · rfl
    · simp only [any_unless, Bool.not_or, Bool.not_not]
      rfl
  rw [if_neg hf4, if_neg hf4]
  rfl

/-! ## the encoder's bytes are the forms -/

theorem ofNat_eq {c : UInt8} (h : n = c.toNat) : UInt8.ofNat n = c := by
  rw [h, UInt8.ofNat_toNat]

theorem encode_form {head : List UInt8} (h : Utf8Form head cp) :
    cp.isValidChar ∧ encodeUtf8Codepoint cp = head := by
  cases h with
  | @one c0 h0 =>
    exact ⟨.inl (by omega), by rw [encode_one h0, UInt8.ofNat_toNat]⟩
  | @two c0 c1 h0 h1 =>
    rw [isContinuation_iff] at h1
    rw [codepoint2_eq]
    refine ⟨.inl (by omega), ?_⟩
    rw [encode_two (by omega) (by omega), ofNat_eq (c := c0) (by omega),
      ofNat_eq (c := c1) (by omega)]
  | @three c0 c1 c2 h0 h1 h2 hlong hsurrogate =>
    rw [isContinuation_iff] at h1 h2
    rw [codepoint3_eq]
    have hvalid : (c0.toNat % 16 * 4096 + c1.toNat % 64 * 64 + c2.toNat % 64).isValidChar := by
      unfold Nat.isValidChar
      omega
    refine ⟨hvalid, ?_⟩
    rw [encode_three hvalid (by omega) (by omega), ofNat_eq (c := c0) (by omega),
      ofNat_eq (c := c1) (by omega), ofNat_eq (c := c2) (by omega)]
  | @four c0 c1 c2 c3 h0 h1 h2 h3 hlong hmax =>
    rw [isContinuation_iff] at h1 h2 h3
    rw [codepoint4_eq]
    have hvalid : (c0.toNat % 8 * 262144 + c1.toNat % 64 * 4096 + c2.toNat % 64 * 64 +
        c3.toNat % 64).isValidChar := by
      unfold Nat.isValidChar
      omega
    refine ⟨hvalid, ?_⟩
    rw [encode_four hvalid (by omega), ofNat_eq (c := c0) (by omega),
      ofNat_eq (c := c1) (by omega), ofNat_eq (c := c2) (by omega), ofNat_eq (c := c3) (by omega)]

theorem toNat_byte (h : n < 256) : (UInt8.ofNat n).toNat = n := by
  rw [UInt8.toNat_ofNat', Nat.mod_eq_of_lt h]

theorem isContinuation_ofNat (h : n < 64) : isContinuation (UInt8.ofNat (0x80 + n)) := by
  rw [isContinuation_iff, toNat_byte (by omega)]
  omega

theorem form_encode (h : cp.isValidChar) : Utf8Form (encodeUtf8Codepoint cp) cp := by
  by_cases h1 : cp ≤ 0x7F
  · rw [encode_one h1]
    have hform : Utf8Form [UInt8.ofNat cp] (UInt8.ofNat cp).toNat :=
      .one (by rw [toNat_byte (by omega)]; exact h1)
    rwa [toNat_byte (by omega)] at hform
  by_cases h2 : cp ≤ 0x7FF
  · rw [encode_two (by omega) h2]
    have h0 : (UInt8.ofNat (0xC0 + cp / 64)).toNat = 0xC0 + cp / 64 := toNat_byte (by omega)
    have hform := Utf8Form.two (by rw [h0]; omega) (isContinuation_ofNat (n := cp % 64) (by omega))
    rw [codepoint2_eq, h0, toNat_byte (by omega)] at hform
    convert hform using 1
    omega
  by_cases h3 : cp ≤ 0xFFFF
  · rw [encode_three h (by omega) h3]
    unfold Nat.isValidChar at h
    have h0 : (UInt8.ofNat (0xE0 + cp / 4096)).toNat = 0xE0 + cp / 4096 := toNat_byte (by omega)
    have h1' : (UInt8.ofNat (0x80 + cp / 64 % 64)).toNat = 0x80 + cp / 64 % 64 :=
      toNat_byte (by omega)
    have hform := Utf8Form.three (by rw [h0]; omega)
      (isContinuation_ofNat (n := cp / 64 % 64) (by omega))
      (isContinuation_ofNat (n := cp % 64) (by omega)) (by rw [h0, h1']; omega)
      (by rw [h0, h1']; omega)
    rw [codepoint3_eq, h0, h1', toNat_byte (by omega)] at hform
    convert hform using 1
    omega
  · rw [encode_four h (by omega)]
    unfold Nat.isValidChar at h
    have h0 : (UInt8.ofNat (0xF0 + cp / 262144)).toNat = 0xF0 + cp / 262144 := toNat_byte (by omega)
    have h1' : (UInt8.ofNat (0x80 + cp / 4096 % 64)).toNat = 0x80 + cp / 4096 % 64 :=
      toNat_byte (by omega)
    have hform := Utf8Form.four (by rw [h0]; omega)
      (isContinuation_ofNat (n := cp / 4096 % 64) (by omega))
      (isContinuation_ofNat (n := cp / 64 % 64) (by omega))
      (isContinuation_ofNat (n := cp % 64) (by omega)) (by rw [h0, h1']; omega)
      (by rw [h0, h1']; omega)
    rw [codepoint4_eq, h0, h1', toNat_byte (by omega), toNat_byte (by omega)] at hform
    convert hform using 1
    omega

/-! ## whole texts -/

theorem decode_encode (h : cp.isValidChar) (rest : List UInt8) :
    decodeUtf8Codepoint (encodeUtf8Codepoint cp ++ rest) =
      some (cp, (encodeUtf8Codepoint cp).length) :=
  form_decode (form_encode h)

theorem decode_isScalar (h : decodeUtf8Codepoint text = some (cp, n)) :
    cp.isValidChar ∧ n = (encodeUtf8Codepoint cp).length ∧
      text = encodeUtf8Codepoint cp ++ text.drop n := by
  obtain ⟨head, rest, rfl, hform, rfl⟩ := decode_some h
  obtain ⟨hvalid, hencode⟩ := encode_form hform
  rw [hencode, drop_left]
  exact ⟨hvalid, rfl, rfl⟩

theorem encode_ne_nil (h : cp.isValidChar) : encodeUtf8Codepoint cp ≠ [] := by
  intro hnil
  have hdecode := decode_encode h []
  rw [hnil] at hdecode
  cases hdecode

def Encodes (text : List UInt8) (cps : List Nat) : Prop :=
  (∀ cp ∈ cps, cp.isValidChar) ∧ cps.flatMap encodeUtf8Codepoint = text

theorem Encodes.cons {cp : Nat} {cps : List Nat} {text : List UInt8} (hcp : cp.isValidChar)
    (h : Encodes text cps) : Encodes (encodeUtf8Codepoint cp ++ text) (cp :: cps) := by
  refine ⟨forall_mem_cons.mpr ⟨hcp, h.1⟩, ?_⟩
  rw [flatMap_cons, h.2]

theorem encodes_nil {cps : List Nat} : Encodes [] cps ↔ cps = [] := by
  constructor
  · rintro ⟨hvalid, htext⟩
    cases cps with
    | nil => rfl
    | cons cp cps =>
      obtain ⟨hcp, -⟩ := append_eq_nil_iff.mp htext
      exact absurd hcp (encode_ne_nil (hvalid cp mem_cons_self))
  · rintro rfl
    exact ⟨fun cp h => absurd h not_mem_nil, rfl⟩

theorem length_drop_le {c : UInt8} (h : decodeUtf8Codepoint (c :: text) = some (cp, n))
    (hroom : (c :: text).length ≤ room + 1) : ((c :: text).drop n).length ≤ room := by
  obtain ⟨hvalid, hn, -⟩ := decode_isScalar h
  have hpos : 0 < n := hn ▸ length_pos_iff.mpr (encode_ne_nil hvalid)
  rw [length_drop]
  omega

theorem decodeFrom_iff (hroom : text.length ≤ room) {cps : List Nat} :
    decodeFrom room text = some cps ↔ Encodes text cps := by
  induction room generalizing text cps with
  | zero =>
    obtain rfl := length_eq_zero_iff.mp (Nat.le_zero.mp hroom)
    rw [encodes_nil, decodeFrom, some_inj, eq_comm]
  | succ room ih =>
    cases text with
    | nil => rw [encodes_nil, decodeFrom, some_inj, eq_comm]
    | cons c text =>
      constructor
      · intro h
        obtain ⟨⟨cp, n⟩, hdecode, h⟩ := bind_eq_some_iff.mp h
        obtain ⟨cps, hrest, rfl⟩ := map_eq_some_iff.mp h
        obtain ⟨hvalid, -, htext⟩ := decode_isScalar hdecode
        rw [htext]
        exact ((ih (length_drop_le hdecode hroom)).mp hrest).cons hvalid
      · intro h
        cases cps with
        | nil => cases h.2
        | cons cp cps =>
          obtain ⟨hvalid, htext⟩ := h
          obtain ⟨hcp, hcps⟩ := forall_mem_cons.mp hvalid
          rw [flatMap_cons] at htext
          have hdecode := decode_encode hcp (cps.flatMap encodeUtf8Codepoint)
          rw [htext] at hdecode
          have hdrop : (c :: text).drop (encodeUtf8Codepoint cp).length =
              cps.flatMap encodeUtf8Codepoint := by
            rw [← htext, drop_left]
          have hrest := (ih (length_drop_le hdecode hroom)).mpr ⟨hcps, hdrop.symm⟩
          rw [decodeFrom, hdecode, bind_some]
          · show (decodeFrom room _).map (cp :: ·) = some (cp :: cps)
            rw [hrest, map_some]
          · exact nofun

theorem isValid_decodeFrom (hroom : text.length ≤ room) :
    isValidUtf8Bytes text = (decodeFrom room text).isSome := by
  induction room generalizing text with
  | zero =>
    obtain rfl := length_eq_zero_iff.mp (Nat.le_zero.mp hroom)
    rfl
  | succ room ih =>
    cases text with
    | nil => rfl
    | cons c text =>
      rw [isValid_decode, decodeFrom]
      cases hdecode : decodeUtf8Codepoint (c :: text) with
      | none => rfl
      | some p =>
        obtain ⟨cp, n⟩ := p
        rw [any_some, bind_some, isSome_map]
        exact ih (length_drop_le hdecode hroom)
      exact nofun

/-- The encoder, the validator and the decoder agree. -/
theorem utf8_codec :
    (∀ cp : Nat, cp.isValidChar → ∀ rest, decodeUtf8Codepoint (encodeUtf8Codepoint cp ++ rest) =
      some (cp, (encodeUtf8Codepoint cp).length)) ∧
    ∀ text : List UInt8,
      (isValidUtf8Bytes text ↔ ∃ cps : List Nat, (∀ cp ∈ cps, cp.isValidChar) ∧
        cps.flatMap encodeUtf8Codepoint = text) ∧
      (isValidUtf8Bytes text ↔ (decodeUtf8 text).isSome) ∧
      ∀ cps, decodeUtf8 text = some cps → cps.flatMap encodeUtf8Codepoint = text := by
  refine ⟨fun cp h rest => decode_encode h rest, fun text => ⟨?_, ?_, ?_⟩⟩
  · rw [isValid_decodeFrom (Nat.le_refl _), isSome_iff_exists]
    exact exists_congr fun cps => decodeFrom_iff (Nat.le_refl _)
  · rw [isValid_decodeFrom (Nat.le_refl _)]
    rfl
  · intro cps h
    exact ((decodeFrom_iff (Nat.le_refl _)).mp h).2

theorem utf8_codec_euro : encodeUtf8Codepoint 0x20AC = [0xE2, 0x82, 0xAC] ∧
      decodeUtf8Codepoint ([0xE2, 0x82, 0xAC] ++ [0x31]) = some (0x20AC, 3) :=
  ⟨by decide, utf8_codec.1 0x20AC (by decide) [0x31]⟩

example : isValidUtf8Bytes [0xC0, 0x80] = false ∧ isValidUtf8Bytes [0xED, 0xA0, 0x80] = false ∧
    isValidUtf8Bytes [0xF4, 0x90, 0x80, 0x80] = false := by decide

end Pscal
