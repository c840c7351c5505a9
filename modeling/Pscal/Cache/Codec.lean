import Pscal.Lib.Wire

/-!
# The byte stream of the cache

`core/cache.c`: the `buf` and `cur` functions, and the tokens and syntax trees of a stored type.

* `bufU8` … `bufLenPrefixedBytes`, `curU8` … `curLenPrefixedString`  numbers and bytes;
* `CacheToken`, `TypeAst`  a token, and a tree with the data that is stored of it;
* `writeAst`, `readAst`  their codec;
* `SameAst`, `readsBack_ast`  a tree within the nesting limit is read back.
-/

namespace Pscal

open Wire Wire.Reader List

/-! ## numbers and bytes -/

def bufU8 (v : UInt8) : Bytes := le 1 v.toNat

def bufU16LE (v : UInt16) : Bytes := le 2 v.toNat

def bufU32LE (v : UInt32) : Bytes := le 4 v.toNat

def bufU64LE (v : UInt64) : Bytes := le 8 v.toNat

def bufI32LE (v : Int32) : Bytes := bufU32LE v.toUInt32

def bufVarint (v : UInt64) : Bytes := varint 10 v.toNat

def bufLenPrefixedBytes (p : Bytes) : Bytes := bufVarint (UInt64.ofNat p.length) ++ p

section
variable {σ : Type}

def curU8 : Reader σ UInt8 := do
  let n ← number 1
  return UInt8.ofNat n

def curU16LE : Reader σ UInt16 := do
  let n ← number 2
  return UInt16.ofNat n

def curU32LE : Reader σ UInt32 := do
  let n ← number 4
  return UInt32.ofNat n

def curU64LE : Reader σ UInt64 := do
  let n ← number 8
  return UInt64.ofNat n

def curI32LE : Reader σ Int32 := do
  let n ← curU32LE
  return n.toInt32

def curVarint : Reader σ UInt64 := do
  let n ← groups 10 0 0
  return UInt64.ofNat n

/-- The bytes after a length (`none`: they are not all there).  The source first compares the
length with the size of the whole section, which is no less than what is left. -/
def curLenPrefixedString : Reader σ (Option Bytes) := do
  let len ← curVarint
  if ← hasError then
    return none
  bytes len.toNat

theorem reads_curU8 (v : UInt8) (s : σ) : Reads curU8 (bufU8 v) s v s := by
  have h := (reads_number_of_lt (n := 1) v.toNat_lt s).map UInt8.ofNat
  rwa [UInt8.ofNat_toNat] at h

theorem reads_curU16LE (v : UInt16) (s : σ) : Reads curU16LE (bufU16LE v) s v s := by
  have h := (reads_number_of_lt (n := 2) v.toNat_lt s).map UInt16.ofNat
  rwa [UInt16.ofNat_toNat] at h

theorem reads_curU32LE (v : UInt32) (s : σ) : Reads curU32LE (bufU32LE v) s v s := by
  have h := (reads_number_of_lt (n := 4) v.toNat_lt s).map UInt32.ofNat
  rwa [UInt32.ofNat_toNat] at h

theorem reads_curU64LE (v : UInt64) (s : σ) : Reads curU64LE (bufU64LE v) s v s := by
  have h := (reads_number_of_lt (n := 8) v.toNat_lt s).map UInt64.ofNat
  rwa [UInt64.ofNat_toNat] at h

theorem reads_curI32LE (v : Int32) (s : σ) : Reads curI32LE (bufI32LE v) s v s := by
  have h := (reads_curU32LE v.toUInt32 s).map UInt32.toInt32
  rwa [Int32.toInt32_toUInt32] at h

theorem reads_curVarint (v : UInt64) (s : σ) : Reads curVarint (bufVarint v) s v s := by
  have hlt := v.toNat_lt
  have h := (reads_groups (n := 9) (by omega : v.toNat < 128 ^ 10) 0 0 (by omega) s).map
    UInt64.ofNat
  rwa [Nat.zero_add, Nat.pow_zero, Nat.mul_one, UInt64.ofNat_toNat] at h

theorem reads_curLenPrefixedString {p : Bytes} (hp : p.length < 2 ^ 64) (s : σ) :
    Reads curLenPrefixedString (bufLenPrefixedBytes p) s (some p) s := by
  have hlen : (UInt64.ofNat p.length).toNat = p.length :=
    UInt64.toNat_ofNat_of_lt' hp
  refine Reads.bind (reads_curVarint _ s) (Reads.then (reads_hasError s) ?_)
  rw [if_neg Bool.false_ne_true, hlen]
  exact reads_bytes p s

end

/-! ## tokens and trees -/

/-- what is stored of a `Token`; the bytes of the value are `length` many -/
structure CacheToken where
  type : UInt32
  value : Option Bytes
deriving DecidableEq, Repr

/-- what is stored of an `AST`, and of the nodes it points to (`null`: no node) -/
inductive TypeAst where
  | null
  | node (type varType : UInt32) (byRef isInline isVirtual isGlobalScope : Bool)
      (token : Option CacheToken) (iVal : Int32) (left right extra : TypeAst)
      (children : List TypeAst)
deriving Repr

def writeToken : Option CacheToken → Bytes
  | none => bufU8 0
  | some tok => bufU8 1 ++ bufU32LE tok.type ++ bufLenPrefixedBytes (tok.value.getD [])

def astFlags (byRef isInline isVirtual isGlobalScope : Bool) : UInt8 :=
  (if byRef then 0x01 else 0) ||| (if isInline then 0x02 else 0) |||
    (if isVirtual then 0x04 else 0) ||| (if isGlobalScope then 0x08 else 0)

mutual

def writeAst : TypeAst → Bytes
  | .null => bufU8 0
  | .node type varType byRef isInline isVirtual isGlobalScope token iVal left right extra
      children =>
    bufU8 1 ++ bufU32LE type ++ bufU32LE varType ++
      bufU8 (astFlags byRef isInline isVirtual isGlobalScope) ++ writeToken token ++
      bufI32LE iVal ++ writeAst left ++ writeAst right ++ writeAst extra ++
      bufI32LE (Int32.ofNat children.length) ++ writeAsts children

def writeAsts : List TypeAst → Bytes
  | [] => []
  | child :: children => writeAst child ++ writeAsts children

end

section
variable {σ : Type}

def readToken : Reader σ (Option CacheToken) := do
  let has ← curU8
  if (← hasError) ∨ has = 0 then
    return none
  let type ← curU32LE
  let buf ← curLenPrefixedString
  if (← hasError) ∨ buf = none then
    return none
  return some { type := type, value := buf }

/-- `readAst` with the levels of nesting that are left -/
def readAst : Nat → Reader σ TypeAst
  | 0 => do
    overrun
    return .null
  | levels + 1 => do
    let has ← curU8
    if (← hasError) ∨ has = 0 then
      return .null
    let type ← curU32LE
    let varType ← curU32LE
    let flags ← curU8
    let token ← readToken
    if ← hasError then
      return .null
    let iVal ← curI32LE
    if ← hasError then
      return .null
    let left ← readAst levels
    let right ← readAst levels
    let extra ← readAst levels
    if ← hasError then
      return .null
    let childCount ← curI32LE
    if (← hasError) ∨ childCount.toInt < 0 then
      return .null
    if (← remaining) < childCount.toInt.toNat then
      return .null
    let children ← times (readAst levels) childCount.toInt.toNat
    if ← hasError then
      return .null
    return .node type varType (flags &&& 0x01 != 0) (flags &&& 0x02 != 0) (flags &&& 0x04 != 0)
      (flags &&& 0x08 != 0) token iVal left right extra children

end

/-! ## a tree is read back -/

/-- the value of a token; a null pointer is written as the empty text -/
def CacheToken.text (tok : CacheToken) : Bytes := tok.value.getD []

def SameToken (tok tok' : Option CacheToken) : Prop :=
  tok.map (fun t => (t.type, t.text)) = tok'.map fun t => (t.type, t.text)

inductive SameAst : TypeAst → TypeAst → Prop where
  | null : SameAst .null .null
  | node {type varType : UInt32} {byRef isInline isVirtual isGlobalScope : Bool}
      {token token' : Option CacheToken} {iVal : Int32}
      {left right extra left' right' extra' : TypeAst} {children children' : List TypeAst}
      (htoken : SameToken token token') (hleft : SameAst left left')
      (hright : SameAst right right') (hextra : SameAst extra extra')
      (hchildren : List.Forall₂ SameAst children children') :
      SameAst
        (.node type varType byRef isInline isVirtual isGlobalScope token iVal left right extra
          children)
        (.node type varType byRef isInline isVirtual isGlobalScope token' iVal left' right' extra'
          children')

/-- a tree of at most so many levels, with lengths and counts of their C types -/
def TypeAst.Within : Nat → TypeAst → Prop
  | 0, _ => False
  | _ + 1, .null => True
  | levels + 1, .node _ _ _ _ _ _ token _ left right extra children =>
    (∀ tok ∈ token, tok.text.length < 2 ^ 64) ∧ left.Within levels ∧ right.Within levels ∧
      extra.Within levels ∧ children.length < 2 ^ 31 ∧ ∀ child ∈ children, child.Within levels

theorem writeAsts_eq (children : List TypeAst) : writeAsts children = children.flatMap writeAst := by
  induction children with
  | nil => rfl
  | cons child children ih => rw [writeAsts, ih, flatMap_cons]

theorem length_writeAst_pos (t : TypeAst) : 0 < (writeAst t).length := by
  cases t with
  | null => exact Nat.zero_lt_one
  | node type =>
    simp only [writeAst, length_append, bufU8, length_le]
    omega

theorem length_writeAsts (children : List TypeAst) :
    children.length ≤ (writeAsts children).length := by
  induction children with
  | nil => exact Nat.le.refl
  | cons child children ih =>
    have h := length_writeAst_pos child
    rw [writeAsts, length_append, length_cons]
    omega

theorem astFlags_bits (a b c d : Bool) :
    (astFlags a b c d &&& 0x01 != 0) = a ∧ (astFlags a b c d &&& 0x02 != 0) = b ∧
      (astFlags a b c d &&& 0x04 != 0) = c ∧ (astFlags a b c d &&& 0x08 != 0) = d := by
  cases a <;> cases b <;> cases c <;> cases d <;> decide

theorem toInt_ofNat {n : Nat} (h : n < 2 ^ 31) : (Int32.ofNat n).toInt = n :=
  Int32.toInt_ofNat_of_lt h

section
variable {σ : Type}

theorem readsBack_token {tok : Option CacheToken} (h : ∀ t ∈ tok, t.text.length < 2 ^ 64) :
    ∃ tok', SameToken tok tok' ∧ ReadsBack (readToken (σ := σ)) (writeToken tok) tok' := by
  cases tok with
  | none =>
    refine ⟨none, rfl, .last (Reads.back (reads_curU8 0)) ?_⟩
    exact .then readsBack_hasError (.pure none)
  | some tok =>
    refine ⟨some { type := tok.type, value := some tok.text }, rfl, ?_⟩
    rw [writeToken, append_assoc]
    refine .bind (Reads.back (reads_curU8 1)) (.then readsBack_hasError ?_)
    rw [if_neg (by decide)]
    refine .bind (Reads.back (reads_curU32LE tok.type)) ?_
    refine .last (Reads.back (reads_curLenPrefixedString (h tok rfl))) ?_
    refine .then readsBack_hasError ?_
    rw [if_neg (by simp)]
    exact .pure _

theorem readsBack_ast {levels : Nat} {t : TypeAst} (h : t.Within levels) :
    ∃ t', SameAst t t' ∧ ReadsBack (readAst (σ := σ) levels) (writeAst t) t' := by
  induction levels generalizing t with
  | zero => exact h.elim
  | succ levels ih =>
    cases t with
    | null =>
      refine ⟨.null, SameAst.null, .last (Reads.back (reads_curU8 0)) ?_⟩
      exact .then readsBack_hasError (.pure TypeAst.null)
    | node type varType byRef isInline isVirtual isGlobalScope token iVal left right extra
        children =>
      obtain ⟨htok, hl, hr, he, hlt, hc⟩ := h
      obtain ⟨token', stok, rtok⟩ := readsBack_token (σ := σ) htok
      obtain ⟨left', sl, rl⟩ := ih hl
      obtain ⟨right', sr, rr⟩ := ih hr
      obtain ⟨extra', se, re⟩ := ih he
      obtain ⟨children', sc, rc⟩ := readsBack_times fun child hmem => ih (hc child hmem)
      refine ⟨_, SameAst.node stok sl sr se sc, ?_⟩
      obtain ⟨f1, f2, f4, f8⟩ := astFlags_bits byRef isInline isVirtual isGlobalScope
      simp only [writeAst, append_assoc]
      refine .bind (Reads.back (reads_curU8 1)) (.then readsBack_hasError ?_)
      rw [if_neg (by decide)]
      refine .bind (Reads.back (reads_curU32LE type)) ?_
      refine .bind (Reads.back (reads_curU32LE varType)) ?_
      refine .bind (Reads.back (reads_curU8 _)) ?_
      refine .bind rtok (.then readsBack_hasError ?_)
      rw [if_neg Bool.false_ne_true]
      refine .bind (Reads.back (reads_curI32LE iVal)) ?_
      refine .then readsBack_hasError ?_
      rw [if_neg Bool.false_ne_true]
      refine .bind rl (.bind rr (.bind re ?_))
      refine .then readsBack_hasError ?_
      rw [if_neg Bool.false_ne_true]
      refine .bind (Reads.back (reads_curI32LE _)) ?_
      have hcount : (Int32.ofNat children.length).toInt = children.length := toInt_ofNat hlt
      refine .then readsBack_hasError ?_
      rw [if_neg (by rw [hcount]; simp), hcount, Int.toNat_natCast]
      refine .remaining ?_ fun n hn => if_neg ?_
      · rw [writeAsts_eq]
        refine .last rc (.then readsBack_hasError ?_)
        rw [if_neg Bool.false_ne_true, f1, f2, f4, f8]
        exact .pure _
      · have hchildren := length_writeAsts children
        omega

end

end Pscal
