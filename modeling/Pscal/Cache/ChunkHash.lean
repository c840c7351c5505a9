import Pscal.Cache.ContainerSpec

/-!
# The integrity hash of a chunk

`core/cache.c`: `hashValue`, `computeChunkHash` and `computeCombinedHash`.

* `hashFeed`, `chunkFeed`  the bytes that a value and a chunk are hashed as;
* `CacheValue.LongDoubles`, `LongDoublesKept`  each `long double` in a value is a `double`;
* `SameValue.hashFeed_eq`  what a value comes back as is hashed as the same bytes;
* `SameChunk.computeCombinedHash_eq`  and so is a chunk.
-/

namespace Pscal

open Wire Wire.Reader List

/-! ## the bytes that are hashed -/

section
variable {κ : Type}

def bufInt (n : Nat) : Bytes := bufI32LE (Int32.ofNat n)

def feedText (text : Bytes) : Bytes :=
  bufInt text.length ++ text.take (Int32.ofNat text.length).toInt.toNat

/-- the tagged word of a thread id, of which the payload of a pointer is hashed -/
def threadWord (v : Int) : UInt64 := ((11 : UInt64) <<< 45) ||| (UInt32.ofInt v).toUInt64

def feedScalar (s : Scalar) : Bytes :=
  if s.type = .char then bufI32LE (Int32.ofInt s.value)
  else if s.type = .thread then bufU64LE (threadWord s.value)
  else bufU64LE (UInt64.ofInt s.value)

/-- The case of a pointer.  No kind is hashed, so that what is fed has no mark of it.  `function`
is the version and the hash of the chunk of a function. -/
def feedPointer (function : κ → Bytes) : Option (PointerObj κ) → Bytes
  | none => bufU64LE 0
  | some (.charPtr _ text) => feedText (text.elim [] CString.bytes)
  | some (.function fn) => fn.elim (bufU64LE 0) function
  | some (.typed _ address) => bufU64LE address
  | some (.marked _ address) => bufU64LE address

def feedArrayHead (elementType : UInt32) (bounds : List (Int32 × Int32)) : Bytes :=
  bufInt bounds.length ++ bufU32LE elementType ++
    bounds.flatMap fun b => bufI32LE b.1 ++ bufI32LE b.2

/-- how many elements are hashed (none, when they are too many to count) -/
def hashedCount (bounds : List (Int32 × Int32)) : Nat := (arrayCodecElementCount bounds).getD 0

mutual

/-- what is hashed after the type; the values of an `other` are not stored, and left out -/
def feedPayload (ldSize : Nat) (function : κ → Bytes) : CacheValue κ → Bytes
  | .scalar s => feedScalar s
  | .float bits => bufU32LE bits
  | .double word => bufU64LE word
  | .longDouble bits => le ldSize bits
  | .void | .nil | .other _ => []
  | .handle _ _ => bufU64LE 0
  | .str _ obj =>
    match obj.bind StringObj.buffer with
    | none => bufI32LE (-1)
    | some buf => feedText buf.bytes
  | .enum obj => feedText (EnumObj.nameText obj) ++ bufI32LE (obj.elim 0 EnumObj.ordinal)
  | .set obj =>
    let values := obj.getD []
    bufInt values.length ++ values.flatMap fun v => bufU64LE v.toUInt64
  | .nullArray => feedArrayHead VarType.void.code []
  | .array elementType _ bounds elements =>
    feedArrayHead elementType bounds ++ feedValues ldSize function (hashedCount bounds) elements
  | .packedArray elementType _ bounds raw =>
    feedArrayHead elementType bounds ++ (raw.getD []).take (hashedCount bounds)
  | .nullMap => bufI32LE (-1) ++ bufI32LE (-1)
  | .map valueType entries =>
    bufU32LE valueType ++ bufInt entries.length ++ feedEntries ldSize function entries
  | .mstream contents => contents.elim (bufI32LE (-1)) feedText
  | .pointer obj => feedPointer function obj

def feedValues (ldSize : Nat) (function : κ → Bytes) : Nat → List (CacheValue κ) → Bytes
  | 0, _ | _ + 1, [] => []
  | n + 1, v :: vs =>
    bufU32LE v.type.code ++ feedPayload ldSize function v ++ feedValues ldSize function n vs

def feedEntries (ldSize : Nat) (function : κ → Bytes) : List (Bytes × CacheValue κ) → Bytes
  | [] => []
  | (key, v) :: entries =>
    bufInt key.length ++ key ++ (bufU32LE v.type.code ++ feedPayload ldSize function v) ++
      feedEntries ldSize function entries

end

/-- the bytes that a value is hashed as, where a `long double` takes `ldSize` -/
def hashFeed (ldSize : Nat) (function : κ → Bytes) (v : CacheValue κ) : Bytes :=
  bufU32LE v.type.code ++ feedPayload ldSize function v

def hashValue (ldSize : Nat) (function : κ → Bytes) (hash : UInt64) (v : CacheValue κ) : UInt64 :=
  fnv1aUpdate hash (hashFeed ldSize function v)

def chunkFeed (ldSize : Nat) (function : κ → Bytes) (chunk : CachedChunk κ) : Bytes :=
  bufU32LE chunk.version ++ bufInt chunk.code.length ++ chunk.code ++ bufI32LE chunk.cacheCount ++
    bufInt chunk.constants.length ++ chunk.lines.flatMap bufI32LE ++
    chunk.constants.flatMap (hashFeed ldSize function)

end

/-- the version and the hash of a function that is at most so many levels deep -/
def functionFeed (ldSize : Nat) : Nat → ShellFunction → Bytes
  | 0, _ => []
  | depth + 1, f =>
    bufU32LE f.chunk.version ++
      bufU64LE (fnv1aUpdate fnv1a64Offset (chunkFeed ldSize (functionFeed ldSize depth) f.chunk))

def computeChunkHash (ldSize depth : Nat) (chunk : CachedChunk ShellFunction) : UInt64 :=
  fnv1aUpdate fnv1a64Offset (chunkFeed ldSize (functionFeed ldSize depth) chunk)

def computeCombinedHash (ldSize depth : Nat) (sourceHash : UInt64)
    (chunk : CachedChunk ShellFunction) : UInt64 :=
  fnv1aUpdate (fnv1aUpdate fnv1a64Offset (bufU64LE sourceHash))
    (bufU64LE (computeChunkHash ldSize depth chunk))

/-! ## what comes back is hashed as the same bytes -/

section
variable {σ κ : Type} {ops : CodecOps σ κ} {ldSize : Nat} {function : κ → Bytes}

/-- each `long double` in a value is kept as a `double`, and `F` holds of the functions in it -/
def CacheValue.LongDoubles (ops : CodecOps σ κ) (F : Nat → κ → Prop) :
    Nat → CacheValue κ → Prop
  | 0, _ => False
  | _ + 1, .longDouble bits => ops.ldOfDouble (ops.doubleOfLd bits) = bits
  | levels + 1, .array _ _ _ elements => ∀ v ∈ elements, v.LongDoubles ops F levels
  | levels + 1, .map _ entries => ∀ e ∈ entries, e.2.LongDoubles ops F levels
  | levels + 1, .pointer (some (.function (some fn))) => F levels fn
  | _ + 1, _ => True

theorem forall₂_flatMap_eq {α β : Type} {P : α → α → Prop} {g : α → List β} {xs ys : List α}
    (h : Forall₂ P xs ys) (hg : ∀ x y, P x y → g y = g x) : ys.flatMap g = xs.flatMap g := by
  induction h with
  | nil => rfl
  | cons h _ ih => rw [flatMap_cons, flatMap_cons, hg _ _ h, ih]

theorem feedValues_congr (ldSize : Nat) (function : κ → Bytes) {vs ws : List (CacheValue κ)} (n : Nat)
    (h : Forall₂ (fun v w => w.type = v.type ∧
      feedPayload ldSize function w = feedPayload ldSize function v) vs ws) :
    feedValues ldSize function n ws = feedValues ldSize function n vs := by
  induction h generalizing n with
  | nil => rfl
  | cons h _ ih =>
    cases n with
    | zero => rfl
    | succ n => rw [feedValues, feedValues, h.1, h.2, ih]

theorem feedEntries_congr (ldSize : Nat) (function : κ → Bytes)
    {es es' : List (Bytes × CacheValue κ)}
    (h : Forall₂ (fun e e' => e.1 = e'.1 ∧ e'.2.type = e.2.type ∧
      feedPayload ldSize function e'.2 = feedPayload ldSize function e.2) es es') :
    feedEntries ldSize function es' = feedEntries ldSize function es := by
  induction h with
  | nil => rfl
  | @cons e e' es es' h _ ih =>
    obtain ⟨key, v⟩ := e
    obtain ⟨key', v'⟩ := e'
    obtain ⟨rfl, htype, hpayload⟩ := h
    rw [feedEntries, feedEntries, htype, hpayload, ih]

theorem SamePointer.feedPointer_eq {p p' : PointerObj κ} (h : SamePointer p p') :
    feedPointer function (some p') = feedPointer function (some p) := by
  cases h with
  | _ => rfl

variable {F : Nat → κ → Prop} {levels : Nat} {v : CacheValue κ}

/-- What a value comes back as is hashed as the same bytes, if its `long double`s are kept. -/
theorem SameValue.feedPayload_eq {v' : CacheValue κ} (hv : v.LongDoubles ops F levels)
    (h : SameValue ops v v') : feedPayload ldSize function v' = feedPayload ldSize function v := by
  induction levels generalizing v v' with
  | zero => exact False.elim hv
  | succ levels ih =>
    cases h with
    | longDouble bits => rw [show ops.ldOfDouble (ops.doubleOfLd bits) = bits from hv]
    | str h => rw [feedPayload, feedPayload, h]
    | enum hname hordinal => rw [feedPayload, feedPayload, hname, hordinal]
    | set h => rw [feedPayload, feedPayload, h]
    | nullArray => rfl
    | array h =>
      have hsame := (forall₂_and_left _ _).mpr ⟨hv, h⟩
      have hcells := fun n => feedValues_congr ldSize function n
        (hsame.imp fun _ _ hvv => ⟨hvv.2.type_eq, ih hvv.1 hvv.2⟩)
      rw [feedPayload, feedPayload, hcells]
    | packedArray h => rw [feedPayload, feedPayload, h]
    | map h =>
      have hsame := (forall₂_and_left _ _).mpr ⟨hv, forall₂_zip_keys h⟩
      have hcells := feedEntries_congr ldSize function
        (hsame.imp fun _ _ hee => ⟨hee.2.1, hee.2.2.type_eq, ih hee.1 hee.2.2⟩)
      rw [feedPayload, feedPayload, hcells, hsame.length_eq]
    | pointer h =>
      rw [feedPayload, feedPayload]
      exact h.feedPointer_eq
    | _ => rfl

theorem CacheValue.Reloaded.feedPayload_eq {R : Nat → κ → κ → Prop} {w : CacheValue κ}
    (hR : ∀ l f f', F l f → R l f f' → function f' = function f) (hv : v.LongDoubles ops F levels)
    (h : v.Reloaded R levels w) :
    feedPayload ldSize function w = feedPayload ldSize function v := by
  induction levels generalizing v w with
  | zero => exact False.elim h
  | succ levels ih =>
    refine CacheValue.Reloaded.invert (motive := fun v w => v.LongDoubles ops F (levels + 1) →
      feedPayload ldSize function w = feedPayload ldSize function v) h (fun _ _ _ => rfl) ?_ ?_ ?_ hv
    · intro t d b vs ws hsame hv
      have hcells := fun n => feedValues_congr ldSize function n
        (((forall₂_and_left _ _).mpr ⟨hv, hsame⟩).imp fun _ _ hvv =>
          ⟨hvv.2.type_eq, ih hvv.1 hvv.2⟩)
      rw [feedPayload, feedPayload, hcells]
    · intro t es es' hsame hv
      have hcells := feedEntries_congr ldSize function
        (((forall₂_and_left _ _).mpr ⟨hv, hsame⟩).imp fun _ _ hee =>
          ⟨hee.2.1, hee.2.2.type_eq, ih hee.1 hee.2.2⟩)
      rw [feedPayload, feedPayload, hcells, hsame.length_eq]
    · intro f f' hf hv
      simp only [feedPayload, feedPointer, Option.elim_some, hR levels f f' hv hf]

theorem CacheValue.Reloaded.longDoubles {R : Nat → κ → κ → Prop} {w : CacheValue κ}
    (hv : v.LongDoubles ops F levels) (h : v.Reloaded R levels w) :
    w.LongDoubles ops (fun _ _ => True) levels := by
  induction levels generalizing v w with
  | zero => exact False.elim h
  | succ levels ih =>
    refine CacheValue.Reloaded.invert (motive := fun v w => v.LongDoubles ops F (levels + 1) →
      w.LongDoubles ops (fun _ _ => True) (levels + 1)) h ?_ ?_ ?_ ?_ hv
    · intro v hleaf hv
      cases v with
      | array => cases hleaf
      | map => cases hleaf
      | longDouble bits => exact hv
      | pointer obj =>
        rcases obj with _ | _ | ⟨_ | f⟩ | _ | _
        all_goals trivial
      | _ => trivial
    · intro t d b vs ws hsame hv w hw
      obtain ⟨v, hmem, hvw⟩ := forall₂_mem_right hsame w hw
      exact ih (hv v hmem) hvw
    · intro t es es' hsame hv e' he'
      obtain ⟨e, hmem, -, hvw⟩ := forall₂_mem_right hsame e' he'
      exact ih (hv e hmem) hvw
    · exact fun _ _ _ _ => trivial

end

/-! ## chunks -/

section
variable {σ : Type} (host : CacheHost σ) (tables : SymbolTables)

/-- each `long double` in the chunk of a function is kept -/
def ShellFunction.LongDoublesKept : Nat → Nat → ShellFunction → Prop
  | 0, _, _ => False
  | depth + 1, levels, f =>
    ∀ v ∈ f.chunk.constants,
      v.LongDoubles (functionOps host tables depth) (ShellFunction.LongDoublesKept depth) levels

/-- each `long double` in a value is kept, those of its functions too -/
def LongDoublesKept (depth levels : Nat) (v : CacheValue ShellFunction) : Prop :=
  v.LongDoubles (functionOps host tables depth) (ShellFunction.LongDoublesKept host tables depth)
    levels

variable {host tables}

def FunctionsHashed (host : CacheHost σ) (tables : SymbolTables) (ldSize depth : Nat) : Prop :=
  ∀ l f f', ShellFunction.LongDoublesKept host tables depth l f →
    ShellFunction.Same host tables depth l f f' →
    functionFeed ldSize depth f' = functionFeed ldSize depth f

theorem FunctionsHashed.value {ldSize depth levels : Nat} {v v' : CacheValue ShellFunction}
    (hf : FunctionsHashed host tables ldSize depth)
    (hv : LongDoublesKept host tables depth levels v)
    (h : SameStored host tables depth levels v v') : hashFeed ldSize (functionFeed ldSize depth) v'
      = hashFeed ldSize (functionFeed ldSize depth) v := by
  obtain ⟨w, hvw, hsame⟩ := h
  rw [hashFeed, hashFeed, hsame.type_eq, hvw.type_eq, hsame.feedPayload_eq (hvw.longDoubles hv),
    hvw.feedPayload_eq hf hv]

theorem FunctionsHashed.chunk {ldSize depth levels : Nat} {chunk chunk' : CachedChunk ShellFunction}
    (hf : FunctionsHashed host tables ldSize depth)
    (hchunk : ∀ v ∈ chunk.constants, LongDoublesKept host tables depth levels v)
    (h : SameChunk (SameStored host tables depth levels) chunk chunk') :
    chunkFeed ldSize (functionFeed ldSize depth) chunk'
      = chunkFeed ldSize (functionFeed ldSize depth) chunk := by
  have hconsts := forall₂_flatMap_eq ((forall₂_and_left _ _).mpr ⟨hchunk, h.constants⟩)
    fun _ _ hvv => hf.value hvv.1 hvv.2
  rw [chunkFeed, chunkFeed, h.version, h.code, h.cacheCount, h.lines, hconsts,
    h.constants.length_eq]

theorem functionsHashed (ldSize depth : Nat) : FunctionsHashed host tables ldSize depth := by
  induction depth with
  | zero => exact fun _ _ _ h _ => False.elim h
  | succ depth ih =>
    rintro l f f' hkept ⟨hsame, -⟩
    rw [functionFeed, functionFeed, hsame.version, ih.chunk hkept hsame]

theorem SameChunk.computeCombinedHash_eq {ldSize depth levels : Nat}
    {chunk chunk' : CachedChunk ShellFunction}
    (h : SameChunk (SameStored host tables depth levels) chunk chunk')
    (hchunk : ∀ v ∈ chunk.constants, LongDoublesKept host tables depth levels v)
    (sourceHash : UInt64) : computeCombinedHash ldSize depth sourceHash chunk'
      = computeCombinedHash ldSize depth sourceHash chunk := by
  rw [computeCombinedHash, computeCombinedHash, computeChunkHash, computeChunkHash,
    (functionsHashed ldSize depth).chunk hchunk h]

end

end Pscal
