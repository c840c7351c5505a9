import Pscal.VM.Elements

/-!
# When the two element reads agree

* `ReadAlike`, `ConstReadAlike`  the bases and indices on which the reads agree;
* `stringReads_iff`, `arrayReads_iff`  strings and arrays;
* `elementReads_agree`  both forms.
-/

namespace Pscal

open Option

namespace Elements

open Wire

/-! ## code points -/

theorem length_decodeFrom {room : Nat} {text : List UInt8} {cps : List Nat}
    (h : decodeFrom room text = some cps) : cps.length ≤ room := by
  induction room generalizing text cps with
  | zero =>
    cases text with
    | nil =>
      obtain rfl := some.inj h
      exact Nat.le_refl 0
    | cons c text => cases h
  | succ room ih =>
    cases text with
    | nil =>
      obtain rfl := some.inj h
      exact Nat.zero_le _
    | cons c text =>
      obtain ⟨⟨cp, n⟩, -, hcps⟩ := bind_eq_some_iff.mp h
      obtain ⟨rest, hrest, rfl⟩ := map_eq_some_iff.mp hcps
      exact Nat.succ_le_succ (ih hrest)

theorem utf8CodepointCount_le (text : List UInt8) : utf8CodepointCount text ≤ text.length := by
  rw [utf8CodepointCount]
  cases h : decodeUtf8 text with
  | none => exact Nat.le_refl _
  | some cps => exact length_decodeFrom h

section
variable {V : Type} {F : Reals} {zeroBased : Bool} {vmValueIsDisposed : V → Bool}

/-! ## strings -/

variable {len : Nat} {rawIndex : Int} {e : ElementError} {a : ArrayObj V}

theorem resolve_offset {n : Nat} (h : vmResolveStringIndex zeroBased rawIndex len = .ok (.offset n))
    :
    n < len := by
  unfold vmResolveStringIndex at h
  split at h
  · split at h
    · cases h
    split at h
    · cases h
    cases h
    omega
  · split at h
    · cases h
    cases h
    omega

theorem resolve_length (h : vmResolveStringIndex zeroBased rawIndex len = .ok .length) (len' : Nat)
    :
    vmResolveStringIndex zeroBased rawIndex len' = .ok .length := by
  unfold vmResolveStringIndex at h ⊢
  split at h
  · next hzero =>
    split at h
    · next hindex => rw [if_pos hzero, if_pos hindex]
    · split at h <;> cases h
  · split at h <;> cases h

theorem resolve_error (h : vmResolveStringIndex zeroBased rawIndex len = .error e) {len' : Nat}
    (hlen : len' ≤ len) :
    vmResolveStringIndex zeroBased rawIndex len' = .error (.stringIndex rawIndex len') := by
  unfold vmResolveStringIndex at h ⊢
  split at h
  · next hzero =>
    split at h
    · cases h
    · next hindex =>
      split at h
      · next hout =>
        rw [if_pos hzero, if_neg hindex, if_pos]
        omega
      · cases h
  · next hzero =>
    split at h
    · rw [if_neg hzero, if_pos]
      omega
    · cases h

def SelectsChar (zeroBased : Bool) (rawIndex : Int) (len : Nat) : Prop :=
  ∃ n, vmResolveStringIndex zeroBased rawIndex len = .ok (.offset n)

/-- A Unicode string is read alike where its bytes are as many as its code points, and no character
is selected. -/
def UnicodeAlike (zeroBased : Bool) (text : Bytes) (index : IndexValue F) : Prop :=
  ∀ rawIndex, index.valInt = some rawIndex →
    utf8CodepointCount text = text.length ∧ ¬ SelectsChar zeroBased rawIndex text.length

theorem loadUnicodeChar_ne (text : Bytes) (index : Nat) (ch : UInt8) :
    vmLoadUnicodeChar (V := V) text index ≠ .ok (.char ch) := by
  unfold vmLoadUnicodeChar
  split
  · exact nofun
  · split <;> exact nofun

theorem stringReads_iff (t : StringType) (buffer : Option CString) (index : IndexValue F) :
    loadStringElement (V := V) zeroBased buffer index =
        (stringElementAddress zeroBased t buffer index >>= getIndirect vmValueIsDisposed) ↔
      (t = .unicodeString → UnicodeAlike zeroBased (textOf buffer) index) := by
  unfold loadStringElement stringElementAddress UnicodeAlike
  cases index.valInt with
  | none => exact ⟨fun _ _ _ h => (nomatch h), fun _ => rfl⟩
  | some rawIndex =>
    simp only [vmPushStringCharAddress, some.injEq, forall_eq', SelectsChar]
    generalize textOf buffer = text
    cases t with
    | string =>
      refine ⟨fun _ h => (nomatch h), fun _ => ?_⟩
      cases hresolve : vmResolveStringIndex zeroBased rawIndex text.length with
      | error e => simp only [stringLength, hresolve]; rfl
      | ok i =>
        simp only [stringLength, hresolve]
        cases i with
        | length => rfl
        | offset n =>
          show _ = vmStringCharTarget text n
          rw [vmStringCharTarget, if_neg (Nat.not_le.mpr (resolve_offset hresolve))]
          rfl
    | unicodeString =>
      have hle := utf8CodepointCount_le text
      cases hresolve : vmResolveStringIndex zeroBased rawIndex text.length with
      | error e =>
        obtain rfl : e = .stringIndex rawIndex text.length :=
          Except.error.inj (hresolve.symm.trans (resolve_error hresolve (Nat.le_refl _)))
        simp only [stringLength, resolve_error hresolve hle]
        refine ⟨fun h _ => ⟨?_, fun ⟨n, hn⟩ => (nomatch hn)⟩, fun h => ?_⟩
        · exact (ElementError.stringIndex.inj (Except.error.inj h)).2.symm
        · rw [(h trivial).1]
          rfl
      | ok i =>
        cases i with
        | length =>
          simp only [stringLength, resolve_length hresolve]
          refine ⟨fun h _ => ⟨?_, fun ⟨n, hn⟩ => (nomatch hn)⟩, fun h => ?_⟩
          · exact (ElementValue.int.inj (Except.ok.inj h)).symm
          · rw [← (h trivial).1]
            rfl
        | offset n =>
          refine ⟨fun h => ?_, fun h => absurd ⟨n, rfl⟩ (h rfl).2⟩
          simp only [stringLength] at h
          cases haddress : vmResolveStringIndex zeroBased rawIndex (utf8CodepointCount text) with
          | error e =>
            rw [haddress] at h
            cases h
          | ok i =>
            rw [haddress] at h
            cases i with
            | length => cases h
            | offset m => exact absurd h.symm (loadUnicodeChar_ne text m _)

/-! ## arrays -/

def ArrayBuffer.cell? (buffer : ArrayBuffer V) (offset : Nat) : Option V :=
  match buffer with
  | .raw _ => none
  | .elements es => es[offset]?

/-- the cell that the indices select, an element or a row -/
def ArrayObj.selected? (a : ArrayObj V) (indices : List Int) : Option V :=
  if indices.length < a.bounds.length % 2 ^ 8 then
    match makeDynamicArraySliceValue a indices with
    | .ok (.slot v) => some v
    | _ => none
  else
    match elementOffset a indices with
    | .ok offset => a.buffer.cell? offset
    | .error _ => none

theorem loadFrom_iff (buffer : ArrayBuffer V) (offset : Nat) :
    loadFrom buffer offset = (elementAddress buffer offset >>= getIndirect vmValueIsDisposed) ↔
      ∀ v ∈ buffer.cell? offset, vmValueIsDisposed v = false := by
  cases buffer with
  | raw bytes => cases bytes <;> exact ⟨fun _ _ h => (nomatch h), fun _ => rfl⟩
  | elements es =>
    show (es[offset]?).elim _ _ = getIndirect _ (.element es offset) ↔ ∀ v ∈ es[offset]?, _
    rw [getIndirect]
    cases es[offset]? with
    | none => exact ⟨fun _ _ h => (nomatch h), fun _ => rfl⟩
    | some v =>
      show Except.ok (ElementValue.copy v) = (if _ then _ else _) ↔ _
      cases hv : vmValueIsDisposed v with
      | false => exact ⟨fun _ _ h => some.inj h ▸ hv, fun _ => rfl⟩
      | true =>
        refine ⟨fun h => (nomatch h), fun h => ?_⟩
        exact absurd (hv.symm.trans (h v rfl)) (by decide)

/-- the errors that both reads of an array make, past its operand and the number of indices -/
def ElementError.ofRead : ElementError → Bool
  | .outOfBounds | .dimensionBounds _ _ _ _ | .packedStorage | .pastBuffer => true
  | _ => false

variable {indices : List Int}

theorem slice_error (h : makeDynamicArraySliceValue a indices = .error e) : e.ofRead = true := by
  unfold makeDynamicArraySliceValue at h
  split at h
  · cases h
    rfl
  split at h
  · split at h
    · split at h
      · split at h
        · cases h
        · cases h
          rfl
      · cases h
        rfl
    · cases h
      rfl
  · split at h
    · cases h
    · cases h
      rfl

theorem elementOffset_error (h : elementOffset a indices = .error e) : e.ofRead = true := by
  unfold elementOffset at h
  cases hcheck : vmCheckArrayIndexBounds a indices with
  | error e' =>
    rw [hcheck] at h
    obtain rfl := Except.error.inj h
    unfold vmCheckArrayIndexBounds at hcheck
    split at hcheck <;> cases hcheck
    rfl
  | ok _ =>
    rw [hcheck] at h
    change (if _ then _ else _) = _ at h
    split at h <;> cases h
    rfl

theorem cell_error {α : Type} {cell : Option α} {f : α → ElementValue V}
    (h : (cell.elim (.error .pastBuffer) fun x => .ok (f x)) = Except.error e) :
    e.ofRead = true := by
  cases cell <;> cases h
  rfl

theorem loadFrom_error {buffer : ArrayBuffer V} {offset : Nat}
    (h : loadFrom buffer offset = .error e) : e.ofRead = true := by
  cases buffer with
  | raw bytes =>
    cases bytes with
    | none =>
      cases h
      rfl
    | some bs => exact cell_error h
  | elements es => exact cell_error h

theorem loadSelected_error (h : loadSelected a indices = .error e) : e.ofRead = true := by
  unfold loadSelected at h
  split at h
  · cases hslice : makeDynamicArraySliceValue a indices with
    | error e' =>
      rw [hslice] at h
      obtain rfl := Except.error.inj h
      exact slice_error hslice
    | ok slice =>
      rw [hslice] at h
      cases h
  · cases hoffset : elementOffset a indices with
    | error e' =>
      rw [hoffset] at h
      obtain rfl := Except.error.inj h
      exact elementOffset_error hoffset
    | ok offset =>
      rw [hoffset] at h
      exact loadFrom_error h

def TooManyIndices (a : ArrayObj V) (indices : List Int) : Prop :=
  0 < a.bounds.length ∧ a.bounds.length < indices.length

theorem selectedReads_iff (a : ArrayObj V) (indices : List Int) :
    loadSelected a indices = (selectedAddress a indices >>= getIndirect vmValueIsDisposed) ↔
      ¬ TooManyIndices a indices ∧ ∀ v ∈ a.selected? indices, vmValueIsDisposed v = false := by
  unfold TooManyIndices
  by_cases hmany : 0 < a.bounds.length ∧ a.bounds.length < indices.length
  · rw [selectedAddress, if_pos hmany]
    refine ⟨fun h => ?_, fun h => absurd hmany h.1⟩
    have hread := loadSelected_error h
    cases hread
  rw [selectedAddress, if_neg hmany, loadSelected, ArrayObj.selected?]
  rw [and_iff_right hmany]
  by_cases hfew : indices.length < a.bounds.length % 2 ^ 8
  · rw [if_pos hfew, if_pos hfew, if_pos hfew]
    cases makeDynamicArraySliceValue a indices with
    | error e => exact ⟨fun _ _ h => (nomatch h), fun _ => rfl⟩
    | ok slice =>
      cases slice with
      | view a => exact ⟨fun _ _ h => (nomatch h), fun _ => rfl⟩
      | slot v =>
        show Except.ok (ElementValue.copy v) = (if _ then _ else _) ↔ _
        cases hv : vmValueIsDisposed v with
        | false => exact ⟨fun _ _ h => some.inj h ▸ hv, fun _ => rfl⟩
        | true =>
          refine ⟨fun h => (nomatch h), fun h => ?_⟩
          exact absurd (hv.symm.trans (h v rfl)) (by decide)
  · rw [if_neg hfew, if_neg hfew, if_neg hfew]
    cases elementOffset a indices with
    | error e => exact ⟨fun _ _ h => (nomatch h), fun _ => rfl⟩
    | ok offset => exact loadFrom_iff a.buffer offset

/-- An array is read alike by its address, with no more indices than it has dimensions, where the
cell that they select was not disposed. -/
def ArrayAlike (vmValueIsDisposed : V → Bool) (operand : Operand V)
    (indices : List (IndexValue F)) : Prop :=
  ∀ ints, popIndices indices = .ok ints → ∀ a, resolveArray false operand = .ok a →
    (∀ a, operand ≠ .array a) ∧ ¬ TooManyIndices a ints ∧
      ∀ v ∈ a.selected? ints, vmValueIsDisposed v = false

theorem arrayReads_iff (operand : Operand V) (indices : List (IndexValue F)) :
    loadArrayElement operand indices =
        (getArrayElementAddress operand indices >>= getIndirect vmValueIsDisposed) ↔
      ArrayAlike vmValueIsDisposed operand indices := by
  unfold loadArrayElement getArrayElementAddress ArrayAlike
  cases popIndices indices with
  | error e => exact ⟨fun _ _ h => (nomatch h), fun _ => rfl⟩
  | ok ints =>
    show (resolveArray false operand >>= fun a => loadSelected a ints) =
      ((resolveArray true operand >>= fun a => selectedAddress a ints) >>= _) ↔ _
    simp only [Except.ok.injEq, forall_eq']
    cases operand with
    | other => exact ⟨fun _ _ h => (nomatch h), fun _ => rfl⟩
    | array a =>
      refine ⟨fun h => ?_, fun h => absurd rfl ((h a rfl).1 a)⟩
      have hread := loadSelected_error h
      cases hread
    | pointer base target =>
      show (resolveArray false (.pointer base target) >>= _) =
        ((resolveArray false (.pointer base target) >>= _) >>= _) ↔ _
      cases resolveArray false (.pointer base target) with
      | error e => exact ⟨fun _ _ h => (nomatch h), fun _ => rfl⟩
      | ok a =>
        refine (selectedReads_iff a ints).trans ⟨fun h b hb => ?_, fun h => (h a rfl).2⟩
        obtain rfl := Except.ok.inj hb
        exact ⟨fun _ => nofun, h⟩

def ReadAlike (zeroBased : Bool) (vmValueIsDisposed : V → Bool) :
    Operand V → List (IndexValue F) → Prop
  | .pointer .notValue _, _ => True
  | .pointer _ (some (.str t buffer)), [index] =>
    t = .unicodeString → UnicodeAlike zeroBased (textOf buffer) index
  | operand, indices => ArrayAlike vmValueIsDisposed operand indices

theorem reads_iff (operand : Operand V) (indices : List (IndexValue F)) :
    loadElementValue zeroBased operand indices =
        (getElementAddress zeroBased operand indices >>= getIndirect vmValueIsDisposed) ↔
      ReadAlike zeroBased vmValueIsDisposed operand indices := by
  unfold loadElementValue getElementAddress
  split
  · exact ⟨fun _ => trivial, fun _ => rfl⟩
  · next hbase =>
    rw [ReadAlike]
    · exact stringReads_iff ..
    · exact hbase
  · next hbase hstr =>
    rw [ReadAlike]
    · exact arrayReads_iff ..
    · exact hbase
    · exact hstr

/-! ## constant offsets -/

/-- A constant offset: a Unicode string is read alike past its end, where its bytes are as many as
its code points, and an array, on the stack or not, where the cell was not disposed. -/
def ConstReadAlike (vmValueIsDisposed : V → Bool) : Operand V → UInt32 → Prop
  | .pointer .notValue _, _ => True
  | .pointer _ (some (.str t buffer)), flatOffset =>
    t = .unicodeString →
      utf8CodepointCount (textOf buffer) = (textOf buffer).length ∧
        (textOf buffer).length ≤ flatOffset.toNat
  | operand, flatOffset =>
    ∀ a, resolveArray false operand = .ok a → ∀ offset, constOffset a flatOffset = .ok offset →
      ∀ v ∈ a.buffer.cell? offset, vmValueIsDisposed v = false

theorem stringConstReads_iff (t : StringType) (text : Bytes) (offset display : Nat) :
    (if text.length ≤ offset then Except.error (.stringIndex display text.length)
      else .ok (loadChar (V := V) text offset)) =
        ((if stringLength t text ≤ offset then .error (.stringIndex display (stringLength t text))
          else .ok (.stringChar (t = .unicodeString) offset text)) >>=
          getIndirect vmValueIsDisposed) ↔
      (t = .unicodeString → utf8CodepointCount text = text.length ∧ text.length ≤ offset) := by
  by_cases hpast : text.length ≤ offset
  · rw [if_pos hpast]
    cases t with
    | string =>
      rw [stringLength, if_pos hpast]
      exact ⟨fun _ h => (nomatch h), fun _ => rfl⟩
    | unicodeString =>
      rw [stringLength, if_pos (Nat.le_trans (utf8CodepointCount_le text) hpast)]
      refine ⟨fun h _ => ⟨?_, hpast⟩, fun h => ?_⟩
      · exact (ElementError.stringIndex.inj (Except.error.inj h)).2.symm
      · rw [(h rfl).1]
        rfl
  · rw [if_neg hpast]
    cases t with
    | string =>
      rw [stringLength, if_neg hpast]
      refine ⟨fun _ h => (nomatch h), fun _ => ?_⟩
      show _ = vmStringCharTarget text offset
      rw [vmStringCharTarget, if_neg hpast]
    | unicodeString =>
      refine ⟨fun h => ?_, fun h => absurd (h rfl).2 hpast⟩
      rw [stringLength] at h
      split at h
      · cases h
      · exact absurd h.symm (loadUnicodeChar_ne text offset _)

theorem constReads_iff (operand : Operand V) (flatOffset : UInt32) :
    loadElementValueConst zeroBased operand flatOffset =
        (getElementAddressConst zeroBased operand flatOffset >>= getIndirect vmValueIsDisposed) ↔
      ConstReadAlike vmValueIsDisposed operand flatOffset := by
  unfold loadElementValueConst getElementAddressConst
  split
  · exact ⟨fun _ => trivial, fun _ => rfl⟩
  · next hbase =>
    rw [ConstReadAlike]
    · exact stringConstReads_iff ..
    · exact hbase
  · next hbase hstr =>
    rw [ConstReadAlike]
    · cases resolveArray false operand with
      | error e => exact ⟨fun _ _ h => (nomatch h), fun _ => rfl⟩
      | ok a =>
        show (constOffset a flatOffset >>= _) = ((constOffset a flatOffset >>= _) >>= _) ↔ _
        simp only [Except.ok.injEq, forall_eq']
        cases constOffset a flatOffset with
        | error e => exact ⟨fun _ _ h => (nomatch h), fun _ => rfl⟩
        | ok offset =>
          simp only [Except.ok.injEq, forall_eq']
          exact loadFrom_iff a.buffer offset
    · exact hbase
    · exact hstr

/-- **The reads of an element agree exactly there.** -/
theorem elementReads_agree (zeroBased : Bool) (vmValueIsDisposed : V → Bool)
    (operand : Operand V) :
    (∀ indices : List (IndexValue F),
      loadElementValue zeroBased operand indices =
          (getElementAddress zeroBased operand indices >>= getIndirect vmValueIsDisposed) ↔
        ReadAlike zeroBased vmValueIsDisposed operand indices) ∧
    ∀ flatOffset,
      loadElementValueConst zeroBased operand flatOffset =
          (getElementAddressConst zeroBased operand flatOffset >>=
            getIndirect vmValueIsDisposed) ↔
        ConstReadAlike vmValueIsDisposed operand flatOffset :=
  ⟨reads_iff operand, constReads_iff operand⟩

end

/-- the text of one code point of two bytes, and its first character -/
theorem elementReads_unicode :
    let base : Operand Nat :=
      .pointer .other (some (.str .unicodeString (some { bytes := [0xC3, 0xA9], noNul := by decide })))
    let index : IndexValue integralReals := .scalar (Scalar.ofInt .int32 1)
    loadElementValue false base [index] = .ok (.char 0xC3) ∧
      (getElementAddress false base [index] >>= getIndirect fun _ => false) =
        .ok (.wideChar 0xE9) := by
  exact ⟨rfl, rfl⟩

/-- one index too many for an array of three elements -/
example :
    let base : Operand Nat :=
      .pointer .other (some (.array
        { isDynamic := false, bounds := [(1, 3)], elementType := .int32
          buffer := .elements [10, 20, 30] }))
    let index : IndexValue integralReals := .scalar (Scalar.ofInt .int32 2)
    loadElementValue false base [index, index] = .ok (.copy 20) ∧
      (getElementAddress false base [index, index] >>= getIndirect fun _ => false) =
        .error (.indexCount 2 1) := by
  exact ⟨rfl, rfl⟩

end Elements

end Pscal
