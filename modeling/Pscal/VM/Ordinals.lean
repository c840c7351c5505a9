import Pscal.VM.Comparisons

/-!
# Ordinal values

What a `for` loop does with its control variable: the comparison with the bound, `ADD` or
`SUBTRACT` of the constant `1`, and the store back into the variable.

* `IntType.first`, `IntType.last`  the range of an int-like type (`store_eq_self`);
* `OrdinalBase`  the types of the values: int-like, or an enum;
* `OrdinalBase.store`, `OrdinalBase.next`, `Value.ordinal`;
* `compare_ordinal`, `next_ordinal`, `store_ordinal`  what they do to the numbers.
-/

namespace Pscal

def IntType.first : IntType → Int
  | .int8 => -2 ^ 7
  | .int16 => -2 ^ 15
  | .int32 | .thread => -2 ^ 31
  | .int64 => -2 ^ 63
  | _ => 0

def IntType.last : IntType → Int
  | .boolean => 1
  | .int8 => 2 ^ 7 - 1
  | .char | .byte | .uint8 => 2 ^ 8 - 1
  | .int16 => 2 ^ 15 - 1
  | .word | .uint16 => 2 ^ 16 - 1
  | .int32 | .thread => 2 ^ 31 - 1
  | .widechar | .uint32 => 2 ^ 32 - 1
  | .int64 => 2 ^ 63 - 1
  | .uint64 => 2 ^ 64 - 1

theorem IntType.store_range (t : IntType) (v : Int) : t.first ≤ t.store v ∧ t.store v ≤ t.last := by
  cases t <;> simp only [IntType.first, IntType.last, IntType.store, Int.bmod_def] <;>
    omega

variable {t : IntType} {v w w' : Value}

theorem IntType.store_eq_self {v : Int} : t.store v = v ↔ t.first ≤ v ∧ v ≤ t.last := by
  refine ⟨fun h => h ▸ t.store_range v, fun h => ?_⟩
  revert h
  cases t <;> simp only [IntType.first, IntType.last, IntType.store, Int.bmod_def] <;>
    omega

/-! ## types -/

inductive OrdinalBase where
  | int (t : IntType)
  /-- `hasMeta`: the values carry the number of members -/
  | enum (name : String) (members : Nat) (hasMeta : Bool)

def Value.ordinal : Value → Int
  | .scalar _ v => v
  | .enum _ ordinal => ordinal
  | _ => 0

namespace OrdinalBase

def first : OrdinalBase → Int
  | .int t => t.first
  | .enum _ _ _ => 0

def last : OrdinalBase → Int
  | .int t => t.last
  | .enum _ members _ => members - 1

def edge (down : Bool) (base : OrdinalBase) : Int := if down then base.first else base.last

/-- the number of members is an `int` -/
def Counted : OrdinalBase → Prop
  | .int _ => True
  | .enum _ members _ => members < 2 ^ 31

def Holds : OrdinalBase → Value → Prop
  | .int t, .scalar s v => s = t ∧ t.store v = v
  | .enum name _ _, .enum name' _ => name' = name
  | _, _ => False

/-- A value of the type, or of an int-like type: the cast of an integer to an enum emits no
conversion. -/
def Admits : OrdinalBase → Value → Prop
  | .int _, .scalar t v => t.store v = v
  | .enum _ _ _, .scalar t v => t.isIntegerFamilyType = true ∧ t.store v = v
  | .enum name members _, .enum name' ordinal => name' = name ∧ 0 ≤ ordinal ∧ ordinal < members
  | _, _ => False

def Comparable : OrdinalBase → Value → Prop
  | .int _, .scalar t v => t.store v = v
  | .enum name _ _, .enum name' _ => name' = name
  | _, _ => False

/-- the store into the variable (`none`: a runtime error, or a value that `Admits` leaves out) -/
def store : OrdinalBase → Value → Option Value
  | .int t, .scalar _ v => some (.scalar t (t.store v))
  | .enum name members hasMeta, .scalar t v =>
    let ordinal := (Scalar.ofInt t v).asI64
    if t.isIntegerFamilyType = false then none
    else if hasMeta = true ∧ (ordinal < 0 ∨ ordinal ≥ members) then none
    else if hasMeta = false ∧ (ordinal < -2 ^ 31 ∨ ordinal > 2 ^ 31 - 1) then none
    else some (.enum name ordinal)
  | .enum _ _ _, .enum name ordinal => some (.enum name ordinal)
  | _, _ => none

/-- `ADD` or `SUBTRACT` of a value of the variable and the constant `1` -/
def next (down : Bool) : OrdinalBase → Value → Option Value
  | .int _, .scalar t v =>
    match binaryOp (if down then .subtract else .add) (Scalar.ofInt t v) (makeInt 1) with
    | .ok r => some (.scalar r.type r.value)
    | .error _ => none
  | .enum _ members hasMeta, .enum name ordinal =>
    let ordinal := if down then ordinal - 1 else ordinal + 1
    if hasMeta = true ∧ (ordinal < 0 ∨ ordinal ≥ members) then none
    else some (.enum name ordinal)
  | _, _ => none

end OrdinalBase

def onward (down : Bool) : Int := if down then -1 else 1

/-! ## numbers -/

theorem ofInt_value {v : Int} (h : t.store v = v) : (Scalar.ofInt t v).value = v := h

theorem int_range (hv : (OrdinalBase.int t).Holds v) :
    (OrdinalBase.int t).first ≤ v.ordinal ∧ v.ordinal ≤ (OrdinalBase.int t).last := by
  cases v <;> try exact hv.elim
  exact IntType.store_eq_self.mp hv.2

variable {base : OrdinalBase}

theorem compare_ordinal {b : Value} (ext : Externals) (o : OpCode)
    (ho : o = .less ∨ o = .lessEqual ∨ o = .greater ∨ o = .greaterEqual) (hv : base.Holds v)
    (hb : base.Comparable b) :
    vmCompare ext o v b = some (compareResult o (threeWay v.ordinal b.ordinal)) := by
  cases base with
  | int t =>
    cases v <;> try exact hv.elim
    cases b <;> try exact hb.elim
    obtain ⟨rfl, hv⟩ := hv
    show some (compareResult o (vmCompareIntlike _ _)) = _
    rw [vmCompareIntlike_eq, ofInt_value hv, ofInt_value hb]
    rfl
  | enum name members hasMeta =>
    cases v <;> try exact hv.elim
    cases b <;> try exact hb.elim
    have hnames := Eq.trans hv hb.symm
    show compareEnums o _ _ _ _ = _
    rcases ho with rfl | rfl | rfl | rfl <;> exact if_pos hnames

theorem compare_none {b : Value} (ext : Externals) (o : OpCode) (hv : base.Holds v)
    (hb : base.Admits b) (hnot : ¬base.Comparable b) : vmCompare ext o v b = none := by
  cases base with
  | int t =>
    cases b <;> try exact hb.elim
    exact absurd hb hnot
  | enum name members hasMeta =>
    cases v <;> try exact hv.elim
    cases b <;> try exact hb.elim
    · rfl
    · exact absurd hb.1 hnot

theorem store_holds {v' : Value} (hv : base.Admits v) (h : base.store v = some v') :
    base.Holds v' := by
  cases base with
  | int t =>
    cases v <;> try exact hv.elim
    cases h
    exact ⟨rfl, t.store_store _⟩
  | enum name members hasMeta =>
    cases v with
    | scalar t x =>
      simp only [OrdinalBase.store] at h
      split_ifs at h
      cases h
      exact rfl
    | enum name' o =>
      cases h
      exact hv.1
    | _ => exact hv.elim

theorem store_ordinal (hbase : base.Counted) {v' : Value} (hv : base.Admits v)
    (h : base.store v = some v') (hmin : base.first ≤ v.ordinal) (hmax : v.ordinal ≤ base.last) :
    v'.ordinal = v.ordinal := by
  cases base with
  | int t =>
    cases v <;> try exact hv.elim
    cases h
    exact IntType.store_eq_self.mpr ⟨hmin, hmax⟩
  | enum name members hasMeta =>
    cases v with
    | scalar t x =>
      simp only [OrdinalBase.store] at h
      split_ifs at h
      cases h
      show (Scalar.ofInt t x).asI64 = x
      have hsmall : members < 2 ^ 31 := hbase
      have hvalue : (Scalar.ofInt t x).value = x := ofInt_value hv.2
      have hlast : x ≤ members - 1 := hmax
      have hfirst : 0 ≤ x := hmin
      rw [Scalar.asI64_bmod, hvalue]
      exact bmod_of_range (by omega) (by omega)
    | enum name' o =>
      cases h
      rfl
    | _ => exact hv.elim

theorem store_some (hbase : base.Counted) (hv : base.Admits v) (hmin : base.first ≤ v.ordinal)
    (hmax : v.ordinal ≤ base.last) : ∃ v', base.store v = some v' := by
  cases base with
  | int t =>
    cases v <;> try exact hv.elim
    exact ⟨_, rfl⟩
  | enum name members hasMeta =>
    cases v with
    | scalar t x =>
      have hsmall : members < 2 ^ 31 := hbase
      have hlast : x ≤ members - 1 := hmax
      have hfirst : 0 ≤ x := hmin
      have hvalue : (Scalar.ofInt t x).value = x := ofInt_value hv.2
      have hasI64 : (Scalar.ofInt t x).asI64 = x := by
        rw [Scalar.asI64_bmod, hvalue]
        exact bmod_of_range (by omega) (by omega)
      refine ⟨.enum name x, ?_⟩
      simp only [OrdinalBase.store, hasI64]
      rw [if_neg (by rw [hv.1]; exact Bool.noConfusion), if_neg (fun h => by omega),
        if_neg (fun h => by omega)]
    | enum name' o => exact ⟨_, rfl⟩
    | _ => exact hv.elim

/-! ## one further -/

def stepOp (down : Bool) : ArithOp := if down then .subtract else .add

theorem stepOp_apply (down : Bool) (x : Int) : (stepOp down).apply x 1 = x + onward down := by
  cases down with
  | false => rfl
  | true => exact (Int.add_neg_eq_sub).symm

theorem binaryOp_one (op : ArithOp) (a : Scalar) :
    binaryOp op a (makeInt 1) = deliver a (makeInt 1) (op.apply a.value 1) := by
  by_cases h : a.type = .uint64
  · exact binaryOp_eq ⟨a, by rw [h]; rfl⟩ ⟨makeInt 1, rfl⟩ op
  · have hwide : ¬(a.type = .uint64 ∨ (makeInt 1).type = .uint64) := by
      rintro (h' | h')
      · exact h h'
      · cases h'
    rw [binaryOp, deliver, if_neg hwide, if_neg hwide, Scalar.asI64_value h]
    by_cases hfast : op = .add ∧ a.type = .int32 ∧ (makeInt 1).type = .int32
    · obtain ⟨hmin, hmax⟩ := a.range.2 h
      have hval : a.valInt = a.value := bmod_of_range hmin hmax
      rw [if_pos hfast, pscalIntResultLike2_int32 hfast.2.1 hfast.2.2, hfast.1, hval]
      rfl
    · rw [if_neg hfast]
      rfl

theorem IntType.store_add (t : IntType) (v k : Int) (h : t ≠ .boolean) :
    t.store (v + 2 ^ 64 * k) = t.store v := by
  cases t <;> simp only [IntType.store, Int.bmod_def] <;> first | exact absurd rfl h | omega

theorem stepOp_answers {x : Int} (down : Bool) (hx : t.store x = x) :
    Answers (t = .uint64 ∨ IntType.int32 = .uint64) (x + onward down)
      (binaryOp (stepOp down) (Scalar.ofInt t x) (makeInt 1)) := by
  have hanswer := answers_deliver (Scalar.ofInt t x) (makeInt 1)
    ((stepOp down).apply (Scalar.ofInt t x).value 1)
  rw [← binaryOp_one, ofInt_value hx, stepOp_apply] at hanswer
  exact hanswer

theorem next_int {down : Bool} {x : Int} (hx : t.store x = x)
    (hnext : (OrdinalBase.int t).next down (.scalar t x) = some w)
    (hstore : (OrdinalBase.int t).store w = some w') :
    w' = .scalar t (t.store (x + onward down)) := by
  have hanswer := stepOp_answers down hx
  simp only [OrdinalBase.next] at hnext
  rw [← stepOp] at hnext
  split at hnext
  case h_2 => cases hnext
  case h_1 r hr =>
    cases hnext
    cases hstore
    rw [hr] at hanswer
    obtain ⟨k, hvalue, hk⟩ := hanswer.pushed
    have hkeep : t.store r.value = t.store (x + onward down) := by
      by_cases hbool : t = .boolean
      · have hwide : ¬(t = .uint64 ∨ IntType.int32 = .uint64) := by
          rw [hbool]
          exact fun h => h.elim (fun h => by cases h) (fun h => by cases h)
        rw [hvalue, hk (.inl hwide), Int.mul_zero, Int.add_zero]
      · rw [hvalue, IntType.store_add t _ _ hbool]
    rw [hkeep]

theorem IntType.fits {v : Int} (h : t.store v = v) :
    Fits (t = .uint64 ∨ IntType.int32 = .uint64) v := by
  have hrange : (t = .uint64 → 0 ≤ v ∧ v < 2 ^ 64) ∧ (t ≠ .uint64 → -2 ^ 63 ≤ v ∧ v < 2 ^ 63) :=
    (Scalar.mk t v h).range
  obtain ⟨hmin, hmax⟩ := hrange
  by_cases htype : t = .uint64
  · obtain ⟨hlo, hhi⟩ := hmin htype
    exact ⟨by omega, .inr ⟨.inl htype, hhi⟩⟩
  · obtain ⟨hlo, hhi⟩ := hmax htype
    exact ⟨hlo, .inl hhi⟩

theorem next_inside {down : Bool} (hv : base.Holds v) (hmin : base.first ≤ v.ordinal + onward down)
    (hmax : v.ordinal + onward down ≤ base.last) :
    ∃ w w', base.next down v = some w ∧ base.store w = some w' ∧ base.Holds w' ∧
      w'.ordinal = v.ordinal + onward down := by
  cases base with
  | int t =>
    cases v <;> try exact hv.elim
    case scalar t' x =>
    obtain ⟨rfl, hx⟩ := hv
    have hanswer := stepOp_answers down hx
    have hkeep := IntType.store_eq_self.mpr ⟨hmin, hmax⟩
    cases hr : binaryOp (stepOp down) (Scalar.ofInt t' x) (makeInt 1) with
    | ok r =>
      have hnext : (OrdinalBase.int t').next down (.scalar t' x) = some (.scalar r.type r.value) := by
        simp only [OrdinalBase.next]
        rw [← stepOp, hr]
      have hstored := next_int hx hnext rfl
      refine ⟨_, _, hnext, rfl, ?_⟩
      rw [hstored]
      exact ⟨⟨rfl, t'.store_store _⟩, hkeep⟩
    | error e =>
      rw [hr] at hanswer
      cases hanswer with
      | overflow hfits => exact absurd (IntType.fits hkeep) hfits
  | enum name members hasMeta =>
    cases v <;> try exact hv.elim
    case enum name' o =>
    have hordinal : (if down then o - 1 else o + 1) = o + onward down := by
      cases down <;> rfl
    have hfirst : 0 ≤ o + onward down := hmin
    have hlast : o + onward down ≤ members - 1 := hmax
    refine ⟨.enum name' (o + onward down), _, ?_, rfl, hv, rfl⟩
    simp only [OrdinalBase.next, hordinal]
    rw [if_neg]
    rintro ⟨-, h | h⟩ <;> omega

theorem next_holds {down : Bool} (hv : base.Holds v) (hnext : base.next down v = some w)
    (hstore : base.store w = some w') : base.Holds w' := by
  cases base with
  | int t =>
    cases v <;> try exact hv.elim
    obtain ⟨rfl, hx⟩ := hv
    rw [next_int hx hnext hstore]
    exact ⟨rfl, IntType.store_store _ _⟩
  | enum name members hasMeta =>
    cases v <;> try exact hv.elim
    simp only [OrdinalBase.next] at hnext
    split_ifs at hnext <;> (cases hnext; cases hstore; exact hv)

theorem next_ne {down : Bool} (hv : base.Holds v) (hbool : base ≠ .int .boolean)
    (hnext : base.next down v = some w) (hstore : base.store w = some w') :
    w'.ordinal ≠ v.ordinal := by
  cases base with
  | int t =>
    cases v <;> try exact hv.elim
    case scalar t' x =>
    obtain ⟨rfl, hx⟩ := hv
    rw [next_int hx hnext hstore]
    show t'.store (x + onward down) ≠ x
    revert hx
    cases t' <;> cases down <;> simp only [IntType.store, Int.bmod_def, onward] <;>
      first
      | exact absurd rfl hbool
      | (intro hx; simp only [Bool.false_eq_true, if_false, if_true]; omega)
  | enum name members hasMeta =>
    cases v <;> try exact hv.elim
    simp only [OrdinalBase.next] at hnext
    split_ifs at hnext <;> (cases hnext; cases hstore; simp only [Value.ordinal, ne_eq, *]; omega)

end Pscal
