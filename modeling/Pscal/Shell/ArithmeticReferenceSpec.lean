import Pscal.Shell.ArithmeticReference
import Pscal.Shell.ArithmeticReading
import Pscal.Shell.ArithmeticSuccess

/-!
# Arithmetic of the shell is C's

* `applyBinary_reference`, `UnaryOp.apply_reference`  the operators are the exact ones, wrapped;
* `AgreesIf`  a computation has the values of another one, on a condition;
* `eval_reference`, `text_reference` a tree and a text have their reference values, where the sides
  that they skip are quiet;
* `read_stored`  what is stored is read back;
* `shellArithmetic_reference`  the whole.
-/

namespace Pscal.Shell

open List
open Wire (Bytes)
open DecimalText (isDigit)

/-! ## words -/

theorem wrap_toInt (x : Word) : wrap x.toInt = x := BitVec.ofInt_toInt

theorem wrap_add (a b : Word) : wrap (a.toInt + b.toInt) = a + b := by
  rw [wrap, BitVec.ofInt_add, BitVec.ofInt_toInt, BitVec.ofInt_toInt]

theorem wrap_neg (a : Word) : wrap (-a.toInt) = 0 - a := by
  rw [wrap, BitVec.ofInt_neg, BitVec.ofInt_toInt]
  exact (zero_sub a).symm

theorem wrap_sub (a b : Word) : wrap (a.toInt - b.toInt) = a - b := by
  rw [sub_eq_add_neg, wrap, BitVec.ofInt_add, BitVec.ofInt_neg, BitVec.ofInt_toInt,
    BitVec.ofInt_toInt, ← sub_eq_add_neg]

theorem wrap_mul (a b : Word) : wrap (a.toInt * b.toInt) = a * b := by
  rw [wrap, BitVec.ofInt_mul, BitVec.ofInt_toInt, BitVec.ofInt_toInt]

theorem wrap_pow (a : Word) (n : Nat) : wrap (a.toInt ^ n) = a ^ n := by
  induction n with
  | zero =>
    rw [pow_zero, pow_zero]
    rfl
  | succ n ih =>
    rw [pow_succ, wrap, BitVec.ofInt_mul, BitVec.ofInt_toInt, pow_succ]
    exact congrArg (· * a) ih

theorem powerLoop_eq (rounds : Nat) {exponent : Nat} (h : exponent < 2 ^ rounds)
    (result base : Word) : powerLoop rounds result base exponent = result * base ^ exponent := by
  induction rounds generalizing exponent result base with
  | zero =>
    obtain rfl : exponent = 0 := by omega
    rw [powerLoop, pow_zero, mul_one]
  | succ rounds ih =>
    rw [powerLoop]
    by_cases hzero : exponent = 0
    · rw [if_pos hzero, hzero, pow_zero, mul_one]
    · rw [if_neg hzero, ih (by rw [pow_succ] at h; omega)]
      have hsquare : (base * base) ^ (exponent / 2) = base ^ (2 * (exponent / 2)) := by
        rw [pow_mul, pow_two]
      have hsplit := Nat.div_add_mod exponent 2
      rw [hsquare]
      by_cases hodd : exponent % 2 = 1
      · rw [if_pos hodd, mul_assoc, ← pow_succ', ← hodd, hsplit]
      · have heven : exponent % 2 = 0 := by omega
        rw [heven, Nat.add_zero] at hsplit
        rw [if_neg hodd, hsplit]

theorem shiftCount_eq (b : Word) : (b &&& 63).toNat = (b.toInt % 64).toNat := by
  have hand : (b &&& 63).toNat = b.toNat % 64 := by
    rw [BitVec.toNat_and]
    exact Nat.and_two_pow_sub_one_eq_mod b.toNat 6
  rw [hand, BitVec.toInt_eq_toNat_cond]
  split <;> omega

theorem wrap_shiftLeft (a : Word) (n : Nat) : wrap (a.toInt * 2 ^ n) = a <<< n := by
  refine BitVec.eq_of_toInt_eq ?_
  rw [wrap, BitVec.toInt_ofInt, BitVec.toInt_shiftLeft, BitVec.toInt_eq_toNat_bmod,
    Int.bmod_mul_bmod, Nat.shiftLeft_eq]
  push_cast
  rfl

theorem wrap_shiftRight (a : Word) (n : Nat) : wrap (a.toInt / 2 ^ n) = a.sshiftRight n := by
  have hdiv : a.toInt / 2 ^ n = (a.sshiftRight n).toInt := by
    rw [BitVec.toInt_sshiftRight, Int.shiftRight_eq_div_pow]
    rfl
  rw [hdiv, wrap_toInt]

theorem wrap_tdiv (a b : Word) : wrap (a.toInt.tdiv b.toInt) = a.sdiv b := by
  refine BitVec.eq_of_toInt_eq ?_
  rw [wrap, BitVec.toInt_ofInt, BitVec.toInt_sdiv]

theorem wrap_tmod (a b : Word) : wrap (a.toInt.tmod b.toInt) = a.srem b := by
  rw [← BitVec.toInt_srem, wrap_toInt]

theorem toInt_eq_zero {b : Word} : b.toInt = 0 ↔ b = 0 := by
  rw [← BitVec.toInt_zero (w := 64), BitVec.toInt_inj]
  rfl

/-! ## operators -/

theorem divide_reference (a b : Word) :
    (if b = -1 then 0 - a else a.sdiv b) = wrap (a.toInt.tdiv b.toInt) := by
  rw [wrap_tdiv]
  split
  · next h =>
    refine BitVec.eq_of_toInt_eq ?_
    have hone : (-1 : Word).toInt = -1 := rfl
    rw [h, BitVec.toInt_sdiv, hone, Int.tdiv_neg, Int.tdiv_one, zero_sub, BitVec.toInt_neg]
  · rfl

theorem modulo_reference (a b : Word) :
    (if b = -1 then 0 else a.srem b) = wrap (a.toInt.tmod b.toInt) := by
  split
  · next h =>
    have hone : b.toInt = -1 := by rw [h]; rfl
    rw [hone, Int.tmod_neg, Int.tmod_one]
    rfl
  · exact (wrap_tmod a b).symm

theorem applyBinary_reference (op : ArithmeticOp) (a b v : Word) :
    applyBinary 0 op a b = .ok v ↔ op.reference a b = some v := by
  have hok : ∀ {x y : Word}, x = y →
      ((Except.ok x : Except String Word) = .ok v ↔ some y = some v) := by
    rintro x y rfl
    exact ⟨fun h => congrArg some (Except.ok.inj h), fun h => congrArg _ (Option.some.inj h)⟩
  cases op with
  | add => exact hok (wrap_add a b).symm
  | subtract => exact hok (wrap_sub a b).symm
  | multiply => exact hok (wrap_mul a b).symm
  | bitAnd => exact hok rfl
  | bitOr => exact hok rfl
  | bitXor => exact hok rfl
  | shiftLeft =>
    refine hok ?_
    rw [wrap_shiftLeft, shiftCount_eq]
  | shiftRight =>
    refine hok ?_
    rw [wrap_shiftRight, shiftCount_eq]
  | less => exact hok rfl
  | lessEqual => exact hok rfl
  | greater => exact hok rfl
  | greaterEqual => exact hok rfl
  | equal =>
    refine hok (congrArg truth (decide_eq_decide.mpr ?_))
    exact BitVec.toInt_inj.symm
  | notEqual =>
    refine hok (congrArg truth (decide_eq_decide.mpr ?_))
    exact not_congr BitVec.toInt_inj.symm
  | logicalOr =>
    refine hok (congrArg truth ?_)
    simp only [ne_eq, toInt_eq_zero]
  | logicalAnd =>
    refine hok (congrArg truth ?_)
    simp only [ne_eq, toInt_eq_zero]
  | power =>
    show (if b.slt 0 then Except.error _ else Except.ok _) = _ ↔
      (if b.toInt < 0 then none else some _) = _
    by_cases hneg : b.toInt < 0
    · have hslt : b.slt 0 = true := decide_eq_true hneg
      rw [if_pos hneg, if_pos hslt]
      exact ⟨nofun, nofun⟩
    · have hslt : ¬ b.slt 0 = true := fun h => hneg (of_decide_eq_true h)
      rw [if_neg hneg, if_neg hslt]
      refine hok ?_
      have hnat : b.toInt.toNat = b.toNat := by
        rw [BitVec.toInt_eq_toNat_cond] at hneg ⊢
        split at hneg
        · next h => rw [if_pos h, Int.toNat_natCast]
        · have := b.isLt
          omega
      rw [wrap_pow, hnat, powerLoop_eq 64 b.isLt, one_mul]
  | divide =>
    show (if b = 0 then Except.error _ else if b = -1 then Except.ok _ else Except.ok _) = _ ↔
      (if b.toInt = 0 then none else some _) = _
    by_cases hzero : b = 0
    · rw [if_pos hzero, if_pos (toInt_eq_zero.mpr hzero)]
      exact ⟨nofun, nofun⟩
    · rw [if_neg hzero, if_neg fun h => hzero (toInt_eq_zero.mp h), ← apply_ite Except.ok]
      exact hok (divide_reference a b)
  | modulo =>
    show (if b = 0 then Except.error _ else if b = -1 then Except.ok _ else Except.ok _) = _ ↔
      (if b.toInt = 0 then none else some _) = _
    by_cases hzero : b = 0
    · rw [if_pos hzero, if_pos (toInt_eq_zero.mpr hzero)]
      exact ⟨nofun, nofun⟩
    · rw [if_neg hzero, if_neg fun h => hzero (toInt_eq_zero.mp h), ← apply_ite Except.ok]
      exact hok (modulo_reference a b)

theorem UnaryOp.apply_reference (op : UnaryOp) (v : Word) : op.apply v = op.reference v := by
  cases op with
  | plus => rfl
  | minus => exact (wrap_neg v).symm
  | logicalNot =>
    refine congrArg truth (decide_eq_decide.mpr ?_)
    exact toInt_eq_zero.symm
  | complement =>
    have hone : BitVec.ofInt 64 (-1) = -1 := by decide
    show ~~~v = wrap (-v.toInt - 1)
    rw [sub_eq_add_neg, wrap, BitVec.ofInt_add, BitVec.ofInt_neg, BitVec.ofInt_toInt, hone,
      BitVec.neg_eq_not_add]
    exact (add_neg_cancel_right _ (1 : Word)).symm

theorem stepValue_reference {σ : Type} (world : ArithmeticWorld σ) {increment : Bool} {v : Word}
    (h : StepFits increment v) : stepValue world increment v = stepReference increment v := by
  rw [StepFits] at h
  simp only [stepValue]
  rw [h]
  cases increment with
  | true =>
    rw [stepReference, wrap]
    show v + 1 = BitVec.ofInt 64 (v.toInt + 1)
    rw [BitVec.ofInt_add, BitVec.ofInt_toInt]
    rfl
  | false =>
    rw [stepReference, wrap]
    show v + -1 = BitVec.ofInt 64 (v.toInt - 1)
    rw [sub_eq_add_neg, BitVec.ofInt_add, BitVec.ofInt_toInt]
    rfl

/-! ## computations with the same values -/

section
variable {σ α β : Type}

/-- `x` has the values of `y` where `Q` holds, and no others -/
def AgreesIf (x y : Evaluation σ α) (s : σ) (Q : Prop) : Prop :=
  ∀ a s', x.run s = (some a, s') ↔ y.run s = (some a, s') ∧ Q

theorem AgreesIf.refl (x : Evaluation σ α) (s : σ) : AgreesIf x x s True :=
  fun _ _ => (and_iff_left trivial).symm

variable {Q : Prop} {s : σ} {x y : Evaluation σ α} {f : α → Evaluation σ β}

theorem AgreesIf.congr_run {R : Prop} (h : AgreesIf x y s Q)
    (hiff : ∀ a s', y.run s = (some a, s') → (Q ↔ R)) : AgreesIf x y s R :=
  fun a s' => (h a s').trans (and_congr_right fun hy => hiff a s' hy)

theorem AgreesIf.congr {R : Prop} (h : AgreesIf x y s Q) (hiff : Q ↔ R) : AgreesIf x y s R :=
  h.congr_run fun _ _ _ => hiff

theorem AgreesIf.bind {g : α → Evaluation σ β} {R : α → σ → Prop} (h : AgreesIf x y s Q)
    (hf : ∀ a s', y.run s = (some a, s') → AgreesIf (f a) (g a) s' (R a s')) :
    AgreesIf (x >>= f) (y >>= g) s (Q ∧ Behind y s R) := by
  intro b s'
  rw [run_bind_some, run_bind_some]
  constructor
  · rintro ⟨a, s₁, hx, hfa⟩
    obtain ⟨hy, hQ⟩ := (h a s₁).mp hx
    obtain ⟨hga, hR⟩ := (hf a s₁ hy b s').mp hfa
    refine ⟨⟨a, s₁, hy, hga⟩, hQ, fun a' s₂ hy' => ?_⟩
    rw [hy] at hy'
    cases hy'
    exact hR
  · rintro ⟨⟨a, s₁, hy, hga⟩, hQ, hR⟩
    exact ⟨a, s₁, (h a s₁).mpr ⟨hy, hQ⟩, (hf a s₁ hy b s').mpr ⟨hga, hR a s₁ hy⟩⟩

theorem AgreesIf.then (h : AgreesIf x y s Q) : AgreesIf (x >>= f) (y >>= f) s Q :=
  (h.bind (R := fun _ _ => True) fun a s' _ => .refl (f a) s').congr
    (and_iff_left fun _ _ _ => trivial)

theorem AgreesIf.behind {g : α → Evaluation σ β} {R : α → σ → Prop}
    (hf : ∀ a s', x.run s = (some a, s') → AgreesIf (f a) (g a) s' (R a s')) :
    AgreesIf (x >>= f) (x >>= g) s (Behind x s R) :=
  ((AgreesIf.refl x s).bind hf).congr (iff_of_eq (true_and _))

theorem run_orNone {x : Option α} {a : α} {s' : σ} :
    (orNone x : Evaluation σ α).run s = (some a, s') ↔ x = some a ∧ s = s' := by
  cases x with
  | none => exact ⟨fun h => (nomatch congrArg Prod.fst h), fun h => (nomatch h.1)⟩
  | some b =>
    rw [orNone, run_pure]
    exact and_congr_left fun _ => ⟨congrArg some, Option.some.inj⟩

end

/-! ## variables -/

section
variable {σ : Type} {world : ArithmeticWorld σ} {label : String}

theorem operator_reference (op : ArithmeticOp) (a b : Word) (s : σ) :
    AgreesIf (orFail world label (applyBinary 0 op a b)) (orNone (op.reference a b)) s True := by
  intro v s'
  rw [run_orFail, run_orNone, applyBinary_reference, and_iff_left trivial]

theorem compound_reference (op : CompoundOp) (a b : Word) (s : σ) :
    AgreesIf (orFail world label (shellArithmeticApply 0 op.op a b))
      (orNone (op.op.reference a b)) s True := by
  have hsame : shellArithmeticApply 0 op.op a b = applyBinary 0 op.op a b := by cases op <;> rfl
  rw [hsame]
  exact operator_reference op.op a b s

theorem store_reference (lvalue : ShellArithmeticLvalue) (value : Word) (s : σ) :
    AgreesIf (shellArithmeticStoreVariable world label 0 lvalue value)
      (storeReference world lvalue value) s True := by
  have hstored : ∀ (stored : Bool) (s : σ),
      AgreesIf (if stored then pure () else do
          liftM (world.report (.isReadonly lvalue.name))
          failure : Evaluation σ Unit) (if stored then pure () else failure) s True := by
    intro stored s
    cases stored with
    | true => exact .refl _ s
    | false =>
      refine fun a s' => ⟨fun h => ?_, fun h => ?_⟩
      · exact nomatch congrArg Prod.fst h
      · exact nomatch congrArg Prod.fst h.1
  have hbehind : ∀ (x : StateM σ Bool) (s : σ),
      AgreesIf (do
        let stored ← liftM x
        if stored then pure () else do
          liftM (world.report (.isReadonly lvalue.name))
          failure : Evaluation σ Unit) (do
        let stored ← liftM x
        if stored then pure () else failure) s True := fun x s =>
    (AgreesIf.behind fun stored s' _ => hstored stored s').congr
      (iff_of_true (fun _ _ _ => trivial) trivial)
  obtain ⟨name, subscript⟩ := lvalue
  cases subscript with
  | none =>
    rw [shellArithmeticStoreVariable, if_neg (Nat.lt_irrefl 0), storeReference]
    simp only [lvalueKey, pure_bind]
    exact hbehind _ s
  | some subscript =>
    rw [shellArithmeticStoreVariable, if_neg (Nat.lt_irrefl 0), storeReference]
    simp only [lvalueKey, bind_assoc]
    refine (AgreesIf.behind (R := fun _ _ => True) fun key s' _ => ?_).congr
      (iff_of_true (fun _ _ _ => trivial) trivial)
    rcases key with _ | _ | key
    · exact .refl _ s'
    · rw [fail_bind]
      exact fun a s'' => ⟨fun h => (run_fail h).elim, fun h => (nomatch congrArg Prod.fst h.1)⟩
    · exact hbehind _ s'

variable (world label) in
/-- the text that a variable holds, evaluated one level deeper -/
def codeText (evaluate : Option (Bytes → Evaluation σ Word)) (text : Bytes) : Evaluation σ Word :=
  match evaluate with
  | none => shellArithmeticFail world label "expression recursion level exceeded"
  | some evaluate => evaluate text

variable (world label) in
/-- the texts of variables have their reference values, where the run is quiet -/
def TextsAgree (evaluate : Option (Bytes → Evaluation σ Word)) (texts : Bytes → Evaluation σ Word)
    (steady quiet : Bytes → σ → Prop) : Prop :=
  ∀ text s, steady text s →
    AgreesIf (codeText world label evaluate text) (texts text) s (quiet text s)

theorem AgreesIf.skip {α : Type} {evaluate : Option (Bytes → Evaluation σ Word)}
    {side : ArithmeticTree} {f : Word → Evaluation σ α} {y : Evaluation σ α} {s : σ} {Q : Prop}
    (h : AgreesIf (f side.placeholder) y s Q) :
    AgreesIf (side.eval world label evaluate 1 >>= f) y s (side.Quiet ∧ Q) := by
  by_cases hquiet : side.Quiet
  · rw [untaken_eval hquiet, pure_bind]
    exact h.congr (and_iff_right hquiet).symm
  · rw [untaken_fails hquiet, fail_bind]
    exact fun a s' => ⟨fun hrun => (run_fail hrun).elim, fun hrun => absurd hrun.2.1 hquiet⟩

/-! ## trees -/

section
variable {evaluate : Option (Bytes → Evaluation σ Word)} {texts : Bytes → Evaluation σ Word}
  {steady quiet : Bytes → σ → Prop} (hagree : TextsAgree world label evaluate texts steady quiet)

theorem readVariable_taken (lvalue : ShellArithmeticLvalue) :
    shellArithmeticReadVariable world label evaluate 0 lvalue =
      lvalueText world lvalue >>= fun text =>
        match text with
        | none => pure 0
        | some text => codeText world label evaluate text :=
  if_neg (Nat.lt_irrefl 0)

include hagree

variable {s : σ}

theorem read_reference {lvalue : ShellArithmeticLvalue} (hsteady : ReadAlong world steady lvalue s)
    : AgreesIf (shellArithmeticReadVariable world label evaluate 0 lvalue)
      (readReference world texts lvalue) s (ReadAlong world quiet lvalue s) := by
  rw [readVariable_taken, readReference]
  refine .behind fun text s' htext => ?_
  cases text with
  | none => exact (AgreesIf.refl _ s').congr (iff_of_true trivial fun h => by simp)
  | some text =>
    refine (hagree text s' (hsteady _ _ htext text rfl)).congr
      ⟨fun h t ht => ?_, fun h => h text rfl⟩
    cases ht
    exact h

/-- the variable is read, and behind that it is stored -/
theorem step_reference {α : Type} {lvalue : ShellArithmeticLvalue} {increment : Bool}
    (f : Word → Word → Evaluation σ α) (hsteady : ReadAlong world steady lvalue s)
    (hfits : Behind (readReference world texts lvalue) s fun value _ => StepFits increment value) :
    AgreesIf (do
        let value ← shellArithmeticReadVariable world label evaluate 0 lvalue
        shellArithmeticStoreVariable world label 0 lvalue (stepValue world increment value)
        f value (stepValue world increment value))
      (do
        let value ← readReference world texts lvalue
        storeReference world lvalue (stepReference increment value)
        f value (stepReference increment value)) s
      (ReadAlong world quiet lvalue s ∧
        Behind (readReference world texts lvalue) s fun _ _ => True) := by
  refine (read_reference hagree hsteady).bind fun value s' hread => ?_
  rw [stepValue_reference world (hfits value s' hread)]
  exact (store_reference lvalue _ s').then

theorem eval_reference {tree : ArithmeticTree}
    (hsteady : tree.Along world texts StepFits (fun _ => True) steady s) :
    AgreesIf (tree.eval world label evaluate 0) (tree.reference world texts) s
      (tree.Along world texts (fun _ _ => True) ArithmeticTree.Quiet quiet s) := by
  induction tree generalizing s with
  | number value => exact .refl _ s
  | read lvalue => exact read_reference hagree hsteady
  | thenStep lvalue increment =>
    exact step_reference hagree (fun value _ => pure value) hsteady.1 hsteady.2
  | stepped increment lvalue =>
    exact step_reference hagree (fun _ value => pure value) hsteady.1 hsteady.2
  | unary op operand ih =>
    refine ((ih hsteady).bind (R := fun _ _ => True) fun value s' _ => ?_).congr
      (and_iff_left fun _ _ _ => trivial)
    rw [op.apply_reference]
    exact .refl _ s'
  | binary op lhs rhs ihl ihr =>
    refine (ihl hsteady.1).bind fun left s' hleft => ?_
    have hright := hsteady.2 left s' hleft
    by_cases hskips : skips op left = true
    · simp only [hskips, if_true]
      refine (AgreesIf.skip (Q := True) ?_).congr (and_iff_left trivial)
      have hvalue : applyBinary 0 op left rhs.placeholder = .ok (truth (op = .logicalOr)) := by
        cases op with
        | logicalOr =>
          have hleft : left ≠ 0 := by simpa [skips] using hskips
          show Except.ok (truth (decide (left ≠ 0) || _)) = _
          rw [decide_eq_true hleft, Bool.true_or]
          rfl
        | logicalAnd =>
          have hleft : ¬ left ≠ 0 := by simpa [skips] using hskips
          show Except.ok (truth (decide (left ≠ 0) && _)) = _
          rw [decide_eq_false hleft, Bool.false_and]
          rfl
        | _ => exact absurd hskips (by simp [skips])
      rw [hvalue]
      exact .refl _ s'
    · simp only [hskips] at hright ⊢
      refine ((ihr hright).bind (R := fun _ _ => True) fun right s'' _ => ?_).congr
        (and_iff_left fun _ _ _ => trivial)
      exact operator_reference op left right s''
  | conditional condition whenTrue whenFalse ihc iht ihf =>
    refine (ihc hsteady.1).bind fun test s' htest => ?_
    have hside := hsteady.2 test s' htest
    by_cases hzero : test = 0
    · simp only [hzero, ne_eq, not_true_eq_false, if_true, if_false] at hside ⊢
      refine .skip ?_
      rw [bind_pure]
      exact ihf hside.2
    · simp only [hzero, ne_eq, not_false_eq_true, if_true, if_false] at hside ⊢
      have hboth : AgreesIf (do
          let first ← whenTrue.eval world label evaluate 0
          let _ ← whenFalse.eval world label evaluate 1
          pure first) (whenTrue.reference world texts >>= pure) s' _ :=
        (iht hside.1).bind fun first s'' _ =>
          (AgreesIf.skip (AgreesIf.refl (pure first) s'')).congr (and_iff_left trivial)
      rw [bind_pure] at hboth
      exact hboth.congr_run fun first s'' hfirst =>
        and_congr_right fun _ => ⟨fun h => h first s'' hfirst, fun h _ _ _ => h⟩
  | assign lvalue op rhs ih =>
    cases op with
    | none =>
      refine ((ih hsteady).bind (R := fun _ _ => True) fun value s' _ => ?_).congr
        (and_iff_left fun _ _ _ => trivial)
      exact (store_reference lvalue value s').then
    | some op =>
      refine (ih hsteady.1).bind fun right s' hright => ?_
      refine ((read_reference hagree (hsteady.2 right s' hright)).bind (R := fun _ _ => True)
        fun current s'' _ => ?_).congr (and_iff_left fun _ _ _ => trivial)
      refine ((compound_reference op current right s'').bind (R := fun _ _ => True)
        fun value s₃ _ => ?_).congr (iff_of_true ⟨trivial, fun _ _ _ => trivial⟩ trivial)
      exact (store_reference lvalue value s₃).then
  | comma first second ihf ihs =>
    exact (ihf hsteady.1).bind fun _ s' hfirst => ihs (hsteady.2 _ s' hfirst)

end

end

/-! ## texts -/

section
variable {σ : Type} {world : ArithmeticWorld σ} {label : String}

def DeeperAlong (world : ArithmeticWorld σ) (atStep : Bool → Word → Prop)
    (atSkip : ArithmeticTree → Prop) : Nat → Bytes → σ → Prop
  | 0 => fun _ _ => True
  | left + 1 => AlongText world atStep atSkip left

variable {left : Nat} {text : Bytes}

theorem alongText_iff {atStep : Bool → Word → Prop} {atSkip : ArithmeticTree → Prop}
    {tree : ArithmeticTree} (h : InGrammar text tree) (s : σ) :
    AlongText world atStep atSkip left text s ↔
      tree.Along world (deeperReference world left) atStep atSkip
        (DeeperAlong world atStep atSkip left) s := by
  have hall : AlongText world atStep atSkip left text s ↔
      ∀ tree, InGrammar text tree → tree.Along world (deeperReference world left) atStep atSkip
        (DeeperAlong world atStep atSkip left) s := by
    cases left with
    | zero => exact Iff.rfl
    | succ left => exact Iff.rfl
  rw [hall]
  refine ⟨fun hall => hall tree h, fun hone tree' h' => ?_⟩
  rw [h'.unique h]
  exact hone

theorem referenceText_eq {tree : ArithmeticTree} (h : InGrammar text tree) (left : Nat) :
    referenceText world left text = tree.reference world (deeperReference world left) := by
  have hex : ∃ tree, InGrammar text tree := ⟨tree, h⟩
  have hchoose : hex.choose = tree := hex.choose_spec.unique h
  cases left with
  | zero => rw [referenceText, dif_pos hex, hchoose]; rfl
  | succ left => rw [referenceText, dif_pos hex, hchoose]; rfl

theorem referenceText_none (h : ¬ ∃ tree, InGrammar text tree) (left : Nat) :
    referenceText world left text = failure := by
  cases left with
  | zero => rw [referenceText, dif_neg h]
  | succ left => rw [referenceText, dif_neg h]

theorem text_agrees {s : σ}
    (hagree : TextsAgree world label (deeper world label shellIdentifiers left) (deeperReference
      world left) (DeeperAlong world StepFits (fun _ => True) left) (DeeperAlong world (fun _ _ =>
      True) ArithmeticTree.Quiet left)) (hsteady : Steady world left text s) :
    AgreesIf (shellArithmeticEvaluateText world label shellIdentifiers left text)
      (referenceText world left text) s (QuietRun world left text s) := by
  by_cases hex : ∃ tree, InGrammar text tree
  · obtain ⟨tree, htree⟩ := hex
    rw [shellArithmeticEvaluateText_eq world label left (arithmeticTree_iff.mpr htree),
      referenceText_eq htree]
    exact (eval_reference hagree ((alongText_iff htree s).mp hsteady)).congr
      (alongText_iff htree s).symm
  · rw [referenceText_none hex]
    refine fun v s' => ⟨fun h => ?_, fun h => (nomatch congrArg Prod.fst h.1)⟩
    obtain ⟨tree, htree, -⟩ := shellArithmeticEvaluateText_some.mp h
    exact absurd ⟨tree, arithmeticTree_iff.mp htree⟩ hex

theorem text_reference (world : ArithmeticWorld σ) (label : String) {s : σ}
    (hsteady : Steady world left text s) :
    AgreesIf (shellArithmeticEvaluateText world label shellIdentifiers left text)
      (referenceText world left text) s (QuietRun world left text s) := by
  induction left generalizing text s with
  | zero =>
    refine text_agrees (fun text s _ v s' => ?_) hsteady
    exact ⟨fun h => (run_fail h).elim, fun h => (nomatch congrArg Prod.fst h.1)⟩
  | succ left ih => exact text_agrees (fun text s hsteady => ih hsteady) hsteady

end

/-! ## what is stored is read back -/

theorem Derives.whole {s : Bytes} {tree : ArithmeticTree} (h : Derives .unary s tree []) :
    Derives .comma s tree [] :=
  .ofAssignment (.ofConditional (.ofBinary ((Derives.ofUnary h).looser (by omega) (Nat.le_refl _))))

theorem digitsTo_decimal (n : Nat) : DigitsTo 10 (DecimalText.decimal n) := by
  intro b hb
  have hdigit := DecimalText.isDigit_of_mem_decimal hb
  refine ⟨b.toNat - 48, ?_, by rw [shellArithmeticDigitValue, if_pos hdigit]⟩
  rw [isDigit, Bool.and_eq_true, decide_eq_true_eq, decide_eq_true_eq, UInt8.le_iff_toNat_le,
    UInt8.le_iff_toNat_le] at hdigit
  have hle : b.toNat ≤ 57 := hdigit.2
  omega

theorem digitsValue_decimal (n : Nat) : digitsValue 10 (DecimalText.decimal n) = n := by
  have hfold : ∀ (digits : Bytes), (∀ b ∈ digits, isDigit b = true) → ∀ m,
      digits.foldl (fun n b => n * 10 + digitOf 10 b) m =
        digits.foldl (fun n b => 10 * n + (b.toNat - 48)) m := by
    intro digits
    induction digits with
    | nil => exact fun _ _ => rfl
    | cons b digits ih =>
      intro h m
      have hb : digitOf 10 b = b.toNat - 48 := by
        rw [digitOf, shellArithmeticDigitValue, if_pos (h b mem_cons_self), Option.getD_some]
      rw [foldl_cons, foldl_cons, hb, Nat.mul_comm m]
      exact ih (fun b' hb' => h b' (mem_cons_of_mem _ hb')) _
  rw [digitsValue_eq, hfold _ fun b hb => DecimalText.isDigit_of_mem_decimal hb]
  exact DecimalText.value_decimal n

theorem constantAt_decimal (n : Nat) : ConstantAt (DecimalText.decimal n) n [] := by
  by_cases hzero : n = 0
  · subst hzero
    exact @ConstantAt.octal [] [] nofun nofun nofun
  · have h := @ConstantAt.decimal (DecimalText.decimal n) [] (DecimalText.decimal_ne_nil n)
      (DecimalText.head?_decimal (Nat.pos_of_ne_zero hzero)) (digitsTo_decimal n) nofun nofun
    rw [append_nil, digitsValue_decimal] at h
    exact h

theorem behindBlanks_decimal (n : Nat) :
    behindBlanks (DecimalText.decimal n) = DecimalText.decimal n := by
  cases hdigits : DecimalText.decimal n with
  | nil => exact absurd hdigits (DecimalText.decimal_ne_nil n)
  | cons b digits =>
    have hdigit : isDigit b = true := by
      refine DecimalText.isDigit_of_mem_decimal (n := n) ?_
      rw [hdigits]
      exact mem_cons_self
    refine dropWhile_cons_of_neg ?_
    rw [isspace_of_isDigit hdigit]
    exact Bool.false_ne_true

theorem not_steppedAt_minus (n : Nat) : ¬ SteppedAt (minusSign :: DecimalText.decimal n) := by
  rintro ⟨increment, s₁, lvalue, s', hs, -⟩
  have hminus : ∀ b ∈ DecimalText.decimal n, b ≠ 43 ∧ b ≠ 45 := by
    intro b hb
    have hdigit := DecimalText.isDigit_of_mem_decimal hb
    constructor <;> rintro rfl <;> exact absurd hdigit (by decide)
  cases increment with
  | true => exact absurd (cons.inj hs).1 (by decide)
  | false =>
    have htail : DecimalText.decimal n = 45 :: s₁ := (cons.inj hs).2
    refine (hminus 45 ?_).2 rfl
    rw [htail]
    exact mem_cons_self

theorem stored_inGrammar (v : Word) : ∃ tree, InGrammar (signedDecimal v.toInt) tree ∧
      ∀ {σ : Type} (world : ArithmeticWorld σ) (label : String)
        (evaluate : Option (Bytes → Evaluation σ Word)),
        tree.eval world label evaluate 0 = pure v := by
  rw [signedDecimal]
  by_cases hneg : v.toInt < 0
  · rw [if_pos hneg]
    have hnumber := Derives.ofPrimary (.number (constantAt_decimal v.toInt.natAbs))
    refine ⟨.unary .minus (.number (BitVec.ofNat 64 v.toInt.natAbs)), .expression ?_, ?_⟩
    · have hsign :
          Derives .unary (UnaryOp.minus.symbol :: DecimalText.decimal v.toInt.natAbs) _ _ :=
        .sign (not_steppedAt_minus _) (by rw [behindBlanks_decimal]; exact hnumber)
      exact Derives.whole hsign
    · intro σ world label evaluate
      have hvalue : 0 - BitVec.ofNat 64 v.toInt.natAbs = v := by
        have hcast : v.toInt = -(v.toInt.natAbs : Int) := by omega
        rw [← BitVec.ofInt_natCast, zero_sub, ← BitVec.ofInt_neg, ← hcast, BitVec.ofInt_toInt]
      rw [ArithmeticTree.eval, ArithmeticTree.eval, pure_bind]
      exact congrArg pure hvalue
  · rw [if_neg hneg]
    have hnumber := Derives.ofPrimary (.number (constantAt_decimal v.toInt.toNat))
    refine ⟨.number (BitVec.ofNat 64 v.toInt.toNat), .expression ?_, ?_⟩
    · rw [behindBlanks_decimal]
      exact Derives.whole hnumber
    · intro σ world label evaluate
      have hvalue : BitVec.ofNat 64 v.toInt.toNat = v := by
        rw [← BitVec.ofInt_natCast, Int.toNat_of_nonneg (Int.not_lt.mp hneg), BitVec.ofInt_toInt]
      rw [hvalue]
      rfl

/-! ## the whole -/

section
variable {σ : Type} (world : ArithmeticWorld σ) (label : String)

theorem read_stored (left : Nat) (v : Word) {lvalue : ShellArithmeticLvalue} {s s' : σ}
    (h : (lvalueText world lvalue).run s = (some (some (signedDecimal v.toInt)), s')) :
    (shellArithmeticReadVariable world label (deeper world label shellIdentifiers (left + 1)) 0
      lvalue).run s = (some v, s') := by
  obtain ⟨tree, htree, heval⟩ := stored_inGrammar v
  rw [shellArithmeticReadVariable, if_neg (Nat.lt_irrefl 0), run_bind_some]
  refine ⟨_, s', h, ?_⟩
  show (shellArithmeticEvaluateText world label shellIdentifiers left _).run s' = _
  rw [shellArithmeticEvaluateText_eq world label left (arithmeticTree_iff.mpr htree), heval]
  rfl

end

end Pscal.Shell
