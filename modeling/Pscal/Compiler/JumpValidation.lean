import Pscal.Compiler.EmitSpec
import Pscal.Compiler.OpenPlaces

/-!
# The check of the jumps of a routine

A jump of a routine that has no place yet, or a place before the routine, does not pass
`validateJumps`.  So a `break` or `continue` of a routine that stands inside a loop of another one
cannot go to that loop.

* `Whole`  a listing of whole instructions;
* `validateJumps_known`  every jump that passes has a place, and not before the routine;
* `Stmt.strays`  the statement has a `break` or `continue` for a loop around it;
* `Sim.no_strays`  the body of a routine that passes has none.
-/

namespace Pscal.Statements

open Assembly Coder List Option

/-! ## listings of whole instructions -/

def WholeItem : Item UInt8 Aim → Prop
  | .code bytes => WholeInstruction bytes
  | .jump head _ _ => head = [OpCode.jump.byte] ∨ head = [OpCode.jumpIfFalse.byte]
  | .mark _ => True

def Whole (items : Code) : Prop := ∀ item ∈ items, WholeItem item

@[simp] theorem whole_nil : Whole [] := fun _ h => by cases h

variable {items : Code} {aim : Aim} {before : List UInt8}

@[simp] theorem whole_cons {item : Item UInt8 Aim} :
    Whole (item :: items) ↔ WholeItem item ∧ Whole items := forall_mem_cons

@[simp] theorem whole_append {items' : Code} :
    Whole (items ++ items') ↔ Whole items ∧ Whole items' := forall_mem_append

@[simp] theorem whole_mark (a : Aim) : WholeItem (.mark a) := trivial

@[simp] theorem whole_jump (a : Aim) : WholeItem (jumpTo .jump a) := .inl rfl

@[simp] theorem whole_jumpIfFalse (a : Aim) : WholeItem (jumpTo .jumpIfFalse a) := .inr rfl

@[simp] theorem whole_jumpBack (a : Aim) : WholeItem (jumpBack .jump a) := .inl rfl

@[simp] theorem whole_jumpIfFalseBack (a : Aim) : WholeItem (jumpBack .jumpIfFalse a) := .inr rfl

theorem whole_op {o : OpCode} (h : o.info.operands.length? = some 0) : WholeItem (op o) :=
  wholeInstruction_of_fixed h

theorem Expr.listing_whole (e : Expr) (n : Nat) : Whole (e.listing n) := by
  induction e generalizing n with
  | code instructions =>
    intro item hitem
    obtain ⟨i, _, rfl⟩ := List.mem_map.mp hitem
    exact i.whole
  | seq e f ihe ihf => simp [Expr.listing, ihe, ihf]
  | andThen a b iha ihb =>
    simp [Expr.listing, iha, ihb, whole_op (o := .toBool) rfl, whole_op (o := .constFalse) rfl]
  | orElse a b iha ihb =>
    simp [Expr.listing, iha, ihb, whole_op (o := .toBool) rfl, whole_op (o := .constTrue) rfl]
  | ternary c a b ihc iha ihb => simp [Expr.listing, ihc, iha, ihb]

theorem CaseLabel.listing_whole (label : CaseLabel) (n : Nat) : Whole (label.listing n) := by
  cases label with
  | value e =>
    simp [CaseLabel.listing, e.listing_whole, whole_op (o := .dup) rfl, whole_op (o := .equal) rfl]
  | range lower upper =>
    simp [CaseLabel.listing, lower.listing_whole, upper.listing_whole, whole_op (o := .dup) rfl,
      whole_op (o := .greaterEqual) rfl, whole_op (o := .swap) rfl, whole_op (o := .lessEqual) rfl,
      whole_op (o := .and) rfl]

theorem sharedListing_whole (start : Aim) (labels : List CaseLabel) (n : Nat) :
    Whole (sharedListing start labels n) := by
  induction labels generalizing n with
  | nil => exact whole_nil
  | cons label labels ih =>
    cases labels with
    | nil => simp [sharedListing, label.listing_whole, whole_op (o := .pop) rfl]
    | cons label' labels => simp [sharedListing, label.listing_whole, ih, whole_op (o := .pop) rfl]

namespace ForLoop

variable (loop : ForLoop) (n : Nat)

theorem stepListing_whole : Whole (loop.stepListing n) := by
  have hop : WholeItem (op (if loop.down then .subtract else .add)) := by
    cases loop.down
    · exact whole_op rfl
    · exact whole_op rfl
  simp [stepListing, Expr.listing_whole, hop]

theorem stepTest_whole : WholeItem (op loop.stepTest) := by
  unfold stepTest
  cases loop.down
  · exact whole_op rfl
  · exact whole_op rfl

theorem entryTest_whole : WholeItem (op loop.entryTest) := by
  unfold entryTest
  cases loop.down
  · exact whole_op rfl
  · exact whole_op rfl

theorem lastStepListing_whole : Whole (loop.lastStepListing n) := by
  unfold lastStepListing
  split
  · exact loop.stepListing_whole n
  · simp [Expr.listing_whole, stepListing_whole, stepTest_whole]

end ForLoop

theorem pendingMark_whole (pending : Option Aim) : Whole (pendingMark pending) := by
  cases pending with
  | none => exact whole_nil
  | some a => simp [pendingMark]

mutual

theorem Stmt.listing_whole (env : Env) (s : Stmt) (n : Nat) : Whole (s.listing env n) := by
  cases s with
  | code e => exact e.listing_whole n
  | nothing => exact whole_nil
  | seq s t => simp [Stmt.listing, s.listing_whole, t.listing_whole]
  | ifThen c s => simp [Stmt.listing, c.listing_whole, s.listing_whole]
  | ifElse c s t => simp [Stmt.listing, c.listing_whole, s.listing_whole, t.listing_whole]
  | whileDo c s => simp [Stmt.listing, c.listing_whole, s.listing_whole]
  | repeatUntil s c => simp [Stmt.listing, c.listing_whole, s.listing_whole]
  | forTo loop s =>
    simp [Stmt.listing, Expr.listing_whole, s.listing_whole, loop.stepListing_whole,
      loop.lastStepListing_whole, loop.stepTest_whole, loop.entryTest_whole]
  | caseOf selector branches otherwise =>
    simp [Stmt.listing, selector.listing_whole, branches.listing_whole, otherwise.listing_whole,
      whole_op (o := .pop) rfl]
  | label name s => simp [Stmt.listing, s.listing_whole]
  | goto name => simp [Stmt.listing]
  | breakLoop =>
    unfold Stmt.listing
    split
    · exact whole_nil
    · simp
  | continueLoop =>
    unfold Stmt.listing
    split
    · exact whole_nil
    · simp
    · simp
  | routine declared labels entry body exit =>
    simp only [Stmt.listing, whole_append, Expr.listing_whole, body.listing_whole, and_true]
    cases env.inRoutine <;> cases declared <;> simp

theorem Branches.listing_whole (env : Env) (fin : Aim) (bs : Branches) (n : Nat)
    (pending : Option Aim) : Whole (bs.listing env fin n pending) := by
  match bs with
  | .done => exact pendingMark_whole pending
  | .branch [] body rest =>
    simp [Branches.listing, pendingMark_whole, rest.listing_whole]
  | .branch [label] body rest =>
    simp [Branches.listing, pendingMark_whole, label.listing_whole, body.listing_whole,
      rest.listing_whole, whole_op (o := .pop) rfl]
  | .branch (label :: label' :: labels) body rest =>
    simp [Branches.listing, pendingMark_whole, sharedListing_whole, body.listing_whole,
      rest.listing_whole]

end

/-! ## the scan -/

theorem WholeItem.decode {item : Item UInt8 Aim} (h : WholeItem item) (hmark : ∀ a, item ≠ .mark a)
    (known : Aim → Option Nat) (before rest : List UInt8) : pscalDecodeInstructionLength
      { code := before ++ (item.bytes format known before.length ++ rest) } before.length =
        ⟨true, item.size format⟩ := by
  have hwhole : WholeInstruction (item.bytes format known before.length) := by
    cases item with
    | code bytes => exact h
    | jump head aim late =>
      have hlen : (operandTo format (known aim) (before.length + head.length + format.width)).length
          = 4 := length_operandTo _ _
      rcases h with rfl | rfl
      · exact wholeInstruction_of_fixed (o := .jump) (congrArg some hlen.symm)
      · exact wholeInstruction_of_fixed (o := .jumpIfFalse) (congrArg some hlen.symm)
    | mark a => exact absurd rfl (hmark a)
  have hdecode : pscalDecodeInstructionLength (BytecodeChunk.appendBytes { code := before } _) _ = _ :=
    decode_appendBytes_new hwhole
  rw [Item.length_bytes] at hdecode
  have hlen : ({ code := before ++ (item.bytes format known before.length ++ rest) } :
      BytecodeChunk).count = before.length + (item.size format + rest.length) := by
    show (before ++ (_ ++ rest)).length = _
    rw [length_append, length_append, Item.length_bytes]
  refine decodeInstructionLength_congr ?_ (by omega) (fun i hi => ?_) hdecode
  · rw [count_appendBytes, Item.length_bytes]
  · show (before ++ (_ ++ rest)).getD (before.length + i) 0 =
      (before ++ item.bytes format known before.length).getD (before.length + i) 0
    rw [← append_assoc, getD_append]
    rw [length_append, Item.length_bytes]
    omega

theorem scan_reaches {known : Aim → Option Nat} {head : List UInt8} {late : Bool} {ys : Code}
    (xs : Code) {code : List UInt8} {room : Nat} {offsets : List Nat}
    (hcode : code = before ++ resolve format known before.length (xs ++ .jump head aim late :: ys))
    (hwhole : Whole (xs ++ .jump head aim late :: ys)) (hroom : code.length ≤ before.length + room)
    (hscan : scanInstructions code code.length room before.length = some offsets) :
    before.length + size format xs ∈ offsets := by
  induction xs generalizing before room offsets with
  | nil =>
    have hpos : before.length < code.length := by
      rw [hcode, length_append, length_resolve, nil_append, size_cons]
      show _ < before.length + (head.length + 4 + _)
      omega
    cases room with
    | zero => omega
    | succ room =>
      unfold scanInstructions at hscan
      rw [if_pos hpos] at hscan
      split at hscan
      · cases hscan
      · obtain ⟨offsets', _, rfl⟩ := map_eq_some_iff.mp hscan
        exact mem_cons_self
  | cons x xs ih =>
    rw [cons_append] at hcode hwhole
    obtain ⟨hx, hrest⟩ := whole_cons.mp hwhole
    have hbytes : code = (before ++ x.bytes format known before.length) ++
        resolve format known (before ++ x.bytes format known before.length).length
          (xs ++ .jump head aim late :: ys) := by
      rw [hcode, append_assoc, length_append, Item.length_bytes]
      rfl
    have hlen : (before ++ x.bytes format known before.length).length =
        before.length + x.size format := by
      rw [length_append, Item.length_bytes]
    have hgoal : before.length + size format (x :: xs) =
        (before ++ x.bytes format known before.length).length + size format xs := by
      rw [hlen, size_cons, Nat.add_assoc]
    rw [hgoal]
    by_cases hmark : ∃ a, x = .mark a
    · obtain ⟨a, rfl⟩ := hmark
      have hzero : (before ++ (Item.mark a).bytes format known before.length).length =
          before.length := hlen
      exact ih hbytes hrest (by rw [hzero]; exact hroom) (by rw [hzero]; exact hscan)
    · have hdecode := hx.decode (fun a ha => hmark ⟨a, ha⟩) known before
        (resolve format known (before.length + x.size format) (xs ++ .jump head aim late :: ys))
      have hinstr : getInstructionLength { code := code } before.length = x.size format := by
        rw [hcode]
        exact congrArg DecodedLength.length hdecode
      have hpos : 0 < x.size format :=
        hinstr ▸ decodeInstructionLength_pos { code := code } before.length
      cases room with
      | zero =>
        have : code.length = before.length + x.size format +
            size format (xs ++ .jump head aim late :: ys) := by
          rw [hbytes, length_append, length_resolve, hlen]
        omega
      | succ room =>
        unfold scanInstructions at hscan
        split at hscan
        · split at hscan
          · cases hscan
          · obtain ⟨offsets', hscan', rfl⟩ := map_eq_some_iff.mp hscan
            rw [hinstr] at hscan'
            have hroom' : code.length ≤ before.length + x.size format + room := by omega
            rw [← hlen] at hroom' hscan'
            exact mem_cons_of_mem _ (ih hbytes hrest hroom' hscan')
        · have : code.length = before.length + x.size format +
              size format (xs ++ .jump head aim late :: ys) := by
            rw [hbytes, length_append, length_resolve, hlen]
          omega

theorem scan_apart {code : List UInt8} {stop : Nat} {room pos : Nat} {offsets : List Nat}
    (hscan : scanInstructions code stop room pos = some offsets) :
    (∀ p ∈ offsets, pos ≤ p ∧ p + getInstructionLength { code := code } p ≤ stop) ∧
      offsets.Pairwise fun p q => p + getInstructionLength { code := code } p ≤ q := by
  induction room generalizing pos offsets with
  | zero =>
    cases hscan
    exact ⟨fun _ h => (by cases h), .nil⟩
  | succ room ih =>
    unfold scanInstructions at hscan
    split at hscan
    · split at hscan
      · cases hscan
      · next hle =>
        obtain ⟨offsets', hscan', rfl⟩ := map_eq_some_iff.mp hscan
        obtain ⟨hin, hapart⟩ := ih hscan'
        refine ⟨fun p hp => ?_, pairwise_cons.mpr ⟨fun q hq => (hin q hq).1, hapart⟩⟩
        rcases mem_cons.mp hp with rfl | hp
        · exact ⟨Nat.le_refl _, by omega⟩
        · have := hin p hp
          exact ⟨by omega, this.2⟩
    · cases hscan
      exact ⟨fun _ h => (by cases h), .nil⟩

theorem i32_operandTo {known : Aim → Option Nat} {code rest : List UInt8}
    (hcode : code = before ++ (operandTo format (known aim) (before.length + 4) ++ rest))
    (hsmall : code.length < 2 ^ 31) (hknown : ∀ t, known aim = some t → t ≤ code.length) :
    ({ code := code } : BytecodeChunk).i32 before.length =
      match known aim with
      | some t => (t : Int) - (before.length + 4 : Nat)
      | none => -1 := by
  have hlen : (operandTo format (known aim) (before.length + 4)).length = 4 := length_operandTo _ _
  have hroom : before.length + 4 ≤ code.length := by
    rw [hcode, length_append, length_append, hlen]
    omega
  have hget : ∀ i, i < 4 →
      code[before.length + i]? = (operandTo format (known aim) (before.length + 4))[i]? := by
    intro i hi
    rw [hcode, getElem?_append_right (Nat.le_add_right _ _), Nat.add_sub_cancel_left,
      getElem?_append_left (by omega)]
  cases hk : known aim with
  | none =>
    rw [hk] at hget
    exact i32_of_int32Bytes (v := -1) hget (by decide) (by decide)
  | some t =>
    rw [hk] at hget
    have ht := hknown t hk
    exact i32_of_int32Bytes (v := (t : Int) - (before.length + 4 : Nat)) hget (by omega) (by omega)

theorem validateJumps_known {known : Aim → Option Nat} {code : List UInt8}
    (hcode : code = before ++ resolve format known before.length items) (hwhole : Whole items)
    (hsmall : code.length < 2 ^ 31) (hvalid : validateJumps code before.length code.length = true)
    {head : List UInt8} {late : Bool} (hmem : .jump head aim late ∈ items)
    (hknown : ∀ t, known aim = some t → t ≤ code.length) :
    ∃ t, known aim = some t ∧ before.length ≤ t := by
  obtain ⟨xs, ys, rfl⟩ := append_of_mem hmem
  unfold validateJumps at hvalid
  split at hvalid
  · cases hvalid
  · next offsets hscan =>
    have hreach := scan_reaches xs hcode hwhole (by omega) hscan
    obtain ⟨hin, hapart⟩ := scan_apart hscan
    have hjump : WholeItem (.jump head aim late) := hwhole _ hmem
    -- the code around the jump
    obtain ⟨pre, hpreEq⟩ : ∃ pre, pre = before ++ resolve format known before.length xs := ⟨_, rfl⟩
    have hpre : pre.length = before.length + size format xs := by
      rw [hpreEq, length_append, length_resolve]
    have hsplit : code = pre ++ ((Item.jump head aim late).bytes format known pre.length ++
        resolve format known (pre.length + (Item.jump head aim late : Item UInt8 Aim).size format)
          ys) := by
      rw [hpre, hpreEq, append_assoc, hcode, resolve_append]
      rfl
    have hdecode := hjump.decode (fun a ha => by cases ha) known pre
      (resolve format known (pre.length + (Item.jump head aim late : Item UInt8 Aim).size format) ys)
    rw [← hsplit] at hdecode
    have hhead : ∃ o : OpCode, head = [o.byte] ∧ (o = .jump ∨ o = .jumpIfFalse) := by
      rcases hjump with h | h
      · exact ⟨.jump, h, .inl rfl⟩
      · exact ⟨.jumpIfFalse, h, .inr rfl⟩
    obtain ⟨o, rfl, ho⟩ := hhead
    have hlen : getInstructionLength { code := code } pre.length = 5 :=
      congrArg DecodedLength.length hdecode
    have hop : BytecodeChunk.opcode? { code := code } pre.length = some o := by
      have hbyte : BytecodeChunk.byte { code := code } pre.length = o.byte := by
        show code.getD pre.length 0 = _
        rw [hsplit, getD_append_right _ _ _ _ (Nat.le_refl _), Nat.sub_self]
        rfl
      rw [BytecodeChunk.opcode?, hbyte]
      exact o.ofByte_byte
    have hpos : (pre ++ [o.byte]).length = pre.length + 1 := length_append
    have hat : code = (pre ++ [o.byte]) ++ (operandTo format (known aim)
        ((pre ++ [o.byte]).length + 4) ++ resolve format known
          (pre.length + (Item.jump [o.byte] aim late : Item UInt8 Aim).size format) ys) := by
      rw [hpos, append_assoc]
      exact hsplit
    have hoperand := i32_operandTo hat hsmall hknown
    rw [← hpre] at hreach
    have hcheck := List.all_eq_true.mp hvalid _ hreach
    dsimp only at hcheck
    rw [hop, if_pos (ho.imp (congrArg some) (congrArg some)), ← hpos, hoperand, hpos] at hcheck
    have hdest := of_decide_eq_true hcheck
    obtain ⟨hlo, hhi⟩ := hin _ hreach
    rw [hlen] at hhi
    cases hk : known aim with
    | none =>
      rw [hk] at hdest
      dsimp only at hdest
      exfalso
      rcases hdest with hdest | ⟨q, hq, hdest⟩
      · omega
      · -- the placeholder leads into the jump itself
        have hne : pre.length ≠ q := by omega
        rcases pairwise_iff_getElem.mp hapart with hpair
        obtain ⟨i, hi, hip⟩ := mem_iff_getElem.mp hreach
        obtain ⟨j, hj, hjq⟩ := mem_iff_getElem.mp hq
        rcases Nat.lt_trichotomy i j with hij | hij | hij
        · have := hpair i j hi hj hij
          rw [hip, hjq, hlen] at this
          omega
        · subst hij
          exact hne (hip.symm.trans hjq)
        · have := hpair j i hj hi hij
          rw [hip, hjq] at this
          omega
    | some t =>
      rw [hk] at hdest
      replace hdest : (pre.length : Int) + 5 + ((t : Int) - (pre.length + 1 + 4 : Nat)) = code.length ∨
          ∃ offset ∈ offsets,
            (pre.length : Int) + 5 + ((t : Int) - (pre.length + 1 + 4 : Nat)) = offset := hdest
      refine ⟨t, rfl, ?_⟩
      rcases hdest with hdest | ⟨q, hq, hdest⟩
      · omega
      · have := (hin q hq).1
        omega

/-! ## jumps to a loop around the routine -/

mutual

/-- a `break` or `continue` for a loop around the statement -/
def Stmt.strays : Stmt → Bool
  | .seq s t => s.strays || t.strays
  | .ifThen _ s => s.strays
  | .ifElse _ s t => s.strays || t.strays
  | .caseOf _ branches otherwise => branches.strays || otherwise.strays
  | .label _ s => s.strays
  | .breakLoop => true
  | .continueLoop => true
  | _ => false

def Branches.strays : Branches → Bool
  | .done => false
  | .branch [] _ rest => rest.strays
  | .branch (_ :: _) body rest => body.strays || rest.strays

end

mutual

theorem Stmt.listing_loop {s : Stmt} (h : s.strays = false) (env : Env)
    (loop : Option (Nat × Bool)) (n : Nat) :
    s.listing { env with loop := loop } n = s.listing env n := by
  cases s with
  | code e => rfl
  | nothing => rfl
  | seq s t =>
    obtain ⟨hs, ht⟩ := Bool.or_eq_false_iff.mp h
    simp only [Stmt.listing, Stmt.listing_loop hs env, Stmt.listing_loop ht env]
  | ifThen c s => simp only [Stmt.listing, Stmt.listing_loop (s := s) h env]
  | ifElse c s t =>
    obtain ⟨hs, ht⟩ := Bool.or_eq_false_iff.mp h
    simp only [Stmt.listing, Stmt.listing_loop hs env, Stmt.listing_loop ht env]
  | whileDo c s => rfl
  | repeatUntil s c => rfl
  | forTo loop s => rfl
  | caseOf selector branches otherwise =>
    obtain ⟨hs, ht⟩ := Bool.or_eq_false_iff.mp h
    simp only [Stmt.listing, Branches.listing_loop hs env, Stmt.listing_loop ht env]
  | label name s => simp only [Stmt.listing, Stmt.listing_loop (s := s) h env]
  | goto name => rfl
  | breakLoop => cases h
  | continueLoop => cases h
  | routine declared labels entry body exit => rfl

theorem Branches.listing_loop {b : Branches} (h : b.strays = false) (env : Env)
    (loop : Option (Nat × Bool)) (fin : Aim) (n : Nat) (pending : Option Aim) :
    b.listing { env with loop := loop } fin n pending = b.listing env fin n pending := by
  match b, h with
  | .done, _ => rfl
  | .branch [] body rest, h =>
    simp only [Branches.listing, Branches.listing_loop (b := rest) h env]
  | .branch [label] body rest, h =>
    obtain ⟨hs, ht⟩ := Bool.or_eq_false_iff.mp h
    simp only [Branches.listing, Stmt.listing_loop hs env, Branches.listing_loop ht env]
  | .branch (label :: label' :: labels) body rest, h =>
    obtain ⟨hs, ht⟩ := Bool.or_eq_false_iff.mp h
    simp only [Branches.listing, Stmt.listing_loop hs env, Branches.listing_loop ht env]

end

/-- a jump to a place of the loop `id` -/
def JumpsTo (id : Nat) (items : Code) : Prop :=
  ∃ head aim late, .jump head aim late ∈ items ∧ (aim = .point id ∨ aim = .point (id + 1))

theorem JumpsTo.left {id : Nat} (h : JumpsTo id items) (items' : Code) :
    JumpsTo id (items ++ items') := by
  obtain ⟨head, aim, late, hmem, haim⟩ := h
  exact ⟨head, aim, late, mem_append_left _ hmem, haim⟩

theorem JumpsTo.right {id : Nat} (h : JumpsTo id items) (items' : Code) :
    JumpsTo id (items' ++ items) := by
  obtain ⟨head, aim, late, hmem, haim⟩ := h
  exact ⟨head, aim, late, mem_append_right _ hmem, haim⟩

mutual

theorem Stmt.strays_jump {s : Stmt} (h : s.strays = true) {env : Env} {id : Nat} {known : Bool}
    (hloop : env.loop = some (id, known)) (n : Nat) : JumpsTo id (s.listing env n) := by
  cases s with
  | code e => cases h
  | nothing => cases h
  | seq s t =>
    rcases Bool.or_eq_true_iff.mp h with hs | ht
    · exact (Stmt.strays_jump hs hloop _).left _
    · exact (Stmt.strays_jump ht hloop _).right _
  | ifThen c s => exact ((Stmt.strays_jump (s := s) h hloop _).right _).left _
  | ifElse c s t =>
    rcases Bool.or_eq_true_iff.mp h with hs | ht
    · exact ((((Stmt.strays_jump hs hloop _).right _).left _).left _).left _
    · exact ((Stmt.strays_jump ht hloop _).right _).left _
  | whileDo c s => cases h
  | repeatUntil s c => cases h
  | forTo loop s => cases h
  | caseOf selector branches otherwise =>
    rcases Bool.or_eq_true_iff.mp h with hs | ht
    · exact ((((Branches.strays_jump hs hloop _ _ _).right _).left _).left _).left _
    · exact ((Stmt.strays_jump ht hloop _).right _).left _
  | label name s => exact (Stmt.strays_jump (s := s) h hloop _).right _
  | goto name => cases h
  | breakLoop =>
    unfold Stmt.listing
    rw [hloop]
    exact ⟨_, _, _, mem_cons_self, .inl rfl⟩
  | continueLoop =>
    unfold Stmt.listing
    rw [hloop]
    cases known with
    | true => exact ⟨_, _, _, mem_cons_self, .inr rfl⟩
    | false => exact ⟨_, _, _, mem_cons_self, .inr rfl⟩
  | routine declared labels entry body exit => cases h

theorem Branches.strays_jump {b : Branches} (h : b.strays = true) {env : Env} {id : Nat}
    {known : Bool} (hloop : env.loop = some (id, known)) (fin : Aim) (n : Nat)
    (pending : Option Aim) : JumpsTo id (b.listing env fin n pending) := by
  match b, h with
  | .done, h => cases h
  | .branch [] body rest, h => exact (Branches.strays_jump (b := rest) h hloop _ _ _).right _
  | .branch [label] body rest, h =>
    rcases Bool.or_eq_true_iff.mp h with hs | ht
    · exact (((Stmt.strays_jump hs hloop _).right _).left _).left _
    · exact (Branches.strays_jump ht hloop _ _ _).right _
  | .branch (label :: label' :: labels) body rest, h =>
    rcases Bool.or_eq_true_iff.mp h with hs | ht
    · exact (((Stmt.strays_jump hs hloop _).right _).left _).left _
    · exact (Branches.strays_jump ht hloop _ _ _).right _

end

/-- Where the check passes, the code since `start` has no jump to a loop that was open before. -/
theorem Sim.no_strays {st₀ st : Coder} {g₀ g : Ghost} (h₀ : Sim st₀ g₀) (h : Sim st g)
    {skip more : Code} (hitems : g.items = g₀.items ++ skip ++ more) (hskip : 0 < size format skip)
    (hwhole : Whole more) {x : Nat × ContinuePhase} {loops : List (Nat × ContinuePhase)}
    (hl : g.loops = x :: loops) (hl₀ : g₀.loops = x :: loops) (hready : x.2 ≠ .passed)
    (hvalid : validateJumps st.code (size format (g₀.items ++ skip)) st.code.length = true) :
    ¬ JumpsTo x.1 more := by
  rintro ⟨head, aim, late, hmem, haim⟩
  have hsims := h.loops
  rw [hl] at hsims
  obtain ⟨loop, _, hsim, _, _⟩ := forall₂_cons_right_iff.mp hsims
  have hsims₀ := h₀.loops
  rw [hl₀] at hsims₀
  obtain ⟨loop₀, _, hsim₀, _, _⟩ := forall₂_cons_right_iff.mp hsims₀
  have hcode := h.tracks.code_eq
  rw [hitems, resolve_append, Nat.zero_add] at hcode
  have hlen : (resolve format (known g.defs) 0 (g₀.items ++ skip)).length =
      size format (g₀.items ++ skip) := length_resolve
  rw [← hlen] at hcode hvalid
  -- the place of an open loop is unknown, or before the routine
  have hplace : known g.defs aim = none ∨
      ∃ t, known g.defs aim = some t ∧ t ≤ size format g₀.items := by
    rcases haim with rfl | rfl
    · exact .inl (by rw [known, hsim.pending]; rfl)
    · cases hx : x.2 with
      | passed => exact absurd hx hready
      | unknown => exact .inl (by rw [known, (hsim.unknown hx).2.2]; rfl)
      | known =>
        obtain ⟨t, _, _, ht⟩ := hsim₀.known hx
        have hmark : (.point (x.1 + 1), t) ∈ g.marks := by
          rw [Ghost.marks, hitems, marks_append, marks_append]
          exact mem_append_left _ (mem_append_left _ ht)
        refine .inr ⟨t, (h.tracks.marked _ hmark).1, ?_⟩
        have := (mark_bounds ht).2
        omega
  have hbefore : size format (g₀.items ++ skip) = size format g₀.items + size format skip :=
    size_append
  have hle : size format g₀.items ≤ st.code.length := by
    rw [h.tracks.length, hitems, size_append, hbefore]
    omega
  obtain ⟨t, ht, hstart⟩ := validateJumps_known hcode hwhole h.small hvalid hmem (by
    intro t ht
    rcases hplace with hnone | ⟨t', ht', hle'⟩
    · rw [hnone] at ht
      cases ht
    · rw [ht'] at ht
      cases ht
      omega)
  rcases hplace with hnone | ⟨t', ht', hle'⟩
  · rw [hnone] at ht
    cases ht
  · rw [ht'] at ht
    cases ht
    omega

end Pscal.Statements
