import Pscal.Compiler.PlacedCode

/-!
# How the code of a `case` runs

* `Evaluates`  the code of an expression leaves one value on the stack;
* `Tests`, `Selects`  the labels are tested one after the other, up to the first that matches;
* `Passes`  a run that evaluates these expressions and does nothing else but to move values and to
  jump;
* `Selects.passes`  the run of the branches comes to the body that is selected;
* `compileProgram_case` the same for every `case` of a compiled program.
-/

namespace Pscal.Statements

open Assembly Coder List

section
variable {M : Type} (vm : StackVM M)

/-- the code of `e` at `pos` leaves the value `v` -/
def Evaluates (e : Expr) (n pos : Nat) (stack : List Value) (r : M) (v : Value) (r' : M) : Prop :=
  vm.Runs ⟨pos, stack, r⟩ ⟨pos + size format (e.listing n), v :: stack, r'⟩

def CaseLabel.exprs : CaseLabel → List Expr
  | .value e => [e]
  | .range lower upper => [lower, upper]

/-- The label at `pos` is tested for the selector `v`: it matches when `v` equals its value, or lies
in its range. -/
inductive Tests (stack : List Value) (v : Value) : CaseLabel → Nat → Nat → M → Bool → M → Prop where
  | value {e : Expr} {n pos : Nat} {r r' : M} {w : Value} {b : Bool}
      (hroom : stack.length + 2 < vm.limit) (he : Evaluates vm e n (pos + 1) (v :: v :: stack) r w r')
      (hcompare : vmCompare vm.ext .equal v w = some b) : Tests stack v (.value e) n pos r b r'
  | range {lower upper : Expr} {n pos : Nat} {r r' r'' : M} {w w' : Value} {b c : Bool}
      (hroom : stack.length + 3 < vm.limit)
      (hlower : Evaluates vm lower n (pos + 2) (v :: v :: v :: stack) r w r')
      (hlo : vmCompare vm.ext .greaterEqual v w = some b)
      (hupper : Evaluates vm upper (n + lower.names)
        (pos + 2 + size format (lower.listing n) + 2) (v :: makeBoolean b :: v :: stack) r' w' r'')
      (hhi : vmCompare vm.ext .lessEqual v w' = some c) :
      Tests stack v (.range lower upper) n pos r (b && c) r''

/-- the labels of a branch; also the expressions evaluated -/
inductive TestsLabels (stack : List Value) (v : Value) :
    List CaseLabel → Nat → Nat → M → List Expr → Bool → M → Prop where
  | nil {n pos : Nat} {r : M} : TestsLabels stack v [] n pos r [] false r
  | hit {label : CaseLabel} {labels : List CaseLabel} {n pos : Nat} {r r' : M}
      (h : Tests vm stack v label (n + 1) pos r true r') :
      TestsLabels stack v (label :: labels) n pos r label.exprs true r'
  | miss {label : CaseLabel} {labels : List CaseLabel} {n pos : Nat} {r r' r'' : M}
      {es : List Expr} {b : Bool} (h : Tests vm stack v label (n + 1) pos r false r')
      (hrest : TestsLabels stack v labels (n + 1 + label.names)
        (pos + size format (label.listing (n + 1)) + 11) r' es b r'') :
      TestsLabels stack v (label :: labels) n pos r (label.exprs ++ es) b r''

/-! ## where the body of a branch stands -/

def labelsNumber : List CaseLabel → Nat → Nat
  | [_], n => n
  | _, n => n + 1

def bodyNumber : List CaseLabel → Nat → Nat
  | [label], n => n + 1 + label.names
  | labels, n => n + 1 + sharedNames labels

def testsSize : List CaseLabel → Nat → Nat
  | [label], n => size format (label.listing (n + 1)) + 6
  | labels, n => size format (sharedListing (.point n) labels (n + 1))

/-- The branches from `pos` on are tested: the body of the first with a label that matches, and where
it stands. -/
inductive Selects (env : Env) (stack : List Value) (v : Value) :
    Branches → Nat → Nat → M → List Expr → Option (Part × Nat) → M → Prop where
  | done {n pos : Nat} {r : M} : Selects env stack v .done n pos r [] none r
  | empty {body : Stmt} {rest : Branches} {n pos : Nat} {r r' : M} {es : List Expr}
      {chosen : Option (Part × Nat)} (hrest : Selects env stack v rest n pos r es chosen r') :
      Selects env stack v (.branch [] body rest) n pos r es chosen r'
  | hit {label : CaseLabel} {labels : List CaseLabel} {body : Stmt} {rest : Branches} {n pos : Nat}
      {r r' : M} {es : List Expr}
      (h : TestsLabels vm stack v (label :: labels) (labelsNumber (label :: labels) n) pos r es true
        r') :
      Selects env stack v (.branch (label :: labels) body rest) n pos r es
        (some (⟨body, env, bodyNumber (label :: labels) n⟩, pos + testsSize (label :: labels) n)) r'
  | miss {label : CaseLabel} {labels : List CaseLabel} {body : Stmt} {rest : Branches} {n pos : Nat}
      {r r' r'' : M} {es es' : List Expr} {chosen : Option (Part × Nat)}
      (h : TestsLabels vm stack v (label :: labels) (labelsNumber (label :: labels) n) pos r es false
        r')
      (hrest : Selects env stack v rest (bodyNumber (label :: labels) n + body.names)
        (pos + testsSize (label :: labels) n +
          size format (body.listing env (bodyNumber (label :: labels) n)) + 5) r' es' chosen r'') :
      Selects env stack v (.branch (label :: labels) body rest) n pos r (es ++ es') chosen r''

/-- A run that evaluates the expressions in this order; what else it does is single instructions that
move values, compare and jump. -/
inductive Passes : List Expr → Machine M → Machine M → Prop where
  | refl (σ : Machine M) : Passes [] σ σ
  | glue {es : List Expr} {σ σ' σ'' : Machine M} {o : OpCode}
      (hop : vm.chunk.opcode? σ.pc = some o) (ho : o.isGlue = true) (hstep : vm.step σ = some σ')
      (hrest : Passes es σ' σ'') : Passes es σ σ''
  | eval {e : Expr} {es : List Expr} {n pos : Nat} {stack : List Value} {r r' : M} {v : Value}
      {σ : Machine M} (he : Evaluates vm e n pos stack r v r')
      (hrest : Passes es ⟨pos + size format (e.listing n), v :: stack, r'⟩ σ) :
      Passes (e :: es) ⟨pos, stack, r⟩ σ

end

section
variable {M : Type} {vm : StackVM M}

variable {es : List Expr} {b : Bool} {label : CaseLabel} {n : Nat} {r r' : M} {fin : Aim}

theorem Passes.trans {es' : List Expr} {σ σ' σ'' : Machine M} (h : Passes vm es σ σ')
    (h' : Passes vm es' σ' σ'') : Passes vm (es ++ es') σ σ'' := by
  induction h with
  | refl σ => exact h'
  | glue hop ho hstep _ ih => exact .glue hop ho hstep (ih h')
  | eval he _ ih => exact .eval he (ih h')

theorem Passes.step {σ σ' : Machine M} {o : OpCode} (hop : vm.chunk.opcode? σ.pc = some o)
    (ho : o.isGlue = true) (hstep : vm.step σ = some σ') : Passes vm [] σ σ' :=
  .glue hop ho hstep (.refl σ')

variable {known : Aim → Option Nat} {stack : List Value} {v : Value}

variable {pos : Nat} {env : Env}

theorem Tests.passes (h : Placed known vm.code pos (label.listing n))
    (ht : Tests vm stack v label n pos r b r') : Passes vm label.exprs ⟨pos, v :: stack, r⟩
      ⟨pos + size format (label.listing n), makeBoolean b :: v :: stack, r'⟩ := by
  cases ht with
  | @value e n pos r r' w b hroom he hcompare =>
    have hdup := h.left.left.opcode
    have hequal := h.right.opcode
    rw [size_append, ← Nat.add_assoc] at hequal
    refine .glue hdup rfl (StackVM.step_dup hdup (by omega)) (.eval he ?_)
    rw [CaseLabel.listing, size_append, size_append, ← Nat.add_assoc, ← Nat.add_assoc]
    exact .step hequal rfl (StackVM.step_compare rfl hequal hcompare)
  | @range lower upper n pos r r' r'' w w' b c hroom hlower hlo hupper hhi =>
    have hdups : Placed known vm.code pos ([op .dup] ++ [op .dup]) := h.left.left.left.left
    have hbetween : Placed known vm.code (pos + 2 + size format (lower.listing n))
        ([op .greaterEqual] ++ [op .swap]) := by
      have := h.left.left.right
      rwa [size_append, ← Nat.add_assoc] at this
    have hlast : Placed known vm.code
        (pos + 2 + size format (lower.listing n) + 2 + size format (upper.listing (n + lower.names)))
        ([op .lessEqual] ++ [op .and]) := by
      have := h.right
      rwa [size_append, size_append, size_append, ← Nat.add_assoc, ← Nat.add_assoc,
        ← Nat.add_assoc] at this
    have hend : pos + size format ((CaseLabel.range lower upper).listing n) =
        pos + 2 + size format (lower.listing n) + 2 +
          size format (upper.listing (n + lower.names)) + 1 + 1 := by
      rw [CaseLabel.listing, size_append, size_append, size_append, size_append,
        ← Nat.add_assoc, ← Nat.add_assoc, ← Nat.add_assoc, ← Nat.add_assoc]
      rfl
    have hdup := hdups.left.opcode
    have hdup' := hdups.right.opcode
    have hge := hbetween.left.opcode
    have hswap := hbetween.right.opcode
    have hle := hlast.left.opcode
    have hand := hlast.right.opcode
    rw [hend]
    refine .glue hdup rfl (StackVM.step_dup hdup (by omega)) ?_
    refine .glue hdup' rfl (StackVM.step_dup hdup' (by rw [length_cons]; omega)) ?_
    refine .eval hlower ?_
    refine .glue hge rfl (StackVM.step_compare rfl hge hlo) ?_
    refine .glue hswap rfl (StackVM.step_swap hswap) ?_
    refine .eval hupper ?_
    refine .glue hle rfl (StackVM.step_compare rfl hle hhi) ?_
    exact .step hand rfl (StackVM.step_and hand)

/-! ## branches -/

theorem Tests.matches_passes {t : Nat} {aim : Aim}
    (h : Placed known vm.code pos (label.listing n ++ [jumpTo .jumpIfFalse aim, op .pop]))
    (haim : known aim = some t) (ht : Tests vm stack v label n pos r b r') :
    Passes vm label.exprs ⟨pos, v :: stack, r⟩
      (if b then ⟨pos + size format (label.listing n) + 6, stack, r'⟩ else ⟨t, v :: stack, r'⟩) := by
  have hrest : Placed known vm.code (pos + size format (label.listing n))
      ([jumpTo .jumpIfFalse aim] ++ [op .pop]) := h.right
  obtain ⟨hop, hdest⟩ := hrest.left.jump haim
  have hpop := hrest.right.opcode
  have htest := ht.passes h.left
  have hjump : vm.step ⟨_, makeBoolean b :: v :: stack, r'⟩ = _ := StackVM.step_jumpIfFalse hop
  rw [hdest] at hjump
  rw [← append_nil label.exprs]
  cases b with
  | false => exact htest.trans (.step hop rfl hjump)
  | true => exact htest.trans (.glue hop rfl hjump (.step hpop rfl (StackVM.step_pop hpop)))

theorem TestsLabels.shared_passes {labels : List CaseLabel} {next body : Nat} {start : Aim}
    (h : Placed known vm.code pos (sharedListing start (label :: labels) n))
    (hstart : known start = some body)
    (hlast : ∀ a, lastAim (label :: labels) n = some a → known a = some next)
    (ht : TestsLabels vm stack v (label :: labels) n pos r es b r') :
    Passes vm es ⟨pos, v :: stack, r⟩
      (if b then ⟨body, stack, r'⟩ else ⟨next, v :: stack, r'⟩) := by
  induction labels generalizing label n pos r es with
  | nil =>
    have hcode : Placed known vm.code pos ((label.listing (n + 1) ++
        [jumpTo .jumpIfFalse (.again n), op .pop]) ++ [jumpTo .jump start]) := by
      have := h
      rw [sharedListing] at this
      simpa using this
    have hjump := hcode.right.jump hstart
    rw [size_append, ← Nat.add_assoc] at hjump
    cases ht with
    | hit htest =>
      have := htest.matches_passes hcode.left (hlast _ rfl)
      rw [← append_nil label.exprs]
      refine this.trans (.step hjump.1 rfl ?_)
      have hstep : vm.step ⟨_, stack, r'⟩ = _ := StackVM.step_jump hjump.1
      rwa [hjump.2] at hstep
    | miss htest hrest =>
      cases hrest
      rw [append_nil]
      exact htest.matches_passes hcode.left (hlast _ rfl)
  | cons label' labels ih =>
    have hcode : Placed known vm.code pos ((((label.listing (n + 1) ++
        [jumpTo .jumpIfFalse (.point n), op .pop]) ++ [jumpTo .jump start]) ++ [.mark (.point n)]) ++
        sharedListing start (label' :: labels) (n + 1 + label.names)) := by
      have := h
      rw [sharedListing] at this
      simpa using this
    have hmark := hcode.left.right.mark
    have hnext := hcode.right
    have hjump := hcode.left.left.right.jump hstart
    have hsize : size format (((label.listing (n + 1) ++
        [jumpTo .jumpIfFalse (.point n), op .pop]) ++ [jumpTo .jump start])) =
        size format (label.listing (n + 1)) + 11 := by
      rw [size_append, size_append]
      rfl
    rw [hsize, ← Nat.add_assoc] at hmark
    rw [size_append, hsize, ← Nat.add_assoc] at hnext
    rw [size_append, ← Nat.add_assoc] at hjump
    cases ht with
    | hit htest =>
      have := htest.matches_passes hcode.left.left.left hmark
      rw [← append_nil label.exprs]
      refine this.trans (.step hjump.1 rfl ?_)
      have hstep : vm.step ⟨_, stack, r'⟩ = _ := StackVM.step_jump hjump.1
      rwa [hjump.2] at hstep
    | miss htest hrest =>
      exact (htest.matches_passes hcode.left.left.left hmark).trans (ih hnext hlast hrest)

theorem size_pendingMark (pending : Option Aim) : size format (pendingMark pending) = 0 := by
  cases pending <;> rfl

theorem pending_place {code : List UInt8} {a : Aim} {bs : Branches}
    (h : Placed known code pos (bs.listing env fin n (some a))) : known a = some pos := by
  match bs with
  | .done => exact h.mark
  | .branch [] body rest => exact h.left.mark
  | .branch [label] body rest => exact h.left.left.left.left.left.mark
  | .branch (label :: label' :: labels) body rest => exact h.left.left.left.left.left.mark

/-- A branch in the code, with its body at `start` and the next branch at `next`. -/
structure BranchPlaced (vm : StackVM M) (known : Aim → Option Nat) (env : Env) (fin : Aim)
    (labels : List CaseLabel) (body : Stmt) (rest : Branches) (n pos start next stop : Nat) :
    Prop where
  tests : ∀ {stack : List Value} {v : Value} {r r' : M} {es : List Expr} {b : Bool},
    TestsLabels vm stack v labels (labelsNumber labels n) pos r es b r' →
      Passes vm es ⟨pos, v :: stack, r⟩
        (if b then ⟨start, stack, r'⟩ else ⟨next, v :: stack, r'⟩)
  bodyCode : Placed known vm.code start (body.listing env (bodyNumber labels n))
  endJump : Placed known vm.code (start + size format (body.listing env (bodyNumber labels n)))
    [jumpTo .jump fin]
  others : ∃ pending, Placed known vm.code next
      (rest.listing env fin (bodyNumber labels n + body.names) pending) ∧
    stop = next + size format (rest.listing env fin (bodyNumber labels n + body.names) pending)

theorem branch_placed {pending : Option Aim} {labels : List CaseLabel} {body : Stmt}
    {rest : Branches}
    (h : Placed known vm.code pos ((Branches.branch (label :: labels) body rest).listing env fin n
      pending)) :
    BranchPlaced vm known env fin (label :: labels) body rest n pos
      (pos + testsSize (label :: labels) n)
      (pos + testsSize (label :: labels) n +
        size format (body.listing env (bodyNumber (label :: labels) n)) + 5)
      (pos + size format
        ((Branches.branch (label :: labels) body rest).listing env fin n pending)) := by
  cases labels with
  | nil =>
    have heq : (Branches.branch [label] body rest).listing env fin n pending =
        pendingMark pending ++ ((label.listing (n + 1) ++
          [jumpTo .jumpIfFalse (.again n), op .pop]) ++ (body.listing env (n + 1 + label.names) ++
          ([jumpTo .jump fin] ++ rest.listing env fin (n + 1 + label.names + body.names)
            (some (.again n))))) := by
      simp only [Branches.listing, append_assoc]
    have hsize : size format (label.listing (n + 1) ++ [jumpTo .jumpIfFalse (.again n), op .pop]) =
        testsSize [label] n := by
      rw [size_append]
      rfl
    rw [heq] at h ⊢
    have hbranch := h.right
    rw [size_pendingMark, Nat.add_zero] at hbranch
    have hbody := hbranch.right
    rw [hsize] at hbody
    have hnext := pending_place hbody.right.right
    refine ⟨?_, hbody.left, hbody.right.left, _, hbody.right.right, ?_⟩
    · intro stack v r r' es b ht
      cases ht with
      | hit htest => exact htest.matches_passes hbranch.left hnext
      | miss htest hnil =>
        cases hnil
        rw [append_nil]
        exact htest.matches_passes hbranch.left hnext
    · rw [size_append, size_append, hsize, size_append, size_append, size_pendingMark, Nat.zero_add,
        ← Nat.add_assoc, ← Nat.add_assoc, ← Nat.add_assoc]
      rfl
  | cons label' labels =>
    have heq : (Branches.branch (label :: label' :: labels) body rest).listing env fin n pending =
        pendingMark pending ++ (sharedListing (.point n) (label :: label' :: labels) (n + 1) ++
          ([.mark (.point n)] ++
          (body.listing env (n + 1 + sharedNames (label :: label' :: labels)) ++
          ([jumpTo .jump fin] ++ rest.listing env fin
            (n + 1 + sharedNames (label :: label' :: labels) + body.names)
            (lastAim (label :: label' :: labels) (n + 1)))))) := by
      simp only [Branches.listing, append_assoc]
    rw [heq] at h ⊢
    have hbranch := h.right
    rw [size_pendingMark, Nat.add_zero] at hbranch
    have hstart := hbranch.right.left.mark
    have hbody := hbranch.right.right
    rw [show size format [(.mark (.point n) : Item UInt8 Aim)] = 0 from rfl, Nat.add_zero] at hbody
    refine ⟨?_, hbody.left, hbody.right.left, _, hbody.right.right, ?_⟩
    · intro stack v r r' es b ht
      refine ht.shared_passes hbranch.left hstart fun a ha => ?_
      have hrest := hbody.right.right
      rw [ha] at hrest
      exact pending_place hrest
    · rw [size_append, size_append, size_append, size_append, size_append, size_pendingMark,
        show size format [(.mark (.point n) : Item UInt8 Aim)] = 0 from rfl, Nat.zero_add,
        Nat.zero_add, ← Nat.add_assoc, ← Nat.add_assoc, ← Nat.add_assoc]
      rfl

/-- How a run of the branches goes on from `σ`: with the body that is selected, the selector off the
stack, and from the end of that body to `fin`; or at `missed`, the selector still there. -/
def Arrives (vm : StackVM M) (known : Aim → Option Nat) (es : List Expr) (σ : Machine M)
    (stack : List Value) (v : Value) (r' : M) (missed fin : Nat) : Option (Part × Nat) → Prop
  | some (part, p) => Passes vm es σ ⟨p, stack, r'⟩ ∧
      Placed known vm.code p (part.stmt.listing part.env part.number) ∧
      ∀ stack' r'', vm.step ⟨p + size format (part.stmt.listing part.env part.number), stack', r''⟩ =
        some ⟨fin, stack', r''⟩
  | none => Passes vm es σ ⟨missed, v :: stack, r'⟩

theorem Selects.passes {bs : Branches} {e : Nat} {chosen : Option (Part × Nat)}
    (hfin : known fin = some e) (hsel : Selects vm env stack v bs n pos r es chosen r')
    {pending : Option Aim} (h : Placed known vm.code pos (bs.listing env fin n pending)) :
    Arrives vm known es ⟨pos, v :: stack, r⟩ stack v r'
      (pos + size format (bs.listing env fin n pending)) e chosen := by
  induction hsel generalizing pending with
  | done =>
    show Passes vm [] _ _
    rw [Branches.listing, size_pendingMark]
    exact .refl _
  | @empty body rest n pos r r' es chosen hrest ih =>
    rw [Branches.listing] at h ⊢
    have hnext := h.right
    rw [size_pendingMark] at hnext
    rw [size_append, size_pendingMark, Nat.zero_add]
    exact ih hnext
  | hit htests =>
    have hbranch := branch_placed h
    refine ⟨hbranch.tests htests, hbranch.bodyCode, fun stack' r'' => ?_⟩
    obtain ⟨hop, hdest⟩ := hbranch.endJump.jump hfin
    rw [← hdest]
    exact StackVM.step_jump hop
  | @miss label labels body rest n pos r r' r'' es es' chosen htests hrest ih =>
    have hbranch := branch_placed h
    obtain ⟨pending', hothers, hstop⟩ := hbranch.others
    rw [hstop]
    have hmiss := hbranch.tests htests
    have hgo := ih hothers
    cases chosen with
    | none => exact hmiss.trans hgo
    | some chosen => exact ⟨hmiss.trans hgo.1, hgo.2⟩

/-- Every `case` of a compiled program: its code evaluates the selector, then the labels in order up
to the first that matches.  It comes to the body of that branch, or to the `else` part where no label
matches, with the selector off the stack, and from the end of the body to the end of the `case`. -/
theorem compileProgram_case {labels : List String} {s : Stmt} {base : List UInt8} {st' : Coder}
    (hbase : base.length < 2 ^ 31) (hst : compileProgram labels s { code := base } = some st')
    {selector : Expr} {branches : Branches} {otherwise : Stmt} {env : Env} {n : Nat}
    (hpart : ⟨.caseOf selector branches otherwise, env, n⟩ ∈ s.parts {} 1) :
    ∃ pos elsePos known,
      Placed known st'.code pos ((Stmt.caseOf selector branches otherwise).listing env n) ∧
      Placed known st'.code elsePos
        (otherwise.listing env (n + 1 + selector.names + branches.names)) ∧
      elsePos + size format (otherwise.listing env (n + 1 + selector.names + branches.names)) =
        pos + size format ((Stmt.caseOf selector branches otherwise).listing env n) ∧
      ∀ (M : Type) (vm : StackVM M), vm.code = st'.code →
        ∀ (stack : List Value) (r r₁ r₂ : M) (v : Value) (es : List Expr)
          (chosen : Option (Part × Nat)), Evaluates vm selector (n + 1) pos stack r v r₁ →
        Selects vm env stack v branches (n + 1 + selector.names)
          (pos + size format (selector.listing (n + 1))) r₁ es chosen r₂ →
        match chosen with
        | some (body, start) => Passes vm (selector :: es) ⟨pos, stack, r⟩ ⟨start, stack, r₂⟩ ∧
            Placed known st'.code start (body.stmt.listing body.env body.number) ∧
            ∀ stack' r₃,
              vm.step ⟨start + size format (body.stmt.listing body.env body.number), stack', r₃⟩ =
                some ⟨pos + size format ((Stmt.caseOf selector branches otherwise).listing env n),
                  stack', r₃⟩
        | none => Passes vm (selector :: es) ⟨pos, stack, r⟩ ⟨elsePos, stack, r₂⟩ := by
  obtain ⟨pos, hplaced⟩ := compileProgram_part hbase hst hpart
  have heq : (Stmt.caseOf selector branches otherwise).listing env n =
      selector.listing (n + 1) ++ (branches.listing env (.point n) (n + 1 + selector.names) none ++
        ([op .pop] ++ (otherwise.listing env (n + 1 + selector.names + branches.names) ++
          [.mark (.point n)]))) := by
    simp only [Stmt.listing, append_assoc]
  rw [heq] at hplaced
  have hbranches := hplaced.right
  have hpop := hbranches.right.left
  have hfin := hbranches.right.right.right.mark
  have hend : pos + size format (selector.listing (n + 1)) +
      size format (branches.listing env (.point n) (n + 1 + selector.names) none) +
      size format [op .pop] +
      size format (otherwise.listing env (n + 1 + selector.names + branches.names)) =
      pos + size format ((Stmt.caseOf selector branches otherwise).listing env n) := by
    rw [heq, size_append, size_append, size_append, size_append, ← Nat.add_assoc, ← Nat.add_assoc,
      ← Nat.add_assoc]
    rfl
  rw [hend] at hfin
  refine ⟨pos, _, _, heq ▸ hplaced, hbranches.right.right.left, hend, ?_⟩
  · intro M vm hvm stack r r₁ r₂ v es chosen hselector hsel
    rw [← hvm] at hbranches hpop ⊢
    have harrives := hsel.passes hfin hbranches.left
    cases chosen with
    | none =>
      have hop := hpop.opcode
      have := harrives.trans (.step hop rfl (StackVM.step_pop hop))
      rw [append_nil] at this
      exact .eval hselector this
    | some chosen =>
      obtain ⟨hpasses, hbody, hstep⟩ := harrives
      exact ⟨.eval hselector hpasses, hbody, hstep⟩

end

/-! ### an example -/

/-- a machine whose other instructions are the two boolean constants -/
def booleanVM (code : List UInt8) : StackVM Unit where
  code := code
  limit := 8
  ext := ⟨fun _ _ _ => false, fun _ _ _ => none, fun _ _ => false, fun _ => false⟩
  other o σ :=
    match o with
    | .constTrue => some { σ with pc := σ.pc + 1, stack := makeBoolean true :: σ.stack }
    | .constFalse => some { σ with pc := σ.pc + 1, stack := makeBoolean false :: σ.stack }
    | _ => none

def trueExpr : Expr := .code [⟨[OpCode.constTrue.byte], wholeInstruction_of_fixed rfl⟩]

theorem evaluates_trueExpr {known : Aim → Option Nat} {code : List UInt8} {n pos : Nat}
    {stack : List Value} (h : Placed known code pos (trueExpr.listing n)) :
    Evaluates (booleanVM code) trueExpr n pos stack () (makeBoolean true) () := by
  refine Relation.ReflTransGen.single ?_
  have hop : (booleanVM code).chunk.opcode? pos = some .constTrue := Placed.opcode h
  unfold StackVM.step
  dsimp only
  rw [hop]
  rfl

/-- `case true of true: ; end` -/
def trueCase : Stmt := .caseOf trueExpr (.branch [.value trueExpr] .nothing .done) .nothing

theorem compileProgram_case_trueCase :
    ∃ (st' : Coder) (pos start : Nat), compileProgram [] trueCase { code := [] } = some st' ∧
      Passes (booleanVM st'.code) [trueExpr, trueExpr] ⟨pos, [], ()⟩ ⟨start, [], ()⟩ := by
  have hsome : (compileProgram [] trueCase { code := [] }).isSome = true := by decide +kernel
  obtain ⟨st', hst⟩ := Option.isSome_iff_exists.mp hsome
  obtain ⟨pos, elsePos, known, hplaced, _, _, hcase⟩ :=
    compileProgram_case (n := 1) (by decide) hst mem_cons_self
  have hlabel : Placed known st'.code (pos + 1 + 1) (trueExpr.listing 3) := by
    have hcode : Placed known st'.code pos ([op .constTrue] ++ ([op .dup] ++
        (trueExpr.listing 3 ++ ([op .equal, jumpTo .jumpIfFalse (.again 2), op .pop,
          jumpTo .jump (.point 1), .mark (.again 2), op .pop, .mark (.point 1)])))) := hplaced
    exact hcode.right.right.left
  have htest : Tests (booleanVM st'.code) [] (makeBoolean true) (.value trueExpr) 3 (pos + 1) () true
      () := .value (show 0 + 2 < 8 by decide) (evaluates_trueExpr hlabel) rfl
  have htests : TestsLabels (booleanVM st'.code) [] (makeBoolean true) [.value trueExpr] 2 (pos + 1)
      () [trueExpr] true () := .hit htest
  have hselects : Selects (booleanVM st'.code) {} [] (makeBoolean true)
      (.branch [.value trueExpr] .nothing .done) 2 (pos + 1) () [trueExpr] _ () := .hit htests
  exact ⟨st', pos, _, hst, (hcase Unit (booleanVM st'.code) rfl [] () () () (makeBoolean true) _ _
    (evaluates_trueExpr hplaced.left.left.left.left) hselects).1⟩

end Pscal.Statements
