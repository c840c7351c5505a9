import Pscal.Compiler.JumpsLand
import Pscal.VM.StackMachine

/-!
# The code of a statement at its place

* `Stmt.parts`  the statements inside a statement, with where they stand;
* `Placed`  items at their place in the code of a program;
* `compileProgram_part`  every part of a compiled program stands in its code;
* `Placed.opcode`, `Placed.jump`  what the VM reads there.
-/

namespace Pscal.Statements

open Assembly Coder List

/-! ## parts of a statement -/

/-- a statement, where it stands, and the number of its first place -/
structure Part where
  stmt : Stmt
  env : Env
  number : Nat

mutual

/-- the statement, and those inside it -/
def Stmt.parts (env : Env) (n : Nat) (s : Stmt) : List Part :=
  ⟨s, env, n⟩ :: match s with
    | .seq s t => s.parts env n ++ t.parts env (n + s.names)
    | .ifThen c s => s.parts env (n + 1 + c.names)
    | .ifElse c s t =>
      s.parts env (n + 2 + c.names) ++ t.parts env (n + 2 + c.names + s.names)
    | .whileDo c s => s.parts { env with loop := some (n, true) } (n + 3 + c.names)
    | .repeatUntil s _ => s.parts { env with loop := some (n, false) } (n + 3)
    | .forTo loop s =>
      s.parts { env with loop := some (n, false) }
        (n + 5 + loop.start.names + loop.store.names + loop.var.names + loop.entryBound.names)
    | .caseOf selector branches otherwise =>
      branches.parts env (n + 1 + selector.names) ++
        otherwise.parts env (n + 1 + selector.names + branches.names)
    | .label _ s => s.parts env n
    | .routine _ _ entry body _ =>
      body.parts { table := n + 2 + entry.names, inRoutine := true } (n + 3 + entry.names)
    | _ => []

def Branches.parts (env : Env) (n : Nat) (bs : Branches) : List Part :=
  match bs with
  | .done => []
  | .branch [] _ rest => rest.parts env n
  | .branch [label] body rest =>
    body.parts env (n + 1 + label.names) ++
      rest.parts env (n + 1 + label.names + body.names)
  | .branch (label :: label' :: labels) body rest =>
    body.parts env (n + 1 + sharedNames (label :: label' :: labels)) ++
      rest.parts env (n + 1 + sharedNames (label :: label' :: labels) + body.names)

end

def Part.In (part : Part) (items : Code) : Prop :=
  ∃ before rest, items = before ++ part.stmt.listing part.env part.number ++ rest

namespace Part.In

variable {part : Part} {items : Code}

theorem left (h : part.In items) (items' : Code) : part.In (items ++ items') := by
  obtain ⟨before, rest, rfl⟩ := h
  exact ⟨before, rest ++ items', append_assoc _ _ _⟩

theorem right (h : part.In items) (items' : Code) : part.In (items' ++ items) := by
  obtain ⟨before, rest, rfl⟩ := h
  exact ⟨items' ++ before, rest, by simp only [append_assoc]⟩

end Part.In

mutual

theorem Stmt.parts_in {part : Part} {env : Env} {n : Nat} {s : Stmt}
    (h : part ∈ s.parts env n) : part.In (s.listing env n) := by
  unfold Stmt.parts at h
  rcases mem_cons.mp h with rfl | h
  · exact ⟨[], [], by rw [append_nil, nil_append]⟩
  cases s with
  | code e => cases h
  | nothing => cases h
  | seq s t =>
    rcases mem_append.mp h with h | h
    · exact (Stmt.parts_in h).left _
    · exact (Stmt.parts_in h).right _
  | ifThen c s => exact ((Stmt.parts_in (s := s) h).right _).left _
  | ifElse c s t =>
    rcases mem_append.mp h with h | h
    · exact ((((Stmt.parts_in h).right _).left _).left _).left _
    · exact ((Stmt.parts_in h).right _).left _
  | whileDo c s => exact ((Stmt.parts_in (s := s) h).right _).left _
  | repeatUntil s c =>
    exact ((((Stmt.parts_in (s := s) h).right _).left _).left _).left _
  | forTo loop s =>
    exact ((((((((Stmt.parts_in (s := s) h).right _).left _).left _).left _).left _).left _).left
      _).left _ |>.left _
  | caseOf selector branches otherwise =>
    rcases mem_append.mp h with h | h
    · exact ((((Branches.parts_in h _ _).right _).left _).left _).left _
    · exact ((Stmt.parts_in h).right _).left _
  | label name s => exact (Stmt.parts_in (s := s) h).right _
  | goto name => cases h
  | breakLoop => cases h
  | continueLoop => cases h
  | routine declared labels entry body exit =>
    exact ((((Stmt.parts_in (s := body) h).right _).left _).left _).left _

theorem Branches.parts_in {part : Part} {env : Env} {n : Nat} {b : Branches}
    (h : part ∈ b.parts env n) (fin : Aim) (pending : Option Aim) :
    part.In (b.listing env fin n pending) := by
  unfold Branches.parts at h
  match b, h with
  | .done, h => cases h
  | .branch [] body rest, h => exact (Branches.parts_in (b := rest) h _ _).right _
  | .branch [label] body rest, h =>
    rcases mem_append.mp h with h | h
    · exact (((Stmt.parts_in h).right _).left _).left _
    · exact (Branches.parts_in h _ _).right _
  | .branch (label :: label' :: labels) body rest, h =>
    rcases mem_append.mp h with h | h
    · exact (((Stmt.parts_in h).right _).left _).left _
    · exact (Branches.parts_in h _ _).right _

end

/-! ## the code of a part -/

/-- The items stand at `pos` in the code, and `known` gives the places in it. -/
structure Placed (known : Aim → Option Nat) (code : List UInt8) (pos : Nat) (items : Code) :
    Prop where
  stands : Stands format known code pos items
  small : code.length < 2 ^ 31
  inside : ∀ a t, known a = some t → t ≤ code.length

namespace Placed

variable {known : Aim → Option Nat} {code : List UInt8} {pos : Nat} {items items' : Code}

theorem left (h : Placed known code pos (items ++ items')) : Placed known code pos items :=
  ⟨h.stands.left, h.small, h.inside⟩

theorem right (h : Placed known code pos (items ++ items')) :
    Placed known code (pos + size format items) items' :=
  ⟨h.stands.right, h.small, h.inside⟩

theorem mark {a : Aim} (h : Placed known code pos [.mark a]) : known a = some pos := h.stands.mark

section
variable {M : Type} {vm : StackVM M}

theorem opcode {o : OpCode} (h : Placed known vm.code pos [op o]) : vm.chunk.opcode? pos = some o := by
  obtain ⟨before, rest, hcode, hpos⟩ := h.stands.item
  have hbyte : vm.chunk.byte pos = o.byte := by
    show vm.code.getD pos 0 = _
    rw [hcode, getD_append_right _ _ _ _ (Nat.le_of_eq hpos), hpos, Nat.sub_self]
    rfl
  rw [BytecodeChunk.opcode?, hbyte]
  exact o.ofByte_byte

theorem operand {o : OpCode} {b : UInt8} (h : Placed known vm.code pos [.code [o.byte, b]]) :
    vm.chunk.opcode? pos = some o ∧ vm.chunk.byte (pos + 1) = b := by
  obtain ⟨before, rest, hcode, hpos⟩ := h.stands.item
  have hread : ∀ k, vm.chunk.byte (pos + k) = ([o.byte, b] ++ rest).getD k 0 := by
    intro k
    show vm.code.getD (pos + k) 0 = _
    rw [hcode, getD_append_right _ _ _ _ (by omega), hpos, Nat.add_sub_cancel_left]
    rfl
  refine ⟨?_, hread 1⟩
  rw [BytecodeChunk.opcode?, show vm.chunk.byte pos = o.byte from hread 0]
  exact o.ofByte_byte

theorem jump {o : OpCode} {a : Aim} {late : Bool} {t : Nat}
    (h : Placed known vm.code pos [.jump [o.byte] a late]) (ha : known a = some t) :
    vm.chunk.opcode? pos = some o ∧ vm.destination pos = t := by
  obtain ⟨before, rest, hcode, hpos⟩ := h.stands.item
  have hbyte : vm.chunk.byte pos = o.byte := by
    show vm.code.getD pos 0 = _
    rw [hcode, getD_append_right _ _ _ _ (Nat.le_of_eq hpos), hpos, Nat.sub_self]
    rfl
  have hlen : (before ++ [o.byte]).length = pos + 1 := by
    rw [length_append, hpos]
    rfl
  have hoperand : vm.code = (before ++ [o.byte]) ++
      (operandTo format (known a) ((before ++ [o.byte]).length + 4) ++ rest) := by
    rw [hlen, append_assoc, hcode]
    rfl
  have hread := i32_operandTo hoperand h.small (h.inside a)
  rw [hlen, ha] at hread
  refine ⟨by rw [BytecodeChunk.opcode?, hbyte]; exact o.ofByte_byte, ?_⟩
  unfold StackVM.destination
  rw [show vm.chunk.i32 (pos + 1) = (t : Int) - (pos + 1 + 4 : Nat) from hread]
  omega

end

end Placed

theorem compileProgram_part {labels : List String} {s : Stmt} {base : List UInt8} {st' : Coder}
    (hbase : base.length < 2 ^ 31) (hst : compileProgram labels s { code := base } = some st')
    {part : Part} (hpart : part ∈ s.parts {} 1) :
    ∃ pos, Placed (target format 0 (programListing base s)) st'.code pos
      (part.stmt.listing part.env part.number) := by
  obtain ⟨defs, htracks, hclosed, hsmall⟩ := compileProgram_sim hbase hst
  have hplaced : Placed (target format 0 (programListing base s)) st'.code 0
      (programListing base s) := by
    refine ⟨htracks.stands hclosed, hsmall, fun a t ht => ?_⟩
    rw [htracks.length]
    have := (mark_bounds (mem_of_target ht)).2
    omega
  obtain ⟨before, rest, hlisting⟩ := Stmt.parts_in hpart
  rw [programListing, hlisting] at hplaced ⊢
  exact ⟨_, hplaced.left.right.left.right⟩

end Pscal.Statements
