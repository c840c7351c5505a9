import Pscal.Compiler.Statements
import Pscal.Lib.Assembly

/-!
# The listing of a statement

What a statement stands for, as an assembly listing: every jump names the place it goes to, and
every place is marked where it is.

* `Aim`  the places: a label of a routine, or a place inside a statement;
* `Expr.listing`, `Stmt.listing`, `Branches.listing`  the listings; `names` counts the places;
* `format`  how the operand of a jump is written.
-/

namespace Pscal.Statements

open Assembly

/-- A place.  The places of a statement are numbered; an `again` place is given twice, first as a
guess. -/
inductive Aim where
  | label (table : Nat) (name : String)
  | point (id : Nat)
  | again (id : Nat)
deriving DecidableEq, Repr

def Aim.id : Aim → Nat
  | .label table _ => table
  | .point id => id
  | .again id => id

def Aim.passes : Aim → Nat
  | .again _ => 2
  | _ => 1

def labelAim (table : Nat) (name : String) : Aim := .label table (toLowerString name)

/-- an operand is the distance from its end -/
def format : Format UInt8 where
  width := 4
  width_pos := by decide
  operand := int32Bytes
  hole := Coder.placeholder
  length_operand _ := rfl
  length_hole := rfl

abbrev Code := Listing UInt8 Aim

def op (o : OpCode) : Item UInt8 Aim := .code [o.byte]

def jumpTo (o : OpCode) (aim : Aim) : Item UInt8 Aim := .jump [o.byte] aim true

def jumpBack (o : OpCode) (aim : Aim) : Item UInt8 Aim := .jump [o.byte] aim false

/-! ## expressions -/

def Expr.names : Expr → Nat
  | .code _ => 0
  | .seq e f => e.names + f.names
  | .andThen a b => 2 + a.names + b.names
  | .orElse a b => 2 + a.names + b.names
  | .ternary c a b => 2 + c.names + a.names + b.names

/-- the listing, with the places numbered from `n` on -/
def Expr.listing : Expr → Nat → Code
  | .code instructions, _ => instructions.map fun i => .code i.bytes
  | .seq e f, n => e.listing n ++ f.listing (n + e.names)
  | .andThen a b, n =>
    a.listing (n + 2) ++ [jumpTo .jumpIfFalse (.point n)] ++ b.listing (n + 2 + a.names) ++
      [op .toBool, jumpTo .jump (.point (n + 1)), .mark (.point n), op .constFalse,
        .mark (.point (n + 1))]
  | .orElse a b, n =>
    a.listing (n + 2) ++ [jumpTo .jumpIfFalse (.point n), op .constTrue,
      jumpTo .jump (.point (n + 1)), .mark (.point n)] ++ b.listing (n + 2 + a.names) ++
      [op .toBool, .mark (.point (n + 1))]
  | .ternary c a b, n =>
    c.listing (n + 2) ++ [jumpTo .jumpIfFalse (.point n)] ++ a.listing (n + 2 + c.names) ++
      [jumpTo .jump (.point (n + 1)), .mark (.point n)] ++
      b.listing (n + 2 + c.names + a.names) ++ [.mark (.point (n + 1))]

def CaseLabel.names : CaseLabel → Nat
  | .value e => e.names
  | .range lower upper => lower.names + upper.names

def CaseLabel.listing : CaseLabel → Nat → Code
  | .value e, n => [op .dup] ++ e.listing n ++ [op .equal]
  | .range lower upper, n =>
    [op .dup, op .dup] ++ lower.listing n ++ [op .greaterEqual, op .swap] ++
      upper.listing (n + lower.names) ++ [op .lessEqual, op .and]

def sharedNames : List CaseLabel → Nat
  | [] => 0
  | label :: labels => 1 + label.names + sharedNames labels

/-- the false jump of the last label, which leads to the next branch -/
def lastAim : List CaseLabel → Nat → Option Aim
  | [], _ => none
  | [_], n => some (.again n)
  | label :: label' :: labels, n => lastAim (label' :: labels) (n + 1 + label.names)

/-- the labels of a branch whose body stands at `start` -/
def sharedListing (start : Aim) : List CaseLabel → Nat → Code
  | [], _ => []
  | [label], n =>
    label.listing (n + 1) ++ [jumpTo .jumpIfFalse (.again n), op .pop, jumpTo .jump start]
  | label :: label' :: labels, n =>
    label.listing (n + 1) ++ [jumpTo .jumpIfFalse (.point n), op .pop, jumpTo .jump start,
      .mark (.point n)] ++ sharedListing start (label' :: labels) (n + 1 + label.names)

namespace ForLoop

def stepNames (loop : ForLoop) : Nat := loop.var.names + loop.one.names + loop.store.names

def stepListing (loop : ForLoop) (n : Nat) : Code :=
  loop.var.listing n ++ loop.one.listing (n + loop.var.names) ++
    [op (if loop.down then .subtract else .add)] ++
    loop.store.listing (n + loop.var.names + loop.one.names)

def lastStepNames (loop : ForLoop) : Nat :=
  match loop.limit with
  | none => loop.stepNames
  | some limit => 1 + loop.var.names + limit.names + loop.stepNames

def lastStepListing (loop : ForLoop) (n : Nat) : Code :=
  match loop.limit with
  | none => loop.stepListing n
  | some limit =>
    loop.var.listing (n + 1) ++ limit.listing (n + 1 + loop.var.names) ++
      [op loop.stepTest, jumpTo .jumpIfFalse (.point n)] ++
      loop.stepListing (n + 1 + loop.var.names + limit.names) ++ [.mark (.point n)]

end ForLoop

/-! ## statements -/

structure Env where
  /-- the innermost loop, and whether `continue` knows its place there; a `break` goes to the place
  with the number of the loop, a `continue` to the next one -/
  loop : Option (Nat × Bool) := none
  table : Nat := 0
  inRoutine : Bool := false

mutual

def Stmt.names : Stmt → Nat
  | .code e => e.names
  | .nothing => 0
  | .seq s t => s.names + t.names
  | .ifThen c s => 1 + c.names + s.names
  | .ifElse c s t => 2 + c.names + s.names + t.names
  | .whileDo c s => 3 + c.names + s.names
  | .repeatUntil s c => 3 + s.names + c.names
  | .forTo loop s =>
    5 + loop.start.names + loop.store.names + loop.var.names + loop.entryBound.names + s.names +
      loop.var.names + loop.stepBound.names + loop.stepNames + loop.lastStepNames
  | .caseOf selector branches otherwise =>
    1 + selector.names + branches.names + otherwise.names
  | .label _ s => s.names
  | .goto _ => 0
  | .breakLoop => 0
  | .continueLoop => 0
  | .routine _ _ entry body exit => 3 + entry.names + body.names + exit.names

def Branches.names : Branches → Nat
  | .done => 0
  | .branch [] _ rest => rest.names
  | .branch [label] body rest => 1 + label.names + body.names + rest.names
  | .branch (label :: label' :: labels) body rest =>
    1 + sharedNames (label :: label' :: labels) + body.names + rest.names

end

def pendingMark : Option Aim → Code
  | none => []
  | some aim => [.mark aim]

mutual

def Stmt.listing (env : Env) : Stmt → Nat → Code
  | .code e, n => e.listing n
  | .nothing, _ => []
  | .seq s t, n => s.listing env n ++ t.listing env (n + s.names)
  | .ifThen c s, n =>
    c.listing (n + 1) ++ [jumpTo .jumpIfFalse (.point n)] ++ s.listing env (n + 1 + c.names) ++
      [.mark (.point n)]
  | .ifElse c s t, n =>
    c.listing (n + 2) ++ [jumpTo .jumpIfFalse (.point n)] ++ s.listing env (n + 2 + c.names) ++
      [jumpTo .jump (.point (n + 1)), .mark (.point n)] ++
      t.listing env (n + 2 + c.names + s.names) ++ [.mark (.point (n + 1))]
  | .whileDo c s, n =>
    [.mark (.point (n + 1))] ++ c.listing (n + 3) ++ [jumpTo .jumpIfFalse (.point (n + 2))] ++
      s.listing { env with loop := some (n, true) } (n + 3 + c.names) ++
      [jumpBack .jump (.point (n + 1)), .mark (.point (n + 2)), .mark (.point n)]
  | .repeatUntil s c, n =>
    [.mark (.point (n + 2))] ++ s.listing { env with loop := some (n, false) } (n + 3) ++
      [.mark (.point (n + 1))] ++ c.listing (n + 3 + s.names) ++
      [jumpBack .jumpIfFalse (.point (n + 2)), .mark (.point n)]
  | .forTo loop s, n =>
    let start := n + 5
    let var := start + loop.start.names + loop.store.names
    let body := var + loop.var.names + loop.entryBound.names
    let step := body + s.names
    let stepped := step + loop.var.names + loop.stepBound.names
    loop.start.listing start ++ loop.store.listing (start + loop.start.names) ++
      loop.var.listing var ++ loop.entryBound.listing (var + loop.var.names) ++
      [op loop.entryTest, jumpTo .jumpIfFalse (.point (n + 3)), .mark (.point (n + 2))] ++
      s.listing { env with loop := some (n, false) } body ++
      [.mark (.point (n + 1))] ++ loop.var.listing step ++
      loop.stepBound.listing (step + loop.var.names) ++
      [op loop.stepTest, jumpTo .jumpIfFalse (.point (n + 4))] ++ loop.stepListing stepped ++
      [jumpBack .jump (.point (n + 2)), .mark (.point (n + 4))] ++
      loop.lastStepListing (stepped + loop.stepNames) ++
      [.mark (.point (n + 3)), .mark (.point n)]
  | .caseOf selector branches otherwise, n =>
    selector.listing (n + 1) ++ branches.listing env (.point n) (n + 1 + selector.names) none ++
      [op .pop] ++ otherwise.listing env (n + 1 + selector.names + branches.names) ++
      [.mark (.point n)]
  | .label name s, n => [.mark (labelAim env.table name)] ++ s.listing env n
  | .goto name, _ => [jumpTo .jump (labelAim env.table name)]
  | .breakLoop, _ =>
    match env.loop with
    | none => []
    | some (id, _) => [jumpTo .jump (.point id)]
  | .continueLoop, _ =>
    match env.loop with
    | none => []
    | some (id, true) => [jumpBack .jump (.point (id + 1))]
    | some (id, false) => [jumpTo .jump (.point (id + 1))]
  | .routine declared _ entry body exit, n =>
    let skip := declared || !env.inRoutine
    (if skip then [jumpTo .jump (.point n)] else []) ++
      (if env.inRoutine then [jumpTo .jump (.point (n + 1))] else []) ++
      entry.listing (n + 2) ++
      body.listing { table := n + 2 + entry.names, inRoutine := true } (n + 3 + entry.names) ++
      exit.listing (n + 3 + entry.names + body.names) ++
      (if env.inRoutine then [.mark (.point (n + 1))] else []) ++
      (if skip then [.mark (.point n)] else [])

/-- the branches of a `case` that ends at `fin`, after a false jump to `pending` -/
def Branches.listing (env : Env) (fin : Aim) : Branches → Nat → Option Aim → Code
  | .done, _, pending => pendingMark pending
  | .branch [] _ rest, n, pending => pendingMark pending ++ rest.listing env fin n none
  | .branch [label] body rest, n, pending =>
    pendingMark pending ++ label.listing (n + 1) ++
      [jumpTo .jumpIfFalse (.again n), op .pop] ++ body.listing env (n + 1 + label.names) ++
      [jumpTo .jump fin] ++
      rest.listing env fin (n + 1 + label.names + body.names) (some (.again n))
  | .branch (label :: label' :: labels) body rest, n, pending =>
    let shared := label :: label' :: labels
    pendingMark pending ++ sharedListing (.point n) shared (n + 1) ++ [.mark (.point n)] ++
      body.listing env (n + 1 + sharedNames shared) ++ [jumpTo .jump fin] ++
      rest.listing env fin (n + 1 + sharedNames shared + body.names) (lastAim shared (n + 1))

end

end Pscal.Statements
