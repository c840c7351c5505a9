import Pscal.Compiler.StatementsSpec

/-!
# Where the jumps of a program lead

* `compileProgram_jumps`  every jump leads to the place that its statement means, and every
  placeholder is patched once, or twice where a `case` goes on to its next branch.
-/

namespace Pscal.Statements

open Assembly Coder Option

section
variable {st' : Coder} {labels : List String} {s : Stmt} {base : List UInt8}

/-- A compiled program holds the bytes of its listing, in which `goto` goes to the mark before the
statement of its label, `break` to the mark behind its loop, and `continue` to the mark before the
condition or the step of its loop. -/
theorem compileProgram_jumps (hbase : base.length < 2 ^ 31)
    (hst : compileProgram labels s { code := base } = some st') :
    st'.code = resolve format (target format 0 (programListing base s)) 0 (programListing base s) ∧
      ∀ site ∈ sites format 0 (programListing base s),
        ∃ t, (site.aim, t) ∈ marks format 0 (programListing base s) ∧
          (∀ t', (site.aim, t') ∈ marks format 0 (programListing base s) → t' = t) ∧
          BytecodeChunk.i32 { code := st'.code } site.pos = (t : Int) - (site.pos + 4 : Nat) ∧
          (site.late = true → st'.patched.count site.pos = site.aim.passes) := by
  obtain ⟨defs, htracks, hclosed, hsmall⟩ := compileProgram_sim hbase hst
  obtain ⟨hcode, hcount⟩ := htracks.assembled hclosed
  refine ⟨hcode, fun site hsite => ?_⟩
  obtain ⟨⟨aim, t⟩, hmark, haim⟩ := hclosed site hsite
  have haim : aim = site.aim := haim
  subst haim
  have hknown := (htracks.marked _ hmark).1
  refine ⟨t, hmark, fun t' hmark' => ?_, ?_, hcount site hsite⟩
  · have hknown' := (htracks.marked _ hmark').1
    exact some.inj (hknown'.symm.trans hknown)
  · obtain ⟨before, rest, hbytes, hpos⟩ := resolve_site (known defs) hsite
    rw [Nat.zero_add] at hpos
    rw [← htracks.code_eq, ← hpos] at hbytes
    have hplace : ∀ t', known defs site.aim = some t' → t' ≤ st'.code.length := by
      intro t' ht'
      obtain rfl := some.inj (ht'.symm.trans hknown)
      rw [htracks.length]
      have := (mark_bounds hmark).2
      omega
    have hread := i32_operandTo hbytes hsmall hplace
    rw [hknown] at hread
    rw [← hpos]
    exact hread

end

/-- `goto L; while c do begin break; continue end; L:` -/
def jumpingProgram : Stmt :=
  .seq (.goto "L")
    (.seq (.whileDo (.code []) (.seq .breakLoop .continueLoop)) (.label "l" .nothing))

theorem compileProgram_jumps_jumpingProgram :
    ∃ st', compileProgram ["L"] jumpingProgram { code := [] } = some st' ∧
      ∀ site ∈ sites format 0 (programListing [] jumpingProgram),
        ∃ t, (site.aim, t) ∈ marks format 0 (programListing [] jumpingProgram) ∧
          BytecodeChunk.i32 { code := st'.code } site.pos = (t : Int) - (site.pos + 4 : Nat) := by
  have hsome : (compileProgram ["L"] jumpingProgram { code := [] }).isSome = true := by
    decide +kernel
  obtain ⟨st', hst⟩ := isSome_iff_exists.mp hsome
  refine ⟨st', hst, fun site hsite => ?_⟩
  obtain ⟨t, hmark, _, hread, _⟩ := (compileProgram_jumps (by decide) hst).2 site hsite
  exact ⟨t, hmark, hread⟩

/-- a `case` with one branch and one value -/
def oneBranch : Stmt := .caseOf (.code []) (.branch [.value (.code [])] .nothing .done) .nothing

/-- the false jump of its label is patched twice -/
theorem placeholder_patched_twice :
    ¬ ∀ (labels : List String) (s : Stmt) (base : List UInt8) (st' : Coder),
      base.length < 2 ^ 31 → compileProgram labels s { code := base } = some st' →
        ∀ site ∈ sites format 0 (programListing base s), site.late = true →
          st'.patched.count site.pos = 1 := by
  intro hall
  have hsome : (compileProgram [] oneBranch { code := [] }).isSome = true := by decide +kernel
  obtain ⟨st', hst⟩ := isSome_iff_exists.mp hsome
  have hmem : (⟨3, .again 2, true⟩ : Site Aim) ∈ sites format 0 (programListing [] oneBranch) := by
    decide +kernel
  have hone := hall [] oneBranch [] st' (by decide) hst _ hmem rfl
  have htwice : ((compileProgram [] oneBranch { code := [] }).map fun st => st.patched.count 3) =
      some 2 := by
    decide +kernel
  rw [hst] at htwice
  have htwice : st'.patched.count 3 = 2 := some.inj htwice
  rw [htwice] at hone
  cases hone

end Pscal.Statements
