import Mathlib
import Pscal.Cache.SectionsSpec

/-!
# What the reader of the LINES section takes

`readLinesSection` of `core/cache.c`, for any input.

* `lineRuns`  the runs that an input carries, with distances of 64 bits;
* `AddsUp`  the runs start at `0` and end within the code;
* `CutFits`  they do so where a distance is cut to a C `int`;
* `readRuns_accepts`  the reader takes what fits after the cut;
* `linesSection_codec`  the round trip, and when the runs of what is taken add up.
-/

namespace Pscal

open Wire List Option Reader

section
variable {σ : Type}

/-- a run: its distance from the one before it, and the change of line -/
def lineRun : Reader σ (UInt64 × Int64) := do
  let pcDelta ← curVarint
  let lineDelta ← curSVarint
  if ← Reader.hasError then Reader.fail
  return (pcDelta, lineDelta)

/-- the runs after their number, which is `0` past the end of the input -/
def lineRuns : Reader σ (List (UInt64 × Int64)) := do
  let runCount ← curVarint
  Reader.times lineRun runCount.toNat

end

/-- The first run starts at `0`, and the last one starts within the code, whose rest it is. -/
def AddsUp (count : Nat) : List (UInt64 × Int64) → Prop
  | [] => count = 0
  | first :: runs => first.1 = 0 ∧ (runs.map (·.1.toNat)).sum ≤ count

/-- `(int)pc_delta` -/
def cutDelta (pcDelta : UInt64) : Int := pcDelta.toUInt32.toInt32.toInt

/-- the starts behind `pc`, by distances that are cut, come in order within the code -/
def CutFits (count : Nat) : Nat → List (UInt64 × Int64) → Prop
  | pc, [] => pc ≤ count
  | pc, run :: runs =>
    0 ≤ cutDelta run.1 ∧ CutFits count (pc + (cutDelta run.1).toNat) runs

/-- the runs that `readRuns` takes: all of them where the first is behind others -/
def Taken (count : Nat) (first : Bool) (pc : Nat) (runs : List (UInt64 × Int64)) : Prop :=
  CutFits count pc runs ∧ ∀ run ∈ runs.head?, first = true → pc + cutDelta run.1 = 0

/-! ## distances -/

theorem cutDelta_eq (d : UInt64) : cutDelta d = (d.toNat : Int).bmod (2 ^ 32) := by
  show d.toUInt32.toBitVec.toInt = _
  rw [BitVec.toInt_eq_toNat_bmod]
  show ((d.toUInt32.toNat : Nat) : Int).bmod (2 ^ 32) = _
  rw [UInt64.toNat_toUInt32, Int.natCast_emod]
  exact Int.emod_bmod _ _

theorem cutDelta_of_lt {d : UInt64} (h : d.toNat < 2 ^ 31) : cutDelta d = d.toNat := by
  rw [cutDelta_eq, Int.bmod_eq_of_le] <;> omega

theorem cutDelta_neg {d : UInt64} (h : 2 ^ 31 ≤ d.toNat) (h' : d.toNat < 2 ^ 32) :
    cutDelta d < 0 := by
  rw [cutDelta_eq, Int.bmod_def]
  omega

section
variable {count pc : Nat} {runs : List (UInt64 × Int64)}

theorem CutFits.pc_le (h : CutFits count pc runs) : pc ≤ count := by
  induction runs generalizing pc with
  | nil => exact h
  | cons run runs ih => exact Nat.le_trans (Nat.le_add_right _ _) (ih h.2)

theorem CutFits.sum_le (h : CutFits count pc runs) (hcut : ∀ run ∈ runs, run.1.toNat < 2 ^ 32) :
    pc + (runs.map (·.1.toNat)).sum ≤ count := by
  induction runs generalizing pc with
  | nil => exact h
  | cons run runs ih =>
    obtain ⟨hrun, hruns⟩ := forall_mem_cons.mp hcut
    obtain ⟨hnonneg, hfits⟩ := h
    have hlt : run.1.toNat < 2 ^ 31 := by
      by_contra hge
      have hneg := cutDelta_neg (Nat.le_of_not_lt hge) hrun
      omega
    have hle := ih hfits hruns
    rw [cutDelta_of_lt hlt, Int.toNat_natCast] at hle
    rw [map_cons, sum_cons]
    omega

end

/-! ## what is taken -/

section
variable {σ α β : Type}

def Accepts (m : Reader σ α) (c : Input) (s : σ) : Prop := (m c s).1.isSome = true

theorem reader_bind_assoc {γ : Type} (m : Reader σ α) (f : α → Reader σ β) (g : β → Reader σ γ) :
    (m >>= f) >>= g = m >>= fun a => f a >>= g := by
  funext c s
  show Reader.bind (Reader.bind m f) g c s = Reader.bind m (fun a => Reader.bind (f a) g) c s
  simp only [Reader.bind]
  rcases m c s with ⟨_ | a, c', s'⟩ <;> rfl

variable {c : Input} {m : Reader σ α} {s : σ}

theorem accepts_bind {f : α → Reader σ β} :
    Accepts (m >>= f) c s ↔ ∃ a c' s', m c s = (some a, c', s') ∧ Accepts (f a) c' s' := by
  show (Reader.bind m f c s).1.isSome = true ↔ _
  rw [Reader.bind]
  rcases h : m c s with ⟨_ | a, c', s'⟩
  · simp
  · refine ⟨fun ha => ⟨a, c', s', rfl, ha⟩, ?_⟩
    rintro ⟨a, c', s', heq, ha⟩
    cases heq
    exact ha

theorem not_accepts_fail (c : Input) (s : σ) : ¬ Accepts (Reader.fail : Reader σ α) c s :=
  Bool.false_ne_true

theorem times_succ_some {n : Nat} {as : List α} :
    (Reader.times m (n + 1) c s).1 = some as ↔ ∃ a c' s' rest, m c s = (some a, c', s') ∧
      (Reader.times m n c' s').1 = some rest ∧ as = a :: rest := by
  show (Reader.bind m _ c s).1 = _ ↔ _
  rw [Reader.bind]
  rcases h : m c s with ⟨_ | a, c', s'⟩
  · simp
  show (Reader.bind (Reader.times m n) _ c' s').1 = _ ↔ _
  rw [Reader.bind]
  rcases h' : times m n c' s' with ⟨_ | rest, c'', s''⟩
  · simp [h']
  · show some (a :: rest) = some as ↔ _
    constructor
    · intro heq
      exact ⟨a, c', s', rest, rfl, by rw [h'], (some.inj heq).symm⟩
    · rintro ⟨a, c', s', rest', heq, hrest, rfl⟩
      cases heq
      rw [h'] at hrest
      rw [some.inj hrest]

theorem readRuns_succ (count k : Nat) (first : Bool) (pc : Nat) (line : Int32)
    (lines : List Int32) :
    readRuns (σ := σ) count (k + 1) first pc line lines = lineRun >>= fun run =>
      if pc + cutDelta run.1 < pc ∨ (count : Int) < pc + cutDelta run.1 then Reader.fail
      else if first ∧ pc + cutDelta run.1 ≠ 0 then Reader.fail
      else readRuns count k false (pc + cutDelta run.1).toNat (line.toInt64 + run.2).toInt32
        (if first then lines
          else lines ++ replicate ((pc + cutDelta run.1).toNat - pc) line) := by
  rw [readRuns, lineRun, reader_bind_assoc]
  refine congrArg (curVarint >>= ·) (funext fun d => ?_)
  rw [reader_bind_assoc]
  refine congrArg (curSVarint >>= ·) (funext fun l => ?_)
  rw [reader_bind_assoc]
  refine congrArg (hasError >>= ·) (funext fun e => ?_)
  cases e with
  | true => rfl
  | false =>
    show (if pc + cutDelta d < pc ∨ (count : Int) < pc + cutDelta d then _ else _) =
      if pc + cutDelta d < pc ∨ (count : Int) < pc + cutDelta d then _ else _
    split
    · rfl
    show (if first = true ∧ pc + cutDelta d ≠ 0 then _ else _) =
      if first = true ∧ pc + cutDelta d ≠ 0 then _ else _
    split
    · rfl
    · rfl

theorem readRuns_accepts {count k pc : Nat} {first : Bool} {line : Int32} {lines : List Int32}
    (hpc : pc ≤ count) : Accepts (readRuns count k first pc line lines) c s ↔
      ∃ runs, (Reader.times lineRun k c s).1 = some runs ∧ Taken count first pc runs := by
  induction k generalizing first pc line lines c s with
  | zero => exact iff_of_true rfl ⟨[], rfl, hpc, by simp⟩
  | succ k ih =>
    rw [readRuns_succ, accepts_bind]
    constructor
    · rintro ⟨run, c', s', hrun, haccepts⟩
      split at haccepts
      · exact absurd haccepts (not_accepts_fail c' s')
      split at haccepts
      · exact absurd haccepts (not_accepts_fail c' s')
      next hbounds hfirst =>
      obtain ⟨rest, hrest, htaken, -⟩ := (ih (by omega)).mp haccepts
      have hpc' : (pc + cutDelta run.1).toNat = pc + (cutDelta run.1).toNat := by omega
      refine ⟨run :: rest, times_succ_some.mpr ⟨run, c', s', rest, hrun, hrest, rfl⟩, ?_, ?_⟩
      · exact ⟨by omega, hpc' ▸ htaken⟩
      · intro run' hrun' hf
        obtain rfl := some.inj hrun'
        by_contra hne
        exact hfirst ⟨hf, hne⟩
    · rintro ⟨runs, hruns, htaken, hfirst⟩
      obtain ⟨run, c', s', rest, hrun, hrest, rfl⟩ := times_succ_some.mp hruns
      obtain ⟨hnonneg, hfits⟩ := htaken
      have hle := hfits.pc_le
      have hpc' : (pc + cutDelta run.1).toNat = pc + (cutDelta run.1).toNat := by omega
      refine ⟨run, c', s', hrun, ?_⟩
      rw [if_neg (by omega), if_neg fun h => h.2 (hfirst run rfl h.1)]
      exact (ih (by omega)).mpr ⟨rest, hrest, hpc' ▸ hfits, by simp⟩

theorem length_times {n : Nat} {as : List α} (h : (Reader.times m n c s).1 = some as) :
    as.length = n := by
  induction n generalizing c s as with
  | zero =>
    obtain rfl := some.inj h
    rfl
  | succ n ih =>
    obtain ⟨a, c', s', rest, -, hrest, rfl⟩ := times_succ_some.mp h
    rw [length_cons, ih hrest]

theorem groups_error (n shift result : Nat) (c : Input) (s : σ) : ∃ v c',
    Reader.groups n shift result c s = (some v, c', s) ∧ (c'.error = true → v = 0) := by
  induction n generalizing shift result c with
  | zero => exact ⟨0, _, rfl, fun _ => rfl⟩
  | succ n ih =>
    rw [groups]
    obtain ⟨byte, c', hbyte⟩ : ∃ byte c', number 1 c s = (some byte, c', s) := by
      show ∃ byte c', Reader.bind (Reader.bytes 1) _ c s = _
      by_cases hend : c.error = true ∨ c.rest.length < 1
      · rw [Reader.bind, Reader.bytes, if_pos hend]
        exact ⟨0, _, rfl⟩
      · rw [Reader.bind, Reader.bytes, if_neg hend]
        exact ⟨_, _, rfl⟩
    have hstep : ∀ f : Nat → Reader σ Nat, (number 1 >>= f) c s = f byte c' s := by
      intro f
      show Reader.bind _ f c s = _
      rw [Reader.bind, hbyte]
    rw [hstep]
    show ∃ v c'', (if c'.error = true then _ else _ : Reader σ Nat) c' s = _ ∧ _
    by_cases herror : c'.error = true
    · rw [if_pos herror]
      exact ⟨0, c', rfl, fun _ => rfl⟩
    rw [if_neg herror]
    by_cases hbyte : byte < 128
    · rw [if_pos hbyte]
      exact ⟨_, c', rfl, fun h => absurd h herror⟩
    · rw [if_neg hbyte]
      exact ih _ _ c'

theorem curVarint_some (c : Input) (s : σ) :
    ∃ v c', curVarint c s = (some v, c', s) ∧ (c'.error = true → v = 0) := by
  obtain ⟨v, c', hv, herror⟩ := groups_error 10 0 0 c s
  refine ⟨UInt64.ofNat v, c', ?_, fun h => by rw [herror h]; rfl⟩
  show Reader.bind (Reader.groups 10 0 0) _ c s = _
  rw [Reader.bind, hv]
  rfl

theorem readLinesSection_accepts {count : Nat} {c' : Input} {runCount : UInt64}
    (hcount : curVarint c s = (some runCount, c', s)) : Accepts (readLinesSection count) c s ↔
      if c'.error = true ∨ count < runCount.toNat then count = 0 ∧ runCount = 0
      else count = 0 ∨ ∃ runs, (Reader.times lineRun runCount.toNat c' s).1 = some runs ∧
        Taken count true 0 runs := by
  have hstep : ∀ f : UInt64 → Reader σ (List Int32), (curVarint >>= f) c s = f runCount c' s := by
    intro f
    show Reader.bind _ f c s = _
    rw [Reader.bind, hcount]
  rw [Accepts, readLinesSection, hstep]
  show (((if c'.error = true ∨ count < runCount.toNat then _ else _ : Reader σ _) c' s).1.isSome =
    true) ↔ _
  by_cases hover : c'.error = true ∨ count < runCount.toNat
  · rw [if_pos hover, if_pos hover]
    by_cases hnone : count = 0 ∧ runCount = 0
    · rw [if_pos hnone]
      exact iff_of_true rfl hnone
    · rw [if_neg hnone]
      exact iff_of_false (not_accepts_fail c' s) hnone
  · rw [if_neg hover, if_neg hover]
    by_cases hzero : count = 0
    · rw [if_pos hzero]
      exact iff_of_true rfl (.inl hzero)
    · rw [if_neg hzero]
      exact (readRuns_accepts (Nat.zero_le _)).trans (or_iff_right hzero).symm

theorem lineRuns_some {c' : Input} {runCount : UInt64}
    (hcount : curVarint c s = (some runCount, c', s)) :
    (lineRuns c s).1 = (Reader.times lineRun runCount.toNat c' s).1 := by
  show (Reader.bind curVarint _ c s).1 = _
  rw [Reader.bind, hcount]

end

/-! ## runs that add up -/

/-- The runs are taken though they do not add up: there are none for some code, or a distance has
more than 32 bits, and fits when it is cut. -/
def Lossy (count : Nat) (runs : List (UInt64 × Int64)) : Prop :=
  (runs = [] ∧ 0 < count) ∨
    (runs.length ≤ count ∧ Taken count true 0 runs ∧ ∃ run ∈ runs, 2 ^ 32 ≤ run.1.toNat)

section
variable {count : Nat} {runs : List (UInt64 × Int64)}

theorem Taken.addsUp (h : Taken count true 0 runs) (hlossy : ¬ Lossy count runs)
    (hlength : runs.length ≤ count) : AddsUp count runs := by
  cases runs with
  | nil =>
    by_contra hcount
    exact hlossy (.inl ⟨rfl, Nat.pos_of_ne_zero hcount⟩)
  | cons first runs =>
    have hshort : ∀ run ∈ first :: runs, run.1.toNat < 2 ^ 32 := by
      intro run hrun
      by_contra hlong
      exact hlossy (.inr ⟨hlength, h, run, hrun, Nat.le_of_not_lt hlong⟩)
    have hzero : cutDelta first.1 = 0 := by
      have hstart := h.2 first rfl rfl
      omega
    have hfirst : first.1.toNat = 0 := by
      by_cases hlt : first.1.toNat < 2 ^ 31
      · rw [cutDelta_of_lt hlt] at hzero
        omega
      · have hneg := cutDelta_neg (Nat.le_of_not_lt hlt) (hshort first mem_cons_self)
        omega
    have hrest := h.1.2
    rw [hzero] at hrest
    have hsum := hrest.sum_le fun run hrun => hshort run (mem_cons_of_mem _ hrun)
    exact ⟨UInt64.toNat_inj.mp hfirst, by omega⟩

theorem Lossy.not_addsUp (h : Lossy count runs) (hcount : count < 2 ^ 31) :
    ¬ AddsUp count runs := by
  rcases h with ⟨rfl, hpos⟩ | ⟨-, -, run, hrun, hlong⟩
  · exact Nat.ne_of_gt hpos
  · cases runs with
    | nil => cases hrun
    | cons first runs =>
      rintro ⟨hfirst, hsum⟩
      rcases mem_cons.mp hrun with rfl | hrun
      · rw [hfirst] at hlong
        exact absurd hlong (by decide)
      · have hle := single_le_sum (fun n _ => Nat.zero_le n) _
          (List.mem_map_of_mem (f := fun run : UInt64 × Int64 => run.1.toNat) hrun)
        omega

end

/-- **The section is read back, and of an input the runs add up if it is taken, unless they are
lost by the cut or there are none.** -/
theorem linesSection_codec {σ κ : Type} : (∀ chunk : CachedChunk κ, chunk.lines.length < 2 ^ 31 →
      ReadsBack (σ := σ) (readLinesSection chunk.lines.length) (writeLinesSection chunk)
        chunk.lines) ∧
    ∀ (count : Nat) (bs : Bytes) (s : σ), count < 2 ^ 31 →
      ((Accepts (readLinesSection count) { rest := bs } s →
          ∃ runs, (lineRuns { rest := bs } s).1 = some runs ∧ AddsUp count runs) ↔
        ∀ runs, (lineRuns { rest := bs } s).1 = some runs →
          (curVarint { rest := bs } s).2.1.error = false → ¬ Lossy count runs) := by
  refine ⟨fun chunk hlt => readsBack_linesSection hlt, fun count bs s hcount => ?_⟩
  obtain ⟨runCount, c', hread, herror⟩ := curVarint_some { rest := bs } s
  rw [readLinesSection_accepts hread, lineRuns_some hread, hread]
  constructor
  · intro h runs hruns hno hlossy
    have hno' : c'.error = false := hno
    have hlength := length_times hruns
    have hle : runs.length ≤ count := by
      rcases hlossy with ⟨rfl, -⟩ | ⟨hle, -⟩
      · exact Nat.zero_le _
      · exact hle
    have htaken : Taken count true 0 runs := by
      rcases hlossy with ⟨rfl, -⟩ | ⟨-, htaken, -⟩
      · exact ⟨Nat.zero_le _, by simp⟩
      · exact htaken
    rw [if_neg (by rw [hno']; simp; omega)] at h
    obtain ⟨runs', hruns', hsum⟩ := h (.inr ⟨runs, hruns, htaken⟩)
    rw [hruns] at hruns'
    cases hruns'
    exact hlossy.not_addsUp hcount hsum
  · intro h haccepts
    have hnone : runCount = 0 → (times (lineRun (σ := σ)) runCount.toNat c' s).1 = some [] := by
      rintro rfl
      rfl
    split at haccepts
    · exact ⟨[], hnone haccepts.2, haccepts.1⟩
    next hover =>
    rw [not_or] at hover
    rcases haccepts with hzero | ⟨runs, hruns, htaken⟩
    · have hcount0 : runCount = 0 := UInt64.toNat_inj.mp (by show _ = 0; omega)
      exact ⟨[], hnone hcount0, hzero⟩
    · have hlength := length_times hruns
      exact ⟨runs, hruns, htaken.addsUp (h runs hruns (Bool.not_eq_true _ ▸ hover.1)) (by omega)⟩

/-- one byte of code, and a run at a distance of `2 ^ 32` -/
theorem linesSection_lossy :
    (readLinesSection 1 { rest := [1, 0x80, 0x80, 0x80, 0x80, 0x10, 2] } ()).1 = some [1] ∧
      ∀ runs, (lineRuns { rest := [1, 0x80, 0x80, 0x80, 0x80, 0x10, 2] } ()).1 = some runs →
        ¬ AddsUp 1 runs := by
  have hruns : (lineRuns { rest := [1, 0x80, 0x80, 0x80, 0x80, 0x10, 2] } ()).1 =
      some [(4294967296, 1)] := rfl
  refine ⟨rfl, fun runs h => ?_⟩
  rw [hruns] at h
  obtain rfl := some.inj h
  exact fun hsum => absurd hsum.1 (by decide)

end Pscal
