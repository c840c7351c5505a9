import Pscal.Verify.Walk

/-!
# The entries and their walks

`collectedEntries` lists the starts, sorted; `dedupeEntries` keeps one entry per address; each
entry is claimed before any walk runs.  `WalksInv` is what holds between two walks, and
`pscalVerifyBytecodeChunk_walks` what an accepted chunk leaves behind.
-/

namespace Pscal

open BytecodeChunk List Function

/-! ## the collected entries -/

theorem mem_collectProcedures (heap : SymbolRef → Symbol) (table : HashTable) (e : AddrSym) :
    e ∈ collectProcedures heap table ↔ ∃ r ∈ table.refs, (heap r).isAlias = false ∧
      (heap r).isDefined = true ∧ 0 ≤ (heap r).bytecodeAddress ∧
      e = ⟨(heap r).bytecodeAddress.toNat, some r⟩ := by
  induction table with
  | nil => simp [collectProcedures, HashTable.refs]
  | node r nested next ihn ihx =>
    have hhead : e ∈ (if (heap r).isAlias = false ∧ (heap r).isDefined = true ∧
        0 ≤ (heap r).bytecodeAddress then [⟨(heap r).bytecodeAddress.toNat, some r⟩] else []) ↔
        ((heap r).isAlias = false ∧ (heap r).isDefined = true ∧ 0 ≤ (heap r).bytecodeAddress ∧
          e = ⟨(heap r).bytecodeAddress.toNat, some r⟩) := by
      split
      · simp_all
      · simp only [not_mem_nil, false_iff]
        tauto
    rw [collectProcedures, HashTable.refs]
    rw [mem_append, mem_append, hhead, ihn, ihx]
    simp only [mem_cons, mem_append]
    constructor
    · rintro (h | ⟨q, hq, h⟩ | ⟨q, hq, h⟩)
      · exact ⟨r, .inl rfl, h⟩
      · exact ⟨q, .inr (.inl hq), h⟩
      · exact ⟨q, .inr (.inr hq), h⟩
    · rintro ⟨q, rfl | hq | hq, h⟩
      · exact .inl h
      · exact .inr (.inl ⟨q, hq, h⟩)
      · exact .inr (.inr ⟨q, hq, h⟩)

variable {ctx : VCtx}

theorem mem_threadEntries (hs : ctx.Scanned) (e : AddrSym) :
    e ∈ threadEntries ctx ↔ ∃ pc, InstrStart ctx.chunk pc ∧
      ctx.chunk.opcode? pc = some .threadCreate ∧
      e = ⟨ctx.chunk.u32 (pc + 1), findProcByAddress ctx.procedures.heap ctx.procedures.table
        (ctx.chunk.u32 (pc + 1))⟩ := by
  unfold threadEntries
  dsimp only
  rw [List.mem_map]
  constructor
  · rintro ⟨pc, hpc, rfl⟩
    obtain ⟨hmem, hop⟩ := mem_filter.mp hpc
    exact ⟨pc, (verifyInstructionStream_mem hs.stream pc).mp hmem, by simpa using hop, rfl⟩
  · rintro ⟨pc, hpc, hop, rfl⟩
    refine ⟨pc, mem_filter.mpr ⟨?_, by simpa using hop⟩, rfl⟩
    exact (verifyInstructionStream_mem hs.stream pc).mpr hpc

theorem mem_collectedEntries (ctx : VCtx) (e : AddrSym) : e ∈ collectedEntries ctx ↔ e = ⟨0, none⟩ ∨
      e ∈ collectProcedures ctx.procedures.heap ctx.procedures.table ∨ e ∈ threadEntries ctx := by
  rw [collectedEntries, mem_insertionSort, mem_cons, mem_append]

theorem addrSymLE_iff (a b : AddrSym) : addrSymLE a b = true ↔
    a.addr < b.addr ∨ (a.addr = b.addr ∧ (b.sym.isSome = true → a.sym.isSome = true)) := by
  unfold addrSymLE
  cases ha : a.sym <;> cases hb : b.sym <;> simp

theorem collectedEntries_sorted (ctx : VCtx) :
    (collectedEntries ctx).Pairwise (fun a b => addrSymLE a b = true) := by
  have : Std.Total (fun a b : AddrSym => addrSymLE a b = true) := by
    constructor
    intro a b
    rw [addrSymLE_iff, addrSymLE_iff]
    cases a.sym <;> cases b.sym <;> simp <;> omega
  have : IsTrans AddrSym (fun a b => addrSymLE a b = true) := by
    constructor
    intro a b c
    rw [addrSymLE_iff, addrSymLE_iff, addrSymLE_iff]
    rintro (h | ⟨h, hs⟩) (h' | ⟨h', hs'⟩)
    · exact .inl (by omega)
    · exact .inl (by omega)
    · exact .inl (by omega)
    · exact .inr ⟨by omega, fun hc => hs (hs' hc)⟩
  exact pairwise_insertionSort _ _

/-! ## one entry per address -/

/-- the sorted input leaves strictly increasing addresses, and every address below the end of
the code keeps the first of its entries -/
theorem dedupeEntries_ok (ctx : VCtx) (kept es r : List AddrSym)
    (h : dedupeEntries ctx kept es = .ok r) (hes : es.Pairwise (fun a b => addrSymLE a b = true))
    (hkes : ∀ k ∈ kept, ∀ e ∈ es, addrSymLE k e = true)
    (hkept : kept.Pairwise (fun a b => b.addr < a.addr)) : r.Pairwise (fun a b => a.addr < b.addr) ∧
      (∀ e ∈ kept, e ∈ r) ∧
      (∀ e ∈ r, e ∈ kept ∨ (e ∈ es ∧ e.addr < ctx.chunk.count ∧ ctx.boundary e.addr = true)) ∧
      (∀ e ∈ es, e.addr < ctx.chunk.count →
        ∃ e' ∈ r, e'.addr = e.addr ∧ (e.sym.isSome = true → e'.sym.isSome = true)) := by
  induction es generalizing kept with
  | nil =>
    cases h
    refine ⟨pairwise_reverse.mpr hkept, fun e he => mem_reverse.mpr he,
      fun e he => .inl (mem_reverse.mp he), nofun⟩
  | cons e es ih =>
    obtain ⟨hle, hes'⟩ := pairwise_cons.mp hes
    have hkes' : ∀ k ∈ kept, ∀ x ∈ es, addrSymLE k x = true :=
      fun k hk x hx => hkes k hk x (mem_cons_of_mem _ hx)
    have hweaken : ∀ x, x ∈ kept ∨ (x ∈ es ∧ x.addr < ctx.chunk.count ∧
        ctx.boundary x.addr = true) → x ∈ kept ∨ (x ∈ e :: es ∧ x.addr < ctx.chunk.count ∧
        ctx.boundary x.addr = true) :=
      fun x hx => hx.imp_right fun hx => ⟨mem_cons_of_mem _ hx.1, hx.2⟩
    rw [dedupeEntries] at h
    by_cases hlt : ctx.chunk.count ≤ e.addr
    · -- past the end of the code
      rw [if_pos hlt] at h
      obtain ⟨hsorted, hin, hsub, hcov⟩ := ih kept h hes' hkes' hkept
      refine ⟨hsorted, hin, fun x hx => hweaken x (hsub x hx), fun x hx hxlt => ?_⟩
      rcases mem_cons.mp hx with rfl | hx
      · omega
      · exact hcov x hx hxlt
    · rw [if_neg hlt] at h
      obtain ⟨hb, h⟩ := Checks.ite_error_ok.mp h
      by_cases hhead : kept.head?.map AddrSym.addr = some e.addr
      · -- the address was kept already, with an entry that sorts before
        rw [if_pos hhead] at h
        obtain ⟨hsorted, hin, hsub, hcov⟩ := ih kept h hes' hkes' hkept
        refine ⟨hsorted, hin, fun x hx => hweaken x (hsub x hx), fun x hx hxlt => ?_⟩
        rcases mem_cons.mp hx with rfl | hx
        · obtain ⟨k, hk, hkaddr⟩ := Option.map_eq_some_iff.mp hhead
          have hkmem : k ∈ kept := mem_of_head? hk
          refine ⟨k, hin k hkmem, hkaddr, fun hsome => ?_⟩
          rcases (addrSymLE_iff _ _).mp (hkes k hkmem x mem_cons_self) with h | ⟨_, h⟩
          · omega
          · exact h hsome
        · exact hcov x hx hxlt
      · -- a new address
        rw [if_neg hhead] at h
        have hgt : ∀ k ∈ kept, k.addr < e.addr := by
          intro k hk
          have hkle : ∀ k ∈ kept, k.addr ≤ e.addr := by
            intro k hk
            rcases (addrSymLE_iff _ _).mp (hkes k hk e mem_cons_self) with h | ⟨h, _⟩ <;> omega
          cases kept with
          | nil => exact absurd hk not_mem_nil
          | cons k₀ kept =>
            have hne : k₀.addr ≠ e.addr := by simpa using hhead
            have h₀ := hkle k₀ mem_cons_self
            rcases mem_cons.mp hk with rfl | hk
            · omega
            · have := (pairwise_cons.mp hkept).1 k hk
              omega
        obtain ⟨hsorted, hin, hsub, hcov⟩ := ih (e :: kept) h hes'
          (fun k hk => by
            rcases mem_cons.mp hk with rfl | hk
            · exact hle
            · exact hkes' k hk)
          (pairwise_cons.mpr ⟨hgt, hkept⟩)
        refine ⟨hsorted, fun k hk => hin k (mem_cons_of_mem _ hk), fun x hx => ?_,
          fun x hx hxlt => ?_⟩
        · rcases hsub x hx with hx | hx
          · rcases mem_cons.mp hx with rfl | hx
            · exact .inr ⟨mem_cons_self, by omega, by simpa using hb⟩
            · exact .inl hx
          · exact hweaken x (.inr hx)
        · rcases mem_cons.mp hx with rfl | hx
          · exact ⟨x, hin x mem_cons_self, rfl, id⟩
          · exact hcov x hx hxlt

/-- the entries of a chunk: one for each address where a run starts -/
structure EntriesOf (ctx : VCtx) (entries : List AddrSym) : Prop where
  sorted : entries.Pairwise (fun a b => a.addr < b.addr)
  start : ∀ e ∈ entries, InstrStart ctx.chunk e.addr ∧ Start ctx.chunk ctx.procedures e.addr e.sym
  covers : ∀ a sym, Start ctx.chunk ctx.procedures a sym →
    ∃ e ∈ entries, e.addr = a ∧ (sym.isSome = true → e.sym.isSome = true)

theorem Start.collected (hs : ctx.Scanned) (hne : 0 < ctx.chunk.count)
    (hops : verifyOperands ctx = .ok ()) {a : Nat} {sym : Option SymbolRef}
    (h : Start ctx.chunk ctx.procedures a sym) :
    ⟨a, sym⟩ ∈ collectedEntries ctx ∧ a < ctx.chunk.count := by
  rw [mem_collectedEntries]
  cases h with
  | program => exact ⟨.inl rfl, hne⟩
  | @procedure r hmem halias hdef haddr hlt =>
    refine ⟨.inr (.inl ?_), by omega⟩
    exact (mem_collectProcedures _ _ _).mpr ⟨r, hmem, halias, hdef, haddr, rfl⟩
  | @thread pc hpc hop =>
    refine ⟨.inr (.inr ((mem_threadEntries hs _).mpr ⟨pc, hpc, hop, rfl⟩)), ?_⟩
    have hrefs := verifyOperands_ok hs hops hpc
    rw [tableRefs_fixed hop rfl (by simp) (by simp)] at hrefs
    obtain ⟨n, hn, hstart⟩ := (InTables_cons.mp hrefs).1
    cases Int.ofNat.inj hn
    exact hstart.lt

theorem collectedEntries_start (hs : ctx.Scanned) {e : AddrSym} (h : e ∈ collectedEntries ctx)
    (hlt : e.addr < ctx.chunk.count) : Start ctx.chunk ctx.procedures e.addr e.sym := by
  rw [mem_collectedEntries, mem_collectProcedures, mem_threadEntries hs] at h
  rcases h with rfl | ⟨r, hmem, halias, hdef, haddr, rfl⟩ | ⟨pc, hpc, hop, rfl⟩
  · exact .program
  · exact .procedure hmem halias hdef haddr (by dsimp only at hlt; omega)
  · exact .thread hpc hop

theorem dedupeEntries_entries (hs : ctx.Scanned) (hne : 0 < ctx.chunk.count)
    (hops : verifyOperands ctx = .ok ()) {entries : List AddrSym}
    (h : dedupeEntries ctx [] (collectedEntries ctx) = .ok entries) : EntriesOf ctx entries := by
  obtain ⟨hsorted, _, hsub, hcov⟩ := dedupeEntries_ok ctx [] _ entries h
    (collectedEntries_sorted ctx) nofun .nil
  refine ⟨hsorted, fun e he => ?_, fun a sym hstart => ?_⟩
  · obtain ⟨hmem, hlt, hb⟩ := (hsub e he).resolve_left not_mem_nil
    exact ⟨(boundary_iff hs _).mp hb, collectedEntries_start hs hmem hlt⟩
  · obtain ⟨hmem, hlt⟩ := hstart.collected hs hne hops
    exact hcov _ hmem hlt

/-! ## the walks -/

theorem claimEntries_other (es : List AddrSym) (i : Nat) (owner : Nat → Nat) (a : Nat)
    (h : ∀ e ∈ es, e.addr ≠ a) : claimEntries i es owner a = owner a := by
  induction es generalizing i owner with
  | nil => rfl
  | cons e es ih =>
    rw [claimEntries, ih (i + 1) _ fun x hx => h x (mem_cons_of_mem _ hx)]
    exact update_of_ne (h e mem_cons_self).symm _ _

theorem claimEntries_own (es : List AddrSym) (i k : Nat) (owner : Nat → Nat) (e : AddrSym)
    (hsorted : es.Pairwise (fun a b => a.addr < b.addr)) (hk : es[k]? = some e) :
    claimEntries i es owner e.addr = i + k + 1 := by
  induction es generalizing i k owner with
  | nil => simp at hk
  | cons x es ih =>
    obtain ⟨hlt, hsorted'⟩ := pairwise_cons.mp hsorted
    rw [claimEntries]
    cases k with
    | zero =>
      have hx : x = e := by simpa using hk
      cases hx
      rw [claimEntries_other es (i + 1) _ _ fun y hy => (hlt y hy).ne']
      exact update_self _ _ _
    | succ k =>
      rw [ih (i + 1) k _ hsorted' (by simpa using hk)]
      omega

/-- What holds after the first `i` walks: their items are sound and closed under steps, and
what they visited is theirs. -/
structure WalksInv (ctx : VCtx) (entries : List AddrSym) (i : Nat) (st : WalkState) : Prop where
  visited : ∀ pc, st.visited pc → st.owner pc ≠ 0 ∧ st.owner pc ≤ i
  entry : ∀ k e, entries[k]? = some e → st.owner e.addr = k + 1
  first : ∀ k e, entries[k]? = some e → k < i → st.SeenBy (k + 1) ⟨e.addr, .known 0⟩
  sound : ∀ k e, entries[k]? = some e → k < i → ∀ x, st.SeenBy (k + 1) x → Sound ctx e.sym x
  closed : ∀ k e, entries[k]? = some e → k < i → ∀ x, st.SeenBy (k + 1) x →
    ∀ y, Next ctx e.sym x y → st.SeenBy (k + 1) y

theorem WalksInv.begin {entries : List AddrSym} (h : EntriesOf ctx entries) :
    WalksInv ctx entries 0 (initialWalkState entries) where
  visited := by
    intro pc hv
    rcases hv with hv | hv <;> cases hv
  entry := by
    intro k e hk
    show claimEntries 0 entries _ e.addr = k + 1
    rw [claimEntries_own entries 0 k _ e h.sorted hk]
    omega
  first := nofun
  sound := nofun
  closed := nofun

/-- the next walk finds nothing visited that it may own, and starts at an instruction -/
theorem WalksInv.admitted {entries : List AddrSym} (hentries : EntriesOf ctx entries) {i : Nat}
    {e : AddrSym} {st : WalkState} (hinv : WalksInv ctx entries i st) (he : entries[i]? = some e) :
    Fresh (i + 1) st ∧ Admitted ctx (i + 1) st ⟨e.addr, .known 0⟩ := by
  refine ⟨fun pc hown hv => ?_, (hentries.start e (mem_of_getElem? he)).1, fun v hv => ?_,
    .inr (hinv.entry i e he)⟩
  · obtain ⟨h0, hle⟩ := hinv.visited pc hv
    rcases hown with hown | hown <;> omega
  · cases hv
    omega

section
variable {ctx : VCtx} (hs : ctx.Scanned) {entries : List AddrSym} (hentries : EntriesOf ctx entries)
include hs hentries

theorem WalksInv.walk {i : Nat} {e : AddrSym} {st st' : WalkState}
    (hinv : WalksInv ctx entries i st) (he : entries[i]? = some e)
    (h : verifyWalk ctx entries (i + 1) e st = .ok st') : WalksInv ctx entries (i + 1) st' := by
  obtain ⟨hfresh, hfirst⟩ := hinv.admitted hentries he
  have hwalk := verifyWalk_inv hfresh hs hfirst h
  have hsame : ∀ k x, k < i → (st'.SeenBy (k + 1) x ↔ st.SeenBy (k + 1) x) := by
    intro k x hk
    by_cases hown : st.owner x.pc = k + 1
    · exact (hwalk.frame x.pc (by omega) (by omega)).seenBy
    · refine ⟨fun hx => ?_, fun hx => absurd hx.2 hown⟩
      rcases hwalk.owner x.pc with h | h
      · exact absurd (h.symm.trans hx.2) hown
      · have := h.symm.trans hx.2
        omega
  have hown : ∀ pc k, k < i → st.owner pc = k + 1 → st'.owner pc = k + 1 := by
    intro pc k hk h
    rw [(hwalk.frame pc (by omega) (by omega)).owner]
    exact h
  refine ⟨fun pc hv => ?_, fun k x hk => ?_, fun k x hk hlt => ?_, fun k x hk hlt y hy => ?_,
    fun k x hk hlt y hy z hz => ?_⟩
  · rcases hwalk.visited pc hv with hv | hj
    · obtain ⟨h0, hle⟩ := hinv.visited pc hv
      obtain ⟨k, hk⟩ : ∃ k, st.owner pc = k + 1 := ⟨st.owner pc - 1, by omega⟩
      have := hown pc k (by omega) hk
      omega
    · omega
  · rcases hwalk.owner x.addr with h | h
    · rw [h]
      exact hinv.entry k x hk
    · have hx := hinv.entry k x hk
      by_cases hki : k = i
      · omega
      · by_cases hlt : k < i
        · exact hown _ k hlt hx
        · have := (hwalk.frame x.addr (by omega) (by omega)).owner
          omega
  all_goals
    rcases Nat.lt_or_ge k i with hki | hki
  · exact (hsame k _ hki).mpr (hinv.first k x hk hki)
  · obtain rfl : k = i := by omega
    cases hk.symm.trans he
    exact hwalk.first.resolve_right not_mem_nil
  · exact hinv.sound k x hk hki y ((hsame k y hki).mp hy)
  · obtain rfl : k = i := by omega
    cases hk.symm.trans he
    exact hwalk.sound y hy
  · exact (hsame k z hki).mpr (hinv.closed k x hk hki y ((hsame k y hki).mp hy) z hz)
  · obtain rfl : k = i := by omega
    cases hk.symm.trans he
    exact (hwalk.explored y hy z hz).resolve_right not_mem_nil

/-- the walks of the entries `es`, which stand at `i` in the list of all -/
theorem verifyWalks_inv (es : List AddrSym) (i : Nat) (st st' : WalkState)
    (hes : ∀ k e, es[k]? = some e → entries[i + k]? = some e) (hinv : WalksInv ctx entries i st)
    (h : verifyWalks ctx entries i es st = .ok st') : WalksInv ctx entries (i + es.length) st' := by
  induction es generalizing i st with
  | nil =>
    cases h
    exact hinv
  | cons e es ih =>
    obtain ⟨st₁, hwalk, h⟩ := Checks.bind_ok.mp h
    have hinv₁ := hinv.walk hs hentries (hes 0 e rfl) hwalk
    have hrest := ih (i + 1) st₁ (fun k x hk => ?_) hinv₁ h
    · rw [length_cons, ← Nat.add_assoc, Nat.add_right_comm]
      exact hrest
    · rw [Nat.add_right_comm]
      exact hes (k + 1) x hk

end

theorem WalksInv.run {ctx : VCtx} {entries : List AddrSym} {st : WalkState}
    {i : Nat} (hinv : WalksInv ctx entries i st) {k : Nat} (hk : k < i) {e : AddrSym}
    (he : entries[k]? = some e) {sym : Option SymbolRef} {c : Config}
    (hrun : Runs ctx.chunk ctx.procedures ctx.limits.getBuiltinType sym ⟨e.addr, .known 0⟩ c) :
    ∃ n : Nat, c.pc = n ∧ st.SeenBy (k + 1) ⟨n, c.depth⟩ := by
  induction hrun with
  | refl => exact ⟨e.addr, rfl, hinv.first k e he hk⟩
  | @tail c c' _ hstep ih =>
    obtain ⟨n, hn, hseen⟩ := ih
    obtain ⟨pc, d⟩ := c
    cases hn
    obtain ⟨_, _, hflow, _⟩ := hstep.inv
    obtain ⟨m, hm, _⟩ := (hinv.sound k e he hk _ hseen).flow _ hflow
    refine ⟨m, hm, hinv.closed k e he hk _ hseen _ ?_⟩
    show Step _ _ _ _ _ ⟨(m : Int), c'.depth⟩
    rw [← hm]
    exact hstep.routine

theorem pscalVerifyBytecodeChunk_walks {chunk : BytecodeChunk} {procs : Procedures}
    {limits : VmLimits} (hne : 0 < chunk.count)
    (hok : pscalVerifyBytecodeChunk chunk procs limits = .ok ()) :
    ∃ starts entries st, VCtx.Scanned ⟨chunk, procs, limits, starts⟩ ∧
      verifyOperands ⟨chunk, procs, limits, starts⟩ = .ok () ∧
      EntriesOf ⟨chunk, procs, limits, starts⟩ entries ∧
      WalksInv ⟨chunk, procs, limits, starts⟩ entries entries.length st := by
  unfold pscalVerifyBytecodeChunk at hok
  rw [if_neg (by omega)] at hok
  obtain ⟨starts, hstarts, hok⟩ := Checks.bind_ok.mp hok
  obtain ⟨_, hops, hok⟩ := Checks.bind_ok.mp hok
  obtain ⟨_, _, hok⟩ := Checks.bind_ok.mp hok
  obtain ⟨st, hdepths⟩ := Checks.discard_ok.mp hok
  obtain ⟨entries, hentries, hdepths⟩ := Checks.bind_ok.mp hdepths
  have hs : VCtx.Scanned ⟨chunk, procs, limits, starts⟩ := ⟨hstarts⟩
  have hof := dedupeEntries_entries hs hne hops hentries
  obtain ⟨_, hwalks⟩ := Checks.ite_error_ok.mp hdepths
  exact ⟨starts, entries, st, hs, hops, hof,
    Nat.zero_add entries.length ▸ verifyWalks_inv hs hof entries 0 _ st
      (fun k e hk => (Nat.zero_add k).symm ▸ hk) (.begin hof) hwalks⟩

end Pscal
