import Pscal.Compiler.ConstArrays
import Pscal.Lib.RowMajor
import Pscal.VM.ElementsSpec
import Pscal.VM.IntegersSpec

/-!
# Folded accesses select the element

* `compute_sound`  what is folded: an index inside each dimension of the base array, no more;
* `Selects`  every folded access to a type selects its element;
* `constantAccesses_select`  when that is, where the array was built in another scope.
-/

namespace Pscal.ConstArrays

open Elements RowMajor Option

/-! ## offsets -/

theorem longLong_add (x y : Int) : longLong (longLong x + longLong y) = longLong (x + y) := by
  unfold longLong
  rw [Int.bmod_add_bmod, Int.add_bmod_bmod]

theorem computeFlatOffset_eq {bs : List (Int × Int)} {is : List Int} (h : Inside bs is) :
    computeFlatOffset bs is = position bs is := by
  have hpair : (bs.zip is).foldr
      (fun p acc => (acc.1 + (p.2 - p.1.1) * acc.2, acc.2 * span p.1)) (0, 1) =
      (position bs is, volume bs) := by
    induction h with
    | nil => rfl
    | @cons b i bs is hi h ih =>
      rw [List.zip_cons_cons, List.foldr_cons, ih, position, volume_cons, Int.add_comm,
        Int.mul_comm (extent b)]
      rfl
  unfold computeFlatOffset
  rw [hpair]

def dimInfo (b : Int × Int) (i : Int) : ConstArrayDimInfo := ⟨i, b.1, b.2⟩

theorem flatOffset_eq {bs : List (Int × Int)} {is : List Int} (h : Inside bs is) :
    flatOffset (List.zipWith dimInfo bs is) = longLong (position bs is) := by
  have hpair : (List.zipWith dimInfo bs is).foldr
      (fun d acc => (longLong (acc.1 + longLong ((d.index - d.lower) * acc.2)),
        longLong (acc.2 * (d.upper - d.lower + 1)))) (0, 1) =
      (longLong (position bs is), longLong (volume bs)) := by
    induction h with
    | nil => rfl
    | @cons b i bs is hi h ih =>
      rw [List.zipWith_cons_cons, List.foldr_cons, ih]
      have hmul : longLong ((i - b.1) * longLong (volume bs)) = longLong ((i - b.1) * volume bs) := by
        unfold longLong
        rw [Int.mul_bmod_bmod]
      have hspan : longLong (longLong (volume bs) * (b.2 - b.1 + 1)) =
          longLong (volume bs * (b.2 - b.1 + 1)) := by
        unfold longLong
        rw [Int.bmod_mul_bmod]
      show (longLong (_ + longLong ((i - b.1) * _)), longLong (_ * (b.2 - b.1 + 1))) = _
      rw [hmul, hspan, longLong_add, position, volume_cons, Int.add_comm, Int.mul_comm (extent b)]
      rfl
  unfold flatOffset
  rw [hpair]

theorem longLong_small {v : Int} (hmin : 0 ≤ v) (hmax : v ≤ 2 ^ 32) : longLong v = v :=
  bmod_of_range (by omega) (by omega)

/-! ## indices -/

theorem constOrdinal_range {t : ConstTables} {e : ConstExpr} {v : Int}
    (h : constOrdinal t e = some v) : -2 ^ 63 ≤ v ∧ v < 2 ^ 63 := by
  have hvalue : ∃ x : Int64, x.toInt = v := by
    cases e with
    | number x => exact ⟨x, some_inj.mp h⟩
    | name s =>
      obtain ⟨x, -, hx⟩ := map_eq_some_iff.mp h
      exact ⟨x, hx⟩
    | other ordinal =>
      obtain ⟨x, -, hx⟩ := map_eq_some_iff.mp h
      exact ⟨x, hx⟩
  obtain ⟨x, rfl⟩ := hvalue
  exact ⟨x.le_toInt, x.toInt_lt⟩

theorem foldSegments_eq (t : ConstTables) (node : Access) :
    foldSegments t node = (foldSegments t node.root).bind fun st =>
      node.indices.foldlM (foldIndex t) st := by
  induction node with
  | base kind type =>
    rw [Access.root, Access.indices]
    cases foldSegments t (.base kind type) <;> rfl
  | index left children type ih =>
    rw [Access.root, Access.indices, foldSegments, ih]
    cases foldSegments t left.root with
    | none => rfl
    | some st =>
      exact (List.foldlM_append (m := Option)).symm

section
variable {t : ConstTables} {dims : List (Option (ConstExpr × ConstExpr))} {element : TypeNode}

def atDim (dims : List (Option (ConstExpr × ConstExpr))) (element : TypeNode) (k : Nat)
    (infos : List ConstArrayDimInfo) : FoldState :=
  { currentType := .array dims element, dimCursor := k, dims := infos }

def atEnd (element : TypeNode) (infos : List ConstArrayDimInfo) : FoldState :=
  { currentType := element, dimCursor := 0, baseLevelDone := true, dims := infos }

theorem foldIndex_atEnd (infos : List ConstArrayDimInfo) (e : ConstExpr) :
    foldIndex t (atEnd element infos) e = none := rfl

variable {k : Nat} {st : FoldState} {es : List ConstExpr}

theorem foldIndex_atDim {infos : List ConstArrayDimInfo} {e : ConstExpr} :
    foldIndex t (atDim dims element k infos) e = some st ↔
      ∃ (h : k < dims.length) (i : Int) (b : Int × Int), constOrdinal t e = some i ∧
        constBounds t dims[k] = some b ∧ b.1 ≤ i ∧ i ≤ b.2 ∧
        st = if k + 1 = dims.length then atEnd element (infos ++ [dimInfo b i])
          else atDim dims element (k + 1) (infos ++ [dimInfo b i]) := by
  unfold foldIndex atDim
  dsimp only
  rw [if_neg Bool.false_ne_true]
  by_cases h : k < dims.length
  · rw [if_neg (by omega), List.getD_eq_getElem?_getD, List.getElem?_eq_getElem h, getD_some]
    cases hi : constOrdinal t e with
    | none => exact ⟨fun h => (by cases h), fun ⟨_, i, b, hi', _⟩ => by cases hi'⟩
    | some i =>
      cases hb : constBounds t dims[k] with
      | none => exact ⟨fun h => (by cases h), fun ⟨_, i, b, _, hb', _⟩ => by cases hb.symm.trans hb'⟩
      | some b =>
        dsimp only [bind_eq_bind, bind_some]
        by_cases hin : b.1 ≤ i ∧ i ≤ b.2
        · rw [if_neg (by omega)]
          have hpush : (if dims.length ≤ k + 1 then some (atEnd element (infos ++ [dimInfo b i]))
              else some (atDim dims element (k + 1) (infos ++ [dimInfo b i]))) =
              some (if k + 1 = dims.length then atEnd element (infos ++ [dimInfo b i])
                else atDim dims element (k + 1) (infos ++ [dimInfo b i])) := by
            by_cases hend : k + 1 = dims.length
            · rw [if_pos (by omega), if_pos hend]
            · rw [if_neg (by omega), if_neg hend]
          refine Iff.trans (show _ = _ ↔ _ = _ from Iff.of_eq (congrArg (· = some st) hpush)) ?_
          constructor
          · intro hst
            exact ⟨h, i, b, rfl, hb, hin.1, hin.2, (some_inj.mp hst).symm⟩
          · rintro ⟨_, i', b', hi', hb', _, _, rfl⟩
            cases hi'
            cases hb.symm.trans hb'
            rfl
        · rw [if_pos (by omega)]
          refine ⟨fun h => (by cases h), fun ⟨_, i', b', hi', hb', hmin, hmax, _⟩ => ?_⟩
          cases hi'
          cases hb.symm.trans hb'
          exact absurd ⟨hmin, hmax⟩ hin
  · rw [if_pos (by omega)]
    exact ⟨fun h => (by cases h), fun ⟨hk, _⟩ => absurd hk h⟩

theorem mapM_cons_some {α β : Type} {f : α → Option β} {x : α} {xs : List α} {y : β} {ys : List β} :
    (x :: xs).mapM f = some (y :: ys) ↔ f x = some y ∧ xs.mapM f = some ys := by
  rw [List.mapM_cons]
  constructor
  · intro h
    obtain ⟨y', hy, h⟩ := bind_eq_some_iff.mp h
    obtain ⟨ys', hys, h⟩ := bind_eq_some_iff.mp h
    cases h
    exact ⟨hy, hys⟩
  · rintro ⟨hy, hys⟩
    rw [hy, hys]
    rfl

theorem length_of_mapM {α β : Type} {f : α → Option β} {xs : List α} {ys : List β}
    (h : xs.mapM f = some ys) : ys.length = xs.length := by
  induction xs generalizing ys with
  | nil =>
    cases h
    rfl
  | cons x xs ih =>
    cases ys with
    | nil =>
      rw [List.mapM_cons] at h
      obtain ⟨y', hy, h⟩ := bind_eq_some_iff.mp h
      obtain ⟨ys', hys, h⟩ := bind_eq_some_iff.mp h
      cases h
    | cons y ys => exact congrArg (· + 1) (ih (mapM_cons_some.mp h).2)

theorem foldlM_atEnd {infos : List ConstArrayDimInfo}
    (h : es.foldlM (foldIndex t) (atEnd element infos) = some st) :
    es = [] ∧ st = atEnd element infos := by
  cases es with
  | nil => exact ⟨rfl, (some_inj.mp h).symm⟩
  | cons e es =>
    rw [List.foldlM_cons, foldIndex_atEnd] at h
    cases h

theorem foldlM_sound {l : List ConstArrayDimInfo}
    (h : es.foldlM (foldIndex t) (atDim dims element k l) = some st) (hcursor : st.dimCursor = 0)
    (hsome : k ≠ 0 ∨ es ≠ []) :
    ∃ is bs, es.mapM (constOrdinal t) = some is ∧ (dims.drop k).mapM (constBounds t) = some bs ∧
      Inside bs is ∧ st = atEnd element (l ++ List.zipWith dimInfo bs is) := by
  induction es generalizing k l with
  | nil =>
    cases h
    rcases hsome with hk | hne
    · exact absurd hcursor hk
    · exact absurd rfl hne
  | cons e es ih =>
    rw [List.foldlM_cons] at h
    obtain ⟨st₁, hstep, hrest⟩ := bind_eq_some_iff.mp h
    obtain ⟨hk, i, b, hi, hb, hmin, hmax, rfl⟩ := foldIndex_atDim.mp hstep
    have hdrop : dims.drop k = dims[k] :: dims.drop (k + 1) := List.drop_eq_getElem_cons hk
    by_cases hend : k + 1 = dims.length
    · rw [if_pos hend] at hrest
      obtain ⟨rfl, rfl⟩ := foldlM_atEnd hrest
      refine ⟨[i], [b], ?_, ?_, .cons ⟨hmin, hmax⟩ .nil, rfl⟩
      · exact mapM_cons_some.mpr ⟨hi, rfl⟩
      · rw [hdrop, List.drop_of_length_le (by omega)]
        exact mapM_cons_some.mpr ⟨hb, rfl⟩
    · rw [if_neg hend] at hrest
      obtain ⟨is, bs, his, hbs, hinside, rfl⟩ := ih hrest (.inl (Nat.succ_ne_zero k))
      refine ⟨i :: is, b :: bs, ?_, ?_, .cons ⟨hmin, hmax⟩ hinside, ?_⟩
      · exact mapM_cons_some.mpr ⟨hi, his⟩
      · rw [hdrop]
        exact mapM_cons_some.mpr ⟨hb, hbs⟩
      · rw [List.zipWith_cons_cons, List.append_assoc]
        rfl

theorem foldlM_complete {l : List ConstArrayDimInfo} {is : List Int} {bs : List (Int × Int)}
    (hk : k < dims.length) (his : es.mapM (constOrdinal t) = some is)
    (hbs : (dims.drop k).mapM (constBounds t) = some bs) (hinside : Inside bs is) :
    es.foldlM (foldIndex t) (atDim dims element k l) =
      some (atEnd element (l ++ List.zipWith dimInfo bs is)) := by
  have hdrop : dims.drop k = dims[k] :: dims.drop (k + 1) := List.drop_eq_getElem_cons hk
  have hlength := length_of_mapM hbs
  rw [List.length_drop] at hlength
  induction hinside generalizing k l es with
  | nil => exact absurd hlength (by rw [List.length_nil]; omega)
  | @cons b i bs is hi hinside ih =>
    cases es with
    | nil => cases his
    | cons e es =>
      obtain ⟨he, hes⟩ := mapM_cons_some.mp his
      rw [hdrop] at hbs
      obtain ⟨hb, hrest⟩ := mapM_cons_some.mp hbs
      have hstep : foldIndex t (atDim dims element k l) e =
          some (if k + 1 = dims.length then atEnd element (l ++ [dimInfo b i])
            else atDim dims element (k + 1) (l ++ [dimInfo b i])) :=
        foldIndex_atDim.mpr ⟨hk, i, b, he, hb, hi.1, hi.2, rfl⟩
      rw [List.foldlM_cons, hstep]
      by_cases hend : k + 1 = dims.length
      · have hnil : bs = [] := by
          rw [List.length_cons] at hlength
          exact List.length_eq_zero_iff.mp (by omega)
        subst hnil
        cases hinside
        cases es with
        | nil =>
          rw [if_pos hend]
          rfl
        | cons e' es =>
          rw [List.mapM_cons] at hes
          obtain ⟨y', hy, hes⟩ := bind_eq_some_iff.mp hes
          obtain ⟨ys', hys, hes⟩ := bind_eq_some_iff.mp hes
          cases hes
      · have hk' : k + 1 < dims.length := by omega
        rw [List.length_cons] at hlength
        rw [if_neg hend]
        refine (ih hk' hes hrest (List.drop_eq_getElem_cons hk') (by omega)).trans ?_
        rw [List.zipWith_cons_cons, List.append_assoc]
        rfl

/-! ## what is folded -/

def Access.IsTo (node : Access) (dims : List (Option (ConstExpr × ConstExpr)))
    (element : TypeNode) : Prop :=
  node.root.type = .array dims element

theorem Access.root_base (node : Access) : ∃ kind type, node.root = .base kind type := by
  induction node with
  | base kind type => exact ⟨kind, type, rfl⟩
  | index left children type ih => exact ih

theorem compute_eq {left : Access} {children : List ConstExpr} {type : TypeNode}
    {info : ConstArrayAccessInfo}
    (h : computeConstantArrayAccess t (.index left children type) = some info) :
    ∃ st, foldSegments t (.index left children type) = some st ∧ st.dims ≠ [] ∧
      st.dimCursor = 0 ∧ 0 ≤ flatOffset st.dims ∧ flatOffset st.dims ≤ 2 ^ 32 - 1 ∧
      info = ⟨left.root, st.currentType, flatOffset st.dims, st.dims.length⟩ := by
  unfold computeConstantArrayAccess at h
  dsimp only at h
  split at h
  · cases h
  obtain ⟨st, hst, h⟩ := bind_eq_some_iff.mp h
  split at h
  · cases h
  rename_i hkept
  split at h
  · cases h
  rename_i hrange
  cases h
  rw [not_or, not_not] at hkept
  exact ⟨st, hst, hkept.1, hkept.2, by omega, by omega, rfl⟩

theorem compute_sound {node : Access} {info : ConstArrayAccessInfo} (hto : node.IsTo dims element)
    (h : computeConstantArrayAccess t node = some info) :
    ∃ is bs, node.indices.mapM (constOrdinal t) = some is ∧ is ≠ [] ∧
      dims.mapM (constBounds t) = some bs ∧ Inside bs is ∧
      info.offset = longLong (position bs is) ∧ info.baseExpr = node.root ∧
      info.elementType = element := by
  cases node with
  | base kind type => cases h
  | index left children type =>
    obtain ⟨st, hst, hdims, hcursor, -, -, rfl⟩ := compute_eq h
    obtain ⟨kind, baseType, hroot⟩ := left.root_base
    have htype : baseType = .array dims element := by
      have hto' : left.root.type = .array dims element := hto
      rw [hroot] at hto'
      exact hto'
    rw [foldSegments_eq, Access.root, hroot, foldSegments] at hst
    split at hst
    · rw [bind_some, htype] at hst
      change _ = some st at hst
      have hsome : (Access.index left children type).indices ≠ [] := by
        intro hnil
        rw [hnil] at hst
        cases hst
        exact hdims rfl
      obtain ⟨is, bs, his, hbs, hinside, rfl⟩ :=
        foldlM_sound (k := 0) (l := []) hst hcursor (.inr hsome)
      refine ⟨is, bs, his, fun hnil => ?_, hbs, hinside, ?_, rfl, rfl⟩
      · have hlength := length_of_mapM his
        rw [hnil] at hlength
        exact hsome (List.length_eq_zero_iff.mp hlength.symm)
      · exact flatOffset_eq hinside
    · cases hst

/-- an access to a variable with all of its indices in one pair of brackets -/
def plainAccess (dims : List (Option (ConstExpr × ConstExpr))) (element : TypeNode)
    (indices : List ConstExpr) : Access :=
  .index (.base .variable (.array dims element)) indices element

theorem compute_plain {is : List Int} {bs : List (Int × Int)} (hdims : dims ≠ [])
    (his : es.mapM (constOrdinal t) = some is) (hbs : dims.mapM (constBounds t) = some bs)
    (hinside : Inside bs is) (hsmall : position bs is < 2 ^ 32) :
    ∃ info, computeConstantArrayAccess t (plainAccess dims element es) = some info ∧
      info.offset = position bs is := by
  have hpos := List.length_pos_of_ne_nil hdims
  have hfold : foldSegments t (plainAccess dims element es) =
      some (atEnd element ([] ++ List.zipWith dimInfo bs is)) :=
    foldlM_complete (k := 0) (l := []) hpos his hbs hinside
  have hplace := (position_lt hinside).1
  have hoffset : flatOffset (List.zipWith dimInfo bs is) = position bs is := by
    rw [flatOffset_eq hinside, longLong_small hplace (by omega)]
  have hlength : (List.zipWith dimInfo bs is).length = dims.length := by
    rw [List.length_zipWith, ← List.Forall₂.length_eq hinside, Nat.min_self, length_of_mapM hbs]
  have hsome : List.zipWith dimInfo bs is ≠ [] := by
    intro hnil
    rw [hnil] at hlength
    exact absurd hlength (by rw [List.length_nil]; omega)
  refine ⟨⟨.base .variable (.array dims element), element, position bs is,
    (List.zipWith dimInfo bs is).length⟩, ?_, rfl⟩
  have hchain : ¬ 64 < (plainAccess dims element es).chainLen := by
    show ¬ 64 < 1
    omega
  rw [List.nil_append] at hfold
  unfold plainAccess at hchain hfold ⊢
  unfold computeConstantArrayAccess
  dsimp only
  rw [if_neg hchain, hfold]
  refine (if_neg (fun h => ?_)).trans ?_
  · rcases h with h | h
    · exact hsome h
    · exact h rfl
  · refine (if_neg ?_).trans ?_
    · show ¬ (flatOffset (List.zipWith dimInfo bs is) < 0 ∨
        flatOffset (List.zipWith dimInfo bs is) > 2 ^ 32 - 1)
      omega
    · show some (ConstArrayAccessInfo.mk _ _ (flatOffset (List.zipWith dimInfo bs is)) _) = _
      rw [hoffset]
      rfl

end

/-! ## elements -/

section
variable {V : Type}

variable {a : Elements.ArrayObj V} {is : List Int} {bs : List (Int × Int)} {t : ConstTables}

theorem checkBounds_iff (hlength : a.bounds.length = is.length) :
    vmCheckArrayIndexBounds a is = .ok () ↔ Inside a.bounds is := by
  have hfind : vmCheckArrayIndexBounds a is = .ok () ↔
      ∀ p ∈ a.bounds.zip is, inDimension p.1 p.2 = true := by
    unfold vmCheckArrayIndexBounds
    cases hfound : (a.bounds.zip is).zipIdx.reverse.find? fun p => !inDimension p.1.1 p.1.2 with
    | none =>
      refine ⟨fun _ p hp => ?_, fun _ => rfl⟩
      obtain ⟨k, hk, rfl⟩ := List.mem_iff_getElem.mp hp
      have hmem : ((a.bounds.zip is)[k], k) ∈ (a.bounds.zip is).zipIdx :=
        List.mk_mem_zipIdx_iff_getElem?.mpr (List.getElem?_eq_getElem hk)
      have hno := List.find?_eq_none.mp hfound _ (List.mem_reverse.mpr hmem)
      rw [Bool.not_eq_true, Bool.not_eq_false'] at hno
      exact hno
    | some q =>
      obtain ⟨⟨b, i⟩, k⟩ := q
      refine ⟨fun h => (by cases h), fun h => ?_⟩
      have hmem := List.mem_reverse.mp (List.mem_of_find?_eq_some hfound)
      have hbad := List.find?_some hfound
      have hgood := h (b, i) (List.mem_of_getElem? (List.mk_mem_zipIdx_iff_getElem?.mp hmem))
      rw [Bool.not_eq_true'] at hbad
      exact absurd (hbad.symm.trans hgood) Bool.false_ne_true
  rw [hfind]
  unfold Inside
  rw [List.forall₂_iff_zip]
  refine ⟨fun h => ⟨hlength, fun {b i} hmem => of_decide_eq_true (h (b, i) hmem)⟩, fun h p hp => ?_⟩
  exact decide_eq_true (h.2 hp)

theorem calculateArrayTotalSize_eq (h : a.bounds ≠ []) :
    Elements.calculateArrayTotalSize a = volume a.bounds := if_neg h

theorem elementOffset_iff {n : Nat} (hsome : a.bounds ≠ []) (hlength : a.bounds.length = is.length)
    : elementOffset a is = .ok n ↔ Inside a.bounds is ∧ position a.bounds is = n := by
  unfold elementOffset
  by_cases hinside : Inside a.bounds is
  · have hplace := position_lt hinside
    rw [(checkBounds_iff hlength).mpr hinside, computeFlatOffset_eq hinside,
      calculateArrayTotalSize_eq hsome]
    change (if _ then _ else _) = _ ↔ _
    rw [if_neg (by omega)]
    constructor
    · intro h
      cases h
      exact ⟨hinside, (Int.toNat_of_nonneg hplace.1).symm⟩
    · rintro ⟨-, h⟩
      rw [h]
      rfl
  · refine ⟨fun h => ?_, fun h => absurd h.1 hinside⟩
    cases hcheck : vmCheckArrayIndexBounds a is with
    | error e =>
      rw [hcheck] at h
      cases h
    | ok u => exact absurd ((checkBounds_iff hlength).mp hcheck) hinside

theorem constOffset_eq {n : Nat} (hsome : a.bounds ≠ []) (hvolume : volume a.bounds ≤ 2 ^ 28)
    (hn : (n : Int) < volume a.bounds) : constOffset a (UInt32.ofNat n) = .ok n := by
  have hoperand : (UInt32.ofNat n).toNat = n := by
    rw [UInt32.toNat_ofNat']
    exact Nat.mod_eq_of_lt (by omega)
  unfold constOffset
  rw [calculateArrayTotalSize_eq hsome, hoperand, if_neg (by omega)]
  rfl

/-! ## what is selected -/

variable (V) in
/-- Every folded access to a type has one index for each of its dimensions; in each array that was
built from it, at run time these select an element, and its offset is the folded one. -/
def Selects (tables built : ConstTables) (dims : List (Option (ConstExpr × ConstExpr)))
    (element : TypeNode) : Prop :=
  ∀ node info, node.IsTo dims element → computeConstantArrayAccess tables node = some info →
    ∃ is, node.indices.mapM (constOrdinal tables) = some is ∧ is.length = dims.length ∧
      info.baseExpr = node.root ∧ info.elementType = element ∧
      ∀ a : Elements.ArrayObj V, BuiltFrom built dims a.bounds →
        elementOffset a is = .ok info.offset.toNat ∧
          constOffset a (UInt32.ofNat info.offset.toNat) = .ok info.offset.toNat

theorem BuiltFrom.solid {dims : List (Option (ConstExpr × ConstExpr))} (h : BuiltFrom t dims bs) :
    Solid bs :=
  fun b hb => (h.dimension b hb).2.1

theorem BuiltFrom.volume_le {dims : List (Option (ConstExpr × ConstExpr))} (h : BuiltFrom t dims bs)
    : volume bs ≤ 2 ^ 28 :=
  h.size

variable {tables built : ConstTables} {dims : List (Option (ConstExpr × ConstExpr))}
  {element : TypeNode} {bs' : List (Int × Int)}

theorem selects_of_fits (h : ∀ bs bs', dims.mapM (constBounds tables) = some bs → Solid bs →
    BuiltFrom built dims bs' → RowMajor.Fits bs bs') : Selects V tables built dims element := by
  intro node info hto hinfo
  obtain ⟨is, bs, his, hne, hbs, hinside, hoffset, hroot, helement⟩ := compute_sound hto hinfo
  have hlength := List.Forall₂.length_eq hinside
  refine ⟨is, his, by rw [← hlength, length_of_mapM hbs], hroot, helement, fun a ha => ?_⟩
  obtain ⟨hinside', hposition⟩ := (h bs _ hbs hinside.solid ha).position hinside
  have hlength' := List.Forall₂.length_eq hinside'
  have hplace := position_lt hinside'
  have hsome : a.bounds ≠ [] := by
    intro hnil
    rw [hnil] at hlength'
    exact hne (List.length_eq_zero_iff.mp hlength'.symm)
  have hvolume := ha.volume_le
  have hfolded : info.offset = position a.bounds is := by
    rw [hoffset, hposition, longLong_small hplace.1 (by omega)]
  rw [hfolded]
  constructor
  · exact (elementOffset_iff hsome hlength').mpr ⟨hinside', (Int.toNat_of_nonneg hplace.1).symm⟩
  · exact constOffset_eq hsome hvolume (by omega)

theorem literals_ordinal {dims : List (Option (ConstExpr × ConstExpr))}
    (hbs : dims.mapM (constBounds t) = some bs) (hinside : Inside bs is) :
    (is.map fun i => ConstExpr.number (Int64.ofInt i)).mapM (constOrdinal t) = some is := by
  induction hinside generalizing dims with
  | nil => rfl
  | @cons b i bs is hi hinside ih =>
    cases dims with
    | nil => cases hbs
    | cons dim dims =>
      obtain ⟨hb, hrest⟩ := mapM_cons_some.mp hbs
      refine mapM_cons_some.mpr ⟨?_, ih hrest⟩
      obtain ⟨⟨lower, upper⟩, -, hb⟩ := bind_eq_some_iff.mp hb
      obtain ⟨low, hlow, hb⟩ := bind_eq_some_iff.mp hb
      obtain ⟨high, hhigh, hb⟩ := bind_eq_some_iff.mp hb
      cases hb
      have hmin := (constOrdinal_range hlow).1
      have hmax := (constOrdinal_range hhigh).2
      show some (Int64.ofInt i).toInt = some i
      rw [Int64.toInt_ofInt_of_le (by omega) (by omega)]

theorem fits_of_selects (hbuilt : BuiltFrom built dims bs')
    (h : Selects V tables built dims element) (hbs : dims.mapM (constBounds tables) = some bs)
    (hsolid : Solid bs) : RowMajor.Fits bs bs' := by
  have hlength : bs.length = bs'.length := by
    rw [length_of_mapM hbs, length_of_mapM hbuilt.bounds_eq]
  refine fits_of_position hsolid hbuilt.solid hlength hbuilt.volume_le fun is hinside hsmall => ?_
  by_cases hdims : dims = []
  · subst hdims
    cases hbs
    cases hbuilt.bounds_eq
    exact ⟨hinside, rfl⟩
  obtain ⟨info, hinfo, hoffset⟩ :=
    compute_plain hdims (literals_ordinal hbs hinside) hbs hinside (by omega)
  have hto : (plainAccess dims element (is.map fun i => .number (Int64.ofInt i))).IsTo dims
      element := rfl
  obtain ⟨is', his, -, -, -, hselects⟩ := h _ info hto hinfo
  have hsame : is = is' :=
    some_inj.mp ((literals_ordinal hbs hinside).symm.trans his)
  subst hsame
  have hsome : bs' ≠ [] := by
    intro hnil
    have hzero := length_of_mapM hbuilt.bounds_eq
    rw [hnil] at hzero
    exact hdims (List.length_eq_zero_iff.mp hzero.symm)
  obtain ⟨helement, -⟩ := hselects
    { isDynamic := false, bounds := bs', elementType := .int32, buffer := .elements [] } hbuilt
  obtain ⟨hinside', hposition⟩ := (elementOffset_iff hsome
    (hlength.symm.trans (List.Forall₂.length_eq hinside))).mp helement
  refine ⟨hinside', ?_⟩
  have hplace := (position_lt hinside).1
  rw [hposition, hoffset, Int.toNat_of_nonneg hplace]

/-! ## nesting -/

theorem nestAccesses_spec {base chain : Access} {type : TypeNode} {remaining : List ConstExpr}
    (h : nestAccesses base type remaining = some chain) :
    chain.root = base.root ∧ chain.indices = base.indices ++ remaining := by
  induction base, type, remaining using nestAccesses.induct with
  | case1 base type =>
    rw [nestAccesses, if_pos rfl] at h
    cases h
  | case2 base type remaining hne rest hrest =>
    rw [nestAccesses, if_neg hne] at h
    dsimp only at h
    rw [if_pos hrest] at h
    cases h
    have hall : remaining.take (directDims type) = remaining := by
      have hsplit := List.take_append_drop (directDims type) remaining
      rw [show remaining.drop (directDims type) = [] from hrest, List.append_nil] at hsplit
      exact hsplit
    exact ⟨rfl, congrArg (base.indices ++ ·) hall⟩
  | case3 base type remaining hne segment rest hrest ih =>
    rw [nestAccesses, if_neg hne] at h
    dsimp only at h
    rw [if_neg hrest] at h
    obtain ⟨hroot, hindices⟩ := ih h
    refine ⟨hroot, hindices.trans ?_⟩
    show (base.indices ++ remaining.take (directDims type)) ++ remaining.drop (directDims type) = _
    rw [List.append_assoc, List.take_append_drop]

theorem buildNestedArrayAccessChain_spec {node chain : Access}
    (h : buildNestedArrayAccessChain node = some chain) :
    chain.root = node.root ∧ chain.indices = node.indices := by
  unfold buildNestedArrayAccessChain at h
  split at h
  · cases h
  split at h
  · cases h
  split at h
  · cases h
  split at h
  · cases h
  exact nestAccesses_spec h

end

/-! ## the main results -/

section
variable {V : Type} {tables built : ConstTables} {dims : List (Option (ConstExpr × ConstExpr))}
  {element : TypeNode}

/-- Nested or not, folded accesses select their elements where the bounds that the scope of the
access gives to the type fit those that the array was built with. -/
theorem constantAccesses_select {bs' : List (Int × Int)} (hbuilt : BuiltFrom built dims bs') :
    (∀ node chain, buildNestedArrayAccessChain node = some chain →
      chain.root = node.root ∧ chain.indices = node.indices) ∧
    (Selects V tables built dims element ↔
      ∀ bs, dims.mapM (constBounds tables) = some bs → Solid bs → RowMajor.Fits bs bs') := by
  refine ⟨fun node chain h => buildNestedArrayAccessChain_spec h, fun h bs hbs hsolid => ?_,
    fun h => selects_of_fits fun bs bs'' hbs hsolid hbuilt' => ?_⟩
  · exact fits_of_selects hbuilt h hbs hsolid
  · cases hbuilt'.bounds_eq.symm.trans hbuilt.bounds_eq
    exact h bs hbs hsolid

/-- In a method of a class with a constant `n = 2`, the rows of a global array that was built with
`n = 3` are taken for shorter ones. -/
def inClass : ConstTables where
  classConsts := [("n", some 2)]
  compilerConstants := [("n", some 3)]
  enumMembers := []

def atGlobal : ConstTables := { inClass with classConsts := [] }

/-- `array[1..n, 1..n]` -/
def squareDims : List (Option (ConstExpr × ConstExpr)) :=
  [some (.number 1, .name "n"), some (.number 1, .name "n")]

theorem square_built : BuiltFrom atGlobal squareDims [(1, 3), (1, 3)] where
  bounds_eq := by decide +kernel
  dimension := by decide
  size := by decide

theorem constantAccesses_square : BuiltFrom atGlobal squareDims [(1, 3), (1, 3)] ∧
      Selects Unit atGlobal atGlobal squareDims .other := by
  refine ⟨square_built, (constantAccesses_select square_built).2.mpr fun bs hbs _ => ?_⟩
  cases hbs.symm.trans square_built.bounds_eq
  exact Fits.refl _

/-- `g[2,1]` is folded to the place of `g[1,3]`. -/
theorem inClass_otherElement : (computeConstantArrayAccess inClass
      (plainAccess squareDims .other [.number 2, .number 1])).map (·.offset) = some 2 ∧
    (∃ a : Elements.ArrayObj Unit, BuiltFrom atGlobal squareDims a.bounds ∧
      constOffset a 2 = .ok 2 ∧ elementOffset a [2, 1] = .ok 3 ∧ elementOffset a [1, 3] = .ok 2) ∧
    ¬ Selects Unit inClass atGlobal squareDims .other := by
  refine ⟨by decide +kernel, ?_, fun h => ?_⟩
  · exact ⟨⟨false, [(1, 3), (1, 3)], .int32, .elements []⟩, square_built, by decide +kernel,
      by decide +kernel, by decide +kernel⟩
  · have hbounds : squareDims.mapM (constBounds inClass) = some [(1, 2), (1, 2)] := by
      decide +kernel
    obtain ⟨-, -, hrows, -⟩ := fits_of_selects square_built h hbounds (by
      intro b hb
      rcases List.mem_cons.mp hb with rfl | hb
      · decide
      · rw [List.mem_singleton.mp hb]
        decide)
    exact absurd (hrows (by decide)) (by decide)

end

end Pscal.ConstArrays
