import Pscal.Shell.Splitting
import Pscal.Lib.Fields

/-!
# Word splitting gives the fields of the shell's rule

* `markedBytes`, `byteKind`  what each byte of the text is: quoted bytes are in fields;
* `IfsFields v w fs`  the fields of a word by the rule;
* `splitLoop_fields`  the loop finds them from any place between two fields;
* `shellSplitExpandedWord_fields`  so does the function, early exits included;
* `shellSplitExpandedWord_elements`  a quoted array is split into its elements.
-/

namespace Pscal.Shell

open Wire Splitting List Option

/-! ## the rule -/

def ExpandedWord.quotedAt (w : ExpandedWord) (i : Nat) : Bool :=
  w.baseQuoted || (w.quotedMap.getD [])[i]?.getD false

def ExpandedWord.markedBytes (w : ExpandedWord) : List MappedByte :=
  w.expanded.bytes.mapIdx fun i b => (b, w.quotedAt i)

def IfsVariable.separators (v : IfsVariable) : Bytes :=
  (shellCurrentIfs v).elim defaultIfs CString.bytes

def byteKind (ifs : Bytes) (c : MappedByte) : Kind :=
  if c.2 = true ∨ c.1 ∉ ifs then .inField else if isspace c.1 then .blank else .separator

inductive IfsFields (v : IfsVariable) (w : ExpandedWord) : List Bytes → Prop where
  /-- an empty text is a field where the word is quoted, unless no array element made it -/
  | quotedEmpty (hempty : w.expanded.bytes = []) (hquoted : w.baseQuoted = true)
      (hzero : w.arrayZero = false) : IfsFields v w [[]]
  | nothing (hempty : w.expanded.bytes = [])
      (h : w.baseQuoted = false ∨ w.arrayZero = true) : IfsFields v w []
  | fields {b rest : List MappedByte} {fs : List (List MappedByte)} (hne : w.expanded.bytes ≠ [])
      (hsplit : w.markedBytes = b ++ rest) (hb : ∀ c ∈ b, byteKind v.separators c = .blank)
      (hrest : NotAtStart (byteKind v.separators) .blank rest)
      (h : Fields (byteKind v.separators) rest fs) : IfsFields v w (fs.map (List.map Prod.fst))

/-! ## the loop -/

section
variable (ifs : Bytes)

theorem delimiterByte_eq : (fun c => !delimiterByte ifs c) = isInField (byteKind ifs) := by
  funext c
  obtain ⟨b, q⟩ := c
  unfold delimiterByte isInField byteKind
  by_cases hb : b ∈ ifs
  · cases q
    · cases isspace b <;> simp [hb]
    · simp
  · simp [hb]

theorem whitespaceByte_eq : whitespaceByte ifs = isBlank (byteKind ifs) := by
  funext c
  obtain ⟨b, q⟩ := c
  unfold whitespaceByte isBlank byteKind
  by_cases hb : b ∈ ifs
  · cases q
    · cases isspace b <;> simp [hb]
    · simp
  · simp [hb]

theorem skip_eq (l : List MappedByte) :
    shellSkipIfsWhitespace ifs l = l.dropWhile (isBlank (byteKind ifs)) := by
  rw [shellSkipIfsWhitespace, whitespaceByte_eq]

theorem separator_iff (c : MappedByte) :
    (delimiterByte ifs c = true ∧ whitespaceByte ifs c = false) ↔
      byteKind ifs c = .separator := by
  obtain ⟨b, q⟩ := c
  unfold whitespaceByte delimiterByte byteKind
  by_cases hb : b ∈ ifs
  · cases q
    · cases isspace b <;> simp [hb]
    · simp
  · simp [hb]

theorem skipDelimiter_eq (l : List MappedByte) :
    skipDelimiter ifs l = afterDelimiter (byteKind ifs) l := by
  have hnot : NotAtStart (byteKind ifs) .blank (l.dropWhile (isBlank (byteKind ifs))) :=
    notAtStart_dropWhile l
  unfold skipDelimiter afterDelimiter
  rw [skip_eq]
  cases hl : l.dropWhile (isBlank (byteKind ifs)) with
  | nil => rfl
  | cons c rest =>
    rw [hl] at hnot
    have hblank : whitespaceByte ifs c = false := by
      rw [whitespaceByte_eq]
      exact decide_eq_false (notAtStart_cons.mp hnot)
    show (if delimiterByte ifs c = true then shellSkipIfsWhitespace ifs rest else c :: rest) =
      if byteKind ifs c = .separator then rest.dropWhile (isBlank (byteKind ifs)) else c :: rest
    rw [skip_eq]
    by_cases hd : delimiterByte ifs c = true
    · rw [if_pos hd, if_pos ((separator_iff ifs c).mp ⟨hd, hblank⟩)]
    · rw [if_neg hd, if_neg fun h => hd ((separator_iff ifs c).mpr h).1]

theorem splitLoop_fields (l : List MappedByte) (hstart : NotAtStart (byteKind ifs) .blank l) :
    ∃ fs, Fields (byteKind ifs) l fs ∧ splitLoop ifs l = fs.map (List.map Prod.fst) := by
  induction l using splitLoop.induct ifs with
  | case1 => exact ⟨[], .done, by rw [splitLoop]; rfl⟩
  | case2 c rest hc ih =>
    have hsep := (separator_iff ifs c).mp hc
    rw [skip_eq] at ih
    obtain ⟨fs, hfs, heq⟩ := ih (notAtStart_dropWhile rest)
    have hsplit : rest.takeWhile (isBlank (byteKind ifs)) ++ rest.dropWhile (isBlank (byteKind ifs))
        = rest := takeWhile_append_dropWhile
    have hb : ∀ a ∈ rest.takeWhile (isBlank (byteKind ifs)), byteKind ifs a = .blank := fun a ha =>
      mem_takeWhile_blank ha
    have hfields := Fields.empty hsep hb (notAtStart_dropWhile rest) hfs
    rw [hsplit] at hfields
    refine ⟨_, hfields, ?_⟩
    rw [splitLoop, dif_pos hc, skip_eq, heq]
    rfl
  | case3 c rest hc after ih =>
    obtain ⟨span, hspan⟩ : ∃ span, span = (c :: rest).takeWhile (isInField (byteKind ifs)) := ⟨_, rfl⟩
    have hin : isInField (byteKind ifs) c = true := by
      have hblank := notAtStart_cons.mp hstart
      have hsep := fun h => hc ((separator_iff ifs c).mpr h)
      refine decide_eq_true ?_
      cases hk : byteKind ifs c with
      | blank => exact absurd hk hblank
      | separator => exact absurd hk hsep
      | inField => rfl
    have hafter : after = afterDelimiter (byteKind ifs)
        ((c :: rest).dropWhile (isInField (byteKind ifs))) := by
      show skipDelimiter ifs _ = _
      rw [skipDelimiter_eq, delimiterByte_eq]
    have hne : span ≠ [] := by
      rw [hspan, takeWhile_cons, hin, if_pos rfl]
      exact cons_ne_nil _ _
    have hw : ∀ a ∈ span, byteKind ifs a = .inField := fun a ha => by
      rw [hspan] at ha
      exact of_decide_eq_true (List.all_eq_true.mp all_takeWhile a ha)
    obtain ⟨fs, hfs, heq⟩ := ih (hafter ▸ notAtStart_afterDelimiter _)
    have hloop : splitLoop ifs (c :: rest) = (span :: fs).map (List.map Prod.fst) := by
      rw [splitLoop, dif_neg hc]
      show (if _ = [] then [] else [List.map _ _]) ++ splitLoop ifs after = _
      rw [delimiterByte_eq, ← hspan, if_neg hne, heq]
      rfl
    have hsplit : span ++ (c :: rest).dropWhile (isInField (byteKind ifs)) = c :: rest := by
      rw [hspan]
      exact takeWhile_append_dropWhile
    by_cases hd : (c :: rest).dropWhile (isInField (byteKind ifs)) = []
    · -- the field goes to the end of the text
      rw [hd] at hafter hsplit
      rw [show after = [] from hafter] at hfs
      obtain rfl := hfs.nil_iff.mp rfl
      rw [append_nil] at hsplit
      exact ⟨[span], hsplit ▸ .last hne hw, hloop⟩
    · have hnot : NotAtStart (byteKind ifs) .inField
          ((c :: rest).dropWhile (isInField (byteKind ifs))) := notAtStart_dropInField _
      obtain ⟨d, hdl, hdelim, hmax⟩ := exists_delimiter hd hnot
      rw [← hafter] at hdl hmax
      refine ⟨span :: fs, ?_, hloop⟩
      rw [← hsplit, hdl]
      exact .field hne hw hdelim hmax hfs

end

/-! ## the function -/

section
variable (v : IfsVariable) (w : ExpandedWord)

theorem IfsFields.unique {v : IfsVariable} {w : ExpandedWord} {fs gs : List Bytes}
    (h : IfsFields v w fs) (h' : IfsFields v w gs) : fs = gs := by
  cases h with
  | quotedEmpty hempty hquoted hzero =>
    cases h' with
    | quotedEmpty => rfl
    | nothing _ h =>
      rcases h with h | h
      · exact absurd (h ▸ hquoted) (by decide)
      · exact absurd (h ▸ hzero) (by decide)
    | fields hne => exact absurd hempty hne
  | nothing hempty h =>
    cases h' with
    | quotedEmpty _ hquoted hzero =>
      rcases h with h | h
      · exact absurd (h ▸ hquoted) (by decide)
      · exact absurd (h ▸ hzero) (by decide)
    | nothing => rfl
    | fields hne => exact absurd hempty hne
  | fields hne hsplit hb hrest h =>
    cases h' with
    | quotedEmpty hempty => exact absurd hempty hne
    | nothing hempty => exact absurd hempty hne
    | fields _ hsplit' hb' hrest' h' =>
      have hdrop := congrArg (dropWhile (isBlank (byteKind v.separators))) hsplit
      have hdrop' := congrArg (dropWhile (isBlank (byteKind v.separators))) hsplit'
      rw [dropWhile_append_blanks hb hrest] at hdrop
      rw [dropWhile_append_blanks hb' hrest', hdrop] at hdrop'
      rw [h.unique (hdrop' ▸ h')]

theorem IfsFields.flatten {v : IfsVariable} {w : ExpandedWord} {fs : List Bytes}
    (h : IfsFields v w fs) :
    fs.flatten = (w.markedBytes.filter (isInField (byteKind v.separators))).map Prod.fst := by
  have hnone : w.expanded.bytes = [] → w.markedBytes = [] := fun h => by
    rw [ExpandedWord.markedBytes, h]
    rfl
  cases h with
  | quotedEmpty hempty _ _ => rw [hnone hempty]; rfl
  | nothing hempty _ => rw [hnone hempty]; rfl
  | fields hne hsplit hb hrest h =>
    rw [← map_flatten, h.flatten, hsplit, filter_append, filter_inField_blanks hb, nil_append]

theorem length_markedBytes : w.markedBytes.length = w.expanded.bytes.length := by
  rw [ExpandedWord.markedBytes, length_mapIdx]

theorem mem_markedBytes {c : MappedByte} (hc : c ∈ w.markedBytes) :
    ∃ i, ∃ h : i < w.expanded.bytes.length, c = (w.expanded.bytes[i], w.quotedAt i) := by
  obtain ⟨i, hi, rfl⟩ := mem_iff_getElem.mp hc
  rw [length_markedBytes] at hi
  exact ⟨i, hi, getElem_mapIdx⟩

theorem map_fst_markedBytes : w.markedBytes.map Prod.fst = w.expanded.bytes := by
  refine ext_getElem (by rw [length_map, length_markedBytes]) fun i hi hi' => ?_
  rw [getElem_map]
  simp only [ExpandedWord.markedBytes, getElem_mapIdx]

theorem IfsFields.whole (hne : w.expanded.bytes ≠ [])
    (hall : ∀ c ∈ w.markedBytes, byteKind v.separators c = .inField) :
    IfsFields v w [w.expanded.bytes] := by
  have hmarked : w.markedBytes ≠ [] := fun h => hne (by
    rw [← map_fst_markedBytes, h]
    rfl)
  have hstart : NotAtStart (byteKind v.separators) .blank w.markedBytes := by
    intro c hc h
    rw [hall c (mem_of_mem_head? hc)] at h
    exact Kind.noConfusion h
  have hnone : ∀ c ∈ ([] : List MappedByte), byteKind v.separators c = .blank :=
    fun c hc => absurd hc not_mem_nil
  have h : IfsFields v w [w.markedBytes.map Prod.fst] :=
    .fields hne (nil_append w.markedBytes).symm hnone hstart (.last hmarked hall)
  rw [map_fst_markedBytes] at h
  exact h

theorem useMap_eq (hmap : ∀ map ∈ w.quotedMap, map.length = w.expanded.bytes.length)
    (hne : w.expanded.bytes ≠ []) :
    (if w.expanded.bytes = [] then none else w.fittingMap) = w.quotedMap := by
  rw [if_neg hne, ExpandedWord.fittingMap]
  cases hq : w.quotedMap with
  | none => rfl
  | some map => exact if_pos (decide_eq_true (hmap map hq))

theorem zip_eq_markedBytes (hmap : ∀ map ∈ w.quotedMap, map.length = w.expanded.bytes.length)
    (hbase : w.baseQuoted = false) :
    w.expanded.bytes.zip (w.quotedMap.getD (replicate w.expanded.bytes.length false)) =
      w.markedBytes := by
  have hzip : ∀ map : List Bool, map.length = w.expanded.bytes.length →
      (∀ i (hi : i < map.length), map[i] = w.quotedAt i) →
      w.expanded.bytes.zip map = w.markedBytes := by
    intro map hlen hquoted
    refine ext_getElem ?_ fun i hi hi' => ?_
    · rw [length_markedBytes, length_zip, hlen, Nat.min_self]
    · rw [getElem_zip, hquoted i]
      simp only [ExpandedWord.markedBytes, getElem_mapIdx]
  cases hq : w.quotedMap with
  | none =>
    rw [getD_none]
    refine hzip _ length_replicate fun i hi => ?_
    rw [getElem_replicate, ExpandedWord.quotedAt, hbase, hq]
    rfl
  | some map =>
    refine hzip map (hmap map hq) fun i hi => ?_
    rw [ExpandedWord.quotedAt, hbase, hq, Bool.false_or, getD_some, getElem?_eq_getElem hi]
    rfl

theorem quotedAt_of_quoted (hmap : ∀ map ∈ w.quotedMap, map.length = w.expanded.bytes.length)
    (hq : (w.baseQuoted || w.quotedMap.any fun map => map.all id) = true) {i : Nat}
    (hi : i < w.expanded.bytes.length) : w.quotedAt i = true := by
  unfold ExpandedWord.quotedAt
  cases hbase : w.baseQuoted with
  | true => rfl
  | false =>
    rw [hbase, Bool.false_or] at hq
    obtain ⟨map, hmem, hall⟩ := (Option.any_eq_true _ _).mp hq
    have hi' : i < map.length := by rw [hmap map hmem]; exact hi
    rw [hmem, Bool.false_or, getD_some, getElem?_eq_getElem hi']
    exact List.all_eq_true.mp hall _ (getElem_mem hi')

theorem shellSplitText_fields (hmap : ∀ map ∈ w.quotedMap, map.length = w.expanded.bytes.length)
    (hzero : ¬ (w.arrayZero = true ∧ w.expanded.bytes = [])) :
    IfsFields v w (shellSplitText (shellCurrentIfs v) w) := by
  unfold shellSplitText
  by_cases hempty : w.expanded.bytes = []
  · have hzero' : w.arrayZero = false := by
      rw [← Bool.not_eq_true]
      exact fun h => hzero ⟨h, hempty⟩
    simp only [hempty, if_true, any_none, Bool.or_false]
    cases hbase : w.baseQuoted with
    | false => exact .nothing hempty (.inl hbase)
    | true => exact .quotedEmpty hempty hbase hzero'
  · simp only [useMap_eq w hmap hempty]
    generalize hq : (w.baseQuoted || w.quotedMap.any fun map => map.all id) = quoted
    have hnotEmpty : decide (w.expanded.bytes = []) = false := decide_eq_false hempty
    rw [hnotEmpty, Bool.and_false, if_neg Bool.false_ne_true]
    cases quoted with
    | true =>
      refine .whole v w hempty fun c hc => ?_
      obtain ⟨i, hi, rfl⟩ := mem_markedBytes w hc
      exact if_pos (.inl (quotedAt_of_quoted w hmap hq hi))
    | false =>
      obtain ⟨hbase, -⟩ := Bool.or_eq_false_iff.mp hq
      simp only [Bool.false_or, Bool.false_eq_true, if_false]
      rw [zip_eq_markedBytes w hmap hbase]
      show IfsFields v w (if _ then [w.expanded.bytes] else
        splitLoop v.separators (shellSkipIfsWhitespace v.separators w.markedBytes))
      split
      · next h =>
        refine .whole v w hempty fun c hc => ?_
        obtain ⟨i, hi, rfl⟩ := mem_markedBytes w hc
        refine if_pos (.inr ?_)
        rcases Bool.or_eq_true_iff.mp h with hnil | hall
        · show w.expanded.bytes[i] ∉ v.separators
          rw [show v.separators = [] from of_decide_eq_true hnil]
          exact not_mem_nil
        · exact of_decide_eq_true (List.all_eq_true.mp hall _ (getElem_mem hi))
      · rw [skip_eq]
        obtain ⟨fs, hfs, heq⟩ := splitLoop_fields v.separators
          (w.markedBytes.dropWhile (isBlank (byteKind v.separators))) (notAtStart_dropWhile _)
        rw [heq]
        exact .fields hempty takeWhile_append_dropWhile.symm
          (fun c hc => mem_takeWhile_blank hc) (notAtStart_dropWhile _) hfs

end

/-- splitting gives the fields of the rule, and the fields are the text without what separates them -/
theorem shellSplitExpandedWord_fields (v : IfsVariable) (w : ExpandedWord) (depth : Nat)
    (hsep : shellArrayElementSep ∉ w.expanded.bytes)
    (hmap : ∀ map ∈ w.quotedMap, map.length = w.expanded.bytes.length) :
    ∃ fs, shellSplitExpandedWord v (depth + 1) w = some fs ∧ (∀ gs, IfsFields v w gs ↔ gs = fs) ∧
      fs.flatten = (w.markedBytes.filter (isInField (byteKind v.separators))).map Prod.fst := by
  have hrule : ∃ fs, shellSplitExpandedWord v (depth + 1) w = some fs ∧ IfsFields v w fs := by
    rw [shellSplitExpandedWord]
    by_cases hzero : w.arrayZero = true ∧ w.expanded.bytes = []
    · exact ⟨[], if_pos hzero, .nothing hzero.2 (.inr hzero.1)⟩
    · rw [if_neg hzero, if_neg hsep]
      exact ⟨_, rfl, shellSplitText_fields v w hmap hzero⟩
  obtain ⟨fs, heq, hfs⟩ := hrule
  refine ⟨fs, heq, fun gs => ⟨fun h => h.unique hfs, fun h => h ▸ hfs⟩, hfs.flatten⟩

/-- `a" ":b`, with the blank quoted, at `IFS=' :'` -/
def quotedBlankWord : ExpandedWord where
  expanded := ⟨[97, 32, 58, 98], by decide⟩
  quotedMap := some [false, true, false, false]

def blankColonIfs : IfsVariable := ⟨none, false, some ⟨[32, 58], by decide⟩⟩

theorem shellSplitExpandedWord_fields_quotedBlank :
    ∃ fs, shellSplitExpandedWord blankColonIfs 1 quotedBlankWord = some fs ∧
      (∀ gs, IfsFields blankColonIfs quotedBlankWord gs ↔ gs = fs) ∧
      fs.flatten = (quotedBlankWord.markedBytes.filter
        (isInField (byteKind blankColonIfs.separators))).map Prod.fst :=
  shellSplitExpandedWord_fields blankColonIfs quotedBlankWord 0 (by decide) (by decide)

/-! ## the elements of an array -/

theorem segmentsFrom_noSep (offset : Nat) {seen : Bytes} (text : Bytes)
    (h : shellArrayElementSep ∉ seen) :
    ∀ t ∈ (segmentsFrom offset seen text).map Segment.text, shellArrayElementSep ∉ t := by
  induction text generalizing offset seen with
  | nil => simpa [segmentsFrom] using h
  | cons b text ih =>
    rw [segmentsFrom]
    by_cases hb : b = shellArrayElementSep
    · rw [if_pos hb, map_cons]
      exact forall_mem_cons.mpr ⟨h, ih _ not_mem_nil⟩
    · rw [if_neg hb]
      exact ih _ (by simpa using ⟨h, Ne.symm hb⟩)

theorem segmentsFrom_piece (offset : Nat) (seen : Bytes) {piece : Bytes} (rest : Bytes)
    (h : shellArrayElementSep ∉ piece) :
    segmentsFrom offset seen (piece ++ rest) = segmentsFrom offset (seen ++ piece) rest := by
  induction piece generalizing seen with
  | nil => rw [append_nil, nil_append]
  | cons b piece ih =>
    rw [mem_cons, not_or] at h
    rw [cons_append, segmentsFrom, if_neg (Ne.symm h.1), ih _ h.2, append_assoc, singleton_append]

theorem segmentsFrom_join (offset : Nat) (item : CString) (items : List CString)
    (h : ∀ next ∈ item :: items, shellArrayElementSep ∉ next.bytes) :
    (segmentsFrom offset [] (shellJoinArrayValuesWithSeparator shellArrayElementSep
      (item :: items))).map Segment.text = (item :: items).map CString.bytes := by
  induction items generalizing offset item with
  | nil =>
    rw [shellJoinArrayValuesWithSeparator, segmentsFrom_piece _ _ _ (h item mem_cons_self)]
    rfl
  | cons next items ih =>
    obtain ⟨hitem, hitems⟩ := forall_mem_cons.mp h
    rw [shellJoinArrayValuesWithSeparator, segmentsFrom_piece _ _ _ hitem, flatMap_cons,
      cons_append, segmentsFrom, if_pos rfl, map_cons, map_cons]
    exact congrArg _ (ih _ next hitems)

theorem shellSplitExpandedWord_quoted (v : IfsVariable) (depth : Nat) (w : ExpandedWord)
    (hquoted : w.baseQuoted = true) (hzero : w.arrayZero = false) :
    shellSplitExpandedWord v (depth + 1) w =
      some ((segmentsFrom 0 [] w.expanded.bytes).map Segment.text) := by
  rw [shellSplitExpandedWord, if_neg (by simp [hzero])]
  by_cases hsep : shellArrayElementSep ∈ w.expanded.bytes
  · have hkept : ∀ s : Segment, s.kept w = true := fun s => by simp [Segment.kept, hquoted]
    simp only [if_pos hsep, hquoted, hkept, if_true, Bool.not_true, Bool.false_and,
      Bool.false_eq_true, if_false]
    have hpieces : ∀ l : List Segment, l.mapM (fun s => some [s.text]) = some (l.map fun s =>
        [s.text]) := fun _ => mapM_pure
    rw [hpieces]
    exact congrArg some map_eq_flatMap.symm
  · have hone := segmentsFrom_piece 0 [] [] hsep
    rw [append_nil, nil_append] at hone
    rw [if_neg hsep, hone]
    simp [shellSplitText, hquoted, segmentsFrom]

end Pscal.Shell
