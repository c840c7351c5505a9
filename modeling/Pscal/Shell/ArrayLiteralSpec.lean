import Pscal.Shell.ArrayLiteral

/-!
# The round trip of an array literal

* `shellParseNextArrayToken_quoted`, `shellDecodeAssociativeKey_quoted`  what the two tokenisers
  make of a quoted text;
* `elementsLoop_intercalate`  elements that are read one by one are read in a row;
* `shellParseArrayValues_build`, `shellParseAssociativeArrayLiteral_build`  the elements of a
  literal;
* `shellParseArrayLiteral_build`  the literal gives back its array, unless this is an array with
  keys and without elements.

What the scanner of double quotes has to do for it is to find the end of the first key.
-/

namespace Pscal.Shell

open List Option
open Wire (Bytes)
open Quoting

def AtBlank (text : Bytes) : Prop := ∀ c ∈ text.head?, isspace c = true

/-! ## the tokenisers -/

theorem exists_cons (raw rest : Bytes) (c : UInt8) :
    ∃ next tail, raw ++ c :: rest = next :: tail := by
  cases raw with
  | nil => exact ⟨c, rest, rfl⟩
  | cons d raw => exact ⟨d, raw ++ c :: rest, rfl⟩

variable {raw s rest : Bytes}

theorem arrayToken_quoted (h : Quoted doubleQuote backslash raw s) (rest : Bytes) :
    arrayToken (some doubleQuote) (raw ++ doubleQuote :: rest) =
      (arrayToken none rest).map (s ++ ·) id := by
  induction h with
  | nil =>
    cases rest with
    | nil => rfl
    | cons next rest =>
      rw [nil_append, arrayToken, if_pos rfl]
      rfl
  | @plain c raw s hq he h ih =>
    obtain ⟨next, tail, htail⟩ := exists_cons raw rest doubleQuote
    rw [cons_append, htail, arrayToken, if_neg hq, if_neg (fun hc => he hc.2), ← htail, ih]
    rfl
  | @escaped c raw s h ih =>
    rw [cons_append, cons_append, arrayToken, if_neg (by decide), if_pos ⟨rfl, rfl⟩, ih]
    rfl

theorem arrayToken_atBlank (h : AtBlank rest) : arrayToken none rest = ([], rest) := by
  cases rest with
  | nil => rfl
  | cons ch rest =>
    have hch : isspace ch = true := h ch rfl
    cases rest with
    | nil => rw [arrayToken, if_pos hch]
    | cons next rest => rw [arrayToken, if_pos hch]

theorem shellParseNextArrayToken_quoted (s : Bytes) (h : AtBlank rest) :
    shellParseNextArrayToken (shellBufferAppendQuoted s ++ rest) = (s, rest) := by
  obtain ⟨next, tail, htail⟩ := exists_cons (escape doubleQuote backslash s) rest doubleQuote
  rw [shellParseNextArrayToken, shellBufferAppendQuoted, cons_append, cons_append,
    append_assoc, singleton_append, htail, arrayToken, if_neg (by decide),
    if_neg (by decide), if_pos (by decide), ← htail, arrayToken_quoted (quoted_escape _ _ s),
    arrayToken_atBlank h]
  show (s ++ [], rest) = (s, rest)
  rw [append_nil]

theorem scanKey_quoted (h : Quoted doubleQuote backslash raw s) (rest : Bytes) :
    scanKey false true (raw ++ doubleQuote :: rest) =
      (scanKey false false rest).map (raw ++ doubleQuote :: ·) id := by
  induction h with
  | nil =>
    cases rest with
    | nil => rfl
    | cons next rest =>
      rw [nil_append, scanKey, if_neg (by decide), if_neg (by decide), if_pos (by decide)]
      rfl
  | @plain c raw s hq he h ih =>
    obtain ⟨next, tail, htail⟩ := exists_cons raw rest doubleQuote
    rw [cons_append, htail, scanKey, if_neg (fun hc => he hc.1), if_neg (fun hc => by simp at hc),
      if_neg (fun hc => hq hc.1), if_neg (fun hc => by simp at hc), ← htail, ih]
    rfl
  | @escaped c raw s h ih =>
    rw [cons_append, cons_append, scanKey, if_pos (by decide), ih]
    rfl

theorem scanKey_key (s rest : Bytes) :
    scanKey false false (shellBufferAppendQuoted s ++ closeBracket :: rest) =
      (shellBufferAppendQuoted s, closeBracket :: rest) := by
  obtain ⟨next, tail, htail⟩ :=
    exists_cons (escape doubleQuote backslash s) (closeBracket :: rest) doubleQuote
  have hbracket : scanKey false false (closeBracket :: rest) = ([], closeBracket :: rest) := by
    cases rest with
    | nil => rfl
    | cons next rest =>
      rw [scanKey, if_neg (by decide), if_neg (by decide), if_neg (by decide), if_pos (by decide)]
  rw [shellBufferAppendQuoted, cons_append, cons_append, append_assoc,
    singleton_append, htail, scanKey, if_neg (by decide), if_neg (by decide),
    if_pos (by decide), ← htail]
  show Prod.map _ id (scanKey false true _) = _
  rw [scanKey_quoted (quoted_escape _ _ s), hbracket]
  rfl

theorem dropBackslashes_quoted (h : Quoted doubleQuote backslash raw s) :
    dropBackslashes raw = s := by
  induction h with
  | nil => rfl
  | @plain c raw s hq he h ih =>
    cases raw with
    | nil =>
      rw [← ih]
      rfl
    | cons next raw => rw [dropBackslashes, if_neg he, ih]
  | escaped h ih => rw [dropBackslashes, if_pos rfl, ih]

theorem shellDecodeAssociativeKey_quoted (s : Bytes) :
    shellDecodeAssociativeKey (shellBufferAppendQuoted s) = s := by
  have hlast : (shellBufferAppendQuoted s).getLast? = some doubleQuote := getLast?_concat
  have hlen : 2 ≤ (shellBufferAppendQuoted s).length := by
    rw [shellBufferAppendQuoted, length_append, length_cons, length_singleton]
    omega
  have hinner : (shellBufferAppendQuoted s).tail.dropLast = escape doubleQuote backslash s :=
    dropLast_concat
  rw [shellDecodeAssociativeKey]
  simp only []
  rw [if_pos ⟨hlen, rfl, hlast⟩, hinner]
  exact dropBackslashes_quoted (quoted_escape _ _ s)

theorem parseKeyedElement_keyed (element : Bytes × Bytes) (h : AtBlank rest) :
    parseKeyedElement (keyedElement element ++ rest) = some (element, rest) := by
  have htext : keyedElement element ++ rest = openBracket ::
      (shellBufferAppendQuoted element.1 ++ closeBracket :: equalsSign ::
        (shellBufferAppendQuoted element.2 ++ rest)) := by
    rw [keyedElement, cons_append, cons_append, append_assoc]
    rfl
  have hvalue : (shellBufferAppendQuoted element.2 ++ rest).dropWhile isspace =
      shellBufferAppendQuoted element.2 ++ rest := rfl
  rw [htext, parseKeyedElement, if_neg (fun hc => hc rfl), scanKey_key]
  show some ((shellDecodeAssociativeKey _, (shellParseNextArrayToken _).1),
    (shellParseNextArrayToken _).2) = _
  rw [hvalue, shellParseNextArrayToken_quoted _ h, shellDecodeAssociativeKey_quoted]

/-! ## elements in a row -/

section
variable {β : Type} {write : β → Bytes} {element : Bytes → Option (β × Bytes)}

theorem intercalate_cons (x : Bytes) (l : List Bytes) :
    [blank].intercalate (x :: l) = x ++ (l.map (blank :: ·)).flatten := by
  induction l generalizing x with
  | nil => simp [intercalate]
  | cons y l ih =>
    rw [map_cons, flatten_cons, cons_append, ← ih y]
    simp [intercalate]

theorem atBlank_flatten (l : List Bytes) : AtBlank (l.map (blank :: ·)).flatten := by
  cases l with
  | nil => exact fun c hc => nomatch hc
  | cons x l =>
    intro c hc
    cases some.inj hc
    rfl

theorem elementsLoop_flatten (items : List β)
    (hstart : ∀ x, ∃ c text, write x = c :: text ∧ isspace c = false)
    (hread : ∀ x rest, AtBlank rest → element (write x ++ rest) = some (x, rest))
    (fuel : Nat) (hfuel : items.length ≤ fuel) :
    elementsLoop element fuel ((items.map write).map (blank :: ·)).flatten = some items := by
  induction items generalizing fuel with
  | nil =>
    cases fuel with
    | zero => rfl
    | succ fuel => rfl
  | cons x items ih =>
    rw [length_cons] at hfuel
    obtain ⟨fuel, rfl⟩ : ∃ n, fuel = n + 1 := ⟨fuel - 1, by omega⟩
    obtain ⟨c, text, hx, hc⟩ := hstart x
    have hdrop : (((x :: items).map write).map (blank :: ·)).flatten.dropWhile isspace =
        c :: (text ++ ((items.map write).map (blank :: ·)).flatten) := by
      rw [map_cons, map_cons, flatten_cons, hx, cons_append,
        dropWhile_cons_of_pos (by decide), cons_append,
        dropWhile_cons_of_neg (by rw [hc]; decide)]
    have hel : element (c :: (text ++ ((items.map write).map (blank :: ·)).flatten)) =
        some (x, ((items.map write).map (blank :: ·)).flatten) := by
      rw [← cons_append, ← hx]
      exact hread x _ (atBlank_flatten _)
    rw [elementsLoop, hdrop]
    simp only [hel]
    rw [ih fuel (by omega)]
    rfl

theorem elementsLoop_intercalate (items : List β)
    (hstart : ∀ x, ∃ c text, write x = c :: text ∧ isspace c = false)
    (hread : ∀ x rest, AtBlank rest → element (write x ++ rest) = some (x, rest))
    (fuel : Nat) (hfuel : items.length ≤ fuel) :
    elementsLoop element fuel ([blank].intercalate (items.map write)) = some items := by
  cases items with
  | nil => exact @elementsLoop_flatten β write element [] hstart hread fuel hfuel
  | cons x items =>
    rw [← elementsLoop_flatten (x :: items) hstart hread fuel hfuel, map_cons,
      intercalate_cons, map_cons, flatten_cons, cons_append]
    cases fuel with
    | zero => rfl
    | succ fuel =>
      rw [elementsLoop, elementsLoop, dropWhile_cons_of_pos (by decide)]

end

theorem length_le_intercalate (l : List Bytes) (h : ∀ x ∈ l, x ≠ []) :
    l.length ≤ ([blank].intercalate l).length := by
  cases l with
  | nil => exact Nat.zero_le _
  | cons x l =>
    have hx : 1 ≤ x.length := length_pos_iff.mpr (h x mem_cons_self)
    have hl : l.length ≤ (l.map (blank :: ·)).flatten.length := by
      clear h hx
      induction l with
      | nil => exact Nat.zero_le _
      | cons y l ih =>
        rw [map_cons, flatten_cons, length_append, length_cons, length_cons]
        omega
    rw [intercalate_cons, length_append, length_cons]
    omega

/-! ## the literal -/

def Solid (text : Bytes) : Prop :=
  (∀ c ∈ text.head?, isspace c = false) ∧ ∀ c ∈ text.getLast?, isspace c = false

theorem trimSpaces_solid {text : Bytes} (h : Solid text) : trimSpaces text = text := by
  have hfirst : text.dropWhile isspace = text := by
    cases text with
    | nil => rfl
    | cons c text => rw [dropWhile_cons_of_neg (by rw [h.1 c rfl]; decide)]
  rw [trimSpaces, hfirst, rdropWhile_eq_self_iff]
  intro hne
  rw [h.2 _ (getLast?_eq_some_getLast hne)]
  decide

theorem solid_intercalate (l : List Bytes) (h : ∀ x ∈ l, x ≠ [] ∧ Solid x) :
    Solid ([blank].intercalate l) := by
  induction l with
  | nil => exact ⟨fun c hc => by simp [intercalate] at hc, fun c hc => by
      simp [intercalate] at hc⟩
  | cons x l ih =>
    obtain ⟨hne, hx⟩ := h x mem_cons_self
    obtain ⟨c, x', rfl⟩ := exists_cons_of_ne_nil hne
    rw [intercalate_cons]
    refine ⟨hx.1, ?_⟩
    cases l with
    | nil =>
      rw [map_nil, flatten_nil, append_nil]
      exact hx.2
    | cons y l =>
      have hy : y ≠ [] := (h y (mem_cons_of_mem _ mem_cons_self)).1
      have hlast := (ih fun z hz => h z (mem_cons_of_mem _ hz)).2
      rw [intercalate_cons] at hlast
      rw [map_cons, flatten_cons, getLast?_append_of_ne_nil _
        (append_ne_nil_of_left_ne_nil (cons_ne_nil _ _) _), cons_append,
        getLast?_cons_of_ne_nil (append_ne_nil_of_left_ne_nil hy _)]
      exact hlast

theorem solid_quoted (front s : Bytes) (hfront : ∀ c ∈ front.head?, isspace c = false) :
    Solid (front ++ shellBufferAppendQuoted s) := by
  constructor
  · cases front with
    | nil =>
      intro c hc
      cases some.inj hc
      rfl
    | cons d front => exact hfront
  · intro c hc
    rw [shellBufferAppendQuoted, ← append_assoc, getLast?_concat] at hc
    cases some.inj hc
    rfl

theorem literalElements_solid (var : ShellArrayVariable) :
    ∀ x ∈ literalElements var, x ≠ [] ∧ Solid x := by
  intro x hx
  cases var with
  | indexed values =>
    obtain ⟨s, _, rfl⟩ := List.mem_map.mp hx
    exact ⟨cons_ne_nil _ _, solid_quoted [] s fun c hc => nomatch hc⟩
  | associative sparse elements =>
    obtain ⟨element, _, rfl⟩ := List.mem_map.mp hx
    refine ⟨cons_ne_nil _ _, ?_⟩
    have hfront := solid_quoted (openBracket :: shellBufferAppendQuoted element.1 ++
      [closeBracket, equalsSign]) element.2 fun c hc => by
        cases some.inj hc
        rfl
    rw [append_assoc] at hfront
    exact hfront

theorem literalBody_build (var : ShellArrayVariable) :
    literalBody (shellBuildArrayLiteral var) = [blank].intercalate (literalElements var) := by
  have hsolid : Solid (shellBuildArrayLiteral var) := by
    constructor
    · intro c hc
      cases some.inj hc
      rfl
    · intro c hc
      rw [shellBuildArrayLiteral, getLast?_concat] at hc
      cases some.inj hc
      rfl
  have hlast : (shellBuildArrayLiteral var).getLast? = some closeParen := getLast?_concat
  have hinner : (shellBuildArrayLiteral var).tail.dropLast =
      [blank].intercalate (literalElements var) := dropLast_concat
  rw [literalBody, trimSpaces_solid hsolid, if_pos ⟨rfl, hlast⟩, hinner,
    trimSpaces_solid (solid_intercalate _ (literalElements_solid var))]

theorem shellParseArrayValues_build (values : List Bytes) :
    shellParseArrayValues (shellBuildArrayLiteral (.indexed values)) = some values := by
  have hlen := length_le_intercalate (literalElements (.indexed values)) fun x hx =>
    (literalElements_solid _ x hx).1
  rw [literalElements, length_map] at hlen
  rw [shellParseArrayValues, literalBody_build]
  refine elementsLoop_intercalate values (fun x => ⟨doubleQuote, _, rfl, rfl⟩) ?_ _ hlen
  intro x rest hrest
  exact congrArg some (shellParseNextArrayToken_quoted x hrest)

theorem shellParseAssociativeArrayLiteral_build (sparse : Bool) (elements : List (Bytes × Bytes)) :
    shellParseAssociativeArrayLiteral (shellBuildArrayLiteral (.associative sparse elements)) =
      some elements := by
  have hlen := length_le_intercalate (literalElements (.associative sparse elements)) fun x hx =>
    (literalElements_solid _ x hx).1
  rw [literalElements, length_map] at hlen
  rw [shellParseAssociativeArrayLiteral, literalBody_build]
  exact elementsLoop_intercalate elements (fun x => ⟨openBracket, _, rfl, rfl⟩)
    (fun x rest hrest => parseKeyedElement_keyed x hrest) _ hlen

/-! ## the guess of the kind -/

/-- the scanner of double quotes stops behind the closing quote of the first key -/
def FirstKeyScanned (scanner : WordScanner) (var : ShellArrayVariable) : Prop :=
  ∀ key ∈ var.keys.head?, scanner.shellScanDoubleQuoted (shellBuildArrayLiteral var).tail 2 =
    some (1 + (shellBufferAppendQuoted key).length)

section
variable {scanner : WordScanner}

theorem firstElement_build (var : ShellArrayVariable) :
    firstElement (shellBuildArrayLiteral var) = (shellBuildArrayLiteral var).tail := by
  have hdrop : (shellBuildArrayLiteral var).dropWhile isspace = shellBuildArrayLiteral var := rfl
  have hfirst : ∀ c ∈ (shellBuildArrayLiteral var).tail.head?, isspace c = false := by
    intro c hc
    have htail : (shellBuildArrayLiteral var).tail =
        [blank].intercalate (literalElements var) ++ [closeParen] := rfl
    have hsolid := solid_intercalate _ (literalElements_solid var)
    rw [htail] at hc
    cases hi : [blank].intercalate (literalElements var) with
    | nil =>
      rw [hi] at hc
      cases some.inj hc
      rfl
    | cons d inner =>
      rw [hi] at hc hsolid
      exact hsolid.1 c hc
  rw [firstElement, hdrop]
  show (if openParen = openParen then (shellBuildArrayLiteral var).tail.dropWhile isspace else _) = _
  rw [if_pos rfl]
  cases htail : (shellBuildArrayLiteral var).tail with
  | nil => rfl
  | cons c rest =>
    rw [htail] at hfirst
    rw [dropWhile_cons_of_neg (by rw [hfirst c rfl]; decide)]

theorem looksAssociative_indexed (values : List Bytes) :
    looksAssociative scanner (shellBuildArrayLiteral (.indexed values)) = false := by
  have hhead : (shellBuildArrayLiteral (.indexed values)).tail.head? ≠ some openBracket := by
    cases values with
    | nil => decide
    | cons s values =>
      rw [shellBuildArrayLiteral, literalElements, map_cons, intercalate_cons]
      exact (by decide : some doubleQuote ≠ some openBracket)
  rw [looksAssociative, firstElement_build]
  simp only [hhead, decide_false, Bool.false_and]

theorem looksAssociative_keyed (sparse : Bool) (element : Bytes × Bytes)
    (elements : List (Bytes × Bytes))
    (h : FirstKeyScanned scanner (.associative sparse (element :: elements))) :
    looksAssociative scanner (shellBuildArrayLiteral (.associative sparse (element :: elements))) =
      true := by
  have hscan := h element.1 rfl
  obtain ⟨rest, hrest⟩ : ∃ rest,
      (shellBuildArrayLiteral (.associative sparse (element :: elements))).tail =
        (openBracket :: shellBufferAppendQuoted element.1) ++ closeBracket :: equalsSign :: rest := by
    rw [shellBuildArrayLiteral, literalElements, map_cons, intercalate_cons, keyedElement]
    refine ⟨shellBufferAppendQuoted element.2 ++
      ((elements.map keyedElement).map (blank :: ·)).flatten ++ [closeParen], ?_⟩
    simp only [List.tail_cons, cons_append, append_assoc]
  rw [hrest] at hscan
  rw [looksAssociative, firstElement_build, hrest]
  have hlen : (openBracket :: shellBufferAppendQuoted element.1).length =
      1 + (shellBufferAppendQuoted element.1).length := Nat.add_comm _ _
  generalize hkey : openBracket :: shellBufferAppendQuoted element.1 = key at *
  have hbracket : (key ++ closeBracket :: equalsSign :: rest)[key.length]? = some closeBracket := by
    rw [getElem?_append_right (Nat.le_refl _), Nat.sub_self]
    rfl
  have hequals : (key ++ closeBracket :: equalsSign :: rest)[key.length + 1]? = some equalsSign := by
    rw [getElem?_append_right (Nat.le_add_right _ 1), Nat.add_sub_cancel_left]
    rfl
  have hquote : (key ++ closeBracket :: equalsSign :: rest)[1]? = some doubleQuote := by
    rw [← hkey]
    rfl
  have htotal : (key ++ closeBracket :: equalsSign :: rest).length = key.length + rest.length + 2 := by
    rw [length_append, length_cons, length_cons]
    omega
  have hk : closingBracket scanner (key ++ closeBracket :: equalsSign :: rest)
      (key.length + rest.length + 2) 1 = key.length := by
    rw [closingBracket, hquote]
    dsimp only
    rw [if_neg (by decide), if_pos rfl, hscan, ← hlen]
    show closingBracket scanner _ (key.length + rest.length + 1) key.length = _
    rw [closingBracket, hbracket]
    exact if_pos rfl
  have hlt : key.length < key.length + rest.length + 2 := by omega
  rw [htotal, hk, hequals, decide_eq_true hlt, ← hkey]
  rfl

/-! ## the round trip -/

def RoundTrips (scanner : WordScanner) (var : ShellArrayVariable) : Prop :=
  shellParseArrayLiteral scanner (shellBuildArrayLiteral var) =
    some ⟨var.kind, var.keys, var.values⟩

instance (scanner : WordScanner) (var : ShellArrayVariable) : Decidable (RoundTrips scanner var) :=
  inferInstanceAs (Decidable (_ = _))

/-- the literal of an array with keys gives it back where there is a first element to show the kind -/
theorem shellParseArrayLiteral_build (var : ShellArrayVariable) (h : FirstKeyScanned scanner var) :
    RoundTrips scanner var ↔ var.kind = .indexed ∨ 0 < var.count := by
  cases var with
  | indexed values =>
    refine ⟨fun _ => .inl rfl, fun _ => ?_⟩
    rw [RoundTrips, shellParseArrayLiteral, looksAssociative_indexed, if_neg (by decide),
      shellParseArrayValues_build]
    rfl
  | associative sparse elements =>
    cases elements with
    | nil =>
      have hparse : shellParseArrayLiteral scanner
          (shellBuildArrayLiteral (.associative sparse [])) = some ⟨.indexed, [], []⟩ := rfl
      constructor
      · intro hround
        rw [RoundTrips, hparse] at hround
        exact nomatch hround
      · rintro (hkind | hcount)
        · exact nomatch hkind
        · exact absurd hcount (Nat.lt_irrefl 0)
    | cons element elements =>
      refine ⟨fun _ => .inr (Nat.succ_pos _), fun _ => ?_⟩
      rw [RoundTrips, shellParseArrayLiteral, looksAssociative_keyed sparse element elements h,
        if_pos rfl, shellParseAssociativeArrayLiteral_build]
      rfl

end

/-! ## a scanner -/

/-- behind the closing quote; a backslash takes a byte along -/
def closingQuote : Bytes → Option Nat
  | [] => none
  | [c] => if c = doubleQuote then some 1 else none
  | c :: next :: rest =>
    if c = doubleQuote then some 1
    else if c = backslash then (closingQuote rest).map (· + 2)
    else (closingQuote (next :: rest)).map (· + 1)

def backslashScanner : WordScanner where
  shellScanDoubleQuoted text i := (closingQuote (text.drop i)).map (i + ·)
  shellScanSingleQuoted text i := ((text.drop i).findIdx? (· = singleQuote)).map (i + 1 + ·)
  double_le := by
    intro text i stop h
    obtain ⟨n, _, rfl⟩ := Option.map_eq_some_iff.mp h
    exact Nat.le_add_right _ _
  single_le := by
    intro text i stop h
    obtain ⟨n, _, rfl⟩ := Option.map_eq_some_iff.mp h
    omega

theorem closingQuote_quoted (h : Quoted doubleQuote backslash raw s) (rest : Bytes) :
    closingQuote (raw ++ doubleQuote :: rest) = some (raw.length + 1) := by
  induction h with
  | nil =>
    cases rest with
    | nil => rfl
    | cons next rest =>
      rw [nil_append, closingQuote, if_pos rfl]
      rfl
  | @plain c raw s hq he h ih =>
    obtain ⟨next, tail, htail⟩ := exists_cons raw rest doubleQuote
    rw [cons_append, htail, closingQuote, if_neg hq, if_neg he, ← htail, ih]
    rfl
  | @escaped c raw s h ih =>
    rw [cons_append, cons_append, closingQuote, if_neg (by decide), if_pos rfl, ih]
    rfl

theorem firstKeyScanned_backslash (var : ShellArrayVariable) :
    FirstKeyScanned backslashScanner var := by
  intro key hkey
  cases var with
  | indexed values => exact nomatch hkey
  | associative sparse elements =>
    cases elements with
    | nil => exact nomatch hkey
    | cons element elements =>
      cases some.inj hkey
      obtain ⟨rest, hrest⟩ : ∃ rest,
          (shellBuildArrayLiteral (.associative sparse (element :: elements))).tail =
            openBracket :: doubleQuote ::
              (escape doubleQuote backslash element.1 ++ doubleQuote :: rest) := by
        rw [shellBuildArrayLiteral, literalElements, map_cons, intercalate_cons, keyedElement,
          shellBufferAppendQuoted]
        refine ⟨closeBracket :: equalsSign :: shellBufferAppendQuoted element.2 ++
          ((elements.map keyedElement).map (blank :: ·)).flatten ++ [closeParen], ?_⟩
        simp only [List.tail_cons, cons_append, append_assoc, nil_append]
      rw [hrest]
      show (closingQuote (escape doubleQuote backslash element.1 ++ doubleQuote :: rest)).map (2 + ·)
        = _
      rw [closingQuote_quoted (quoted_escape _ _ element.1)]
      show some (2 + _) = _
      rw [shellBufferAppendQuoted, length_append, length_cons, length_singleton]
      congr 1
      omega

/-- the bytes are a bracket, a quote, a backslash; a blank; nothing -/
theorem shellParseArrayLiteral_build_keys :
    RoundTrips backslashScanner (.associative false [([93, 34, 92], [32]), ([], [])]) ↔
      ShellArrayKind.associative = .indexed ∨ 0 < 2 :=
  shellParseArrayLiteral_build (.associative false [([93, 34, 92], [32]), ([], [])])
    (firstKeyScanned_backslash _)

/-- an empty array with keys comes back without them -/
theorem empty_keys_lost : ¬ RoundTrips backslashScanner (.associative false []) := by
  decide

end Pscal.Shell
