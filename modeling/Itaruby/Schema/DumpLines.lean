import Itaruby.Schema.Dump
import Mathlib.Data.List.TakeWhile

/-!
What the scanner makes of one line of a dump: the header of a table, the lines of its body, and
the clauses after it.
-/

set_option autoImplicit false
set_option relaxedAutoImplicit false

namespace Itaruby.StructureSql

/-! ### Trimming -/

section Trim

variable {text other : Text}

theorem Starts.append (h : Starts text) (other : Text) : Starts (text ++ other) := by
  obtain ⟨c, rest, rfl, hc⟩ := h
  exact ⟨c, rest ++ other, rfl, hc⟩

theorem Ends.append (h : Ends other) (text : Text) : Ends (text ++ other) := by
  obtain ⟨init, c, rfl, hc⟩ := h
  exact ⟨text ++ init, c, (List.append_assoc _ _ _).symm, hc⟩

theorem Starts.trimStart (h : Starts text) : Text.trimStart text = text := by
  obtain ⟨c, rest, rfl, hc⟩ := h
  exact List.dropWhile_cons_of_neg (by simp [hc])

theorem trimEnd_append {init : Text} {c : Char} (hc : Text.isWhiteSpace c = false) :
    Text.trimEnd (init ++ [c]) = init ++ [c] := by
  unfold Text.trimEnd
  rw [List.reverse_append, List.reverse_singleton, List.singleton_append,
    List.dropWhile_cons_of_neg (by simp [hc]), List.reverse_cons, List.reverse_reverse]

theorem Ends.trimEnd (h : Ends text) : Text.trimEnd text = text := by
  obtain ⟨init, c, rfl, hc, -⟩ := h
  exact trimEnd_append hc

theorem Ends.stripComma (h : Ends text) :
    stripComma text = text ∧ stripComma (text ++ [',']) = text := by
  obtain ⟨init, c, rfl, -, hcomma⟩ := h
  constructor
  · unfold StructureSql.stripComma
    rw [List.getLast?_concat, if_neg fun heq ↦ hcomma (Option.some.inj heq)]
  · unfold StructureSql.stripComma
    rw [List.getLast?_concat, if_pos rfl, List.dropLast_concat]

theorem trimStart_blank (text : Text) : Text.trimStart (' ' :: text) = Text.trimStart text :=
  List.dropWhile_cons_of_pos (by decide)

theorem trim_indent (text : Text) : Text.trim ("    ".toList ++ text) = Text.trim text := by
  unfold Text.trim
  change Text.trimEnd (Text.trimStart (' ' :: ' ' :: ' ' :: ' ' :: text)) = _
  simp only [trimStart_blank]

/-- What the scanner looks at in a line of the body. -/
theorem trim_stripComma_trim {line : Text} (hstarts : Starts text) (hends : Ends text)
    (hline : line = text ∨ line = text ++ [',']) :
    Text.trim (stripComma (Text.trim line)) = text := by
  have htrim : Text.trim line = line := by
    unfold Text.trim
    rcases hline with rfl | rfl
    · rw [hstarts.trimStart, hends.trimEnd]
    · rw [(hstarts.append [',']).trimStart, trimEnd_append (by decide)]
  have hstrip : StructureSql.stripComma line = text := by
    rcases hline with rfl | rfl
    · exact hends.stripComma.1
    · exact hends.stripComma.2
  rw [htrim, hstrip]
  unfold Text.trim
  rw [hstarts.trimStart, hends.trimEnd]

end Trim

/-! ### Reading a line of the body -/

section Reading

variable {text line : Text}

/-- The first word of a text that starts with it. -/
theorem wordsFrom_word {word : Text} (hword : ∀ c ∈ word, Text.isWhiteSpace c = false)
    (before : Text) (rest : Text)
    (hrest : rest = [] ∨ ∃ c tail, rest = c :: tail ∧ Text.isWhiteSpace c = true)
    (hne : before.reverse ++ word ≠ []) :
    wordsFrom before (word ++ rest) = (before.reverse ++ word) :: wordsFrom [] rest := by
  induction word generalizing before with
  | nil =>
    have hbefore : before ≠ [] := by
      intro heq
      simp [heq] at hne
    rw [List.nil_append, List.append_nil]
    rcases hrest with rfl | ⟨c, tail, rfl, hc⟩
    · exact if_neg hbefore
    · rw [wordsFrom, if_pos hc, if_neg hbefore, wordsFrom, if_pos hc, if_pos rfl]
  | cons c word ih =>
    have hc : ¬ Text.isWhiteSpace c = true := by simp [hword c List.mem_cons_self]
    have hwords := ih (fun d hd ↦ hword d (List.mem_cons_of_mem _ hd)) (c :: before) (by simp)
    rw [List.cons_append, wordsFrom, if_neg hc, hwords, List.reverse_cons, List.append_assoc]
    rfl

/-- A type is read when the first word after the name does not stop it. -/
theorem extractType_isSome (hstarts : Starts text)
    (htyped : toAsciiUppercase (text.takeWhile fun c ↦ !Text.isWhiteSpace c) ∉ typeStopWords) :
    (extractType text).isSome := by
  have hsplit := List.takeWhile_append_dropWhile (p := fun c ↦ !Text.isWhiteSpace c) (l := text)
  have hrest : ∀ rest : Text, text.dropWhile (fun c ↦ !Text.isWhiteSpace c) = rest →
      rest = [] ∨ ∃ c tail, rest = c :: tail ∧ Text.isWhiteSpace c = true := by
    intro rest heq
    cases rest with
    | nil => exact .inl rfl
    | cons c tail =>
      refine .inr ⟨c, tail, rfl, ?_⟩
      have hhead := List.head_dropWhile_not (l := text) (fun c ↦ !Text.isWhiteSpace c)
        (by simp [heq])
      simpa [heq] using hhead
  have hne : text.takeWhile (fun c ↦ !Text.isWhiteSpace c) ≠ [] := by
    obtain ⟨c, rest, rfl, hc⟩ := hstarts
    rw [List.takeWhile_cons_of_pos (by simp [hc])]
    exact List.cons_ne_nil _ _
  have hwords := wordsFrom_word
    (fun c hc ↦ by simpa using List.mem_takeWhile_imp hc) [] _ (hrest _ rfl) hne
  rw [hsplit] at hwords
  generalize wordsFrom [] (text.dropWhile fun c ↦ !Text.isWhiteSpace c) = words at hwords
  have htake := List.takeWhile_cons_of_pos
    (p := fun token ↦ !typeStopWords.contains (toAsciiUppercase token)) (l := words)
    (by simpa using htyped)
  unfold extractType splitWhitespace
  simp only [hwords, List.reverse_nil, List.nil_append, htake, if_neg (List.cons_ne_nil _ _)]
  rfl

theorem toNat_of_isLower {c : Char} (h : c.isLower = true) : 97 ≤ c.toNat ∧ c.toNat ≤ 122 := by
  change (decide (c.val ≥ 'a'.val) && decide (c.val ≤ 'z'.val)) = true at h
  rw [Bool.and_eq_true, decide_eq_true_eq, decide_eq_true_eq, ge_iff_le, UInt32.le_iff_toNat_le,
    UInt32.le_iff_toNat_le] at h
  exact h

theorem isAlpha_of_isLower {c : Char} (h : c.isLower = true) : c.isAlpha = true := by
  change (c.isUpper || c.isLower) = true
  rw [h, Bool.or_true]

theorem isWhiteSpace_of_bare {c : Char} (h : c.isLower ∨ c.isDigit ∨ c = '_') :
    Text.isWhiteSpace c = false := by
  have hrange : 48 ≤ c.toNat ∧ c.toNat ≤ 122 := by
    rcases h with hlower | hdigit | rfl
    · have hlower := toNat_of_isLower hlower
      omega
    · simp only [Char.isDigit, Bool.and_eq_true, decide_eq_true_eq, ge_iff_le,
        UInt32.le_iff_toNat_le] at hdigit
      simp at hdigit
      omega
    · decide
  unfold Text.isWhiteSpace
  simp only [Bool.or_eq_false_iff, Bool.and_eq_false_imp, decide_eq_true_eq,
    decide_eq_false_iff_not, beq_eq_false_iff_ne]
  omega

/-- A bare word is an identifier. -/
theorem splitIdentifier_bare {word : Text} {c : Char} {tail : Text} (hword : word = c :: tail)
    (hfirst : c.isAlpha ∨ c = '_') (hvisible : ∀ d ∈ word, Text.isWhiteSpace d = false)
    {blank : Char} (hblank : Text.isWhiteSpace blank = true) (rest : Text) :
    splitIdentifier (word ++ blank :: rest) = some (word, blank :: rest) := by
  have hquote : c ≠ '"' := by
    rintro rfl
    exact absurd hfirst (by decide)
  have htake : (word ++ blank :: rest).takeWhile (fun d ↦ !Text.isWhiteSpace d) = word := by
    rw [List.takeWhile_append_of_pos (by simpa using hvisible),
      List.takeWhile_cons_of_neg (by simp [hblank]), List.append_nil]
  have hspace : (word ++ blank :: rest).any Text.isWhiteSpace = true :=
    List.any_eq_true.mpr ⟨blank, by simp, hblank⟩
  have hdrop : (word ++ blank :: rest).drop word.length = blank :: rest := List.drop_left
  unfold splitIdentifier
  split
  next heq =>
    rw [hword] at heq
    exact absurd (List.cons.inj heq).1 hquote
  next =>
    rw [if_pos hspace]
    simp only [htake, hdrop]
    subst hword
    simp only [List.head?_cons]
    rw [if_pos (by simpa using hfirst)]

/-- A quoted word is an identifier up to its first quote. -/
theorem splitIdentifier_quoted {before : Text} (hbefore : '"' ∉ before) (rest : Text) :
    splitIdentifier ('"' :: before ++ '"' :: rest) = some (before, rest) := by
  have hrun : ∀ c ∈ before, decide (c ≠ '"') := fun c hc ↦
    decide_eq_true fun heq ↦ hbefore (heq ▸ hc)
  have hmem : '"' ∈ before ++ '"' :: rest := by simp
  change (if '"' ∈ before ++ '"' :: rest then
    some ((before ++ '"' :: rest).takeWhile (· ≠ '"'),
      ((before ++ '"' :: rest).dropWhile (· ≠ '"')).drop 1) else none) = _
  rw [if_pos hmem, List.takeWhile_append_of_pos hrun, List.dropWhile_append_of_pos hrun,
    List.takeWhile_cons_of_neg (by decide), List.dropWhile_cons_of_neg (by decide),
    List.append_nil]
  rfl

/-- A line that no keyword opens is read by its identifier and its type. -/
theorem parseColumnLine_of_free (htrim : Text.trim (stripComma (Text.trim line)) = text)
    (hne : text ≠ [])
    (hkeyword : ∀ keyword ∈ nonColumnPrefixes, ¬ keyword <+: toAsciiUppercase text) :
    parseColumnLine line = (splitIdentifier text).bind fun split ↦
      (extractType (Text.trim split.2)).map fun type ↦ (split.1, toAsciiLowercase type) := by
  have hany : nonColumnPrefixes.any (·.isPrefixOf (toAsciiUppercase text)) = false := by
    rw [List.any_eq_false]
    intro keyword hmem hprefix
    exact hkeyword keyword hmem (List.isPrefixOf_iff_prefix.mp hprefix)
  unfold parseColumnLine
  simp only [htrim, if_neg hne, hany, Bool.false_eq_true, if_false]
  cases splitIdentifier text with
  | none => rfl
  | some split => rfl

/-- A line that no keyword opens is a column when it has an identifier and a type. -/
theorem parseColumnLine_of_split {ident rest : Text}
    (htrim : Text.trim (stripComma (Text.trim line)) = text) (hne : text ≠ [])
    (hkeyword : ∀ keyword ∈ nonColumnPrefixes, ¬ keyword <+: toAsciiUppercase text)
    (hsplit : splitIdentifier text = some (ident, rest)) :
    (parseColumnLine line).map Prod.fst =
      if (extractType (Text.trim rest)).isSome then some ident else none := by
  rw [parseColumnLine_of_free htrim hne hkeyword, hsplit, Option.bind_some]
  cases extractType (Text.trim rest) with
  | none => rfl
  | some type => rfl

theorem parseColumnLine_of_keyword {keyword : Text} (hmem : keyword ∈ nonColumnPrefixes)
    (htrim : Text.trim (stripComma (Text.trim line)) = text)
    (hkeyword : keyword <+: toAsciiUppercase text) : parseColumnLine line = none := by
  have hany : nonColumnPrefixes.any (·.isPrefixOf (toAsciiUppercase text)) = true :=
    List.any_eq_true.mpr ⟨keyword, hmem, List.isPrefixOf_iff_prefix.mpr hkeyword⟩
  unfold parseColumnLine
  simp only [htrim, hany, if_true, ite_self]

theorem Definition.extractType_isSome (definition : Definition) :
    (extractType (Text.trim (' ' :: definition.text))).isSome := by
  have htrim : Text.trim (' ' :: definition.text) = definition.text := by
    unfold Text.trim
    rw [trimStart_blank, definition.starts.trimStart, definition.ends.trimEnd]
  rw [htrim]
  exact StructureSql.extractType_isSome definition.starts definition.typed

end Reading

/-! ### The lines of the body -/

section Items

variable {item : Item} {line : Text}

theorem Ident.print_eq_cons (ident : Ident) :
    ∃ c rest, ident.print = c :: rest ∧ (c = '"' ∨ c.isLower ∨ c = '_') := by
  unfold Ident.print
  split
  next => exact ⟨'"', _, rfl, .inl rfl⟩
  next hquoted =>
    obtain ⟨⟨c, rest, hname, hc⟩, -⟩ := ident.bare (by simpa using hquoted)
    exact ⟨c, rest, hname, .inr hc⟩

theorem Ident.starts (ident : Ident) : Starts ident.print := by
  obtain ⟨c, rest, hprint, hc⟩ := ident.print_eq_cons
  refine ⟨c, rest, hprint, ?_⟩
  rcases hc with rfl | hlower | rfl
  · decide
  · exact isWhiteSpace_of_bare (.inl hlower)
  · decide

/-- The text of an item, without the indent. -/
def Item.text : Item → Text
  | .column name definition => name.print ++ ' ' :: definition.text
  | .constraint c => c.text

theorem Item.line_eq (item : Item) : item.line = "    ".toList ++ item.text := by
  cases item <;> rfl

theorem Item.ends (item : Item) : Ends item.text := by
  cases item with
  | column name definition =>
    exact (definition.ends.append [' ']).append name.print
  | constraint c => exact c.ends

theorem keyword_eq_cons {keyword : Text} (hmem : keyword ∈ nonColumnPrefixes) :
    ∃ c rest, keyword = c :: rest ∧ Text.isWhiteSpace c = false ∧ c ≠ ')' := by
  have hall : ∀ keyword ∈ nonColumnPrefixes,
      keyword.head?.any fun c ↦ !Text.isWhiteSpace c && c != ')' := by decide
  have hhead := hall keyword hmem
  cases keyword with
  | nil => cases hhead
  | cons c rest => exact ⟨c, rest, rfl, by simpa using hhead⟩

theorem Item.text_eq_cons (item : Item) :
    ∃ c rest, item.text = c :: rest ∧ Text.isWhiteSpace c = false ∧ c ≠ ')' := by
  cases item with
  | column name definition =>
    obtain ⟨c, rest, hprint, hc⟩ := name.print_eq_cons
    obtain ⟨d, rest', hstart, hd⟩ := name.starts
    obtain ⟨rfl, -⟩ := List.cons.inj (hprint.symm.trans hstart)
    refine ⟨c, _, congrArg (· ++ _) hprint, hd, ?_⟩
    rintro rfl
    exact absurd hc (by decide)
  | constraint c =>
    obtain ⟨keyword, hmem, rest, hrest⟩ := c.keyword
    obtain ⟨first, tail, rfl, hfirst⟩ := keyword_eq_cons hmem
    exact ⟨first, tail ++ rest, hrest.symm, hfirst⟩

theorem Item.starts (item : Item) : Starts item.text := by
  obtain ⟨c, rest, htext, hc, -⟩ := item.text_eq_cons
  exact ⟨c, rest, htext, hc⟩

/-- What the scanner looks at is the text of the item. -/
theorem Item.trim_line (hline : line = item.line ∨ line = item.line ++ [',']) :
    Text.trim (stripComma (Text.trim line)) = item.text := by
  have hindent : ∃ text, line = "    ".toList ++ text ∧
      (text = item.text ∨ text = item.text ++ [',']) := by
    rw [item.line_eq] at hline
    rcases hline with rfl | rfl
    · exact ⟨_, rfl, .inl rfl⟩
    · exact ⟨_, List.append_assoc _ _ _, .inr rfl⟩
  obtain ⟨text, rfl, htext⟩ := hindent
  rw [trim_indent, trim_stripComma_trim item.starts item.ends htext]

theorem toAsciiUppercase_keyword {keyword : Text} (hmem : keyword ∈ nonColumnPrefixes) :
    toAsciiUppercase keyword = keyword := by
  revert keyword
  decide

theorem parse_constraint (c : Constraint)
    (hline : line = (Item.constraint c).line ∨ line = (Item.constraint c).line ++ [',']) :
    parseColumnLine line = none := by
  obtain ⟨keyword, hmem, rest, hrest⟩ := c.keyword
  refine parseColumnLine_of_keyword hmem (Item.trim_line hline) ⟨toAsciiUppercase rest, ?_⟩
  change _ = toAsciiUppercase c.text
  rw [← hrest]
  unfold toAsciiUppercase
  rw [List.map_append]
  exact congrArg (· ++ _) (toAsciiUppercase_keyword hmem).symm

/-- Quotes are doubled, and nothing else. -/
theorem flatMap_quotes {name : Text} (hname : '"' ∉ name) (rest : Text) :
    (name ++ rest).flatMap (fun c ↦ if c = '"' then ['"', '"'] else [c]) =
      name ++ rest.flatMap (fun c ↦ if c = '"' then ['"', '"'] else [c]) := by
  induction name with
  | nil => rfl
  | cons c name ih =>
    rw [List.mem_cons, not_or] at hname
    rw [List.cons_append, List.flatMap_cons, if_neg (Ne.symm hname.1), ih hname.2]
    rfl

theorem quote_not_keyword {keyword : Text} (hmem : keyword ∈ nonColumnPrefixes) (rest : Text) :
    ¬ keyword <+: toAsciiUppercase ('"' :: rest) := by
  have hall : ∀ keyword ∈ nonColumnPrefixes, keyword.head?.any fun c ↦ c != '"' := by decide
  have hhead := hall keyword hmem
  rintro ⟨tail, htail⟩
  cases keyword with
  | nil => cases hhead
  | cons c word =>
    have hc : c = '"' := (List.cons.inj htail).1
    simp [hc] at hhead

theorem parse_bare {name : Ident} (hquoted : name.quoted = false) (definition : Definition)
    (hline : line = (Item.column name definition).line ∨
      line = (Item.column name definition).line ++ [',']) :
    (parseColumnLine line).map Prod.fst = some name.name ↔
      (Item.column name definition).Readable := by
  obtain ⟨⟨c, tail, hname, hc⟩, hchars⟩ := name.bare hquoted
  have htext : (Item.column name definition).text = name.name ++ ' ' :: definition.text := by
    simp [Item.text, Ident.print, hquoted]
  have htrim := Item.trim_line hline
  rw [htext] at htrim
  have hfirst : c.isAlpha ∨ c = '_' := hc.imp_left isAlpha_of_isLower
  have hblank : Text.isWhiteSpace ' ' = true := by decide
  have hsplit := splitIdentifier_bare hname hfirst
    (fun d hd ↦ isWhiteSpace_of_bare (hchars d hd)) hblank definition.text
  simp only [Item.Readable, hquoted, Bool.false_eq_true, if_false]
  constructor
  · intro hread keyword hmem hprefix
    rw [parseColumnLine_of_keyword hmem htrim hprefix] at hread
    cases hread
  · intro hkeyword
    rw [parseColumnLine_of_split htrim (by simp) hkeyword hsplit,
      if_pos definition.extractType_isSome]

theorem parse_quoted {name : Ident} (hquoted : name.quoted = true) (definition : Definition)
    (hline : line = (Item.column name definition).line ∨
      line = (Item.column name definition).line ++ [',']) :
    (parseColumnLine line).map Prod.fst = some name.name ↔
      (Item.column name definition).Readable := by
  have htrim := Item.trim_line hline
  simp only [Item.text, Ident.print, hquoted, if_true] at htrim
  simp only [Item.Readable, hquoted, if_true]
  by_cases hquote : '"' ∈ name.name
  · obtain ⟨before, tail, hname, hbefore⟩ := List.eq_append_cons_of_mem hquote
    refine iff_of_false ?_ (not_not_intro hquote)
    rw [hname, flatMap_quotes hbefore, List.flatMap_cons, if_pos rfl] at htrim
    simp only [List.cons_append, List.append_assoc, List.nil_append] at htrim
    rw [parseColumnLine_of_split htrim (List.cons_ne_nil _ _)
      (fun _ hmem ↦ quote_not_keyword hmem _) (splitIdentifier_quoted hbefore _)]
    intro heq
    have hlength : before = name.name := by
      split at heq
      · exact Option.some.inj heq
      · cases heq
    rw [hname] at hlength
    exact absurd (congrArg List.length hlength) (by simp)
  · have hdouble := flatMap_quotes hquote []
    rw [List.append_nil, List.flatMap_nil, List.append_nil] at hdouble
    rw [hdouble] at htrim
    simp only [List.cons_append, List.append_assoc, List.nil_append] at htrim
    refine iff_of_true ?_ hquote
    rw [parseColumnLine_of_split htrim (List.cons_ne_nil _ _)
      (fun _ hmem ↦ quote_not_keyword hmem _) (splitIdentifier_quoted hquote _),
      if_pos definition.extractType_isSome]

/-- A line of the body reads as its item exactly when the item is readable. -/
theorem parse_item (hline : line = item.line ∨ line = item.line ++ [',']) :
    (parseColumnLine line).map Prod.fst = item.columnName ↔ item.Readable := by
  cases item with
  | column name definition =>
    cases hquoted : name.quoted with
    | false => exact parse_bare hquoted definition hline
    | true => exact parse_quoted hquoted definition hline
  | constraint c =>
    rw [parse_constraint c hline]
    exact iff_of_true rfl trivial

theorem trimEnd_isPrefix_of (text : Text) : Text.trimEnd text <+: text := by
  have hsuffix := List.dropWhile_suffix Text.isWhiteSpace (l := text.reverse)
  have hprefix := List.reverse_prefix.mpr hsuffix
  rwa [List.reverse_reverse] at hprefix

/-- A line whose first visible character is no `)` does not close the table. -/
theorem closesTable_of_starts {text rest : Text} {c : Char} (htext : text = c :: rest)
    (hc : Text.isWhiteSpace c = false) (hparen : c ≠ ')') : closesTable text = false := by
  have hstart : Text.trimStart text = text := Starts.trimStart ⟨c, rest, htext, hc⟩
  unfold closesTable Text.trim
  rw [hstart]
  refine Bool.eq_false_iff.mpr fun hcloses ↦ hparen ?_
  obtain ⟨tail, htail⟩ := (List.isPrefixOf_iff_prefix.mp hcloses).trans (trimEnd_isPrefix_of text)
  rw [htext] at htail
  exact (List.cons.inj htail).1.symm

theorem closesTable_item (hline : line = item.line ∨ line = item.line ++ [',']) :
    closesTable line = false := by
  obtain ⟨c, rest, htext, hc, hparen⟩ := item.text_eq_cons
  have hindent : ∀ text, closesTable ("    ".toList ++ text) = closesTable text := by
    intro text
    unfold closesTable
    rw [trim_indent]
  rw [item.line_eq] at hline
  rcases hline with rfl | rfl
  · rw [hindent]
    exact closesTable_of_starts htext hc hparen
  · rw [List.append_assoc, hindent]
    exact closesTable_of_starts (congrArg (· ++ [',']) htext) hc hparen

end Items

/-! ### The header -/

section Header

variable {b : Block} {ident : Ident}

theorem splitLast_append {stop : Char} {before rest : Text} (hrest : stop ∉ rest) :
    splitLast stop (before ++ stop :: rest) = some (before, rest) := by
  have hreverse : (before ++ stop :: rest).reverse = rest.reverse ++ stop :: before.reverse := by
    simp
  have hrun : ∀ c ∈ rest.reverse, decide (c ≠ stop) := fun c hc ↦
    decide_eq_true fun heq ↦ hrest (heq ▸ List.mem_reverse.mp hc)
  unfold splitLast
  simp only [hreverse, List.takeWhile_append_of_pos hrun, List.dropWhile_append_of_pos hrun]
  simp

theorem splitLast_none {stop : Char} {text : Text} (htext : stop ∉ text) :
    splitLast stop text = none := by
  have hrun : text.reverse.dropWhile (· ≠ stop) = [] := by
    rw [List.dropWhile_eq_nil_iff]
    intro c hc
    exact decide_eq_true fun heq ↦ htext (heq ▸ List.mem_reverse.mp hc)
  unfold splitLast
  rw [hrun]

theorem Ident.mem_print {c : Char} (hmem : c ∈ ident.print) : c = '"' ∨ c ∈ ident.name := by
  unfold Ident.print at hmem
  split at hmem
  · rw [List.cons_append, List.mem_cons, List.mem_append, List.mem_flatMap] at hmem
    rcases hmem with hquote | ⟨d, hd, hc⟩ | hquote
    · exact .inl hquote
    · split at hc
      · refine .inl ?_
        simpa using hc
      · exact .inr (List.mem_singleton.mp hc ▸ hd)
    · exact .inl (List.mem_singleton.mp hquote)
  · exact .inr hmem

/-- A name without quotes stands as it is, with quotes around it or not. -/
theorem Ident.print_of_unquoted (h : '"' ∉ ident.name) :
    ident.print = if ident.quoted then '"' :: ident.name ++ ['"'] else ident.name := by
  have hdouble := flatMap_quotes h []
  rw [List.append_nil, List.flatMap_nil, List.append_nil] at hdouble
  unfold Ident.print
  rw [hdouble]

theorem Ident.stripQuotes_print (h : '"' ∉ ident.name) :
    stripQuotes ident.print = ident.name := by
  rw [Ident.print_of_unquoted h]
  unfold stripQuotes
  split
  · have hlast : ('"' :: ident.name ++ ['"']).getLast? = some '"' := List.getLast?_concat
    rw [if_pos ⟨by simp, rfl, hlast⟩]
    simp
  · rw [if_neg]
    rintro ⟨-, hhead, -⟩
    exact h (List.mem_of_head? hhead)

theorem Ident.ends (h : '"' ∉ ident.name) : Ends ident.print := by
  rw [Ident.print_of_unquoted h]
  split
  · exact ⟨_, '"', rfl, by decide, by decide⟩
  next hquoted =>
    obtain ⟨-, hchars⟩ := ident.bare (by simpa using hquoted)
    obtain ⟨init, c, hname⟩ := List.eq_nil_or_concat' ident.name |>.resolve_left ident.nonempty
    have hc := hchars c (by rw [hname]; simp)
    refine ⟨init, c, hname, isWhiteSpace_of_bare hc, ?_⟩
    rintro rfl
    exact absurd hc (by decide)

theorem Block.qualified_starts (b : Block) : Starts b.qualified := by
  unfold Block.qualified
  split
  · exact ((Ident.starts _).append _).append _
  · exact b.name.starts

theorem Block.Titled.not_mem_qualified (h : b.Titled) : '(' ∉ b.qualified := by
  obtain ⟨-, hparen, -, hschema⟩ := h
  intro hmem
  rcases List.mem_append.mp hmem with hbefore | hname
  · split at hbefore
    next schema hsome =>
      rcases List.mem_append.mp hbefore with hprint | hdot
      · rcases Ident.mem_print hprint with hquote | hin
        · cases hquote
        · exact hschema schema hsome hin
      · cases List.mem_singleton.mp hdot
    next => cases hbefore
  · rcases Ident.mem_print hname with hquote | hin
    · cases hquote
    · exact hparen hin

/-- What follows the last dot is the name of the table. -/
theorem Block.Titled.afterSchema_qualified (h : b.Titled) :
    afterSchema b.qualified = b.name.print := by
  have hdot : '.' ∉ b.name.print := by
    intro hmem
    rcases Ident.mem_print hmem with hquote | hin
    · cases hquote
    · exact h.1 hin
  unfold afterSchema Block.qualified
  cases b.schema with
  | none => simp only [List.nil_append, splitLast_none hdot]
  | some schema =>
    simp only [List.append_assoc, List.singleton_append, splitLast_append hdot]

theorem openedTable_header (h : b.Titled) : openedTable b.header = some b.name.name := by
  have hname : '"' ∉ b.name.name := h.2.2.1
  have hends : Ends b.qualified := (Ident.ends hname).append _
  have hrun : ∀ c ∈ b.qualified ++ [' '], decide (c ≠ '(') := by
    intro c hc
    refine decide_eq_true fun heq ↦ ?_
    rcases List.mem_append.mp hc with hin | hblank
    · exact h.not_mem_qualified (heq ▸ hin)
    · rw [heq] at hblank
      cases List.mem_singleton.mp hblank
  have hpart : (b.qualified ++ " (".toList).takeWhile (· ≠ '(') = b.qualified ++ [' '] := by
    have hsplit : b.qualified ++ " (".toList = (b.qualified ++ [' ']) ++ '(' :: [] := by simp
    rw [hsplit, List.takeWhile_append_of_pos hrun, List.takeWhile_cons_of_neg (by decide),
      List.append_nil]
  have htrim : Text.trim (b.qualified ++ [' ']) = b.qualified := by
    unfold Text.trim
    rw [(b.qualified_starts.append _).trimStart]
    unfold Text.trimEnd
    rw [List.reverse_append, List.reverse_singleton, List.singleton_append,
      List.dropWhile_cons_of_pos (by decide)]
    exact hends.trimEnd
  have hparen : '(' ∈ b.qualified ++ " (".toList := by simp
  have hne : b.qualified ≠ [] := by
    obtain ⟨c, rest, hcons, -⟩ := b.qualified_starts
    rw [hcons]
    exact List.cons_ne_nil _ _
  have hcreate : isCreateTable b.header = true := by
    rfl
  have hstart : Text.trimStart b.header = b.header := by
    rfl
  have hrest : Text.trimStart (b.header.drop 12) = b.qualified ++ " (".toList := by
    change Text.trimStart (' ' :: (b.qualified ++ " (".toList)) = _
    rw [trimStart_blank, (b.qualified_starts.append _).trimStart]
  have hprint : Text.trim b.name.print = b.name.print := by
    unfold Text.trim
    rw [b.name.starts.trimStart, (Ident.ends hname).trimEnd]
  unfold openedTable parseTableName
  simp only [hstart, hcreate, if_true, hrest, if_pos hparen, hpart, htrim, if_neg hne,
    h.afterSchema_qualified, hprint, Ident.stripQuotes_print hname, if_neg b.name.nonempty]

theorem closesTable_header (b : Block) : closesTable b.header = false :=
  closesTable_of_starts (c := 'C') rfl (by decide) (by decide)

end Header

/-! ### The clauses -/

section Clauses

variable {clause : Clause} {line : Text}

/-- What a clause line would name as a column. -/
def Clause.word : Clause → Text
  | .inherits _ _ => "INHERITS".toList
  | .partitionBy _ _ _ => "PARTITION".toList
  | .storage _ _ => "WITH".toList

/-- The clause after its first word. -/
def Clause.argument : Clause → Text
  | .inherits parents _ => '(' :: parents ++ [')']
  | .partitionBy key _ _ => 'B' :: 'Y' :: ' ' :: key
  | .storage options _ => '(' :: options ++ [')']

theorem Clause.line_eq (clause : Clause) :
    clause.line = clause.word ++ ' ' :: clause.argument := by
  cases clause <;> rfl

theorem Clause.argument_ends (clause : Clause) : Ends clause.argument := by
  cases clause with
  | inherits parents => exact ⟨'(' :: parents, ')', rfl, by decide, by decide⟩
  | partitionBy key oneLine ends => exact ends.append ['B', 'Y', ' ']
  | storage options => exact ⟨'(' :: options, ')', rfl, by decide, by decide⟩

/-- The first word of the argument stops no type. -/
theorem Clause.extractType_argument (clause : Clause) {rest : Text} :
    (extractType (clause.argument ++ rest)).isSome := by
  have hparen : ∀ text : Text, (extractType ('(' :: text)).isSome := by
    intro text
    refine extractType_isSome ⟨'(', text, rfl, by decide⟩ fun hmem ↦ ?_
    rw [List.takeWhile_cons_of_pos (by decide)] at hmem
    have hall : ∀ word ∈ typeStopWords, word.head? ≠ some '(' := by decide
    exact hall _ hmem rfl
  cases clause with
  | inherits parents => exact hparen _
  | storage options => exact hparen _
  | partitionBy key =>
    refine extractType_isSome ⟨'B', _, rfl, by decide⟩ fun hmem ↦ ?_
    change toAsciiUppercase (('B' :: 'Y' :: ' ' :: (key ++ rest)).takeWhile _) ∈ _ at hmem
    rw [List.takeWhile_cons_of_pos (by decide), List.takeWhile_cons_of_pos (by decide),
      List.takeWhile_cons_of_neg (by decide)] at hmem
    exact absurd hmem (by decide)

theorem Clause.word_spec (clause : Clause) :
    (∃ c tail, clause.word = c :: tail ∧ c.isAlpha ∧ c ≠ ')') ∧
      (∀ c ∈ clause.word, Text.isWhiteSpace c = false) ∧
      ∀ keyword ∈ nonColumnPrefixes,
        ¬ keyword.take 2 <+: (toAsciiUppercase clause.word).take 2 := by
  have hword : clause.word ∈ ["INHERITS".toList, "PARTITION".toList, "WITH".toList] := by
    cases clause with
    | inherits => exact List.mem_cons_self
    | partitionBy => exact List.mem_cons_of_mem _ List.mem_cons_self
    | storage => exact List.mem_cons_of_mem _ (List.mem_cons_of_mem _ List.mem_cons_self)
  have hall : ∀ word ∈ ["INHERITS".toList, "PARTITION".toList, "WITH".toList],
      (word.head?.any fun c ↦ c.isAlpha && c != ')') ∧
        (word.all fun c ↦ !Text.isWhiteSpace c) ∧
        ∀ keyword ∈ nonColumnPrefixes,
          ¬ keyword.take 2 <+: (toAsciiUppercase word).take 2 := by decide
  obtain ⟨hhead, hspaces, hkeywords⟩ := hall _ hword
  refine ⟨?_, by simpa using hspaces, hkeywords⟩
  cases hcons : clause.word with
  | nil =>
    rw [hcons] at hhead
    cases hhead
  | cons c tail =>
    rw [hcons] at hhead
    exact ⟨c, tail, rfl, by simpa using hhead⟩

theorem Clause.not_keyword (clause : Clause) (rest : Text) :
    ∀ keyword ∈ nonColumnPrefixes, ¬ keyword <+: toAsciiUppercase (clause.word ++ rest) := by
  intro keyword hmem hprefix
  have htake : (toAsciiUppercase (clause.word ++ rest)).take 2 =
      (toAsciiUppercase clause.word).take 2 := by
    cases clause <;> rfl
  exact clause.word_spec.2.2 keyword hmem (htake ▸ hprefix.take 2)

/-- A clause line reads as a column. -/
theorem parse_clause (hline : line = clause.line ∨ line = clause.line ++ [';']) :
    (parseColumnLine line).map Prod.fst = some clause.word := by
  obtain ⟨⟨c, tail, hword, halpha, -⟩, hvisible, -⟩ := clause.word_spec
  have hrest : ∃ rest, line = clause.word ++ ' ' :: (clause.argument ++ rest) ∧
      Ends (clause.argument ++ rest) := by
    rw [clause.line_eq] at hline
    rcases hline with rfl | rfl
    · refine ⟨[], by rw [List.append_nil], ?_⟩
      rw [List.append_nil]
      exact clause.argument_ends
    · refine ⟨[';'], by simp, ?_⟩
      exact ⟨clause.argument, ';', rfl, by decide, by decide⟩
  obtain ⟨rest, rfl, hends⟩ := hrest
  have hstarts : Starts (clause.word ++ ' ' :: (clause.argument ++ rest)) :=
    ⟨c, tail ++ _, congrArg (· ++ _) hword, hvisible c (by rw [hword]; exact List.mem_cons_self)⟩
  have htrim := trim_stripComma_trim hstarts ((hends.append [' ']).append clause.word) (.inl rfl)
  have hargument : Text.trim (' ' :: (clause.argument ++ rest)) = clause.argument ++ rest := by
    have hstart : Starts (clause.argument ++ rest) := by
      cases clause with
      | inherits => exact ⟨'(', _, rfl, by decide⟩
      | partitionBy => exact ⟨'B', _, rfl, by decide⟩
      | storage => exact ⟨'(', _, rfl, by decide⟩
    unfold Text.trim
    rw [trimStart_blank, hstart.trimStart, hends.trimEnd]
  rw [parseColumnLine_of_split htrim (by simp [hword]) (clause.not_keyword _)
      (splitIdentifier_bare hword (.inl halpha) hvisible (by decide) _), hargument,
    if_pos clause.extractType_argument]

theorem closesTable_clause (hline : line = clause.line ∨ line = clause.line ++ [';']) :
    closesTable line = false := by
  obtain ⟨⟨c, tail, hword, -, hparen⟩, hvisible, -⟩ := clause.word_spec
  have hc := hvisible c (by rw [hword]; exact List.mem_cons_self)
  rw [clause.line_eq, hword] at hline
  rcases hline with rfl | rfl
  · exact closesTable_of_starts rfl hc hparen
  · exact closesTable_of_starts rfl hc hparen

end Clauses

end Itaruby.StructureSql
