import Itaruby.Schema.DumpLines

/-!
Lines of the body of a table as SQL writes them, and which of them the scanner reads for what they
are.
-/

set_option autoImplicit false
set_option relaxedAutoImplicit false

namespace Itaruby.StructureSql

open scoped Text

/-! ### The lines -/

def isIdentStart (c : Char) : Bool :=
  c.isAlpha || c == '_' || (0x80 ≤ c.toNat && !Text.isWhiteSpace c)

def isIdentChar (c : Char) : Bool := isIdentStart c || c.isDigit || c == '$'

/-- The keywords that are a word, and the ones before `KEY`. -/
def singleKeywords : List Text :=
  ["CONSTRAINT".toList, "UNIQUE".toList, "CHECK".toList, "EXCLUDE".toList, "LIKE".toList]

def keyedKeywords : List Text := ["PRIMARY".toList, "FOREIGN".toList]

/-- An identifier without quotes. -/
structure BareName where
  first : Char
  rest : Text
  starts : isIdentStart first = true
  chars : ∀ c ∈ rest, isIdentChar c = true
  free : toAsciiUppercase (first :: rest) ∉ singleKeywords ++ keyedKeywords

def BareName.text (name : BareName) : Text := name.first :: name.rest

/-- A word, and the blanks before it. -/
structure Spaced where
  gap : Text
  word : Text
  gap_ne : gap ≠ []
  blank : ∀ c ∈ gap, Text.isWhiteSpace c = true
  word_ne : word ≠ []
  visible : ∀ c ∈ word, Text.isWhiteSpace c = false

def Spaced.text (s : Spaced) : Text := s.gap ++ s.word

def joined (words : List Spaced) : Text := List.intercalate [' '] (words.map Spaced.word)

/-- The type with the precision at its end, and the type without it. -/
inductive Precise : Text → Text → Prop
  | plain (type : Text) : type.getLast? ≠ some ')' → Precise type type
  | measured (type gap precision : Text) : type ≠ [] →
      type.getLast?.all (fun c ↦ !Text.isWhiteSpace c) = true →
      (∀ c ∈ gap, Text.isWhiteSpace c = true) → '(' ∉ precision →
      Precise (type ++ gap ++ '(' :: precision ++ [')']) type

/-- The keywords after a type: the ones that the scanner knows, and the two others. -/
def modifierKeywords : List Text := typeStopWords ++ ["STORAGE".toList, "COMPRESSION".toList]

/-- What follows a keyword does not go on with it. -/
def Parted (rest : Text) : Prop := ∀ c ∈ rest.head?, isIdentChar c = false

def OpensModifiers (word : Text) : Prop :=
  ∃ keyword rest, word = keyword ++ rest ∧ toAsciiUppercase keyword ∈ modifierKeywords ∧ Parted rest

/-- `<identifier> <type> [modifiers]` -/
structure ColumnLine where
  name : BareName
  written : List Spaced
  modifiers : List Spaced
  type : Text
  typed : Precise (joined written) type
  written_ne : written ≠ []
  unstopped : ∀ s ∈ written, toAsciiUppercase s.word ∉ typeStopWords
  opened : ∀ s ∈ modifiers.head?, OpensModifiers s.word
  noComma : ∀ s ∈ (written ++ modifiers).getLast?, s.word.getLast? ≠ some ','

def ColumnLine.text (l : ColumnLine) : Text :=
  l.name.text ++ (l.written ++ l.modifiers).flatMap Spaced.text

inductive ConstraintLine
  | single (word rest : Text) (keyword : toAsciiUppercase word ∈ singleKeywords)
      (parted : Parted rest) (ends : Ends (word ++ rest))
  | keyed (word gap key rest : Text) (keyword : toAsciiUppercase word ∈ keyedKeywords)
      (gap_ne : gap ≠ []) (blank : ∀ c ∈ gap, Text.isWhiteSpace c = true)
      (key_eq : toAsciiUppercase key = "KEY".toList) (parted : Parted rest)
      (ends : Ends (word ++ gap ++ key ++ rest))

def ConstraintLine.text : ConstraintLine → Text
  | .single word rest .. => word ++ rest
  | .keyed word gap key rest .. => word ++ gap ++ key ++ rest

inductive BodyLine
  | column (line : ColumnLine)
  | constraint (line : ConstraintLine)

def BodyLine.text : BodyLine → Text
  | .column line => line.text
  | .constraint line => line.text

/-- What the line declares. -/
def BodyLine.declared : BodyLine → Option (Text × Text)
  | .column line => some (line.name.text, toAsciiLowercase line.type)
  | .constraint _ => none

/-- The line stands in the body with blanks around it, and a comma after it or not. -/
def BodyLine.WrittenAs (line : BodyLine) (text : Text) : Prop :=
  ∃ before between comma after : Text,
    text = before ++ line.text ++ between ++ comma ++ after ∧ (comma = [] ∨ comma = [',']) ∧
      (∀ c ∈ before, Text.isWhiteSpace c = true) ∧ (∀ c ∈ between, Text.isWhiteSpace c = true) ∧
      ∀ c ∈ after, Text.isWhiteSpace c = true

/-- The modifiers up to the first word that stops the type. -/
def ColumnLine.glued (l : ColumnLine) : List Spaced :=
  l.modifiers.takeWhile fun s ↦ !typeStopWords.contains (toAsciiUppercase s.word)

/--
No keyword is the start of the name, whose first character is an ASCII letter or an underscore, and
the modifiers begin with a word that stops the type. Where they do not, the type is right when its
precision is taken off together with them.
-/
def ColumnLine.Readable (l : ColumnLine) : Prop :=
  (l.name.first.isAlpha ∨ l.name.first = '_') ∧
    (∀ keyword ∈ singleKeywords, ¬ keyword <+: toAsciiUppercase l.name.text) ∧
    (l.glued = [] ∨ (joined l.written).getLast? = some ')' ∧
      (joined l.glued).getLast? = some ')' ∧ '(' ∉ joined l.glued)

/-- One blank stands before `KEY`. -/
def ConstraintLine.Readable : ConstraintLine → Prop
  | .single .. => True
  | .keyed _ gap .. => gap = [' ']

def BodyLine.Readable : BodyLine → Prop
  | .column line => line.Readable
  | .constraint line => line.Readable

/-! ### Blanks -/

section Blanks

variable {text blank : Text}

theorem trimStart_blanks (hblank : ∀ c ∈ blank, Text.isWhiteSpace c = true) (text : Text) :
    Text.trimStart (blank ++ text) = Text.trimStart text :=
  List.dropWhile_append_of_pos hblank

theorem trimEnd_blanks (hblank : ∀ c ∈ blank, Text.isWhiteSpace c = true) (text : Text) :
    Text.trimEnd (text ++ blank) = Text.trimEnd text := by
  unfold Text.trimEnd
  rw [List.reverse_append, List.dropWhile_append_of_pos]
  intro c hc
  exact hblank c (List.mem_reverse.mp hc)

theorem Ends.trim (h : Ends text) : Text.trim text = Text.trimStart text := by
  obtain ⟨init, c, rfl, hc, -⟩ := h
  have hlast : [c].dropWhile Text.isWhiteSpace = [] ++ [c] :=
    List.dropWhile_cons_of_neg (by simp [hc])
  unfold Text.trim Text.trimStart
  rw [List.dropWhile_append]
  split
  · rw [hlast, trimEnd_append hc]
  · rw [trimEnd_append hc]

/-- What the scanner looks at in a line with blanks around it. -/
theorem trim_stripComma_blanks {before between comma after : Text} (hstarts : Starts text)
    (hends : Ends text) (hcomma : comma = [] ∨ comma = [','])
    (hbefore : ∀ c ∈ before, Text.isWhiteSpace c = true)
    (hbetween : ∀ c ∈ between, Text.isWhiteSpace c = true)
    (hafter : ∀ c ∈ after, Text.isWhiteSpace c = true) :
    Text.trim (stripComma (Text.trim (before ++ text ++ between ++ comma ++ after))) = text := by
  have hstart : Text.trim (before ++ text ++ between ++ comma ++ after) =
      Text.trimEnd (text ++ between ++ comma) := by
    unfold Text.trim
    simp only [List.append_assoc]
    rw [trimStart_blanks hbefore, (hstarts.append _).trimStart]
    simp only [← List.append_assoc]
    rw [trimEnd_blanks hafter]
  have htext : Text.trim text = text := by
    unfold Text.trim
    rw [hstarts.trimStart, hends.trimEnd]
  rcases hcomma with rfl | rfl
  · rw [hstart, List.append_nil, trimEnd_blanks hbetween, hends.trimEnd, hends.stripComma.1, htext]
  · rw [hstart, trimEnd_append (by decide), stripComma, List.getLast?_concat, if_pos rfl,
      List.dropLast_concat]
    unfold Text.trim
    rw [(hstarts.append _).trimStart, trimEnd_blanks hbetween, hends.trimEnd]

theorem wordsFrom_blanks (hblank : ∀ c ∈ blank, Text.isWhiteSpace c = true) (text : Text) :
    wordsFrom [] (blank ++ text) = wordsFrom [] text := by
  induction blank with
  | nil => rfl
  | cons c blank ih =>
    rw [List.forall_mem_cons] at hblank
    rw [List.cons_append, wordsFrom, if_pos hblank.1, if_pos rfl, ih hblank.2]

theorem splitWhitespace_trimStart (text : Text) :
    splitWhitespace (Text.trimStart text) = splitWhitespace text := by
  have hblank : ∀ c ∈ text.takeWhile Text.isWhiteSpace, Text.isWhiteSpace c = true :=
    fun c hc ↦ List.mem_takeWhile_imp hc
  have hwords := wordsFrom_blanks hblank (text.dropWhile Text.isWhiteSpace)
  rw [List.takeWhile_append_dropWhile] at hwords
  exact hwords.symm

theorem Ends.extractType_trim (h : Ends text) :
    extractType (Text.trim text) = extractType text := by
  rw [h.trim]
  unfold extractType
  rw [splitWhitespace_trimStart]

theorem extractType_blanks (hblank : ∀ c ∈ blank, Text.isWhiteSpace c = true) (text : Text) :
    extractType (blank ++ text) = extractType text := by
  unfold extractType splitWhitespace
  rw [wordsFrom_blanks hblank]

theorem Ends.of_append {other : Text} (h : Ends (text ++ other)) (hne : other ≠ []) :
    Ends other := by
  obtain ⟨init, c, heq, hc⟩ := h
  obtain ⟨before, d, rfl⟩ := List.eq_nil_or_concat' other |>.resolve_left hne
  rw [← List.append_assoc] at heq
  obtain ⟨-, hlast⟩ := List.append_inj' heq rfl
  exact ⟨before, d, rfl, List.singleton_inj.mp hlast ▸ hc⟩

theorem Spaced.text_eq_cons (s : Spaced) :
    ∃ c rest, s.text = c :: rest ∧ Text.isWhiteSpace c = true := by
  obtain ⟨c, gap, hgap⟩ := List.exists_cons_of_ne_nil s.gap_ne
  refine ⟨c, gap ++ s.word, ?_, s.blank c (by rw [hgap]; exact List.mem_cons_self)⟩
  rw [Spaced.text, hgap, List.cons_append]

/-- Words with blanks between them are split at the blanks. -/
theorem splitWhitespace_spaced (words : List Spaced) :
    splitWhitespace (words.flatMap Spaced.text) = words.map Spaced.word := by
  induction words with
  | nil => rfl
  | cons s words ih =>
    have hrest : words.flatMap Spaced.text = [] ∨ ∃ c tail,
        words.flatMap Spaced.text = c :: tail ∧ Text.isWhiteSpace c = true := by
      cases words with
      | nil => exact .inl rfl
      | cons s' words =>
        obtain ⟨c, rest, htext, hc⟩ := s'.text_eq_cons
        exact .inr ⟨c, _, congrArg (· ++ words.flatMap Spaced.text) htext, hc⟩
    rw [splitWhitespace, List.flatMap_cons, Spaced.text, List.append_assoc,
      wordsFrom_blanks s.blank, wordsFrom_word s.visible [] _ hrest (by simpa using s.word_ne)]
    exact congrArg (s.word :: ·) ih

end Blanks

/-! ### The type -/

section Precision

theorem joined_cons_cons (s s' : Spaced) (words : List Spaced) :
    joined (s :: s' :: words) = s.word ++ ' ' :: joined (s' :: words) := by
  simp [joined, List.intercalate]

theorem joined_append {words others : List Spaced} (hwords : words ≠ []) (hothers : others ≠ []) :
    joined (words ++ others) = joined words ++ ' ' :: joined others := by
  induction words with
  | nil => exact absurd rfl hwords
  | cons s words ih =>
    cases words with
    | nil =>
      obtain ⟨s', others', rfl⟩ := List.exists_cons_of_ne_nil hothers
      rw [List.singleton_append, joined_cons_cons]
      simp [joined, List.intercalate]
    | cons s' words =>
      rw [List.cons_append, List.cons_append, joined_cons_cons, ← List.cons_append,
        ih (List.cons_ne_nil _ _), joined_cons_cons, List.append_assoc, List.cons_append]

theorem joined_cons (s : Spaced) (words : List Spaced) :
    ∃ rest, joined (s :: words) = s.word ++ rest := by
  cases words with
  | nil => exact ⟨[], by simp [joined, List.intercalate]⟩
  | cons s' words => exact ⟨_, joined_cons_cons s s' words⟩

theorem trimEnd_type {type gap : Text} (hne : type ≠ [])
    (hvisible : type.getLast?.all (fun c ↦ !Text.isWhiteSpace c) = true)
    (hgap : ∀ c ∈ gap, Text.isWhiteSpace c = true) : Text.trimEnd (type ++ gap) = type := by
  obtain ⟨init, c, rfl⟩ := List.eq_nil_or_concat' type |>.resolve_left hne
  rw [List.getLast?_concat, Option.all_some] at hvisible
  rw [trimEnd_blanks hgap]
  exact trimEnd_append (by simpa using hvisible)

theorem Precise.stripPrecision {whole type : Text} (h : Precise whole type) :
    stripPrecision whole = type := by
  cases h with
  | plain type hlast => exact if_neg hlast
  | measured type gap precision hne hvisible hgap hparen =>
    have hlast : (type ++ gap ++ '(' :: precision ++ [')']).getLast? = some ')' :=
      List.getLast?_concat
    have hsplit : splitLast '(' (type ++ gap ++ '(' :: (precision ++ [')'])) =
        some (type ++ gap, precision ++ [')']) := by
      refine splitLast_append ?_
      simp [hparen]
    unfold StructureSql.stripPrecision
    rw [if_pos hlast, List.append_assoc, List.cons_append, hsplit]
    exact trimEnd_type hne hvisible hgap

/-- Blanks are taken off after the last visible character only. -/
theorem length_trimEnd_visible {c : Char} (hc : Text.isWhiteSpace c = false) (before rest : Text) :
    before.length < (Text.trimEnd (before ++ c :: rest)).length := by
  have hrun : ([c] ++ before.reverse).dropWhile Text.isWhiteSpace = c :: before.reverse :=
    List.dropWhile_cons_of_neg (by simp [hc])
  have hreverse : (before ++ c :: rest).reverse = rest.reverse ++ ([c] ++ before.reverse) := by
    simp
  unfold Text.trimEnd
  rw [hreverse, List.dropWhile_append, hrun]
  split <;> simp

theorem length_trimEnd_le (text : Text) : (Text.trimEnd text).length ≤ text.length :=
  (trimEnd_isPrefix_of text).length_le

theorem Precise.length_le {whole type : Text} (h : Precise whole type) :
    type.length ≤ whole.length := by
  cases h with
  | plain type hlast => exact le_rfl
  | measured type gap precision hne hvisible hgap hparen => simp

theorem Precise.eq_whole {whole type : Text} (h : Precise whole type)
    (hlast : whole.getLast? ≠ some ')') : type = whole := by
  cases h with
  | plain type => rfl
  | measured type gap precision => exact absurd List.getLast?_concat hlast

/-- The last `stop` of a text. -/
theorem exists_last {stop : Char} {text : Text} (h : stop ∈ text) :
    ∃ before rest, text = before ++ stop :: rest ∧ stop ∉ rest := by
  obtain ⟨before, rest, htext, hnot⟩ := List.eq_append_cons_of_mem (List.mem_reverse.mpr h)
  refine ⟨rest.reverse, before.reverse, ?_, by simpa using hnot⟩
  have hreverse := congrArg List.reverse htext
  simpa using hreverse

/-- What is glued to a type makes another type of it, where it does not end with the precision. -/
theorem Precise.stripPrecision_glued {whole type : Text} (h : Precise whole type) {c : Char}
    {glued : Text} (hc : Text.isWhiteSpace c = false) (hopen : c ≠ '(') :
    toAsciiLowercase (StructureSql.stripPrecision (whole ++ ' ' :: c :: glued)) =
        toAsciiLowercase type ↔
      whole.getLast? = some ')' ∧ (c :: glued).getLast? = some ')' ∧ '(' ∉ c :: glued := by
  have hlength := h.length_le
  have hlonger : ∀ text : Text, whole.length < text.length →
      toAsciiLowercase text ≠ toAsciiLowercase type := by
    intro text hlt heq
    have hsame := congrArg List.length heq
    rw [toAsciiLowercase, toAsciiLowercase, List.length_map, List.length_map] at hsame
    omega
  have hlast : (whole ++ ' ' :: c :: glued).getLast? = (c :: glued).getLast? := by
    rw [List.append_cons, List.getLast?_append_of_ne_nil _ (List.cons_ne_nil _ _)]
  by_cases hclose : (c :: glued).getLast? = some ')'
  · unfold StructureSql.stripPrecision
    rw [hlast, if_pos hclose]
    by_cases hmem : '(' ∈ c :: glued
    · obtain ⟨before, rest, heq, hrest⟩ := exists_last hmem
      refine iff_of_false ?_ fun hall ↦ hall.2.2 hmem
      cases before with
      | nil => exact absurd (List.cons.inj heq).1 hopen
      | cons d before =>
        obtain ⟨rfl, hcons⟩ := List.cons.inj heq
        have hglued : glued = before ++ '(' :: rest := hcons
        have hsplit : splitLast '(' ((whole ++ ' ' :: c :: before) ++ '(' :: rest) =
            some (whole ++ ' ' :: c :: before, rest) := splitLast_append hrest
        rw [List.append_assoc, List.cons_append, List.cons_append, ← hglued] at hsplit
        rw [hsplit]
        refine hlonger _ ?_
        have hvisible := length_trimEnd_visible hc (whole ++ [' ']) before
        rw [List.append_assoc, List.length_append] at hvisible
        exact lt_trans (Nat.lt_succ_self _) hvisible
    · by_cases hprecision : whole.getLast? = some ')'
      · refine iff_of_true ?_ ⟨hprecision, hclose, hmem⟩
        cases h with
        | plain type hnone => exact absurd hprecision hnone
        | measured type gap precision hne hvisible hgap hparen =>
          have hlate : '(' ∉ precision ++ [')'] ++ ' ' :: c :: glued := by
            simp only [List.mem_append, List.mem_cons, not_or] at hmem ⊢
            exact ⟨⟨hparen, by decide, List.not_mem_nil⟩, by decide, hmem⟩
          have hsplit : splitLast '(' (type ++ gap ++ '(' :: (precision ++ [')'] ++ ' ' :: c ::
              glued)) = some (type ++ gap, _) := splitLast_append hlate
          simp only [List.append_assoc, List.cons_append] at hsplit ⊢
          rw [hsplit]
          simp only [trimEnd_type hne hvisible hgap]
      · refine iff_of_false ?_ fun hall ↦ hprecision hall.1
        by_cases hwhole : '(' ∈ whole
        · obtain ⟨before, rest, rfl, hrest⟩ := exists_last hwhole
          have hlate : '(' ∉ rest ++ ' ' :: c :: glued := by
            simp only [List.mem_append, List.mem_cons, not_or] at hmem ⊢
            exact ⟨hrest, by decide, hmem⟩
          have hsplit : splitLast '(' (before ++ '(' :: (rest ++ ' ' :: c :: glued)) =
              some (before, _) := splitLast_append hlate
          have hshort : (Text.trimEnd before).length < type.length := by
            have hle := length_trimEnd_le before
            rw [h.eq_whole hprecision, List.length_append, List.length_cons]
            omega
          rw [List.append_assoc, List.cons_append, hsplit]
          intro heq
          have hsame : (Text.trimEnd before).length = type.length := by
            simpa [toAsciiLowercase] using congrArg List.length heq
          omega
        · have hlate : '(' ∉ whole ++ ' ' :: c :: glued := by
            simp only [List.mem_append, List.mem_cons, not_or] at hmem ⊢
            exact ⟨hwhole, by decide, hmem⟩
          rw [splitLast_none hlate]
          exact hlonger _ (by simp)
  · refine iff_of_false ?_ fun hall ↦ hclose hall.2.1
    unfold StructureSql.stripPrecision
    rw [hlast, if_neg hclose]
    exact hlonger _ (by simp)

end Precision

/-! ### The name -/

section Name

theorem isWhiteSpace_of_ascii {c : Char} (h : 0x21 ≤ c.toNat ∧ c.toNat < 0x7F) :
    Text.isWhiteSpace c = false := by
  unfold Text.isWhiteSpace
  simp only [Bool.or_eq_false_iff, Bool.and_eq_false_imp, decide_eq_true_eq,
    decide_eq_false_iff_not, beq_eq_false_iff_ne]
  omega

theorem toNat_of_isUpper {c : Char} (h : c.isUpper = true) : 65 ≤ c.toNat ∧ c.toNat ≤ 90 := by
  change decide (c.val ≥ 'A'.val ∧ c.val ≤ 'Z'.val) = true at h
  rw [decide_eq_true_eq, ge_iff_le, UInt32.le_iff_toNat_le, UInt32.le_iff_toNat_le] at h
  exact h

theorem isWhiteSpace_of_isAlpha {c : Char} (h : c.isAlpha = true) :
    Text.isWhiteSpace c = false := by
  change (c.isUpper || c.isLower) = true at h
  rw [Bool.or_eq_true] at h
  have hrange : (65 ≤ c.toNat ∧ c.toNat ≤ 90) ∨ (97 ≤ c.toNat ∧ c.toNat ≤ 122) :=
    h.imp toNat_of_isUpper toNat_of_isLower
  exact isWhiteSpace_of_ascii (by omega)

theorem isWhiteSpace_of_isIdentChar {c : Char} (h : isIdentChar c = true) :
    Text.isWhiteSpace c = false := by
  simp only [isIdentChar, isIdentStart, Bool.or_eq_true, Bool.and_eq_true, beq_iff_eq,
    Bool.not_eq_true'] at h
  rcases h with (((halpha | rfl) | ⟨-, hvisible⟩) | hdigit) | rfl
  · exact isWhiteSpace_of_isAlpha halpha
  · decide
  · exact hvisible
  · exact isWhiteSpace_of_bare (.inr (.inl hdigit))
  · decide

theorem isWhiteSpace_toUpper (c : Char) : Text.isWhiteSpace c.toUpper = Text.isWhiteSpace c := by
  unfold Char.toUpper
  split
  next h =>
    have hrange : 97 ≤ c.toNat ∧ c.toNat ≤ 122 := h
    have hshift : (c.val + ('A'.val - 'a'.val)).toNat = c.toNat - 32 := by
      rw [UInt32.toNat_add]
      change (c.toNat + 4294967264) % 4294967296 = _
      omega
    rw [isWhiteSpace_of_ascii (by omega : 0x21 ≤ c.toNat ∧ c.toNat < 0x7F)]
    refine isWhiteSpace_of_ascii ?_
    change 0x21 ≤ (c.val + ('A'.val - 'a'.val)).toNat ∧
      (c.val + ('A'.val - 'a'.val)).toNat < 0x7F
    omega
  next => rfl

/-- Nothing but a letter is changed. -/
theorem toUpper_cases (c : Char) : c.isAlpha = true ∨ c.toUpper = c := by
  unfold Char.toUpper
  split
  next hlower =>
    have hrange : c.isLower = true := by
      change (decide (c.val ≥ 'a'.val) && decide (c.val ≤ 'z'.val)) = true
      simpa using hlower
    exact .inl (isAlpha_of_isLower hrange)
  next => exact .inr rfl

theorem isAlpha_of_toUpper {c : Char} (h : c.toUpper.isAlpha = true) : c.isAlpha = true := by
  rcases toUpper_cases c with halpha | hsame
  · exact halpha
  · exact hsame ▸ h

theorem eq_blank_of_toUpper {c : Char} (h : c.toUpper = ' ') : c = ' ' := by
  rcases toUpper_cases c with halpha | hsame
  · have hblank := isWhiteSpace_toUpper c
    rw [h, isWhiteSpace_of_isAlpha halpha] at hblank
    exact absurd hblank (by decide)
  · exact hsame.symm.trans h

theorem toAsciiUppercase_append (text other : Text) :
    toAsciiUppercase (text ++ other) = toAsciiUppercase text ++ toAsciiUppercase other :=
  List.map_append

theorem BareName.visible (name : BareName) : ∀ c ∈ name.text, Text.isWhiteSpace c = false := by
  have hstarts : isIdentChar name.first = true := by
    simp [isIdentChar, name.starts]
  exact List.forall_mem_cons.mpr ⟨isWhiteSpace_of_isIdentChar hstarts, fun c hc ↦
    isWhiteSpace_of_isIdentChar (name.chars c hc)⟩

/-- A word that the text starts with is no longer than the first word of the text. -/
theorem prefix_of_visible {word text rest : Text} {blank : Char}
    (hword : ∀ c ∈ word, Text.isWhiteSpace c = false) (hblank : Text.isWhiteSpace blank = true)
    (h : word <+: text ++ blank :: rest) : word <+: text := by
  rcases List.prefix_or_prefix_of_prefix h (List.prefix_append text _) with hshort | ⟨tail, htail⟩
  · exact hshort
  · cases tail with
    | nil => exact ⟨[], by rw [← htail, List.append_nil, List.append_nil]⟩
    | cons d tail =>
      rw [← htail, List.prefix_append_right_inj] at h
      obtain ⟨rfl, -⟩ := List.cons_prefix_cons.mp h
      rw [hword d (by rw [← htail]; simp)] at hblank
      cases hblank

/-- A keyword at the start of the line is at the start of the name. -/
theorem BareName.keyword_prefix (name : BareName) {keyword rest : Text} {blank : Char}
    (hmem : keyword ∈ nonColumnPrefixes) (hblank : Text.isWhiteSpace blank = true)
    (h : keyword <+: toAsciiUppercase (name.text ++ blank :: rest)) :
    ∃ keyword ∈ singleKeywords, keyword <+: toAsciiUppercase name.text := by
  have hupper : Text.isWhiteSpace blank.toUpper = true := (isWhiteSpace_toUpper _).trans hblank
  rw [toAsciiUppercase_append] at h
  have hkinds : ∀ keyword ∈ nonColumnPrefixes,
      keyword ∈ singleKeywords ∨ ∃ word ∈ keyedKeywords, keyword = word ++ " KEY".toList := by
    decide
  have hvisible : ∀ word ∈ singleKeywords ++ keyedKeywords, ∀ c ∈ word,
      Text.isWhiteSpace c = false := by
    have hall : (singleKeywords ++ keyedKeywords).all
        (·.all fun c ↦ !Text.isWhiteSpace c) = true := by decide
    intro word hword c hc
    simpa using List.all_eq_true.mp (List.all_eq_true.mp hall word hword) c hc
  rcases hkinds keyword hmem with hsingle | ⟨word, hkeyed, rfl⟩
  · exact ⟨keyword, hsingle,
      prefix_of_visible (hvisible keyword (List.mem_append_left _ hsingle)) hupper h⟩
  · obtain ⟨tail, htail⟩ := prefix_of_visible (hvisible word (List.mem_append_right _ hkeyed))
      hupper ((List.prefix_append word _).trans h)
    refine absurd ?_ name.free
    rw [← htail, List.append_assoc, List.prefix_append_right_inj] at h
    change ' ' :: "KEY".toList <+: _ at h
    cases tail with
    | nil =>
      rw [BareName.text, List.append_nil] at htail
      exact htail ▸ List.mem_append_right _ hkeyed
    | cons c tail =>
      obtain ⟨rfl, -⟩ := List.cons_prefix_cons.mp h
      have hmem : ' ' ∈ toAsciiUppercase name.text := by rw [← htail]; simp
      obtain ⟨c, hc, hspace⟩ := List.mem_map.mp hmem
      have hblankc := isWhiteSpace_toUpper c
      rw [hspace, name.visible c hc] at hblankc
      exact absurd hblankc (by decide)

theorem BareName.first_ne_quote (name : BareName) : name.first ≠ '"' := by
  intro heq
  have hstart := name.starts
  rw [heq] at hstart
  exact absurd hstart (by decide)

theorem singleKeywords_mem {keyword : Text} (hmem : keyword ∈ singleKeywords) :
    keyword ∈ nonColumnPrefixes := by
  revert keyword
  decide

/-- A name that starts otherwise is no identifier for the scanner. -/
theorem splitIdentifier_none {first : Char} {text : Text} (hquote : first ≠ '"')
    (hvisible : Text.isWhiteSpace first = false) (hfirst : ¬ (first.isAlpha ∨ first = '_')) :
    splitIdentifier (first :: text) = none := by
  have hstart : ¬ (first.isAlpha || first == '_') = true := by simpa using hfirst
  unfold splitIdentifier
  split
  next heq => exact absurd (List.cons.inj heq).1 hquote
  next =>
    rw [List.takeWhile_cons_of_pos (by simp [hvisible])]
    simp only [List.head?_cons, if_neg hstart, ite_self]

end Name

/-! ### The lines as the scanner reads them -/

section Lines

/-- The words that the scanner takes for the type. -/
theorem ColumnLine.tokens (l : ColumnLine) :
    ((l.written ++ l.modifiers).map Spaced.word).takeWhile
        (fun token ↦ !typeStopWords.contains (toAsciiUppercase token)) =
      (l.written ++ l.glued).map Spaced.word := by
  have hwritten : ∀ s ∈ l.written,
      (!typeStopWords.contains (toAsciiUppercase s.word)) = true := by
    intro s hs
    simpa using l.unstopped s hs
  rw [List.takeWhile_map]
  exact congrArg _ (List.takeWhile_append_of_pos hwritten)

theorem ColumnLine.words_ne (l : ColumnLine) : l.written ++ l.modifiers ≠ [] :=
  List.append_ne_nil_of_left_ne_nil l.written_ne _

theorem ColumnLine.ends_spaced (l : ColumnLine) :
    Ends ((l.written ++ l.modifiers).flatMap Spaced.text) := by
  obtain ⟨init, s, hwords⟩ := List.eq_nil_or_concat' _ |>.resolve_left l.words_ne
  have hcomma := l.noComma
  rw [hwords, List.getLast?_concat] at hcomma
  obtain ⟨word, c, hword⟩ := List.eq_nil_or_concat' _ |>.resolve_left s.word_ne
  have hlast := hcomma s rfl
  rw [hword, List.getLast?_concat] at hlast
  refine ⟨init.flatMap Spaced.text ++ s.gap ++ word, c, ?_, s.visible c (by rw [hword]; simp), ?_⟩
  · rw [hwords, List.flatMap_append, List.flatMap_singleton, Spaced.text, hword]
    simp only [List.append_assoc]
  · exact fun heq ↦ hlast (congrArg some heq)

theorem ColumnLine.starts (l : ColumnLine) : Starts l.text :=
  ⟨l.name.first, _, rfl, l.name.visible _ List.mem_cons_self⟩

theorem ColumnLine.ends (l : ColumnLine) : Ends l.text := l.ends_spaced.append _

theorem ColumnLine.extractType_eq (l : ColumnLine) :
    extractType (Text.trim ((l.written ++ l.modifiers).flatMap Spaced.text)) =
      some (stripPrecision (joined (l.written ++ l.glued))) := by
  have hne : (l.written ++ l.glued).map Spaced.word ≠ [] := by
    simp [l.written_ne]
  rw [l.ends_spaced.extractType_trim]
  unfold extractType
  simp only [splitWhitespace_spaced, l.tokens, if_neg hne]
  rfl

theorem ColumnLine.exists_blank (l : ColumnLine) : ∃ blank rest,
    (l.written ++ l.modifiers).flatMap Spaced.text = blank :: rest ∧
      Text.isWhiteSpace blank = true := by
  obtain ⟨s, words, hwords⟩ := List.exists_cons_of_ne_nil l.words_ne
  obtain ⟨blank, rest, htext, hblank⟩ := s.text_eq_cons
  refine ⟨blank, rest ++ words.flatMap Spaced.text, ?_, hblank⟩
  rw [hwords, List.flatMap_cons, htext, List.cons_append]

theorem OpensModifiers.exists_cons {word : Text} (h : OpensModifiers word) :
    ∃ c rest, word = c :: rest ∧ c ≠ '(' := by
  obtain ⟨keyword, suffix, rfl, hmem, -⟩ := h
  have hall : ∀ upper ∈ modifierKeywords, upper ≠ [] ∧ upper.head? ≠ some '(' := by decide
  obtain ⟨hne, hopen⟩ := hall _ hmem
  cases keyword with
  | nil => exact absurd rfl hne
  | cons c tail =>
    refine ⟨c, tail ++ suffix, rfl, ?_⟩
    rintro rfl
    exact hopen rfl

/-- What is glued to the type starts with a keyword. -/
theorem ColumnLine.glued_cases (l : ColumnLine) :
    l.glued = [] ∨ ∃ c rest, l.glued ≠ [] ∧ joined l.glued = c :: rest ∧
      Text.isWhiteSpace c = false ∧ c ≠ '(' := by
  cases hglued : l.glued with
  | nil => exact .inl rfl
  | cons s words =>
    have hhead : s ∈ l.modifiers.head? := by
      have hprefix : s :: words <+: l.modifiers := hglued ▸ List.takeWhile_prefix _
      obtain ⟨rest, hrest⟩ := hprefix
      rw [← hrest]
      rfl
    obtain ⟨c, tail, hword, hopen⟩ := (l.opened s hhead).exists_cons
    obtain ⟨rest, hjoined⟩ := joined_cons s words
    refine .inr ⟨c, tail ++ rest, List.cons_ne_nil _ _, ?_, s.visible c ?_, hopen⟩
    · rw [hjoined, hword, List.cons_append]
    · rw [hword]
      exact List.mem_cons_self

/-- The scanner reads the type of the line. -/
theorem ColumnLine.type_iff (l : ColumnLine) :
    toAsciiLowercase (stripPrecision (joined (l.written ++ l.glued))) = toAsciiLowercase l.type ↔
      l.glued = [] ∨ (joined l.written).getLast? = some ')' ∧
        (joined l.glued).getLast? = some ')' ∧ '(' ∉ joined l.glued := by
  rcases l.glued_cases with hnil | ⟨c, rest, hne, hglued, hc, hopen⟩
  · rw [hnil, List.append_nil, l.typed.stripPrecision]
    exact iff_of_true rfl (.inl rfl)
  · rw [joined_append l.written_ne hne, hglued, l.typed.stripPrecision_glued hc hopen]
    exact ⟨.inr, fun h ↦ h.resolve_left hne⟩

theorem ColumnLine.parse_iff (l : ColumnLine) {line : Text}
    (hline : Text.trim (stripComma (Text.trim line)) = l.text) :
    parseColumnLine line = some (l.name.text, toAsciiLowercase l.type) ↔ l.Readable := by
  obtain ⟨blank, rest, hrest, hblank⟩ := l.exists_blank
  have htext : l.text = l.name.text ++ blank :: rest := congrArg (l.name.text ++ ·) hrest
  have hsome : ∀ column : Text × Text, (none : Option (Text × Text)) ≠ some column :=
    fun _ h ↦ nomatch h
  by_cases hkeyword : ∃ keyword ∈ nonColumnPrefixes, keyword <+: toAsciiUppercase l.text
  · obtain ⟨keyword, hmem, hopens⟩ := hkeyword
    rw [parseColumnLine_of_keyword hmem hline hopens]
    rw [htext] at hopens
    obtain ⟨word, hword, hstart⟩ := l.name.keyword_prefix hmem hblank hopens
    exact iff_of_false (hsome _) fun h ↦ h.2.1 word hword hstart
  · have hfree : ∀ keyword ∈ nonColumnPrefixes, ¬ keyword <+: toAsciiUppercase l.text :=
      fun keyword hmem hopens ↦ hkeyword ⟨keyword, hmem, hopens⟩
    rw [parseColumnLine_of_free hline (List.cons_ne_nil _ _) hfree]
    by_cases hfirst : l.name.first.isAlpha ∨ l.name.first = '_'
    · have hnames : ∀ keyword ∈ singleKeywords, ¬ keyword <+: toAsciiUppercase l.name.text := by
        intro keyword hmem hopens
        refine hfree keyword (singleKeywords_mem hmem) (hopens.trans ?_)
        rw [htext, toAsciiUppercase_append]
        exact List.prefix_append _ _
      have hsplit : splitIdentifier (l.name.text ++ blank :: rest) =
          some (l.name.text, blank :: rest) :=
        splitIdentifier_bare rfl hfirst l.name.visible hblank rest
      rw [htext, hsplit, Option.bind_some, ← hrest, l.extractType_eq, Option.map_some,
        Option.some_inj, Prod.mk_right_inj, l.type_iff]
      exact ⟨fun hglued ↦ ⟨hfirst, hnames, hglued⟩, fun h ↦ h.2.2⟩
    · have hnone : splitIdentifier l.text = none :=
        splitIdentifier_none l.name.first_ne_quote (l.name.visible _ List.mem_cons_self) hfirst
      rw [hnone]
      exact iff_of_false (hsome _) fun h ↦ hfirst h.1

/-- A word before `KEY` starts no other keyword. -/
theorem keyed_not_keyword {word rest : Text} {blank : Char}
    (hmem : toAsciiUppercase word ∈ keyedKeywords) (hblank : Text.isWhiteSpace blank = true)
    {keyword : Text} (hkeyword : keyword ∈ nonColumnPrefixes)
    (h : keyword <+: toAsciiUppercase (word ++ blank :: rest)) :
    " KEY".toList <+: toAsciiUppercase (blank :: rest) := by
  have hupper : Text.isWhiteSpace blank.toUpper = true := (isWhiteSpace_toUpper _).trans hblank
  have hwhole : ∀ upper ∈ keyedKeywords, ∀ keyword ∈ nonColumnPrefixes,
      keyword.takeWhile (fun c ↦ !Text.isWhiteSpace c) <+: upper →
        keyword = upper ++ " KEY".toList := by
    decide
  rw [toAsciiUppercase_append] at h
  have hstart := prefix_of_visible (fun c hc ↦ by simpa using List.mem_takeWhile_imp hc) hupper
    ((List.takeWhile_prefix fun c ↦ !Text.isWhiteSpace c).trans h)
  rw [hwhole _ hmem keyword hkeyword hstart, List.prefix_append_right_inj] at h
  exact h

theorem keyword_starts {word : Text}
    (hmem : toAsciiUppercase word ∈ singleKeywords ++ keyedKeywords) :
    ∃ c rest, word = c :: rest ∧ c.isAlpha = true ∧ ∀ d ∈ word, Text.isWhiteSpace d = false := by
  have hall : ∀ upper ∈ singleKeywords ++ keyedKeywords,
      upper.head?.any Char.isAlpha && upper.all fun c ↦ !Text.isWhiteSpace c := by
    decide
  have hupper := hall _ hmem
  rw [Bool.and_eq_true] at hupper
  cases word with
  | nil => exact absurd hupper.1 (by decide)
  | cons c rest =>
    refine ⟨c, rest, rfl, isAlpha_of_toUpper hupper.1, fun d hd ↦ ?_⟩
    rw [← isWhiteSpace_toUpper d]
    simpa using List.all_eq_true.mp hupper.2 _ (List.mem_map_of_mem hd)

theorem ConstraintLine.starts (c : ConstraintLine) : Starts c.text := by
  cases c with
  | single word rest keyword parted ends =>
    obtain ⟨c, tail, rfl, halpha, -⟩ := keyword_starts (List.mem_append_left _ keyword)
    exact ⟨c, tail ++ rest, rfl, isWhiteSpace_of_isAlpha halpha⟩
  | keyed word gap key rest keyword gap_ne blank key_eq parted ends =>
    obtain ⟨c, tail, rfl, halpha, -⟩ := keyword_starts (List.mem_append_right _ keyword)
    exact ⟨c, tail ++ gap ++ key ++ rest, rfl, isWhiteSpace_of_isAlpha halpha⟩

theorem ConstraintLine.ends_text (c : ConstraintLine) : Ends c.text := by
  cases c with
  | single word rest keyword parted ends => exact ends
  | keyed word gap key rest keyword gap_ne blank key_eq parted ends => exact ends

/-- One blank stands between the word and `KEY`. -/
theorem gap_of_key {b : Char} {gap rest : Text}
    (hblank : ∀ c ∈ b :: gap, Text.isWhiteSpace c = true)
    (h : " KEY".toList <+: toAsciiUppercase (b :: (gap ++ rest))) : b :: gap = [' '] := by
  obtain ⟨hb, hrest⟩ := List.cons_prefix_cons.mp h
  cases gap with
  | nil => rw [eq_blank_of_toUpper hb.symm]
  | cons g gap =>
    obtain ⟨hg, -⟩ := List.cons_prefix_cons.mp hrest
    have hsame := isWhiteSpace_toUpper g
    rw [← hg, hblank g (List.mem_cons_of_mem _ List.mem_cons_self)] at hsame
    exact absurd hsame (by decide)

/-- `KEY` is read as a type. -/
theorem extractType_key {key rest : Text} (hkey : toAsciiUppercase key = "KEY".toList) :
    (extractType (key ++ rest)).isSome := by
  have hvisible : ∀ c ∈ key, (!Text.isWhiteSpace c) = true := by
    intro c hc
    have hmem : c.toUpper ∈ toAsciiUppercase key := List.mem_map_of_mem hc
    have hall : ∀ d ∈ "KEY".toList, Text.isWhiteSpace d = false := by decide
    rw [hkey] at hmem
    rw [← isWhiteSpace_toUpper c, hall _ hmem]
    rfl
  have hstops : ∀ stop ∈ typeStopWords, ¬ "KEY".toList <+: stop := by decide
  refine extractType_isSome ?_ fun hmem ↦ hstops _ hmem ?_
  · cases key with
    | nil => cases hkey
    | cons c tail => exact ⟨c, tail ++ rest, rfl, by simpa using hvisible c List.mem_cons_self⟩
  · rw [List.takeWhile_append_of_pos hvisible, toAsciiUppercase_append, hkey]
    exact List.prefix_append _ _

theorem ConstraintLine.parse_iff (c : ConstraintLine) {line : Text}
    (hline : Text.trim (stripComma (Text.trim line)) = c.text) :
    parseColumnLine line = none ↔ c.Readable := by
  have hends := c.ends_text
  cases c with
  | single word rest keyword parted ends =>
    refine iff_of_true (parseColumnLine_of_keyword (singleKeywords_mem keyword) hline ?_) trivial
    rw [ConstraintLine.text, toAsciiUppercase_append]
    exact List.prefix_append _ _
  | keyed word gap key rest keyword gap_ne blank key_eq parted ends =>
    obtain ⟨b, gap, rfl⟩ := List.exists_cons_of_ne_nil gap_ne
    have hb := blank b List.mem_cons_self
    have htext : ConstraintLine.text (.keyed word (b :: gap) key rest keyword gap_ne blank key_eq
        parted ends) = word ++ b :: (gap ++ (key ++ rest)) := by
      simp [ConstraintLine.text]
    rw [htext] at hline hends
    obtain ⟨c, tail, hword, halpha, hvisible⟩ := keyword_starts (List.mem_append_right _ keyword)
    have htype : (extractType (key ++ rest)).isSome := extractType_key key_eq
    constructor
    · intro hnone
      by_contra hgap
      have hfree : ∀ keyword ∈ nonColumnPrefixes,
          ¬ keyword <+: toAsciiUppercase (word ++ b :: (gap ++ (key ++ rest))) := by
        intro other hmem hprefix
        exact hgap (gap_of_key blank (keyed_not_keyword keyword hb hmem hprefix))
      have hsplit : splitIdentifier (word ++ b :: (gap ++ (key ++ rest))) =
          some (word, b :: gap ++ (key ++ rest)) :=
        splitIdentifier_bare hword (.inl halpha) hvisible hb _
      have hrest : Ends (b :: gap ++ (key ++ rest)) := hends.of_append (List.cons_ne_nil _ _)
      rw [parseColumnLine_of_free hline (by rw [hword]; exact List.cons_ne_nil _ _) hfree, hsplit,
        Option.bind_some, Option.map_eq_none_iff] at hnone
      rw [← extractType_blanks blank, ← hrest.extractType_trim, hnone] at htype
      cases htype
    · intro hgap
      have hgap : b :: gap = [' '] := hgap
      obtain ⟨rfl, rfl⟩ := List.cons.inj hgap
      have hkinds : ∀ upper ∈ keyedKeywords, upper ++ " KEY".toList ∈ nonColumnPrefixes := by
        decide
      refine parseColumnLine_of_keyword (hkinds _ keyword) hline ⟨toAsciiUppercase rest, ?_⟩
      have hblank : " KEY".toList = toAsciiUppercase (' ' :: key) := by
        rw [toAsciiUppercase, List.map_cons, ← toAsciiUppercase, key_eq]
        rfl
      rw [hblank, ← toAsciiUppercase_append, ← toAsciiUppercase_append, List.append_assoc]
      rfl

theorem BodyLine.trim_eq (body : BodyLine) {line : Text} (hline : body.WrittenAs line) :
    Text.trim (stripComma (Text.trim line)) = body.text := by
  obtain ⟨before, between, comma, after, rfl, hcomma, hbefore, hbetween, hafter⟩ := hline
  cases body with
  | column l => exact trim_stripComma_blanks l.starts l.ends hcomma hbefore hbetween hafter
  | constraint c =>
    exact trim_stripComma_blanks c.starts c.ends_text hcomma hbefore hbetween hafter

/-- A line of the body is read for what it declares exactly when it is readable. -/
theorem parseColumnLine_declared_iff (body : BodyLine) (line : Text) (hline : body.WrittenAs line) :
    parseColumnLine line = body.declared ↔ body.Readable := by
  have htrim := body.trim_eq hline
  cases body with
  | column l => exact l.parse_iff htrim
  | constraint c => exact c.parse_iff htrim

theorem blank_ne_nil : [' '] ≠ ([] : Text) := List.cons_ne_nil _ _

/-- `name character varying(255)` -/
def nameLine : ColumnLine where
  name := ⟨'n', "ame".toList, by decide, by decide, by decide⟩
  written :=
    [⟨[' '], "character".toList, blank_ne_nil, by decide, by decide, by decide⟩,
      ⟨[' '], "varying(255)".toList, blank_ne_nil, by decide, by decide, by decide⟩]
  modifiers := []
  type := "character varying".toList
  typed := .measured "character varying".toList [] "255".toList (by decide) (by decide) (by decide)
    (by decide)
  written_ne := List.cons_ne_nil _ _
  unstopped := by decide
  opened := fun _ hs ↦ nomatch hs
  noComma := by decide

theorem nameLine_declared : parseColumnLine "  name character varying(255),".toList =
    some ("name".toList, "character varying".toList) :=
  (parseColumnLine_declared_iff (.column nameLine) _
    ⟨"  ".toList, [], [','], [], rfl, .inr rfl, by decide, by decide, by decide⟩).mpr
    ⟨.inl rfl, by decide, .inl rfl⟩

/-- `checksum text` -/
def checksumLine : ColumnLine where
  name := ⟨'c', "hecksum".toList, by decide, by decide, by decide⟩
  written := [⟨[' '], "text".toList, blank_ne_nil, by decide, by decide, by decide⟩]
  modifiers := []
  type := "text".toList
  typed := .plain _ (by decide)
  written_ne := List.cons_ne_nil _ _
  unstopped := by decide
  opened := fun _ hs ↦ nomatch hs
  noComma := by decide

theorem checksum_lost : ¬ ∀ (body : BodyLine) (line : Text), body.WrittenAs line →
    parseColumnLine line = body.declared := by
  intro h
  have hread := h (.column checksumLine) "checksum text".toList
    ⟨[], [], [], [], rfl, .inl rfl, by decide, by decide, by decide⟩
  exact absurd hread (by decide)

end Lines

end Itaruby.StructureSql
