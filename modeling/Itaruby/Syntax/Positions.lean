import Itaruby.Syntax.LineIndex

/-!
Offsets against positions. At the boundaries of characters the two are inverse to each other, and
in the same order; a column past the end of its line is taken for the start of the next one.
-/

set_option autoImplicit false
set_option relaxedAutoImplicit false

namespace Itaruby

/-- The end of a line of a text: its newline, or the end of the text. -/
def LineEnds (line after : List Char) : Prop :=
  (∃ content, line = content ++ ['\n'] ∧ '\n' ∉ content) ∨ '\n' ∉ line ∧ after = []

theorem exists_lineEnds (text : List Char) :
    ∃ line after, text = line ++ after ∧ LineEnds line after := by
  induction text with
  | nil => exact ⟨[], [], rfl, .inr ⟨List.not_mem_nil, rfl⟩⟩
  | cons c rest ih =>
    by_cases hc : c = '\n'
    · exact ⟨[c], rest, rfl, .inl ⟨[], by rw [hc]; rfl, List.not_mem_nil⟩⟩
    · obtain ⟨line, after, rfl, hends⟩ := ih
      refine ⟨c :: line, after, rfl, ?_⟩
      rcases hends with ⟨content, rfl, hcontent⟩ | ⟨hline, hafter⟩
      · exact .inl ⟨c :: content, rfl, by simp [hcontent, Ne.symm hc]⟩
      · exact .inr ⟨by simp [hline, Ne.symm hc], hafter⟩

theorem LineEnds.append {line after tail : List Char} (h : LineEnds line after)
    (htail : '\n' ∉ tail) : LineEnds (tail ++ line) after := by
  rcases h with ⟨content, rfl, hcontent⟩ | ⟨hline, hafter⟩
  · exact .inl ⟨tail ++ content, by simp, by simp [htail, hcontent]⟩
  · exact .inr ⟨by simp [htail, hline], hafter⟩

namespace LineIndex

variable {head tail line after : List Char}

theorem length_le_byteLength (text : List Char) : text.length ≤ byteLength text := by
  induction text with
  | nil => exact le_refl _
  | cons c rest ih =>
    have hc := c.utf8Size_pos
    rw [List.length_cons, byteLength_cons]
    omega

/-- A place on a line: the lines before it, and the units before it on the line. -/
theorem lineCol_eq (hhead : EndsLine head) (htail : '\n' ∉ tail)
    (hsize : byteLength (head ++ tail ++ after) < 2 ^ 32) :
    (new (head ++ tail ++ after)).lineCol (head ++ tail ++ after) (byteLength (head ++ tail)) =
      some (head.count '\n', utf16Length tail) := by
  have hlength : byteLength (head ++ tail) ≤ byteLength (head ++ tail ++ after) := by
    rw [byteLength_append (head ++ tail)]
    omega
  have hcount : head.count '\n' < 2 ^ 32 := by
    have hle := (List.count_le_length (a := '\n') (l := head)).trans (length_le_byteLength head)
    rw [byteLength_append] at hlength
    omega
  have hunits : utf16Length tail < 2 ^ 32 := by
    have hle := utf16Length_le tail
    rw [byteLength_append] at hlength
    omega
  have hrest : byteLength (head ++ (tail ++ after)) < 2 ^ 32 := by
    rwa [← List.append_assoc]
  obtain ⟨before, hstarts, hbefore, hall⟩ := lineStarts_split hhead hrest
  have hbehind : ∀ start ∈ startsFrom (byteLength head) (tail ++ after),
      byteLength (head ++ tail) < start := by
    intro start hstart
    rw [startsFrom_append, startsFrom_of_notMem htail, List.nil_append] at hstart
    rw [byteLength_append]
    rw [byteLength_append, byteLength_append] at hsize
    exact (startsFrom_bounds hsize hstart).1
  have hline := lineAt_of_split hall
    (by rw [byteLength_append]; omega : byteLength head ≤ byteLength (head ++ tail)) hbehind
  rw [← List.append_assoc] at hstarts
  have hget : (before ++ byteLength head ::
      startsFrom (byteLength head) (tail ++ after))[before.length]? = some (byteLength head) := by
    simp
  simp only [lineCol]
  rw [Nat.min_eq_left hlength, asU32_of_lt (by omega), hstarts, hline, hget, Option.bind_some,
    byteSlice_append, hbefore, Option.map_some, asU32_of_lt hcount, asU32_of_lt hunits]

/-- The columns of a line are looked for among its characters, its newline with them. -/
theorem offset_eq (col : ℕ) (hhead : EndsLine head) (hline : LineEnds line after)
    (hsize : byteLength (head ++ line ++ after) < 2 ^ 32) :
    (new (head ++ line ++ after)).offset (head ++ line ++ after) (head.count '\n') col =
      some (placeOf col (byteLength (head ++ line)) 0 (byteLength head) line) := by
  have hrest : byteLength (head ++ (line ++ after)) < 2 ^ 32 := by
    rwa [← List.append_assoc]
  obtain ⟨before, hstarts, hbefore, -⟩ := lineStarts_split hhead hrest
  rw [← List.append_assoc] at hstarts
  have hstop : (startsFrom (byteLength head) (line ++ after))[0]?.getD
      (byteLength (head ++ line ++ after)) = byteLength (head ++ line) := by
    rcases hline with ⟨content, rfl, hcontent⟩ | ⟨hline, rfl⟩
    · have hnewline : ('\n').utf8Size = 1 := rfl
      rw [byteLength_append, byteLength_append] at hsize
      rw [List.append_assoc, startsFrom_append, startsFrom_of_notMem hcontent, List.nil_append,
        List.singleton_append, startsFrom, if_pos rfl, asU32_of_lt]
      · simp [hnewline, Nat.add_assoc]
      · rw [byteLength_append] at hsize
        omega
    · rw [List.append_nil, List.append_nil, startsFrom_of_notMem hline]
      rfl
  have hstart : (new (head ++ line ++ after)).lineStart (head.count '\n') =
      some (byteLength head) := by
    rw [lineStart, hstarts, ← hbefore, Nat.min_eq_left (by simp)]
    rw [List.getElem?_append_right (le_refl _), Nat.sub_self]
    rfl
  have hnext : (new (head ++ line ++ after)).lineStarts[head.count '\n' + 1]? =
      (startsFrom (byteLength head) (line ++ after))[0]? := by
    rw [hstarts, ← hbefore, List.getElem?_append_right (Nat.le_succ _), Nat.succ_sub (le_refl _),
      Nat.sub_self]
    rfl
  simp only [offset]
  rw [hstart, Option.bind_some, hnext, hstop, byteSlice_append]
  rfl

/-- The search stops at the first place that has the column before it, or at the end. -/
theorem placeOf_spec (col units place : ℕ) (inner : List Char) :
    ∃ before after, inner = before ++ after ∧
      placeOf col (place + byteLength inner) units place inner = place + byteLength before ∧
      (after = [] ∨ col ≤ units + utf16Length before) ∧
      ∀ init c, before = init ++ [c] → units + utf16Length init < col := by
  induction inner generalizing units place with
  | nil => exact ⟨[], [], rfl, rfl, .inl rfl, by simp⟩
  | cons c rest ih =>
    by_cases hcol : col ≤ units
    · exact ⟨[], c :: rest, rfl, by rw [placeOf, if_pos hcol]; rfl, .inr (by simpa using hcol),
        by simp⟩
    · obtain ⟨before, after, hrest, hplace, hstop, hfirst⟩ :=
        ih (units + lenUtf16 c) (place + c.utf8Size)
      refine ⟨c :: before, after, by rw [hrest]; rfl, ?_, ?_, ?_⟩
      · rw [placeOf, if_neg hcol, byteLength_cons, ← Nat.add_assoc, hplace, byteLength_cons,
          Nat.add_assoc]
      · rw [utf16Length_cons, ← Nat.add_assoc]
        exact hstop
      · intro init last heq
        cases init with
        | nil => simpa using hcol
        | cons d init =>
          obtain ⟨rfl, hbefore⟩ := List.cons.inj heq
          have hlt := hfirst init last hbefore
          rw [utf16Length_cons]
          omega

/-- The column of a place of the line is reached there. -/
theorem placeOf_append {stop : ℕ} (units place : ℕ) (before : List Char) {rest : List Char}
    (hstop : rest = [] → stop = place + byteLength before) :
    placeOf (units + utf16Length before) stop units place (before ++ rest) =
      place + byteLength before := by
  induction before generalizing units place with
  | nil =>
    cases rest with
    | nil => exact hstop rfl
    | cons c rest => simp [placeOf]
  | cons c before ih =>
    have hc := lenUtf16_pos c
    have hcol : ¬ units + utf16Length (c :: before) ≤ units := by
      rw [utf16Length_cons]
      omega
    have hrest : rest = [] → stop = place + c.utf8Size + byteLength before := by
      intro h
      rw [hstop h, byteLength_cons, Nat.add_assoc]
    rw [List.cons_append, placeOf, if_neg hcol, utf16Length_cons, ← Nat.add_assoc, ih _ _ hrest,
      byteLength_cons, Nat.add_assoc]

/-- An offset between two characters, or at an end of the text. -/
def IsBoundary (text : List Char) (o : ℕ) : Prop :=
  ∃ before after, text = before ++ after ∧ o = byteLength before

/-- The lines before an offset, and the units between the last newline and it. -/
def IsPosition (text : List Char) (o : ℕ) (position : ℕ × ℕ) : Prop :=
  ∃ head tail after, text = head ++ tail ++ after ∧ o = byteLength (head ++ tail) ∧
    EndsLine head ∧ '\n' ∉ tail ∧ position = (head.count '\n', utf16Length tail)

theorem lineCol_isPosition {text : List Char} (hsize : byteLength text < 2 ^ 32) {o : ℕ}
    (ho : IsBoundary text o) :
    ∃ position, (new text).lineCol text o = some position ∧ IsPosition text o position ∧
      (new text).offset text position.1 position.2 = some o := by
  obtain ⟨before, after, rfl, rfl⟩ := ho
  obtain ⟨head, tail, rfl, hhead, htail⟩ := exists_line before
  obtain ⟨line, rest, rfl, hline⟩ := exists_lineEnds after
  refine ⟨_, lineCol_eq hhead htail hsize, ⟨head, tail, _, rfl, rfl, hhead, htail, rfl⟩, ?_⟩
  have htext : head ++ tail ++ (line ++ rest) = head ++ (tail ++ line) ++ rest := by simp
  rw [htext] at hsize ⊢
  rw [offset_eq _ hhead (hline.append htail) hsize]
  have hstop : line = [] →
      byteLength (head ++ (tail ++ line)) = byteLength head + byteLength tail := by
    rintro rfl
    simp
  have hplace := placeOf_append 0 (byteLength head) tail hstop
  rw [Nat.zero_add] at hplace
  rw [hplace, byteLength_append]

/-- Two boundaries of one text: the earlier text begins the later one. -/
theorem exists_between {before before' after after' : List Char}
    (h : before ++ after = before' ++ after') (hlt : byteLength before < byteLength before') :
    ∃ c between, before' = before ++ c :: between := by
  rcases List.append_eq_append_iff.mp h with ⟨between, hbefore, -⟩ | ⟨between, hbefore, -⟩
  · cases between with
    | nil =>
      rw [hbefore, List.append_nil] at hlt
      exact absurd hlt (lt_irrefl _)
    | cons c between => exact ⟨c, between, hbefore⟩
  · rw [hbefore, byteLength_append] at hlt
    omega

theorem lineCol_lt {text : List Char} (hsize : byteLength text < 2 ^ 32) {o o' : ℕ}
    (ho : IsBoundary text o) (ho' : IsBoundary text o') (hlt : o < o') :
    ∃ position position', (new text).lineCol text o = some position ∧
      (new text).lineCol text o' = some position' ∧ toLex position < toLex position' := by
  obtain ⟨before, after, rfl, rfl⟩ := ho
  obtain ⟨before', after', htext, rfl⟩ := ho'
  obtain ⟨c, between, rfl⟩ := exists_between htext hlt
  obtain ⟨head, tail, rfl, hhead, htail⟩ := exists_line before
  refine ⟨(head.count '\n', utf16Length tail), ?_⟩
  suffices h : ∃ position', (new (head ++ tail ++ after)).lineCol (head ++ tail ++ after)
      (byteLength (head ++ tail ++ c :: between)) = some position' ∧
        toLex (head.count '\n', utf16Length tail) < toLex position' by
    obtain ⟨position', heq, horder⟩ := h
    exact ⟨position', lineCol_eq hhead htail hsize, heq, horder⟩
  rw [htext] at hsize ⊢
  by_cases hnewline : '\n' ∈ c :: between
  · obtain ⟨head', tail', hsplit, hhead', htail'⟩ := exists_line (head ++ tail ++ c :: between)
    rw [hsplit] at hsize ⊢
    refine ⟨_, lineCol_eq hhead' htail' hsize, Prod.Lex.toLex_lt_toLex.mpr (.inl ?_)⟩
    have hcount := congrArg (List.count '\n') hsplit
    have hpos := List.count_pos_iff.mpr hnewline
    rw [List.count_append, List.count_append, List.count_append,
      List.count_eq_zero_of_not_mem htail, List.count_eq_zero_of_not_mem htail'] at hcount
    show head.count '\n' < head'.count '\n'
    omega
  · have htail' : '\n' ∉ tail ++ c :: between := by
      rw [List.mem_append]
      exact not_or.mpr ⟨htail, hnewline⟩
    have hassoc : head ++ tail ++ c :: between = head ++ (tail ++ c :: between) :=
      List.append_assoc _ _ _
    rw [hassoc] at hsize ⊢
    refine ⟨_, lineCol_eq hhead htail' hsize, Prod.Lex.toLex_lt_toLex.mpr (.inr ⟨rfl, ?_⟩)⟩
    have hc := lenUtf16_pos c
    show utf16Length tail < utf16Length (tail ++ c :: between)
    rw [utf16Length_append, utf16Length_cons]
    omega

/-- At the boundaries of characters the position is the line and the units before the offset, it
leads back to the offset, and later offsets have later positions. -/
theorem lineIndex_exact {text : List Char} (hsize : byteLength text < 2 ^ 32) :
    (∀ o, IsBoundary text o → ∃ position, (new text).lineCol text o = some position ∧
      IsPosition text o position ∧ (new text).offset text position.1 position.2 = some o) ∧
    ∀ o o', IsBoundary text o → IsBoundary text o' → o < o' →
      ∃ position position', (new text).lineCol text o = some position ∧
        (new text).lineCol text o' = some position' ∧ toLex position < toLex position' :=
  ⟨fun _ ho ↦ lineCol_isPosition hsize ho, fun _ _ ho ho' hlt ↦ lineCol_lt hsize ho ho' hlt⟩

def accentAndEmoji : List Char := ['é', '\r', '\n', '😀']

/-- The offset between the newline and the emoji -/
theorem accentAndEmoji_exact :
    ∃ position, (new accentAndEmoji).lineCol accentAndEmoji 4 = some position ∧
      IsPosition accentAndEmoji 4 position ∧
      (new accentAndEmoji).offset accentAndEmoji position.1 position.2 = some 4 :=
  (lineIndex_exact (by decide)).1 4 ⟨['é', '\r', '\n'], ['😀'], rfl, by decide⟩

/-! ### Columns past the end of a line -/

/-- A line of a text, without what ends it. A carriage return belongs to the newline after it. -/
structure LineAt (text : List Char) (line : ℕ) where
  head : List Char
  content : List Char
  terminator : List Char
  after : List Char
  text_eq : text = head ++ (content ++ terminator) ++ after
  starts : EndsLine head
  line_eq : head.count '\n' = line
  single : '\n' ∉ content
  ends : terminator = [] ∧ after = [] ∨
    terminator = ['\n'] ∧ content.getLast? ≠ some '\r' ∨ terminator = ['\r', '\n']

/-- The offset of the column is on its line, and at the end of the content for a column that is
past it. -/
def KeepsLine {text : List Char} {line : ℕ} (d : LineAt text line) (col : ℕ) : Prop :=
  ∃ o c, (new text).offset text line col = some o ∧ (new text).lineCol text o = some (line, c) ∧
    (utf16Length d.content < col → o = byteLength (d.head ++ d.content))

theorem LineAt.lineEnds {text : List Char} {line : ℕ} (d : LineAt text line) :
    LineEnds (d.content ++ d.terminator) d.after := by
  rcases d.ends with ⟨hterminator, hafter⟩ | ⟨hterminator, -⟩ | hterminator
  · refine .inr ⟨?_, hafter⟩
    rw [hterminator, List.append_nil]
    exact d.single
  · exact .inl ⟨d.content, by rw [hterminator], d.single⟩
  · refine .inl ⟨d.content ++ ['\r'], by rw [hterminator]; simp, ?_⟩
    simp [d.single]

/-- A newline of a line is the end of it. -/
theorem LineAt.mem_newline {text : List Char} {line : ℕ} (d : LineAt text line)
    {before after : List Char} (hsplit : d.content ++ d.terminator = before ++ after)
    (hmem : '\n' ∈ before) : ∃ init, before = init ++ ['\n'] ∧ d.content <+: init := by
  rcases d.lineEnds with ⟨init, hline, hinit⟩ | ⟨hline, -⟩
  · rcases List.eq_nil_or_concat after with rfl | ⟨rest, c, rfl⟩
    · rw [List.append_nil] at hsplit
      refine ⟨init, hsplit.symm.trans hline, ?_⟩
      rcases List.prefix_concat_iff.mp (hline ▸ List.prefix_append _ _) with heq | hprefix
      · exact absurd (heq ▸ List.mem_append_right init (List.mem_singleton_self _)) d.single
      · exact hprefix
    · rw [hline, List.concat_eq_append, ← List.append_assoc] at hsplit
      rw [(List.append_inj' hsplit rfl).1] at hinit
      exact absurd (List.mem_append_left rest hmem) hinit
  · rw [hsplit] at hline
    exact absurd (List.mem_append_left after hmem) hline

theorem utf16Length_le_of_prefix {text other : List Char} (h : text <+: other) :
    utf16Length text ≤ utf16Length other := by
  obtain ⟨rest, rfl⟩ := h
  rw [utf16Length_append]
  omega

theorem eq_of_byteLength_eq {before before' after after' : List Char}
    (h : before ++ after = before' ++ after') (hlength : byteLength before = byteLength before') :
    before = before' := by
  have hnil {rest : List Char} (h : byteLength rest = 0) : rest = [] :=
    List.length_eq_zero_iff.mp (Nat.le_zero.mp (h ▸ length_le_byteLength rest))
  rcases List.append_eq_append_iff.mp h with ⟨rest, hrest, -⟩ | ⟨rest, hrest, -⟩
  · rw [hrest, byteLength_append] at hlength
    have hempty : rest = [] := hnil (by omega)
    rw [hrest, hempty, List.append_nil]
  · rw [hrest, byteLength_append] at hlength
    have hempty : rest = [] := hnil (by omega)
    rw [hrest, hempty, List.append_nil]

/-- A column keeps to its line if and only if it is not past the end of the line, or the line is
the last one. -/
theorem offset_keepsLine_iff {text : List Char} (hsize : byteLength text < 2 ^ 32) {line : ℕ}
    (d : LineAt text line) (col : ℕ) :
    KeepsLine d col ↔ col ≤ utf16Length d.content ∨ d.terminator = [] := by
  obtain ⟨before, after, hsplit, hplace, hstop, hfirst⟩ :=
    placeOf_spec col 0 (byteLength d.head) (d.content ++ d.terminator)
  rw [Nat.zero_add] at hstop
  have hoffset : (new text).offset text line col = some (byteLength (d.head ++ before)) := by
    have heq := offset_eq col d.starts d.lineEnds (d.text_eq ▸ hsize)
    rw [← d.text_eq, d.line_eq, byteLength_append, hplace, ← byteLength_append] at heq
    exact heq
  constructor
  · rintro ⟨o, c, ho, -, hend⟩
    by_contra hnot
    obtain ⟨hpast, hterminator⟩ := not_or.mp hnot
    have hlength := hend (not_le.mp hpast)
    rw [Option.some.inj (ho.symm.trans hoffset), byteLength_append, byteLength_append] at hlength
    obtain rfl := eq_of_byteLength_eq hsplit.symm (by omega)
    rcases hstop with rfl | hcol
    · exact hterminator (List.append_cancel_left hsplit)
    · exact hpast hcol
  · intro hcond
    have hnewline : '\n' ∉ before := by
      intro hmem
      obtain ⟨init, hbefore, hprefix⟩ := d.mem_newline hsplit hmem
      rcases hcond with hcol | hterminator
      · have hlt := hfirst init '\n' hbefore
        have hle := utf16Length_le_of_prefix hprefix
        omega
      · rw [hterminator, List.append_nil] at hsplit
        exact d.single (hsplit ▸ List.mem_append_left after hmem)
    have htext : text = d.head ++ before ++ (after ++ d.after) := by
      have heq := d.text_eq
      rw [hsplit] at heq
      simpa using heq
    have hposition := lineCol_eq d.starts hnewline (htext ▸ hsize)
    rw [← htext, d.line_eq] at hposition
    refine ⟨_, _, hoffset, hposition, fun hpast ↦ ?_⟩
    have hterminator := hcond.resolve_left (not_le.mpr hpast)
    rw [hterminator, List.append_nil] at hsplit
    rcases hstop with rfl | hcol
    · rw [hsplit, List.append_nil]
    · have hle := utf16Length_le_of_prefix ⟨after, hsplit.symm⟩
      omega

theorem exists_head {text : List Char} {line : ℕ} (h : line ≤ text.count '\n') :
    ∃ head rest, text = head ++ rest ∧ EndsLine head ∧ head.count '\n' = line := by
  induction line with
  | zero => exact ⟨[], text, rfl, .inl rfl, rfl⟩
  | succ line ih =>
    obtain ⟨head, rest, rfl, -, hcount⟩ := ih (by omega)
    obtain ⟨next, after, rfl, hends⟩ := exists_lineEnds rest
    rw [List.count_append, List.count_append, hcount] at h
    rcases hends with ⟨content, rfl, hcontent⟩ | ⟨hnext, rfl⟩
    · refine ⟨head ++ (content ++ ['\n']), after, by simp, .inr ⟨head ++ content, by simp⟩, ?_⟩
      rw [List.count_append, List.count_append, hcount, List.count_eq_zero_of_not_mem hcontent]
      rfl
    · rw [List.count_eq_zero_of_not_mem hnext, List.count_nil] at h
      omega

/-- Every line up to the last one is there. -/
theorem exists_lineAt {text : List Char} {line : ℕ} (h : line ≤ text.count '\n') :
    Nonempty (LineAt text line) := by
  obtain ⟨head, rest, rfl, hhead, hcount⟩ := exists_head h
  obtain ⟨next, after, rfl, hends⟩ := exists_lineEnds rest
  rcases hends with ⟨content, rfl, hcontent⟩ | ⟨hnext, rfl⟩
  · by_cases hreturn : content.getLast? = some '\r'
    · obtain ⟨init, rfl⟩ := List.getLast?_eq_some_iff.mp hreturn
      exact ⟨{ head, content := init, terminator := ['\r', '\n'], after,
               text_eq := by simp, starts := hhead, line_eq := hcount,
               single := fun hmem ↦ hcontent (List.mem_append_left _ hmem),
               ends := .inr (.inr rfl) }⟩
    · exact ⟨{ head, content, terminator := ['\n'], after, text_eq := by simp, starts := hhead,
               line_eq := hcount, single := hcontent, ends := .inr (.inl ⟨rfl, hreturn⟩) }⟩
  · exact ⟨{ head, content := next, terminator := [], after := [], text_eq := by simp,
             starts := hhead, line_eq := hcount, single := hnext, ends := .inl ⟨rfl, rfl⟩ }⟩

/-- `a`, a newline and `b` -/
def twoLines : List Char := ['a', '\n', 'b']

def firstLine : LineAt twoLines 0 where
  head := []
  content := ['a']
  terminator := ['\n']
  after := ['b']
  text_eq := rfl
  starts := .inl rfl
  line_eq := rfl
  single := by decide
  ends := .inr (.inl ⟨rfl, by decide⟩)

/-- The column at the end of the first line -/
theorem firstLine_keepsLine : KeepsLine firstLine 1 :=
  (offset_keepsLine_iff (by decide) firstLine 1).mpr (.inl (by decide))

/-- Column 2 of the first line is taken for the start of the second one. -/
theorem firstLine_leaves :
    (new twoLines).offset twoLines 0 2 = some 2 ∧ (new twoLines).lineCol twoLines 2 = some (1, 0) ∧
      ¬ KeepsLine firstLine 2 := by
  refine ⟨by decide, by decide, ?_⟩
  rintro ⟨o, c, ho, hposition, -⟩
  have hoffset : (new twoLines).offset twoLines 0 2 = some 2 := by decide
  have hstart : (new twoLines).lineCol twoLines 2 = some (1, 0) := by decide
  cases hoffset.symm.trans ho
  cases hstart.symm.trans hposition

end LineIndex

end Itaruby
