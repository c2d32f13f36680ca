import Itaruby.Command.Rendering

/-!
The excerpt under a diagnostic. It shows the line the diagnostic starts on, whole, and marks as
many characters of that line as the diagnostic covers, one for a diagnostic that covers none: the
first mark stands below the first of them.
-/

set_option autoImplicit false
set_option relaxedAutoImplicit false

namespace Itaruby.Command

open LineIndex

/-! ### A range and the line it starts on -/

/-- The first line of a range in three parts, the second of them what the range covers of it. -/
structure OnLine (text : Text) (span : Span) where
  head : Text
  before : Text
  marked : Text
  rest : Text
  after : Text
  split : text = head ++ (before ++ marked ++ rest) ++ after
  starts : EndsLine head
  single : '\n' ∉ before ++ marked ++ rest
  ends : after = [] ∨ ∃ tail, after = '\n' :: tail
  start_eq : span.1 = byteLength (head ++ before)
  stop_eq : min (max span.2 span.1) (byteLength (head ++ (before ++ marked ++ rest))) =
    byteLength (head ++ before ++ marked)

/-- The rest of the line that a text begins with. -/
theorem exists_restOfLine (text : Text) : ∃ line after, text = line ++ after ∧ '\n' ∉ line ∧
    (after = [] ∨ ∃ tail, after = '\n' :: tail) := by
  obtain ⟨line, after, rfl, hline⟩ := exists_lineEnds text
  rcases hline with ⟨content, rfl, hcontent⟩ | ⟨hline, rfl⟩
  · exact ⟨content, '\n' :: after, by simp, hcontent, .inr ⟨after, rfl⟩⟩
  · exact ⟨line, [], rfl, hline, .inl rfl⟩

/-- A range between characters has its line, wherever the range ends. -/
theorem exists_onLine {text : Text} {span : Span} (hstart : IsBoundary text span.1)
    (hstop : IsBoundary text span.2) : Nonempty (OnLine text span) := by
  obtain ⟨upTo, from', rfl, hstart⟩ := hstart
  obtain ⟨head, before, rfl, hhead, hbefore⟩ := exists_line upTo
  obtain ⟨line, after, rfl, hline, hafter⟩ := exists_restOfLine from'
  obtain ⟨upTo', from'', htext, hstop⟩ := hstop
  -- the covered part of the line, as far as the line goes
  suffices hcovered : ∃ marked rest, line = marked ++ rest ∧
      min (max span.2 span.1) (byteLength (head ++ (before ++ line))) =
        byteLength (head ++ before ++ marked) by
    obtain ⟨marked, rest, rfl, hmarked⟩ := hcovered
    exact ⟨⟨head, before, marked, rest, after, by simp, hhead, by simp_all, hafter, hstart,
      by simpa using hmarked⟩⟩
  rcases Nat.lt_or_ge span.1 span.2 with hlt | hle
  · have hbetween := exists_between htext (by rw [← hstart, ← hstop]; exact hlt)
    obtain ⟨c, between, rfl⟩ := hbetween
    rw [List.append_assoc (head ++ before), List.append_cancel_left_eq] at htext
    rcases List.append_eq_append_iff.mp htext with ⟨more, hcovered, -⟩ | ⟨rest, rfl, -⟩
    · refine ⟨line, [], by simp, ?_⟩
      rw [hstop, hcovered]
      simp only [byteLength_append] at *
      omega
    · refine ⟨c :: between, rest, rfl, ?_⟩
      rw [hstop]
      simp only [byteLength_append] at *
      omega
  · refine ⟨[], line, rfl, ?_⟩
    rw [List.append_nil]
    simp only [byteLength_append] at *
    omega

/-! ### The line in the index -/

theorem lineStart_eq {head tail : Text} (hhead : EndsLine head)
    (hsize : byteLength (head ++ tail) < 2 ^ 32) :
    (new (head ++ tail)).lineStart (head.count '\n') = some (byteLength head) := by
  obtain ⟨before, hstarts, hbefore, -⟩ := lineStarts_split hhead hsize
  rw [lineStart, hstarts, ← hbefore, Nat.min_eq_left (by simp)]
  rw [List.getElem?_append_right (le_refl _), Nat.sub_self]
  rfl

theorem findNewline_append {line rest : Text} (hline : '\n' ∉ line) :
    findNewline (line ++ rest) = (findNewline rest).map (byteLength line + ·) := by
  induction line with
  | nil => simp
  | cons c line ih =>
    have hc : c ≠ '\n' := fun hc ↦ hline (by simp [hc])
    rw [List.cons_append, findNewline, if_neg hc, ih fun hmem ↦ hline (by simp [hmem]),
      Option.map_map, byteLength_cons]
    congr 1
    funext n
    exact (Nat.add_assoc _ _ _).symm

/-- The line that begins behind `head` ends at its newline or with the text. -/
theorem lineEnd_eq {head line after : Text} (hline : '\n' ∉ line)
    (hafter : after = [] ∨ ∃ tail, after = '\n' :: tail) :
    ((findNewline (line ++ after)).map (byteLength head + ·)).getD
      (byteLength (head ++ line ++ after)) = byteLength (head ++ line) := by
  rw [findNewline_append hline]
  rcases hafter with rfl | ⟨tail, rfl⟩
  · simp [findNewline]
  · simp [findNewline]

/-! ### The excerpt -/

namespace OnLine

variable {text : Text} {span : Span} (line : OnLine text span)

def content : Text := line.before ++ line.marked ++ line.rest

def lineNumber : Text := number (line.head.count '\n' + 1)

def pad : Text := List.replicate line.lineNumber.length ' '

def indent : Text := List.replicate line.before.length ' '

def carets : Text := List.replicate (max line.marked.length 1) '^'

/-- The line with its number, and the marks below it. -/
def excerpt (suggestion : Option (String × Option (SourceFile × ℕ))) : Text :=
  writeln [line.lineNumber, " | ".toList, trimReturns line.content] ++
    writeln [line.pad, " | ".toList, line.indent, line.carets, RenderCtx.didYouMean suggestion]

end OnLine

namespace RenderCtx

variable (ctx : RenderCtx)

theorem renderExcerpt_eq {diag : RenderedDiagnostic} (line : OnLine ctx.text diag.span)
    (hsize : byteLength ctx.text < 2 ^ 32) :
    ctx.renderExcerpt diag =
      (ctx.definedAt line.pad line.indent (diag.suggestion.bind Prod.snd)).map
        (line.excerpt diag.suggestion ++ ·) := by
  obtain ⟨head, before, marked, rest, after, split, starts, single, ends, hstart, hstop⟩ := line
  have hsplit : ctx.text = head ++ before ++ (marked ++ rest ++ after) := by simp [split]
  have hbefore : '\n' ∉ before := fun hmem ↦ single (by simp [hmem])
  have hposition : ctx.index.lineCol ctx.text diag.span.1 =
      some (head.count '\n', utf16Length before) := by
    rw [RenderCtx.index, hstart, hsplit]
    exact lineCol_eq starts hbefore (hsplit ▸ hsize)
  have hlineStart : ctx.index.lineStart (head.count '\n') = some (byteLength head) := by
    rw [RenderCtx.index, split, List.append_assoc]
    exact lineStart_eq starts (by rwa [← List.append_assoc, ← split])
  have htail : byteSlice ctx.text (byteLength head) (byteLength ctx.text) =
      some (before ++ marked ++ rest ++ after) := by
    have h := byteSlice_append head (before ++ marked ++ rest ++ after) []
    rw [List.append_nil, ← List.append_assoc, ← split] at h
    exact h
  have hend : ((findNewline (before ++ marked ++ rest ++ after)).map
      (byteLength head + ·)).getD (byteLength ctx.text) =
        byteLength (head ++ (before ++ marked ++ rest)) := by
    rw [split]
    exact lineEnd_eq single ends
  have hline : byteSlice ctx.text (byteLength head)
      (byteLength (head ++ (before ++ marked ++ rest))) = some (before ++ marked ++ rest) := by
    rw [split]
    exact byteSlice_append head (before ++ marked ++ rest) after
  have hspanStart : min diag.span.1 (byteLength (head ++ (before ++ marked ++ rest))) =
      byteLength (head ++ before) := by
    rw [hstart]
    simp only [byteLength_append]
    omega
  have hindent : byteSlice ctx.text (byteLength head) (byteLength (head ++ before)) =
      some before := by
    rw [hsplit]
    exact byteSlice_append head before _
  have hmarked : byteSlice ctx.text (byteLength (head ++ before))
      (byteLength (head ++ before ++ marked)) = some marked := by
    have h := byteSlice_append (head ++ before) marked (rest ++ after)
    rwa [show head ++ before ++ marked ++ (rest ++ after) = ctx.text by simp [split]] at h
  rw [hstart] at hstop
  unfold renderExcerpt
  simp only [hposition, hlineStart, htail, hend, hline, hspanStart, hindent, hstop, hmarked,
    Option.bind_eq_bind, Option.bind_some]
  rw [Option.map_eq_bind]
  rfl

/-- Where the definition of a suggestion is looked up, the text is not too long for an index. -/
def SiteFits (diag : RenderedDiagnostic) : Prop :=
  ∀ file start, diag.suggestion.bind Prod.snd = some (file, start) →
    byteLength (ctx.textOf file) < 2 ^ 32 ∧ IsBoundary (ctx.textOf file) start

theorem exists_definedAt {diag : RenderedDiagnostic} (h : ctx.SiteFits diag) (pad indent : Text) :
    ∃ site, ctx.definedAt pad indent (diag.suggestion.bind Prod.snd) = some site := by
  cases hsite : diag.suggestion.bind Prod.snd with
  | none => exact ⟨[], rfl⟩
  | some def' =>
    obtain ⟨file, start⟩ := def'
    obtain ⟨hsize, hboundary⟩ := h file start hsite
    obtain ⟨position, hposition, -⟩ := lineCol_isPosition hsize hboundary
    exact ⟨_, by rw [definedAt, hposition]; rfl⟩

/-- A diagnostic between characters gets its excerpt: the line it starts on, and the marks. -/
theorem renderExcerpt_shows {diag : RenderedDiagnostic} (hsize : byteLength ctx.text < 2 ^ 32)
    (hstart : IsBoundary ctx.text diag.span.1) (hstop : IsBoundary ctx.text diag.span.2)
    (hsite : ctx.SiteFits diag) :
    ∃ (line : OnLine ctx.text diag.span) (site : Text),
      ctx.renderExcerpt diag = some (line.excerpt diag.suggestion ++ site) ∧
        ctx.definedAt line.pad line.indent (diag.suggestion.bind Prod.snd) = some site := by
  obtain ⟨line⟩ := exists_onLine hstart hstop
  obtain ⟨site, hdefined⟩ := ctx.exists_definedAt hsite line.pad line.indent
  exact ⟨line, site, by rw [ctx.renderExcerpt_eq line hsize, hdefined]; rfl, hdefined⟩

/-- A file with a call on its second line. -/
def sampleCtx : RenderCtx where
  textOf _ := "x = 1\nx.y\n".toList
  printJson _ := []
  file := "a.rb"

def sampleDiagnosticAt (span : Span) : RenderedDiagnostic where
  severity := .error
  code := "undefined-method"
  message := "undefined method `y`"
  span := span

theorem renderExcerpt_shows_sample :
    ∃ (line : OnLine sampleCtx.text (sampleDiagnosticAt (8, 9)).span) (site : Text),
      sampleCtx.renderExcerpt (sampleDiagnosticAt (8, 9)) =
          some (line.excerpt (sampleDiagnosticAt (8, 9)).suggestion ++ site) ∧
        sampleCtx.definedAt line.pad line.indent
          ((sampleDiagnosticAt (8, 9)).suggestion.bind Prod.snd) = some site :=
  sampleCtx.renderExcerpt_shows (by decide) ⟨"x = 1\nx.".toList, "y\n".toList, rfl, rfl⟩
    ⟨"x = 1\nx.y".toList, "\n".toList, rfl, rfl⟩ (fun _ _ h ↦ by cases h)

end RenderCtx

end Itaruby.Command
