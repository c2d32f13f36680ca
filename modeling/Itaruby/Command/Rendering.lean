import Itaruby.Check.Constraints
import Itaruby.Syntax.Positions
import Itaruby.Walker.Source

/-!
What `ita check` prints for one file: the report with excerpts, the JSON lines, the blocks for an
agent, and the records of the class-object census. `none` is a panic, at an offset inside a
character. The serializer of JSON is a parameter.
-/

set_option autoImplicit false
set_option relaxedAutoImplicit false

namespace Itaruby.Command

/-! ### Pieces of text -/

def number (n : ℕ) : Text := (toString n).toList

/-- `writeln!` of the pieces one after the other. -/
def writeln (pieces : List Text) : Text := pieces.flatten ++ ['\n']

def joined (names : List String) : Text := (", ".intercalate names).toList

/-- `trim_end_matches('\r')` -/
def trimReturns (line : Text) : Text := (line.reverse.dropWhile (· = '\r')).reverse

/-- `find('\n')`, in bytes -/
def findNewline : Text → Option ℕ
  | [] => none
  | c :: rest => if c = '\n' then some 0 else (findNewline rest).map (c.utf8Size + ·)

/-! ### What is printed -/

inductive DarkVerdict
  | closedNotFound
  | opened (reason : String)
  | knownTail
  deriving DecidableEq, Repr

structure DarkSingleton where
  start : ℕ
  receiver : String
  method : String
  verdict : DarkVerdict
  deriving DecidableEq, Repr

/-- One object of the census. -/
structure DarkRecord where
  file : SourceFile
  line : ℕ
  column : ℕ
  onCharBoundary : Bool
  byte : ℕ
  receiver : String
  method : String
  verdict : String
  reason : Option String
  deriving DecidableEq, Repr

/-- One object of the JSON report. -/
structure JsonDiagnostic where
  path : SourceFile
  line : ℕ
  column : ℕ
  code : String
  severity : String
  message : String
  deriving DecidableEq, Repr

structure FileReport where
  hadError : Bool
  blocks : ℕ
  out : Text
  darkLines : List DarkRecord
  deriving DecidableEq, Repr

/-- What the rendering of a file reads: the text of every file and the serializer. -/
structure RenderCtx where
  textOf : SourceFile → Text
  printJson : JsonDiagnostic → Text
  file : SourceFile

namespace RenderCtx

variable (ctx : RenderCtx)

def text : Text := ctx.textOf ctx.file

def index : LineIndex := LineIndex.new ctx.text

/-- The line and column of an offset, both from one. -/
def place (offset : ℕ) : Option (ℕ × ℕ) :=
  (ctx.index.lineCol ctx.text offset).map fun p ↦ (p.1 + 1, p.2 + 1)

/-! ### The excerpt -/

/-- What `did you mean` knows about a definition. -/
def definedAt (pad indent : Text) : Option (SourceFile × ℕ) → Option Text
  | none => some []
  | some (file, start) => do
    let (line, _) ← (LineIndex.new (ctx.textOf file)).lineCol (ctx.textOf file) start
    return writeln [pad, " | ".toList, indent, "defined at ".toList, file.toList, ":".toList,
      number (line + 1)]

def didYouMean : Option (String × Option (SourceFile × ℕ)) → Text
  | none => []
  | some (name, _) => " did you mean `".toList ++ name.toList ++ "`?".toList

def renderExcerpt (diag : RenderedDiagnostic) : Option Text := do
  let (line, _) ← ctx.index.lineCol ctx.text diag.span.1
  let lineStart ← ctx.index.lineStart line
  let rest ← byteSlice ctx.text lineStart (byteLength ctx.text)
  let lineEnd := ((findNewline rest).map (lineStart + ·)).getD (byteLength ctx.text)
  let src ← byteSlice ctx.text lineStart lineEnd
  let spanStart := min diag.span.1 lineEnd
  let spanEnd := min (max diag.span.2 spanStart) lineEnd
  let before ← byteSlice ctx.text lineStart spanStart
  let marked ← byteSlice ctx.text spanStart spanEnd
  let ln := number (line + 1)
  let pad := List.replicate ln.length ' '
  let indent := List.replicate before.length ' '
  let carets := List.replicate (max marked.length 1) '^'
  let site ← ctx.definedAt pad indent (diag.suggestion.bind Prod.snd)
  return writeln [ln, " | ".toList, trimReturns src] ++
    writeln [pad, " | ".toList, indent, carets, didYouMean diag.suggestion] ++ site

/-! ### The channels -/

def level : Severity → String
  | .error => "error"
  | .warning => "warning"

def printJsonDiagnostic (diag : RenderedDiagnostic) : Option Text := do
  let (line, column) ← ctx.place diag.span.1
  return ctx.printJson ⟨ctx.file, line, column, diag.code, level diag.severity, diag.message⟩ ++
    ['\n']

def callSite (call : ConstraintCall) : Option Text := do
  let (line, column) ← ctx.place call.start
  return [ctx.file.toList, ":".toList, number line, ":".toList, number column].flatten

/-- One line of the list of calls. -/
def observed (call : ConstraintCall) : Option Text := do
  let site ← ctx.callSite call
  return writeln ["- `".toList, call.method.toList, "` at ".toList, site,
    " — candidates: ".toList, joined call.candidates]

def fixLine (entry : ConstraintCall × ℕ) : Option Text := do
  let site ← ctx.callSite entry.1
  return writeln [number (entry.2 + 1), ". Fix `".toList, entry.1.method.toList, "` at ".toList,
    site, " — its candidates (".toList, joined entry.1.candidates,
    ") don't overlap with the other call(s).".toList]

def heading (title : String) : Text := writeln [title.toList] ++ writeln []

def renderContradictionBlock (proof : ConstraintProof) : Option Text := do
  let receiver := proof.receiver.toList
  let calls ← proof.calls.mapM ctx.observed
  let fixes ← proof.calls.zipIdx.mapM ctx.fixLine
  let first ← proof.calls.head?
  let example' := (first.candidates.head?.getD "Type").toList
  return writeln ["## constraint contradiction: `".toList, receiver, "`".toList] ++ writeln [] ++
    heading "**Proved**" ++ calls.flatten ++
    writeln ["- Whichever type `".toList, receiver,
      "` really is, at least one of these calls raises NoMethodError at runtime.".toList] ++
    writeln [("- (Candidates were enumerated from the project's closed-ancestry classes plus " ++
      "Ruby's generated core-class inventory; `open`-ancestry classes — dynamic, reopened, or " ++
      "method_missing — are excluded, so every list above is auditable against those two " ++
      "sources.)").toList] ++
    writeln [] ++ heading "**Resolution**" ++ fixes.flatten ++
    writeln [number (proof.calls.length + 1), ". Or pin `".toList, receiver,
      "`'s type with an inline RBS declaration — `#: (".toList, example',
      ") -> untyped` on the enclosing `def` line if `".toList, receiver,
      "` is a parameter — picking whichever candidate above is actually correct.".toList] ++
    writeln []

def ambiguity (receiver : Text) : Option ℕ → Text
  | none => []
  | some n => writeln ["- (Ambiguous: ".toList, number n,
      " closed candidates satisfy every call above — any of them could be `".toList, receiver,
      "`'s real type.)".toList]

def renderDeclarationBlock (receiver sigTy : String) (calls : List ConstraintCall)
    (ambiguousOf : Option ℕ) : Option Text := do
  let receiver := receiver.toList
  let lines ← calls.mapM ctx.observed
  return writeln ["## declaration candidate: `".toList, receiver, "` -> ".toList, sigTy.toList] ++
    writeln [] ++ heading "**Observed**" ++ lines.flatten ++ ambiguity receiver ambiguousOf ++
    writeln [] ++ heading "**Resolution**" ++
    writeln ["1. Add an inline RBS declaration for `".toList, receiver, "` — `#: (".toList,
      sigTy.toList, ") -> untyped` on the enclosing `def` line if `".toList, receiver,
      "` is a parameter — replacing `untyped` with the real return type.".toList] ++
    writeln []

/-- The block of an outcome; a contradiction has its block from its diagnostic. -/
def renderOutcomeBlock : ConstraintOutcome → Option (Option Text)
  | .contradiction _ => some none
  | .inferred receiver ty calls => some <$> ctx.renderDeclarationBlock receiver ty calls none
  | .unionCandidate receiver candidates calls =>
    some <$> ctx.renderDeclarationBlock receiver (" | ".intercalate candidates) calls
      (some candidates.length)

/-- What one diagnostic prints, and whether it is a block. -/
def renderDiagnostic (formatAgent formatJson : Bool) (diag : RenderedDiagnostic) :
    Option (Text × ℕ) :=
  if formatAgent then
    match diag.constraint with
    | some proof => (·, 1) <$> ctx.renderContradictionBlock proof
    | none => some ([], 0)
  else if formatJson then (·, 0) <$> ctx.printJsonDiagnostic diag
  else do
    let (line, column) ← ctx.place diag.span.1
    let excerpt ← ctx.renderExcerpt diag
    return (writeln [ctx.file.toList, ":".toList, number line, ":".toList, number column,
      ": ".toList, (level diag.severity).toList, "[".toList, diag.code.toList, "]: ".toList,
      diag.message.toList] ++ excerpt, 0)

/-- A census site inside a character keeps its record, without a position. -/
def darkRecord (site : DarkSingleton) : Option DarkRecord := do
  let onCharBoundary := (splitAtByte site.start ctx.text).isSome
  let (line, column) ← if onCharBoundary then ctx.place site.start else some (0, 0)
  let (verdict, reason) := match site.verdict with
    | .closedNotFound => ("closed_notfound", none)
    | .opened reason => ("open", some reason)
    | .knownTail => ("known_tail", none)
  return ⟨ctx.file, line, column, onCharBoundary, site.start, site.receiver, site.method, verdict,
    reason⟩

/-- The blocks of the outcomes, which only an agent sees. -/
def renderOutcomes (formatAgent : Bool) (outcomes : List ConstraintOutcome) :
    Option (List (Option Text)) :=
  if formatAgent then outcomes.mapM ctx.renderOutcomeBlock else some []

/-- What `check_and_print` makes of the results of the check. -/
def renderFile (formatAgent formatJson : Bool) (diags : List RenderedDiagnostic)
    (dark : List DarkSingleton) (outcomes : List ConstraintOutcome) : Option FileReport := do
  let darkLines ← dark.mapM ctx.darkRecord
  let printed ← diags.mapM (ctx.renderDiagnostic formatAgent formatJson)
  let blocks ← ctx.renderOutcomes formatAgent outcomes
  return {
    hadError := diags.any fun diag ↦ diag.severity == .error
    blocks := (printed.map Prod.snd).sum + (blocks.filterMap id).length
    out := (printed.map Prod.fst).flatten ++ (blocks.filterMap id).flatten
    darkLines }

/-! ### What a report says -/

variable {ctx}

/-- Results of every element, side by side with the elements. -/
theorem mapM_eq_some_iff {α β : Type} {f : α → Option β} {l : List α} {r : List β} :
    l.mapM f = some r ↔ List.Forall₂ (fun a b ↦ f a = some b) l r := by
  induction l generalizing r with
  | nil => simp [List.forall₂_nil_left_iff, eq_comm]
  | cons a l ih =>
    rw [List.mapM_cons, List.forall₂_cons_left_iff]
    simp only [Option.bind_eq_bind, Option.bind_eq_some_iff, ih, Option.pure_def, Option.some.injEq]
    constructor
    · rintro ⟨b, hb, rest, hrest, rfl⟩
      exact ⟨b, rest, hb, hrest, rfl⟩
    · rintro ⟨b, rest, hb, hrest, rfl⟩
      exact ⟨b, hb, rest, hrest, rfl⟩

section Report

variable {formatAgent formatJson : Bool} {diags : List RenderedDiagnostic}
  {dark : List DarkSingleton} {outcomes : List ConstraintOutcome} {report : FileReport}

theorem renderFile_eq_some
    (h : ctx.renderFile formatAgent formatJson diags dark outcomes = some report) :
    ∃ darkLines printed blocks, dark.mapM ctx.darkRecord = some darkLines ∧
      diags.mapM (ctx.renderDiagnostic formatAgent formatJson) = some printed ∧
      ctx.renderOutcomes formatAgent outcomes = some blocks ∧
      report = ⟨diags.any fun diag ↦ diag.severity == .error,
        (printed.map Prod.snd).sum + (blocks.filterMap id).length,
        (printed.map Prod.fst).flatten ++ (blocks.filterMap id).flatten, darkLines⟩ := by
  unfold renderFile at h
  simp only [Option.bind_eq_bind, Option.bind_eq_some_iff, Option.pure_def,
    Option.some.injEq] at h
  obtain ⟨darkLines, hdark, printed, hprinted, blocks, hblocks, rfl⟩ := h
  exact ⟨darkLines, printed, blocks, hdark, hprinted, hblocks, rfl⟩

/-- The severity of a diagnostic counts in every channel. -/
theorem hadError_eq
    (h : ctx.renderFile formatAgent formatJson diags dark outcomes = some report) :
    report.hadError = diags.any fun diag ↦ diag.severity == .error := by
  obtain ⟨_, _, _, -, -, -, rfl⟩ := renderFile_eq_some h
  rfl

end Report

/-! ### The channel of an agent -/

def IsBlock (text : Text) : Prop := "## ".toList <+: text

theorem IsBlock.append {start rest : Text} (h : IsBlock start) : IsBlock (start ++ rest) :=
  h.trans (List.prefix_append start rest)

theorem isBlock_writeln {first : Text} (h : IsBlock first) (pieces : List Text) :
    IsBlock (writeln (first :: pieces)) := by
  rw [writeln, List.flatten_cons, List.append_assoc]
  exact h.append

theorem renderContradictionBlock_isBlock {proof : ConstraintProof} {block : Text}
    (h : ctx.renderContradictionBlock proof = some block) : IsBlock block := by
  unfold renderContradictionBlock at h
  simp only [Option.bind_eq_bind, Option.bind_eq_some_iff, Option.pure_def,
    Option.some.injEq] at h
  obtain ⟨calls, -, fixes, -, first, -, rfl⟩ := h
  simp only [List.append_assoc]
  exact (isBlock_writeln ⟨"constraint contradiction: `".toList, rfl⟩ _).append

theorem renderDeclarationBlock_isBlock {receiver sigTy : String} {calls : List ConstraintCall}
    {ambiguousOf : Option ℕ} {block : Text}
    (h : ctx.renderDeclarationBlock receiver sigTy calls ambiguousOf = some block) :
    IsBlock block := by
  unfold renderDeclarationBlock at h
  simp only [Option.bind_eq_bind, Option.bind_eq_some_iff, Option.pure_def,
    Option.some.injEq] at h
  obtain ⟨lines, -, rfl⟩ := h
  simp only [List.append_assoc]
  exact (isBlock_writeln ⟨"declaration candidate: `".toList, rfl⟩ _).append

def isCandidate : ConstraintOutcome → Bool
  | .contradiction _ => false
  | .inferred _ _ _ => true
  | .unionCandidate _ _ _ => true

/-- The findings an agent is told of: a diagnostic with a proof, an outcome without one. -/
def findings (diags : List RenderedDiagnostic) (outcomes : List ConstraintOutcome) : ℕ :=
  diags.countP (·.constraint.isSome) + outcomes.countP isCandidate

theorem exists_diagnosticBlocks {formatJson : Bool} {diags : List RenderedDiagnostic}
    {printed : List (Text × ℕ)}
    (h : diags.mapM (ctx.renderDiagnostic true formatJson) = some printed) :
    ∃ pieces : List Text, (printed.map Prod.fst).flatten = pieces.flatten ∧
      (printed.map Prod.snd).sum = pieces.length ∧
      pieces.length = diags.countP (·.constraint.isSome) ∧ ∀ p ∈ pieces, IsBlock p := by
  rw [mapM_eq_some_iff] at h
  induction h with
  | nil => exact ⟨[], rfl, rfl, rfl, by simp⟩
  | @cons diag out diags printed hdiag _ ih =>
    obtain ⟨pieces, hflat, hsum, hcount, hblocks⟩ := ih
    rw [renderDiagnostic, if_pos rfl] at hdiag
    cases hproof : diag.constraint with
    | none =>
      simp only [hproof, Option.some.injEq] at hdiag
      subst hdiag
      exact ⟨pieces, by simpa using hflat, by simpa using hsum, by simpa [hproof] using hcount,
        hblocks⟩
    | some proof =>
      simp only [hproof, Option.map_eq_map, Option.map_eq_some_iff] at hdiag
      obtain ⟨block, hblock, rfl⟩ := hdiag
      refine ⟨block :: pieces, by simp [hflat], by simp [hsum, Nat.add_comm],
        by simp [hproof, hcount], ?_⟩
      exact List.forall_mem_cons.mpr ⟨renderContradictionBlock_isBlock hblock, hblocks⟩

theorem exists_outcomeBlocks {outcomes : List ConstraintOutcome} {blocks : List (Option Text)}
    (h : outcomes.mapM ctx.renderOutcomeBlock = some blocks) :
    (blocks.filterMap id).length = outcomes.countP isCandidate ∧
      ∀ p ∈ blocks.filterMap id, IsBlock p := by
  rw [mapM_eq_some_iff] at h
  induction h with
  | nil => exact ⟨rfl, by simp⟩
  | @cons outcome block outcomes blocks houtcome _ ih =>
    cases outcome with
    | contradiction proof =>
      obtain rfl : none = block := Option.some.inj houtcome
      simpa [isCandidate] using ih
    | inferred receiver ty calls =>
      obtain ⟨text, htext, rfl⟩ := Option.map_eq_some_iff.mp houtcome
      simpa [List.countP_cons, isCandidate, renderDeclarationBlock_isBlock htext] using ih
    | unionCandidate receiver candidates calls =>
      obtain ⟨text, htext, rfl⟩ := Option.map_eq_some_iff.mp houtcome
      simpa [List.countP_cons, isCandidate, renderDeclarationBlock_isBlock htext] using ih

/-- Under `--format=agent` a file prints its blocks and nothing else, and counts them. -/
theorem renderFile_agent {formatJson : Bool} {diags : List RenderedDiagnostic}
    {dark : List DarkSingleton} {outcomes : List ConstraintOutcome} {report : FileReport}
    (h : ctx.renderFile true formatJson diags dark outcomes = some report) :
    ∃ pieces : List Text, report.out = pieces.flatten ∧ report.blocks = pieces.length ∧
      pieces.length = findings diags outcomes ∧ ∀ p ∈ pieces, IsBlock p := by
  obtain ⟨_, printed, blocks, -, hprinted, hblocks, rfl⟩ := renderFile_eq_some h
  rw [renderOutcomes, if_pos rfl] at hblocks
  obtain ⟨pieces, hflat, hsum, hcount, hpieces⟩ := exists_diagnosticBlocks hprinted
  obtain ⟨hlength, hall⟩ := exists_outcomeBlocks hblocks
  refine ⟨pieces ++ blocks.filterMap id, by simp [hflat], by simp [hsum], ?_, ?_⟩
  · rw [List.length_append, hcount, hlength, findings]
  · intro p hp
    exact (List.mem_append.mp hp).elim (hpieces p) (hall p)

/-! ### The JSON lines -/

/-- The object of a diagnostic, at the place of its start. -/
def JsonOf (ctx : RenderCtx) (diag : RenderedDiagnostic) (object : JsonDiagnostic) : Prop :=
  ctx.place diag.span.1 = some (object.line, object.column) ∧ object.path = ctx.file ∧
    object.code = diag.code ∧ object.severity = level diag.severity ∧
    object.message = diag.message

/-- Under `--format=json` a file prints one line for each diagnostic, in their order. -/
theorem renderFile_json {diags : List RenderedDiagnostic} {dark : List DarkSingleton}
    {outcomes : List ConstraintOutcome} {report : FileReport}
    (h : ctx.renderFile false true diags dark outcomes = some report) :
    ∃ objects, List.Forall₂ (JsonOf ctx) diags objects ∧ report.blocks = 0 ∧
      report.out = objects.flatMap fun object ↦ ctx.printJson object ++ ['\n'] := by
  obtain ⟨_, printed, blocks, -, hprinted, hblocks, rfl⟩ := renderFile_eq_some h
  obtain rfl : [] = blocks := by simpa [renderOutcomes] using hblocks
  rw [mapM_eq_some_iff] at hprinted
  clear h
  induction hprinted with
  | nil => exact ⟨[], .nil, rfl, rfl⟩
  | @cons diag out diags printed hdiag _ ih =>
    obtain ⟨objects, hobjects, hblocks, hout⟩ := ih
    simp only [renderDiagnostic, Bool.false_eq_true, if_false, if_true, Option.map_eq_map,
      Option.map_eq_some_iff, printJsonDiagnostic, Option.bind_eq_bind, Option.bind_eq_some_iff,
      Option.pure_def, Option.some.injEq] at hdiag
    obtain ⟨text, ⟨place, hplace, rfl⟩, rfl⟩ := hdiag
    refine ⟨⟨ctx.file, place.1, place.2, diag.code, level diag.severity, diag.message⟩ :: objects,
      .cons ⟨hplace, rfl, rfl, rfl, rfl⟩ hobjects, ?_, ?_⟩
    · simpa using hblocks
    · simpa using hout

end RenderCtx

end Itaruby.Command
