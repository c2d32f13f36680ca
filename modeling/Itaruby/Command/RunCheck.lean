import Itaruby.Command.Excerpts
import Itaruby.Library.WorkerPool
import Itaruby.Walker.FileScan
import Mathlib.Data.List.Lex

/-!
`ita check`: the flags, the roots, the files in the order of their paths, the workers that check
them over one store, and what the run prints, writes and exits with. The tracked queries of the
checker are questions that the workers ask; the file system, the project and the serializers are
parameters.
-/

set_option autoImplicit false
set_option relaxedAutoImplicit false

namespace Itaruby.Command

open WorkerPool

/-! ### The arguments -/

structure CheckFlags where
  verbose : Bool
  stats : Bool
  formatAgent : Bool
  formatJson : Bool
  dark : Option Text
  deriving DecidableEq, Repr

/-- One argument of `parse_check_flags`; an unknown format ends it. -/
def readFlag (flags : CheckFlags) (arg : Text) : Option CheckFlags := do
  let flags ← match stripPrefix "--format=" arg with
    | none => some flags
    | some format =>
      if format = "agent".toList then some { flags with formatAgent := true }
      else if format = "json".toList then some { flags with formatJson := true }
      else none
  match stripPrefix "--dark-singletons=" arg with
  | some path => return { flags with dark := some path }
  | none => return flags

def parseCheckFlags (args : List Text) : Option CheckFlags :=
  args.foldlM readFlag {
    verbose := args.any fun a ↦ a = "--verbose".toList ∨ a = "-v".toList
    stats := args.any fun a ↦ a = "--stats".toList
    formatAgent := false
    formatJson := false
    dark := none }

def rootsOf (args : List Text) : List Text := args.filter fun a ↦ a.head? ≠ some '-'

/-- The message about the first root that is not there or cannot be read. -/
def verifyRoots (tryExists : Text → Except Text Bool) : List Text → Option Text
  | [] => none
  | path :: rest =>
    match tryExists path with
    | .ok true => verifyRoots tryExists rest
    | .ok false => some ("itaruby: path not found: ".toList ++ path)
    | .error e => some ("itaruby: cannot read path: ".toList ++ path ++ ": ".toList ++ e)

/-! ### The order of the files -/

inductive Component
  | rootDir
  | curDir
  | parentDir
  | normal (name : Text)
  deriving DecidableEq, Repr

/-- The components of a path: repeated separators and inner dots fall away. -/
def components (path : Text) : List Component :=
  let parts := path.splitOn '/'
  let first := if path.head? = some '/' then [.rootDir]
    else if parts.head? = some ['.'] then [.curDir] else []
  first ++ parts.filterMap fun part ↦
    if part = [] ∨ part = ['.'] then none
    else if part = ['.', '.'] then some .parentDir
    else some (.normal part)

/-- Components are ordered by kind, names by their characters. -/
def Component.key : Component → List ℕ
  | .rootDir => [1]
  | .curDir => [2]
  | .parentDir => [3]
  | .normal name => 4 :: name.map Char.toNat

def pathKey (file : SourceFile) : List (List ℕ) := (components file.toList).map Component.key

/-- `Path::cmp` -/
def pathLe (a b : SourceFile) : Bool := decide (pathKey a ≤ pathKey b)

/-! ### The workers -/

/-- `parse::<usize>()` -/
def parseUsize (text : Text) : Option ℕ :=
  let digits := match text with
    | '+' :: rest => rest
    | text => text
  if digits.isEmpty || !digits.all Char.isDigit then none
  else
    let n := digits.foldl (fun n c ↦ 10 * n + (c.toNat - '0'.toNat)) 0
    if n < 2 ^ 64 then some n else none

/-- What decides the number of workers: `ITARUBY_JOBS`, and the cores of the machine when the
system knows them. -/
structure JobSetting where
  itarubyJobs : Option Text
  availableParallelism : Option { n : ℕ // 0 < n }

def checkWorkerCount (jobs : JobSetting) (fileCount : ℕ) : ℕ :=
  let n := ((jobs.itarubyJobs.bind parseUsize).filter (0 < ·)).getD
    (jobs.availableParallelism.elim 1 Subtype.val)
  min n (max fileCount 1)

/-- `chunks`: the room left in the chunk being filled, and that chunk in reverse. -/
def chunksFrom {α : Type} (size : ℕ) : ℕ → List α → List α → List (List α)
  | _, chunk, [] => if chunk.isEmpty then [] else [chunk.reverse]
  | 0, chunk, a :: rest => chunk.reverse :: chunksFrom size (size - 1) [a] rest
  | room + 1, chunk, a :: rest => chunksFrom size room (a :: chunk) rest

def chunks {α : Type} (size : ℕ) (l : List α) : List (List α) := chunksFrom size size [] l

/-! ### The run -/

/-- What `build_project` finds, and what it says about it. -/
structure Project where
  sources : List SourceFile
  declarationsOnly : List SourceFile
  notices : List Text

/-- The world of a run. The checker's functions ask tracked queries; `rule` answers those. -/
structure CheckWorld (κ ν : Type) where
  tryExists : Text → Except Text Bool
  buildProject : List Text → Project
  textOf : SourceFile → Text
  rule : κ → Inquiry κ ν ν
  checkFile : SourceFile → Inquiry κ ν (List RenderedDiagnostic)
  checkFileDark : SourceFile → Inquiry κ ν (List RenderedDiagnostic × List DarkSingleton)
  constraintReport : SourceFile → Inquiry κ ν (List ConstraintOutcome)
  printJson : JsonDiagnostic → Text
  printDark : DarkRecord → Text
  writeFile : Text → Text → Except Text Unit
  printStats : Project → Text
  rbiFilesParsed : ℕ

structure RunOutcome where
  stdout : Text
  stderr : List Text
  written : Option (Text × Text)
  exitCode : ℕ
  deriving DecidableEq, Repr

def usage : Text :=
  ("usage: ita check [--verbose] [--stats] [--format=agent|json] [--dark-singletons=<file>] " ++
    "<path>...").toList

/-- The run that ends with a message and checks nothing. -/
def refused (message : Text) : RunOutcome where
  stdout := []
  stderr := [message]
  written := none
  exitCode := 2

namespace CheckWorld

variable {κ ν : Type} (w : CheckWorld κ ν)

/-- The files that are checked, in the order they are printed in. -/
def toCheck (roots : List Text) : List SourceFile :=
  let project := w.buildProject roots
  (project.sources.filter (· ∉ project.declarationsOnly)).mergeSort pathLe

def renderCtx (file : SourceFile) : RenderCtx where
  textOf := w.textOf
  printJson := w.printJson
  file := file

def fetchDiagnostics (dark : Bool) (file : SourceFile) :
    Inquiry κ ν (List RenderedDiagnostic × List DarkSingleton) :=
  if dark then w.checkFileDark file
  else do
    let diags ← w.checkFile file
    return (diags, [])

/-- The report of constraints is asked for under `--format=agent` only. -/
def fetchOutcomes (formatAgent : Bool) (file : SourceFile) :
    Inquiry κ ν (List ConstraintOutcome) :=
  if formatAgent then w.constraintReport file else pure []

def checkAndPrint (flags : CheckFlags) (file : SourceFile) : Inquiry κ ν (Option FileReport) := do
  let found ← w.fetchDiagnostics flags.dark.isSome file
  let outcomes ← w.fetchOutcomes flags.formatAgent file
  return (w.renderCtx file).renderFile flags.formatAgent flags.formatJson found.1 found.2 outcomes

/-- The census as text. -/
def darkText (records : List DarkRecord) : Text :=
  records.flatMap fun record ↦ w.printDark record ++ ['\n']

/-- `print_check_footer`, on both streams. -/
def footer (flags : CheckFlags) (project : Project) (checked agentBlocks : ℕ) : Text × List Text :=
  ((if flags.formatAgent then writeln ["_Checked ".toList, number checked, " file(s); ".toList,
        number agentBlocks, " constraint finding(s)._".toList] else []) ++
      (if flags.stats then w.printStats project else []),
    if flags.verbose then ["itaruby check: rbi phase 2: parsed ".toList ++
      number w.rbiFilesParsed ++ " .rbi files (lazy)".toList] else [])

/-- What the main thread does with the buffers, in the order of the files. -/
def finish (flags : CheckFlags) (project : Project) (reports : List FileReport) : RunOutcome :=
  let out := reports.flatMap FileReport.out
  let records := reports.flatMap FileReport.darkLines
  let last := w.footer flags project reports.length (reports.map FileReport.blocks).sum
  let exitCode := if reports.any FileReport.hadError then 1 else 0
  match flags.dark with
  | none => ⟨out ++ last.1, project.notices ++ last.2, none, exitCode⟩
  | some path =>
    match w.writeFile path (w.darkText records) with
    | .ok _ =>
      let closed := records.countP fun record ↦ record.verdict = "closed_notfound"
      ⟨out ++ last.1, project.notices ++ ["itaruby: dark singleton census: ".toList ++
          number records.length ++ " site(s) bucketed, ".toList ++ number closed ++
          " closed-notfound -> ".toList ++ path] ++ last.2,
        some (path, w.darkText records), exitCode⟩
    | .error e =>
      ⟨out, project.notices ++ ["itaruby: cannot write dark-singletons file: ".toList ++ path ++
        ": ".toList ++ e], none, 2⟩

/-- What is settled before any file is checked: the flags and the roots, or the refusal. -/
def prepare (args : List Text) : Except RunOutcome (CheckFlags × List Text) :=
  match parseCheckFlags args with
  | none => .error (refused usage)
  | some flags =>
    let roots := rootsOf args
    if roots = [] then .error (refused usage)
    else
      match verifyRoots w.tryExists roots with
      | some message => .error (refused message)
      | none => .ok (flags, roots)

/-- The shares of the workers. -/
def shares (jobs : JobSetting) (roots : List Text) : List (List SourceFile) :=
  let files := w.toCheck roots
  chunks (max ((files.length + checkWorkerCount jobs files.length - 1) /
    checkWorkerCount jobs files.length) 1) files

/-- The end of a run of `ita check` under some schedule of the workers; `none` is a worker's
panic, which the main thread passes on. -/
inductive Runs [DecidableEq κ] (args : List Text) (jobs : JobSetting) : Option RunOutcome → Prop
  | refused {outcome : RunOutcome} (h : w.prepare args = .error outcome) :
      Runs args jobs (some outcome)
  | checked {flags : CheckFlags} {roots : List Text} {schedule : List ℕ}
      {pool : Pool κ ν SourceFile (Option FileReport)} (h : w.prepare args = .ok (flags, roots))
      (hrun : (Pool.start (w.shares jobs roots)).run w.rule (w.checkAndPrint flags) schedule =
        some pool) (hfinished : pool.Finished) :
      Runs args jobs ((pool.results.mapM id).map (w.finish flags (w.buildProject roots)))

end CheckWorld

/-! ### Shares -/

section Chunks

variable {α : Type}

theorem flatten_chunksFrom (size room : ℕ) (chunk l : List α) :
    (chunksFrom size room chunk l).flatten = chunk.reverse ++ l := by
  induction l generalizing room chunk with
  | nil =>
    rw [chunksFrom]
    split_ifs with hchunk
    · simp [List.isEmpty_iff.mp hchunk]
    · simp
  | cons a rest ih =>
    cases room with
    | zero => rw [chunksFrom, List.flatten_cons, ih, List.reverse_singleton, List.singleton_append]
    | succ room => rw [chunksFrom, ih, List.reverse_cons, List.append_assoc, List.singleton_append]

theorem flatten_chunks (size : ℕ) (l : List α) : (chunks size l).flatten = l :=
  flatten_chunksFrom size size [] l

/-- All chunks but the last one are full. -/
theorem length_chunksFrom_lt {size room : ℕ} (hsize : 0 < size) {chunk : List α}
    (hroom : room + chunk.length = size) (l : List α) :
    (chunksFrom size room chunk l).length * size < chunk.length + l.length + size := by
  induction l generalizing room chunk with
  | nil =>
    rw [chunksFrom]
    split_ifs with hchunk
    · simpa using by omega
    · have hpos : 0 < chunk.length := by
        rw [List.length_pos_iff]
        exact fun hnil ↦ hchunk (by simp [hnil])
      simpa using hpos
  | cons a rest ih =>
    cases room with
    | zero =>
      have hrest := ih (by rw [List.length_singleton]; omega : size - 1 + [a].length = size)
      rw [chunksFrom, List.length_cons, Nat.succ_mul]
      rw [List.length_singleton] at hrest
      rw [List.length_cons]
      omega
    | succ room =>
      have hrest := ih (by rw [List.length_cons]; omega : room + (a :: chunk).length = size)
      rw [chunksFrom]
      rw [List.length_cons] at hrest ⊢
      omega

end Chunks

theorem checkWorkerCount_pos (jobs : JobSetting) (fileCount : ℕ) :
    0 < checkWorkerCount jobs fileCount := by
  unfold checkWorkerCount
  refine lt_min ?_ (by omega)
  cases hjobs : (jobs.itarubyJobs.bind parseUsize).filter (0 < ·) with
  | some n =>
    have hn := (Option.filter_eq_some_iff.mp hjobs).2
    simpa using hn
  | none =>
    cases jobs.availableParallelism with
    | none => exact Nat.one_pos
    | some n => exact n.2

namespace CheckWorld

variable {κ ν : Type} (w : CheckWorld κ ν)

theorem flatten_shares (jobs : JobSetting) (roots : List Text) :
    (w.shares jobs roots).flatten = w.toCheck roots :=
  flatten_chunks _ _

/-- No more threads than workers are asked for. -/
theorem length_shares_le (jobs : JobSetting) (roots : List Text) :
    (w.shares jobs roots).length ≤ checkWorkerCount jobs (w.toCheck roots).length := by
  have hpos := checkWorkerCount_pos jobs (w.toCheck roots).length
  unfold shares
  dsimp only
  generalize checkWorkerCount jobs (w.toCheck roots).length = workers at hpos ⊢
  generalize hsize : max (((w.toCheck roots).length + workers - 1) / workers) 1 = size
  have hlength := length_chunksFrom_lt (by omega : 0 < size)
    (by simp : size + ([] : List SourceFile).length = size) (w.toCheck roots)
  -- one share more would hold more files than there are
  have hfull : (w.toCheck roots).length ≤ workers * size := by
    have hceil := Nat.lt_mul_div_succ ((w.toCheck roots).length + workers - 1) hpos
    have hle := Nat.mul_le_mul_left workers
      ((le_max_left (((w.toCheck roots).length + workers - 1) / workers) 1).trans_eq hsize)
    rw [Nat.mul_add, Nat.mul_one] at hceil
    omega
  by_contra hmore
  have hmany := Nat.mul_le_mul_right size (Nat.lt_of_not_le hmore)
  rw [Nat.succ_mul] at hmany
  change (chunksFrom size size [] (w.toCheck roots)).length * size < _ at hlength
  change _ ≤ (chunksFrom size size [] (w.toCheck roots)).length * size at hmany
  rw [List.length_nil] at hlength
  omega

/-! ### Every run -/

/-- What the checker finds in each file: the values of its functions, which ask the tracked
queries. -/
structure Answers (flags : CheckFlags) (files : List SourceFile) where
  found : SourceFile → List RenderedDiagnostic × List DarkSingleton
  outcomes : SourceFile → List ConstraintOutcome
  found_means : ∀ file ∈ files,
    ∃ n, Means w.rule (w.fetchDiagnostics flags.dark.isSome file) (found file) n
  outcomes_means : flags.formatAgent = true → ∀ file ∈ files,
    ∃ n, Means w.rule (w.constraintReport file) (outcomes file) n

namespace Answers

variable {w} {flags : CheckFlags} {files : List SourceFile} (a : w.Answers flags files)

/-- The report of one file. -/
def report (file : SourceFile) : Option FileReport :=
  (w.renderCtx file).renderFile flags.formatAgent flags.formatJson (a.found file).1
    (a.found file).2 (if flags.formatAgent then a.outcomes file else [])

/-- The records of the class-object sites of one file. -/
def records (file : SourceFile) : Option (List DarkRecord) :=
  (a.found file).2.mapM (w.renderCtx file).darkRecord

theorem report_means {file : SourceFile} (hfile : file ∈ files) :
    ∃ n, Means w.rule (w.checkAndPrint flags file) (a.report file) n := by
  obtain ⟨m, hm⟩ := a.found_means file hfile
  have houtcomes : ∃ n, Means w.rule (w.fetchOutcomes flags.formatAgent file)
      (if flags.formatAgent then a.outcomes file else []) n := by
    unfold fetchOutcomes
    cases hagent : flags.formatAgent with
    | true => exact a.outcomes_means hagent file hfile
    | false => exact ⟨0, means_pure []⟩
  obtain ⟨n, hn⟩ := houtcomes
  have hrest : ∃ k, Means w.rule (w.fetchOutcomes flags.formatAgent file >>= fun outcomes ↦
      pure ((w.renderCtx file).renderFile flags.formatAgent flags.formatJson (a.found file).1
        (a.found file).2 outcomes)) (a.report file) k := hn.bind (means_pure _)
  obtain ⟨k, hk⟩ := hrest
  exact hm.bind hk

theorem shares_means (jobs : JobSetting) {roots : List Text}
    (a : w.Answers flags (w.toCheck roots)) :
    ∀ file ∈ (w.shares jobs roots).flatten,
      ∃ n, Means w.rule (w.checkAndPrint flags file) (a.report file) n := by
  intro file hfile
  rw [flatten_shares] at hfile
  exact a.report_means hfile

end Answers

variable {w} [DecidableEq κ] {args : List Text} {jobs : JobSetting} {outcome : Option RunOutcome}
  {flags : CheckFlags} {roots : List Text}

/-- What the workers leave, in the order of the files, whatever the schedule was. -/
theorem results_eq (a : w.Answers flags (w.toCheck roots)) {schedule : List ℕ}
    {pool : Pool κ ν SourceFile (Option FileReport)}
    (hrun : (Pool.start (w.shares jobs roots)).run w.rule (w.checkAndPrint flags) schedule =
      some pool) (hfinished : pool.Finished) :
    pool.results.mapM id = (w.toCheck roots).mapM a.report := by
  rw [Pool.results_of_run (a.shares_means jobs) hrun hfinished, flatten_shares, List.mapM_map]
  rfl

theorem eq_of_runs (hprepare : w.prepare args = .ok (flags, roots))
    (a : w.Answers flags (w.toCheck roots)) (h : w.Runs args jobs outcome) :
    outcome = ((w.toCheck roots).mapM a.report).map (w.finish flags (w.buildProject roots)) := by
  cases h with
  | refused h => rw [hprepare] at h; cases h
  | checked h hrun hfinished =>
    rw [hprepare] at h
    obtain ⟨rfl, rfl⟩ := Prod.mk.inj (Except.ok.inj h)
    rw [results_eq a hrun hfinished]

/-- Some schedule ends the run: any worker that has not finished can go on. -/
theorem exists_run (hprepare : w.prepare args = .ok (flags, roots))
    (a : w.Answers flags (w.toCheck roots)) :
    w.Runs args jobs
      (((w.toCheck roots).mapM a.report).map (w.finish flags (w.buildProject roots))) := by
  obtain ⟨bound, hbound⟩ := Pool.run_ends (a.shares_means jobs)
  obtain ⟨-, schedule, pool, hrun, hfinished⟩ := hbound [] _ rfl
  rw [← results_eq a hrun hfinished]
  exact .checked hprepare hrun hfinished

/-- The reports of a run that ends without a panic, and what is made of them. -/
theorem exists_reports (hprepare : w.prepare args = .ok (flags, roots))
    (a : w.Answers flags (w.toCheck roots)) {o : RunOutcome} (h : w.Runs args jobs (some o)) :
    ∃ reports, List.Forall₂ (fun file report ↦ a.report file = some report)
      (w.toCheck roots) reports ∧ o = w.finish flags (w.buildProject roots) reports := by
  have houtcome := eq_of_runs hprepare a h
  obtain ⟨reports, hreports, rfl⟩ := Option.map_eq_some_iff.mp houtcome.symm
  exact ⟨reports, RenderCtx.mapM_eq_some_iff.mp hreports, rfl⟩

omit [DecidableEq κ] in
theorem any_hadError_iff {a : w.Answers flags (w.toCheck roots)} {files : List SourceFile}
    {reports : List FileReport}
    (h : List.Forall₂ (fun file report ↦ a.report file = some report) files reports) :
    reports.any FileReport.hadError = true ↔
      ∃ file ∈ files, ∃ diag ∈ (a.found file).1, diag.severity = .error := by
  induction h with
  | nil => simp
  | @cons file report files reports hreport _ ih =>
    rw [List.any_cons, Bool.or_eq_true, ih, RenderCtx.hadError_eq hreport, List.any_eq_true]
    simp

/-- The census was asked for and cannot be written. -/
def WriteFails (w : CheckWorld κ ν) (flags : CheckFlags) (records : List DarkRecord) : Prop :=
  ∃ path e, flags.dark = some path ∧ w.writeFile path (w.darkText records) = .error e

omit [DecidableEq κ] in
theorem exitCode_finish (flags : CheckFlags) (project : Project) (reports : List FileReport) :
    ((w.finish flags project reports).exitCode = 2 ↔
      w.WriteFails flags (reports.flatMap FileReport.darkLines)) ∧
    ((w.finish flags project reports).exitCode = 1 ↔
      ¬ w.WriteFails flags (reports.flatMap FileReport.darkLines) ∧
        reports.any FileReport.hadError = true) := by
  unfold finish WriteFails
  cases hdark : flags.dark with
  | none => cases reports.any FileReport.hadError <;> simp
  | some path =>
    cases hwrite : w.writeFile path (w.darkText (reports.flatMap FileReport.darkLines)) with
    | error e => simp [hwrite]
    | ok _ => cases reports.any FileReport.hadError <;> simp [hwrite]

omit [DecidableEq κ] in
/-- The footer is printed unless the census cannot be written. -/
theorem stdout_finish (flags : CheckFlags) (project : Project) (reports : List FileReport) :
    (w.finish flags project reports).exitCode = 2 ∧
        (w.finish flags project reports).stdout = reports.flatMap FileReport.out ∨
      (w.finish flags project reports).exitCode ≠ 2 ∧
        (w.finish flags project reports).stdout = reports.flatMap FileReport.out ++
          (w.footer flags project reports.length (reports.map FileReport.blocks).sum).1 := by
  have hcode : (if reports.any FileReport.hadError then 1 else 0) ≠ 2 := by split_ifs <;> decide
  unfold finish
  cases flags.dark with
  | none => exact .inr ⟨hcode, rfl⟩
  | some path =>
    cases hwrite : w.writeFile path (w.darkText (reports.flatMap FileReport.darkLines)) with
    | error e => simp [hwrite]
    | ok _ => exact .inr (by simpa [hwrite] using hcode)

omit [DecidableEq κ] in
theorem prepare_error {o : RunOutcome} (h : w.prepare args = .error o) :
    ∃ message, o = refused message := by
  unfold prepare at h
  cases hflags : parseCheckFlags args with
  | none =>
    rw [hflags] at h
    exact ⟨_, (Except.error.inj h).symm⟩
  | some flags =>
    rw [hflags] at h
    dsimp only at h
    split_ifs at h
    · exact ⟨_, (Except.error.inj h).symm⟩
    · cases hroots : verifyRoots w.tryExists (rootsOf args) with
      | none => rw [hroots] at h; cases h
      | some message =>
        rw [hroots] at h
        exact ⟨_, (Except.error.inj h).symm⟩

omit [DecidableEq κ] in
/-- The records of the census, file after file. -/
theorem darkLines_of_reports {a : w.Answers flags (w.toCheck roots)} {files : List SourceFile}
    {reports : List FileReport}
    (h : List.Forall₂ (fun file report ↦ a.report file = some report) files reports) :
    files.mapM a.records = some (reports.map FileReport.darkLines) := by
  rw [RenderCtx.mapM_eq_some_iff, List.forall₂_map_right_iff]
  refine h.imp fun file report hreport ↦ ?_
  obtain ⟨darkLines, _, _, hdark, -, -, rfl⟩ := RenderCtx.renderFile_eq_some hreport
  exact hdark

/-- A run that has its flags and its roots exits with 2 when it cannot write the census, and
otherwise with 1 exactly when some checked file has an error, whichever channel it prints. -/
theorem exitCode_of_runs (hprepare : w.prepare args = .ok (flags, roots))
    (a : w.Answers flags (w.toCheck roots)) {o : RunOutcome} (h : w.Runs args jobs (some o)) :
    ∃ records, (w.toCheck roots).mapM a.records = some records ∧
      (o.exitCode = 2 ↔ w.WriteFails flags records.flatten) ∧
      (o.exitCode = 1 ↔ ¬ w.WriteFails flags records.flatten ∧
        ∃ file ∈ w.toCheck roots, ∃ diag ∈ (a.found file).1, diag.severity = .error) := by
  obtain ⟨reports, hreports, rfl⟩ := exists_reports hprepare a h
  obtain ⟨htwo, hone⟩ := exitCode_finish (w := w) flags (w.buildProject roots) reports
  rw [any_hadError_iff hreports] at hone
  exact ⟨reports.map FileReport.darkLines, darkLines_of_reports hreports, htwo, hone⟩

omit [DecidableEq κ] in
theorem exists_blocks {a : w.Answers flags (w.toCheck roots)} (hagent : flags.formatAgent = true)
    {files : List SourceFile} {reports : List FileReport}
    (h : List.Forall₂ (fun file report ↦ a.report file = some report) files reports) :
    ∃ pieces : List Text, reports.flatMap FileReport.out = pieces.flatten ∧
      (reports.map FileReport.blocks).sum = pieces.length ∧
      pieces.length = (files.map fun file ↦
        RenderCtx.findings (a.found file).1 (a.outcomes file)).sum ∧
      ∀ p ∈ pieces, RenderCtx.IsBlock p := by
  induction h with
  | nil => exact ⟨[], rfl, rfl, rfl, by simp⟩
  | @cons file report files reports hreport _ ih =>
    obtain ⟨rest, hout, hblocks, hcount, hrest⟩ := ih
    rw [Answers.report, hagent] at hreport
    obtain ⟨pieces, hout', hblocks', hcount', hpieces⟩ := RenderCtx.renderFile_agent hreport
    refine ⟨pieces ++ rest, ?_, ?_, ?_, ?_⟩
    · rw [List.flatMap_cons, hout', hout, List.flatten_append]
    · rw [List.map_cons, List.sum_cons, hblocks', hblocks, List.length_append]
    · rw [List.length_append, List.map_cons, List.sum_cons, hcount', hcount, if_pos rfl]
    · intro p hp
      exact (List.mem_append.mp hp).elim (hpieces p) (hrest p)

omit [DecidableEq κ] in
theorem exists_objects {a : w.Answers flags (w.toCheck roots)} (hagent : flags.formatAgent = false)
    (hjson : flags.formatJson = true) {files : List SourceFile} {reports : List FileReport}
    (h : List.Forall₂ (fun file report ↦ a.report file = some report) files reports) :
    ∃ objects, List.Forall₂ (fun file fileObjects ↦
        List.Forall₂ (w.renderCtx file).JsonOf (a.found file).1 fileObjects) files objects ∧
      reports.flatMap FileReport.out =
        objects.flatten.flatMap fun object ↦ w.printJson object ++ ['\n'] := by
  induction h with
  | nil => exact ⟨[], .nil, rfl⟩
  | @cons file report files reports hreport _ ih =>
    obtain ⟨objects, hobjects, hout⟩ := ih
    rw [Answers.report, hagent, hjson] at hreport
    obtain ⟨fileObjects, hfile, -, hfileOut⟩ := RenderCtx.renderFile_json hreport
    refine ⟨fileObjects :: objects, .cons hfile hobjects, ?_⟩
    rw [List.flatMap_cons, hfileOut, hout, List.flatten_cons, List.flatMap_append]
    rfl

/-- Under `--format=json` a run prints one line for each diagnostic of each checked file, in the
order of the paths, whatever becomes of the census. -/
theorem json_of_runs (hprepare : w.prepare args = .ok (flags, roots))
    (a : w.Answers flags (w.toCheck roots)) (hagent : flags.formatAgent = false)
    (hjson : flags.formatJson = true) {o : RunOutcome} (h : w.Runs args jobs (some o)) :
    ∃ objects, List.Forall₂ (fun file fileObjects ↦
        List.Forall₂ (w.renderCtx file).JsonOf (a.found file).1 fileObjects)
        (w.toCheck roots) objects ∧
      (o.exitCode = 2 ∧
          o.stdout = (objects.flatten.flatMap fun object ↦ w.printJson object ++ ['\n']) ∨
        o.exitCode ≠ 2 ∧
          o.stdout = (objects.flatten.flatMap fun object ↦ w.printJson object ++ ['\n']) ++
            if flags.stats then w.printStats (w.buildProject roots) else []) := by
  obtain ⟨reports, hreports, rfl⟩ := exists_reports hprepare a h
  obtain ⟨objects, hobjects, hout⟩ := exists_objects hagent hjson hreports
  refine ⟨objects, hobjects, ?_⟩
  have hstdout := stdout_finish (w := w) flags (w.buildProject roots) reports
  rwa [footer, hagent, if_neg Bool.false_ne_true, List.nil_append, hout] at hstdout

/-! ### A run of two workers -/

/-- Two files, where the checks of both ask whether the second one has an error. -/
def sampleWorld : CheckWorld SourceFile Bool where
  tryExists _ := .ok true
  buildProject _ := ⟨["a.rb", "b.rb"], [], []⟩
  textOf _ := "x.y\n".toList
  rule file := pure (file == "b.rb")
  checkFile file := .ask "b.rb" fun bad ↦
    pure (if bad && file == "b.rb" then [RenderCtx.sampleDiagnosticAt (2, 3)] else [])
  checkFileDark _ := pure ([], [])
  constraintReport _ := pure [.inferred "x" "Foo" [⟨"y", 2, 3, ["Foo"]⟩]]
  printJson object := object.code.toList
  printDark _ := []
  writeFile _ _ := .ok ()
  printStats _ := []
  rbiFilesParsed := 0

def sampleFlags (agent json : Bool) : CheckFlags := ⟨false, false, agent, json, none⟩

def sampleAnswers (agent json : Bool) (files : List SourceFile) :
    sampleWorld.Answers (sampleFlags agent json) files where
  found file := (if file == "b.rb" then [RenderCtx.sampleDiagnosticAt (2, 3)] else [], [])
  outcomes _ := [.inferred "x" "Foo" [⟨"y", 2, 3, ["Foo"]⟩]]
  found_means _ _ := ⟨_, .ask (means_pure true) (means_pure _)⟩
  outcomes_means _ _ _ := ⟨0, means_pure _⟩

def sampleArgs (format : String) : List Text := [("--format=" ++ format).toList, "app".toList]

def twoJobs : JobSetting := ⟨some "2".toList, none⟩

theorem prepare_agent : sampleWorld.prepare (sampleArgs "agent") =
    .ok (sampleFlags true false, ["app".toList]) := rfl

theorem prepare_json : sampleWorld.prepare (sampleArgs "json") =
    .ok (sampleFlags false true, ["app".toList]) := rfl

theorem toCheck_sample : sampleWorld.toCheck ["app".toList] = ["a.rb", "b.rb"] :=
  List.mergeSort_of_pairwise (by decide)

theorem exists_run_json :
    ∃ o, o.exitCode = 1 ∧ sampleWorld.Runs (sampleArgs "json") twoJobs (some o) := by
  have hrun : sampleWorld.Runs (sampleArgs "json") twoJobs _ :=
    exists_run prepare_json (sampleAnswers false true _)
  rw [toCheck_sample] at hrun
  exact ⟨_, rfl, hrun⟩

theorem exists_run_agent :
    ∃ o, o.exitCode = 1 ∧ sampleWorld.Runs (sampleArgs "agent") twoJobs (some o) := by
  have hrun : sampleWorld.Runs (sampleArgs "agent") twoJobs _ :=
    exists_run prepare_agent (sampleAnswers true false _)
  rw [toCheck_sample] at hrun
  exact ⟨_, rfl, hrun⟩

theorem exitCode_of_runs_sample :
    ∃ file ∈ sampleWorld.toCheck ["app".toList],
      ∃ diag ∈ ((sampleAnswers false true (sampleWorld.toCheck ["app".toList])).found file).1,
        diag.severity = .error := by
  obtain ⟨o, hcode, hrun⟩ := exists_run_json
  obtain ⟨_, -, -, hone⟩ := exitCode_of_runs prepare_json (sampleAnswers false true _) hrun
  exact (hone.mp hcode).2

theorem json_of_runs_sample : ∃ (o : RunOutcome) (objects : List (List JsonDiagnostic)),
    List.Forall₂ (fun file fileObjects ↦
      List.Forall₂ (sampleWorld.renderCtx file).JsonOf
        ((sampleAnswers false true ["a.rb", "b.rb"]).found file).1 fileObjects)
      ["a.rb", "b.rb"] objects ∧
    o.stdout = (objects.flatten.flatMap fun object ↦ sampleWorld.printJson object ++ ['\n']) ∧
    sampleWorld.Runs (sampleArgs "json") twoJobs (some o) := by
  obtain ⟨o, hcode, hrun⟩ := exists_run_json
  obtain ⟨objects, hobjects, hout⟩ :=
    json_of_runs prepare_json (sampleAnswers false true _) rfl rfl hrun
  obtain ⟨-, hout⟩ := hout.resolve_left fun h ↦ absurd (hcode.symm.trans h.1) (by decide)
  rw [toCheck_sample] at hobjects
  exact ⟨o, objects, hobjects, by rw [hout]; exact List.append_nil _, hrun⟩

end CheckWorld

end Itaruby.Command
