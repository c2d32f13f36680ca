import Itaruby.Check.CallStats
import Itaruby.Check.Navigation

/-!
The census of a file: the calls that the walk of a file executes, in order, and what
`check_call` counts for each. The walk enters other bodies for their types; these are in the
sequence too, and count for nothing.
-/

set_option autoImplicit false
set_option relaxedAutoImplicit false

namespace Itaruby

/-- The receiver of a call as the tree has it, as far as its origin depends on it. -/
inductive ReceiverNode
  | absent
  | localRead (name : String)
  | itRead
  | ivarRead
  | constant
  | call (span : Span)
  | other

/-- What `check_call` asks of the index, of the declarations and of the tree around a call. -/
structure CallTables where
  lookupMethodRbi : ClassId → String → MethodLookup
  lookupSingletonRbi : ClassId → String → MethodLookup
  lookupSingletonOwn : ClassId → String → MethodLookup
  inconclusiveReason : ClassId → Bool → Option Blocker
  dslMethodLookup : ClassId → String → Bool → Option Ty
  rbiMethodLookup : ClassId → String → Bool → Option Ty
  /-- `declared_by` of `ActiveRecord::Base` -/
  declaredByActiveRecord : ClassId → Bool
  /-- `AR_API_SINGLETON` and `AR_API_INSTANCE` -/
  arApi : Bool → String → Bool
  /-- `core_method` of the core class of a type -/
  coreMethod : Ty → String → Bool
  /-- `core_method` of `Object` -/
  objectMethod : String → Bool
  /-- the core class is conclusive, and no inventory has the method -/
  coreLacks : Ty → String → Bool
  /-- the call has no receiver, and a `respond_to?` of its name guards it -/
  respondToGuarded : Span → Bool
  receiverNode : Span → ReceiverNode
  /-- what the parameters and the writes so far make of a local that a call is on -/
  localOrigin : Span → String → UnkOrigin
  /-- why the body of the method that a call runs has no type -/
  retCause : Span → Option RetCause

def MethodLookup.isNotFound : MethodLookup → Bool
  | .notFound => true
  | _ => false

/-- The call constructs an instance of a class that has no constructor of its own. -/
def CallTables.constructorUnfound (t : CallTables) (ix : ProjectIndex) (s : CheckState) (site : CallQuery) : Bool :=
  let receiver := Checker.effectiveReceiver s site.receiver
  site.loc ∉ s.assertedSubjects && !(s.blocks.any id && receiver.isSelf) &&
    match receiver.ty with
    | .classOf cls =>
      site.name = "new" &&
        !((ix.classOf cls).path = ["Class"] ∨ (ix.classOf cls).path = ["Struct"]) &&
        (t.lookupSingletonOwn cls "new").isNotFound &&
        (t.lookupMethodRbi cls "initialize").isNotFound
    | _ => false

/-- The counters, and why the calls met so far have no type. -/
structure Census where
  stats : CallStats := {}
  unknownCallSrc : Span → Option (UnkOrigin × Option RetCause) := fun _ ↦ none

namespace Census

variable (c : Census) (t : CallTables)

def tally (silent : Bool) (b : Bucket) : Census :=
  if silent then c else { c with stats := c.stats.tally b }

/-- `note_unknown_origin` -/
def noteUnknownOrigin (silent : Bool) (span : Span) (origin : UnkOrigin)
    (cause : Option RetCause) : Census :=
  if silent then c
  else { c with unknownCallSrc := Function.update c.unknownCallSrc span (some (origin, cause)) }

/-- `unknown_origin` -/
def unknownOrigin : ReceiverNode → Span → UnkOrigin
  | .absent, _ => .other
  | .localRead name, span => t.localOrigin span name
  | .itRead, _ => .blockParam
  | .ivarRead, _ => .ivar
  | .constant, _ => .const
  | .call inner, _ => ((c.unknownCallSrc inner).map Prod.fst).getD .other
  | .other, _ => .other

/-- `unknown_cause` -/
def unknownCause : ReceiverNode → Option RetCause
  | .call inner => (c.unknownCallSrc inner).bind Prod.snd
  | _ => none

/-- `tally_unknown_receiver` -/
def tallyUnknownReceiver (silent : Bool) (span : Span) : Census :=
  let c := c.tally silent .unknownReceiver
  if silent then c
  else
    let node := t.receiverNode span
    let stats := c.stats.tallyOrigin (c.unknownCause node) (c.unknownOrigin t node span)
    noteUnknownOrigin { c with stats } silent span .chain none

/-- `tally_inconclusive` -/
def tallyInconclusive (silent : Bool) (blocker : Option Blocker) : Census :=
  let c := c.tally silent .inconclusive
  if silent then c else { c with stats := c.stats.tallyAncestry blocker }

/-- `tally_ar_base` -/
def tallyArBase (silent : Bool) (blocker : Option Blocker) (cls : ClassId) : Census :=
  if silent then c
  else { c with stats := c.stats.tallyArBase blocker (t.declaredByActiveRecord cls) }

/-- The bucket of `rbi_escalate`, when something declares the method. -/
def rbiEscalate (silent : Bool) (cls : ClassId) (name : String) (singleton : Bool) :
    Option Bucket :=
  if silent then none
  else if (t.dslMethodLookup cls name singleton).isSome then some .dslMethod
  else if (t.rbiMethodLookup cls name singleton).isSome then some .rbiMethod
  else if t.declaredByActiveRecord cls && t.arApi singleton name then some .arApiMethod
  else none

/-- A call that a project class does not conclusively answer. -/
def blocked (silent : Bool) (span : Span) (cls : ClassId) (singleton : Bool) : Census :=
  let blocker := t.inconclusiveReason cls singleton
  let c := (c.tallyInconclusive silent blocker).tallyArBase t silent blocker cls
  c.noteUnknownOrigin silent span .projectRet none

/-- A call whose own type decides whether an origin is noted. -/
def answered (silent : Bool) (span : Span) (origin : UnkOrigin) (cause : Option RetCause)
    (answer : Ty) : Census :=
  if answer = .unknown then c.noteUnknownOrigin silent span origin cause else c

/-- The arm of an instance of a project class. -/
def checkInstance (silent : Bool) (site : CallQuery) (answer : Ty) (cls : ClassId) : Census :=
  match t.lookupMethodRbi cls site.name with
  | .found _ _ =>
    (c.tally silent .resolved).answered silent site.loc .projectRet (t.retCause site.loc) answer
  | .notFound =>
    if t.objectMethod site.name then
      (c.tally silent .core).answered silent site.loc .coreRet none answer
    else if t.respondToGuarded site.loc then
      (c.tallyInconclusive silent none).noteUnknownOrigin silent site.loc .projectRet none
    else (c.tally silent .diagnosed).noteUnknownOrigin silent site.loc .projectRet none
  | .inconclusive =>
    match rbiEscalate t silent cls site.name false with
    | some b => c.tally silent b
    | none => c.blocked t silent site.loc cls false

/-- `new` on a class object: its own `new` first, then `initialize`. -/
def checkNew (silent : Bool) (site : CallQuery) (cls : ClassId) : Census :=
  match t.lookupSingletonOwn cls "new" with
  | .found _ _ => c.tally silent .resolved
  | .inconclusive => c.blocked t silent site.loc cls true
  | .notFound =>
    match t.lookupMethodRbi cls "initialize" with
    | .found _ _ => c.tally silent .resolved
    | .notFound =>
      -- the bucket alone, without a blocker
      (c.tally silent .inconclusive).noteUnknownOrigin silent site.loc .projectRet none
    | .inconclusive =>
      match rbiEscalate t silent cls "initialize" false with
      | some b => c.tally silent b
      | none => c.blocked t silent site.loc cls true

/-- The arm of a class object. -/
def checkClass (ix : ProjectIndex) (silent : Bool) (site : CallQuery) (answer : Ty)
    (cls : ClassId) : Census :=
  if site.name = "new" then
    if (ix.classOf cls).path = ["Class"] ∨ (ix.classOf cls).path = ["Struct"] then
      (c.tally silent .core).noteUnknownOrigin silent site.loc .coreRet none
    else c.checkNew t silent site cls
  else
    match t.lookupSingletonRbi cls site.name with
    | .found _ _ =>
      (c.tally silent .resolved).answered silent site.loc .projectRet (t.retCause site.loc) answer
    | .inconclusive =>
      match rbiEscalate t silent cls site.name true with
      | some b => c.tally silent b
      | none => c.blocked t silent site.loc cls true
    | .notFound => (c.tally silent .diagnosed).noteUnknownOrigin silent site.loc .projectRet none

/-- The arm of a core class. -/
def checkCore (silent : Bool) (site : CallQuery) (answer : Ty) : Census :=
  if t.coreMethod site.receiver.ty site.name || t.objectMethod site.name then
    (c.tally silent .core).answered silent site.loc .coreRet none answer
  else
    let c :=
      if t.coreLacks site.receiver.ty site.name then c.tally silent .diagnosed
      else c.tallyInconclusive silent none
    c.noteUnknownOrigin silent site.loc .coreRet none

/-- What `check_call` counts for a call, in the state after its receiver, its arguments and its
block. -/
def checkCall (ix : ProjectIndex) (silent : Bool) (s : CheckState) (site : CallQuery)
    (answer : Ty) : Census :=
  let site := { site with receiver := Checker.effectiveReceiver s site.receiver }
  if site.loc ∈ s.assertedSubjects then
    (c.tallyInconclusive silent none).noteUnknownOrigin silent site.loc .projectRet none
  else if s.blocks.any id && site.receiver.isSelf then
    (c.tallyInconclusive silent none).noteUnknownOrigin silent site.loc .projectRet none
  else
    match site.receiver.ty with
    | .instanceOf cls => c.checkInstance t silent site answer cls
    | .classOf cls => c.checkClass t ix silent site answer cls
    | .unknown | .union _ => c.tallyUnknownReceiver t silent site.loc
    | _ => c.checkCore t silent site answer

/-! ### What one call counts -/

/-- A call goes to one bucket, with a blocker exactly if nothing is concluded, unless `bare`. -/
def CountsCall (c c' : Census) (bare : Bool) : Prop :=
  ∃ b blamed, c.stats.Counted c'.stats b blamed ∧
    blamed + bare.toNat = if b = .inconclusive then 1 else 0

variable {c t}

@[simp] theorem stats_noteUnknownOrigin {silent : Bool} {span : Span} {origin : UnkOrigin}
    {cause : Option RetCause} : (c.noteUnknownOrigin silent span origin cause).stats = c.stats := by
  unfold noteUnknownOrigin
  split <;> rfl

@[simp] theorem stats_answered {silent : Bool} {span : Span} {origin : UnkOrigin}
    {cause : Option RetCause} {answer : Ty} :
    (c.answered silent span origin cause answer).stats = c.stats := by
  unfold answered
  split
  · exact stats_noteUnknownOrigin
  · rfl

theorem countsCall_tally (b : Bucket) (hne : b ≠ .unknownReceiver := by decide)
    (hb : b ≠ .inconclusive := by decide) : CountsCall c (c.tally false b) false :=
  ⟨b, 0, CallStats.counted_tally b hne, (if_neg hb).symm⟩

theorem countsCall_inconclusive (blocker : Option Blocker) :
    CountsCall c (c.tallyInconclusive false blocker) false :=
  ⟨.inconclusive, 1, CallStats.counted_inconclusive blocker, rfl⟩

theorem countsCall_bare : CountsCall c (c.tally false .inconclusive) true :=
  ⟨.inconclusive, 0, CallStats.counted_tally .inconclusive, rfl⟩

theorem countsCall_unknownReceiver (span : Span) :
    CountsCall c (c.tallyUnknownReceiver t false span) false := by
  refine ⟨.unknownReceiver, 0, ?_, rfl⟩
  simp only [tallyUnknownReceiver, Bool.false_eq_true, if_false, stats_noteUnknownOrigin]
  exact CallStats.counted_origin _ _

theorem CountsCall.of_stats {c' c'' : Census} {bare : Bool} (h : CountsCall c c' bare)
    (hstats : c''.stats = c'.stats) : CountsCall c c'' bare := by
  unfold CountsCall at h ⊢
  rwa [hstats]

theorem countsCall_blocked (span : Span) (cls : ClassId) (singleton : Bool) :
    CountsCall c (c.blocked t false span cls singleton) false := by
  refine ⟨.inconclusive, 1, ?_, rfl⟩
  simp only [blocked, stats_noteUnknownOrigin]
  exact (CallStats.counted_inconclusive _).breaks (CallStats.breaks_tallyArBase _ _)

theorem countsCall_rbiEscalate {cls : ClassId} {name : String} {singleton : Bool} {b : Bucket}
    (h : rbiEscalate t false cls name singleton = some b) : CountsCall c (c.tally false b) false := by
  simp only [rbiEscalate, Bool.false_eq_true, if_false] at h
  split at h
  · cases h
    exact countsCall_tally _
  · split at h
    · cases h
      exact countsCall_tally _
    · split at h
      · cases h
        exact countsCall_tally _
      · cases h

theorem checkInstance_counts (site : CallQuery) (answer : Ty) (cls : ClassId) :
    CountsCall c (c.checkInstance t false site answer cls) false := by
  unfold checkInstance
  split
  · exact (countsCall_tally _).of_stats stats_answered
  · split
    · exact (countsCall_tally _).of_stats stats_answered
    · split
      · exact (countsCall_inconclusive none).of_stats stats_noteUnknownOrigin
      · exact (countsCall_tally _).of_stats stats_noteUnknownOrigin
  · split
    next hsome => exact countsCall_rbiEscalate hsome
    next => exact countsCall_blocked _ _ _

theorem checkNew_counts (site : CallQuery) (cls : ClassId) :
    CountsCall c (c.checkNew t false site cls)
      ((t.lookupSingletonOwn cls "new").isNotFound &&
        (t.lookupMethodRbi cls "initialize").isNotFound) := by
  unfold checkNew
  cases t.lookupSingletonOwn cls "new" with
  | found => exact countsCall_tally _
  | inconclusive => exact countsCall_blocked _ _ _
  | notFound =>
    cases t.lookupMethodRbi cls "initialize" with
    | found => exact countsCall_tally _
    | notFound => exact countsCall_bare.of_stats stats_noteUnknownOrigin
    | inconclusive =>
      simp only
      split
      next hsome => exact countsCall_rbiEscalate hsome
      next => exact countsCall_blocked _ _ _

theorem checkCore_counts (site : CallQuery) (answer : Ty) :
    CountsCall c (c.checkCore t false site answer) false := by
  unfold checkCore
  split
  · exact (countsCall_tally _).of_stats stats_answered
  · split
    · exact (countsCall_tally _).of_stats stats_noteUnknownOrigin
    · exact (countsCall_inconclusive none).of_stats stats_noteUnknownOrigin

theorem checkClass_counts {ix : ProjectIndex} (site : CallQuery) (answer : Ty) (cls : ClassId) :
    CountsCall c (c.checkClass t ix false site answer cls)
      (site.name = "new" &&
        !((ix.classOf cls).path = ["Class"] ∨ (ix.classOf cls).path = ["Struct"]) &&
        (t.lookupSingletonOwn cls "new").isNotFound &&
        (t.lookupMethodRbi cls "initialize").isNotFound) := by
  unfold checkClass
  by_cases hnew : site.name = "new"
  · rw [if_pos hnew]
    by_cases hpath : (ix.classOf cls).path = ["Class"] ∨ (ix.classOf cls).path = ["Struct"]
    · simp only [hnew, hpath, if_true, decide_true, Bool.not_true, Bool.and_false, Bool.false_and]
      exact (countsCall_tally _).of_stats stats_noteUnknownOrigin
    · simp only [hnew, hpath, if_false, decide_true, decide_false, Bool.not_false, Bool.true_and]
      exact checkNew_counts site cls
  · simp only [hnew, if_false, decide_false, Bool.false_and]
    split
    · exact (countsCall_tally _).of_stats stats_answered
    · split
      next hsome => exact countsCall_rbiEscalate hsome
      next => exact countsCall_blocked _ _ _
    · exact (countsCall_tally _).of_stats stats_noteUnknownOrigin

/-- Every exit of `check_call` counts the call once. -/
theorem checkCall_counts (ix : ProjectIndex) (s : CheckState) (site : CallQuery) (answer : Ty) :
    CountsCall c (c.checkCall t ix false s site answer) (t.constructorUnfound ix s site) := by
  simp only [checkCall, CallTables.constructorUnfound]
  by_cases hasserted : site.loc ∈ s.assertedSubjects
  · simp only [hasserted, if_true, not_true_eq_false, decide_false, Bool.false_and]
    exact (countsCall_inconclusive none).of_stats stats_noteUnknownOrigin
  · simp only [hasserted, if_false, not_false_eq_true, decide_true, Bool.true_and]
    cases hrebound : s.blocks.any id && (Checker.effectiveReceiver s site.receiver).isSelf with
    | true =>
      simp only [if_true, Bool.not_true, Bool.false_and]
      exact (countsCall_inconclusive none).of_stats stats_noteUnknownOrigin
    | false =>
      simp only [Bool.false_eq_true, if_false, Bool.not_false, Bool.true_and]
      cases hty : (Checker.effectiveReceiver s site.receiver).ty with
      | instanceOf cls => exact checkInstance_counts _ _ _
      | classOf cls => exact checkClass_counts _ _ _
      | unknown => exact countsCall_unknownReceiver _
      | union parts => exact countsCall_unknownReceiver _
      | _ => exact checkCore_counts _ _

theorem answered_silent {span : Span} {origin : UnkOrigin} {cause : Option RetCause}
    {answer : Ty} : c.answered true span origin cause answer = c := by
  unfold answered
  split <;> rfl

/-- A call of a body that is walked again counts for nothing. -/
theorem checkCall_silent (ix : ProjectIndex) (s : CheckState) (site : CallQuery) (answer : Ty) :
    c.checkCall t ix true s site answer = c := by
  have hinstance : ∀ site cls, c.checkInstance t true site answer cls = c := by
    intro site cls
    unfold checkInstance
    split
    · exact answered_silent
    · split
      · exact answered_silent
      · split <;> rfl
    · rfl
  have hnew : ∀ site cls, c.checkNew t true site cls = c := by
    intro site cls
    unfold checkNew
    split
    · rfl
    · rfl
    · split <;> rfl
  have hclass : ∀ site cls, c.checkClass t ix true site answer cls = c := by
    intro site cls
    unfold checkClass
    split
    · split
      · rfl
      · exact hnew site cls
    · split
      · exact answered_silent
      · rfl
      · rfl
  have hcore : ∀ site, c.checkCore t true site answer = c := by
    intro site
    unfold checkCore
    split
    · exact answered_silent
    · split <;> rfl
  simp only [checkCall]
  split
  · rfl
  · split
    · rfl
    · split
      · exact hinstance _ _
      · exact hclass _ _
      · rfl
      · rfl
      · exact hcore _

end Census

/-! ### The calls of a file -/

/-- A question of a walk: where the body stands, the state it is asked in, and its answer. -/
structure Event where
  frame : Frame
  query : Query
  before : CheckState
  answer : Ty

/-- The call that the event executes. -/
def Event.call? (e : Event) : Option CallQuery :=
  match e.query with
  | .call site => some site
  | _ => none

/-- A call of the walk of the file itself. -/
def Event.primaryCall? (e : Event) : Option CallQuery := if e.frame.silent then none else e.call?

namespace Checker

variable (ck : Checker)

/-- The events of the bodies that answering a question enters. -/
abbrev Tracer := Frame → Query → CheckState → List Event

/-- The events of a walk, each followed by those of the bodies that its answer enters. -/
def tracedRun {α : Type} (back : Back) (entered : Tracer) (frame : Frame) (w : Walk α)
    (s : CheckState) : List Event :=
  (w.trace (back frame) s).flatMap fun (q, s, ty) ↦ ⟨frame, q, s, ty⟩ :: entered frame q s

/-- The events of `check_method_body`. -/
def bodyEvents (back : Back) (entered : Tracer) (cls : Option ClassId) (outer : Option String)
    (frame : Frame) (sig : Option RbsSig) (depth : ℕ) (body : DefBody) (s : CheckState) :
    List Event :=
  let params := ck.paramsWalk cls frame sig depth body
  let outside := { frame with methodName := outer }
  let (env, s') := params.run (back outside) { s with blocks := [] }
  tracedRun back entered outside params { s with blocks := [] } ++
    tracedRun back entered frame (ck.bodyWalk frame depth body.body env) { s' with returns := [] }

/-- The events of `method_return`, if it walks the body. -/
def methodReturnEvents (back : Back) (entered : Tracer) (asker : Frame) (key : MethodKey)
    (m : MethodSig) (depth : ℕ) (s : CheckState) : List Event :=
  if m.sig.isSome || m.arityUnknown || (s.returnMemo key).isSome || key ∈ s.inProgress then []
  else
    match ck.locate m with
    | some body =>
      ck.bodyEvents back entered (some key.cls) asker.methodName
        (ck.methodFrame key.cls key.singleton body.name) m.sig depth body (s.enterMethod key)
    | none => []

/-- The events of `walk_class_ivars`. -/
def walkMethodsEvents (back : Back) (entered : Tracer) (asker : Frame) (cls : ClassId)
    (depth : ℕ) : List MethodSig → CheckState → List Event
  | [], _ => []
  | m :: rest, s =>
    match ck.locate m with
    | some body =>
      let frame := ck.methodFrame cls false body.name
      ck.bodyEvents back entered (some cls) asker.methodName frame m.sig depth body s ++
        walkMethodsEvents back entered asker cls depth rest
          (ck.runBody back (some cls) asker.methodName frame m.sig depth body s).2
    | none => walkMethodsEvents back entered asker cls depth rest s

/-- The events of `ivar_ty`, if it walks the methods of the class. -/
def ivarEvents (back : Back) (entered : Tracer) (asker : Frame) (cls : ClassId) (depth : ℕ)
    (s : CheckState) : List Event :=
  if (s.ivarClassMemo cls).isSome || cls ∈ s.ivarClassInProgress then []
  else ck.walkMethodsEvents back entered asker cls depth (ck.methodsOf cls) (s.enterClass cls)

/-- The events of the bodies that one question enters. -/
def enteredWith (back : Back) (entered : Tracer) (target : Option ℕ) (frame : Frame) :
    Query → CheckState → List Event
  | .call site, s =>
    let site := { site with receiver := effectiveReceiver s site.receiver }
    if site.loc ∈ s.assertedSubjects then []
    else if s.blocks.any id && site.receiver.isSelf then []
    else
      let resolution := ck.resolve frame.scope site
      match resolution.answer with
      | .inl _ => []
      | .inr (key, m) =>
        ck.methodReturnEvents back entered frame key m site.depth
          (maybeGoto target site.msg resolution.target s)
  | .ivar depth _, s =>
    match frame.selfTy with
    | .instanceOf c => ck.ivarEvents back entered frame c depth s
    | _ => []
  | _, _ => []

/-- The events of bodies nested at most `n` deep. -/
def entered (target : Option ℕ) : ℕ → Tracer
  | 0 => fun _ _ _ ↦ []
  | n + 1 => ck.enteredWith (ck.answer target n) (entered target n) target

def statementEvents (back : Back) (entered : Tracer) (scope : List ConstPath)
    (cls : Option ClassId) (e : Expr) (w : Env × CheckState) : List Event :=
  let frame := statementFrame scope cls
  tracedRun back entered frame (e.infer (ck.scene frame) 0 w.1) w.2

mutual

/-- The events of `walk_scope`. -/
def scopeEvents (back : Back) (entered : Tracer) (scope : List ConstPath) (cls : Option ClassId)
    (inSingleton : Bool) : Option Expr → Env × CheckState → List Event
  | none, _ => []
  | some (.sequence statements), w =>
    scopeStmtsEvents back entered scope cls inSingleton statements w
  | some (.beginNode statements _ _ _), w =>
    scopeStmtsEvents back entered scope cls inSingleton statements w
  | some e, w => scopeStmtEvents back entered scope cls inSingleton e w

def scopeStmtsEvents (back : Back) (entered : Tracer) (scope : List ConstPath)
    (cls : Option ClassId) (inSingleton : Bool) : List Expr → Env × CheckState → List Event
  | [], _ => []
  | e :: rest, w =>
    scopeStmtEvents back entered scope cls inSingleton e w ++
      scopeStmtsEvents back entered scope cls inSingleton rest
        (ck.scopeStmt back scope cls inSingleton e w)

def scopeStmtEvents (back : Back) (entered : Tracer) (scope : List ConstPath)
    (cls : Option ClassId) (inSingleton : Bool) : Expr → Env × CheckState → List Event
  | .classNode _ none _, _ => []
  | .classNode _ (some path) body, w =>
    let full := joinPath (scope.getLast?.getD []) path
    scopeEvents back entered (scope ++ [full]) (ck.ix.byPath.lookup full) false body
      (fun _ ↦ none, w.2)
  | .singletonClass ofSelf body, w =>
    if ofSelf then scopeEvents back entered scope cls true body w else []
  | .defNode _ name ofSelf params defaults body, w =>
    let singleton := inSingleton || ofSelf
    ck.bodyEvents back entered cls none (defFrame scope cls name singleton)
      (ck.sigOf cls name singleton) 0 { name, params, defaults, body } w.2
  | e, w => ck.statementEvents back entered scope cls e w

end

/-- The events of the walk of a file. -/
def fileEvents (file : SourceFile) : List Event :=
  ck.scopeEvents (ck.answers none) (ck.entered none 202) [] none false (some (ck.source file))
    (fun _ ↦ none, {})

end Checker

/-! ### The census of a file -/

namespace Census

def step (t : CallTables) (ix : ProjectIndex) (c : Census) (e : Event) : Census :=
  match e.query with
  | .call site => c.checkCall t ix e.frame.silent e.before site e.answer
  | _ => c

/-- The census after some events of a walk. -/
def after (t : CallTables) (ix : ProjectIndex) (events : List Event) : Census :=
  events.foldl (step t ix) {}

end Census

/-- `call_stats` -/
def Checker.callStats (ck : Checker) (t : CallTables) (file : SourceFile) : CallStats :=
  (Census.after t ck.ix (ck.fileEvents file)).stats

/-! ### One event -/

/-- The event constructs an instance of a class that has no constructor of its own. -/
def Event.constructorUnfound (t : CallTables) (ix : ProjectIndex) (e : Event) : Bool :=
  match e.primaryCall? with
  | some site => t.constructorUnfound ix e.before site
  | none => false

section Step

variable {t : CallTables} {ix : ProjectIndex} {c : Census} {e : Event} {events : List Event}

theorem Census.step_of_none (h : e.primaryCall? = none) : c.step t ix e = c := by
  unfold Event.primaryCall? Event.call? at h
  unfold step
  split at h
  next hsilent =>
    split
    · rw [hsilent]
      exact checkCall_silent _ _ _ _
    · rfl
  next =>
    split at h
    next => cases h
    next => rfl

theorem Census.step_counts (t : CallTables) (ix : ProjectIndex) (c : Census)
    {site : CallQuery} (h : e.primaryCall? = some site) :
    CountsCall c (c.step t ix e) (e.constructorUnfound t ix) := by
  have hbare : e.constructorUnfound t ix = t.constructorUnfound ix e.before site := by
    unfold Event.constructorUnfound
    rw [h]
  rw [hbare]
  unfold Event.primaryCall? Event.call? at h
  split at h
  next => cases h
  next hsilent =>
    split at h
    next site' hquery =>
      cases h
      unfold step
      rw [hquery, Bool.eq_false_iff.mpr hsilent]
      exact checkCall_counts _ _ _ _
    next => cases h

theorem Census.after_append {later : List Event} :
    Census.after t ix (events ++ later) = later.foldl (step t ix) (Census.after t ix events) :=
  List.foldl_append

/-! ### The sums -/

theorem CallStats.total_eq (s : CallStats) : s.total = s.count .resolved + s.count .core +
    s.count .rbiMethod + s.count .dslMethod + s.count .arApiMethod + s.count .inconclusive +
      s.count .unknownReceiver + s.count .diagnosed := rfl

theorem CallStats.Counted.total {s s' : CallStats} {b : Bucket} {blamed : ℕ}
    (h : Counted s s' b blamed) : s'.total = s.total + 1 := by
  rw [total_eq, total_eq]
  simp only [h.count]
  cases b
  all_goals
    simp
    try omega

/-- The breakdowns of the calls on receivers of unknown type add up. -/
def CallStats.BrokenDown (s : CallStats) : Prop :=
  s.unkSum = s.unknownReceiver ∧ s.retSum = s.unkProjectRet

theorem CallStats.Counted.brokenDown {s s' : CallStats} {b : Bucket} {blamed : ℕ}
    (h : Counted s s' b blamed) (hs : s.BrokenDown) : s'.BrokenDown := by
  have hcount : s'.unknownReceiver = _ := h.count .unknownReceiver
  have hunk := h.unkSum
  have hret := h.retSum
  obtain ⟨horigin, hcause⟩ := hs
  refine ⟨?_, by omega⟩
  rw [hunk, horigin, hcount]
  by_cases hb : b = .unknownReceiver
  · rw [if_pos hb, if_pos hb.symm]
    rfl
  · rw [if_neg hb, if_neg (Ne.symm hb)]
    rfl

theorem Census.brokenDown_after (events : List Event) :
    (Census.after t ix events).stats.BrokenDown := by
  induction events using List.reverseRecOn with
  | nil => exact ⟨rfl, rfl⟩
  | append_singleton events e ih =>
    rw [after_append, List.foldl_cons, List.foldl_nil]
    cases h : e.primaryCall? with
    | none => rwa [step_of_none h]
    | some site =>
      obtain ⟨b, blamed, hcounted, -⟩ := step_counts t ix (after t ix events) h
      exact hcounted.brokenDown ih

/-- The total is the number of calls of the primary walk. -/
theorem Census.total_after (events : List Event) :
    (Census.after t ix events).stats.total = (events.filterMap Event.primaryCall?).length := by
  induction events using List.reverseRecOn with
  | nil => rfl
  | append_singleton events e ih =>
    rw [after_append, List.foldl_cons, List.foldl_nil, List.filterMap_append, List.length_append,
      ← ih]
    cases h : e.primaryCall? with
    | none => simp [step_of_none h, h]
    | some site =>
      obtain ⟨b, blamed, hcounted, -⟩ := step_counts t ix (after t ix events) h
      simp [hcounted.total, h]

/-- The calls that conclude nothing and name no blocker are the bare constructors. -/
theorem Census.inconclusive_after (t : CallTables) (ix : ProjectIndex) (events : List Event) :
    (Census.after t ix events).stats.inconclusive =
      (Census.after t ix events).stats.ancSum + events.countP (Event.constructorUnfound t ix) := by
  induction events using List.reverseRecOn with
  | nil => rfl
  | append_singleton events e ih =>
    rw [after_append, List.foldl_cons, List.foldl_nil, List.countP_append]
    cases h : e.primaryCall? with
    | none =>
      have hbare : e.constructorUnfound t ix = false := by
        unfold Event.constructorUnfound
        rw [h]
      simp [step_of_none h, hbare, ih]
    | some site =>
      obtain ⟨b, blamed, hcounted, hblamed⟩ := step_counts t ix (after t ix events) h
      have hcount := hcounted.count .inconclusive
      have hanc := hcounted.ancSum
      simp only [CallStats.count] at hcount
      rw [hcount, hanc, ih]
      cases hbare : e.constructorUnfound t ix
      all_goals
        rw [hbare] at hblamed
        simp only [eq_comm (a := b), Bool.toNat_true, Bool.toNat_false] at hblamed
        simp [hbare]
        omega

end Step

namespace Checker

/-! ### The walk of the file among its events -/

section Primary

variable {ck : Checker} {back : Back} {entered : Tracer} {frame : Frame} {s : CheckState}

/-- Only bodies that are walked again are entered. -/
def Tracer.Silent (entered : Tracer) : Prop :=
  ∀ frame q s, ∀ e ∈ entered frame q s, e.frame.silent = true

theorem tracedRun_silent {α : Type} {w : Walk α} (h : entered.Silent) (hframe : frame.silent = true)
    {e : Event} (he : e ∈ tracedRun back entered frame w s) : e.frame.silent = true := by
  obtain ⟨⟨q, s', ty⟩, -, he⟩ := List.mem_flatMap.mp he
  rcases List.mem_cons.mp he with rfl | he
  · exact hframe
  · exact h frame q s' e he

theorem bodyEvents_silent {cls : Option ClassId} {outer : Option String} {sig : Option RbsSig}
    {depth : ℕ} {body : DefBody} (h : entered.Silent) (hframe : frame.silent = true) {e : Event}
    (he : e ∈ ck.bodyEvents back entered cls outer frame sig depth body s) :
    e.frame.silent = true := by
  have houtside : ({ frame with methodName := outer } : Frame).silent = true := hframe
  rcases List.mem_append.mp he with he | he
  · exact tracedRun_silent h houtside he
  · exact tracedRun_silent h hframe he

theorem walkMethodsEvents_silent {cls : ClassId} {depth : ℕ} (h : entered.Silent)
    (methods : List MethodSig) {e : Event}
    (he : e ∈ ck.walkMethodsEvents back entered frame cls depth methods s) :
    e.frame.silent = true := by
  induction methods generalizing s with
  | nil => cases he
  | cons m rest ih =>
    simp only [walkMethodsEvents] at he
    split at he
    next =>
      rcases List.mem_append.mp he with he | he
      · exact bodyEvents_silent h rfl he
      · exact ih he
    next => exact ih he

theorem enteredWith_silent {target : Option ℕ} (h : entered.Silent) :
    Tracer.Silent (ck.enteredWith back entered target) := by
  intro frame q s e he
  cases q with
  | call site =>
    simp only [enteredWith] at he
    split at he
    next => cases he
    next =>
      split at he
      next => cases he
      next =>
        split at he
        next => cases he
        next =>
          unfold methodReturnEvents at he
          split at he
          next => cases he
          next =>
            split at he
            next => exact bodyEvents_silent h rfl he
            next => cases he
  | ivar depth name =>
    simp only [enteredWith] at he
    split at he
    next =>
      unfold ivarEvents at he
      split at he
      next => cases he
      next => exact walkMethodsEvents_silent h _ he
    next => cases he
  | _ => cases he

theorem entered_silent (ck : Checker) (target : Option ℕ) (n : ℕ) :
    Tracer.Silent (ck.entered target n) := by
  induction n with
  | zero => exact fun _ _ _ _ he ↦ nomatch he
  | succ n ih => exact enteredWith_silent ih

/-- The events of the walk of a file, without those of the bodies that it enters. -/
def primaryEvents (ck : Checker) (file : SourceFile) : List Event :=
  ck.scopeEvents (ck.answers none) (fun _ _ _ ↦ []) [] none false (some (ck.source file))
    (fun _ ↦ none, {})

/-- The calls of the walk of the file itself are those that count. -/
abbrev SameCalls (events primary : List Event) : Prop :=
  events.filterMap Event.primaryCall? = primary.filterMap Event.call?

theorem SameCalls.append {events primary events' primary' : List Event}
    (h : SameCalls events primary) (h' : SameCalls events' primary') :
    SameCalls (events ++ events') (primary ++ primary') := by
  rw [SameCalls, List.filterMap_append, List.filterMap_append, h, h']

theorem filterMap_primaryCall_of_silent {events : List Event}
    (h : ∀ e ∈ events, e.frame.silent = true) : events.filterMap Event.primaryCall? = [] := by
  refine List.filterMap_eq_nil_iff.mpr fun e he ↦ ?_
  unfold Event.primaryCall?
  rw [if_pos (h e he)]

theorem tracedRun_calls {α : Type} {w : Walk α} (h : entered.Silent)
    (hframe : frame.silent = false) :
    SameCalls (tracedRun back entered frame w s) (tracedRun back (fun _ _ _ ↦ []) frame w s) := by
  unfold tracedRun
  induction w.trace (back frame) s with
  | nil => rfl
  | cons first rest ih =>
    obtain ⟨q, s', ty⟩ := first
    rw [List.flatMap_cons, List.flatMap_cons]
    refine SameCalls.append ?_ ih
    have hnone := filterMap_primaryCall_of_silent (h frame q s')
    have hfirst : Event.primaryCall? ⟨frame, q, s', ty⟩ = Event.call? ⟨frame, q, s', ty⟩ := by
      unfold Event.primaryCall?
      rw [hframe]
      rfl
    simp only [SameCalls, List.filterMap_cons, hfirst, hnone, List.filterMap_nil]

theorem bodyEvents_calls {cls : Option ClassId} {outer : Option String} {sig : Option RbsSig}
    {depth : ℕ} {body : DefBody} (h : entered.Silent) (hframe : frame.silent = false) :
    SameCalls (ck.bodyEvents back entered cls outer frame sig depth body s)
      (ck.bodyEvents back (fun _ _ _ ↦ []) cls outer frame sig depth body s) := by
  have houtside : ({ frame with methodName := outer } : Frame).silent = false := hframe
  exact (tracedRun_calls h houtside).append (tracedRun_calls h hframe)

mutual

theorem scopeEvents_calls (h : entered.Silent) {scope : List ConstPath} {cls : Option ClassId}
    {inSingleton : Bool} : (body : Option Expr) → ∀ w,
    SameCalls (ck.scopeEvents back entered scope cls inSingleton body w)
      (ck.scopeEvents back (fun _ _ _ ↦ []) scope cls inSingleton body w)
  | none, _ => rfl
  | some e, w => by
    cases e
    case sequence statements => exact scopeStmtsEvents_calls h statements w
    case beginNode statements _ _ _ => exact scopeStmtsEvents_calls h statements w
    case classNode m path body => exact scopeStmtEvents_calls h _ (.classNode m path body) w
    case singletonClass m body => exact scopeStmtEvents_calls h inSingleton (.singletonClass m body) w
    case defNode loc name ofSelf params defaults body =>
      exact scopeStmtEvents_calls h _ (.defNode loc name ofSelf params defaults body) w
    all_goals exact tracedRun_calls h rfl

theorem scopeStmtsEvents_calls (h : entered.Silent) {scope : List ConstPath}
    {cls : Option ClassId} {inSingleton : Bool} : (statements : List Expr) → ∀ w,
    SameCalls (ck.scopeStmtsEvents back entered scope cls inSingleton statements w)
      (ck.scopeStmtsEvents back (fun _ _ _ ↦ []) scope cls inSingleton statements w)
  | [], _ => rfl
  | e :: rest, w => (scopeStmtEvents_calls h _ e w).append (scopeStmtsEvents_calls h rest _)

theorem scopeStmtEvents_calls (h : entered.Silent) {scope : List ConstPath}
    {cls : Option ClassId} (inSingleton : Bool) : (e : Expr) → ∀ w,
    SameCalls (ck.scopeStmtEvents back entered scope cls inSingleton e w)
      (ck.scopeStmtEvents back (fun _ _ _ ↦ []) scope cls inSingleton e w)
  | e, w => by
    cases e
    case classNode m path body =>
      cases path with
      | none => rfl
      | some path => exact scopeEvents_calls h body _
    case singletonClass ofSelf body =>
      cases ofSelf with
      | true => exact scopeEvents_calls h body _
      | false => rfl
    case defNode => exact bodyEvents_calls h rfl
    all_goals exact tracedRun_calls h rfl

end

end Primary

variable (ck : Checker) (t : CallTables) (file : SourceFile)

/-- The blockers add up to the calls that conclude nothing, exactly when every class that the file
instantiates conclusively has or may have a constructor. -/
theorem ancSum_eq_inconclusive_iff :
    (ck.callStats t file).ancSum = (ck.callStats t file).inconclusive ↔
      ∀ e ∈ ck.fileEvents file, e.constructorUnfound t ck.ix = false := by
  have hcount := Census.inconclusive_after t ck.ix (ck.fileEvents file)
  unfold callStats
  rw [hcount]
  have hzero := List.countP_eq_zero (p := Event.constructorUnfound t ck.ix)
    (l := ck.fileEvents file)
  simp only [Bool.not_eq_true] at hzero
  rw [← hzero]
  omega

/-- A project that reads no declarations, whose classes answer nothing. -/
def closedTables : CallTables where
  lookupMethodRbi _ _ := .notFound
  lookupSingletonRbi _ _ := .notFound
  lookupSingletonOwn _ _ := .notFound
  inconclusiveReason _ _ := none
  dslMethodLookup _ _ _ := none
  rbiMethodLookup _ _ _ := none
  declaredByActiveRecord _ := false
  arApi _ _ := false
  coreMethod _ _ := false
  objectMethod _ := false
  coreLacks _ _ := false
  respondToGuarded _ := false
  receiverNode _ := .constant
  localOrigin _ _ := .other
  retCause _ := none

/-- An empty class and, at 14, an object of it. -/
def emptyBox : Checker :=
  plain { classes := [{ path := ["Box"], nesting := [["Box"]] }],
          byPath := [⟨["Box"], 0⟩].toAList }
    fun _ ↦ .sequence [.classNode false (some ["Box"]) none,
      .callNode (14, 21) (18, 21) (some (.constant (some ["Box"]))) "new" [] [] none]

/-- The object is counted as inconclusive, and no blocker is. -/
theorem emptyBox_blockers_do_not_add_up : ¬ ∀ (ck : Checker) (t : CallTables) (file : SourceFile),
    (ck.callStats t file).ancSum = (ck.callStats t file).inconclusive := by
  intro h
  have hbox := h emptyBox closedTables "box.rb"
  have hinconclusive : (emptyBox.callStats closedTables "box.rb").inconclusive = 1 := by
    decide +kernel
  have hblockers : (emptyBox.callStats closedTables "box.rb").ancSum = 0 := by
    decide +kernel
  rw [hinconclusive, hblockers] at hbox
  cases hbox

/-- Every call of the walk of a file is counted in one bucket, and no call of the bodies that it
enters is; the breakdowns add up all the time. -/
theorem one_bucket_per_call :
    (∀ before e later, ck.fileEvents file = before ++ e :: later →
      (e.primaryCall?.isSome → ∃ b, ∀ b', (Census.after t ck.ix (before ++ [e])).stats.count b' =
        (Census.after t ck.ix before).stats.count b' + if b' = b then 1 else 0) ∧
      (e.primaryCall? = none → (Census.after t ck.ix (before ++ [e])).stats =
        (Census.after t ck.ix before).stats) ∧
      (Census.after t ck.ix before).stats.BrokenDown) ∧
    (ck.callStats t file).BrokenDown ∧
    (ck.callStats t file).total = ((ck.primaryEvents file).filterMap Event.call?).length := by
  refine ⟨fun before e later _ ↦ ⟨fun hsome ↦ ?_, fun hnone ↦ ?_, Census.brokenDown_after before⟩,
    Census.brokenDown_after _, ?_⟩
  · obtain ⟨site, hsite⟩ := Option.isSome_iff_exists.mp hsome
    obtain ⟨b, blamed, hcounted, -⟩ :=
      Census.step_counts t ck.ix (Census.after t ck.ix before) hsite
    refine ⟨b, fun b' ↦ ?_⟩
    rw [Census.after_append]
    exact hcounted.count b'
  · rw [Census.after_append, List.foldl_cons, List.foldl_nil, Census.step_of_none hnone]
  · rw [callStats, Census.total_after]
    exact congrArg List.length (scopeEvents_calls (entered_silent ck none 202) _ _)

end Checker

end Itaruby
