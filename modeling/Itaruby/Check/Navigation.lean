import Itaruby.Check.Reads
import Itaruby.Check.Session
import Itaruby.Syntax.Node

/-!
Going to a definition: the walk of a file with a cursor in it, and what the bodies that the
walk enters on the way to a type have to do with the answer.
-/

set_option autoImplicit false
set_option relaxedAutoImplicit false

namespace Itaruby

namespace Checker

variable (ck : Checker)

/-! ### The walk of a file -/

/-- `sig_of` -/
def sigOf (cls : Option ClassId) (name : String) (singleton : Bool) : Option RbsSig := do
  let c := ck.ix.classOf (← cls)
  let m ← (if singleton then c.singletonMethods else c.methods).lookup name
  m.sig

/-- `self_ty_of` -/
def selfTyOf (cls : Option ClassId) (singleton : Bool) : SelfTy :=
  match cls with
  | some c => if singleton then .classOf c else .instanceOf c
  | none => .unknown

/-- The frame of a statement that stands in no method. -/
def statementFrame (scope : List ConstPath) (cls : Option ClassId) : Frame where
  selfTy := match cls with
    | some c => if scope = [] then .unknown else .classOf c
    | none => .unknown
  scope

def defFrame (scope : List ConstPath) (cls : Option ClassId) (name : String) (singleton : Bool) :
    Frame where
  selfTy := selfTyOf cls singleton
  scope
  methodName := some name

/-- A statement that stands in no method. -/
def runStatement (back : Back) (scope : List ConstPath) (cls : Option ClassId) (e : Expr)
    (w : Env × CheckState) : Env × CheckState :=
  let frame := statementFrame scope cls
  let (result, s) := (e.infer (ck.scene frame) 0 w.1).run (back frame) w.2
  (result.2, s)

mutual

/-- `walk_scope`, of what a class, a module or the program holds. -/
def walkScope (back : Back) (scope : List ConstPath) (cls : Option ClassId) (inSingleton : Bool) :
    Option Expr → Env × CheckState → Env × CheckState
  | none, w => w
  | some (.sequence statements), w => scopeStmts back scope cls inSingleton statements w
  | some (.beginNode statements _ _ _), w => scopeStmts back scope cls inSingleton statements w
  | some e, w => scopeStmt back scope cls inSingleton e w

def scopeStmts (back : Back) (scope : List ConstPath) (cls : Option ClassId)
    (inSingleton : Bool) : List Expr → Env × CheckState → Env × CheckState
  | [], w => w
  | e :: rest, w =>
    scopeStmts back scope cls inSingleton rest (scopeStmt back scope cls inSingleton e w)

/-- `scope_stmt` -/
def scopeStmt (back : Back) (scope : List ConstPath) (cls : Option ClassId)
    (inSingleton : Bool) : Expr → Env × CheckState → Env × CheckState
  | .classNode _ none _, w => w
  | .classNode _ (some path) body, w =>
    let full := joinPath (scope.getLast?.getD []) path
    let (_, s) := walkScope back (scope ++ [full]) (ck.ix.byPath.lookup full) false body
      (fun _ ↦ none, w.2)
    (w.1, s)
  | .singletonClass ofSelf body, w =>
    if ofSelf then walkScope back scope cls true body w else w
  | .defNode _ name ofSelf params defaults body, w =>
    let singleton := inSingleton || ofSelf
    (w.1, (ck.runBody back cls none (defFrame scope cls name singleton)
      (ck.sigOf cls name singleton) 0 { name, params, defaults, body } w.2).2)
  | e, w => ck.runStatement back scope cls e w

end

/-- The program is a scope of its own. -/
def walkFile (back : Back) (file : SourceFile) : CheckState :=
  (ck.walkScope back [] none false (some (ck.source file)) (fun _ ↦ none, {})).2

/-- `definition_at` -/
def definitionAt (file : SourceFile) (offset : ℕ) : Option DefSite :=
  (ck.walkFile (ck.answers (some offset)) file).gotoFound

/-- The same walk, when the bodies it enters for a type do not look for the cursor. -/
def ownDefinitionAt (file : SourceFile) (offset : ℕ) : Option DefSite :=
  (ck.walkFile (ck.answerWith (ck.answer none 201) (some offset)) file).gotoFound

/-! ### Which questions the walk may ask -/

/-- The questions of a method's body, the frame of each with it. -/
def BodyAsks (cls : Option ClassId) (outer : Option String) (frame : Frame) (sig : Option RbsSig)
    (depth : ℕ) (body : DefBody) (frame' : Frame) (q : Query) : Prop :=
  (frame' = { frame with methodName := outer } ∧
    (ck.paramsWalk cls frame sig depth body).Asks q) ∨
  (frame' = frame ∧ ∃ env, (ck.bodyWalk frame depth body.body env).Asks q)

mutual

def ScopeAsks (frame : Frame) (q : Query) (scope : List ConstPath) (cls : Option ClassId)
    (inSingleton : Bool) : Option Expr → Prop
  | none => False
  | some (.sequence statements) => StmtsAsk frame q scope cls inSingleton statements
  | some (.beginNode statements _ _ _) => StmtsAsk frame q scope cls inSingleton statements
  | some e => StmtAsks frame q scope cls inSingleton e

def StmtsAsk (frame : Frame) (q : Query) (scope : List ConstPath) (cls : Option ClassId)
    (inSingleton : Bool) : List Expr → Prop
  | [] => False
  | e :: rest => StmtAsks frame q scope cls inSingleton e ∨
    StmtsAsk frame q scope cls inSingleton rest

/-- A statement of a scope, or a method in it, asks the question in the frame. -/
def StmtAsks (frame : Frame) (q : Query) (scope : List ConstPath) (cls : Option ClassId)
    (inSingleton : Bool) : Expr → Prop
  | .classNode _ none _ => False
  | .classNode _ (some path) body =>
    let full := joinPath (scope.getLast?.getD []) path
    ScopeAsks frame q (scope ++ [full]) (ck.ix.byPath.lookup full) false body
  | .singletonClass ofSelf body => ofSelf = true ∧ ScopeAsks frame q scope cls true body
  | .defNode _ name ofSelf params defaults body =>
    let singleton := inSingleton || ofSelf
    ck.BodyAsks cls none (defFrame scope cls name singleton) (ck.sigOf cls name singleton) 0
      { name, params, defaults, body } frame q
  | e => frame = statementFrame scope cls ∧ ∃ env, (e.infer (ck.scene frame) 0 env).Asks q

end

def FileAsks (file : SourceFile) (frame : Frame) (q : Query) : Prop :=
  ck.ScopeAsks frame q [] none false (some (ck.source file))

/-! ### Where the questions stand -/

section Sources

variable {ck} {S : Expr → Prop}

open Inquiry Expr

theorem keywordEnv_only {cls : Option ClassId} {scene : Scene} {scope : List ConstPath}
    {sig : Option RbsSig} {depth : ℕ} (keywords : List (String × Bool)) (defaults : List Expr)
    (env : Env) (h : ∀ n ∈ readsEach defaults, S n) :
    Only (AskedBy S) (ck.keywordEnv cls scene scope sig depth keywords defaults env) := by
  induction keywords generalizing defaults env with
  | nil => exact only_pure
  | cons keyword rest ih =>
    obtain ⟨name, hasDefault⟩ := keyword
    cases hasDefault with
    | false => exact ih defaults _ h
    | true =>
      cases defaults with
      | nil => exact only_pure.bind fun _ ↦ ih [] _ h
      | cons value defaults =>
        simp only [readsEach, List.forall_mem_append, List.forall_mem_cons] at h
        exact (infer_only depth env value h.1.1 h.1.2).bind fun _ ↦ ih defaults _ h.2

theorem BodyAsks.askedBy {cls : Option ClassId} {outer : Option String} {frame frame' : Frame}
    {sig : Option RbsSig} {depth : ℕ} {body : DefBody} {q : Query}
    (hasks : ck.BodyAsks cls outer frame sig depth body frame' q)
    (hdefaults : ∀ n ∈ readsEach body.defaults, S n) (hbody : ∀ n ∈ readsOpt body.body, S n) :
    AskedBy S q := by
  rcases hasks with ⟨_, hq⟩ | ⟨_, env, hq⟩
  · exact ((keywordEnv_only _ _ _ hdefaults).bind fun _ ↦ only_pure) q hq
  · exact ((inferOpt_only depth env body.body hbody).bind fun _ ↦ only_pure) q hq

mutual

theorem ScopeAsks.askedBy {frame : Frame} {q : Query} {scope : List ConstPath}
    {cls : Option ClassId} {inSingleton : Bool} : (body : Option Expr) →
    ck.ScopeAsks frame q scope cls inSingleton body → (∀ n ∈ readsOpt body, S n) → AskedBy S q
  | none, hasks, _ => hasks.elim
  | some e, hasks, h => by
    simp only [readsOpt, List.forall_mem_cons] at h
    cases e
    case sequence statements => exact StmtsAsk.askedBy statements hasks h.2
    case beginNode statements _ _ _ =>
      simp only [reads, List.forall_mem_append] at h
      exact StmtsAsk.askedBy statements hasks h.2.1.1.1
    case classNode m path body => exact StmtAsks.askedBy _ (.classNode m path body) hasks h.1 h.2
    case singletonClass m body =>
      exact StmtAsks.askedBy inSingleton (.singletonClass m body) hasks h.1 h.2
    case defNode loc name ofSelf params defaults body =>
      exact StmtAsks.askedBy _ (.defNode loc name ofSelf params defaults body) hasks h.1 h.2
    all_goals
      obtain ⟨_, env, hq⟩ := hasks
      exact infer_only 0 env _ h.1 h.2 q hq

theorem StmtsAsk.askedBy {frame : Frame} {q : Query} {scope : List ConstPath}
    {cls : Option ClassId} {inSingleton : Bool} : (statements : List Expr) →
    ck.StmtsAsk frame q scope cls inSingleton statements → (∀ n ∈ readsEach statements, S n) →
    AskedBy S q
  | [], hasks, _ => hasks.elim
  | e :: rest, hasks, h => by
    simp only [readsEach, List.forall_mem_append, List.forall_mem_cons] at h
    rcases hasks with hasks | hasks
    · exact StmtAsks.askedBy _ e hasks h.1.1 h.1.2
    · exact StmtsAsk.askedBy rest hasks h.2

theorem StmtAsks.askedBy {frame : Frame} {q : Query} {scope : List ConstPath}
    {cls : Option ClassId} (inSingleton : Bool) : (e : Expr) →
    ck.StmtAsks frame q scope cls inSingleton e → S e → (∀ n ∈ e.reads, S n) → AskedBy S q
  | e, hasks, hself, h => by
    cases e
    case classNode m path body =>
      cases path with
      | none => exact hasks.elim
      | some path => exact ScopeAsks.askedBy body hasks h
    case singletonClass ofSelf body => exact ScopeAsks.askedBy body hasks.2 h
    case defNode loc name ofSelf params defaults body =>
      simp only [reads, List.forall_mem_append] at h
      exact BodyAsks.askedBy hasks h.1 h.2
    all_goals
      obtain ⟨_, env, hq⟩ := hasks
      exact infer_only 0 env _ hself h q hq

end

/-- What the walk of a file asks, some expression that it reads in the file asks. -/
theorem FileAsks.askedBy {file : SourceFile} {frame : Frame} {q : Query}
    (h : ck.FileAsks file frame q) :
    AskedBy (· ∈ ck.source file :: (ck.source file).reads) q :=
  ScopeAsks.askedBy (some (ck.source file)) h fun _ hn ↦ hn

end Sources

/-! ### The bodies entered -/

/-- The bodies that the answer to a question may enter, and what they may ask. A receiver that
a guard proved to be a class object is resolved without its type. -/
inductive Enters (frame : Frame) : Query → Frame → Query → Prop
  | call {site : CallQuery} {receiver : Receiver} {key : MethodKey} {m : MethodSig}
      {body : DefBody} {frame' : Frame} {q : Query}
      (hreceiver : receiver = site.receiver ∨ receiver = { site.receiver with ty := .unknown })
      (hresolve : (ck.resolve frame.scope { site with receiver }).answer = .inr (key, m))
      (hsig : m.sig = none) (hbody : ck.locate m = some body)
      (hasks : ck.BodyAsks (some key.cls) frame.methodName
        (ck.methodFrame key.cls key.singleton body.name) m.sig site.depth body frame' q) :
      Enters frame (.call site) frame' q
  | ivar {depth : ℕ} {name : String} {c : ClassId} {m : MethodSig} {body : DefBody}
      {frame' : Frame} {q : Query} (hself : frame.selfTy = .instanceOf c)
      (hm : m ∈ ck.methodsOf c) (hbody : ck.locate m = some body)
      (hasks : ck.BodyAsks (some c) frame.methodName (ck.methodFrame c false body.name) m.sig
        depth body frame' q) :
      Enters frame (.ivar depth name) frame' q

/-- The questions of the bodies entered, at any depth, on the way to answers. -/
inductive Within (frame : Frame) (q : Query) : Frame → Query → Prop
  | entered {frame' : Frame} {q' : Query} (h : ck.Enters frame q frame' q') :
      Within frame q frame' q'
  | deeper {frame' frame'' : Frame} {q' q'' : Query} (h : Within frame q frame' q')
      (h' : ck.Enters frame' q' frame'' q'') : Within frame q frame'' q''

theorem Within.after {ck : Checker} {frame frame' frame'' : Frame} {q q' q'' : Query}
    (h : ck.Within frame' q' frame'' q'') (henters : ck.Enters frame q frame' q') :
    ck.Within frame q frame'' q'' := by
  induction h with
  | entered h => exact .deeper (.entered henters) h
  | deeper _ h ih => exact .deeper ih h

theorem Within.first {ck : Checker} {frame frame' : Frame} {q q' : Query}
    (h : ck.Within frame q frame' q') : ∃ frame'' q'', ck.Enters frame q frame'' q'' := by
  induction h with
  | entered h => exact ⟨_, _, h⟩
  | deeper _ _ ih => exact ih

/-- The question is about a call or a `super` at the span, which resolves to the method. -/
def Shows (frame : Frame) (span : Span) (m : MethodSig) : Query → Prop
  | .call site => site.msg = span ∧ ∃ receiver : Receiver,
      (receiver = site.receiver ∨ receiver = { site.receiver with ty := .unknown }) ∧
      (ck.resolve frame.scope { site with receiver }).target = some m
  | .superCall span' => span' = span ∧ ck.superSite frame = some m
  | _ => False

/-- What the bodies entered on the way show at the cursor is what the file shows there
itself. -/
def Undisturbed (file : SourceFile) (offset : ℕ) : Prop :=
  ∀ frame q, ck.FileAsks file frame q → ∀ frame' q', ck.Within frame q frame' q' →
    ∀ span m, ck.Shows frame' span m q' → atCursor (some offset) span →
      ck.ownDefinitionAt file offset = some m.site

/-- Navigation answers from the file: the bodies entered on the way do not matter, and the site is
what a call or `super` that the walk reads at the cursor resolves to where it stands. -/
def AnswersFromFile (file : SourceFile) (offset : ℕ) : Prop :=
  ck.definitionAt file offset = ck.ownDefinitionAt file offset ∧
  ∀ site, ck.definitionAt file offset = some site →
    ∃ e ∈ ck.source file :: (ck.source file).reads, ∃ frame q span m, e.MayAsk q ∧
      ck.FileAsks file frame q ∧ ck.Shows frame span m q ∧ atCursor (some offset) span ∧
      m.site = site

/-! ### Runs -/

/-- Two states that differ at most in the answer, the answers being related. -/
structure Alike (P : Option DefSite → Option DefSite → Prop) (s t : CheckState) : Prop where
  same : s = { t with gotoFound := s.gotoFound }
  found : P s.gotoFound t.gotoFound

/-- The answerers give the same types, and leave like states alike. -/
def Keeps (P : Option DefSite → Option DefSite → Prop)
    (ask ask' : CheckState → Ty × CheckState) : Prop :=
  ∀ s t, Alike P s t → (ask s).1 = (ask' t).1 ∧ Alike P (ask s).2 (ask' t).2

section Runs

variable {ck} {back back' : Back} {P : Option DefSite → Option DefSite → Prop}

namespace Alike

variable {s t : CheckState}

theorem update (h : Alike P s t) (f : CheckState → CheckState)
    (hf : ∀ u g, f { u with gotoFound := g } = { f u with gotoFound := g } := by
      intros; rfl)
    (hfound : ∀ u, (f u).gotoFound = u.gotoFound := by intros; rfl) : Alike P (f s) (f t) := by
  refine ⟨?_, ?_⟩
  · rw [hfound]
    conv_lhs => rw [h.same, hf]
  · rw [hfound, hfound]
    exact h.found

end Alike

theorem runBody_keeps {cls : Option ClassId} {outer : Option String} {frame : Frame}
    {sig : Option RbsSig} {depth : ℕ} {body : DefBody}
    (hstep : ∀ frame' q, ck.BodyAsks cls outer frame sig depth body frame' q →
      Keeps P (back frame' q) (back' frame' q)) :
    Keeps P (ck.runBody back cls outer frame sig depth body)
      (ck.runBody back' cls outer frame sig depth body) := by
  intro s t hst
  have hparams := Inquiry.run_related (back { frame with methodName := outer })
    (back' { frame with methodName := outer })
    (fun q hq ↦ hstep _ q (Or.inl ⟨rfl, hq⟩)) (hst.update ({ · with blocks := [] }))
  simp only [runBody]
  set ps := (ck.paramsWalk cls frame sig depth body).run (back { frame with methodName := outer })
    { s with blocks := [] }
  set pt := (ck.paramsWalk cls frame sig depth body).run
    (back' { frame with methodName := outer }) { t with blocks := [] }
  rw [hparams.1]
  have hbody := Inquiry.run_related (back frame) (back' frame)
    (w := ck.bodyWalk frame depth body.body pt.1)
    (fun q hq ↦ hstep _ q (Or.inr ⟨rfl, pt.1, hq⟩)) (hparams.2.update ({ · with returns := [] }))
  have hreturns := congrArg CheckState.returns hbody.2.same
  have houter := congrArg CheckState.returns hparams.2.same
  have hblocks := congrArg CheckState.blocks hst.same
  simp only at hreturns houter hblocks
  refine ⟨?_, ?_⟩
  · rw [hbody.1, hreturns]
  · rw [hblocks, houter]
    exact hbody.2.update ({ · with returns := pt.2.returns, blocks := t.blocks })

theorem methodReturn_keeps {frame : Frame} {key : MethodKey} {m : MethodSig} {depth : ℕ}
    (hstep : m.sig = none → ∀ body, ck.locate m = some body → ∀ frame' q,
      ck.BodyAsks (some key.cls) frame.methodName
        (ck.methodFrame key.cls key.singleton body.name) m.sig depth body frame' q →
      Keeps P (back frame' q) (back' frame' q)) :
    Keeps P (ck.methodReturn back frame key m depth) (ck.methodReturn back' frame key m depth) := by
  have hbodyTy : m.sig = none → Keeps P (ck.methodBodyTy back frame key m depth)
      (ck.methodBodyTy back' frame key m depth) := by
    intro hsig
    unfold methodBodyTy
    cases hbody : ck.locate m with
    | none => exact fun s t hst ↦ ⟨rfl, hst⟩
    | some body => exact runBody_keeps (hstep hsig body hbody)
  intro s t hst
  have hmemo := congrArg CheckState.returnMemo hst.same
  have hprogress := congrArg CheckState.inProgress hst.same
  simp only at hmemo hprogress
  simp only [methodReturn]
  cases hsig : m.sig with
  | some sig => exact ⟨rfl, hst⟩
  | none =>
    by_cases harity : m.arityUnknown
    · simp only [harity, if_true]
      exact ⟨trivial, hst⟩
    · simp only [harity, Bool.false_eq_true, if_false, hmemo, hprogress]
      cases t.returnMemo key with
      | some ty => exact ⟨rfl, hst⟩
      | none =>
        by_cases hguard : key ∈ t.inProgress
        · simp only [hguard, if_true]
          exact ⟨trivial, hst⟩
        · obtain ⟨hty, hst'⟩ := hbodyTy hsig _ _ (hst.update (·.enterMethod key))
          simp only [hguard, if_false, hty]
          exact ⟨trivial, hst'.update (·.leaveMethod key _)⟩

theorem walkMethods_keeps {frame : Frame} {cls : ClassId} {depth : ℕ} (methods : List MethodSig)
    (hstep : ∀ m ∈ methods, ∀ body, ck.locate m = some body → ∀ frame' q,
      ck.BodyAsks (some cls) frame.methodName (ck.methodFrame cls false body.name) m.sig depth
        body frame' q → Keeps P (back frame' q) (back' frame' q))
    {s t : CheckState} (hst : Alike P s t) :
    Alike P (ck.walkMethods back frame cls depth methods s)
      (ck.walkMethods back' frame cls depth methods t) := by
  induction methods generalizing s t with
  | nil => exact hst
  | cons m rest ih =>
    simp only [walkMethods]
    refine ih (fun m' hm' ↦ hstep m' (List.mem_cons_of_mem _ hm')) ?_
    cases hbody : ck.locate m with
    | none => exact hst
    | some body => exact (runBody_keeps (hstep m List.mem_cons_self body hbody) s t hst).2

theorem ivarTy_keeps {frame : Frame} {cls : ClassId} {name : String} {depth : ℕ}
    (hstep : ∀ m ∈ ck.methodsOf cls, ∀ body, ck.locate m = some body → ∀ frame' q,
      ck.BodyAsks (some cls) frame.methodName (ck.methodFrame cls false body.name) m.sig depth
        body frame' q → Keeps P (back frame' q) (back' frame' q)) :
    Keeps P (ck.ivarTy back frame cls name depth) (ck.ivarTy back' frame cls name depth) := by
  intro s t hst
  have hmemo := congrArg CheckState.ivarClassMemo hst.same
  have hprogress := congrArg CheckState.ivarClassInProgress hst.same
  have hcapture := congrArg CheckState.ivarCapture hst.same
  simp only at hmemo hprogress hcapture
  simp only [ivarTy, hmemo, hprogress, hcapture]
  cases t.ivarClassMemo cls with
  | some tys => exact ⟨rfl, hst⟩
  | none =>
    by_cases hguard : cls ∈ t.ivarClassInProgress
    · simp only [hguard, if_true]
      exact ⟨trivial, hst⟩
    · simp only [hguard, if_false]
      have hwalk := walkMethods_keeps (ck.methodsOf cls) hstep (hst.update (·.enterClass cls))
      have hwrites := congrArg CheckState.writes hwalk.same
      simp only [CheckState.writes] at hwrites ⊢
      rw [hwrites]
      exact ⟨rfl, hwalk.update (·.leaveClass t.ivarCapture cls _)⟩

/-- The answer after a question that shows the method at the span. -/
def looked (target : Option ℕ) (span : Span) (m : MethodSig) (found : Option DefSite) :
    Option DefSite := if atCursor target span then some m.site else found

theorem Alike.maybeGoto {target target' : Option ℕ} {span : Span} {site : Option MethodSig}
    (hsite : ∀ m, site = some m → ∀ g h, P g h → P (looked target span m g) (looked target' span m h))
    {s t : CheckState} (hst : Alike P s t) :
    Alike P (Checker.maybeGoto target span site s) (Checker.maybeGoto target' span site t) := by
  cases site with
  | none => exact hst
  | some m =>
    have hlooked := hsite m rfl _ _ hst.found
    have hmaybe : ∀ target u, Checker.maybeGoto target span (some m) u =
        { u with gotoFound := looked target span m u.gotoFound } := by
      intro target u
      simp only [Checker.maybeGoto, looked]
      cases atCursor target span <;> rfl
    rw [hmaybe, hmaybe]
    refine ⟨?_, hlooked⟩
    conv_lhs => rw [hst.same]

theorem capture_gotoFound (frame : Frame) (name : String) (ty : Ty) (u : CheckState)
    (g : Option DefSite) :
    capture frame name ty { u with gotoFound := g } =
      { capture frame name ty u with gotoFound := g } := by
  simp only [capture]
  split
  · split_ifs <;> rfl
  · rfl

theorem gotoFound_capture (frame : Frame) (name : String) (ty : Ty) (u : CheckState) :
    (capture frame name ty u).gotoFound = u.gotoFound := by
  simp only [capture]
  split
  · split_ifs <;> rfl
  · rfl

theorem answerWith_keeps {target target' : Option ℕ} {frame : Frame} {q : Query}
    (hstep : ∀ frame' q', ck.Enters frame q frame' q' → Keeps P (back frame' q') (back' frame' q'))
    (hshown : ∀ span m, ck.Shows frame span m q → ∀ g h, P g h →
      P (looked target span m g) (looked target' span m h)) :
    Keeps P (ck.answerWith back target frame q) (ck.answerWith back' target' frame q) := by
  intro s t hst
  cases q with
  | call site =>
    have hnames := congrArg CheckState.narrowedNames hst.same
    have hsubjects := congrArg CheckState.assertedSubjects hst.same
    have hblocks := congrArg CheckState.blocks hst.same
    simp only at hnames hsubjects hblocks
    have hreceiver : effectiveReceiver s site.receiver = effectiveReceiver t site.receiver := by
      simp only [effectiveReceiver, hnames]
    have hknown : effectiveReceiver t site.receiver = site.receiver ∨
        effectiveReceiver t site.receiver = { site.receiver with ty := .unknown } := by
      unfold effectiveReceiver
      split
      · split_ifs
        · exact Or.inr rfl
        · exact Or.inl rfl
      · exact Or.inl rfl
    simp only [answerWith, answerCall, hreceiver, hsubjects, hblocks]
    generalize effectiveReceiver t site.receiver = receiver at hknown
    by_cases hsubject : site.loc ∈ t.assertedSubjects
    · simp only [hsubject, if_true]
      exact ⟨trivial, hst⟩
    · by_cases hblock : (t.blocks.any id && receiver.isSelf) = true
      · simp only [hsubject, hblock, if_true, if_false]
        exact ⟨trivial, hst⟩
      · simp only [hsubject, hblock, Bool.false_eq_true, if_false]
        have hlooked := hst.maybeGoto fun m hm ↦ hshown site.msg m ⟨rfl, receiver, hknown, hm⟩
        cases hanswer : (ck.resolve frame.scope { site with receiver }).answer with
        | inl ty => exact ⟨rfl, hlooked⟩
        | inr found =>
          obtain ⟨key, m⟩ := found
          exact methodReturn_keeps (fun hsig body hbody frame' q hq ↦
            hstep frame' q (.call hknown hanswer hsig hbody hq)) _ _ hlooked
  | superCall span =>
    exact ⟨rfl, hst.maybeGoto fun m hm ↦ hshown span m ⟨rfl, hm⟩⟩
  | constant path => exact ⟨rfl, hst⟩
  | localRead loc ty => exact ⟨rfl, hst⟩
  | ivar depth name =>
    simp only [answerWith]
    cases hself : frame.selfTy with
    | instanceOf c =>
      exact ivarTy_keeps (fun m hm body hbody frame' q hq ↦
        hstep frame' q (.ivar hself hm hbody hq)) s t hst
    | classOf c => exact ⟨rfl, hst⟩
    | unknown => exact ⟨rfl, hst⟩
  | ivarWrite name ty =>
    exact ⟨rfl, hst.update (capture frame name ty) (capture_gotoFound frame name ty)
      (gotoFound_capture frame name ty)⟩
  | returns ty => exact ⟨rfl, hst.update fun u ↦ { u with returns := u.returns ++ [ty] }⟩
  | enterBlock call =>
    cases call with
    | none => exact ⟨rfl, hst.update fun u ↦ { u with blocks := true :: u.blocks }⟩
    | some call =>
      exact ⟨rfl, hst.update fun u ↦ { u with
        blocks := (!ck.keepsLexicalSelf (effectiveReceiver u call.1).ty call.2) :: u.blocks }⟩
  | leaveBlock => exact ⟨rfl, hst.update fun u ↦ { u with blocks := u.blocks.tail }⟩
  | guardName name =>
    exact ⟨rfl, hst.update fun u ↦ { u with narrowedNames := name :: u.narrowedNames }⟩
  | dropName => exact ⟨rfl, hst.update fun u ↦ { u with narrowedNames := u.narrowedNames.tail }⟩
  | armSubjects spans =>
    exact ⟨rfl, hst.update fun u ↦ { u with assertedSubjects := spans ++ u.assertedSubjects }⟩
  | disarmSubjects count =>
    exact ⟨rfl, hst.update fun u ↦ { u with assertedSubjects := u.assertedSubjects.drop count }⟩

/-- Equal environments, and states alike. -/
def AlikeAt (P : Option DefSite → Option DefSite → Prop) (w v : Env × CheckState) : Prop :=
  w.1 = v.1 ∧ Alike P w.2 v.2

theorem runStatement_keeps {scope : List ConstPath} {cls : Option ClassId} {e : Expr}
    (hask : ∀ q env, (e.infer (ck.scene (statementFrame scope cls)) 0 env).Asks q →
      Keeps P (back (statementFrame scope cls) q) (back' (statementFrame scope cls) q))
    {w v : Env × CheckState} (hwv : AlikeAt P w v) :
    AlikeAt P (ck.runStatement back scope cls e w) (ck.runStatement back' scope cls e v) := by
  obtain ⟨henv, hst⟩ := hwv
  have hrun := Inquiry.run_related (back (statementFrame scope cls))
    (back' (statementFrame scope cls))
    (w := e.infer (ck.scene (statementFrame scope cls)) 0 v.1) (fun q hq ↦ hask q _ hq) hst
  simp only [runStatement, henv]
  exact ⟨congrArg Prod.snd hrun.1, hrun.2⟩

mutual

theorem walkScope_keeps {scope : List ConstPath} {cls : Option ClassId} {inSingleton : Bool} :
    (body : Option Expr) →
    (∀ frame q, ck.ScopeAsks frame q scope cls inSingleton body →
      Keeps P (back frame q) (back' frame q)) →
    ∀ w v, AlikeAt P w v → AlikeAt P (ck.walkScope back scope cls inSingleton body w)
      (ck.walkScope back' scope cls inSingleton body v)
  | none, _, _, _, hwv => hwv
  | some e, hask, w, v, hwv => by
    cases e
    case sequence statements => exact scopeStmts_keeps statements hask w v hwv
    case beginNode statements _ _ _ => exact scopeStmts_keeps statements hask w v hwv
    case classNode m path body => exact scopeStmt_keeps _ (.classNode m path body) hask w v hwv
    case singletonClass m body =>
      exact scopeStmt_keeps inSingleton (.singletonClass m body) hask w v hwv
    case defNode loc name ofSelf params defaults body =>
      exact scopeStmt_keeps _ (.defNode loc name ofSelf params defaults body) hask w v hwv
    all_goals exact runStatement_keeps (fun q env hq ↦ hask _ q ⟨rfl, env, hq⟩) hwv

theorem scopeStmts_keeps {scope : List ConstPath} {cls : Option ClassId} {inSingleton : Bool} :
    (statements : List Expr) →
    (∀ frame q, ck.StmtsAsk frame q scope cls inSingleton statements →
      Keeps P (back frame q) (back' frame q)) →
    ∀ w v, AlikeAt P w v → AlikeAt P (ck.scopeStmts back scope cls inSingleton statements w)
      (ck.scopeStmts back' scope cls inSingleton statements v)
  | [], _, _, _, hwv => hwv
  | e :: rest, hask, w, v, hwv =>
    scopeStmts_keeps rest (fun frame q hq ↦ hask frame q (Or.inr hq)) _ _
      (scopeStmt_keeps _ e (fun frame q hq ↦ hask frame q (Or.inl hq)) w v hwv)

theorem scopeStmt_keeps {scope : List ConstPath} {cls : Option ClassId} (inSingleton : Bool) :
    (e : Expr) →
    (∀ frame q, ck.StmtAsks frame q scope cls inSingleton e →
      Keeps P (back frame q) (back' frame q)) →
    ∀ w v, AlikeAt P w v → AlikeAt P (ck.scopeStmt back scope cls inSingleton e w)
      (ck.scopeStmt back' scope cls inSingleton e v)
  | e, hask, w, v, hwv => by
    cases e
    case classNode m path body =>
      cases path with
      | none => exact hwv
      | some path =>
        have hbody := walkScope_keeps body hask (fun _ ↦ none, w.2) (fun _ ↦ none, v.2) ⟨rfl, hwv.2⟩
        exact ⟨hwv.1, hbody.2⟩
    case singletonClass ofSelf body =>
      cases ofSelf with
      | true => exact walkScope_keeps body (fun frame q hq ↦ hask frame q ⟨rfl, hq⟩) w v hwv
      | false => exact hwv
    case defNode => exact ⟨hwv.1, (runBody_keeps hask _ _ hwv.2).2⟩
    all_goals exact runStatement_keeps (fun q env hq ↦ hask _ q ⟨rfl, env, hq⟩) hwv

end

theorem walkFile_keeps {file : SourceFile} (hstart : P none none)
    (hask : ∀ frame q, ck.FileAsks file frame q → Keeps P (back frame q) (back' frame q)) :
    Alike P (ck.walkFile back file) (ck.walkFile back' file) :=
  (walkScope_keeps (some (ck.source file)) hask _ _ ⟨rfl, rfl, hstart⟩).2

end Runs

/-! ### The answer -/

section Answer

variable {ck} {file : SourceFile} {offset : ℕ}

/-- The bodies entered change the answer only to the one given. -/
theorem answer_keeps {found : Option DefSite} {frame : Frame} {q : Query} (n : ℕ)
    (hshown : ∀ span m, ck.Shows frame span m q → atCursor (some offset) span →
      found = some m.site)
    (hwithin : ∀ frame' q', ck.Within frame q frame' q' → ∀ span m, ck.Shows frame' span m q' →
      atCursor (some offset) span → found = some m.site) :
    Keeps (fun g h ↦ g = h ∨ g = found) (ck.answer (some offset) n frame q)
      (ck.answer none n frame q) := by
  induction n generalizing frame q with
  | zero => exact fun s t hst ↦ ⟨rfl, hst⟩
  | succ n ih =>
    refine answerWith_keeps (fun frame' q' henters ↦ ih (hwithin frame' q' (.entered henters)) ?_) ?_
    · exact fun frame'' q'' hdeeper ↦ hwithin frame'' q'' (hdeeper.after henters)
    · intro span m hm g h hgh
      simp only [looked]
      by_cases hcursor : atCursor (some offset) span = true
      · rw [if_pos hcursor]
        exact Or.inr (hshown span m hm hcursor).symm
      · rw [if_neg hcursor]
        exact hgh

/-- A body that does not look for the cursor leaves the answer as it is. -/
theorem answer_none_keeps {P : Option DefSite → Option DefSite → Prop} {frame : Frame} {q : Query}
    (n : ℕ) : Keeps P (ck.answer none n frame q) (ck.answer none n frame q) := by
  induction n generalizing frame q with
  | zero => exact fun s t hst ↦ ⟨rfl, hst⟩
  | succ n ih => exact answerWith_keeps (fun _ _ _ ↦ ih) fun _ _ _ _ _ hgh ↦ hgh

/-- The file's own answer comes from a question that the file itself asks. -/
theorem ownDefinitionAt_shown {site : DefSite} (h : ck.ownDefinitionAt file offset = some site) :
    ∃ frame q span m, ck.FileAsks file frame q ∧ ck.Shows frame span m q ∧
      atCursor (some offset) span ∧ m.site = site := by
  have hwalk : Alike (fun g _ ↦ ∀ site, g = some site → ∃ frame q span m,
      ck.FileAsks file frame q ∧ ck.Shows frame span m q ∧ atCursor (some offset) span ∧
        m.site = site)
      (ck.walkFile (ck.answerWith (ck.answer none 201) (some offset)) file)
      (ck.walkFile (ck.answerWith (ck.answer none 201) (some offset)) file) :=
    walkFile_keeps (fun site hsite ↦ nomatch hsite) fun frame q hq ↦ answerWith_keeps
      (fun _ _ _ ↦ answer_none_keeps 201) fun span m hm g _ hg site hsite ↦ by
        by_cases hcursor : atCursor (some offset) span = true
        · rw [looked, if_pos hcursor] at hsite
          exact ⟨frame, q, span, m, hq, hm, hcursor, Option.some.inj hsite⟩
        · rw [looked, if_neg hcursor] at hsite
          exact hg site hsite
  exact hwalk.found site h

/-- Where the bodies that the walk enters show at the cursor nothing but what the file shows
there, navigation answers from the file alone. -/
theorem definitionAt_eq_own (h : ck.Undisturbed file offset) :
    ck.definitionAt file offset = ck.ownDefinitionAt file offset := by
  have hwalk : Alike (fun g h ↦ g = h ∨ g = ck.ownDefinitionAt file offset)
      (ck.walkFile (ck.answers (some offset)) file)
      (ck.walkFile (ck.answerWith (ck.answer none 201) (some offset)) file) :=
    walkFile_keeps (Or.inl rfl) fun frame q hq ↦ answerWith_keeps
      (fun frame' q' henters ↦ answer_keeps 201 (h frame q hq frame' q' (.entered henters))
        fun frame'' q'' hdeeper ↦ h frame q hq frame'' q'' (hdeeper.after henters))
      fun span m _ g h hgh ↦ by
        by_cases hcursor : atCursor (some offset) span = true
        · simp only [looked, if_pos hcursor, true_or]
        · simp only [looked, if_neg hcursor]
          exact hgh
  exact hwalk.found.elim id id

end Answer

/-! ### Small projects -/

/-- Dispatch for projects whose calls all have their receiver's own methods as targets. -/
def resolveOwn (ix : ProjectIndex) (site : CallQuery) : Resolution :=
  match site.receiver.ty with
  | .instanceOf c =>
    match (ix.classOf c).methods.lookup site.name with
    | some m => { target := some m, answer := .inr (⟨c, site.name, false⟩, m) }
    | none => { answer := .inl .unknown }
  | .classOf c =>
    if site.name = "new" then
      { target := (ix.classOf c).methods.lookup "initialize", answer := .inl (.instanceOf c) }
    else { answer := .inl .unknown }
  | _ => { answer := .inl .unknown }

/-- A project without sigs, guards and constants to type. -/
def plain (ix : ProjectIndex) (source : SourceFile → Expr) : Checker where
  ix
  source
  resolve := fun _ ↦ resolveOwn ix
  superTarget := fun _ _ _ ↦ none
  keepsLexicalSelf := fun _ _ ↦ true
  constTy := fun _ path ↦ ((ix.byPath.lookup path).map Ty.classOf).getD .unknown
  narrowTarget := fun _ _ ↦ none
  classObject := fun _ _ ↦ false
  sorbetTy := fun _ ↦ .unknown
  methodsOf := fun c ↦ (ix.classOf c).methods.entries.map Sigma.snd

/-- A method without parameters. -/
def plainMethod (file : SourceFile) (defSpan nameSpan : Span) : MethodSig :=
  { required := 0, optional := 0, rest := false, keywords := [], kwrest := false, sig := none,
    sorbetRet := none, arityUnknown := false, abstractStub := false, file, defSpan, nameSpan }

def plainDef (loc : Span) (name : String) (body : List Expr) : Expr :=
  .defNode loc name false {} [] (some (.sequence body))

def plainClass (name : String) (body : List Expr) : Expr :=
  .classNode false (some [name]) (some (.sequence body))

/-- A call of a method by its name alone. -/
def plainCall (span : Span) (name : String) : Expr := .callNode span span none name [] [] none

/-- The first file calls `work`; the second has its body, with a call of `inner` at 23. -/
def workshop : Checker :=
  plain
    { classes := [{
        path := ["A"], nesting := [["A"]],
        methods := [⟨"go", plainMethod "go.rb" (10, 31) (14, 16)⟩,
          ⟨"work", plainMethod "work.rb" (10, 34) (14, 18)⟩,
          ⟨"inner", plainMethod "work.rb" (37, 58) (41, 46)⟩].toAList }],
      byPath := [⟨["A"], 0⟩].toAList }
    fun file ↦
      if file = "go.rb" then
        .sequence [plainClass "A" [plainDef (10, 31) "go" [plainCall (21, 25) "work"]]]
      else
        .sequence [plainClass "A"
          [plainDef (10, 34) "work" [plainCall (23, 28) "inner"],
            plainDef (37, 58) "inner" [.leaf .int []]]]

/-- A class and, at 41, an object of it. -/
def kiosk : Checker :=
  plain
    { classes := [{
        path := ["A"], nesting := [["A"]],
        methods := [⟨"initialize", plainMethod "kiosk.rb" (10, 36) (14, 24)⟩].toAList }],
      byPath := [⟨["A"], 0⟩].toAList }
    fun _ ↦ .sequence [plainClass "A" [plainDef (10, 36) "initialize" [.leaf .int []]],
      .callNode (41, 46) (43, 46) (some (.constant (some ["A"]))) "new" [] [] none]

theorem kiosk_enters_nothing {frame frame' : Frame} {q q' : Query}
    (h : kiosk.FileAsks "kiosk.rb" frame q) : ¬ kiosk.Enters frame q frame' q' := by
  intro henters
  obtain ⟨e, he, hmay⟩ := h.askedBy
  have hsource : kiosk.source "kiosk.rb" :: (kiosk.source "kiosk.rb").reads =
      [kiosk.source "kiosk.rb", plainClass "A" [plainDef (10, 36) "initialize" [.leaf .int []]],
        .sequence [plainDef (10, 36) "initialize" [.leaf .int []]],
        plainDef (10, 36) "initialize" [.leaf .int []], .sequence [.leaf .int []], .leaf .int [],
        .callNode (41, 46) (43, 46) (some (.constant (some ["A"]))) "new" [] [] none,
        .constant (some ["A"])] := rfl
  simp only [hsource, List.mem_cons, List.not_mem_nil, or_false] at he
  cases henters with
  | ivar =>
    rcases he with rfl | rfl | rfl | rfl | rfl | rfl | rfl | rfl <;> exact hmay.elim
  | @call site receiver key m body frame' q' _ hresolve =>
    have hname : site.name = "new" := by
      rcases he with rfl | rfl | rfl | rfl | rfl | rfl | rfl | rfl
      all_goals first | exact hmay.elim | exact hmay.2.2
    have hnone : ∀ c, (kiosk.ix.classOf c).methods.lookup "new" = none
      | 0 => by decide
      | _ + 1 => rfl
    change (resolveOwn kiosk.ix { site with receiver }).answer = _ at hresolve
    unfold resolveOwn at hresolve
    split at hresolve
    · rw [show ({ site with receiver } : CallQuery).name = "new" from hname, hnone] at hresolve
      cases hresolve
    · rw [if_pos hname] at hresolve
      cases hresolve
    · cases hresolve

end Checker

end Itaruby
