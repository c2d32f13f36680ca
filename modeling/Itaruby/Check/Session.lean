import Itaruby.Check.Infer
import Itaruby.Check.Signatures

/-!
The state that all walks of one check share: the memo tables of `method_return` and
`ivar_ty`, their guards, the collector of instance variable writes and the answer of a
navigation query. A walk's questions are answered from it, and answering one may walk
another body.
-/

set_option autoImplicit false
set_option relaxedAutoImplicit false

namespace Itaruby

/-- A class, a method name, and whether the method is one of the class object. -/
structure MethodKey where
  cls : ClassId
  name : String
  singleton : Bool
  deriving DecidableEq, Repr

structure Checker.DefSite where
  file : SourceFile
  span : Span
  deriving DecidableEq, Repr

def MethodSig.site (m : MethodSig) : Checker.DefSite := ⟨m.file, m.nameSpan⟩

/-- What `check_call` makes of a call: the definition that navigation shows, and the type of
the call, which may be the return type of a method. -/
structure Resolution where
  target : Option MethodSig := none
  answer : Ty ⊕ MethodKey × MethodSig

/-- Where a body stands. -/
structure Frame where
  selfTy : SelfTy
  scope : List ConstPath
  methodName : Option String := none
  /-- a body that is walked again for its type -/
  silent : Bool := false

/-- A `def` node that a signature was found to stand for. -/
structure DefBody where
  name : String
  params : DefParams
  defaults : List Expr
  body : Option Expr

/-- What a check reads and does not change. -/
structure Checker where
  ix : ProjectIndex
  source : SourceFile → Expr
  closedWorld : Bool := false
  /-- the dispatch of `check_call` in a scope -/
  resolve : List ConstPath → CallQuery → Resolution
  /-- the site that `super_lookup` finds -/
  superTarget : ClassId → Bool → String → Option MethodSig
  /-- `block_keeps_lexical_self` -/
  keepsLexicalSelf : Ty → String → Bool
  constTy : List ConstPath → ConstPath → Ty
  narrowTarget : List ConstPath → ConstPath → Option Ty
  classObject : List ConstPath → ConstPath → Bool
  /-- `resolve_ret_ty` -/
  sorbetTy : Option String → Ty
  /-- the methods of a class in the order its table is iterated -/
  methodsOf : ClassId → List MethodSig

structure CheckState where
  returnMemo : MethodKey → Option Ty := fun _ ↦ none
  inProgress : List MethodKey := []
  ivarClassMemo : ClassId → Option (String → Option Ty) := fun _ ↦ none
  ivarClassInProgress : List ClassId := []
  /-- the class whose writes are collected, and the writes met -/
  ivarCapture : Option (ClassId × List (String × Ty)) := none
  returns : List Ty := []
  /-- for each block around the current point, whether it may rebind `self` -/
  blocks : List Bool := []
  narrowedNames : List String := []
  assertedSubjects : List Span := []
  gotoFound : Option Checker.DefSite := none

namespace CheckState

def enterMethod (s : CheckState) (key : MethodKey) : CheckState :=
  { s with inProgress := key :: s.inProgress }

def leaveMethod (s : CheckState) (key : MethodKey) (ty : Ty) : CheckState :=
  { s with
    inProgress := s.inProgress.erase key
    returnMemo := Function.update s.returnMemo key (some ty) }

def enterClass (s : CheckState) (cls : ClassId) : CheckState :=
  { s with
    ivarClassInProgress := cls :: s.ivarClassInProgress
    ivarCapture := some (cls, []) }

/-- The writes met since `enterClass`. -/
def writes (s : CheckState) : List (String × Ty) := (s.ivarCapture.map Prod.snd).getD []

/-- `outer` is what was collected before `enterClass`. -/
def leaveClass (s : CheckState) (outer : Option (ClassId × List (String × Ty))) (cls : ClassId)
    (tys : String → Option Ty) : CheckState :=
  { s with
    ivarCapture := outer
    ivarClassInProgress := s.ivarClassInProgress.erase cls
    ivarClassMemo := Function.update s.ivarClassMemo cls (some tys) }

end CheckState

namespace Expr

mutual

/-- `find_def_at` -/
def findDefAt (span : Span) : Expr → Option DefBody
  | .defNode loc name _ params defaults body =>
    if loc = span then some { name, params, defaults, body } else none
  | .sequence statements => findDefAmong span statements
  | .beginNode statements _ _ _ => findDefAmong span statements
  | .classNode _ _ body => findDefIn span body
  | .singletonClass _ body => findDefIn span body
  | .ifNode _ statements subsequent =>
    (findDefAmong span statements).or (findDefIn span subsequent)
  | .unlessNode _ statements _ elseStatements =>
    (findDefAmong span statements).or (findDefAmong span elseStatements)
  | _ => none

def findDefAmong (span : Span) : List Expr → Option DefBody
  | [] => none
  | e :: rest => (findDefAt span e).or (findDefAmong span rest)

def findDefIn (span : Span) : Option Expr → Option DefBody
  | none => none
  | some e => findDefAt span e

end

end Expr

/-- `fold_ivar_writes`, for one name. -/
def foldIvarWrites : List Ty → Option Ty
  | [] => none
  | ty :: rest => some (rest.foldl (fun prev t ↦ if prev = t then prev else .unknown) ty)

def writesTo (name : String) (writes : List (String × Ty)) : List Ty :=
  writes.filterMap fun (n, ty) ↦ if n = name then some ty else none

namespace Checker

variable (ck : Checker)

def scene (frame : Frame) : Scene where
  selfTy := frame.selfTy
  closedWorld := ck.closedWorld
  narrowTarget := ck.narrowTarget frame.scope
  classObject := ck.classObject frame.scope

/-! ### The environment a body starts in -/

/-- The positional types of a signature, paired with the parameters in order. -/
def positionalEnv (tys : List Ty) : List (Option String) → Env → Env
  | [], env => env
  | name :: rest, env =>
    let env := match name with
      | some name => env.insert name (tys.head?.getD .unknown)
      | none => env
    positionalEnv tys.tail rest env

def keywordTy (cls : Option ClassId) (scope : List ConstPath) (sig : Option RbsSig)
    (name : String) : Option Ty := do
  let sig ← sig
  let ty ← sig.params.findSome? fun
    | .keyword n ty _ => if n = name then some ty else none
    | _ => none
  return rbsToTy (ck.ix.resolveConst scope) cls sig.typeParams ty

/-- The keyword parameters; the default of each is walked for its own sake. -/
def keywordEnv (cls : Option ClassId) (scene : Scene) (scope : List ConstPath)
    (sig : Option RbsSig) (depth : ℕ) : List (String × Bool) → List Expr → Env → Walk Env
  | [], _, env => pure env
  | (name, false) :: rest, defaults, env =>
    keywordEnv cls scene scope sig depth rest defaults
      (env.insert name ((ck.keywordTy cls scope sig name).getD .unknown))
  | (name, true) :: rest, defaults, env => do
    let (ty, _) ← match defaults with
      | [] => pure (.unknown, env)
      | value :: _ => value.infer scene depth env
    keywordEnv cls scene scope sig depth rest defaults.tail
      (env.insert name ((ck.keywordTy cls scope sig name).getD ty))

/-- The parameters of a body as locals. -/
def paramsWalk (cls : Option ClassId) (frame : Frame) (sig : Option RbsSig) (depth : ℕ)
    (body : DefBody) : Walk Env := do
  let tys := match sig with
    | none => []
    | some sig => sig.positional.map (rbsToTy (ck.ix.resolveConst frame.scope) cls sig.typeParams)
  let positional := body.params.requireds.map Target.directName ++
    body.params.optionals.map some
  let env := positionalEnv tys positional fun _ ↦ none
  let env := body.params.rest.elim env fun name ↦ env.insert name (.array .unknown)
  let env ← ck.keywordEnv cls (ck.scene frame) frame.scope sig depth body.params.keywords
    body.defaults env
  let env := body.params.keywordRest.elim env fun name ↦ env.insert name (.hash .sym .unknown)
  return body.params.block.elim env fun name ↦ env.insert name .unknown

def bodyWalk (frame : Frame) (depth : ℕ) (body : Option Expr) (env : Env) : Walk Ty := do
  let (ty, _) ← Expr.inferOpt (ck.scene frame) depth body env
  return ty

/-! ### Answering -/

/-- What answering a question of a body may rest on: the questions of the bodies below. -/
abbrev Back := Frame → Query → CheckState → Ty × CheckState

/-- `check_method_body`: the last value and every `return`. The defaults of keywords are walked
before the body has its name. -/
def runBody (back : Back) (cls : Option ClassId) (outer : Option String) (frame : Frame)
    (sig : Option RbsSig) (depth : ℕ) (body : DefBody) (s : CheckState) : Ty × CheckState :=
  let (env, s') := (ck.paramsWalk cls frame sig depth body).run
    (back { frame with methodName := outer }) { s with blocks := [] }
  let (last, s'') := (ck.bodyWalk frame depth body.body env).run (back frame)
    { s' with returns := [] }
  (s''.returns.foldl Ty.join last, { s'' with returns := s'.returns, blocks := s.blocks })

def locate (m : MethodSig) : Option DefBody := (ck.source m.file).findDefAt m.defSpan

/-- The frame in which the body of a method is walked for a receiver class. -/
def methodFrame (cls : ClassId) (singleton : Bool) (name : String) : Frame where
  selfTy := if singleton then .classOf cls else .instanceOf cls
  scope := (ck.ix.classOf cls).nesting
  methodName := some name
  silent := true

/-- The body of a method, walked for a receiver class. -/
def methodBodyTy (back : Back) (asker : Frame) (key : MethodKey) (m : MethodSig) (depth : ℕ)
    (s : CheckState) : Ty × CheckState :=
  match ck.locate m with
  | some body =>
    ck.runBody back (some key.cls) asker.methodName
      (ck.methodFrame key.cls key.singleton body.name) m.sig depth body s
  | none => (.unknown, s)

/-- `method_return` -/
def methodReturn (back : Back) (asker : Frame) (key : MethodKey) (m : MethodSig) (depth : ℕ)
    (s : CheckState) : Ty × CheckState :=
  match m.sig with
  | some sig => (ck.ix.sigReturnTy key.cls asker.scope sig, s)
  | none =>
    if m.arityUnknown then (.unknown, s)
    else
      match s.returnMemo key with
      | some ty => (ty, s)
      | none =>
        if key ∈ s.inProgress then (ck.sorbetTy m.sorbetRet, s)
        else
          let (ty, s') := ck.methodBodyTy back asker key m depth (s.enterMethod key)
          let ty := if ty = .unknown then ck.sorbetTy m.sorbetRet else ty
          (ty, s'.leaveMethod key ty)

/-- The loop of `walk_class_ivars`. -/
def walkMethods (back : Back) (asker : Frame) (cls : ClassId) (depth : ℕ) :
    List MethodSig → CheckState → CheckState
  | [], s => s
  | m :: rest, s =>
    let s := match ck.locate m with
      | some body =>
        (ck.runBody back (some cls) asker.methodName (ck.methodFrame cls false body.name) m.sig
          depth body s).2
      | none => s
    walkMethods back asker cls depth rest s

/-- `ivar_ty` -/
def ivarTy (back : Back) (asker : Frame) (cls : ClassId) (name : String) (depth : ℕ)
    (s : CheckState) : Ty × CheckState :=
  match s.ivarClassMemo cls with
  | some tys => ((tys name).getD .unknown, s)
  | none =>
    if cls ∈ s.ivarClassInProgress then (.unknown, s)
    else
      let s' := ck.walkMethods back asker cls depth (ck.methodsOf cls) (s.enterClass cls)
      let tys := fun name ↦ foldIvarWrites (writesTo name s'.writes)
      ((tys name).getD .unknown, s'.leaveClass s.ivarCapture cls tys)

/-- Does the cursor stand in the span? -/
def atCursor (target : Option ℕ) (span : Span) : Bool :=
  match target with
  | some offset => span.1 ≤ offset && offset ≤ span.2
  | none => false

/-- `maybe_goto`, for a cursor at `target`. -/
def maybeGoto (target : Option ℕ) (span : Span) (site : Option MethodSig) (s : CheckState) :
    CheckState :=
  match site with
  | some m => if atCursor target span then { s with gotoFound := some m.site } else s
  | none => s

def superSite (frame : Frame) : Option MethodSig := do
  let name ← frame.methodName
  match frame.selfTy with
  | .instanceOf c => ck.superTarget c false name
  | .classOf c => ck.superTarget c true name
  | .unknown => none

/-- The receiver that dispatch sees: a name proved to be a class object has no type. -/
def effectiveReceiver (s : CheckState) (receiver : Receiver) : Receiver :=
  match receiver.name with
  | some name => if name ∈ s.narrowedNames then { receiver with ty := .unknown } else receiver
  | none => receiver

/-- The part of `check_call` after the receiver, the arguments and the block. -/
def answerCall (back : Back) (target : Option ℕ) (frame : Frame) (site : CallQuery)
    (s : CheckState) : Ty × CheckState :=
  let site := { site with receiver := effectiveReceiver s site.receiver }
  if site.loc ∈ s.assertedSubjects then (.unknown, s)
  else if s.blocks.any id && site.receiver.isSelf then (.unknown, s)
  else
    let resolution := ck.resolve frame.scope site
    let s := maybeGoto target site.msg resolution.target s
    match resolution.answer with
    | .inl ty => (ty, s)
    | .inr (key, m) => ck.methodReturn back frame key m site.depth s

def capture (frame : Frame) (name : String) (ty : Ty) (s : CheckState) : CheckState :=
  match frame.selfTy, s.ivarCapture with
  | .instanceOf c, some (cls, writes) =>
    if c = cls then { s with ivarCapture := some (cls, writes ++ [(name, ty)]) } else s
  | _, _ => s

/-- One question of a body. -/
def answerWith (back : Back) (target : Option ℕ) (frame : Frame) :
    Query → CheckState → Ty × CheckState
  | .call site, s => ck.answerCall back target frame site s
  | .superCall span, s => (.unknown, maybeGoto target span (ck.superSite frame) s)
  | .constant path, s => (ck.constTy frame.scope path, s)
  | .ivar depth name, s =>
    match frame.selfTy with
    | .instanceOf c => ck.ivarTy back frame c name depth s
    | _ => (.unknown, s)
  | .localRead _ _, s => (.unknown, s)
  | .ivarWrite name ty, s => (.unknown, capture frame name ty s)
  | .returns ty, s => (.unknown, { s with returns := s.returns ++ [ty] })
  | .enterBlock none, s => (.unknown, { s with blocks := true :: s.blocks })
  | .enterBlock (some (receiver, name)), s =>
    let rebindable := !ck.keepsLexicalSelf (effectiveReceiver s receiver).ty name
    (.unknown, { s with blocks := rebindable :: s.blocks })
  | .leaveBlock, s => (.unknown, { s with blocks := s.blocks.tail })
  | .guardName name, s => (.unknown, { s with narrowedNames := name :: s.narrowedNames })
  | .dropName, s => (.unknown, { s with narrowedNames := s.narrowedNames.tail })
  | .armSubjects spans, s => (.unknown, { s with assertedSubjects := spans ++ s.assertedSubjects })
  | .disarmSubjects count, s =>
    (.unknown, { s with assertedSubjects := s.assertedSubjects.drop count })

/-- The questions of bodies nested at most `n` deep. -/
def answer (target : Option ℕ) : ℕ → Back
  | 0 => fun _ _ s ↦ (.unknown, s)
  | n + 1 => ck.answerWith (answer target n) target

/-- A body walked at depth `d` asks at a depth above `d`, and none below 200 is walked, so no
more bodies nest. -/
def answers (target : Option ℕ) : Back := ck.answer target 202

end Checker

end Itaruby
