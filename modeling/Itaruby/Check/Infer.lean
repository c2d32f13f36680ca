import Itaruby.Check.Env
import Itaruby.Check.Expr
import Itaruby.Library.Inquiry

/-!
The walk of one body: `infer_expr` and what it calls on the way. What the walk needs from
the index and from other bodies it asks for, so that the walk itself is a function of the
tree, the environment and the answers.
-/

set_option autoImplicit false
set_option relaxedAutoImplicit false

namespace Itaruby

inductive SelfTy
  | instanceOf (c : ClassId)
  | classOf (c : ClassId)
  | unknown
  deriving DecidableEq, Repr

def SelfTy.asTy : SelfTy → Ty
  | .instanceOf c => .instanceOf c
  | .classOf c => .classOf c
  | .unknown => .unknown

/-- The receiver of a call: its type, the name it can be recognized by, and whether it is the
`self` of the body. -/
structure Receiver where
  ty : Ty
  name : Option String
  isSelf : Bool

/-- A call whose receiver, arguments and block have been walked. -/
structure CallQuery where
  depth : ℕ
  loc : Span
  msg : Span
  receiver : Receiver
  name : String
  args : List Ty
  exactArity : Bool

inductive Query
  | call (site : CallQuery)
  | superCall (span : Span)
  | constant (path : ConstPath)
  | ivar (depth : ℕ) (name : String)
  /-- the walk typed a read of a local, as hovering it shows -/
  | localRead (loc : Span) (ty : Ty)
  /-- the walk met a write of an instance variable -/
  | ivarWrite (name : String) (ty : Ty)
  /-- the walk met a `return` -/
  | returns (ty : Ty)
  /-- a block of a call begins, or a lambda -/
  | enterBlock (call : Option (Receiver × String))
  | leaveBlock
  /-- the next calls on this name are calls on a class object -/
  | guardName (name : String)
  | dropName
  /-- the calls at these spans are expected to raise -/
  | armSubjects (spans : List Span)
  | disarmSubjects (count : ℕ)

abbrev Walk := Inquiry Query Ty

/-- What is fixed during the walk of a body. -/
structure Scene where
  selfTy : SelfTy
  closedWorld : Bool := false
  /-- the class that an `is_a?` argument names in this scope -/
  narrowTarget : ConstPath → Option Ty := fun _ ↦ none
  /-- does the path name the core `Class` or `Module`? -/
  classObject : ConstPath → Bool := fun _ ↦ false

namespace Target

mutual

/-- The locals that the target binds. -/
def names : Target → List String
  | .localVar name => [name]
  | .splat none => []
  | .splat (some target) => names target
  | .multi targets => namesAll targets
  | .ivar _ | .other => []

def namesAll : List Target → List String
  | [] => []
  | target :: rest => names target ++ namesAll rest

end

def directName : Target → Option String
  | .localVar name => some name
  | _ => none

end Target

namespace BlockParams

/-- The names `add_block_params` binds. -/
def added (params : BlockParams) : List String :=
  params.requireds.filterMap Target.directName ++ params.optionals ++ params.rest.toList ++
    params.keywords ++ params.locals

/-- The names that are new in the block. -/
def names (params : BlockParams) : List String :=
  Target.namesAll params.requireds ++ params.optionals ++ params.rest.toList ++
    Target.namesAll params.posts ++ params.keywords ++ params.keywordRest.toList ++
      params.block.toList ++ params.locals

end BlockParams

namespace Env

/-- The names become locals of unknown type. -/
def insertUnknown (env : Env) (names : List String) : Env :=
  names.foldl (fun env name ↦ env.insert name .unknown) env

/-- `add_block_params` -/
def addBlockParams (env : Env) (params : BlockParams) : Env := env.insertUnknown params.added

end Env

/-- `apply_cast_comment` -/
def applyCast (ty : Ty) : Option Cast → Ty
  | none => ty
  | some .notNil => stripNil ty
  | some .untyped => .unknown
  | some (.named .unknown) => ty
  | some (.named resolved) => resolved

namespace Scene

variable (scene : Scene)

/-- `narrow_of_call` -/
def narrowOfCall (receiver : Option Expr) (name : String) (arguments : List Expr) :
    Option Narrow :=
  match receiver with
  | some (.localRead _ var) =>
    match name, arguments with
    | "nil?", [] => some ⟨var, .nilCheck⟩
    | "is_a?", [arg] => do
      let path ← arg.constPath
      let ty ← scene.narrowTarget path
      return ⟨var, .isA ty⟩
    | _, _ => none
  | _ => none

/-- The check that a side of `||` makes, if it is a check for `nil`. -/
def nilGuard (narrow : Option Narrow) : Option Narrow :=
  match narrow with
  | some ⟨var, .nilCheck⟩ => some ⟨var, .nilCheckOrGuard⟩
  | _ => none

/-- `narrow_of` -/
def narrowOf : Expr → Option Narrow
  | .orNode l r => (nilGuard (narrowOf l)).or (nilGuard (narrowOf r))
  | .callNode _ _ receiver name arguments _ _ => scene.narrowOfCall receiver name arguments
  | .localRead _ name => some ⟨name, .truthy⟩
  | _ => none

/-- `narrow_of_when` -/
def narrowOfWhen (conditions : List Expr) : Option Ty := do
  let tys ← conditions.mapM fun c ↦ c.constPath.bind scene.narrowTarget
  match tys with
  | [] => none
  | ty :: rest => return rest.foldl Ty.join ty

/-- `class_object_guard` -/
def classObjectGuard : Expr → Option String
  | .callNode _ _ (some receiver) "is_a?" [arg] _ _ => do
    let name ← receiver.exprName
    let path ← arg.constPath
    if scene.classObject path then some name else none
  | _ => none

end Scene

/-! ### The walk -/

/-- The walk does not go deeper than 200 expressions. -/
def guarded (depth : ℕ) (env : Env) (walk : Walk (Ty × Env)) : Walk (Ty × Env) :=
  if depth > 200 then pure (.unknown, env) else walk

def joinTys : List Ty → Ty
  | [] => .unknown
  | ty :: rest => rest.foldl Ty.join ty

/-- The type of an array whose elements have these types; a splat has none. -/
def arrayTy (elements : List (Option Ty)) : Ty :=
  match elements.mapM id with
  | some tys => .array (joinTys tys)
  | none => .array .unknown

def hashTy (elements : List (Option (Ty × Ty))) : Ty :=
  match elements.mapM id with
  | some tys => .hash (joinTys (tys.map Prod.fst)) (joinTys (tys.map Prod.snd))
  | none => .hash .unknown .unknown

/-- The type that a `return` gives. -/
def returnedTy : List Ty → Ty
  | [] => .nil
  | [only] => only
  | _ => .array .unknown

namespace Expr

mutual

def infer (scene : Scene) (depth : ℕ) : Expr → Env → Walk (Ty × Env)
  | .leaf ty _, env => guarded depth env <| pure (ty, env)
  | .selfNode, env => guarded depth env <| pure (scene.selfTy.asTy, env)
  | .parts ty children, env => guarded depth env do
    let (_, env) ← inferEach scene (depth + 1) children env
    return (ty, env)
  | .array elements, env => guarded depth env do
    let (tys, env) ← inferElements scene (depth + 1) elements env
    return (arrayTy tys, env)
  | .hash _ elements, env => guarded depth env do
    let (tys, env) ← inferAssocs scene (depth + 1) elements env
    return (hashTy tys, env)
  | .assoc _ _, env => guarded depth env <| pure (.unknown, env)
  | .splat expression, env => guarded depth env do
    let (_, env) ← inferOpt scene (depth + 1) expression env
    return (.unknown, env)
  | .localRead loc name, env => guarded depth env do
    let ty := (env name).getD .unknown
    let _ ← .query (.localRead loc ty)
    return (ty, env)
  | .localWrite name cast value, env => guarded depth env do
    let (ty, env) ← infer scene (depth + 1) value env
    let ty := applyCast ty cast
    return (ty, env.insert name ty)
  | .localOrWrite name value, env => guarded depth env do
    let (ty, env) ← infer scene (depth + 1) value env
    let joined := Ty.join ((env name).getD .nil) ty
    return (joined, env.insert name joined)
  | .localAndWrite name value, env => guarded depth env do
    let (_, env) ← infer scene (depth + 1) value env
    return (.unknown, env.insert name .unknown)
  | .localOperatorWrite name value, env => guarded depth env do
    let (_, env) ← infer scene (depth + 1) value env
    return (.unknown, env.insert name .unknown)
  | .ivarRead name, env => guarded depth env do
    match scene.selfTy with
    | .instanceOf _ => return (← .query (.ivar (depth + 1) name), env)
    | _ => return (.unknown, env)
  | .ivarWrite name value, env => guarded depth env do
    let (ty, env) ← infer scene (depth + 1) value env
    let _ ← .query (.ivarWrite name ty)
    return (ty, env)
  | .ivarUpdate _ value, env => guarded depth env do
    let (_, env) ← infer scene (depth + 1) value env
    return (.unknown, env)
  | .otherWrite value, env => guarded depth env <| infer scene (depth + 1) value env
  | .constant none, env => guarded depth env <| pure (.unknown, env)
  | .constant (some path), env => guarded depth env do
    return (← .query (.constant path), env)
  | .sequence statements, env =>
    guarded depth env <| inferStmts scene (depth + 1) statements .nil env
  | .paren body, env => guarded depth env <| inferOpt scene (depth + 1) body env
  | .ifNode predicate statements subsequent, env => guarded depth env do
    let narrow := scene.narrowOf predicate
    let (_, env) ← infer scene (depth + 1) predicate env
    let thenEnv := narrow.elim env env.narrowTrue
    let (thenTy, thenEnv) ← inferStmts scene (depth + 1) statements .nil thenEnv
    let elseEnv := narrow.elim env (env.narrowFalse · env)
    let (elseTy, elseEnv) ← inferOpt scene (depth + 1) subsequent elseEnv
    let joined :=
      if narrow.isSome && stmtsDiverge statements && subsequent.isNone then elseEnv
      else env.join [thenEnv, elseEnv]
    return (Ty.join thenTy elseTy, joined)
  | .unlessNode predicate statements hasElse elseStatements, env => guarded depth env do
    let narrow := scene.narrowOf predicate
    let (_, env) ← infer scene (depth + 1) predicate env
    let thenEnv := narrow.elim env (env.narrowFalse · env)
    let (thenTy, thenEnv) ← inferStmts scene (depth + 1) statements .nil thenEnv
    let elseEnv := narrow.elim env env.narrowTrue
    let (elseTy, elseEnv) ← inferStmts scene (depth + 1) elseStatements .nil elseEnv
    -- the shortcut of `unless` leaves out `is_a?`
    let shortcut := match narrow with
      | none => false
      | some ⟨_, .isA _⟩ => false
      | some _ => true
    let joined :=
      if shortcut && stmtsDiverge statements && !hasElse then elseEnv
      else env.join [thenEnv, elseEnv]
    return (Ty.join thenTy elseTy, joined)
  | .caseNode predicate conditions elseStatements, env => guarded depth env do
    let subject := predicate.bind localName
    let (_, env) ← inferOpt scene (depth + 1) predicate env
    let (tys, branches, env) ← inferWhens scene (depth + 1) subject conditions env
    let (elseTy, elseEnv) ← inferStmts scene (depth + 1) elseStatements .nil env
    let ty := match tys with
      | [] => .nil
      | ty :: rest => rest.foldl Ty.join ty
    return (Ty.join ty elseTy, env.join (branches ++ [elseEnv]))
  | .whenNode _ _, env => guarded depth env <| pure (.unknown, env)
  | .caseMatch predicate _ _, env => guarded depth env do
    let (_, env) ← inferOpt scene (depth + 1) predicate env
    return (.unknown, env.widen)
  | .loop predicate statements, env => guarded depth env do
    let (_, env) ← infer scene (depth + 1) predicate env
    let (_, bodyEnv) ← inferStmts scene (depth + 1) statements .nil env
    return (.nil, env.mergeLoop bodyEnv)
  | .forNode _ collection statements, env => guarded depth env do
    let (_, env) ← infer scene (depth + 1) collection env
    let (_, bodyEnv) ← inferStmts scene (depth + 1) statements .nil env
    return (.unknown, env.mergeLoop bodyEnv)
  | .andNode left right, env => guarded depth env do
    let (l, env) ← infer scene (depth + 1) left env
    match scene.classObjectGuard left with
    | some name => do
      let _ ← .query (.guardName name)
      let (r, env) ← infer scene (depth + 1) right env
      let _ ← .query .dropName
      return (Ty.join l r, env)
    | none => do
      let (r, env) ← infer scene (depth + 1) right env
      return (Ty.join l r, env)
  | .orNode left right, env => guarded depth env do
    let (l, env) ← infer scene (depth + 1) left env
    let (r, env) ← infer scene (depth + 1) right env
    return (Ty.join l r, env)
  | .beginNode statements rescues elseStatements ensureStatements, env => guarded depth env do
    let (bodyTy, bodyEnv) ← inferStmts scene (depth + 1) statements .nil env
    let (tys, branches, bodyEnv) ← inferRescues scene (depth + 1) env rescues bodyEnv
    let bodyTy := tys.foldl Ty.join bodyTy
    let (elseTy, bodyEnv) ← inferStmts scene (depth + 1) elseStatements bodyTy bodyEnv
    let joined := if branches.isEmpty then bodyEnv else bodyEnv.join (branches ++ [bodyEnv])
    let (_, joined) ← inferStmts scene (depth + 1) ensureStatements .nil joined
    return (elseTy, joined)
  | .rescueNode _ _ _, env => guarded depth env <| pure (.unknown, env)
  | .rescueModifier expression rescueExpression, env => guarded depth env do
    let (l, env) ← infer scene (depth + 1) expression env
    let (r, env) ← infer scene (depth + 1) rescueExpression env
    return (Ty.join l r, env)
  | .returnNode arguments, env => guarded depth env do
    let (tys, env) ← inferEach scene (depth + 1) arguments env
    let _ ← .query (.returns (returnedTy tys))
    return (.unknown, env)
  | .jump _ _, env => guarded depth env <| pure (.unknown, env)
  | .callNode loc msg receiver name arguments casts block, env => guarded depth env do
    let subjects := rspecRaiseSubjectSpans receiver name arguments
    let _ ← .query (.armSubjects subjects)
    let (ty, env) ← inferReceiver scene (depth + 1) receiver env
    let extending := name = "extend" ∧ scene.closedWorld
    let env := match receiver.bind localName with
      | some var => if extending then env.insert var .unknown else env
      | none => env
    match receiver with
    | some (.ivarRead ivar) =>
      if name = "extend" then let _ ← .query (.ivarWrite ivar .unknown)
    | _ => pure ()
    let receiver' : Receiver :=
      { ty, name := receiver.bind exprName, isSelf := receiver.all isSelf }
    let _ ← .query (.disarmSubjects subjects.length)
    let (args, env) ← inferArgs scene (depth + 1) arguments casts env
    let env ← inferBlock scene (depth + 1) receiver' name block env
    let site : CallQuery :=
      { depth := depth + 1, loc, msg, receiver := receiver', name, args := args.reduceOption,
        exactArity := args.all Option.isSome }
    return (← .query (.call site), env)
  | .blockNode _ _ _, env => guarded depth env <| pure (.unknown, env)
  | .callUpdate receiver value, env => guarded depth env do
    let (_, env) ← inferOpt scene (depth + 1) receiver env
    let (_, env) ← infer scene (depth + 1) value env
    return (.unknown, env)
  | .superNode keyword arguments, env => guarded depth env do
    let (_, env) ← inferEach scene (depth + 1) arguments env
    let _ ← .query (.superCall keyword)
    return (.unknown, env)
  | .forwardingSuper loc, env => guarded depth env do
    let _ ← .query (.superCall loc)
    return (.unknown, env)
  | .lambda params _ body, env => guarded depth env do
    let _ ← .query (.enterBlock none)
    let (_, blockEnv) ← inferOpt scene (depth + 1) body (env.addBlockParams params)
    let _ ← .query .leaveBlock
    return (.unknown, env.spillBlockWrites blockEnv)
  | .multiWrite lefts _ rights value, env => guarded depth env do
    let (_, env) ← infer scene (depth + 1) value env
    return (.unknown, env.insertUnknown ((lefts ++ rights).filterMap Target.directName))
  | .capture _ _, env => guarded depth env <| pure (.unknown, env)
  | .classNode _ _ _, env => guarded depth env <| pure (.unknown, env)
  | .singletonClass _ _, env => guarded depth env <| pure (.unknown, env)
  | .defNode _ _ _ _ _ _, env => guarded depth env <| pure (.sym, env)

/-- An absent part gives `nil`. -/
def inferOpt (scene : Scene) (depth : ℕ) : Option Expr → Env → Walk (Ty × Env)
  | none, env => pure (.nil, env)
  | some e, env => infer scene depth e env

/-- A call without a receiver is a call on `self`. -/
def inferReceiver (scene : Scene) (depth : ℕ) : Option Expr → Env → Walk (Ty × Env)
  | none, env => pure (scene.selfTy.asTy, env)
  | some e, env => infer scene depth e env

/-- `infer_stmts`, with the type of the statement before. -/
def inferStmts (scene : Scene) (depth : ℕ) : List Expr → Ty → Env → Walk (Ty × Env)
  | [], last, env => pure (last, env)
  | e :: rest, _, env => do
    let (ty, env) ← infer scene depth e env
    inferStmts scene depth rest ty env

def inferEach (scene : Scene) (depth : ℕ) : List Expr → Env → Walk (List Ty × Env)
  | [], env => pure ([], env)
  | e :: rest, env => do
    let (ty, env) ← infer scene depth e env
    let (tys, env) ← inferEach scene depth rest env
    return (ty :: tys, env)

def inferElements (scene : Scene) (depth : ℕ) : List Expr → Env → Walk (List (Option Ty) × Env)
  | [], env => pure ([], env)
  | .splat expression :: rest, env => do
    let (_, env) ← inferOpt scene depth expression env
    let (tys, env) ← inferElements scene depth rest env
    return (none :: tys, env)
  | e :: rest, env => do
    let (ty, env) ← infer scene depth e env
    let (tys, env) ← inferElements scene depth rest env
    return (some ty :: tys, env)

/-- The pairs of a hash; `**` gives none. -/
def inferAssocs (scene : Scene) (depth : ℕ) :
    List Expr → Env → Walk (List (Option (Ty × Ty)) × Env)
  | [], env => pure ([], env)
  | .assoc key value :: rest, env => do
    let (k, env) ← infer scene depth key env
    let (v, env) ← infer scene depth value env
    let (tys, env) ← inferAssocs scene depth rest env
    return (some (k, v) :: tys, env)
  | .splat expression :: rest, env => do
    let (_, env) ← inferOpt scene depth expression env
    let (tys, env) ← inferAssocs scene depth rest env
    return (none :: tys, env)
  | _ :: rest, env => do
    let (tys, env) ← inferAssocs scene depth rest env
    return (none :: tys, env)

/-- The arguments of a call; those that leave the arity open have no type of their own. -/
def inferArgs (scene : Scene) (depth : ℕ) :
    List Expr → List (Option Cast) → Env → Walk (List (Option Ty) × Env)
  | [], _, env => pure ([], env)
  | e :: rest, casts, env => do
    let (ty, env) ← infer scene depth e env
    let (tys, env) ← inferArgs scene depth rest casts.tail env
    let here := match e with
      | .splat _ => none
      | .hash true _ => none
      | _ => some (applyCast ty casts.head?.join)
    return (here :: tys, env)

def inferBlock (scene : Scene) (depth : ℕ) (receiver : Receiver) (name : String) :
    Option Expr → Env → Walk Env
  | some (.blockNode params _ body), env => do
    let subjects := minitestSubjectSpans name body
    let _ ← .query (.enterBlock (some (receiver, name)))
    let _ ← .query (.armSubjects subjects)
    let (_, blockEnv) ← inferOpt scene depth body (env.addBlockParams params)
    let _ ← .query (.disarmSubjects subjects.length)
    let _ ← .query .leaveBlock
    return env.spillBlockWrites blockEnv
  | _, env => pure env

/-- The `when` clauses: their types, the environments they end in, and the environment after
the conditions. -/
def inferWhens (scene : Scene) (depth : ℕ) (subject : Option String) :
    List Expr → Env → Walk (List Ty × List Env × Env)
  | [], env => pure ([], [], env)
  | .whenNode conditions statements :: rest, env => do
    let (_, env) ← inferEach scene depth conditions env
    let branch := match subject, scene.narrowOfWhen conditions with
      | some var, some ty => env.insert var ty
      | _, _ => env
    let (ty, branch) ← inferStmts scene depth statements .nil branch
    let (tys, branches, env) ← inferWhens scene depth subject rest env
    return (ty :: tys, branch :: branches, env)
  | _ :: rest, env => inferWhens scene depth subject rest env

/-- The rescue clauses, each from the environment before the body; the exceptions are walked
in the environment after it. -/
def inferRescues (scene : Scene) (depth : ℕ) (init : Env) :
    List Expr → Env → Walk (List Ty × List Env × Env)
  | [], env => pure ([], [], env)
  | .rescueNode exceptions reference statements :: rest, env => do
    let (_, env) ← inferEach scene depth exceptions env
    let clause := match reference.bind Target.directName with
      | some var => init.insert var .unknown
      | none => init
    let (ty, clause) ← inferStmts scene depth statements .nil clause
    let (tys, branches, env) ← inferRescues scene depth init rest env
    return (ty :: tys, clause :: branches, env)
  | _ :: rest, env => inferRescues scene depth init rest env

end

end Expr

end Itaruby
