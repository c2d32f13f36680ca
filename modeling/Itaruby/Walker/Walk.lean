import Itaruby.Walker.Calls

/-!
The definition walk over one file's tree.
-/

set_option autoImplicit false
set_option relaxedAutoImplicit false

namespace Itaruby

namespace WalkCtx

def toplevel : WalkCtx := { scope := [], nesting := [], fragIdx := none, inSingleton := false }

end WalkCtx

namespace DefWalker

/-- The entry of `walk_body`: a fragment of its own for every body but the top level. -/
def enterBody (w : DefWalker) (scope : ConstPath) (nesting : List ConstPath) :
    DefWalker × WalkCtx :=
  if scope = [] then (w, { scope, nesting, fragIdx := none, inSingleton := false })
  else
    (w.pushFragment { path := scope, nesting, isModule := false },
      { scope, nesting, fragIdx := some w.fragments.length, inSingleton := false })

/-- The header of a class, read after its body, goes to the last fragment of its path. -/
def closeClass (fe : Frontend) (w : DefWalker) (full : ConstPath) (superclass : Option Node) :
    DefWalker :=
  match w.lastFragmentIdx full with
  | none => w
  | some i =>
    let w := match superclass with
      | some node =>
        match node.constPathStr with
        | some sc => w.modifyFragment i fun f ↦ { f with superclass := some sc }
        | none => w.openClassHeader i .dynamicSuperclass
      | none => w
    if fe.isKnownExternalClassPath full then w.openClassHeader i .reopenedExternal else w

def closeModule (w : DefWalker) (full : ConstPath) : DefWalker :=
  match w.lastFragmentIdx full with
  | none => w
  | some i => w.modifyFragment i fun f ↦ { f with isModule := true }

/-- The enclosing class of a `class << X` with another expression than `self` opens. -/
def closeSingletonClass (ctx : WalkCtx) (w : DefWalker) : DefWalker :=
  match ctx.fragIdx with
  | some i => w.openClass i .singletonClassExpr
  | none => w

/-- The fragment the body of `class << X` is walked in. -/
def enterSingletonClass (ctx : WalkCtx) (w : DefWalker) (owner : ConstPath) :
    DefWalker × WalkCtx :=
  let (w, oi) := w.fragmentIdxFor owner ctx.nesting
  (w, { scope := owner, nesting := (w.fragmentAt oi).nesting, fragIdx := some oi,
        inSingleton := true })

variable (env : WalkEnv)

mutual

/-- `walk_stmts` when `asBody`, `walk_stmt` otherwise; the two differ on the nodes that hold
statements. -/
def walk (asBody : Bool) : Node → WalkCtx → DefWalker → DefWalker
  | .programNode _ statements, ctx, w => if asBody then walk true statements ctx w else w
  | .statementsNode _ body, ctx, w => if asBody then walkEach body ctx w else w
  | .classNode _ constantPath superclass body, ctx, w =>
    match constantPath.constPathStr with
    | some path =>
      let full := joinPath ctx.scope path
      let nesting := ctx.nesting ++ [full]
      let w :=
        if body.isSome then
          let (w, inner) := w.enterBody full nesting
          walkBody body inner w
        else w.pushFragment { path := full, nesting, isModule := false }
      w.closeClass env.toFrontend full superclass
    | none => w
  | .moduleNode _ constantPath body, ctx, w =>
    match constantPath.constPathStr with
    | some path =>
      let full := joinPath ctx.scope path
      let nesting := ctx.nesting ++ [full]
      let w :=
        if body.isSome then
          let (w, inner) := w.enterBody full nesting
          walkBody body inner w
        else w.pushFragment { path := full, nesting, isModule := true }
      w.closeModule full
    | none => w
  | .singletonClassNode _ expression body, ctx, w =>
    if expression.isSelf then walkBody body { ctx with inSingleton := true } w
    else
      let w := match expression.constPathStr with
        | some owner =>
          if body.isSome then
            let (w, inner) := w.enterSingletonClass ctx owner
            walkBody body inner w
          else w
        | none => w
      w.closeSingletonClass ctx
  | .defNode loc nameLoc receiver name parameters _ body, ctx, w =>
    w.walkDef env ctx { loc, nameLoc, receiver, name, parameters, body }
  | .constantWriteNode _ nameLoc name value, ctx, w => w.walkConstWrite ctx nameLoc name value
  | .constantPathWriteNode loc target value, ctx, w => w.walkConstPathWrite ctx loc target value
  | .callNode loc receiver name arguments block, ctx, w =>
    w.walkCall env ctx { loc, receiver, name, arguments, block }
  | .aliasMethodNode loc newName _, ctx, w => w.walkAlias ctx loc newName
  | .ifNode _ _ statements subsequent, ctx, w =>
    walkBody subsequent ctx (walkBody statements ctx w)
  | .unlessNode _ _ statements _, ctx, w => walkBody statements ctx w
  | .elseNode _ statements, ctx, w => walkBody statements ctx w
  | .beginNode _ statements rescueClause elseClause ensureClause, ctx, w =>
    walkClause ensureClause ctx (walkClause elseClause ctx
      (walkClause rescueClause ctx (walkBody statements ctx w)))
  | _, _, w => w

/-- The statements of a body, one by one. A return type read off a `sig` survives only to the
`def` right after it. -/
def walkEach : List Node → WalkCtx → DefWalker → DefWalker
  | [], _, w => w
  | stmt :: rest, ctx, w =>
    let w := if isSigCallOrDef stmt then w else { w with pendingSorbetRet := none }
    walkEach rest ctx (walk false stmt ctx w)

def walkBody : Option Node → WalkCtx → DefWalker → DefWalker
  | none, _, w => w
  | some n, ctx, w => walk true n ctx w

/-- A `rescue`, `else` or `ensure` arm of a `begin`, with the `rescue` arms after it. -/
def walkArm : Node → WalkCtx → DefWalker → DefWalker
  | .rescueNode _ _ statements subsequent, ctx, w =>
    walkClause subsequent ctx (walkBody statements ctx w)
  | .elseNode _ statements, ctx, w => walkBody statements ctx w
  | .ensureNode _ statements, ctx, w => walkBody statements ctx w
  | _, _, w => w

def walkClause : Option Node → WalkCtx → DefWalker → DefWalker
  | none, _, w => w
  | some n, ctx, w => walkArm n ctx w

end

/-- The walk of a whole file. -/
def walkFile (root : Node) : DefWalker := walk env true root .toplevel {}

end DefWalker

end Itaruby
