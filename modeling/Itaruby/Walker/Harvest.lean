import Itaruby.Walker.BodyDefs

/-!
The shallow harvests: constants, nested definitions and string templates in a class-body
block, the `class_methods` block of a concern, and the `included` and `extended` hooks of
a module.
-/

set_option autoImplicit false
set_option relaxedAutoImplicit false

namespace Itaruby

/-- `is_concern_edge`. -/
def isConcernEdge (extends' : List ConstPath) : Bool :=
  extends'.any fun e ↦ trimCbase e == ["ActiveSupport", "Concern"]

/-! ### Class-body blocks -/

/-- The owner and the name of a qualified constant write. -/
def rsplitPath (full : ConstPath) : Option (ConstPath × String) :=
  match full.dropLast, full.getLast? with
  | [], _ => none
  | owner, some simple => some (owner, simple)
  | _, none => none

/-- `sole_block_param`. -/
def soleBlockParam (params : Option Params) : Option String :=
  match params with
  | some { requireds := [some only], optionals := 0, rest := false, posts := 0, keywords := [],
           keywordRest := .none, block := false } => some only
  | _ => none

/-- `literal_string_elements`: all or nothing. -/
def literalStringElements (elements : List Node) : List String :=
  (elements.mapM Node.literalMethodName).getD []

structure EvalTemplate where
  text : Text
  span : Span
  explicitTarget : Option ConstPath

/-- The text of a template, with the loop parameter left in place. -/
def templateText (param : String) : List Node → Option Text
  | [] => some []
  | .stringNode _ s :: rest => (templateText param rest).map (s.toList ++ ·)
  | .embeddedStatementsNode _ (some (.statementsNode _ [.localVariableReadNode _ read])) :: rest =>
    if read = param then
      (templateText param rest).map ((['#', '\x7b'] ++ param.toList ++ ['\x7d']) ++ ·)
    else none
  | _ :: _ => none

/-- `EvalTemplateScan::template_of` for one call. -/
def evalTemplate (param : String) (call : CallSite) : Option EvalTemplate :=
  if isEvalName call.name then
    match call.arguments with
    | .interpolatedStringNode span parts :: _ =>
      (templateText param parts).map fun text ↦
        { text, span
          explicitTarget :=
            if call.receiverIsSelf then none else call.receiver.bind Node.constPathStr }
    | _ => none
  else none

/-- `eval_string_templates`. -/
def evalStringTemplates (body : Node) (param : String) : List EvalTemplate :=
  Node.visit
    (fun n recur (found : List EvalTemplate) ↦
      match n.asCall with
      | some call => recur (found ++ (evalTemplate param call).toList)
      | none => recur found)
    body []

/-- `top_level_def_names`: nothing on a source that does not parse. -/
def topLevelDefNames (fe : Frontend) (source : Text) : List String :=
  let parsed := fe.parse source
  if parsed.errors then []
  else
    match parsed.node with
    | .programNode _ (.statementsNode _ body) => (body.filterMap Node.asDef).map (·.name)
    | _ => []

/-- The state of `NestedDefScan`. -/
structure NestedDefScan where
  scope : ConstPath
  nesting : List ConstPath
  out : List (ConstPath × List ConstPath × Bool) := []

namespace NestedDefScan

/-- A `class` or `module` keyword: its path from the lexical scope, for what is below it. -/
def enterPath (constantPath : Node) (isModule : Bool) (recur : NestedDefScan → NestedDefScan)
    (s : NestedDefScan) : NestedDefScan :=
  match constantPath.constPathStr with
  | some path =>
    let full := joinPath s.scope path
    let nesting := s.nesting ++ [full]
    let s' := recur { scope := full, nesting, out := s.out ++ [(full, nesting, isModule)] }
    { s' with scope := s.scope, nesting := s.nesting }
  | none => recur s

def enter (n : Node) (recur : NestedDefScan → NestedDefScan) (s : NestedDefScan) :
    NestedDefScan :=
  match n with
  | .classNode _ constantPath _ _ => enterPath constantPath false recur s
  | .moduleNode _ constantPath _ => enterPath constantPath true recur s
  | _ => recur s

end NestedDefScan

namespace DefWalker

/-- `harvest_block_consts`: the constants written directly in a class-body block. -/
def harvestBlockConst (i : ℕ) (w : DefWalker) (stmt : Node) : DefWalker :=
  match stmt with
  | .constantWriteNode _ _ name _ =>
    w.modifyFragment i fun f ↦ { f with consts := f.consts ++ [name] }
  | .constantPathWriteNode _ target _ =>
    match target.constPathStr.bind fun path ↦ rsplitPath (trimCbase path) with
    | some write => { w with qualifiedWrites := w.qualifiedWrites ++ [write] }
    | none => w
  | _ => w

def harvestBlockConsts (w : DefWalker) (i : ℕ) (call : CallSite) : DefWalker :=
  (call.blockStatements.getD []).foldl (harvestBlockConst i) w

/-- `harvest_block_nested_definitions`: what a block defines by keyword is born open. -/
def harvestBlockNestedDefinitions (w : DefWalker) (ctx : WalkCtx) (call : CallSite) : DefWalker :=
  match call.blockBody with
  | some body =>
    let scan := Node.visit NestedDefScan.enter body { scope := ctx.scope, nesting := ctx.nesting }
    scan.out.foldl
      (fun w (path, nesting, isModule) ↦
        w.pushFragment
          (ClassFragment.bornOpen { path, nesting, isModule } .blockNestedDefinition))
      w
  | none => w

/-- The names one template of an evaluated string defines, once for each element. -/
def harvestTemplate (fe : Frontend) (i : ℕ) (param : String) (elements : List String)
    (w : DefWalker) (template : EvalTemplate) : DefWalker :=
  if template.explicitTarget.any fun target ↦ target != (w.fragmentAt i).path then w
  else
    let placeholder := ['#', '\x7b'] ++ param.toList ++ ['\x7d']
    let names := elements.flatMap fun element ↦
      topLevelDefNames fe (Text.replaceAll template.text placeholder element.toList)
    w.fileTrack i false
      (names.map fun name ↦
        { MethodDef.synthetic name 0 template.span with arityUnknown := true })

/-- `harvest_interpolated_eval_defs`. -/
def harvestInterpolatedEvalDefs (fe : Frontend) (w : DefWalker) (i : ℕ) (call : CallSite) :
    DefWalker :=
  match call.name, call.receiver, soleBlockParam call.blockParameters, call.blockBody with
  | "each", some (.arrayNode _ elements), some param, some body =>
    match literalStringElements elements with
    | [] => w
    | elements =>
      (evalStringTemplates body param).foldl (harvestTemplate fe i param elements) w
  | _, _, _, _ => w

/-- The top-level receiverless `def`s of a `class_methods` block. -/
def classMethodsDefs (env : WalkEnv) (w : DefWalker) (stmts : List Node) :
    DefWalker × List MethodDef :=
  stmts.foldl
    (fun (w, defs) stmt ↦
      match stmt.asDef with
      | some site =>
        if site.receiver.isSome then (w, defs)
        else
          let (w, md) := w.methodDef env site
          (w, defs ++ [md])
      | none => (w, defs))
    (w, [])

/-- `harvest_class_methods_block`: the concern's `ClassMethods` module. -/
def harvestClassMethodsBlock (env : WalkEnv) (w : DefWalker) (i : ℕ) (ctx : WalkCtx)
    (call : CallSite) : DefWalker :=
  match call.blockStatements with
  | none => w
  | some stmts =>
    let path := ctx.scope ++ ["ClassMethods"]
    let (w, defs) := w.classMethodsDefs env stmts
    if defs.isEmpty then w
    else
      let w := w.modifyFragment i (·.pushExtends path)
      match w.fragments.findIdx? (·.path == path) with
      | some idx => w.fileTrack idx false defs
      | none =>
        w.pushFragment
          { path, nesting := ctx.nesting ++ [path], isModule := true, methods := defs }

/-! ### Hooks -/

/-- `hook_receiver_param_name`. -/
def hookReceiverParamName (site : DefSite) : Option String := soleBlockParam site.parameters

/-- `hook_param_read`. -/
def hookParamRead (pname : String) : Node → Bool
  | .localVariableReadNode _ name => name == pname
  | _ => false

/-- The symbols of an argument list, all or nothing. -/
def symbolArguments (args : List Node) : Option (List (String × Span)) :=
  args.mapM fun arg ↦ arg.symbolName.map fun name ↦ (name, arg.loc)

/-- The methods of an `attr_*` call for its literal names. -/
def attrMethods (name : String) (attrs : List (String × Span)) : List MethodDef :=
  attrs.flatMap fun (attr, span) ↦
    (attrPair name attr).map fun (m, required) ↦ MethodDef.synthetic m required span

/-- One statement of an `included` hook on the hook's own parameter. -/
def harvestIncludedStmt (i : ℕ) (pname : String) (w : DefWalker) (stmt : Node) : DefWalker :=
  match stmt.asCall with
  | some call =>
    if call.receiver.any (hookParamRead pname) then
      if isAttrName call.name then
        match symbolArguments call.arguments with
        | some attrs => w.fileTrack i false (attrMethods call.name attrs)
        | none => w
      else if call.name = "define_method" then
        match call.firstLiteralName with
        | some m =>
          w.fileTrack i false
            [{ MethodDef.synthetic m 0 stmt.loc with arityUnknown := true }]
        | none => w
      else w
    else w
  | none => w

/-- `harvest_included_hook`. -/
def harvestIncludedHook (w : DefWalker) (i : ℕ) (site : DefSite) : DefWalker :=
  match hookReceiverParamName site, site.body.bind Node.statementsOf with
  | some pname, some stmts => stmts.foldl (harvestIncludedStmt i pname) w
  | _, _ => w

/-- `count_local_reads`. -/
def countLocalReads (n : Node) (name : String) : ℕ :=
  Node.visit
    (fun n recur (count : ℕ) ↦ if hookParamRead name n then count + 1 else recur count)
    n 0

/-- `delegate_arg_unreadable`. -/
def delegateArgUnreadable : Node → Bool
  | .keywordHashNode _ elements =>
    !elements.all fun element ↦
      match element with
      | .assocNode _ (.symbolNode _ key) _ => key ∈ ["to", "allow_nil", "private", "public"]
      | _ => false
  | _ => true

/-- `hook_delegate_names`: no arguments, or an unreadable one, is an unreadable set. -/
def hookDelegateNames (args : List Node) : Option (List (String × Span)) :=
  if args.isEmpty then none
  else if args.any fun arg ↦ arg.symbolName.isNone && delegateArgUnreadable arg then none
  else some (args.filterMap fun arg ↦ arg.symbolName.map fun name ↦ (name, arg.loc))

def hookOpaque (w : DefWalker) (i : ℕ) : DefWalker :=
  w.modifyFragment i fun f ↦ { f with hookInstallsOpaque := true }

def hookInstances (w : DefWalker) (i : ℕ) (names : List (String × Span)) : DefWalker :=
  w.modifyFragment i fun f ↦ { f with hookInstanceInstalls := f.hookInstanceInstalls ++ names }

def hookSingletons (w : DefWalker) (i : ℕ) (names : List (String × Span)) : DefWalker :=
  w.modifyFragment i fun f ↦ { f with hookSingletonInstalls := f.hookSingletonInstalls ++ names }

/-- One statement of a literal `base.class_eval` block. -/
def harvestExtendedEvalStmt (i : ℕ) (w : DefWalker) (stmt : Node) : DefWalker :=
  match stmt.asDef with
  | some site => if site.receiver.isNone then w.hookInstances i [(site.name, stmt.loc)] else w
  | none =>
    match stmt.asCall with
    | some call =>
      if isSendName call.name then w.hookOpaque i
      else if call.name = "define_method" then
        match call.firstLiteralName with
        | some n => w.hookInstances i [(n, stmt.loc)]
        | none => w.hookOpaque i
      else w
    | none => w

/-- `harvest_extended_call`: the install shapes on the base itself. -/
def harvestExtendedCall (w : DefWalker) (i : ℕ) (call : CallSite) : DefWalker :=
  if call.name = "delegate" then
    match hookDelegateNames call.arguments with
    | some names => w.hookInstances i names
    | none => w.hookOpaque i
  else if call.name = "define_method" then
    match call.firstLiteralName with
    | some n => w.hookInstances i [(n, call.loc)]
    | none => w.hookOpaque i
  else if call.name = "define_singleton_method" then
    match call.firstLiteralName with
    | some n => w.hookSingletons i [(n, call.loc)]
    | none => w.hookOpaque i
  else if call.name ∈ ["class_eval", "module_eval", "class_exec", "module_exec"] then
    if !call.arguments.isEmpty then w.hookOpaque i
    else (call.blockStatements.getD []).foldl (harvestExtendedEvalStmt i) w
  else if isSendName call.name || call.name = "instance_eval" || call.name = "instance_exec" then
    w.hookOpaque i
  else w

/-- `harvest_extended_stmt`: the second part says whether the statement consumed a read of the
hook's parameter. -/
def harvestExtendedStmt (i : ℕ) (pname : String) (w : DefWalker) (stmt : Node) :
    DefWalker × Bool :=
  match stmt.asDef with
  | some site =>
    if site.receiver.any (hookParamRead pname) then
      (w.hookSingletons i [(site.name, stmt.loc)], true)
    else (w, false)
  | none =>
    match stmt.asCall with
    | some call =>
      if call.receiver.any (hookParamRead pname) then (w.harvestExtendedCall i call, true)
      else (w, false)
    | none => (w, false)

/-- `harvest_extended_hook`: a read of the parameter that no install shape consumed makes the
installs unknowable. -/
def harvestExtendedHook (w : DefWalker) (i : ℕ) (site : DefSite) : DefWalker :=
  match hookReceiverParamName site, site.body with
  | some pname, some body =>
    match body.statementsOf with
    | some stmts =>
      let (w, consumed) := stmts.foldl
        (fun (w, consumed) stmt ↦
          let (w, used) := w.harvestExtendedStmt i pname stmt
          (w, consumed + if used then 1 else 0))
        (w, 0)
      if consumed < countLocalReads body pname then w.hookOpaque i else w
    | none => w
  | _, _ => w

end DefWalker

end Itaruby
