import Itaruby.Walker.Walk

/-!
The file-wide traversal: the mixins, refinements, evaluated bodies and injections that may
stand anywhere in a file, each with the lexical nesting it is written in. Together with
the definition walk it gives the definitions of one file.
-/

set_option autoImplicit false
set_option relaxedAutoImplicit false

namespace Itaruby

/-! ### What a call or a body can define -/

/-- The names of a definer's literal arguments; one that is not literal hides them all. -/
def literalNames (args : List Node) : Option (List String) := args.mapM Node.literalMethodName

def namesSource (names : Option (List String)) : List PollutionSource :=
  match names with
  | none => [.opaqueBody]
  | some [] => []
  | some names => [.names names]

/-- `attr_sources`. -/
def attrSources (name : String) (args : List Node) : List PollutionSource :=
  namesSource ((literalNames args).map fun names ↦
    names.flatMap fun m ↦
      (if name = "attr_writer" then [] else [m]) ++
        (if name = "attr_accessor" ∨ name = "attr_writer" then [m ++ "="] else []))

/-- `mixin_sources`. -/
def mixinSources (args : List Node) : List PollutionSource :=
  args.map fun arg ↦
    match arg.constPathStr with
    | some path => .module (trimCbase path)
    | none => .opaqueBody

def isKeywordHash : Node → Bool
  | .keywordHashNode .. => true
  | _ => false

/-- `delegate_sources`. -/
def delegateSources (args : List Node) : List PollutionSource :=
  namesSource (literalNames (args.filter fun arg ↦ !isKeywordHash arg))

/-- `definer_sources_named`. -/
def definerSourcesNamed (name : String) : List Node → List PollutionSource
  | [] =>
    if name ∈ ["define_method", "define_singleton_method", "alias_method", "def_delegator",
        "def_delegators", "def_instance_delegator", "send", "public_send", "__send__"] then
      [.opaqueBody]
    else if name = "delegate_missing_to" then
      [.names ["method_missing", "respond_to_missing?"]]
    else []
  | arg :: rest =>
    if name ∈ ["define_method", "define_singleton_method", "alias_method"] then
      match arg.literalMethodName with
      | some m => [.names [m]]
      | none => [.opaqueBody]
    else if isAttrName name || name == "attr" then attrSources name (arg :: rest)
    else if isMixinName name then mixinSources (arg :: rest)
    else if name = "delegate" then delegateSources (arg :: rest)
    else if name = "delegate_missing_to" then
      [.names ["method_missing", "respond_to_missing?"]]
    else if name ∈ ["def_delegator", "def_delegators", "def_instance_delegator"] then
      [.opaqueBody]
    else if isSendName name then
      match arg.literalMethodName with
      | some inner => definerSourcesNamed inner rest
      | none => [.opaqueBody]
    else []

/-- `INERT_BODY_CALLS`. -/
def inertBodyCalls : List String :=
  ["private", "public", "protected", "module_function", "private_class_method",
    "public_class_method", "private_constant", "public_constant", "require",
    "require_relative", "freeze", "raise", "puts", "warn", "using"]

/-- `call_statement_pollution`. -/
def callStatementPollution (call : CallSite) : List PollutionSource :=
  let defs := (call.arguments.filterMap Node.asDef).map fun site ↦ PollutionSource.names [site.name]
  let definers := definerSourcesNamed call.name call.arguments
  if !definers.isEmpty then defs ++ definers
  else if call.receiver.isSome then defs
  else if call.block.isSome then defs ++ [.opaqueBody]
  else if !defs.isEmpty || call.name ∈ inertBodyCalls then defs
  else [.opaqueBody]

/-- `nested_statements`: what a wrapper statement holds. -/
def nestedStatements : Node → List Node
  | .singletonClassNode _ _ body => body.toList
  | .ifNode _ _ statements subsequent => statements.toList ++ subsequent.toList
  | .unlessNode _ _ statements elseClause => statements.toList ++ elseClause.toList
  | .elseNode _ statements => statements.toList
  | .beginNode _ statements _ _ _ => statements.toList
  | _ => []

/-- `statement_pollution`, given what a wrapped body can define. -/
def statementPollution (wrapped : Node → List PollutionSource) (stmt : Node) :
    List PollutionSource :=
  match stmt.asDef with
  | some site => [.names [site.name]]
  | none =>
    match stmt with
    | .aliasMethodNode _ newName _ =>
      match newName.literalMethodName with
      | some n => [.names [n]]
      | none => [.opaqueBody]
    | _ =>
      match stmt.asCall with
      | some call => callStatementPollution call
      | none => (nestedStatements stmt).flatMap wrapped

/-- `statements_pollution` with the number of wrappers still to be looked through. -/
def statementsPollution : ℕ → Node → List PollutionSource
  | 0, _ => [.opaqueBody]
  | depth + 1, body =>
    (body.statementsOf.getD [body]).flatMap (statementPollution (statementsPollution depth))

/-- `block_pollution`: a block argument is a body this file does not contain. -/
def blockPollution (block : Option Node) : List PollutionSource :=
  match block with
  | none => []
  | some (.blockNode _ _ _ none) => []
  | some (.blockNode _ _ _ (some body)) => statementsPollution 4 body
  | some _ => [.opaqueBody]

/-! ### Names in strings -/

/-- `lines`, without the line ends. -/
def textLines (text : Text) : List Text :=
  (text.splitOn '\n').map fun line ↦
    match line.reverse with
    | '\r' :: rest => rest.reverse
    | _ => line

def stripPrefix (start : String) (text : Text) : Option Text :=
  if start.toList.isPrefixOf text then some (text.drop start.length) else none

/-- The constant a line of generated source defines by keyword. -/
def stringSourceName (line : Text) : Option String :=
  let line := line.trimStart
  match (stripPrefix "class " line).or (stripPrefix "module " line) with
  | some rest =>
    let name := rest.trimStart.takeWhile fun c ↦ c.isAlphanum || c == '_'
    match name with
    | first :: _ => if first.isUpper then some (String.ofList name) else none
    | [] => none
  | none => none

/-- `collect_string_source_consts`. -/
def collectStringSourceConsts (found : List String) (body : String) : List String :=
  ((textLines body.toList).filterMap stringSourceName).foldl
    (fun found name ↦ if name ∈ found then found else found ++ [name]) found

/-! ### The traversal -/

/-- `mixin_track`. -/
def mixinTrack (name : String) : Option MixinTrack :=
  if name = "include" ∨ name = "prepend" then some .instanceTrack
  else if name = "extend" then some .singletonTrack
  else none

/-- `ternary_const_paths`: both arms of a conditional, when each is a constant path. -/
def ternaryConstPaths : Node → Option (List ConstPath)
  | .ifNode _ _ (some thenArm) (some (.elseNode _ (some elseArm))) =>
    match thenArm.soleStatement.bind Node.constPathStr,
      elseArm.soleStatement.bind Node.constPathStr with
    | some thenPath, some elsePath => some [thenPath, elsePath]
    | _, _ => none
  | _ => none

structure FileScan where
  nesting : List ConstPath := []
  targets : List (MixinTrack × ConstPath × List ConstPath) := []
  refineTargets : List (ConstPath × List ConstPath) := []
  refinedUnknown : Bool := false
  evalTargets : List (ConstPath × List ConstPath) := []
  evalUnknown : Bool := false
  keyedPollution : List (Option ConstPath × List ConstPath × PollutionSource) := []
  stringSourceConsts : List String := []
  nested : ℕ := 0
  attributedMixinEdges : List AttributedMixinEdge := []
  constReturningMethods : List (String × ConstPath × List ConstPath) := []
  loadHookBases : List (ConstPath × List ConstPath) := []
  defLocals : List (AList fun _ : String ↦ List MixinReceiver) := []

namespace FileScan

def scope (s : FileScan) : ConstPath := s.nesting.getLast?.getD []

def pushScope (s : FileScan) (constantPath : Node) : FileScan :=
  match constantPath.constPathStr with
  | some path => { s with nesting := s.nesting ++ [joinPath s.scope path] }
  | none => s

def popScope (s : FileScan) (constantPath : Node) : FileScan :=
  match constantPath.constPathStr with
  | some _ => { s with nesting := s.nesting.dropLast }
  | none => s

/-- `value_receivers`: the classes the value of an expression provably names. -/
def valueReceivers (s : FileScan) (n : Node) : List MixinReceiver :=
  match n.constPathStr with
  | some path => [.path path s.nesting]
  | none =>
    match ternaryConstPaths n with
    | some paths => paths.map fun path ↦ .path path s.nesting
    | none =>
      match n.asCall with
      | some call =>
        if call.receiver.isNone ∧ call.arguments.isEmpty ∧ call.block.isNone ∧ call.name ≠ "" then
          [.call call.name]
        else []
      | none => []

/-- `receiver_of`. -/
def receiverOf (s : FileScan) (receiver : Node) : List MixinReceiver :=
  match receiver with
  | .localVariableReadNode _ name =>
    match s.defLocals with
    | frame :: _ => (frame.lookup name).getD []
    | [] => []
  | _ => s.valueReceivers receiver

def pushKeyed (s : FileScan) (target : Option ConstPath) (sources : List PollutionSource) :
    FileScan :=
  { s with
    keyedPollution := s.keyedPollution ++ sources.map fun source ↦ (target, s.nesting, source) }

def noteDynamicMixin (call : CallSite) (s : FileScan) : FileScan :=
  match mixinTrack call.name, call.receiver with
  | some track, some receiver =>
    if receiver.constPathStr.isNone ∧ receiver.isSelf = false then
      { s with
        targets := s.targets ++ (call.arguments.filterMap Node.constPathStr).map fun name ↦
          (track, name, s.nesting) }
    else s
  | _, _ => s

/-- `note_attributed_mixin`: all the arguments, or none. -/
def noteAttributedMixin (call : CallSite) (s : FileScan) : FileScan :=
  match mixinTrack call.name, call.receiver, call.arguments.mapM Node.constPathStr with
  | some .instanceTrack, some receiver, some modules =>
    if receiver.isSelf then s
    else
      { s with
        attributedMixinEdges := s.attributedMixinEdges ++
          (s.receiverOf receiver).flatMap fun r ↦
            modules.map fun m ↦ { receiver := r, module := m, moduleNesting := s.nesting } }
  | _, _, _ => s

def noteRefinement (call : CallSite) (s : FileScan) : FileScan :=
  if call.name = "refine" ∧ call.block.isSome then
    let target := (call.arguments.head?.bind Node.constPathStr).map trimCbase
    let s := s.pushKeyed target (blockPollution call.block)
    match target with
    | some path => { s with refineTargets := s.refineTargets ++ [(path, s.nesting)] }
    | none => { s with refinedUnknown := true }
  else s

/-- `eval_target`. -/
def evalTarget (s : FileScan) (call : CallSite) : Option ConstPath :=
  match call.receiver with
  | none => s.nesting.getLast?
  | some receiver => if receiver.isSelf then s.nesting.getLast? else receiver.constPathStr

/-- `note_eval_keyed`. -/
def noteEvalKeyed (s : FileScan) (call : CallSite) (target : Option ConstPath)
    (stringBody : Bool) : FileScan :=
  if stringBody then s.pushKeyed target [.opaqueBody]
  else
    match target with
    | none => s
    | some _ => s.pushKeyed target (blockPollution call.block)

def noteOpaqueEval (call : CallSite) (s : FileScan) : FileScan :=
  let hasArg := !call.arguments.isEmpty
  if call.name = "eval" then
    if hasArg then { s with evalUnknown := true }.pushKeyed none [.opaqueBody] else s
  else if isEvalName call.name then
    let stringBody := hasArg && call.name ∈ ["class_eval", "module_eval", "instance_eval"]
    if stringBody = false ∧ call.block.isNone then s
    else
      let target := (s.evalTarget call).map trimCbase
      let s := match target with
        | some path => { s with evalTargets := s.evalTargets ++ [(path, s.nesting)] }
        | none => if stringBody then { s with evalUnknown := true } else s
      s.noteEvalKeyed call target stringBody
  else s

/-- `injection_target`. -/
def injectionTarget (s : FileScan) (call : CallSite) : Option ConstPath :=
  match call.receiver with
  | none =>
    if call.name = "include" ∧ s.nesting = [] ∧ s.nested = 0 then some ["Object"] else none
  | some receiver =>
    if receiver.isSelf then s.nesting.getLast? else receiver.constPathStr.map trimCbase

def noteInjection (call : CallSite) (s : FileScan) : FileScan :=
  match definerSourcesNamed call.name call.arguments, s.injectionTarget call with
  | [], _ => s
  | sources, some target => s.pushKeyed (some target) sources
  | _, none => s

/-- `note_load_hook_base`. -/
def noteLoadHookBase (call : CallSite) (s : FileScan) : FileScan :=
  if call.name = "run_load_hooks" then
    match call.arguments with
    | [.symbolNode .., base] =>
      match base.constPathStr with
      | some base => { s with loadHookBases := s.loadHookBases ++ [(base, s.nesting)] }
      | none => s
    | _ => s
  else s

/-- `note_const_returning_body`. -/
def noteConstReturningBody (site : DefSite) (s : FileScan) : FileScan :=
  if site.receiver.isSome then s
  else
    match site.body.bind Node.soleStatement with
    | some only =>
      let paths := ((ternaryConstPaths only).or (only.constPathStr.map fun p ↦ [p])).getD []
      { s with
        constReturningMethods := s.constReturningMethods ++
          paths.map fun path ↦ (site.name, path, s.nesting) }
    | none => s

/-- A top-level `def method_missing` answers on every receiver. -/
def noteToplevelMissing (site : DefSite) (s : FileScan) : FileScan :=
  if s.nesting = [] ∧ s.nested = 0 ∧ site.receiver.isNone ∧
      DefWalker.isMethodMissing site.name then
    { s with
      keyedPollution := s.keyedPollution ++ [(some ["Object"], [], .names [site.name])] }
  else s

def enterDef (site : DefSite) (s : FileScan) : FileScan :=
  let s := noteConstReturningBody site (noteToplevelMissing site s)
  { s with nested := s.nested + 1, defLocals := ∅ :: s.defLocals }

def leaveDef (s : FileScan) : FileScan :=
  { s with nested := s.nested - 1, defLocals := s.defLocals.tail }

/-- A write replaces what the name held, also by nothing. -/
def noteLocalWrite (name : String) (value : Node) (s : FileScan) : FileScan :=
  match s.defLocals with
  | [] => s
  | frame :: frames =>
    let frame := match s.valueReceivers value with
      | [] => frame.erase name
      | candidates => frame.insert name candidates
    { s with defLocals := frame :: frames }

def noteCall (call : CallSite) (s : FileScan) : FileScan :=
  noteLoadHookBase call (noteInjection call (noteOpaqueEval call (noteRefinement call
    (noteAttributedMixin call (noteDynamicMixin call s)))))

def enter (n : Node) (recur : FileScan → FileScan) (s : FileScan) : FileScan :=
  match n with
  | .classNode _ constantPath _ _ => (recur (s.pushScope constantPath)).popScope constantPath
  | .moduleNode _ constantPath _ => (recur (s.pushScope constantPath)).popScope constantPath
  | .defNode loc nameLoc receiver name parameters _ body =>
    (recur (s.enterDef { loc, nameLoc, receiver, name, parameters, body })).leaveDef
  | .blockNode .. =>
    let s := recur { s with nested := s.nested + 1 }
    { s with nested := s.nested - 1 }
  | .localVariableWriteNode _ name value => recur (s.noteLocalWrite name value)
  | .stringNode _ body =>
    recur { s with stringSourceConsts := collectStringSourceConsts s.stringSourceConsts body }
  | .callNode loc receiver name arguments block =>
    recur (s.noteCall { loc, receiver, name, arguments, block })
  | _ => recur s

end FileScan

/-- The traversal of a whole file. -/
def scanFile (root : Node) : FileScan := Node.visit FileScan.enter root {}

def walkEnv (fe : Frontend) (text : Text) : WalkEnv :=
  { fe with text, sigComments := sigCommentsOf fe text (fe.parse text).comments }

def fileDefsOf (w : DefWalker) (scan : FileScan) : FileDefs :=
  { fragments := w.fragments, sigErrors := w.sigErrors, coreMixin := w.coreMixin
    refineTargets := scan.refineTargets, refinedUnknown := scan.refinedUnknown
    evalTargets := scan.evalTargets, evalUnknown := scan.evalUnknown
    keyedPollution := scan.keyedPollution, stringSourceConsts := scan.stringSourceConsts
    consts := w.consts, requires := w.requires, toplevelConsts := w.toplevelConsts
    qualifiedWrites := w.qualifiedWrites, constAliases := w.constAliases
    dynamicMixinTargets := scan.targets, attributedMixinEdges := scan.attributedMixinEdges
    constReturningMethods := scan.constReturningMethods, loadHookBases := scan.loadHookBases }

/-- `parse_defs_text`. -/
def parseDefsText (fe : Frontend) (text : Text) : FileDefs :=
  let root := (fe.parse text).node
  fileDefsOf (DefWalker.walkFile (walkEnv fe text) root) (scanFile root)

end Itaruby
