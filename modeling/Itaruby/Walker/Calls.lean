import Itaruby.Walker.Harvest

/-!
The statements of a class body that do not contain other class-body statements: a `def`,
a call, an `alias`, a constant write.
-/

set_option autoImplicit false
set_option relaxedAutoImplicit false

namespace Itaruby

/-- `defines_no_method`: framework calls that register a hook and define nothing. -/
def definesNoMethod (name : String) : Bool :=
  name ∈
    ["validates", "validate", "validates_with", "validates_each", "validates_presence_of",
      "validates_uniqueness_of", "validates_length_of", "validates_format_of",
      "validates_numericality_of", "validates_inclusion_of", "validates_exclusion_of",
      "validates_associated", "validates_acceptance_of", "validates_confirmation_of",
      "validates_absence_of", "before_validation", "after_validation", "before_save",
      "after_save", "around_save", "before_create", "after_create", "around_create",
      "before_update", "after_update", "around_update", "before_destroy", "after_destroy",
      "around_destroy", "after_commit", "after_rollback", "after_initialize", "after_find",
      "after_touch", "before_action", "after_action", "around_action", "skip_before_action",
      "skip_after_action", "skip_around_action", "prepend_before_action",
      "prepend_after_action", "prepend_around_action", "rescue_from", "protect_from_forgery",
      "layout", "http_basic_authenticate_with", "helper", "helper_method", "queue_as",
      "retry_on", "discard_on", "sidekiq_options", "serialize", "attr_readonly",
      "default_scope"]

/-- `INJECTIONS`. -/
def injectionNames : List String :=
  ["include", "extend", "prepend", "class_eval", "module_eval", "instance_eval", "class_exec",
    "module_exec", "instance_exec", "send", "public_send", "__send__", "define_method",
    "define_singleton_method", "alias_method", "attr_accessor", "attr_reader", "attr_writer"]

/-- `core_injection_call`. -/
def coreInjectionCall (fe : Frontend) (receiver : Node) (name : String) : Bool :=
  name ∈ injectionNames &&
    match receiver.constPathStr with
    | some path => path.getLast?.any fe.isCoreNamespace
    | none => false

/-- The calls on `X.singleton_class` that open `X`. -/
def isSingletonClassPatch (name : String) : Bool :=
  isEvalName name || isSendName name ||
    name ∈ ["define_method", "define_singleton_method", "alias_method", "attr_reader",
      "attr_writer", "attr_accessor"]

def isMixinName (name : String) : Bool := name ∈ ["include", "extend", "prepend"]

def isMattrName (name : String) : Bool :=
  name ∈
    ["mattr_accessor", "mattr_reader", "mattr_writer", "cattr_accessor", "cattr_reader",
      "cattr_writer", "thread_mattr_accessor", "thread_mattr_reader", "thread_mattr_writer",
      "thread_cattr_accessor", "thread_cattr_reader", "thread_cattr_writer"]

def isVisibilityName (name : String) : Bool :=
  name ∈ ["private", "public", "protected", "module_function", "private_class_method",
    "public_class_method"]

def isNoOpName (name : String) : Bool :=
  name ∈ ["require", "require_relative", "private_constant", "public_constant", "freeze", "puts",
    "raise"]

/-- A boolean option of an accessor macro; `none` is a value the text does not decide. -/
def literalBool : Node → Option Bool
  | .trueNode _ => some true
  | .falseNode _ => some false
  | _ => none

/-- The `key: value` pairs of a keyword hash, `none` for an element that is not one. -/
def macroOptions (elements : List Node) : List (Option (String × Node)) :=
  elements.map fun element ↦
    match element with
    | .assocNode _ (.symbolNode _ key) value => some (key, value)
    | _ => none

/-- What an accessor macro is given: its names, its options, and whether all of it was read. -/
structure MacroArgs where
  attrs : List (String × Span) := []
  options : List (String × Node) := []
  allKnown : Bool := true

def MacroArgs.add (m : MacroArgs) : Node → MacroArgs
  | .symbolNode span name => { m with attrs := m.attrs ++ [(name, span)] }
  | .keywordHashNode _ elements =>
    { m with
      options := m.options ++ (macroOptions elements).filterMap id
      allKnown := m.allKnown && (macroOptions elements).all Option.isSome }
  | _ => { m with allKnown := false }

def macroArgs (args : List Node) : MacroArgs := args.foldl MacroArgs.add {}

namespace MacroArgs

/-- Whether an option was switched off: only a literal `false` switches one off. -/
def switchedOff (m : MacroArgs) (key : String) : Bool :=
  m.options.any fun (k, value) ↦ k == key && literalBool value == some false

/-- The last value of an option, when it was given. -/
def lastOption (m : MacroArgs) (key : String) : Option (Option Bool) :=
  (m.options.reverse.find? fun (k, _) ↦ k == key).map fun (_, value) ↦ literalBool value

end MacroArgs

def accessors (attrs : List (String × Span)) (reader writer predicate : Bool) : List MethodDef :=
  attrs.flatMap fun (attr, span) ↦
    (if reader then [MethodDef.synthetic attr 0 span] else []) ++
      (if writer then [MethodDef.synthetic (attr ++ "=") 1 span] else []) ++
      (if predicate then [MethodDef.synthetic (attr ++ "?") 0 span] else [])

namespace DefWalker

section

variable (env : WalkEnv) (ctx : WalkCtx)

/-! ### Definitions -/

/-- The openings and filings of a `def` in a class body before the method itself is filed. -/
def scanDef (w : DefWalker) (i : ℕ) (site : DefSite) (treatedAsSingleton : Bool) : DefWalker :=
  let w := if isMethodMissing site.name then w.openClass i .methodMissing else w
  let w :=
    if mayDefine (bodyTextOf env site) then
      w.applyBodyDefs i ctx.nesting treatedAsSingleton site.loc (dynamicDefsInBody env site)
    else w
  if (env.text.slice site.loc).contains "NotImplementedError" then w.openClass i .abstractRaise
  else w

/-- The hooks are read after the method is filed. -/
def harvestHooks (w : DefWalker) (i : ℕ) (site : DefSite) : DefWalker :=
  if site.name = "included" then w.harvestIncludedHook i site
  else if site.name = "extended" then w.harvestExtendedHook i site
  else w

/-- The `DefNode` arm of `walk_stmt`. -/
def walkDef (w : DefWalker) (site : DefSite) : DefWalker :=
  let (w, md) := w.methodDef env site
  let treatedAsSingleton :=
    ctx.inSingleton ||
      match site.receiver with
      | some receiver => receiver.isSelf
      | none => false
  match ctx.fragIdx with
  | some i =>
    let w := w.scanDef env ctx i site treatedAsSingleton
    let md :=
      { md with
        abstractStub := (env.text.slice site.loc).contains "NotImplementedError" }
    if treatedAsSingleton then (w.fileTrack i true [md]).harvestHooks i site
    else w.fileTrack i false [md]
  | none => if isMethodMissing site.name then { w with coreMixin := true } else w

/-! ### Calls with a block -/

/-- The method a block or argument spelling of `define_method` names, or the opening. -/
def walkDefineMethod (w : DefWalker) (i : ℕ) (call : CallSite) : DefWalker :=
  match call.firstLiteralName with
  | some m =>
    w.fileTrack i ctx.inSingleton
      [{ MethodDef.synthetic m 0 call.loc with arityUnknown := true }]
  | none => w.openClass i .dynamicDefineMethod

/-- A call with a literal block in a class body. -/
def walkBlockCall (w : DefWalker) (i : ℕ) (call : CallSite) : DefWalker :=
  if call.name = "define_method" ∧ call.receiver.isNone then w.walkDefineMethod ctx i call
  else if call.name = "sig" ∧ call.receiver.isNone then
    let w := { w with pendingSorbetRet := extractSigReturn env.text call }
    if sigBlockIsRecognized call then w else w.openClass i .classBodyBlock
  else if call.name = "class_methods" ∧ call.receiver.isNone ∧ ctx.scope ≠ [] ∧
      isConcernEdge (w.fragmentAt i).extends' then
    (w.harvestClassMethodsBlock env i ctx call).openClass i .classBodyBlock
  else
    ((w.harvestBlockConsts i call).harvestBlockNestedDefinitions ctx call
      |>.harvestInterpolatedEvalDefs env.toFrontend i call).openClass i .classBodyBlock

/-! ### Mixins -/

/-- `X.singleton_class.include M`: an edge on the class object of `X`. -/
def walkSingletonMixin (w : DefWalker) (owner : ConstPath) (call : CallSite) : DefWalker :=
  let (w, oi) := w.fragmentIdxFor owner ctx.nesting
  if call.name = "extend" then w.openClass oi .singletonClassExpr
  else
    let w := (call.arguments.filterMap Node.constPathStr).foldl
      (fun w path ↦ w.modifyFragment oi (·.pushExtends path)) w
    if call.arguments.all fun arg ↦ arg.constPathStr.isSome then w
    else w.openClass oi .dynamicMixinArg

/-- One argument of `include`, `extend` or `prepend` in a class body. -/
def walkMixinArg (i : ℕ) (name : String) (w : DefWalker) (arg : Node) : DefWalker :=
  match arg.constPathStr with
  | some path =>
    if (name = "include" ∨ name = "prepend") ∧ ctx.inSingleton then
      w.modifyFragment i (·.pushExtends path)
    else if name = "include" then
      w.modifyFragment i fun f ↦ { f with includes := f.includes ++ [path] }
    else if name = "extend" then
      w.modifyFragment i fun f ↦ { f with extends' := f.extends' ++ [path] }
    else w.modifyFragment i fun f ↦ { f with prepends := f.prepends ++ [path] }
  | none =>
    if arg.isSelf ∧ name = "extend" ∧ ctx.scope ≠ [] then
      w.modifyFragment i fun f ↦ { f with extends' := f.extends' ++ [ctx.scope] }
    else w.openClass i .dynamicMixinArg

def walkMixin (w : DefWalker) (call : CallSite) : DefWalker :=
  match singletonClassOwner call with
  | some owner => w.walkSingletonMixin ctx owner call
  | none =>
    match ctx.fragIdx with
    | none =>
      if call.receiver.isNone ∧ call.name = "include" then { w with coreMixin := true } else w
    | some i =>
      if call.receiver.isNone ∨ call.receiverIsSelf then
        call.arguments.foldl (walkMixinArg ctx i call.name) w
      else w.openClass i .dynamicMixinReceiver

/-! ### Receiverless calls -/

/-- `attr_reader`, `attr_writer`, `attr_accessor` on one track. -/
def walkAttr (w : DefWalker) (i : ℕ) (inSingleton : Bool) (call : CallSite) : DefWalker :=
  let attrs := call.arguments.filterMap fun arg ↦ arg.symbolName.map fun name ↦ (name, arg.loc)
  let w := w.fileTrack i inSingleton (attrMethods call.name attrs)
  if call.arguments.all fun arg ↦ arg.symbolName.isSome then w
  else w.openClass i .dynamicAttrArg

/-- Both tracks of a class-level accessor macro; the class stays open. -/
def fileAccessors (w : DefWalker) (i : ℕ) (singleton instance' : List MethodDef)
    (allKnown : Bool) : DefWalker :=
  let w := ((w.fileTrack i true singleton).fileTrack i false instance').openClass i
    .unknownClassBodyCall
  if allKnown then w else w.openClass i .dynamicAttrArg

def walkMattr (w : DefWalker) (i : ℕ) (call : CallSite) : DefWalker :=
  let args := macroArgs call.arguments
  let wantsReader := !call.name.endsWith "_writer"
  let wantsWriter := !call.name.endsWith "_reader"
  let accessorOff := args.switchedOff "instance_accessor"
  let instanceReader := wantsReader && !accessorOff && !args.switchedOff "instance_reader"
  let instanceWriter := wantsWriter && !accessorOff && !args.switchedOff "instance_writer"
  w.fileAccessors i (accessors args.attrs wantsReader wantsWriter false)
    (accessors args.attrs instanceReader instanceWriter false) args.allKnown

/-- An option of `class_attribute`: a value the text does not decide falls back to the default,
and so does an option that was not given. -/
def effectiveOption (args : MacroArgs) (key : String) (default : Bool) : Bool :=
  match args.lastOption key with
  | some (some value) => value
  | _ => default

def walkClassAttribute (w : DefWalker) (i : ℕ) (call : CallSite) : DefWalker :=
  let args := macroArgs call.arguments
  let accessor := effectiveOption args "instance_accessor" true
  let reader := effectiveOption args "instance_reader" accessor
  let writer := effectiveOption args "instance_writer" accessor
  let predicate := effectiveOption args "instance_predicate" true
  w.fileAccessors i (accessors args.attrs true true predicate)
    (accessors args.attrs reader writer (predicate && reader)) args.allKnown

def walkAliasMethod (w : DefWalker) (i : ℕ) (call : CallSite) : DefWalker :=
  match call.arguments.head?.bind Node.symbolName with
  | some m =>
    w.fileTrack i ctx.inSingleton
      [{ MethodDef.synthetic m 0 call.loc with arityUnknown := true }]
  | none => w.openClass i .dynamicAliasMethod

/-- A visibility modifier: a `def` among the arguments is a statement of the body. -/
def walkVisibility (w : DefWalker) (i : ℕ) (call : CallSite) : DefWalker :=
  let w :=
    if call.name = "module_function" ∧ ctx.scope ≠ [] then
      w.modifyFragment i fun f ↦ { f with extends' := f.extends' ++ [ctx.scope] }
    else w
  (call.arguments.filterMap Node.asDef).foldl (fun w site ↦ w.walkDef env ctx site) w

/-- The receiverless calls of a class body by name. -/
def walkMacro (w : DefWalker) (i : ℕ) (call : CallSite) : DefWalker :=
  if isAttrName call.name then w.walkAttr i ctx.inSingleton call
  else if isMattrName call.name then w.walkMattr i call
  else if call.name = "class_attribute" then w.walkClassAttribute i call
  else if call.name = "define_method" then w.walkDefineMethod ctx i call
  else if call.name = "alias_method" then w.walkAliasMethod ctx i call
  else if call.name ∈ ["class_eval", "module_eval", "instance_eval", "send", "public_send",
      "__send__", "delegate", "define_singleton_method"] then w.openClass i .evalOrSend
  else if call.name = "mixes_in_class_methods" then
    (w.modifyFragment i fun f ↦
      { f with
        mixesInClassMethods :=
          f.mixesInClassMethods ++ call.arguments.filterMap Node.constPathStr }).openClass i
      .unknownClassBodyCall
  else if isVisibilityName call.name then w.walkVisibility env ctx i call
  else if isNoOpName call.name || definesNoMethod call.name then w
  else w.openClass i .unknownClassBodyCall

/-! ### The `CallNode` arm -/

/-- `self.table_name = ..`; a value that is no plain string still overrides the convention. -/
def walkTableName (w : DefWalker) (call : CallSite) : DefWalker :=
  match ctx.fragIdx with
  | some i =>
    let decl := match call.arguments.head? with
      | some (.stringNode _ s) => TableNameDecl.literal s
      | _ => .dynamic
    w.modifyFragment i fun f ↦ { f with tableName := some decl }
  | none => w

def walkRequire (w : DefWalker) (call : CallSite) : DefWalker :=
  match call.arguments.head? with
  | some (.stringNode _ lib) =>
    if lib = "" ∨ lib ∈ w.requires then w else { w with requires := w.requires ++ [lib] }
  | _ => w

/-- A call in a body, or at top level. -/
def walkCall (w : DefWalker) (call : CallSite) : DefWalker :=
  let w :=
    if call.receiver.any fun receiver ↦ coreInjectionCall env.toFrontend receiver call.name then
      { w with coreMixin := true }
    else w
  match (singletonClassOwner call).filter fun _ ↦ isSingletonClassPatch call.name with
  | some owner =>
    w.pushFragment
      (ClassFragment.bornOpen
        { path := owner, nesting := ctx.nesting, isModule := false, declaredOwnerRequired := true }
        .evalOrSend)
  | none =>
    if call.hasBlockNode then
      match ctx.fragIdx with
      | some i => w.walkBlockCall env ctx i call
      | none => w
    else if call.name = "table_name=" ∧ call.receiverIsSelf then w.walkTableName ctx call
    else if isMixinName call.name then w.walkMixin ctx call
    else if call.name = "require" ∧ call.receiver.isNone then w.walkRequire call
    else if call.receiver.any isOwnSingletonClass then
      match ctx.fragIdx with
      | some i => if isAttrName call.name then w.walkAttr i true call else w
      | none => w
    else if call.receiver.isSome then w
    else
      match ctx.fragIdx with
      | some i => w.walkMacro env ctx i call
      | none => w

/-! ### Aliases and constants -/

/-- The `AliasMethodNode` arm. -/
def walkAlias (w : DefWalker) (span : Span) (newName : Node) : DefWalker :=
  match ctx.fragIdx, newName.symbolName with
  | some i, some m =>
    w.fileTrack i ctx.inSingleton [{ MethodDef.synthetic m 0 span with arityUnknown := true }]
  | _, _ => w

/-- A write whose right-hand side is a constant path is an alias. -/
def pushAlias (w : DefWalker) (full : ConstPath) (value : Node) : DefWalker :=
  match value.constPathStr with
  | some target => { w with constAliases := w.constAliases ++ [(full, ctx.nesting, target)] }
  | none => w

/-- The `ConstantWriteNode` arm. -/
def walkConstWrite (w : DefWalker) (nameLoc : Span) (name : String) (value : Node) : DefWalker :=
  let w := match ctx.fragIdx with
    | some i => w.modifyFragment i fun f ↦ { f with consts := f.consts ++ [name] }
    | none => { w with toplevelConsts := w.toplevelConsts ++ [name] }
  let full := joinPath ctx.scope [name]
  { w with consts := w.consts ++ [(full, nameLoc.1, nameLoc.2)] }.pushAlias ctx full value

/-- The `ConstantPathWriteNode` arm. -/
def walkConstPathWrite (w : DefWalker) (span : Span) (target value : Node) : DefWalker :=
  match target.constPathStr with
  | some path =>
    let full := trimCbase path
    let w := { w with consts := w.consts ++ [(full, span.1, span.2)] }
    let w := match rsplitPath full with
      | some write => { w with qualifiedWrites := w.qualifiedWrites ++ [write] }
      | none => { w with toplevelConsts := w.toplevelConsts ++ full }
    w.pushAlias ctx full value
  | none => w

end

end DefWalker

end Itaruby
