import Itaruby.Index.Reconcile

/-!
Building the project index: the merge of the project's files and the passes that run over
the merged table, in the order of `build_index`. The passes that only fill the pollution
and census tables are left out; no modelled function reads those.
-/

set_option autoImplicit false
set_option relaxedAutoImplicit false

namespace Itaruby

/-! ### Schemas -/

structure SchemaColumn where
  typeName : String
  span : Span

/-- `SchemaIndex`, with the naming convention and the types of the columns. -/
structure Schema where
  file : SourceFile
  tables : AList fun _ : String ↦ List (String × SchemaColumn)
  deriveTableName : ConstPath → String
  colRbsTy : String → RbsTy

def insertNew (table : MethodTable) (name : String) (sig : MethodSig) : MethodTable :=
  match table.lookup name with
  | some _ => table
  | none => table.insert name sig

/-- The reader and the writer of one column; a method of the model itself stays. -/
def addColumn (schema : Schema) (methods : MethodTable) (col : String × SchemaColumn) :
    MethodTable :=
  let sig (required : ℕ) (ret : RbsTy) (colType : Option String) : MethodSig :=
    { required, optional := 0, rest := false, keywords := [], kwrest := false
      sig := some { params := [], ret, typeParams := [] }, sorbetRet := none
      arityUnknown := false, abstractStub := false, file := schema.file
      defSpan := col.2.span, nameSpan := col.2.span, schemaColType := colType }
  insertNew (insertNew methods col.1 (sig 0 (schema.colRbsTy col.2.typeName) none))
    (col.1 ++ "=") (sig 1 (.simple "void") (some col.2.typeName))

def schemaTableOf (schema : Schema) (cls : ClassDef) : Option (List (String × SchemaColumn)) :=
  if cls.isModule then none
  else if cls.superclass = some ["ApplicationRecord"] ∨
      cls.superclass = some ["ActiveRecord", "Base"] then
    match cls.tableName with
    | some .dynamic => none
    | some (.literal name) => schema.tables.lookup name
    | none => schema.tables.lookup (schema.deriveTableName cls.path)
  else none

/-- The attributes of one class. -/
def addSchemaAttributes (schema : Schema) (cls : ClassDef) : ClassDef :=
  match schemaTableOf schema cls with
  | some columns => { cls with methods := columns.foldl (addColumn schema) cls.methods }
  | none => cls

/-! ### Opening at merge time -/

/-- What `merge_open` does to a class: any reason replaces a missing one and `abstractRaise`. -/
def ClassDef.openFor (cls : ClassDef) (reason : OpenReason) : ClassDef :=
  { cls with
    isOpen := true
    openReason :=
      if cls.openReason = none ∨ cls.openReason = some .abstractRaise then some reason
      else cls.openReason
    grounds := cls.grounds ++ [{ reason }] }

/-- A method that an `extended` hook installs on its extender. -/
def hookInstallSig (span : Span) (file : SourceFile) : MethodSig :=
  { required := 0, optional := 0, rest := false, keywords := [], kwrest := false, sig := none
    sorbetRet := none, arityUnknown := true, abstractStub := false, file, defSpan := span
    nameSpan := span }

/-- `gem_namespace_key`. -/
def gemNamespaceKey (name : String) : String :=
  String.ofList ((name.toList.filter Char.isAlphanum).map Char.toLower)

namespace ProjectIndex

def mergeOpen (ix : ProjectIndex) (id : ClassId) (reason : OpenReason) : ProjectIndex :=
  ix.modifyClass id (·.openFor reason)

def openEach (ix : ProjectIndex) (ids : List ClassId) (reason : OpenReason) : ProjectIndex :=
  ids.foldl (fun ix id ↦ ix.mergeOpen id reason) ix

/-- The stand-down flags an ignored file raises. -/
def mergeIgnoredPollution (ix : ProjectIndex) (defs : FileDefs) : ProjectIndex :=
  { ix with
    coreMixin := ix.coreMixin || defs.coreMixin
    refineRaw := ix.refineRaw ++ defs.refineTargets
    refinedUnknown := ix.refinedUnknown || defs.refinedUnknown
    evalRaw := ix.evalRaw ++ defs.evalTargets
    evalPollutedUnknown := ix.evalPollutedUnknown || defs.evalUnknown
    keyedRaw := ix.keyedRaw ++ defs.keyedPollution }

/-- A curated declaration fills a path that the project never defined. -/
def mergeDeclaredFragment (ix : ProjectIndex) (frag : ClassFragment) : ProjectIndex :=
  match ix.byPath.lookup frag.path with
  | some _ => ix
  | none =>
    let (ix, id) := ix.intern frag.path
    ix.modifyClass id fun cls ↦
      { cls with
        isModule := frag.isModule
        isOpen := true
        openReason := some .declaredExternal
        grounds := [{ reason := .declaredExternal }] }

def mergeSchemaDeclarations (ix : ProjectIndex) (schema : Option Schema) : ProjectIndex :=
  match schema with
  | some schema => { ix with classes := ix.classes.map (addSchemaAttributes schema) }
  | none => ix

/-- The classes whose path satisfies a condition. -/
def idsWhere (ix : ProjectIndex) (p : ConstPath → Bool) : List ClassId :=
  (ix.byPath.entries.filter fun entry ↦ p entry.1).map Sigma.snd

def applyGemReopenings (ix : ProjectIndex) (namespaces : Finset String) : ProjectIndex :=
  ix.openEach
    (ix.idsWhere fun path ↦ gemNamespaceKey (path.headD "") ∈ namespaces)
    .reopenedExternal

def applyMockSingletonSurface (ix : ProjectIndex) (namespaces : Finset String) : ProjectIndex :=
  if "rspecmocks" ∈ namespaces ∨ "mocha" ∈ namespaces then
    { ix with
      mockSingletonMethods :=
        if "any_instance" ∈ ix.mockSingletonMethods then ix.mockSingletonMethods
        else ix.mockSingletonMethods ++ ["any_instance"] }
  else ix

/-- A nested path whose top segment the project itself never declares. -/
def undeclaredNamespace (ix : ProjectIndex) : ConstPath → Bool
  | top :: _ :: _ =>
    match ix.byPath.lookup [top] with
    | some id => (ix.classOf id).openReason == some .declaredExternal
    | none => true
  | _ => false

def applyUndeclaredNamespaceReopenings (ix : ProjectIndex) : ProjectIndex :=
  ix.openEach (ix.idsWhere ix.undeclaredNamespace) .reopenedExternal

/-- A bare stub whose name the project also writes in generated source. -/
def isStringSourceStub (ix : ProjectIndex) (id : ClassId) : Bool :=
  let cls := ix.classOf id
  cls.methods.entries.isEmpty && cls.singletonMethods.entries.isEmpty &&
    cls.path.getLast?.any fun last ↦ last ∈ ix.stringSourceConsts

def applyStringSourceDefinitions (ix : ProjectIndex) : ProjectIndex :=
  { ix.openEach ((List.range ix.classes.length).filter ix.isStringSourceStub)
      .stringSourceDefined with
    stringSourceConsts := [] }

/-- The edge from a concern to the `ClassMethods` module nested in it. -/
def concernEdge (ix : ProjectIndex) (id : ClassId) : Option (ClassId × ConstPath) :=
  let cls := ix.classOf id
  let nested := cls.path ++ ["ClassMethods"]
  if (cls.extends'.any fun e ↦ trimCbase e == ["ActiveSupport", "Concern"]) ∧
      (ix.byPath.lookup nested).isSome then
    some (id, nested)
  else none

def addExtends (ix : ProjectIndex) (edge : ClassId × ConstPath) : ProjectIndex :=
  ix.modifyClass edge.1 fun cls ↦
    if edge.2 ∈ cls.extends' then cls else { cls with extends' := cls.extends' ++ [edge.2] }

def applyConcernClassMethods (ix : ProjectIndex) : ProjectIndex :=
  ((List.range ix.classes.length).filterMap ix.concernEdge).foldl addExtends ix

def resolveQualifiedWrite (ix : ProjectIndex) (write : ConstPath × String) : ProjectIndex :=
  match ix.byPath.lookup write.1 with
  | some id => ix.modifyClass id fun cls ↦ { cls with consts := cls.consts ++ [write.2] }
  | none => { ix with toplevelConsts := insert (write.1 ++ [write.2]) ix.toplevelConsts }

/-- `resolve_qualified_const_writes`. -/
def resolveQualifiedConstWrites (ix : ProjectIndex) (writes : List (ConstPath × String)) :
    ProjectIndex :=
  writes.foldl resolveQualifiedWrite ix

/-- What a patch by name adds to the class it names. -/
def patchClass (cls : ClassDef) (frag : ClassFragment) (file : SourceFile) : ClassDef :=
  let cls := mergeHookInstalls cls frag file
  { cls with
    extends' := frag.extends'.foldl
      (fun known path ↦ if path ∈ known then known else known ++ [path]) cls.extends'
    singletonMethods := frag.singletonMethods.foldl
      (fun table md ↦ insertNew table md.name (methodSig md file)) cls.singletonMethods
    isOpen := cls.isOpen || frag.isOpen
    openReason :=
      if frag.isOpen then mergeOpenReason cls.openReason frag.openReason else cls.openReason
    grounds := cls.grounds ++ frag.grounds }

def applySingletonPatch (ix : ProjectIndex) (patch : SourceFile × ClassFragment) : ProjectIndex :=
  match ix.byPath.lookup patch.2.path with
  | some id => ix.modifyClass id fun cls ↦ patchClass cls patch.2 patch.1
  | none => ix

def applySingletonPatches (ix : ProjectIndex) : ProjectIndex :=
  { ix.singletonPatches.foldl applySingletonPatch ix with singletonPatches := [] }

/-- The paths the receiver of an attributed mixin call may hold. -/
def candidatePaths (ix : ProjectIndex) : MixinReceiver → List (ConstPath × List ConstPath)
  | .path path nesting => [(path, nesting)]
  | .call method => (ix.constReturningMethods.lookup method).getD []

/-- The receivers one edge proves: the mixed-in module answers every name itself. -/
def edgeReceivers (ix : ProjectIndex) (edge : AttributedMixinEdge) : List ClassId :=
  match ix.resolveConst edge.moduleNesting edge.module with
  | some mid =>
    let module := ix.classOf mid
    if module.defines "method_missing" || module.defines "respond_to_missing?" then
      (ix.candidatePaths edge.receiver).filterMap fun (path, nesting) ↦
        ix.resolveConst nesting path
    else []
  | none => []

/-- `attributed_mixin_receivers`; every receiver opens for the same reason, in any order. -/
def attributedMixinReceivers (ix : ProjectIndex) : List ClassId :=
  (ix.attributedMixinRaw.flatMap ix.edgeReceivers).dedup

def applyAttributedMixinEdges (ix : ProjectIndex) : ProjectIndex :=
  { ix.openEach ix.attributedMixinReceivers .methodMissing with attributedMixinRaw := [] }

def applyLoadHookOpenness (ix : ProjectIndex) : ProjectIndex :=
  { ix.openEach
      (ix.loadHookRaw.filterMap fun (base, nesting) ↦ ix.resolveConst nesting base)
      .evalOrSend with
    loadHookRaw := [] }

/-- The `(extender, module)` edges of the index. -/
def extendEdges (ix : ProjectIndex) : List (ClassId × ClassId) :=
  (List.range ix.classes.length).flatMap fun id ↦
    let cls := ix.classOf id
    (cls.extends'.filterMap (ix.resolveConst cls.nesting)).map fun module ↦ (id, module)

def installHooks (table : MethodTable) (installs : List (String × Span × SourceFile)) :
    MethodTable :=
  installs.foldl
    (fun table (name, span, file) ↦ insertNew table name (hookInstallSig span file)) table

/-- What the hook of a module installs on a class that extends it. -/
def installFrom (module cls : ClassDef) : ClassDef :=
  { cls with
    methods := installHooks cls.methods module.hookInstanceInstalls
    singletonMethods := installHooks cls.singletonMethods module.hookSingletonInstalls }

/-- `apply_one_extended_hook`. -/
def applyOneExtendedHook (ix : ProjectIndex) (edge : ClassId × ClassId) : ProjectIndex :=
  let module := ix.classOf edge.2
  let ix := ix.modifyClass edge.1 (installFrom module)
  if module.hookInstallsOpaque then ix.mergeOpen edge.1 .evalOrSend else ix

def applyExtendedHooks (ix : ProjectIndex) : ProjectIndex :=
  ix.extendEdges.foldl applyOneExtendedHook ix

/-- `carries_own_surface`. -/
def carriesOwnSurface (cls : ClassDef) : Bool :=
  !cls.methods.entries.isEmpty || !cls.singletonMethods.entries.isEmpty ||
    !cls.includes.isEmpty || !cls.prepends.isEmpty || !cls.extends'.isEmpty

/-- A top-level module that nests a definition and has no surface of its own. -/
def isNamespaceOnly (ix : ProjectIndex) (path : ConstPath) : Bool :=
  path.length == 1 &&
    (ix.byPath.entries.any fun entry ↦
      entry.1.length ≥ 2 && entry.1.take 1 == path) &&
    match ix.byPath.lookup path with
    | some id => (ix.classOf id).isModule && !carriesOwnSurface (ix.classOf id)
    | none => false

def applyNamespaceOnlyModules (ix : ProjectIndex) : ProjectIndex :=
  ix.openEach (ix.idsWhere ix.isNamespaceOnly) .namespaceOnlyModule

/-- One fragment of an ignored file: the class of its path opens when there is one. -/
def applyIgnoredFragment (ix : ProjectIndex) (frag : ClassFragment) : ProjectIndex :=
  let ix := match ix.byPath.lookup frag.path with
    | some id => ix.mergeOpen id .ignoredReopening
    | none => ix
  { ix with evalPollutedCore := insert frag.path ix.evalPollutedCore }

def applyIgnoredOpenness (ix : ProjectIndex) (ignored : List FileDefs) : ProjectIndex :=
  (ignored.flatMap FileDefs.fragments).foldl applyIgnoredFragment ix

end ProjectIndex

/-- What a build reads: the project's files, the ignored files, the curated declarations, the
schema and the lock file's namespaces. -/
structure BuildInput where
  files : List (SourceFile × FileDefs)
  ignored : List FileDefs := []
  declared : List ClassFragment := []
  schema : Option Schema := none
  gemNamespaces : Option (Finset String) := none

namespace ProjectIndex

/-- The passes before the superclass headers are reconciled. -/
def mergeInput (input : BuildInput) : ProjectIndex :=
  input.declared.foldl mergeDeclaredFragment
    (input.ignored.foldl mergeIgnoredPollution (({} : ProjectIndex).mergeFiles input.files))

def applyGemNamespaces (ix : ProjectIndex) (namespaces : Option (Finset String)) : ProjectIndex :=
  match namespaces with
  | some namespaces =>
    (ix.applyGemReopenings namespaces).applyMockSingletonSurface namespaces
  | none => ix

/-- The passes after it. -/
def applyPasses (input : BuildInput) (ix : ProjectIndex) : ProjectIndex :=
  ((ix.mergeSchemaDeclarations input.schema).applyGemNamespaces input.gemNamespaces)
    |>.applyUndeclaredNamespaceReopenings
    |>.applyStringSourceDefinitions
    |>.applyConcernClassMethods
    |>.resolveQualifiedConstWrites (input.files.flatMap fun (_, defs) ↦ defs.qualifiedWrites)
    |>.applySingletonPatches
    |>.applyAttributedMixinEdges
    |>.applyLoadHookOpenness
    |>.applyExtendedHooks
    |>.applyNamespaceOnlyModules
    |>.applyIgnoredOpenness input.ignored

/-- `build_index`. -/
def buildIndex (input : BuildInput) : Fueled ProjectIndex := do
  let ix ← (mergeInput input).reconcileSuperclasses
  (applyPasses input ix).buildSubclassMap

end ProjectIndex

end Itaruby
