import Mathlib.Data.Finset.Union
import Mathlib.Data.List.AList

/-!
The merged class table. A constant path is the list of its `::`-separated
pieces as written, so `::Foo` is `["", "Foo"]` and the concatenation
`{level}::{name}` is list append; the text `""` of the top-level scope is the
empty list of pieces here, which no written name is.
-/

set_option autoImplicit false
set_option relaxedAutoImplicit false

namespace Itaruby

abbrev ConstPath := List String

abbrev ClassId := ℕ

/-- A source file, identified by its path. -/
abbrev SourceFile := String

abbrev Span := ℕ × ℕ

instance ConstPath.lawfulBEq : LawfulBEq ConstPath := inferInstance

instance Span.lawfulBEq : LawfulBEq Span := inferInstance

/-- `strip_prefix("::")`. -/
def stripCbase : ConstPath → Option ConstPath
  | "" :: first :: rest => some (first :: rest)
  | _ => none

/-- `trim_start_matches("::")`. -/
def trimCbase : ConstPath → ConstPath
  | "" :: first :: rest => trimCbase (first :: rest)
  | path => path

/-- `!name.contains("::")`. -/
def singleSegment (name : ConstPath) : Bool := name.length == 1

inductive OpenReason
  | dynamicSuperclass
  | methodMissing
  | abstractRaise
  | dynamicMixinReceiver
  | dynamicMixinArg
  | dynamicAttrArg
  | dynamicDefineMethod
  | dynamicAliasMethod
  | evalOrSend
  | unknownClassBodyCall
  | classBodyBlock
  | singletonClassExpr
  | declaredExternal
  | reopenedExternal
  | unattributed
  | nestedDefOwner
  | blockNestedDefinition
  | stringSourceDefined
  | namespaceOnlyModule
  | ignoredReopening
  deriving DecidableEq, Repr

/-- A ground on which a class was opened: a record beside the program's own state, which no
operation reads. A ground is masked when it came from the header of a class whose fragment was
open for `abstractRaise` by then. -/
structure Ground where
  reason : OpenReason
  masked : Bool := false
  deriving DecidableEq, Repr

inductive TableNameDecl
  | literal (name : String)
  | dynamic
  deriving DecidableEq, Repr

inductive RbsTy
  | simple (name : String)
  | generic (name : String) (args : List RbsTy)
  | nilable (ty : RbsTy)
  | union (tys : List RbsTy)
  deriving Repr, BEq

inductive RbsParam
  | required (ty : RbsTy)
  | optional (ty : RbsTy)
  | keyword (name : String) (ty : RbsTy) (isRequired : Bool)
  deriving Repr, BEq

structure RbsSig where
  params : List RbsParam
  ret : RbsTy
  typeParams : List String
  deriving Repr, BEq

/-- A method as one file's walk records it. -/
structure MethodDef where
  name : String
  required : ℕ := 0
  optional : ℕ := 0
  rest : Bool := false
  keywords : List (String × Bool) := []
  kwrest : Bool := false
  block : Bool := false
  sig : Option RbsSig := none
  sorbetRet : Option String := none
  arityUnknown : Bool := false
  abstractStub : Bool := false
  nameSpan : Span
  defSpan : Span

def MethodDef.synthetic (name : String) (required : ℕ) (span : Span) : MethodDef :=
  { name, required, nameSpan := span, defSpan := span }

/-- One `class` or `module` body, or one patch by name. -/
structure ClassFragment where
  path : ConstPath
  nesting : List ConstPath
  isModule : Bool
  superclass : Option ConstPath := none
  includes : List ConstPath := []
  prepends : List ConstPath := []
  extends' : List ConstPath := []
  mixesInClassMethods : List ConstPath := []
  methods : List MethodDef := []
  singletonMethods : List MethodDef := []
  consts : List String := []
  isOpen : Bool := false
  openReason : Option OpenReason := none
  tableName : Option TableNameDecl := none
  declaredOwnerRequired : Bool := false
  hookInstanceInstalls : List (String × Span) := []
  hookSingletonInstalls : List (String × Span) := []
  hookInstallsOpaque : Bool := false
  grounds : List Ground := []

inductive MixinTrack
  | instanceTrack
  | singletonTrack
  deriving DecidableEq, Repr

inductive MixinReceiver
  | path (path : ConstPath) (nesting : List ConstPath)
  | call (method : String)
  deriving DecidableEq, Repr

structure AttributedMixinEdge where
  receiver : MixinReceiver
  module : ConstPath
  moduleNesting : List ConstPath
  deriving DecidableEq, Repr

inductive PollutionSource
  | names (names : List String)
  | module (path : ConstPath)
  | opaqueBody
  deriving DecidableEq, Repr

/-- What one file's text says: the fragments and the project-wide contributions. -/
structure FileDefs where
  fragments : List ClassFragment := []
  sigErrors : List (ℕ × ℕ × String) := []
  coreMixin : Bool := false
  refineTargets : List (ConstPath × List ConstPath) := []
  refinedUnknown : Bool := false
  evalTargets : List (ConstPath × List ConstPath) := []
  evalUnknown : Bool := false
  keyedPollution : List (Option ConstPath × List ConstPath × PollutionSource) := []
  stringSourceConsts : List String := []
  consts : List (ConstPath × ℕ × ℕ) := []
  requires : List String := []
  toplevelConsts : List String := []
  qualifiedWrites : List (ConstPath × String) := []
  constAliases : List (ConstPath × List ConstPath × ConstPath) := []
  dynamicMixinTargets : List (MixinTrack × ConstPath × List ConstPath) := []
  attributedMixinEdges : List AttributedMixinEdge := []
  constReturningMethods : List (String × ConstPath × List ConstPath) := []
  loadHookBases : List (ConstPath × List ConstPath) := []

/-- A method as the merged table keeps it. -/
structure MethodSig where
  required : ℕ
  optional : ℕ
  rest : Bool
  keywords : List (String × Bool)
  kwrest : Bool
  sig : Option RbsSig
  sorbetRet : Option String
  arityUnknown : Bool
  abstractStub : Bool
  file : SourceFile
  defSpan : Span
  nameSpan : Span
  schemaColType : Option String := none

def methodSig (md : MethodDef) (file : SourceFile) : MethodSig :=
  { required := md.required, optional := md.optional, rest := md.rest, keywords := md.keywords,
    kwrest := md.kwrest, sig := md.sig, sorbetRet := md.sorbetRet,
    arityUnknown := md.arityUnknown, abstractStub := md.abstractStub, file,
    defSpan := md.defSpan, nameSpan := md.nameSpan }

abbrev MethodTable := AList fun _ : String ↦ MethodSig

structure ClassDef where
  path : ConstPath
  nesting : List ConstPath := []
  isModule : Bool := false
  isOpen : Bool := false
  openReason : Option OpenReason := none
  superclass : Option ConstPath := none
  includes : List ConstPath := []
  prepends : List ConstPath := []
  extends' : List ConstPath := []
  methods : MethodTable := ∅
  singletonMethods : MethodTable := ∅
  consts : List String := []
  hookInstanceInstalls : List (String × Span × SourceFile) := []
  hookSingletonInstalls : List (String × Span × SourceFile) := []
  hookInstallsOpaque : Bool := false
  tableName : Option TableNameDecl := none
  grounds : List Ground := []

namespace ClassDef

/-- Open for a reason that instance lookups do not look through. -/
def opaqueOpen (c : ClassDef) : Bool := c.isOpen && c.openReason != some .abstractRaise

def defines (c : ClassDef) (name : String) : Bool := (c.methods.lookup name).isSome

def definesSingleton (c : ClassDef) (name : String) : Bool :=
  (c.singletonMethods.lookup name).isSome

end ClassDef

/-- The class table, the maps the lookups read, and the raw project-wide buckets that the
merge passes resolve once every file is in. -/
structure ProjectIndex where
  classes : List ClassDef := []
  byPath : AList fun _ : ConstPath ↦ ClassId := ∅
  superclassDeclarations : AList fun _ : ClassId ↦ List (ConstPath × List ConstPath) := ∅
  superclassNesting : AList fun _ : ClassId ↦ List ConstPath := ∅
  ambiguousAncestry : Finset ClassId := ∅
  loadHookRaw : List (ConstPath × List ConstPath) := []
  coreMixin : Bool := false
  refineRaw : List (ConstPath × List ConstPath) := []
  refinedUnknown : Bool := false
  evalPollutedCore : Finset ConstPath := ∅
  evalRaw : List (ConstPath × List ConstPath) := []
  evalPollutedUnknown : Bool := false
  keyedRaw : List (Option ConstPath × List ConstPath × PollutionSource) := []
  subclasses : AList fun _ : ClassId ↦ List ClassId := ∅
  requires : Finset String := ∅
  toplevelConsts : Finset ConstPath := ∅
  constAliases : AList fun _ : ConstPath ↦ List ConstPath × ConstPath := ∅
  dynamicMixinRaw : List (MixinTrack × ConstPath × List ConstPath) := []
  singletonPatches : List (SourceFile × ClassFragment) := []
  attributedMixinRaw : List AttributedMixinEdge := []
  constReturningMethods : AList fun _ : String ↦ List (ConstPath × List ConstPath) := ∅
  mockSingletonMethods : List String := []
  stringSourceConsts : List String := []

namespace ProjectIndex

/-- `ProjectIndex::class`. Every identifier the index hands out is a position of the
table; the default is what a panic would be. -/
def classOf (ix : ProjectIndex) (id : ClassId) : ClassDef := ix.classes.getD id { path := [] }

end ProjectIndex

end Itaruby
