import Itaruby.Walker.State

/-!
What the body of a `def` says about the surface of a class: the calls that define methods
under names the text spells, the ones whose names it does not, and the `def` keywords
nested in it.
-/

set_option autoImplicit false
set_option relaxedAutoImplicit false

namespace Itaruby

def isEvalName (name : String) : Bool :=
  name ∈ ["class_eval", "module_eval", "instance_eval", "instance_exec", "class_exec",
    "module_exec"]

def isSendName (name : String) : Bool := name ∈ ["send", "public_send", "__send__"]

def isAttrName (name : String) : Bool := name ∈ ["attr_reader", "attr_writer", "attr_accessor"]

/-- `BODY_DEF_NAMES`. -/
def bodyDefNames : List String :=
  ["eval", "define_method", "define_singleton_method", "alias_method", "attr_reader",
    "attr_writer", "attr_accessor", "class_eval", "module_eval", "instance_eval",
    "instance_exec", "class_exec", "module_exec"]

/-- `singleton_class_owner`: the path `X` of a receiver `X.singleton_class`. -/
def singletonClassOwner (call : CallSite) : Option ConstPath :=
  match call.receiver with
  | some (.callNode _ (some base) "singleton_class" [] _) => base.constPathStr
  | _ => none

/-- `is_own_singleton_class`. -/
def isOwnSingletonClass : Node → Bool
  | .callNode _ none "singleton_class" [] _ => true
  | .callNode _ (some base) "singleton_class" [] _ => base.isSelf
  | _ => false

inductive DefTarget
  | enclosing
  | named (path : ConstPath)
  deriving DecidableEq, Repr

structure BodyDefLiteral where
  isSingleton : Bool
  name : String
  required : ℕ
  arityUnknown : Bool
  deriving DecidableEq, Repr

structure NestedDef where
  md : MethodDef
  receiverSelf : Bool

structure BodyDefs where
  opens : List (DefTarget × OpenReason) := []
  literals : List (DefTarget × BodyDefLiteral) := []
  nestedDefs : List NestedDef := []

def bodyDefTarget (call : CallSite) : Option DefTarget :=
  match singletonClassOwner call with
  | some owner => some (.named owner)
  | none =>
    match call.receiver with
    | none => some .enclosing
    | some receiver =>
      if receiver.isSelf || isOwnSingletonClass receiver then some .enclosing
      else receiver.constPathStr.map .named

/-- The reader and the writer of an `attr_*` name. -/
def attrPair (name m : String) : List (String × ℕ) :=
  (if name = "attr_writer" then [] else [(m, 0)]) ++
    (if name = "attr_reader" then [] else [(m ++ "=", 1)])

def bodyDefAttrLiterals (name : String) (args : List Node) : List BodyDefLiteral :=
  match args.mapM Node.literalMethodName with
  | none => []
  | some names =>
    names.flatMap fun m ↦
      (attrPair name m).map fun (n, required) ↦
        { isSingleton := false, name := n, required, arityUnknown := false }

def bodyDefLiteralsNamed (name : String) : List Node → List BodyDefLiteral
  | [] => []
  | arg :: rest =>
    if name = "define_method" ∨ name = "alias_method" then
      match arg.literalMethodName with
      | some m => [{ isSingleton := false, name := m, required := 0, arityUnknown := true }]
      | none => []
    else if name = "define_singleton_method" then
      match arg.literalMethodName with
      | some m => [{ isSingleton := true, name := m, required := 0, arityUnknown := true }]
      | none => []
    else if isAttrName name then bodyDefAttrLiterals name (arg :: rest)
    else if isSendName name then
      match arg.literalMethodName with
      | some inner => bodyDefLiteralsNamed inner rest
      | none => []
    else []

/-- Why a call in a body makes the surface of its target unknowable. -/
def bodyDefReasonNamed (name : String) : List Node → Option OpenReason
  | [] =>
    if isEvalName name then some .evalOrSend
    else if name = "define_method" ∨ name = "define_singleton_method" then
      some .dynamicDefineMethod
    else none
  | arg :: rest =>
    if isEvalName name then some .evalOrSend
    else if name = "define_method" ∨ name = "define_singleton_method" then
      if arg.literalMethodName.isNone then some .dynamicDefineMethod else none
    else if name = "alias_method" then
      if (arg :: rest).all fun a ↦ a.literalMethodName.isSome then none
      else some .dynamicAliasMethod
    else if isAttrName name then
      if (arg :: rest).all fun a ↦ a.symbolName.isSome then none else some .dynamicAttrArg
    else if name = "eval" then some .evalOrSend
    else if isSendName name then
      match arg.literalMethodName with
      | some inner => bodyDefReasonNamed inner rest
      | none => none
    else none

namespace BodyDefs

/-- `Scan::note`: the first reason for a target. -/
def note (found : BodyDefs) (target : DefTarget) (reason : OpenReason) : BodyDefs :=
  if found.opens.any (·.1 == target) then found
  else { found with opens := found.opens ++ [(target, reason)] }

/-- `Scan::consume`: what one call says about a target. -/
def consume (found : BodyDefs) (call : CallSite) (target : DefTarget) : BodyDefs :=
  match bodyDefReasonNamed call.name call.arguments with
  | some reason => found.note target reason
  | none =>
    { found with
      literals := found.literals ++
        (bodyDefLiteralsNamed call.name call.arguments).map fun lit ↦ (target, lit) }

/-- A block whose `self` is another class is not entered. -/
def stopsAt (call : CallSite) (target : DefTarget) : Bool :=
  (match target with
    | .named _ => true
    | .enclosing => false) && isEvalName call.name

def enter (env : WalkEnv) (n : Node) (recur : BodyDefs → BodyDefs) (found : BodyDefs) :
    BodyDefs :=
  match n.asCall with
  | some call =>
    match bodyDefTarget call with
    | some target =>
      if stopsAt call target then found.consume call target
      else recur (found.consume call target)
    | none => recur found
  | none =>
    match n.asDef with
    | some site =>
      recur
        { found with
          nestedDefs := found.nestedDefs ++
            [{ md := (buildMethodDef env site none).1
               receiverSelf :=
                match site.receiver with
                | some receiver => receiver.isSelf
                | none => false }] }
    | none => recur found

end BodyDefs

/-- `dynamic_defs_in_body`. -/
def dynamicDefsInBody (env : WalkEnv) (site : DefSite) : BodyDefs :=
  match site.body with
  | some body => Node.visit (BodyDefs.enter env) body {}
  | none => {}

/-- The text prefilter of a body: a body that names no definer is not scanned. -/
def mayDefine (bodyText : Text) : Bool :=
  bodyDefNames.any (fun name ↦ bodyText.contains name) || bodyText.contains "def " ||
    bodyText.contains "def\n" || bodyText.contains "def\t"

/-- The text from the start of the body to the end of the `def`. -/
def bodyTextOf (env : WalkEnv) (site : DefSite) : Text :=
  match site.body with
  | some body => env.text.slice (body.loc.1, site.loc.2)
  | none => []

namespace DefWalker

/-- `apply_body_def`: one literal definition found in a body. Where `self` is not provably the
class, the class opens. -/
def applyBodyDef (w : DefWalker) (i : ℕ) (nesting : List ConstPath) (selfIsTheClass : Bool)
    (span : Span) (target : DefTarget) (lit : BodyDefLiteral) : DefWalker :=
  match target with
  | .named path =>
    let (w, oi) := w.fragmentIdxFor path nesting
    w.openClass oi .dynamicDefineMethod
  | .enclosing =>
    if selfIsTheClass then
      w.fileTrack i lit.isSingleton
        [{ MethodDef.synthetic lit.name lit.required span with
            arityUnknown := lit.arityUnknown }]
    else w.openClass i .dynamicDefineMethod

def applyOpen (w : DefWalker) (i : ℕ) (nesting : List ConstPath)
    (entry : DefTarget × OpenReason) : DefWalker :=
  match entry.1 with
  | .enclosing => w.openClass i entry.2
  | .named path =>
    let (w, oi) := w.fragmentIdxFor path nesting
    w.openClass oi entry.2

def isMethodMissing (name : String) : Bool :=
  name = "method_missing" || name = "respond_to_missing?"

/-- A nested `def` keyword. In an instance method `def self.y` defines on one object, an owner
no fragment can name. -/
def applyNestedDef (w : DefWalker) (i : ℕ) (treatedAsSingleton : Bool) (nd : NestedDef) :
    DefWalker :=
  let w := if isMethodMissing nd.md.name then w.openClass i .methodMissing else w
  if treatedAsSingleton then w.fileTrack i true [nd.md]
  else if nd.receiverSelf then w.openClass i .nestedDefOwner
  else w.fileTrack i false [nd.md]

/-- What the scan of a body files and opens. -/
def applyBodyDefs (w : DefWalker) (i : ℕ) (nesting : List ConstPath) (treatedAsSingleton : Bool)
    (span : Span) (defs : BodyDefs) : DefWalker :=
  let w := defs.opens.foldl (fun w entry ↦ w.applyOpen i nesting entry) w
  let w := defs.literals.foldl
    (fun w entry ↦ w.applyBodyDef i nesting treatedAsSingleton span entry.1 entry.2) w
  defs.nestedDefs.foldl (fun w nd ↦ w.applyNestedDef i treatedAsSingleton nd) w

end DefWalker

end Itaruby
