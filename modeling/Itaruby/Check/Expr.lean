import Itaruby.Check.Types

/-!
The syntax tree as the checker reads it. Node kinds that one arm of `infer_expr` treats alike
are one constructor; what such an arm does not look into is kept under `inside`, because Ruby
evaluates it all the same.
-/

set_option autoImplicit false
set_option relaxedAutoImplicit false

namespace Itaruby

/-- What a multiple assignment, a `for` loop, a rescue clause or a block parameter binds. -/
inductive Target
  | localVar (name : String)
  | ivar (name : String)
  | splat (target : Option Target)
  | multi (targets : List Target)
  | other

/-- An inline `#: as` comment. A name that resolves to nothing leaves the type as it is. -/
inductive Cast
  | notNil
  | untyped
  | named (ty : Ty)

structure BlockParams where
  requireds : List Target := []
  optionals : List String := []
  rest : Option String := none
  posts : List Target := []
  keywords : List String := []
  keywordRest : Option String := none
  block : Option String := none
  locals : List String := []
  /-- every local of the block's own scope -/
  own : List String := []

structure DefParams where
  requireds : List Target := []
  optionals : List String := []
  rest : Option String := none
  posts : List Target := []
  /-- with a mark on those that have a default -/
  keywords : List (String × Bool) := []
  keywordRest : Option String := none
  block : Option String := none

inductive JumpKind
  | breaks
  | nexts
  | redo
  | retry
  deriving DecidableEq, Repr

inductive Expr
  /-- literals and all nodes typed without reading a part: reads of globals, `defined?`,
  regular expressions, `a[b] ||= c`, constant targets -/
  | leaf (ty : Ty) (inside : List Expr)
  | selfNode
  /-- interpolations, ranges, `yield`: the parts are walked, the type is fixed -/
  | parts (ty : Ty) (children : List Expr)
  | array (elements : List Expr)
  | hash (keyword : Bool) (elements : List Expr)
  | assoc (key value : Expr)
  | splat (expression : Option Expr)
  | localRead (loc : Span) (name : String)
  | localWrite (name : String) (cast : Option Cast) (value : Expr)
  | localOrWrite (name : String) (value : Expr)
  | localAndWrite (name : String) (value : Expr)
  | localOperatorWrite (name : String) (value : Expr)
  | ivarRead (name : String)
  | ivarWrite (name : String) (value : Expr)
  /-- `||=`, `&&=` and operator writes -/
  | ivarUpdate (name : String) (value : Expr)
  /-- writes of class variables, globals and constants -/
  | otherWrite (value : Expr)
  | constant (path : Option ConstPath)
  | sequence (statements : List Expr)
  | paren (body : Option Expr)
  | ifNode (predicate : Expr) (statements : List Expr) (subsequent : Option Expr)
  | unlessNode (predicate : Expr) (statements : List Expr) (hasElse : Bool)
      (elseStatements : List Expr)
  | caseNode (predicate : Option Expr) (conditions elseStatements : List Expr)
  | whenNode (conditions statements : List Expr)
  | caseMatch (predicate : Option Expr) (captures : List String) (inside : List Expr)
  /-- `while` and `until` -/
  | loop (predicate : Expr) (statements : List Expr)
  | forNode (index : Target) (collection : Expr) (statements : List Expr)
  | andNode (left right : Expr)
  | orNode (left right : Expr)
  | beginNode (statements rescues elseStatements ensureStatements : List Expr)
  | rescueNode (exceptions : List Expr) (reference : Option Target) (statements : List Expr)
  | rescueModifier (expression rescueExpression : Expr)
  | returnNode (arguments : List Expr)
  | jump (kind : JumpKind) (inside : List Expr)
  | callNode (loc msg : Span) (receiver : Option Expr) (name : String) (arguments : List Expr)
      (casts : List (Option Cast)) (block : Option Expr)
  | blockNode (params : BlockParams) (defaults : List Expr) (body : Option Expr)
  /-- `a.b ||= c` and its like -/
  | callUpdate (receiver : Option Expr) (value : Expr)
  | superNode (keyword : Span) (arguments : List Expr)
  | forwardingSuper (loc : Span)
  | lambda (params : BlockParams) (defaults : List Expr) (body : Option Expr)
  | multiWrite (lefts : List Target) (rest : Option Target) (rights : List Target) (value : Expr)
  /-- nodes that bind locals and have no arm: `=>` and `in`, named captures of a match -/
  | capture (names : List String) (inside : List Expr)
  | classNode (isModule : Bool) (path : Option ConstPath) (body : Option Expr)
  | singletonClass (ofSelf : Bool) (body : Option Expr)
  | defNode (loc : Span) (name : String) (ofSelf : Bool) (params : DefParams)
      (defaults : List Expr) (body : Option Expr)

namespace Expr

/-- `expr_name` -/
def exprName : Expr → Option String
  | .localRead _ name => some name
  | .callNode _ _ none name [] _ none => some name
  | _ => none

def constPath : Expr → Option ConstPath
  | .constant path => path
  | _ => none

def isSelf : Expr → Bool
  | .selfNode => true
  | _ => false

def localName : Expr → Option String
  | .localRead _ name => some name
  | _ => none

/-- `span_of_call` of a node that is a call. -/
def callSpan : Expr → Option Span
  | .callNode loc .. => some loc
  | _ => none

/-- `direct_statement_call_spans` -/
def directStatementCallSpans : Option Expr → List Span
  | some (.sequence statements) => statements.filterMap callSpan
  | some body => body.callSpan.toList
  | none => []

/-- `rspec_raise_subject_spans` -/
def rspecRaiseSubjectSpans (receiver : Option Expr) (name : String) (arguments : List Expr) :
    List Span :=
  if name = "to" ∨ name = "to_not" then
    match arguments.head?, receiver with
    | some (.callNode _ _ _ "raise_error" _ _ _),
      some (.callNode _ _ none "expect" _ _ (some (.blockNode _ _ (some body)))) =>
      directStatementCallSpans (some body)
    | _, _ => []
  else []

/-- The subjects that `assert_raises` takes as its block. -/
def minitestSubjectSpans (name : String) (body : Option Expr) : List Span :=
  if name = "assert_raises" ∨ name = "assert_raise" then directStatementCallSpans body else []

/-- `stmts_diverge`, by the last statement. -/
def diverges : Expr → Bool
  | .returnNode _ => true
  | .jump _ _ => true
  | .callNode _ _ none name _ _ _ => name = "raise" || name = "fail"
  | _ => false

def stmtsDiverge (statements : List Expr) : Bool := (statements.getLast?.map diverges).getD false

end Expr

end Itaruby
