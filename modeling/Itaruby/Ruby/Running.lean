import Itaruby.Library.Acts
import Itaruby.Ruby.Locals
import Itaruby.Ruby.Values
import Mathlib.Logic.Relation

/-!
How a body runs, as far as its locals go. What a call returns, what a constant holds and how
often a block is called is left open. A step that the walk of the checker does not follow is a
hazard; runs can be told to avoid hazards.
-/

set_option autoImplicit false
set_option relaxedAutoImplicit false

namespace Itaruby

/-- Why execution leaves an expression without a value. -/
inductive Leave
  | breaks
  | nexts
  | returns
  | raises
  | other
  deriving DecidableEq, Repr

def JumpKind.leave : JumpKind → Leave
  | .breaks => .breaks
  | .nexts => .nexts
  | .redo | .retry => .other

/-- A block that may still be called, with the locals it was made among. -/
structure Closure where
  depth : ℕ
  params : BlockParams
  defaults : List Expr
  body : Option Expr
  locals : String → Option Value
  named : List String

/-- A call of a method: its locals, the blocks it has made, and what it has done. -/
structure Activation where
  locals : String → Option Value
  /-- the locals bound so far, in this pass of the innermost loop -/
  named : List String := []
  pending : List Closure := []
  /-- the reads of locals, by place -/
  reads : List (Span × Value) := []
  /-- the writes of instance variables -/
  stores : List (String × Value) := []

def Activation.value (s : Activation) (name : String) : Value := (s.locals name).getD .nil

/-- What a body finds in the program around it. -/
structure Meaning where
  inherits : ClassId → ClassId → Prop
  self : Value
  calls : Span → Value → Prop
  constants : ConstPath → Value → Prop
  ivars : String → Value → Prop
  isA : ConstPath → Value → Prop

/-- Steps that the walk does not follow. -/
inductive Hazard
  /-- a part that is not walked changes a local -/
  | unread
  /-- an operand that binds a local is skipped -/
  | skipped
  /-- an inline cast is not true -/
  | cast
  /-- a body that binds a local is cut short, and its `rescue` or `ensure` is run -/
  | cutShort
  /-- a pass that has changed a local is left by `break` or `next` -/
  | leftEarly
  /-- a local that a pass reads first was changed by an earlier pass -/
  | repeated
  /-- a binding form that is not walked as one -/
  | unnamed
  /-- a block called after its call changes a local, or reads one that has changed -/
  | deferred
  /-- a local found not `nil` on one side of `||` is `nil` after the other -/
  | orGuard
  /-- a block or a pattern binds a local that was not bound before -/
  | undefined
  /-- an expression is nested too deep -/
  | deep
  /-- an instance variable is stored to, not by a plain write that is walked -/
  | store (name : String)

abbrev Run := Act Activation Leave

namespace Target

mutual

/-- The instance variables that the target binds. -/
def ivars : Target → List String
  | .ivar name => [name]
  | .splat (some target) => ivars target
  | .multi targets => ivarsAll targets
  | .localVar _ | .splat none | .other => []

def ivarsAll : List Target → List String
  | [] => []
  | target :: rest => ivars target ++ ivarsAll rest

end

end Target

namespace Run

section Steps

variable (avoids : Hazard → Prop)

/-- A hazard, unless the state is of a kind. -/
def careful (hazard : Hazard) (P : Activation → Prop) : Run Unit :=
  .check fun s ↦ avoids hazard → P s

/-- A hazard, unless the act leads to a related state. -/
def carefully {α : Type} (hazard : Hazard) (R : Activation → Activation → Prop) (act : Run α) :
    Run α :=
  act.watched fun s s' ↦ avoids hazard → R s s'

/-- Back to what was bound at an earlier point. -/
def forget (named : List String) : Run Unit := .change fun s s' ↦ s' = { s with named }

/-- What is done by a body that is cut short changes no local. -/
def quietly (act : Run Unit) : Run Unit := do
  let s ← .here
  carefully avoids .cutShort (fun s s' ↦ s'.locals = s.locals) act
  forget s.named

def log (loc : Span) (v : Value) : Run Unit :=
  .change fun s s' ↦ s' = { s with reads := (loc, v) :: s.reads }

def store (name : String) (v : Value) : Run Unit :=
  .change fun s s' ↦ s' = { s with stores := (name, v) :: s.stores }

def setLocal (name : String) (v : Value) : Run Unit :=
  .change fun s s' ↦ s' = { s with
    locals := Function.update s.locals name (some v), named := name :: s.named }

/-- The names get values that the walk knows nothing about. -/
def rebind (names : List String) : Run Unit :=
  .change fun s s' ↦ ∃ ls, (∀ x ∈ names, (ls x).isSome) ∧ (∀ x ∉ names, ls x = s.locals x) ∧
    s' = { s with locals := ls, named := names ++ s.named }

def anyValue : Run Value := .choose fun _ ↦ True

/-- A part that the walk does not read: it may be run, and its reads are not typed. -/
def aside (act : Run Unit) : Run Unit :=
  .either (pure ()) do
    let s ← .here
    let e ← act.attempt
    .change fun s₁ s' ↦ s' = { s₁ with named := s.named, reads := s.reads }
    .resume e

/-- Only locals that were bound before have changed. -/
def OnlyNamed (s s' : Activation) : Prop := ∀ x, s'.locals x = s.locals x ∨ x ∈ s.named

/-- No write of an instance variable is a hazard. -/
def OldStores (s s' : Activation) : Prop :=
  ∀ name, avoids (.store name) → ∀ v, (name, v) ∈ s'.stores → (name, v) ∈ s.stores

def unread (act : Run Unit) : Run Unit :=
  carefully avoids .unread (fun s s' ↦ s'.locals = s.locals ∧ s'.pending = s.pending)
    ((aside act).watched (OldStores avoids))

/-- The locals when a block begins, from those around it. -/
def Enters (params : BlockParams) (outer ls : String → Option Value) : Prop :=
  ∀ x, (x ∈ params.names → (ls x).isSome) ∧
    (x ∉ params.names → ls x = if x ∈ params.own then none else outer x)

/-- A body with parameters and locals of its own. -/
def inBlock (params : BlockParams) (body : Run Value) : Run Value := do
  let s ← .here
  careful avoids .unnamed fun _ ↦ params.names ⊆ params.added
  .change fun s s' ↦ ∃ ls, Enters params s.locals ls ∧ s' = { s with locals := ls }
  let e ← body.attempt
  .change fun s₁ s' ↦ s' = { s₁ with
    locals := fun x ↦ if x ∈ params.names ∨ x ∈ params.own then s.locals x else s₁.locals x
    named := s.named }
  .resume e

/-- The pass of a loop or a block: should there be another? -/
def pass (body : Run Value) : Run Bool := do
  let s ← .here
  let e ← body.attempt
  match e with
  | .value _ => pure true
  | .leaves .nexts => do
    careful avoids .leftEarly fun s' ↦ s'.locals = s.locals
    forget s.named
    pure true
  | .leaves .breaks => do
    careful avoids .leftEarly fun s' ↦ s'.locals = s.locals
    forget s.named
    pure false
  | .leaves how => .leave how

/-- The instance variables get values that the walk knows nothing about. -/
def storeAll (names : List String) : Run Unit := do
  .check fun _ ↦ ∀ name ∈ names, ¬ avoids (.store name)
  .change fun s s' ↦ ∃ new : List (String × Value), (∀ p ∈ new, p.1 ∈ names) ∧
    s' = { s with stores := new ++ s.stores }

/-- The locals named still are what they were. -/
def Unchanged (names : List String) (locals : String → Option Value) (s : Activation) : Prop :=
  ∀ x ∈ names, s.locals x = locals x

end Steps

end Run

def Cast.Fits (inherits : ClassId → ClassId → Prop) (v : Value) : Option Cast → Prop
  | some .notNil => v ≠ .nil
  | some (.named ty) => ty.Covers inherits v
  | _ => True

namespace Expr

/-- What it says of the locals that a condition came out true or false. -/
def Tells (M : Meaning) (e : Expr) (b : Bool) (s : Activation) : Prop :=
  match e with
  | .localRead _ var => (s.value var).truthy = b
  | .callNode _ _ (some (.localRead _ var)) "nil?" [] _ _ => b = true ↔ s.value var = .nil
  | .callNode _ _ (some (.localRead _ var)) "is_a?" [arg] _ _ =>
    ∀ path, arg.constPath = some path → (b = true ↔ M.isA path (s.value var))
  | _ => True

/-- What it says of the subject that a `when` clause was taken. -/
def TellsWhen (M : Meaning) (subject : Option String) (conditions : List Expr)
    (s : Activation) : Prop :=
  ∀ var, subject = some var → (∀ c ∈ conditions, c.constPath.isSome) →
    ∃ c ∈ conditions, ∃ path, c.constPath = some path ∧ M.isA path (s.value var)

/-- Where the names of a check by `||` are not `nil` after it came out false. -/
def GuardHolds (e : Expr) (b : Bool) (s : Activation) : Prop :=
  b = false → ∀ var ∈ e.nilChecked, s.value var ≠ .nil

open Run

variable (M : Meaning) (avoids : Hazard → Prop) (call : Closure → Activation → Activation → Prop)

/-- The locals of a block that are not parameters have no value outside of it. -/
def Scoped (params : BlockParams) (s : Activation) : Prop :=
  ∀ x ∈ params.own, x ∉ params.names → s.locals x = none

/-- A block that may be called from now on. -/
def makeClosure (depth : ℕ) (params : BlockParams) (defaults : List Expr) (body : Option Expr) :
    Run Unit := do
  .check (Scoped params)
  .change fun s s' ↦ s' = { s with
    pending :=
      { depth, params, defaults, body, locals := s.locals, named := s.named } :: s.pending }

/-- Blocks made before may be called now. -/
def called : Run Unit := do
  .change (Relation.ReflTransGen fun s s' ↦ ∃ c ∈ s.pending, call c s s')
  .either (pure ()) (.leave .raises)

mutual

def exec (depth : ℕ) : Expr → Run Value
  | .leaf ty inside => do
    careful avoids .deep fun _ ↦ depth ≤ 200
    unread avoids (execUnread (depth + 1) inside)
    .choose (ty.Covers M.inherits)
  | .selfNode => do
    careful avoids .deep fun _ ↦ depth ≤ 200
    pure M.self
  | .parts ty children => do
    careful avoids .deep fun _ ↦ depth ≤ 200
    execEach (depth + 1) children
    called call
    .choose (ty.Covers M.inherits)
  | .array elements => do
    careful avoids .deep fun _ ↦ depth ≤ 200
    execElements (depth + 1) elements
    pure .array
  | .hash _ elements => do
    careful avoids .deep fun _ ↦ depth ≤ 200
    execAssocs (depth + 1) elements
    pure .hash
  | .assoc _ _ => anyValue
  | .splat expression => do
    careful avoids .deep fun _ ↦ depth ≤ 200
    let _ ← execOpt (depth + 1) expression
    anyValue
  | .localRead loc name => do
    careful avoids .deep fun _ ↦ depth ≤ 200
    let s ← .here
    log loc (s.value name)
    pure (s.value name)
  | .localWrite name cast value => do
    careful avoids .deep fun _ ↦ depth ≤ 200
    let v ← exec (depth + 1) value
    careful avoids .cast fun _ ↦ Cast.Fits M.inherits v cast
    setLocal name v
    pure v
  | .localOrWrite name value => do
    careful avoids .deep fun _ ↦ depth ≤ 200
    let s ← .here
    if (s.value name).truthy then do
      careful avoids .skipped fun _ ↦ value.settled
      pure (s.value name)
    else do
      let v ← exec (depth + 1) value
      setLocal name v
      pure v
  | .localAndWrite name value => do
    careful avoids .deep fun _ ↦ depth ≤ 200
    let s ← .here
    if (s.value name).truthy then do
      let v ← exec (depth + 1) value
      setLocal name v
      pure v
    else do
      careful avoids .skipped fun _ ↦ value.settled
      pure (s.value name)
  | .localOperatorWrite name value => do
    careful avoids .deep fun _ ↦ depth ≤ 200
    let _ ← exec (depth + 1) value
    called call
    let v ← anyValue
    setLocal name v
    pure v
  | .ivarRead name => do
    careful avoids .deep fun _ ↦ depth ≤ 200
    .choose (M.ivars name)
  | .ivarWrite name value => do
    careful avoids .deep fun _ ↦ depth ≤ 200
    let v ← exec (depth + 1) value
    store name v
    pure v
  | .ivarUpdate name value => do
    careful avoids .deep fun _ ↦ depth ≤ 200
    .either
      (do
        careful avoids .skipped fun _ ↦ value.settled
        anyValue)
      (do
        let _ ← exec (depth + 1) value
        called call
        careful avoids (.store name) fun _ ↦ False
        let v ← anyValue
        store name v
        pure v)
  | .otherWrite value => do
    careful avoids .deep fun _ ↦ depth ≤ 200
    exec (depth + 1) value
  | .constant none => anyValue
  | .constant (some path) => do
    careful avoids .deep fun _ ↦ depth ≤ 200
    .choose (M.constants path)
  | .sequence statements => do
    careful avoids .deep fun _ ↦ depth ≤ 200
    execStmts (depth + 1) .nil statements
  | .paren body => do
    careful avoids .deep fun _ ↦ depth ≤ 200
    execOpt (depth + 1) body
  | .ifNode predicate statements subsequent => do
    careful avoids .deep fun _ ↦ depth ≤ 200
    let v ← exec (depth + 1) predicate
    .check (predicate.Tells M v.truthy)
    careful avoids .orGuard (predicate.GuardHolds v.truthy)
    if v.truthy then execStmts (depth + 1) .nil statements else execOpt (depth + 1) subsequent
  | .unlessNode predicate statements _ elseStatements => do
    careful avoids .deep fun _ ↦ depth ≤ 200
    let v ← exec (depth + 1) predicate
    .check (predicate.Tells M v.truthy)
    careful avoids .orGuard (predicate.GuardHolds v.truthy)
    if v.truthy then execStmts (depth + 1) .nil elseStatements
    else execStmts (depth + 1) .nil statements
  | .caseNode predicate conditions elseStatements => do
    careful avoids .deep fun _ ↦ depth ≤ 200
    let _ ← execOpt (depth + 1) predicate
    careful avoids .skipped fun _ ↦ settledConditions conditions
    let taken ← execWhens (depth + 1) (predicate.bind localName) conditions
    match taken with
    | some v => pure v
    | none => execStmts (depth + 1) .nil elseStatements
  | .whenNode _ _ => anyValue
  | .caseMatch predicate captures inside => do
    careful avoids .deep fun _ ↦ depth ≤ 200
    let _ ← execOpt (depth + 1) predicate
    carefully avoids .undefined (fun s s' ↦ OnlyNamed s s' ∧ s'.pending = s.pending) <|
      (aside do
        rebind captures
        execUnread (depth + 1) inside).watched (OldStores avoids)
    anyValue
  | .loop predicate statements => do
    careful avoids .deep fun _ ↦ depth ≤ 200
    let s ← .here
    .Passes do
      forget s.named
      careful avoids .repeated
        (Unchanged (exposed predicate ++ without (exposedEach statements) (definite predicate))
          s.locals)
      let _ ← exec (depth + 1) predicate
      .either (pure false) (pass avoids (execStmts (depth + 1) .nil statements))
    pure .nil
  | .forNode index collection statements => do
    careful avoids .deep fun _ ↦ depth ≤ 200
    let _ ← exec (depth + 1) collection
    let s ← .here
    .Passes do
      .either (pure false) do
        forget s.named
        rebind index.names
        careful avoids .unnamed fun _ ↦ index.names = []
        careful avoids .repeated (Unchanged (exposedEach statements) s.locals)
        pass avoids (execStmts (depth + 1) .nil statements)
    anyValue
  | .andNode left right => do
    careful avoids .deep fun _ ↦ depth ≤ 200
    let l ← exec (depth + 1) left
    if l.truthy then exec (depth + 1) right
    else do
      careful avoids .skipped fun _ ↦ right.settled
      pure l
  | .orNode left right => do
    careful avoids .deep fun _ ↦ depth ≤ 200
    let l ← exec (depth + 1) left
    if l.truthy then do
      careful avoids .skipped fun _ ↦ right.settled
      pure l
    else exec (depth + 1) right
  | .beginNode statements rescues elseStatements ensureStatements => do
    careful avoids .deep fun _ ↦ depth ≤ 200
    let s ← .here
    let e ← (do
      let e ← (execStmts (depth + 1) .nil statements).attempt
      match e with
      | .value v => do
        careful avoids .skipped fun _ ↦ settledExceptions rescues
        execStmts (depth + 1) v elseStatements
      | .leaves .raises => do
        careful avoids .cutShort fun s' ↦
          rescues ≠ [] → settledEach statements ∧ settledExceptions rescues ∧
            elseStatements = [] ∧ s'.locals = s.locals
        forget s.named
        execRescues (depth + 1) rescues
      | .leaves how => .leave how).attempt
    match e with
    | .value v => do
      let _ ← execStmts (depth + 1) .nil ensureStatements
      pure v
    | .leaves how => do
      careful avoids .cutShort fun s' ↦
        ensureStatements ≠ [] → settledEach statements ∧ settledExceptions rescues ∧
          settledEach elseStatements ∧ s'.locals = s.locals
      forget s.named
      let _ ← execStmts (depth + 1) .nil ensureStatements
      .leave how
  | .rescueNode _ _ _ => anyValue
  | .rescueModifier expression rescueExpression => do
    careful avoids .deep fun _ ↦ depth ≤ 200
    let s ← .here
    let e ← (exec (depth + 1) expression).attempt
    match e with
    | .value v => do
      careful avoids .skipped fun _ ↦ rescueExpression.settled
      pure v
    | .leaves .raises => do
      careful avoids .cutShort fun s' ↦ expression.settled ∧ s'.locals = s.locals
      forget s.named
      exec (depth + 1) rescueExpression
    | .leaves how => .leave how
  | .returnNode arguments => do
    careful avoids .deep fun _ ↦ depth ≤ 200
    execEach (depth + 1) arguments
    .leave .returns
  | .jump kind inside => do
    careful avoids .deep fun _ ↦ depth ≤ 200
    unread avoids (execUnread (depth + 1) inside)
    .leave kind.leave
  | .callNode loc _ receiver name arguments _ block => do
    careful avoids .deep fun _ ↦ depth ≤ 200
    let _ ← execOpt (depth + 1) receiver
    execEach (depth + 1) arguments
    execBlock (depth + 1) block
    called call
    if receiver.isNone && (name = "raise" || name = "fail") then .leave .raises
    else .choose (M.calls loc)
  | .blockNode _ _ _ => anyValue
  | .callUpdate receiver value => do
    careful avoids .deep fun _ ↦ depth ≤ 200
    let _ ← execOpt (depth + 1) receiver
    called call
    .either
      (do
        careful avoids .skipped fun _ ↦ value.settled
        anyValue)
      (do
        let _ ← exec (depth + 1) value
        called call
        anyValue)
  | .superNode _ arguments => do
    careful avoids .deep fun _ ↦ depth ≤ 200
    execEach (depth + 1) arguments
    called call
    anyValue
  | .forwardingSuper _ => do
    careful avoids .deep fun _ ↦ depth ≤ 200
    called call
    anyValue
  | .lambda params defaults body => do
    careful avoids .deep fun _ ↦ depth ≤ 200
    makeClosure (depth + 1) params defaults body
    anyValue
  | .multiWrite lefts rest rights value => do
    careful avoids .deep fun _ ↦ depth ≤ 200
    let _ ← exec (depth + 1) value
    let targets := lefts ++ rest.toList ++ rights
    rebind (Target.namesAll targets)
    careful avoids .unnamed fun _ ↦
      Target.namesAll targets ⊆ (lefts ++ rights).filterMap Target.directName
    storeAll avoids (Target.ivarsAll targets)
    anyValue
  | .capture names inside => do
    careful avoids .deep fun _ ↦ depth ≤ 200
    unread avoids (execUnread (depth + 1) inside)
    rebind names
    careful avoids .unnamed fun _ ↦ names = []
    anyValue
  | .classNode _ _ _ => anyValue
  | .singletonClass _ _ => anyValue
  | .defNode _ _ _ _ _ _ => pure .sym

def execOpt (depth : ℕ) : Option Expr → Run Value
  | none => pure .nil
  | some e => exec depth e

/-- The value is that of the last statement, or the value before. -/
def execStmts (depth : ℕ) (last : Value) : List Expr → Run Value
  | [] => pure last
  | e :: rest => do
    let v ← exec depth e
    execStmts depth v rest

def execEach (depth : ℕ) : List Expr → Run Unit
  | [] => pure ()
  | e :: rest => do
    let _ ← exec depth e
    execEach depth rest

def execElements (depth : ℕ) : List Expr → Run Unit
  | [] => pure ()
  | .splat expression :: rest => do
    let _ ← execOpt depth expression
    execElements depth rest
  | e :: rest => do
    let _ ← exec depth e
    execElements depth rest

def execAssocs (depth : ℕ) : List Expr → Run Unit
  | [] => pure ()
  | .assoc key value :: rest => do
    let _ ← exec depth key
    let _ ← exec depth value
    execAssocs depth rest
  | .splat expression :: rest => do
    let _ ← execOpt depth expression
    execAssocs depth rest
  | _ :: rest => execAssocs depth rest

/-- Parts that may be run. -/
def execUnread (depth : ℕ) : List Expr → Run Unit
  | [] => pure ()
  | e :: rest => do
    .either (pure ()) do
      let _ ← exec depth e
      pure ()
    execUnread depth rest

/-- Conditions are tried until one holds. -/
def execPrefix (depth : ℕ) : List Expr → Run Unit
  | [] => pure ()
  | e :: rest => .either (pure ()) do
    let _ ← exec depth e
    execPrefix depth rest

/-- The value of the clause that is taken. -/
def execWhens (depth : ℕ) (subject : Option String) : List Expr → Run (Option Value)
  | [] => pure none
  | .whenNode conditions statements :: rest =>
    .either
      (do
        execPrefix depth conditions
        .check (TellsWhen M subject conditions)
        let v ← execStmts depth .nil statements
        pure (some v))
      (do
        execEach depth conditions
        execWhens depth subject rest)
  | _ :: rest => execWhens depth subject rest

/-- The clauses that may rescue what was raised. -/
def execRescues (depth : ℕ) : List Expr → Run Value
  | [] => .leave .raises
  | .rescueNode exceptions reference statements :: rest => do
    .either
      (do
        quietly avoids (execPrefix depth exceptions)
        rebind (Target.namesAll reference.toList)
        careful avoids .unnamed fun _ ↦
          Target.namesAll reference.toList ⊆ (reference.bind Target.directName).toList
        execStmts depth .nil statements)
      (do
        quietly avoids (execEach depth exceptions)
        execRescues depth rest)
  | _ :: rest => execRescues depth rest

/-- The block of a call is made, and called any number of times. -/
def execBlock (depth : ℕ) : Option Expr → Run Unit
  | some (.blockNode params defaults body) => do
    let s ← .here
    makeClosure depth params defaults body
    .Passes <| .either (pure false) do
      careful avoids .repeated (Unchanged (without (exposedOpt body) params.names) s.locals)
      pass avoids <| carefully avoids .undefined OnlyNamed <| inBlock avoids params do
        unread avoids (execUnread depth defaults)
        execOpt depth body
  | some e => unread avoids do
    let _ ← exec depth e
    pure ()
  | none => pure ()

end

end Expr

/-- A call of a block after the call it was made for. -/
def Closure.call (M : Meaning) (avoids : Hazard → Prop) :
    ℕ → Closure → Activation → Activation → Prop
  | 0 => fun _ _ _ ↦ False
  | n + 1 => fun c s s' ↦
    (avoids .deferred → s'.locals = s.locals ∧
      Run.Unchanged (without (Expr.exposedOpt c.body) c.params.names) c.locals s) ∧
    ∃ e s₁, Run.inBlock avoids c.params (do
      Run.unread avoids (Expr.execUnread M avoids (Closure.call M avoids n) c.depth c.defaults)
      Expr.execOpt M avoids (Closure.call M avoids n) c.depth c.body)
        { s with named := c.named } e s₁ ∧ s' = { s₁ with named := s.named }

namespace Expr

/-- From a state, the expression may run so. -/
def Runs (M : Meaning) (avoids : Hazard → Prop) (depth : ℕ) (e : Expr) (s : Activation)
    (r : Ending Leave Value) (s' : Activation) : Prop :=
  ∃ n, e.exec M avoids (Closure.call M avoids n) depth s r s'

end Expr

end Itaruby
