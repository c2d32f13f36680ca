import Itaruby.Check.Infer

/-!
What can be seen of the locals of an expression before it runs: which of them it reads before
it has written them, which it has surely written when it is done, and whether it leaves them
and what is known about them alone.
-/

set_option autoImplicit false
set_option relaxedAutoImplicit false

namespace Itaruby

def without (names removed : List String) : List String := names.filter (· ∉ removed)

theorem mem_without {x : String} {names removed : List String} :
    x ∈ without names removed ↔ x ∈ names ∧ x ∉ removed := by
  simp [without]

theorem without_mono {names names' removed : List String} (h : names ⊆ names') :
    without names removed ⊆ without names' removed :=
  fun _ hx ↦ mem_without.2 ⟨h (mem_without.1 hx).1, (mem_without.1 hx).2⟩

theorem without_subset {names removed : List String} : without names removed ⊆ names :=
  fun _ hx ↦ (mem_without.1 hx).1

namespace Expr

/-! ### Locals surely written -/

mutual

def definite : Expr → List String
  | .localWrite name _ value => name :: definite value
  | .localAndWrite name _ => [name]
  | .localOperatorWrite name value => name :: definite value
  | .sequence statements => definiteEach statements
  | .paren body => definiteOpt body
  | .ifNode predicate _ _ => definite predicate
  | .unlessNode predicate _ _ _ => definite predicate
  | .loop predicate _ => definite predicate
  | .forNode _ collection _ => definite collection
  | .andNode left _ => definite left
  | .orNode left _ => definite left
  | .callNode _ _ receiver _ _ _ _ => definiteOpt receiver
  | .ivarWrite _ value => definite value
  | .otherWrite value => definite value
  | .multiWrite lefts _ rights _ => (lefts ++ rights).filterMap Target.directName
  | _ => []

def definiteOpt : Option Expr → List String
  | none => []
  | some e => definite e

def definiteEach : List Expr → List String
  | [] => []
  | e :: rest => definite e ++ definiteEach rest

end

/-! ### Locals read before they are written -/

mutual

def exposed : Expr → List String
  | .leaf _ _ => []
  | .selfNode => []
  | .parts _ children => exposedEach children
  | .array elements => exposedEach elements
  | .hash _ elements => exposedAll elements
  | .assoc key value => exposed key ++ without (exposed value) (definite key)
  | .splat expression => exposedOpt expression
  | .localRead _ name => [name]
  | .localWrite _ _ value => exposed value
  | .localOrWrite name value => name :: exposed value
  | .localAndWrite _ value => exposed value
  | .localOperatorWrite _ value => exposed value
  | .ivarRead _ => []
  | .ivarWrite _ value => exposed value
  | .ivarUpdate _ value => exposed value
  | .otherWrite value => exposed value
  | .constant _ => []
  | .sequence statements => exposedEach statements
  | .paren body => exposedOpt body
  | .ifNode predicate statements subsequent =>
    exposed predicate ++
      without (exposedEach statements ++ exposedOpt subsequent) (definite predicate)
  | .unlessNode predicate statements _ elseStatements =>
    exposed predicate ++
      without (exposedEach statements ++ exposedEach elseStatements) (definite predicate)
  | .caseNode predicate conditions elseStatements =>
    exposedOpt predicate ++
      without (exposedAll conditions ++ exposedEach elseStatements) (definiteOpt predicate)
  | .whenNode conditions statements => exposedEach conditions ++ exposedEach statements
  | .caseMatch predicate _ _ => exposedOpt predicate
  | .loop predicate statements =>
    exposed predicate ++ without (exposedEach statements) (definite predicate)
  | .forNode _ collection statements =>
    exposed collection ++ without (exposedEach statements) (definite collection)
  | .andNode left right => exposed left ++ without (exposed right) (definite left)
  | .orNode left right => exposed left ++ without (exposed right) (definite left)
  | .beginNode statements rescues elseStatements ensureStatements =>
    exposedEach statements ++ exposedAll rescues ++ exposedEach elseStatements ++
      exposedEach ensureStatements
  | .rescueNode exceptions reference statements =>
    exposedEach exceptions ++
      without (exposedEach statements) (reference.bind Target.directName).toList
  | .rescueModifier expression rescueExpression => exposed expression ++ exposed rescueExpression
  | .returnNode arguments => exposedEach arguments
  | .jump _ _ => []
  | .callNode _ _ receiver _ arguments _ block =>
    exposedOpt receiver ++ without (exposedEach arguments) (definiteOpt receiver) ++
      without (exposedOpt block) (definiteOpt receiver ++ definiteEach arguments)
  | .blockNode params _ body => without (exposedOpt body) params.names
  | .callUpdate receiver value =>
    exposedOpt receiver ++ without (exposed value) (definiteOpt receiver)
  | .superNode _ arguments => exposedEach arguments
  | .forwardingSuper _ => []
  | .lambda params _ body => without (exposedOpt body) params.names
  | .multiWrite _ _ _ value => exposed value
  | .capture _ _ => []
  | .classNode _ _ _ => []
  | .singletonClass _ _ => []
  | .defNode _ _ _ _ _ _ => []

def exposedOpt : Option Expr → List String
  | none => []
  | some e => exposed e

def exposedEach : List Expr → List String
  | [] => []
  | e :: rest => exposed e ++ without (exposedEach rest) (definite e)

/-- Of parts that may be passed over. -/
def exposedAll : List Expr → List String
  | [] => []
  | e :: rest => exposed e ++ exposedAll rest

end

/-! ### Expressions that leave the locals alone -/

mutual

/-- No local is bound, and no branch that leaves stands in for a check. What a block or the body
of a loop does is joined to what was known before. -/
def settled : Expr → Bool
  | .leaf _ _ => true
  | .selfNode => true
  | .parts _ children => settledEach children
  | .array elements => settledEach elements
  | .hash _ elements => settledEach elements
  | .assoc key value => settled key && settled value
  | .splat expression => settledOpt expression
  | .localRead _ _ => true
  | .localWrite _ _ _ => false
  | .localOrWrite _ _ => false
  | .localAndWrite _ _ => false
  | .localOperatorWrite _ _ => false
  | .ivarRead _ => true
  | .ivarWrite _ value => settled value
  | .ivarUpdate _ value => settled value
  | .otherWrite value => settled value
  | .constant _ => true
  | .sequence statements => settledEach statements
  | .paren body => settledOpt body
  | .ifNode predicate statements subsequent =>
    settled predicate && settledEach statements && settledOpt subsequent &&
      !(stmtsDiverge statements && subsequent.isNone)
  | .unlessNode predicate statements hasElse elseStatements =>
    settled predicate && settledEach statements && settledEach elseStatements &&
      !(stmtsDiverge statements && !hasElse)
  | .caseNode predicate conditions elseStatements =>
    settledOpt predicate && settledEach conditions && settledEach elseStatements
  | .whenNode conditions statements => settledEach conditions && settledEach statements
  | .caseMatch predicate _ _ => settledOpt predicate
  | .loop predicate _ => settled predicate
  | .forNode _ collection _ => settled collection
  | .andNode left right => settled left && settled right
  | .orNode left right => settled left && settled right
  | .beginNode statements rescues elseStatements ensureStatements =>
    settledEach statements && settledEach rescues && settledEach elseStatements &&
      settledEach ensureStatements
  | .rescueNode exceptions _ statements => settledEach exceptions && settledEach statements
  | .rescueModifier expression rescueExpression => settled expression && settled rescueExpression
  | .returnNode arguments => settledEach arguments
  | .jump _ _ => true
  | .callNode _ _ receiver _ arguments _ _ => settledOpt receiver && settledEach arguments
  | .blockNode _ _ _ => true
  | .callUpdate receiver value => settledOpt receiver && settled value
  | .superNode _ arguments => settledEach arguments
  | .forwardingSuper _ => true
  | .lambda _ _ _ => true
  | .multiWrite _ _ _ _ => false
  | .capture _ _ => true
  | .classNode _ _ _ => true
  | .singletonClass _ _ => true
  | .defNode _ _ _ _ _ _ => true

def settledOpt : Option Expr → Bool
  | none => true
  | some e => settled e

def settledEach : List Expr → Bool
  | [] => true
  | e :: rest => settled e && settledEach rest

end

/-- The conditions of the `when` clauses leave the locals alone. -/
def settledConditions (clauses : List Expr) : Bool :=
  clauses.all fun
    | .whenNode conditions _ => settledEach conditions
    | _ => true

/-- The exceptions that the `rescue` clauses name leave the locals alone. -/
def settledExceptions (clauses : List Expr) : Bool :=
  clauses.all fun
    | .rescueNode exceptions _ _ => settledEach exceptions
    | _ => true

theorem settledConditions_of_settledEach {clauses : List Expr} (h : settledEach clauses = true) :
    settledConditions clauses = true := by
  induction clauses with
  | nil => rfl
  | cons e rest ih =>
    rw [settledEach, Bool.and_eq_true] at h
    rw [settledConditions, List.all_cons, Bool.and_eq_true]
    refine ⟨?_, ih h.2⟩
    cases e
    case whenNode conditions statements =>
      simp only [settled, Bool.and_eq_true] at h
      exact h.1.1
    all_goals rfl

theorem settledExceptions_of_settledEach {clauses : List Expr} (h : settledEach clauses = true) :
    settledExceptions clauses = true := by
  induction clauses with
  | nil => rfl
  | cons e rest ih =>
    rw [settledEach, Bool.and_eq_true] at h
    rw [settledExceptions, List.all_cons, Bool.and_eq_true]
    refine ⟨?_, ih h.2⟩
    cases e
    case rescueNode exceptions reference statements =>
      simp only [settled, Bool.and_eq_true] at h
      exact h.1.1
    all_goals rfl

/-- The locals that an expression finds out to be `nil` or not. -/
def nilChecked : Expr → List String
  | .callNode _ _ (some (.localRead _ var)) "nil?" [] _ _ => [var]
  | .orNode left right => nilChecked left ++ nilChecked right
  | _ => []

end Expr

end Itaruby
