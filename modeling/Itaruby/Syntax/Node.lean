import Itaruby.Index.Basic

/-!
The syntax tree the walkers read. The node kinds that no walker looks into are
`otherNode` with their children in order, so that a full traversal still reaches
what is below them.
-/

set_option autoImplicit false
set_option relaxedAutoImplicit false

namespace Itaruby

inductive KeywordRest
  | none
  | kwrest
  | forwarding
  deriving DecidableEq, Repr

/-- The parameters of a `def` or a block. A required parameter without a name is a
destructuring one. -/
structure Params where
  requireds : List (Option String) := []
  optionals : ℕ := 0
  rest : Bool := false
  posts : ℕ := 0
  keywords : List (String × Bool) := []
  keywordRest : KeywordRest := .none
  block : Bool := false
  deriving DecidableEq, Repr

inductive Node
  | programNode (loc : Span) (statements : Node)
  | statementsNode (loc : Span) (body : List Node)
  | classNode (loc : Span) (constantPath : Node) (superclass body : Option Node)
  | moduleNode (loc : Span) (constantPath : Node) (body : Option Node)
  | singletonClassNode (loc : Span) (expression : Node) (body : Option Node)
  | defNode (loc nameLoc : Span) (receiver : Option Node) (name : String)
      (parameters : Option Params) (defaults : List Node) (body : Option Node)
  | callNode (loc : Span) (receiver : Option Node) (name : String) (arguments : List Node)
      (block : Option Node)
  | blockNode (loc : Span) (parameters : Option Params) (defaults : List Node)
      (body : Option Node)
  | blockArgumentNode (loc : Span) (expression : Option Node)
  | aliasMethodNode (loc : Span) (newName oldName : Node)
  | constantWriteNode (loc nameLoc : Span) (name : String) (value : Node)
  | constantPathWriteNode (loc : Span) (target value : Node)
  | constantReadNode (loc : Span) (name : String)
  | constantPathNode (loc : Span) (parent : Option Node) (name : Option String)
  | localVariableReadNode (loc : Span) (name : String)
  | localVariableWriteNode (loc : Span) (name : String) (value : Node)
  | selfNode (loc : Span)
  | trueNode (loc : Span)
  | falseNode (loc : Span)
  | symbolNode (loc : Span) (unescaped : String)
  | stringNode (loc : Span) (unescaped : String)
  | interpolatedStringNode (loc : Span) (parts : List Node)
  | embeddedStatementsNode (loc : Span) (statements : Option Node)
  | arrayNode (loc : Span) (elements : List Node)
  | keywordHashNode (loc : Span) (elements : List Node)
  | assocNode (loc : Span) (key value : Node)
  | ifNode (loc : Span) (predicate : Node) (statements subsequent : Option Node)
  | unlessNode (loc : Span) (predicate : Node) (statements elseClause : Option Node)
  | elseNode (loc : Span) (statements : Option Node)
  | caseNode (loc : Span) (predicate : Option Node) (conditions : List Node)
      (elseClause : Option Node)
  | whenNode (loc : Span) (conditions : List Node) (statements : Option Node)
  | loopNode (loc : Span) (header : List Node) (statements : Option Node)
  | beginNode (loc : Span) (statements rescueClause elseClause ensureClause : Option Node)
  | rescueNode (loc : Span) (exceptions : List Node) (statements subsequent : Option Node)
  | ensureNode (loc : Span) (statements : Option Node)
  | otherNode (loc : Span) (children : List Node)

namespace Node

def loc : Node → Span
  | programNode loc .. => loc
  | statementsNode loc .. => loc
  | classNode loc .. => loc
  | moduleNode loc .. => loc
  | singletonClassNode loc .. => loc
  | defNode loc .. => loc
  | callNode loc .. => loc
  | blockNode loc .. => loc
  | blockArgumentNode loc .. => loc
  | aliasMethodNode loc .. => loc
  | constantWriteNode loc .. => loc
  | constantPathWriteNode loc .. => loc
  | constantReadNode loc .. => loc
  | constantPathNode loc .. => loc
  | localVariableReadNode loc .. => loc
  | localVariableWriteNode loc .. => loc
  | selfNode loc => loc
  | trueNode loc => loc
  | falseNode loc => loc
  | symbolNode loc .. => loc
  | stringNode loc .. => loc
  | interpolatedStringNode loc .. => loc
  | embeddedStatementsNode loc .. => loc
  | arrayNode loc .. => loc
  | keywordHashNode loc .. => loc
  | assocNode loc .. => loc
  | ifNode loc .. => loc
  | unlessNode loc .. => loc
  | elseNode loc .. => loc
  | caseNode loc .. => loc
  | whenNode loc .. => loc
  | loopNode loc .. => loc
  | beginNode loc .. => loc
  | rescueNode loc .. => loc
  | ensureNode loc .. => loc
  | otherNode loc .. => loc

/-- The children in the order a traversal visits them. -/
def children : Node → List Node
  | programNode _ statements => [statements]
  | statementsNode _ body => body
  | classNode _ path superclass body => path :: (superclass.toList ++ body.toList)
  | moduleNode _ path body => path :: body.toList
  | singletonClassNode _ expression body => expression :: body.toList
  | defNode _ _ receiver _ _ defaults body => receiver.toList ++ defaults ++ body.toList
  | callNode _ receiver _ arguments block => receiver.toList ++ arguments ++ block.toList
  | blockNode _ _ defaults body => defaults ++ body.toList
  | blockArgumentNode _ expression => expression.toList
  | aliasMethodNode _ newName oldName => [newName, oldName]
  | constantWriteNode _ _ _ value => [value]
  | constantPathWriteNode _ target value => [target, value]
  | constantReadNode .. => []
  | constantPathNode _ parent _ => parent.toList
  | localVariableReadNode .. => []
  | localVariableWriteNode _ _ value => [value]
  | selfNode _ => []
  | trueNode _ => []
  | falseNode _ => []
  | symbolNode .. => []
  | stringNode .. => []
  | interpolatedStringNode _ parts => parts
  | embeddedStatementsNode _ statements => statements.toList
  | arrayNode _ elements => elements
  | keywordHashNode _ elements => elements
  | assocNode _ key value => [key, value]
  | ifNode _ predicate statements subsequent =>
    predicate :: (statements.toList ++ subsequent.toList)
  | unlessNode _ predicate statements elseClause =>
    predicate :: (statements.toList ++ elseClause.toList)
  | elseNode _ statements => statements.toList
  | caseNode _ predicate conditions elseClause =>
    predicate.toList ++ conditions ++ elseClause.toList
  | whenNode _ conditions statements => conditions ++ statements.toList
  | loopNode _ header statements => header ++ statements.toList
  | beginNode _ statements rescueClause elseClause ensureClause =>
    statements.toList ++ rescueClause.toList ++ elseClause.toList ++ ensureClause.toList
  | rescueNode _ exceptions statements subsequent =>
    exceptions ++ statements.toList ++ subsequent.toList
  | ensureNode _ statements => statements.toList
  | otherNode _ children => children

theorem sizeOf_lt_of_mem_children {n c : Node} (h : c ∈ n.children) : sizeOf c < sizeOf n := by
  have hlist : ∀ {l : List Node}, c ∈ l → sizeOf c < sizeOf l := List.sizeOf_lt_of_mem
  have hopt : ∀ {o : Option Node}, c ∈ o.toList → sizeOf c < sizeOf o := by
    intro o ho
    obtain rfl := Option.mem_toList.mp ho
    simp
  cases n
  all_goals
    simp [children, -Option.mem_toList] at h ⊢
    try grind

/-! ### Traversal -/

section Visit

variable {σ : Type} (enter : Node → (σ → σ) → σ → σ)

mutual

/-- A visitor decides at every node what to do and whether to go on to the children. -/
def visit : Node → σ → σ
  | n@(programNode _ statements), s => enter n (visit statements) s
  | n@(statementsNode _ body), s => enter n (visitAll body) s
  | n@(classNode _ path superclass body), s =>
    enter n (fun s ↦ visitOpt body (visitOpt superclass (visit path s))) s
  | n@(moduleNode _ path body), s => enter n (fun s ↦ visitOpt body (visit path s)) s
  | n@(singletonClassNode _ expression body), s =>
    enter n (fun s ↦ visitOpt body (visit expression s)) s
  | n@(defNode _ _ receiver _ _ defaults body), s =>
    enter n (fun s ↦ visitOpt body (visitAll defaults (visitOpt receiver s))) s
  | n@(callNode _ receiver _ arguments block), s =>
    enter n (fun s ↦ visitOpt block (visitAll arguments (visitOpt receiver s))) s
  | n@(blockNode _ _ defaults body), s =>
    enter n (fun s ↦ visitOpt body (visitAll defaults s)) s
  | n@(blockArgumentNode _ expression), s => enter n (visitOpt expression) s
  | n@(aliasMethodNode _ newName oldName), s =>
    enter n (fun s ↦ visit oldName (visit newName s)) s
  | n@(constantWriteNode _ _ _ value), s => enter n (visit value) s
  | n@(constantPathWriteNode _ target value), s =>
    enter n (fun s ↦ visit value (visit target s)) s
  | n@(constantReadNode ..), s => enter n (fun s ↦ s) s
  | n@(constantPathNode _ parent _), s => enter n (visitOpt parent) s
  | n@(localVariableReadNode ..), s => enter n (fun s ↦ s) s
  | n@(localVariableWriteNode _ _ value), s => enter n (visit value) s
  | n@(selfNode _), s => enter n (fun s ↦ s) s
  | n@(trueNode _), s => enter n (fun s ↦ s) s
  | n@(falseNode _), s => enter n (fun s ↦ s) s
  | n@(symbolNode ..), s => enter n (fun s ↦ s) s
  | n@(stringNode ..), s => enter n (fun s ↦ s) s
  | n@(interpolatedStringNode _ parts), s => enter n (visitAll parts) s
  | n@(embeddedStatementsNode _ statements), s => enter n (visitOpt statements) s
  | n@(arrayNode _ elements), s => enter n (visitAll elements) s
  | n@(keywordHashNode _ elements), s => enter n (visitAll elements) s
  | n@(assocNode _ key value), s => enter n (fun s ↦ visit value (visit key s)) s
  | n@(ifNode _ predicate statements subsequent), s =>
    enter n (fun s ↦ visitOpt subsequent (visitOpt statements (visit predicate s))) s
  | n@(unlessNode _ predicate statements elseClause), s =>
    enter n (fun s ↦ visitOpt elseClause (visitOpt statements (visit predicate s))) s
  | n@(elseNode _ statements), s => enter n (visitOpt statements) s
  | n@(caseNode _ predicate conditions elseClause), s =>
    enter n (fun s ↦ visitOpt elseClause (visitAll conditions (visitOpt predicate s))) s
  | n@(whenNode _ conditions statements), s =>
    enter n (fun s ↦ visitOpt statements (visitAll conditions s)) s
  | n@(loopNode _ header statements), s =>
    enter n (fun s ↦ visitOpt statements (visitAll header s)) s
  | n@(beginNode _ statements rescueClause elseClause ensureClause), s =>
    enter n (fun s ↦ visitOpt ensureClause (visitOpt elseClause
      (visitOpt rescueClause (visitOpt statements s)))) s
  | n@(rescueNode _ exceptions statements subsequent), s =>
    enter n (fun s ↦ visitOpt subsequent (visitOpt statements (visitAll exceptions s))) s
  | n@(ensureNode _ statements), s => enter n (visitOpt statements) s
  | n@(otherNode _ children), s => enter n (visitAll children) s

def visitAll : List Node → σ → σ
  | [], s => s
  | n :: rest, s => visitAll rest (visit n s)

def visitOpt : Option Node → σ → σ
  | none, s => s
  | some n, s => visit n s

end

theorem visitAll_append (before after : List Node) (s : σ) :
    visitAll enter (before ++ after) s = visitAll enter after (visitAll enter before s) := by
  induction before generalizing s with
  | nil => simp [visitAll]
  | cons n before ih => simp [visitAll, ih]

theorem visitAll_toList (o : Option Node) (s : σ) :
    visitAll enter o.toList s = visitOpt enter o s := by
  cases o with
  | none => simp [visitAll, visitOpt]
  | some n => simp [visitAll, visitOpt]

/-- A traversal enters a node with the traversal of its children. -/
theorem visit_eq (n : Node) (s : σ) : visit enter n s = enter n (visitAll enter n.children) s := by
  have hrest : ∀ recur : σ → σ, (∀ s, recur s = visitAll enter n.children s) →
      enter n recur s = enter n (visitAll enter n.children) s := fun recur h ↦ by rw [funext h]
  cases n
  all_goals
    rw [visit]
    refine hrest _ fun s ↦ ?_
    simp only [children, visitAll, visitAll_append, visitAll_toList]

/-! ### What a traversal keeps -/

/-- What every visited node keeps, whatever is below it, the whole traversal keeps. -/
structure Keeps (R : σ → σ → Prop) : Prop where
  refl : ∀ s, R s s
  trans : ∀ {s s' s'' : σ}, R s s' → R s' s'' → R s s''
  enter : ∀ (n : Node) {recur : σ → σ}, (∀ s, R s (recur s)) → ∀ s, R s (enter n recur s)

variable {enter} {R : σ → σ → Prop}

theorem Keeps.visitAll_of_forall (h : Keeps enter R) {nodes : List Node}
    (hnodes : ∀ n ∈ nodes, ∀ s, R s (visit enter n s)) (s : σ) :
    R s (visitAll enter nodes s) := by
  induction nodes generalizing s with
  | nil =>
    rw [visitAll]
    exact h.refl s
  | cons n rest ih =>
    rw [visitAll]
    exact h.trans (hnodes n List.mem_cons_self s)
      (ih (fun n' hn' ↦ hnodes n' (List.mem_cons_of_mem n hn')) _)

theorem Keeps.visit (h : Keeps enter R) (n : Node) (s : σ) : R s (visit enter n s) := by
  -- the children of a node are smaller than the node
  induction hsize : sizeOf n using Nat.strong_induction_on generalizing n s with
  | _ size ih =>
    subst hsize
    rw [visit_eq]
    refine h.enter n (fun s ↦ ?_) s
    exact h.visitAll_of_forall (fun c hc s ↦ ih _ (sizeOf_lt_of_mem_children hc) c s rfl) s

theorem Keeps.visitAll (h : Keeps enter R) (nodes : List Node) (s : σ) :
    R s (visitAll enter nodes s) :=
  h.visitAll_of_forall (fun n _ ↦ h.visit n) s

/-- What the traversal of one of the nodes does is kept to the end. -/
theorem Keeps.visitAll_reaches (h : Keeps enter R) {n : Node} {nodes : List Node}
    (hn : n ∈ nodes) (s : σ) :
    ∃ s', R s s' ∧ R (Node.visit enter n s') (Node.visitAll enter nodes s) := by
  obtain ⟨before, after, rfl⟩ := List.append_of_mem hn
  rw [visitAll_append]
  exact ⟨_, h.visitAll before s, h.visitAll after _⟩

end Visit

/-! ### Shapes -/

def isSelf : Node → Bool
  | selfNode _ => true
  | _ => false

/-- `const_path_str`: a literal constant path. -/
def constPathStr : Node → Option ConstPath
  | constantReadNode _ name => some [name]
  | constantPathNode _ (some parent) (some name) => (constPathStr parent).map (· ++ [name])
  | constantPathNode _ none (some name) => some ["", name]
  | _ => none

/-- `literal_method_name`: a symbol or a plain string. -/
def literalMethodName : Node → Option String
  | symbolNode _ name => some name
  | stringNode _ name => some name
  | _ => none

def symbolName : Node → Option String
  | symbolNode _ name => some name
  | _ => none

def isBlockNode : Node → Bool
  | blockNode .. => true
  | _ => false

/-- The statements of a body that is a plain sequence. -/
def statementsOf : Node → Option (List Node)
  | statementsNode _ body => some body
  | _ => none

/-- `sole_statement`. -/
def soleStatement (n : Node) : Option Node :=
  match n.statementsOf with
  | some [only] => some only
  | _ => none

end Node

/-- The parts of a call node that the walkers read. -/
structure CallSite where
  loc : Span
  receiver : Option Node
  name : String
  arguments : List Node
  block : Option Node

/-- The parts of a `def` node that the walkers read. -/
structure DefSite where
  loc : Span
  nameLoc : Span
  receiver : Option Node
  name : String
  parameters : Option Params
  body : Option Node

namespace Node

def asCall : Node → Option CallSite
  | callNode loc receiver name arguments block => some { loc, receiver, name, arguments, block }
  | _ => none

def asDef : Node → Option DefSite
  | defNode loc nameLoc receiver name parameters _ body =>
    some { loc, nameLoc, receiver, name, parameters, body }
  | _ => none

theorem asDef_of_asCall {n : Node} {call : CallSite} (h : n.asCall = some call) :
    n.asDef = none := by
  unfold asCall at h
  split at h
  · rfl
  · cases h

end Node

/-- A path from a constant write or a class keyword, under the scope it is written in. -/
def joinPath (scope name : ConstPath) : ConstPath :=
  if scope = [] ∨ (stripCbase name).isSome then trimCbase name else scope ++ name

end Itaruby
