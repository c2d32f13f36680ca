import Itaruby.Ruby.Values
import Mathlib.Data.List.AList
import Mathlib.Logic.Relation

/-!
Locals that hold a literal of one type wherever they are read. The scan goes over all that
binds a local in a scope; `def`, `class`, `module` and `class << x` open a scope of their
own, and the scan does not go into them. What stands in their heads, a superclass, a
receiver, still runs in the scope around them.
-/

set_option autoImplicit false
set_option relaxedAutoImplicit false

namespace Itaruby

/-- The syntax of a local scope: what binds a local, what reads one, and `other` for nodes that
do neither, with their children in order. A node that opens a scope keeps apart what is run
outside that scope: the receiver of a `def`, the path and the superclass of a class. -/
inductive ScopeNode
  | integerNode
  | floatNode
  | stringNode
  | interpolatedStringNode (parts : List ScopeNode)
  | nilNode
  | localVariableReadNode (name : String)
  | localVariableWriteNode (name : String) (value : ScopeNode)
  | localVariableOperatorWriteNode (name : String) (value : ScopeNode)
  | localVariableAndWriteNode (name : String) (value : ScopeNode)
  | localVariableOrWriteNode (name : String) (value : ScopeNode)
  /-- multiple assignment, `for`, `rescue => e`, patterns, named captures -/
  | localVariableTargetNode (name : String)
  | blockLocalVariableNode (name : String)
  | requiredParameterNode (name : String)
  | optionalParameterNode (name : String) (value : ScopeNode)
  | restParameterNode (name : Option String)
  | keywordRestParameterNode (name : Option String)
  | requiredKeywordParameterNode (name : String)
  | optionalKeywordParameterNode (name : String) (value : ScopeNode)
  | blockParameterNode (name : Option String)
  /-- `_1` up to the greatest one that the block names -/
  | numberedParametersNode (maximum : ℕ)
  /-- the children are the receiver, the arguments and the block -/
  | callNode (name : String) (children : List ScopeNode)
  | defNode (head body : List ScopeNode)
  | classNode (head body : List ScopeNode)
  | moduleNode (head body : List ScopeNode)
  | singletonClassNode (head body : List ScopeNode)
  | otherNode (children : List ScopeNode)

/-- `literal_operand_ty` -/
def literalOperandTy : ScopeNode → Option Ty
  | .integerNode => some .int
  | .floatNode => some .float
  | .stringNode => some .str
  | .interpolatedStringNode _ => some .str
  | .nilNode => some .nil
  | _ => none

/-- The calls that can rewrite any local of the scope. -/
def evalFamily : List String :=
  ["eval", "instance_eval", "class_eval", "module_eval", "binding", "local_variable_set"]

def numberedNames : List String := ["_1", "_2", "_3", "_4", "_5", "_6", "_7", "_8", "_9"]

/-- A name without a type in `seen` is poisoned. -/
structure OperandLocalScan where
  seen : AList fun _ : String ↦ Option Ty := ∅
  bail : Bool := false

namespace OperandLocalScan

def write (scan : OperandLocalScan) (name : String) (ty : Option Ty) : OperandLocalScan :=
  match scan.seen.lookup name with
  | some slot => if slot = ty then scan else { scan with seen := scan.seen.insert name none }
  | none => { scan with seen := scan.seen.insert name ty }

def poison (scan : OperandLocalScan) (name : String) : OperandLocalScan :=
  { scan with seen := scan.seen.insert name none }

def poisonOpt (scan : OperandLocalScan) : Option String → OperandLocalScan
  | none => scan
  | some name => scan.poison name

mutual

def visit : ScopeNode → OperandLocalScan → OperandLocalScan
  | .integerNode, scan => scan
  | .floatNode, scan => scan
  | .stringNode, scan => scan
  | .interpolatedStringNode parts, scan => visitAll parts scan
  | .nilNode, scan => scan
  | .localVariableReadNode _, scan => scan
  | .localVariableWriteNode name value, scan =>
    visit value (scan.write name (literalOperandTy value))
  | .localVariableOperatorWriteNode name value, scan => visit value (scan.poison name)
  | .localVariableAndWriteNode name value, scan => visit value (scan.poison name)
  | .localVariableOrWriteNode name value, scan => visit value (scan.poison name)
  | .localVariableTargetNode name, scan => scan.poison name
  | .blockLocalVariableNode name, scan => scan.poison name
  | .requiredParameterNode name, scan => scan.poison name
  | .optionalParameterNode name value, scan => visit value (scan.poison name)
  | .restParameterNode name, scan => scan.poisonOpt name
  | .keywordRestParameterNode name, scan => scan.poisonOpt name
  | .requiredKeywordParameterNode name, scan => scan.poison name
  | .optionalKeywordParameterNode name value, scan => visit value (scan.poison name)
  | .blockParameterNode name, scan => scan.poisonOpt name
  | .numberedParametersNode _, scan => numberedNames.foldl poison scan
  | .callNode name children, scan =>
    visitAll children (if name ∈ evalFamily then { scan with bail := true } else scan)
  | .defNode _ _, scan => scan
  | .classNode _ _, scan => scan
  | .moduleNode _ _, scan => scan
  | .singletonClassNode _ _, scan => scan
  | .otherNode children, scan => visitAll children scan

def visitAll : List ScopeNode → OperandLocalScan → OperandLocalScan
  | [], scan => scan
  | n :: rest, scan => visitAll rest (visit n scan)

end

end OperandLocalScan

/-- `prove_operand_locals`; the map that is returned is read by name. -/
def proveOperandLocals (params body : Option ScopeNode) (name : String) : Option Ty :=
  let scan := OperandLocalScan.visitAll (params.toList ++ body.toList) {}
  if scan.bail then none else (scan.seen.lookup name).join

/-! ### The scope as Ruby runs it -/

namespace ScopeNode

mutual

/-- The nodes that are run in the scope of `n`, and those of them that the scan visits. -/
def here (heads : Bool) : ScopeNode → List ScopeNode
  | n@(.interpolatedStringNode parts) => n :: hereAll heads parts
  | n@(.localVariableWriteNode _ value) => n :: here heads value
  | n@(.localVariableOperatorWriteNode _ value) => n :: here heads value
  | n@(.localVariableAndWriteNode _ value) => n :: here heads value
  | n@(.localVariableOrWriteNode _ value) => n :: here heads value
  | n@(.optionalParameterNode _ value) => n :: here heads value
  | n@(.optionalKeywordParameterNode _ value) => n :: here heads value
  | n@(.callNode _ children) => n :: hereAll heads children
  | n@(.defNode head _) => n :: if heads then hereAll heads head else []
  | n@(.classNode head _) => n :: if heads then hereAll heads head else []
  | n@(.moduleNode head _) => n :: if heads then hereAll heads head else []
  | n@(.singletonClassNode head _) => n :: if heads then hereAll heads head else []
  | n@(.otherNode children) => n :: hereAll heads children
  | n => [n]

def hereAll (heads : Bool) : List ScopeNode → List ScopeNode
  | [] => []
  | n :: rest => here heads n ++ hereAll heads rest

end

mutual

/-- The nodes of the scope that stand in the head of another one. -/
def inHeads : ScopeNode → List ScopeNode
  | .interpolatedStringNode parts => inHeadsAll parts
  | .localVariableWriteNode _ value => inHeads value
  | .localVariableOperatorWriteNode _ value => inHeads value
  | .localVariableAndWriteNode _ value => inHeads value
  | .localVariableOrWriteNode _ value => inHeads value
  | .optionalParameterNode _ value => inHeads value
  | .optionalKeywordParameterNode _ value => inHeads value
  | .callNode _ children => inHeadsAll children
  | .defNode head _ => hereAll true head
  | .classNode head _ => hereAll true head
  | .moduleNode head _ => hereAll true head
  | .singletonClassNode head _ => hereAll true head
  | .otherNode children => inHeadsAll children
  | _ => []

def inHeadsAll : List ScopeNode → List ScopeNode
  | [] => []
  | n :: rest => inHeads n ++ inHeadsAll rest

end

/-- Does the node bind the local? -/
def binds (name : String) : ScopeNode → Bool
  | .localVariableWriteNode x _ => x = name
  | .localVariableOperatorWriteNode x _ => x = name
  | .localVariableAndWriteNode x _ => x = name
  | .localVariableOrWriteNode x _ => x = name
  | .localVariableTargetNode x => x = name
  | .blockLocalVariableNode x => x = name
  | .requiredParameterNode x => x = name
  | .optionalParameterNode x _ => x = name
  | .restParameterNode x => x = some name
  | .keywordRestParameterNode x => x = some name
  | .requiredKeywordParameterNode x => x = name
  | .optionalKeywordParameterNode x _ => x = name
  | .blockParameterNode x => x = some name
  | .numberedParametersNode maximum => name ∈ numberedNames.take maximum
  | _ => false

/-- A plain write of a literal of the type. -/
def WritesLiteral (name : String) (ty : Ty) (n : ScopeNode) : Prop :=
  ∃ value, n = .localVariableWriteNode name value ∧ literalOperandTy value = some ty

def isEval : ScopeNode → Bool
  | .callNode name _ => name ∈ evalFamily
  | _ => false

end ScopeNode

/-- The locals of a scope; one that was not bound yet is nil. -/
abbrev Locals := String → Value

/-- One of the nodes is run. What a literal gives is known, anything else may give any value. -/
inductive ScopeStep (inherits : ClassId → ClassId → Prop) (nodes : List ScopeNode) :
    Locals → Locals → Prop
  | write {ls : Locals} {name : String} {value : ScopeNode} {v : Value} :
      .localVariableWriteNode name value ∈ nodes →
      (∀ ty, literalOperandTy value = some ty → ty.Covers inherits v) →
        ScopeStep inherits nodes ls (Function.update ls name v)
  | bind {ls : Locals} {n : ScopeNode} {name : String} {v : Value} :
      n ∈ nodes → n.binds name = true → (∀ value, n ≠ .localVariableWriteNode name value) →
        ScopeStep inherits nodes ls (Function.update ls name v)
  | eval {ls ls' : Locals} {n : ScopeNode} : n ∈ nodes → n.isEval = true →
      ScopeStep inherits nodes ls ls'

/-- The nodes of a scope run in any order, any number of times. -/
def ScopeRun (inherits : ClassId → ClassId → Prop) (nodes : List ScopeNode) (ls : Locals) : Prop :=
  Relation.ReflTransGen (ScopeStep inherits nodes) (fun _ ↦ .nil) ls

/-- A name that is proven has nothing in the scope that binds it but plain writes of literals of
its type, and is nil or of its type whatever was run. -/
def ProofsHold (inherits : ClassId → ClassId → Prop) (params body : Option ScopeNode) : Prop :=
  ∀ name ty, proveOperandLocals params body name = some ty →
    (∀ n ∈ ScopeNode.hereAll true (params.toList ++ body.toList),
      (n.binds name = true → n.WritesLiteral name ty) ∧ n.isEval = false) ∧
    ∀ ls, ScopeRun inherits (ScopeNode.hereAll true (params.toList ++ body.toList)) ls →
      ls name = .nil ∨ ty.Covers inherits (ls name)

/-! ### What the scan does at one node -/

namespace ScopeNode

/-- Does the scan write or poison the name at this node? -/
def touches (name : String) : ScopeNode → Bool
  | .numberedParametersNode _ => name ∈ numberedNames
  | n => n.binds name

/-- What the scan takes the local for at a node that touches it. -/
def verdict : ScopeNode → Option Ty
  | .localVariableWriteNode _ value => literalOperandTy value
  | _ => none

theorem touches_of_binds {n : ScopeNode} {name : String} (h : n.binds name = true) :
    n.touches name = true := by
  cases n with
  | numberedParametersNode maximum =>
    simp only [binds, touches, decide_eq_true_eq] at h ⊢
    exact List.mem_of_mem_take h
  | _ => exact h

theorem writesLiteral_iff {n : ScopeNode} {name : String} {ty : Ty} :
    n.WritesLiteral name ty ↔ n.touches name = true ∧ n.verdict = some ty := by
  constructor
  · rintro ⟨value, rfl, hliteral⟩
    exact ⟨by simp [touches, binds], hliteral⟩
  · rintro ⟨htouches, hverdict⟩
    cases n with
    | localVariableWriteNode x value =>
      obtain rfl : x = name := by simpa [touches, binds] using htouches
      exact ⟨value, rfl, hverdict⟩
    | _ => simp [verdict] at hverdict

end ScopeNode

namespace OperandLocalScan

/-- What the scan does at a node before it goes on to the children. -/
def effect (scan : OperandLocalScan) : ScopeNode → OperandLocalScan
  | .localVariableWriteNode name value => scan.write name (literalOperandTy value)
  | .localVariableOperatorWriteNode name _ => scan.poison name
  | .localVariableAndWriteNode name _ => scan.poison name
  | .localVariableOrWriteNode name _ => scan.poison name
  | .localVariableTargetNode name => scan.poison name
  | .blockLocalVariableNode name => scan.poison name
  | .requiredParameterNode name => scan.poison name
  | .optionalParameterNode name _ => scan.poison name
  | .restParameterNode name => scan.poisonOpt name
  | .keywordRestParameterNode name => scan.poisonOpt name
  | .requiredKeywordParameterNode name => scan.poison name
  | .optionalKeywordParameterNode name _ => scan.poison name
  | .blockParameterNode name => scan.poisonOpt name
  | .numberedParametersNode _ => numberedNames.foldl poison scan
  | .callNode name _ => if name ∈ evalFamily then { scan with bail := true } else scan
  | _ => scan

mutual

/-- The scan is one pass over the nodes it visits. -/
theorem visit_eq_foldl (n : ScopeNode) (scan : OperandLocalScan) :
    visit n scan = (n.here false).foldl effect scan := by
  cases n with
  | interpolatedStringNode parts => simp [visit, ScopeNode.here, effect, visitAll_eq_foldl parts]
  | localVariableWriteNode name value =>
    simp [visit, ScopeNode.here, effect, visit_eq_foldl value]
  | localVariableOperatorWriteNode name value =>
    simp [visit, ScopeNode.here, effect, visit_eq_foldl value]
  | localVariableAndWriteNode name value =>
    simp [visit, ScopeNode.here, effect, visit_eq_foldl value]
  | localVariableOrWriteNode name value =>
    simp [visit, ScopeNode.here, effect, visit_eq_foldl value]
  | optionalParameterNode name value => simp [visit, ScopeNode.here, effect, visit_eq_foldl value]
  | optionalKeywordParameterNode name value =>
    simp [visit, ScopeNode.here, effect, visit_eq_foldl value]
  | callNode name children => simp [visit, ScopeNode.here, effect, visitAll_eq_foldl children]
  | otherNode children => simp [visit, ScopeNode.here, effect, visitAll_eq_foldl children]
  | _ => simp [visit, ScopeNode.here, effect]

theorem visitAll_eq_foldl (nodes : List ScopeNode) (scan : OperandLocalScan) :
    visitAll nodes scan = (ScopeNode.hereAll false nodes).foldl effect scan := by
  cases nodes with
  | nil => simp [visitAll, ScopeNode.hereAll]
  | cons n rest =>
    simp [visitAll, ScopeNode.hereAll, visit_eq_foldl n, visitAll_eq_foldl rest]

end

/-- The slot of a name after one more node that touches it. -/
def settle : Option (Option Ty) → Option Ty → Option Ty
  | none, ty => ty
  | some slot, ty => if slot = ty then slot else none

theorem settle_eq_some_iff {slot : Option (Option Ty)} {found : Option Ty} {ty : Ty} :
    settle slot found = some ty ↔ (slot = some (some ty) ∨ slot = none) ∧ found = some ty := by
  cases slot with
  | none => simp [settle]
  | some slot =>
    by_cases h : slot = found
    · simp [settle, h]
    · simp only [settle, if_neg h, reduceCtorEq, false_iff, or_false, Option.some.injEq]
      rintro ⟨rfl, rfl⟩
      exact h rfl

theorem settle_none {slot : Option (Option Ty)} : settle slot none = none := by
  cases slot with
  | none => rfl
  | some slot => by_cases h : slot = none <;> simp [settle, h]

theorem lookup_poison (scan : OperandLocalScan) (x name : String) :
    (scan.poison x).seen.lookup name = if x = name then some none else scan.seen.lookup name := by
  unfold poison
  split_ifs with h
  · rw [h, AList.lookup_insert]
  · rw [AList.lookup_insert_ne (Ne.symm h)]

theorem lookup_poisonOpt (scan : OperandLocalScan) (x : Option String) (name : String) :
    (scan.poisonOpt x).seen.lookup name =
      if x = some name then some none else scan.seen.lookup name := by
  cases x with
  | none => simp [poisonOpt]
  | some x => simp [poisonOpt, lookup_poison]

theorem lookup_foldl_poison (names : List String) (scan : OperandLocalScan) (name : String) :
    (names.foldl poison scan).seen.lookup name =
      if name ∈ names then some none else scan.seen.lookup name := by
  induction names generalizing scan with
  | nil => simp
  | cons x rest ih =>
    rw [List.foldl_cons, ih, lookup_poison]
    by_cases hrest : name ∈ rest
    · simp [hrest]
    · simp [hrest, eq_comm]

theorem lookup_write (scan : OperandLocalScan) (x name : String) (ty : Option Ty) :
    (scan.write x ty).seen.lookup name =
      if x = name then some (settle (scan.seen.lookup name) ty) else scan.seen.lookup name := by
  unfold write
  by_cases hname : x = name
  · subst hname
    rw [if_pos rfl]
    cases hslot : scan.seen.lookup x with
    | none => simp [settle]
    | some slot => by_cases h : slot = ty <;> simp [settle, h, hslot]
  · rw [if_neg hname]
    cases scan.seen.lookup x with
    | none => exact AList.lookup_insert_ne (Ne.symm hname)
    | some slot =>
      by_cases h : slot = ty
      · simp [h]
      · simpa [h] using AList.lookup_insert_ne (Ne.symm hname)

theorem lookup_effect (scan : OperandLocalScan) (n : ScopeNode) (name : String) :
    (scan.effect n).seen.lookup name =
      if n.touches name then some (settle (scan.seen.lookup name) n.verdict)
      else scan.seen.lookup name := by
  cases n with
  | localVariableWriteNode x value =>
    simp [effect, lookup_write, ScopeNode.touches, ScopeNode.binds, ScopeNode.verdict]
  | numberedParametersNode maximum =>
    simp [effect, lookup_foldl_poison, ScopeNode.touches, ScopeNode.verdict, settle_none]
  | callNode x children =>
    by_cases hname : x ∈ evalFamily
    · simp [effect, ScopeNode.touches, ScopeNode.binds, hname]
    · simp [effect, ScopeNode.touches, ScopeNode.binds, hname]
  | _ =>
    simp [effect, lookup_poison, lookup_poisonOpt, ScopeNode.touches, ScopeNode.binds,
      ScopeNode.verdict, settle_none]

theorem bail_effect (scan : OperandLocalScan) (n : ScopeNode) :
    (scan.effect n).bail = (scan.bail || n.isEval) := by
  have hwrite : ∀ x ty, (scan.write x ty).bail = scan.bail := by
    intro x ty
    unfold write
    split
    · split_ifs <;> rfl
    · rfl
  have hpoison : ∀ x, (scan.poisonOpt x).bail = scan.bail := fun x ↦ by cases x <;> rfl
  have hfoldl : ∀ (names : List String) (scan : OperandLocalScan),
      (names.foldl poison scan).bail = scan.bail := by
    intro names
    induction names with
    | nil => exact fun _ ↦ rfl
    | cons x rest ih => exact fun scan ↦ ih (scan.poison x)
  cases n with
  | callNode x children => by_cases hname : x ∈ evalFamily <;> simp [effect, ScopeNode.isEval, hname]
  | _ => simp [effect, ScopeNode.isEval, hwrite, hpoison, hfoldl, poison]

theorem bail_foldl (nodes : List ScopeNode) (scan : OperandLocalScan) :
    (nodes.foldl effect scan).bail = (scan.bail || nodes.any ScopeNode.isEval) := by
  induction nodes generalizing scan with
  | nil => simp
  | cons n rest ih => rw [List.foldl_cons, ih, bail_effect, List.any_cons, Bool.or_assoc]

/-- Poison never lifts: a name keeps a type exactly when all nodes that touch it agree on it. -/
theorem lookup_foldl (nodes : List ScopeNode) (scan : OperandLocalScan) (name : String) (ty : Ty) :
    (nodes.foldl effect scan).seen.lookup name = some (some ty) ↔
      (scan.seen.lookup name = some (some ty) ∨
        scan.seen.lookup name = none ∧ ∃ n ∈ nodes, n.touches name = true) ∧
      ∀ n ∈ nodes, n.touches name = true → n.WritesLiteral name ty := by
  induction nodes generalizing scan with
  | nil => simp
  | cons n rest ih =>
    rw [List.foldl_cons, ih, lookup_effect, List.forall_mem_cons, List.exists_mem_cons_iff]
    by_cases htouches : n.touches name = true
    · have hverdict : n.WritesLiteral name ty ↔ n.verdict = some ty := by
        simp [ScopeNode.writesLiteral_iff, htouches]
      simp [htouches, settle_eq_some_iff, hverdict, and_assoc]
    · simp [htouches]

end OperandLocalScan

theorem proveOperandLocals_eq_some_iff {params body : Option ScopeNode} {name : String} {ty : Ty} :
    proveOperandLocals params body name = some ty ↔
      (∀ n ∈ ScopeNode.hereAll false (params.toList ++ body.toList), n.isEval = false) ∧
      (∃ n ∈ ScopeNode.hereAll false (params.toList ++ body.toList), n.touches name = true) ∧
      ∀ n ∈ ScopeNode.hereAll false (params.toList ++ body.toList),
        n.touches name = true → n.WritesLiteral name ty := by
  unfold proveOperandLocals
  rw [OperandLocalScan.visitAll_eq_foldl]
  have hjoin : ∀ slot : Option (Option Ty), slot.join = some ty ↔ slot = some (some ty) := by
    intro slot
    rw [Option.join_eq_some_iff]
  dsimp only
  rw [OperandLocalScan.bail_foldl, Bool.false_or]
  by_cases heval : (ScopeNode.hereAll false (params.toList ++ body.toList)).any ScopeNode.isEval
  · rw [if_pos heval]
    obtain ⟨n, hn, hcall⟩ := List.any_eq_true.mp heval
    refine iff_of_false (by simp) fun h ↦ ?_
    simp [h.1 n hn] at hcall
  · rw [if_neg heval, hjoin, OperandLocalScan.lookup_foldl]
    have hnone : ∀ n ∈ ScopeNode.hereAll false (params.toList ++ body.toList),
        n.isEval = false := by simpa using heval
    simp only [AList.lookup_empty, reduceCtorEq, false_or, true_and]
    exact ⟨fun h ↦ ⟨hnone, h⟩, fun h ↦ h.2⟩

/-! ### The scope and its heads -/

namespace ScopeNode

mutual

theorem mem_here_iff {m : ScopeNode} (n : ScopeNode) :
    m ∈ n.here true ↔ m ∈ n.here false ∨ m ∈ n.inHeads := by
  cases n with
  | interpolatedStringNode parts => simp [here, inHeads, mem_hereAll_iff parts, or_assoc]
  | localVariableWriteNode name value => simp [here, inHeads, mem_here_iff value, or_assoc]
  | localVariableOperatorWriteNode name value => simp [here, inHeads, mem_here_iff value, or_assoc]
  | localVariableAndWriteNode name value => simp [here, inHeads, mem_here_iff value, or_assoc]
  | localVariableOrWriteNode name value => simp [here, inHeads, mem_here_iff value, or_assoc]
  | optionalParameterNode name value => simp [here, inHeads, mem_here_iff value, or_assoc]
  | optionalKeywordParameterNode name value => simp [here, inHeads, mem_here_iff value, or_assoc]
  | callNode name children => simp [here, inHeads, mem_hereAll_iff children, or_assoc]
  | otherNode children => simp [here, inHeads, mem_hereAll_iff children, or_assoc]
  | _ => simp [here, inHeads]

theorem mem_hereAll_iff {m : ScopeNode} (nodes : List ScopeNode) :
    m ∈ hereAll true nodes ↔ m ∈ hereAll false nodes ∨ m ∈ inHeadsAll nodes := by
  cases nodes with
  | nil => simp [hereAll, inHeadsAll]
  | cons n rest =>
    simp only [hereAll, inHeadsAll, List.mem_append, mem_here_iff n, mem_hereAll_iff rest]
    exact or_or_or_comm

end

end ScopeNode

/-- A local that is only ever written a literal of one type is nil or of that type. -/
theorem ScopeRun.nil_or_covers {inherits : ClassId → ClassId → Prop} {nodes : List ScopeNode}
    {name : String} {ty : Ty}
    (hnodes : ∀ n ∈ nodes, (n.binds name = true → n.WritesLiteral name ty) ∧ n.isEval = false)
    {ls : Locals} (h : ScopeRun inherits nodes ls) :
    ls name = .nil ∨ ty.Covers inherits (ls name) := by
  induction h with
  | refl => exact Or.inl rfl
  | tail _ hstep ih =>
    cases hstep with
    | @write x value v hmem hvalue =>
      by_cases hx : x = name
      · subst hx
        obtain ⟨value', heq, hliteral⟩ := (hnodes _ hmem).1 (by simp [ScopeNode.binds])
        obtain ⟨-, rfl⟩ := ScopeNode.localVariableWriteNode.inj heq
        rw [Function.update_self]
        exact Or.inr (hvalue ty hliteral)
      · rwa [Function.update_of_ne (Ne.symm hx)]
    | @bind n x v hmem hbinds hwrite =>
      by_cases hx : x = name
      · subst hx
        obtain ⟨value, heq, -⟩ := (hnodes _ hmem).1 hbinds
        exact absurd heq (hwrite value)
      · rwa [Function.update_of_ne (Ne.symm hx)]
    | @eval _ n hmem heval => simp [(hnodes _ hmem).2] at heval

/-- What the scan does not look at agrees with what it proves: a local that all it visits binds
by literals of one type, away from any `eval`, is bound so in the heads too. -/
def HeadsAgree (params body : Option ScopeNode) : Prop :=
  ∀ name ty, (∀ n ∈ ScopeNode.hereAll false (params.toList ++ body.toList), n.isEval = false) →
    (∃ n ∈ ScopeNode.hereAll false (params.toList ++ body.toList), n.touches name = true) →
    (∀ n ∈ ScopeNode.hereAll false (params.toList ++ body.toList),
      n.touches name = true → n.WritesLiteral name ty) →
    ∀ n ∈ ScopeNode.inHeadsAll (params.toList ++ body.toList),
      (n.binds name = true → n.WritesLiteral name ty) ∧ n.isEval = false

/-- The proofs hold, of the syntax and of every run, exactly when no head rebinds a local that is
proven. -/
theorem operand_proofs_hold_iff (inherits : ClassId → ClassId → Prop)
    (params body : Option ScopeNode) :
    ProofsHold inherits params body ↔ HeadsAgree params body := by
  constructor
  · intro h name ty heval htouched hliteral n hn
    have hproved := proveOperandLocals_eq_some_iff.mpr ⟨heval, htouched, hliteral⟩
    exact (h name ty hproved).1 n ((ScopeNode.mem_hereAll_iff _).mpr (Or.inr hn))
  · intro h name ty hproved
    obtain ⟨heval, htouched, hliteral⟩ := proveOperandLocals_eq_some_iff.mp hproved
    have hnodes : ∀ n ∈ ScopeNode.hereAll true (params.toList ++ body.toList),
        (n.binds name = true → n.WritesLiteral name ty) ∧ n.isEval = false := by
      intro n hn
      rcases (ScopeNode.mem_hereAll_iff _).mp hn with hn | hn
      · exact ⟨fun hbinds ↦ hliteral n hn (ScopeNode.touches_of_binds hbinds), heval n hn⟩
      · exact h name ty heval htouched hliteral n hn
    exact ⟨hnodes, fun ls hrun ↦ hrun.nil_or_covers hnodes⟩

/-- `x = 1; class << (x = "s"); end` -/
def reboundBody : ScopeNode :=
  .otherNode [.localVariableWriteNode "x" .integerNode,
    .singletonClassNode [.localVariableWriteNode "x" .stringNode] []]

/-- The local is proven an `Integer` and holds a string. -/
theorem singleton_head_rebinds :
    proveOperandLocals none (some reboundBody) "x" = some .int ∧
    ¬ ProofsHold (fun _ _ ↦ False) none (some reboundBody) := by
  have hproved : proveOperandLocals none (some reboundBody) "x" = some .int := by decide
  refine ⟨hproved, fun h ↦ ?_⟩
  have hmem : .localVariableWriteNode "x" .stringNode ∈
      ScopeNode.hereAll true ([] ++ [reboundBody]) := by
    simp [reboundBody, ScopeNode.hereAll, ScopeNode.here]
  have hstep : ScopeStep (fun _ _ ↦ False) (ScopeNode.hereAll true ([] ++ [reboundBody]))
      (fun _ ↦ .nil) (Function.update (fun _ ↦ .nil) "x" .str) := by
    refine .write hmem fun ty hty ↦ ?_
    obtain rfl := Option.some.inj hty
    exact rfl
  have hread := (h "x" .int hproved).2 _ (.single hstep)
  simp [Ty.Covers] at hread

end Itaruby
