import Itaruby.Check.Infer

/-!
What a walk reads of a tree, and which expressions its questions come from.
-/

set_option autoImplicit false
set_option relaxedAutoImplicit false

namespace Itaruby

namespace Expr

mutual

/-- The expressions inside this one that a walk reads, at any depth. -/
def reads : Expr → List Expr
  | .leaf _ _ => []
  | .selfNode => []
  | .parts _ children => readsEach children
  | .array elements => readsEach elements
  | .hash _ elements => readsEach elements
  | .assoc key value => (key :: reads key) ++ (value :: reads value)
  | .splat expression => readsOpt expression
  | .localRead _ _ => []
  | .localWrite _ _ value => value :: reads value
  | .localOrWrite _ value => value :: reads value
  | .localAndWrite _ value => value :: reads value
  | .localOperatorWrite _ value => value :: reads value
  | .ivarRead _ => []
  | .ivarWrite _ value => value :: reads value
  | .ivarUpdate _ value => value :: reads value
  | .otherWrite value => value :: reads value
  | .constant _ => []
  | .sequence statements => readsEach statements
  | .paren body => readsOpt body
  | .ifNode predicate statements subsequent =>
    (predicate :: reads predicate) ++ readsEach statements ++ readsOpt subsequent
  | .unlessNode predicate statements _ elseStatements =>
    (predicate :: reads predicate) ++ readsEach statements ++ readsEach elseStatements
  | .caseNode predicate conditions elseStatements =>
    readsOpt predicate ++ readsEach conditions ++ readsEach elseStatements
  | .whenNode conditions statements => readsEach conditions ++ readsEach statements
  | .caseMatch predicate _ _ => readsOpt predicate
  | .loop predicate statements => (predicate :: reads predicate) ++ readsEach statements
  | .forNode _ collection statements => (collection :: reads collection) ++ readsEach statements
  | .andNode left right => (left :: reads left) ++ (right :: reads right)
  | .orNode left right => (left :: reads left) ++ (right :: reads right)
  | .beginNode statements rescues elseStatements ensureStatements =>
    readsEach statements ++ readsEach rescues ++ readsEach elseStatements ++
      readsEach ensureStatements
  | .rescueNode exceptions _ statements => readsEach exceptions ++ readsEach statements
  | .rescueModifier expression rescueExpression =>
    (expression :: reads expression) ++ (rescueExpression :: reads rescueExpression)
  | .returnNode arguments => readsEach arguments
  | .jump _ _ => []
  | .callNode _ _ receiver _ arguments _ block =>
    readsOpt receiver ++ readsEach arguments ++ readsOpt block
  | .blockNode _ _ body => readsOpt body
  | .callUpdate receiver value => readsOpt receiver ++ (value :: reads value)
  | .superNode _ arguments => readsEach arguments
  | .forwardingSuper _ => []
  | .lambda _ _ body => readsOpt body
  | .multiWrite _ _ _ value => value :: reads value
  | .capture _ _ => []
  | .classNode _ _ body => readsOpt body
  | .singletonClass _ body => readsOpt body
  | .defNode _ _ _ _ defaults body => readsEach defaults ++ readsOpt body

def readsOpt : Option Expr → List Expr
  | none => []
  | some e => e :: reads e

def readsEach : List Expr → List Expr
  | [] => []
  | e :: rest => (e :: reads e) ++ readsEach rest

end

/-- The questions that the walk asks at an expression itself. -/
def MayAsk : Expr → Query → Prop
  | .localRead loc _, .localRead loc' _ => loc' = loc
  | .ivarRead name, .ivar _ name' => name' = name
  | .ivarWrite name _, .ivarWrite name' _ => name' = name
  | .constant (some path), .constant path' => path' = path
  | .andNode .., .guardName _ => True
  | .andNode .., .dropName => True
  | .returnNode _, .returns _ => True
  | .callNode loc msg _ name _ _ _, .call site =>
    site.loc = loc ∧ site.msg = msg ∧ site.name = name
  | .callNode _ _ (some (.ivarRead ivar)) name _ _ _, .ivarWrite ivar' ty =>
    name = "extend" ∧ ivar' = ivar ∧ ty = .unknown
  | .callNode .., .armSubjects _ => True
  | .callNode .., .disarmSubjects _ => True
  | .callNode .., .enterBlock _ => True
  | .callNode .., .leaveBlock => True
  | .superNode keyword _, .superCall span => span = keyword
  | .forwardingSuper loc, .superCall span => span = loc
  | .lambda .., .enterBlock _ => True
  | .lambda .., .leaveBlock => True
  | _, _ => False

/-- The questions around the block of a call. -/
def FramesBlock : Query → Prop
  | .enterBlock _ | .leaveBlock | .armSubjects _ | .disarmSubjects _ => True
  | _ => False

theorem mayAsk_of_framesBlock {loc msg : Span} {receiver : Option Expr} {name : String}
    {arguments : List Expr} {casts : List (Option Cast)} {block : Option Expr} {q : Query}
    (h : FramesBlock q) :
    (Expr.callNode loc msg receiver name arguments casts block).MayAsk q := by
  cases q <;> first | exact h.elim | trivial

/-- The question comes from an expression of a kind. -/
def AskedBy (S : Expr → Prop) (q : Query) : Prop := ∃ e, S e ∧ e.MayAsk q

open Inquiry

variable {S : Expr → Prop} {scene : Scene} {depth : ℕ} {env : Env}

theorem only_guarded {P : Query → Prop} {w : Walk (Ty × Env)} (h : Only P w) :
    Only P (guarded depth env w) := by
  unfold guarded
  split_ifs
  · exact only_pure
  · exact h

mutual

/-- The walk of an expression asks only what the expression and those it reads ask. -/
theorem infer_only (depth : ℕ) (env : Env) : (e : Expr) → S e → (∀ n ∈ e.reads, S n) →
    Only (AskedBy S) (e.infer scene depth env)
  | .leaf .., _, _ => only_guarded only_pure
  | .selfNode, _, _ => only_guarded only_pure
  | .parts _ children, _, h =>
    only_guarded <| (inferEach_only (depth + 1) env children h).bind fun _ ↦ only_pure
  | .array elements, _, h =>
    only_guarded <| (inferElements_only (depth + 1) env elements h).bind fun _ ↦ only_pure
  | .hash _ elements, _, h =>
    only_guarded <| (inferAssocs_only (depth + 1) env elements h).bind fun _ ↦ only_pure
  | .assoc .., _, _ => only_guarded only_pure
  | .splat expression, _, h =>
    only_guarded <| (inferOpt_only (depth + 1) env expression h).bind fun _ ↦ only_pure
  | .localRead .., hself, _ =>
    only_guarded <| (only_query ⟨_, hself, rfl⟩).bind fun _ ↦ only_pure
  | .localWrite _ _ value, _, h => by
    obtain ⟨hself, hvalue⟩ := List.forall_mem_cons.1 h
    exact only_guarded <| (infer_only (depth + 1) env value hself hvalue).bind fun _ ↦ only_pure
  | .localOrWrite _ value, _, h => by
    obtain ⟨hself, hvalue⟩ := List.forall_mem_cons.1 h
    exact only_guarded <| (infer_only (depth + 1) env value hself hvalue).bind fun _ ↦ only_pure
  | .localAndWrite _ value, _, h => by
    obtain ⟨hself, hvalue⟩ := List.forall_mem_cons.1 h
    exact only_guarded <| (infer_only (depth + 1) env value hself hvalue).bind fun _ ↦ only_pure
  | .localOperatorWrite _ value, _, h => by
    obtain ⟨hself, hvalue⟩ := List.forall_mem_cons.1 h
    exact only_guarded <| (infer_only (depth + 1) env value hself hvalue).bind fun _ ↦ only_pure
  | .ivarRead name, hself, _ => by
    refine only_guarded ?_
    cases scene.selfTy with
    | instanceOf c => exact (only_query ⟨_, hself, rfl⟩).bind fun _ ↦ only_pure
    | classOf c => exact only_pure
    | unknown => exact only_pure
  | .ivarWrite name value, hself, h => by
    obtain ⟨hvalue, hinside⟩ := List.forall_mem_cons.1 h
    exact only_guarded <| (infer_only (depth + 1) env value hvalue hinside).bind fun _ ↦
      (only_query ⟨_, hself, rfl⟩).bind fun _ ↦ only_pure
  | .ivarUpdate _ value, _, h => by
    obtain ⟨hvalue, hinside⟩ := List.forall_mem_cons.1 h
    exact only_guarded <|
      (infer_only (depth + 1) env value hvalue hinside).bind fun _ ↦ only_pure
  | .otherWrite value, _, h => by
    obtain ⟨hvalue, hinside⟩ := List.forall_mem_cons.1 h
    exact only_guarded <| infer_only (depth + 1) env value hvalue hinside
  | .constant none, _, _ => only_guarded only_pure
  | .constant (some path), hself, _ =>
    only_guarded <| (only_query ⟨_, hself, rfl⟩).bind fun _ ↦ only_pure
  | .sequence statements, _, h =>
    only_guarded <| inferStmts_only (depth + 1) .nil env statements h
  | .paren body, _, h => only_guarded <| inferOpt_only (depth + 1) env body h
  | .ifNode predicate statements subsequent, _, h => by
    simp only [reads, List.forall_mem_append, List.forall_mem_cons] at h
    obtain ⟨⟨⟨hpredicate, hinside⟩, hstatements⟩, hsubsequent⟩ := h
    exact only_guarded <| (infer_only (depth + 1) env predicate hpredicate hinside).bind fun _ ↦
      (inferStmts_only (depth + 1) .nil _ statements hstatements).bind fun _ ↦
        (inferOpt_only (depth + 1) _ subsequent hsubsequent).bind fun _ ↦ only_pure
  | .unlessNode predicate statements _ elseStatements, _, h => by
    simp only [reads, List.forall_mem_append, List.forall_mem_cons] at h
    obtain ⟨⟨⟨hpredicate, hinside⟩, hstatements⟩, helse⟩ := h
    exact only_guarded <| (infer_only (depth + 1) env predicate hpredicate hinside).bind fun _ ↦
      (inferStmts_only (depth + 1) .nil _ statements hstatements).bind fun _ ↦
        (inferStmts_only (depth + 1) .nil _ elseStatements helse).bind fun _ ↦ only_pure
  | .caseNode predicate conditions elseStatements, _, h => by
    simp only [reads, List.forall_mem_append] at h
    obtain ⟨⟨hpredicate, hconditions⟩, helse⟩ := h
    exact only_guarded <| (inferOpt_only (depth + 1) env predicate hpredicate).bind fun _ ↦
      (inferWhens_only (depth + 1) _ _ conditions hconditions).bind fun _ ↦
        (inferStmts_only (depth + 1) .nil _ elseStatements helse).bind fun _ ↦ only_pure
  | .whenNode .., _, _ => only_guarded only_pure
  | .caseMatch predicate _ _, _, h =>
    only_guarded <| (inferOpt_only (depth + 1) env predicate h).bind fun _ ↦ only_pure
  | .loop predicate statements, _, h => by
    simp only [reads, List.forall_mem_append, List.forall_mem_cons] at h
    obtain ⟨⟨hpredicate, hinside⟩, hstatements⟩ := h
    exact only_guarded <| (infer_only (depth + 1) env predicate hpredicate hinside).bind fun _ ↦
      (inferStmts_only (depth + 1) .nil _ statements hstatements).bind fun _ ↦ only_pure
  | .forNode _ collection statements, _, h => by
    simp only [reads, List.forall_mem_append, List.forall_mem_cons] at h
    obtain ⟨⟨hcollection, hinside⟩, hstatements⟩ := h
    exact only_guarded <|
      (infer_only (depth + 1) env collection hcollection hinside).bind fun _ ↦
        (inferStmts_only (depth + 1) .nil _ statements hstatements).bind fun _ ↦ only_pure
  | .andNode left right, hself, h => by
    simp only [reads, List.forall_mem_append, List.forall_mem_cons] at h
    obtain ⟨⟨hleft, hinleft⟩, hright, hinright⟩ := h
    refine only_guarded <| (infer_only (depth + 1) env left hleft hinleft).bind fun x ↦ ?_
    have hrest := fun env ↦ infer_only (depth + 1) env right hright hinright
    dsimp only
    cases scene.classObjectGuard left with
    | some name =>
      exact (only_query ⟨_, hself, trivial⟩).bind fun _ ↦ (hrest _).bind fun _ ↦
        (only_query ⟨_, hself, trivial⟩).bind fun _ ↦ only_pure
    | none => exact (hrest _).bind fun _ ↦ only_pure
  | .orNode left right, _, h => by
    simp only [reads, List.forall_mem_append, List.forall_mem_cons] at h
    obtain ⟨⟨hleft, hinleft⟩, hright, hinright⟩ := h
    exact only_guarded <| (infer_only (depth + 1) env left hleft hinleft).bind fun _ ↦
      (infer_only (depth + 1) _ right hright hinright).bind fun _ ↦ only_pure
  | .beginNode statements rescues elseStatements ensureStatements, _, h => by
    simp only [reads, List.forall_mem_append] at h
    obtain ⟨⟨⟨hstatements, hrescues⟩, helse⟩, hensure⟩ := h
    exact only_guarded <| (inferStmts_only (depth + 1) .nil env statements hstatements).bind fun _ ↦
      (inferRescues_only (depth + 1) env _ rescues hrescues).bind fun _ ↦
        (inferStmts_only (depth + 1) _ _ elseStatements helse).bind fun _ ↦
          (inferStmts_only (depth + 1) .nil _ ensureStatements hensure).bind fun _ ↦ only_pure
  | .rescueNode .., _, _ => only_guarded only_pure
  | .rescueModifier expression rescueExpression, _, h => by
    simp only [reads, List.forall_mem_append, List.forall_mem_cons] at h
    obtain ⟨⟨hleft, hinleft⟩, hright, hinright⟩ := h
    exact only_guarded <| (infer_only (depth + 1) env expression hleft hinleft).bind fun _ ↦
      (infer_only (depth + 1) _ rescueExpression hright hinright).bind fun _ ↦ only_pure
  | .returnNode arguments, hself, h =>
    only_guarded <| (inferEach_only (depth + 1) env arguments h).bind fun _ ↦
      (only_query ⟨_, hself, trivial⟩).bind fun _ ↦ only_pure
  | .jump .., _, _ => only_guarded only_pure
  | .callNode loc msg receiver name arguments casts block, hself, h => by
    simp only [reads, List.forall_mem_append] at h
    obtain ⟨⟨hreceiver, harguments⟩, hblock⟩ := h
    refine only_guarded <| (only_query ⟨_, hself, trivial⟩).bind fun _ ↦
      (inferReceiver_only (depth + 1) env receiver hreceiver).bind fun x ↦ ?_
    have hafter : ∀ (receiver' : Receiver) (env : Env), Only (AskedBy S) (do
        let _ ← .query (.disarmSubjects (rspecRaiseSubjectSpans receiver name arguments).length)
        let (args, env) ← inferArgs scene (depth + 1) arguments casts env
        let env ← inferBlock scene (depth + 1) receiver' name block env
        let site : CallQuery :=
          { depth := depth + 1, loc, msg, receiver := receiver', name,
            args := args.reduceOption, exactArity := args.all Option.isSome }
        return ((← .query (.call site)), env)) := fun receiver' env ↦
      (only_query ⟨_, hself, trivial⟩).bind fun _ ↦
        (inferArgs_only (depth + 1) casts env arguments harguments).bind fun (_, env) ↦
          (inferBlock_only (depth + 1) receiver' name env block
            (fun q hq ↦ ⟨_, hself, mayAsk_of_framesBlock hq⟩) hblock).bind fun _ ↦
              (only_query ⟨_, hself, rfl, rfl, rfl⟩).bind fun _ ↦ only_pure
    dsimp only
    split
    · rename_i ivar
      by_cases hextend : name = "extend"
      · rw [if_pos hextend]
        exact (only_query ⟨_, hself, hextend, rfl, rfl⟩).bind fun _ ↦ hafter _ _
      · rw [if_neg hextend]
        exact hafter _ _
    · exact hafter _ _
  | .blockNode .., _, _ => only_guarded only_pure
  | .callUpdate receiver value, _, h => by
    simp only [reads, List.forall_mem_append, List.forall_mem_cons] at h
    obtain ⟨hreceiver, hvalue, hinside⟩ := h
    exact only_guarded <| (inferOpt_only (depth + 1) env receiver hreceiver).bind fun _ ↦
      (infer_only (depth + 1) _ value hvalue hinside).bind fun _ ↦ only_pure
  | .superNode keyword arguments, hself, h =>
    only_guarded <| (inferEach_only (depth + 1) env arguments h).bind fun _ ↦
      (only_query ⟨_, hself, rfl⟩).bind fun _ ↦ only_pure
  | .forwardingSuper loc, hself, _ =>
    only_guarded <| (only_query ⟨_, hself, rfl⟩).bind fun _ ↦ only_pure
  | .lambda params _ body, hself, h =>
    only_guarded <| (only_query ⟨_, hself, trivial⟩).bind fun _ ↦
      (inferOpt_only (depth + 1) _ body h).bind fun _ ↦
        (only_query ⟨_, hself, trivial⟩).bind fun _ ↦ only_pure
  | .multiWrite _ _ _ value, _, h => by
    obtain ⟨hvalue, hinside⟩ := List.forall_mem_cons.1 h
    exact only_guarded <|
      (infer_only (depth + 1) env value hvalue hinside).bind fun _ ↦ only_pure
  | .capture .., _, _ => only_guarded only_pure
  | .classNode .., _, _ => only_guarded only_pure
  | .singletonClass .., _, _ => only_guarded only_pure
  | .defNode .., _, _ => only_guarded only_pure

theorem inferOpt_only (depth : ℕ) (env : Env) : (e : Option Expr) → (∀ n ∈ readsOpt e, S n) →
    Only (AskedBy S) (inferOpt scene depth e env)
  | none, _ => only_pure
  | some e, h => by
    obtain ⟨hself, hinside⟩ := List.forall_mem_cons.1 h
    exact infer_only depth env e hself hinside

theorem inferReceiver_only (depth : ℕ) (env : Env) : (e : Option Expr) →
    (∀ n ∈ readsOpt e, S n) → Only (AskedBy S) (inferReceiver scene depth e env)
  | none, _ => only_pure
  | some e, h => by
    obtain ⟨hself, hinside⟩ := List.forall_mem_cons.1 h
    exact infer_only depth env e hself hinside

theorem inferStmts_only (depth : ℕ) (last : Ty) (env : Env) : (es : List Expr) →
    (∀ n ∈ readsEach es, S n) → Only (AskedBy S) (inferStmts scene depth es last env)
  | [], _ => only_pure
  | e :: rest, h => by
    simp only [readsEach, List.forall_mem_append, List.forall_mem_cons] at h
    exact (infer_only depth env e h.1.1 h.1.2).bind fun (ty, env) ↦
      inferStmts_only depth ty env rest h.2

theorem inferEach_only (depth : ℕ) (env : Env) : (es : List Expr) → (∀ n ∈ readsEach es, S n) →
    Only (AskedBy S) (inferEach scene depth es env)
  | [], _ => only_pure
  | e :: rest, h => by
    simp only [readsEach, List.forall_mem_append, List.forall_mem_cons] at h
    exact (infer_only depth env e h.1.1 h.1.2).bind fun (_, env) ↦
      (inferEach_only depth env rest h.2).bind fun _ ↦ only_pure

theorem inferElements_only (depth : ℕ) (env : Env) : (es : List Expr) →
    (∀ n ∈ readsEach es, S n) → Only (AskedBy S) (inferElements scene depth es env)
  | [], _ => only_pure
  | e :: rest, h => by
    simp only [readsEach, List.forall_mem_append, List.forall_mem_cons] at h
    have hrest := fun env ↦ inferElements_only depth env rest h.2
    cases e
    case splat expression =>
      exact (inferOpt_only depth env expression h.1.2).bind fun (_, env) ↦
        (hrest env).bind fun _ ↦ only_pure
    all_goals
      exact (infer_only depth env _ h.1.1 h.1.2).bind fun (_, env) ↦
        (hrest env).bind fun _ ↦ only_pure

theorem inferAssocs_only (depth : ℕ) (env : Env) : (es : List Expr) →
    (∀ n ∈ readsEach es, S n) → Only (AskedBy S) (inferAssocs scene depth es env)
  | [], _ => only_pure
  | e :: rest, h => by
    simp only [readsEach, List.forall_mem_append, List.forall_mem_cons] at h
    have hrest := fun env ↦ inferAssocs_only depth env rest h.2
    cases e
    case splat expression =>
      exact (inferOpt_only depth env expression h.1.2).bind fun (_, env) ↦
        (hrest env).bind fun _ ↦ only_pure
    case assoc key value =>
      obtain ⟨⟨_, hentry⟩, _⟩ := h
      simp only [reads, List.forall_mem_append, List.forall_mem_cons] at hentry
      exact (infer_only depth env key hentry.1.1 hentry.1.2).bind fun (_, env) ↦
        (infer_only depth env value hentry.2.1 hentry.2.2).bind fun (_, env) ↦
          (hrest env).bind fun _ ↦ only_pure
    all_goals exact (hrest env).bind fun _ ↦ only_pure

theorem inferArgs_only (depth : ℕ) (casts : List (Option Cast)) (env : Env) : (es : List Expr) →
    (∀ n ∈ readsEach es, S n) → Only (AskedBy S) (inferArgs scene depth es casts env)
  | [], _ => only_pure
  | e :: rest, h => by
    simp only [readsEach, List.forall_mem_append, List.forall_mem_cons] at h
    exact (infer_only depth env e h.1.1 h.1.2).bind fun (_, env) ↦
      (inferArgs_only depth casts.tail env rest h.2).bind fun _ ↦ only_pure

theorem inferBlock_only (depth : ℕ) (receiver : Receiver) (name : String) (env : Env) :
    (block : Option Expr) → (∀ q, FramesBlock q → AskedBy S q) → (∀ n ∈ readsOpt block, S n) →
    Only (AskedBy S) (inferBlock scene depth receiver name block env)
  | none, _, _ => only_pure
  | some e, hframes, h => by
    simp only [readsOpt, List.forall_mem_cons] at h
    cases e
    case blockNode params defaults body =>
      exact (only_query (hframes (.enterBlock _) trivial)).bind fun _ ↦
        (only_query (hframes (.armSubjects _) trivial)).bind fun _ ↦
          (inferOpt_only depth _ body h.2).bind fun _ ↦
            (only_query (hframes (.disarmSubjects _) trivial)).bind fun _ ↦
              (only_query (hframes .leaveBlock trivial)).bind fun _ ↦ only_pure
    all_goals exact only_pure

theorem inferWhens_only (depth : ℕ) (subject : Option String) (env : Env) : (es : List Expr) →
    (∀ n ∈ readsEach es, S n) → Only (AskedBy S) (inferWhens scene depth subject es env)
  | [], _ => only_pure
  | e :: rest, h => by
    simp only [readsEach, List.forall_mem_append, List.forall_mem_cons] at h
    have hrest := fun env ↦ inferWhens_only depth subject env rest h.2
    cases e
    case whenNode conditions statements =>
      obtain ⟨⟨_, hclause⟩, _⟩ := h
      simp only [reads, List.forall_mem_append] at hclause
      exact (inferEach_only depth env conditions hclause.1).bind fun (_, env) ↦
        (inferStmts_only depth .nil _ statements hclause.2).bind fun _ ↦
          (hrest env).bind fun _ ↦ only_pure
    all_goals exact hrest env

theorem inferRescues_only (depth : ℕ) (init env : Env) : (es : List Expr) →
    (∀ n ∈ readsEach es, S n) → Only (AskedBy S) (inferRescues scene depth init es env)
  | [], _ => only_pure
  | e :: rest, h => by
    simp only [readsEach, List.forall_mem_append, List.forall_mem_cons] at h
    have hrest := fun env ↦ inferRescues_only depth init env rest h.2
    cases e
    case rescueNode exceptions reference statements =>
      obtain ⟨⟨_, hclause⟩, _⟩ := h
      simp only [reads, List.forall_mem_append] at hclause
      exact (inferEach_only depth env exceptions hclause.1).bind fun (_, env) ↦
        (inferStmts_only depth .nil _ statements hclause.2).bind fun _ ↦
          (hrest env).bind fun _ ↦ only_pure
    all_goals exact hrest env

end

end Expr

end Itaruby
