import Itaruby.Check.EnvHolds
import Itaruby.Ruby.Locals

/-!
What a walk does to its environment, whatever runs: no local is lost from it, and the walk of
an expression that leaves the locals alone covers all that was covered before.
-/

set_option autoImplicit false
set_option relaxedAutoImplicit false

namespace Itaruby

variable {inherits : ClassId → ClassId → Prop}

/-- From one environment to another that knows the same locals and, if they are left alone,
covers the same values. -/
structure Settles (inherits : ClassId → ClassId → Prop) (b : Bool) (env env' : Env) : Prop where
  grows : ∀ x, env' x = none → env x = none
  holds : b = true → ∀ x v, env.Holds inherits x v → env'.Holds inherits x v

namespace Settles

variable {b b' : Bool} {env env₁ env₂ : Env}

theorem refl : Settles inherits b env env := ⟨fun _ ↦ id, fun _ _ _ ↦ id⟩

theorem trans (h : Settles inherits b env env₁) (h' : Settles inherits b' env₁ env₂) :
    Settles inherits (b && b') env env₂ := by
  refine ⟨fun x hx ↦ h.grows x (h'.grows x hx), fun hb x v hv ↦ ?_⟩
  rw [Bool.and_eq_true] at hb
  exact h'.holds hb.2 x v (h.holds hb.1 x v hv)

theorem mono (h : Settles inherits b env env₁) (hb : b' = true → b = true) :
    Settles inherits b' env env₁ :=
  ⟨h.grows, fun hb' ↦ h.holds (hb hb')⟩

/-- A step that covers what was covered. -/
theorem andThen (h : Settles inherits b env env₁) (h' : Settles inherits true env₁ env₂) :
    Settles inherits b env env₂ :=
  (h.trans h').mono fun hb ↦ by rw [hb]; rfl

theorem insert {name : String} {ty : Ty} (h : Settles inherits b env env₁) :
    Settles inherits false env (env₁.insert name ty) :=
  ⟨fun x hx ↦ h.grows x (Env.insert_eq_none hx), fun hb ↦ nomatch hb⟩

theorem insertUnknown {names : List String} :
    Settles inherits true env (env.insertUnknown names) :=
  ⟨fun _ ↦ Env.insertUnknown_eq_none, fun _ _ _ h ↦ Env.holds_insertUnknown fun _ ↦ h⟩

theorem widen : Settles inherits true env env.widen := by
  refine ⟨fun _ ↦ Env.widen_eq_none, fun _ x v h ↦ Env.holds_widen fun hx ↦ ?_⟩
  exact (Env.holds_of_none hx).1 h

theorem mergeLoop {body : Env} : Settles inherits true env (env.mergeLoop body) :=
  ⟨fun _ hx ↦ (Env.mergeLoop_eq_none hx).1, fun _ _ _ ↦ Env.holds_mergeLoop_base⟩

theorem spill {block : Env} : Settles inherits true env (env.spillBlockWrites block) :=
  ⟨fun _ ↦ Env.spillBlockWrites_eq_none, fun _ _ _ ↦ Env.holds_spill_outer⟩

/-- A join among whose branches one has gone on from the environment joined to. -/
theorem join_of_mem {branches : List Env} (h : Settles inherits b env env₁)
    (hmem : env₁ ∈ branches) : Settles inherits b env (env.join branches) := by
  refine ⟨fun x hx ↦ (Env.join_eq_none hx).1, fun hb x v hv ↦ ?_⟩
  exact Env.holds_join hmem (fun hx ↦ (Env.holds_of_none (h.grows x hx)).2 rfl)
    (h.holds hb x v hv)

/-- A join of two branches one of which covers each value. -/
theorem join_pair {a a' c c' : Env} (ha : Settles inherits b a a') (hc : Settles inherits b' c c')
    (hagrows : ∀ x, a x = none → env x = none) (hcgrows : ∀ x, c x = none → env x = none)
    (hcover : ∀ x v, env.Holds inherits x v → a.Holds inherits x v ∨ c.Holds inherits x v) :
    Settles inherits (b && b') env (env.join [a', c']) := by
  refine ⟨fun x hx ↦ (Env.join_eq_none hx).1, fun hb x v hv ↦ ?_⟩
  rw [Bool.and_eq_true] at hb
  rcases hcover x v hv with h | h
  · exact Env.holds_join List.mem_cons_self
      (fun hx ↦ (Env.holds_of_none (hagrows x (ha.grows x hx))).2 rfl) (ha.holds hb.1 x v h)
  · exact Env.holds_join (List.mem_cons_of_mem _ List.mem_cons_self)
      (fun hx ↦ (Env.holds_of_none (hcgrows x (hc.grows x hx))).2 rfl) (hc.holds hb.2 x v h)

end Settles

/-! ### The branches of a check -/

namespace Env

variable {env : Env} {narrow : Option Narrow} {x : String} {v : Option Value}

/-- The environment of the branch of a check that came out true, if there is a check. -/
def branchTrue (env : Env) (narrow : Option Narrow) : Env := narrow.elim env env.narrowTrue

def branchFalse (env : Env) (narrow : Option Narrow) : Env :=
  narrow.elim env (env.narrowFalse · env)

theorem branchTrue_eq_none (h : env.branchTrue narrow x = none) : env x = none := by
  cases narrow with
  | none => exact h
  | some nw => exact narrowTrue_eq_none h

theorem branchFalse_eq_none (h : env.branchFalse narrow x = none) : env x = none := by
  cases narrow with
  | none => exact h
  | some nw => exact narrowFalse_eq_none h

theorem holds_branch (h : env.Holds inherits x v) :
    (env.branchTrue narrow).Holds inherits x v ∨ (env.branchFalse narrow).Holds inherits x v := by
  cases narrow with
  | none => exact Or.inl h
  | some nw => exact holds_narrow nw h

end Env

/-! ### The walk -/

namespace Expr

open Inquiry

/-- What the walk of an expression is said to do to the environment. -/
abbrev SettlesTo (inherits : ClassId → ClassId → Prop) (b : Bool) (env : Env) {α : Type}
    (r : α × Env) : Prop := Settles inherits b env r.2

theorem always_guarded_of {P : Ty × Env → Prop} {depth : ℕ} {env : Env} {w : Walk (Ty × Env)}
    (hdeep : P (.unknown, env)) (h : Always P w) : Always P (guarded depth env w) := by
  unfold guarded
  split_ifs
  · exact always_pure hdeep
  · exact h

theorem always_guarded {b : Bool} {depth : ℕ} {env : Env} {w : Walk (Ty × Env)}
    (h : Always (SettlesTo inherits b env) w) :
    Always (SettlesTo inherits b env) (guarded depth env w) :=
  always_guarded_of .refl h

variable (inherits) {scene : Scene}

mutual

theorem infer_settles (depth : ℕ) (env : Env) : (e : Expr) →
    Always (SettlesTo inherits e.settled env) (e.infer scene depth env)
  | .leaf .. => always_guarded <| always_pure .refl
  | .selfNode => always_guarded <| always_pure .refl
  | .parts _ children =>
    always_guarded <| (inferEach_settles (depth + 1) env children).bind fun _ h ↦ always_pure h
  | .array elements =>
    always_guarded <| (inferElements_settles (depth + 1) env elements).bind fun _ h ↦ always_pure h
  | .hash _ elements =>
    always_guarded <| (inferAssocs_settles (depth + 1) env elements).bind fun _ h ↦ always_pure h
  | .assoc .. => always_guarded <| always_pure .refl
  | .splat expression =>
    always_guarded <| (inferOpt_settles (depth + 1) env expression).bind fun _ h ↦ always_pure h
  | .localRead .. => always_guarded <| always_query_bind fun _ ↦ always_pure .refl
  | .localWrite _ _ value =>
    always_guarded <| (infer_settles (depth + 1) env value).bind fun _ h ↦ always_pure h.insert
  | .localOrWrite _ value =>
    always_guarded <| (infer_settles (depth + 1) env value).bind fun _ h ↦ always_pure h.insert
  | .localAndWrite _ value =>
    always_guarded <| (infer_settles (depth + 1) env value).bind fun _ h ↦ always_pure h.insert
  | .localOperatorWrite _ value =>
    always_guarded <| (infer_settles (depth + 1) env value).bind fun _ h ↦ always_pure h.insert
  | .ivarRead _ => by
    refine always_guarded ?_
    cases scene.selfTy with
    | instanceOf c => exact always_query_bind fun _ ↦ always_pure .refl
    | classOf c => exact always_pure .refl
    | unknown => exact always_pure .refl
  | .ivarWrite _ value =>
    always_guarded <| (infer_settles (depth + 1) env value).bind fun _ h ↦
      always_query_bind fun _ ↦ always_pure h
  | .ivarUpdate _ value =>
    always_guarded <| (infer_settles (depth + 1) env value).bind fun _ h ↦ always_pure h
  | .otherWrite value => always_guarded <| infer_settles (depth + 1) env value
  | .constant none => always_guarded <| always_pure .refl
  | .constant (some _) => always_guarded <| always_query_bind fun _ ↦ always_pure .refl
  | .sequence statements => always_guarded <| inferStmts_settles (depth + 1) .nil env statements
  | .paren body => always_guarded <| inferOpt_settles (depth + 1) env body
  | .ifNode predicate statements subsequent => by
    refine always_guarded <| (infer_settles (depth + 1) env predicate).bind fun (_, env₁) h ↦
      (inferStmts_settles (depth + 1) .nil (env₁.branchTrue (scene.narrowOf predicate))
        statements).bind fun (_, thenEnv) hthen ↦
      (inferOpt_settles (depth + 1) (env₁.branchFalse (scene.narrowOf predicate))
        subsequent).bind fun (_, elseEnv) helse ↦ always_pure ?_
    have hjoin : Settles inherits (settledEach statements && settledOpt subsequent) env₁
        (env₁.join [thenEnv, elseEnv]) :=
      hthen.join_pair helse (fun _ ↦ Env.branchTrue_eq_none) (fun _ ↦ Env.branchFalse_eq_none)
        fun _ _ ↦ Env.holds_branch
    simp only [SettlesTo]
    split_ifs with hshort
    · refine ⟨fun x hx ↦ h.grows x (Env.branchFalse_eq_none (helse.grows x hx)), fun hb ↦ ?_⟩
      simp only [Bool.and_eq_true] at hshort
      simp [settled, hshort.1.2, hshort.2] at hb
    · refine (h.trans hjoin).mono fun hb ↦ ?_
      simp only [settled, Bool.and_eq_true] at hb ⊢
      exact ⟨hb.1.1.1, hb.1.1.2, hb.1.2⟩
  | .unlessNode predicate statements hasElse elseStatements => by
    refine always_guarded <| (infer_settles (depth + 1) env predicate).bind fun (_, env₁) h ↦
      (inferStmts_settles (depth + 1) .nil (env₁.branchFalse (scene.narrowOf predicate))
        statements).bind fun (_, thenEnv) hthen ↦
      (inferStmts_settles (depth + 1) .nil (env₁.branchTrue (scene.narrowOf predicate))
        elseStatements).bind fun (_, elseEnv) helse ↦ always_pure ?_
    have hjoin : Settles inherits (settledEach statements && settledEach elseStatements) env₁
        (env₁.join [thenEnv, elseEnv]) :=
      hthen.join_pair helse (fun _ ↦ Env.branchFalse_eq_none) (fun _ ↦ Env.branchTrue_eq_none)
        fun _ _ hv ↦ (Env.holds_branch hv).symm
    simp only [SettlesTo]
    split_ifs with hshort
    · refine ⟨fun x hx ↦ h.grows x (Env.branchTrue_eq_none (helse.grows x hx)), fun hb ↦ ?_⟩
      simp only [Bool.and_eq_true] at hshort
      simp [settled, hshort.1.2, hshort.2] at hb
    · refine (h.trans hjoin).mono fun hb ↦ ?_
      simp only [settled, Bool.and_eq_true] at hb ⊢
      exact ⟨hb.1.1.1, hb.1.1.2, hb.1.2⟩
  | .caseNode predicate conditions elseStatements =>
    always_guarded <| (inferOpt_settles (depth + 1) env predicate).bind fun (_, env₁) h ↦
      (inferWhens_settles (depth + 1) _ env₁ conditions).bind fun (_, branches, env₂) hwhens ↦
        (inferStmts_settles (depth + 1) .nil env₂ elseStatements).bind fun _ helse ↦
          always_pure <| ((h.trans hwhens).trans <| helse.join_of_mem <|
            List.mem_append_right _ List.mem_cons_self).mono fun hb ↦ by
              simp only [settled, Bool.and_eq_true] at hb ⊢
              exact ⟨⟨hb.1.1, settledConditions_of_settledEach hb.1.2⟩, hb.2⟩
  | .whenNode .. => always_guarded <| always_pure .refl
  | .caseMatch predicate _ _ =>
    always_guarded <| (inferOpt_settles (depth + 1) env predicate).bind fun _ h ↦
      always_pure (h.andThen .widen)
  | .loop predicate statements =>
    always_guarded <| (infer_settles (depth + 1) env predicate).bind fun _ h ↦
      (inferStmts_settles (depth + 1) .nil _ statements).bind fun _ _ ↦
        always_pure (h.andThen .mergeLoop)
  | .forNode _ collection statements =>
    always_guarded <| (infer_settles (depth + 1) env collection).bind fun _ h ↦
      (inferStmts_settles (depth + 1) .nil _ statements).bind fun _ _ ↦
        always_pure (h.andThen .mergeLoop)
  | .andNode left right => by
    refine always_guarded <| (infer_settles (depth + 1) env left).bind fun (_, env₁) h ↦ ?_
    dsimp only
    cases scene.classObjectGuard left with
    | some name =>
      exact always_query_bind fun _ ↦ (infer_settles (depth + 1) env₁ right).bind fun _ h' ↦
        always_query_bind fun _ ↦ always_pure (h.trans h')
    | none =>
      exact (infer_settles (depth + 1) env₁ right).bind fun _ h' ↦ always_pure (h.trans h')
  | .orNode left right =>
    always_guarded <| (infer_settles (depth + 1) env left).bind fun (_, env₁) h ↦
      (infer_settles (depth + 1) env₁ right).bind fun _ h' ↦ always_pure (h.trans h')
  | .beginNode statements rescues elseStatements ensureStatements => by
    refine always_guarded <| (inferStmts_settles (depth + 1) .nil env statements).bind
      fun (_, env₁) h ↦ (inferRescues_settles (depth + 1) env env₁ rescues).bind
      fun (_, branches, env₂) hrescues ↦ (inferStmts_settles (depth + 1) _ env₂ elseStatements).bind
      fun (_, env₃) helse ↦ ?_
    have hjoin : Settles inherits true env₃
        (if branches.isEmpty then env₃ else env₃.join (branches ++ [env₃])) := by
      split_ifs
      · exact .refl
      · exact Settles.refl.join_of_mem (List.mem_append_right _ List.mem_cons_self)
    exact (inferStmts_settles (depth + 1) .nil _ ensureStatements).bind fun _ hensure ↦
      always_pure <| ((((h.trans hrescues).trans helse).andThen hjoin).trans hensure).mono
        fun hb ↦ by
          simp only [settled, Bool.and_eq_true] at hb ⊢
          exact ⟨⟨⟨hb.1.1.1, settledExceptions_of_settledEach hb.1.1.2⟩, hb.1.2⟩, hb.2⟩
  | .rescueNode .. => always_guarded <| always_pure .refl
  | .rescueModifier expression rescueExpression =>
    always_guarded <| (infer_settles (depth + 1) env expression).bind fun (_, env₁) h ↦
      (infer_settles (depth + 1) env₁ rescueExpression).bind fun _ h' ↦ always_pure (h.trans h')
  | .returnNode arguments =>
    always_guarded <| (inferEach_settles (depth + 1) env arguments).bind fun _ h ↦
      always_query_bind fun _ ↦ always_pure h
  | .jump .. => always_guarded <| always_pure .refl
  | .callNode loc msg receiver name arguments casts block => by
    refine always_guarded <| always_query_bind fun _ ↦
      (inferReceiver_settles (depth + 1) env receiver).bind fun x h ↦ ?_
    have hafter : ∀ (receiver' : Receiver) (env₁ : Env),
        Settles inherits (settledOpt receiver) env env₁ →
        Always (SettlesTo inherits (settledOpt receiver && settledEach arguments) env) (do
          let _ ← .query (.disarmSubjects (rspecRaiseSubjectSpans receiver name arguments).length)
          let (args, env) ← inferArgs scene (depth + 1) arguments casts env₁
          let env ← inferBlock scene (depth + 1) receiver' name block env
          let site : CallQuery :=
            { depth := depth + 1, loc, msg, receiver := receiver', name,
              args := args.reduceOption, exactArity := args.all Option.isSome }
          return ((← .query (.call site)), env)) := fun receiver' env₁ h₁ ↦
      always_query_bind fun _ ↦
        (inferArgs_settles (depth + 1) casts env₁ arguments).bind fun (_, env₂) h₂ ↦
          (inferBlock_settles (depth + 1) receiver' name env₂ block).bind fun _ h₃ ↦
            always_query_bind fun _ ↦ always_pure ((h₁.trans h₂).andThen h₃)
    have hextend : Settles inherits (settledOpt receiver) env
        (match receiver.bind localName with
          | some var =>
            if name = "extend" ∧ scene.closedWorld then x.2.insert var .unknown else x.2
          | none => x.2) := by
      cases receiver.bind localName with
      | none => exact h
      | some var =>
        dsimp only
        split_ifs
        · have hinsert : Settles inherits true x.2 (x.2.insertUnknown [var]) := .insertUnknown
          exact h.andThen hinsert
        · exact h
    dsimp only
    split
    · by_cases hname : name = "extend"
      · rw [if_pos hname]
        exact always_query_bind fun _ ↦ hafter _ _ hextend
      · rw [if_neg hname]
        exact hafter _ _ hextend
    · exact hafter _ _ hextend
  | .blockNode .. => always_guarded <| always_pure .refl
  | .callUpdate receiver value =>
    always_guarded <| (inferOpt_settles (depth + 1) env receiver).bind fun (_, env₁) h ↦
      (infer_settles (depth + 1) env₁ value).bind fun _ h' ↦ always_pure (h.trans h')
  | .superNode _ arguments =>
    always_guarded <| (inferEach_settles (depth + 1) env arguments).bind fun _ h ↦
      always_query_bind fun _ ↦ always_pure h
  | .forwardingSuper _ => always_guarded <| always_query_bind fun _ ↦ always_pure .refl
  | .lambda params _ body =>
    always_guarded <| always_query_bind fun _ ↦
      (inferOpt_settles (depth + 1) (env.addBlockParams params) body).bind fun _ _ ↦
        always_query_bind fun _ ↦ always_pure .spill
  | .multiWrite _ _ _ value =>
    always_guarded <| (infer_settles (depth + 1) env value).bind fun _ h ↦
      always_pure ⟨fun x hx ↦ h.grows x (Env.insertUnknown_eq_none hx), fun hb ↦ nomatch hb⟩
  | .capture .. => always_guarded <| always_pure .refl
  | .classNode .. => always_guarded <| always_pure .refl
  | .singletonClass .. => always_guarded <| always_pure .refl
  | .defNode .. => always_guarded <| always_pure .refl

theorem inferOpt_settles (depth : ℕ) (env : Env) : (e : Option Expr) →
    Always (SettlesTo inherits (settledOpt e) env) (inferOpt scene depth e env)
  | none => always_pure .refl
  | some e => infer_settles depth env e

theorem inferReceiver_settles (depth : ℕ) (env : Env) : (e : Option Expr) →
    Always (SettlesTo inherits (settledOpt e) env) (inferReceiver scene depth e env)
  | none => always_pure .refl
  | some e => infer_settles depth env e

theorem inferStmts_settles (depth : ℕ) (last : Ty) (env : Env) : (es : List Expr) →
    Always (SettlesTo inherits (settledEach es) env) (inferStmts scene depth es last env)
  | [] => always_pure .refl
  | e :: rest => (infer_settles depth env e).bind fun (ty, env₁) h ↦ fun r hr ↦
      h.trans (inferStmts_settles depth ty env₁ rest r hr)

theorem inferEach_settles (depth : ℕ) (env : Env) : (es : List Expr) →
    Always (SettlesTo inherits (settledEach es) env) (inferEach scene depth es env)
  | [] => always_pure .refl
  | e :: rest => (infer_settles depth env e).bind fun (_, env₁) h ↦
      (inferEach_settles depth env₁ rest).bind fun _ h' ↦ always_pure (h.trans h')

theorem inferElements_settles (depth : ℕ) (env : Env) : (es : List Expr) →
    Always (SettlesTo inherits (settledEach es) env) (inferElements scene depth es env)
  | [] => always_pure .refl
  | e :: rest => by
    have hrest := fun env ↦ inferElements_settles depth env rest
    cases e
    case splat expression =>
      exact (inferOpt_settles depth env expression).bind fun (_, env₁) h ↦
        (hrest env₁).bind fun _ h' ↦ always_pure (h.trans h')
    all_goals
      exact (infer_settles depth env _).bind fun (_, env₁) h ↦
        (hrest env₁).bind fun _ h' ↦ always_pure (h.trans h')

theorem inferAssocs_settles (depth : ℕ) (env : Env) : (es : List Expr) →
    Always (SettlesTo inherits (settledEach es) env) (inferAssocs scene depth es env)
  | [] => always_pure .refl
  | e :: rest => by
    have hrest := fun env ↦ inferAssocs_settles depth env rest
    cases e
    case splat expression =>
      exact (inferOpt_settles depth env expression).bind fun (_, env₁) h ↦
        (hrest env₁).bind fun _ h' ↦ always_pure (h.trans h')
    case assoc key value =>
      exact (infer_settles depth env key).bind fun (_, env₁) h ↦
        (infer_settles depth env₁ value).bind fun (_, env₂) h' ↦
          (hrest env₂).bind fun _ h'' ↦ always_pure ((h.trans h').trans h'')
    all_goals
      exact (hrest env).bind fun _ h ↦ always_pure <| h.mono fun hb ↦ by
        simp only [settledEach, Bool.and_eq_true] at hb
        exact hb.2

theorem inferArgs_settles (depth : ℕ) (casts : List (Option Cast)) (env : Env) :
    (es : List Expr) →
    Always (SettlesTo inherits (settledEach es) env) (inferArgs scene depth es casts env)
  | [] => always_pure .refl
  | e :: rest => (infer_settles depth env e).bind fun (_, env₁) h ↦
      (inferArgs_settles depth casts.tail env₁ rest).bind fun _ h' ↦ always_pure (h.trans h')

theorem inferBlock_settles (depth : ℕ) (receiver : Receiver) (name : String) (env : Env) :
    (block : Option Expr) →
    Always (Settles inherits true env) (inferBlock scene depth receiver name block env)
  | none => always_pure .refl
  | some e => by
    cases e
    case blockNode params defaults body =>
      exact always_query_bind fun _ ↦ always_query_bind fun _ ↦
        (inferOpt_settles depth (env.addBlockParams params) body).bind fun _ _ ↦
          always_query_bind fun _ ↦ always_query_bind fun _ ↦ always_pure .spill
    all_goals exact always_pure .refl

theorem inferWhens_settles (depth : ℕ) (subject : Option String) (env : Env) :
    (es : List Expr) →
    Always (fun r ↦ Settles inherits (settledConditions es) env r.2.2)
      (inferWhens scene depth subject es env)
  | [] => always_pure .refl
  | e :: rest => by
    have hrest := fun env ↦ inferWhens_settles depth subject env rest
    cases e
    case whenNode conditions statements =>
      exact (inferEach_settles depth env conditions).bind fun (_, env₁) h ↦
        (inferStmts_settles depth .nil _ statements).bind fun _ _ ↦
          (hrest env₁).bind fun _ h' ↦ always_pure <| (h.trans h').mono fun hb ↦ by
            simpa only [settledConditions, List.all_cons] using hb
    all_goals
      exact fun r hr ↦ (hrest env r hr).mono fun hb ↦ by
        simpa only [settledConditions, List.all_cons, Bool.true_and] using hb

theorem inferRescues_settles (depth : ℕ) (init env : Env) : (es : List Expr) →
    Always (fun r ↦ Settles inherits (settledExceptions es) env r.2.2)
      (inferRescues scene depth init es env)
  | [] => always_pure .refl
  | e :: rest => by
    have hrest := fun env ↦ inferRescues_settles depth init env rest
    cases e
    case rescueNode exceptions reference statements =>
      exact (inferEach_settles depth env exceptions).bind fun (_, env₁) h ↦
        (inferStmts_settles depth .nil _ statements).bind fun _ _ ↦
          (hrest env₁).bind fun _ h' ↦ always_pure <| (h.trans h').mono fun hb ↦ by
            simpa only [settledExceptions, List.all_cons] using hb
    all_goals
      exact fun r hr ↦ (hrest env r hr).mono fun hb ↦ by
        simpa only [settledExceptions, List.all_cons, Bool.true_and] using hb

end

end Expr

end Itaruby
