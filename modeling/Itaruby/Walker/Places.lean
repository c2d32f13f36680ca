import Itaruby.Walker.Growth

/-!
The places of a file that the definition walk reaches: which statements it comes to, with the
class body that they stand in. What the walk does at such a statement stays to its end.
-/

set_option autoImplicit false
set_option relaxedAutoImplicit false

namespace Itaruby

/-- The body a statement stands in. The body is plain when every keyword around it names its
class in the scope it is written in, or from top level. -/
structure BodyPlace where
  scope : ConstPath := []
  nesting : List ConstPath := []
  inSingleton : Bool := false
  plain : Bool := true

/-- The path is one name, or is rooted, or there is no scope that its first name is searched in. -/
def plainPath (scope path : ConstPath) : Bool :=
  scope == [] || path.length == 1 || (stripCbase path).isSome

/-- The body of a `class` or `module` at a place. -/
def BodyPlace.enter (p : BodyPlace) (path : ConstPath) : BodyPlace :=
  let full := joinPath p.scope path
  { scope := full, nesting := p.nesting ++ [full], plain := p.plain && plainPath p.scope path }

/-- The bodies of a `rescue`, `else` or `ensure` clause. -/
def Node.armBodies : Node → List Node
  | .rescueNode _ _ statements (some subsequent) => statements.toList ++ subsequent.armBodies
  | .rescueNode _ _ statements none => statements.toList
  | .elseNode _ statements => statements.toList
  | .ensureNode _ statements => statements.toList
  | _ => []

/-- The walk of a node at a place comes to a statement at another; `asBody` as in the walk. -/
inductive Stands : Bool → Node → BodyPlace → Node → BodyPlace → Prop
  | here {asBody : Bool} {s : Node} {p : BodyPlace} : Stands asBody s p s p
  | program {loc : Span} {statements s : Node} {p q : BodyPlace} :
      Stands true statements p s q → Stands true (.programNode loc statements) p s q
  | statement {loc : Span} {body : List Node} {n s : Node} {p q : BodyPlace} :
      n ∈ body → Stands false n p s q → Stands true (.statementsNode loc body) p s q
  | classBody {asBody : Bool} {loc : Span} {constantPath body s : Node}
      {superclass : Option Node} {path : ConstPath} {p q : BodyPlace} :
      constantPath.constPathStr = some path → Stands true body (p.enter path) s q →
      Stands asBody (.classNode loc constantPath superclass (some body)) p s q
  | moduleBody {asBody : Bool} {loc : Span} {constantPath body s : Node} {path : ConstPath}
      {p q : BodyPlace} :
      constantPath.constPathStr = some path → Stands true body (p.enter path) s q →
      Stands asBody (.moduleNode loc constantPath (some body)) p s q
  | singletonBody {asBody : Bool} {loc : Span} {expression body s : Node} {p q : BodyPlace} :
      expression.isSelf = true → Stands true body { p with inSingleton := true } s q →
      Stands asBody (.singletonClassNode loc expression (some body)) p s q
  | ifThen {asBody : Bool} {loc : Span} {predicate body s : Node} {subsequent : Option Node}
      {p q : BodyPlace} :
      Stands true body p s q → Stands asBody (.ifNode loc predicate (some body) subsequent) p s q
  | ifElse {asBody : Bool} {loc : Span} {predicate body s : Node} {statements : Option Node}
      {p q : BodyPlace} :
      Stands true body p s q → Stands asBody (.ifNode loc predicate statements (some body)) p s q
  | elseBody {asBody : Bool} {loc : Span} {body s : Node} {p q : BodyPlace} :
      Stands true body p s q → Stands asBody (.elseNode loc (some body)) p s q
  | unlessThen {asBody : Bool} {loc : Span} {predicate body s : Node}
      {elseClause : Option Node} {p q : BodyPlace} :
      Stands true body p s q →
      Stands asBody (.unlessNode loc predicate (some body) elseClause) p s q
  | beginBody {asBody : Bool} {loc : Span} {body s : Node}
      {rescueClause elseClause ensureClause : Option Node} {p q : BodyPlace} :
      Stands true body p s q →
      Stands asBody (.beginNode loc (some body) rescueClause elseClause ensureClause) p s q
  | beginArm {asBody : Bool} {loc : Span} {arm body s : Node}
      {statements rescueClause elseClause ensureClause : Option Node} {p q : BodyPlace} :
      (rescueClause = some arm ∨ elseClause = some arm ∨ ensureClause = some arm) →
      body ∈ arm.armBodies → Stands true body p s q →
      Stands asBody (.beginNode loc statements rescueClause elseClause ensureClause) p s q

theorem Node.constPathStr_ne_nil {n : Node} {path : ConstPath} (h : n.constPathStr = some path) :
    path ≠ [] := by
  unfold constPathStr at h
  split at h
  · cases h
    exact List.cons_ne_nil _ _
  · obtain ⟨prefix', -, rfl⟩ := Option.map_eq_some_iff.mp h
    exact List.append_ne_nil_of_right_ne_nil _ (List.cons_ne_nil _ _)
  · cases h
    exact List.cons_ne_nil _ _
  · cases h

theorem trimCbase_ne_nil {path : ConstPath} (h : path ≠ []) : trimCbase path ≠ [] := by
  induction path with
  | nil => exact absurd rfl h
  | cons head rest ih =>
    cases rest with
    | nil =>
      unfold trimCbase
      split
      · rename_i heq
        cases heq
      · exact h
    | cons next rest =>
      unfold trimCbase
      split
      · rename_i heq
        cases heq
        exact ih (List.cons_ne_nil _ _)
      · exact h

theorem joinPath_ne_nil {scope path : ConstPath} (h : path ≠ []) : joinPath scope path ≠ [] := by
  unfold joinPath
  split
  · exact trimCbase_ne_nil h
  · exact List.append_ne_nil_of_right_ne_nil _ h

/-- The context of the walk is that of a place: inside a class, its fragment is there. -/
structure WalkCtx.At (ctx : WalkCtx) (p : BodyPlace) (w : DefWalker) : Prop where
  scope : ctx.scope = p.scope
  nesting : ctx.nesting = p.nesting
  inSingleton : ctx.inSingleton = p.inSingleton
  toplevel : p.scope = [] → ctx.fragIdx = none
  inside : p.scope ≠ [] → ∃ i f, ctx.fragIdx = some i ∧ w.fragments[i]? = some f ∧
    f.path = p.scope ∧ f.declaredOwnerRequired = false

theorem WalkCtx.At.later {ctx : WalkCtx} {p : BodyPlace} {w w' : DefWalker} (h : ctx.At p w)
    (hgrows : w.Grows w') : ctx.At p w' where
  scope := h.scope
  nesting := h.nesting
  inSingleton := h.inSingleton
  toplevel := h.toplevel
  inside hne := by
    obtain ⟨i, f, hi, hf, hpath, hheld⟩ := h.inside hne
    obtain ⟨f', hf', hff'⟩ := hgrows.fragments i f hf
    exact ⟨i, f', hi, hf', hff'.path.trans hpath, hff'.declaredOwnerRequired.trans hheld⟩

theorem WalkCtx.At.singleton {ctx : WalkCtx} {p : BodyPlace} {w : DefWalker} (h : ctx.At p w) :
    WalkCtx.At { ctx with inSingleton := true } { p with inSingleton := true } w :=
  ⟨h.scope, h.nesting, rfl, h.toplevel, h.inside⟩

namespace DefWalker

theorem enterBody_at (w : DefWalker) {ctx : WalkCtx} {p : BodyPlace} (h : ctx.At p w)
    {path : ConstPath} (hpath : path ≠ []) :
    (w.enterBody (joinPath ctx.scope path) (ctx.nesting ++ [joinPath ctx.scope path])).2.At
      (p.enter path)
      (w.enterBody (joinPath ctx.scope path) (ctx.nesting ++ [joinPath ctx.scope path])).1 := by
  have hne : joinPath ctx.scope path ≠ [] := joinPath_ne_nil hpath
  unfold enterBody
  rw [if_neg hne]
  refine ⟨?_, ?_, rfl, fun hnil ↦ ?_, fun _ ↦ ⟨w.fragments.length,
    { path := joinPath ctx.scope path, nesting := ctx.nesting ++ [joinPath ctx.scope path],
      isModule := false }, rfl, ?_, ?_, rfl⟩⟩
  · simp [BodyPlace.enter, h.scope]
  · simp [BodyPlace.enter, h.scope, h.nesting]
  · exact absurd hnil (by simpa [BodyPlace.enter, ← h.scope] using hne)
  · exact List.getElem?_concat_length
  · simp [BodyPlace.enter, h.scope]

variable (env : WalkEnv)

/-- A node is walked on its own at least as far as it is walked as a statement. -/
theorem walk_statement_grows (asBody : Bool) (n : Node) (ctx : WalkCtx) (w : DefWalker) :
    (walk env false n ctx w).Grows (walk env asBody n ctx w) := by
  cases n with
  | programNode loc statements =>
    have : walk env false (.programNode loc statements) ctx w = w := by
      rw [walk]
      rfl
    rw [this]
    exact walk_grows env asBody _ ctx w
  | statementsNode loc body =>
    have : walk env false (.statementsNode loc body) ctx w = w := by
      rw [walk]
      rfl
    rw [this]
    exact walk_grows env asBody _ ctx w
  | _ => exact .refl _

/-- What the walk does at a statement of a sequence stays. -/
theorem walkEach_reaches (ctx : WalkCtx) {n : Node} {body : List Node} (hn : n ∈ body)
    (w : DefWalker) :
    ∃ w', w.Grows w' ∧ (walk env false n ctx w').Grows (walkEach env body ctx w) := by
  induction body generalizing w with
  | nil => cases hn
  | cons stmt rest ih =>
    have hsig : w.Grows
        (if isSigCallOrDef stmt then w else { w with pendingSorbetRet := none }) := by
      split_ifs
      · exact .refl w
      · exact .of_same rfl rfl rfl
    rw [walkEach]
    cases hn with
    | head => exact ⟨_, hsig, walkEach_grows env rest ctx _⟩
    | tail _ hn =>
      obtain ⟨w', hgrows, hreach⟩ := ih hn (walk env false stmt ctx
        (if isSigCallOrDef stmt then w else { w with pendingSorbetRet := none }))
      exact ⟨w', (hsig.trans (walk_grows env false stmt ctx _)).trans hgrows, hreach⟩

/-- The walk of a clause walks each of its bodies. -/
theorem walkArm_reaches (ctx : WalkCtx) {body : Node} : ∀ {arm : Node}, body ∈ arm.armBodies →
    ∀ w : DefWalker,
      ∃ w', w.Grows w' ∧ (walk env true body ctx w').Grows (walkArm env arm ctx w)
  | .rescueNode _ _ statements (some subsequent), hbody, w => by
    rw [Node.armBodies, List.mem_append] at hbody
    rw [walkArm, walkClause]
    rcases hbody with hbody | hbody
    · obtain rfl := Option.mem_toList.mp hbody
      rw [walkBody]
      exact ⟨w, .refl w, walkArm_grows env subsequent ctx _⟩
    · obtain ⟨w', hgrows, hreach⟩ := walkArm_reaches ctx hbody (walkBody env statements ctx w)
      exact ⟨w', (walkBody_grows env statements ctx w).trans hgrows, hreach⟩
  | .rescueNode _ _ statements none, hbody, w => by
    rw [Node.armBodies] at hbody
    obtain rfl := Option.mem_toList.mp hbody
    rw [walkArm, walkClause, walkBody]
    exact ⟨w, .refl w, .refl _⟩
  | .elseNode _ statements, hbody, w => by
    rw [Node.armBodies] at hbody
    obtain rfl := Option.mem_toList.mp hbody
    rw [walkArm, walkBody]
    exact ⟨w, .refl w, .refl _⟩
  | .ensureNode _ statements, hbody, w => by
    rw [Node.armBodies] at hbody
    obtain rfl := Option.mem_toList.mp hbody
    rw [walkArm, walkBody]
    exact ⟨w, .refl w, .refl _⟩

/-- The walk comes to every statement that stands somewhere, in the context of its place, and
what it does there stays. -/
theorem walk_reaches {asBody : Bool} {n s : Node} {p q : BodyPlace} (h : Stands asBody n p s q) :
    ∀ {ctx : WalkCtx} {w : DefWalker}, ctx.At p w →
      ∃ ctx' w', ctx'.At q w' ∧ w.Grows w' ∧
        (walk env false s ctx' w').Grows (walk env asBody n ctx w) := by
  induction h with
  | here =>
    intro ctx w hat
    exact ⟨ctx, w, hat, .refl w, walk_statement_grows env _ _ ctx w⟩
  | program _ ih =>
    intro ctx w hat
    rw [walk, if_pos rfl]
    exact ih hat
  | statement hn _ ih =>
    intro ctx w hat
    rw [walk, if_pos rfl]
    obtain ⟨w₁, hgrows, hreach⟩ := walkEach_reaches env ctx hn w
    obtain ⟨ctx', w', hat', hgrows', hreach'⟩ := ih (hat.later hgrows)
    exact ⟨ctx', w', hat', hgrows.trans hgrows', hreach'.trans hreach⟩
  | classBody hpath _ ih =>
    intro ctx w hat
    rw [walk, hpath]
    obtain ⟨ctx', w', hat', hgrows, hreach⟩ :=
      ih (w.enterBody_at hat (Node.constPathStr_ne_nil hpath))
    refine ⟨ctx', w', hat', (w.enterBody_grows _ _).trans hgrows, ?_⟩
    exact hreach.trans (closeClass_grows _ _ _ _)
  | moduleBody hpath _ ih =>
    intro ctx w hat
    rw [walk, hpath]
    obtain ⟨ctx', w', hat', hgrows, hreach⟩ :=
      ih (w.enterBody_at hat (Node.constPathStr_ne_nil hpath))
    refine ⟨ctx', w', hat', (w.enterBody_grows _ _).trans hgrows, ?_⟩
    exact hreach.trans (closeModule_grows _ _)
  | singletonBody hself _ ih =>
    intro ctx w hat
    rw [walk, if_pos hself, walkBody]
    exact ih hat.singleton
  | ifThen _ ih =>
    intro ctx w hat
    rw [walk, walkBody]
    obtain ⟨ctx', w', hat', hgrows, hreach⟩ := ih hat
    exact ⟨ctx', w', hat', hgrows, hreach.trans (walkBody_grows env _ ctx _)⟩
  | @ifElse _ _ _ _ _ statements _ _ _ ih =>
    intro ctx w hat
    rw [walk]
    have hbefore := walkBody_grows env statements ctx w
    obtain ⟨ctx', w', hat', hgrows, hreach⟩ := ih (hat.later hbefore)
    exact ⟨ctx', w', hat', hbefore.trans hgrows, hreach⟩
  | elseBody _ ih =>
    intro ctx w hat
    rw [walk, walkBody]
    exact ih hat
  | unlessThen _ ih =>
    intro ctx w hat
    rw [walk, walkBody]
    exact ih hat
  | beginBody _ ih =>
    intro ctx w hat
    rw [walk]
    obtain ⟨ctx', w', hat', hgrows, hreach⟩ := ih hat
    exact ⟨ctx', w', hat', hgrows, ((hreach.trans (walkClause_grows env _ ctx _)).trans
      (walkClause_grows env _ ctx _)).trans (walkClause_grows env _ ctx _)⟩
  | @beginArm _ _ arm body _ statements rescueClause elseClause ensureClause _ _ harm hbody _ ih =>
    intro ctx w hat
    rw [walk]
    have hstatements := walkBody_grows env statements ctx w
    have hrescue := walkClause_grows env rescueClause ctx (walkBody env statements ctx w)
    have helse := walkClause_grows env elseClause ctx
      (walkClause env rescueClause ctx (walkBody env statements ctx w))
    have hensure := walkClause_grows env ensureClause ctx (walkClause env elseClause ctx
      (walkClause env rescueClause ctx (walkBody env statements ctx w)))
    -- the clause is walked from a state that has grown to there, and the rest follows it
    obtain ⟨w₁, hbefore, hafter⟩ : ∃ w₁, w.Grows w₁ ∧
        (walkArm env arm ctx w₁).Grows (walkClause env ensureClause ctx
          (walkClause env elseClause ctx (walkClause env rescueClause ctx
            (walkBody env statements ctx w)))) := by
      rcases harm with rfl | rfl | rfl
      · exact ⟨_, hstatements, helse.trans hensure⟩
      · exact ⟨_, hstatements.trans hrescue, hensure⟩
      · exact ⟨_, (hstatements.trans hrescue).trans helse, .refl _⟩
    obtain ⟨w₂, hgrows, hreach⟩ := walkArm_reaches env ctx hbody w₁
    obtain ⟨ctx', w', hat', hgrows', hreach'⟩ := ih (hat.later (hbefore.trans hgrows))
    exact ⟨ctx', w', hat', (hbefore.trans hgrows).trans hgrows', (hreach'.trans hreach).trans hafter⟩

/-- The walk of a file comes to every statement that stands in it. -/
theorem walkFile_reaches {root s : Node} {q : BodyPlace} (h : Stands true root {} s q) :
    ∃ ctx w, ctx.At q w ∧ (walk env false s ctx w).Grows (walkFile env root) := by
  have htop : WalkCtx.toplevel.At {} {} :=
    ⟨rfl, rfl, rfl, fun _ ↦ rfl, fun hne ↦ absurd rfl hne⟩
  obtain ⟨ctx, w, hat, -, hreach⟩ := walk_reaches env h htop
  exact ⟨ctx, w, hat, hreach⟩

end DefWalker

end Itaruby
