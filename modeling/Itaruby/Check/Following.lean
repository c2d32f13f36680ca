import Itaruby.Check.Branches

/-!
The walk of an expression follows its runs, one case for each constructor of the tree.
-/

set_option autoImplicit false
set_option relaxedAutoImplicit false

namespace Itaruby

open Inquiry Act Run

section Steps

variable {M : Meaning} {account : Account} {scene : Scene} {avoids : Hazard → Prop}
  {call : Closure → Activation → Activation → Prop} {written names : List String}
  {env env₁ : Env} {s s₁ : Activation}

/-- The type covers the value, and the environment is right after it. -/
def Carries (M : Meaning) (account : Account) (scene : Scene) (written : List String) (env : Env)
    (s : Activation) (r : Ty × Env) (v : Value) (s' : Activation) : Prop :=
  r.1.Covers M.inherits v ∧ Moves M account scene written env s r.2 s'

theorem Carries.nothing {r : Ty × Env} {v : Value}
    (h : Carries M account scene written env s r v s₁) :
    Carries M account scene [] env s r v s₁ :=
  ⟨h.1, h.2.nothing⟩

theorem covers_applyCast {inherits : ClassId → ClassId → Prop} {ty : Ty} {v : Value}
    {cast : Option Cast} (h : ty.Covers inherits v) (hcast : Cast.Fits inherits v cast) :
    (applyCast ty cast).Covers inherits v := by
  unfold applyCast
  split
  · exact h
  · exact covers_stripNil h hcast
  · trivial
  · exact h
  · exact hcast

theorem covers_arrayTy {inherits : ClassId → ClassId → Prop} (elements : List (Option Ty)) :
    (arrayTy elements).Covers inherits .array := by
  unfold arrayTy
  split <;> rfl

theorem covers_hashTy {inherits : ClassId → ClassId → Prop} (elements : List (Option (Ty × Ty))) :
    (hashTy elements).Covers inherits .hash := by
  unfold hashTy
  split <;> rfl

theorem Carries.still {r : Ty × Env} {v : Value} {s₂ : Activation}
    (h : Carries M account scene written env s r v s₁) (hfine : Fine M account scene s₂)
    (hlocals : s₂.locals = s₁.locals) (hnamed : s₂.named = s₁.named) :
    Carries M account scene written env s r v s₂ :=
  ⟨h.1, h.2.still hfine hlocals hnamed⟩

/-- One of two branches is taken, and is joined to the other. -/
theorem Moves.carries_join {written' : List String} {branch b : Env} {branches : List Env}
    {ty a : Ty} {v : Value} {s₂ : Activation} (h : Moves M account scene written env s branch s₁)
    (hbranch : ∀ x, branch x = none → env₁ x = none)
    (hv : Carries M account scene written' branch s₁ (ty, b) v s₂) (hmem : b ∈ branches)
    (ha : ty.Covers M.inherits v → a.Covers M.inherits v) :
    Carries M account scene written env s (a, env₁.join branches) v s₂ :=
  ⟨ha hv.1, (h.andThen hv.2).join hmem fun x hx ↦
    (Env.holds_of_none (hbranch x (hv.2.tracks.grows x hx))).2 rfl⟩

theorem Fine.log (h : Fine M account scene s) {loc : Span} {v : Value}
    (hread : account.read loc v) : Fine M account scene { s with reads := (loc, v) :: s.reads } := by
  refine ⟨fun p hp ↦ ?_, h.stores, h.pending⟩
  rcases List.mem_cons.1 hp with rfl | hp
  · exact hread
  · exact h.reads p hp

theorem Fine.store (h : Fine M account scene s) {name : String} {v : Value}
    (hstore : account.store name v) :
    Fine M account scene { s with stores := (name, v) :: s.stores } := by
  refine ⟨h.reads, fun p hp ↦ ?_, h.pending⟩
  rcases List.mem_cons.1 hp with rfl | hp
  · exact hstore
  · exact h.stores p hp

/-- A part that is not looked into. -/
theorem follows_unknown {depth : ℕ} (hs : Begins M account scene names env s) :
    (guarded depth env (pure (.unknown, env))).Follows (Right M account) anyValue s
      (Carries M account scene [] env s) fun _ ↦ Fine M account scene := by
  have hpure : (guarded depth env (pure (.unknown, env))) = pure (.unknown, env) := ite_self _
  rw [hpure]
  exact follows_pure <| meets_choose fun v _ ↦ ⟨trivial, hs.moves⟩

theorem follows_sym {depth : ℕ} (hs : Begins M account scene names env s) :
    (guarded depth env (pure (.sym, env))).Follows (Right M account) (pure .sym : Run Value) s
      (Carries M account scene [] env s) fun _ ↦ Fine M account scene := by
  unfold guarded
  split_ifs
  · exact follows_pure <| meets_pure ⟨trivial, hs.moves⟩
  · exact follows_pure <| meets_pure ⟨rfl, hs.moves⟩

/-- A clause that was taken is one of the branches; none was, and all conditions were tried. -/
def Taken (M : Meaning) (account : Account) (scene : Scene) (env : Env) (s : Activation)
    (r : List Ty × List Env × Env) (taken : Option Value) (s' : Activation) : Prop :=
  match taken with
  | some v => (∃ ty ∈ r.1, ty.Covers M.inherits v) ∧
      ∃ branch ∈ r.2.1, Moves M account scene [] env s branch s'
  | none => Moves M account scene [] env s r.2.2 s'

/-- The pattern of a `case` binds only what was bound before. -/
theorem meets_patterns (h : Sound M account scene avoids call)
    (hmoves : Moves M account scene written env s env₁ s₁) (inside : Run Unit)
    (captures : List String) :
    (carefully avoids .undefined (fun s s' ↦ OnlyNamed s s' ∧ s'.pending = s.pending) <|
      (aside do
        rebind captures
        inside).watched (OldStores avoids)).Meets s₁
      (fun _ ↦ Moves M account scene written env s env₁.widen) fun _ ↦ Fine M account scene := by
  have hfine : ∀ s', (s'.named = s₁.named ∧ s'.reads = s₁.reads) → OldStores avoids s₁ s' →
      (avoids .undefined → OnlyNamed s₁ s' ∧ s'.pending = s₁.pending) →
      Moves M account scene written env s env₁.widen s' := by
    intro s' hread hstores hundefined
    obtain ⟨honly, hpending⟩ := hundefined (h.hazards _ fun _ ↦ nofun)
    have hwiden : Settles M.inherits true env₁ env₁.widen := .widen
    refine ⟨⟨hread.2 ▸ hmoves.fine.reads, fun p hp ↦ ?_, hpending ▸ hmoves.fine.pending⟩,
      hread.1 ▸ hmoves.named.grow hwiden.grows, fun x hx ↦ hmoves.tracks.grows x (hwiden.grows x hx),
      fun x ↦ ?_⟩
    · by_cases hstore : avoids (.store p.1)
      · exact hmoves.fine.stores p (hstores p.1 hstore p.2 hp)
      · exact h.stores p.1 hstore p.2
    · cases hx : env₁ x with
      | none =>
        have hsame : s'.locals x = s₁.locals x := (honly x).resolve_right fun hmem ↦
          hmoves.named x hmem hx
        rw [hsame]
        exact (hmoves.tracks.holds x).imp_left (hwiden.holds rfl x _)
      | some ty => exact Or.inl (Env.holds_widen fun hnone ↦ by rw [hx] at hnone; cases hnone)
  exact Meets.watched <| Meets.watched <| (aside_reads _).mono (fun _ _ ↦ hfine _)
    fun _ s' hread hstores hundefined ↦ (hfine s' hread hstores hundefined).fine

theorem meets_storeAll (h : Sound M account scene avoids call) {names : List String}
    (hmoves : Moves M account scene written env s env₁ s₁) :
    (storeAll avoids names).Meets s₁ (fun _ ↦ Moves M account scene written env s env₁)
      fun _ ↦ Fine M account scene := by
  refine meets_check_bind fun hnames ↦ meets_change fun s' hs' ↦ ?_
  obtain ⟨new, hnew, rfl⟩ := hs'
  refine hmoves.still ⟨hmoves.fine.reads, fun p hp ↦ ?_, hmoves.fine.pending⟩ rfl rfl
  rcases List.mem_append.1 hp with hp | hp
  · exact h.stores p.1 (hnames p.1 (hnew p hp)) p.2
  · exact hmoves.fine.stores p hp

/-- What comes before a clause leaves the locals as they are. -/
theorem follows_quietly (h : Sound M account scene avoids call) {α : Type} {w : Walk α}
    {act : Run Unit} (hact : w.Follows (Right M account) act s (fun _ _ ↦ Fine M account scene)
      fun _ ↦ Fine M account scene) :
    w.Follows (Right M account) (quietly avoids act) s
      (fun _ _ s' ↦ Fine M account scene s' ∧ s'.locals = s.locals ∧ s'.named = s.named)
      fun _ ↦ Fine M account scene := by
  intro a ha
  have hwatched : (carefully avoids .cutShort (fun s s' ↦ s'.locals = s.locals) act).Meets s
      (fun _ s₁ ↦ Fine M account scene s₁ ∧ s₁.locals = s.locals) fun _ ↦ Fine M account scene :=
    Meets.watched <| (hact a ha).mono
      (fun _ s₁ hfine hlocals ↦ ⟨hfine, hlocals (h.hazards _ fun _ ↦ nofun)⟩) fun _ _ hfine _ ↦ hfine
  refine meets_here_bind <| hwatched.bind fun _ s₁ hs₁ ↦ meets_change fun s' hs' ↦ ?_
  subst hs'
  exact ⟨hs₁.1.forget, hs₁.2, rfl⟩

/-- A block is made among locals that the walk is right about. -/
theorem meets_makeClosure {depth : ℕ} {params : BlockParams} {defaults : List Expr}
    {body : Option Expr} {r : Ty × Env}
    (hs : Begins M account scene (without (Expr.exposedOpt body) params.names) env s)
    (hwalk : (Expr.inferOpt scene depth body (env.addBlockParams params)).YieldsBy
      (Right M account) r) :
    (Expr.makeClosure depth params defaults body).Meets s (fun _ s' ↦
      (Fine M account scene s' ∧ s'.locals = s.locals ∧ s'.named = s.named) ∧
        ∀ x ∈ params.own, x ∉ params.names → s.locals x = none)
      fun _ ↦ Fine M account scene := by
  refine meets_check_bind fun hscoped ↦ meets_change fun s' hs' ↦ ?_
  subst hs'
  refine ⟨⟨⟨hs.fine.reads, hs.fine.stores, fun c hc ↦ ?_⟩, rfl, rfl⟩, hscoped⟩
  rcases List.mem_cons.1 hc with rfl | hc
  · exact ⟨env, r.1, r.2, hwalk, hscoped, hs.named, hs.ready⟩
  · exact hs.fine.pending c hc

end Steps

/-! ### The walk -/

namespace Expr

variable {M : Meaning} {account : Account} {scene : Scene} {avoids : Hazard → Prop}
  {call : Closure → Activation → Activation → Prop}

mutual

theorem infer_follows (h : Sound M account scene avoids call) (depth : ℕ) (env : Env)
    (s : Activation) : (e : Expr) → Begins M account scene e.exposed env s →
    (e.infer scene depth env).Follows (Right M account) (e.exec M avoids call depth) s
      (Carries M account scene e.definite env s) fun _ ↦ Fine M account scene
  | .leaf ty inside, hs => follows_guarded h <| .act (meets_unread h hs.fine _) fun _ s₁ hs₁ ↦
      follows_pure <| meets_choose fun v hv ↦ ⟨hv, hs.moves.still hs₁.1 hs₁.2.1 hs₁.2.2⟩
  | .selfNode, hs => follows_guarded h <| follows_pure <| meets_pure ⟨h.fits.self, hs.moves⟩
  | .parts ty children, hs => follows_guarded h <|
      (inferEach_follows h (depth + 1) env s children hs).bind fun (_, env₁) _ s₁ hmoves ↦
        .act (still_called h hmoves.fine) fun _ s₂ hs₂ ↦ follows_pure <| meets_choose fun v hv ↦
          ⟨hv, (hmoves.still hs₂.1 hs₂.2.1 hs₂.2.2).nothing⟩
  | .array elements, hs => follows_guarded h <|
      (inferElements_follows h (depth + 1) env s elements hs).bind fun (tys, env₁) _ s₁ hmoves ↦
        follows_pure <| meets_pure ⟨covers_arrayTy tys, hmoves.nothing⟩
  | .hash _ elements, hs => follows_guarded h <|
      (inferAssocs_follows h (depth + 1) env s elements hs).bind fun (tys, env₁) _ s₁ hmoves ↦
        follows_pure <| meets_pure ⟨covers_hashTy tys, hmoves.nothing⟩
  | .splat expression, hs => follows_guarded h <|
      (inferOpt_follows h (depth + 1) env s expression hs).bind fun _ _ s₁ hmoves ↦
        follows_pure <| meets_choose fun v _ ↦ ⟨trivial, hmoves.2.nothing⟩
  | .localRead loc name, hs => follows_guarded h <| .here_bind <| by
      have hcovers : ((env name).getD .unknown).Covers M.inherits (s.value name) :=
        (hs.ready name (List.mem_singleton.2 rfl)).getD_covers
      refine .ask fun _ hread ↦ follows_pure <| meets_change_bind fun s₁ hs₁ ↦ meets_pure ?_
      subst hs₁
      exact ⟨hcovers, hs.moves.still (hs.fine.log (hread _ hcovers)) rfl rfl⟩
  | .localWrite name cast value, hs => follows_guarded h <|
      (infer_follows h (depth + 1) env s value hs).bind fun (ty, env₁) v s₁ hv ↦
        follows_careful .cast h (fun _ ↦ nofun) fun hcast ↦ follows_pure <|
          meets_change_bind fun s₂ hs₂ ↦ meets_pure <| by
            subst hs₂
            exact ⟨covers_applyCast hv.1 hcast, hv.2.insert (covers_applyCast hv.1 hcast)⟩
  | .localOrWrite name value, hs => follows_guarded h <| .here_bind <| .ite
      (fun _ ↦ follows_careful .skipped h (fun _ ↦ nofun) fun hskip ↦
        .walk fun (ty, env₁) hwalk ↦ by
          have hsettles := infer_settles M.inherits (depth + 1) env value _
            (yields_of_yieldsBy hwalk)
          have hname := hsettles.holds hskip name _ (hs.ready name List.mem_cons_self)
          have hcovers : (Ty.join ((env₁ name).getD .nil) ty).Covers M.inherits (s.value name) :=
            Ty.covers_join (Or.inl hname.nil_covers)
          refine follows_pure <| meets_pure ⟨hcovers, ?_⟩
          refine (hs.moves.widen (hskip ▸ hsettles)).narrow (fun _ ↦ Env.insert_eq_none)
            fun x hx ↦ Env.holds_insert ?_ fun _ ↦ hx
          rintro rfl
          exact hcovers)
      fun _ ↦ (infer_follows h (depth + 1) env s value
        (hs.mono (List.subset_cons_self _ _))).bind fun (ty, env₁) v s₁ hv ↦ follows_pure <|
          meets_change_bind fun s₂ hs₂ ↦ meets_pure <| by
            subst hs₂
            exact ⟨Ty.covers_join (Or.inr hv.1), (hv.2.insert (Ty.covers_join (Or.inr hv.1))).nothing⟩
  | .localAndWrite name value, hs => follows_guarded h <| .here_bind <| .ite
      (fun _ ↦ (infer_follows h (depth + 1) env s value hs).bind fun (ty, env₁) v s₁ hv ↦
        follows_pure <| meets_change_bind fun s₂ hs₂ ↦ meets_pure <| by
          subst hs₂
          exact ⟨trivial, (hv.2.nothing.insert trivial)⟩)
      fun _ ↦ follows_careful .skipped h (fun _ ↦ nofun) fun hskip ↦
        .walk fun (ty, env₁) hwalk ↦ by
          have hsettles := infer_settles M.inherits (depth + 1) env value _
            (yields_of_yieldsBy hwalk)
          exact follows_pure <| meets_pure ⟨trivial,
            (hs.moves.widen (hskip ▸ hsettles)).insertUnknown name⟩
  | .localOperatorWrite name value, hs => follows_guarded h <|
      (infer_follows h (depth + 1) env s value hs).bind fun (ty, env₁) v s₁ hv ↦
        .act (still_called h hv.2.fine) fun _ s₂ hs₂ ↦ follows_pure <|
          (meets_choose fun _ _ ↦ rfl).bind fun w s₃ hs₃ ↦ meets_change_bind fun s₄ hs₄ ↦
            meets_pure <| by
              subst hs₃ hs₄
              exact ⟨trivial, (hv.2.still hs₂.1 hs₂.2.1 hs₂.2.2).insert trivial⟩
  | .ivarRead name, hs => follows_guarded h <| by
      cases hself : scene.selfTy with
      | instanceOf c =>
        exact .ask fun ty hty ↦ follows_pure <| meets_choose fun v hv ↦ ⟨hty v hv, hs.moves⟩
      | classOf c => exact follows_pure <| meets_choose fun v _ ↦ ⟨trivial, hs.moves⟩
      | unknown => exact follows_pure <| meets_choose fun v _ ↦ ⟨trivial, hs.moves⟩
  | .ivarWrite name value, hs => follows_guarded h <|
      (infer_follows h (depth + 1) env s value hs).bind fun (ty, env₁) v s₁ hv ↦
        .ask fun _ hstore ↦ follows_pure <| meets_change_bind fun s₂ hs₂ ↦ meets_pure <| by
          subst hs₂
          exact hv.still (hv.2.fine.store (hstore v hv.1)) rfl rfl
  | .ivarUpdate name value, hs => follows_guarded h <| .either
      (follows_careful .skipped h (fun _ ↦ nofun) fun hskip ↦ .walk fun (ty, env₁) hwalk ↦ by
        have hsettles := infer_settles M.inherits (depth + 1) env value _
          (yields_of_yieldsBy hwalk)
        exact follows_pure <| meets_choose fun v _ ↦
          ⟨trivial, hs.moves.widen (hskip ▸ hsettles)⟩)
      ((infer_follows h (depth + 1) env s value hs).bind fun (ty, env₁) v s₁ hv ↦
        .act (still_called h hv.2.fine) fun _ s₂ hs₂ ↦ follows_pure <|
          meets_check_bind fun havoids ↦ (meets_choose fun _ _ ↦ rfl).bind fun w s₃ hs₃ ↦
            meets_change_bind fun s₄ hs₄ ↦ meets_pure <| by
              subst hs₃ hs₄
              exact ⟨trivial, (hv.2.still (hs₂.1.store (h.stores name havoids w)) hs₂.2.1
                hs₂.2.2).nothing⟩)
  | .otherWrite value, hs => follows_guarded h <| infer_follows h (depth + 1) env s value hs
  | .constant none, hs => follows_unknown hs
  | .constant (some path), hs => follows_guarded h <| .ask fun ty hty ↦ follows_pure <|
      meets_choose fun v hv ↦ ⟨hty v hv, hs.moves⟩
  | .sequence statements, hs => follows_guarded h <|
      inferStmts_follows h (depth + 1) .nil env s .nil statements rfl hs
  | .paren body, hs => follows_guarded h <| inferOpt_follows h (depth + 1) env s body hs
  | .ifNode predicate statements subsequent, hs => follows_guarded h <|
      (infer_follows h (depth + 1) env s predicate (hs.mono (List.subset_append_left _ _))).bind
        fun (_, env₁) v s₁ hv ↦ .check_bind fun htells ↦
          follows_careful .orGuard h (fun _ ↦ nofun) fun hguard ↦ by
            have hstatements : without (exposedEach statements) (definite predicate) ⊆
                exposed (.ifNode predicate statements subsequent) := fun _ hx ↦
              List.mem_append_right _ (without_mono (List.subset_append_left _ _) hx)
            have hsubsequent : without (exposedOpt subsequent) (definite predicate) ⊆
                exposed (.ifNode predicate statements subsequent) := fun _ hx ↦
              List.mem_append_right _ (without_mono (List.subset_append_right _ _) hx)
            refine .ite (fun htrue ↦ ?_) fun hfalse ↦ ?_
            · rw [htrue] at htells
              have hmoves := hv.2.branchTrue h.fits htells
              refine (inferStmts_follows h (depth + 1) .nil _ s₁ .nil statements rfl
                (hmoves.begins_of_subset hs hstatements)).traced.bind_walk
                fun (thenTy, thenEnv) w s₂ hw r hr ↦ ?_
              obtain ⟨⟨elseTy, elseEnv⟩, _, rfl⟩ := yieldsBy_bind.1 hr
              split_ifs with hshort
              · simp only [Bool.and_eq_true] at hshort
                exact ((leaves_of_stmtsDiverge hshort.1.2 .nil s₁).1 w s₂ hw.2.2).elim
              · exact hmoves.carries_join (fun _ ↦ Env.branchTrue_eq_none) hw.1
                  List.mem_cons_self fun hty ↦ Ty.covers_join (Or.inl hty)
            · rw [Bool.not_eq_true] at hfalse
              rw [hfalse] at htells hguard
              have hmoves := hv.2.branchFalse h.fits htells hguard
              refine .walk fun (thenTy, thenEnv) _ ↦ ?_
              refine (inferOpt_follows h (depth + 1) _ s₁ subsequent
                (hmoves.begins_of_subset hs hsubsequent)).bind_walk
                fun (elseTy, elseEnv) w s₂ hw r hr ↦ ?_
              cases hr
              split_ifs with hshort
              · exact ⟨Ty.covers_join (Or.inr hw.1), hmoves.andThen hw.2⟩
              · exact hmoves.carries_join (fun _ ↦ Env.branchFalse_eq_none) hw
                  (List.mem_cons_of_mem _ List.mem_cons_self) fun hty ↦ Ty.covers_join (Or.inr hty)
  | .unlessNode predicate statements hasElse elseStatements, hs => follows_guarded h <|
      (infer_follows h (depth + 1) env s predicate (hs.mono (List.subset_append_left _ _))).bind
        fun (_, env₁) v s₁ hv ↦ .check_bind fun htells ↦
          follows_careful .orGuard h (fun _ ↦ nofun) fun hguard ↦ by
            have hstatements : without (exposedEach statements) (definite predicate) ⊆
                exposed (.unlessNode predicate statements hasElse elseStatements) := fun _ hx ↦
              List.mem_append_right _ (without_mono (List.subset_append_left _ _) hx)
            have helse : without (exposedEach elseStatements) (definite predicate) ⊆
                exposed (.unlessNode predicate statements hasElse elseStatements) := fun _ hx ↦
              List.mem_append_right _ (without_mono (List.subset_append_right _ _) hx)
            refine .ite (fun htrue ↦ ?_) fun hfalse ↦ ?_
            · rw [htrue] at htells
              have hmoves := hv.2.branchTrue h.fits htells
              refine .walk fun (thenTy, thenEnv) _ ↦ ?_
              refine (inferStmts_follows h (depth + 1) .nil _ s₁ .nil elseStatements rfl
                (hmoves.begins_of_subset hs helse)).bind_walk
                fun (elseTy, elseEnv) w s₂ hw r hr ↦ ?_
              cases hr
              split_ifs with hshort
              · exact ⟨Ty.covers_join (Or.inr hw.1), hmoves.andThen hw.2⟩
              · exact hmoves.carries_join (fun _ ↦ Env.branchTrue_eq_none) hw
                  (List.mem_cons_of_mem _ List.mem_cons_self) fun hty ↦ Ty.covers_join (Or.inr hty)
            · rw [Bool.not_eq_true] at hfalse
              rw [hfalse] at htells hguard
              have hmoves := hv.2.branchFalse h.fits htells hguard
              refine (inferStmts_follows h (depth + 1) .nil _ s₁ .nil statements rfl
                (hmoves.begins_of_subset hs hstatements)).traced.bind_walk
                fun (thenTy, thenEnv) w s₂ hw r hr ↦ ?_
              obtain ⟨⟨elseTy, elseEnv⟩, _, rfl⟩ := yieldsBy_bind.1 hr
              split_ifs with hshort
              · simp only [Bool.and_eq_true] at hshort
                exact ((leaves_of_stmtsDiverge hshort.1.2 .nil s₁).1 w s₂ hw.2.2).elim
              · exact hmoves.carries_join (fun _ ↦ Env.branchFalse_eq_none) hw.1
                  List.mem_cons_self fun hty ↦ Ty.covers_join (Or.inl hty)
  | .andNode left right, hs => follows_guarded h <|
      (infer_follows h (depth + 1) env s left (hs.mono (List.subset_append_left _ _))).bind
        fun (l, env₁) v s₁ hv ↦ by
          have hright := infer_follows h (depth + 1) env₁ s₁ right
            (hv.2.begins_of_subset hs (List.subset_append_right _ _))
          have hskipped : ∀ r : Ty × Env, right.settled = true →
              (right.infer scene (depth + 1) env₁).YieldsBy (Right M account) r →
              Carries M account scene (definite left) env s (l.join r.1, r.2) v s₁ :=
            fun r hskip hr ↦ ⟨Ty.covers_join (Or.inl hv.1), hv.2.widen <|
              hskip ▸ infer_settles M.inherits (depth + 1) env₁ right r (yields_of_yieldsBy hr)⟩
          cases scene.classObjectGuard left with
          | none =>
            refine .ite (fun _ ↦ hright.bind_walk fun r w s₂ hw r' hr ↦ ?_) fun _ ↦
              follows_careful .skipped h (fun _ ↦ nofun) fun hskip ↦ .walk fun r hr ↦
                follows_pure <| meets_pure (hskipped r hskip hr)
            cases hr
            exact ⟨Ty.covers_join (Or.inr hw.1), hv.2.andThen hw.2⟩
          | some name =>
            refine .ite (fun _ ↦ .ask fun _ _ ↦ hright.bind_walk fun r w s₂ hw r' hr ↦ ?_)
              fun _ ↦ follows_careful .skipped h (fun _ ↦ nofun) fun hskip ↦ .ask fun _ _ ↦
                .walk fun r hr ↦ .ask fun _ _ ↦
                  follows_pure <| meets_pure (hskipped r hskip hr)
            obtain ⟨_, _, rfl⟩ := yieldsBy_bind.1 hr
            exact ⟨Ty.covers_join (Or.inr hw.1), hv.2.andThen hw.2⟩
  | .orNode left right, hs => follows_guarded h <|
      (infer_follows h (depth + 1) env s left (hs.mono (List.subset_append_left _ _))).bind
        fun (l, env₁) v s₁ hv ↦ .ite
          (fun _ ↦ follows_careful .skipped h (fun _ ↦ nofun) fun hskip ↦ .walk fun r hr ↦
            follows_pure <| meets_pure ⟨Ty.covers_join (Or.inl hv.1), hv.2.widen <|
              hskip ▸ infer_settles M.inherits (depth + 1) env₁ right r (yields_of_yieldsBy hr)⟩)
          fun _ ↦ (infer_follows h (depth + 1) env₁ s₁ right
            (hv.2.begins_of_subset hs (List.subset_append_right _ _))).bind_walk
              fun r w s₂ hw r' hr ↦ by
                cases hr
                exact ⟨Ty.covers_join (Or.inr hw.1), hv.2.andThen hw.2⟩
  | .caseNode predicate conditions elseStatements, hs => follows_guarded h <|
      (inferOpt_follows h (depth + 1) env s predicate
        (hs.mono (List.subset_append_left _ _))).bind fun (_, env₁) v s₁ hv ↦
          follows_careful .skipped h (fun _ ↦ nofun) fun hskip ↦ by
            have hconditions : without (exposedAll conditions) (definiteOpt predicate) ⊆
                exposed (.caseNode predicate conditions elseStatements) := fun _ hx ↦
              List.mem_append_right _ (without_mono (List.subset_append_left _ _) hx)
            have helse : without (exposedEach elseStatements) (definiteOpt predicate) ⊆
                exposed (.caseNode predicate conditions elseStatements) := fun _ hx ↦
              List.mem_append_right _ (without_mono (List.subset_append_right _ _) hx)
            refine (inferWhens_follows h (depth + 1) (predicate.bind localName) env₁ s₁ conditions
              hskip (hv.2.begins_of_subset hs hconditions)).traced.bind
              fun (tys, branches, env₂) taken s₂ htaken ↦ ?_
            have hsettles : Settles M.inherits true env₁ env₂ := hskip ▸ inferWhens_settles
              M.inherits (depth + 1) _ env₁ conditions _ (yields_of_yieldsBy htaken.2.1)
            cases taken with
            | none =>
              have hmoves := hv.2.andThen htaken.1
              refine (inferStmts_follows h (depth + 1) .nil env₂ s₂ .nil elseStatements rfl
                (hmoves.begins_of_subset hs helse)).bind_walk
                fun (elseTy, elseEnv) w s₃ hw r hr ↦ ?_
              cases hr
              exact (hmoves.carries_join (fun _ ↦ id) hw
                (List.mem_append_right _ List.mem_cons_self)
                fun hty ↦ Ty.covers_join (Or.inr hty)).nothing
            | some w =>
              obtain ⟨⟨ty, hty, hcovers⟩, branch, hbranch, hmoves⟩ := htaken.1
              refine .walk fun (elseTy, elseEnv) _ ↦ follows_pure <| meets_pure
                ⟨Ty.covers_join (Or.inl ?_), ((hv.2.andThen hmoves).join
                  (List.mem_append_left _ hbranch) fun x hx ↦ ?_).nothing⟩
              · cases tys with
                | nil => cases hty
                | cons first rest =>
                  rcases List.mem_cons.1 hty with rfl | hmem
                  · exact Ty.covers_foldl_join (Or.inl hcovers)
                  · exact Ty.covers_foldl_join (Or.inr ⟨ty, hmem, hcovers⟩)
              · exact hsettles.holds rfl x none
                  ((Env.holds_of_none (hmoves.tracks.grows x hx)).2 rfl)
  | .loop predicate statements, hs => follows_guarded h <| .here_bind <| by
      intro r hr
      obtain ⟨⟨_, env₁⟩, hpredicate, hr⟩ := yieldsBy_bind.1 hr
      obtain ⟨⟨_, bodyEnv⟩, hbody, rfl⟩ := yieldsBy_bind.1 hr
      refine (meets_loop h (fun c hc ↦ ?_) (fun c hc ↦ ?_) hs).bind fun _ c hc ↦
        meets_pure ⟨rfl, hc⟩
      · exact (infer_follows h (depth + 1) env c predicate hc _ hpredicate).mono
          (fun _ _ hv ↦ hv.2) fun _ _ hfine ↦ hfine
      · exact (inferStmts_follows h (depth + 1) .nil env₁ c .nil statements rfl hc _ hbody).mono
          (fun _ _ hv ↦ hv.2.nothing) fun _ _ hfine ↦ hfine
  | .forNode index collection statements, hs => follows_guarded h <|
      (infer_follows h (depth + 1) env s collection
        (hs.mono (List.subset_append_left _ _))).bind fun (_, env₁) v s₁ hv ↦ .here_bind <| by
          intro r hr
          obtain ⟨⟨_, bodyEnv⟩, hbody, rfl⟩ := yieldsBy_bind.1 hr
          refine (meets_for h (fun c hc ↦ ?_)
            (hv.2.begins_of_subset hs (List.subset_append_right _ _))).bind fun _ c hc ↦
              meets_choose fun _ _ ↦ ⟨trivial, hv.2.andThen hc⟩
          exact (inferStmts_follows h (depth + 1) .nil env₁ c .nil statements rfl hc _ hbody).mono
            (fun _ _ hw ↦ hw.2.nothing) fun _ _ hfine ↦ hfine
  | .assoc _ _, hs => follows_unknown (hs.mono (List.nil_subset _))
  | .whenNode _ _, hs => follows_unknown (hs.mono (List.nil_subset _))
  | .rescueNode _ _ _, hs => follows_unknown (hs.mono (List.nil_subset _))
  | .blockNode _ _ _, hs => follows_unknown (hs.mono (List.nil_subset _))
  | .classNode _ _ _, hs => follows_unknown hs
  | .singletonClass _ _, hs => follows_unknown hs
  | .defNode _ _ _ _ _ _, hs => follows_sym hs
  | .jump kind inside, hs => follows_guarded h <| .act (meets_unread h hs.fine _)
      fun _ s₁ hs₁ ↦ follows_pure <| meets_leave hs₁.1
  | .returnNode arguments, hs => follows_guarded h <|
      (inferEach_follows h (depth + 1) env s arguments hs).bind fun (tys, env₁) _ s₁ hmoves ↦
        .ask fun _ _ ↦ follows_pure <| meets_leave hmoves.fine
  | .superNode keyword arguments, hs => follows_guarded h <|
      (inferEach_follows h (depth + 1) env s arguments hs).bind fun (tys, env₁) _ s₁ hmoves ↦
        .act (still_called h hmoves.fine) fun _ s₂ hs₂ ↦ .ask fun _ _ ↦ follows_pure <|
          meets_choose fun _ _ ↦ ⟨trivial, (hmoves.still hs₂.1 hs₂.2.1 hs₂.2.2).nothing⟩
  | .forwardingSuper loc, hs => follows_guarded h <| .act (still_called h hs.fine)
      fun _ s₁ hs₁ ↦ .ask fun _ _ ↦ follows_pure <|
        meets_choose fun _ _ ↦ ⟨trivial, hs.moves.still hs₁.1 hs₁.2.1 hs₁.2.2⟩
  | .caseMatch predicate captures inside, hs => follows_guarded h <|
      (inferOpt_follows h (depth + 1) env s predicate hs).bind fun (_, env₁) v s₁ hv ↦
        .act (meets_patterns h hv.2 (execUnread M avoids call (depth + 1) inside) captures)
          fun _ s₂ hs₂ ↦ follows_pure <| meets_choose fun _ _ ↦ ⟨trivial, hs₂.nothing⟩
  | .capture names inside, hs => follows_guarded h <| .act (meets_unread h hs.fine _)
      fun _ s₁ hs₁ ↦ follows_pure <| meets_change_bind fun s₂ hs₂ ↦
        meets_careful_bind .unnamed h (fun _ ↦ nofun) fun hnames ↦ meets_choose fun _ _ ↦ by
          obtain ⟨ls, _, hother, rfl⟩ := hs₂
          have hmoves := hs.moves.still hs₁.1 hs₁.2.1 hs₁.2.2
          have hsub : names ⊆ [] := by
            rw [hnames]
            exact List.Subset.refl _
          exact ⟨trivial, hmoves.rebind hsub hother⟩
  | .multiWrite lefts rest rights value, hs => follows_guarded h <|
      (infer_follows h (depth + 1) env s value hs).bind fun (ty, env₁) v s₁ hv ↦
        follows_pure <| meets_change_bind fun s₂ hs₂ ↦
          meets_careful_bind .unnamed h (fun _ ↦ nofun) fun hnames ↦ by
            obtain ⟨ls, _, hother, rfl⟩ := hs₂
            have hmoves := hv.2.nothing.rebind hnames hother
            rw [List.append_nil] at hmoves
            exact (meets_storeAll h hmoves).bind fun _ s₃ hs₃ ↦ meets_choose fun _ _ ↦
              ⟨trivial, hs₃⟩
  | .callUpdate receiver value, hs => follows_guarded h <|
      (inferOpt_follows h (depth + 1) env s receiver
        (hs.mono (List.subset_append_left _ _))).bind fun (_, env₁) v s₁ hv ↦
          .act (still_called h hv.2.fine) fun _ s₂ hs₂ ↦ by
            have hmoves := hv.2.still hs₂.1 hs₂.2.1 hs₂.2.2
            refine .either (follows_careful .skipped h (fun _ ↦ nofun) fun hskip ↦
              .walk fun r hr ↦ follows_pure <| meets_choose fun _ _ ↦ ⟨trivial,
                (hmoves.widen <| hskip ▸ infer_settles M.inherits (depth + 1) env₁ value r
                  (yields_of_yieldsBy hr)).nothing⟩) ?_
            refine (infer_follows h (depth + 1) env₁ s₂ value
              (hmoves.begins_of_subset hs (List.subset_append_right _ _))).bind
              fun r w s₃ hw ↦ .act (still_called h hw.2.fine) fun _ s₄ hs₄ ↦ follows_pure <|
                meets_choose fun _ _ ↦ ⟨trivial,
                  ((hmoves.andThen hw.2).still hs₄.1 hs₄.2.1 hs₄.2.2).nothing⟩
  | .lambda params defaults body, hs => follows_guarded h <| .ask fun _ _ ↦
      .walk fun r hr ↦ .ask fun _ _ ↦ follows_pure <|
        (meets_makeClosure hs hr).bind fun _ s₁ hs₁ ↦ meets_choose fun _ _ ↦
          ⟨trivial, (hs.moves.still hs₁.1.1 hs₁.1.2.1 hs₁.1.2.2).widen .spill⟩
  | .rescueModifier expression rescueExpression, hs => follows_guarded h <| .here_bind <|
      (infer_follows h (depth + 1) env s expression
        (hs.mono (List.subset_append_left _ _))).attempt_bind
        (fun l v s₁ hv ↦ follows_careful .skipped h (fun _ ↦ nofun) fun hskip ↦ .walk fun r hr ↦
          follows_pure <| meets_pure ⟨Ty.covers_join (Or.inl hv.1), (hv.2.widen <|
            hskip ▸ infer_settles M.inherits (depth + 1) l.2 rescueExpression r
              (yields_of_yieldsBy hr)).nothing⟩)
        fun l how s₁ hl hfine ↦ by
          cases how with
          | raises =>
            refine follows_careful .cutShort h (fun _ ↦ nofun) fun ⟨hskip, hlocals⟩ ↦
              .change_bind fun s₂ hs₂ ↦ ?_
            subst hs₂
            have hmoves : Moves M account scene [] env s l.2 { s₁ with named := s.named } :=
              (hs.moves.widen <| hskip ▸ infer_settles M.inherits (depth + 1) env expression l
                (yields_of_yieldsBy hl)).still hfine.forget hlocals rfl
            refine (infer_follows h (depth + 1) l.2 _ rescueExpression
              (hmoves.begins_of_subset hs fun x hx ↦
                List.mem_append_right _ (without_subset hx))).bind_walk fun r w s₂ hw r' hr ↦ ?_
            cases hr
            exact ⟨Ty.covers_join (Or.inr hw.1), (hmoves.andThen hw.2).nothing⟩
          | nexts => exact .walk fun _ _ ↦ follows_pure <| meets_leave hfine
          | breaks => exact .walk fun _ _ ↦ follows_pure <| meets_leave hfine
          | returns => exact .walk fun _ _ ↦ follows_pure <| meets_leave hfine
          | other => exact .walk fun _ _ ↦ follows_pure <| meets_leave hfine
  | .beginNode statements rescues elseStatements ensureStatements, hs => follows_guarded h <| by
      intro r hr
      obtain ⟨⟨bodyTy, env₁⟩, hbody, hr⟩ := yieldsBy_bind.1 hr
      obtain ⟨⟨tys, branches, env₂⟩, hrescues, hr⟩ := yieldsBy_bind.1 hr
      obtain ⟨⟨elseTy, env₃⟩, helse, hr⟩ := yieldsBy_bind.1 hr
      obtain ⟨⟨_, env₄⟩, hensure, rfl⟩ := yieldsBy_bind.1 hr
      have hbodySettles := inferStmts_settles M.inherits (depth + 1) .nil env statements _
        (yields_of_yieldsBy hbody)
      have hrescuesSettle := inferRescues_settles M.inherits (depth + 1) env env₁ rescues _
        (yields_of_yieldsBy hrescues)
      have helseSettles := inferStmts_settles M.inherits (depth + 1) _ env₂ elseStatements _
        (yields_of_yieldsBy helse)
      generalize hjoined : (if branches.isEmpty = true then env₃
        else env₃.join (branches ++ [env₃])) = joined at hensure
      have hjoin : Settles M.inherits true env₃ joined := by
        subst hjoined
        split_ifs
        · exact .refl
        · exact Settles.refl.join_of_mem (List.mem_append_right _ List.mem_cons_self)
      have hensureBegins : ∀ {s₁}, Moves M account scene [] env s joined s₁ →
          Begins M account scene (exposedEach ensureStatements) joined s₁ := fun hmoves ↦
        hmoves.begins_of_subset hs fun x hx ↦ List.mem_append_right _ (without_subset hx)
      refine meets_here_bind <| Meets.attempt_bind (?_ : Meets _ s (fun v s₁ ↦
        elseTy.Covers M.inherits v ∧ Moves M account scene [] env s joined s₁)
        fun _ ↦ Fine M account scene) (fun v s₁ hv ↦ ?_) fun how s₁ hfine ↦ ?_
      · refine (inferStmts_follows h (depth + 1) .nil env s .nil statements rfl
          (hs.mono fun x hx ↦ ?_) _ hbody).attempt_bind (fun v s₁ hv ↦ ?_) fun how s₁ hfine ↦ ?_
        · exact List.mem_append_left _ (List.mem_append_left _ (List.mem_append_left _ hx))
        · refine meets_careful_bind .skipped h (fun _ ↦ nofun) fun hskip ↦ ?_
          have hmoves := hv.2.widen (hskip ▸ hrescuesSettle)
          refine (inferStmts_follows h (depth + 1) _ env₂ s₁ v elseStatements
            (Ty.covers_foldl_join (Or.inl hv.1)) (hmoves.begins_of_subset hs fun x hx ↦ ?_)
            _ helse).mono (fun w s₂ hw ↦ ⟨hw.1, ?_⟩) fun _ _ hfine ↦ hfine
          · exact List.mem_append_left _ (List.mem_append_right _ (without_subset hx))
          · exact ((hmoves.andThen hw.2).widen hjoin).nothing
        · have hleave : ∀ how, (leave how : Run Value).Meets s₁ (fun v s₁ ↦
              elseTy.Covers M.inherits v ∧ Moves M account scene [] env s joined s₁)
              fun _ ↦ Fine M account scene := fun _ ↦ meets_leave hfine
          cases how with
          | raises =>
            refine meets_careful_bind .cutShort h (fun _ ↦ nofun) fun hcut ↦
              meets_change_bind fun s₂ hs₂ ↦ ?_
            subst hs₂
            by_cases hrescue : rescues = []
            · subst hrescue
              exact meets_leave hfine.forget
            obtain ⟨hstatements, hexceptions, helseEmpty, hlocals⟩ := hcut hrescue
            subst helseEmpty
            cases helse
            have hsettles : Settles M.inherits true env env₁ := hstatements ▸ hbodySettles
            have hmoves : Moves M account scene [] env s env { s₁ with named := s.named } :=
              hs.moves.still hfine.forget hlocals rfl
            refine (inferRescues_follows h (depth + 1) env env₁ _ rescues hsettles hexceptions
              (hmoves.begins_of_subset hs fun x hx ↦ ?_) _ hrescues).mono (fun v s₂ hv ↦ ?_)
              fun _ _ hfine ↦ hfine
            · exact List.mem_append_left _ (List.mem_append_left _ (List.mem_append_right _
                (without_subset hx)))
            · obtain ⟨⟨t, ht, hcovers⟩, branch, hbranch, hclause⟩ := hv
              refine ⟨Ty.covers_foldl_join (Or.inr ⟨t, ht, hcovers⟩), ?_⟩
              have hne : ¬ branches.isEmpty = true := by
                cases branches with
                | nil => cases hbranch
                | cons => simp
              rw [if_neg hne] at hjoined
              subst hjoined
              refine (hmoves.trans hclause).join (List.mem_append_left _ hbranch) fun x hx ↦ ?_
              exact (hsettles.andThen (hexceptions ▸ hrescuesSettle)).holds rfl x none
                ((Env.holds_of_none (hclause.tracks.grows x hx)).2 rfl)
          | nexts => exact hleave _
          | breaks => exact hleave _
          | returns => exact hleave _
          | other => exact hleave _
      · exact (inferStmts_follows h (depth + 1) .nil joined s₁ .nil ensureStatements rfl
          (hensureBegins hv.2) _ hensure).bind fun _ s₂ hw ↦
            meets_pure ⟨hv.1, (hv.2.andThen hw.2).nothing⟩
      · refine meets_careful_bind .cutShort h (fun _ ↦ nofun) fun hcut ↦
          meets_change_bind fun s₂ hs₂ ↦ ?_
        subst hs₂
        by_cases hempty : ensureStatements = []
        · subst hempty
          have hnothing : (pure .nil : Run Value).Meets { s₁ with named := s.named }
              (fun _ ↦ Fine M account scene) fun _ ↦ Fine M account scene :=
            meets_pure hfine.forget
          exact hnothing.bind fun _ _ hfine ↦ meets_leave hfine
        obtain ⟨hstatements, hexceptions, helse', hlocals⟩ := hcut hempty
        have hsettles : Settles M.inherits true env joined :=
          (((hstatements ▸ hbodySettles : Settles M.inherits true env env₁).andThen
            (hexceptions ▸ hrescuesSettle)).andThen (helse' ▸ helseSettles)).andThen hjoin
        have hmoves : Moves M account scene [] env s joined { s₁ with named := s.named } :=
          (hs.moves.widen hsettles).still hfine.forget hlocals rfl
        exact (inferStmts_follows h (depth + 1) .nil joined _ .nil ensureStatements rfl
          (hensureBegins hmoves) _ hensure).bind fun _ s₂ hw ↦ meets_leave hw.2.fine
  | .callNode loc msg receiver name arguments casts block, hs => follows_guarded h <|
      .ask fun _ _ ↦ (inferReceiver_follows h (depth + 1) env s receiver (hs.mono fun x hx ↦
        List.mem_append_left _ (List.mem_append_left _ hx))).bind fun (ty, env₁) v s₁ hv ↦ by
          have hafter : ∀ (receiver' : Receiver) (env₂ : Env),
              Moves M account scene (definiteOpt receiver) env s env₂ s₁ →
              Follows (Right M account) (do
                let _ ← .query
                  (.disarmSubjects (rspecRaiseSubjectSpans receiver name arguments).length)
                let (args, env) ← inferArgs scene (depth + 1) arguments casts env₂
                let env ← inferBlock scene (depth + 1) receiver' name block env
                let site : CallQuery :=
                  { depth := depth + 1, loc, msg, receiver := receiver', name,
                    args := args.reduceOption, exactArity := args.all Option.isSome }
                return ((← .query (.call site)), env)) (do
                execEach M avoids call (depth + 1) arguments
                execBlock M avoids call (depth + 1) block
                called call
                if receiver.isNone && (name = "raise" || name = "fail") then .leave .raises
                else .choose (M.calls loc)) s₁
                (Carries M account scene (definiteOpt receiver) env s)
                fun _ ↦ Fine M account scene := by
            intro receiver' env₂ hmoves
            refine .ask fun _ _ ↦ (inferArgs_follows h (depth + 1) casts env₂ s₁ arguments
              (hmoves.begins_of_subset hs fun x hx ↦ List.mem_append_left _
                (List.mem_append_right _ hx))).bind fun (args, env₃) _ s₂ hs₂ ↦ ?_
            refine (inferBlock_follows h (depth + 1) receiver' name env₃ s₂ block
              ((hmoves.trans hs₂).begins_of_subset hs
                (List.subset_append_right _ _))).bind fun env₄ _ s₃ hs₃ ↦ ?_
            refine .act (still_called h hs₃.fine) fun _ s₄ hs₄ ↦ .ask fun ty hty ↦ .ite
              (fun _ ↦ follows_pure <| meets_leave hs₄.1) fun _ ↦ follows_pure <|
                meets_choose fun w hw ↦ ⟨hty w hw, ?_⟩
            exact ((hmoves.andThen hs₂).andThen hs₃).still hs₄.1 hs₄.2.1 hs₄.2.2
          have hextend : Moves M account scene (definiteOpt receiver) env s
              (match receiver.bind localName with
                | some var =>
                  if name = "extend" ∧ scene.closedWorld then env₁.insert var .unknown else env₁
                | none => env₁) s₁ := by
            cases receiver.bind localName with
            | none => exact hv
            | some var =>
              dsimp only
              split_ifs
              · exact (hv.insertUnknown var).mono (List.subset_cons_self _ _)
              · exact hv
          dsimp only
          split
          · by_cases hname : name = "extend"
            · rw [if_pos hname]
              exact .ask fun _ _ ↦ hafter _ _ hextend
            · rw [if_neg hname]
              exact hafter _ _ hextend
          · exact hafter _ _ hextend

theorem inferOpt_follows (h : Sound M account scene avoids call) (depth : ℕ) (env : Env)
    (s : Activation) : (e : Option Expr) → Begins M account scene (exposedOpt e) env s →
    (inferOpt scene depth e env).Follows (Right M account) (execOpt M avoids call depth e) s
      (Carries M account scene (definiteOpt e) env s) fun _ ↦ Fine M account scene
  | none, hs => follows_pure <| meets_pure ⟨rfl, hs.moves⟩
  | some e, hs => infer_follows h depth env s e hs

theorem inferReceiver_follows (h : Sound M account scene avoids call) (depth : ℕ) (env : Env)
    (s : Activation) : (e : Option Expr) → Begins M account scene (exposedOpt e) env s →
    (inferReceiver scene depth e env).Follows (Right M account) (execOpt M avoids call depth e) s
      (fun r _ ↦ Moves M account scene (definiteOpt e) env s r.2) fun _ ↦ Fine M account scene
  | none, hs => follows_pure <| meets_pure hs.moves
  | some e, hs => (infer_follows h depth env s e hs).mono (fun _ _ _ hv ↦ hv.2)
      fun _ _ hfine ↦ hfine

theorem inferArgs_follows (h : Sound M account scene avoids call) (depth : ℕ)
    (casts : List (Option Cast)) (env : Env) (s : Activation) : (es : List Expr) →
    Begins M account scene (exposedEach es) env s →
    (inferArgs scene depth es casts env).Follows (Right M account)
      (execEach M avoids call depth es) s
      (fun r _ ↦ Moves M account scene (definiteEach es) env s r.2) fun _ ↦ Fine M account scene
  | [], hs => follows_pure <| meets_pure hs.moves
  | e :: rest, hs =>
      (infer_follows h depth env s e (hs.mono (List.subset_append_left _ _))).bind
        fun (_, env₁) v s₁ hv ↦ (inferArgs_follows h depth casts.tail env₁ s₁ rest
          (hv.2.begins_of_subset hs (List.subset_append_right _ _))).bind_walk
            fun r _ s₂ hs₂ r' hr ↦ by
              cases hr
              exact hv.2.trans hs₂

/-- The passes of the block of a call. -/
theorem inferBlock_follows (h : Sound M account scene avoids call) (depth : ℕ)
    (receiver : Receiver) (name : String) (env : Env) (s : Activation) : (block : Option Expr) →
    Begins M account scene (exposedOpt block) env s →
    (inferBlock scene depth receiver name block env).Follows (Right M account)
      (execBlock M avoids call depth block) s (fun r _ ↦ Moves M account scene [] env s r)
      fun _ ↦ Fine M account scene
  | none, hs => follows_pure <| meets_pure hs.moves
  | some e, hs => by
    cases e
    case blockNode params defaults body =>
      refine .ask fun _ _ ↦ .ask fun _ _ ↦ .here_bind ?_
      intro r hr
      obtain ⟨⟨_, blockEnv⟩, hbody, hr⟩ := yieldsBy_bind.1 hr
      obtain ⟨_, _, hr⟩ := yieldsBy_bind.1 hr
      obtain ⟨_, _, rfl⟩ := yieldsBy_bind.1 hr
      refine (meets_makeClosure hs hbody).bind fun _ s₁ hs₁ ↦ ?_
      obtain ⟨⟨hfine, hlocals, hnamed⟩, hscoped⟩ := hs₁
      exact (meets_blockPasses h
        (fun c hc ↦ inferOpt_follows h depth (env.addBlockParams params) c body hc _ hbody) hscoped
        hs ((hs.moves.still hfine hlocals hnamed).widen .spill) hnamed rfl).mono
        (fun _ _ hc ↦ hc.1) fun _ _ hfine ↦ hfine
    all_goals
      exact follows_pure <| (meets_unread h hs.fine _).mono
        (fun _ _ hs₁ ↦ hs.moves.still hs₁.1 hs₁.2.1 hs₁.2.2) fun _ _ hfine ↦ hfine

theorem inferStmts_follows (h : Sound M account scene avoids call) (depth : ℕ) (ty : Ty)
    (env : Env) (s : Activation) (last : Value) : (es : List Expr) →
    ty.Covers M.inherits last → Begins M account scene (exposedEach es) env s →
    (inferStmts scene depth es ty env).Follows (Right M account)
      (execStmts M avoids call depth last es) s
      (Carries M account scene (definiteEach es) env s) fun _ ↦ Fine M account scene
  | [], hlast, hs => follows_pure <| meets_pure ⟨hlast, hs.moves⟩
  | e :: rest, _, hs =>
      (infer_follows h depth env s e (hs.mono (List.subset_append_left _ _))).bind
        fun (ty, env₁) v s₁ hv ↦
          (inferStmts_follows h depth ty env₁ s₁ v rest hv.1
            (hv.2.begins_of_subset hs (List.subset_append_right _ _))).mono
            (fun _ _ _ hw ↦ ⟨hw.1, hv.2.trans hw.2⟩) fun _ _ hfine ↦ hfine

theorem inferEach_follows (h : Sound M account scene avoids call) (depth : ℕ) (env : Env)
    (s : Activation) : (es : List Expr) → Begins M account scene (exposedEach es) env s →
    (inferEach scene depth es env).Follows (Right M account) (execEach M avoids call depth es) s
      (fun r _ ↦ Moves M account scene (definiteEach es) env s r.2) fun _ ↦ Fine M account scene
  | [], hs => follows_pure <| meets_pure hs.moves
  | e :: rest, hs =>
      (infer_follows h depth env s e (hs.mono (List.subset_append_left _ _))).bind
        fun (_, env₁) v s₁ hv ↦ (inferEach_follows h depth env₁ s₁ rest
          (hv.2.begins_of_subset hs (List.subset_append_right _ _))).bind_walk
            fun r _ s₂ hs₂ r' hr ↦ by
              cases hr
              exact hv.2.trans hs₂

/-- Some of the conditions are tried, and all are walked. -/
theorem inferEach_prefix_follows (h : Sound M account scene avoids call) (depth : ℕ) (env : Env)
    (s : Activation) : (es : List Expr) → settledEach es = true →
    Begins M account scene (exposedEach es) env s →
    (inferEach scene depth es env).Follows (Right M account) (execPrefix M avoids call depth es) s
      (fun r _ ↦ Moves M account scene [] env s r.2) fun _ ↦ Fine M account scene
  | [], _, hs => follows_pure <| meets_pure hs.moves
  | e :: rest, hskip, hs => .either
      (fun r hr ↦ meets_pure <| hs.moves.widen <| hskip ▸
        inferEach_settles M.inherits depth env (e :: rest) r (yields_of_yieldsBy hr))
      ((infer_follows h depth env s e (hs.mono (List.subset_append_left _ _))).bind
        fun (_, env₁) v s₁ hv ↦ by
          rw [settledEach, Bool.and_eq_true] at hskip
          refine (inferEach_prefix_follows h depth env₁ s₁ rest hskip.2
            (hv.2.begins_of_subset hs (List.subset_append_right _ _))).bind_walk
            fun r _ s₂ hs₂ r' hr ↦ ?_
          cases hr
          exact hv.2.nothing.trans hs₂)

theorem inferWhens_follows (h : Sound M account scene avoids call) (depth : ℕ)
    (subject : Option String) (env : Env) (s : Activation) : (es : List Expr) →
    settledConditions es = true → Begins M account scene (exposedAll es) env s →
    (inferWhens scene depth subject es env).Follows (Right M account)
      (execWhens M avoids call depth subject es) s (Taken M account scene env s)
      fun _ ↦ Fine M account scene
  | [], _, hs => follows_pure <| meets_pure hs.moves
  | e :: rest, hskip, hs => by
    rw [settledConditions, List.all_cons, Bool.and_eq_true] at hskip
    have hrest := fun env s ↦ inferWhens_follows h depth subject env s rest hskip.2
    cases e
    case whenNode conditions statements =>
      have hstatements : without (exposedEach statements) [] ⊆
          exposedAll (.whenNode conditions statements :: rest) := fun x hx ↦
        List.mem_append_left _ (List.mem_append_right _ (without_subset hx))
      have hconditions : exposedEach conditions ⊆
          exposedAll (.whenNode conditions statements :: rest) := fun x hx ↦
        List.mem_append_left _ (List.mem_append_left _ hx)
      refine .either ?_ ?_
      · refine (inferEach_prefix_follows h depth env s conditions hskip.1
          (hs.mono hconditions)).bind fun (_, env₁) _ s₁ hs₁ ↦ .check_bind fun htells ↦ ?_
        have hmoves := hs₁.branchWhen h.fits htells
        refine (inferStmts_follows h depth .nil _ s₁ .nil statements rfl
          (hmoves.begins_of_subset hs hstatements)).bind fun (ty, branch) v s₂ hv ↦
            .walk fun r _ ↦ follows_pure <| meets_pure ?_
        exact ⟨⟨ty, List.mem_cons_self, hv.1⟩, branch, List.mem_cons_self, hmoves.andThen hv.2⟩
      · refine (inferEach_follows h depth env s conditions (hs.mono hconditions)).bind
          fun (_, env₁) _ s₁ hs₁ ↦ .walk fun (ty, branch) _ ↦ ?_
        refine (hrest env₁ s₁ (hs₁.begins_of_subset hs fun x hx ↦
          List.mem_append_right _ (without_subset hx))).bind_walk fun r taken s₂ htaken r' hr ↦ ?_
        cases hr
        cases taken with
        | none => exact hs₁.nothing.trans htaken
        | some v =>
          obtain ⟨⟨t, ht, hcovers⟩, b, hb, hmoves⟩ := htaken
          exact ⟨⟨t, List.mem_cons_of_mem _ ht, hcovers⟩, b, List.mem_cons_of_mem _ hb,
            hs₁.nothing.trans hmoves⟩
    all_goals exact hrest env s (hs.mono (List.subset_append_right _ _))

/-- A clause that rescues starts from the environment before the body. -/
theorem inferRescues_follows (h : Sound M account scene avoids call) (depth : ℕ)
    (init env : Env) (s : Activation) : (es : List Expr) → Settles M.inherits true init env →
    settledExceptions es = true → Begins M account scene (exposedAll es) init s →
    (inferRescues scene depth init es env).Follows (Right M account)
      (execRescues M avoids call depth es) s
      (fun r v s' ↦ Taken M account scene init s r (some v) s') fun _ ↦ Fine M account scene
  | [], _, _, hs => follows_pure <| meets_leave hs.fine
  | e :: rest, hsettles, hskip, hs => by
    rw [settledExceptions, List.all_cons, Bool.and_eq_true] at hskip
    have hrest := fun env s hsettles ↦
      inferRescues_follows h depth init env s rest hsettles hskip.2
    cases e
    case rescueNode exceptions reference statements =>
      have hstatements : without (exposedEach statements) (reference.bind Target.directName).toList
          ⊆ exposedAll (.rescueNode exceptions reference statements :: rest) := fun x hx ↦
        List.mem_append_left _ (List.mem_append_right _ hx)
      -- the exceptions are walked in the environment after the body
      have hbegins : Begins M account scene (exposedEach exceptions) env s := by
        refine (hs.moves.widen hsettles).begins fun x hx ↦ hs.ready x ?_
        exact List.mem_append_left _ (List.mem_append_left _ (without_subset hx))
      refine .either ?_ ?_
      · refine (follows_quietly h ((inferEach_prefix_follows h depth env s exceptions hskip.1
          hbegins).mono (fun _ _ _ hmoves ↦ hmoves.fine) fun _ _ hfine ↦ hfine)).bind
          fun (_, env₁) _ s₁ hs₁ ↦ .change_bind fun s₂ hs₂ ↦
            follows_careful .unnamed h (fun _ ↦ nofun) fun hnames ↦ ?_
        obtain ⟨ls, _, hother, rfl⟩ := hs₂
        have hmoves := (hs.moves.still hs₁.1 hs₁.2.1 hs₁.2.2).rebind hnames hother
        rw [List.append_nil] at hmoves
        have hclause : (match reference.bind Target.directName with
            | some var => init.insert var .unknown
            | none => init) = init.insertUnknown (reference.bind Target.directName).toList := by
          cases reference.bind Target.directName <;> rfl
        rw [← hclause] at hmoves
        refine (inferStmts_follows h depth .nil _ _ .nil statements rfl
          (hmoves.begins_of_subset hs hstatements)).bind_walk fun (ty, clause) v s₃ hv r hr ↦ ?_
        obtain ⟨_, _, rfl⟩ := yieldsBy_bind.1 hr
        exact ⟨⟨ty, List.mem_cons_self, hv.1⟩, clause, List.mem_cons_self,
          (hmoves.andThen hv.2).nothing⟩
      · refine (follows_quietly h ((inferEach_follows h depth env s exceptions
          hbegins).mono (fun _ _ _ hmoves ↦ hmoves.fine) fun _ _ hfine ↦ hfine)).traced.bind
          fun (_, env₁) _ s₁ hs₁ ↦ .walk fun (ty, clause) _ ↦ ?_
        obtain ⟨⟨hfine, hlocals, hnamed⟩, hwalk, _⟩ := hs₁
        have hmoves := hs.moves.still hfine hlocals hnamed
        refine (hrest env₁ s₁ (hsettles.andThen <| hskip.1 ▸ inferEach_settles M.inherits depth env
          exceptions _ (yields_of_yieldsBy hwalk)) (hmoves.begins_of_subset hs fun x hx ↦
            List.mem_append_right _ (without_subset hx))).bind_walk fun r v s₂ hv r' hr ↦ ?_
        cases hr
        obtain ⟨⟨t, ht, hcovers⟩, b, hb, hmoves'⟩ := hv
        exact ⟨⟨t, List.mem_cons_of_mem _ ht, hcovers⟩, b, List.mem_cons_of_mem _ hb,
          hmoves.trans hmoves'⟩
    all_goals exact hrest env s hsettles (hs.mono (List.subset_append_right _ _))

theorem inferElements_follows (h : Sound M account scene avoids call) (depth : ℕ) (env : Env)
    (s : Activation) : (es : List Expr) → Begins M account scene (exposedEach es) env s →
    (inferElements scene depth es env).Follows (Right M account)
      (execElements M avoids call depth es) s
      (fun r _ ↦ Moves M account scene [] env s r.2) fun _ ↦ Fine M account scene
  | [], hs => follows_pure <| meets_pure hs.moves
  | e :: rest, hs => by
    have hrest := fun env s ↦ inferElements_follows h depth env s rest
    cases e
    case splat expression =>
      refine (inferOpt_follows h depth env s expression
        (hs.mono (List.subset_append_left _ _))).bind fun (_, env₁) v s₁ hv ↦
          (hrest env₁ s₁ (hv.2.nothing.begins_of_subset hs (List.subset_append_right _ _))).bind_walk
            fun r _ s₂ hs₂ r' hr ↦ ?_
      cases hr
      exact hv.2.nothing.trans hs₂
    all_goals
      refine (infer_follows h depth env s _ (hs.mono (List.subset_append_left _ _))).bind
        fun (_, env₁) v s₁ hv ↦
          (hrest env₁ s₁ (hv.2.begins_of_subset hs (List.subset_append_right _ _))).bind_walk
            fun r _ s₂ hs₂ r' hr ↦ ?_
      cases hr
      exact hv.2.nothing.trans hs₂

theorem inferAssocs_follows (h : Sound M account scene avoids call) (depth : ℕ) (env : Env)
    (s : Activation) : (es : List Expr) → Begins M account scene (exposedAll es) env s →
    (inferAssocs scene depth es env).Follows (Right M account)
      (execAssocs M avoids call depth es) s
      (fun r _ ↦ Moves M account scene [] env s r.2) fun _ ↦ Fine M account scene
  | [], hs => follows_pure <| meets_pure hs.moves
  | e :: rest, hs => by
    have hrest := fun env s ↦ inferAssocs_follows h depth env s rest
    cases e
    case splat expression =>
      refine (inferOpt_follows h depth env s expression
        (hs.mono (List.subset_append_left _ _))).bind fun (_, env₁) v s₁ hv ↦
          (hrest env₁ s₁ (hv.2.nothing.begins_of_subset hs fun x hx ↦
            List.mem_append_right _ (without_subset hx))).bind_walk fun r _ s₂ hs₂ r' hr ↦ ?_
      cases hr
      exact hv.2.nothing.trans hs₂
    case assoc key value =>
      have hkey : exposed key ⊆ exposedAll (.assoc key value :: rest) := fun x hx ↦
        List.mem_append_left _ (List.mem_append_left _ hx)
      refine (infer_follows h depth env s key (hs.mono hkey)).bind fun (_, env₁) v s₁ hv ↦
        (infer_follows h depth env₁ s₁ value (hv.2.begins_of_subset hs fun x hx ↦
          List.mem_append_left _ (List.mem_append_right _ hx))).bind fun (_, env₂) w s₂ hw ↦ ?_
      have hmoves := hv.2.nothing.trans hw.2.nothing
      refine (hrest env₂ s₂ (hmoves.begins_of_subset hs fun x hx ↦
        List.mem_append_right _ (without_subset hx))).bind_walk fun r _ s₃ hs₃ r' hr ↦ ?_
      cases hr
      exact hmoves.trans hs₃
    all_goals
      refine (hrest env s (hs.mono (List.subset_append_right _ _))).bind_walk
        fun r _ s₁ hs₁ r' hr ↦ ?_
      cases hr
      exact hs₁

end

end Expr

end Itaruby
