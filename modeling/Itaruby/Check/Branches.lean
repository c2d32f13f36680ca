import Itaruby.Check.Soundness

/-!
The two ways out of a check. What the walk takes from a check is so where a run has found it
out, and a branch that leaves does not come to its end.
-/

set_option autoImplicit false
set_option relaxedAutoImplicit false

namespace Itaruby

open Inquiry Act Run

/-! ### What a check tells -/

section Checks

variable {M : Meaning} {scene : Scene} {s : Activation}

theorem Scene.nilGuard_eq_some {narrow : Option Narrow} {nw : Narrow}
    (h : Scene.nilGuard narrow = some nw) :
    narrow = some ⟨nw.var, .nilCheck⟩ ∧ nw.kind = .nilCheckOrGuard := by
  unfold Scene.nilGuard at h
  split at h
  · cases h
    exact ⟨rfl, rfl⟩
  · cases h

/-- The checks that the walk takes something from. -/
theorem Scene.narrowOfCall_eq_some {receiver : Option Expr} {name : String}
    {arguments : List Expr} {nw : Narrow}
    (h : scene.narrowOfCall receiver name arguments = some nw) :
    ∃ loc, receiver = some (.localRead loc nw.var) ∧
      ((name = "nil?" ∧ arguments = [] ∧ nw.kind = .nilCheck) ∨
        ∃ arg path ty, name = "is_a?" ∧ arguments = [arg] ∧ arg.constPath = some path ∧
          scene.narrowTarget path = some ty ∧ nw.kind = .isA ty) := by
  unfold Scene.narrowOfCall at h
  split at h
  · next loc var =>
    split at h
    · cases h
      exact ⟨loc, rfl, Or.inl ⟨rfl, rfl, rfl⟩⟩
    · next arg =>
      simp only [Option.bind_eq_bind, Option.bind_eq_some_iff] at h
      obtain ⟨path, hpath, ty, hty, hnw⟩ := h
      cases hnw
      exact ⟨loc, rfl, Or.inr ⟨arg, path, ty, rfl, rfl, hpath, hty, rfl⟩⟩
    · cases h
  · cases h

theorem mem_nilChecked {e : Expr} {nw : Narrow} (h : scene.narrowOf e = some nw)
    (hkind : nw.kind = .nilCheck ∨ nw.kind = .nilCheckOrGuard) : nw.var ∈ e.nilChecked := by
  induction e using Expr.nilChecked.induct generalizing nw with
  | case1 loc msg readLoc var casts block =>
    cases h
    exact List.mem_singleton.2 rfl
  | case2 left right ihleft ihright =>
    rw [Scene.narrowOf, Option.or_eq_some_iff] at h
    rw [Expr.nilChecked, List.mem_append]
    rcases h with h | ⟨_, h⟩
    · have hmem := ihleft (Scene.nilGuard_eq_some h).1 (Or.inl rfl)
      exact Or.inl hmem
    · have hmem := ihright (Scene.nilGuard_eq_some h).1 (Or.inl rfl)
      exact Or.inr hmem
  | case3 e hcall hor =>
    cases e
    case orNode left right => exact absurd rfl (hor left right)
    case callNode loc msg receiver name arguments casts block =>
      obtain ⟨readLoc, rfl, ⟨rfl, rfl, _⟩ | ⟨arg, path, ty, _, _, _, _, hisA⟩⟩ :=
        Scene.narrowOfCall_eq_some h
      · exact absurd rfl (hcall loc msg readLoc nw.var casts block)
      · rw [hisA] at hkind
        simp at hkind
    case localRead loc name =>
      cases h
      simp at hkind
    all_goals cases h

/-- A check that came out true. -/
theorem holdsTrue_of_tells (hfits : scene.Fits M) {e : Expr} {nw : Narrow}
    (h : scene.narrowOf e = some nw) (htells : e.Tells M true s) :
    nw.HoldsTrue M.inherits (s.value nw.var) := by
  cases e
  case orNode left right =>
    rw [Scene.narrowOf, Option.or_eq_some_iff] at h
    have hkind : nw.kind = .nilCheckOrGuard := by
      rcases h with h | ⟨_, h⟩
      · exact (Scene.nilGuard_eq_some h).2
      · exact (Scene.nilGuard_eq_some h).2
    simp only [Narrow.HoldsTrue, hkind]
  case callNode loc msg receiver name arguments casts block =>
    obtain ⟨readLoc, rfl, ⟨rfl, rfl, hkind⟩ | ⟨arg, path, ty, rfl, rfl, hpath, hty, hkind⟩⟩ :=
      Scene.narrowOfCall_eq_some h
    · simp only [Narrow.HoldsTrue, hkind]
      exact htells.1 rfl
    · simp only [Narrow.HoldsTrue, hkind]
      exact (hfits.isA path ty hty _).1 ((htells path hpath).1 rfl)
  case localRead loc name =>
    cases h
    intro hnil
    change (s.value name).truthy = true at htells
    rw [hnil] at htells
    cases htells
  all_goals cases h

/-- A check that came out false. -/
theorem holdsFalse_of_tells (hfits : scene.Fits M) {e : Expr} {nw : Narrow}
    (h : scene.narrowOf e = some nw) (htells : e.Tells M false s) (hguard : e.GuardHolds false s) :
    nw.HoldsFalse M.inherits (s.value nw.var) := by
  cases hkind : nw.kind with
  | nilCheck =>
    simp only [Narrow.HoldsFalse, hkind]
    exact hguard rfl nw.var (mem_nilChecked h (Or.inl hkind))
  | nilCheckOrGuard =>
    simp only [Narrow.HoldsFalse, hkind]
    exact hguard rfl nw.var (mem_nilChecked h (Or.inr hkind))
  | truthy => simp only [Narrow.HoldsFalse, hkind]
  | isA tested =>
    simp only [Narrow.HoldsFalse, hkind]
    cases e
    case orNode left right =>
      rw [Scene.narrowOf, Option.or_eq_some_iff] at h
      rcases h with h | ⟨_, h⟩
      · rw [(Scene.nilGuard_eq_some h).2] at hkind
        cases hkind
      · rw [(Scene.nilGuard_eq_some h).2] at hkind
        cases hkind
    case callNode loc msg receiver name arguments casts block =>
      obtain ⟨readLoc, rfl, ⟨_, _, hnil⟩ | ⟨arg, path, ty, rfl, rfl, hpath, hty, hisA⟩⟩ :=
        Scene.narrowOfCall_eq_some h
      · rw [hnil] at hkind
        cases hkind
      · rw [hisA] at hkind
        cases hkind
        intro hcovers
        cases (htells path hpath).2 ((hfits.isA path _ hty _).2 hcovers)
    case localRead loc name =>
      cases h
      cases hkind
    all_goals cases h

/-- The environment of a `when` clause. -/
def Env.branchWhen (env : Env) (subject : Option String) (ty : Option Ty) : Env :=
  match subject, ty with
  | some var, some ty => env.insert var ty
  | _, _ => env

theorem forall₂_exists_right {α β : Type} {R : α → β → Prop} {as : List α} {bs : List β}
    (h : List.Forall₂ R as bs) : ∀ a ∈ as, ∃ b ∈ bs, R a b := by
  induction h with
  | nil => exact fun _ ha ↦ absurd ha List.not_mem_nil
  | cons hab _ ih =>
    intro a ha
    rcases List.mem_cons.1 ha with rfl | ha
    · exact ⟨_, List.mem_cons_self, hab⟩
    · obtain ⟨b, hb, hab⟩ := ih a ha
      exact ⟨b, List.mem_cons_of_mem _ hb, hab⟩

/-- The conditions of a clause all name a class, and the clause stands for these. -/
theorem Scene.narrowOfWhen_eq_some {conditions : List Expr} {ty : Ty}
    (h : scene.narrowOfWhen conditions = some ty) :
    ∃ t ts, ty = ts.foldl Ty.join t ∧ List.Forall₂
      (fun c u ↦ ∃ path, c.constPath = some path ∧ scene.narrowTarget path = some u)
      conditions (t :: ts) := by
  have hmapM : ∀ {cs : List Expr} {tys : List Ty},
      (cs.mapM fun c ↦ c.constPath.bind scene.narrowTarget) = some tys → List.Forall₂
        (fun c u ↦ ∃ path, c.constPath = some path ∧ scene.narrowTarget path = some u) cs tys := by
    intro cs
    induction cs with
    | nil =>
      intro tys htys
      cases htys
      exact .nil
    | cons c rest ih =>
      intro tys htys
      simp only [List.mapM_cons, Option.bind_eq_bind, Option.bind_eq_some_iff, Option.pure_def]
        at htys
      obtain ⟨t, ⟨path, hpath, ht⟩, ts, hts, htys⟩ := htys
      cases htys
      exact .cons ⟨path, hpath, ht⟩ (ih hts)
  unfold Scene.narrowOfWhen at h
  simp only [Option.bind_eq_bind, Option.bind_eq_some_iff] at h
  obtain ⟨tys, htys, h⟩ := h
  cases tys with
  | nil => cases h
  | cons t ts => exact ⟨t, ts, (Option.some.inj h).symm, hmapM htys⟩

theorem covers_of_tellsWhen (hfits : scene.Fits M) {var : String} {conditions : List Expr}
    {ty : Ty} (h : scene.narrowOfWhen conditions = some ty)
    (htells : Expr.TellsWhen M (some var) conditions s) : ty.Covers M.inherits (s.value var) := by
  obtain ⟨t, ts, rfl, htargets⟩ := Scene.narrowOfWhen_eq_some h
  obtain ⟨c, hc, path, hpath, hisA⟩ := htells var rfl fun c hc ↦ by
    obtain ⟨u, -, path, hpath, -⟩ := forall₂_exists_right htargets c hc
    rw [hpath]
    rfl
  obtain ⟨u, hu, path', hpath', htarget⟩ := forall₂_exists_right htargets c hc
  cases hpath.symm.trans hpath'
  have hcovers := (hfits.isA path u htarget _).1 hisA
  rcases List.mem_cons.1 hu with rfl | hu
  · exact Ty.covers_foldl_join (Or.inl hcovers)
  · exact Ty.covers_foldl_join (Or.inr ⟨u, hu, hcovers⟩)

end Checks

/-! ### The environments of the branches -/

section Branches

variable {M : Meaning} {account : Account} {scene : Scene} {written : List String}
  {env env₁ : Env} {s s₁ : Activation}

theorem Moves.branchTrue (hfits : scene.Fits M) {e : Expr} (htells : e.Tells M true s₁)
    (h : Moves M account scene written env s env₁ s₁) :
    Moves M account scene written env s (env₁.branchTrue (scene.narrowOf e)) s₁ := by
  refine h.narrow (fun _ ↦ Env.branchTrue_eq_none) fun x hx ↦ ?_
  cases hnarrow : scene.narrowOf e with
  | none => exact hx
  | some nw =>
    refine Env.holds_narrowTrue (fun heq ↦ ?_) hx
    rw [heq]
    exact holdsTrue_of_tells hfits hnarrow htells

theorem Moves.branchFalse (hfits : scene.Fits M) {e : Expr} (htells : e.Tells M false s₁)
    (hguard : e.GuardHolds false s₁) (h : Moves M account scene written env s env₁ s₁) :
    Moves M account scene written env s (env₁.branchFalse (scene.narrowOf e)) s₁ := by
  refine h.narrow (fun _ ↦ Env.branchFalse_eq_none) fun x hx ↦ ?_
  cases hnarrow : scene.narrowOf e with
  | none => exact hx
  | some nw =>
    refine Env.holds_narrowFalse (fun heq ↦ ?_) hx
    rw [heq]
    exact holdsFalse_of_tells hfits hnarrow htells hguard

theorem Moves.branchWhen (hfits : scene.Fits M) {subject : Option String}
    {conditions : List Expr} (htells : Expr.TellsWhen M subject conditions s₁)
    (h : Moves M account scene written env s env₁ s₁) :
    Moves M account scene written env s
      (env₁.branchWhen subject (scene.narrowOfWhen conditions)) s₁ := by
  cases subject with
  | none => exact h
  | some var =>
    cases hty : scene.narrowOfWhen conditions with
    | none => exact h
    | some ty =>
      refine h.narrow (fun _ ↦ Env.insert_eq_none) fun x hx ↦ Env.holds_insert ?_ fun _ ↦ hx
      rintro rfl
      exact covers_of_tellsWhen hfits hty htells

end Branches

/-! ### Branches that leave -/

section Leaving

variable {M : Meaning} {avoids : Hazard → Prop}
  {call : Closure → Activation → Activation → Prop} {s : Activation}

/-- The act comes to no end with a value. -/
def Leaves {α : Type} (act : Run α) (s : Activation) : Prop :=
  act.Meets s (fun _ _ ↦ False) fun _ _ ↦ True

theorem leaves_bind {α β : Type} {act : Run α} {f : α → Run β} (hf : ∀ a s₁, Leaves (f a) s₁) :
    Leaves (act >>= f) s :=
  meets_trivial.bind fun a s₁ _ ↦ hf a s₁

theorem leaves_of_diverges {depth : ℕ} {e : Expr} (h : e.diverges = true) (s : Activation) :
    Leaves (e.exec M avoids call depth) s := by
  cases e
  case returnNode arguments =>
    exact leaves_bind fun _ _ ↦ leaves_bind fun _ _ ↦ meets_leave trivial
  case jump kind inside =>
    exact leaves_bind fun _ _ ↦ leaves_bind fun _ _ ↦ meets_leave trivial
  case callNode loc msg receiver name arguments casts block =>
    cases receiver with
    | none =>
      have hraise : ((none : Option Expr).isNone && (name = "raise" || name = "fail")) = true := h
      refine leaves_bind fun _ _ ↦ leaves_bind fun _ _ ↦ leaves_bind fun _ _ ↦
        leaves_bind fun _ _ ↦ leaves_bind fun _ _ ↦ ?_
      rw [if_pos hraise]
      exact meets_leave trivial
    | some receiver => cases h
  all_goals cases h

theorem leaves_of_stmtsDiverge {depth : ℕ} {statements : List Expr}
    (h : Expr.stmtsDiverge statements = true) (last : Value) (s : Activation) :
    Leaves (Expr.execStmts M avoids call depth last statements) s := by
  induction statements generalizing last s with
  | nil => cases h
  | cons e rest ih =>
    cases rest with
    | nil =>
      exact (leaves_of_diverges h s).bind fun _ _ hfalse ↦ hfalse.elim
    | cons e' rest => exact leaves_bind fun v s₁ ↦ ih h v s₁

end Leaving

end Itaruby
