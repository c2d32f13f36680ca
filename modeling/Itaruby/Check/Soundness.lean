import Itaruby.Check.Settles
import Itaruby.Ruby.Running

/-!
The walk of a body follows its runs: as long as a run avoids the hazards, the environment
covers the locals and every type the walk gives to a read, a write or a value covers it.
-/

set_option autoImplicit false
set_option relaxedAutoImplicit false

namespace Itaruby

open Inquiry Act Run

/-- What is known of the values read from locals, by place, and written to instance variables,
by name. -/
structure Account where
  read : Span → Value → Prop
  store : String → Value → Prop

/-- The answer to a question is right, and what the walk says of a read or a write is part of
the account. -/
def Right (M : Meaning) (account : Account) : Query → Ty → Prop
  | .call site, ty => ∀ v, M.calls site.loc v → ty.Covers M.inherits v
  | .constant path, ty => ∀ v, M.constants path v → ty.Covers M.inherits v
  | .ivar _ name, ty => ∀ v, M.ivars name v → ty.Covers M.inherits v
  | .localRead loc ty, _ => ∀ v, ty.Covers M.inherits v → account.read loc v
  | .ivarWrite name ty, _ => ∀ v, ty.Covers M.inherits v → account.store name v
  | _, _ => True

/-- What a scene takes for granted is so. -/
structure Scene.Fits (scene : Scene) (M : Meaning) : Prop where
  self : scene.selfTy.asTy.Covers M.inherits M.self
  isA : ∀ path ty, scene.narrowTarget path = some ty →
    ∀ v, M.isA path v ↔ ty.Covers M.inherits v

/-! ### Environments along a run -/

section Tracks

variable {inherits : ClassId → ClassId → Prop}

/-- These locals are covered. -/
def Ready (inherits : ClassId → ClassId → Prop) (names : List String) (env : Env)
    (ls : String → Option Value) : Prop :=
  ∀ x ∈ names, env.Holds inherits x (ls x)

/-- From an environment and locals to others: a local is covered afterwards, unless it was not
before and still is what it was. The locals `written` are covered. -/
structure Tracks (inherits : ClassId → ClassId → Prop) (written : List String) (env : Env)
    (ls : String → Option Value) (env' : Env) (ls' : String → Option Value) : Prop where
  grows : ∀ x, env' x = none → env x = none
  holds : ∀ x, env'.Holds inherits x (ls' x) ∨
    (x ∉ written ∧ ¬ env.Holds inherits x (ls x) ∧ ls' x = ls x)

namespace Tracks

variable {written written' : List String} {env env₁ env₂ : Env}
  {ls ls₁ ls₂ : String → Option Value}

theorem refl : Tracks inherits [] env ls env ls := by
  refine ⟨fun _ ↦ id, fun x ↦ ?_⟩
  by_cases h : env.Holds inherits x (ls x)
  · exact Or.inl h
  · exact Or.inr ⟨List.not_mem_nil, h, rfl⟩

theorem trans (h : Tracks inherits written env ls env₁ ls₁)
    (h' : Tracks inherits written' env₁ ls₁ env₂ ls₂) :
    Tracks inherits (written ++ written') env ls env₂ ls₂ := by
  refine ⟨fun x hx ↦ h.grows x (h'.grows x hx), fun x ↦ ?_⟩
  rcases h'.holds x with hx | ⟨hwritten', hnot, heq⟩
  · exact Or.inl hx
  · rcases h.holds x with hx | ⟨hwritten, hnot', heq'⟩
    · exact absurd hx hnot
    · refine Or.inr ⟨?_, hnot', heq.trans heq'⟩
      rw [List.mem_append]
      exact fun hor ↦ hor.elim hwritten hwritten'

theorem mono (h : Tracks inherits written env ls env₁ ls₁) (hsub : written' ⊆ written) :
    Tracks inherits written' env ls env₁ ls₁ :=
  ⟨h.grows, fun x ↦ (h.holds x).imp_right fun hx ↦ ⟨fun hmem ↦ hx.1 (hsub hmem), hx.2⟩⟩

theorem holds_of_holds (h : Tracks inherits written env ls env₁ ls₁) {x : String}
    (hx : env.Holds inherits x (ls x)) : env₁.Holds inherits x (ls₁ x) :=
  (h.holds x).elim id fun hnot ↦ absurd hx hnot.2.1

theorem holds_of_mem (h : Tracks inherits written env ls env₁ ls₁) {x : String}
    (hx : x ∈ written) : env₁.Holds inherits x (ls₁ x) :=
  (h.holds x).elim id fun hnot ↦ absurd hx hnot.1

theorem ready (h : Tracks inherits written env ls env₁ ls₁) {names : List String}
    (hready : Ready inherits (without names written) env ls) :
    Ready inherits names env₁ ls₁ := by
  intro x hx
  by_cases hwritten : x ∈ written
  · exact h.holds_of_mem hwritten
  · exact h.holds_of_holds (hready x (mem_without.2 ⟨hx, hwritten⟩))

/-- The environment alone goes on, to one that covers what this one does. -/
theorem widen (h : Tracks inherits written env ls env₁ ls₁)
    (hsettles : Settles inherits true env₁ env₂) : Tracks inherits written env ls env₂ ls₁ :=
  ⟨fun x hx ↦ h.grows x (hsettles.grows x hx), fun x ↦
    (h.holds x).imp_left fun hx ↦ hsettles.holds rfl x _ hx⟩

/-- The environment alone goes on, to one that covers the locals as they are. -/
theorem narrow (h : Tracks inherits written env ls env₁ ls₁)
    (hgrows : ∀ x, env₂ x = none → env₁ x = none)
    (hholds : ∀ x, env₁.Holds inherits x (ls₁ x) → env₂.Holds inherits x (ls₁ x)) :
    Tracks inherits written env ls env₂ ls₁ :=
  ⟨fun x hx ↦ h.grows x (hgrows x hx), fun x ↦ (h.holds x).imp_left (hholds x)⟩

/-- These locals are bound anew. -/
theorem rebind (h : Tracks inherits written env ls env₁ ls₁) (names : List String)
    (hother : ∀ x ∉ names, ls₂ x = ls₁ x) :
    Tracks inherits (names ++ written) env ls (env₁.insertUnknown names) ls₂ := by
  refine ⟨fun x hx ↦ h.grows x (Env.insertUnknown_eq_none hx), fun x ↦ ?_⟩
  by_cases hx : x ∈ names
  · exact Or.inl (Env.holds_insertUnknown fun hnot ↦ absurd hx hnot)
  · rw [hother x hx]
    refine (h.holds x).imp (fun hholds ↦ Env.holds_insertUnknown fun _ ↦ hholds)
      fun hnot ↦ ⟨?_, hnot.2⟩
    rw [List.mem_append]
    exact fun hor ↦ hor.elim hx hnot.1

theorem insert (h : Tracks inherits written env ls env₁ ls₁) {name : String} {ty : Ty} {v : Value}
    (hv : ty.Covers inherits v) :
    Tracks inherits (name :: written) env ls (env₁.insert name ty)
      (Function.update ls₁ name (some v)) := by
  refine ⟨fun x hx ↦ h.grows x (Env.insert_eq_none hx), fun x ↦ ?_⟩
  by_cases hx : x = name
  · refine Or.inl (Env.holds_insert (fun _ ↦ ?_) fun hne ↦ absurd hx hne)
    rw [hx, Function.update_self]
    exact hv
  · rw [Function.update_of_ne hx]
    refine (h.holds x).imp (fun hholds ↦ Env.holds_insert (fun heq ↦ absurd heq hx) fun _ ↦ hholds)
      fun hnot ↦ ⟨?_, hnot.2⟩
    rw [List.mem_cons]
    exact fun hor ↦ hor.elim hx hnot.1

end Tracks

end Tracks

/-! ### What stays fine -/

section Fine

variable (M : Meaning) (account : Account) (scene : Scene)

/-- The environment knows the locals that are bound. -/
def Names (env : Env) (named : List String) : Prop := ∀ x ∈ named, env x ≠ none

/-- The block was walked from an environment that covered what it reads first. -/
def Closure.Known (c : Closure) : Prop :=
  ∃ env ty env', (Expr.inferOpt scene c.depth c.body (env.addBlockParams c.params)).YieldsBy
      (Right M account) (ty, env') ∧
    (∀ x ∈ c.params.own, x ∉ c.params.names → c.locals x = none) ∧ Names env c.named ∧
    Ready M.inherits (without (Expr.exposedOpt c.body) c.params.names) env c.locals

/-- All that was read and stored is accounted for, and the blocks made were walked. -/
structure Fine (s : Activation) : Prop where
  reads : ∀ p ∈ s.reads, account.read p.1 p.2
  stores : ∀ p ∈ s.stores, account.store p.1 p.2
  pending : ∀ c ∈ s.pending, c.Known M account scene

/-- The environment is right where an expression begins that reads these locals first. -/
structure Begins (names : List String) (env : Env) (s : Activation) : Prop where
  fine : Fine M account scene s
  named : Names env s.named
  ready : Ready M.inherits names env s.locals

/-- From one point to a later one, where the environment is right again. -/
structure Moves (written : List String) (env : Env) (s : Activation) (env' : Env)
    (s' : Activation) : Prop where
  fine : Fine M account scene s'
  named : Names env' s'.named
  tracks : Tracks M.inherits written env s.locals env' s'.locals

end Fine

section Moving

variable {M : Meaning} {account : Account} {scene : Scene} {written written' names : List String}
  {env env₁ env₂ : Env} {s s₁ s₂ : Activation}

theorem Names.grow {named : List String} (h : Names env named)
    (hgrows : ∀ x, env₁ x = none → env x = none) : Names env₁ named :=
  fun x hx hnone ↦ h x hx (hgrows x hnone)

theorem Names.insert {name : String} {ty : Ty} {named : List String} (h : Names env named) :
    Names (env.insert name ty) (name :: named) := by
  intro x hx hnone
  rcases List.mem_cons.1 hx with rfl | hx
  · rw [Env.insert_self] at hnone
    cases hnone
  · exact h x hx (Env.insert_eq_none hnone)

namespace Begins

theorem mono {names' : List String} (h : Begins M account scene names env s)
    (hsub : names' ⊆ names) : Begins M account scene names' env s :=
  ⟨h.fine, h.named, fun x hx ↦ h.ready x (hsub hx)⟩

theorem moves (h : Begins M account scene names env s) : Moves M account scene [] env s env s :=
  ⟨h.fine, h.named, .refl⟩

end Begins

theorem Names.rebind {names named : List String} (h : Names env named) :
    Names (env.insertUnknown names) (names ++ named) := by
  intro x hx hnone
  by_cases hmem : x ∈ names
  · rw [Env.insertUnknown_of_mem hmem] at hnone
    cases hnone
  · rw [Env.insertUnknown_of_notMem hmem] at hnone
    exact h x ((List.mem_append.1 hx).resolve_left hmem) hnone

namespace Moves

theorem trans (h : Moves M account scene written env s env₁ s₁)
    (h' : Moves M account scene written' env₁ s₁ env₂ s₂) :
    Moves M account scene (written ++ written') env s env₂ s₂ :=
  ⟨h'.fine, h'.named, h.tracks.trans h'.tracks⟩

theorem mono (h : Moves M account scene written env s env₁ s₁) (hsub : written' ⊆ written) :
    Moves M account scene written' env s env₁ s₁ :=
  ⟨h.fine, h.named, h.tracks.mono hsub⟩

theorem nothing (h : Moves M account scene written env s env₁ s₁) :
    Moves M account scene [] env s env₁ s₁ :=
  h.mono (List.nil_subset _)

/-- A step after which nothing more is sure to be written. -/
theorem andThen (h : Moves M account scene written env s env₁ s₁)
    (h' : Moves M account scene written' env₁ s₁ env₂ s₂) :
    Moves M account scene written env s env₂ s₂ :=
  (h.trans h').mono (List.subset_append_left _ _)

theorem widen (h : Moves M account scene written env s env₁ s₁)
    (hsettles : Settles M.inherits true env₁ env₂) :
    Moves M account scene written env s env₂ s₁ :=
  ⟨h.fine, h.named.grow hsettles.grows, h.tracks.widen hsettles⟩

theorem narrow (h : Moves M account scene written env s env₁ s₁)
    (hgrows : ∀ x, env₂ x = none → env₁ x = none)
    (hholds : ∀ x, env₁.Holds M.inherits x (s₁.locals x) →
      env₂.Holds M.inherits x (s₁.locals x)) :
    Moves M account scene written env s env₂ s₁ :=
  ⟨h.fine, h.named.grow hgrows, h.tracks.narrow hgrows hholds⟩

theorem insert (h : Moves M account scene written env s env₁ s₁) {name : String} {ty : Ty}
    {v : Value} (hv : ty.Covers M.inherits v) :
    Moves M account scene (name :: written) env s (env₁.insert name ty)
      { s₁ with locals := Function.update s₁.locals name (some v), named := name :: s₁.named } :=
  ⟨⟨h.fine.reads, h.fine.stores, h.fine.pending⟩, h.named.insert, h.tracks.insert hv⟩

/-- Locals get values that the walk knows nothing about, and takes for unknown. -/
theorem rebind (h : Moves M account scene written env s env₁ s₁) {names names' : List String}
    {ls : String → Option Value} (hsub : names ⊆ names')
    (hother : ∀ x ∉ names, ls x = s₁.locals x) :
    Moves M account scene (names' ++ written) env s (env₁.insertUnknown names')
      { s₁ with locals := ls, named := names ++ s₁.named } := by
  refine ⟨⟨h.fine.reads, h.fine.stores, h.fine.pending⟩, fun x hx ↦ ?_, ?_⟩
  · exact h.named.rebind x (List.mem_append.2 ((List.mem_append.1 hx).imp_left fun hmem ↦ hsub hmem))
  · exact h.tracks.rebind names' fun x hx ↦ hother x fun hmem ↦ hx (hsub hmem)

/-- The walk alone takes a local for bound. -/
theorem insertUnknown (h : Moves M account scene written env s env₁ s₁) (name : String) :
    Moves M account scene (name :: written) env s (env₁.insert name .unknown) s₁ :=
  ⟨h.fine, h.named.grow fun _ ↦ Env.insert_eq_none, h.tracks.rebind [name] fun _ _ ↦ rfl⟩

/-- Where the path of one branch meets the others. -/
theorem join {base : Env} {branches : List Env} (h : Moves M account scene written env s env₁ s₁)
    (hmem : env₁ ∈ branches) (hbase : ∀ x, env₁ x = none → base.Holds M.inherits x none) :
    Moves M account scene written env s (base.join branches) s₁ := by
  have hgrows : ∀ x, base.join branches x = none → env₁ x = none := fun x hx ↦
    (Env.join_eq_none hx).2 env₁ hmem
  exact h.narrow hgrows fun x hx ↦ Env.holds_join hmem (hbase x) hx

/-- A step that leaves the locals as they are. -/
theorem still (h : Moves M account scene written env s env₁ s₁) (hfine : Fine M account scene s₂)
    (hlocals : s₂.locals = s₁.locals) (hnamed : s₂.named = s₁.named) :
    Moves M account scene written env s env₁ s₂ :=
  ⟨hfine, hnamed ▸ h.named, hlocals ▸ h.tracks⟩

theorem begins (h : Moves M account scene written env s env₁ s₁)
    (hready : Ready M.inherits (without names written) env s.locals) :
    Begins M account scene names env₁ s₁ :=
  ⟨h.fine, h.named, h.tracks.ready hready⟩

/-- What is read first later on was covered before. -/
theorem begins_of_subset {names' : List String} (h : Moves M account scene written env s env₁ s₁)
    (hbegins : Begins M account scene names env s) (hsub : without names' written ⊆ names) :
    Begins M account scene names' env₁ s₁ :=
  h.begins fun x hx ↦ hbegins.ready x (hsub hx)

end Moves

end Moving

/-! ### Acts that the walk does not look at -/

/-- The run avoids the hazards, what is known of stores that are hazards is nothing, and blocks
called later do no harm. -/
structure Sound (M : Meaning) (account : Account) (scene : Scene) (avoids : Hazard → Prop)
    (call : Closure → Activation → Activation → Prop) : Prop where
  fits : scene.Fits M
  hazards : ∀ hazard, (∀ name, hazard ≠ .store name) → avoids hazard
  stores : ∀ name, ¬ avoids (.store name) → ∀ v, account.store name v
  call : ∀ c, c.Known M account scene → ∀ s s', Fine M account scene s → call c s s' →
    Fine M account scene s' ∧ s'.locals = s.locals ∧ s'.named = s.named

section Acts

variable {M : Meaning} {account : Account} {scene : Scene} {avoids : Hazard → Prop}
  {call : Closure → Activation → Activation → Prop} {names : List String} {env : Env}
  {s : Activation}

/-- The act keeps all fine, and the locals as they are. -/
def Still (M : Meaning) (account : Account) (scene : Scene) {α : Type} (act : Run α)
    (s : Activation) : Prop :=
  act.Meets s (fun _ s' ↦ Fine M account scene s' ∧ s'.locals = s.locals ∧ s'.named = s.named)
    fun _ s' ↦ Fine M account scene s'

theorem still_called (h : Sound M account scene avoids call) (hs : Fine M account scene s) :
    Still M account scene (Expr.called call) s := by
  refine meets_change_bind fun s' hcalls ↦ ?_
  have hs' : Fine M account scene s' ∧ s'.locals = s.locals ∧ s'.named = s.named := by
    induction hcalls with
    | refl => exact ⟨hs, rfl, rfl⟩
    | tail _ hcall ih =>
      obtain ⟨c, hc, hcall⟩ := hcall
      obtain ⟨hfine, hlocals, hnamed⟩ := h.call c (ih.1.pending c hc) _ _ ih.1 hcall
      exact ⟨hfine, hlocals.trans ih.2.1, hnamed.trans ih.2.2⟩
  exact Meets.either (meets_pure hs') (meets_leave hs'.1)

theorem aside_reads (act : Run Unit) :
    (aside act).Meets s (fun _ s' ↦ s'.named = s.named ∧ s'.reads = s.reads)
      fun _ s' ↦ s'.named = s.named ∧ s'.reads = s.reads := by
  refine (meets_pure ⟨rfl, rfl⟩).either ?_
  have hrest : ∀ (e : Ending Leave Unit) (s₁ : Activation),
      (do
        .change fun s₁ s' ↦ s' = { s₁ with named := s.named, reads := s.reads }
        .resume e : Run Unit).Meets s₁ (fun _ s' ↦ s'.named = s.named ∧ s'.reads = s.reads)
        fun _ s' ↦ s'.named = s.named ∧ s'.reads = s.reads := by
    intro e s₁
    refine meets_change_bind fun s' hs' ↦ ?_
    subst hs'
    exact meets_resume (fun _ _ ↦ ⟨rfl, rfl⟩) fun _ _ ↦ ⟨rfl, rfl⟩
  exact meets_here_bind <| meets_trivial.attempt_bind (fun a s₁ _ ↦ hrest (.value a) s₁)
    fun how s₁ _ ↦ hrest (.leaves how) s₁

/-- A part that is run aside and then found not to be a hazard. -/
theorem meets_unread (h : Sound M account scene avoids call) (hs : Fine M account scene s)
    (act : Run Unit) : Still M account scene (unread avoids act) s := by
  have hfine : ∀ s', (s'.named = s.named ∧ s'.reads = s.reads) → OldStores avoids s s' →
      (avoids .unread → s'.locals = s.locals ∧ s'.pending = s.pending) →
      Fine M account scene s' ∧ s'.locals = s.locals ∧ s'.named = s.named := by
    intro s' hread hstores hunread
    obtain ⟨hlocals, hpending⟩ := hunread (h.hazards _ fun _ ↦ nofun)
    refine ⟨⟨hread.2 ▸ hs.reads, fun p hp ↦ ?_, hpending ▸ hs.pending⟩, hlocals, hread.1⟩
    by_cases hstore : avoids (.store p.1)
    · exact hs.stores p (hstores p.1 hstore p.2 hp)
    · exact h.stores p.1 hstore p.2
  exact Meets.watched <| Meets.watched <| (aside_reads act).mono
    (fun _ _ ↦ hfine _)
    fun _ s' hread hstores hunread ↦ (hfine s' hread hstores hunread).1

theorem meets_careful_bind {α : Type} (hazard : Hazard) {P : Activation → Prop} {f : Unit → Run α}
    {post : α → Activation → Prop} {out : Leave → Activation → Prop}
    (h : Sound M account scene avoids call) (hhazard : ∀ name, hazard ≠ .store name)
    (hf : P s → (f ()).Meets s post out) : (careful avoids hazard P >>= f).Meets s post out :=
  meets_check_bind fun hP ↦ hf (hP (h.hazards hazard hhazard))

end Acts

/-! ### Steps of both -/

section Steps

variable {M : Meaning} {account : Account} {scene : Scene} {avoids : Hazard → Prop}
  {call : Closure → Activation → Activation → Prop} {α β : Type} {s : Activation}
  {post : α → β → Activation → Prop} {out : Leave → Activation → Prop}

theorem follows_careful (hazard : Hazard) {P : Activation → Prop} {w : Walk α} {act : Run β}
    (h : Sound M account scene avoids call) (hhazard : ∀ name, hazard ≠ .store name)
    (hact : P s → w.Follows (Right M account) act s post out) :
    w.Follows (Right M account) (careful avoids hazard P >>= fun _ ↦ act) s post out :=
  fun a ha ↦ meets_careful_bind hazard h hhazard fun hP ↦ hact hP a ha

theorem follows_guarded {depth : ℕ} {env : Env} {w : Walk (Ty × Env)} {act : Run β}
    {post : Ty × Env → β → Activation → Prop} (h : Sound M account scene avoids call)
    (hact : w.Follows (Right M account) act s post out) :
    (guarded depth env w).Follows (Right M account)
      (careful avoids .deep (fun _ ↦ depth ≤ 200) >>= fun _ ↦ act) s post out := by
  refine follows_careful .deep h (fun _ ↦ nofun) fun hdepth ↦ ?_
  rw [guarded, if_neg (by omega)]
  exact hact

end Steps

/-! ### Passes and blocks -/

section Passes

variable {M : Meaning} {account : Account} {scene : Scene} {avoids : Hazard → Prop}
  {call : Closure → Activation → Activation → Prop} {written written' reads : List String}
  {env env₁ env₂ merged : Env} {s s₁ s₂ : Activation}

/-- What a pass did, seen from the environment that the passes are merged into. -/
theorem Tracks.merge {ls ls₁ ls₂ : String → Option Value}
    (h : Tracks M.inherits written env ls merged ls₁)
    (hpass : Tracks M.inherits written' env₁ ls₁ env₂ ls₂)
    (hmerged : ∀ x v, env₂.Holds M.inherits x v → merged.Holds M.inherits x v) :
    Tracks M.inherits written env ls merged ls₂ := by
  refine ⟨h.grows, fun x ↦ ?_⟩
  rcases hpass.holds x with hx | ⟨_, _, hsame⟩
  · exact Or.inl (hmerged x _ hx)
  · rw [hsame]
    exact h.holds x

theorem Fine.forget {named : List String} (h : Fine M account scene s) :
    Fine M account scene { s with named } :=
  ⟨h.reads, h.stores, h.pending⟩

/-- A pass that leaves early has changed nothing. -/
theorem meets_pass {body : Run Value} {inv post : Activation → Prop}
    (h : Sound M account scene avoids call)
    (hbody : body.Meets s (fun _ s' ↦ inv s') fun _ s' ↦ Fine M account scene s')
    (hsame : ∀ s', Fine M account scene s' → s'.locals = s.locals → s'.named = s.named →
      inv s' ∧ post s') :
    (pass avoids body).Meets s (fun more s' ↦ if more then inv s' else post s')
      fun _ s' ↦ Fine M account scene s' := by
  have hearly : ∀ s' more, Fine M account scene s' →
      (do
        careful avoids .leftEarly fun s' ↦ s'.locals = s.locals
        forget s.named
        pure more : Run Bool).Meets s' (fun more s' ↦ if more then inv s' else post s')
        fun _ s' ↦ Fine M account scene s' := by
    intro s' more hs'
    refine meets_careful_bind .leftEarly h (fun _ ↦ nofun) fun hlocals ↦ ?_
    refine meets_change_bind fun t ht ↦ meets_pure ?_
    subst ht
    have ht := hsame { s' with named := s.named } hs'.forget hlocals rfl
    cases more with
    | true => exact ht.1
    | false => exact ht.2
  refine meets_here_bind <| hbody.attempt_bind (fun v s' hinv ↦ meets_pure (if_pos rfl ▸ hinv))
    fun how s' hs' ↦ ?_
  cases how with
  | nexts => exact hearly s' true hs'
  | breaks => exact hearly s' false hs'
  | returns => exact meets_leave hs'
  | raises => exact meets_leave hs'
  | other => exact meets_leave hs'

/-- The passes of a loop whose condition and body were walked once. -/
theorem meets_loop {pred body : Run Value} {bodyReads : List String}
    (h : Sound M account scene avoids call)
    (hpred : ∀ c, Begins M account scene reads env c →
      pred.Meets c (fun _ ↦ Moves M account scene written env c env₁) fun _ ↦ Fine M account scene)
    (hbody : ∀ c, Begins M account scene bodyReads env₁ c →
      body.Meets c (fun _ ↦ Moves M account scene [] env₁ c env₂)
        fun _ ↦ Fine M account scene)
    (hs : Begins M account scene (reads ++ without bodyReads written) env s) :
    Meets (.Passes do
      forget s.named
      careful avoids .repeated (Unchanged (reads ++ without bodyReads written) s.locals)
      let _ ← pred
      .either (pure false) (pass avoids body)) s
      (fun _ ↦ Moves M account scene written env s (env₁.mergeLoop env₂))
      fun _ ↦ Fine M account scene := by
  -- before a pass, the locals are what they were or what the merged environment covers
  refine meets_passes (fun c ↦ Fine M account scene c ∧ (c.locals = s.locals ∨
    Tracks M.inherits written env s.locals (env₁.mergeLoop env₂) c.locals)) ?_
    ⟨hs.fine, Or.inl rfl⟩
  rintro c ⟨hfine, hlocals⟩
  refine meets_change_bind fun c₁ hc₁ ↦
    meets_careful_bind .repeated h (fun _ ↦ nofun) fun hsame ↦ ?_
  subst hc₁
  have hbegins : Begins M account scene (reads ++ without bodyReads written) env
      { c with named := s.named } := by
    refine ⟨hfine.forget, hs.named, fun x hx ↦ ?_⟩
    have hvalue : c.locals x = s.locals x := hsame x hx
    rw [hvalue]
    exact hs.ready x hx
  refine (hpred _ (hbegins.mono (List.subset_append_left _ _))).bind fun _ c₂ hmoves ↦ ?_
  have hmerge : Settles M.inherits true env₁ (env₁.mergeLoop env₂) := .mergeLoop
  have htracks : Tracks M.inherits written env s.locals (env₁.mergeLoop env₂) c₂.locals := by
    rcases hlocals with hlocals | hlocals
    · rw [← hlocals]
      exact hmoves.tracks.widen hmerge
    · exact hlocals.merge hmoves.tracks (hmerge.holds rfl)
  have hfinish : Moves M account scene written env s (env₁.mergeLoop env₂) c₂ :=
    ⟨hmoves.fine, hmoves.named.grow hmerge.grows, htracks⟩
  refine Meets.either (meets_pure hfinish) (meets_pass h ?_ fun c₃ hfine₃ hlocals₃ hnamed₃ ↦ ?_)
  · refine (hbody c₂ (hmoves.begins_of_subset hbegins (List.subset_append_right _ _))).mono
      (fun _ c₃ hmoves₃ ↦ ⟨hmoves₃.fine, Or.inr ?_⟩) fun _ _ hfine₃ ↦ hfine₃
    exact htracks.merge hmoves₃.tracks fun x v ↦ Env.holds_mergeLoop_body (hmoves₃.tracks.grows x)
  · exact ⟨⟨hfine₃, Or.inr (hlocals₃ ▸ htracks)⟩, hfinish.still hfine₃ hlocals₃ hnamed₃⟩

/-- The passes of a `for` loop whose index binds nothing. -/
theorem meets_for {names : List String} {body : Run Value} (h : Sound M account scene avoids call)
    (hbody : ∀ c, Begins M account scene reads env c →
      body.Meets c (fun _ ↦ Moves M account scene [] env c env₁) fun _ ↦ Fine M account scene)
    (hs : Begins M account scene reads env s) :
    Meets (.Passes do
      .either (pure false) do
        forget s.named
        rebind names
        careful avoids .unnamed fun _ ↦ names = []
        careful avoids .repeated (Unchanged reads s.locals)
        pass avoids body) s
      (fun _ ↦ Moves M account scene [] env s (env.mergeLoop env₁)) fun _ ↦ Fine M account scene := by
  have hmerge : Settles M.inherits true env (env.mergeLoop env₁) := .mergeLoop
  refine meets_passes (Moves M account scene [] env s (env.mergeLoop env₁)) ?_
    (hs.moves.widen hmerge)
  intro c hc
  refine Meets.either (meets_pure hc) <| meets_change_bind fun c₁ hc₁ ↦
    meets_change_bind fun c₂ hc₂ ↦ meets_careful_bind .unnamed h (fun _ ↦ nofun) fun hnames ↦
      meets_careful_bind .repeated h (fun _ ↦ nofun) fun hsame ↦ ?_
  subst hc₁ hnames
  obtain ⟨ls, _, hother, rfl⟩ := hc₂
  have hls : ls = c.locals := funext fun x ↦ hother x List.not_mem_nil
  subst hls
  have hbegins : Begins M account scene reads env { c with named := [] ++ s.named } := by
    refine ⟨hc.fine.forget, hs.named, fun x hx ↦ ?_⟩
    have hvalue : c.locals x = s.locals x := hsame x hx
    rw [hvalue]
    exact hs.ready x hx
  refine meets_pass h ?_ fun c₃ hfine₃ hlocals₃ hnamed₃ ↦ ?_
  · refine (hbody _ hbegins).mono (fun _ c₃ hmoves ↦ ⟨hmoves.fine, ?_, ?_⟩) fun _ _ hfine ↦ hfine
    · exact hmoves.named.grow fun x hx ↦ (Env.mergeLoop_eq_none hx).2
    · exact hc.tracks.merge hmoves.tracks fun x v ↦
        Env.holds_mergeLoop_body (hmoves.tracks.grows x)
  · have hstill : Moves M account scene [] env s (env.mergeLoop env₁) c₃ :=
      ⟨hfine₃, hnamed₃ ▸ hs.named.grow hmerge.grows, hlocals₃ ▸ hc.tracks⟩
    exact ⟨hstill, hstill⟩

theorem BlockParams.added_subset_names (params : BlockParams) : params.added ⊆ params.names := by
  have hdirect : ∀ targets : List Target,
      targets.filterMap Target.directName ⊆ Target.namesAll targets := by
    intro targets x hx
    induction targets with
    | nil => cases hx
    | cons target rest ih =>
      rw [Target.namesAll, List.mem_append]
      cases target with
      | localVar name =>
        have hcons : x ∈ name :: rest.filterMap Target.directName := hx
        exact (List.mem_cons.1 hcons).imp (fun heq ↦ List.mem_singleton.2 heq) ih
      | ivar => exact Or.inr (ih hx)
      | splat => exact Or.inr (ih hx)
      | multi => exact Or.inr (ih hx)
      | other => exact Or.inr (ih hx)
  intro x hx
  simp only [added, names, List.mem_append] at hx ⊢
  rcases hx with (((h | h) | h) | h) | h
  · simp [hdirect params.requireds h]
  · simp [h]
  · simp [h]
  · simp [h]
  · simp [h]

/-- The body of a block runs from the environment that it was walked from. -/
theorem meets_inBlock {params : BlockParams} {body : Run Value} (aside : Run Unit) {ty : Ty}
    {ls : String → Option Value} (h : Sound M account scene avoids call)
    (hbody : ∀ s₁, Begins M account scene reads (env.addBlockParams params) s₁ →
      body.Meets s₁ (fun v s' ↦ ty.Covers M.inherits v ∧
        Moves M account scene written (env.addBlockParams params) s₁ env₂ s')
        fun _ s' ↦ Fine M account scene s')
    (hscoped : ∀ x ∈ params.own, x ∉ params.names → ls x = none)
    (hready : Ready M.inherits (without reads params.names) env ls) (hs : Fine M account scene s)
    (hnamed : Names env s.named) (hsame : Unchanged (without reads params.names) ls s) :
    (inBlock avoids params do
      unread avoids aside
      body).Meets s
      (fun _ s' ↦ Fine M account scene s' ∧ s'.named = s.named ∧
        (∀ x, env₂ x = none → env x = none) ∧
        ∀ x, s'.locals x = s.locals x ∨ env₂.Holds M.inherits x (s'.locals x))
      fun _ s' ↦ Fine M account scene s' := by
  refine meets_here_bind <| meets_careful_bind .unnamed h (fun _ ↦ nofun) fun hadded ↦
    meets_change_bind fun s₁ hs₁ ↦ ?_
  obtain ⟨ls', henters, rfl⟩ := hs₁
  -- the parameters have types, and what else is read is what it was when the block was made
  have hentry : Begins M account scene reads (env.addBlockParams params)
      { s with locals := ls' } := by
    refine ⟨⟨hs.reads, hs.stores, hs.pending⟩,
      hnamed.grow fun x hx ↦ Env.insertUnknown_eq_none hx, fun x hx ↦ ?_⟩
    by_cases hparam : x ∈ params.names
    · exact Env.holds_insertUnknown fun hx' ↦ absurd (hadded hparam) hx'
    · have hmem : x ∈ without reads params.names := mem_without.2 ⟨hx, hparam⟩
      have hvalue : ls' x = ls x := by
        rw [(henters x).2 hparam]
        split_ifs with hown
        · exact (hscoped x hown hparam).symm
        · exact hsame x hmem
      refine Env.holds_insertUnknown fun _ ↦ ?_
      change env.Holds M.inherits x (ls' x)
      rw [hvalue]
      exact hready x hmem
  have hrun : (do
      unread avoids aside
      body : Run Value).Meets { s with locals := ls' } (fun _ s' ↦
        Moves M account scene written (env.addBlockParams params) { s with locals := ls' } env₂ s')
        fun _ s' ↦ Fine M account scene s' := by
    refine (meets_unread h hentry.fine aside).bind fun _ s₁ hs₁ ↦ ?_
    have hbegins : Begins M account scene reads (env.addBlockParams params) s₁ :=
      ⟨hs₁.1, hs₁.2.2 ▸ hentry.named, hs₁.2.1 ▸ hentry.ready⟩
    refine (hbody s₁ hbegins).mono (fun v s' hmoves ↦ ⟨hmoves.2.fine, hmoves.2.named, ?_⟩)
      fun _ _ hfine ↦ hfine
    have htracks := hmoves.2.tracks
    rw [hs₁.2.1] at htracks
    exact htracks
  refine hrun.attempt_bind (fun v s₂ hmoves ↦ ?_) fun how s₂ hfine ↦ ?_
  · refine meets_change_bind fun s₃ hs₃ ↦ meets_pure ?_
    subst hs₃
    refine ⟨⟨hmoves.fine.reads, hmoves.fine.stores, hmoves.fine.pending⟩, rfl, fun x hx ↦
      Env.insertUnknown_eq_none (hmoves.tracks.grows x hx), fun x ↦ ?_⟩
    by_cases hown : x ∈ params.names ∨ x ∈ params.own
    · exact Or.inl (if_pos hown)
    · simp only [if_neg hown]
      rw [not_or] at hown
      rcases hmoves.tracks.holds x with hx | ⟨_, _, hx⟩
      · exact Or.inr hx
      · left
        rw [hx]
        exact ((henters x).2 hown.1).trans (if_neg hown.2)
  · refine meets_change_bind fun s₃ hs₃ ↦ meets_leave ?_
    subst hs₃
    exact ⟨hfine.reads, hfine.stores, hfine.pending⟩

/-- The passes of the block of a call, walked once. -/
theorem meets_blockPasses {params : BlockParams} {body : Run Value} {aside : Run Unit} {ty : Ty}
    (h : Sound M account scene avoids call)
    (hbody : ∀ s₁, Begins M account scene reads (env.addBlockParams params) s₁ →
      body.Meets s₁ (fun v s' ↦ ty.Covers M.inherits v ∧
        Moves M account scene written (env.addBlockParams params) s₁ env₂ s')
        fun _ s' ↦ Fine M account scene s')
    (hscoped : ∀ x ∈ params.own, x ∉ params.names → s.locals x = none)
    (hs : Begins M account scene (without reads params.names) env s) {locals : String → Option Value}
    (hmoves : Moves M account scene [] env s (env.spillBlockWrites env₂) s₁)
    (hnamed : s₁.named = s.named) (hlocals : locals = s.locals) :
    Meets (.Passes <| .either (pure false) do
      careful avoids .repeated (Unchanged (without reads params.names) locals)
      pass avoids <| carefully avoids .undefined OnlyNamed <| inBlock avoids params do
        unread avoids aside
        body) s₁
      (fun _ c ↦ Moves M account scene [] env s (env.spillBlockWrites env₂) c ∧
        c.named = s.named)
      fun _ ↦ Fine M account scene := by
  subst hlocals
  refine meets_passes (fun c ↦ Moves M account scene [] env s (env.spillBlockWrites env₂) c ∧
    c.named = s.named) ?_ ⟨hmoves, hnamed⟩
  rintro c ⟨hc, hnamed⟩
  refine Meets.either (meets_pure ⟨hc, hnamed⟩) <|
    meets_careful_bind .repeated h (fun _ ↦ nofun) fun hsame ↦
      meets_pass h ?_ fun c₃ hfine₃ hlocals₃ hnamed₃ ↦ ?_
  · have hrun := meets_inBlock aside h hbody hscoped hs.ready hc.fine
      (hnamed ▸ hs.named) hsame
    refine Meets.watched (hrun.mono ?_ fun _ _ hfine _ ↦ hfine)
    rintro _ c₁ ⟨hfine, hnamed₁, hgrows, hlocals⟩ honly
    have hspill : Settles M.inherits true env (env.spillBlockWrites env₂) := .spill
    refine ⟨⟨hfine, ?_, hspill.grows, fun x ↦ ?_⟩, hnamed₁.trans hnamed⟩
    · rw [hnamed₁, hnamed]
      exact hs.named.grow hspill.grows
    · -- a local that the block changes was bound before, so the walk knows it
      rcases honly (h.hazards _ fun _ ↦ nofun) x with hx | hx
      · rw [hx]
        exact hc.tracks.holds x
      · rcases hlocals x with hx' | hx'
        · rw [hx']
          exact hc.tracks.holds x
        · refine Or.inl (Env.holds_spill_block (hgrows x) (fun hnone ↦ ?_) hx')
          exact absurd hnone (hs.named x (hnamed ▸ hx))
  · have hstill := hc.still hfine₃ hlocals₃ hnamed₃
    exact ⟨⟨hstill, hnamed₃.trans hnamed⟩, ⟨hstill, hnamed₃.trans hnamed⟩⟩

end Passes

end Itaruby
