import Itaruby.Check.Following

/-!
What the walk of a body says of its locals, against every run of the body: the environment
after it, the types of the reads on the way, and the locals that are bound anew.
-/

set_option autoImplicit false
set_option relaxedAutoImplicit false

namespace Itaruby

open Inquiry Act Run

/-- The hazards of locals. -/
def Hazard.ofLocals (hazard : Hazard) : Prop := ∀ name, hazard ≠ .store name

/-- The answers to the questions of a walk are right, and the reads it types are shown so. -/
def Answers (M : Meaning) (shown : Span → Ty → Prop) : Query → Ty → Prop
  | .call site, ty => ∀ v, M.calls site.loc v → ty.Covers M.inherits v
  | .constant path, ty => ∀ v, M.constants path v → ty.Covers M.inherits v
  | .ivar _ name, ty => ∀ v, M.ivars name v → ty.Covers M.inherits v
  | .localRead loc ty, _ => shown loc ty
  | _, _ => True

/-- A read is accounted for by a type shown at its place. -/
def Account.ofShown (M : Meaning) (shown : Span → Ty → Prop) : Account where
  read loc v := ∃ ty, shown loc ty ∧ ty.Covers M.inherits v
  store _ _ := True

section Runs

variable {M : Meaning} {account : Account} {scene : Scene} {avoids : Hazard → Prop}
  {shown : Span → Ty → Prop} {env : Env} {s : Activation}

theorem right_of_answers {q : Query} {ty : Ty} (h : Answers M shown q ty) :
    Right M (Account.ofShown M shown) q ty := by
  cases q
  case localRead loc ty => exact fun v hv ↦ ⟨ty, h, hv⟩
  case ivarWrite => exact fun _ _ ↦ trivial
  all_goals exact h

/-- Blocks called later do no harm. -/
theorem sound_call (hfits : scene.Fits M)
    (hhazards : ∀ hazard, (∀ name, hazard ≠ .store name) → avoids hazard)
    (hstores : ∀ name, ¬ avoids (.store name) → ∀ v, account.store name v) (n : ℕ) :
    Sound M account scene avoids (Closure.call M avoids n) := by
  induction n with
  | zero => exact ⟨hfits, hhazards, hstores, fun _ _ _ _ _ h ↦ h.elim⟩
  | succ n ih =>
    refine ⟨hfits, hhazards, hstores, fun c hc s s' hs hcall ↦ ?_⟩
    obtain ⟨env, ty, env', hwalk, hscoped, hnamed, hready⟩ := hc
    obtain ⟨hdeferred, e, s₁, hrun, rfl⟩ := hcall
    obtain ⟨hlocals, hsame⟩ := hdeferred (hhazards _ fun _ ↦ nofun)
    have hbody : ∀ s₁, Begins M account scene (Expr.exposedOpt c.body)
        (env.addBlockParams c.params) s₁ →
        (Expr.execOpt M avoids (Closure.call M avoids n) c.depth c.body).Meets s₁
          (fun v s' ↦ ty.Covers M.inherits v ∧ Moves M account scene (Expr.definiteOpt c.body)
            (env.addBlockParams c.params) s₁ env' s') fun _ s' ↦ Fine M account scene s' :=
      fun s₁ hs₁ ↦ Expr.inferOpt_follows ih c.depth _ s₁ c.body hs₁ _ hwalk
    have hmeets := meets_inBlock (Expr.execUnread M avoids (Closure.call M avoids n) c.depth
      c.defaults) ih hbody hscoped hready (s := { s with named := c.named }) hs.forget hnamed hsame
    have hfine : Fine M account scene s₁ := by
      cases e with
      | value v => exact (hmeets.1 v s₁ hrun).1
      | leaves how => exact hmeets.2 how s₁ hrun
    exact ⟨hfine.forget, hlocals, rfl⟩

theorem sound_ofLocals (hfits : scene.Fits M) (n : ℕ) :
    Sound M (Account.ofShown M shown) scene Hazard.ofLocals
      (Closure.call M Hazard.ofLocals n) :=
  sound_call hfits (fun _ ↦ id) (fun _ _ _ ↦ trivial) n

/-- A body before it runs: what it reads before it writes has the types that the walk starts
from. -/
structure Activation.Starts (M : Meaning) (names : List String) (env : Env) (s : Activation) :
    Prop where
  ready : Ready M.inherits names env s.locals
  named : ∀ x ∈ s.named, env x ≠ none
  pending : s.pending = []
  reads : s.reads = []

theorem Activation.Starts.begins {names : List String} (h : s.Starts M names env) :
    Begins M (Account.ofShown M shown) scene names env s where
  fine := by
    refine ⟨fun p hp ↦ ?_, fun _ _ ↦ trivial, fun c hc ↦ ?_⟩
    · rw [h.reads] at hp
      cases hp
    · rw [h.pending] at hc
      cases hc
  named := h.named
  ready := h.ready

theorem carries_of_runs (hfits : scene.Fits M) {depth : ℕ} {e : Expr} {r : Ty × Env}
    (hs : s.Starts M e.exposed env)
    (hwalk : (e.infer scene depth env).YieldsBy (Answers M shown) r) {v : Value}
    {s' : Activation} (hrun : e.Runs M Hazard.ofLocals depth s (.value v) s') :
    Carries M (Account.ofShown M shown) scene e.definite env s r v s' := by
  obtain ⟨n, hrun⟩ := hrun
  exact (Expr.infer_follows (sound_ofLocals hfits n) depth env s e hs.begins r
    (hwalk.mono fun _ _ ↦ right_of_answers)).1 v s' hrun

theorem reads_of_fine (h : Fine M (Account.ofShown M shown) scene s) {loc : Span} {v : Value}
    (hread : (loc, v) ∈ s.reads) : ∃ ty, shown loc ty ∧ ty.Covers M.inherits v :=
  h.reads (loc, v) hread

theorem fine_of_runs (hfits : scene.Fits M) {depth : ℕ} {e : Expr} {r : Ty × Env}
    (hs : s.Starts M e.exposed env)
    (hwalk : (e.infer scene depth env).YieldsBy (Answers M shown) r) {ending : Ending Leave Value}
    {s' : Activation} (hrun : e.Runs M Hazard.ofLocals depth s ending s') :
    Fine M (Account.ofShown M shown) scene s' := by
  obtain ⟨n, hrun⟩ := hrun
  have hmeets := Expr.infer_follows (sound_ofLocals hfits n) depth env s e hs.begins r
    (hwalk.mono fun _ _ ↦ right_of_answers)
  cases ending with
  | value v => exact (hmeets.1 v s' hrun).2.fine
  | leaves how => exact hmeets.2 how s' hrun

end Runs

/-! ### Runs of small expressions -/

section Small

variable {M : Meaning} {avoids : Hazard → Prop} {call : Closure → Activation → Activation → Prop}
  {depth : ℕ} {s s₁ s₂ : Activation} {v w : Value}

/-- No hazard is avoided. -/
def anyHazard (_ : Hazard) : Prop := False

theorem run_bind {α β : Type} {act : Run α} {f : α → Run β} {a : α} {e : Ending Leave β}
    (h : act s (.value a) s₁) (h' : f a s₁ e s₂) : (act >>= f) s e s₂ :=
  Or.inl ⟨a, s₁, h, h'⟩

theorem run_careful {hazard : Hazard} {P : Activation → Prop} (h : avoids hazard → P s) :
    careful avoids hazard P s (.value ()) s :=
  ⟨h, rfl, rfl⟩

theorem run_ite_pos {α : Type} {c : Prop} [Decidable c] {act act' : Run α} {e : Ending Leave α}
    (hc : c) (h : act s e s₁) : (if c then act else act') s e s₁ := by
  rw [if_pos hc]
  exact h

theorem run_ite_neg {α : Type} {c : Prop} [Decidable c] {act act' : Run α} {e : Ending Leave α}
    (hc : ¬ c) (h : act' s e s₁) : (if c then act else act') s e s₁ := by
  rw [if_neg hc]
  exact h

theorem exec_leaf {ty : Ty} (hdepth : depth ≤ 200) (h : ty.Covers M.inherits v) :
    (Expr.leaf ty []).exec M avoids call depth s (.value v) s :=
  run_bind (run_careful fun _ ↦ hdepth) <|
    run_bind (a := ()) ⟨⟨Or.inl ⟨rfl, rfl⟩, fun _ _ _ h ↦ h⟩, fun _ ↦ ⟨rfl, rfl⟩⟩
      ⟨⟨v, h, rfl⟩, rfl⟩

theorem exec_localWrite {name : String} {value : Expr} (hdepth : depth ≤ 200)
    (h : value.exec M avoids call (depth + 1) s (.value v) s₁) :
    (Expr.localWrite name none value).exec M avoids call depth s (.value v)
      { s₁ with
        locals := Function.update s₁.locals name (some v), named := name :: s₁.named } :=
  run_bind (run_careful fun _ ↦ hdepth) <| run_bind h <| run_bind (run_careful fun _ ↦ trivial) <|
    run_bind (a := ()) ⟨rfl, rfl⟩ ⟨rfl, rfl⟩

theorem exec_localRead {loc : Span} {name : String} (hdepth : depth ≤ 200) :
    (Expr.localRead loc name).exec M avoids call depth s (.value (s.value name))
      { s with reads := (loc, s.value name) :: s.reads } :=
  run_bind (run_careful fun _ ↦ hdepth) <| run_bind ⟨rfl, rfl⟩ <|
    run_bind (a := ()) ⟨rfl, rfl⟩ ⟨rfl, rfl⟩

theorem execStmts_nil {last : Value} :
    Expr.execStmts M avoids call depth last [] s (.value last) s :=
  ⟨rfl, rfl⟩

theorem execStmts_cons {e : Expr} {rest : List Expr} {last : Value}
    (h : e.exec M avoids call depth s (.value v) s₁)
    (h' : Expr.execStmts M avoids call depth v rest s₁ (.value w) s₂) :
    Expr.execStmts M avoids call depth last (e :: rest) s (.value w) s₂ :=
  run_bind h h'

theorem exec_sequence {statements : List Expr} (hdepth : depth ≤ 200)
    (h : Expr.execStmts M avoids call (depth + 1) .nil statements s (.value v) s₁) :
    (Expr.sequence statements).exec M avoids call depth s (.value v) s₁ :=
  run_bind (run_careful fun _ ↦ hdepth) h

theorem exec_andNode_taken {left right : Expr} (hdepth : depth ≤ 200)
    (h : left.exec M avoids call (depth + 1) s (.value v) s₁) (hv : v.truthy = true)
    (h' : right.exec M avoids call (depth + 1) s₁ (.value w) s₂) :
    (Expr.andNode left right).exec M avoids call depth s (.value w) s₂ :=
  run_bind (run_careful fun _ ↦ hdepth) <| run_bind h <| run_ite_pos hv h'

theorem exec_andNode_skipped {left right : Expr} (hdepth : depth ≤ 200)
    (h : left.exec M avoids call (depth + 1) s (.value v) s₁) (hv : v.truthy = false)
    (hskip : avoids .skipped → right.settled = true) :
    (Expr.andNode left right).exec M avoids call depth s (.value v) s₁ :=
  run_bind (run_careful fun _ ↦ hdepth) <| run_bind h <| run_ite_neg (Bool.eq_false_iff.1 hv) <|
    run_bind (run_careful hskip) ⟨rfl, rfl⟩

/-- The pass of a `while` loop. -/
def loopPass (M : Meaning) (avoids : Hazard → Prop)
    (call : Closure → Activation → Activation → Prop) (depth : ℕ) (predicate : Expr)
    (statements : List Expr) (s : Activation) : Run Bool := do
  forget s.named
  careful avoids .repeated (Unchanged (predicate.exposed ++
    without (Expr.exposedEach statements) predicate.definite) s.locals)
  let _ ← predicate.exec M avoids call depth
  .either (pure false) (pass avoids (Expr.execStmts M avoids call depth .nil statements))

section Loops

variable {predicate : Expr} {statements : List Expr} {c : Activation}

theorem exec_loop (hdepth : depth ≤ 200)
    (h : Passes (loopPass M avoids call (depth + 1) predicate statements s) s (.value ()) s₁) :
    (Expr.loop predicate statements).exec M avoids call depth s (.value .nil) s₁ :=
  run_bind (run_careful fun _ ↦ hdepth) <| run_bind ⟨rfl, rfl⟩ <| run_bind h ⟨rfl, rfl⟩

theorem passes_last
    (h : predicate.exec M avoids call depth { c with named := s.named } (.value v) s₁)
    (hsame : avoids .repeated → Unchanged (predicate.exposed ++
      without (Expr.exposedEach statements) predicate.definite) s.locals c) :
    Passes (loopPass M avoids call depth predicate statements s) c (.value ()) s₁ :=
  .last <| run_bind (a := ()) ⟨rfl, rfl⟩ <| run_bind (run_careful hsame) <| run_bind h <|
    Or.inl ⟨rfl, rfl⟩

theorem passes_again {s' : Activation}
    (h : predicate.exec M avoids call depth { c with named := s.named } (.value v) s₁)
    (hbody : Expr.execStmts M avoids call depth .nil statements s₁ (.value w) s₂)
    (hsame : avoids .repeated → Unchanged (predicate.exposed ++
      without (Expr.exposedEach statements) predicate.definite) s.locals c)
    (hmore : Passes (loopPass M avoids call depth predicate statements s) s₂ (.value ()) s') :
    Passes (loopPass M avoids call depth predicate statements s) c (.value ()) s' :=
  .again (run_bind (a := ()) ⟨rfl, rfl⟩ <| run_bind (run_careful hsame) <| run_bind h <| Or.inr <|
    run_bind ⟨rfl, rfl⟩ <| run_bind ⟨_, rfl, hbody⟩ ⟨rfl, rfl⟩) hmore

end Loops

theorem exec_multiWrite {lefts rights : List Target} {rest : Option Target} {value : Expr}
    (ls : String → Option Value) (hdepth : depth ≤ 200)
    (h : value.exec M avoids call (depth + 1) s (.value w) s₁)
    (hbound : ∀ x ∈ Target.namesAll (lefts ++ rest.toList ++ rights), (ls x).isSome)
    (hother : ∀ x ∉ Target.namesAll (lefts ++ rest.toList ++ rights), ls x = s₁.locals x)
    (hnamed : avoids .unnamed → Target.namesAll (lefts ++ rest.toList ++ rights) ⊆
      (lefts ++ rights).filterMap Target.directName)
    (hivars : Target.ivarsAll (lefts ++ rest.toList ++ rights) = []) :
    (Expr.multiWrite lefts rest rights value).exec M avoids call depth s (.value v)
      { s₁ with
        locals := ls, named := Target.namesAll (lefts ++ rest.toList ++ rights) ++ s₁.named } := by
  refine run_bind (run_careful fun _ ↦ hdepth) <| run_bind h <|
    run_bind (a := ()) ⟨⟨ls, hbound, hother, rfl⟩, rfl⟩ <| run_bind (run_careful hnamed) <|
      run_bind (a := ()) (run_bind (a := ()) ⟨?_, rfl, rfl⟩
        ⟨⟨[], fun _ h ↦ absurd h List.not_mem_nil, rfl⟩, rfl⟩) ⟨⟨v, trivial, rfl⟩, rfl⟩
  rw [hivars]
  exact fun _ h ↦ absurd h List.not_mem_nil

end Small

/-- A program of which nothing is known. -/
def strange : Meaning where
  inherits := Eq
  self := .other
  calls _ _ := True
  constants _ _ := True
  ivars _ _ := True
  isA _ _ := False

def script : Scene := { selfTy := .unknown }

def blank : Activation := { locals := fun _ ↦ none }

theorem script_fits : script.Fits strange := ⟨trivial, fun _ _ h ↦ nomatch h⟩

theorem blank_starts (names : List String) : blank.Starts strange names fun _ ↦ none :=
  ⟨fun _ _ ↦ rfl, fun _ h ↦ absurd h List.not_mem_nil, rfl, rfl⟩

namespace Expr

variable {M : Meaning} {scene : Scene} {shown : Span → Ty → Prop} {env : Env} {s s' : Activation}
  {depth : ℕ} {e : Expr} {r : Ty × Env}

/-! ### Where paths part and meet -/

/-- `x = 1; c && (x = "s")` -/
def guardedWrite : Expr :=
  .sequence [.localWrite "x" none (.leaf .int []),
    .andNode (.leaf .bool []) (.localWrite "x" none (.leaf .str []))]

/-- `x = 1; c && x` -/
def guardedRead : Expr :=
  .sequence [.localWrite "x" none (.leaf .int []),
    .andNode (.leaf .bool []) (.localRead ⟨12, 13⟩ "x")]

/-- Blocks that a run has made may be called after it. -/
def CalledLater (M : Meaning) (avoids : Hazard → Prop) : Activation → Activation → Prop :=
  Relation.ReflTransGen fun s s' ↦ ∃ n, ∃ c ∈ s.pending, Closure.call M avoids n c s s'

/-- Where `x` is `1`. -/
def withOne : Activation :=
  { blank with locals := Function.update blank.locals "x" (some .int), named := ["x"] }

theorem withOne_of_ne {x : String} (h : x ≠ "x") : withOne.locals x = none :=
  Function.update_of_ne h _ _

/-- `x = 1; while c; x; end` -/
def readingLoop : Expr :=
  .sequence [.localWrite "x" none (.leaf .int []),
    .loop (.leaf .bool []) [.localRead ⟨16, 17⟩ "x"]]

/-- `x = 1; while c; x; x = "s"; end` -/
def writingLoop : Expr :=
  .sequence [.localWrite "x" none (.leaf .int []),
    .loop (.leaf .bool []) [.localRead ⟨16, 17⟩ "x", .localWrite "x" none (.leaf .str [])]]

/-- `x = 1; a, x = v` -/
def pairWrite : Expr :=
  .sequence [.localWrite "x" none (.leaf .int []),
    .multiWrite [.localVar "a", .localVar "x"] none [] (.leaf .unknown [])]

/-- Where `a` and `x` are strings, and nothing else is bound. -/
def stringPair (name : String) : Option Value :=
  if name ∈ ["a", "x"] then some .str else none

theorem stringPair_of_notMem {x : String} (h : x ∉ ["a", "x"]) :
    stringPair x = withOne.locals x := by
  have hx : x ≠ "x" := by
    rintro rfl
    exact h (by decide)
  rw [stringPair, if_neg h, withOne_of_ne hx]

/-- `x = 1; a, *x = v` -/
def splatWrite : Expr :=
  .sequence [.localWrite "x" none (.leaf .int []),
    .multiWrite [.localVar "a"] (some (.splat (some (.localVar "x")))) [] (.leaf .unknown [])]

end Expr

end Itaruby
