import Itaruby.Library.Inquiry

/-!
What a program may do: nondeterministic steps on a state, each of which ends with a value or
leaves in some other way. A step is the relation between the state before, the end and the
state after; `Meets` is what holds of every end.
-/

set_option autoImplicit false
set_option relaxedAutoImplicit false

inductive Ending (ε α : Type)
  | value (a : α)
  | leaves (how : ε)

def Act (σ ε α : Type) : Type := σ → Ending ε α → σ → Prop

namespace Act

variable {σ ε α β : Type}

instance : Monad (Act σ ε) where
  pure a := fun s r s' ↦ r = .value a ∧ s' = s
  bind act f := fun s r s' ↦
    (∃ a s₁, act s (.value a) s₁ ∧ f a s₁ r s') ∨
    (∃ how, r = .leaves how ∧ act s (.leaves how) s')

def leave (how : ε) : Act σ ε α := fun s r s' ↦ r = .leaves how ∧ s' = s

/-- Any value of a kind. -/
def choose (P : α → Prop) : Act σ ε α := fun s r s' ↦ (∃ a, P a ∧ r = .value a) ∧ s' = s

/-- The state as it is. -/
def here : Act σ ε σ := fun s r s' ↦ r = .value s ∧ s' = s

/-- Only where the state is of a kind. -/
def check (P : σ → Prop) : Act σ ε Unit := fun s r s' ↦ P s ∧ r = .value () ∧ s' = s

/-- To any state that the relation allows. -/
def change (R : σ → σ → Prop) : Act σ ε Unit := fun s r s' ↦ R s s' ∧ r = .value ()

def either (act act' : Act σ ε α) : Act σ ε α := fun s r s' ↦ act s r s' ∨ act' s r s'

/-- The end as a value. -/
def attempt (act : Act σ ε α) : Act σ ε (Ending ε α) :=
  fun s r s' ↦ ∃ e, r = .value e ∧ act s e s'

/-- An end that was taken as a value. -/
def resume : Ending ε α → Act σ ε α
  | .value a => pure a
  | .leaves how => leave how

/-- The state after, however the act ends, is related to the state before. -/
def watched (act : Act σ ε α) (R : σ → σ → Prop) : Act σ ε α := fun s r s' ↦ act s r s' ∧ R s s'

/-- Passes one after the other, as long as the pass says so. -/
inductive Passes (pass : Act σ ε Bool) : Act σ ε Unit
  | last {s s' : σ} (h : pass s (.value false) s') : Passes pass s (.value ()) s'
  | leaves {s s' : σ} {how : ε} (h : pass s (.leaves how) s') : Passes pass s (.leaves how) s'
  | again {s s₁ s' : σ} {r : Ending ε Unit} (h : pass s (.value true) s₁)
      (h' : Passes pass s₁ r s') : Passes pass s r s'

/-! ### What holds of every end -/

/-- From the state, an act ends only so. -/
def Meets (act : Act σ ε α) (s : σ) (post : α → σ → Prop) (out : ε → σ → Prop) : Prop :=
  (∀ a s', act s (.value a) s' → post a s') ∧ ∀ how s', act s (.leaves how) s' → out how s'

section Meets

variable {s : σ} {post : α → σ → Prop} {out : ε → σ → Prop}

theorem Meets.mono {act : Act σ ε α} {post' : α → σ → Prop} {out' : ε → σ → Prop}
    (h : act.Meets s post out) (hpost : ∀ a s', post a s' → post' a s')
    (hout : ∀ how s', out how s' → out' how s') : act.Meets s post' out' :=
  ⟨fun a s' ha ↦ hpost a s' (h.1 a s' ha), fun how s' ha ↦ hout how s' (h.2 how s' ha)⟩

theorem Meets.and {act : Act σ ε α} {post' : α → σ → Prop} {out' : ε → σ → Prop}
    (h : act.Meets s post out) (h' : act.Meets s post' out') :
    act.Meets s (fun a s' ↦ post a s' ∧ post' a s') fun how s' ↦ out how s' ∧ out' how s' :=
  ⟨fun a s' ha ↦ ⟨h.1 a s' ha, h'.1 a s' ha⟩, fun how s' ha ↦ ⟨h.2 how s' ha, h'.2 how s' ha⟩⟩

theorem meets_trivial {act : Act σ ε α} : act.Meets s (fun _ _ ↦ True) fun _ _ ↦ True :=
  ⟨fun _ _ _ ↦ trivial, fun _ _ _ ↦ trivial⟩

theorem meets_pure {a : α} (h : post a s) : (pure a : Act σ ε α).Meets s post out := by
  refine ⟨?_, ?_⟩
  · rintro b s' ⟨hb, rfl⟩
    cases hb
    exact h
  · rintro how s' ⟨hhow, _⟩
    cases hhow

theorem Meets.bind {act : Act σ ε α} {f : α → Act σ ε β} {mid : α → σ → Prop}
    {post : β → σ → Prop} (h : act.Meets s mid out)
    (hf : ∀ a s₁, mid a s₁ → (f a).Meets s₁ post out) : (act >>= f).Meets s post out := by
  refine ⟨?_, ?_⟩
  · rintro b s' (⟨a, s₁, ha, hb⟩ | ⟨how, hhow, _⟩)
    · exact (hf a s₁ (h.1 a s₁ ha)).1 b s' hb
    · cases hhow
  · rintro how s' (⟨a, s₁, ha, hb⟩ | ⟨how', hhow, ha⟩)
    · exact (hf a s₁ (h.1 a s₁ ha)).2 how s' hb
    · cases hhow
      exact h.2 how s' ha

theorem meets_leave {how : ε} (h : out how s) : (leave how : Act σ ε α).Meets s post out := by
  refine ⟨?_, ?_⟩
  · rintro a s' ⟨ha, _⟩
    cases ha
  · rintro how' s' ⟨hhow, rfl⟩
    cases hhow
    exact h

theorem meets_change {R : σ → σ → Prop} {post : Unit → σ → Prop} (h : ∀ s', R s s' → post () s') :
    (change R : Act σ ε Unit).Meets s post out := by
  refine ⟨?_, ?_⟩
  · rintro _ s' ⟨hR, _⟩
    exact h s' hR
  · rintro how s' ⟨_, hhow⟩
    cases hhow

theorem meets_choose {P : α → Prop} (h : ∀ a, P a → post a s) :
    (choose P : Act σ ε α).Meets s post out := by
  refine ⟨?_, ?_⟩
  · rintro a s' ⟨⟨b, hb, hab⟩, rfl⟩
    cases hab
    exact h a hb
  · rintro how s' ⟨⟨b, _, hhow⟩, _⟩
    cases hhow

theorem meets_here_bind {f : σ → Act σ ε β} {post : β → σ → Prop} (h : (f s).Meets s post out) :
    (here >>= f).Meets s post out := by
  refine ⟨?_, ?_⟩
  · rintro b s' (⟨a, s₁, ⟨ha, rfl⟩, hb⟩ | ⟨how, hhow, _⟩)
    · cases ha
      exact h.1 b s' hb
    · cases hhow
  · rintro how s' (⟨a, s₁, ⟨ha, rfl⟩, hb⟩ | ⟨how', _, hhow, _⟩)
    · cases ha
      exact h.2 how s' hb
    · cases hhow

theorem meets_check_bind {P : σ → Prop} {f : Unit → Act σ ε β} {post : β → σ → Prop}
    (h : P s → (f ()).Meets s post out) : (check P >>= f).Meets s post out := by
  refine ⟨?_, ?_⟩
  · rintro b s' (⟨_, s₁, ⟨hP, _, rfl⟩, hb⟩ | ⟨how, hhow, _⟩)
    · exact (h hP).1 b s' hb
    · cases hhow
  · rintro how s' (⟨_, s₁, ⟨hP, _, rfl⟩, hb⟩ | ⟨how', _, _, hhow, _⟩)
    · exact (h hP).2 how s' hb
    · cases hhow

theorem meets_change_bind {R : σ → σ → Prop} {f : Unit → Act σ ε β} {post : β → σ → Prop}
    (h : ∀ s', R s s' → (f ()).Meets s' post out) : (change R >>= f).Meets s post out := by
  refine ⟨?_, ?_⟩
  · rintro b s' (⟨_, s₁, ⟨hR, _⟩, hb⟩ | ⟨how, hhow, _⟩)
    · exact (h s₁ hR).1 b s' hb
    · cases hhow
  · rintro how s' (⟨_, s₁, ⟨hR, _⟩, hb⟩ | ⟨how', _, _, hhow⟩)
    · exact (h s₁ hR).2 how s' hb
    · cases hhow

theorem Meets.either {act act' : Act σ ε α} (h : act.Meets s post out)
    (h' : act'.Meets s post out) : (act.either act').Meets s post out :=
  ⟨fun a s' ha ↦ ha.elim (h.1 a s') (h'.1 a s'),
    fun how s' ha ↦ ha.elim (h.2 how s') (h'.2 how s')⟩

theorem Meets.attempt_bind {act : Act σ ε α} {f : Ending ε α → Act σ ε β} {post : β → σ → Prop}
    {mid : α → σ → Prop} {mid' : ε → σ → Prop} (h : act.Meets s mid mid')
    (hvalue : ∀ a s₁, mid a s₁ → (f (.value a)).Meets s₁ post out)
    (hleaves : ∀ how s₁, mid' how s₁ → (f (.leaves how)).Meets s₁ post out) :
    (act.attempt >>= f).Meets s post out := by
  have hf : ∀ e s₁, act s e s₁ → (f e).Meets s₁ post out := by
    intro e s₁ he
    cases e with
    | value a => exact hvalue a s₁ (h.1 a s₁ he)
    | leaves how => exact hleaves how s₁ (h.2 how s₁ he)
  refine ⟨?_, ?_⟩
  · rintro b s' (⟨_, s₁, ⟨e, hr, he⟩, hb⟩ | ⟨how, hhow, _⟩)
    · cases hr
      exact (hf _ s₁ he).1 b s' hb
    · cases hhow
  · rintro how s' (⟨_, s₁, ⟨e, hr, he⟩, hb⟩ | ⟨how', _, e, hhow, _⟩)
    · cases hr
      exact (hf _ s₁ he).2 how s' hb
    · cases hhow

theorem meets_resume {e : Ending ε α} (hpost : ∀ a, e = .value a → post a s)
    (hout : ∀ how, e = .leaves how → out how s) : (resume e : Act σ ε α).Meets s post out := by
  cases e with
  | value a => exact meets_pure (hpost a rfl)
  | leaves how => exact meets_leave (hout how rfl)

theorem Meets.watched {act : Act σ ε α} {R : σ → σ → Prop}
    (h : act.Meets s (fun a s' ↦ R s s' → post a s') fun how s' ↦ R s s' → out how s') :
    (act.watched R).Meets s post out :=
  ⟨fun a s' ha ↦ h.1 a s' ha.1 ha.2, fun how s' ha ↦ h.2 how s' ha.1 ha.2⟩

/-- An invariant of the states between passes. -/
theorem meets_passes (inv : σ → Prop) {pass : Act σ ε Bool} {post : Unit → σ → Prop}
    (hpass : ∀ s, inv s →
      pass.Meets s (fun more s' ↦ if more then inv s' else post () s') out)
    (hs : inv s) : Meets (Passes pass) s post out := by
  have hrun : ∀ s r s', Passes pass s r s' → inv s →
      match r with
      | .value _ => post () s'
      | .leaves how => out how s' := by
    intro s r s' h
    induction h with
    | last h => exact fun hs ↦ (hpass _ hs).1 false _ h
    | leaves h => exact fun hs ↦ (hpass _ hs).2 _ _ h
    | again h _ ih => exact fun hs ↦ ih ((hpass _ hs).1 true _ h)
  exact ⟨fun a s' h ↦ hrun s _ s' h hs, fun how s' h ↦ hrun s _ s' h hs⟩

end Meets

end Act

/-! ### Analyses that follow a program -/

namespace Inquiry

variable {κ ν σ ε α α' β β' : Type}

/-- Whatever results of the analysis right answers lead to, the program ends only so. -/
def Follows (ok : κ → ν → Prop) (w : Inquiry κ ν α) (act : Act σ ε β) (s : σ)
    (post : α → β → σ → Prop) (out : ε → σ → Prop) : Prop :=
  ∀ a, w.YieldsBy ok a → act.Meets s (post a) out

section Follows

variable {ok : κ → ν → Prop} {s : σ} {post : α → β → σ → Prop} {out : ε → σ → Prop}

theorem follows_pure {a : α} {act : Act σ ε β} (h : act.Meets s (post a) out) :
    Follows ok (pure a) act s post out := by
  rintro b rfl
  exact h

theorem Follows.mono {w : Inquiry κ ν α} {act : Act σ ε β} {post' : α → β → σ → Prop}
    {out' : ε → σ → Prop} (h : w.Follows ok act s post out)
    (hpost : ∀ a b s', post a b s' → post' a b s') (hout : ∀ how s', out how s' → out' how s') :
    w.Follows ok act s post' out' :=
  fun a ha ↦ (h a ha).mono (hpost a) hout

theorem Follows.bind {w : Inquiry κ ν α'} {f : α' → Inquiry κ ν α} {act : Act σ ε β'}
    {g : β' → Act σ ε β} {mid : α' → β' → σ → Prop} (h : w.Follows ok act s mid out)
    (hf : ∀ a b s₁, mid a b s₁ → (f a).Follows ok (g b) s₁ post out) :
    (w >>= f).Follows ok (act >>= g) s post out := by
  intro a ha
  obtain ⟨a', ha', ha⟩ := yieldsBy_bind.1 ha
  exact (h a' ha').bind fun b s₁ hmid ↦ hf a' b s₁ hmid a ha

/-- The end of the program as a value, beside the result of the analysis. -/
theorem Follows.attempt_bind {w : Inquiry κ ν α'} {f : α' → Inquiry κ ν α} {act : Act σ ε β'}
    {g : Ending ε β' → Act σ ε β} {mid : α' → β' → σ → Prop} {mid' : ε → σ → Prop}
    (h : w.Follows ok act s mid mid')
    (hvalue : ∀ a b s₁, mid a b s₁ → (f a).Follows ok (g (.value b)) s₁ post out)
    (hleaves : ∀ a how s₁, w.YieldsBy ok a → mid' how s₁ →
      (f a).Follows ok (g (.leaves how)) s₁ post out) :
    (w >>= f).Follows ok (act.attempt >>= g) s post out := by
  intro a ha
  obtain ⟨a', ha', ha⟩ := yieldsBy_bind.1 ha
  exact (h a' ha').attempt_bind (fun b s₁ hmid ↦ hvalue a' b s₁ hmid a ha)
    fun how s₁ hmid ↦ hleaves a' how s₁ ha' hmid a ha

/-- The program looks at its state. -/
theorem Follows.here_bind {w : Inquiry κ ν α} {g : σ → Act σ ε β}
    (h : w.Follows ok (g s) s post out) : w.Follows ok (Act.here >>= g) s post out :=
  fun a ha ↦ Act.meets_here_bind (h a ha)

theorem Follows.check_bind {w : Inquiry κ ν α} {P : σ → Prop} {g : Unit → Act σ ε β}
    (h : P s → w.Follows ok (g ()) s post out) : w.Follows ok (Act.check P >>= g) s post out :=
  fun a ha ↦ Act.meets_check_bind fun hP ↦ h hP a ha

theorem Follows.change_bind {w : Inquiry κ ν α} {R : σ → σ → Prop} {g : Unit → Act σ ε β}
    (h : ∀ s', R s s' → w.Follows ok (g ()) s' post out) :
    w.Follows ok (Act.change R >>= g) s post out :=
  fun a ha ↦ Act.meets_change_bind fun s' hs' ↦ h s' hs' a ha

/-- A question of the analysis, at which the program does nothing. -/
theorem Follows.ask {q : κ} {f : ν → Inquiry κ ν α} {act : Act σ ε β}
    (h : ∀ v, ok q v → (f v).Follows ok act s post out) :
    (query q >>= f).Follows ok act s post out := by
  intro a ha
  obtain ⟨v, hv, ha⟩ := yieldsBy_bind.1 ha
  exact h v (yieldsBy_query.1 hv) a ha

/-- A step of the program that the analysis does not look at. -/
theorem Follows.act {w : Inquiry κ ν α} {act : Act σ ε β'} {g : β' → Act σ ε β}
    {mid : β' → σ → Prop} (h : act.Meets s mid out)
    (hg : ∀ b s₁, mid b s₁ → w.Follows ok (g b) s₁ post out) :
    w.Follows ok (act >>= g) s post out :=
  fun a ha ↦ h.bind fun b s₁ hmid ↦ hg b s₁ hmid a ha

/-- The analysis goes on after the program is done. -/
theorem Follows.bind_walk {w : Inquiry κ ν α'} {f : α' → Inquiry κ ν α} {act : Act σ ε β}
    {mid : α' → β → σ → Prop} (h : w.Follows ok act s mid out)
    (hf : ∀ a' b s', mid a' b s' → ∀ a, (f a').YieldsBy ok a → post a b s') :
    (w >>= f).Follows ok act s post out := by
  intro a ha
  obtain ⟨a', ha', ha⟩ := yieldsBy_bind.1 ha
  exact (h a' ha').mono (fun b s' hmid ↦ hf a' b s' hmid a ha) fun _ _ hout ↦ hout

/-- With the result of the analysis and the run that led here. -/
theorem Follows.traced {w : Inquiry κ ν α} {act : Act σ ε β} (h : w.Follows ok act s post out) :
    w.Follows ok act s (fun a b s' ↦ post a b s' ∧ w.YieldsBy ok a ∧ act s (.value b) s') out :=
  fun a ha ↦ ⟨fun b s' hb ↦ ⟨(h a ha).1 b s' hb, ha, hb⟩, (h a ha).2⟩

theorem Follows.either {w : Inquiry κ ν α} {act act' : Act σ ε β}
    (h : w.Follows ok act s post out) (h' : w.Follows ok act' s post out) :
    w.Follows ok (act.either act') s post out :=
  fun a ha ↦ (h a ha).either (h' a ha)

theorem Follows.ite {w : Inquiry κ ν α} {act act' : Act σ ε β} {c : Prop} [Decidable c]
    (h : c → w.Follows ok act s post out) (h' : ¬ c → w.Follows ok act' s post out) :
    w.Follows ok (if c then act else act') s post out := by
  by_cases hc : c
  · rw [if_pos hc]
    exact h hc
  · rw [if_neg hc]
    exact h' hc

/-- A step of the analysis alone. -/
theorem Follows.walk {w : Inquiry κ ν α'} {f : α' → Inquiry κ ν α} {act : Act σ ε β}
    (h : ∀ a, w.YieldsBy ok a → (f a).Follows ok act s post out) :
    (w >>= f).Follows ok act s post out := by
  intro a ha
  obtain ⟨a', ha', ha⟩ := yieldsBy_bind.1 ha
  exact h a' ha' a ha

end Follows

end Inquiry
