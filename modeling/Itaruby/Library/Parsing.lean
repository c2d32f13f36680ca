import Mathlib.Order.MinMax
import Mathlib.Tactic.SplitIfs

/-!
Parsers as stateful computations that may fail, and what such a computation yields from a state.
A recursive parser is a family, one computation for each number of steps: it yields what all its
members from some number on yield, and two members agree on every state small enough for both.
-/

set_option autoImplicit false
set_option relaxedAutoImplicit false

namespace Parsing

variable {σ ε α β : Type}

/-- From the state `s` the computation gives `a`, and leaves the state `s'`. -/
def Yields (p : StateT σ (Except ε) α) (s : σ) (a : α) (s' : σ) : Prop := p s = .ok (a, s')

theorem Yields.pure (a : α) (s : σ) : Yields (pure a : StateT σ (Except ε) α) s a s := rfl

theorem Yields.bind {p : StateT σ (Except ε) α} {f : α → StateT σ (Except ε) β} {s s' s'' : σ}
    {a : α} {b : β} (hp : Yields p s a s') (hf : Yields (f a) s' b s'') :
    Yields (p >>= f) s b s'' := by
  change (p s >>= fun q ↦ f q.1 q.2) = _
  rw [show p s = .ok (a, s') from hp]
  exact hf

/-- What comes after a computation that yields something. -/
theorem Yields.bind_eq {p : StateT σ (Except ε) α} {f : α → StateT σ (Except ε) β} {s s' : σ}
    {a : α} (hp : Yields p s a s') : (p >>= f) s = f a s' := by
  change (p s >>= fun q ↦ f q.1 q.2) = _
  rw [show p s = .ok (a, s') from hp]
  rfl

theorem yields_bind {p : StateT σ (Except ε) α} {f : α → StateT σ (Except ε) β} {s s'' : σ}
    {b : β} : Yields (p >>= f) s b s'' ↔ ∃ a s', Yields p s a s' ∧ Yields (f a) s' b s'' := by
  constructor
  · intro h
    change (p s >>= fun q ↦ f q.1 q.2) = _ at h
    cases hp : p s with
    | error e => rw [hp] at h; cases h
    | ok r =>
      rw [hp] at h
      exact ⟨r.1, r.2, hp, h⟩
  · rintro ⟨a, s', hp, hf⟩
    exact hp.bind hf

/-! ### All results -/

section Produces

/-- Every result has the property. -/
def Produces (P : α → Prop) (p : StateT σ (Except ε) α) : Prop :=
  ∀ s a s', Yields p s a s' → P a

theorem Produces.pure {P : α → Prop} {a : α} (h : P a) :
    Produces P (pure a : StateT σ (Except ε) α) := by
  intro s b s' hb
  obtain ⟨rfl, -⟩ := Prod.mk.inj (Except.ok.inj hb)
  exact h

theorem produces_true (p : StateT σ (Except ε) α) : Produces (fun _ ↦ True) p :=
  fun _ _ _ _ ↦ trivial

theorem Produces.bind {P : α → Prop} {Q : β → Prop} {p : StateT σ (Except ε) α}
    {f : α → StateT σ (Except ε) β} (hp : Produces P p) (hf : ∀ a, P a → Produces Q (f a)) :
    Produces Q (p >>= f) := by
  intro s b s'' h
  obtain ⟨a, s', ha, hb⟩ := yields_bind.mp h
  exact hf a (hp s a s' ha) s' b s'' hb

/-- What comes first does not matter. -/
theorem Produces.after {Q : β → Prop} {p : StateT σ (Except ε) α}
    {f : α → StateT σ (Except ε) β} (hf : ∀ a, Produces Q (f a)) : Produces Q (p >>= f) :=
  (produces_true p).bind fun a _ ↦ hf a

theorem Produces.mono {P Q : α → Prop} {p : StateT σ (Except ε) α} (h : Produces P p)
    (hPQ : ∀ a, P a → Q a) : Produces Q p := fun s a s' ha ↦ hPQ a (h s a s' ha)

theorem Produces.ite {P : α → Prop} {c : Prop} [Decidable c] {p q : StateT σ (Except ε) α}
    (hp : c → Produces P p) (hq : ¬ c → Produces P q) : Produces P (if c then p else q) := by
  split_ifs with hc
  · exact hp hc
  · exact hq hc

end Produces

/-! ### Families -/

section Families

/-- All members of the family from some number on yield the same. -/
def YieldsIn (p : ℕ → StateT σ (Except ε) α) (s : σ) (a : α) (s' : σ) : Prop :=
  ∃ bound, ∀ n ≥ bound, Yields (p n) s a s'

theorem Yields.always {p : StateT σ (Except ε) α} {s s' : σ} {a : α} (h : Yields p s a s') :
    YieldsIn (fun _ ↦ p) s a s' := ⟨0, fun _ _ ↦ h⟩

theorem YieldsIn.bind {p : ℕ → StateT σ (Except ε) α} {f : ℕ → α → StateT σ (Except ε) β}
    {s s' s'' : σ} {a : α} {b : β} (hp : YieldsIn p s a s')
    (hf : YieldsIn (fun n ↦ f n a) s' b s'') : YieldsIn (fun n ↦ p n >>= f n) s b s'' := by
  obtain ⟨m, hm⟩ := hp
  obtain ⟨k, hk⟩ := hf
  exact ⟨max m k, fun n hn ↦ (hm n (le_of_max_le_left hn)).bind (hk n (le_of_max_le_right hn))⟩

/-- A first part that is the same in every member. -/
theorem YieldsIn.after {p : StateT σ (Except ε) α} {f : ℕ → α → StateT σ (Except ε) β}
    {s s' s'' : σ} {a : α} {b : β} (hf : YieldsIn (fun n ↦ f n a) s' b s'')
    (hp : Yields p s a s') : YieldsIn (fun n ↦ p >>= f n) s b s'' := hp.always.bind hf

/-- One step of the recursion. -/
theorem YieldsIn.of_succ {p : ℕ → StateT σ (Except ε) α} {s s' : σ} {a : α}
    (h : YieldsIn (fun n ↦ p (n + 1)) s a s') : YieldsIn p s a s' := by
  obtain ⟨m, hm⟩ := h
  refine ⟨m + 1, fun n hn ↦ ?_⟩
  cases n with
  | zero => exact absurd hn (Nat.not_succ_le_zero m)
  | succ n => exact hm n (Nat.le_of_succ_le_succ hn)

theorem YieldsIn.of_eq {p q : ℕ → StateT σ (Except ε) α} {s s₁ s' : σ} {a : α}
    (h : YieldsIn q s₁ a s') (heq : ∀ n, p n s = q n s₁) : YieldsIn p s a s' := by
  obtain ⟨bound, hbound⟩ := h
  exact ⟨bound, fun n hn ↦ (heq n).trans (hbound n hn)⟩

/-- It is enough that the members from some number on do the same. -/
theorem YieldsIn.of_eq_add {p q : ℕ → StateT σ (Except ε) α} {s s₁ s' : σ} {a : α}
    (h : YieldsIn q s₁ a s') (k : ℕ) (heq : ∀ n, p (n + k) s = q (n + k) s₁) :
    YieldsIn p s a s' := by
  obtain ⟨bound, hbound⟩ := h
  refine ⟨max bound k, fun n hn ↦ ?_⟩
  have hsame := heq (n - k)
  rw [Nat.sub_add_cancel (le_of_max_le_right hn)] at hsame
  exact hsame.trans (hbound n (le_of_max_le_left hn))

end Families

/-- A computation that does the same from two states. -/
theorem bind_congr_state {p : StateT σ (Except ε) α} {s s₁ : σ} (h : p s = p s₁)
    (f : α → StateT σ (Except ε) β) : (p >>= f) s = (p >>= f) s₁ := by
  change (p s >>= fun r ↦ f r.1 r.2) = (p s₁ >>= fun r ↦ f r.1 r.2)
  rw [h]

/-! ### Agreement -/

section Agreement

variable (size : σ → ℕ) (bad : ε → Prop)

/-- On every state of at most this size the two computations do the same. They leave no more than
there was and do not fail badly. -/
structure Agree (k : ℕ) (p q : StateT σ (Except ε) α) : Prop where
  same : ∀ s, size s ≤ k → p s = q s
  shrinks : ∀ s a s', size s ≤ k → Yields p s a s' → size s' ≤ size s
  good : ∀ s e, size s ≤ k → p s = .error e → ¬ bad e

/-- The result is only given after something was consumed. -/
def Consumes (p : StateT σ (Except ε) α) (a : α) : Prop :=
  ∀ s s', Yields p s a s' → size s' < size s

variable {size bad} {k : ℕ} {p q : StateT σ (Except ε) α} {f g : α → StateT σ (Except ε) β}

theorem Agree.mono (h : Agree size bad k p q) {j : ℕ} (hj : j ≤ k) : Agree size bad j p q where
  same s hs := h.same s (hs.trans hj)
  shrinks s a s' hs := h.shrinks s a s' (hs.trans hj)
  good s e hs := h.good s e (hs.trans hj)

theorem agree_pure (a : α) : Agree size bad k (pure a : StateT σ (Except ε) α) (pure a) where
  same _ _ := rfl
  shrinks s b s' _ h := by
    obtain ⟨-, rfl⟩ := Prod.mk.inj (Except.ok.inj h)
    exact le_refl _
  good _ _ _ h := by cases h

/-- After a result that consumed something, agreement on smaller states is enough. -/
theorem Agree.bind_step (hp : Agree size bad k p q)
    (hf : ∀ a, Agree size bad k (f a) (g a) ∨
      Consumes size p a ∧ ∀ j < k, Agree size bad j (f a) (g a)) :
    Agree size bad k (p >>= f) (q >>= g) := by
  have hafter : ∀ s a s', size s ≤ k → Yields p s a s' →
      ∃ j, size s' ≤ j ∧ Agree size bad j (f a) (g a) := by
    intro s a s' hs ha
    rcases hf a with hfa | ⟨hconsumes, hfa⟩
    · exact ⟨k, (hp.shrinks s a s' hs ha).trans hs, hfa⟩
    · exact ⟨size s', le_refl _, hfa _ ((hconsumes s s' ha).trans_le hs)⟩
  refine ⟨fun s hs ↦ ?_, fun s b s'' hs h ↦ ?_, fun s e hs h ↦ ?_⟩
  · change (p s >>= fun r ↦ f r.1 r.2) = (q s >>= fun r ↦ g r.1 r.2)
    rw [← hp.same s hs]
    cases hps : p s with
    | error e => rfl
    | ok r =>
      obtain ⟨j, hj, hagree⟩ := hafter s r.1 r.2 hs hps
      exact hagree.same r.2 hj
  · obtain ⟨a, s', ha, hb⟩ := yields_bind.mp h
    obtain ⟨j, hj, hagree⟩ := hafter s a s' hs ha
    exact (hagree.shrinks s' b s'' hj hb).trans (hp.shrinks s a s' hs ha)
  · change (p s >>= fun r ↦ f r.1 r.2) = _ at h
    cases hps : p s with
    | error e' =>
      rw [hps] at h
      obtain rfl : e' = e := Except.error.inj h
      exact hp.good s e' hs hps
    | ok r =>
      rw [hps] at h
      obtain ⟨j, hj, hagree⟩ := hafter s r.1 r.2 hs hps
      exact hagree.good r.2 e hj h

theorem Agree.bind (hp : Agree size bad k p q) (hf : ∀ a, Agree size bad k (f a) (g a)) :
    Agree size bad k (p >>= f) (q >>= g) := hp.bind_step fun a ↦ .inl (hf a)

theorem Agree.ite {c : Prop} [Decidable c] {p' q' : StateT σ (Except ε) α}
    (hp : Agree size bad k p q) (hp' : Agree size bad k p' q') :
    Agree size bad k (if c then p else p') (if c then q else q') := by
  split_ifs
  · exact hp
  · exact hp'

end Agreement

end Parsing
