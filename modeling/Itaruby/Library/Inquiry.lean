import Mathlib.Data.List.Basic

/-!
Computations that ask questions on the way. What the answers may be is left open: an answerer
with a state of its own turns an inquiry into a function of that state, and a statement that
holds of every answer holds of every answerer.
-/

set_option autoImplicit false
set_option relaxedAutoImplicit false

inductive Inquiry (κ ν α : Type)
  | done (a : α)
  | ask (q : κ) (next : ν → Inquiry κ ν α)

namespace Inquiry

variable {κ ν α β σ τ : Type}

def bind (w : Inquiry κ ν α) (f : α → Inquiry κ ν β) : Inquiry κ ν β :=
  match w with
  | done a => f a
  | ask q next => ask q fun v ↦ bind (next v) f

instance : Monad (Inquiry κ ν) where
  pure := done
  bind := bind

/-- One question, answered as it is. -/
def query (q : κ) : Inquiry κ ν ν := ask q done

/-! ### What may be asked -/

/-- Some answers lead to the question. -/
def Asks (q : κ) : Inquiry κ ν α → Prop
  | done _ => False
  | ask q' next => q' = q ∨ ∃ v, Asks q (next v)

/-- Some answers lead to the result. -/
def Yields (a : α) : Inquiry κ ν α → Prop
  | done b => b = a
  | ask _ next => ∃ v, Yields a (next v)

theorem asks_pure {q : κ} {a : α} : ¬ (pure a : Inquiry κ ν α).Asks q := id

theorem asks_query {q q' : κ} : (query q' : Inquiry κ ν ν).Asks q ↔ q' = q :=
  ⟨fun h ↦ h.elim id fun ⟨_, h⟩ ↦ h.elim, Or.inl⟩

theorem asks_bind {q : κ} {w : Inquiry κ ν α} {f : α → Inquiry κ ν β} :
    (w >>= f).Asks q ↔ w.Asks q ∨ ∃ a, w.Yields a ∧ (f a).Asks q := by
  change (bind w f).Asks q ↔ _
  induction w with
  | done b => simp [bind, Asks, Yields]
  | ask q' next ih =>
    simp only [bind, Asks, Yields, ih]
    constructor
    · rintro (h | ⟨v, h | ⟨a, ha, h⟩⟩)
      · exact Or.inl (Or.inl h)
      · exact Or.inl (Or.inr ⟨v, h⟩)
      · exact Or.inr ⟨a, ⟨v, ha⟩, h⟩
    · rintro ((h | ⟨v, h⟩) | ⟨a, ⟨v, ha⟩, h⟩)
      · exact Or.inl h
      · exact Or.inr ⟨v, Or.inl h⟩
      · exact Or.inr ⟨v, Or.inr ⟨a, ha, h⟩⟩

/-- Answers of a kind lead to the result. -/
def YieldsBy (ok : κ → ν → Prop) (a : α) : Inquiry κ ν α → Prop
  | done b => b = a
  | ask q next => ∃ v, ok q v ∧ YieldsBy ok a (next v)

section YieldsBy

variable {ok : κ → ν → Prop} {a : α}

@[simp] theorem yieldsBy_pure {b : α} : (pure b : Inquiry κ ν α).YieldsBy ok a ↔ b = a :=
  Iff.rfl

@[simp] theorem yieldsBy_query {q : κ} {v : ν} :
    (query q : Inquiry κ ν ν).YieldsBy ok v ↔ ok q v :=
  ⟨fun ⟨_, hok, hv⟩ ↦ hv ▸ hok, fun h ↦ ⟨v, h, rfl⟩⟩

@[simp] theorem yieldsBy_bind {w : Inquiry κ ν β} {f : β → Inquiry κ ν α} :
    (w >>= f).YieldsBy ok a ↔ ∃ b, w.YieldsBy ok b ∧ (f b).YieldsBy ok a := by
  change (bind w f).YieldsBy ok a ↔ _
  induction w with
  | done b => simp [bind, YieldsBy]
  | ask q next ih =>
    simp only [bind, YieldsBy, ih]
    constructor
    · rintro ⟨v, hv, b, hb, h⟩
      exact ⟨b, ⟨v, hv, hb⟩, h⟩
    · rintro ⟨b, ⟨v, hv, hb⟩, h⟩
      exact ⟨v, hv, b, hb, h⟩

end YieldsBy

/-- Every question that may be asked is of a kind. -/
def Only (P : κ → Prop) (w : Inquiry κ ν α) : Prop := ∀ q, w.Asks q → P q

section Only

variable {P : κ → Prop}

theorem only_pure {a : α} : Only P (pure a : Inquiry κ ν α) := fun _ h ↦ (asks_pure h).elim

theorem only_query {q : κ} (h : P q) : Only P (query q : Inquiry κ ν ν) := by
  intro q' hq'
  exact asks_query.1 hq' ▸ h

theorem Only.bind {w : Inquiry κ ν α} {f : α → Inquiry κ ν β} (hw : Only P w)
    (hf : ∀ a, Only P (f a)) : Only P (w >>= f) := by
  intro q hq
  rcases asks_bind.1 hq with h | ⟨a, _, h⟩
  · exact hw q h
  · exact hf a q h

end Only

theorem YieldsBy.mono {ok ok' : κ → ν → Prop} {a : α} {w : Inquiry κ ν α}
    (h : w.YieldsBy ok a) (hok : ∀ q v, ok q v → ok' q v) : w.YieldsBy ok' a := by
  induction w with
  | done b => exact h
  | ask q next ih =>
    obtain ⟨v, hv, h⟩ := h
    exact ⟨v, hok q v hv, ih v h⟩

theorem yields_of_yieldsBy {ok : κ → ν → Prop} {a : α} {w : Inquiry κ ν α}
    (h : w.YieldsBy ok a) : w.Yields a := by
  induction w with
  | done b => exact h
  | ask q next ih =>
    obtain ⟨v, _, h⟩ := h
    exact ⟨v, ih v h⟩

/-- Every result, whatever the answers, is of a kind. -/
def Always (P : α → Prop) (w : Inquiry κ ν α) : Prop := ∀ a, w.Yields a → P a

section Always

variable {P : α → Prop}

theorem always_pure {a : α} (h : P a) : Always P (pure a : Inquiry κ ν α) := by
  rintro b rfl
  exact h

theorem yields_bind {w : Inquiry κ ν α} {f : α → Inquiry κ ν β} {b : β} :
    (w >>= f).Yields b ↔ ∃ a, w.Yields a ∧ (f a).Yields b := by
  change (bind w f).Yields b ↔ _
  induction w with
  | done a => simp [bind, Yields]
  | ask q next ih =>
    simp only [bind, Yields, ih]
    constructor
    · rintro ⟨v, a, ha, h⟩
      exact ⟨a, ⟨v, ha⟩, h⟩
    · rintro ⟨a, ⟨v, ha⟩, h⟩
      exact ⟨v, a, ha, h⟩

theorem Always.bind {w : Inquiry κ ν α} {f : α → Inquiry κ ν β} {Q : β → Prop} (hw : Always P w)
    (hf : ∀ a, P a → Always Q (f a)) : Always Q (w >>= f) := by
  intro b hb
  obtain ⟨a, ha, hb⟩ := yields_bind.1 hb
  exact hf a (hw a ha) b hb

theorem always_query_bind {q : κ} {f : ν → Inquiry κ ν α} (hf : ∀ v, Always P (f v)) :
    Always P (query q >>= f) := by
  intro a ha
  obtain ⟨v, _, ha⟩ := yields_bind.1 ha
  exact hf v a ha

end Always

/-! ### Answerers -/

/-- The run of an inquiry against an answerer with a state. -/
def run (answer : κ → σ → ν × σ) : Inquiry κ ν α → σ → α × σ
  | done a, s => (a, s)
  | ask q next, s => run answer (next (answer q s).1) (answer q s).2

/-- The questions of a run in order, each with the state it is asked in and its answer. -/
def trace (answer : κ → σ → ν × σ) : Inquiry κ ν α → σ → List (κ × σ × ν)
  | done _, _ => []
  | ask q next, s =>
    (q, s, (answer q s).1) :: trace answer (next (answer q s).1) (answer q s).2

section Run

variable (answer : κ → σ → ν × σ)

@[simp] theorem run_pure (a : α) (s : σ) : (pure a : Inquiry κ ν α).run answer s = (a, s) := rfl

@[simp] theorem run_query (q : κ) (s : σ) :
    (query q : Inquiry κ ν ν).run answer s = answer q s := rfl

@[simp] theorem run_bind (w : Inquiry κ ν α) (f : α → Inquiry κ ν β) (s : σ) :
    (w >>= f).run answer s = (f (w.run answer s).1).run answer (w.run answer s).2 := by
  change (bind w f).run answer s = _
  induction w generalizing s with
  | done a => rfl
  | ask q next ih => exact ih _ _

/-- A property of the state that every answer to a question asked keeps. -/
theorem run_invariant {P : σ → Prop} {w : Inquiry κ ν α}
    (hstep : ∀ q, w.Asks q → ∀ s, P s → P (answer q s).2) {s : σ} (hs : P s) :
    P (w.run answer s).2 := by
  induction w generalizing s with
  | done a => exact hs
  | ask q next ih =>
    exact ih _ (fun q' hq' ↦ hstep q' (Or.inr ⟨_, hq'⟩)) (hstep q (Or.inl rfl) s hs)

theorem run_yields (w : Inquiry κ ν α) (s : σ) : w.Yields (w.run answer s).1 := by
  induction w generalizing s with
  | done a => rfl
  | ask q next ih => exact ⟨_, ih _ _⟩

/-- An answerer whose answers are of a kind in every state that it reaches. -/
theorem run_yieldsBy {ok : κ → ν → Prop} {P : σ → Prop} {w : Inquiry κ ν α}
    (hstep : ∀ q, w.Asks q → ∀ s, P s → ok q (answer q s).1 ∧ P (answer q s).2) {s : σ}
    (hs : P s) : w.YieldsBy ok (w.run answer s).1 := by
  induction w generalizing s with
  | done a => rfl
  | ask q next ih =>
    obtain ⟨hok, hs'⟩ := hstep q (Or.inl rfl) s hs
    exact ⟨_, hok, ih _ (fun q' hq' ↦ hstep q' (Or.inr ⟨_, hq'⟩)) hs'⟩

/-- Two answerers that give the same answers in related states give the same result. -/
theorem run_related (answer' : κ → τ → ν × τ) {R : σ → τ → Prop} {w : Inquiry κ ν α}
    (hstep : ∀ q, w.Asks q → ∀ s t, R s t →
      (answer q s).1 = (answer' q t).1 ∧ R (answer q s).2 (answer' q t).2)
    {s : σ} {t : τ} (hst : R s t) :
    (w.run answer s).1 = (w.run answer' t).1 ∧ R (w.run answer s).2 (w.run answer' t).2 := by
  induction w generalizing s t with
  | done a => exact ⟨rfl, hst⟩
  | ask q next ih =>
    obtain ⟨hanswer, hnext⟩ := hstep q (Or.inl rfl) s t hst
    have := ih (answer q s).1 (fun q' hq' ↦ hstep q' (Or.inr ⟨_, hq'⟩)) hnext
    rw [run, run, ← hanswer]
    exact this

/-- Answerers that agree on what may be asked give the same run. -/
theorem run_congr {answer' : κ → σ → ν × σ} {w : Inquiry κ ν α}
    (h : ∀ q, w.Asks q → ∀ s, answer q s = answer' q s) (s : σ) :
    w.run answer s = w.run answer' s := by
  induction w generalizing s with
  | done a => rfl
  | ask q next ih =>
    rw [run, run, h q (Or.inl rfl) s]
    exact ih _ (fun q' hq' ↦ h q' (Or.inr ⟨_, hq'⟩)) _

end Run

end Inquiry
