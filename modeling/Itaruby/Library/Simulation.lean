import Itaruby.Library.Fueled
import Mathlib.Data.Sum.Basic
import Mathlib.Order.BooleanAlgebra.Defs

/-!
Two computations side by side: whatever the first one returns, the second one
returns a value related to it. Each construct has its rule, so that two programs
of one shape are compared along the shape. A search whose test hits more often
may end earlier, and then only with a hit.
-/

set_option autoImplicit false
set_option relaxedAutoImplicit false

namespace Itaruby

namespace Fueled

variable {α β γ δ : Type}

def Simulates (R : α → β → Prop) (x : Fueled α) (y : Fueled β) : Prop :=
  ∀ a, x.Returns a → ∃ b, y.Returns b ∧ R a b

namespace Simulates

variable {R R' : α → β → Prop} {S : γ → δ → Prop} {x : Fueled α} {y : Fueled β}

theorem pure {a : α} {b : β} (h : R a b) : Simulates R (Pure.pure a) (Pure.pure b) := by
  intro a' ha'
  obtain rfl := returns_pure.mp ha'
  exact ⟨b, returns_pure.mpr rfl, h⟩

/-- The second computation has an answer that fits any value. -/
theorem of_forall {b : β} (h : ∀ a, R a b) : Simulates R x (Pure.pure b) :=
  fun a _ ↦ ⟨b, returns_pure.mpr rfl, h a⟩

theorem refl {R : α → α → Prop} (h : ∀ a, R a a) (x : Fueled α) : Simulates R x x :=
  fun a ha ↦ ⟨a, ha, h a⟩

theorem mono (h : Simulates R x y) (himp : ∀ a b, R a b → R' a b) : Simulates R' x y := by
  intro a ha
  obtain ⟨b, hb, hab⟩ := h a ha
  exact ⟨b, hb, himp a b hab⟩

theorem bind (h : Simulates R x y) {f : α → Fueled γ} {g : β → Fueled δ}
    (hfg : ∀ a b, R a b → Simulates S (f a) (g b)) : Simulates S (x >>= f) (y >>= g) := by
  intro c hc
  obtain ⟨a, ha, hc⟩ := returns_bind.mp hc
  obtain ⟨b, hb, hab⟩ := h a ha
  obtain ⟨d, hd, hcd⟩ := hfg a b hab c hc
  exact ⟨d, returns_bind.mpr ⟨b, hb, hd⟩, hcd⟩

/-- The same computation first, whatever follows. -/
theorem bind_same (x : Fueled α) {f : α → Fueled γ} {g : α → Fueled δ}
    (hfg : ∀ a, Simulates S (f a) (g a)) : Simulates S (x >>= f) (x >>= g) := by
  refine (refl (fun _ ↦ rfl) x).bind fun a b hab ↦ ?_
  obtain rfl : a = b := hab
  exact hfg a

theorem converges (h : Simulates R x y) (hx : x.Converges) : y.Converges := by
  obtain ⟨a, ha⟩ := hx
  obtain ⟨b, hb, -⟩ := h a ha
  exact ⟨b, hb⟩

end Simulates

theorem simulates_anyM {p q : α → Fueled Bool} {l : List α}
    (h : ∀ a ∈ l, Simulates (· ≤ ·) (p a) (q a)) :
    Simulates (· ≤ ·) (l.anyM p) (l.anyM q) := by
  induction l with
  | nil => exact .refl (fun _ ↦ le_rfl) _
  | cons a l ih =>
    rw [List.anyM, List.anyM]
    refine (h a List.mem_cons_self).bind fun b b' hle ↦ ?_
    cases b' with
    | true => exact .of_forall fun _ ↦ Bool.le_true _
    | false =>
      obtain rfl : b = false := Bool.eq_false_of_le_false hle
      exact ih fun c hc ↦ h c (List.mem_cons_of_mem _ hc)

section Search

variable [DecidableEq α] {kids : α → List α} {hit hit' : α → Fueled Bool}

theorem searchLoop_le {n m : ℕ} (hle : n ≤ m) {stack seen : List α} {b : Bool}
    (h : searchLoop kids hit n stack seen = some b) :
    searchLoop kids hit m stack seen = some b := by
  induction hle with
  | refl => exact h
  | step _ ih => exact searchLoop_mono kids hit _ _ _ _ ih

theorem simulates_searchLoop (h : ∀ a, Simulates (· ≤ ·) (hit a) (hit' a)) (n : ℕ) :
    ∀ (stack seen : List α) (b : Bool), searchLoop kids hit n stack seen = some b →
      ∃ m b', searchLoop kids hit' m stack seen = some b' ∧ b ≤ b' := by
  induction n with
  | zero => intro stack seen b hb; simp [searchLoop] at hb
  | succ n ih =>
    intro stack seen b hb
    cases stack with
    | nil => exact ⟨1, b, by rwa [searchLoop] at hb ⊢, le_rfl⟩
    | cons cur stack =>
      rw [searchLoop] at hb
      split_ifs at hb with hseen
      · obtain ⟨m, b', hb', hle⟩ := ih _ _ _ hb
        exact ⟨m + 1, b', by rwa [searchLoop, if_pos hseen], hle⟩
      · cases hany : ((kids cur).anyM hit).run n with
        | none => simp [hany] at hb
        | some found =>
          obtain ⟨found', ⟨m, hm⟩, hfound⟩ := simulates_anyM (fun a _ ↦ h a) found ⟨n, hany⟩
          rw [hany] at hb
          cases found' with
          | true => exact ⟨m + 1, true, by rw [searchLoop, if_neg hseen, hm], Bool.le_true b⟩
          | false =>
            obtain rfl : found = false := Bool.eq_false_of_le_false hfound
            obtain ⟨k, b', hb', hle⟩ := ih _ _ _ hb
            refine ⟨max m k + 1, b', ?_, hle⟩
            rw [searchLoop, if_neg hseen, run_mono _ (Nat.le_max_left m k) hm]
            exact searchLoop_le (Nat.le_max_right m k) hb'

theorem simulates_search (h : ∀ a, Simulates (· ≤ ·) (hit a) (hit' a)) (root : α) :
    Simulates (· ≤ ·) (search kids hit root) (search kids hit' root) := by
  rintro b ⟨n, hn⟩
  obtain ⟨m, b', hb', hle⟩ := simulates_searchLoop h n [root] [] b hn
  exact ⟨b', ⟨m, hb'⟩, hle⟩

end Search

section Iterate

variable {σ τ ρ υ : Type} {step : σ → Fueled (σ ⊕ ρ)} {step' : τ → Fueled (τ ⊕ υ)}

/-- Two repetitions stay together as long as their steps do. -/
theorem simulates_iterate {I : σ → τ → Prop} {Q : ρ → υ → Prop}
    (h : ∀ s t, I s t → Simulates (Sum.LiftRel I Q) (step s) (step' t)) {s : σ} {t : τ}
    (hst : I s t) : Simulates Q (iterate step s) (iterate step' t) := by
  rintro r ⟨n, hn⟩
  change iterateLoop step n s = some r at hn
  induction n generalizing s t with
  | zero => simp [iterateLoop] at hn
  | succ n ih =>
    rw [iterateLoop] at hn
    cases hrun : (step s).run n with
    | none => simp [hrun] at hn
    | some next =>
      rw [hrun] at hn
      obtain ⟨next', hnext', hrel⟩ := h s t hst next ⟨n, hrun⟩
      cases hrel with
      | inl hst' =>
        obtain ⟨r', hr', hQ⟩ := ih hst' hn
        exact ⟨r', returns_iterate_of_inl hnext' hr', hQ⟩
      | inr hQ =>
        obtain rfl := Option.some.inj hn
        exact ⟨_, returns_iterate_of_inr hnext', hQ⟩

end Iterate

end Fueled

end Itaruby
