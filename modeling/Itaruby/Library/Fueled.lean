import Mathlib.Data.Finset.Card
import Mathlib.Data.List.Basic
import Mathlib.Logic.Relation

/-!
Computations that may not terminate, as functions of a budget that never change
their answer when the budget grows. They form a monad; `Returns` reads a
computation without mentioning the budget, and the rules below take a program
apart along its binds. The last part is the search loop over a stack with a set
of seen nodes.
-/

set_option autoImplicit false
set_option relaxedAutoImplicit false

namespace Itaruby

structure Fueled (α : Type) where
  run : ℕ → Option α
  mono : ∀ n a, run n = some a → run (n + 1) = some a

namespace Fueled

variable {α β : Type}

theorem run_mono (x : Fueled α) {n m : ℕ} (h : n ≤ m) {a : α} (hn : x.run n = some a) :
    x.run m = some a := by
  induction h with
  | refl => exact hn
  | step _ ih => exact x.mono _ _ ih

instance : Monad Fueled where
  pure a := ⟨fun _ ↦ some a, fun _ _ h ↦ h⟩
  bind x f := ⟨fun n ↦ (x.run n).bind fun a ↦ (f a).run n, by
    intro n b h
    obtain ⟨a, ha, hb⟩ := Option.bind_eq_some_iff.mp h
    exact Option.bind_eq_some_iff.mpr ⟨a, x.mono n a ha, (f a).mono n b hb⟩⟩

/-- The computation returns `a` once the budget is large enough. -/
def Returns (x : Fueled α) (a : α) : Prop := ∃ n, x.run n = some a

def Converges (x : Fueled α) : Prop := ∃ a, x.Returns a

theorem Returns.converges {x : Fueled α} {a : α} (h : x.Returns a) : x.Converges := ⟨a, h⟩

theorem Returns.unique {x : Fueled α} {a b : α} (ha : x.Returns a) (hb : x.Returns b) : a = b := by
  obtain ⟨n, hn⟩ := ha
  obtain ⟨m, hm⟩ := hb
  have hn' := x.run_mono (Nat.le_max_left n m) hn
  have hm' := x.run_mono (Nat.le_max_right n m) hm
  rw [hn'] at hm'
  exact Option.some.inj hm'

@[simp] theorem returns_pure {a b : α} : (pure a : Fueled α).Returns b ↔ a = b :=
  ⟨fun ⟨_, h⟩ ↦ Option.some.inj h, fun h ↦ ⟨0, congrArg some h⟩⟩

@[simp] theorem returns_bind {x : Fueled α} {f : α → Fueled β} {b : β} :
    (x >>= f).Returns b ↔ ∃ a, x.Returns a ∧ (f a).Returns b := by
  constructor
  · rintro ⟨n, h⟩
    obtain ⟨a, ha, hb⟩ := Option.bind_eq_some_iff.mp h
    exact ⟨a, ⟨n, ha⟩, n, hb⟩
  · rintro ⟨a, ⟨n, hn⟩, m, hm⟩
    refine ⟨max n m, Option.bind_eq_some_iff.mpr ⟨a, ?_, ?_⟩⟩
    · exact x.run_mono (Nat.le_max_left n m) hn
    · exact (f a).run_mono (Nat.le_max_right n m) hm

theorem Returns.bind_iff {x : Fueled α} {a : α} (hx : x.Returns a) {f : α → Fueled β} {b : β} :
    (x >>= f).Returns b ↔ (f a).Returns b := by
  rw [returns_bind]
  constructor
  · rintro ⟨a', ha', hb⟩
    rwa [hx.unique ha']
  · exact fun h ↦ ⟨a, hx, h⟩

@[simp] theorem returns_map {x : Fueled α} {f : α → β} {b : β} :
    (f <$> x).Returns b ↔ ∃ a, x.Returns a ∧ f a = b := by
  change (x >>= fun a ↦ pure (f a)).Returns b ↔ _
  simp

theorem converges_pure (a : α) : (pure a : Fueled α).Converges := ⟨a, returns_pure.mpr rfl⟩

theorem Converges.bind {x : Fueled α} {f : α → Fueled β} (hx : x.Converges)
    (hf : ∀ a, x.Returns a → (f a).Converges) : (x >>= f).Converges := by
  obtain ⟨a, ha⟩ := hx
  obtain ⟨b, hb⟩ := hf a ha
  exact ⟨b, returns_bind.mpr ⟨a, ha, hb⟩⟩

theorem Converges.map {x : Fueled α} (f : α → β) (hx : x.Converges) : (f <$> x).Converges := by
  obtain ⟨a, ha⟩ := hx
  exact ⟨f a, returns_map.mpr ⟨a, ha, rfl⟩⟩

/-! ### Alternatives

A computation that stops at the first answer of `x` and otherwise goes on.
-/

section Alternatives

variable {x : Fueled (Option α)} {f : Option α → Fueled (Option α)}
  (hstop : ∀ a, f (some a) = pure (some a))

include hstop

theorem returns_first_none : (x >>= f).Returns none ↔ x.Returns none ∧ (f none).Returns none := by
  rw [returns_bind]
  constructor
  · rintro ⟨answer, hanswer, h⟩
    cases answer with
    | none => exact ⟨hanswer, h⟩
    | some a => simp [hstop] at h
  · exact fun h ↦ ⟨none, h.1, h.2⟩

theorem returns_first_some {b : α} :
    (x >>= f).Returns (some b) ↔
      x.Returns (some b) ∨ x.Returns none ∧ (f none).Returns (some b) := by
  rw [returns_bind]
  constructor
  · rintro ⟨answer, hanswer, h⟩
    cases answer with
    | none => exact Or.inr ⟨hanswer, h⟩
    | some a =>
      rw [hstop, returns_pure] at h
      exact Or.inl (h ▸ hanswer)
  · rintro (h | h)
    · exact ⟨some b, h, by simp [hstop]⟩
    · exact ⟨none, h.1, h.2⟩

end Alternatives

/-! ### Lists -/

theorem converges_anyM {p : α → Fueled Bool} {l : List α} (h : ∀ a ∈ l, (p a).Converges) :
    (l.anyM p).Converges := by
  induction l with
  | nil => exact converges_pure false
  | cons a l ih =>
    rw [List.anyM]
    refine (h a List.mem_cons_self).bind fun b _ ↦ ?_
    cases b with
    | true => exact converges_pure true
    | false => exact ih fun c hc ↦ h c (List.mem_cons_of_mem _ hc)

theorem returns_anyM_false {p : α → Fueled Bool} {l : List α} :
    (l.anyM p).Returns false ↔ ∀ a ∈ l, (p a).Returns false := by
  induction l with
  | nil => simp [List.anyM]
  | cons a l ih =>
    rw [List.anyM, returns_bind]
    constructor
    · rintro ⟨b, hb, hrest⟩
      cases b with
      | true => simp at hrest
      | false =>
        intro c hc
        rcases List.mem_cons.mp hc with rfl | hc
        · exact hb
        · exact ih.mp hrest c hc
    · intro h
      exact ⟨false, h a List.mem_cons_self, ih.mpr fun c hc ↦ h c (List.mem_cons_of_mem _ hc)⟩

/-- The elements that pass a test, in order. -/
def filter (p : α → Fueled Bool) : List α → Fueled (List α)
  | [] => pure []
  | a :: rest => do
    let keep ← p a
    let more ← filter p rest
    return if keep then a :: more else more

theorem converges_filter {p : α → Fueled Bool} {l : List α} (h : ∀ a ∈ l, (p a).Converges) :
    (filter p l).Converges := by
  induction l with
  | nil => exact converges_pure []
  | cons a l ih =>
    refine (h a List.mem_cons_self).bind fun _ _ ↦ ?_
    exact (ih fun c hc ↦ h c (List.mem_cons_of_mem _ hc)).bind fun _ _ ↦ converges_pure _

theorem mem_of_returns_filter {p : α → Fueled Bool} {l kept : List α}
    (h : (filter p l).Returns kept) : ∀ a ∈ kept, a ∈ l ∧ (p a).Returns true := by
  induction l generalizing kept with
  | nil =>
    obtain rfl : [] = kept := returns_pure.mp h
    simp
  | cons b l ih =>
    obtain ⟨keep, hkeep, h⟩ := returns_bind.mp h
    obtain ⟨more, hmore, h⟩ := returns_bind.mp h
    obtain rfl := returns_pure.mp h
    intro a ha
    cases keep with
    | true =>
      rcases List.mem_cons.mp ha with rfl | ha
      · exact ⟨List.mem_cons_self, hkeep⟩
      · exact ⟨List.mem_cons_of_mem _ (ih hmore a ha).1, (ih hmore a ha).2⟩
    | false => exact ⟨List.mem_cons_of_mem _ (ih hmore a ha).1, (ih hmore a ha).2⟩

theorem returns_filter_nil {p : α → Fueled Bool} {l : List α} :
    (filter p l).Returns [] ↔ ∀ a ∈ l, (p a).Returns false := by
  induction l with
  | nil => simp [filter]
  | cons a l ih =>
    rw [filter, returns_bind]
    constructor
    · rintro ⟨keep, hkeep, h⟩
      obtain ⟨more, hmore, h⟩ := returns_bind.mp h
      have hout := returns_pure.mp h
      cases keep with
      | true => simp at hout
      | false =>
        obtain rfl : more = [] := by simpa using hout
        intro b hb
        rcases List.mem_cons.mp hb with rfl | hb
        · exact hkeep
        · exact ih.mp hmore b hb
    · intro h
      refine ⟨false, h a List.mem_cons_self, returns_bind.mpr ⟨[], ?_, returns_pure.mpr rfl⟩⟩
      exact ih.mpr fun b hb ↦ h b (List.mem_cons_of_mem _ hb)

theorem converges_of_filter {p : α → Fueled Bool} {l : List α} (h : (filter p l).Converges) :
    ∀ a ∈ l, (p a).Converges := by
  induction l with
  | nil => simp
  | cons b l ih =>
    obtain ⟨kept, h⟩ := h
    obtain ⟨keep, hkeep, h⟩ := returns_bind.mp h
    obtain ⟨more, hmore, -⟩ := returns_bind.mp h
    intro a ha
    rcases List.mem_cons.mp ha with rfl | ha
    · exact hkeep.converges
    · exact ih hmore.converges a ha

/-- The lists that the elements give, one after the other. -/
def gather (f : α → Fueled (List β)) : List α → Fueled (List β)
  | [] => pure []
  | a :: rest => do
    let here ← f a
    let more ← gather f rest
    return here ++ more

theorem returns_gather_cons {f : α → Fueled (List β)} {a : α} {rest : List α} {out : List β} :
    (gather f (a :: rest)).Returns out ↔
      ∃ here more, (f a).Returns here ∧ (gather f rest).Returns more ∧ out = here ++ more := by
  rw [gather]
  simp only [returns_bind, returns_pure]
  constructor
  · rintro ⟨here, hhere, more, hmore, rfl⟩
    exact ⟨here, more, hhere, hmore, rfl⟩
  · rintro ⟨here, more, hhere, hmore, rfl⟩
    exact ⟨here, hhere, more, hmore, rfl⟩

theorem returns_gather_append {f : α → Fueled (List β)} {l r : List α} {out : List β} :
    (gather f (l ++ r)).Returns out ↔
      ∃ first second, (gather f l).Returns first ∧ (gather f r).Returns second ∧
        out = first ++ second := by
  induction l generalizing out with
  | nil => simp [gather]
  | cons a l ih =>
    rw [List.cons_append, returns_gather_cons]
    simp only [ih, returns_gather_cons]
    constructor
    · rintro ⟨here, more, hhere, ⟨first, second, hfirst, hsecond, rfl⟩, rfl⟩
      refine ⟨here ++ first, second, ⟨here, first, hhere, hfirst, rfl⟩, hsecond, ?_⟩
      rw [List.append_assoc]
    · rintro ⟨out, second, ⟨here, first, hhere, hfirst, rfl⟩, hsecond, rfl⟩
      refine ⟨here, first ++ second, hhere, ⟨first, second, hfirst, hsecond, rfl⟩, ?_⟩
      rw [List.append_assoc]

theorem forall_of_returns_gather {f : α → Fueled (List β)} {P : β → Prop} {l : List α}
    (hP : ∀ a ∈ l, ∀ here, (f a).Returns here → ∀ b ∈ here, P b) {out : List β}
    (h : (gather f l).Returns out) : ∀ b ∈ out, P b := by
  induction l generalizing out with
  | nil =>
    obtain rfl : [] = out := returns_pure.mp h
    simp
  | cons a l ih =>
    obtain ⟨here, more, hhere, hmore, rfl⟩ := returns_gather_cons.mp h
    intro b hb
    rcases List.mem_append.mp hb with hb | hb
    · exact hP a List.mem_cons_self here hhere b hb
    · exact ih (fun c hc ↦ hP c (List.mem_cons_of_mem _ hc)) hmore b hb

/-! ### Searching below a node -/

section Search

variable [DecidableEq α] (kids : α → List α) (hit : α → Fueled Bool)

/-- The loop: pop a node, skip it when seen, stop at the first child that is a hit,
push the others. The budget also bounds the tests. -/
def searchLoop : ℕ → List α → List α → Option Bool
  | 0, _, _ => none
  | _ + 1, [], _ => some false
  | n + 1, cur :: stack, seen =>
    if cur ∈ seen then searchLoop n stack seen
    else
      match ((kids cur).anyM hit).run n with
      | none => none
      | some true => some true
      | some false => searchLoop n ((kids cur).reverse ++ stack) (cur :: seen)

theorem searchLoop_mono (n : ℕ) : ∀ (stack seen : List α) (b : Bool),
    searchLoop kids hit n stack seen = some b → searchLoop kids hit (n + 1) stack seen = some b := by
  induction n with
  | zero => intro stack seen b h; simp [searchLoop] at h
  | succ n ih =>
    intro stack seen b h
    cases stack with
    | nil => exact h
    | cons cur stack =>
      unfold searchLoop at h ⊢
      split_ifs at h ⊢ with hseen
      · exact ih _ _ _ h
      · cases hany : ((kids cur).anyM hit).run n with
        | none => simp [hany] at h
        | some found =>
          rw [((kids cur).anyM hit).mono n found hany]
          rw [hany] at h
          cases found with
          | true => exact h
          | false => exact ih _ _ _ h

/-- Is any node strictly below `root` a hit? -/
def search (root : α) : Fueled Bool :=
  ⟨fun n ↦ searchLoop kids hit n [root] [], fun n b h ↦ searchLoop_mono kids hit n _ _ b h⟩

/-- The relation the search follows. -/
def Child (a b : α) : Prop := b ∈ kids a

variable {kids hit}

/-- What holds of the stack and the seen nodes when the loop ends with `false`: the
nodes of the stack and of their subtrees get their children tested. -/
theorem searchLoop_false (n : ℕ) : ∀ (stack seen : List α),
    searchLoop kids hit n stack seen = some false →
      (∀ a ∈ seen, ∀ b ∈ kids a, (hit b).Returns false ∧ (b ∈ seen ∨ b ∈ stack)) →
        ∃ done : List α, (∀ a ∈ seen, a ∈ done) ∧ (∀ a ∈ stack, a ∈ done) ∧
          ∀ a ∈ done, ∀ b ∈ kids a, (hit b).Returns false ∧ b ∈ done := by
  induction n with
  | zero => intro stack seen h; simp [searchLoop] at h
  | succ n ih =>
    intro stack seen h hseen
    cases stack with
    | nil => exact ⟨seen, fun _ h ↦ h, by simp, by simpa using hseen⟩
    | cons cur stack =>
      unfold searchLoop at h
      split_ifs at h with hcur
      · obtain ⟨done, hsub, hstack, hdone⟩ := ih stack seen h (by
          intro a ha b hb
          obtain ⟨hf, hor⟩ := hseen a ha b hb
          refine ⟨hf, ?_⟩
          rcases hor with hor | hor
          · exact Or.inl hor
          · rcases List.mem_cons.mp hor with rfl | hor
            · exact Or.inl hcur
            · exact Or.inr hor)
        refine ⟨done, hsub, ?_, hdone⟩
        intro a ha
        rcases List.mem_cons.mp ha with rfl | ha
        · exact hsub a hcur
        · exact hstack a ha
      · cases hany : ((kids cur).anyM hit).run n with
        | none => simp [hany] at h
        | some found =>
          rw [hany] at h
          cases found with
          | true => simp at h
          | false =>
            have hkids : ∀ b ∈ kids cur, (hit b).Returns false :=
              returns_anyM_false.mp ⟨n, hany⟩
            obtain ⟨done, hsub, hstack, hdone⟩ := ih _ _ h (by
              intro a ha b hb
              rcases List.mem_cons.mp ha with rfl | ha
              · exact ⟨hkids b hb, Or.inr (by simp [hb])⟩
              · obtain ⟨hf, hor⟩ := hseen a ha b hb
                refine ⟨hf, ?_⟩
                rcases hor with hor | hor
                · exact Or.inl (List.mem_cons_of_mem _ hor)
                · rcases List.mem_cons.mp hor with rfl | hor
                  · exact Or.inl List.mem_cons_self
                  · exact Or.inr (List.mem_append_right _ hor))
            refine ⟨done, fun a ha ↦ hsub a (List.mem_cons_of_mem _ ha), ?_, hdone⟩
            intro a ha
            rcases List.mem_cons.mp ha with rfl | ha
            · exact hsub _ List.mem_cons_self
            · exact hstack a (List.mem_append_right _ ha)

/-- Within a finite set of children whose tests converge the loop ends: each round
either pops a seen node or sees a new one. -/
theorem searchLoop_converges {U : Finset α} (hU : ∀ a, ∀ b ∈ kids a, b ∈ U) {R : α → Prop}
    (hR : ∀ a b, R a → b ∈ kids a → R b)
    (hhit : ∀ a b, R a → b ∈ kids a → (hit b).Converges) (k : ℕ) :
    ∀ (stack seen : List α), (∀ a ∈ stack, R a ∧ a ∈ U) → (U.filter (· ∉ seen)).card = k →
      ∃ n b, searchLoop kids hit n stack seen = some b := by
  induction k using Nat.strong_induction_on with
  | _ k ih =>
    intro stack
    induction stack with
    | nil => exact fun seen _ _ ↦ ⟨1, false, rfl⟩
    | cons cur stack ihstack =>
      intro seen hstack hcard
      have hrest : ∀ a ∈ stack, R a ∧ a ∈ U := fun a ha ↦ hstack a (List.mem_cons_of_mem _ ha)
      by_cases hcur : cur ∈ seen
      · obtain ⟨n, b, hn⟩ := ihstack seen hrest hcard
        refine ⟨n + 1, b, ?_⟩
        rw [searchLoop, if_pos hcur, hn]
      · obtain ⟨hRcur, hUcur⟩ := hstack cur List.mem_cons_self
        obtain ⟨found, m, hm⟩ :=
          converges_anyM (p := hit) (l := kids cur) fun b hb ↦ hhit cur b hRcur hb
        cases found with
        | true =>
          refine ⟨m + 1, true, ?_⟩
          rw [searchLoop, if_neg hcur, hm]
        | false =>
          have hlt : (U.filter (· ∉ cur :: seen)).card < k := by
            rw [← hcard]
            refine Finset.card_lt_card (Finset.ssubset_iff_subset_ne.mpr ⟨?_, ?_⟩)
            · intro z hz
              rw [Finset.mem_filter] at hz ⊢
              exact ⟨hz.1, fun hzv ↦ hz.2 (List.mem_cons_of_mem _ hzv)⟩
            · intro heq
              have hmem : cur ∈ U.filter (· ∉ seen) := Finset.mem_filter.mpr ⟨hUcur, hcur⟩
              rw [← heq, Finset.mem_filter] at hmem
              exact hmem.2 List.mem_cons_self
          obtain ⟨n, b, hn⟩ := ih _ hlt ((kids cur).reverse ++ stack) (cur :: seen) (by
            intro a ha
            rcases List.mem_append.mp ha with ha | ha
            · have ha' := List.mem_reverse.mp ha
              exact ⟨hR cur a hRcur ha', hU cur a ha'⟩
            · exact hrest a ha) rfl
          refine ⟨max n m + 1, b, ?_⟩
          rw [searchLoop, if_neg hcur, ((kids cur).anyM hit).run_mono (Nat.le_max_right n m) hm]
          have hmono : ∀ d, searchLoop kids hit (n + d) ((kids cur).reverse ++ stack)
              (cur :: seen) = some b := by
            intro d
            induction d with
            | zero => exact hn
            | succ d ihd => exact searchLoop_mono kids hit _ _ _ _ ihd
          have h := hmono (max n m - n)
          rwa [Nat.add_sub_cancel' (Nat.le_max_left n m)] at h

theorem search_converges {U : Finset α} (hU : ∀ a, ∀ b ∈ kids a, b ∈ U) {root : α}
    (hhit : ∀ b, Relation.TransGen (Child kids) root b → (hit b).Converges) :
    (search kids hit root).Converges := by
  obtain ⟨n, b, hn⟩ := searchLoop_converges (U := insert root U)
    (R := Relation.ReflTransGen (Child kids) root)
    (fun a b hb ↦ Finset.mem_insert_of_mem (hU a b hb)) (fun a b ha hb ↦ ha.tail hb)
    (fun a b ha hb ↦ hhit b (Relation.TransGen.tail' ha hb)) _ [root] []
    (by simp [Relation.ReflTransGen.refl]) rfl
  exact ⟨b, n, hn⟩

theorem searchLoop_ne_true {root : α}
    (h : ∀ b, Relation.TransGen (Child kids) root b → (hit b).Returns false) (n : ℕ) :
    ∀ stack seen : List α, (∀ a ∈ stack, Relation.ReflTransGen (Child kids) root a) →
      searchLoop kids hit n stack seen ≠ some true := by
  induction n with
  | zero => intro stack seen _ hs; simp [searchLoop] at hs
  | succ n ih =>
    intro stack seen hstack hs
    cases stack with
    | nil => simp [searchLoop] at hs
    | cons cur stack =>
      have hrest : ∀ a ∈ stack, Relation.ReflTransGen (Child kids) root a :=
        fun a ha ↦ hstack a (List.mem_cons_of_mem _ ha)
      have hcur := hstack cur List.mem_cons_self
      unfold searchLoop at hs
      split_ifs at hs with hseen
      · exact ih _ _ hrest hs
      · have hany : ((kids cur).anyM hit).Returns false :=
          returns_anyM_false.mpr fun c hc ↦ h c (Relation.TransGen.tail' hcur hc)
        cases hrun : ((kids cur).anyM hit).run n with
        | none => simp [hrun] at hs
        | some found =>
          obtain rfl : found = false := Returns.unique ⟨n, hrun⟩ hany
          rw [hrun] at hs
          refine ih _ _ ?_ hs
          intro a ha
          rcases List.mem_append.mp ha with ha | ha
          · exact hcur.tail (List.mem_reverse.mp ha)
          · exact hrest a ha

/-- The search answers `false` exactly when every node below the root is tested
and is no hit. -/
theorem search_returns_false_iff {U : Finset α} (hU : ∀ a, ∀ b ∈ kids a, b ∈ U) {root : α} :
    (search kids hit root).Returns false ↔
      ∀ b, Relation.TransGen (Child kids) root b → (hit b).Returns false := by
  have hsound : (search kids hit root).Returns false →
      ∀ b, Relation.TransGen (Child kids) root b → (hit b).Returns false := by
    rintro ⟨n, hn⟩ b hb
    obtain ⟨done, -, hroot, hdone⟩ := searchLoop_false n [root] [] hn (by simp)
    have hmem : ∀ c, Relation.TransGen (Child kids) root c → (hit c).Returns false ∧ c ∈ done := by
      intro c hc
      induction hc with
      | single hstep => exact hdone root (hroot root List.mem_cons_self) _ hstep
      | tail _ hstep ih => exact hdone _ ih.2 _ hstep
    exact (hmem b hb).1
  refine ⟨hsound, fun h ↦ ?_⟩
  obtain ⟨b, hb⟩ := search_converges hU fun c hc ↦ (h c hc).converges
  cases b with
  | false => exact hb
  | true =>
    obtain ⟨n, hn⟩ := hb
    exact absurd hn (searchLoop_ne_true h n [root] [] (by simp [Relation.ReflTransGen.refl]))

end Search

/-! ### Repeating a step -/

section Iterate

variable {σ ρ : Type} (step : σ → Fueled (σ ⊕ ρ))

def iterateLoop : ℕ → σ → Option ρ
  | 0, _ => none
  | n + 1, s =>
    match (step s).run n with
    | none => none
    | some (.inl s') => iterateLoop n s'
    | some (.inr r) => some r

theorem iterateLoop_mono (n : ℕ) : ∀ (s : σ) (r : ρ),
    iterateLoop step n s = some r → iterateLoop step (n + 1) s = some r := by
  induction n with
  | zero => intro s r h; simp [iterateLoop] at h
  | succ n ih =>
    intro s r h
    unfold iterateLoop at h ⊢
    cases hrun : (step s).run n with
    | none => simp [hrun] at h
    | some next =>
      rw [(step s).mono n next hrun]
      rw [hrun] at h
      cases next with
      | inl s' => exact ih _ _ h
      | inr r' => exact h

/-- Repeat the step until it answers. -/
def iterate (s : σ) : Fueled ρ :=
  ⟨fun n ↦ iterateLoop step n s, fun n r h ↦ iterateLoop_mono step n s r h⟩

variable {step}

theorem returns_iterate_of_inr {s : σ} {r : ρ} (h : (step s).Returns (.inr r)) :
    (iterate step s).Returns r := by
  obtain ⟨n, hn⟩ := h
  refine ⟨n + 1, ?_⟩
  change iterateLoop step (n + 1) s = some r
  rw [iterateLoop, hn]

theorem returns_iterate_of_inl {s s' : σ} {r : ρ} (h : (step s).Returns (.inl s'))
    (h' : (iterate step s').Returns r) : (iterate step s).Returns r := by
  obtain ⟨n, hn⟩ := h
  obtain ⟨m, hm⟩ := h'
  refine ⟨max n m + 1, ?_⟩
  change iterateLoop step (max n m + 1) s = some r
  rw [iterateLoop, (step s).run_mono (Nat.le_max_left n m) hn]
  exact (iterate step s').run_mono (Nat.le_max_right n m) hm

/-- What every step keeps holds where the repetition ends. -/
theorem iterate_invariant {I : σ → Prop} {Q : ρ → Prop}
    (hnext : ∀ s s', I s → (step s).Returns (.inl s') → I s')
    (hdone : ∀ s r, I s → (step s).Returns (.inr r) → Q r) {s : σ} {r : ρ} (hs : I s)
    (h : (iterate step s).Returns r) : Q r := by
  obtain ⟨n, hn⟩ := h
  change iterateLoop step n s = some r at hn
  induction n generalizing s with
  | zero => simp [iterateLoop] at hn
  | succ n ih =>
    unfold iterateLoop at hn
    cases hrun : (step s).run n with
    | none => simp [hrun] at hn
    | some next =>
      rw [hrun] at hn
      cases next with
      | inl s' => exact ih (hnext s s' hs ⟨n, hrun⟩) hn
      | inr r' =>
        obtain rfl := Option.some.inj hn
        exact hdone s r' hs ⟨n, hrun⟩

theorem step_converges_of_iterate {s : σ} (h : (iterate step s).Converges) :
    (step s).Converges := by
  obtain ⟨r, n, hn⟩ := h
  change iterateLoop step n s = some r at hn
  cases n with
  | zero => simp [iterateLoop] at hn
  | succ n =>
    unfold iterateLoop at hn
    cases hrun : (step s).run n with
    | none => simp [hrun] at hn
    | some next => exact ⟨next, n, hrun⟩

/-- A step that converges on an invariant and lowers a measure is repeated to an end. -/
theorem iterate_converges {I : σ → Prop} (μ : σ → ℕ) (hstep : ∀ s, I s → (step s).Converges)
    (hnext : ∀ s s', I s → (step s).Returns (.inl s') → I s' ∧ μ s' < μ s) (s : σ) (hs : I s) :
    (iterate step s).Converges := by
  induction hμ : μ s using Nat.strong_induction_on generalizing s with
  | _ k ih =>
    obtain ⟨next, hn⟩ := hstep s hs
    cases next with
    | inl s' =>
      obtain ⟨hs', hlt⟩ := hnext s s' hs hn
      obtain ⟨r, hr⟩ := ih (μ s') (hμ ▸ hlt) s' hs' rfl
      exact ⟨r, returns_iterate_of_inl hn hr⟩
    | inr r => exact ⟨r, returns_iterate_of_inr hn⟩

end Iterate

end Fueled

end Itaruby
