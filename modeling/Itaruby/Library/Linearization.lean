import Mathlib.Data.Finset.Card
import Mathlib.Data.Finset.Lattice.Fold
import Mathlib.Data.List.ReduceOption
import Mathlib.Logic.Relation
import Mathlib.Order.WellFounded

/-!
Depth-first linearization of a graph whose edges may themselves have to be
computed. Expanding a node can ask for the complete linearization of one other
node, started afresh with an empty visited set; the walk is therefore a partial
function, modelled with a depth budget. What a finished walk satisfies is
`Grows`; when it finishes at all is `terminates_iff_settled`.
-/

set_option autoImplicit false
set_option relaxedAutoImplicit false

namespace Itaruby.Linearization

variable {α : Type*}

/-- The entries listed before and after a node. An entry is `none` when its name
leads nowhere, and an untrusted node spoils the completeness of the walk. -/
structure Expansion (α : Type*) where
  before : List (Option α)
  after : List (Option α)
  trusted : Bool

namespace Expansion

def Lists (e : Expansion α) (w : α) : Prop := some w ∈ e.before ∨ some w ∈ e.after

/-- Every entry leads somewhere and the node itself is trusted. -/
def Definite (e : Expansion α) : Prop := e.trusted = true ∧ none ∉ e.before ∧ none ∉ e.after

end Expansion

structure State (α : Type*) where
  out : List α := []
  visited : List α := []
  complete : Bool := true

namespace State

def enter (st : State α) (x : α) (trusted : Bool) : State α :=
  { st with visited := x :: st.visited, complete := st.complete && trusted }

def emit (st : State α) (x : α) : State α := { st with out := st.out ++ [x] }

def spoil (st : State α) : State α := { st with complete := false }

end State

/-- How a node expands: the node whose linearization it asks for, if any, and the
expansion as a function of the answer. -/
structure Expander (α : Type*) where
  asks : α → Option α
  build : α → Option (List α) → Expansion α

def visitAll (visit : α → State α → Option (State α)) :
    List (Option α) → State α → Option (State α)
  | [], st => some st
  | none :: rest, st => visitAll visit rest st.spoil
  | some x :: rest, st => (visit x st).bind (visitAll visit rest)

namespace Expander

variable (E : Expander α)

def expand (ask : α → Option (List α)) (x : α) : Option (Expansion α) :=
  match E.asks x with
  | none => some (E.build x none)
  | some y => (ask y).map fun chain ↦ E.build x (some chain)

variable [DecidableEq α]

/-- The walk. The budget bounds the depth of the recursion, the asked
linearizations included; `none` means that the budget ran out. -/
def visit : ℕ → α → State α → Option (State α)
  | 0, _, _ => none
  | n + 1, x, st =>
    if x ∈ st.visited then some st
    else
      (E.expand (fun y ↦ (visit n y {}).map State.out) x).bind fun e ↦
        (visitAll (visit n) e.before (st.enter x e.trusted)).bind fun st' ↦
          visitAll (visit n) e.after (st'.emit x)

def expandAt (n : ℕ) (x : α) : Option (Expansion α) :=
  E.expand (fun y ↦ (E.visit n y {}).map State.out) x

theorem visit_succ (n : ℕ) (x : α) (st : State α) :
    E.visit (n + 1) x st =
      if x ∈ st.visited then some st
      else (E.expandAt n x).bind fun e ↦
        (visitAll (E.visit n) e.before (st.enter x e.trusted)).bind fun st' ↦
          visitAll (E.visit n) e.after (st'.emit x) := rfl

/-! ### More budget never changes an answer -/

end Expander

theorem visitAll_mono {visit visit' : α → State α → Option (State α)}
    (h : ∀ x st st', visit x st = some st' → visit' x st = some st') (l : List (Option α)) :
    ∀ st st' : State α, visitAll visit l st = some st' → visitAll visit' l st = some st' := by
  induction l with
  | nil => exact fun _ _ hl ↦ hl
  | cons entry rest ih =>
    intro st st' hl
    cases entry with
    | none => exact ih _ _ hl
    | some x =>
      obtain ⟨mid, hx, hrest⟩ := Option.bind_eq_some_iff.mp hl
      exact Option.bind_eq_some_iff.mpr ⟨mid, h _ _ _ hx, ih _ _ hrest⟩

namespace Expander

variable (E : Expander α)

theorem expand_mono {ask ask' : α → Option (List α)}
    (h : ∀ y chain, ask y = some chain → ask' y = some chain) {x : α} {e : Expansion α}
    (he : E.expand ask x = some e) : E.expand ask' x = some e := by
  unfold expand at he ⊢
  cases hasks : E.asks x with
  | none => simpa [hasks] using he
  | some y =>
    simp only [hasks, Option.map_eq_some_iff] at he ⊢
    obtain ⟨chain, hchain, rfl⟩ := he
    exact ⟨chain, h _ _ hchain, rfl⟩

variable [DecidableEq α] {E}

theorem visit_step_mono (n : ℕ) : ∀ (x : α) (st st' : State α),
    E.visit n x st = some st' → E.visit (n + 1) x st = some st' := by
  induction n with
  | zero => intro x st st' h; simp [visit] at h
  | succ n ih =>
    intro x st st' h
    rw [visit_succ] at h ⊢
    split_ifs at h ⊢ with hx
    · exact h
    · obtain ⟨e, he, h⟩ := Option.bind_eq_some_iff.mp h
      obtain ⟨mid, hbefore, hafter⟩ := Option.bind_eq_some_iff.mp h
      have hask : ∀ y chain, (E.visit n y {}).map State.out = some chain →
          (E.visit (n + 1) y {}).map State.out = some chain := by
        intro y chain hy
        obtain ⟨r, hr, rfl⟩ := Option.map_eq_some_iff.mp hy
        exact Option.map_eq_some_iff.mpr ⟨r, ih _ _ _ hr, rfl⟩
      refine Option.bind_eq_some_iff.mpr ⟨e, E.expand_mono hask he, ?_⟩
      exact Option.bind_eq_some_iff.mpr
        ⟨mid, visitAll_mono ih _ _ _ hbefore, visitAll_mono ih _ _ _ hafter⟩

theorem visit_mono {n m : ℕ} (hnm : n ≤ m) {x : α} {st st' : State α}
    (h : E.visit n x st = some st') : E.visit m x st = some st' := by
  induction hnm with
  | refl => exact h
  | step _ ih => exact visit_step_mono _ _ _ _ ih

theorem expandAt_mono {n m : ℕ} (hnm : n ≤ m) {x : α} {e : Expansion α}
    (h : E.expandAt n x = some e) : E.expandAt m x = some e := by
  refine E.expand_mono ?_ h
  intro y chain hy
  obtain ⟨r, hr, rfl⟩ := Option.map_eq_some_iff.mp hy
  exact Option.map_eq_some_iff.mpr ⟨r, visit_mono hnm hr, rfl⟩

theorem visit_unique {n m : ℕ} {x : α} {st a b : State α}
    (ha : E.visit n x st = some a) (hb : E.visit m x st = some b) : a = b := by
  have ha' := visit_mono (Nat.le_max_left n m) ha
  have hb' := visit_mono (Nat.le_max_right n m) hb
  rw [ha'] at hb'
  exact Option.some.inj hb'

theorem expandAt_unique {n m : ℕ} {x : α} {a b : Expansion α}
    (ha : E.expandAt n x = some a) (hb : E.expandAt m x = some b) : a = b := by
  have ha' := expandAt_mono (Nat.le_max_left n m) ha
  have hb' := expandAt_mono (Nat.le_max_right n m) hb
  rw [ha'] at hb'
  exact Option.some.inj hb'

theorem asked_of_expandAt {n : ℕ} {x y : α} {e : Expansion α} (h : E.expandAt n x = some e)
    (hasks : E.asks x = some y) : ∃ st, E.visit n y {} = some st ∧ e = E.build x (some st.out) := by
  unfold expandAt expand at h
  simp only [hasks, Option.map_eq_some_iff] at h
  obtain ⟨_, ⟨st, hst, rfl⟩, rfl⟩ := h
  exact ⟨st, hst, rfl⟩

theorem expandAt_of_asks_none {x : α} (n : ℕ) (hasks : E.asks x = none) :
    E.expandAt n x = some (E.build x none) := by
  simp [expandAt, expand, hasks]

theorem expandAt_of_asked {n : ℕ} {x y : α} {st : State α} (hasks : E.asks x = some y)
    (hst : E.visit n y {} = some st) : E.expandAt n x = some (E.build x (some st.out)) := by
  simp [expandAt, expand, hasks, hst]

theorem build_of_expandAt {n : ℕ} {x : α} {e : Expansion α} (h : E.expandAt n x = some e) :
    ∃ chain, e = E.build x chain := by
  cases hasks : E.asks x with
  | none =>
    rw [expandAt_of_asks_none n hasks] at h
    exact ⟨none, (Option.some.inj h).symm⟩
  | some y =>
    obtain ⟨st, -, rfl⟩ := asked_of_expandAt h hasks
    exact ⟨some st.out, rfl⟩

/-! ### What a finished walk has done -/

variable (E) in
/-- The edge from a node whose expansion is known to an entry it lists. -/
def Edge (v w : α) : Prop := ∃ n e, E.expandAt n v = some e ∧ e.Lists w

variable (E) in
/-- A walk of budget `n + 1` from the sources `Src` that added `new`. `Resolved` says
that every entry it started from leads somewhere. -/
structure Grows (n : ℕ) (Src : α → Prop) (st : State α) (new : List α) (st' : State α)
    (Resolved : Prop) : Prop where
  out_eq : st'.out = st.out ++ new
  mem_visited : ∀ y, y ∈ st'.visited ↔ y ∈ st.visited ∨ y ∈ new
  nodup : new.Nodup
  fresh : ∀ y ∈ new, y ∉ st.visited
  source : ∀ y, Src y → y ∈ st'.visited
  closed : ∀ v ∈ new, ∃ e, E.expandAt n v = some e ∧ ∀ w, e.Lists w → w ∈ st'.visited
  reached : ∀ v ∈ new, ∃ r, Src r ∧ Relation.ReflTransGen E.Edge r v
  complete_iff : st'.complete = true ↔
    st.complete = true ∧ Resolved ∧ ∀ v ∈ new, ∀ e, E.expandAt n v = some e → e.Definite

theorem Grows.nil {n : ℕ} {Src : α → Prop} {st : State α}
    (hsrc : ∀ y, Src y → y ∈ st.visited) : E.Grows n Src st [] st True where
  out_eq := by simp
  mem_visited := by simp
  nodup := List.nodup_nil
  fresh := by simp
  source := hsrc
  closed := by simp
  reached := by simp
  complete_iff := by simp

theorem Grows.append {n : ℕ} {Src Src' All : α → Prop} {st mid st' : State α} {a b : List α}
    {P Q : Prop} (h : E.Grows n Src st a mid P) (h' : E.Grows n Src' mid b st' Q)
    (hall : ∀ y, All y ↔ Src y ∨ Src' y) : E.Grows n All st (a ++ b) st' (P ∧ Q) where
  out_eq := by rw [h'.out_eq, h.out_eq, List.append_assoc]
  mem_visited := by
    intro y
    rw [h'.mem_visited, h.mem_visited, List.mem_append, or_assoc]
  nodup := by
    refine List.nodup_append.mpr ⟨h.nodup, h'.nodup, ?_⟩
    rintro y hya z hzb rfl
    exact h'.fresh y hzb ((h.mem_visited y).mpr (Or.inr hya))
  fresh := by
    intro y hy
    rcases List.mem_append.mp hy with hy | hy
    · exact h.fresh y hy
    · exact fun hv ↦ h'.fresh y hy ((h.mem_visited y).mpr (Or.inl hv))
  source := by
    intro y hy
    rcases (hall y).mp hy with hy | hy
    · exact (h'.mem_visited y).mpr (Or.inl (h.source y hy))
    · exact h'.source y hy
  closed := by
    intro v hv
    rcases List.mem_append.mp hv with hv | hv
    · obtain ⟨e, he, hw⟩ := h.closed v hv
      exact ⟨e, he, fun w hl ↦ (h'.mem_visited w).mpr (Or.inl (hw w hl))⟩
    · exact h'.closed v hv
  reached := by
    intro v hv
    rcases List.mem_append.mp hv with hv | hv
    · obtain ⟨r, hr, hrv⟩ := h.reached v hv
      exact ⟨r, (hall r).mpr (Or.inl hr), hrv⟩
    · obtain ⟨r, hr, hrv⟩ := h'.reached v hv
      exact ⟨r, (hall r).mpr (Or.inr hr), hrv⟩
  complete_iff := by
    rw [h'.complete_iff, h.complete_iff]
    simp only [List.mem_append, or_imp, forall_and]
    tauto

/-- The walk below one fresh node: its entries before, the node, its entries after. -/
theorem Grows.node {n : ℕ} {x : α} {st mid st' : State α} {e : Expansion α} {a b : List α}
    (hx : x ∉ st.visited) (he : E.expandAt n x = some e)
    (hbefore : E.Grows n (fun y ↦ some y ∈ e.before) (st.enter x e.trusted) a mid
      (none ∉ e.before))
    (hafter : E.Grows n (fun y ↦ some y ∈ e.after) (mid.emit x) b st' (none ∉ e.after)) :
    E.Grows n (· = x) st (a ++ x :: b) st' True := by
  have hmid : ∀ y, y ∈ mid.visited ↔ y = x ∨ y ∈ st.visited ∨ y ∈ a := by
    intro y
    rw [hbefore.mem_visited]
    simp [State.enter, or_assoc]
  have hst' : ∀ y, y ∈ st'.visited ↔ y ∈ mid.visited ∨ y ∈ b := hafter.mem_visited
  have hedge : ∀ w, e.Lists w → E.Edge x w := fun w hw ↦ ⟨n, e, he, hw⟩
  constructor
  · rw [hafter.out_eq]
    simp [State.emit, hbefore.out_eq, State.enter]
  · intro y
    rw [hst', hmid]
    simp only [List.mem_append, List.mem_cons]
    tauto
  · have hxa : x ∉ a := fun h ↦ hbefore.fresh x h (by simp [State.enter])
    have hxb : x ∉ b := fun h ↦ hafter.fresh x h ((hmid x).mpr (Or.inl rfl))
    refine List.nodup_append.mpr ⟨hbefore.nodup, List.nodup_cons.mpr ⟨hxb, hafter.nodup⟩, ?_⟩
    rintro y hya z hz rfl
    rcases List.mem_cons.mp hz with rfl | hyb
    · exact hxa hya
    · exact hafter.fresh y hyb ((hmid y).mpr (Or.inr (Or.inr hya)))
  · intro y hy hv
    rcases List.mem_append.mp hy with hya | hyb
    · exact hbefore.fresh y hya (by simp [State.enter, hv])
    · rcases List.mem_cons.mp hyb with rfl | hyb
      · exact hx hv
      · exact hafter.fresh y hyb ((hmid y).mpr (Or.inr (Or.inl hv)))
  · rintro y rfl
    exact (hst' y).mpr (Or.inl ((hmid y).mpr (Or.inl rfl)))
  · intro v hv
    rcases List.mem_append.mp hv with hva | hvb
    · obtain ⟨ev, hev, hw⟩ := hbefore.closed v hva
      exact ⟨ev, hev, fun w hl ↦ (hst' w).mpr (Or.inl (hw w hl))⟩
    · rcases List.mem_cons.mp hvb with rfl | hvb
      · refine ⟨e, he, fun w hl ↦ ?_⟩
        rcases hl with hl | hl
        · exact (hst' w).mpr (Or.inl (hbefore.source w hl))
        · exact hafter.source w hl
      · exact hafter.closed v hvb
  · intro v hv
    refine ⟨x, rfl, ?_⟩
    rcases List.mem_append.mp hv with hva | hvb
    · obtain ⟨r, hr, hrv⟩ := hbefore.reached v hva
      exact Relation.ReflTransGen.head (hedge r (Or.inl hr)) hrv
    · rcases List.mem_cons.mp hvb with rfl | hvb
      · exact Relation.ReflTransGen.refl
      · obtain ⟨r, hr, hrv⟩ := hafter.reached v hvb
        exact Relation.ReflTransGen.head (hedge r (Or.inr hr)) hrv
  · have hxe : (∀ e', E.expandAt n x = some e' → e'.Definite) ↔ e.Definite :=
      ⟨fun h ↦ h e he, fun h e' he' ↦ (Option.some.inj (he.symm.trans he')) ▸ h⟩
    have hall : (∀ v ∈ a ++ x :: b, ∀ e', E.expandAt n v = some e' → e'.Definite) ↔
        (∀ v ∈ a, ∀ e', E.expandAt n v = some e' → e'.Definite) ∧ e.Definite ∧
          ∀ v ∈ b, ∀ e', E.expandAt n v = some e' → e'.Definite := by
      rw [← hxe]
      simp [or_imp, forall_and]
    rw [hafter.complete_iff, hall]
    change mid.complete = true ∧ _ ∧ _ ↔ _
    rw [hbefore.complete_iff]
    simp only [State.enter, Bool.and_eq_true]
    unfold Expansion.Definite
    tauto

/-- A walk of some budget is also a walk of the next one. -/
theorem Grows.lift {n : ℕ} {Src : α → Prop} {st st' : State α} {new : List α} {P : Prop}
    (g : E.Grows n Src st new st' P) : E.Grows (n + 1) Src st new st' P := by
  refine ⟨g.out_eq, g.mem_visited, g.nodup, g.fresh, g.source, ?_, g.reached, ?_⟩
  · intro v hv
    obtain ⟨e, he, hw⟩ := g.closed v hv
    exact ⟨e, expandAt_mono (Nat.le_succ n) he, hw⟩
  · rw [g.complete_iff]
    refine and_congr_right fun _ ↦ and_congr_right fun _ ↦ forall₂_congr fun v hv ↦ ?_
    obtain ⟨e, he, -⟩ := g.closed v hv
    constructor
    · intro h e' he'
      exact h e' (expandAt_unique (expandAt_mono (Nat.le_succ n) he) he' ▸ he)
    · intro h e' he'
      exact h e' (expandAt_mono (Nat.le_succ n) he')

theorem visitAll_grows {n : ℕ} {visit : α → State α → Option (State α)}
    (h : ∀ x st st', visit x st = some st' → ∃ new, E.Grows n (· = x) st new st' True)
    (l : List (Option α)) : ∀ st st' : State α, visitAll visit l st = some st' →
      ∃ new, E.Grows n (fun y ↦ some y ∈ l) st new st' (none ∉ l) := by
  induction l with
  | nil =>
    rintro st st' hl
    obtain rfl : st = st' := Option.some.inj hl
    refine ⟨[], ?_⟩
    have g : E.Grows n (fun _ ↦ False) st [] st True := Grows.nil (by simp)
    simpa using g
  | cons entry rest ih =>
    intro st st' hl
    cases entry with
    | none =>
      obtain ⟨new, g⟩ := ih _ _ hl
      refine ⟨new, g.out_eq, g.mem_visited, g.nodup, g.fresh, ?_, g.closed, ?_, ?_⟩
      · intro y hy
        exact g.source y (by simpa using hy)
      · intro v hv
        obtain ⟨r, hr, hrv⟩ := g.reached v hv
        exact ⟨r, by simp [hr], hrv⟩
      · rw [g.complete_iff]
        simp [State.spoil]
    | some x =>
      obtain ⟨mid, hx, hrest⟩ := Option.bind_eq_some_iff.mp hl
      obtain ⟨a, ga⟩ := h _ _ _ hx
      obtain ⟨b, gb⟩ := ih _ _ hrest
      refine ⟨a ++ b, ?_⟩
      have g : E.Grows n (fun y ↦ some y ∈ some x :: rest) st (a ++ b) st'
          (True ∧ none ∉ rest) := ga.append gb (by simp)
      simpa using g

theorem visit_succ_grows {n : ℕ}
    (hvisit : ∀ y s s', E.visit n y s = some s' → ∃ new, E.Grows n (· = y) s new s' True)
    (x : α) (st st' : State α) (h : E.visit (n + 1) x st = some st') :
    ∃ new, E.Grows n (· = x) st new st' True := by
  rw [visit_succ] at h
  split_ifs at h with hx
  · obtain rfl : st = st' := Option.some.inj h
    exact ⟨[], Grows.nil (by rintro y rfl; exact hx)⟩
  · obtain ⟨e, he, h⟩ := Option.bind_eq_some_iff.mp h
    obtain ⟨mid, hbefore, hafter⟩ := Option.bind_eq_some_iff.mp h
    obtain ⟨a, ga⟩ := visitAll_grows hvisit _ _ _ hbefore
    obtain ⟨b, gb⟩ := visitAll_grows hvisit _ _ _ hafter
    exact ⟨_, Grows.node hx he ga gb⟩

/-- Every finished walk satisfies the specification, by induction on the budget. -/
theorem visit_grows (n : ℕ) : ∀ (x : α) (st st' : State α),
    E.visit (n + 1) x st = some st' → ∃ new, E.Grows n (· = x) st new st' True := by
  induction n with
  | zero => exact fun x st st' ↦ visit_succ_grows (by simp [visit]) x st st'
  | succ n ih =>
    refine fun x st st' ↦ visit_succ_grows (fun y s s' hy ↦ ?_) x st st'
    obtain ⟨new, g⟩ := ih _ _ _ hy
    exact ⟨new, g.lift⟩

/-! ### A finished linearization -/

theorem exists_succ_of_visit {n : ℕ} {x : α} {st st' : State α}
    (h : E.visit n x st = some st') : ∃ m, n = m + 1 := by
  cases n with
  | zero => simp [visit] at h
  | succ m => exact ⟨m, rfl⟩

theorem visit_empty_grows {n : ℕ} {x : α} {r : State α} (h : E.visit (n + 1) x {} = some r) :
    E.Grows n (· = x) {} r.out r True := by
  obtain ⟨new, g⟩ := visit_grows n x {} r h
  have hout : r.out = new := by simpa using g.out_eq
  rwa [hout]

theorem mem_visited_iff {n : ℕ} {x y : α} {r : State α} (h : E.visit n x {} = some r) :
    y ∈ r.visited ↔ y ∈ r.out := by
  obtain ⟨m, rfl⟩ := exists_succ_of_visit h
  simpa using (visit_empty_grows h).mem_visited y

theorem out_nodup {n : ℕ} {x : α} {r : State α} (h : E.visit n x {} = some r) :
    r.out.Nodup := by
  obtain ⟨m, rfl⟩ := exists_succ_of_visit h
  exact (visit_empty_grows h).nodup

theorem self_mem_out {n : ℕ} {x : α} {r : State α} (h : E.visit n x {} = some r) :
    x ∈ r.out := by
  obtain ⟨m, rfl⟩ := exists_succ_of_visit h
  exact (mem_visited_iff h).mp ((visit_empty_grows h).source x rfl)

/-- The linearization lists exactly the nodes reachable from its root. -/
theorem mem_out_iff {n : ℕ} {x y : α} {r : State α} (h : E.visit n x {} = some r) :
    y ∈ r.out ↔ Relation.ReflTransGen E.Edge x y := by
  constructor
  · intro hy
    obtain ⟨m, rfl⟩ := exists_succ_of_visit h
    obtain ⟨s, rfl, hs⟩ := (visit_empty_grows h).reached y hy
    exact hs
  · intro hreach
    induction hreach with
    | refl => exact self_mem_out h
    | tail _ hedge ih =>
      obtain ⟨m, rfl⟩ := exists_succ_of_visit h
      obtain ⟨e, he, hw⟩ := (visit_empty_grows h).closed _ ih
      obtain ⟨k, e', he', hl⟩ := hedge
      have hee : e = e' := expandAt_unique he he'
      exact (mem_visited_iff h).mp (hw _ (hee ▸ hl))

/-- Every listed node was expanded, within a smaller budget. -/
theorem expandAt_of_mem_out {n : ℕ} {x v : α} {r : State α} (h : E.visit (n + 1) x {} = some r)
    (hv : v ∈ r.out) : ∃ e, E.expandAt n v = some e := by
  obtain ⟨e, he, -⟩ := (visit_empty_grows h).closed v hv
  exact ⟨e, he⟩

theorem complete_iff {n : ℕ} {x : α} {r : State α} (h : E.visit n x {} = some r) :
    r.complete = true ↔ ∀ v ∈ r.out, ∀ k e, E.expandAt k v = some e → e.Definite := by
  obtain ⟨m, rfl⟩ := exists_succ_of_visit h
  have g := visit_empty_grows h
  rw [g.complete_iff]
  simp only [true_and]
  refine forall₂_congr fun v hv ↦ ?_
  obtain ⟨e, he, -⟩ := g.closed v hv
  exact ⟨fun hall k e' he' ↦ expandAt_unique he he' ▸ hall e he, fun hall e' he' ↦ hall m e' he'⟩

/-! ### When the walk finishes -/

variable (E) in
def Terminates (x : α) : Prop := ∃ n r, E.visit n x {} = some r

omit [DecidableEq α] in
theorem visitAll_isSome {visit : α → State α → Option (State α)} {R : α → Prop}
    {I : State α → Prop} (hspoil : ∀ st, I st → I st.spoil)
    (hvisit : ∀ x st, R x → I st → ∃ st', visit x st = some st' ∧ I st')
    (l : List (Option α)) (hl : ∀ w, some w ∈ l → R w) :
    ∀ st, I st → ∃ st', visitAll visit l st = some st' ∧ I st' := by
  induction l with
  | nil => exact fun st hst ↦ ⟨st, rfl, hst⟩
  | cons entry rest ih =>
    intro st hst
    have hrest : ∀ w, some w ∈ rest → R w := fun w hw ↦ hl w (List.mem_cons_of_mem _ hw)
    cases entry with
    | none => exact ih hrest _ (hspoil _ hst)
    | some x =>
      obtain ⟨mid, hmid, hinv⟩ := hvisit x st (hl x List.mem_cons_self) hst
      obtain ⟨st', hst', hinv'⟩ := ih hrest mid hinv
      exact ⟨st', Option.bind_eq_some_iff.mpr ⟨mid, hmid, hst'⟩, hinv'⟩

/-- With every expansion inside a finite closed set known at budget `N`, one further
unit of budget for each unvisited node of the set is enough. -/
theorem visit_isSome_of_expandAt {U : Finset α} {N : ℕ}
    (hU : ∀ v ∈ U, ∃ e, E.expandAt N v = some e ∧ ∀ w, e.Lists w → w ∈ U) (k : ℕ) :
    ∀ (x : α) (st : State α), x ∈ U → (U.filter (· ∉ st.visited)).card < k →
      ∃ st', E.visit (N + k) x st = some st' ∧ st.visited ⊆ st'.visited := by
  induction k with
  | zero => exact fun x st _ h ↦ absurd h (Nat.not_lt_zero _)
  | succ k ih =>
    intro x st hx hcard
    rw [← Nat.add_assoc, visit_succ]
    split_ifs with hv
    · exact ⟨st, rfl, fun _ h ↦ h⟩
    · obtain ⟨e, he, hw⟩ := hU x hx
      have he' : E.expandAt (N + k) x = some e := expandAt_mono (Nat.le_add_right N k) he
      have hvisit : ∀ y s, y ∈ U → (x :: st.visited ⊆ s.visited) →
          ∃ s', E.visit (N + k) y s = some s' ∧ x :: st.visited ⊆ s'.visited := by
        intro y s hy hs
        have hlt : (U.filter (· ∉ s.visited)).card < k := by
          have hsub : U.filter (· ∉ s.visited) ⊂ U.filter (· ∉ st.visited) := by
            refine Finset.ssubset_iff_subset_ne.mpr ⟨?_, ?_⟩
            · intro z hz
              rw [Finset.mem_filter] at hz ⊢
              exact ⟨hz.1, fun hzv ↦ hz.2 (hs (List.mem_cons_of_mem _ hzv))⟩
            · intro heq
              have hxm : x ∈ U.filter (· ∉ st.visited) := Finset.mem_filter.mpr ⟨hx, hv⟩
              rw [← heq, Finset.mem_filter] at hxm
              exact hxm.2 (hs List.mem_cons_self)
          have := Finset.card_lt_card hsub
          omega
        obtain ⟨s', hs', hgrow⟩ := ih y s hy hlt
        exact ⟨s', hs', fun z hz ↦ hgrow (hs hz)⟩
      obtain ⟨mid, hmid, hmidv⟩ := visitAll_isSome (I := fun s ↦ x :: st.visited ⊆ s.visited)
        (fun _ h ↦ h) hvisit e.before (fun w h ↦ hw w (Or.inl h)) (st.enter x e.trusted)
        (fun _ h ↦ h)
      obtain ⟨st', hst', hstv⟩ := visitAll_isSome (I := fun s ↦ x :: st.visited ⊆ s.visited)
        (fun _ h ↦ h) hvisit e.after (fun w h ↦ hw w (Or.inr h)) (mid.emit x) hmidv
      refine ⟨st', ?_, fun z hz ↦ hstv (List.mem_cons_of_mem _ hz)⟩
      rw [he', Option.bind_some, hmid, Option.bind_some, hst']

/-- A finite closed set all of whose nodes expand is walked to the end. -/
theorem terminates_of_expands {U : Finset α}
    (hU : ∀ v ∈ U, ∃ n e, E.expandAt n v = some e ∧ ∀ w, e.Lists w → w ∈ U) {x : α} (hx : x ∈ U) :
    E.Terminates x := by
  choose! budget hbudget using hU
  have hall : ∀ v ∈ U, ∃ e, E.expandAt (U.sup budget) v = some e ∧ ∀ w, e.Lists w → w ∈ U := by
    intro v hv
    obtain ⟨e, he, hw⟩ := hbudget v hv
    exact ⟨e, expandAt_mono (Finset.le_sup hv) he, hw⟩
  obtain ⟨r, hr, -⟩ := visit_isSome_of_expandAt hall (U.card + 1) x {} hx
    (Nat.lt_succ_of_le (Finset.card_filter_le _ _))
  exact ⟨_, r, hr⟩

/-- A node whose linearization is asked for below itself is never linearized: the least
budget that is enough for it would not be the least. -/
theorem not_terminates_of_circle {x v : α} (hreach : Relation.ReflTransGen E.Edge x v)
    (hasks : E.asks v = some x) : ¬ E.Terminates x := by
  classical
  intro h
  obtain ⟨r, hr⟩ := Nat.find_spec h
  obtain ⟨m, hm⟩ := exists_succ_of_visit hr
  rw [hm] at hr
  obtain ⟨e, he⟩ := expandAt_of_mem_out hr ((mem_out_iff hr).mpr hreach)
  obtain ⟨r', hr', -⟩ := asked_of_expandAt he hasks
  have hle : Nat.find h ≤ m := Nat.find_min' h ⟨r', hr'⟩
  omega

/-! ### The exact condition -/

/-- The expander whose expansions are given in advance. -/
def static (kids : α → Expansion α) : Expander α := ⟨fun _ ↦ none, fun x _ ↦ kids x⟩

@[simp] theorem static_expandAt (kids : α → Expansion α) (n : ℕ) (x : α) :
    (static kids).expandAt n x = some (kids x) := rfl

/-- A walk that only meets expansions given in advance is the walk along them. -/
theorem visit_static_of_visit {kids : α → Expansion α} {R : α → Prop}
    (hR : ∀ v n e, R v → E.expandAt n v = some e → e = kids v)
    (hclosed : ∀ v w, R v → (kids v).Lists w → R w) (n : ℕ) :
    ∀ (x : α) (st st' : State α), R x → E.visit n x st = some st' →
      (static kids).visit n x st = some st' := by
  induction n with
  | zero => intro x st st' _ h; simp [visit] at h
  | succ n ih =>
    intro x st st' hx h
    rw [visit_succ] at h ⊢
    split_ifs at h ⊢ with hv
    · exact h
    · obtain ⟨e, he, h⟩ := Option.bind_eq_some_iff.mp h
      obtain ⟨mid, hbefore, hafter⟩ := Option.bind_eq_some_iff.mp h
      obtain rfl := hR x n e hx he
      have hall : ∀ (l : List (Option α)), (∀ w, some w ∈ l → R w) → ∀ s s' : State α,
          visitAll (E.visit n) l s = some s' →
            visitAll ((static kids).visit n) l s = some s' := by
        intro l
        induction l with
        | nil => exact fun _ _ _ hs ↦ hs
        | cons entry rest ihl =>
          intro hl s s' hs
          have hrest : ∀ w, some w ∈ rest → R w := fun w hw ↦ hl w (List.mem_cons_of_mem _ hw)
          cases entry with
          | none => exact ihl hrest _ _ hs
          | some y =>
            obtain ⟨mid', hy, hs⟩ := Option.bind_eq_some_iff.mp hs
            exact Option.bind_eq_some_iff.mpr
              ⟨mid', ih _ _ _ (hl y List.mem_cons_self) hy, ihl hrest _ _ hs⟩
      rw [static_expandAt, Option.bind_some]
      exact Option.bind_eq_some_iff.mpr
        ⟨mid, hall _ (fun w hw ↦ hclosed x w hx (Or.inl hw)) _ _ hbefore,
          hall _ (fun w hw ↦ hclosed x w hx (Or.inr hw)) _ _ hafter⟩

/-- Reachability along expansions given in advance. -/
def Along (kids : α → Expansion α) : α → α → Prop :=
  Relation.ReflTransGen fun v w ↦ (kids v).Lists w

variable (E) in
/-- The expansions `kids` answer every question consistently: a node that asks
expands as it does on the linearization, along `kids`, of the node it asks. -/
def Consistent (kids : α → Expansion α) : Prop :=
  ∀ x, match E.asks x with
    | none => kids x = E.build x none
    | some y => ∃ n r, (static kids).visit n y {} = some r ∧ kids x = E.build x (some r.out)

variable (E) in
/-- `w` is listed in the linearization that `v` asks for. -/
def AsksThrough (kids : α → Expansion α) (w v : α) : Prop :=
  ∃ y, E.asks v = some y ∧ Along kids y w

variable (E) in
/-- Some consistent expansions leave no circle of questions. -/
def Settled : Prop :=
  ∃ kids, E.Consistent kids ∧ WellFounded (E.AsksThrough kids)

theorem Consistent.mem_of_lists {U : Finset α} (hU : ∀ x r w, (E.build x r).Lists w → w ∈ U)
    {kids : α → Expansion α} (hcons : E.Consistent kids) {v w : α} (hw : (kids v).Lists w) :
    w ∈ U := by
  have hv := hcons v
  cases hasks : E.asks v with
  | none =>
    rw [hasks] at hv
    exact hU v none w (hv ▸ hw)
  | some y =>
    rw [hasks] at hv
    obtain ⟨n, r, -, hv⟩ := hv
    exact hU v (some r.out) w (hv ▸ hw)

/-- Under a consistent assignment without circles every node expands as assigned,
by induction along the questions. -/
theorem expandAt_of_settled {U : Finset α}
    (hU : ∀ x r w, (E.build x r).Lists w → w ∈ U) {kids : α → Expansion α}
    (hcons : E.Consistent kids) (hwf : WellFounded (E.AsksThrough kids)) (x : α) :
    ∃ n, E.expandAt n x = some (kids x) := by
  induction x using hwf.induction with
  | _ x ih =>
    have hx := hcons x
    cases hasks : E.asks x with
    | none =>
      rw [hasks] at hx
      exact ⟨0, hx ▸ expandAt_of_asks_none 0 hasks⟩
    | some y =>
      rw [hasks] at hx
      obtain ⟨m, r, hr, hx⟩ := hx
      classical
      -- everything listed below `y` expands as assigned, so the walk from `y` finishes
      have hbelow : ∀ v, Along kids y v → ∃ n, E.expandAt n v = some (kids v) :=
        fun v hv ↦ ih v ⟨y, hasks, hv⟩
      have hterm : E.Terminates y := by
        refine terminates_of_expands (U := (insert y U).filter (Along kids y)) ?_ ?_
        · intro v hv
          obtain ⟨-, hyv⟩ := Finset.mem_filter.mp hv
          obtain ⟨n, hn⟩ := hbelow v hyv
          refine ⟨n, kids v, hn, fun w hw ↦ Finset.mem_filter.mpr ⟨?_, hyv.tail hw⟩⟩
          exact Finset.mem_insert_of_mem (hcons.mem_of_lists hU hw)
        · exact Finset.mem_filter.mpr ⟨Finset.mem_insert_self _ _, Relation.ReflTransGen.refl⟩
      obtain ⟨n, r', hr'⟩ := hterm
      have hstatic : (static kids).visit n y {} = some r' := by
        refine visit_static_of_visit (R := Along kids y) ?_ ?_ n y {} r'
          Relation.ReflTransGen.refl hr'
        · intro v k e hv he
          obtain ⟨n', hn'⟩ := hbelow v hv
          exact expandAt_unique he hn'
        · exact fun v w hv hw ↦ hv.tail hw
      obtain rfl : r = r' := visit_unique hr hstatic
      exact ⟨n, hx ▸ expandAt_of_asked hasks hr'⟩

/-- If every walk finishes, the expansions it computes are consistent, and each
question needs less budget than the walk that raised it. -/
theorem settled_of_terminates (h : ∀ x, E.Terminates x) : E.Settled := by
  have hexp : ∀ x, ∃ e n, E.expandAt n x = some e := by
    intro x
    cases hasks : E.asks x with
    | none => exact ⟨_, 0, expandAt_of_asks_none 0 hasks⟩
    | some y =>
      obtain ⟨n, r, hr⟩ := h y
      exact ⟨_, n, expandAt_of_asked hasks hr⟩
  choose kids budget hkids using hexp
  have hstatic : ∀ {n : ℕ} {y : α} {r : State α}, E.visit n y {} = some r →
      (static kids).visit n y {} = some r := by
    intro n y r hr
    exact visit_static_of_visit (R := fun _ ↦ True) (fun v k e _ he ↦ expandAt_unique he (hkids v))
      (fun _ _ _ _ ↦ trivial) n y {} r trivial hr
  refine ⟨kids, ?_, ?_⟩
  · intro x
    cases hasks : E.asks x with
    | none => exact expandAt_unique (hkids x) (expandAt_of_asks_none 0 hasks)
    | some y =>
      obtain ⟨r, hr, hx⟩ := asked_of_expandAt (hkids x) hasks
      exact ⟨budget x, r, hstatic hr, hx⟩
  · classical
    -- the least budget at which the asked linearization is known
    let rank : α → ℕ := fun v ↦ match E.asks v with
      | none => 0
      | some y => Nat.find (h y)
    refine Subrelation.wf ?_ (measure rank).wf
    rintro w v ⟨y, hasks, hyw⟩
    change rank w < rank v
    have hrank : rank v = Nat.find (h y) := by simp only [rank, hasks]
    obtain ⟨r, hr⟩ := Nat.find_spec (h y)
    obtain ⟨m, hm⟩ := exists_succ_of_visit hr
    rw [hm] at hr
    have hw : w ∈ r.out := by
      refine (mem_out_iff hr).mpr (Relation.ReflTransGen.mono ?_ _ _ hyw)
      exact fun a b hab ↦ ⟨_, _, hkids a, hab⟩
    cases hasksw : E.asks w with
    | none =>
      have : rank w = 0 := by simp only [rank, hasksw]
      omega
    | some y' =>
      obtain ⟨e, he⟩ := expandAt_of_mem_out hr hw
      obtain ⟨r', hr', -⟩ := asked_of_expandAt he hasksw
      have hw : rank w = Nat.find (h y') := by simp only [rank, hasksw]
      have hle : Nat.find (h y') ≤ m := Nat.find_min' (h y') ⟨r', hr'⟩
      omega

/-- Over a finite set of entries, every walk finishes exactly when the questions
have a consistent answer without circles. -/
theorem terminates_iff_settled {U : Finset α} (hU : ∀ x r w, (E.build x r).Lists w → w ∈ U) :
    (∀ x, E.Terminates x) ↔ E.Settled := by
  refine ⟨settled_of_terminates, ?_⟩
  rintro ⟨kids, hcons, hwf⟩ x
  have hexp := fun v ↦ expandAt_of_settled hU hcons hwf v
  refine terminates_of_expands (U := insert x U) ?_ (Finset.mem_insert_self x U)
  intro v _
  obtain ⟨n, hn⟩ := hexp v
  exact ⟨n, kids v, hn, fun w hw ↦ Finset.mem_insert_of_mem (hcons.mem_of_lists hU hw)⟩

/-! ### Walks that meet no node twice -/

section Tree

variable {G : α → List α} {R : α → Prop}

omit [DecidableEq α] in
theorem visitAll_tree {visit : α → State α → Option (State α)}
    (hvisit : ∀ x st st', visit x st = some st' → R x → (∀ y ∈ G x, y ∉ st.visited) →
      st'.out = st.out ++ G x ∧ ∀ y, y ∈ st'.visited ↔ y ∈ st.visited ∨ y ∈ G x)
    (l : List (Option α)) : ∀ st st', visitAll visit l st = some st' → (∀ w, some w ∈ l → R w) →
      (l.reduceOption.flatMap G).Nodup → (∀ y ∈ l.reduceOption.flatMap G, y ∉ st.visited) →
        st'.out = st.out ++ l.reduceOption.flatMap G ∧
          ∀ y, y ∈ st'.visited ↔ y ∈ st.visited ∨ y ∈ l.reduceOption.flatMap G := by
  induction l with
  | nil =>
    intro st st' h _ _ _
    obtain rfl : st = st' := Option.some.inj h
    simp [List.reduceOption]
  | cons entry rest ih =>
    intro st st' h hl hnodup hfresh
    have hrest : ∀ w, some w ∈ rest → R w := fun w hw ↦ hl w (List.mem_cons_of_mem _ hw)
    cases entry with
    | none =>
      rw [List.reduceOption_cons_of_none] at hnodup hfresh ⊢
      exact ih st.spoil st' h hrest hnodup hfresh
    | some x =>
      rw [List.reduceOption_cons_of_some, List.flatMap_cons] at hnodup hfresh ⊢
      obtain ⟨mid, hmid, h⟩ := Option.bind_eq_some_iff.mp h
      obtain ⟨hout, hvisited⟩ := hvisit x st mid hmid (hl x List.mem_cons_self)
        fun y hy ↦ hfresh y (List.mem_append_left _ hy)
      obtain ⟨-, hnodup', hdisjoint⟩ := List.nodup_append.mp hnodup
      obtain ⟨hout', hvisited'⟩ := ih mid st' h hrest hnodup' fun y hy hmem ↦ by
        rcases (hvisited y).mp hmem with hst | hx
        · exact hfresh y (List.mem_append_right _ hy) hst
        · exact hdisjoint y hx y hy rfl
      refine ⟨by rw [hout', hout, List.append_assoc], fun y ↦ ?_⟩
      rw [hvisited', hvisited, List.mem_append, or_assoc]

variable (hG : ∀ n x e, R x → E.expandAt n x = some e → (∀ w, e.Lists w → R w) ∧
    G x = e.before.reduceOption.flatMap G ++ x :: e.after.reduceOption.flatMap G)
  (hnodup : ∀ x, R x → (G x).Nodup) (hself : ∀ x, R x → x ∈ G x)

include hG hnodup hself

theorem visit_tree (n : ℕ) : ∀ (x : α) (st st' : State α), E.visit n x st = some st' → R x →
    (∀ y ∈ G x, y ∉ st.visited) →
      st'.out = st.out ++ G x ∧ ∀ y, y ∈ st'.visited ↔ y ∈ st.visited ∨ y ∈ G x := by
  induction n with
  | zero => intro x st st' h; simp [visit] at h
  | succ n ih =>
    intro x st st' h hx hfresh
    rw [visit_succ, if_neg (hfresh x (hself x hx))] at h
    obtain ⟨e, he, h⟩ := Option.bind_eq_some_iff.mp h
    obtain ⟨mid, hmid, h⟩ := Option.bind_eq_some_iff.mp h
    obtain ⟨hlists, hGx⟩ := hG n x e hx he
    have hsplit := hnodup x hx
    rw [hGx] at hsplit hfresh
    have hmiddle := List.nodup_middle.mp hsplit
    rw [List.nodup_cons, List.mem_append, not_or] at hmiddle
    obtain ⟨hnodupBefore, hnodupAfter, hdisjoint⟩ := List.nodup_append.mp hmiddle.2
    obtain ⟨hout, hvisited⟩ := visitAll_tree ih e.before _ mid hmid (fun w hw ↦ hlists w (.inl hw))
      hnodupBefore fun y hy hmem ↦ by
        rcases List.mem_cons.mp hmem with rfl | hmem
        · exact hmiddle.1.1 hy
        · exact hfresh y (List.mem_append_left _ hy) hmem
    obtain ⟨hout', hvisited'⟩ := visitAll_tree ih e.after _ st' h (fun w hw ↦ hlists w (.inr hw))
      hnodupAfter fun y hy hmem ↦ by
        rcases (hvisited y).mp hmem with hmem | hmem
        · rcases List.mem_cons.mp hmem with rfl | hmem
          · exact hmiddle.1.2 hy
          · exact hfresh y (by simp [hy]) hmem
        · exact hdisjoint y hmem y hy rfl
    constructor
    · rw [hout', hGx]
      change mid.out ++ [x] ++ _ = _
      rw [hout]
      simp [State.enter]
    · intro y
      rw [hvisited', hGx, List.mem_append, List.mem_cons]
      change y ∈ mid.visited ∨ _ ↔ _
      rw [hvisited]
      change (y ∈ x :: st.visited ∨ _) ∨ _ ↔ _
      rw [List.mem_cons]
      tauto

/-- The chain of a node is its unfolding. -/
theorem out_eq_of_tree {n : ℕ} {x : α} {st : State α} (h : E.visit n x {} = some st) (hx : R x) :
    st.out = G x := by
  have := (visit_tree hG hnodup hself n x {} st h hx (by simp)).1
  simpa using this

end Tree

end Expander

end Itaruby.Linearization
