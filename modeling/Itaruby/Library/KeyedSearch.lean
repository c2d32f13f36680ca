import Itaruby.Library.Fueled

/-!
A search over a stack of items. An item resolves to a node, or to nothing; a node is visited
unless one of its key was before it or the search has visited as many as it may. The search
always ends, and what it visits has the key of every node that its items lead to, when these
keys are few enough and nodes of one key queue the same items.
-/

set_option autoImplicit false
set_option relaxedAutoImplicit false

namespace Itaruby

structure KeyedSearch (ι ν κ α : Type) where
  cap : ℕ
  resolve : ι → Option ν
  key : ν → κ
  visit : ν → α → α
  /-- The items a visit queues, the one to be popped first in front. -/
  next : ν → List ι

namespace KeyedSearch

variable {ι ν κ α : Type} [DecidableEq κ] (S : KeyedSearch ι ν κ α)

structure State (ι κ α : Type) where
  visited : Finset κ
  work : List ι
  acc : α

def step (st : State ι κ α) : State ι κ α ⊕ α :=
  match st.work with
  | [] => .inr st.acc
  | item :: work =>
    match S.resolve item with
    | none => .inl { st with work }
    | some node =>
      if S.key node ∈ st.visited ∨ S.cap ≤ st.visited.card then .inl { st with work }
      else
        .inl
          { visited := insert (S.key node) st.visited
            work := S.next node ++ work
            acc := S.visit node st.acc }

def runFrom (st : State ι κ α) : Fueled α := Fueled.iterate (fun st ↦ pure (S.step st)) st

def run (start : ι) (acc : α) : Fueled α := S.runFrom ⟨∅, [start], acc⟩

def pop (st : State ι κ α) (work : List ι) : State ι κ α := { st with work }

def enter (st : State ι κ α) (node : ν) (work : List ι) : State ι κ α where
  visited := insert (S.key node) st.visited
  work := S.next node ++ work
  acc := S.visit node st.acc

/-- The item in front resolves to a node that the search does not pass over. -/
def Enters (st : State ι κ α) (item : ι) (node : ν) : Prop :=
  S.resolve item = some node ∧ S.key node ∉ st.visited ∧ st.visited.card < S.cap

variable {S}

theorem step_of_enters {st : State ι κ α} {item : ι} {work : List ι} {node : ν}
    (hwork : st.work = item :: work) (h : S.Enters st item node) :
    S.step st = .inl (S.enter st node work) := by
  have hskip : ¬ (S.key node ∈ st.visited ∨ S.cap ≤ st.visited.card) := by
    rw [not_or, not_le]
    exact h.2
  unfold step enter
  rw [hwork]
  simp only [h.1, if_neg hskip]

theorem step_of_not_enters {st : State ι κ α} {item : ι} {work : List ι}
    (hwork : st.work = item :: work) (h : ∀ node, ¬ S.Enters st item node) :
    S.step st = .inl (pop st work) := by
  unfold step pop
  rw [hwork]
  cases hresolve : S.resolve item with
  | none => simp only [hresolve]
  | some node =>
    have hskip : S.key node ∈ st.visited ∨ S.cap ≤ st.visited.card := by
      by_contra hskip
      rw [not_or, not_le] at hskip
      exact h node ⟨hresolve, hskip⟩
    simp only [hresolve, if_pos hskip]

/-! ### The end of the search -/

theorem runFrom_converges_of_step {st st' : State ι κ α} (hstep : S.step st = .inl st')
    (h : (S.runFrom st').Converges) : (S.runFrom st).Converges := by
  obtain ⟨r, hr⟩ := h
  exact ⟨r, Fueled.returns_iterate_of_inl (Fueled.returns_pure.mpr hstep) hr⟩

/-- A visit uses up the cap, any other step the stack. -/
theorem runFrom_converges (k : ℕ) : ∀ st : State ι κ α, S.cap - st.visited.card = k →
    (S.runFrom st).Converges := by
  induction k using Nat.strong_induction_on with
  | _ k ih =>
    intro st hk
    induction hwork : st.work generalizing st with
    | nil =>
      refine ⟨st.acc, Fueled.returns_iterate_of_inr (Fueled.returns_pure.mpr ?_)⟩
      rw [step, hwork]
    | cons item work ihwork =>
      by_cases henters : ∃ node, S.Enters st item node
      · obtain ⟨node, hnode⟩ := henters
        refine runFrom_converges_of_step (step_of_enters hwork hnode) (ih _ ?_ _ rfl)
        have hgrown : (S.enter st node work).visited.card = st.visited.card + 1 :=
          Finset.card_insert_of_notMem hnode.2.1
        have hlt := hnode.2.2
        omega
      · refine runFrom_converges_of_step (step_of_not_enters hwork (not_exists.mp henters)) ?_
        exact ihwork (pop st work) hk rfl

variable (S) in
theorem run_converges (start : ι) (acc : α) : (S.run start acc).Converges :=
  runFrom_converges _ _ rfl

/-! ### What the search visits -/

variable (S)

/-- The items the search may queue. -/
inductive Queued (start : ι) : ι → Prop
  | start : Queued start start
  | next {item item' : ι} {node : ν} : Queued start item → S.resolve item = some node →
      item' ∈ S.next node → Queued start item'

/-- The nodes the search may visit. -/
def Reaches (start : ι) (node : ν) : Prop :=
  ∃ item, S.Queued start item ∧ S.resolve item = some node

/-- The keys of the nodes are no more than the search may visit. -/
def WithinCap (start : ι) : Prop :=
  ∃ keys : Finset κ, keys.card ≤ S.cap ∧ ∀ node, S.Reaches start node → S.key node ∈ keys

variable {S} in
omit [DecidableEq κ] in
theorem Queued.mem_of_closed {start item : ι} (h : S.Queued start item) {items : List ι}
    (hstart : start ∈ items)
    (hclosed : ∀ i ∈ items, ∀ node, S.resolve i = some node → ∀ j ∈ S.next node, j ∈ items) :
    item ∈ items := by
  induction h with
  | start => exact hstart
  | next _ hresolve hmem ih => exact hclosed _ ih _ hresolve _ hmem

variable {S} in
theorem withinCap_of_closed {start : ι} {items : List ι} (hstart : start ∈ items)
    (hclosed : ∀ i ∈ items, ∀ node, S.resolve i = some node → ∀ j ∈ S.next node, j ∈ items)
    (hlength : items.length ≤ S.cap) : S.WithinCap start := by
  refine ⟨((items.filterMap S.resolve).map S.key).toFinset, ?_, ?_⟩
  · refine (List.toFinset_card_le _).trans ?_
    rw [List.length_map]
    exact (List.length_filterMap_le _ _).trans hlength
  · rintro node ⟨item, hitem, hresolve⟩
    refine List.mem_toFinset.mpr (List.mem_map.mpr ⟨node, ?_, rfl⟩)
    exact List.mem_filterMap.mpr ⟨item, hitem.mem_of_closed hstart hclosed, hresolve⟩

/-- Nodes of one key queue the same items. -/
def Consistent (start : ι) : Prop :=
  ∀ node node', S.Reaches start node → S.Reaches start node' → S.key node = S.key node' →
    S.next node ⊆ S.next node'

/-- The state of a search that visited the nodes `done`, in this order. -/
structure Visited (start : ι) (acc : α) (done : List ν) (st : State ι κ α) : Prop where
  visited : st.visited = (done.map S.key).toFinset
  acc : st.acc = done.foldl (fun acc node ↦ S.visit node acc) acc
  reached : ∀ node ∈ done, S.Reaches start node
  queued : ∀ item ∈ st.work, S.Queued start item
  /-- Within the cap, what was queued waits or its key was visited. -/
  closed : S.WithinCap start → ∀ item, item = start ∨ (∃ node ∈ done, item ∈ S.next node) →
    item ∈ st.work ∨ ∀ node, S.resolve item = some node → S.key node ∈ st.visited

/-- What a search returned after visiting the nodes `done`. -/
structure Outcome (start : ι) (acc : α) (done : List ν) (result : α) : Prop where
  result : result = done.foldl (fun acc node ↦ S.visit node acc) acc
  reached : ∀ node ∈ done, S.Reaches start node
  closed : S.WithinCap start → ∀ item, item = start ∨ (∃ node ∈ done, item ∈ S.next node) →
    ∀ node, S.resolve item = some node → ∃ other ∈ done, S.key other = S.key node

section Visits

variable {S} {start : ι} {acc : α}

theorem visited_start : S.Visited start acc [] ⟨∅, [start], acc⟩ where
  visited := rfl
  acc := rfl
  reached := by simp
  queued item hitem := List.mem_singleton.mp hitem ▸ .start
  closed := by simp

/-- Within the cap a node whose key was not visited is not passed over. -/
theorem Visited.card_lt {done : List ν} {st : State ι κ α} (h : S.Visited start acc done st)
    (hcap : S.WithinCap start) {node : ν} (hnode : S.Reaches start node)
    (hnew : S.key node ∉ st.visited) : st.visited.card < S.cap := by
  obtain ⟨keys, hcard, hkeys⟩ := hcap
  have hsub : insert (S.key node) st.visited ⊆ keys := by
    refine Finset.insert_subset (hkeys node hnode) fun k hk ↦ ?_
    rw [h.visited, List.mem_toFinset] at hk
    obtain ⟨other, hother, rfl⟩ := List.mem_map.mp hk
    exact hkeys other (h.reached other hother)
  have hle := Finset.card_le_card hsub
  rw [Finset.card_insert_of_notMem hnew] at hle
  omega

/-- Passing over an item keeps what is closed when the keys it leads to were visited. -/
theorem Visited.pop {done : List ν} {st : State ι κ α} (h : S.Visited start acc done st)
    {item : ι} {work : List ι} (hwork : st.work = item :: work)
    (hskip : ∀ node, ¬ S.Enters st item node) :
    S.Visited start acc done (KeyedSearch.pop st work) := by
  have hitem : item ∈ st.work := by simp [hwork]
  refine ⟨h.visited, h.acc, h.reached, fun i hi ↦ h.queued i ?_, fun hcap i hi ↦ ?_⟩
  · exact hwork ▸ List.mem_cons_of_mem _ hi
  · rcases h.closed hcap i hi with hi | hkeys
    · rw [hwork] at hi
      rcases List.mem_cons.mp hi with rfl | hi
      · refine .inr fun node hnode ↦ ?_
        by_contra hnew
        exact hskip node ⟨hnode, hnew, h.card_lt hcap ⟨i, h.queued i hitem, hnode⟩ hnew⟩
      · exact .inl hi
    · exact .inr hkeys

theorem Visited.enter {done : List ν} {st : State ι κ α} (h : S.Visited start acc done st)
    {item : ι} {work : List ι} (hwork : st.work = item :: work) {node : ν}
    (henters : S.Enters st item node) :
    S.Visited start acc (done ++ [node]) (S.enter st node work) := by
  have hitem : S.Queued start item := h.queued item (by simp [hwork])
  refine ⟨?_, ?_, fun other hother ↦ ?_, fun i hi ↦ ?_, fun hcap i hi ↦ ?_⟩
  · rw [KeyedSearch.enter, h.visited, List.map_append, List.toFinset_append, Finset.union_comm]
    rfl
  · rw [KeyedSearch.enter, h.acc, List.foldl_append]
    rfl
  · rcases List.mem_append.mp hother with hother | hother
    · exact h.reached other hother
    · exact List.mem_singleton.mp hother ▸ ⟨item, hitem, henters.1⟩
  · rcases List.mem_append.mp hi with hi | hi
    · exact .next hitem henters.1 hi
    · exact h.queued i (hwork ▸ List.mem_cons_of_mem _ hi)
  · have hold : i ∈ st.work ∨ (∀ other, S.resolve i = some other → S.key other ∈ st.visited) →
        i ∈ S.next node ++ work ∨
          ∀ other, S.resolve i = some other → S.key other ∈ insert (S.key node) st.visited := by
      rintro (hi | hkeys)
      · rw [hwork] at hi
        rcases List.mem_cons.mp hi with rfl | hi
        · refine .inr fun other hother ↦ ?_
          obtain rfl := Option.some.inj (henters.1.symm.trans hother)
          exact Finset.mem_insert_self _ _
        · exact .inl (List.mem_append_right _ hi)
      · exact .inr fun other hother ↦ Finset.mem_insert_of_mem (hkeys other hother)
    rcases hi with rfl | ⟨other, hother, hi⟩
    · exact hold (h.closed hcap i (.inl rfl))
    · rcases List.mem_append.mp hother with hother | hother
      · exact hold (h.closed hcap i (.inr ⟨other, hother, hi⟩))
      · obtain rfl := List.mem_singleton.mp hother
        exact .inl (List.mem_append_left _ hi)

theorem Visited.step {done : List ν} {st st' : State ι κ α} (h : S.Visited start acc done st)
    (hstep : S.step st = .inl st') : ∃ done', S.Visited start acc done' st' := by
  cases hwork : st.work with
  | nil => simp [KeyedSearch.step, hwork] at hstep
  | cons item work =>
    by_cases henters : ∃ node, S.Enters st item node
    · obtain ⟨node, hnode⟩ := henters
      rw [step_of_enters hwork hnode] at hstep
      obtain rfl := Sum.inl.inj hstep
      exact ⟨done ++ [node], h.enter hwork hnode⟩
    · rw [step_of_not_enters hwork (not_exists.mp henters)] at hstep
      obtain rfl := Sum.inl.inj hstep
      exact ⟨done, h.pop hwork (not_exists.mp henters)⟩

theorem Visited.outcome {done : List ν} {st : State ι κ α} (h : S.Visited start acc done st)
    {result : α} (hstep : S.step st = .inr result) : S.Outcome start acc done result := by
  cases hwork : st.work with
  | cons item work =>
    by_cases henters : ∃ node, S.Enters st item node
    · obtain ⟨node, hnode⟩ := henters
      simp [step_of_enters hwork hnode] at hstep
    · simp [step_of_not_enters hwork (not_exists.mp henters)] at hstep
  | nil =>
    rw [KeyedSearch.step, hwork] at hstep
    obtain rfl := Sum.inr.inj hstep
    refine ⟨h.acc, h.reached, fun hcap item hitem node hnode ↦ ?_⟩
    rcases h.closed hcap item hitem with hi | hkeys
    · simp [hwork] at hi
    · have hmem := hkeys node hnode
      rw [h.visited, List.mem_toFinset] at hmem
      exact List.mem_map.mp hmem

theorem returns_run {result : α} (h : (S.run start acc).Returns result) :
    ∃ done, S.Outcome start acc done result := by
  refine Fueled.iterate_invariant (I := fun st ↦ ∃ done, S.Visited start acc done st)
    (Q := fun result ↦ ∃ done, S.Outcome start acc done result) ?_ ?_ ⟨[], visited_start⟩ h
  · rintro st st' ⟨done, hst⟩ hstep
    exact hst.step (Fueled.returns_pure.mp hstep)
  · rintro st r ⟨done, hst⟩ hstep
    exact ⟨done, hst.outcome (Fueled.returns_pure.mp hstep)⟩

theorem foldl_iff {β γ : Type} {P : β → Prop} {Q : γ → Prop} {f : β → γ → β}
    (hf : ∀ b c, P (f b c) ↔ P b ∨ Q c) (l : List γ) (b : β) :
    P (l.foldl f b) ↔ P b ∨ ∃ c ∈ l, Q c := by
  induction l generalizing b with
  | nil => simp
  | cons c l ih => rw [List.foldl_cons, ih, hf, List.exists_mem_cons_iff, or_assoc]

omit [DecidableEq κ] in
/-- What visits may bring about holds of the result when it held at the start or one of them
brought it about. -/
theorem Outcome.result_iff {done : List ν} {result : α} (h : S.Outcome start acc done result)
    {P : α → Prop} {Q : ν → Prop} (hvisit : ∀ node acc, P (S.visit node acc) ↔ P acc ∨ Q node) :
    P result ↔ P acc ∨ ∃ node ∈ done, Q node := by
  rw [h.result]
  exact foldl_iff (fun acc node ↦ hvisit node acc) done acc

omit [DecidableEq κ] in
/-- Within the cap a consistent search visits the key of every node that its items lead to. -/
theorem Outcome.exists_visited {done : List ν} {result : α}
    (h : S.Outcome start acc done result) (hcap : S.WithinCap start)
    (hconsistent : S.Consistent start) {node : ν} (hnode : S.Reaches start node) :
    ∃ other ∈ done, S.key other = S.key node := by
  obtain ⟨item, hitem, hresolve⟩ := hnode
  induction hitem generalizing node with
  | start => exact h.closed hcap start (.inl rfl) node hresolve
  | @next item item' parent hitem hparent hmem ih =>
    obtain ⟨other, hother, hkey⟩ := ih hparent
    have hsub := hconsistent parent other ⟨item, hitem, hparent⟩ (h.reached other hother) hkey.symm
    exact h.closed hcap item' (.inr ⟨other, hother, hsub hmem⟩) node hresolve

end Visits

end KeyedSearch

end Itaruby
