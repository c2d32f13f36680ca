import Itaruby.Library.Inquiry
import Mathlib.Algebra.GroupWithZero.Nat
import Mathlib.Algebra.Order.BigOperators.Group.List
import Mathlib.Data.List.Basic

/-!
Workers that compute over one memo table. A question is answered by a computation that may ask
further questions; its answer is stored, and whoever asks next reads it there. Each worker goes
through the items of its own share, and the schedule may switch between workers at every question.
What a worker makes of an item is what the item means, a value that mentions no table: so the
schedule and the split into shares decide nothing but the time.
-/

set_option autoImplicit false
set_option relaxedAutoImplicit false

namespace WorkerPool

/-! ### What a computation means -/

section Means

variable {κ ν : Type} (rule : κ → Inquiry κ ν ν)

/-- The result of a computation when every question is answered by its rule, and the number of
steps that this takes without a table. -/
inductive Means : {α : Type} → Inquiry κ ν α → α → ℕ → Prop
  | done {α : Type} (a : α) : Means (.done a) a 0
  | ask {α : Type} {q : κ} {next : ν → Inquiry κ ν α} {v : ν} {a : α} {m n : ℕ}
      (answer : Means (rule q) v m) (rest : Means (next v) a n) :
      Means (.ask q next) a (m + n + 2)

variable {rule} {α : Type}

theorem Means.unique {w : Inquiry κ ν α} {a b : α} {m n : ℕ} (h : Means rule w a m)
    (h' : Means rule w b n) : a = b ∧ m = n := by
  induction h generalizing n with
  | done a => cases h' with
    | done => exact ⟨rfl, rfl⟩
  | ask answer rest ihanswer ihrest =>
    cases h' with
    | ask answer' rest' =>
      obtain ⟨rfl, rfl⟩ := ihanswer answer'
      obtain ⟨rfl, rfl⟩ := ihrest rest'
      exact ⟨rfl, rfl⟩

theorem means_pure (a : α) : Means rule (pure a : Inquiry κ ν α) a 0 := .done a

theorem Means.bind {β : Type} {w : Inquiry κ ν α} {f : α → Inquiry κ ν β} {a : α} {b : β}
    {m n : ℕ} (h : Means rule w a m) (hf : Means rule (f a) b n) :
    ∃ k, Means rule (w >>= f) b k := by
  induction h with
  | done a => exact ⟨n, hf⟩
  | ask answer rest _ ih =>
    obtain ⟨k, hk⟩ := ih hf
    exact ⟨_, .ask answer hk⟩

end Means

/-! ### One task -/

/-- A computation in progress: at the top, or within the answer to a question, with what goes on
when the answer is there. -/
inductive Task (κ ν β : Type)
  | top (w : Inquiry κ ν β)
  | within (w : Inquiry κ ν ν) (q : κ) (back : ν → Task κ ν β)

abbrev Memo (κ ν : Type) := κ → Option ν

variable {κ ν α β : Type} [DecidableEq κ] (rule : κ → Inquiry κ ν ν)

def Memo.store (memo : Memo κ ν) (q : κ) (v : ν) : Memo κ ν := Function.update memo q (some v)

namespace Task

/-- One step. A result at the top stays where it is. -/
def step (memo : Memo κ ν) : Task κ ν β → Task κ ν β × Memo κ ν
  | top (.done b) => (top (.done b), memo)
  | top (.ask q next) =>
    match memo q with
    | some v => (top (next v), memo)
    | none => (within (rule q) q fun v ↦ top (next v), memo)
  | within (.done v) q back => (back v, memo.store q v)
  | within (.ask q' next) q back =>
    match memo q' with
    | some v => (within (next v) q back, memo)
    | none => (within (rule q') q' fun v ↦ within (next v) q back, memo)

/-- The task ends with the result, in at most so many steps. -/
inductive Leads : Task κ ν β → β → ℕ → Prop
  | top {w : Inquiry κ ν β} {b : β} {n : ℕ} (h : Means rule w b n) : Leads (top w) b n
  | within {w : Inquiry κ ν ν} {q : κ} {back : ν → Task κ ν β} {v : ν} {b : β} {k m n : ℕ}
      (hw : Means rule w v m) (hq : Means rule (rule q) v k) (hback : Leads (back v) b n) :
      Leads (within w q back) b (m + n + 1)

end Task

/-- Every answer in the table is the one that the rule gives. -/
def Memo.Right (memo : Memo κ ν) : Prop := ∀ q v, memo q = some v → ∃ n, Means rule (rule q) v n

variable {rule}

theorem Memo.Right.store {memo : Memo κ ν} (h : memo.Right rule) {q : κ} {v : ν} {n : ℕ}
    (hv : Means rule (rule q) v n) : (memo.store q v).Right rule := by
  intro q' v' hq'
  by_cases hq : q' = q
  · subst hq
    rw [Memo.store, Function.update_self] at hq'
    obtain rfl := Option.some.inj hq'
    exact ⟨n, hv⟩
  · rw [Memo.store, Function.update_of_ne hq] at hq'
    exact h q' v' hq'

def Task.Finished (t : Task κ ν β) (b : β) : Prop := t = .top (.done b)

omit [DecidableEq κ] in
theorem Task.not_finished_ask (q : κ) (next : ν → Inquiry κ ν β) (b : β) :
    ¬ (Task.top (.ask q next)).Finished b := by
  intro h
  cases h

omit [DecidableEq κ] in
theorem Task.not_finished_within (w : Inquiry κ ν ν) (q : κ) (back : ν → Task κ ν β) (b : β) :
    ¬ (Task.within w q back).Finished b := by
  intro h
  cases h

/-- A step of an unfinished task brings it nearer to the same result. -/
theorem Task.Leads.step {t : Task κ ν β} {b : β} {n : ℕ} (h : t.Leads rule b n) {memo : Memo κ ν}
    (hmemo : memo.Right rule) :
    t.Finished b ∨ (∀ b', ¬ t.Finished b') ∧ (t.step rule memo).2.Right rule ∧
      ∃ m < n, (t.step rule memo).1.Leads rule b m := by
  cases h with
  | top h =>
    cases h with
    | done => exact .inl rfl
    | @ask _ q next v _ m n answer rest =>
      refine .inr ⟨Task.not_finished_ask q next, ?_⟩
      rw [Task.step]
      cases hq : memo q with
      | some v' =>
        obtain ⟨k, hk⟩ := hmemo q v' hq
        obtain ⟨rfl, -⟩ := answer.unique hk
        exact ⟨hmemo, n, by omega, .top rest⟩
      | none => exact ⟨hmemo, m + n + 1, by omega, .within answer answer (.top rest)⟩
  | @within w q back v _ k m n hw hq hback =>
    refine .inr ⟨Task.not_finished_within w q back, ?_⟩
    cases hw with
    | done => exact ⟨hmemo.store hq, n, by omega, hback⟩
    | @ask _ q' next v' _ i j answer rest =>
      rw [Task.step]
      cases hq' : memo q' with
      | some v'' =>
        obtain ⟨l, hl⟩ := hmemo q' v'' hq'
        obtain ⟨rfl, -⟩ := answer.unique hl
        exact ⟨hmemo, j + n + 1, by omega, .within rest hq hback⟩
      | none =>
        exact ⟨hmemo, i + (j + n + 1) + 1, by omega,
          .within answer answer (.within rest hq hback)⟩

/-! ### One worker -/

/-- The items not begun, the task in progress and the results so far. -/
structure Worker (κ ν α β : Type) where
  todo : List α
  current : Option (Task κ ν β) := none
  results : List β := []

namespace Worker

variable (rule) (check : α → Inquiry κ ν β)

/-- A worker begins an item, ends one, or moves the task in progress on. -/
def step (memo : Memo κ ν) (w : Worker κ ν α β) : Option (Worker κ ν α β × Memo κ ν) :=
  match w.current with
  | some (.top (.done b)) => some ({ w with current := none, results := w.results ++ [b] }, memo)
  | some t =>
    let (t, memo) := t.step rule memo
    some ({ w with current := some t }, memo)
  | none =>
    match w.todo with
    | a :: rest => some ({ w with todo := rest, current := some (.top (check a)) }, memo)
    | [] => none

/-- The worker makes of its share what the items mean, and owes at most so many steps. -/
inductive Owes (value : α → β) (cost : α → ℕ) (share : List α) : Worker κ ν α β → ℕ → Prop
  | between {todo : List α} {results : List β}
      (hcheck : ∀ a ∈ todo, Means rule (check a) (value a) (cost a))
      (h : share.map value = results ++ todo.map value) :
      Owes value cost share ⟨todo, none, results⟩ (todo.map fun a ↦ cost a + 2).sum
  | busy {todo : List α} {t : Task κ ν β} {results : List β} {b : β} {n : ℕ}
      (ht : t.Leads rule b n) (hcheck : ∀ a ∈ todo, Means rule (check a) (value a) (cost a))
      (h : share.map value = results ++ b :: todo.map value) :
      Owes value cost share ⟨todo, some t, results⟩
        (n + 1 + (todo.map fun a ↦ cost a + 2).sum)

/-- The share is done. -/
def Idle (w : Worker κ ν α β) : Prop := w.todo = [] ∧ w.current = none

variable {rule check} {value : α → β} {cost : α → ℕ}

theorem step_of_unfinished {todo : List α} {t : Task κ ν β} {results : List β} {memo : Memo κ ν}
    (h : ∀ b, ¬ t.Finished b) :
    Worker.step rule check memo ⟨todo, some t, results⟩ =
      some (⟨todo, some (t.step rule memo).1, results⟩, (t.step rule memo).2) := by
  cases t with
  | top w =>
    cases w with
    | done b => exact absurd rfl (h b)
    | ask q next => rfl
  | within w q back => rfl

theorem step_eq_none_iff {w : Worker κ ν α β} {memo : Memo κ ν} :
    w.step rule check memo = none ↔ w.Idle := by
  obtain ⟨todo, current, results⟩ := w
  cases current with
  | some t =>
    refine ⟨fun h ↦ ?_, fun h ↦ absurd h.2 (by simp)⟩
    by_cases hfinished : ∃ b, t.Finished b
    · obtain ⟨b, rfl⟩ := hfinished
      simp [Worker.step] at h
    · rw [step_of_unfinished fun b hb ↦ hfinished ⟨b, hb⟩] at h
      simp at h
  | none =>
    cases todo with
    | nil => exact ⟨fun _ ↦ ⟨rfl, rfl⟩, fun _ ↦ rfl⟩
    | cons a rest => simp [Worker.step, Idle]

omit [DecidableEq κ] in
theorem Owes.results {share : List α} {w : Worker κ ν α β} {n : ℕ}
    (h : w.Owes rule check value cost share n) (hidle : w.Idle) :
    w.results = share.map value := by
  cases h with
  | between hcheck h =>
    obtain rfl := hidle.1
    simpa using h.symm
  | busy ht hcheck h => exact absurd hidle.2 (by simp)

omit [DecidableEq κ] in
theorem owes_start {share : List α}
    (hcheck : ∀ a ∈ share, Means rule (check a) (value a) (cost a)) :
    ({ todo := share } : Worker κ ν α β).Owes rule check value cost share
      (share.map fun a ↦ cost a + 2).sum :=
  .between hcheck rfl

theorem Owes.step {share : List α} {w w' : Worker κ ν α β} {memo memo' : Memo κ ν} {n : ℕ}
    (h : w.Owes rule check value cost share n) (hmemo : memo.Right rule)
    (hstep : w.step rule check memo = some (w', memo')) :
    memo'.Right rule ∧ ∃ m < n, w'.Owes rule check value cost share m := by
  cases h with
  | @between todo results hcheck h =>
    cases todo with
    | nil => simp [Worker.step] at hstep
    | cons a rest =>
      simp only [Worker.step, Option.some.injEq, Prod.mk.injEq] at hstep
      obtain ⟨rfl, rfl⟩ := hstep
      obtain ⟨ha, hrest⟩ := List.forall_mem_cons.mp hcheck
      refine ⟨hmemo, _, ?_, .busy (.top ha) hrest h⟩
      rw [List.map_cons, List.sum_cons]
      omega
  | @busy todo t results b n ht hcheck h =>
    rcases ht.step hmemo with hfinished | ⟨hunfinished, hright, m, hm, hleads⟩
    · obtain rfl := hfinished
      simp only [Worker.step, Option.some.injEq, Prod.mk.injEq] at hstep
      obtain ⟨rfl, rfl⟩ := hstep
      exact ⟨hmemo, _, by omega, .between hcheck (by simpa using h)⟩
    · rw [step_of_unfinished hunfinished] at hstep
      obtain ⟨rfl, rfl⟩ := Prod.mk.inj (Option.some.inj hstep)
      exact ⟨hright, _, by omega, .busy hleads hcheck h⟩

end Worker

/-! ### The pool -/

structure Pool (κ ν α β : Type) where
  workers : List (Worker κ ν α β)
  memo : Memo κ ν

namespace Pool

variable (rule) (check : α → Inquiry κ ν β)

/-- One worker for each share, over an empty table. -/
def start (shares : List (List α)) : Pool κ ν α β where
  workers := shares.map fun share ↦ { todo := share }
  memo _ := none

/-- The worker at a place takes a step. -/
def step (p : Pool κ ν α β) (i : ℕ) : Option (Pool κ ν α β) := do
  let w ← p.workers[i]?
  let (w, memo) ← w.step rule check p.memo
  return { workers := p.workers.set i w, memo }

/-- The pool after a schedule, the worker of each step in order. -/
def run (p : Pool κ ν α β) (schedule : List ℕ) : Option (Pool κ ν α β) :=
  schedule.foldlM (step rule check) p

def Finished (p : Pool κ ν α β) : Prop := ∀ w ∈ p.workers, w.Idle

/-- What the workers made, in the order of the shares. -/
def results (p : Pool κ ν α β) : List β := p.workers.flatMap Worker.results

/-- Each worker owes its share, and all of them so many steps. -/
inductive Owing (value : α → β) (cost : α → ℕ) :
    List (Worker κ ν α β) → List (List α) → ℕ → Prop
  | nil : Owing value cost [] [] 0
  | cons {w : Worker κ ν α β} {share : List α} {ws : List (Worker κ ν α β)}
      {shares : List (List α)} {m n : ℕ} (hw : w.Owes rule check value cost share m)
      (hws : Owing value cost ws shares n) : Owing value cost (w :: ws) (share :: shares) (m + n)

/-- What is so in every state of a run. -/
structure Runs (value : α → β) (cost : α → ℕ) (shares : List (List α)) (p : Pool κ ν α β)
    (n : ℕ) : Prop where
  right : p.memo.Right rule
  owing : Owing rule check value cost p.workers shares n

variable {rule check} {value : α → β} {cost : α → ℕ}

omit [DecidableEq κ] in
theorem Owing.results {ws : List (Worker κ ν α β)} {shares : List (List α)} {n : ℕ}
    (h : Owing rule check value cost ws shares n) (hidle : ∀ w ∈ ws, w.Idle) :
    ws.flatMap Worker.results = shares.flatten.map value := by
  induction h with
  | nil => rfl
  | cons hw hws ih =>
    rw [List.flatMap_cons, List.flatten_cons, List.map_append,
      hw.results (hidle _ List.mem_cons_self),
      ih fun w hmem ↦ hidle w (List.mem_cons_of_mem _ hmem)]

theorem Owing.step {ws : List (Worker κ ν α β)} {shares : List (List α)} {n : ℕ}
    (h : Owing rule check value cost ws shares n) {memo memo' : Memo κ ν} (hmemo : memo.Right rule)
    {i : ℕ} {w w' : Worker κ ν α β} (hi : ws[i]? = some w)
    (hstep : w.step rule check memo = some (w', memo')) :
    memo'.Right rule ∧ ∃ m < n, Owing rule check value cost (ws.set i w') shares m := by
  induction h generalizing i with
  | nil => simp at hi
  | @cons w₀ share ws shares m n hw hws ih =>
    cases i with
    | zero =>
      obtain rfl : w₀ = w := by simpa using hi
      obtain ⟨hright, k, hk, howes⟩ := hw.step hmemo hstep
      exact ⟨hright, k + n, by omega, .cons howes hws⟩
    | succ i =>
      obtain ⟨hright, k, hk, howing⟩ := ih (by simpa using hi)
      exact ⟨hright, m + k, by omega, .cons hw howing⟩

theorem step_eq_some_iff {p p' : Pool κ ν α β} {i : ℕ} :
    p.step rule check i = some p' ↔ ∃ w w' memo, p.workers[i]? = some w ∧
      w.step rule check p.memo = some (w', memo) ∧ p' = ⟨p.workers.set i w', memo⟩ := by
  unfold step
  cases p.workers[i]? with
  | none => simp
  | some w =>
    cases hstep : w.step rule check p.memo with
    | none => simp [hstep]
    | some next =>
      obtain ⟨w', memo⟩ := next
      simp [hstep, eq_comm]

theorem Runs.step {shares : List (List α)} {p p' : Pool κ ν α β} {n i : ℕ}
    (h : p.Runs rule check value cost shares n) (hstep : p.step rule check i = some p') :
    ∃ m < n, p'.Runs rule check value cost shares m := by
  obtain ⟨w, w', memo, hi, hw, rfl⟩ := step_eq_some_iff.mp hstep
  obtain ⟨hright, m, hm, howing⟩ := h.owing.step h.right hi hw
  exact ⟨m, hm, hright, howing⟩

/-- Every step of a schedule is paid for. -/
theorem Runs.run {shares : List (List α)} {p p' : Pool κ ν α β} {n : ℕ}
    (h : p.Runs rule check value cost shares n) {schedule : List ℕ}
    (hrun : p.run rule check schedule = some p') :
    ∃ m, m + schedule.length ≤ n ∧ p'.Runs rule check value cost shares m := by
  induction schedule generalizing p n with
  | nil =>
    obtain rfl : p = p' := by simpa [Pool.run] using hrun
    exact ⟨n, by simp, h⟩
  | cons i schedule ih =>
    simp only [Pool.run, List.foldlM_cons, Option.bind_eq_bind, Option.bind_eq_some_iff] at hrun
    obtain ⟨next, hstep, hrest⟩ := hrun
    obtain ⟨m, hm, hnext⟩ := h.step hstep
    obtain ⟨k, hk, hlast⟩ := ih hnext hrest
    exact ⟨k, by rw [List.length_cons]; omega, hlast⟩

omit [DecidableEq κ] in
theorem exists_runs_start {shares : List (List α)}
    (hcheck : ∀ a ∈ shares.flatten, Means rule (check a) (value a) (cost a)) :
    ∃ n, (start (κ := κ) (ν := ν) (β := β) shares).Runs rule check value cost shares n := by
  suffices howing : ∃ n, Owing rule check value cost
      (shares.map fun share ↦ ({ todo := share } : Worker κ ν α β)) shares n by
    obtain ⟨n, hn⟩ := howing
    exact ⟨n, fun _ _ h ↦ absurd h (by simp [start]), hn⟩
  induction shares with
  | nil => exact ⟨0, .nil⟩
  | cons share shares ih =>
    rw [List.flatten_cons] at hcheck
    obtain ⟨n, hn⟩ := ih fun a ha ↦ hcheck a (List.mem_append_right _ ha)
    exact ⟨_, .cons (Worker.owes_start fun a ha ↦ hcheck a (List.mem_append_left _ ha)) hn⟩

variable (rule check) in
/-- As long as a worker has something left to do, some step is possible. -/
theorem exists_step {p : Pool κ ν α β} (h : ¬ p.Finished) :
    ∃ i p', p.step rule check i = some p' := by
  obtain ⟨w, hmem, hidle⟩ := by simpa [Finished] using h
  obtain ⟨i, hi⟩ := List.mem_iff_getElem?.mp hmem
  cases hstep : w.step rule check p.memo with
  | none => exact absurd (Worker.step_eq_none_iff.mp hstep) hidle
  | some next => exact ⟨i, _, step_eq_some_iff.mpr ⟨w, next.1, next.2, hi, hstep, rfl⟩⟩

section Ends

variable {shares : List (List α)}
  (hcheck : ∀ a ∈ shares.flatten, ∃ n, Means rule (check a) (value a) n)

include hcheck

/-- A run that is over has made what the items mean, item by item. -/
theorem results_of_run {schedule : List ℕ} {p : Pool κ ν α β}
    (hrun : (start shares).run rule check schedule = some p) (hfinished : p.Finished) :
    p.results = shares.flatten.map value := by
  choose! cost hcost using hcheck
  obtain ⟨n, hstart⟩ := exists_runs_start hcost
  obtain ⟨m, -, hruns⟩ := hstart.run hrun
  exact hruns.owing.results hfinished

/-- No schedule runs for ever, and any schedule can be carried to the end. -/
theorem run_ends : ∃ bound, ∀ schedule p, (start shares).run rule check schedule = some p →
    schedule.length ≤ bound ∧ ∃ more p', p.run rule check more = some p' ∧ p'.Finished := by
  choose! cost hcost using hcheck
  obtain ⟨n, hstart⟩ := exists_runs_start hcost
  refine ⟨n, fun schedule p hrun ↦ ?_⟩
  obtain ⟨m, hm, hruns⟩ := hstart.run hrun
  refine ⟨by omega, ?_⟩
  clear hrun hm
  induction m using Nat.strong_induction_on generalizing p with
  | _ m ih =>
    by_cases hfinished : p.Finished
    · exact ⟨[], p, rfl, hfinished⟩
    · obtain ⟨i, next, hstep⟩ := exists_step rule check hfinished
      obtain ⟨k, hk, hnext⟩ := hruns.step hstep
      obtain ⟨more, last, hmore, hlast⟩ := ih k hk next hnext
      refine ⟨i :: more, last, ?_, hlast⟩
      simpa [Pool.run, hstep] using hmore

end Ends

end Pool

end WorkerPool
