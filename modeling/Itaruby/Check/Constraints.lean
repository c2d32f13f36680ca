import Mathlib.Data.List.AList
import Mathlib.Data.String.Basic
import Itaruby.Check.SigArguments
import Itaruby.Library.StableSort

/-!
Usage constraints on locals: what a body calls on a local of unknown type, the verdict on each
local at the end of the body, and what becomes of the order in which a hash map gives them.
-/

set_option autoImplicit false
set_option relaxedAutoImplicit false

namespace Itaruby

/-- A call on a local: the method, and where its name stands. -/
structure Constraint where
  method : String
  start : ℕ
  stop : ℕ
  deriving DecidableEq, Repr

/-- A call with the types that conclusively have its method. -/
structure ConstraintCall where
  method : String
  start : ℕ
  stop : ℕ
  candidates : List String
  deriving DecidableEq, Repr

structure ConstraintProof where
  receiver : String
  calls : List ConstraintCall
  deriving DecidableEq, Repr

inductive ConstraintOutcome
  | inferred (receiver ty : String) (calls : List ConstraintCall)
  | unionCandidate (receiver : String) (candidates : List String) (calls : List ConstraintCall)
  | contradiction (proof : ConstraintProof)
  deriving DecidableEq, Repr

def ConstraintOutcome.receiver : ConstraintOutcome → String
  | .inferred receiver _ _ => receiver
  | .unionCandidate receiver _ _ => receiver
  | .contradiction proof => proof.receiver

/-- A diagnostic with what is rendered beside it. -/
structure RenderedDiagnostic extends Diagnostic where
  /-- a name that was meant, and where it is defined -/
  suggestion : Option (String × Option (String × ℕ)) := none
  constraint : Option ConstraintProof := none
  deriving DecidableEq, Repr

/-- The calls on each local, in the order of the program. -/
abbrev Constraints := AList fun _ : String ↦ List Constraint

/-! ### The verdict on one local -/

/-- The first call of each method. -/
def dedupeCalls : List String → List Constraint → List Constraint
  | _, [] => []
  | seen, c :: rest =>
    if c.method ∈ seen then dedupeCalls seen rest
    else c :: dedupeCalls (c.method :: seen) rest

def intersectCandidates : List ConstraintCall → List String
  | [] => []
  | first :: rest => rest.foldl (fun names c ↦ names.filter (· ∈ c.candidates)) first.candidates

/-- `intersection_outcome` -/
def intersectionOutcome (receiver : String) (calls : List ConstraintCall) :
    List String → Option ConstraintOutcome
  | [ty] => some (.inferred receiver ty calls)
  | names => if names.length ≤ 4 then some (.unionCandidate receiver names calls) else none

/-- `classify_binding`: a method without candidates proves nothing. -/
def classifyBinding (candidates : String → List String) (receiver : String)
    (calls : List Constraint) : Option ConstraintOutcome :=
  let deduped := dedupeCalls [] calls
  if deduped.length < 2 then none
  else
    let calls := deduped.map fun c ↦ ⟨c.method, c.start, c.stop, candidates c.method⟩
    if calls.any (·.candidates.isEmpty) then none
    else
      match intersectCandidates calls with
      | [] => some (.contradiction ⟨receiver, calls⟩)
      | names => intersectionOutcome receiver calls names

/-- The E0107 of an outcome, at the first call of its proof. -/
def ConstraintOutcome.diagnostic : ConstraintOutcome → Option RenderedDiagnostic
  | .contradiction proof =>
    proof.calls.head?.map fun first ↦
      { span := (first.start, first.stop)
        code := "E0107"
        severity := .warning
        message := s!"`{proof.receiver}` is used as " ++
          ", ".intercalate (proof.calls.map fun c ↦ s!"`.{c.method}`") ++
            ", but no type defines all of them"
        constraint := some proof }
  | _ => none

/-! ### The walk of a file -/

/-- What the walk of a file does to the constraints and the diagnostics. -/
inductive ConstraintOp
  | emit (d : RenderedDiagnostic)
  | collect (binding : String) (c : Constraint)
  /-- the local is written -/
  | kill (binding : String)
  | enterBody
  | leaveBody

/-- What a walk has collected: the map of the body it is in, those of the bodies around it, and
those of the bodies it has left. -/
structure Collected where
  constraints : Constraints := ∅
  saved : List Constraints := []
  left : List Constraints := []

def Collected.step (s : Collected) : ConstraintOp → Collected
  | .emit _ => s
  | .collect binding c =>
    { s with constraints :=
        s.constraints.insert binding ((s.constraints.lookup binding).getD [] ++ [c]) }
  | .kill binding => { s with constraints := s.constraints.erase binding }
  | .enterBody => { s with constraints := ∅, saved := s.constraints :: s.saved }
  | .leaveBody =>
    { constraints := s.saved.head?.getD ∅
      saved := s.saved.tail
      left := s.left ++ [s.constraints] }

/-- The map of each body, as it is at the body's end. -/
def bodyConstraints (ops : List ConstraintOp) : List Constraints :=
  (ops.foldl Collected.step {}).left

/-- An order in which a hash map may give its entries. -/
structure IterationOrder where
  entries : Constraints → List (Sigma fun _ : String ↦ List Constraint)
  perm : ∀ m, (entries m).Perm m.entries

structure ConstraintState extends Collected where
  diags : List RenderedDiagnostic := []
  outcomes : List ConstraintOutcome := []

section Walk

variable (candidates : String → List String)

/-- The outcomes of a map in the order of its entries. -/
def outcomesOf (entries : List (Sigma fun _ : String ↦ List Constraint)) :
    List ConstraintOutcome :=
  entries.filterMap fun entry ↦ classifyBinding candidates entry.1 entry.2

/-- `flush_constraints`, with the order that the map has this time. -/
def ConstraintState.flush (s : ConstraintState) (order : IterationOrder) : ConstraintState :=
  let found := outcomesOf candidates (order.entries s.constraints)
  { s with
    diags := s.diags ++ found.filterMap ConstraintOutcome.diagnostic
    outcomes := s.outcomes ++ found }

/-- The map of the `n`-th body that is left has the `n`-th order. -/
def ConstraintState.step (orders : ℕ → IterationOrder) (s : ConstraintState)
    (op : ConstraintOp) : ConstraintState :=
  let s' : ConstraintState :=
    match op with
    | .emit d => { s with diags := s.diags ++ [d] }
    | .leaveBody => s.flush candidates (orders s.left.length)
    | _ => s
  { s' with toCollected := s.toCollected.step op }

def constraintWalk (orders : ℕ → IterationOrder) (ops : List ConstraintOp) : ConstraintState :=
  ops.foldl (ConstraintState.step candidates orders) {}

/-- `constraint_report` -/
def constraintReport (orders : ℕ → IterationOrder) (ops : List ConstraintOp) :
    List ConstraintOutcome :=
  (constraintWalk candidates orders ops).outcomes

/-- Diagnostics are sorted by where they start, and then by their code. -/
def RenderedDiagnostic.before (d d' : RenderedDiagnostic) : Bool :=
  d.span.1 < d'.span.1 || (d.span.1 == d'.span.1 && decide (d.code ≤ d'.code))

/-- `check_file` -/
def checkFile (orders : ℕ → IterationOrder) (ops : List ConstraintOp) : List RenderedDiagnostic :=
  (constraintWalk candidates orders ops).diags.mergeSort RenderedDiagnostic.before

end Walk

/-! ### When a local has an outcome -/

/-- The types that have every method called. -/
def commonTypes (candidates : String → List String) : List Constraint → List String
  | [] => []
  | first :: rest =>
    (candidates first.method).filter fun ty ↦
      rest.all fun c ↦ decide (ty ∈ candidates c.method)

/-- The calls on a local prove something: there are two methods at least, each has a candidate,
and no more than four types have them all. -/
structure Conclusive (candidates : String → List String) (calls : List Constraint) : Prop where
  two : ∃ c ∈ calls, ∃ c' ∈ calls, c.method ≠ c'.method
  known : ∀ c ∈ calls, candidates c.method ≠ []
  few : (commonTypes candidates calls).length ≤ 4

theorem mem_of_mem_dedupeCalls {seen : List String} {calls : List Constraint} {c : Constraint}
    (h : c ∈ dedupeCalls seen calls) : c ∈ calls ∧ c.method ∉ seen := by
  induction calls generalizing seen with
  | nil => cases h
  | cons d rest ih =>
    rw [dedupeCalls] at h
    split at h
    · exact ⟨.tail _ (ih h).1, (ih h).2⟩
    · cases h with
      | head => exact ⟨.head _, by assumption⟩
      | tail _ h =>
        exact ⟨.tail _ (ih h).1, fun hseen ↦ (ih h).2 (.tail _ hseen)⟩

theorem exists_mem_dedupeCalls (seen : List String) {calls : List Constraint} {c : Constraint}
    (hc : c ∈ calls) (unseen : c.method ∉ seen) :
    ∃ d ∈ dedupeCalls seen calls, d.method = c.method := by
  induction calls generalizing seen with
  | nil => cases hc
  | cons d rest ih =>
    rw [dedupeCalls]
    split
    · cases hc with
      | head => contradiction
      | tail _ hc => exact ih seen hc unseen
    · by_cases same : d.method = c.method
      · exact ⟨d, .head _, same⟩
      · cases hc with
        | head => exact absurd rfl same
        | tail _ hc =>
          obtain ⟨e, he, hmethod⟩ := ih (d.method :: seen) hc
            fun h ↦ (List.mem_cons.mp h).elim (fun h ↦ same h.symm) unseen
          exact ⟨e, .tail _ he, hmethod⟩

theorem dedupeCalls_cons (c : Constraint) (rest : List Constraint) :
    dedupeCalls [] (c :: rest) = c :: dedupeCalls [c.method] rest := by
  simp [dedupeCalls]

theorem two_le_length_dedupeCalls {c : Constraint} {rest : List Constraint} :
    2 ≤ (dedupeCalls [] (c :: rest)).length ↔
      ∃ d ∈ c :: rest, ∃ d' ∈ c :: rest, d.method ≠ d'.method := by
  rw [dedupeCalls_cons]
  constructor
  · intro two
    cases others : dedupeCalls [c.method] rest with
    | nil => simp [others] at two
    | cons d _ =>
      obtain ⟨hd, hne⟩ := mem_of_mem_dedupeCalls (others ▸ List.mem_cons_self : d ∈ _)
      exact ⟨d, .tail _ hd, c, .head _, fun h ↦ hne (h ▸ List.mem_cons_self)⟩
  · rintro ⟨d, hd, d', hd', hne⟩
    -- one of the two is not the first method
    obtain ⟨e, he, hec⟩ : ∃ e ∈ c :: rest, e.method ≠ c.method := by
      by_cases h : d.method = c.method
      · exact ⟨d', hd', fun h' ↦ hne (h.trans h'.symm)⟩
      · exact ⟨d, hd, h⟩
    have hrest : e ∈ rest := by
      cases he with
      | head => exact absurd rfl hec
      | tail _ he => exact he
    obtain ⟨f, hf, -⟩ := exists_mem_dedupeCalls [c.method] hrest (by simpa using hec)
    have := List.length_pos_of_mem hf
    simp only [List.length_cons]
    omega

theorem foldl_filter_mem (calls : List ConstraintCall) (names : List String) :
    calls.foldl (fun names c ↦ names.filter (· ∈ c.candidates)) names =
      names.filter fun ty ↦ calls.all fun c ↦ decide (ty ∈ c.candidates) := by
  induction calls generalizing names with
  | nil => simp
  | cons c calls ih => simp [ih, List.filter_filter, Bool.and_comm]

variable {candidates : String → List String}

theorem intersectCandidates_dedupe (c : Constraint) (rest : List Constraint) :
    intersectCandidates ((dedupeCalls [] (c :: rest)).map fun c ↦
      ⟨c.method, c.start, c.stop, candidates c.method⟩) =
        commonTypes candidates (c :: rest) := by
  rw [dedupeCalls_cons, List.map_cons, intersectCandidates, foldl_filter_mem, commonTypes]
  refine List.filter_congr fun ty hty ↦ ?_
  rw [Bool.eq_iff_iff]
  simp only [List.all_map, List.all_eq_true, Function.comp_apply, decide_eq_true_eq]
  constructor
  · intro all d hd
    by_cases same : d.method = c.method
    · exact same ▸ hty
    · obtain ⟨e, he, hmethod⟩ :=
        exists_mem_dedupeCalls [c.method] hd (by simpa using same)
      exact hmethod ▸ all e he
  · exact fun all d hd ↦ all d (mem_of_mem_dedupeCalls hd).1

theorem any_unknown_iff {calls : List Constraint} :
    (((dedupeCalls [] calls).map fun c ↦
      (⟨c.method, c.start, c.stop, candidates c.method⟩ : ConstraintCall)).any
        (·.candidates.isEmpty)) = false ↔ ∀ c ∈ calls, candidates c.method ≠ [] := by
  simp only [List.any_map, List.any_eq_false, Function.comp_apply, List.isEmpty_iff]
  constructor
  · intro all c hc
    obtain ⟨d, hd, hmethod⟩ := exists_mem_dedupeCalls [] hc (List.not_mem_nil)
    exact hmethod ▸ all d hd
  · exact fun all c hc ↦ all c (mem_of_mem_dedupeCalls hc).1

theorem intersectionOutcome_isSome {receiver : String} {calls : List ConstraintCall}
    {names : List String} :
    (intersectionOutcome receiver calls names).isSome ↔ names.length ≤ 4 := by
  match names with
  | [] => simp [intersectionOutcome]
  | [ty] => simp [intersectionOutcome]
  | ty :: ty' :: names =>
    simp [intersectionOutcome]

theorem classifyBinding_isSome {receiver : String} {calls : List Constraint} :
    (classifyBinding candidates receiver calls).isSome ↔ Conclusive candidates calls := by
  cases calls with
  | nil =>
    refine iff_of_false (by simp [classifyBinding, dedupeCalls]) fun h ↦ ?_
    obtain ⟨c, hc, -⟩ := h.two
    cases hc
  | cons c rest =>
    simp only [classifyBinding]
    split
    · rename_i one
      exact iff_of_false (by simp) fun h ↦
        one.not_ge (two_le_length_dedupeCalls.mpr h.two)
    rename_i two
    have two := two_le_length_dedupeCalls.mp (not_lt.mp two)
    split
    · rename_i unknown
      refine iff_of_false (by simp) fun h ↦ ?_
      exact absurd unknown (by simp [any_unknown_iff.mpr h.known])
    rename_i known
    have known := any_unknown_iff.mp (Bool.eq_false_iff.mpr known)
    rw [intersectCandidates_dedupe]
    cases common : commonTypes candidates (c :: rest) with
    | nil => exact iff_of_true rfl ⟨two, known, by simp [common]⟩
    | cons ty names =>
      refine intersectionOutcome_isSome.trans ⟨fun few ↦ ⟨two, known, common ▸ few⟩, ?_⟩
      exact fun h ↦ common ▸ h.few

theorem receiver_of_classifyBinding {receiver : String} {calls : List Constraint}
    {outcome : ConstraintOutcome}
    (h : classifyBinding candidates receiver calls = some outcome) :
    outcome.receiver = receiver := by
  simp only [classifyBinding] at h
  split at h
  · cases h
  split at h
  · cases h
  split at h
  · cases h
    rfl
  · simp only [intersectionOutcome] at h
    split at h
    · cases h
      rfl
    · split at h
      · cases h
        rfl
      · cases h

/-! ### The report and the order of the map -/

/-- One local of a body at most has conclusive calls. -/
def AtMostOneConclusive (candidates : String → List String) (m : Constraints) : Prop :=
  ∀ b calls b' calls', m.lookup b = some calls → m.lookup b' = some calls' →
    Conclusive candidates calls → Conclusive candidates calls' → b = b'

theorem mem_entries_ext {m : Constraints} {e e' : Sigma fun _ : String ↦ List Constraint}
    (h : e ∈ m.entries) (h' : e' ∈ m.entries) (keys : e.1 = e'.1) : e = e' := by
  obtain ⟨b, calls⟩ := e
  obtain ⟨b', calls'⟩ := e'
  cases keys
  have := (AList.mem_lookup_iff.mpr h).symm.trans (AList.mem_lookup_iff.mpr h')
  rw [Option.some.inj this]

theorem outcomesOf_le_one {m : Constraints} (h : AtMostOneConclusive candidates m) :
    (outcomesOf candidates m.entries).length ≤ 1 :=
  (m.nodupKeys.nodup).length_filterMap_le_one fun e he e' he' hsome hsome' ↦
    mem_entries_ext he he' (h e.1 e.2 e'.1 e'.2 (AList.mem_lookup_iff.mpr he)
      (AList.mem_lookup_iff.mpr he') (classifyBinding_isSome.mp hsome)
      (classifyBinding_isSome.mp hsome'))

theorem exists_outcome {m : Constraints} {b : String} {calls : List Constraint}
    (hlookup : m.lookup b = some calls) (h : Conclusive candidates calls) :
    ∃ o ∈ outcomesOf candidates m.entries, o.receiver = b := by
  obtain ⟨o, ho⟩ := Option.isSome_iff_exists.mp
    (classifyBinding_isSome.mpr h : (classifyBinding candidates b calls).isSome)
  exact ⟨o, List.mem_filterMap.mpr ⟨⟨b, calls⟩, AList.mem_lookup_iff.mp hlookup, ho⟩,
    receiver_of_classifyBinding ho⟩

theorem atMostOne_of_outcomesOf {m : Constraints}
    (one : (outcomesOf candidates m.entries).length ≤ 1) :
    AtMostOneConclusive candidates m := by
  intro b calls b' calls' hlookup hlookup' h h'
  obtain ⟨o, ho, rfl⟩ := exists_outcome hlookup h
  obtain ⟨o', ho', rfl⟩ := exists_outcome hlookup' h'
  match outcomesOf candidates m.entries, one, ho, ho' with
  | [_], _, ho, ho' => rw [List.mem_singleton.mp ho, List.mem_singleton.mp ho']

/-- The outcomes of a map are of different locals. -/
theorem outcomesOf_nodup (m : Constraints) : (outcomesOf candidates m.entries).Nodup := by
  refine List.pairwise_filterMap.mpr
    ((List.nodupKeys_iff_pairwise.mp m.nodupKeys).imp fun hne o ho o' ho' same ↦ hne ?_)
  rw [← receiver_of_classifyBinding ho, ← receiver_of_classifyBinding ho', same]

theorem constraintWalk_append (orders : ℕ → IterationOrder) (ops : List ConstraintOp)
    (op : ConstraintOp) :
    constraintWalk candidates orders (ops ++ [op]) =
      (constraintWalk candidates orders ops).step candidates orders op := by
  simp [constraintWalk, List.foldl_append]

theorem constraintWalk_collected (candidates : String → List String)
    (orders : ℕ → IterationOrder) (ops : List ConstraintOp) :
    (constraintWalk candidates orders ops).toCollected = ops.foldl Collected.step {} := by
  induction ops using List.reverseRecOn with
  | nil => rfl
  | append_singleton ops op ih =>
    rw [constraintWalk_append, List.foldl_append, List.foldl_cons, List.foldl_nil, ← ih]
    rfl

theorem bodyConstraints_append (ops : List ConstraintOp) (op : ConstraintOp) :
    bodyConstraints (ops ++ [op]) = ((ops.foldl Collected.step {}).step op).left := by
  simp [bodyConstraints, List.foldl_append]

theorem mem_bodyConstraints_append {ops : List ConstraintOp} {op : ConstraintOp}
    {m : Constraints} (h : m ∈ bodyConstraints ops) : m ∈ bodyConstraints (ops ++ [op]) := by
  rw [bodyConstraints_append]
  cases op with
  | leaveBody => exact List.mem_append_left _ h
  | _ => exact h

theorem mem_bodyConstraints_leave (ops : List ConstraintOp) :
    (ops.foldl Collected.step {}).constraints ∈ bodyConstraints (ops ++ [.leaveBody]) := by
  rw [bodyConstraints_append]
  exact List.mem_append_right _ List.mem_cons_self

/-- With one order throughout, the report is that of each body in turn. -/
theorem constraintReport_same_order (order : IterationOrder) (ops : List ConstraintOp) :
    constraintReport candidates (fun _ ↦ order) ops =
      (bodyConstraints ops).flatMap fun m ↦ outcomesOf candidates (order.entries m) := by
  induction ops using List.reverseRecOn with
  | nil => rfl
  | append_singleton ops op ih =>
    rw [constraintReport, constraintWalk_append, bodyConstraints_append]
    cases op with
    | leaveBody =>
      rw [Collected.step, List.flatMap_append, List.flatMap_singleton]
      exact congrArg₂ (· ++ ·) ih (by rw [constraintWalk_collected])
    | _ => exact ih

/-- A map in the order in which it is, and the other way round. -/
def IterationOrder.forth : IterationOrder := ⟨(·.entries), fun _ ↦ .refl _⟩

def IterationOrder.back : IterationOrder := ⟨(·.entries.reverse), fun _ ↦ List.reverse_perm _⟩

theorem atMostOne_of_report {ops : List ConstraintOp}
    (h : constraintReport candidates (fun _ ↦ .forth) ops =
      constraintReport candidates (fun _ ↦ .back) ops) :
    ∀ m ∈ bodyConstraints ops, AtMostOneConclusive candidates m := by
  intro m hm
  rw [constraintReport_same_order, constraintReport_same_order] at h
  have reversed (m : Constraints) : outcomesOf candidates (IterationOrder.back.entries m) =
      (outcomesOf candidates (IterationOrder.forth.entries m)).reverse :=
    List.filterMap_reverse
  have same := List.eq_of_flatMap_eq (fun m _ ↦ by rw [reversed, List.length_reverse]) h m hm
  exact atMostOne_of_outcomesOf
    ((outcomesOf_nodup m).length_le_one_of_reverse (same.trans (reversed m)).symm)

theorem outcomesOf_order {m : Constraints} (h : AtMostOneConclusive candidates m)
    (order : IterationOrder) :
    outcomesOf candidates (order.entries m) = outcomesOf candidates m.entries :=
  (((order.perm m).filterMap _).symm.eq_of_length_le_one (outcomesOf_le_one h)).symm

theorem constraintWalk_order {ops : List ConstraintOp}
    (h : ∀ m ∈ bodyConstraints ops, AtMostOneConclusive candidates m)
    (orders orders' : ℕ → IterationOrder) :
    constraintWalk candidates orders ops = constraintWalk candidates orders' ops := by
  induction ops using List.reverseRecOn with
  | nil => rfl
  | append_singleton ops op ih =>
    rw [constraintWalk_append, constraintWalk_append,
      ih fun m hm ↦ h m (mem_bodyConstraints_append hm)]
    cases op with
    | leaveBody =>
      have one := h _ (mem_bodyConstraints_leave ops)
      rw [← constraintWalk_collected candidates orders' ops] at one
      simp only [ConstraintState.step, ConstraintState.flush, outcomesOf_order one]
    | _ => rfl

/-- The report and the diagnostics do not depend on the order of the map exactly where no body
has two locals with conclusive calls. -/
theorem report_order_free_iff (ops : List ConstraintOp) :
    (∀ orders orders' : ℕ → IterationOrder,
      constraintReport candidates orders ops = constraintReport candidates orders' ops ∧
        checkFile candidates orders ops = checkFile candidates orders' ops) ↔
      ∀ m ∈ bodyConstraints ops, AtMostOneConclusive candidates m := by
  refine ⟨fun h ↦ atMostOne_of_report (h _ _).1, fun h orders orders' ↦ ?_⟩
  have same := constraintWalk_order h orders orders'
  exact ⟨congrArg _ same, congrArg (fun s ↦ s.diags.mergeSort RenderedDiagnostic.before) same⟩

/-- `def m(a, b); a.push(1); a.pop; b.push(1); b.pop; end`, where only arrays have the methods -/
theorem two_inferred_swapped :
    let ops : List ConstraintOp :=
      [.enterBody, .collect "a" ⟨"push", 16, 20⟩, .collect "a" ⟨"pop", 28, 31⟩,
        .collect "b" ⟨"push", 36, 40⟩, .collect "b" ⟨"pop", 48, 51⟩, .leaveBody]
    constraintReport (fun _ ↦ ["Array"]) (fun _ ↦ .forth) ops ≠
      constraintReport (fun _ ↦ ["Array"]) (fun _ ↦ .back) ops := by
  decide

/-! ### The diagnostics alone -/

theorem RenderedDiagnostic.before_trans (a b c : RenderedDiagnostic) (hab : a.before b = true)
    (hbc : b.before c = true) : a.before c = true := by
  simp only [before, Bool.or_eq_true, Bool.and_eq_true, decide_eq_true_eq, beq_iff_eq]
    at hab hbc ⊢
  rcases hab with hab | ⟨hab, codes⟩
  · rcases hbc with hbc | ⟨hbc, -⟩ <;> exact .inl (by omega)
  · rcases hbc with hbc | ⟨hbc, codes'⟩
    · exact .inl (by omega)
    · exact .inr ⟨hab.trans hbc, le_trans codes codes'⟩

theorem RenderedDiagnostic.before_total (a b : RenderedDiagnostic) :
    (a.before b || b.before a) = true := by
  simp only [before, Bool.or_eq_true, Bool.and_eq_true, decide_eq_true_eq, beq_iff_eq]
  rcases Nat.lt_trichotomy a.span.1 b.span.1 with h | h | h
  · exact .inl (.inl h)
  · exact (le_total a.code b.code).imp (fun hc ↦ .inr ⟨h, hc⟩) fun hc ↦ .inr ⟨h.symm, hc⟩
  · exact .inr (.inl h)

theorem RenderedDiagnostic.start_eq_of_before {a b : RenderedDiagnostic}
    (hab : a.before b = true) (hba : b.before a = true) : a.span.1 = b.span.1 := by
  simp only [before, Bool.or_eq_true, Bool.and_eq_true, decide_eq_true_eq, beq_iff_eq]
    at hab hba
  rcases hab with h | ⟨h, -⟩
  · rcases hba with h' | ⟨h', -⟩ <;> omega
  · exact h

/-- The diagnostic of a local stands at one of its calls. -/
theorem start_of_diagnostic {b : String} {calls : List Constraint} {o : ConstraintOutcome}
    {d : RenderedDiagnostic} (ho : classifyBinding candidates b calls = some o)
    (hd : o.diagnostic = some d) : ∃ c ∈ calls, d.span.1 = c.start := by
  simp only [classifyBinding] at ho
  split at ho
  · cases ho
  split at ho
  · cases ho
  split at ho
  · cases ho
    simp only [ConstraintOutcome.diagnostic] at hd
    obtain ⟨first, hfirst, rfl⟩ := Option.map_eq_some_iff.mp hd
    obtain ⟨c, hc, rfl⟩ := List.mem_map.mp (List.mem_of_head? hfirst)
    exact ⟨c, (mem_of_mem_dedupeCalls hc).1, rfl⟩
  · simp only [intersectionOutcome] at ho
    split at ho
    · cases ho
      cases hd
    · split at ho
      · cases ho
        cases hd
      · cases ho

/-- Calls on different locals stand at different places. -/
def OwnPlaces (ops : List ConstraintOp) : Prop :=
  ∀ b c b' c', .collect b c ∈ ops → .collect b' c' ∈ ops → c.start = c'.start → b = b'

/-- What a map holds has been collected. -/
def CollectedFrom (ops : List ConstraintOp) (m : Constraints) : Prop :=
  ∀ b calls, m.lookup b = some calls → ∀ c ∈ calls, .collect b c ∈ ops

theorem CollectedFrom.empty (ops : List ConstraintOp) : CollectedFrom ops ∅ := by
  intro b calls h
  rw [AList.lookup_empty] at h
  cases h

theorem CollectedFrom.erase {ops : List ConstraintOp} {m : Constraints}
    (h : CollectedFrom ops m) (b : String) : CollectedFrom ops (m.erase b) := by
  intro b' calls hlookup
  by_cases same : b' = b
  · subst same
    rw [AList.lookup_erase] at hlookup
    cases hlookup
  · rw [AList.lookup_erase_ne same] at hlookup
    exact h b' calls hlookup

theorem CollectedFrom.insert {ops : List ConstraintOp} {m : Constraints}
    (h : CollectedFrom ops m) {b : String} {c : Constraint} (hc : .collect b c ∈ ops) :
    CollectedFrom ops (m.insert b ((m.lookup b).getD [] ++ [c])) := by
  intro b' calls hlookup d hd
  by_cases same : b' = b
  · subst same
    rw [AList.lookup_insert] at hlookup
    cases hlookup
    rcases List.mem_append.mp hd with hd | hd
    · cases before : m.lookup b' with
      | none => rw [before] at hd; cases hd
      | some calls => exact h b' calls before d (by rwa [before] at hd)
    · rw [List.mem_singleton.mp hd]
      exact hc
  · rw [AList.lookup_insert_ne same] at hlookup
    exact h b' calls hlookup d hd

/-- Every map of a walk. -/
def Collected.All (P : Constraints → Prop) (s : Collected) : Prop :=
  P s.constraints ∧ (∀ m ∈ s.saved, P m) ∧ ∀ m ∈ s.left, P m

theorem Collected.step_from {ops : List ConstraintOp} {s : Collected} {op : ConstraintOp}
    (hop : op ∈ ops) (h : s.All (CollectedFrom ops)) : (s.step op).All (CollectedFrom ops) := by
  obtain ⟨here, saved, left⟩ := h
  cases op with
  | emit d => exact ⟨here, saved, left⟩
  | collect b c => exact ⟨here.insert hop, saved, left⟩
  | kill b => exact ⟨here.erase b, saved, left⟩
  | enterBody =>
    exact ⟨.empty ops, fun m hm ↦ (List.mem_cons.mp hm).elim (fun h ↦ h ▸ here) (saved m), left⟩
  | leaveBody =>
    refine ⟨?_, fun m hm ↦ saved m (List.mem_of_mem_tail hm), fun m hm ↦ ?_⟩
    · cases outer : s.saved with
      | nil => simpa [Collected.step, outer] using CollectedFrom.empty ops
      | cons m _ => simpa [Collected.step, outer] using saved m (outer ▸ List.mem_cons_self)
    · rcases List.mem_append.mp hm with hm | hm
      · exact left m hm
      · rw [List.mem_singleton.mp hm]
        exact here

theorem bodyConstraints_from (ops : List ConstraintOp) :
    ∀ m ∈ bodyConstraints ops, CollectedFrom ops m := by
  have run : ∀ todo : List ConstraintOp, todo ⊆ ops → ∀ s : Collected,
      s.All (CollectedFrom ops) → (todo.foldl Collected.step s).All (CollectedFrom ops) := by
    intro todo
    induction todo with
    | nil => exact fun _ s hs ↦ hs
    | cons op todo ih =>
      intro hsub s hs
      exact ih (fun o ho ↦ hsub (.tail _ ho)) _ (Collected.step_from (hsub (.head _)) hs)
  exact (run ops (fun _ ↦ id) {}
    ⟨.empty ops, fun _ h ↦ absurd h List.not_mem_nil, fun _ h ↦ absurd h List.not_mem_nil⟩).2.2

/-- An entry has a diagnostic with the key of `d`. -/
theorem start_of_keyed {d : RenderedDiagnostic}
    {e : Sigma fun _ : String ↦ List Constraint}
    (h : ((classifyBinding candidates e.1 e.2).bind fun o ↦
      o.diagnostic.filter fun d' ↦ d.before d' && d'.before d).isSome) :
    ∃ c ∈ e.2, d.span.1 = c.start := by
  obtain ⟨d', h⟩ := Option.isSome_iff_exists.mp h
  obtain ⟨o, ho, h⟩ := Option.bind_eq_some_iff.mp h
  obtain ⟨hd, key⟩ := Option.filter_eq_some_iff.mp h
  obtain ⟨c, hc, hstart⟩ := start_of_diagnostic ho hd
  rw [Bool.and_eq_true] at key
  exact ⟨c, hc, (RenderedDiagnostic.start_eq_of_before key.1 key.2).trans hstart⟩

/-- The diagnostics of a map with one key are at most one. -/
theorem sameKey_diagnostics_le_one {ops : List ConstraintOp} (places : OwnPlaces ops)
    {m : Constraints} (hm : CollectedFrom ops m) (d : RenderedDiagnostic) :
    (List.sameKey RenderedDiagnostic.before d
      ((outcomesOf candidates m.entries).filterMap ConstraintOutcome.diagnostic)).length ≤ 1 := by
  rw [List.sameKey, List.filter_filterMap, outcomesOf, List.filterMap_filterMap]
  refine (m.nodupKeys.nodup).length_filterMap_le_one fun e he e' he' hsome hsome' ↦ ?_
  obtain ⟨c, hc, hstart⟩ := start_of_keyed hsome
  obtain ⟨c', hc', hstart'⟩ := start_of_keyed hsome'
  refine mem_entries_ext he he' (places e.1 c e'.1 c' ?_ ?_ (hstart.symm.trans hstart'))
  · exact hm e.1 e.2 (AList.mem_lookup_iff.mpr he) c hc
  · exact hm e'.1 e'.2 (AList.mem_lookup_iff.mpr he') c' hc'

theorem sameKey_diagnostics_order {ops : List ConstraintOp} (places : OwnPlaces ops)
    {m : Constraints} (hm : CollectedFrom ops m) (d : RenderedDiagnostic)
    (order : IterationOrder) :
    List.sameKey RenderedDiagnostic.before d
      ((outcomesOf candidates (order.entries m)).filterMap ConstraintOutcome.diagnostic) =
    List.sameKey RenderedDiagnostic.before d
      ((outcomesOf candidates m.entries).filterMap ConstraintOutcome.diagnostic) := by
  refine (List.Perm.eq_of_length_le_one ?_ (sameKey_diagnostics_le_one places hm d)).symm
  exact (((order.perm m).symm.filterMap _).filterMap _).filter _

theorem sameKey_diags {ops : List ConstraintOp} (places : OwnPlaces ops)
    (orders orders' : ℕ → IterationOrder) (d : RenderedDiagnostic) {done : List ConstraintOp}
    (hdone : ∀ m ∈ bodyConstraints done, CollectedFrom ops m) :
    List.sameKey RenderedDiagnostic.before d (constraintWalk candidates orders done).diags =
      List.sameKey RenderedDiagnostic.before d
        (constraintWalk candidates orders' done).diags := by
  induction done using List.reverseRecOn with
  | nil => rfl
  | append_singleton done op ih =>
    have before := ih fun m hm ↦ hdone m (mem_bodyConstraints_append hm)
    rw [constraintWalk_append, constraintWalk_append]
    cases op with
    | emit d' =>
      simp only [ConstraintState.step, List.sameKey_append, before]
    | leaveBody =>
      have hm := hdone _ (mem_bodyConstraints_leave done)
      simp only [ConstraintState.step, ConstraintState.flush, List.sameKey_append, before,
        constraintWalk_collected, sameKey_diagnostics_order places hm]
    | _ => exact before

/-- The sort of the diagnostics forgets the order of the map: those of one body start at
different places. -/
theorem checkFile_order_free {ops : List ConstraintOp} (places : OwnPlaces ops)
    (orders orders' : ℕ → IterationOrder) :
    checkFile candidates orders ops = checkFile candidates orders' ops :=
  List.mergeSort_eq_of_sameKey RenderedDiagnostic.before_trans RenderedDiagnostic.before_total
    fun d ↦ sameKey_diags places orders orders' d
      fun m hm ↦ bodyConstraints_from ops m hm

end Itaruby
