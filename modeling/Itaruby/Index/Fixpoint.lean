import Itaruby.Index.Termination

/-!
Where reconciliation ends. A class whose headers are found in conflict loses its
edge for good; in the round that ends the loop no class is in conflict and none
has an ambiguous ancestor outside the ambiguous set. The loop ends when every
ancestor walk it starts ends, and a dropped edge can turn a header to a circle.
-/

set_option autoImplicit false
set_option relaxedAutoImplicit false

namespace Itaruby

open Linearization

namespace ProjectIndex

/-! ### What reconciliation is for -/

/-- The class is marked ambiguous and its superclass edge is gone. -/
def Dropped (ix : ProjectIndex) (id : ClassId) : Prop :=
  id ∈ ix.ambiguousAncestry ∧ (ix.classOf id).superclass = none

def HeaderNames (ix : ProjectIndex) (id : ClassId) (header : Header) (target : ClassId) : Prop :=
  (ix.resolveSuperclassHeader ix.ancestorChain id header.2 header.1).Returns (some target)

/-- The name is relative, no lexical scope answers it, and the class whose ancestors are
asked next is ambiguous. -/
def CrossesConflict (ix : ProjectIndex) (id : ClassId) (header : Header) : Prop :=
  stripCbase header.1 = none ∧ ix.resolveSuperclassLexical id header.2 header.1 = none ∧
    ∃ enclosing, ix.enclosingClass header.2 = some enclosing ∧ enclosing ∈ ix.ambiguousAncestry

/-- The headers of one class can be read as one: the same text in the same scope, or one
target for all. -/
def Agree (ix : ProjectIndex) (id : ClassId) (headers : List Header) : Prop :=
  (∀ header ∈ headers, ∀ other ∈ headers, header = other) ∨
    ∃ target, ∀ header ∈ headers, ix.HeaderNames id header target

structure Reconciled (declarations : List (ClassId × List Header)) (ix : ProjectIndex) : Prop where
  agree : ∀ entry ∈ declarations, ix.Dropped entry.1 ∨ ix.Agree entry.1 entry.2
  spread : ∀ id ∈ ix.targets, ∀ a, Relation.ReflTransGen ix.Ancestor id a →
    a ∈ ix.ambiguousAncestry → id ∈ ix.ambiguousAncestry
  clear : ∀ entry ∈ declarations, ix.Dropped entry.1 ∨
    ∀ header ∈ entry.2, ¬ ix.CrossesConflict entry.1 header

/-! ### One check of the headers -/

variable {ix : ProjectIndex}

theorem conflictingConstScope_dropLast {nesting : List ConstPath} :
    ix.conflictingConstScope nesting.dropLast = true ↔
      ∃ enclosing, ix.enclosingClass nesting = some enclosing ∧
        enclosing ∈ ix.ambiguousAncestry := by
  unfold conflictingConstScope enclosingClass
  cases nesting.dropLast.getLast? with
  | none => simp
  | some scope =>
    cases hscope : ix.byPath.lookup scope with
    | none => simp [hscope]
    | some enclosing => simp [hscope]

theorem superclassHeaderIsAmbiguous_iff {id : ClassId} {header : Header} :
    ix.superclassHeaderIsAmbiguous id header.2 header.1 = true ↔ ix.CrossesConflict id header := by
  unfold superclassHeaderIsAmbiguous CrossesConflict
  rw [Bool.and_eq_true, Bool.and_eq_true, Option.isNone_iff_eq_none, Option.isNone_iff_eq_none,
    conflictingConstScope_dropLast]
  constructor
  · rintro ⟨⟨hrelative, hscope⟩, hlexical⟩
    exact ⟨hrelative, hlexical, hscope⟩
  · rintro ⟨hrelative, hlexical, hscope⟩
    exact ⟨⟨hrelative, hscope⟩, hlexical⟩

/-- A header that does not disagree with the first is the first, or both name one class. -/
theorem headerDisagrees_false {id : ClassId} {first header : Header} {target : Option ClassId}
    (h : (ix.headerDisagrees id first target header).Returns false) :
    header = first ∨ ∃ c, target = some c ∧ ix.HeaderNames id header c := by
  unfold headerDisagrees at h
  split_ifs at h with hsame
  · exact Or.inl hsame
  · right
    obtain ⟨other, hother, h⟩ := Fueled.returns_bind.mp h
    have hnot := Fueled.returns_pure.mp h
    cases target with
    | none => simp at hnot
    | some c =>
      obtain rfl : some c = other := by simpa using hnot
      exact ⟨c, rfl, hother⟩

theorem headers_agree_of_rest {id : ClassId} {first : Header} {rest : List Header}
    {target : Option ClassId}
    (hfirst : (ix.resolveSuperclassHeader ix.ancestorChain id first.2 first.1).Returns target)
    (h : ∀ header ∈ rest, (ix.headerDisagrees id first target header).Returns false) :
    ix.Agree id (first :: rest) := by
  by_cases hall : ∀ header ∈ rest, header = first
  · left
    have heq : ∀ header ∈ first :: rest, header = first := by
      intro header hheader
      rcases List.mem_cons.mp hheader with rfl | hrest
      · rfl
      · exact hall header hrest
    intro header hheader other hother
    rw [heq header hheader, heq other hother]
  · right
    push Not at hall
    obtain ⟨witness, hwitness, hne⟩ := hall
    obtain ⟨c, rfl, -⟩ := (headerDisagrees_false (h witness hwitness)).resolve_left hne
    refine ⟨c, fun header hheader ↦ ?_⟩
    rcases List.mem_cons.mp hheader with rfl | hrest
    · exact hfirst
    · rcases headerDisagrees_false (h header hrest) with rfl | ⟨d, hd, hnames⟩
      · exact hfirst
      · obtain rfl := Option.some.inj hd
        exact hnames

theorem agree_of_not_ambiguous {id : ClassId} {headers : List Header}
    (h : (ix.superclassHeadersAreAmbiguous id headers).Returns false) :
    ix.Agree id headers ∧ ∀ header ∈ headers, ¬ ix.CrossesConflict id header := by
  unfold superclassHeadersAreAmbiguous at h
  split_ifs at h with hany
  · simp at h
  · have hclear : ∀ header ∈ headers, ¬ ix.CrossesConflict id header := by
      intro header hheader hcrosses
      exact hany (List.any_eq_true.mpr
        ⟨header, hheader, superclassHeaderIsAmbiguous_iff.mpr hcrosses⟩)
    refine ⟨?_, hclear⟩
    match headers, h with
    | [], _ => exact Or.inl (by simp)
    | [header], _ => exact Or.inl (by simp)
    | first :: second :: rest, h =>
      obtain ⟨target, htarget, h⟩ := Fueled.returns_bind.mp h
      exact headers_agree_of_rest htarget (Fueled.returns_anyM_false.mp h)

/-! ### A dropped edge stays dropped -/

theorem classOf_of_length_le {id : ClassId} (h : ix.classes.length ≤ id) :
    ix.classOf id = { path := [] } := by
  unfold classOf
  rw [List.getD_eq_getElem?_getD, List.getElem?_eq_none h]
  rfl

theorem dropped_dropSuperclass (ix : ProjectIndex) (id : ClassId) :
    (ix.dropSuperclass id).Dropped id := by
  refine ⟨Finset.mem_insert_self _ _, ?_⟩
  change ((ix.modifyClass id fun cls ↦ { cls with superclass := none }).classOf id).superclass =
    none
  rw [classOf_modifyClass]
  split_ifs with hlt
  · rfl
  · have hout : ix.classes.length ≤ id := by
      by_contra hin
      exact hlt ⟨rfl, Nat.lt_of_not_le hin⟩
    rw [classOf_of_length_le hout]

theorem Dropped.dropSuperclass {id : ClassId} (h : ix.Dropped id) (other : ClassId) :
    (ix.dropSuperclass other).Dropped id := by
  refine ⟨Finset.mem_insert_of_mem h.1, ?_⟩
  change ((ix.modifyClass other fun cls ↦ { cls with superclass := none }).classOf id).superclass =
    none
  rw [classOf_modifyClass]
  split_ifs
  · rfl
  · exact h.2

theorem Dropped.foldl {id : ClassId} (found : List ClassId) (h : ix.Dropped id) :
    (found.foldl ProjectIndex.dropSuperclass ix).Dropped id := by
  induction found generalizing ix with
  | nil => exact h
  | cons other rest ih => exact ih (h.dropSuperclass other)

theorem dropped_of_mem {id : ClassId} (found : List ClassId) (h : id ∈ found) :
    (found.foldl ProjectIndex.dropSuperclass ix).Dropped id := by
  induction found generalizing ix with
  | nil => simp at h
  | cons other rest ih =>
    rcases List.mem_cons.mp h with rfl | hrest
    · exact (dropped_dropSuperclass ix id).foldl rest
    · exact ih hrest

theorem Dropped.mark {id : ClassId} (h : ix.Dropped id) (hits : Finset ClassId) :
    Dropped { ix with ambiguousAncestry := ix.ambiguousAncestry ∪ hits } id :=
  ⟨Finset.mem_union_left _ h.1, h.2⟩

/-! ### The rounds -/

/-- Every class found in conflict so far has lost its edge. -/
def SeenDropped (st : ProjectIndex × Finset ClassId) : Prop :=
  ∀ id ∈ st.2, st.1.Dropped id

theorem reconcileRound_seenDropped {declarations : List (ClassId × List Header)}
    {st st' : ProjectIndex × Finset ClassId} (hst : SeenDropped st)
    (h : (reconcileRound declarations st).Returns (.inl st')) : SeenDropped st' := by
  obtain ⟨found, hits, -, -, -, hseen, hix⟩ := reconcileRound_returns h
  intro id hid
  rw [hseen] at hid
  rw [hix]
  refine Dropped.mark ?_ hits.toFinset
  rcases Finset.mem_union.mp hid with hold | hnew
  · exact (hst id hold).foldl found
  · exact dropped_of_mem found (List.mem_toFinset.mp hnew)

/-- The round that ends the loop finds no conflict and has nothing to propagate. -/
theorem reconcileRound_ends {declarations : List (ClassId × List Header)}
    {st : ProjectIndex × Finset ClassId} {ix' : ProjectIndex}
    (h : (reconcileRound declarations st).Returns (.inr ix')) :
    (st.1.conflicts st.2 declarations).Returns [] ∧
      st.1.propagateAncestryConflicts.Returns (ix', false) ∧ ix' = st.1 := by
  unfold reconcileRound at h
  obtain ⟨found, hfound, h⟩ := Fueled.returns_bind.mp h
  obtain ⟨⟨ix'', changed⟩, hprop, h⟩ := Fueled.returns_bind.mp h
  dsimp only at h
  split_ifs at h with hgo
  · exact absurd (Fueled.returns_pure.mp h) (by simp)
  · obtain rfl := Sum.inr.inj (Fueled.returns_pure.mp h)
    have hidle : changed = false ∧ found = [] := by simpa using hgo
    obtain ⟨rfl, rfl⟩ := hidle
    refine ⟨hfound, hprop, ?_⟩
    obtain ⟨hits, -, rfl, hnone⟩ := propagateAncestryConflicts_returns hprop
    obtain rfl : hits = [] := by simpa using hnone
    simp

theorem not_ambiguous_of_conflicts_nil {seen : Finset ClassId}
    {declarations : List (ClassId × List Header)} (h : (ix.conflicts seen declarations).Returns [])
    {entry : ClassId × List Header} (hentry : entry ∈ declarations) (hseen : entry.1 ∉ seen) :
    (ix.superclassHeadersAreAmbiguous entry.1 entry.2).Returns false := by
  obtain ⟨kept, hkept, hnil⟩ := Fueled.returns_map.mp h
  obtain rfl := List.map_eq_nil_iff.mp hnil
  have hfalse := Fueled.returns_filter_nil.mp hkept entry hentry
  unfold headersConflict at hfalse
  rwa [if_neg hseen] at hfalse

theorem spread_of_propagate_idle (h : ix.propagateAncestryConflicts.Returns (ix, false))
    {id a : ClassId} (hid : id ∈ ix.targets) (hreach : Relation.ReflTransGen ix.Ancestor id a)
    (ha : a ∈ ix.ambiguousAncestry) : id ∈ ix.ambiguousAncestry := by
  by_contra hnot
  unfold propagateAncestryConflicts at h
  split_ifs at h with hempty
  · rw [hempty] at ha
    simp at ha
  · obtain ⟨hits, hhits, h⟩ := Fueled.returns_bind.mp h
    obtain ⟨-, hidle⟩ := Prod.mk.inj (Fueled.returns_pure.mp h)
    obtain rfl : hits = [] := by simpa using hidle
    have hunaffected := Fueled.returns_filter_nil.mp hhits id (List.mem_toFinset.mp hid)
    unfold isAffected at hunaffected
    rw [if_neg hnot] at hunaffected
    obtain ⟨chain, hchain, hclean⟩ := Fueled.returns_bind.mp hunaffected
    obtain ⟨⟨chain, complete⟩, hret, rfl⟩ := Fueled.returns_map.mp hchain
    have hclean := List.any_eq_false.mp (Fueled.returns_pure.mp hclean) a
      ((mem_ancestors_iff hret).mpr hreach)
    exact hclean (decide_eq_true ha)

/-- Where the loop ends its result is reconciled. -/
theorem reconciled_of_returns {ix' : ProjectIndex} (h : ix.reconcileSuperclasses.Returns ix') :
    ix'.Reconciled ix.declarationList := by
  refine Fueled.iterate_invariant (I := SeenDropped)
    (fun st st' hst hstep ↦ reconcileRound_seenDropped hst hstep)
    (fun st r hst hstep ↦ ?_) ?_ h
  · obtain ⟨hconflicts, hprop, rfl⟩ := reconcileRound_ends hstep
    have hleft : ∀ entry ∈ ix.declarationList, entry.1 ∉ st.2 →
        st.1.Agree entry.1 entry.2 ∧ ∀ header ∈ entry.2, ¬ st.1.CrossesConflict entry.1 header :=
      fun entry hentry hseen ↦
        agree_of_not_ambiguous (not_ambiguous_of_conflicts_nil hconflicts hentry hseen)
    refine ⟨fun entry hentry ↦ ?_, fun id hid a ↦ spread_of_propagate_idle hprop hid,
      fun entry hentry ↦ ?_⟩
    · by_cases hseen : entry.1 ∈ st.2
      · exact Or.inl (hst _ hseen)
      · exact Or.inr (hleft entry hentry hseen).1
    · by_cases hseen : entry.1 ∈ st.2
      · exact Or.inl (hst _ hseen)
      · exact Or.inr (hleft entry hentry hseen).2
  · intro id hid
    simp at hid

/-! ### Indexes without nested headers -/

/-- No header is written inside a class of the index, so no header asks for ancestors. -/
def TopLevelHeaders (ix : ProjectIndex) : Prop :=
  ∀ id, ix.enclosingClass (ix.headerNesting id (ix.classOf id).nesting) = none

theorem TopLevelHeaders.asks (h : ix.TopLevelHeaders) (id : ClassId) : ix.asks id = none := by
  unfold ProjectIndex.asks
  cases (ix.classOf id).superclass with
  | none => rfl
  | some sc =>
    dsimp only [Option.bind_eq_bind, Option.bind_some]
    split
    · rfl
    · exact h id

theorem TopLevelHeaders.ancestors_end (h : ix.TopLevelHeaders) (id : ClassId) :
    (ix.ancestors id).Converges := by
  refine ancestors_converge_iff_headersSettle.mpr
    ⟨fun x ↦ ix.expander.build x none, fun x ↦ ?_, ⟨fun x ↦ ⟨x, fun y hy ↦ ?_⟩⟩⟩ id
  · rw [show ix.expander.asks x = none from h.asks x]
  · obtain ⟨z, hz, -⟩ := hy
    exact absurd (hz.symm.trans (h.asks _)) (by simp)

theorem TopLevelHeaders.foldl (h : ix.TopLevelHeaders) (found : List ClassId) :
    (found.foldl ProjectIndex.dropSuperclass ix).TopLevelHeaders := by
  induction found generalizing ix with
  | nil => exact h
  | cons other rest ih =>
    refine ih fun id ↦ ?_
    obtain ⟨superclass, heq⟩ := (SameBodies.dropSuperclass ix other).classOf id
    rw [heq]
    exact h id

theorem TopLevelHeaders.meets {ix' : ProjectIndex} (h : ix.TopLevelHeaders)
    (hmeets : ix.Meets ix') : ix'.TopLevelHeaders := by
  obtain ⟨st, hreach, hix⟩ := hmeets
  have hst : st.1.TopLevelHeaders := by
    clear hix
    induction hreach with
    | refl => exact h
    | tail _ hstep ih =>
      obtain ⟨found, hits, -, -, -, -, hnext⟩ := reconcileRound_returns hstep
      rw [hnext]
      exact ih.foldl found
  rcases hix with rfl | ⟨found, -, rfl⟩ | hend
  · exact hst
  · exact hst.foldl found
  · rw [(reconcileRound_ends hend).2.2]
    exact hst

/-! ### The fixpoint -/

/-- The loop ends, and ends reconciled, when the ancestor walk ends in every index that
it goes through. -/
theorem reconciles_of_ancestors_end
    (h : ∀ ix', ix.Meets ix' → ∀ id, (ix'.ancestors id).Converges) :
    ∃ ix', ix.reconcileSuperclasses.Returns ix' ∧ ix'.Reconciled ix.declarationList := by
  obtain ⟨ix', hret⟩ := reconcileSuperclasses_converges h
  exact ⟨ix', hret, reconciled_of_returns hret⟩

/-- `class Base; end`, `class Other; end`, `class Adapter < Base; end`. -/
def flatDefs : FileDefs where
  fragments :=
    [{ path := ["Base"], nesting := [["Base"]], isModule := false },
     { path := ["Other"], nesting := [["Other"]], isModule := false },
     { path := ["Adapter"], nesting := [["Adapter"]], isModule := false,
       superclass := some ["Base"] },
     { path := ["Adapter"], nesting := [["Adapter"]], isModule := false,
       superclass := some ["Other"] }]

def flatIndex : ProjectIndex := mergeFiles {} [("flat.rb", flatDefs)]

theorem flat_topLevelHeaders : flatIndex.TopLevelHeaders := by
  intro id
  by_cases hin : id < 3
  · have hall : ∀ id < 3, flatIndex.enclosingClass
        (flatIndex.headerNesting id (flatIndex.classOf id).nesting) = none := by decide
    exact hall id hin
  · have hlen : flatIndex.classes.length = 3 := by decide
    rw [classOf_of_length_le (hlen ▸ Nat.le_of_not_lt hin)]
    rfl

theorem flat_reconciles :
    ∃ ix', flatIndex.reconcileSuperclasses.Returns ix' ∧
      ix'.Reconciled flatIndex.declarationList :=
  reconciles_of_ancestors_end fun _ hmeets ↦ (flat_topLevelHeaders.meets hmeets).ancestors_end

/-! ### A dropped edge that closes a circle -/

/-- `class Base; class Failure; end; end`, `class Adapter < Base; class Client < Failure; end;
end`, `class Special < Adapter::Client; class Stop < StandardError; end; end` and
`class Failure < Special::Stop; end`. -/
def adapterDefs : FileDefs where
  fragments :=
    [{ path := ["Base"], nesting := [["Base"]], isModule := false },
     { path := ["Base", "Failure"], nesting := [["Base"], ["Base", "Failure"]], isModule := false },
     { path := ["Adapter"], nesting := [["Adapter"]], isModule := false,
       superclass := some ["Base"] },
     { path := ["Adapter", "Client"], nesting := [["Adapter"], ["Adapter", "Client"]],
       isModule := false, superclass := some ["Failure"] },
     { path := ["Special"], nesting := [["Special"]], isModule := false,
       superclass := some ["Adapter", "Client"] },
     { path := ["Special", "Stop"], nesting := [["Special"], ["Special", "Stop"]],
       isModule := false, superclass := some ["StandardError"] },
     { path := ["Failure"], nesting := [["Failure"]], isModule := false,
       superclass := some ["Special", "Stop"] }]

/-- `class Other; end` and `class Adapter < Other; end`. -/
def otherDefs : FileDefs where
  fragments :=
    [{ path := ["Other"], nesting := [["Other"]], isModule := false },
     { path := ["Adapter"], nesting := [["Adapter"]], isModule := false,
       superclass := some ["Other"] }]

def adapterIndex : ProjectIndex :=
  mergeFiles {} [("adapter.rb", adapterDefs), ("other.rb", otherDefs)]

/-- The edge of `Adapter` once dropped, as the first round leaves the index. -/
def adapterDropped : ProjectIndex := adapterIndex.reconcileStart.1.dropSuperclass 2

theorem adapter_ancestors_end (id : ClassId) : (adapterIndex.ancestors id).Converges := by
  by_cases hin : id < 8
  · have hall : ∀ id < 8, ((adapterIndex.ancestors id).run 12).isSome = true := by decide
    obtain ⟨r, hr⟩ := Option.isSome_iff_exists.mp (hall id hin)
    exact ⟨r, 12, hr⟩
  · have hlen : adapterIndex.classes.length = 8 := by decide
    have hempty : adapterIndex.classOf id = { path := [] } :=
      classOf_of_length_le (hlen ▸ Nat.le_of_not_lt hin)
    refine ⟨([id], true), 1, ?_⟩
    change (adapterIndex.linearize 1 id {}).map _ = _
    have hclean : adapterIndex.ambiguousAncestry = ∅ := by decide
    simp [linearize, hempty, linearizeMixins, State.enter, State.emit, hclean]

/-- `Special` is a `Client`, whose header now falls through to `Failure`, which is a
`Special::Stop`, whose header asks for the ancestors of `Special`. -/
theorem adapterDropped_circle : ¬ (adapterDropped.ancestors 4).Converges := by
  rw [converges_ancestors_iff]
  refine Expander.not_terminates_of_circle (v := 5) ?_ (by decide)
  have hclient : adapterDropped.expander.Edge 4 3 :=
    ⟨0, _, Expander.expandAt_of_asks_none 0 (by decide), Or.inr (by decide)⟩
  have hfailure : adapterDropped.expander.Edge 3 6 :=
    ⟨1, _, Expander.expandAt_of_asked (y := 2) (by decide) (by rfl), Or.inr (by decide)⟩
  have hstop : adapterDropped.expander.Edge 6 5 :=
    ⟨0, _, Expander.expandAt_of_asks_none 0 (by decide), Or.inr (by decide)⟩
  exact ((Relation.ReflTransGen.single hclient).tail hfailure).tail hstop

/-- Every ancestor walk of the index ends and its reconciliation does not. -/
theorem adapter_never_reconciled :
    (∀ id, (adapterIndex.ancestors id).Converges) ∧
      ¬ adapterIndex.reconcileSuperclasses.Converges := by
  refine ⟨adapter_ancestors_end, fun hloop ↦ ?_⟩
  obtain ⟨next, hround⟩ := Fueled.step_converges_of_iterate hloop
  obtain ⟨found, hfound, hround⟩ := Fueled.returns_bind.mp hround
  have hbase : (adapterIndex.reconcileStart.1.conflicts ∅ adapterIndex.declarationList).Returns
      [2] := ⟨12, by decide⟩
  obtain rfl := hfound.unique hbase
  obtain ⟨answer, hpropagate, -⟩ := Fueled.returns_bind.mp hround
  change adapterDropped.propagateAncestryConflicts.Returns answer at hpropagate
  unfold propagateAncestryConflicts at hpropagate
  rw [if_neg (by decide)] at hpropagate
  obtain ⟨hits, hhits, -⟩ := Fueled.returns_bind.mp hpropagate
  obtain ⟨affected, haffected⟩ := Fueled.converges_of_filter hhits.converges 4 (by decide)
  unfold isAffected at haffected
  rw [if_neg (by decide)] at haffected
  obtain ⟨chain, hchain, -⟩ := Fueled.returns_bind.mp haffected
  obtain ⟨r, hr, -⟩ := Fueled.returns_map.mp hchain
  exact adapterDropped_circle hr.converges

end ProjectIndex

end Itaruby
