import Itaruby.Index.Reconcile

/-!
When the ancestor walk ends. A header that its own scopes do not resolve asks
for the ancestors of the enclosing class, and nothing stops a class from being
an ancestor of the scope it asks. The headers are settled when no such circle
exists; then, and only then, every walk ends.
-/

set_option autoImplicit false
set_option relaxedAutoImplicit false

namespace Itaruby

open Linearization

namespace ProjectIndex

variable {ix : ProjectIndex}

/-! ### The entries of the walk form a finite set -/

theorem resolveSuperclassLevels_mem_targets {id found : ClassId} {name : ConstPath}
    (levels : List ConstPath) (h : ix.resolveSuperclassLevels id name levels = some found) :
    found ∈ ix.targets := by
  induction levels with
  | nil => simp [resolveSuperclassLevels] at h
  | cons level outer ih =>
    unfold resolveSuperclassLevels at h
    split at h
    · next candidate hcandidate =>
      split_ifs at h with hne
      · obtain rfl : candidate = found := Option.some.inj h
        exact ix.mem_targets_of_lookup hcandidate
      · exact ih h
    · split_ifs at h
      exact ih h

theorem mem_targets_of_filter {path : ConstPath} {p : ClassId → Bool} {found : ClassId}
    (h : (ix.byPath.lookup path).filter p = some found) : found ∈ ix.targets :=
  ix.mem_targets_of_lookup (Option.filter_eq_some_iff.mp h).1

theorem headerTarget_mem_targets {id found : ClassId} {sc : ConstPath}
    {chain : Option (List ClassId)} (h : ix.headerTarget id sc chain = some found) :
    found ∈ ix.targets := by
  unfold headerTarget at h
  split at h
  · next lexical hlexical =>
    obtain rfl : lexical = found := Option.some.inj h
    unfold resolveSuperclassLexical at hlexical
    split at hlexical
    · exact mem_targets_of_filter hlexical
    · exact resolveSuperclassLevels_mem_targets _ hlexical
  · split at h
    · next inherited hinherited =>
      obtain rfl : inherited = found := Option.some.inj h
      obtain ⟨l, -, hl⟩ := Option.bind_eq_some_iff.mp hinherited
      obtain ⟨a, -, ha⟩ := List.exists_of_findSome?_eq_some hl
      exact mem_targets_of_filter ha
    · exact mem_targets_of_filter h

theorem build_lists_mem_targets (id : ClassId) (chain : Option (List ClassId)) (w : ClassId)
    (h : (ix.expander.build id chain).Lists w) : w ∈ ix.targets := by
  rw [expander_build, lists_expansionOf_iff] at h
  rcases h with ⟨name, -, hname⟩ | h
  · exact ix.resolveConst_mem_targets hname
  · obtain ⟨sc, -, hsc⟩ := Option.map_eq_some_iff.mp h
    exact headerTarget_mem_targets hsc

theorem superclassOf_mem_targets {id target : ClassId}
    (h : (ix.superclassOf id).Returns (some target)) : target ∈ ix.targets := by
  cases hsc : (ix.classOf id).superclass with
  | none =>
    unfold superclassOf at h
    simp [hsc] at h
  | some sc =>
    obtain ⟨n, hn⟩ := (returns_superclassOf_iff hsc).mp h
    rw [ix.resolveSuperclassConst_eq_headerTarget _ id hsc] at hn
    cases hasks : ix.asks id with
    | none =>
      rw [hasks] at hn
      exact headerTarget_mem_targets (Option.some.inj hn)
    | some enclosing =>
      rw [hasks] at hn
      obtain ⟨chain, -, hchain⟩ := Option.map_eq_some_iff.mp hn
      exact headerTarget_mem_targets hchain

theorem ancestor_mem_targets {a b : ClassId} (h : ix.Ancestor a b) : b ∈ ix.targets := by
  rcases h with ⟨name, -, hname⟩ | h
  · exact ix.resolveConst_mem_targets hname
  · exact superclassOf_mem_targets h

/-! ### Settled headers -/

/-- Some assignment of expansions answers every header consistently and leaves no class
among the ancestors, direct or asked for, of the scope its own header asks. -/
def HeadersSettle (ix : ProjectIndex) : Prop := ix.expander.Settled

theorem ancestors_converge_iff_headersSettle :
    (∀ id, (ix.ancestors id).Converges) ↔ ix.HeadersSettle := by
  simp only [converges_ancestors_iff]
  exact Expander.terminates_iff_settled build_lists_mem_targets

/-! ### Everything built on a convergent ancestry converges -/

section Convergent

variable (hall : ∀ id, (ix.ancestors id).Converges)

include hall

theorem ancestorChain_converges (id : ClassId) : (ix.ancestorChain id).Converges :=
  (hall id).map Prod.fst

theorem resolveSuperclassHeader_converges (id : ClassId) (nesting : List ConstPath)
    (name : ConstPath) :
    (ix.resolveSuperclassHeader ix.ancestorChain id nesting name).Converges := by
  unfold resolveSuperclassHeader
  split
  · exact Fueled.converges_pure _
  · unfold resolveSuperclassFallback resolveSuperclassAncestor
    refine Fueled.Converges.bind ?_ fun found _ ↦ ?_
    · split
      · exact Fueled.converges_pure _
      · exact (ancestorChain_converges hall _).bind fun _ _ ↦ Fueled.converges_pure _
    · split <;> exact Fueled.converges_pure _

theorem superclassOf_converges_of_ancestors (id : ClassId) : (ix.superclassOf id).Converges := by
  unfold superclassOf
  split
  · exact Fueled.converges_pure none
  · exact resolveSuperclassHeader_converges hall _ _ _

theorem familyMemberDefines_converges (name : String) (kid : ClassId) :
    (ix.familyMemberDefines name kid).Converges := by
  unfold familyMemberDefines
  dsimp only
  split_ifs
  · exact Fueled.converges_pure true
  · exact Fueled.converges_pure _
  · exact (hall kid).bind fun _ _ ↦ Fueled.converges_pure _

theorem abstractFamilyDefines_converges (id : ClassId) (name : String) :
    (ix.abstractFamilyDefines id name).Converges :=
  Fueled.search_converges ix.subclassesOf_mem_targets
    fun kid _ ↦ familyMemberDefines_converges hall name kid

omit hall in
theorem descendantDefines_converges (id : ClassId) (name : String) (singleton : Bool) :
    (ix.descendantDefines id name singleton).Converges :=
  Fueled.search_converges ix.subclassesOf_mem_targets fun _ _ ↦ Fueled.converges_pure _

theorem lookupMethod_converges (id : ClassId) (name : String) :
    (ix.lookupMethod id name).Converges := by
  refine (hall id).bind fun (chain, complete) _ ↦ ?_
  dsimp only
  split
  · exact Fueled.converges_pure _
  · split_ifs
    · refine (abstractFamilyDefines_converges hall id name).bind fun hit _ ↦ ?_
      split_ifs <;> exact Fueled.converges_pure _
    · exact Fueled.converges_pure _

theorem extendedModuleSurface_converges (cls : ClassDef) (name : String) :
    (ix.extendedModuleSurface cls name).Converges := by
  unfold extendedModuleSurface
  induction cls.extends' with
  | nil => exact Fueled.converges_pure none
  | cons ext rest ih =>
    unfold extendedSurface
    split
    · exact Fueled.converges_pure _
    · refine (hall _).bind fun (chain, complete) _ ↦ ?_
      dsimp only
      split
      · exact Fueled.converges_pure _
      · split_ifs
        · exact ih
        · exact Fueled.converges_pure _

theorem coreMixinDefinition_converges (core : ClassDef) (name : String) (mixins : List ConstPath) :
    (ix.coreMixinDefinition core name mixins).Converges := by
  induction mixins with
  | nil => exact Fueled.converges_pure none
  | cons mixin rest ih =>
    unfold coreMixinDefinition
    split
    · exact ih
    · refine (ancestorChain_converges hall _).bind fun chain _ ↦ ?_
      split
      · exact Fueled.converges_pure _
      · exact ih

theorem coreSurface_converges (name : String) (paths : List ConstPath) :
    (ix.coreSurface name paths).Converges := by
  induction paths with
  | nil => exact Fueled.converges_pure none
  | cons path rest ih =>
    unfold coreSurface
    split
    · exact ih
    · refine (coreMixinDefinition_converges hall _ name _).bind fun prepended _ ↦ ?_
      split
      · exact Fueled.converges_pure _
      · split
        · exact Fueled.converges_pure _
        · refine (coreMixinDefinition_converges hall _ name _).bind fun included _ ↦ ?_
          split
          · exact Fueled.converges_pure _
          · exact ih

theorem coreObjectInstanceSurface_converges (id : ClassId) (name : String) :
    (ix.coreObjectInstanceSurface id name).Converges := by
  unfold coreObjectInstanceSurface
  split_ifs
  · exact Fueled.converges_pure _
  · exact coreSurface_converges hall name _
  · exact coreSurface_converges hall name _

theorem scanSingleton_converges (name : String) (chain : List ClassId) :
    (ix.scanSingleton name chain).Converges := by
  induction chain with
  | nil => exact Fueled.converges_pure none
  | cons a rest ih =>
    unfold scanSingleton
    split_ifs
    · exact Fueled.converges_pure _
    · split
      · exact Fueled.converges_pure _
      · refine (extendedModuleSurface_converges hall _ name).bind fun answer _ ↦ ?_
        split
        · exact Fueled.converges_pure _
        · exact ih

theorem lookupSingleton_converges (id : ClassId) (name : String) :
    (ix.lookupSingleton id name).Converges := by
  refine (hall id).bind fun (chain, complete) _ ↦ ?_
  refine (scanSingleton_converges hall name chain).bind fun scanned _ ↦ ?_
  split
  · exact Fueled.converges_pure _
  · refine (coreObjectInstanceSurface_converges hall id name).bind fun answer _ ↦ ?_
    split
    · exact Fueled.converges_pure _
    · split_ifs
      · refine (descendantDefines_converges id name true).bind fun hit _ ↦ ?_
        split_ifs <;> exact Fueled.converges_pure _
      · exact Fueled.converges_pure _

theorem scanSingletonOwn_converges (name : String) (chain : List ClassId) :
    (ix.scanSingletonOwn name chain).Converges := by
  induction chain with
  | nil => exact Fueled.converges_pure none
  | cons a rest ih =>
    unfold scanSingletonOwn
    split_ifs
    · exact ih
    · exact Fueled.converges_pure _
    · split
      · exact Fueled.converges_pure _
      · refine (extendedModuleSurface_converges hall _ name).bind fun answer _ ↦ ?_
        split
        · exact Fueled.converges_pure _
        · exact ih

theorem lookupSingletonOwn_converges (id : ClassId) (name : String) :
    (ix.lookupSingletonOwn id name).Converges := by
  refine (ancestorChain_converges hall id).bind fun chain _ ↦ ?_
  refine (scanSingletonOwn_converges hall name chain).bind fun scanned _ ↦ ?_
  split
  · exact Fueled.converges_pure _
  · split_ifs
    · exact Fueled.converges_pure _
    · refine (descendantDefines_converges id name true).bind fun hit _ ↦ ?_
      split_ifs <;> exact Fueled.converges_pure _

theorem superOverConsumers_converges (module : ClassId) (name : String) (consumers : List ClassId) :
    ∀ outcome, (ix.superOverConsumers module name outcome consumers).Converges := by
  induction consumers with
  | nil => exact fun outcome ↦ Fueled.converges_pure (agreedOutcome outcome)
  | cons consumer rest ih =>
    intro outcome
    unfold superOverConsumers
    split
    · exact ih outcome
    · refine (hall consumer).bind fun (chain, complete) _ ↦ ?_
      dsimp only
      split
      · exact ih outcome
      · split
        · exact Fueled.converges_pure _
        · split_ifs
          · exact ih _
          · exact Fueled.converges_pure _
        · split_ifs
          · exact ih _
          · exact Fueled.converges_pure _

theorem superLookup_converges (owner : ClassId) (singleton : Bool) (name : String) :
    (ix.superLookup owner singleton name).Converges := by
  unfold superLookup
  split_ifs
  · exact Fueled.converges_pure _
  · exact superOverConsumers_converges hall owner name _ none
  · refine (hall owner).bind fun (chain, complete) _ ↦ ?_
    dsimp only
    split <;> exact Fueled.converges_pure _

theorem closedCandidate_converges (id : ClassId) : (ix.closedCandidate id).Converges :=
  (hall id).bind fun _ _ ↦ Fueled.converges_pure _

theorem inconclusiveReason_converges (id : ClassId) : (ix.inconclusiveReason id).Converges := by
  refine (hall id).bind fun (chain, complete) _ ↦ ?_
  dsimp only
  split_ifs <;> exact Fueled.converges_pure _

theorem constInAncestors_converges (id : ClassId) (simple : String) :
    (ix.constInAncestors id simple).Converges :=
  (ancestorChain_converges hall id).bind fun _ _ ↦ Fueled.converges_pure _

theorem declaredBy_converges (id : ClassId) (path : ConstPath) :
    (ix.declaredBy id path).Converges :=
  (hall id).bind fun _ _ ↦ Fueled.converges_pure _

theorem buildSubclassMap_converges : ix.buildSubclassMap.Converges := by
  unfold buildSubclassMap
  refine Fueled.Converges.bind ?_ fun _ _ ↦ Fueled.converges_pure _
  induction List.range ix.classes.length with
  | nil => exact Fueled.converges_pure []
  | cons child rest ih =>
    unfold subclassEdges
    refine (superclassOf_converges_of_ancestors hall child).bind fun parent _ ↦ ?_
    exact ih.bind fun more _ ↦ Fueled.converges_pure _

end Convergent

/-! ### Reconciliation -/

section Round

variable (hall : ∀ id, (ix.ancestors id).Converges)

include hall

theorem superclassHeadersAreAmbiguous_converges (id : ClassId) (headers : List Header) :
    (ix.superclassHeadersAreAmbiguous id headers).Converges := by
  unfold superclassHeadersAreAmbiguous
  split_ifs
  · exact Fueled.converges_pure true
  · split
    · exact Fueled.converges_pure false
    · exact Fueled.converges_pure false
    · refine (resolveSuperclassHeader_converges hall _ _ _).bind fun target _ ↦ ?_
      refine Fueled.converges_anyM fun header _ ↦ ?_
      unfold headerDisagrees
      split_ifs
      · exact Fueled.converges_pure false
      · exact (resolveSuperclassHeader_converges hall _ _ _).bind fun _ _ ↦
          Fueled.converges_pure _

theorem conflicts_converges (seen : Finset ClassId) (declarations : List (ClassId × List Header)) :
    (ix.conflicts seen declarations).Converges := by
  refine (Fueled.converges_filter fun entry _ ↦ ?_).map _
  unfold headersConflict
  split_ifs
  · exact Fueled.converges_pure false
  · exact superclassHeadersAreAmbiguous_converges hall _ _

theorem propagateAncestryConflicts_converges : ix.propagateAncestryConflicts.Converges := by
  unfold propagateAncestryConflicts
  split_ifs
  · exact Fueled.converges_pure _
  · refine Fueled.Converges.bind ?_ fun _ _ ↦ Fueled.converges_pure _
    refine Fueled.converges_filter fun id _ ↦ ?_
    unfold isAffected
    split_ifs
    · exact Fueled.converges_pure false
    · exact (ancestorChain_converges hall id).bind fun _ _ ↦ Fueled.converges_pure _

end Round

theorem conflicts_mem {seen : Finset ClassId} {declarations : List (ClassId × List Header)}
    {found : List ClassId} (h : (ix.conflicts seen declarations).Returns found) :
    ∀ id ∈ found, id ∈ declarations.map Prod.fst ∧ id ∉ seen := by
  obtain ⟨kept, hkept, rfl⟩ := Fueled.returns_map.mp h
  intro id hid
  obtain ⟨entry, hentry, rfl⟩ := List.mem_map.mp hid
  obtain ⟨hmem, htrue⟩ := Fueled.mem_of_returns_filter hkept entry hentry
  refine ⟨List.mem_map_of_mem hmem, fun hseen ↦ ?_⟩
  unfold headersConflict at htrue
  rw [if_pos hseen] at htrue
  simp at htrue

theorem propagateAncestryConflicts_returns {ix' : ProjectIndex} {changed : Bool}
    (h : ix.propagateAncestryConflicts.Returns (ix', changed)) :
    ∃ hits : List ClassId, (∀ id ∈ hits, id ∈ ix.targets ∧ id ∉ ix.ambiguousAncestry) ∧
      ix' = { ix with ambiguousAncestry := ix.ambiguousAncestry ∪ hits.toFinset } ∧
      changed = !hits.isEmpty := by
  unfold propagateAncestryConflicts at h
  split_ifs at h with hempty
  · obtain ⟨rfl, rfl⟩ := Prod.mk.inj (Fueled.returns_pure.mp h)
    exact ⟨[], by simp, by simp, rfl⟩
  · obtain ⟨hits, hhits, h⟩ := Fueled.returns_bind.mp h
    obtain ⟨rfl, rfl⟩ := Prod.mk.inj (Fueled.returns_pure.mp h)
    refine ⟨hits, fun id hid ↦ ?_, rfl, rfl⟩
    obtain ⟨hmem, htrue⟩ := Fueled.mem_of_returns_filter hhits id hid
    refine ⟨List.mem_toFinset.mpr hmem, fun hamb ↦ ?_⟩
    unfold isAffected at htrue
    rw [if_pos hamb] at htrue
    simp at htrue

/-- A round either ends the loop or turns a declared class into a seen one, or a class of
the table into an ambiguous one. -/
theorem reconcileRound_returns {declarations : List (ClassId × List Header)}
    {st : ProjectIndex × Finset ClassId} {st' : ProjectIndex × Finset ClassId}
    (h : (reconcileRound declarations st).Returns (.inl st')) :
    ∃ found hits : List ClassId, (found ≠ [] ∨ hits ≠ []) ∧
      (∀ id ∈ found, id ∈ declarations.map Prod.fst ∧ id ∉ st.2) ∧
      (∀ id ∈ hits, id ∈ (found.foldl dropSuperclass st.1).targets ∧
        id ∉ (found.foldl dropSuperclass st.1).ambiguousAncestry) ∧
      st'.2 = st.2 ∪ found.toFinset ∧
      st'.1 = { found.foldl dropSuperclass st.1 with
        ambiguousAncestry :=
          (found.foldl dropSuperclass st.1).ambiguousAncestry ∪ hits.toFinset } := by
  unfold reconcileRound at h
  obtain ⟨found, hfound, h⟩ := Fueled.returns_bind.mp h
  obtain ⟨⟨ix', changed⟩, hprop, h⟩ := Fueled.returns_bind.mp h
  obtain ⟨hits, hhits, rfl, rfl⟩ := propagateAncestryConflicts_returns hprop
  dsimp only at h
  split_ifs at h with hgo
  · obtain rfl := Sum.inl.inj (Fueled.returns_pure.mp h)
    refine ⟨found, hits, ?_, conflicts_mem hfound, hhits, rfl, rfl⟩
    by_contra hno
    push Not at hno
    simp [hno.1, hno.2] at hgo
  · exact absurd (Fueled.returns_pure.mp h) (by simp)

theorem dropSuperclass_byPath (ix : ProjectIndex) (id : ClassId) :
    (ix.dropSuperclass id).byPath = ix.byPath := rfl

theorem foldl_dropSuperclass_targets (found : List ClassId) (ix : ProjectIndex) :
    (found.foldl dropSuperclass ix).targets = ix.targets := by
  induction found generalizing ix with
  | nil => rfl
  | cons id rest ih => exact (ih _).trans rfl

theorem foldl_dropSuperclass_ambiguous (found : List ClassId) (ix : ProjectIndex) :
    (found.foldl dropSuperclass ix).ambiguousAncestry = ix.ambiguousAncestry ∪ found.toFinset := by
  induction found generalizing ix with
  | nil => simp
  | cons id rest ih =>
    rw [List.foldl_cons, ih]
    ext x
    simp [dropSuperclass]

/-- What is still to be done: declared classes not seen and classes not ambiguous. -/
def reconcileMeasure (declarations : List (ClassId × List Header))
    (st : ProjectIndex × Finset ClassId) : ℕ :=
  ((declarations.map Prod.fst).toFinset \ st.2).card +
    (st.1.targets \ st.1.ambiguousAncestry).card

theorem reconcileMeasure_lt {declarations : List (ClassId × List Header)}
    {st st' : ProjectIndex × Finset ClassId}
    (h : (reconcileRound declarations st).Returns (.inl st')) :
    reconcileMeasure declarations st' < reconcileMeasure declarations st := by
  obtain ⟨found, hits, hprogress, hfound, hhits, hseen, hix⟩ := reconcileRound_returns h
  have htargets : st'.1.targets = st.1.targets := by
    rw [hix]
    exact foldl_dropSuperclass_targets found st.1
  have hamb : st'.1.ambiguousAncestry =
      st.1.ambiguousAncestry ∪ found.toFinset ∪ hits.toFinset := by
    rw [hix]
    change (found.foldl dropSuperclass st.1).ambiguousAncestry ∪ hits.toFinset = _
    rw [foldl_dropSuperclass_ambiguous]
  have hle₁ : (declarations.map Prod.fst).toFinset \ st'.2 ⊆
      (declarations.map Prod.fst).toFinset \ st.2 := by
    rw [hseen]
    exact Finset.sdiff_subset_sdiff (Finset.Subset.refl _) Finset.subset_union_left
  have hle₂ : st'.1.targets \ st'.1.ambiguousAncestry ⊆
      st.1.targets \ st.1.ambiguousAncestry := by
    rw [htargets, hamb, Finset.union_assoc]
    exact Finset.sdiff_subset_sdiff (Finset.Subset.refl _) Finset.subset_union_left
  unfold reconcileMeasure
  rcases hprogress with hne | hne
  · obtain ⟨id, hid⟩ := List.exists_mem_of_ne_nil found hne
    have hlt : ((declarations.map Prod.fst).toFinset \ st'.2).card <
        ((declarations.map Prod.fst).toFinset \ st.2).card := by
      refine Finset.card_lt_card (Finset.ssubset_iff_subset_ne.mpr ⟨hle₁, fun heq ↦ ?_⟩)
      have hmem : id ∈ (declarations.map Prod.fst).toFinset \ st.2 := by
        rw [Finset.mem_sdiff, List.mem_toFinset]
        exact hfound id hid
      rw [← heq, hseen, Finset.mem_sdiff] at hmem
      exact hmem.2 (Finset.mem_union_right _ (List.mem_toFinset.mpr hid))
    exact Nat.add_lt_add_of_lt_of_le hlt (Finset.card_le_card hle₂)
  · obtain ⟨id, hid⟩ := List.exists_mem_of_ne_nil hits hne
    have hlt : (st'.1.targets \ st'.1.ambiguousAncestry).card <
        (st.1.targets \ st.1.ambiguousAncestry).card := by
      refine Finset.card_lt_card (Finset.ssubset_iff_subset_ne.mpr ⟨hle₂, fun heq ↦ ?_⟩)
      obtain ⟨htarget, hnot⟩ := hhits id hid
      rw [foldl_dropSuperclass_targets] at htarget
      rw [foldl_dropSuperclass_ambiguous] at hnot
      have hmem : id ∈ st.1.targets \ st.1.ambiguousAncestry :=
        Finset.mem_sdiff.mpr ⟨htarget, fun h ↦ hnot (Finset.mem_union_left _ h)⟩
      rw [← heq, hamb, Finset.mem_sdiff] at hmem
      exact hmem.2 (Finset.mem_union_right _ (List.mem_toFinset.mpr hid))
    exact Nat.add_lt_add_of_le_of_lt (Finset.card_le_card hle₁) hlt

/-! ### Total ancestry -/

/-- Every ancestor walk ends with a duplicate-free chain that contains its class and is
marked incomplete when a written name in it leads nowhere; the subclass map and the lookups
built on the walk end too. -/
structure AncestryTotal (ix : ProjectIndex) : Prop where
  ancestors : ∀ id, ∃ chain complete, (ix.ancestors id).Returns (chain, complete) ∧
    chain.Nodup ∧ id ∈ chain ∧ ((∃ a ∈ chain, ix.Unresolved a) → complete = false)
  subclassMap : ix.buildSubclassMap.Converges
  method : ∀ id name, (ix.lookupMethod id name).Converges
  singleton : ∀ id name, (ix.lookupSingleton id name).Converges
  singletonOwn : ∀ id name, (ix.lookupSingletonOwn id name).Converges
  superMethod : ∀ owner singleton name, (ix.superLookup owner singleton name).Converges
  constant : ∀ id simple, (ix.constInAncestors id simple).Converges
  candidate : ∀ id, (ix.closedCandidate id).Converges
  blocker : ∀ id, (ix.inconclusiveReason id).Converges
  declared : ∀ id path, (ix.declaredBy id path).Converges

theorem ancestryTotal_iff_headersSettle : ix.AncestryTotal ↔ ix.HeadersSettle := by
  rw [← ancestors_converge_iff_headersSettle]
  constructor
  · intro h id
    obtain ⟨chain, complete, hret, -⟩ := h.ancestors id
    exact hret.converges
  · intro hall
    refine ⟨fun id ↦ ?_, buildSubclassMap_converges hall, lookupMethod_converges hall,
      lookupSingleton_converges hall, lookupSingletonOwn_converges hall,
      superLookup_converges hall, constInAncestors_converges hall, closedCandidate_converges hall,
      inconclusiveReason_converges hall, declaredBy_converges hall⟩
    obtain ⟨⟨chain, complete⟩, hret⟩ := hall id
    refine ⟨chain, complete, hret, ancestors_nodup hret, self_mem_ancestors hret, ?_⟩
    rintro ⟨a, ha, hunresolved⟩
    rw [← Bool.not_eq_true, ancestors_complete_iff hret]
    exact fun hgood ↦ (hgood a ha).2 hunresolved

/-- A round that does not end the loop. -/
def RoundStep (declarations : List (ClassId × List Header))
    (st st' : ProjectIndex × Finset ClassId) : Prop :=
  (reconcileRound declarations st).Returns (.inl st')

def reconcileStart (ix : ProjectIndex) : ProjectIndex × Finset ClassId :=
  ({ ix with superclassDeclarations := ∅ }, ∅)

/-- The reconciliation of `ix` walks ancestors in `ix'`: at the start of a round, after the
edges found in conflict are dropped, or in the end. -/
def Meets (ix ix' : ProjectIndex) : Prop :=
  ∃ st, Relation.ReflTransGen (RoundStep ix.declarationList) ix.reconcileStart st ∧
    (ix' = st.1 ∨
      (∃ found, (st.1.conflicts st.2 ix.declarationList).Returns found ∧
        ix' = found.foldl dropSuperclass st.1) ∨
      (reconcileRound ix.declarationList st).Returns (.inr ix'))

theorem reconcileSuperclasses_converges
    (h : ∀ ix', ix.Meets ix' → ∀ id, (ix'.ancestors id).Converges) :
    ix.reconcileSuperclasses.Converges := by
  refine Fueled.iterate_converges
    (I := Relation.ReflTransGen (RoundStep ix.declarationList) ix.reconcileStart)
    (reconcileMeasure ix.declarationList) ?_ ?_ _ Relation.ReflTransGen.refl
  · intro st hst
    refine (conflicts_converges (h _ ⟨st, hst, Or.inl rfl⟩) _ _).bind fun found hfound ↦ ?_
    have hmid := h _ ⟨st, hst, Or.inr (Or.inl ⟨found, hfound, rfl⟩)⟩
    refine (propagateAncestryConflicts_converges hmid).bind fun (ix', changed) _ ↦ ?_
    dsimp only
    split_ifs <;> exact Fueled.converges_pure _
  · exact fun st st' hst hstep ↦ ⟨hst.tail hstep, reconcileMeasure_lt hstep⟩

/-- Indexing ends, with total ancestry in every index its reconciliation goes through,
exactly when the headers settle in each of them. -/
theorem ancestry_total_iff_headers_settle (ix : ProjectIndex) :
    ((∀ ix', ix.Meets ix' → ix'.AncestryTotal) ∧ ix.reconcileSuperclasses.Converges) ↔
      ∀ ix', ix.Meets ix' → ix'.HeadersSettle := by
  constructor
  · exact fun h ix' hmeets ↦ ancestryTotal_iff_headersSettle.mp (h.1 ix' hmeets)
  · intro h
    refine ⟨fun ix' hmeets ↦ ancestryTotal_iff_headersSettle.mpr (h ix' hmeets), ?_⟩
    exact reconcileSuperclasses_converges fun ix' hmeets ↦
      ancestors_converge_iff_headersSettle.mpr (h ix' hmeets)

/-! ### A circle in ordinary code -/

/-- `class Failure < StandardError; end` and `class Client < Failure` with a nested
`class Failure < StandardError; end`. -/
def clientDefs : FileDefs where
  fragments :=
    [{ path := ["Failure"], nesting := [["Failure"]], isModule := false,
       superclass := some ["StandardError"] },
     { path := ["Client"], nesting := [["Client"]], isModule := false,
       superclass := some ["Failure"] },
     { path := ["Client", "Failure"], nesting := [["Client"], ["Client", "Failure"]],
       isModule := false, superclass := some ["StandardError"] }]

def clientIndex : ProjectIndex := mergeFiles {} [("client.rb", clientDefs)]

/-- `Client` resolves its header to `Client::Failure`, whose header asks for the ancestors
of `Client`. -/
theorem client_ancestry_not_total : ¬ clientIndex.AncestryTotal := by
  intro h
  obtain ⟨chain, complete, hret, -⟩ := h.ancestors 1
  refine Expander.not_terminates_of_circle (E := clientIndex.expander) (x := 1) (v := 2) ?_ ?_
    (converges_ancestors_iff.mp hret.converges)
  · refine Relation.ReflTransGen.single ⟨0, _, Expander.expandAt_of_asks_none 0 (by decide), ?_⟩
    exact Or.inr (by decide)
  · decide

end ProjectIndex

end Itaruby
