import Itaruby.Index.Termination

/-!
Whether a lookup that finds nothing on a class finds nothing on its subclasses.
`lookup_method` and `lookup_singleton` each walk the recorded descendants before
they answer `NotFound`, and each walk reads less of a descendant than a lookup on
it would. A descendant inherits its superclass's chain, so what is left to ask is
what its own mixins, `extend`s and headers bring in.
-/

set_option autoImplicit false
set_option relaxedAutoImplicit false

namespace Itaruby

open Linearization

namespace ProjectIndex

variable {ix : ProjectIndex}

/-! ### Chains that are read to their end -/

/-- The chain of `id` resolves in full and every class of it has the property. -/
def ReadsThrough (ix : ProjectIndex) (P : ClassId → Prop) (id : ClassId) : Prop :=
  ∃ chain, (ix.ancestors id).Returns (chain, true) ∧ ∀ a ∈ chain, P a

theorem expandAt_of_superclassOf {a : ClassId} (h : (ix.superclassOf a).Converges) :
    ∃ n e, ix.expander.expandAt n a = some e := by
  obtain ⟨target, htarget⟩ := h
  cases hsc : (ix.classOf a).superclass with
  | none =>
    obtain ⟨n, hn⟩ := exists_expandAt_iff.mpr (Or.inl ⟨hsc, rfl⟩)
    exact ⟨n, _, hn⟩
  | some sc =>
    obtain ⟨n, hn⟩ := exists_expandAt_iff.mpr (Or.inr ⟨sc, target, hsc, htarget, rfl⟩)
    exact ⟨n, _, hn⟩

/-- A walk on which every header resolves ends: the classes it can reach are finitely
many. -/
theorem ancestors_converge_of_reachable {id : ClassId}
    (h : ∀ a, Relation.ReflTransGen ix.Ancestor id a → (ix.superclassOf a).Converges) :
    (ix.ancestors id).Converges := by
  classical
  rw [converges_ancestors_iff]
  refine Expander.terminates_of_expands
    (U := (insert id ix.targets).filter (Relation.ReflTransGen ix.Ancestor id)) ?_
    (Finset.mem_filter.mpr ⟨Finset.mem_insert_self _ _, Relation.ReflTransGen.refl⟩)
  intro a ha
  have hreach := (Finset.mem_filter.mp ha).2
  obtain ⟨n, e, he⟩ := expandAt_of_superclassOf (h a hreach)
  refine ⟨n, e, he, fun w hw ↦ Finset.mem_filter.mpr ⟨Finset.mem_insert_of_mem ?_, ?_⟩⟩
  · obtain ⟨chain, rfl⟩ := Expander.build_of_expandAt he
    exact build_lists_mem_targets a chain w hw
  · exact hreach.tail ((edge_iff ⟨n, e, he⟩).mp ⟨n, e, he, hw⟩)

theorem readsThrough_iff_reachable {P : ClassId → Prop} {id : ClassId} :
    ix.ReadsThrough P id ↔ ∀ a, Relation.ReflTransGen ix.Ancestor id a →
      (ix.superclassOf a).Converges ∧ a ∉ ix.ambiguousAncestry ∧ ¬ ix.Unresolved a ∧ P a := by
  constructor
  · rintro ⟨chain, hchain, hP⟩ a ha
    have hmem := (mem_ancestors_iff hchain).mpr ha
    have hgood := (ancestors_complete_iff hchain).mp rfl a hmem
    exact ⟨superclassOf_converges hchain hmem, hgood.1, hgood.2, hP a hmem⟩
  · intro h
    obtain ⟨⟨chain, complete⟩, hchain⟩ := ancestors_converge_of_reachable fun a ha ↦ (h a ha).1
    have hcomplete : complete = true := by
      refine (ancestors_complete_iff hchain).mpr fun a ha ↦ ?_
      have := h a ((mem_ancestors_iff hchain).mp ha)
      exact ⟨this.2.1, this.2.2.1⟩
    subst hcomplete
    exact ⟨chain, hchain, fun a ha ↦ (h a ((mem_ancestors_iff hchain).mp ha)).2.2.2⟩

/-- Every mixin written in `id` resolves to a module whose chain has the property. -/
def MixinsReadThrough (ix : ProjectIndex) (P : ClassId → Prop) (id : ClassId) : Prop :=
  ∀ name ∈ (ix.classOf id).prepends ++ (ix.classOf id).includes,
    ∃ m, ix.resolveConst (ix.classOf id).nesting name = some m ∧ ix.ReadsThrough P m

theorem ReadsThrough.self {P : ClassId → Prop} {id : ClassId} (h : ix.ReadsThrough P id) : P id :=
  (readsThrough_iff_reachable.mp h id .refl).2.2.2

theorem ReadsThrough.of_ancestor {P : ClassId → Prop} {id a : ClassId} (h : ix.ReadsThrough P id)
    (ha : ix.Ancestor id a) : ix.ReadsThrough P a :=
  readsThrough_iff_reachable.mpr fun b hb ↦
    readsThrough_iff_reachable.mp h b (Relation.ReflTransGen.head ha hb)

theorem ReadsThrough.mixins {P : ClassId → Prop} {id : ClassId} (h : ix.ReadsThrough P id) :
    ix.MixinsReadThrough P id := by
  intro name hname
  have hresolved := (readsThrough_iff_reachable.mp h id .refl).2.2.1
  cases hm : ix.resolveConst (ix.classOf id).nesting name with
  | none => exact absurd (Or.inl ⟨name, hname, hm⟩) hresolved
  | some m => exact ⟨m, rfl, h.of_ancestor (Or.inl ⟨name, hname, hm⟩)⟩

/-- The chain of a class is its own mixins and the chain of its superclass. -/
theorem readsThrough_of_superclass {P : ClassId → Prop} {id parent : ClassId} (hself : P id)
    (hamb : id ∉ ix.ambiguousAncestry) (hmixins : ix.MixinsReadThrough P id)
    (hparent : (ix.superclassOf id).Returns (some parent)) (hchain : ix.ReadsThrough P parent) :
    ix.ReadsThrough P id := by
  rw [readsThrough_iff_reachable]
  intro a ha
  rcases Relation.ReflTransGen.cases_head ha with rfl | ⟨b, hb, hrest⟩
  · refine ⟨hparent.converges, hamb, ?_, hself⟩
    rintro (⟨name, hname, hnone⟩ | ⟨sc, -, hnone⟩)
    · obtain ⟨m, hm, -⟩ := hmixins name hname
      simp [hnone] at hm
    · simpa using hparent.unique hnone
  · rcases hb with ⟨name, hname, hm⟩ | hsuper
    · obtain ⟨m, hm', hreads⟩ := hmixins name hname
      obtain rfl : m = b := Option.some.inj (hm'.symm.trans hm)
      exact readsThrough_iff_reachable.mp hreads a hrest
    · obtain rfl : parent = b := Option.some.inj (hparent.unique hsuper)
      exact readsThrough_iff_reachable.mp hchain a hrest

/-! ### When a lookup answers `NotFound` -/

/-- The recorded transitive subclasses. -/
def Descendant (ix : ProjectIndex) : ClassId → ClassId → Prop :=
  Relation.TransGen (Fueled.Child ix.subclassesOf)

/-- An instance lookup of `name` passes the class without an answer. -/
def InstanceSilent (ix : ProjectIndex) (name : String) (a : ClassId) : Prop :=
  (ix.classOf a).opaqueOpen = false ∧ (ix.classOf a).defines name = false

theorem scanInstance_eq_none_iff {name : String} {chain : List ClassId} :
    ix.scanInstance name chain = none ↔ ∀ a ∈ chain, ix.InstanceSilent name a := by
  induction chain with
  | nil => simp [scanInstance]
  | cons a rest ih =>
    rw [List.forall_mem_cons, ← ih, scanInstance, InstanceSilent, ClassDef.defines]
    cases hopen : (ix.classOf a).opaqueOpen with
    | true => simp
    | false => cases hdef : (ix.classOf a).methods.lookup name <;> simp

theorem scanInstance_ne_notFound {name : String} {chain : List ClassId} :
    ix.scanInstance name chain ≠ some .notFound := by
  induction chain with
  | nil => simp [scanInstance]
  | cons a rest ih =>
    unfold scanInstance
    split_ifs
    · simp
    · split
      · simp
      · exact ih

theorem scanInstance_eq_found_iff {name : String} {chain : List ClassId} {sig : MethodSig}
    {owner : ClassId} :
    ix.scanInstance name chain = some (.found sig owner) ↔
      ∃ l r, chain = l ++ owner :: r ∧ (∀ a ∈ l, ix.InstanceSilent name a) ∧
        (ix.classOf owner).opaqueOpen = false ∧
        (ix.classOf owner).methods.lookup name = some sig := by
  constructor
  · intro h
    induction chain with
    | nil => simp [scanInstance] at h
    | cons a rest ih =>
      unfold scanInstance at h
      split at h
      · simp at h
      · next hopen =>
        rw [Bool.not_eq_true] at hopen
        split at h
        · next found hfound =>
          obtain ⟨rfl, rfl⟩ := MethodLookup.found.inj (Option.some.inj h)
          exact ⟨[], rest, rfl, by simp, hopen, hfound⟩
        · next hnone =>
          obtain ⟨l, r, rfl, hl, howner⟩ := ih h
          refine ⟨a :: l, r, rfl, ?_, howner⟩
          rw [List.forall_mem_cons]
          exact ⟨⟨hopen, by simp [ClassDef.defines, hnone]⟩, hl⟩
  · rintro ⟨l, r, rfl, hl, hopen, hsig⟩
    induction l with
    | nil => simp [scanInstance, hopen, hsig]
    | cons a l ih =>
      rw [List.forall_mem_cons] at hl
      have hnone : (ix.classOf a).methods.lookup name = none := by
        simpa [ClassDef.defines] using hl.1.2
      rw [List.cons_append, scanInstance, hl.1.1, hnone]
      exact ih hl.2

theorem lookupMethod_found_iff {id : ClassId} {name : String} {sig : MethodSig}
    {owner : ClassId} :
    (ix.lookupMethod id name).Returns (.found sig owner) ↔
      ∃ chain complete, (ix.ancestors id).Returns (chain, complete) ∧
        ix.scanInstance name chain = some (.found sig owner) := by
  unfold lookupMethod
  rw [Fueled.returns_bind]
  constructor
  · rintro ⟨⟨chain, complete⟩, hchain, h⟩
    refine ⟨chain, complete, hchain, ?_⟩
    dsimp only at h
    split at h
    · next answer hanswer =>
      obtain rfl := Fueled.returns_pure.mp h
      exact hanswer
    · split_ifs at h
      · obtain ⟨hit, -, h⟩ := Fueled.returns_bind.mp h
        cases hit <;> simp at h
      · simp at h
  · rintro ⟨chain, complete, hchain, hscan⟩
    refine ⟨(chain, complete), hchain, ?_⟩
    dsimp only
    rw [hscan]
    exact Fueled.returns_pure.mpr rfl

theorem lookupMethod_notFound_iff {id : ClassId} {name : String} :
    (ix.lookupMethod id name).Returns .notFound ↔
      ix.ReadsThrough (ix.InstanceSilent name) id ∧ (ix.classOf id).isModule = false ∧
        ∀ d, ix.Descendant id d → (ix.familyMemberDefines name d).Returns false := by
  have hfamily : (ix.abstractFamilyDefines id name).Returns false ↔
      ∀ d, ix.Descendant id d → (ix.familyMemberDefines name d).Returns false :=
    Fueled.search_returns_false_iff ix.subclassesOf_mem_targets
  rw [← hfamily]
  unfold lookupMethod ReadsThrough
  rw [Fueled.returns_bind]
  constructor
  · rintro ⟨⟨chain, complete⟩, hchain, h⟩
    dsimp only at h
    split at h
    · next answer hanswer =>
      obtain rfl := Fueled.returns_pure.mp h
      exact absurd hanswer scanInstance_ne_notFound
    · next hnone =>
      split_ifs at h with hcond
      · rw [Bool.and_eq_true, Bool.not_eq_true'] at hcond
        obtain ⟨hit, hhit, h⟩ := Fueled.returns_bind.mp h
        cases hit with
        | true => simp at h
        | false =>
          rw [hcond.1] at hchain
          exact ⟨⟨chain, hchain, scanInstance_eq_none_iff.mp hnone⟩, hcond.2, hhit⟩
      · simp at h
  · rintro ⟨⟨chain, hchain, hsilent⟩, hmodule, hhit⟩
    refine ⟨(chain, true), hchain, ?_⟩
    simp only [scanInstance_eq_none_iff.mpr hsilent, hmodule, Bool.not_false, Bool.and_self,
      if_true, Fueled.returns_bind]
    exact ⟨false, hhit, by simp⟩

theorem familyMemberDefines_false_iff {name : String} {kid : ClassId} :
    (ix.familyMemberDefines name kid).Returns false ↔
      ((ix.classOf kid).defines name || (ix.classOf kid).defines "method_missing" ||
        (ix.classOf kid).defines "respond_to_missing?") = false ∧
      (ix.classOf kid).opaqueOpen = false ∧
      ((ix.classOf kid).isOpen = false → ix.ReadsThrough (ix.InstanceSilent name) kid) := by
  unfold familyMemberDefines
  dsimp only
  split
  · next hnames => simp [hnames]
  · next hnames =>
    rw [Bool.not_eq_true] at hnames
    split
    · next hopen => simp [hnames, hopen, ClassDef.opaqueOpen]
    · next hopen =>
      rw [Bool.not_eq_true] at hopen
      have hnotOpaque : (ix.classOf kid).opaqueOpen = false := by simp [ClassDef.opaqueOpen, hopen]
      simp only [hnames, hopen, hnotOpaque, true_and, forall_const]
      unfold ReadsThrough InstanceSilent
      rw [Fueled.returns_bind]
      constructor
      · rintro ⟨⟨chain, complete⟩, hchain, h⟩
        have hreads := Fueled.returns_pure.mp h
        dsimp only at hreads
        rw [Bool.or_eq_false_iff, Bool.not_eq_false', List.any_eq_false] at hreads
        rw [hreads.1] at hchain
        refine ⟨chain, hchain, fun a ha ↦ ?_⟩
        have hsilent := hreads.2 a ha
        rw [Bool.or_eq_true, not_or, Bool.not_eq_true, Bool.not_eq_true] at hsilent
        exact ⟨hsilent.2, hsilent.1⟩
      · rintro ⟨chain, hchain, hall⟩
        refine ⟨(chain, true), hchain, Fueled.returns_pure.mpr ?_⟩
        rw [Bool.not_true, Bool.false_or, List.any_eq_false]
        intro a ha
        simp [hall a ha]

/-- The class gives `name` to its instances in no readable way. -/
theorem instanceSilent_of_familyMember {name : String} {kid : ClassId}
    (h : (ix.familyMemberDefines name kid).Returns false) : ix.InstanceSilent name kid := by
  obtain ⟨hnames, hopen, -⟩ := familyMemberDefines_false_iff.mp h
  simp only [Bool.or_eq_false_iff] at hnames
  exact ⟨hopen, hnames.1.1⟩

/-! ### Class objects -/

/-- The instance side of a module is readable and does not have `name`. -/
def SurfaceSilent (ix : ProjectIndex) (name : String) (a : ClassId) : Prop :=
  (ix.classOf a).isOpen = false ∧ (ix.classOf a).defines name = false

/-- Every module that `a` extends is resolved and readable without `name`. -/
def ExtendsSilent (ix : ProjectIndex) (name : String) (a : ClassId) : Prop :=
  ∀ ext ∈ (ix.classOf a).extends', ∃ m,
    ix.resolveConst (ix.classOf a).nesting ext = some m ∧
      ix.ReadsThrough (ix.SurfaceSilent name) m

/-- A singleton lookup of `name` passes the class without an answer. -/
def SingletonSilent (ix : ProjectIndex) (name : String) (a : ClassId) : Prop :=
  (ix.classOf a).isOpen = false ∧ (ix.classOf a).definesSingleton name = false ∧
    ix.ExtendsSilent name a

theorem scanExtended_eq_none_iff {name : String} {chain : List ClassId} :
    ix.scanExtended name chain = none ↔ ∀ a ∈ chain, ix.SurfaceSilent name a := by
  induction chain with
  | nil => simp [scanExtended]
  | cons a rest ih =>
    rw [List.forall_mem_cons, ← ih, scanExtended, SurfaceSilent, ClassDef.defines]
    cases hopen : (ix.classOf a).isOpen with
    | true => simp
    | false => cases hdef : (ix.classOf a).methods.lookup name <;> simp

theorem scanExtended_ne_notFound {name : String} {chain : List ClassId} :
    ix.scanExtended name chain ≠ some .notFound := by
  induction chain with
  | nil => simp [scanExtended]
  | cons a rest ih =>
    unfold scanExtended
    split_ifs
    · simp
    · split
      · simp
      · exact ih

theorem extendedSurface_none_iff {nesting : List ConstPath} {name : String}
    {exts : List ConstPath} :
    (ix.extendedSurface nesting name exts).Returns none ↔
      ∀ ext ∈ exts, ∃ m, ix.resolveConst nesting ext = some m ∧
        ix.ReadsThrough (ix.SurfaceSilent name) m := by
  induction exts with
  | nil => simp [extendedSurface]
  | cons ext rest ih =>
    rw [List.forall_mem_cons, ← ih, extendedSurface]
    cases hm : ix.resolveConst nesting ext with
    | none => simp
    | some mid =>
      simp only [Option.some.injEq, exists_eq_left', Fueled.returns_bind, Prod.exists]
      constructor
      · rintro ⟨chain, complete, hchain, h⟩
        split at h
        · simp at h
        · next hnone =>
          split_ifs at h with hcomplete
          · subst hcomplete
            exact ⟨⟨chain, hchain, scanExtended_eq_none_iff.mp hnone⟩, h⟩
          · simp at h
      · rintro ⟨⟨chain, hchain, hsilent⟩, hrest⟩
        refine ⟨chain, true, hchain, ?_⟩
        simpa [scanExtended_eq_none_iff.mpr hsilent] using hrest

theorem extendedSurface_ne_notFound {nesting : List ConstPath} {name : String}
    {exts : List ConstPath} :
    ¬ (ix.extendedSurface nesting name exts).Returns (some .notFound) := by
  induction exts with
  | nil => simp [extendedSurface]
  | cons ext rest ih =>
    unfold extendedSurface
    split
    · simp
    · rw [Fueled.returns_bind]
      rintro ⟨⟨chain, complete⟩, -, h⟩
      dsimp only at h
      split at h
      · next answer hanswer =>
        obtain rfl := Option.some.inj (Fueled.returns_pure.mp h)
        exact scanExtended_ne_notFound hanswer
      · split_ifs at h
        · exact ih h
        · simp at h

theorem scanSingleton_none_iff {name : String} {chain : List ClassId} :
    (ix.scanSingleton name chain).Returns none ↔ ∀ a ∈ chain, ix.SingletonSilent name a := by
  induction chain with
  | nil => simp [scanSingleton]
  | cons a rest ih =>
    rw [List.forall_mem_cons, ← ih, scanSingleton, SingletonSilent, ClassDef.definesSingleton,
      ExtendsSilent, ← extendedSurface_none_iff]
    cases hopen : (ix.classOf a).isOpen with
    | true => simp
    | false =>
      cases hdef : (ix.classOf a).singletonMethods.lookup name with
      | some sig => simp
      | none =>
        simp only [Bool.false_eq_true, if_false, Option.isSome_none, true_and]
        exact Fueled.returns_first_none fun _ ↦ rfl

theorem scanSingleton_ne_notFound {name : String} {chain : List ClassId} :
    ¬ (ix.scanSingleton name chain).Returns (some .notFound) := by
  induction chain with
  | nil => simp [scanSingleton]
  | cons a rest ih =>
    unfold scanSingleton
    split_ifs
    · simp
    · split
      · simp
      · rw [Fueled.returns_first_some]
        · rintro (h | ⟨-, h⟩)
          · exact extendedSurface_ne_notFound h
          · exact ih h
        · exact fun _ ↦ rfl

/-! ### The core classes behind a class object -/

theorem firstDefinition_ne_notFound {name : String} {chain : List ClassId} :
    ix.firstDefinition name chain ≠ some .notFound := by
  induction chain with
  | nil => simp [firstDefinition]
  | cons a rest ih =>
    unfold firstDefinition
    split
    · simp
    · exact ih

theorem coreMixinDefinition_ne_notFound {core : ClassDef} {name : String}
    {mixins : List ConstPath} :
    ¬ (ix.coreMixinDefinition core name mixins).Returns (some .notFound) := by
  induction mixins with
  | nil => simp [coreMixinDefinition]
  | cons mixin rest ih =>
    unfold coreMixinDefinition
    split
    · exact ih
    · rw [Fueled.returns_bind]
      rintro ⟨chain, -, h⟩
      split at h
      · next answer hanswer =>
        obtain rfl := Option.some.inj (Fueled.returns_pure.mp h)
        exact firstDefinition_ne_notFound hanswer
      · exact ih h

/-- The reopening of one core class that the project wrote, if any, does not literally give
`name` to its instances. -/
def CoreSilent (ix : ProjectIndex) (name : String) (path : ConstPath) : Prop :=
  ∀ cid, ix.byPath.lookup path = some cid →
    (ix.coreMixinDefinition (ix.classOf cid) name (ix.classOf cid).prepends.reverse).Returns none ∧
    (ix.classOf cid).defines name = false ∧
    (ix.coreMixinDefinition (ix.classOf cid) name (ix.classOf cid).includes.reverse).Returns none

theorem coreSurface_none_iff {name : String} {paths : List ConstPath} :
    (ix.coreSurface name paths).Returns none ↔ ∀ path ∈ paths, ix.CoreSilent name path := by
  induction paths with
  | nil => simp [coreSurface]
  | cons path rest ih =>
    rw [List.forall_mem_cons, ← ih, coreSurface, CoreSilent]
    cases hcid : ix.byPath.lookup path with
    | none => simp
    | some cid =>
      simp only [Option.some.injEq, forall_eq']
      refine (Fueled.returns_first_none ?_).trans ?_
      · exact fun _ ↦ rfl
      rw [and_assoc, ClassDef.defines]
      refine and_congr_right fun _ ↦ ?_
      cases hdef : (ix.classOf cid).methods.lookup name with
      | some sig => simp
      | none =>
        refine (Fueled.returns_first_none ?_).trans ?_
        · exact fun _ ↦ rfl
        simp

theorem coreSurface_ne_notFound {name : String} {paths : List ConstPath} :
    ¬ (ix.coreSurface name paths).Returns (some .notFound) := by
  induction paths with
  | nil => simp [coreSurface]
  | cons path rest ih =>
    unfold coreSurface
    split
    · exact ih
    · dsimp only
      rw [Fueled.returns_first_some]
      swap
      · exact fun _ ↦ rfl
      rintro (h | ⟨-, h⟩)
      · exact coreMixinDefinition_ne_notFound h
      · dsimp only at h
        split at h
        · simp at h
        · rw [Fueled.returns_first_some] at h
          swap
          · exact fun _ ↦ rfl
          rcases h with h | ⟨-, h⟩
          · exact coreMixinDefinition_ne_notFound h
          · exact ih h

/-- The core classes whose instances class and module objects are. -/
def moduleObjectPaths : List ConstPath := [["Module"], ["Object"], ["Kernel"], ["BasicObject"]]

theorem coreObjectInstanceSurface_none_iff {id : ClassId} {name : String} :
    (ix.coreObjectInstanceSurface id name).Returns none ↔
      id ∉ ix.ambiguousAncestry ∧ ((ix.classOf id).isModule = false → ix.CoreSilent name ["Class"]) ∧
        ∀ path ∈ moduleObjectPaths, ix.CoreSilent name path := by
  unfold coreObjectInstanceSurface
  by_cases hamb : id ∈ ix.ambiguousAncestry
  · simp [hamb]
  · rw [if_neg hamb]
    cases hmodule : (ix.classOf id).isModule <;>
      simp [coreSurface_none_iff, hamb, moduleObjectPaths]

theorem coreObjectInstanceSurface_ne_notFound {id : ClassId} {name : String} :
    ¬ (ix.coreObjectInstanceSurface id name).Returns (some .notFound) := by
  unfold coreObjectInstanceSurface
  split_ifs
  · simp
  · exact coreSurface_ne_notFound
  · exact coreSurface_ne_notFound

theorem lookupSingleton_notFound_iff {id : ClassId} {name : String} :
    (ix.lookupSingleton id name).Returns .notFound ↔
      ix.ReadsThrough (ix.SingletonSilent name) id ∧
        (ix.coreObjectInstanceSurface id name).Returns none ∧
        ∀ d, ix.Descendant id d → ix.descendantHit name true d = false := by
  have hdescendants : (ix.descendantDefines id name true).Returns false ↔
      ∀ d, ix.Descendant id d → ix.descendantHit name true d = false := by
    unfold descendantDefines Descendant
    rw [Fueled.search_returns_false_iff ix.subclassesOf_mem_targets]
    simp only [Fueled.returns_pure]
  rw [← hdescendants]
  unfold lookupSingleton ReadsThrough
  rw [Fueled.returns_bind]
  constructor
  · rintro ⟨⟨chain, complete⟩, hchain, h⟩
    obtain ⟨answer, hanswer, h⟩ := Fueled.returns_bind.mp h
    cases answer with
    | some answer =>
      obtain rfl := Fueled.returns_pure.mp h
      exact absurd hanswer scanSingleton_ne_notFound
    | none =>
      obtain ⟨core, hcore, h⟩ := Fueled.returns_bind.mp h
      cases core with
      | some answer =>
        obtain rfl := Fueled.returns_pure.mp h
        exact absurd hcore coreObjectInstanceSurface_ne_notFound
      | none =>
        dsimp only at h
        split_ifs at h with hcomplete
        · rw [hcomplete] at hchain
          obtain ⟨hit, hhit, h⟩ := Fueled.returns_bind.mp h
          cases hit with
          | true => simp at h
          | false => exact ⟨⟨chain, hchain, scanSingleton_none_iff.mp hanswer⟩, hcore, hhit⟩
        · simp at h
  · rintro ⟨⟨chain, hchain, hsilent⟩, hcore, hhit⟩
    refine ⟨(chain, true), hchain, Fueled.returns_bind.mpr
      ⟨none, scanSingleton_none_iff.mpr hsilent, Fueled.returns_bind.mpr ⟨none, hcore, ?_⟩⟩⟩
    exact Fueled.returns_bind.mpr ⟨false, hhit, Fueled.returns_pure.mpr rfl⟩

/-! ### The recorded subclasses -/

theorem mem_addSubclass_iff {table : AList fun _ : ClassId ↦ List ClassId}
    {edge : ClassId × ClassId} {parent child : ClassId} :
    child ∈ ((addSubclass table edge).lookup parent).getD [] ↔
      child ∈ (table.lookup parent).getD [] ∨ (parent, child) = edge := by
  unfold addSubclass
  by_cases hp : parent = edge.1
  · subst hp
    simp [Prod.ext_iff]
  · rw [AList.lookup_insert_ne hp]
    simp [Prod.ext_iff, hp]

theorem mem_foldl_addSubclass_iff {edges : List (ClassId × ClassId)}
    {table : AList fun _ : ClassId ↦ List ClassId} {parent child : ClassId} :
    child ∈ ((edges.foldl addSubclass table).lookup parent).getD [] ↔
      child ∈ (table.lookup parent).getD [] ∨ (parent, child) ∈ edges := by
  induction edges generalizing table with
  | nil => simp
  | cons edge rest ih => rw [List.foldl_cons, ih, mem_addSubclass_iff, List.mem_cons, or_assoc]

theorem superclassOf_of_mem_subclassEdges {ids : List ClassId} {edges : List (ClassId × ClassId)}
    (h : (ix.subclassEdges ids).Returns edges) {parent child : ClassId}
    (hmem : (parent, child) ∈ edges) : (ix.superclassOf child).Returns (some parent) := by
  induction ids generalizing edges with
  | nil =>
    obtain rfl := Fueled.returns_pure.mp h
    simp at hmem
  | cons id rest ih =>
    unfold subclassEdges at h
    obtain ⟨target, htarget, h⟩ := Fueled.returns_bind.mp h
    obtain ⟨more, hmore, h⟩ := Fueled.returns_bind.mp h
    obtain rfl := Fueled.returns_pure.mp h
    cases target with
    | none => exact ih hmore hmem
    | some found =>
      dsimp only at hmem
      split_ifs at hmem with hne
      · rcases List.mem_cons.mp hmem with heq | hmem
        · obtain ⟨rfl, rfl⟩ := Prod.mk.inj heq
          exact htarget
        · exact ih hmore hmem
      · exact ih hmore hmem

/-- The finished index: its subclass map is the reversal of its superclass edges. -/
theorem superclassOf_of_mem_subclassesOf {ix' : ProjectIndex} (hempty : ix.subclasses = ∅)
    (h : ix.buildSubclassMap.Returns ix') {parent child : ClassId}
    (hmem : child ∈ ix'.subclassesOf parent) : (ix'.superclassOf child).Returns (some parent) := by
  unfold buildSubclassMap at h
  obtain ⟨edges, hedges, h⟩ := Fueled.returns_bind.mp h
  obtain rfl := Fueled.returns_pure.mp h
  have hsame : ix.SameTable { ix with subclasses := edges.foldl addSubclass ix.subclasses } :=
    ⟨rfl, rfl, rfl, rfl⟩
  rw [hsame.superclassOf]
  unfold subclassesOf at hmem
  dsimp only at hmem
  rw [mem_foldl_addSubclass_iff, hempty] at hmem
  rcases hmem with hmem | hmem
  · simp at hmem
  · exact superclassOf_of_mem_subclassEdges hedges hmem

/-! ### What a descendant may bring in unread -/

/-- The part of an instance lookup on `d` that the walk from a superclass skips: a module
answers for its includers, and a class open only for its abstract stubs passes with its
mixins unread. -/
def BringsNoInstance (ix : ProjectIndex) (name : String) (d : ClassId) : Prop :=
  (ix.classOf d).isModule = false ∧
    ((ix.classOf d).isOpen = true →
      d ∉ ix.ambiguousAncestry ∧ ix.MixinsReadThrough (ix.InstanceSilent name) d)

/-- The part of a singleton lookup on `d` that the walk from `c` skips: everything except
the methods written on `d`'s own class object. -/
def BringsNoSingleton (ix : ProjectIndex) (name : String) (c d : ClassId) : Prop :=
  d ∉ ix.ambiguousAncestry ∧ ix.MixinsReadThrough (ix.SingletonSilent name) d ∧
    ix.ExtendsSilent name d ∧
    ((ix.classOf c).isModule = true → (ix.classOf d).isModule = false →
      ix.CoreSilent name ["Class"])

section Built

variable {start : ProjectIndex} (hempty : start.subclasses = ∅)
  (hbuilt : start.buildSubclassMap.Returns ix)

include hempty hbuilt

/-- Down the subclass edges a property of chains spreads from a class to its descendants, as
long as each descendant's own part has it. -/
theorem readsThrough_descendant {P : ClassId → Prop} {c : ClassId} (hc : ix.ReadsThrough P c)
    (hstep : ∀ parent d, ix.Descendant c d → (ix.superclassOf d).Returns (some parent) →
      ix.ReadsThrough P parent → ix.ReadsThrough P d) :
    ∀ d, ix.Descendant c d → ix.ReadsThrough P d := by
  intro d hd
  induction hd with
  | single hedge =>
    exact hstep c _ (.single hedge) (superclassOf_of_mem_subclassesOf hempty hbuilt hedge) hc
  | tail hprev hedge ih =>
    exact hstep _ _ (hprev.tail hedge) (superclassOf_of_mem_subclassesOf hempty hbuilt hedge) ih

theorem method_notFound_inherited_iff {c : ClassId} {name : String}
    (hc : (ix.lookupMethod c name).Returns .notFound) :
    (∀ d, ix.Descendant c d → (ix.lookupMethod d name).Returns .notFound) ↔
      ∀ d, ix.Descendant c d → ix.BringsNoInstance name d := by
  obtain ⟨hreads, -, hfamily⟩ := lookupMethod_notFound_iff.mp hc
  constructor
  · intro h d hd
    obtain ⟨hchain, hmodule, -⟩ := lookupMethod_notFound_iff.mp (h d hd)
    exact ⟨hmodule, fun _ ↦ ⟨(readsThrough_iff_reachable.mp hchain d .refl).2.1, hchain.mixins⟩⟩
  · intro h d hd
    have hchains : ∀ d, ix.Descendant c d → ix.ReadsThrough (ix.InstanceSilent name) d := by
      refine readsThrough_descendant hempty hbuilt hreads fun parent d hd hparent hchain ↦ ?_
      cases hopen : (ix.classOf d).isOpen with
      | false => exact (familyMemberDefines_false_iff.mp (hfamily d hd)).2.2 hopen
      | true =>
        obtain ⟨hamb, hmixins⟩ := (h d hd).2 hopen
        exact readsThrough_of_superclass (instanceSilent_of_familyMember (hfamily d hd)) hamb
          hmixins hparent hchain
    exact lookupMethod_notFound_iff.mpr
      ⟨hchains d hd, (h d hd).1, fun e he ↦ hfamily e (hd.trans he)⟩

theorem singleton_notFound_inherited_iff {c : ClassId} {name : String}
    (hc : (ix.lookupSingleton c name).Returns .notFound) :
    (∀ d, ix.Descendant c d → (ix.lookupSingleton d name).Returns .notFound) ↔
      ∀ d, ix.Descendant c d → ix.BringsNoSingleton name c d := by
  obtain ⟨hreads, hcore, hhit⟩ := lookupSingleton_notFound_iff.mp hc
  obtain ⟨-, hclass, hmoduleObject⟩ := coreObjectInstanceSurface_none_iff.mp hcore
  constructor
  · intro h d hd
    obtain ⟨hchain, hcore', -⟩ := lookupSingleton_notFound_iff.mp (h d hd)
    obtain ⟨hamb, hclass', -⟩ := coreObjectInstanceSurface_none_iff.mp hcore'
    exact ⟨hamb, hchain.mixins, hchain.self.2.2, fun _ hmodule ↦ hclass' hmodule⟩
  · intro h d hd
    have hchains : ∀ d, ix.Descendant c d → ix.ReadsThrough (ix.SingletonSilent name) d := by
      refine readsThrough_descendant hempty hbuilt hreads fun parent d hd hparent hchain ↦ ?_
      obtain ⟨hamb, hmixins, hextends, -⟩ := h d hd
      have hown := hhit d hd
      unfold descendantHit at hown
      rw [if_pos rfl, Bool.or_eq_false_iff] at hown
      exact readsThrough_of_superclass ⟨hown.1, hown.2, hextends⟩ hamb hmixins hparent hchain
    refine lookupSingleton_notFound_iff.mpr ⟨hchains d hd, ?_, fun e he ↦ hhit e (hd.trans he)⟩
    obtain ⟨hamb, -, -, hreopened⟩ := h d hd
    refine coreObjectInstanceSurface_none_iff.mpr ⟨hamb, fun hmodule ↦ ?_, hmoduleObject⟩
    cases hc' : (ix.classOf c).isModule with
    | false => exact hclass hc'
    | true => exact hreopened hc' hmodule

/-- On either track `NotFound` reaches every descendant exactly when no descendant brings
the name in through the parts its own walk skips. -/
theorem notFound_inherited_iff (c : ClassId) (name : String) :
    (((ix.lookupMethod c name).Returns .notFound →
        ∀ d, ix.Descendant c d → (ix.lookupMethod d name).Returns .notFound) ∧
      ((ix.lookupSingleton c name).Returns .notFound →
        ∀ d, ix.Descendant c d → (ix.lookupSingleton d name).Returns .notFound)) ↔
    (((ix.lookupMethod c name).Returns .notFound →
        ∀ d, ix.Descendant c d → ix.BringsNoInstance name d) ∧
      ((ix.lookupSingleton c name).Returns .notFound →
        ∀ d, ix.Descendant c d → ix.BringsNoSingleton name c d)) :=
  and_congr (imp_congr_right fun hc ↦ method_notFound_inherited_iff hempty hbuilt hc)
    (imp_congr_right fun hc ↦ singleton_notFound_inherited_iff hempty hbuilt hc)

end Built

/-! ### Hooks that the walks miss -/

/-- `module Named` with `def title`; `class Job < Base` that includes it beside a stub that
raises `NotImplementedError`; `class Mailer < Task` that extends it. -/
def hookDefs : FileDefs where
  fragments :=
    [{ path := ["Named"], nesting := [["Named"]], isModule := true,
       methods := [{ name := "title", nameSpan := (17, 22), defSpan := (13, 27) }] },
     { path := ["Base"], nesting := [["Base"]], isModule := false },
     { path := ["Job"], nesting := [["Job"]], isModule := false, superclass := some ["Base"],
       includes := [["Named"]], isOpen := true, openReason := some .abstractRaise,
       methods := [{ name := "run", abstractStub := true,
                     nameSpan := (84, 87), defSpan := (80, 119) }] },
     { path := ["Task"], nesting := [["Task"]], isModule := false },
     { path := ["Mailer"], nesting := [["Mailer"]], isModule := false,
       superclass := some ["Task"], extends' := [["Named"]] }]

/-- The merged file after reconciliation, which has no conflict to drop. -/
def hookStart : ProjectIndex :=
  { mergeFiles {} [("job.rb", hookDefs)] with superclassDeclarations := ∅ }

def hookIndex : ProjectIndex :=
  { hookStart with subclasses := [(1, 2), (3, 4)].foldl addSubclass ∅ }

theorem hookIndex_built :
    (mergeFiles {} [("job.rb", hookDefs)]).reconcileSuperclasses.Returns hookStart ∧
      hookStart.buildSubclassMap.Returns hookIndex :=
  ⟨⟨12, rfl⟩, ⟨12, rfl⟩⟩

/-- `Base` and `Task` do not find `title`; their subclasses do. -/
theorem hook_not_inherited :
    hookStart.buildSubclassMap.Returns hookIndex ∧
    ((hookIndex.lookupMethod 1 "title").Returns .notFound ∧ hookIndex.Descendant 1 2 ∧
      ¬ (hookIndex.lookupMethod 2 "title").Returns .notFound) ∧
    ((hookIndex.lookupSingleton 3 "title").Returns .notFound ∧ hookIndex.Descendant 3 4 ∧
      ¬ (hookIndex.lookupSingleton 4 "title").Returns .notFound) := by
  have hjob : ∃ sig, (hookIndex.lookupMethod 2 "title").Returns (.found sig 0) := ⟨_, 12, rfl⟩
  have hmailer : ∃ sig, (hookIndex.lookupSingleton 4 "title").Returns (.found sig 0) :=
    ⟨_, 12, rfl⟩
  refine ⟨hookIndex_built.2, ⟨⟨12, rfl⟩, .single (show _ ∈ _ by decide), fun h ↦ ?_⟩,
    ⟨12, rfl⟩, .single (show _ ∈ _ by decide), fun h ↦ ?_⟩
  · obtain ⟨sig, hsig⟩ := hjob
    simpa using hsig.unique h
  · obtain ⟨sig, hsig⟩ := hmailer
    simpa using hsig.unique h

theorem hookIndex_descendant_of_task {d : ClassId} (h : hookIndex.Descendant 3 d) : d = 4 := by
  have hkids : hookIndex.subclassesOf 3 = [4] ∧ hookIndex.subclassesOf 4 = [] := by decide
  induction h with
  | single hedge => exact List.mem_singleton.mp (hkids.1 ▸ hedge)
  | tail _ hedge ih =>
    subst ih
    have hmem : _ ∈ hookIndex.subclassesOf 4 := hedge
    rw [hkids.2] at hmem
    exact absurd hmem List.not_mem_nil

/-- A name that no module defines is found on no subclass of `Task`, on either track. -/
theorem deliver_notFound_inherited :
    (∀ d, hookIndex.Descendant 3 d → (hookIndex.lookupMethod d "deliver").Returns .notFound) ∧
      ∀ d, hookIndex.Descendant 3 d →
        (hookIndex.lookupSingleton d "deliver").Returns .notFound := by
  have hnamed : hookIndex.ReadsThrough (hookIndex.SurfaceSilent "deliver") 0 := by
    refine ⟨[0], ⟨12, rfl⟩, fun a ha ↦ ?_⟩
    obtain rfl := List.mem_singleton.mp ha
    exact ⟨rfl, rfl⟩
  have hempty : hookStart.subclasses = ∅ := rfl
  have h := (notFound_inherited_iff hempty hookIndex_built.2 3 "deliver").mpr
    ⟨fun _ d hd ↦ ?_, fun _ d hd ↦ ?_⟩
  · exact ⟨h.1 ⟨12, rfl⟩, h.2 ⟨12, rfl⟩⟩
  · obtain rfl := hookIndex_descendant_of_task hd
    exact ⟨rfl, fun hopen ↦ absurd hopen (by decide)⟩
  · obtain rfl := hookIndex_descendant_of_task hd
    refine ⟨by decide, fun _ hname ↦ absurd hname List.not_mem_nil, fun ext hext ↦ ?_,
      fun hmodule ↦ absurd hmodule (by decide)⟩
    obtain rfl : ext = ["Named"] := List.mem_singleton.mp hext
    exact ⟨0, rfl, hnamed⟩

end ProjectIndex

end Itaruby
