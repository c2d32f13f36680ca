import Itaruby.Index.Dispatch
import Itaruby.Index.Hooks

/-!
The scopes in which mixin names are resolved. The merge appends the mixin names of every
fragment to one list beside the nesting of the fragment that came first, so a name leads where
its own fragment's scope leads it exactly when both nestings meet the same namespace first.
-/

set_option autoImplicit false
set_option relaxedAutoImplicit false

namespace Itaruby

namespace ProjectIndex

/-! ### Where a name leads -/

/-- The scope `level` has neither a class of the name nor a constant that hides one. -/
def PassesOver (ix : ProjectIndex) (level name : ConstPath) : Prop :=
  ix.byPath.lookup (level ++ name) = none ∧ ix.shadows level name = false

/-- Going outward from the innermost scope, `scope` declares a class `name` before any other
scope declares or hides one. The top level comes last, unless the ancestry of the innermost
scope is in conflict. -/
def MeetsFirst (ix : ProjectIndex) (nesting : List ConstPath) (name scope : ConstPath) : Prop :=
  (ix.byPath.lookup (scope ++ name)).isSome ∧
    ((∃ outer inner, nesting = outer ++ scope :: inner ∧
        ∀ level ∈ inner, ix.PassesOver level name) ∨
      scope = [] ∧ ix.conflictingConstScope nesting = false ∧
        ∀ level ∈ nesting, ix.PassesOver level name)

/-- The name is rooted, or the two nestings meet it in the same namespace. -/
def SameNamespace (ix : ProjectIndex) (nesting nesting' : List ConstPath) (name : ConstPath) :
    Prop :=
  (stripCbase name).isSome ∨
    ∀ scope, ix.MeetsFirst nesting name scope ↔ ix.MeetsFirst nesting' name scope

section Leads

variable {ix : ProjectIndex} {name : ConstPath}

theorem resolveConstLevels_of_passesOver {fallback : Option ClassId} {level : ConstPath}
    (h : ix.PassesOver level name) (outer : List ConstPath) :
    ix.resolveConstLevels name fallback (level :: outer) =
      ix.resolveConstLevels name fallback outer := by
  rw [resolveConstLevels, h.1]
  simp [h.2]

/-- A scope that hides the name answers with the class it does not have. -/
theorem resolveConstLevels_of_stays {fallback : Option ClassId} {level : ConstPath}
    (h : ¬ ix.PassesOver level name) (outer : List ConstPath) :
    ix.resolveConstLevels name fallback (level :: outer) = ix.byPath.lookup (level ++ name) := by
  rw [resolveConstLevels]
  cases hfound : ix.byPath.lookup (level ++ name) with
  | some found => rfl
  | none =>
    have hshadow : ix.shadows level name = true := by simpa [PassesOver, hfound] using h
    simp [hshadow]

theorem resolveConstLevels_eq_some_iff {fallback : Option ClassId} {levels : List ConstPath}
    {id : ClassId} :
    ix.resolveConstLevels name fallback levels = some id ↔
      (∃ inner level outer, levels = inner ++ level :: outer ∧
        (∀ l ∈ inner, ix.PassesOver l name) ∧ ix.byPath.lookup (level ++ name) = some id) ∨
      (∀ l ∈ levels, ix.PassesOver l name) ∧ fallback = some id := by
  induction levels with
  | nil =>
    constructor
    · exact fun h ↦ .inr ⟨by simp, h⟩
    · rintro (⟨inner, level, outer, h, -⟩ | ⟨-, h⟩)
      · simp at h
      · exact h
  | cons level outer ih =>
    by_cases hpasses : ix.PassesOver level name
    · have hstops : ∀ l rest, level :: outer = l :: rest →
          ix.byPath.lookup (l ++ name) ≠ some id := by
        rintro l rest heq
        obtain ⟨rfl, -⟩ := List.cons.inj heq
        simp [hpasses.1]
      rw [resolveConstLevels_of_passesOver hpasses, ih]
      simp only [List.forall_mem_cons, hpasses, true_and]
      refine or_congr ⟨?_, ?_⟩ Iff.rfl
      · rintro ⟨inner, l, rest, rfl, hinner, hl⟩
        exact ⟨level :: inner, l, rest, rfl, List.forall_mem_cons.mpr ⟨hpasses, hinner⟩, hl⟩
      · rintro ⟨_ | ⟨l', inner⟩, l, rest, heq, hinner, hl⟩
        · exact absurd hl (hstops l rest heq)
        · obtain ⟨rfl, rfl⟩ := List.cons.inj heq
          exact ⟨inner, l, rest, rfl, (List.forall_mem_cons.mp hinner).2, hl⟩
    · rw [resolveConstLevels_of_stays hpasses]
      constructor
      · exact fun h ↦ .inl ⟨[], level, outer, rfl, by simp, h⟩
      · rintro (⟨_ | ⟨l', inner⟩, l, rest, heq, hinner, hl⟩ | ⟨hall, -⟩)
        · obtain ⟨rfl, -⟩ := List.cons.inj heq
          exact hl
        · obtain ⟨rfl, -⟩ := List.cons.inj heq
          exact absurd (hinner _ List.mem_cons_self) hpasses
        · exact absurd (hall _ List.mem_cons_self) hpasses

theorem resolveConst_eq_some_iff (hname : stripCbase name = none) {nesting : List ConstPath}
    {id : ClassId} :
    ix.resolveConst nesting name = some id ↔
      ∃ scope, ix.MeetsFirst nesting name scope ∧ ix.byPath.lookup (scope ++ name) = some id := by
  unfold resolveConst
  rw [hname]
  dsimp only
  rw [resolveConstLevels_eq_some_iff]
  constructor
  · rintro (⟨inner, level, outer, heq, hinner, hid⟩ | ⟨hall, hid⟩)
    · have hnesting : nesting = outer.reverse ++ level :: inner.reverse := by
        have hreverse := congrArg List.reverse heq
        simpa using hreverse
      have hpasses : ∀ l ∈ inner.reverse, ix.PassesOver l name := by simpa using hinner
      exact ⟨level, ⟨by simp [hid], .inl ⟨outer.reverse, inner.reverse, hnesting, hpasses⟩⟩, hid⟩
    · split_ifs at hid with hconflict
      exact ⟨[], ⟨by simp [hid], .inr ⟨rfl, by simpa using hconflict, by simpa using hall⟩⟩, hid⟩
  · rintro ⟨scope, ⟨-, ⟨outer, inner, rfl, hinner⟩ | ⟨rfl, hconflict, hall⟩⟩, hid⟩
    · exact .inl ⟨inner.reverse, scope, outer.reverse, by simp, by simpa using hinner, hid⟩
    · exact .inr ⟨by simpa using hall, by simpa [hconflict] using hid⟩

/-- Two nestings resolve a name alike exactly when they meet it in the same namespace. -/
theorem resolveConst_eq_iff (hkeyed : ix.WellKeyed) {nesting nesting' : List ConstPath} :
    ix.resolveConst nesting name = ix.resolveConst nesting' name ↔
      ix.SameNamespace nesting nesting' name := by
  unfold SameNamespace
  cases hname : stripCbase name with
  | some rest => simp [resolveConst, hname]
  | none =>
    simp only [Option.isSome_none, Bool.false_eq_true, false_or]
    constructor
    · have hmeets : ∀ n n', ix.resolveConst n name = ix.resolveConst n' name →
          ∀ scope, ix.MeetsFirst n name scope → ix.MeetsFirst n' name scope := by
        intro n n' h scope hscope
        obtain ⟨id, hid⟩ := Option.isSome_iff_exists.mp hscope.1
        have hsome := (resolveConst_eq_some_iff hname).mpr ⟨scope, hscope, hid⟩
        obtain ⟨scope', hscope', hid'⟩ := (resolveConst_eq_some_iff hname).mp (h.symm.trans hsome)
        have hpath : scope' ++ name = scope ++ name :=
          (hkeyed _ _ hid').2.symm.trans (hkeyed _ _ hid).2
        obtain rfl := List.append_cancel_right hpath
        exact hscope'
      exact fun h scope ↦ ⟨hmeets _ _ h scope, hmeets _ _ h.symm scope⟩
    · intro h
      refine Option.ext fun id ↦ ?_
      rw [resolveConst_eq_some_iff hname, resolveConst_eq_some_iff hname]
      simp only [h]

end Leads

/-! ### The mixin names of a merged class -/

def nestingView : FieldView (List ConstPath) where
  view cls := cls.nesting
  merge nesting _ frag := if nesting = [] then frag.nesting else nesting
  view_superclass _ _ := rfl
  view_merge _ _ _ := rfl

def extendsView : FieldView (List ConstPath) where
  view cls := cls.extends'
  merge names _ frag := names ++ frag.extends'
  view_superclass _ _ := rfl
  view_merge _ _ _ := rfl

/-- The nesting of the fragment of `path` that is merged first. -/
def firstNesting (files : List (SourceFile × FileDefs)) (path : ConstPath) : List ConstPath :=
  ((fragmentsAt files path).find? fun entry ↦ entry.2.nesting ≠ []).elim [] fun entry ↦
    entry.2.nesting

theorem foldl_nestingView (entries : List (SourceFile × ClassFragment)) (nesting : List ConstPath) :
    entries.foldl (fun view (file, frag) ↦ nestingView.merge view file frag) nesting =
      if nesting = [] then
        (entries.find? fun entry ↦ entry.2.nesting ≠ []).elim [] fun entry ↦ entry.2.nesting
      else nesting := by
  induction entries generalizing nesting with
  | nil => simp
  | cons entry rest ih =>
    rw [List.foldl_cons, ih, List.find?_cons]
    by_cases hnesting : nesting = []
    · by_cases hentry : entry.2.nesting = []
      · simp [nestingView, hnesting, hentry]
      · simp [nestingView, hnesting, hentry]
    · simp [nestingView, hnesting]

/-- A view that a curated declaration leaves as it is. -/
def FieldView.Undeclared {β : Type} (V : FieldView β) : Prop :=
  ∀ (cls : ClassDef) isModule isOpen openReason grounds,
    V.view { cls with isModule, isOpen, openReason, grounds } = V.view cls

theorem mergeDeclaredFragment_viewAt {β : Type} {V : FieldView β} (hV : V.Undeclared)
    {ix : ProjectIndex} (hkeyed : ix.WellKeyed) (frag : ClassFragment) (path : ConstPath) :
    viewAt V (ix.mergeDeclaredFragment frag) path = viewAt V ix path := by
  unfold mergeDeclaredFragment
  cases ix.byPath.lookup frag.path with
  | some id => rfl
  | none =>
    obtain ⟨hkeyed', hlookup, hview⟩ := intern_spec (V := V) hkeyed frag.path
    dsimp only
    rw [viewAt_modifyClass hkeyed' hlookup, hV, hview]
    split_ifs with hpath
    · subst hpath
      rw [← hview, viewAt, hlookup]
    · rfl

theorem mergeInput_viewAt {β : Type} {V : FieldView β} (hV : V.Undeclared) (input : BuildInput)
    (path : ConstPath) :
    viewAt V (mergeInput input) path =
      (fragmentsAt input.files path).foldl (fun view (file, frag) ↦ V.merge view file frag)
        (V.view { path }) := by
  have hdeclared : ∀ (frags : List ClassFragment) (ix : ProjectIndex), ix.WellKeyed →
      viewAt V (frags.foldl mergeDeclaredFragment ix) path = viewAt V ix path := by
    intro frags
    induction frags with
    | nil => exact fun _ _ ↦ rfl
    | cons frag rest ih =>
      intro ix hkeyed
      rw [List.foldl_cons, ih _ ((mergeDeclaredFragment_grows ix frag).wellKeyed hkeyed),
        mergeDeclaredFragment_viewAt hV hkeyed]
  have hignored : ∀ (defs : List FileDefs) (ix : ProjectIndex), ix.WellKeyed →
      (defs.foldl mergeIgnoredPollution ix).WellKeyed ∧
        viewAt V (defs.foldl mergeIgnoredPollution ix) path = viewAt V ix path := by
    intro defs
    induction defs with
    | nil => exact fun _ hkeyed ↦ ⟨hkeyed, rfl⟩
    | cons d rest ih => exact fun ix hkeyed ↦ ih _ hkeyed
  obtain ⟨hkeyed, hview⟩ := mergeFiles_spec (V := V) input.files empty_wellKeyed
  obtain ⟨hkeyed', hview'⟩ := hignored input.ignored _ hkeyed
  unfold mergeInput
  rw [hdeclared _ _ hkeyed', hview', hview]
  simp [viewAt]

/-! ### The passes keep the names -/

end ProjectIndex

/-- The class with its scope and its mixin names, and perhaps more names to extend. -/
structure ClassDef.KeepsMixins (c c' : ClassDef) : Prop where
  path : c'.path = c.path
  nesting : c'.nesting = c.nesting
  includes : c'.includes = c.includes
  prepends : c'.prepends = c.prepends
  extends' : c.extends' ⊆ c'.extends'

theorem ClassDef.KeepsMixins.refl (c : ClassDef) : c.KeepsMixins c :=
  ⟨rfl, rfl, rfl, rfl, List.Subset.refl _⟩

namespace ProjectIndex

structure KeepsMixins (ix ix' : ProjectIndex) : Prop where
  byPath : ix'.byPath = ix.byPath
  length : ix'.classes.length = ix.classes.length
  classOf : ∀ id, (ix.classOf id).KeepsMixins (ix'.classOf id)

namespace KeepsMixins

variable {ix ix' ix'' : ProjectIndex}

theorem refl (ix : ProjectIndex) : ix.KeepsMixins ix := ⟨rfl, rfl, fun _ ↦ .refl _⟩

theorem trans (h : ix.KeepsMixins ix') (h' : ix'.KeepsMixins ix'') : ix.KeepsMixins ix'' where
  byPath := h'.byPath.trans h.byPath
  length := h'.length.trans h.length
  classOf id := by
    have hc := h.classOf id
    have hc' := h'.classOf id
    exact ⟨hc'.path.trans hc.path, hc'.nesting.trans hc.nesting, hc'.includes.trans hc.includes,
      hc'.prepends.trans hc.prepends, List.Subset.trans hc.extends' hc'.extends'⟩

theorem foldl {α : Type} {step : ProjectIndex → α → ProjectIndex}
    (hstep : ∀ (ix : ProjectIndex) a, ix.KeepsMixins (step ix a)) (l : List α)
    (ix : ProjectIndex) : ix.KeepsMixins (l.foldl step ix) := by
  induction l generalizing ix with
  | nil => exact refl ix
  | cons a l ih => exact (hstep ix a).trans (ih _)

theorem of_classes (hby : ix'.byPath = ix.byPath) (hclasses : ix'.classes = ix.classes) :
    ix.KeepsMixins ix' := by
  refine ⟨hby, by rw [hclasses], fun id ↦ ?_⟩
  rw [ProjectIndex.classOf, ProjectIndex.classOf, hclasses]
  exact .refl _

theorem modifyClass (ix : ProjectIndex) (id : ClassId) {f : ClassDef → ClassDef}
    (hf : ∀ c : ClassDef, c.KeepsMixins (f c)) : ix.KeepsMixins (ix.modifyClass id f) := by
  refine ⟨rfl, List.length_modify _ _ _, fun a ↦ ?_⟩
  rw [classOf_modifyClass]
  split_ifs
  · exact hf _
  · exact .refl _

theorem openEach (ix : ProjectIndex) (ids : List ClassId) (reason : OpenReason) :
    ix.KeepsMixins (ix.openEach ids reason) := by
  have hopen : ∀ (ix : ProjectIndex) id, ix.KeepsMixins (ix.mergeOpen id reason) :=
    fun ix id ↦ .modifyClass ix id fun _ ↦ ⟨rfl, rfl, rfl, rfl, List.Subset.refl _⟩
  exact .foldl hopen ids ix

theorem wellKeyed (h : ix.KeepsMixins ix') (hkeyed : ix.WellKeyed) : ix'.WellKeyed := by
  intro path id hid
  obtain ⟨hlt, hpath⟩ := hkeyed path id (h.byPath ▸ hid)
  exact ⟨h.length ▸ hlt, (h.classOf id).path.trans hpath⟩

end KeepsMixins

theorem SameBodies.keepsMixins {ix ix' : ProjectIndex} (h : ix.SameBodies ix') :
    ix.KeepsMixins ix' := by
  refine ⟨h.byPath, h.length, fun id ↦ ?_⟩
  obtain ⟨superclass, heq⟩ := h.classOf id
  rw [heq]
  exact ⟨rfl, rfl, rfl, rfl, List.Subset.refl _⟩

variable (ix : ProjectIndex)

theorem mergeSchemaDeclarations_keepsMixins (schema : Option Schema) :
    ix.KeepsMixins (ix.mergeSchemaDeclarations schema) := by
  cases schema with
  | none => exact .refl ix
  | some schema =>
    have hkeeps : ∀ c : ClassDef, c.KeepsMixins (addSchemaAttributes schema c) := by
      intro c
      unfold addSchemaAttributes
      cases schemaTableOf schema c with
      | none => exact .refl c
      | some columns => exact ⟨rfl, rfl, rfl, rfl, List.Subset.refl _⟩
    refine ⟨rfl, List.length_map _, fun id ↦ ?_⟩
    change (ix.classes.getD id { path := [] }).KeepsMixins
      ((ix.classes.map (addSchemaAttributes schema)).getD id { path := [] })
    rw [List.getD_eq_getElem?_getD, List.getD_eq_getElem?_getD, List.getElem?_map]
    cases ix.classes[id]? with
    | none => exact .refl _
    | some c => exact hkeeps c

theorem applyGemNamespaces_keepsMixins (namespaces : Option (Finset String)) :
    ix.KeepsMixins (ix.applyGemNamespaces namespaces) := by
  cases namespaces with
  | none => exact .refl ix
  | some namespaces =>
    have hmock : ∀ ix : ProjectIndex, ix.KeepsMixins (ix.applyMockSingletonSurface namespaces) := by
      intro ix
      unfold applyMockSingletonSurface
      by_cases h : "rspecmocks" ∈ namespaces ∨ "mocha" ∈ namespaces
      · rw [if_pos h]
        exact .of_classes rfl rfl
      · rw [if_neg h]
        exact .refl ix
    have hopen : ix.KeepsMixins (ix.applyGemReopenings namespaces) := .openEach ix _ _
    exact hopen.trans (hmock _)

theorem beforePatches_keepsMixins (input : BuildInput) :
    ix.KeepsMixins (beforePatches input ix) := by
  have hnamespaces : ∀ ix : ProjectIndex, ix.KeepsMixins ix.applyUndeclaredNamespaceReopenings :=
    fun ix ↦ .openEach ix _ _
  have hstrings : ∀ ix : ProjectIndex, ix.KeepsMixins ix.applyStringSourceDefinitions :=
    fun ix ↦ (KeepsMixins.openEach ix _ _).trans (.of_classes rfl rfl)
  have hedge : ∀ (ix : ProjectIndex) edge, ix.KeepsMixins (addExtends ix edge) := by
    refine fun ix edge ↦ .modifyClass ix _ fun c ↦ ?_
    split_ifs
    · exact .refl c
    · exact ⟨rfl, rfl, rfl, rfl, List.subset_append_left _ _⟩
  have hwrite : ∀ (ix : ProjectIndex) write, ix.KeepsMixins (ix.resolveQualifiedWrite write) := by
    intro ix write
    unfold resolveQualifiedWrite
    cases ix.byPath.lookup write.1 with
    | none => exact .of_classes rfl rfl
    | some id => exact .modifyClass ix id fun c ↦ ⟨rfl, rfl, rfl, rfl, List.Subset.refl _⟩
  exact (((((mergeSchemaDeclarations_keepsMixins ix _).trans
    (applyGemNamespaces_keepsMixins _ _)).trans (hnamespaces _)).trans (hstrings _)).trans
      (.foldl hedge _ _)).trans (.foldl hwrite _ _)

theorem applySingletonPatch_keepsMixins (patch : SourceFile × ClassFragment) :
    ix.KeepsMixins (ix.applySingletonPatch patch) := by
  unfold applySingletonPatch
  cases ix.byPath.lookup patch.2.path with
  | none => exact .refl ix
  | some id =>
    exact .modifyClass ix id fun c ↦ ⟨rfl, rfl, rfl, rfl, mem_foldl_pushNew patch.2.extends'⟩

theorem applySingletonPatches_keepsMixins : ix.KeepsMixins ix.applySingletonPatches :=
  (KeepsMixins.foldl applySingletonPatch_keepsMixins _ ix).trans (.of_classes rfl rfl)

theorem beforeHooks_keepsMixins : ix.KeepsMixins (beforeHooks ix) := by
  have hedges : ix.KeepsMixins ix.applyAttributedMixinEdges :=
    (KeepsMixins.openEach ix _ _).trans (.of_classes rfl rfl)
  exact hedges.trans ((KeepsMixins.openEach _ _ _).trans (.of_classes rfl rfl))

/-- The names a patch extends its class with. -/
theorem applySingletonPatches_extends {ix : ProjectIndex} (hkeyed : ix.WellKeyed)
    {patch : SourceFile × ClassFragment} (hmem : patch ∈ ix.singletonPatches) {id : ClassId}
    (hid : ix.byPath.lookup patch.2.path = some id) :
    patch.2.extends' ⊆ (ix.applySingletonPatches.classOf id).extends' := by
  obtain ⟨before, after, heq⟩ := List.append_of_mem hmem
  have hfold : ix.applySingletonPatches.classOf id =
      (after.foldl applySingletonPatch
        ((before.foldl applySingletonPatch ix).applySingletonPatch patch)).classOf id := by
    rw [← List.foldl_cons, ← List.foldl_append, ← heq]
    rfl
  have hbefore : ix.KeepsMixins (before.foldl applySingletonPatch ix) :=
    .foldl applySingletonPatch_keepsMixins before ix
  generalize before.foldl applySingletonPatch ix = mid at hfold hbefore
  have hlookup : mid.byPath.lookup patch.2.path = some id := by rw [hbefore.byPath, hid]
  have hpatched : patch.2.extends' ⊆ ((mid.applySingletonPatch patch).classOf id).extends' := by
    unfold applySingletonPatch
    rw [hlookup]
    dsimp only
    rw [classOf_modifyClass, if_pos ⟨rfl, (hbefore.wellKeyed hkeyed _ _ hlookup).1⟩]
    exact subset_foldl_pushNew patch.2.extends'
  rw [hfold]
  exact List.Subset.trans hpatched
    ((KeepsMixins.foldl applySingletonPatch_keepsMixins after _).classOf id).extends'

theorem afterHooks_keepsMixins (input : BuildInput) :
    ix.KeepsMixins (afterHooks input ix.applyExtendedHooks) := by
  have hopen : ∀ (ix : ProjectIndex) id reason, ix.KeepsMixins (ix.mergeOpen id reason) :=
    fun ix id reason ↦ KeepsMixins.openEach ix [id] reason
  have hhook : ∀ (ix : ProjectIndex) edge, ix.KeepsMixins (ix.applyOneExtendedHook edge) := by
    intro ix edge
    have hinstall : ix.KeepsMixins (ix.modifyClass edge.1 (installFrom (ix.classOf edge.2))) :=
      .modifyClass ix _ fun c ↦ ⟨rfl, rfl, rfl, rfl, List.Subset.refl _⟩
    unfold applyOneExtendedHook
    dsimp only
    split_ifs
    · exact hinstall.trans (hopen _ _ _)
    · exact hinstall
  have hignored : ∀ (ix : ProjectIndex) frag, ix.KeepsMixins (ix.applyIgnoredFragment frag) := by
    intro ix frag
    unfold applyIgnoredFragment
    cases ix.byPath.lookup frag.path with
    | none => exact .of_classes rfl rfl
    | some id => exact (hopen ix id _).trans (.of_classes rfl rfl)
  have hhooks : ix.KeepsMixins ix.applyExtendedHooks := .foldl hhook _ ix
  have hmodules : ∀ ix : ProjectIndex, ix.KeepsMixins ix.applyNamespaceOnlyModules :=
    fun ix ↦ .openEach ix _ _
  exact (hhooks.trans (hmodules _)).trans (.foldl hignored _ _)

/-! ### The index the hooks read -/

/-- The index at the time `applyExtendedHooks` is called. -/
def atHooks (input : BuildInput) : Fueled ProjectIndex := do
  let ix ← (mergeInput input).reconcileSuperclasses
  return beforeHooks (beforePatches input ix).applySingletonPatches

/-- What the extended module surface and the hooks read: every name a class extends, with the
module it resolves to. -/
def extendedModules (ix : ProjectIndex) (id : ClassId) : List (ConstPath × Option ClassId) :=
  (ix.classOf id).extends'.map fun ext ↦ (ext, ix.resolveConst (ix.classOf id).nesting ext)

theorem extendEdges_eq (ix : ProjectIndex) :
    ix.extendEdges = (List.range ix.classes.length).flatMap fun id ↦
      (ix.extendedModules id).filterMap fun entry ↦ entry.2.map fun module ↦ (id, module) := by
  unfold extendEdges extendedModules
  refine List.flatMap_congr fun id _ ↦ ?_
  dsimp only
  rw [List.filterMap_map, List.map_filterMap]
  rfl

/-- The search of the extended modules in order; a name without a module ends it. -/
def surfaceOver (name : String) : List (ConstPath × Option ClassId) → Fueled (Option MethodLookup)
  | [] => pure none
  | (_, none) :: _ => pure (some .inconclusive)
  | (_, some mid) :: rest => do
    let (chain, complete) ← ix.ancestors mid
    match ix.scanExtended name chain with
    | some answer => return some answer
    | none => if complete then surfaceOver name rest else return some .inconclusive

theorem extendedModuleSurface_eq (id : ClassId) (name : String) :
    ix.extendedModuleSurface (ix.classOf id) name =
      ix.surfaceOver name (ix.extendedModules id) := by
  unfold extendedModuleSurface extendedModules
  induction (ix.classOf id).extends' with
  | nil => rfl
  | cons ext rest ih =>
    rw [List.map_cons, extendedSurface]
    cases ix.resolveConst (ix.classOf id).nesting ext with
    | none => rfl
    | some mid => exact ih ▸ rfl

/-! ### What the fragments wrote -/

/-- Every fragment of the class at `path`, the patches by name among them. -/
def allFragmentsAt (files : List (SourceFile × FileDefs)) (path : ConstPath) :
    List ClassFragment :=
  (files.flatMap fun entry ↦ entry.2.fragments).filter fun frag ↦ frag.path = path

/-- The names a fragment mixes in. A patch by name only extends its class. -/
def mixinNames (frag : ClassFragment) : List ConstPath :=
  frag.extends' ++ if frag.declaredOwnerRequired then [] else frag.prepends ++ frag.includes

/-- The modules of the names that the fragments of a class write, each resolved in the scope of
its fragment. -/
def ownModules (ix : ProjectIndex) (entries : List (SourceFile × ClassFragment))
    (names : ClassFragment → List ConstPath) : List (Option ClassId) :=
  entries.flatMap fun entry ↦ (names entry.2).map (ix.resolveConst entry.2.nesting)

/-- The ancestor walk visits the modules of the prepended and included names, the extended
surface and the hooks read the modules of the extended ones, and every name stands for the
module that it has in the scope of the fragment that wrote it. -/
structure MixinsInOwnScopes (input : BuildInput) (hooks ix : ProjectIndex) (path : ConstPath)
    (id : ClassId) : Prop where
  prepends : ∀ target, (ix.expansionOf id target).before =
    (ix.ownModules (fragmentsAt input.files path) ClassFragment.prepends).reverse
  includes : ∀ target, (ix.expansionOf id target).after =
    (ix.ownModules (fragmentsAt input.files path) ClassFragment.includes).reverse ++ target.toList
  surface : ∀ frag ∈ allFragmentsAt input.files path, ∀ ext ∈ frag.extends',
    (ext, ix.resolveConst frag.nesting ext) ∈ ix.extendedModules id
  hooks : ∀ frag ∈ allFragmentsAt input.files path, ∀ ext ∈ frag.extends',
    (ext, hooks.resolveConst frag.nesting ext) ∈ hooks.extendedModules id

theorem mem_fragmentsAt {files : List (SourceFile × FileDefs)} {path : ConstPath}
    {frag : ClassFragment} :
    (∃ file, (file, frag) ∈ fragmentsAt files path) ↔
      frag ∈ allFragmentsAt files path ∧ frag.declaredOwnerRequired = false := by
  unfold fragmentsAt allFragmentsAt
  simp only [List.mem_flatMap, List.mem_map, List.mem_filter, Prod.mk.injEq,
    decide_eq_true_eq]
  constructor
  · rintro ⟨file, entry, hentry, frag', ⟨hfrag, hpath, hfree⟩, -, rfl⟩
    exact ⟨⟨⟨entry, hentry, hfrag⟩, hpath⟩, hfree⟩
  · rintro ⟨⟨⟨entry, hentry, hfrag⟩, hpath⟩, hfree⟩
    exact ⟨entry.1, entry, hentry, frag, ⟨hfrag, hpath, hfree⟩, rfl, rfl⟩

theorem foldl_append_eq_flatMap {α β : Type} (f : α → List β) (l : List α) (start : List β) :
    l.foldl (fun acc a ↦ acc ++ f a) start = start ++ l.flatMap f := by
  induction l generalizing start with
  | nil => simp
  | cons a l ih => rw [List.foldl_cons, ih, List.flatMap_cons, List.append_assoc]

section Merged

variable {input : BuildInput} {merged ix hooks : ProjectIndex} {path : ConstPath} {id : ClassId}
  (hmerged : (mergeInput input).reconcileSuperclasses.Returns merged)

include hmerged

theorem merged_wellKeyed : merged.WellKeyed := by
  have hfiles := (mergeFiles_spec (V := nestingView) input.files empty_wellKeyed).1
  exact (reconcileSuperclasses_sameBodies hmerged).keepsMixins.wellKeyed
    ((mergeInput_grows input).wellKeyed hfiles)

theorem merged_view {β : Type} {V : FieldView β} (hV : V.Undeclared)
    (hid : merged.byPath.lookup path = some id) :
    V.view (merged.classOf id) =
      (fragmentsAt input.files path).foldl (fun view (file, frag) ↦ V.merge view file frag)
        (V.view { path }) := by
  have hsame := reconcileSuperclasses_sameBodies hmerged
  have hview := mergeInput_viewAt hV input path
  rw [hsame.byPath] at hid
  rw [viewAt, hid] at hview
  exact (hsame.view V id).trans hview

variable (hkeeps : merged.KeepsMixins ix) (hid : ix.byPath.lookup path = some id)

include hkeeps hid

theorem nesting_eq_firstNesting : (ix.classOf id).nesting = firstNesting input.files path := by
  have h := merged_view hmerged (V := nestingView) (fun _ _ _ _ _ ↦ rfl) (hkeeps.byPath ▸ hid)
  rw [foldl_nestingView] at h
  exact (hkeeps.classOf id).nesting.trans h

theorem mixinsOf_eq_flatMap (kind : Ruby.MixinKind) :
    mixinsOf (ix.classOf id) kind =
      (fragmentsAt input.files path).flatMap fun entry ↦
        match kind with
        | .inclusion => entry.2.includes
        | .prepending => entry.2.prepends := by
  have h := merged_view hmerged (V := mixinView kind) (fun _ _ _ _ _ ↦ by cases kind <;> rfl)
    (hkeeps.byPath ▸ hid)
  rw [show mixinsOf (ix.classOf id) kind = mixinsOf (merged.classOf id) kind by
    cases kind
    · exact (hkeeps.classOf id).includes
    · exact (hkeeps.classOf id).prepends]
  have hfold := foldl_append_eq_flatMap (fun entry : SourceFile × ClassFragment ↦
    match kind with
    | .inclusion => entry.2.includes
    | .prepending => entry.2.prepends) (fragmentsAt input.files path) []
  rw [List.nil_append] at hfold
  rw [← hfold]
  cases kind with
  | inclusion => exact h
  | prepending => exact h

end Merged

theorem expansionOf_before (ix : ProjectIndex) (id : ClassId) (target : Option (Option ClassId)) :
    (ix.expansionOf id target).before =
      ((ix.classOf id).prepends.map (ix.resolveConst (ix.classOf id).nesting)).reverse :=
  List.map_reverse

theorem expansionOf_after (ix : ProjectIndex) (id : ClassId) (target : Option (Option ClassId)) :
    (ix.expansionOf id target).after =
      ((ix.classOf id).includes.map (ix.resolveConst (ix.classOf id).nesting)).reverse ++
        target.toList :=
  congrArg (· ++ target.toList) List.map_reverse

theorem map_eq_ownModules_iff {ix : ProjectIndex} {nesting : List ConstPath}
    {entries : List (SourceFile × ClassFragment)} {names : ClassFragment → List ConstPath} :
    (entries.flatMap fun entry ↦ names entry.2).map (ix.resolveConst nesting) =
        ix.ownModules entries names ↔
      ∀ entry ∈ entries, ∀ name ∈ names entry.2,
        ix.resolveConst nesting name = ix.resolveConst entry.2.nesting name := by
  unfold ownModules
  induction entries with
  | nil => simp
  | cons entry rest ih =>
    rw [List.flatMap_cons, List.flatMap_cons, List.map_append, List.forall_mem_cons, ← ih,
      ← List.map_inj_left]
    constructor
    · exact fun h ↦ List.append_inj h (by simp)
    · rintro ⟨hentry, hrest⟩
      rw [hentry, hrest]

theorem mem_extendedModules_iff {ix : ProjectIndex} {id : ClassId} {ext : ConstPath}
    {module : Option ClassId} (hext : ext ∈ (ix.classOf id).extends') :
    (ext, module) ∈ ix.extendedModules id ↔
      ix.resolveConst (ix.classOf id).nesting ext = module := by
  unfold extendedModules
  rw [List.mem_map]
  constructor
  · rintro ⟨ext', -, heq⟩
    obtain ⟨rfl, rfl⟩ := Prod.mk.inj heq
    rfl
  · exact fun h ↦ ⟨ext, hext, by rw [h]⟩

section Built

variable {input : BuildInput} {hooks ix : ProjectIndex} {path : ConstPath} {id : ClassId}
  (hhooks : (atHooks input).Returns hooks) (hix : (buildIndex input).Returns ix)

include hhooks

/-- The index of the hooks is the merged one after some passes. -/
theorem exists_merged : ∃ merged, (mergeInput input).reconcileSuperclasses.Returns merged ∧
    merged.KeepsMixins hooks ∧
    hooks = beforeHooks (beforePatches input merged).applySingletonPatches := by
  obtain ⟨merged, hmerged, h⟩ := Fueled.returns_bind.mp hhooks
  obtain rfl := Fueled.returns_pure.mp h
  exact ⟨merged, hmerged, ((beforePatches_keepsMixins merged input).trans
    (applySingletonPatches_keepsMixins _)).trans (beforeHooks_keepsMixins _), rfl⟩

/-- A class extends what its fragments and the patches of its name write. -/
theorem extends_subset (hid : hooks.byPath.lookup path = some id) {frag : ClassFragment}
    (hfrag : frag ∈ allFragmentsAt input.files path) :
    frag.extends' ⊆ (hooks.classOf id).extends' := by
  obtain ⟨merged, hmerged, hkeeps, heq⟩ := exists_merged hhooks
  have hid' : merged.byPath.lookup path = some id := hkeeps.byPath ▸ hid
  obtain ⟨hwritten, hpath⟩ := List.mem_filter.mp hfrag
  obtain rfl : frag.path = path := by simpa using hpath
  cases hheld : frag.declaredOwnerRequired with
  | false =>
    obtain ⟨file, hmem⟩ := mem_fragmentsAt.mpr ⟨hfrag, hheld⟩
    have hview := merged_view hmerged (V := extendsView) (fun _ _ _ _ _ ↦ rfl) hid'
    have hfold := foldl_append_eq_flatMap
      (fun entry : SourceFile × ClassFragment ↦ entry.2.extends')
      (fragmentsAt input.files frag.path) []
    have hall : (merged.classOf id).extends' =
        (fragmentsAt input.files frag.path).flatMap fun entry ↦ entry.2.extends' :=
      hview.trans hfold
    refine List.Subset.trans (fun ext hext ↦ ?_) (hkeeps.classOf id).extends'
    rw [hall]
    exact List.mem_flatMap.mpr ⟨(file, frag), hmem, hext⟩
  | true =>
    have hbefore := beforePatches_keepsMixins merged input
    obtain ⟨entry, hentry, hmem⟩ := List.mem_flatMap.mp hwritten
    have hpatch : (entry.1, frag) ∈ (beforePatches input merged).singletonPatches := by
      rw [(beforePatches_sameKeys merged input).singletonPatches,
        (reconcileSuperclasses_sameBodies hmerged).singletonPatches, mergeInput_singletonPatches,
        mergeFiles_singletonPatches]
      refine List.mem_append_right _ (List.mem_flatMap.mpr ⟨entry, hentry, ?_⟩)
      exact List.mem_map.mpr ⟨frag, List.mem_filter.mpr ⟨hmem, hheld⟩, rfl⟩
    have hlookup : (beforePatches input merged).byPath.lookup frag.path = some id := by
      rw [hbefore.byPath]
      exact hid'
    have happlied := applySingletonPatches_extends
      (hbefore.wellKeyed (merged_wellKeyed hmerged)) hpatch hlookup
    rw [heq]
    exact List.Subset.trans happlied ((beforeHooks_keepsMixins _).classOf id).extends'

include hix

theorem hooks_sameScopes : hooks.SameScopes ix ∧ hooks.KeepsMixins ix := by
  obtain ⟨merged, hmerged, -, rfl⟩ := exists_merged hhooks
  obtain ⟨merged', hmerged', hbuild⟩ := Fueled.returns_bind.mp hix
  obtain rfl := hmerged.unique hmerged'
  rw [applyPasses_eq_hooks] at hbuild
  refine ⟨((SameScopes.foldl applyOneExtendedHook_sameScopes _ _).trans
    (afterHooks_sameScopes input _)).trans (buildSubclassMap_sameScopes hbuild), ?_⟩
  obtain ⟨edges, -, hbuild⟩ := Fueled.returns_bind.mp hbuild
  obtain rfl := Fueled.returns_pure.mp hbuild
  exact (afterHooks_keepsMixins _ input).trans (.of_classes rfl rfl)

/-- What the built index and the index of the hooks have of the fragments of one class. -/
structure ReadsFragments (input : BuildInput) (hooks ix : ProjectIndex) (path : ConstPath)
    (id : ClassId) : Prop where
  nesting : (ix.classOf id).nesting = firstNesting input.files path
  prepends : (ix.classOf id).prepends =
    (fragmentsAt input.files path).flatMap fun entry ↦ entry.2.prepends
  includes : (ix.classOf id).includes =
    (fragmentsAt input.files path).flatMap fun entry ↦ entry.2.includes
  extends' : ∀ frag ∈ allFragmentsAt input.files path, frag.extends' ⊆ (hooks.classOf id).extends'
  scopes : hooks.SameScopes ix

theorem readsFragments (hid : ix.byPath.lookup path = some id) :
    ReadsFragments input hooks ix path id ∧ ix.WellKeyed := by
  obtain ⟨merged, hmerged, hkeeps, -⟩ := exists_merged hhooks
  obtain ⟨hscopes, hpasses⟩ := hooks_sameScopes hhooks hix
  have hall := hkeeps.trans hpasses
  have hid' : hooks.byPath.lookup path = some id := hpasses.byPath ▸ hid
  refine ⟨⟨nesting_eq_firstNesting hmerged hall hid,
    mixinsOf_eq_flatMap hmerged hall hid .prepending,
    mixinsOf_eq_flatMap hmerged hall hid .inclusion, fun frag hfrag ↦ ?_, hscopes⟩,
    hall.wellKeyed (merged_wellKeyed hmerged)⟩
  exact extends_subset hhooks hid' hfrag

end Built

namespace ReadsFragments

variable {input : BuildInput} {hooks ix : ProjectIndex} {path : ConstPath} {id : ClassId}
  (h : ReadsFragments input hooks ix path id)

include h

theorem resolves_of_own (hown : MixinsInOwnScopes input hooks ix path id) {frag : ClassFragment}
    (hfrag : frag ∈ allFragmentsAt input.files path) {name : ConstPath}
    (hname : name ∈ mixinNames frag) :
    ix.resolveConst (ix.classOf id).nesting name = ix.resolveConst frag.nesting name := by
  rcases List.mem_append.mp hname with hext | hmixed
  · have hmem := h.extends' frag hfrag hext
    rw [← h.scopes.extends'] at hmem
    exact (mem_extendedModules_iff hmem).mp (hown.surface frag hfrag name hext)
  · split_ifs at hmixed with hheld
    · cases hmixed
    have hfree : frag.declaredOwnerRequired = false := by simpa using hheld
    obtain ⟨file, hentry⟩ := mem_fragmentsAt.mpr ⟨hfrag, hfree⟩
    rcases List.mem_append.mp hmixed with hprepend | hinclude
    · have hlist := hown.prepends none
      rw [expansionOf_before, List.reverse_inj, h.prepends, map_eq_ownModules_iff] at hlist
      exact hlist _ hentry name hprepend
    · have hlist := hown.includes none
      rw [expansionOf_after, List.append_cancel_right_eq, List.reverse_inj, h.includes,
        map_eq_ownModules_iff] at hlist
      exact hlist _ hentry name hinclude

theorem own_of_resolves
    (hsame : ∀ frag ∈ allFragmentsAt input.files path, ∀ name ∈ mixinNames frag,
      ix.resolveConst (ix.classOf id).nesting name = ix.resolveConst frag.nesting name) :
    MixinsInOwnScopes input hooks ix path id := by
  have hmixed : ∀ entry ∈ fragmentsAt input.files path, ∀ name,
      name ∈ entry.2.prepends ∨ name ∈ entry.2.includes →
        ix.resolveConst (ix.classOf id).nesting name = ix.resolveConst entry.2.nesting name := by
    intro entry hentry name hname
    obtain ⟨hfrag, hfree⟩ := mem_fragmentsAt.mp ⟨entry.1, hentry⟩
    refine hsame entry.2 hfrag name (List.mem_append_right _ ?_)
    rw [if_neg (by simp [hfree])]
    exact List.mem_append.mpr hname
  constructor
  · intro target
    rw [expansionOf_before, h.prepends, map_eq_ownModules_iff.mpr]
    exact fun entry hentry name hname ↦ hmixed entry hentry name (.inl hname)
  · intro target
    rw [expansionOf_after, h.includes, map_eq_ownModules_iff.mpr]
    exact fun entry hentry name hname ↦ hmixed entry hentry name (.inr hname)
  · intro frag hfrag ext hext
    have hmem := h.extends' frag hfrag hext
    rw [← h.scopes.extends'] at hmem
    exact (mem_extendedModules_iff hmem).mpr
      (hsame frag hfrag ext (List.mem_append_left _ hext))
  · intro frag hfrag ext hext
    have hown := hsame frag hfrag ext (List.mem_append_left _ hext)
    rw [h.scopes.resolveConst, h.scopes.resolveConst, h.scopes.nesting] at hown
    exact (mem_extendedModules_iff (h.extends' frag hfrag hext)).mpr hown

end ReadsFragments

/-- The mixin names of a class stand for the modules of their own scopes exactly when each of
them, unless it is rooted, is met in the same namespace from the scope of its fragment and from
the scope of the first one. -/
theorem mixins_in_own_scopes_iff {input : BuildInput} {hooks ix : ProjectIndex}
    {path : ConstPath} {id : ClassId} (hhooks : (atHooks input).Returns hooks)
    (hix : (buildIndex input).Returns ix) (hid : ix.byPath.lookup path = some id) :
    MixinsInOwnScopes input hooks ix path id ↔
      ∀ frag ∈ allFragmentsAt input.files path, ∀ name ∈ mixinNames frag,
        ix.SameNamespace (firstNesting input.files path) frag.nesting name := by
  obtain ⟨h, hkeyed⟩ := readsFragments hhooks hix hid
  constructor
  · intro hown frag hfrag name hname
    rw [← resolveConst_eq_iff hkeyed, ← h.nesting]
    exact h.resolves_of_own hown hfrag hname
  · intro hsame
    refine h.own_of_resolves fun frag hfrag name hname ↦ ?_
    rw [resolveConst_eq_iff hkeyed, h.nesting]
    exact hsame frag hfrag name hname

/-! ### A compact and a nested reopening -/

/-- `class Car::Body; end` in one file, and in another `module Wheel; end` and
`module Car; module Wheel; end; class Body; include Wheel; end; end`. -/
def carInput (first : List ConstPath) : BuildInput where
  files :=
    [("body.rb", { fragments :=
      [{ path := ["Car", "Body"], nesting := first, isModule := false }] }),
     ("car.rb", { fragments :=
      [{ path := ["Wheel"], nesting := [["Wheel"]], isModule := true },
       { path := ["Car"], nesting := [["Car"]], isModule := true },
       { path := ["Car", "Wheel"], nesting := [["Car"], ["Car", "Wheel"]], isModule := true },
       { path := ["Car", "Body"], nesting := [["Car"], ["Car", "Body"]], isModule := false,
         includes := [["Wheel"]] }] })]

def carHooks (first : List ConstPath) : ProjectIndex := ((atHooks (carInput first)).run 12).getD {}

def carIndex (first : List ConstPath) : ProjectIndex :=
  ((buildIndex (carInput first)).run 12).getD {}

theorem returns_getD {α : Type} {x : Fueled α} {n : ℕ} {default : α}
    (h : (x.run n).isSome) : x.Returns ((x.run n).getD default) := by
  obtain ⟨r, hr⟩ := Option.isSome_iff_exists.mp h
  exact ⟨n, by rw [hr]; rfl⟩

/-- The compact reopening is merged first, and `Wheel` stands for the module at the top level. -/
theorem compact_not_in_own_scopes :
    (atHooks (carInput [["Car", "Body"]])).Returns (carHooks [["Car", "Body"]]) ∧
    (buildIndex (carInput [["Car", "Body"]])).Returns (carIndex [["Car", "Body"]]) ∧
    (carIndex [["Car", "Body"]]).byPath.lookup ["Car", "Body"] = some 0 ∧
    ¬ MixinsInOwnScopes (carInput [["Car", "Body"]]) (carHooks [["Car", "Body"]])
      (carIndex [["Car", "Body"]]) ["Car", "Body"] 0 := by
  refine ⟨returns_getD (by decide), returns_getD (by decide), by decide, fun h ↦ ?_⟩
  have hincludes := h.includes none
  revert hincludes
  decide

/-- Both fragments nested alike. -/
theorem nested_in_own_scopes :
    MixinsInOwnScopes (carInput [["Car"], ["Car", "Body"]]) (carHooks [["Car"], ["Car", "Body"]])
      (carIndex [["Car"], ["Car", "Body"]]) ["Car", "Body"] 0 := by
  refine (mixins_in_own_scopes_iff (returns_getD (by decide)) (returns_getD (by decide))
    (by decide)).mpr ?_
  have hall : ∀ frag ∈ allFragmentsAt (carInput [["Car"], ["Car", "Body"]]).files ["Car", "Body"],
      firstNesting (carInput [["Car"], ["Car", "Body"]]).files ["Car", "Body"] = frag.nesting := by
    decide
  intro frag hfrag name _
  rw [hall frag hfrag]
  exact .inr fun _ ↦ Iff.rfl

end ProjectIndex

end Itaruby
