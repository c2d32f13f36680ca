import Itaruby.Index.Growth
import Itaruby.Index.Inheritance

/-!
What the `extended` hook of a module gives to the classes that extend it. The hooks are applied
after the classes are merged and before the last passes, which open classes but leave their
names, their scopes and their mixins as they are.
-/

set_option autoImplicit false
set_option relaxedAutoImplicit false

namespace Itaruby

namespace ProjectIndex

/-- The same names, scopes and mixins. -/
structure SameScopes (ix ix' : ProjectIndex) : Prop where
  byPath : ix'.byPath = ix.byPath
  ambiguousAncestry : ix'.ambiguousAncestry = ix.ambiguousAncestry
  nesting : ∀ id, (ix'.classOf id).nesting = (ix.classOf id).nesting
  consts : ∀ id, (ix'.classOf id).consts = (ix.classOf id).consts
  extends' : ∀ id, (ix'.classOf id).extends' = (ix.classOf id).extends'

namespace SameScopes

variable {ix ix' ix'' : ProjectIndex}

theorem refl (ix : ProjectIndex) : ix.SameScopes ix :=
  ⟨rfl, rfl, fun _ ↦ rfl, fun _ ↦ rfl, fun _ ↦ rfl⟩

theorem trans (h : ix.SameScopes ix') (h' : ix'.SameScopes ix'') : ix.SameScopes ix'' where
  byPath := h'.byPath.trans h.byPath
  ambiguousAncestry := h'.ambiguousAncestry.trans h.ambiguousAncestry
  nesting id := (h'.nesting id).trans (h.nesting id)
  consts id := (h'.consts id).trans (h.consts id)
  extends' id := (h'.extends' id).trans (h.extends' id)

theorem foldl {α : Type} {step : ProjectIndex → α → ProjectIndex}
    (hstep : ∀ (ix : ProjectIndex) a, ix.SameScopes (step ix a)) (l : List α)
    (ix : ProjectIndex) : ix.SameScopes (l.foldl step ix) := by
  induction l generalizing ix with
  | nil => exact refl ix
  | cons a l ih => exact (hstep ix a).trans (ih _)

theorem modifyClass (ix : ProjectIndex) (id : ClassId) {f : ClassDef → ClassDef}
    (hnesting : ∀ c, (f c).nesting = c.nesting) (hconsts : ∀ c, (f c).consts = c.consts)
    (hextends : ∀ c, (f c).extends' = c.extends') : ix.SameScopes (ix.modifyClass id f) := by
  refine ⟨rfl, rfl, fun a ↦ ?_, fun a ↦ ?_, fun a ↦ ?_⟩
  all_goals
    rw [classOf_modifyClass]
    split_ifs
  · exact hnesting _
  · rfl
  · exact hconsts _
  · rfl
  · exact hextends _
  · rfl

theorem mergeOpen (ix : ProjectIndex) (id : ClassId) (reason : OpenReason) :
    ix.SameScopes (ix.mergeOpen id reason) :=
  .modifyClass ix id (fun _ ↦ rfl) (fun _ ↦ rfl) fun _ ↦ rfl

theorem shadows (h : ix.SameScopes ix') (level name : ConstPath) :
    ix'.shadows level name = ix.shadows level name := by
  unfold ProjectIndex.shadows
  rw [h.byPath]
  simp only [h.consts]

theorem resolveConst (h : ix.SameScopes ix') (nesting : List ConstPath) (name : ConstPath) :
    ix'.resolveConst nesting name = ix.resolveConst nesting name := by
  have hlevels (fallback : Option ClassId) (levels : List ConstPath) :
      ix'.resolveConstLevels name fallback levels = ix.resolveConstLevels name fallback levels := by
    induction levels with
    | nil => rfl
    | cons level outer ih => rw [resolveConstLevels, resolveConstLevels, ih, h.byPath, h.shadows]
  have hconflict : ix'.conflictingConstScope nesting = ix.conflictingConstScope nesting := by
    unfold conflictingConstScope
    rw [h.byPath, h.ambiguousAncestry]
  unfold ProjectIndex.resolveConst
  rw [hconflict, h.byPath]
  cases stripCbase name with
  | none => exact hlevels _ _
  | some rest => rfl

end SameScopes

/-! ### The edges of the hooks -/

/-- A class extends a module by a name it writes. -/
def ExtendsModule (ix : ProjectIndex) (d m : ClassId) : Prop :=
  ∃ ext ∈ (ix.classOf d).extends', ix.resolveConst (ix.classOf d).nesting ext = some m

theorem SameScopes.extendsModule {ix ix' : ProjectIndex} (h : ix.SameScopes ix') {d m : ClassId} :
    ix'.ExtendsModule d m ↔ ix.ExtendsModule d m := by
  unfold ExtendsModule
  rw [h.extends', h.nesting]
  simp only [h.resolveConst]

theorem mem_extendEdges {ix : ProjectIndex} {d m : ClassId} (hd : d < ix.classes.length)
    (h : ix.ExtendsModule d m) : (d, m) ∈ ix.extendEdges := by
  obtain ⟨ext, hext, hm⟩ := h
  refine List.mem_flatMap.mpr ⟨d, List.mem_range.mpr hd, ?_⟩
  exact List.mem_map.mpr ⟨m, List.mem_filterMap.mpr ⟨ext, hext, hm⟩, rfl⟩

theorem applyOneExtendedHook_sameScopes (ix : ProjectIndex) (edge : ClassId × ClassId) :
    ix.SameScopes (ix.applyOneExtendedHook edge) := by
  have hinstall : ix.SameScopes (ix.modifyClass edge.1 (installFrom (ix.classOf edge.2))) :=
    .modifyClass ix edge.1 (fun _ ↦ rfl) (fun _ ↦ rfl) fun _ ↦ rfl
  unfold applyOneExtendedHook
  dsimp only
  split_ifs
  · exact hinstall.trans (.mergeOpen _ _ _)
  · exact hinstall

/-- The passes before the hooks, after the patches by name. -/
def beforeHooks (ix : ProjectIndex) : ProjectIndex :=
  ix.applyAttributedMixinEdges.applyLoadHookOpenness

/-- The passes after the hooks. -/
def afterHooks (input : BuildInput) (ix : ProjectIndex) : ProjectIndex :=
  ix.applyNamespaceOnlyModules.applyIgnoredOpenness input.ignored

theorem applyPasses_eq_hooks (input : BuildInput) (ix : ProjectIndex) :
    applyPasses input ix =
      afterHooks input (beforeHooks (beforePatches input ix).applySingletonPatches).applyExtendedHooks :=
  rfl

theorem afterHooks_sameScopes (input : BuildInput) (ix : ProjectIndex) :
    ix.SameScopes (afterHooks input ix) := by
  have hmodules : ∀ ix : ProjectIndex, ix.SameScopes ix.applyNamespaceOnlyModules :=
    fun ix ↦ .foldl (fun ix id ↦ .mergeOpen ix id _) _ ix
  have hignored : ∀ (ix : ProjectIndex) frag, ix.SameScopes (ix.applyIgnoredFragment frag) := by
    intro ix frag
    unfold applyIgnoredFragment
    cases ix.byPath.lookup frag.path with
    | none => exact ⟨rfl, rfl, fun _ ↦ rfl, fun _ ↦ rfl, fun _ ↦ rfl⟩
    | some id =>
      exact (SameScopes.mergeOpen ix id _).trans
        ⟨rfl, rfl, fun _ ↦ rfl, fun _ ↦ rfl, fun _ ↦ rfl⟩
  exact (hmodules ix).trans (.foldl hignored _ _)

theorem buildSubclassMap_sameScopes {ix ix' : ProjectIndex}
    (h : ix.buildSubclassMap.Returns ix') : ix.SameScopes ix' := by
  obtain ⟨edges, -, h⟩ := Fueled.returns_bind.mp h
  obtain rfl := Fueled.returns_pure.mp h
  exact ⟨rfl, rfl, fun _ ↦ rfl, fun _ ↦ rfl, fun _ ↦ rfl⟩

theorem beforeHooks_grows (ix : ProjectIndex) : ix.Grows (beforeHooks ix) := by
  have hedges : ix.Grows ix.applyAttributedMixinEdges :=
    (ix.openEach_grows _ _).trans (.of_sameTable rfl rfl (Finset.Subset.refl _) fun h ↦ h)
  exact hedges.trans
    ((openEach_grows _ _ _).trans (.of_sameTable rfl rfl (Finset.Subset.refl _) fun h ↦ h))

theorem afterHooks_grows (input : BuildInput) (ix : ProjectIndex) :
    ix.Grows (afterHooks input ix) := by
  have hmodules : ix.Grows ix.applyNamespaceOnlyModules := ix.openEach_grows _ _
  exact hmodules.trans (.foldl (fun frag _ ix ↦ ix.applyIgnoredFragment_grows frag) _)

/-! ### What a hook installs -/

/-- A class has what a hook installs on the classes that extend its module. -/
structure Installed (c : ClassDef) (frag : ClassFragment) : Prop where
  instances : ∀ install ∈ frag.hookInstanceInstalls, c.defines install.1 = true
  singletons : ∀ install ∈ frag.hookSingletonInstalls, c.definesSingleton install.1 = true
  isOpaque : frag.hookInstallsOpaque = true → { reason := .evalOrSend } ∈ c.grounds

theorem Installed.grows {c c' : ClassDef} {frag : ClassFragment} (h : Installed c frag)
    (hgrows : c.Grows c') : Installed c' frag where
  instances install hinstall := hgrows.defines _ (h.instances install hinstall)
  singletons install hinstall := hgrows.definesSingleton _ (h.singletons install hinstall)
  isOpaque hsealed := hgrows.grounds.subset (h.isOpaque hsealed)

theorem isSome_lookup_installHooks {installs : List (String × Span × SourceFile)}
    {install : String × Span × SourceFile} (h : install ∈ installs) (table : MethodTable) :
    ((installHooks table installs).lookup install.1).isSome := by
  obtain ⟨before, after, rfl⟩ := List.append_of_mem h
  unfold installHooks
  rw [List.foldl_append, List.foldl_cons]
  refine isSome_lookup_foldl (fun _ _ ↦ isSome_lookup_insertNew) after ?_
  exact isSome_lookup_insertNew_self _ install.1 _

/-- One edge installs on the class what the module records. -/
theorem applyOneExtendedHook_installs {ix : ProjectIndex} (hkeyed : ix.WellKeyed)
    {path : ConstPath} {d m : ClassId} (hd : ix.byPath.lookup path = some d)
    {frag : ClassFragment} (hm : (ix.classOf m).Holds frag) :
    Installed ((ix.applyOneExtendedHook (d, m)).classOf d) frag := by
  have hlt : d < ix.classes.length := (hkeyed path d hd).1
  have hinstalled : (ix.modifyClass d (installFrom (ix.classOf m))).classOf d =
      installFrom (ix.classOf m) (ix.classOf d) := by
    rw [classOf_modifyClass, if_pos ⟨rfl, hlt⟩]
  have hgrows : (ix.modifyClass d (installFrom (ix.classOf m))).Grows
      (ix.applyOneExtendedHook (d, m)) := by
    unfold applyOneExtendedHook
    dsimp only
    split_ifs
    · exact mergeOpen_grows _ _ _
    · exact .refl _
  have hclass := hgrows.classOf d
  rw [hinstalled] at hclass
  refine ⟨fun install hinstall ↦ ?_, fun install hinstall ↦ ?_, fun hsealed ↦ ?_⟩
  · obtain ⟨file, hmem⟩ := hm.hookInstances install hinstall
    exact hclass.defines _ (isSome_lookup_installHooks hmem _)
  · obtain ⟨file, hmem⟩ := hm.hookSingletons install hinstall
    exact hclass.definesSingleton _ (isSome_lookup_installHooks hmem _)
  · unfold applyOneExtendedHook
    dsimp only
    have hlt' : d < (ix.modifyClass d (installFrom (ix.classOf m))).classes.length := by
      simpa [modifyClass] using hlt
    rw [if_pos (hm.hookOpaque hsealed), mergeOpen, classOf_modifyClass, if_pos ⟨rfl, hlt'⟩]
    exact List.mem_append_right _ List.mem_cons_self

theorem applyExtendedHooks_installs {ix : ProjectIndex} (hkeyed : ix.WellKeyed)
    {path : ConstPath} {d m : ClassId} (hd : ix.byPath.lookup path = some d)
    (hedge : ix.ExtendsModule d m) {frag : ClassFragment} (hm : (ix.classOf m).Holds frag) :
    Installed (ix.applyExtendedHooks.classOf d) frag := by
  refine Grows.foldl_reaches
    (I := fun ix ↦ ix.WellKeyed ∧ ix.byPath.lookup path = some d ∧ (ix.classOf m).Holds frag)
    (P := fun ix ↦ Installed (ix.classOf d) frag)
    (fun ix ix' hgrows hix ↦ ⟨hgrows.wellKeyed hix.1, hgrows.lookup _ _ hix.2.1,
      (hgrows.classOf m).holds hix.2.2⟩)
    (fun ix ix' hgrows hix ↦ hix.grows (hgrows.classOf d))
    (fun edge _ ix ↦ ix.applyOneExtendedHook_grows edge)
    (mem_extendEdges (hkeyed path d hd).1 hedge)
    (fun ix hix ↦ applyOneExtendedHook_installs hix.1 hix.2.1 hix.2.2) ⟨hkeyed, hd, hm⟩

/-- In a built index, a class that extends a module has what the hook of the module installs. -/
theorem buildIndex_installs {input : BuildInput} (hfiles : FilesGrounded input.files)
    {ix : ProjectIndex} (h : (buildIndex input).Returns ix) {entry : SourceFile × FileDefs}
    (hentry : entry ∈ input.files) {frag : ClassFragment} (hfrag : frag ∈ entry.2.fragments)
    (hfree : frag.declaredOwnerRequired = false) {path : ConstPath} {d m : ClassId}
    (hd : ix.byPath.lookup path = some d) (hm : ix.byPath.lookup frag.path = some m)
    (hedge : ix.ExtendsModule d m) : Installed (ix.classOf d) frag := by
  obtain ⟨merged, hmerged, hbuild⟩ := Fueled.returns_bind.mp h
  have hstart := mergeFiles_grows {} hfiles
  have hreconciled :=
    (mergeInput_grows input).trans (reconcileSuperclasses_sameBodies hmerged).grows
  have hpatches := hreconciled.trans (merged.beforePatches_grows input)
  have hbefore := (hpatches.trans (applySingletonPatches_grows _
    (hpatches.patches (hstart.patches empty_patchesGrounded)))).trans (beforeHooks_grows _)
  obtain ⟨m', hm', hholds⟩ := hbefore.holdsAt (mergeFiles_holdsAt hfiles hentry hfrag hfree)
  have hkeyed := hbefore.wellKeyed (hstart.wellKeyed empty_wellKeyed)
  have hpasses : applyPasses input merged = afterHooks input
      (beforeHooks (beforePatches input merged).applySingletonPatches).applyExtendedHooks :=
    applyPasses_eq_hooks input merged
  generalize beforeHooks (beforePatches input merged).applySingletonPatches = before at *
  rw [hpasses] at hbuild
  -- the hooks and the passes after them leave the edges as they are
  have hscopes : before.SameScopes ix :=
    ((SameScopes.foldl applyOneExtendedHook_sameScopes _ before).trans
      (afterHooks_sameScopes input _)).trans (buildSubclassMap_sameScopes hbuild)
  rw [hscopes.byPath] at hd hm
  obtain rfl : m' = m := Option.some.inj (hm'.symm.trans hm)
  have hinstalls :=
    applyExtendedHooks_installs hkeyed hd (hscopes.extendsModule.mp hedge) hholds
  have hafter := (afterHooks_grows input before.applyExtendedHooks).trans
    (buildSubclassMap_grows hbuild)
  exact hinstalls.grows (hafter.classOf d)

end ProjectIndex

end Itaruby
