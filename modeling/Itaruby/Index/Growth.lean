import Itaruby.Index.Openness

/-!
What the merge and the passes may do to the class table: classes keep their paths, their
methods and their grounds, and gain more of each. Each operation gets one lemma; the run
of a whole build follows by composition.
-/

set_option autoImplicit false
set_option relaxedAutoImplicit false

namespace Itaruby

/-- What the hook of a class installs on its extenders. -/
structure ClassDef.HooksGrow (c c' : ClassDef) : Prop where
  instances : c.hookInstanceInstalls ⊆ c'.hookInstanceInstalls
  singletons : c.hookSingletonInstalls ⊆ c'.hookSingletonInstalls
  isOpaque : c.hookInstallsOpaque = true → c'.hookInstallsOpaque = true

theorem ClassDef.HooksGrow.of_same {c c' : ClassDef}
    (hinstances : c'.hookInstanceInstalls = c.hookInstanceInstalls)
    (hsingletons : c'.hookSingletonInstalls = c.hookSingletonInstalls)
    (hsealed : c'.hookInstallsOpaque = c.hookInstallsOpaque) : c.HooksGrow c' where
  instances := by rw [hinstances]; exact List.Subset.refl _
  singletons := by rw [hsingletons]; exact List.Subset.refl _
  isOpaque := by rw [hsealed]; exact id

/-- A class later in the build. A class that is not there yet has no path. -/
structure ClassDef.Grows (c c' : ClassDef) : Prop where
  path : c.path = [] ∨ c'.path = c.path
  grounds : c.grounds <+: c'.grounds
  grounded : c.GroundedClass → c'.GroundedClass
  defines : ∀ name, c.defines name = true → c'.defines name = true
  definesSingleton : ∀ name, c.definesSingleton name = true → c'.definesSingleton name = true
  extends' : c.extends' ⊆ c'.extends'
  consts : c.consts ⊆ c'.consts
  hooks : c.HooksGrow c'

namespace ClassDef.Grows

variable {c c' c'' : ClassDef}

theorem refl (c : ClassDef) : c.Grows c :=
  ⟨.inr rfl, List.prefix_refl _, id, fun _ ↦ id, fun _ ↦ id, List.Subset.refl _,
    List.Subset.refl _, .of_same rfl rfl rfl⟩

theorem trans (h : c.Grows c') (h' : c'.Grows c'') : c.Grows c'' where
  path := by
    rcases h.path with hnil | heq
    · exact .inl hnil
    · exact h'.path.imp (fun hnil ↦ heq ▸ hnil) fun heq' ↦ heq'.trans heq
  grounds := h.grounds.trans h'.grounds
  grounded := h'.grounded ∘ h.grounded
  defines name := h'.defines name ∘ h.defines name
  definesSingleton name := h'.definesSingleton name ∘ h.definesSingleton name
  extends' := List.Subset.trans h.extends' h'.extends'
  consts := List.Subset.trans h.consts h'.consts
  hooks :=
    ⟨List.Subset.trans h.hooks.instances h'.hooks.instances,
      List.Subset.trans h.hooks.singletons h'.hooks.singletons,
      h'.hooks.isOpaque ∘ h.hooks.isOpaque⟩

/-- An operation that leaves the openness of the class alone. -/
theorem of_sameOpenness (hpath : c'.path = c.path) (hopen : c'.isOpen = c.isOpen)
    (hreason : c'.openReason = c.openReason) (hgrounds : c'.grounds = c.grounds)
    (hdefines : ∀ name, c.defines name = true → c'.defines name = true)
    (hsingleton : ∀ name, c.definesSingleton name = true → c'.definesSingleton name = true)
    (hextends : c.extends' ⊆ c'.extends') (hconsts : c.consts ⊆ c'.consts)
    (hhooks : c.HooksGrow c') : c.Grows c' where
  path := .inr hpath
  grounds := by rw [hgrounds]
  grounded h := by
    unfold GroundedClass at h ⊢
    rwa [hopen, hreason, hgrounds]
  defines := hdefines
  definesSingleton := hsingleton
  extends' := hextends
  consts := hconsts
  hooks := hhooks

/-- A class that was not there grows into any class with a record of its own. -/
theorem of_fresh (h : c'.GroundedClass) : ({ path := [] } : ClassDef).Grows c' where
  path := .inl rfl
  grounds := List.nil_prefix
  grounded _ := h
  defines _ h := by cases h
  definesSingleton _ h := by cases h
  extends' := List.nil_subset _
  consts := List.nil_subset _
  hooks := ⟨List.nil_subset _, List.nil_subset _, nofun⟩

end ClassDef.Grows

theorem isSome_lookup_insertMethods {table : MethodTable} {defs : List MethodDef}
    {file : SourceFile} {name : String} (h : (table.lookup name).isSome) :
    ((insertMethods table defs file).lookup name).isSome := by
  rw [lookup_insertMethods, Option.isSome_or]
  simp [h]

theorem isSome_lookup_insertNew {table : MethodTable} {key name : String} {sig : MethodSig}
    (h : (table.lookup name).isSome) : ((insertNew table key sig).lookup name).isSome := by
  unfold insertNew
  cases hkey : table.lookup key with
  | some _ => exact h
  | none =>
    have hne : name ≠ key := by
      rintro rfl
      simp [hkey] at h
    dsimp only
    rwa [AList.lookup_insert_ne hne]

theorem isSome_lookup_insertNew_self (table : MethodTable) (key : String) (sig : MethodSig) :
    ((insertNew table key sig).lookup key).isSome := by
  unfold insertNew
  cases hkey : table.lookup key with
  | some found => simp [hkey]
  | none => simp

/-- New names are added to a table; the names it has stay. -/
theorem isSome_lookup_foldl {α : Type} {step : MethodTable → α → MethodTable} {name : String}
    (hstep : ∀ table a, (table.lookup name).isSome → ((step table a).lookup name).isSome)
    {table : MethodTable} (l : List α) (h : (table.lookup name).isSome) :
    ((l.foldl step table).lookup name).isSome := by
  induction l generalizing table with
  | nil => exact h
  | cons a l ih => exact ih (hstep table a h)

theorem isSome_lookup_foldl_insertNew {table : MethodTable} {defs : List MethodDef}
    {file : SourceFile} {md : MethodDef} (h : md ∈ defs) :
    ((defs.foldl (fun table md ↦ insertNew table md.name (methodSig md file)) table).lookup
      md.name).isSome := by
  obtain ⟨before, after, rfl⟩ := List.append_of_mem h
  rw [List.foldl_append, List.foldl_cons]
  refine isSome_lookup_foldl (fun _ _ ↦ isSome_lookup_insertNew) after ?_
  exact isSome_lookup_insertNew_self _ md.name _

theorem mem_foldl_pushNew {known : List ConstPath} (paths : List ConstPath) :
    known ⊆ paths.foldl (fun known path ↦ if path ∈ known then known else known ++ [path]) known := by
  induction paths generalizing known with
  | nil => exact List.Subset.refl _
  | cons path paths ih =>
    refine List.Subset.trans ?_ ih
    dsimp only
    split_ifs
    · exact List.Subset.refl _
    · exact List.subset_append_left _ _

theorem subset_foldl_pushNew {known : List ConstPath} (paths : List ConstPath) :
    paths ⊆ paths.foldl (fun known path ↦ if path ∈ known then known else known ++ [path])
      known := by
  induction paths generalizing known with
  | nil => exact List.nil_subset _
  | cons path paths ih =>
    refine List.cons_subset.mpr ⟨mem_foldl_pushNew paths ?_, ih⟩
    dsimp only
    split_ifs with hmem
    · exact hmem
    · exact List.mem_append_right _ List.mem_cons_self

namespace ClassDef

theorem openFor_grows (c : ClassDef) (reason : OpenReason) : c.Grows (c.openFor reason) where
  path := .inr rfl
  grounds := List.prefix_append _ _
  grounded h := h.openFor reason
  defines _ := id
  definesSingleton _ := id
  extends' := List.Subset.refl _
  consts := List.Subset.refl _
  hooks := .of_same rfl rfl rfl

theorem mergeFragment_grows (c : ClassDef) {frag : ClassFragment} (h : frag.GroundedFragment)
    (file : SourceFile) : c.Grows (mergeFragment c frag file) where
  path := .inr rfl
  grounds := List.prefix_append _ _
  grounded hc := hc.mergeFragment h file
  defines _ := isSome_lookup_insertMethods
  definesSingleton _ := isSome_lookup_insertMethods
  extends' := List.subset_append_left _ _
  consts := List.subset_append_left _ _
  hooks :=
    ⟨List.subset_append_left _ _, List.subset_append_left _ _, fun h ↦ by
      simp [Itaruby.mergeFragment, mergeHookInstalls, h]⟩

theorem patchClass_grows (c : ClassDef) {frag : ClassFragment} (h : frag.GroundedFragment)
    (file : SourceFile) : c.Grows (ProjectIndex.patchClass c frag file) where
  path := .inr rfl
  grounds := List.prefix_append _ _
  grounded hc := hc.patchClass h file
  defines _ := id
  definesSingleton _ :=
    isSome_lookup_foldl (fun _ _ ↦ isSome_lookup_insertNew) frag.singletonMethods
  extends' := mem_foldl_pushNew frag.extends'
  consts := List.Subset.refl _
  hooks :=
    ⟨List.subset_append_left _ _, List.subset_append_left _ _, fun h ↦ by
      simp [ProjectIndex.patchClass, mergeHookInstalls, h]⟩

theorem addSchemaAttributes_path (c : ClassDef) (schema : Schema) :
    (addSchemaAttributes schema c).path = c.path := by
  unfold addSchemaAttributes
  cases schemaTableOf schema c with
  | none => rfl
  | some columns => rfl

theorem addSchemaAttributes_grows (c : ClassDef) (schema : Schema) :
    c.Grows (addSchemaAttributes schema c) := by
  unfold addSchemaAttributes
  cases schemaTableOf schema c with
  | none => exact .refl c
  | some columns =>
    refine .of_sameOpenness rfl rfl rfl rfl (fun name h ↦ ?_) (fun _ ↦ id) (List.Subset.refl _)
      (List.Subset.refl _) (.of_same rfl rfl rfl)
    exact isSome_lookup_foldl
      (fun _ _ hkey ↦ isSome_lookup_insertNew (isSome_lookup_insertNew hkey)) columns h

theorem installFrom_grows (module c : ClassDef) :
    c.Grows (ProjectIndex.installFrom module c) :=
  .of_sameOpenness rfl rfl rfl rfl
    (fun _ ↦ isSome_lookup_foldl (fun _ _ ↦ isSome_lookup_insertNew) module.hookInstanceInstalls)
    (fun _ ↦ isSome_lookup_foldl (fun _ _ ↦ isSome_lookup_insertNew) module.hookSingletonInstalls)
    (List.Subset.refl _) (List.Subset.refl _) (.of_same rfl rfl rfl)

end ClassDef

namespace ProjectIndex

def groundsView : FieldView (List Ground) where
  view cls := cls.grounds
  merge grounds _ frag := grounds ++ frag.grounds
  view_superclass _ _ := rfl
  view_merge _ _ _ := rfl

/-- Every patch held aside keeps the record of its grounds. -/
def PatchesGrounded (ix : ProjectIndex) : Prop :=
  ∀ patch ∈ ix.singletonPatches, patch.2.GroundedFragment

/-- The class table later in the build. -/
structure Grows (ix ix' : ProjectIndex) : Prop where
  lookup : ∀ path id, ix.byPath.lookup path = some id → ix'.byPath.lookup path = some id
  classOf : ∀ id, (ix.classOf id).Grows (ix'.classOf id)
  patches : ix.PatchesGrounded → ix'.PatchesGrounded
  wellKeyed : ix.WellKeyed → ix'.WellKeyed
  toplevelConsts : ix.toplevelConsts ⊆ ix'.toplevelConsts

namespace Grows

variable {ix ix' ix'' : ProjectIndex}

theorem refl (ix : ProjectIndex) : ix.Grows ix :=
  ⟨fun _ _ ↦ id, fun _ ↦ .refl _, id, id, Finset.Subset.refl _⟩

theorem trans (h : ix.Grows ix') (h' : ix'.Grows ix'') : ix.Grows ix'' :=
  ⟨fun path id hid ↦ h'.lookup path id (h.lookup path id hid),
    fun id ↦ (h.classOf id).trans (h'.classOf id), h'.patches ∘ h.patches,
    h'.wellKeyed ∘ h.wellKeyed, Finset.Subset.trans h.toplevelConsts h'.toplevelConsts⟩

/-- An operation that leaves the class table alone. -/
theorem of_sameTable (hby : ix'.byPath = ix.byPath) (hclasses : ix'.classes = ix.classes)
    (htoplevel : ix.toplevelConsts ⊆ ix'.toplevelConsts)
    (hpatches : ix.PatchesGrounded → ix'.PatchesGrounded) : ix.Grows ix' := by
  have heq : ∀ id, ix'.classOf id = ix.classOf id := by
    intro id
    unfold ProjectIndex.classOf
    rw [hclasses]
  refine ⟨fun path id hid ↦ hby ▸ hid, fun id ↦ ?_, hpatches, fun hkeyed path id hid ↦ ?_,
    htoplevel⟩
  · rw [heq]
    exact .refl _
  · rw [heq, hclasses]
    exact hkeyed path id (hby ▸ hid)

theorem foldl {α : Type} {step : ProjectIndex → α → ProjectIndex} {l : List α}
    (hstep : ∀ a ∈ l, ∀ ix : ProjectIndex, ix.Grows (step ix a)) (ix : ProjectIndex) :
    ix.Grows (l.foldl step ix) := by
  induction l generalizing ix with
  | nil => exact refl ix
  | cons a l ih =>
    exact (hstep a List.mem_cons_self ix).trans
      (ih (fun b hb ↦ hstep b (List.mem_cons_of_mem _ hb)) _)

end Grows

variable (ix : ProjectIndex)

theorem modifyClass_grows (id : ClassId) {f : ClassDef → ClassDef}
    (hpath : ∀ c, (f c).path = c.path) (hf : ∀ c : ClassDef, c.Grows (f c)) :
    ix.Grows (ix.modifyClass id f) := by
  refine ⟨fun _ _ h ↦ h, fun a ↦ ?_, fun h ↦ h,
    fun hkeyed ↦ modifyClass_wellKeyed hkeyed id hpath, Finset.Subset.refl _⟩
  rw [classOf_modifyClass]
  split_ifs
  · exact hf _
  · exact .refl _

theorem addClass_grows {path : ConstPath} (hpath : ix.byPath.lookup path = none) :
    ix.Grows (ix.addClass path) := by
  have hkeys : ix.WellKeyed → (ix.addClass path).WellKeyed := by
    intro hkeyed
    have hspec := (intern_spec (V := groundsView) hkeyed path).1
    rwa [show ix.intern path = (ix.addClass path, ix.classes.length) by
      simp [intern, hpath]] at hspec
  refine ⟨fun q id hid ↦ ?_, fun id ↦ ?_, fun h ↦ h, hkeys, Finset.Subset.refl _⟩
  · have hne : q ≠ path := by
      rintro rfl
      simp [hpath] at hid
    exact (AList.lookup_insert_ne hne).trans hid
  · rw [classOf_addClass]
    split_ifs with hid
    · have hfresh : ix.classOf id = { path := [] } := by
        unfold ProjectIndex.classOf
        rw [hid]
        simp
      rw [hfresh]
      exact .of_fresh Grounded.closed
    · exact .refl _

theorem intern_grows (path : ConstPath) : ix.Grows (ix.intern path).1 := by
  unfold intern
  cases hlookup : ix.byPath.lookup path with
  | some id => exact .refl ix
  | none => exact ix.addClass_grows hlookup

theorem mergeOpen_grows (id : ClassId) (reason : OpenReason) :
    ix.Grows (ix.mergeOpen id reason) :=
  ix.modifyClass_grows id (fun _ ↦ rfl) fun c ↦ c.openFor_grows reason

theorem openEach_grows (ids : List ClassId) (reason : OpenReason) :
    ix.Grows (ix.openEach ids reason) :=
  .foldl (fun id _ ix ↦ ix.mergeOpen_grows id reason) ix

/-! ### Merging the files -/

theorem mergeSuperclassHeader_grows (id : ClassId) (frag : ClassFragment) :
    ix.Grows (ix.mergeSuperclassHeader id frag) := by
  unfold mergeSuperclassHeader
  cases frag.superclass with
  | none => exact .refl ix
  | some superclass =>
    have hset : ix.Grows (ix.modifyClass id fun c ↦ { c with superclass := some superclass }) :=
      ix.modifyClass_grows id (fun _ ↦ rfl) fun c ↦
        .of_sameOpenness rfl rfl rfl rfl (fun _ h ↦ h) (fun _ h ↦ h)
          (List.Subset.refl _) (List.Subset.refl _) (.of_same rfl rfl rfl)
    dsimp only
    split_ifs
    · exact .of_sameTable rfl rfl (Finset.Subset.refl _) (fun h ↦ h)
    · exact hset.trans (.of_sameTable rfl rfl (Finset.Subset.refl _) (fun h ↦ h))
    · exact hset.trans (.of_sameTable rfl rfl (Finset.Subset.refl _) (fun h ↦ h))

theorem mergeOneFragment_grows (file : SourceFile) {frag : ClassFragment}
    (h : frag.GroundedFragment) : ix.Grows (ix.mergeOneFragment file frag) := by
  unfold mergeOneFragment
  split_ifs
  · refine .of_sameTable rfl rfl (Finset.Subset.refl _) fun hpatches patch hmem ↦ ?_
    rcases List.mem_append.mp hmem with hmem | hmem
    · exact hpatches patch hmem
    · obtain rfl := List.mem_singleton.mp hmem
      exact h
  · exact ((ix.intern_grows frag.path).trans (mergeSuperclassHeader_grows _ _ _)).trans
      (modifyClass_grows _ _ (fun _ ↦ rfl) fun c ↦ c.mergeFragment_grows h file)

/-- Every fragment of a list of files keeps the record of its grounds. -/
def FilesGrounded (files : List (SourceFile × FileDefs)) : Prop :=
  ∀ entry ∈ files, ∀ frag ∈ entry.2.fragments, frag.GroundedFragment

theorem mergeFileFragments_grows (file : SourceFile) {defs : FileDefs}
    (h : ∀ frag ∈ defs.fragments, frag.GroundedFragment) :
    ix.Grows (ix.mergeFileFragments file defs) := by
  have hacc : ix.Grows (ix.mergeFileAccumulators defs) :=
    .of_sameTable rfl rfl Finset.subset_union_left (fun h ↦ h)
  exact hacc.trans (.foldl (fun frag hfrag ix ↦ ix.mergeOneFragment_grows file (h frag hfrag)) _)

theorem mergeFiles_grows {files : List (SourceFile × FileDefs)} (h : FilesGrounded files) :
    ix.Grows (ix.mergeFiles files) :=
  .foldl (fun entry hentry ix ↦ ix.mergeFileFragments_grows entry.1 (h entry hentry)) ix

theorem mergeIgnoredPollution_grows (defs : FileDefs) : ix.Grows (ix.mergeIgnoredPollution defs) :=
  .of_sameTable rfl rfl (Finset.Subset.refl _) (fun h ↦ h)

theorem mergeDeclaredFragment_grows (frag : ClassFragment) :
    ix.Grows (ix.mergeDeclaredFragment frag) := by
  unfold mergeDeclaredFragment
  cases hlookup : ix.byPath.lookup frag.path with
  | some id => exact .refl ix
  | none =>
    have hintern : ix.intern frag.path = (ix.addClass frag.path, ix.classes.length) := by
      simp [intern, hlookup]
    rw [hintern]
    have hadd := ix.addClass_grows hlookup
    refine ⟨fun path id hid ↦ hadd.lookup path id hid, fun id ↦ ?_, fun h ↦ h,
      fun hkeyed ↦ modifyClass_wellKeyed (hadd.wellKeyed hkeyed) _ fun _ ↦ rfl,
      hadd.toplevelConsts⟩
    dsimp only
    rw [classOf_modifyClass]
    split_ifs with hid
    · have hfresh : ix.classOf id = { path := [] } := by
        unfold ProjectIndex.classOf
        rw [hid.1]
        simp
      rw [hfresh]
      exact .of_fresh (Grounded.single .declaredExternal)
    · exact hadd.classOf id

/-! ### The passes -/

theorem classOf_mergeSchemaDeclarations (schema : Schema) (id : ClassId) :
    (ix.mergeSchemaDeclarations (some schema)).classOf id =
      if id < ix.classes.length then addSchemaAttributes schema (ix.classOf id)
      else ix.classOf id := by
  change (ix.classes.map (addSchemaAttributes schema)).getD id { path := [] } = _
  unfold ProjectIndex.classOf
  rw [List.getD_eq_getElem?_getD, List.getD_eq_getElem?_getD, List.getElem?_map]
  split_ifs with hid
  · simp [hid]
  · simp [hid]

theorem mergeSchemaDeclarations_grows (schema : Option Schema) :
    ix.Grows (ix.mergeSchemaDeclarations schema) := by
  cases schema with
  | none => exact .refl ix
  | some schema =>
    refine ⟨fun _ _ h ↦ h, fun id ↦ ?_, fun h ↦ h, fun hkeyed path id hid ↦ ?_,
      Finset.Subset.refl _⟩
    · rw [classOf_mergeSchemaDeclarations]
      split_ifs
      · exact (ix.classOf id).addSchemaAttributes_grows schema
      · exact .refl _
    · obtain ⟨hlt, hpath⟩ := hkeyed path id hid
      rw [classOf_mergeSchemaDeclarations, if_pos hlt, ClassDef.addSchemaAttributes_path]
      exact ⟨by simpa [mergeSchemaDeclarations] using hlt, hpath⟩

theorem applyMockSingletonSurface_grows (namespaces : Finset String) :
    ix.Grows (ix.applyMockSingletonSurface namespaces) := by
  unfold applyMockSingletonSurface
  by_cases h : "rspecmocks" ∈ namespaces ∨ "mocha" ∈ namespaces
  · rw [if_pos h]
    exact .of_sameTable rfl rfl (Finset.Subset.refl _) (fun h ↦ h)
  · rw [if_neg h]
    exact .refl ix

theorem applyGemNamespaces_grows (namespaces : Option (Finset String)) :
    ix.Grows (ix.applyGemNamespaces namespaces) := by
  cases namespaces with
  | none => exact .refl ix
  | some namespaces =>
    have hopen : ix.Grows (ix.applyGemReopenings namespaces) := ix.openEach_grows _ _
    exact hopen.trans (applyMockSingletonSurface_grows _ namespaces)

theorem addExtends_grows (edge : ClassId × ConstPath) : ix.Grows (ix.addExtends edge) := by
  refine ix.modifyClass_grows edge.1 (fun c ↦ ?_) fun c ↦ ?_
  · split_ifs <;> rfl
  split_ifs
  · exact .refl c
  · exact .of_sameOpenness rfl rfl rfl rfl (fun _ h ↦ h) (fun _ h ↦ h)
      (List.subset_append_left _ _) (List.Subset.refl _) (.of_same rfl rfl rfl)

theorem resolveQualifiedWrite_grows (write : ConstPath × String) :
    ix.Grows (ix.resolveQualifiedWrite write) := by
  unfold resolveQualifiedWrite
  cases ix.byPath.lookup write.1 with
  | none => exact .of_sameTable rfl rfl (Finset.subset_insert _ _) (fun h ↦ h)
  | some id =>
    exact ix.modifyClass_grows id (fun _ ↦ rfl) fun c ↦
      .of_sameOpenness rfl rfl rfl rfl (fun _ h ↦ h) (fun _ h ↦ h)
        (List.Subset.refl _) (List.subset_append_left _ _) (.of_same rfl rfl rfl)

theorem applySingletonPatch_grows {patch : SourceFile × ClassFragment}
    (h : patch.2.GroundedFragment) : ix.Grows (ix.applySingletonPatch patch) := by
  unfold applySingletonPatch
  cases ix.byPath.lookup patch.2.path with
  | none => exact .refl ix
  | some id =>
    exact ix.modifyClass_grows id (fun _ ↦ rfl) fun c ↦ c.patchClass_grows h patch.1

theorem applySingletonPatches_grows (h : ix.PatchesGrounded) :
    ix.Grows ix.applySingletonPatches := by
  have hfold : ix.Grows (ix.singletonPatches.foldl applySingletonPatch ix) :=
    .foldl (fun patch hmem ix ↦ ix.applySingletonPatch_grows (h patch hmem)) ix
  exact hfold.trans (.of_sameTable rfl rfl (Finset.Subset.refl _)
    fun _ patch hmem ↦ absurd hmem List.not_mem_nil)

theorem applyOneExtendedHook_grows (edge : ClassId × ClassId) :
    ix.Grows (ix.applyOneExtendedHook edge) := by
  unfold applyOneExtendedHook
  have hinstall : ix.Grows (ix.modifyClass edge.1 (installFrom (ix.classOf edge.2))) :=
    ix.modifyClass_grows edge.1 (fun _ ↦ rfl) (ClassDef.installFrom_grows _)
  dsimp only
  split_ifs
  · exact hinstall.trans (mergeOpen_grows _ _ _)
  · exact hinstall

theorem applyIgnoredFragment_grows (frag : ClassFragment) :
    ix.Grows (ix.applyIgnoredFragment frag) := by
  unfold applyIgnoredFragment
  cases ix.byPath.lookup frag.path with
  | none => exact .of_sameTable rfl rfl (Finset.Subset.refl _) (fun h ↦ h)
  | some id => exact (ix.mergeOpen_grows id _).trans (.of_sameTable rfl rfl (Finset.Subset.refl _) (fun h ↦ h))

theorem SameBodies.grows {ix ix' : ProjectIndex} (h : ix.SameBodies ix') : ix.Grows ix' := by
  refine ⟨fun path id hid ↦ h.byPath ▸ hid, fun id ↦ ?_, fun hpatches ↦ ?_,
    fun hkeyed path id hid ↦ ?_, by rw [h.toplevelConsts]⟩
  · obtain ⟨superclass, heq⟩ := h.classOf id
    rw [heq]
    exact .of_sameOpenness rfl rfl rfl rfl (fun _ h ↦ h) (fun _ h ↦ h)
      (List.Subset.refl _) (List.Subset.refl _) (.of_same rfl rfl rfl)
  · unfold PatchesGrounded
    rwa [h.singletonPatches]
  · obtain ⟨hlt, hpath⟩ := hkeyed path id (h.byPath ▸ hid)
    obtain ⟨superclass, heq⟩ := h.classOf id
    rw [h.length, heq]
    exact ⟨hlt, hpath⟩

/-! ### A whole build -/

theorem mergeInput_grows (input : BuildInput) :
    (({} : ProjectIndex).mergeFiles input.files).Grows (mergeInput input) :=
  (Grows.foldl (fun defs _ ix ↦ ix.mergeIgnoredPollution_grows defs) _).trans
    (.foldl (fun frag _ ix ↦ ix.mergeDeclaredFragment_grows frag) _)

/-- The passes before the qualified constant writes. -/
def beforeWrites (input : BuildInput) (ix : ProjectIndex) : ProjectIndex :=
  ((ix.mergeSchemaDeclarations input.schema).applyGemNamespaces input.gemNamespaces)
    |>.applyUndeclaredNamespaceReopenings
    |>.applyStringSourceDefinitions
    |>.applyConcernClassMethods

/-- The passes up to the patches by name. -/
def beforePatches (input : BuildInput) (ix : ProjectIndex) : ProjectIndex :=
  (beforeWrites input ix).resolveQualifiedConstWrites
    (input.files.flatMap fun (_, defs) ↦ defs.qualifiedWrites)

/-- The passes after the patches by name. -/
def afterPatches (input : BuildInput) (ix : ProjectIndex) : ProjectIndex :=
  ix.applyAttributedMixinEdges
    |>.applyLoadHookOpenness
    |>.applyExtendedHooks
    |>.applyNamespaceOnlyModules
    |>.applyIgnoredOpenness input.ignored

theorem applyPasses_eq (input : BuildInput) :
    applyPasses input ix = afterPatches input (beforePatches input ix).applySingletonPatches := rfl

theorem beforeWrites_grows (input : BuildInput) : ix.Grows (beforeWrites input ix) := by
  have hnamespaces : ∀ ix : ProjectIndex, ix.Grows ix.applyUndeclaredNamespaceReopenings :=
    fun ix ↦ ix.openEach_grows _ _
  have hstrings : ∀ ix : ProjectIndex, ix.Grows ix.applyStringSourceDefinitions :=
    fun ix ↦ (ix.openEach_grows _ _).trans (.of_sameTable rfl rfl (Finset.Subset.refl _) (fun h ↦ h))
  have hconcern : ∀ ix : ProjectIndex, ix.Grows ix.applyConcernClassMethods :=
    fun ix ↦ .foldl (fun edge _ ix ↦ ix.addExtends_grows edge) ix
  exact ((((ix.mergeSchemaDeclarations_grows input.schema).trans
    (applyGemNamespaces_grows _ _)).trans (hnamespaces _)).trans (hstrings _)).trans (hconcern _)

theorem beforePatches_grows (input : BuildInput) : ix.Grows (beforePatches input ix) :=
  (ix.beforeWrites_grows input).trans
    (.foldl (fun write _ ix ↦ ix.resolveQualifiedWrite_grows write) _)

theorem afterPatches_grows (input : BuildInput) : ix.Grows (afterPatches input ix) := by
  have hedges : ix.Grows ix.applyAttributedMixinEdges :=
    (ix.openEach_grows _ _).trans (.of_sameTable rfl rfl (Finset.Subset.refl _) (fun h ↦ h))
  have hloads : ∀ ix : ProjectIndex, ix.Grows ix.applyLoadHookOpenness :=
    fun ix ↦ (ix.openEach_grows _ _).trans (.of_sameTable rfl rfl (Finset.Subset.refl _) (fun h ↦ h))
  have hhooks : ∀ ix : ProjectIndex, ix.Grows ix.applyExtendedHooks :=
    fun ix ↦ .foldl (fun edge _ ix ↦ ix.applyOneExtendedHook_grows edge) ix
  have hmodules : ∀ ix : ProjectIndex, ix.Grows ix.applyNamespaceOnlyModules :=
    fun ix ↦ ix.openEach_grows _ _
  exact (((hedges.trans (hloads _)).trans (hhooks _)).trans (hmodules _)).trans
    (.foldl (fun frag _ ix ↦ ix.applyIgnoredFragment_grows frag) _)

theorem applyPasses_grows (input : BuildInput) (h : ix.PatchesGrounded) :
    ix.Grows (applyPasses input ix) := by
  have hbefore := ix.beforePatches_grows input
  rw [applyPasses_eq]
  exact (hbefore.trans (applySingletonPatches_grows _ (hbefore.patches h))).trans
    (afterPatches_grows _ input)

theorem buildSubclassMap_grows {ix ix' : ProjectIndex} (h : ix.buildSubclassMap.Returns ix') :
    ix.Grows ix' := by
  obtain ⟨edges, -, h⟩ := Fueled.returns_bind.mp h
  obtain rfl := Fueled.returns_pure.mp h
  exact .of_sameTable rfl rfl (Finset.Subset.refl _) (fun h ↦ h)

theorem empty_patchesGrounded : ({} : ProjectIndex).PatchesGrounded :=
  fun _ hmem ↦ absurd hmem List.not_mem_nil

theorem empty_wellKeyed : ({} : ProjectIndex).WellKeyed := fun path id hid ↦ by cases hid

/-- The built index has everything that the merge of the files put into it. -/
theorem buildIndex_grows {input : BuildInput} (hfiles : FilesGrounded input.files)
    {ix : ProjectIndex} (h : (buildIndex input).Returns ix) :
    (({} : ProjectIndex).mergeFiles input.files).Grows ix := by
  obtain ⟨merged, hmerged, h⟩ := Fueled.returns_bind.mp h
  have hstart := mergeFiles_grows {} hfiles
  have hreconciled := (mergeInput_grows input).trans
    (reconcileSuperclasses_sameBodies hmerged).grows
  have hpatches := hreconciled.patches (hstart.patches empty_patchesGrounded)
  exact (hreconciled.trans (merged.applyPasses_grows input hpatches)).trans
    (buildSubclassMap_grows h)

/-- Every class of a built index keeps the record of its grounds. -/
theorem buildIndex_grounded {input : BuildInput} (hfiles : FilesGrounded input.files)
    {ix : ProjectIndex} (h : (buildIndex input).Returns ix) (id : ClassId) :
    (ix.classOf id).GroundedClass :=
  (((mergeFiles_grows {} hfiles).trans (buildIndex_grows hfiles h)).classOf id).grounded
    Grounded.closed

/-! ### Where a fragment's grounds end up -/

/-- The same paths, and the same patches held aside. -/
structure SameKeys (ix ix' : ProjectIndex) : Prop where
  byPath : ix'.byPath = ix.byPath
  singletonPatches : ix'.singletonPatches = ix.singletonPatches

namespace SameKeys

theorem refl (ix : ProjectIndex) : ix.SameKeys ix := ⟨rfl, rfl⟩

theorem trans {ix ix' ix'' : ProjectIndex} (h : ix.SameKeys ix') (h' : ix'.SameKeys ix'') :
    ix.SameKeys ix'' :=
  ⟨h'.byPath.trans h.byPath, h'.singletonPatches.trans h.singletonPatches⟩

theorem foldl {α : Type} {step : ProjectIndex → α → ProjectIndex}
    (hstep : ∀ (ix : ProjectIndex) a, ix.SameKeys (step ix a)) (l : List α) (ix : ProjectIndex) :
    ix.SameKeys (l.foldl step ix) := by
  induction l generalizing ix with
  | nil => exact refl ix
  | cons a l ih => exact (hstep ix a).trans (ih _)

theorem openEach (ix : ProjectIndex) (ids : List ClassId) (reason : OpenReason) :
    ix.SameKeys (ix.openEach ids reason) := by
  have hstep : ∀ (ix : ProjectIndex) id, ix.SameKeys (ix.mergeOpen id reason) :=
    fun _ _ ↦ ⟨rfl, rfl⟩
  exact foldl hstep ids ix

end SameKeys

theorem applyGemNamespaces_sameKeys (namespaces : Option (Finset String)) :
    ix.SameKeys (ix.applyGemNamespaces namespaces) := by
  cases namespaces with
  | none => exact .refl ix
  | some namespaces =>
    have hopen : ix.SameKeys (ix.applyGemReopenings namespaces) := .openEach ix _ _
    refine hopen.trans ?_
    change (ix.applyGemReopenings namespaces).SameKeys
      ((ix.applyGemReopenings namespaces).applyMockSingletonSurface namespaces)
    unfold applyMockSingletonSurface
    by_cases h : "rspecmocks" ∈ namespaces ∨ "mocha" ∈ namespaces
    · rw [if_pos h]
      exact ⟨rfl, rfl⟩
    · rw [if_neg h]
      exact .refl _

theorem resolveQualifiedWrite_sameKeys (write : ConstPath × String) :
    ix.SameKeys (ix.resolveQualifiedWrite write) := by
  unfold resolveQualifiedWrite
  cases ix.byPath.lookup write.1 with
  | none => exact ⟨rfl, rfl⟩
  | some id => exact ⟨rfl, rfl⟩

theorem beforePatches_sameKeys (input : BuildInput) : ix.SameKeys (beforePatches input ix) := by
  have hschema : ix.SameKeys (ix.mergeSchemaDeclarations input.schema) := by
    cases input.schema with
    | none => exact .refl ix
    | some schema => exact ⟨rfl, rfl⟩
  have hnamespaces : ∀ ix : ProjectIndex, ix.SameKeys ix.applyUndeclaredNamespaceReopenings :=
    fun ix ↦ .openEach ix _ _
  have hstrings : ∀ ix : ProjectIndex, ix.SameKeys ix.applyStringSourceDefinitions :=
    fun ix ↦ (SameKeys.openEach ix _ _).trans ⟨rfl, rfl⟩
  have hedge : ∀ (ix : ProjectIndex) edge, ix.SameKeys (addExtends ix edge) :=
    fun _ _ ↦ ⟨rfl, rfl⟩
  have hconcern : ∀ ix : ProjectIndex, ix.SameKeys ix.applyConcernClassMethods :=
    fun ix ↦ .foldl hedge _ ix
  exact ((((hschema.trans (applyGemNamespaces_sameKeys _ _)).trans (hnamespaces _)).trans
    (hstrings _)).trans (hconcern _)).trans (.foldl resolveQualifiedWrite_sameKeys _ _)

theorem applySingletonPatch_byPath (patch : SourceFile × ClassFragment) :
    (ix.applySingletonPatch patch).byPath = ix.byPath := by
  unfold applySingletonPatch
  cases ix.byPath.lookup patch.2.path with
  | none => rfl
  | some id => rfl

theorem afterPatches_byPath (input : BuildInput) :
    (afterPatches input ix).byPath = ix.byPath := by
  have hedges : ix.SameKeys ix.applyAttributedMixinEdges :=
    (SameKeys.openEach ix _ _).trans ⟨rfl, rfl⟩
  have hloads : ∀ ix : ProjectIndex, ix.SameKeys ix.applyLoadHookOpenness :=
    fun ix ↦ (SameKeys.openEach ix _ _).trans ⟨rfl, rfl⟩
  have hhook : ∀ (ix : ProjectIndex) edge, ix.SameKeys (ix.applyOneExtendedHook edge) := by
    intro ix edge
    unfold applyOneExtendedHook
    dsimp only
    split_ifs
    · exact ⟨rfl, rfl⟩
    · exact ⟨rfl, rfl⟩
  have hmodules : ∀ ix : ProjectIndex, ix.SameKeys ix.applyNamespaceOnlyModules :=
    fun ix ↦ .openEach ix _ _
  have hignored : ∀ (ix : ProjectIndex) frag, ix.SameKeys (ix.applyIgnoredFragment frag) := by
    intro ix frag
    unfold applyIgnoredFragment
    cases ix.byPath.lookup frag.path with
    | none => exact ⟨rfl, rfl⟩
    | some id => exact ⟨rfl, rfl⟩
  exact ((((hedges.trans (hloads _)).trans (.foldl hhook _ _)).trans (hmodules _)).trans
    (.foldl hignored _ _)).byPath

theorem applySingletonPatches_byPath : ix.applySingletonPatches.byPath = ix.byPath := by
  change (ix.singletonPatches.foldl applySingletonPatch ix).byPath = ix.byPath
  generalize ix.singletonPatches = patches
  induction patches generalizing ix with
  | nil => rfl
  | cons patch patches ih =>
    rw [List.foldl_cons, ih, applySingletonPatch_byPath]

/-- Once a step of a fold establishes a fact that growth keeps, the fold ends with it. -/
theorem Grows.foldl_reaches {α : Type} {step : ProjectIndex → α → ProjectIndex} {l : List α}
    {I P : ProjectIndex → Prop} (hI : ∀ ix ix' : ProjectIndex, ix.Grows ix' → I ix → I ix')
    (hmono : ∀ ix ix' : ProjectIndex, ix.Grows ix' → P ix → P ix')
    (hstep : ∀ a ∈ l, ∀ ix : ProjectIndex, ix.Grows (step ix a)) {a : α} (ha : a ∈ l)
    (hP : ∀ ix : ProjectIndex, I ix → P (step ix a)) {ix : ProjectIndex} (hix : I ix) :
    P (l.foldl step ix) := by
  obtain ⟨before, after, rfl⟩ := List.append_of_mem ha
  rw [List.foldl_append, List.foldl_cons]
  have hbefore : ix.Grows (before.foldl step ix) :=
    .foldl (fun b hb ↦ hstep b (List.mem_append_left _ hb)) ix
  have hafter : (step (before.foldl step ix) a).Grows
      (after.foldl step (step (before.foldl step ix) a)) :=
    .foldl (fun b hb ↦ hstep b (List.mem_append_right _ (List.mem_cons_of_mem _ hb))) _
  exact hmono _ _ hafter (hP _ (hI _ _ hbefore hix))

end ProjectIndex

/-- What a fragment records is in the class. The instance methods of a patch by name are not
applied. -/
structure ClassDef.Holds (c : ClassDef) (frag : ClassFragment) : Prop where
  grounds : frag.grounds ⊆ c.grounds
  singletonMethods : ∀ md ∈ frag.singletonMethods, c.definesSingleton md.name = true
  extends' : frag.extends' ⊆ c.extends'
  methods : frag.declaredOwnerRequired = false →
    ∀ md ∈ frag.methods, c.defines md.name = true
  consts : frag.declaredOwnerRequired = false → frag.consts ⊆ c.consts
  hookInstances : ∀ install ∈ frag.hookInstanceInstalls,
    ∃ file, (install.1, install.2, file) ∈ c.hookInstanceInstalls
  hookSingletons : ∀ install ∈ frag.hookSingletonInstalls,
    ∃ file, (install.1, install.2, file) ∈ c.hookSingletonInstalls
  hookOpaque : frag.hookInstallsOpaque = true → c.hookInstallsOpaque = true

theorem ClassDef.Grows.holds {c c' : ClassDef} (h : c.Grows c') {frag : ClassFragment}
    (hc : c.Holds frag) : c'.Holds frag where
  grounds := List.Subset.trans hc.grounds h.grounds.subset
  singletonMethods md hmd := h.definesSingleton _ (hc.singletonMethods md hmd)
  extends' := List.Subset.trans hc.extends' h.extends'
  methods hfree md hmd := h.defines _ (hc.methods hfree md hmd)
  consts hfree := List.Subset.trans (hc.consts hfree) h.consts
  hookInstances install hinstall :=
    (hc.hookInstances install hinstall).imp fun _ hmem ↦ h.hooks.instances hmem
  hookSingletons install hinstall :=
    (hc.hookSingletons install hinstall).imp fun _ hmem ↦ h.hooks.singletons hmem
  hookOpaque hsealed := h.hooks.isOpaque (hc.hookOpaque hsealed)

theorem isSome_lookup_of_mem_insertMethods {table : MethodTable} {defs : List MethodDef}
    {file : SourceFile} {md : MethodDef} (h : md ∈ defs) :
    ((insertMethods table defs file).lookup md.name).isSome := by
  have hfound : (defs.reverse.findSome? fun d ↦
      if d.name = md.name then some (methodSig d file) else none).isSome := by
    rw [List.isSome_findSome?]
    simp only [List.any_eq_true]
    exact ⟨md, List.mem_reverse.mpr h, by simp⟩
  rw [lookup_insertMethods, Option.isSome_or, hfound, Bool.true_or]

theorem ClassDef.mergeFragment_holds (c : ClassDef) (frag : ClassFragment) (file : SourceFile) :
    (mergeFragment c frag file).Holds frag where
  grounds := List.subset_append_right _ _
  singletonMethods _ := isSome_lookup_of_mem_insertMethods
  extends' := List.subset_append_right _ _
  methods _ _ := isSome_lookup_of_mem_insertMethods
  consts _ := List.subset_append_right _ _
  hookInstances install hinstall :=
    ⟨file, List.mem_append_right _ (List.mem_map.mpr ⟨install, hinstall, rfl⟩)⟩
  hookSingletons install hinstall :=
    ⟨file, List.mem_append_right _ (List.mem_map.mpr ⟨install, hinstall, rfl⟩)⟩
  hookOpaque h := by simp [mergeFragment, mergeHookInstalls, h]

theorem ClassDef.patchClass_holds (c : ClassDef) {frag : ClassFragment}
    (hheld : frag.declaredOwnerRequired = true) (file : SourceFile) :
    (ProjectIndex.patchClass c frag file).Holds frag where
  grounds := List.subset_append_right _ _
  singletonMethods _ := isSome_lookup_foldl_insertNew
  extends' := subset_foldl_pushNew frag.extends'
  methods hfree := by simp [hheld] at hfree
  consts hfree := by simp [hheld] at hfree
  hookInstances install hinstall :=
    ⟨file, List.mem_append_right _ (List.mem_map.mpr ⟨install, hinstall, rfl⟩)⟩
  hookSingletons install hinstall :=
    ⟨file, List.mem_append_right _ (List.mem_map.mpr ⟨install, hinstall, rfl⟩)⟩
  hookOpaque h := by simp [ProjectIndex.patchClass, mergeHookInstalls, h]

namespace ProjectIndex

/-- The class of a path has what a fragment records. -/
def HoldsAt (frag : ClassFragment) (path : ConstPath) (ix : ProjectIndex) : Prop :=
  ∃ id, ix.byPath.lookup path = some id ∧ (ix.classOf id).Holds frag

theorem Grows.holdsAt {ix ix' : ProjectIndex} (h : ix.Grows ix') {frag : ClassFragment}
    {path : ConstPath} (hix : ix.HoldsAt frag path) : ix'.HoldsAt frag path := by
  obtain ⟨id, hid, hholds⟩ := hix
  exact ⟨id, h.lookup path id hid, (h.classOf id).holds hholds⟩

theorem modifyClass_holdsAt {ix : ProjectIndex} (hkeyed : ix.WellKeyed) {path : ConstPath}
    {id : ClassId} (hid : ix.byPath.lookup path = some id) {f : ClassDef → ClassDef}
    {frag : ClassFragment} (hf : ∀ c, (f c).Holds frag) :
    (ix.modifyClass id f).HoldsAt frag path := by
  refine ⟨id, hid, ?_⟩
  rw [classOf_modifyClass, if_pos ⟨rfl, (hkeyed path id hid).1⟩]
  exact hf _

theorem mergeOneFragment_holdsAt {ix : ProjectIndex} (hkeyed : ix.WellKeyed) (file : SourceFile)
    {frag : ClassFragment} (hfree : frag.declaredOwnerRequired = false) :
    (ix.mergeOneFragment file frag).HoldsAt frag frag.path := by
  obtain ⟨hkeyed₁, hlookup, -⟩ := intern_spec (V := groundsView) hkeyed frag.path
  obtain ⟨hkeyed₂, hby, -⟩ := mergeSuperclassHeader_spec (V := groundsView) hkeyed₁ hlookup frag
  unfold mergeOneFragment
  rw [if_neg (by simp [hfree])]
  exact modifyClass_holdsAt hkeyed₂ (hby ▸ hlookup) fun c ↦ c.mergeFragment_holds frag file

theorem mergeFiles_holdsAt {files : List (SourceFile × FileDefs)} (hfiles : FilesGrounded files)
    {entry : SourceFile × FileDefs} (hentry : entry ∈ files) {frag : ClassFragment}
    (hfrag : frag ∈ entry.2.fragments) (hfree : frag.declaredOwnerRequired = false) :
    (({} : ProjectIndex).mergeFiles files).HoldsAt frag frag.path := by
  have hempty : ({} : ProjectIndex).WellKeyed := fun path id hid ↦ by cases hid
  refine Grows.foldl_reaches (fun ix ix' hgrows ↦ hgrows.wellKeyed)
    (fun ix ix' hgrows ↦ hgrows.holdsAt)
    (fun entry hentry ix ↦ ix.mergeFileFragments_grows entry.1 (hfiles entry hentry)) hentry
    (fun ix hkeyed ↦ ?_) hempty
  have hkeyed' : (ix.mergeFileAccumulators entry.2).WellKeyed := hkeyed
  exact Grows.foldl_reaches (fun ix ix' hgrows ↦ hgrows.wellKeyed)
    (fun ix ix' hgrows ↦ hgrows.holdsAt)
    (fun frag hfrag ix ↦ ix.mergeOneFragment_grows entry.1 (hfiles entry hentry frag hfrag)) hfrag
    (fun ix hkeyed ↦ mergeOneFragment_holdsAt hkeyed entry.1 hfree) hkeyed'

/-- A patch by name reaches the class of its path, when there is one. -/
theorem applySingletonPatches_holdsAt {ix : ProjectIndex} (hkeyed : ix.WellKeyed)
    (hpatches : ix.PatchesGrounded) {patch : SourceFile × ClassFragment}
    (hmem : patch ∈ ix.singletonPatches) (hheld : patch.2.declaredOwnerRequired = true)
    {id : ClassId} (hid : ix.byPath.lookup patch.2.path = some id) :
    ix.applySingletonPatches.HoldsAt patch.2 patch.2.path := by
  have hfold : (ix.singletonPatches.foldl applySingletonPatch ix).HoldsAt patch.2 patch.2.path := by
    refine Grows.foldl_reaches
      (I := fun ix ↦ ix.WellKeyed ∧ ix.byPath.lookup patch.2.path = some id)
      (fun ix ix' hgrows hix ↦ ⟨hgrows.wellKeyed hix.1, hgrows.lookup _ _ hix.2⟩)
      (fun ix ix' hgrows ↦ hgrows.holdsAt)
      (fun patch hmem ix ↦ ix.applySingletonPatch_grows (hpatches patch hmem)) hmem
      (fun ix hix ↦ ?_) ⟨hkeyed, hid⟩
    unfold applySingletonPatch
    rw [hix.2]
    exact modifyClass_holdsAt hix.1 hix.2 fun c ↦ c.patchClass_holds hheld patch.1
  exact hfold

theorem mergeOneFragment_singletonPatches (ix : ProjectIndex) (file : SourceFile) (frag : ClassFragment) :
    (ix.mergeOneFragment file frag).singletonPatches =
      ix.singletonPatches ++ if frag.declaredOwnerRequired then [(file, frag)] else [] := by
  unfold mergeOneFragment
  split_ifs
  · rfl
  · have hintern : (ix.intern frag.path).1.singletonPatches = ix.singletonPatches := by
      unfold intern
      cases ix.byPath.lookup frag.path with
      | none => rfl
      | some id => rfl
    have hheader : ∀ (ix : ProjectIndex) id,
        (ix.mergeSuperclassHeader id frag).singletonPatches = ix.singletonPatches := by
      intro ix id
      unfold mergeSuperclassHeader
      cases frag.superclass with
      | none => rfl
      | some superclass =>
        dsimp only
        split_ifs <;> rfl
    rw [List.append_nil, ← hintern]
    exact hheader _ _

theorem mergeFileFragments_singletonPatches (ix : ProjectIndex) (file : SourceFile) (defs : FileDefs) :
    (ix.mergeFileFragments file defs).singletonPatches =
      ix.singletonPatches ++
        (defs.fragments.filter ClassFragment.declaredOwnerRequired).map fun frag ↦ (file, frag) := by
  change (defs.fragments.foldl (mergeOneFragment file)
    (ix.mergeFileAccumulators defs)).singletonPatches = _
  have hstart : (ix.mergeFileAccumulators defs).singletonPatches = ix.singletonPatches := rfl
  rw [← hstart]
  generalize ix.mergeFileAccumulators defs = ix
  induction defs.fragments generalizing ix with
  | nil => simp
  | cons frag rest ih =>
    rw [List.foldl_cons, ih, mergeOneFragment_singletonPatches, List.filter_cons]
    split_ifs <;> simp

theorem mergeFiles_singletonPatches (ix : ProjectIndex) (files : List (SourceFile × FileDefs)) :
    (ix.mergeFiles files).singletonPatches =
      ix.singletonPatches ++ files.flatMap fun entry ↦
        (entry.2.fragments.filter ClassFragment.declaredOwnerRequired).map
          fun frag ↦ (entry.1, frag) := by
  induction files generalizing ix with
  | nil => simp [mergeFiles]
  | cons entry rest ih =>
    change ((ix.mergeFileFragments entry.1 entry.2).mergeFiles rest).singletonPatches = _
    rw [ih, mergeFileFragments_singletonPatches, List.flatMap_cons, List.append_assoc]

theorem mergeInput_singletonPatches (input : BuildInput) :
    (mergeInput input).singletonPatches =
      (({} : ProjectIndex).mergeFiles input.files).singletonPatches := by
  have hignored : ∀ (defs : List FileDefs) (ix : ProjectIndex),
      (defs.foldl mergeIgnoredPollution ix).singletonPatches = ix.singletonPatches := by
    intro defs
    induction defs with
    | nil => exact fun _ ↦ rfl
    | cons d rest ih => exact fun ix ↦ ih _
  have hdeclared : ∀ (frags : List ClassFragment) (ix : ProjectIndex),
      (frags.foldl mergeDeclaredFragment ix).singletonPatches = ix.singletonPatches := by
    intro frags
    induction frags with
    | nil => exact fun _ ↦ rfl
    | cons frag rest ih =>
      intro ix
      rw [List.foldl_cons, ih]
      unfold mergeDeclaredFragment intern
      cases ix.byPath.lookup frag.path with
      | none => rfl
      | some id => rfl
  unfold mergeInput
  rw [hdeclared, hignored]

/-- What a fragment of a project file records is in the class of its path. -/
theorem buildIndex_holds {input : BuildInput} (hfiles : FilesGrounded input.files)
    {ix : ProjectIndex} (h : (buildIndex input).Returns ix) {entry : SourceFile × FileDefs}
    (hentry : entry ∈ input.files) {frag : ClassFragment} (hfrag : frag ∈ entry.2.fragments)
    {id : ClassId} (hid : ix.byPath.lookup frag.path = some id) :
    (ix.classOf id).Holds frag := by
  have hgrows := buildIndex_grows hfiles h
  obtain ⟨merged, hmerged, hbuild⟩ := Fueled.returns_bind.mp h
  obtain ⟨edges, -, hbuild⟩ := Fueled.returns_bind.mp hbuild
  obtain rfl := Fueled.returns_pure.mp hbuild
  have hholds : (applyPasses input merged).HoldsAt frag frag.path := by
    cases hheld : frag.declaredOwnerRequired with
    | false =>
      exact hgrows.holdsAt (mergeFiles_holdsAt hfiles hentry hfrag hheld)
    | true =>
      have hstart := mergeFiles_grows {} hfiles
      have hsame := reconcileSuperclasses_sameBodies hmerged
      have hreconciled := (mergeInput_grows input).trans hsame.grows
      have hbefore := hreconciled.trans (merged.beforePatches_grows input)
      have hkeys := merged.beforePatches_sameKeys input
      have hmem : (entry.1, frag) ∈ (beforePatches input merged).singletonPatches := by
        rw [hkeys.singletonPatches, hsame.singletonPatches, mergeInput_singletonPatches,
          mergeFiles_singletonPatches]
        refine List.mem_append_right _ (List.mem_flatMap.mpr ⟨entry, hentry, ?_⟩)
        exact List.mem_map.mpr ⟨frag, List.mem_filter.mpr ⟨hfrag, hheld⟩, rfl⟩
      have hid' : (beforePatches input merged).byPath.lookup frag.path = some id := by
        rw [← applySingletonPatches_byPath, ← afterPatches_byPath _ input]
        exact hid
      rw [applyPasses_eq]
      exact (afterPatches_grows _ input).holdsAt
        (applySingletonPatches_holdsAt (hbefore.wellKeyed (hstart.wellKeyed empty_wellKeyed))
          (hbefore.patches (hstart.patches empty_patchesGrounded)) hmem hheld hid')
  obtain ⟨id', hid', hholds⟩ := hholds
  obtain rfl : id' = id := Option.some.inj (hid'.symm.trans hid)
  exact hholds

end ProjectIndex

end Itaruby
