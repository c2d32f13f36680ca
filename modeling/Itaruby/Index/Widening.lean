import Itaruby.Index.Growth
import Itaruby.Index.Softening

/-!
A build that is told of more gems and more ignored files. Both only open classes,
and every pass between the two keeps the narrower and the wider table apart by
openness alone, so the wider build reports nothing that the narrower one does not.
-/

set_option autoImplicit false
set_option relaxedAutoImplicit false

namespace Itaruby

/-- The reasons a pass opens classes for. -/
def OpenReason.Late (reason : OpenReason) : Prop :=
  reason ≠ .abstractRaise ∧ reason ≠ .declaredExternal

instance (reason : OpenReason) : Decidable reason.Late := inferInstanceAs (Decidable (_ ∧ _))

/-- The second input has the same project; it may know more gems and ignore more files. -/
structure BuildInput.Widens (input input' : BuildInput) : Prop where
  files : input'.files = input.files
  declared : input'.declared = input.declared
  schema : input'.schema = input.schema
  ignored : input.ignored ⊆ input'.ignored
  gemNamespaces : ∀ namespaces, input.gemNamespaces = some namespaces →
    ∃ namespaces', input'.gemNamespaces = some namespaces' ∧ namespaces ⊆ namespaces'

theorem mergeOpenReason_of_opaque {c : ClassDef} (h : c.Opaque) (incoming : Option OpenReason) :
    mergeOpenReason c.openReason incoming = c.openReason := by
  obtain ⟨-, r, hr, hne⟩ := h
  rw [hr]
  exact mergeOpenReason_strong hne incoming

/-- A patch by name leaves the reason of an opaque class alone. -/
theorem ClassDef.Softer.patchClass {c c' : ClassDef} (h : c.Softer c') (frag : ClassFragment)
    (file : SourceFile) :
    (ProjectIndex.patchClass c frag file).Softer (ProjectIndex.patchClass c' frag file) := by
  have hopen : ∀ c : ClassDef, (ProjectIndex.patchClass c frag file).isOpen =
      (c.isOpen || frag.isOpen) := fun _ ↦ rfl
  have hreason : ∀ c : ClassDef, (ProjectIndex.patchClass c frag file).openReason =
      if frag.isOpen then mergeOpenReason c.openReason frag.openReason else c.openReason :=
    fun _ ↦ rfl
  obtain ⟨grounds, heq⟩ := h.same
  have hsame : ProjectIndex.patchClass c' frag file =
      (ProjectIndex.patchClass c frag file).withOpenness
        (ProjectIndex.patchClass c' frag file).isOpen
        (ProjectIndex.patchClass c' frag file).openReason (grounds ++ frag.grounds) := by
    conv_lhs => rw [heq]
    rfl
  rcases h.opens with ⟨hopen', hreason'⟩ | hsealed
  · have hopens : (ProjectIndex.patchClass c' frag file).isOpen =
        (ProjectIndex.patchClass c frag file).isOpen := by rw [hopen, hopen, hopen']
    have hreasons : (ProjectIndex.patchClass c' frag file).openReason =
        (ProjectIndex.patchClass c frag file).openReason := by rw [hreason, hreason, hreason']
    exact ⟨⟨_, hsame⟩, .inl ⟨hopens, hreasons⟩, fun ho hr ↦ ⟨hopens ▸ ho, hreasons ▸ hr⟩⟩
  · have hkept : (ProjectIndex.patchClass c' frag file).openReason = c'.openReason := by
      rw [hreason, mergeOpenReason_of_opaque hsealed, ite_self]
    refine ⟨⟨_, hsame⟩, .inr ⟨?_, ?_⟩, fun _ hdeclared ↦ ?_⟩
    · rw [hopen, hsealed.1, Bool.true_or]
    · rw [hkept]
      exact hsealed.2
    · obtain ⟨hco, hcr⟩ := h.declared hsealed.1 (hkept ▸ hdeclared)
      have hc : c.Opaque := ⟨hco, _, hcr, by decide⟩
      refine ⟨by rw [hopen, hco, Bool.true_or], ?_⟩
      rw [hreason, mergeOpenReason_of_opaque hc, ite_self, hcr]

namespace ProjectIndex

namespace Softer

variable {ix ix' : ProjectIndex}

/-! ### Edits of one class -/

theorem modifyClass (h : ix.Softer ix') (id : ClassId) {f f' : ClassDef → ClassDef}
    (hf : (f (ix.classOf id)).Softer (f' (ix'.classOf id))) :
    (ix.modifyClass id f).Softer (ix'.modifyClass id f') := by
  refine { h with length := ?_, classOf := fun a ↦ ?_ }
  · simpa [ProjectIndex.modifyClass] using h.length
  · rw [classOf_modifyClass, classOf_modifyClass, h.length]
    split_ifs with ha
    · rw [ha.1]
      exact hf
    · exact h.classOf a

theorem editClass (h : ix.Softer ix') (id : ClassId) {f : ClassDef → ClassDef}
    (hf : ∀ c isOpen openReason grounds, f (c.withOpenness isOpen openReason grounds) =
      (f c).withOpenness isOpen openReason grounds) :
    (ix.modifyClass id f).Softer (ix'.modifyClass id f) :=
  h.modifyClass id ((h.classOf id).edit hf)

theorem foldl {α : Type} {step step' : ProjectIndex → α → ProjectIndex}
    (hstep : ∀ ix ix' : ProjectIndex, ix.Softer ix' → ∀ a, (step ix a).Softer (step' ix' a))
    (h : ix.Softer ix') (l : List α) : (l.foldl step ix).Softer (l.foldl step' ix') := by
  induction l generalizing ix ix' with
  | nil => exact h
  | cons a l ih => exact ih (hstep ix ix' h a)

end Softer

/-! ### Opening -/

def AllGrounded (ix : ProjectIndex) : Prop := ∀ id, (ix.classOf id).GroundedClass

theorem AllGrounded.of_grows {ix ix' : ProjectIndex} (h : ix.AllGrounded) (hgrows : ix.Grows ix') :
    ix'.AllGrounded :=
  fun id ↦ (hgrows.classOf id).grounded (h id)

section Opening

variable {ix ix' : ProjectIndex} {reason : OpenReason}

theorem openEach_length (ix : ProjectIndex) (ids : List ClassId) (reason : OpenReason) :
    (ix.openEach ids reason).classes.length = ix.classes.length := by
  induction ids generalizing ix with
  | nil => rfl
  | cons id ids ih => exact (ih (ix.mergeOpen id reason)).trans (List.length_modify _ _ _)

theorem opaque_of_openEach {id : ClassId} (h : (ix.classOf id).Opaque) (ids : List ClassId)
    (reason : OpenReason) : ((ix.openEach ids reason).classOf id).Opaque := by
  induction ids generalizing ix with
  | nil => exact h
  | cons other ids ih =>
    have hother : ((ix.mergeOpen other reason).classOf id).Opaque := by
      rw [mergeOpen, classOf_modifyClass]
      split_ifs
      · exact h.openFor reason
      · exact h
    exact ih hother

theorem opaque_openEach (hreason : reason.Late) {ids : List ClassId} {id : ClassId}
    (hid : id ∈ ids) (hlt : id < ix.classes.length) :
    ((ix.openEach ids reason).classOf id).Opaque := by
  obtain ⟨before, after, rfl⟩ := List.append_of_mem hid
  rw [openEach, List.foldl_append, List.foldl_cons]
  have hopen : (((ix.openEach before reason).mergeOpen id reason).classOf id).Opaque := by
    rw [mergeOpen, classOf_modifyClass, openEach_length, if_pos ⟨rfl, hlt⟩]
    exact ClassDef.opaque_openFor _ hreason.1
  exact opaque_of_openEach hopen after reason

theorem softer_openEach (hreason : reason.Late) (hix : ix.AllGrounded) (ids : List ClassId) :
    ix.Softer (ix.openEach ids reason) := by
  induction ids generalizing ix with
  | nil => exact .refl ix
  | cons id ids ih =>
    have hopen : ix.Softer (ix.mergeOpen id reason) := by
      refine { Softer.refl ix with length := List.length_modify _ _ _, classOf := fun a ↦ ?_ }
      rw [mergeOpen, classOf_modifyClass]
      split_ifs
      · exact .openFor_right (hix a) hreason.1 hreason.2
      · exact .refl _
    exact hopen.trans (ih (hix.of_grows (ix.mergeOpen_grows id reason)))

theorem Softer.openEach_left (h : ix.Softer ix') (hreason : reason.Late) {ids : List ClassId}
    (hids : ∀ id ∈ ids, id < ix.classes.length → (ix'.classOf id).Opaque) :
    (ix.openEach ids reason).Softer ix' := by
  induction ids generalizing ix with
  | nil => exact h
  | cons id ids ih =>
    have hopen : (ix.mergeOpen id reason).Softer ix' := by
      refine { h with length := ?_, classOf := fun a ↦ ?_ }
      · exact h.length.trans (List.length_modify _ _ _).symm
      · rw [mergeOpen, classOf_modifyClass]
        split_ifs with ha
        · exact (h.classOf a).openFor_left
            (hids a (ha.1 ▸ List.mem_cons_self) ha.2) hreason.2
        · exact h.classOf a
    refine ih hopen fun a ha hlt ↦ hids a (List.mem_cons_of_mem _ ha) ?_
    exact hlt.trans_eq (List.length_modify _ _ _)

/-- Opening more classes on the second side. -/
theorem Softer.openEach (h : ix.Softer ix') (hreason : reason.Late) (hix' : ix'.AllGrounded)
    {ids ids' : List ClassId} (hsub : ids ⊆ ids') :
    (ix.openEach ids reason).Softer (ix'.openEach ids' reason) :=
  (h.trans (softer_openEach hreason hix' ids')).openEach_left hreason fun _ hid hlt ↦
    opaque_openEach hreason (hsub hid) (hlt.trans_eq h.length.symm)

end Opening

/-! ### One pass on two tables -/

section Passes

variable {ix ix' : ProjectIndex} (h : ix.Softer ix')

include h

theorem Softer.idsWhere (p : ConstPath → Bool) : ix'.idsWhere p = ix.idsWhere p := by
  rw [ProjectIndex.idsWhere, h.byPath, ProjectIndex.idsWhere]

theorem Softer.mergeSchemaDeclarations (schema : Option Schema) :
    (ix.mergeSchemaDeclarations schema).Softer (ix'.mergeSchemaDeclarations schema) := by
  cases schema with
  | none => exact h
  | some schema =>
    refine { h with length := ?_, classOf := fun id ↦ ?_ }
    · simpa [ProjectIndex.mergeSchemaDeclarations] using h.length
    · rw [classOf_mergeSchemaDeclarations, classOf_mergeSchemaDeclarations, h.length]
      split_ifs
      · refine (h.classOf id).edit fun c isOpen openReason grounds ↦ ?_
        have htable : schemaTableOf schema (c.withOpenness isOpen openReason grounds) =
            schemaTableOf schema c := rfl
        rw [addSchemaAttributes, htable, addSchemaAttributes]
        cases schemaTableOf schema c with
        | none => rfl
        | some columns => rfl
      · exact h.classOf id

theorem Softer.isStringSourceStub : ix'.isStringSourceStub = ix.isStringSourceStub := by
  funext id
  unfold ProjectIndex.isStringSourceStub
  simp only [(h.classOf id).methods, (h.classOf id).singletonMethods,
    (h.classOf id).sameShape.path, h.stringSourceConsts]

theorem Softer.concernEdge : ix'.concernEdge = ix.concernEdge := by
  funext id
  unfold ProjectIndex.concernEdge
  dsimp only
  rw [(h.classOf id).extends', (h.classOf id).sameShape.path, h.byPath]

theorem Softer.addExtends (edge : ClassId × ConstPath) :
    (ix.addExtends edge).Softer (ix'.addExtends edge) := by
  refine h.editClass edge.1 fun c isOpen openReason grounds ↦ ?_
  change (if edge.2 ∈ c.extends' then _ else _) = _
  split_ifs
  · rfl
  · rfl

theorem Softer.applyConcernClassMethods :
    ix.applyConcernClassMethods.Softer ix'.applyConcernClassMethods := by
  unfold ProjectIndex.applyConcernClassMethods
  rw [h.concernEdge, h.length]
  exact h.foldl (fun _ _ h edge ↦ h.addExtends edge) _

theorem Softer.resolveQualifiedWrite (write : ConstPath × String) :
    (ix.resolveQualifiedWrite write).Softer (ix'.resolveQualifiedWrite write) := by
  have hlookup : ix'.byPath.lookup write.1 = ix.byPath.lookup write.1 := by rw [h.byPath]
  unfold ProjectIndex.resolveQualifiedWrite
  rw [hlookup]
  cases ix.byPath.lookup write.1 with
  | some id => exact h.editClass id fun _ _ _ _ ↦ rfl
  | none => exact { h with toplevelConsts := by simp only [h.toplevelConsts] }

theorem Softer.applySingletonPatches :
    ix.applySingletonPatches.Softer ix'.applySingletonPatches := by
  have hpatch : ∀ ix ix' : ProjectIndex, ix.Softer ix' → ∀ patch,
      (ix.applySingletonPatch patch).Softer (ix'.applySingletonPatch patch) := by
    intro ix ix' h patch
    unfold ProjectIndex.applySingletonPatch
    rw [h.byPath]
    cases ix.byPath.lookup patch.2.path with
    | some id => exact h.modifyClass id ((h.classOf id).patchClass patch.2 patch.1)
    | none => exact h
  have hfold := h.foldl hpatch ix.singletonPatches
  unfold ProjectIndex.applySingletonPatches
  rw [h.singletonPatches]
  exact { hfold with singletonPatches := rfl }

theorem Softer.attributedMixinReceivers :
    ix'.attributedMixinReceivers = ix.attributedMixinReceivers := by
  have hcandidates : ix'.candidatePaths = ix.candidatePaths := by
    funext receiver
    cases receiver with
    | path path nesting => rfl
    | call method =>
      change (ix'.constReturningMethods.lookup method).getD [] = _
      rw [h.constReturningMethods]
      rfl
  have hedge : ix'.edgeReceivers = ix.edgeReceivers := by
    funext edge
    unfold ProjectIndex.edgeReceivers
    simp only [h.sameShape.resolveConst, (h.classOf _).defines, hcandidates]
  unfold ProjectIndex.attributedMixinReceivers
  rw [h.attributedMixinRaw, hedge]

theorem Softer.extendEdges : ix'.extendEdges = ix.extendEdges := by
  unfold ProjectIndex.extendEdges
  simp only [h.length, (h.classOf _).extends', (h.classOf _).sameShape.nesting,
    h.sameShape.resolveConst]

theorem Softer.isNamespaceOnly : ix'.isNamespaceOnly = ix.isNamespaceOnly := by
  funext path
  unfold ProjectIndex.isNamespaceOnly carriesOwnSurface
  simp only [h.byPath, (h.classOf _).isModule, (h.classOf _).methods,
    (h.classOf _).singletonMethods, (h.classOf _).sameShape.includes,
    (h.classOf _).sameShape.prepends, (h.classOf _).extends']

/-! ### The reconciliation of headers -/

theorem Softer.conflictingConstScope (nesting : List ConstPath) :
    ix'.conflictingConstScope nesting = ix.conflictingConstScope nesting := by
  rw [ProjectIndex.conflictingConstScope, h.byPath, h.ambiguousAncestry,
    ProjectIndex.conflictingConstScope]

theorem Softer.superclassHeadersAreAmbiguous (id : ClassId) (headers : List Header) :
    ix'.superclassHeadersAreAmbiguous id headers = ix.superclassHeadersAreAmbiguous id headers := by
  have hdisagrees : ∀ (first : Header) (target : Option ClassId),
      ix'.headerDisagrees id first target = ix.headerDisagrees id first target := by
    intro first target
    funext header
    unfold headerDisagrees
    rw [h.sameShape.ancestorChain, h.sameShape.resolveSuperclassHeader]
  unfold ProjectIndex.superclassHeadersAreAmbiguous superclassHeaderIsAmbiguous
  simp only [h.conflictingConstScope, h.sameShape.resolveSuperclassLexical,
    h.sameShape.ancestorChain, h.sameShape.resolveSuperclassHeader, hdisagrees]

theorem Softer.conflicts (seen : Finset ClassId) (declarations : List (ClassId × List Header)) :
    ix'.conflicts seen declarations = ix.conflicts seen declarations := by
  have hconflict : ix'.headersConflict seen = ix.headersConflict seen := by
    funext entry
    unfold headersConflict
    rw [h.superclassHeadersAreAmbiguous]
  rw [ProjectIndex.conflicts, hconflict, ProjectIndex.conflicts]

theorem Softer.dropSuperclass (id : ClassId) :
    (ix.dropSuperclass id).Softer (ix'.dropSuperclass id) := by
  have hclass := h.editClass id (f := fun c ↦ { c with superclass := none }) fun _ _ _ _ ↦ rfl
  exact { hclass with ambiguousAncestry := congrArg (insert id) h.ambiguousAncestry }

theorem Softer.propagateAncestryConflicts :
    Fueled.Simulates (fun r r' ↦ r.1.Softer r'.1 ∧ r'.2 = r.2)
      ix.propagateAncestryConflicts ix'.propagateAncestryConflicts := by
  have haffected : ix'.isAffected = ix.isAffected := by
    funext id
    unfold isAffected
    rw [h.ambiguousAncestry, h.sameShape.ancestorChain]
  have hentries : ix'.byPath.entries = ix.byPath.entries := by rw [h.byPath]
  unfold ProjectIndex.propagateAncestryConflicts
  rw [h.ambiguousAncestry, haffected, hentries]
  split_ifs
  · exact .pure ⟨h, rfl⟩
  · refine Fueled.Simulates.bind_same _ fun hits ↦ .pure ⟨?_, rfl⟩
    exact { h with ambiguousAncestry := rfl }

end Passes

theorem Softer.reconcileRound {declarations : List (ClassId × List Header)}
    {st st' : ProjectIndex × Finset ClassId} (h : st.1.Softer st'.1) (hseen : st'.2 = st.2) :
    Fueled.Simulates
      (Sum.LiftRel (fun st st' ↦ st.1.Softer st'.1 ∧ st'.2 = st.2) Softer)
      (ProjectIndex.reconcileRound declarations st)
      (ProjectIndex.reconcileRound declarations st') := by
  unfold ProjectIndex.reconcileRound
  rw [hseen, h.conflicts]
  refine Fueled.Simulates.bind_same _ fun found ↦ ?_
  have hdropped := h.foldl (fun _ _ h id ↦ h.dropSuperclass id) found
  refine hdropped.propagateAncestryConflicts.bind fun r r' hr ↦ ?_
  dsimp only
  rw [hr.2]
  split_ifs
  · exact .pure (.inl ⟨hr.1, rfl⟩)
  · exact .pure (.inr hr.1)

theorem Softer.reconcileSuperclasses {ix ix' : ProjectIndex} (h : ix.Softer ix') :
    Fueled.Simulates Softer ix.reconcileSuperclasses ix'.reconcileSuperclasses := by
  unfold ProjectIndex.reconcileSuperclasses declarationList
  rw [h.superclassDeclarations]
  refine Fueled.simulates_iterate (fun st st' hst ↦ Softer.reconcileRound hst.1 hst.2) ⟨?_, rfl⟩
  exact { h with superclassDeclarations := rfl }

theorem Softer.buildSubclassMap {ix ix' : ProjectIndex} (h : ix.Softer ix') :
    Fueled.Simulates Softer ix.buildSubclassMap ix'.buildSubclassMap := by
  have hedges : ∀ ids, ix'.subclassEdges ids = ix.subclassEdges ids := by
    intro ids
    induction ids with
    | nil => rfl
    | cons child rest ih =>
      rw [subclassEdges, subclassEdges, h.sameShape.superclassOf, ih]
  unfold ProjectIndex.buildSubclassMap
  rw [h.length, hedges]
  refine Fueled.Simulates.bind_same _ fun edges ↦ .pure ?_
  exact { h with subclasses := by rw [h.subclasses] }

/-! ### Two builds -/

/-- Two tables apart by openness that record the same reasons. -/
structure Beside (ix ix' : ProjectIndex) : Prop where
  softer : ix.Softer ix'
  openReason : ∀ id, (ix'.classOf id).openReason = (ix.classOf id).openReason

namespace Beside

variable {ix ix' : ProjectIndex}

theorem mergeIgnoredPollution_right (h : ix.Beside ix') (ignored : List FileDefs) :
    ix.Beside (ignored.foldl ProjectIndex.mergeIgnoredPollution ix') := by
  induction ignored generalizing ix' with
  | nil => exact h
  | cons defs ignored ih => exact ih ⟨{ h.softer with length := h.softer.length }, h.openReason⟩

theorem mergeIgnoredPollution_left (h : ix.Beside ix') (ignored : List FileDefs) :
    (ignored.foldl ProjectIndex.mergeIgnoredPollution ix).Beside ix' := by
  induction ignored generalizing ix with
  | nil => exact h
  | cons defs ignored ih => exact ih ⟨{ h.softer with length := h.softer.length }, h.openReason⟩

theorem addClass (h : ix.Beside ix') (path : ConstPath) :
    (ix.addClass path).Beside (ix'.addClass path) := by
  refine ⟨{ h.softer with length := ?_, classOf := fun id ↦ ?_, byPath := ?_ }, fun id ↦ ?_⟩
  · simp [ProjectIndex.addClass, h.softer.length]
  · rw [classOf_addClass, classOf_addClass, h.softer.length]
    split_ifs
    · exact .refl _
    · exact h.softer.classOf id
  · rw [ProjectIndex.addClass, h.softer.length, h.softer.byPath]
    rfl
  · rw [classOf_addClass, classOf_addClass, h.softer.length]
    split_ifs
    · rfl
    · exact h.openReason id

theorem mergeDeclaredFragment (h : ix.Beside ix') (frag : ClassFragment) :
    (ix.mergeDeclaredFragment frag).Beside (ix'.mergeDeclaredFragment frag) := by
  unfold ProjectIndex.mergeDeclaredFragment intern
  rw [h.softer.byPath]
  cases ix.byPath.lookup frag.path with
  | some id => exact h
  | none =>
    dsimp only
    rw [h.softer.length]
    have hadd := h.addClass frag.path
    refine ⟨hadd.softer.modifyClass _ ?_, fun id ↦ ?_⟩
    · obtain ⟨grounds, heq⟩ := (hadd.softer.classOf ix.classes.length).same
      rw [heq]
      exact ⟨⟨_, rfl⟩, .inl ⟨rfl, rfl⟩, fun _ _ ↦ ⟨rfl, rfl⟩⟩
    · rw [classOf_modifyClass, classOf_modifyClass, hadd.softer.length]
      split_ifs
      · rfl
      · exact hadd.openReason id

theorem mergeDeclared (h : ix.Beside ix') (declared : List ClassFragment) :
    (declared.foldl ProjectIndex.mergeDeclaredFragment ix).Beside
      (declared.foldl ProjectIndex.mergeDeclaredFragment ix') := by
  induction declared generalizing ix ix' with
  | nil => exact h
  | cons frag declared ih => exact ih (h.mergeDeclaredFragment frag)

end Beside

theorem mergeInput_beside {input input' : BuildInput} (h : input.Widens input') :
    (mergeInput input).Beside (mergeInput input') := by
  unfold mergeInput
  rw [h.files, h.declared]
  have hfiles : (({} : ProjectIndex).mergeFiles input.files).Beside
      (({} : ProjectIndex).mergeFiles input.files) := ⟨.refl _, fun _ ↦ rfl⟩
  exact ((hfiles.mergeIgnoredPollution_left input.ignored).mergeIgnoredPollution_right
    input'.ignored).mergeDeclared input.declared

section Passes

variable {ix ix' : ProjectIndex}

theorem softer_applyMockSingletonSurface (ix : ProjectIndex) (namespaces : Finset String) :
    ix.Softer (ix.applyMockSingletonSurface namespaces) ∧
      (ix.applyMockSingletonSurface namespaces).Softer ix := by
  unfold applyMockSingletonSurface
  by_cases h : "rspecmocks" ∈ namespaces ∨ "mocha" ∈ namespaces
  · rw [if_pos h]
    exact ⟨{ Softer.refl ix with length := rfl }, { Softer.refl ix with length := rfl }⟩
  · rw [if_neg h]
    exact ⟨.refl ix, .refl ix⟩

/-- The classes that the lock file's namespaces open. -/
def gemReopened (ix : ProjectIndex) : Option (Finset String) → List ClassId
  | some namespaces => ix.idsWhere fun path ↦ gemNamespaceKey (path.headD "") ∈ namespaces
  | none => []

theorem softer_applyGemNamespaces (ix : ProjectIndex) (namespaces : Option (Finset String)) :
    (ix.openEach (ix.gemReopened namespaces) .reopenedExternal).Softer
        (ix.applyGemNamespaces namespaces) ∧
      (ix.applyGemNamespaces namespaces).Softer
        (ix.openEach (ix.gemReopened namespaces) .reopenedExternal) := by
  cases namespaces with
  | none => exact ⟨.refl ix, .refl ix⟩
  | some namespaces => exact softer_applyMockSingletonSurface _ namespaces

theorem mem_idsWhere {p : ConstPath → Bool} {id : ClassId} :
    id ∈ ix.idsWhere p ↔ ∃ path, p path = true ∧ (⟨path, id⟩ : Sigma _) ∈ ix.byPath.entries := by
  unfold ProjectIndex.idsWhere
  simp only [List.mem_map, List.mem_filter]
  constructor
  · rintro ⟨⟨path, found⟩, ⟨hmem, hp⟩, rfl⟩
    exact ⟨path, hp, hmem⟩
  · rintro ⟨path, hp, hmem⟩
    exact ⟨_, ⟨hmem, hp⟩, rfl⟩

theorem Softer.idsWhere_subset (h : ix.Softer ix') {p p' : ConstPath → Bool}
    (hp : ∀ path, p path = true → p' path = true) : ix.idsWhere p ⊆ ix'.idsWhere p' := by
  intro id hid
  obtain ⟨path, hpath, hmem⟩ := mem_idsWhere.mp hid
  exact mem_idsWhere.mpr ⟨path, hp path hpath, h.byPath ▸ hmem⟩

theorem Softer.gemReopened_subset (h : ix.Softer ix')
    {namespaces namespaces' : Option (Finset String)}
    (hsub : ∀ names, namespaces = some names →
      ∃ names', namespaces' = some names' ∧ names ⊆ names') :
    ix.gemReopened namespaces ⊆ ix'.gemReopened namespaces' := by
  cases namespaces with
  | none => exact List.nil_subset _
  | some names =>
    obtain ⟨names', rfl, hnames⟩ := hsub names rfl
    unfold gemReopened
    refine h.idsWhere_subset fun path hpath ↦ ?_
    simp only [decide_eq_true_eq] at hpath ⊢
    exact hnames hpath

/-! A curated class stays one through the passes before the namespaces are judged. -/

theorem declared_openEach_iff {reason : OpenReason} (hreason : reason.Late) (ids : List ClassId)
    (id : ClassId) : ((ix.openEach ids reason).classOf id).openReason = some .declaredExternal ↔
      (ix.classOf id).openReason = some .declaredExternal := by
  induction ids generalizing ix with
  | nil => rfl
  | cons other ids ih =>
    have hother : ((ix.mergeOpen other reason).classOf id).openReason = some .declaredExternal ↔
        (ix.classOf id).openReason = some .declaredExternal := by
      rw [mergeOpen, classOf_modifyClass]
      split_ifs
      · exact ClassDef.declared_openFor_iff _ hreason.2
      · rfl
    exact ih.trans hother

theorem openReason_mergeSchemaDeclarations (schema : Option Schema) (id : ClassId) :
    ((ix.mergeSchemaDeclarations schema).classOf id).openReason = (ix.classOf id).openReason := by
  cases schema with
  | none => rfl
  | some schema =>
    rw [classOf_mergeSchemaDeclarations]
    split_ifs
    · unfold addSchemaAttributes
      cases schemaTableOf schema (ix.classOf id) with
      | none => rfl
      | some columns => rfl
    · rfl

theorem declared_applyGemNamespaces_iff (namespaces : Option (Finset String)) (id : ClassId) :
    ((ix.applyGemNamespaces namespaces).classOf id).openReason = some .declaredExternal ↔
      (ix.classOf id).openReason = some .declaredExternal := by
  have hmock : ∀ (ix : ProjectIndex) names,
      (ix.applyMockSingletonSurface names).classOf id = ix.classOf id := by
    intro ix names
    unfold applyMockSingletonSurface
    split_ifs <;> rfl
  cases namespaces with
  | none => rfl
  | some names =>
    change (((ix.applyGemReopenings names).applyMockSingletonSurface names).classOf id).openReason =
      _ ↔ _
    rw [hmock]
    exact declared_openEach_iff (by decide) _ id

theorem Softer.undeclaredNamespace (h : ix.Softer ix')
    (hdeclared : ∀ id, (ix.classOf id).openReason = some .declaredExternal →
      (ix'.classOf id).openReason = some .declaredExternal) (path : ConstPath)
    (hpath : ix.undeclaredNamespace path = true) : ix'.undeclaredNamespace path = true := by
  unfold ProjectIndex.undeclaredNamespace at hpath ⊢
  rw [h.byPath]
  split at hpath
  · next top second rest =>
    cases htop : ix.byPath.lookup [top] with
    | none => rfl
    | some id =>
      simp only [htop, beq_iff_eq] at hpath ⊢
      exact hdeclared id hpath
  · exact absurd hpath (by simp)

end Passes

/-- Two tables apart by openness while the passes run; the wider one keeps its record. -/
structure Staged (ix ix' : ProjectIndex) : Prop where
  softer : ix.Softer ix'
  grounded : ix'.AllGrounded
  patches : ix'.PatchesGrounded

namespace Staged

variable {ix ix' jx jx' : ProjectIndex} (h : ix.Staged ix')

include h

theorem step (hsofter : jx.Softer jx') (hgrows : ix'.Grows jx') : jx.Staged jx' :=
  ⟨hsofter, h.grounded.of_grows hgrows, hgrows.patches h.patches⟩

theorem openEach {reason : OpenReason} (hreason : reason.Late) {ids ids' : List ClassId}
    (hsub : ids ⊆ ids') : (ix.openEach ids reason).Staged (ix'.openEach ids' reason) :=
  h.step (h.softer.openEach hreason h.grounded hsub) (ix'.openEach_grows ids' reason)

theorem applyGemNamespaces {namespaces namespaces' : Option (Finset String)}
    (hsub : ∀ names, namespaces = some names →
      ∃ names', namespaces' = some names' ∧ names ⊆ names') :
    (ix.applyGemNamespaces namespaces).Staged (ix'.applyGemNamespaces namespaces') := by
  have hopen := h.softer.openEach (by decide : OpenReason.Late .reopenedExternal) h.grounded
    (h.softer.gemReopened_subset hsub)
  refine h.step ?_ (ix'.applyGemNamespaces_grows namespaces')
  exact ((softer_applyGemNamespaces ix namespaces).2.trans hopen).trans
    (softer_applyGemNamespaces ix' namespaces').1

theorem applyStringSourceDefinitions :
    ix.applyStringSourceDefinitions.Staged ix'.applyStringSourceDefinitions := by
  have hopen := h.openEach (by decide : OpenReason.Late .stringSourceDefined) (List.Subset.refl
    ((List.range ix.classes.length).filter ix.isStringSourceStub))
  unfold ProjectIndex.applyStringSourceDefinitions
  rw [h.softer.length, h.softer.isStringSourceStub]
  exact ⟨{ hopen.softer with stringSourceConsts := rfl }, hopen.grounded, hopen.patches⟩

theorem applyAttributedMixinEdges :
    ix.applyAttributedMixinEdges.Staged ix'.applyAttributedMixinEdges := by
  have hopen := h.openEach (by decide : OpenReason.Late .methodMissing)
    (List.Subset.refl ix.attributedMixinReceivers)
  unfold ProjectIndex.applyAttributedMixinEdges
  rw [h.softer.attributedMixinReceivers]
  exact ⟨{ hopen.softer with attributedMixinRaw := rfl }, hopen.grounded, hopen.patches⟩

theorem applyLoadHookOpenness :
    ix.applyLoadHookOpenness.Staged ix'.applyLoadHookOpenness := by
  have hopen := h.openEach (by decide : OpenReason.Late .evalOrSend) (List.Subset.refl
    (ix.loadHookRaw.filterMap fun r ↦ ix.resolveConst r.2 r.1))
  unfold ProjectIndex.applyLoadHookOpenness
  rw [h.softer.loadHookRaw]
  simp only [h.softer.sameShape.resolveConst]
  exact ⟨{ hopen.softer with loadHookRaw := rfl }, hopen.grounded, hopen.patches⟩

theorem applyOneExtendedHook (edge : ClassId × ClassId) :
    (ix.applyOneExtendedHook edge).Staged (ix'.applyOneExtendedHook edge) := by
  obtain ⟨grounds, heq⟩ := (h.softer.classOf edge.2).same
  have hinstalls : installFrom (ix'.classOf edge.2) = installFrom (ix.classOf edge.2) := by
    rw [heq]
    rfl
  have hsealed : (ix'.classOf edge.2).hookInstallsOpaque =
      (ix.classOf edge.2).hookInstallsOpaque := by
    rw [heq]
    rfl
  have hinstalled := h.step
    (h.softer.editClass edge.1 (f := installFrom (ix.classOf edge.2)) fun _ _ _ _ ↦ rfl)
    (ix'.modifyClass_grows edge.1 (fun _ ↦ rfl) (ClassDef.installFrom_grows _))
  unfold ProjectIndex.applyOneExtendedHook
  dsimp only
  rw [hinstalls, hsealed]
  split_ifs
  · exact hinstalled.openEach (by decide) (List.Subset.refl [edge.1])
  · exact hinstalled

theorem applyExtendedHooks : ix.applyExtendedHooks.Staged ix'.applyExtendedHooks := by
  have hfold : ∀ (edges : List (ClassId × ClassId)) (ix ix' : ProjectIndex), ix.Staged ix' →
      (edges.foldl ProjectIndex.applyOneExtendedHook ix).Staged
        (edges.foldl ProjectIndex.applyOneExtendedHook ix') := by
    intro edges
    induction edges with
    | nil => exact fun _ _ h ↦ h
    | cons edge edges ih => exact fun _ _ h ↦ ih _ _ (h.applyOneExtendedHook edge)
  unfold ProjectIndex.applyExtendedHooks
  rw [h.softer.extendEdges]
  exact hfold _ ix ix' h

theorem applyNamespaceOnlyModules :
    ix.applyNamespaceOnlyModules.Staged ix'.applyNamespaceOnlyModules := by
  unfold ProjectIndex.applyNamespaceOnlyModules
  rw [h.softer.idsWhere, h.softer.isNamespaceOnly]
  exact h.openEach (by decide) (List.Subset.refl _)

end Staged

/-! ### The ignored files -/

/-- The classes that fragments of ignored files reopen. -/
def ignoredReopened (ix : ProjectIndex) (frags : List ClassFragment) : List ClassId :=
  frags.filterMap fun frag ↦ ix.byPath.lookup frag.path

theorem openEach_evalPollutedCore (ix : ProjectIndex) (polluted : Finset ConstPath)
    (ids : List ClassId) (reason : OpenReason) :
    ({ ix with evalPollutedCore := polluted }).openEach ids reason =
      { ix.openEach ids reason with evalPollutedCore := polluted } := by
  induction ids generalizing ix with
  | nil => rfl
  | cons id ids ih => exact ih (ix.mergeOpen id reason)

theorem exists_foldl_applyIgnoredFragment (ix : ProjectIndex) (frags : List ClassFragment) :
    ∃ polluted, frags.foldl applyIgnoredFragment ix =
      { ix.openEach (ix.ignoredReopened frags) .ignoredReopening with
        evalPollutedCore := polluted } := by
  induction frags generalizing ix with
  | nil => exact ⟨_, rfl⟩
  | cons frag frags ih =>
    rw [List.foldl_cons, ignoredReopened]
    obtain ⟨polluted, heq⟩ := ih (ix.applyIgnoredFragment frag)
    refine ⟨polluted, heq.trans ?_⟩
    unfold applyIgnoredFragment
    cases hlookup : ix.byPath.lookup frag.path with
    | none =>
      rw [openEach_evalPollutedCore]
      simp only [List.filterMap_cons, hlookup]
      rfl
    | some id =>
      rw [openEach_evalPollutedCore]
      simp only [List.filterMap_cons, hlookup]
      rfl

theorem Staged.applyIgnoredOpenness {ix ix' : ProjectIndex} (h : ix.Staged ix')
    {ignored ignored' : List FileDefs} (hsub : ignored ⊆ ignored') :
    (ix.applyIgnoredOpenness ignored).Softer (ix'.applyIgnoredOpenness ignored') := by
  have hids : ix.ignoredReopened (ignored.flatMap FileDefs.fragments) ⊆
      ix'.ignoredReopened (ignored'.flatMap FileDefs.fragments) := by
    intro id hid
    obtain ⟨frag, hfrag, hlookup⟩ := List.mem_filterMap.mp hid
    obtain ⟨defs, hdefs, hmem⟩ := List.mem_flatMap.mp hfrag
    exact List.mem_filterMap.mpr
      ⟨frag, List.mem_flatMap.mpr ⟨defs, hsub hdefs, hmem⟩, h.softer.byPath ▸ hlookup⟩
  have hopen := h.softer.openEach (by decide : OpenReason.Late .ignoredReopening) h.grounded hids
  obtain ⟨polluted, heq⟩ := ix.exists_foldl_applyIgnoredFragment
    (ignored.flatMap FileDefs.fragments)
  obtain ⟨polluted', heq'⟩ := ix'.exists_foldl_applyIgnoredFragment
    (ignored'.flatMap FileDefs.fragments)
  unfold ProjectIndex.applyIgnoredOpenness
  rw [heq, heq']
  exact { hopen with length := hopen.length }

/-! ### The whole build -/

theorem applyPasses_softer {input input' : BuildInput} (hinput : input.Widens input')
    {ix ix' : ProjectIndex} (h : ix.Staged ix')
    (hdeclared : ∀ id, (ix.classOf id).openReason = some .declaredExternal →
      (ix'.classOf id).openReason = some .declaredExternal) :
    (applyPasses input ix).Softer (applyPasses input' ix') := by
  have hschema := h.step (h.softer.mergeSchemaDeclarations input.schema)
    (ix'.mergeSchemaDeclarations_grows input.schema)
  have hgems := hschema.applyGemNamespaces hinput.gemNamespaces
  have hnamespaces := hgems.openEach (by decide : OpenReason.Late .reopenedExternal)
    (hgems.softer.idsWhere_subset (hgems.softer.undeclaredNamespace fun id hid ↦ by
      rw [declared_applyGemNamespaces_iff, openReason_mergeSchemaDeclarations] at hid ⊢
      exact hdeclared id hid))
  have hstrings := hnamespaces.applyStringSourceDefinitions
  have hconcerns := hstrings.step hstrings.softer.applyConcernClassMethods
    (.foldl (fun edge _ ix ↦ ix.addExtends_grows edge) _)
  have hwrites := hconcerns.step
    (hconcerns.softer.foldl (fun _ _ h write ↦ h.resolveQualifiedWrite write)
      (input.files.flatMap fun file ↦ file.2.qualifiedWrites))
    (.foldl (fun write _ ix ↦ ix.resolveQualifiedWrite_grows write) _)
  have hpatches := hwrites.step hwrites.softer.applySingletonPatches
    (applySingletonPatches_grows _ hwrites.patches)
  have hhooks := hpatches.applyAttributedMixinEdges.applyLoadHookOpenness.applyExtendedHooks
  have hmodules := hhooks.applyNamespaceOnlyModules
  have hall := hmodules.applyIgnoredOpenness hinput.ignored
  unfold applyPasses
  rw [hinput.files, hinput.schema]
  exact hall

/-- Told of more gems and more ignored files, the build ends with the same table, some of its
classes opened for an opaque reason. -/
theorem buildIndex_softer {input input' : BuildInput} (hinput : input.Widens input')
    (hfiles : FilesGrounded input.files) :
    Fueled.Simulates Softer (buildIndex input) (buildIndex input') := by
  unfold buildIndex
  have hbeside := mergeInput_beside hinput
  intro ix hix
  obtain ⟨merged, hmerged, hix⟩ := Fueled.returns_bind.mp hix
  obtain ⟨merged', hmerged', hsofter⟩ := hbeside.softer.reconcileSuperclasses merged hmerged
  have hsame := reconcileSuperclasses_sameBodies hmerged
  have hsame' := reconcileSuperclasses_sameBodies hmerged'
  have hgrows : ({} : ProjectIndex).Grows merged' := by
    have hfiles' : FilesGrounded input'.files := hinput.files ▸ hfiles
    exact ((mergeFiles_grows {} hfiles').trans (mergeInput_grows input')).trans hsame'.grows
  have hempty : ({} : ProjectIndex).AllGrounded := fun _ ↦ Grounded.closed
  have hstaged : merged.Staged merged' :=
    ⟨hsofter, hempty.of_grows hgrows, hgrows.patches empty_patchesGrounded⟩
  have hdeclared : ∀ id, (merged.classOf id).openReason = some .declaredExternal →
      (merged'.classOf id).openReason = some .declaredExternal := by
    intro id hid
    obtain ⟨_, heq⟩ := hsame.classOf id
    obtain ⟨_, heq'⟩ := hsame'.classOf id
    rw [heq] at hid
    rw [heq']
    exact (hbeside.openReason id).trans hid
  obtain ⟨ix', hix', hlast⟩ := (applyPasses_softer hinput hstaged hdeclared).buildSubclassMap ix hix
  exact ⟨ix', Fueled.returns_bind.mpr ⟨merged', hmerged', hix'⟩, hlast⟩

/-- A project that writes one class into the namespace of a gem. -/
def reopeningInput : BuildInput where
  files := [("app.rb", { fragments :=
    [{ path := ["Redis", "Pool"], nesting := [["Redis", "Pool"]], isModule := false }] })]

end ProjectIndex

end Itaruby
