import Itaruby.Index.Growth

/-!
What the passes after the schema keep of a class: they open classes, extend them, list constants in
them, patch them by name and install hooks on them, and a relation that these edits keep is kept by
every pass.
-/

set_option autoImplicit false
set_option relaxedAutoImplicit false

namespace Itaruby

/-- A relation that the edits of the passes after the schema keep. -/
structure PassRule (R : ClassDef → ClassDef → Prop) : Prop where
  refl : ∀ c, R c c
  trans : ∀ {c c' c''}, R c c' → R c' c'' → R c c''
  opened : ∀ c (reason : OpenReason), R c (c.openFor reason)
  extended : ∀ (c : ClassDef) path, R c { c with extends' := c.extends' ++ [path] }
  listed : ∀ (c : ClassDef) name, R c { c with consts := c.consts ++ [name] }
  patched : ∀ c frag file, R c (ProjectIndex.patchClass c frag file)
  installed : ∀ module c, R c (ProjectIndex.installFrom module c)

namespace ProjectIndex

/-- Every class of the index is related to what it becomes. -/
def Relates (R : ClassDef → ClassDef → Prop) (ix ix' : ProjectIndex) : Prop :=
  ∀ id, R (ix.classOf id) (ix'.classOf id)

namespace Relates

variable {R : ClassDef → ClassDef → Prop} (rule : PassRule R) {ix ix' ix'' : ProjectIndex}

include rule

theorem trans (h : Relates R ix ix') (h' : Relates R ix' ix'') : Relates R ix ix'' :=
  fun id ↦ rule.trans (h id) (h' id)

theorem foldl {α : Type} {step : ProjectIndex → α → ProjectIndex}
    (hstep : ∀ ix a, Relates R ix (step ix a)) (l : List α) (ix : ProjectIndex) :
    Relates R ix (l.foldl step ix) := by
  induction l generalizing ix with
  | nil => exact fun id ↦ rule.refl _
  | cons a l ih => exact (hstep ix a).trans rule (ih _)

theorem of_classes (hclasses : ix'.classes = ix.classes) : Relates R ix ix' := by
  intro id
  rw [ProjectIndex.classOf, ProjectIndex.classOf, hclasses]
  exact rule.refl _

theorem modifyClass (ix : ProjectIndex) (id : ClassId) {f : ClassDef → ClassDef}
    (hf : ∀ c, R c (f c)) : Relates R ix (ix.modifyClass id f) := by
  intro a
  rw [classOf_modifyClass]
  split_ifs
  · exact hf _
  · exact rule.refl _

theorem openEach (ix : ProjectIndex) (ids : List ClassId) (reason : OpenReason) :
    Relates R ix (ix.openEach ids reason) :=
  foldl rule (fun ix id ↦ modifyClass rule ix id fun c ↦ rule.opened c reason) ids ix

theorem applyGemNamespaces (ix : ProjectIndex) (namespaces : Option (Finset String)) :
    Relates R ix (ix.applyGemNamespaces namespaces) := by
  cases namespaces with
  | none => exact of_classes rule rfl
  | some namespaces =>
    have hreopened : Relates R ix (ix.applyGemReopenings namespaces) := openEach rule ix _ _
    have hmock (ix : ProjectIndex) : Relates R ix (ix.applyMockSingletonSurface namespaces) := by
      unfold applyMockSingletonSurface
      by_cases h : "rspecmocks" ∈ namespaces ∨ "mocha" ∈ namespaces
      · rw [if_pos h]
        exact of_classes rule rfl
      · rw [if_neg h]
        exact of_classes rule rfl
    exact hreopened.trans rule (hmock _)

theorem beforePatches (input : BuildInput) (ix : ProjectIndex) :
    Relates R (ix.mergeSchemaDeclarations input.schema) (beforePatches input ix) := by
  have hnamespaces (ix : ProjectIndex) : Relates R ix ix.applyUndeclaredNamespaceReopenings :=
    openEach rule ix _ _
  have hstrings (ix : ProjectIndex) : Relates R ix ix.applyStringSourceDefinitions :=
    (openEach rule ix _ _).trans rule (of_classes rule rfl)
  have hedge (ix : ProjectIndex) (edge : ClassId × ConstPath) :
      Relates R ix (addExtends ix edge) := by
    refine modifyClass rule ix edge.1 fun c ↦ ?_
    split_ifs
    · exact rule.refl c
    · exact rule.extended c edge.2
  have hwrite (ix : ProjectIndex) (write : ConstPath × String) :
      Relates R ix (ix.resolveQualifiedWrite write) := by
    unfold resolveQualifiedWrite
    cases ix.byPath.lookup write.1 with
    | none => exact of_classes rule rfl
    | some id => exact modifyClass rule ix id fun c ↦ rule.listed c write.2
  exact ((((applyGemNamespaces rule _ _).trans rule (hnamespaces _)).trans rule
    (hstrings _)).trans rule (foldl rule hedge _ _)).trans rule (foldl rule hwrite _ _)

theorem applySingletonPatches (ix : ProjectIndex) : Relates R ix ix.applySingletonPatches := by
  have hpatch (ix : ProjectIndex) (patch : SourceFile × ClassFragment) :
      Relates R ix (ix.applySingletonPatch patch) := by
    unfold applySingletonPatch
    cases ix.byPath.lookup patch.2.path with
    | none => exact of_classes rule rfl
    | some id => exact modifyClass rule ix id fun c ↦ rule.patched c patch.2 patch.1
  exact (foldl rule hpatch ix.singletonPatches ix).trans rule (of_classes rule rfl)

theorem afterPatches (input : BuildInput) (ix : ProjectIndex) :
    Relates R ix (afterPatches input ix) := by
  have hedges : Relates R ix ix.applyAttributedMixinEdges :=
    (openEach rule ix _ _).trans rule (of_classes rule rfl)
  have hloads (ix : ProjectIndex) : Relates R ix ix.applyLoadHookOpenness :=
    (openEach rule ix _ _).trans rule (of_classes rule rfl)
  have hhook (ix : ProjectIndex) (edge : ClassId × ClassId) :
      Relates R ix (ix.applyOneExtendedHook edge) := by
    have hinstall : Relates R ix (ix.modifyClass edge.1 (installFrom (ix.classOf edge.2))) :=
      modifyClass rule ix edge.1 fun c ↦ rule.installed _ c
    unfold applyOneExtendedHook
    dsimp only
    split_ifs
    · exact hinstall.trans rule (modifyClass rule _ _ fun c ↦ rule.opened c _)
    · exact hinstall
  have hmodules (ix : ProjectIndex) : Relates R ix ix.applyNamespaceOnlyModules :=
    openEach rule ix _ _
  have hignored (ix : ProjectIndex) (frag : ClassFragment) :
      Relates R ix (ix.applyIgnoredFragment frag) := by
    unfold applyIgnoredFragment
    cases ix.byPath.lookup frag.path with
    | none => exact of_classes rule rfl
    | some id =>
      exact (modifyClass rule ix id fun c ↦ rule.opened c .ignoredReopening).trans rule
        (of_classes rule rfl)
  exact (((hedges.trans rule (hloads _)).trans rule (foldl rule hhook _ _)).trans rule
    (hmodules _)).trans rule (foldl rule hignored _ _)

/-- What the edits keep, the passes after the schema keep. -/
theorem applyPasses (input : BuildInput) (ix : ProjectIndex) :
    Relates R (ix.mergeSchemaDeclarations input.schema) (applyPasses input ix) := by
  rw [applyPasses_eq]
  exact ((beforePatches rule input ix).trans rule (applySingletonPatches rule _)).trans rule
    (afterPatches rule input _)

end Relates

end ProjectIndex

end Itaruby
