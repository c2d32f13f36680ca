import Itaruby.Index.Openness
import Itaruby.Library.Simulation

/-!
Opening a class only softens. A class that is open for one more reason can turn an
answer of a lookup into `inconclusive` and into nothing else, so that a pass which
opens classes stands reports down and never makes one. The passes for the lock
file's namespaces and for the ignored files are of that kind, and every pass that
runs after them keeps two indexes apart by openness alone.
-/

set_option autoImplicit false
set_option relaxedAutoImplicit false

namespace Itaruby

/-! ### Answers -/

/-- The answer stays, or the lookup stands down. -/
def MethodLookup.Softens (r r' : MethodLookup) : Prop := r' = r ∨ r' = .inconclusive

/-- The same for a scan, which may also leave the question to what follows it. -/
def ScanSoftens (r r' : Option MethodLookup) : Prop := r' = r ∨ r' = some .inconclusive

theorem MethodLookup.softens_inconclusive (r : MethodLookup) : r.Softens .inconclusive := .inr rfl

theorem scanSoftens_inconclusive (r : Option MethodLookup) : ScanSoftens r (some .inconclusive) :=
  .inr rfl

/-- A report survives only where the lookup already made it. -/
theorem MethodLookup.Softens.notFound {r r' : MethodLookup} (h : r.Softens r')
    (hr' : r' = .notFound) : r = .notFound := by
  rcases h with h | h
  · exact h ▸ hr'
  · simp [h] at hr'

/-! ### Classes -/

/-- The class under another record of why it is open. -/
def ClassDef.withOpenness (c : ClassDef) (isOpen : Bool) (openReason : Option OpenReason)
    (grounds : List Ground) : ClassDef :=
  { c with isOpen, openReason, grounds }

/-- Open for a reason that every lookup stands down at. -/
def ClassDef.Opaque (c : ClassDef) : Prop :=
  c.isOpen = true ∧ ∃ r, c.openReason = some r ∧ r ≠ .abstractRaise

/-- The same class, perhaps opened for an opaque reason. It was not made a curated external
class, which one lookup passes over. -/
structure ClassDef.Softer (c c' : ClassDef) : Prop where
  same : ∃ grounds, c' = c.withOpenness c'.isOpen c'.openReason grounds
  opens : c'.isOpen = c.isOpen ∧ c'.openReason = c.openReason ∨ c'.Opaque
  declared : c'.isOpen = true → c'.openReason = some .declaredExternal →
    c.isOpen = true ∧ c.openReason = some .declaredExternal

namespace ClassDef

variable {c c' c'' : ClassDef}

theorem Opaque.opaqueOpen (h : c.Opaque) : c.opaqueOpen = true := by
  obtain ⟨hopen, r, hr, hne⟩ := h
  simp [ClassDef.opaqueOpen, hopen, hr, hne]

theorem Opaque.openFor (h : c.Opaque) (reason : OpenReason) : (c.openFor reason).Opaque := by
  obtain ⟨-, r, hr, hne⟩ := h
  exact ⟨rfl, r, by simp [ClassDef.openFor, hr, hne], hne⟩

theorem opaque_openFor (c : ClassDef) {reason : OpenReason} (hreason : reason ≠ .abstractRaise) :
    (c.openFor reason).Opaque := by
  refine ⟨rfl, ?_⟩
  change ∃ r, (if c.openReason = none ∨ c.openReason = some .abstractRaise then some reason
    else c.openReason) = some r ∧ r ≠ .abstractRaise
  by_cases hweak : c.openReason = none ∨ c.openReason = some .abstractRaise
  · exact ⟨reason, if_pos hweak, hreason⟩
  · rw [if_neg hweak]
    obtain ⟨r, hr⟩ := Option.ne_none_iff_exists'.mp fun hnone ↦ hweak (.inl hnone)
    exact ⟨r, hr, fun heq ↦ hweak (.inr (heq ▸ hr))⟩

theorem declared_openFor_iff (c : ClassDef) {reason : OpenReason}
    (hreason : reason ≠ .declaredExternal) :
    (c.openFor reason).openReason = some .declaredExternal ↔
      c.openReason = some .declaredExternal := by
  change (if c.openReason = none ∨ c.openReason = some .abstractRaise then some reason
    else c.openReason) = _ ↔ _
  by_cases hweak : c.openReason = none ∨ c.openReason = some .abstractRaise
  · rw [if_pos hweak]
    rcases hweak with hweak | hweak <;> simp [hweak, hreason]
  · rw [if_neg hweak]

namespace Softer

theorem refl (c : ClassDef) : c.Softer c := ⟨⟨_, rfl⟩, .inl ⟨rfl, rfl⟩, .intro⟩

theorem trans (h : c.Softer c') (h' : c'.Softer c'') : c.Softer c'' := by
  refine ⟨?_, ?_, fun hopen hreason ↦ ?_⟩
  · obtain ⟨grounds, heq⟩ := h.same
    obtain ⟨grounds', heq'⟩ := h'.same
    refine ⟨grounds', heq'.trans ?_⟩
    rw [heq]
    rfl
  · rcases h'.opens with ⟨hopen', hreason'⟩ | hsealed'
    · rcases h.opens with ⟨hopen, hreason⟩ | ⟨hopen, r, hr, hne⟩
      · exact .inl ⟨hopen'.trans hopen, hreason'.trans hreason⟩
      · exact .inr ⟨hopen'.trans hopen, r, hreason'.trans hr, hne⟩
    · exact .inr hsealed'
  · obtain ⟨hopen', hreason'⟩ := h'.declared hopen hreason
    exact h.declared hopen' hreason'

section Fields

variable (h : c.Softer c')

include h

theorem sameShape : c.SameShape c' := by
  obtain ⟨grounds, heq⟩ := h.same
  rw [heq]
  exact ⟨rfl, rfl, rfl, rfl, rfl, rfl⟩

theorem isModule : c'.isModule = c.isModule := by
  obtain ⟨grounds, heq⟩ := h.same
  rw [heq]
  rfl

theorem extends' : c'.extends' = c.extends' := by
  obtain ⟨grounds, heq⟩ := h.same
  rw [heq]
  rfl

theorem methods : c'.methods = c.methods := by
  obtain ⟨grounds, heq⟩ := h.same
  rw [heq]
  rfl

theorem singletonMethods : c'.singletonMethods = c.singletonMethods := by
  obtain ⟨grounds, heq⟩ := h.same
  rw [heq]
  rfl

theorem defines (name : String) : c'.defines name = c.defines name := by
  rw [ClassDef.defines, h.methods, ClassDef.defines]

theorem definesSingleton (name : String) : c'.definesSingleton name = c.definesSingleton name := by
  rw [ClassDef.definesSingleton, h.singletonMethods, ClassDef.definesSingleton]

theorem isOpen (hopen : c.isOpen = true) : c'.isOpen = true := by
  rcases h.opens with ⟨heq, -⟩ | hsealed
  · rw [heq, hopen]
  · exact hsealed.1

theorem opaqueOpen_le : c.opaqueOpen ≤ c'.opaqueOpen := by
  rcases h.opens with ⟨hopen, hreason⟩ | hsealed
  · rw [ClassDef.opaqueOpen, ClassDef.opaqueOpen, hopen, hreason]
  · rw [hsealed.opaqueOpen]
    exact Bool.le_true _

end Fields

/-- An edit that reads only what the two classes share keeps them apart by openness alone. -/
theorem edit (h : c.Softer c') {f : ClassDef → ClassDef}
    (hf : ∀ c isOpen openReason grounds, f (c.withOpenness isOpen openReason grounds) =
      (f c).withOpenness isOpen openReason grounds) : (f c).Softer (f c') := by
  obtain ⟨grounds, heq⟩ := h.same
  have hc : f c = (f c).withOpenness c.isOpen c.openReason c.grounds :=
    hf c c.isOpen c.openReason c.grounds
  have hc' : f c' = (f c).withOpenness c'.isOpen c'.openReason grounds :=
    (congrArg f heq).trans (hf c c'.isOpen c'.openReason grounds)
  have hopen : (f c).isOpen = c.isOpen := by rw [hc]; rfl
  have hreason : (f c).openReason = c.openReason := by rw [hc]; rfl
  have hopen' : (f c').isOpen = c'.isOpen := by rw [hc']; rfl
  have hreason' : (f c').openReason = c'.openReason := by rw [hc']; rfl
  refine ⟨⟨grounds, by rw [hopen', hreason', ← hc']⟩, ?_, ?_⟩
  · rw [Opaque, hopen, hreason, hopen', hreason']
    exact h.opens
  · rw [hopen, hreason, hopen', hreason']
    exact h.declared

/-- Opening a class that is opaque on the other side already. -/
theorem openFor_left (h : c.Softer c') (hsealed : c'.Opaque) {reason : OpenReason}
    (hreason : reason ≠ .declaredExternal) : (c.openFor reason).Softer c' := by
  obtain ⟨grounds, heq⟩ := h.same
  refine ⟨⟨grounds, ?_⟩, .inr hsealed, fun hopen hdeclared ↦ ⟨rfl, ?_⟩⟩
  · conv_lhs => rw [heq]
    rfl
  · exact (c.declared_openFor_iff hreason).mpr (h.declared hopen hdeclared).2

theorem openFor_right (hc : c.GroundedClass) {reason : OpenReason}
    (hweak : reason ≠ .abstractRaise) (hreason : reason ≠ .declaredExternal) :
    c.Softer (c.openFor reason) := by
  refine ⟨⟨_, rfl⟩, .inr (c.opaque_openFor hweak), fun _ hdeclared ↦ ?_⟩
  have hdeclared := (c.declared_openFor_iff hreason).mp hdeclared
  refine ⟨hc.isOpen_iff.mpr fun hnil ↦ ?_, hdeclared⟩
  rw [hc.reason_none_iff.mpr hnil] at hdeclared
  simp at hdeclared

end Softer

end ClassDef

/-! ### Indexes -/

namespace ProjectIndex

/-- The same index with softer classes. The flags, buckets and names that only the stand-downs
on core values read may differ freely. -/
structure Softer (ix ix' : ProjectIndex) : Prop where
  length : ix'.classes.length = ix.classes.length
  classOf : ∀ id, (ix.classOf id).Softer (ix'.classOf id)
  byPath : ix'.byPath = ix.byPath
  superclassDeclarations : ix'.superclassDeclarations = ix.superclassDeclarations
  superclassNesting : ix'.superclassNesting = ix.superclassNesting
  ambiguousAncestry : ix'.ambiguousAncestry = ix.ambiguousAncestry
  loadHookRaw : ix'.loadHookRaw = ix.loadHookRaw
  subclasses : ix'.subclasses = ix.subclasses
  requires : ix'.requires = ix.requires
  toplevelConsts : ix'.toplevelConsts = ix.toplevelConsts
  constAliases : ix'.constAliases = ix.constAliases
  dynamicMixinRaw : ix'.dynamicMixinRaw = ix.dynamicMixinRaw
  singletonPatches : ix'.singletonPatches = ix.singletonPatches
  attributedMixinRaw : ix'.attributedMixinRaw = ix.attributedMixinRaw
  constReturningMethods : ix'.constReturningMethods = ix.constReturningMethods
  stringSourceConsts : ix'.stringSourceConsts = ix.stringSourceConsts

namespace Softer

variable {ix ix' ix'' : ProjectIndex}

theorem refl (ix : ProjectIndex) : ix.Softer ix :=
  ⟨rfl, fun _ ↦ .refl _, rfl, rfl, rfl, rfl, rfl, rfl, rfl, rfl, rfl, rfl, rfl, rfl, rfl, rfl⟩

theorem trans (h : ix.Softer ix') (h' : ix'.Softer ix'') : ix.Softer ix'' where
  length := h'.length.trans h.length
  classOf id := (h.classOf id).trans (h'.classOf id)
  byPath := h'.byPath.trans h.byPath
  superclassDeclarations := h'.superclassDeclarations.trans h.superclassDeclarations
  superclassNesting := h'.superclassNesting.trans h.superclassNesting
  ambiguousAncestry := h'.ambiguousAncestry.trans h.ambiguousAncestry
  loadHookRaw := h'.loadHookRaw.trans h.loadHookRaw
  subclasses := h'.subclasses.trans h.subclasses
  requires := h'.requires.trans h.requires
  toplevelConsts := h'.toplevelConsts.trans h.toplevelConsts
  constAliases := h'.constAliases.trans h.constAliases
  dynamicMixinRaw := h'.dynamicMixinRaw.trans h.dynamicMixinRaw
  singletonPatches := h'.singletonPatches.trans h.singletonPatches
  attributedMixinRaw := h'.attributedMixinRaw.trans h.attributedMixinRaw
  constReturningMethods := h'.constReturningMethods.trans h.constReturningMethods
  stringSourceConsts := h'.stringSourceConsts.trans h.stringSourceConsts

theorem sameShape (h : ix.Softer ix') : ix.SameShape ix' :=
  ⟨fun id ↦ (h.classOf id).sameShape, h.byPath, h.superclassNesting, h.ambiguousAncestry⟩

/-! ### Instance lookups -/

section Lookups

variable (h : ix.Softer ix')

include h

theorem subclassesOf : ix'.subclassesOf = ix.subclassesOf := by
  funext id
  rw [ProjectIndex.subclassesOf, h.subclasses, ProjectIndex.subclassesOf]

theorem scanInstance (name : String) (chain : List ClassId) :
    ScanSoftens (ix.scanInstance name chain) (ix'.scanInstance name chain) := by
  induction chain with
  | nil => exact .inl rfl
  | cons a rest ih =>
    rw [ProjectIndex.scanInstance, ProjectIndex.scanInstance, (h.classOf a).methods]
    by_cases hopen' : (ix'.classOf a).opaqueOpen = true
    · rw [if_pos hopen']
      exact scanSoftens_inconclusive _
    · have hopen : ¬ (ix.classOf a).opaqueOpen = true := by
        intro hopen
        exact hopen' (Bool.eq_true_of_true_le (hopen ▸ (h.classOf a).opaqueOpen_le))
      rw [if_neg hopen', if_neg hopen]
      cases (ix.classOf a).methods.lookup name with
      | some sig => exact .inl rfl
      | none => exact ih

theorem familyMemberDefines (name : String) (kid : ClassId) :
    Fueled.Simulates (· ≤ ·) (ix.familyMemberDefines name kid)
      (ix'.familyMemberDefines name kid) := by
  have hkid := h.classOf kid
  unfold ProjectIndex.familyMemberDefines
  simp only [hkid.defines, h.sameShape.ancestors]
  by_cases hdefines : ((ix.classOf kid).defines name || (ix.classOf kid).defines "method_missing" ||
      (ix.classOf kid).defines "respond_to_missing?") = true
  · rw [if_pos hdefines, if_pos hdefines]
    exact .refl (fun _ ↦ le_rfl) _
  · rw [if_neg hdefines, if_neg hdefines]
    rcases hkid.opens with ⟨hopen, hreason⟩ | ⟨hopen, r, hr, hne⟩
    · rw [hopen, hreason]
      by_cases hmember : (ix.classOf kid).isOpen = true
      · rw [if_pos hmember, if_pos hmember]
        exact .refl (fun _ ↦ le_rfl) _
      · rw [if_neg hmember, if_neg hmember]
        refine Fueled.Simulates.bind_same _ fun r ↦ .pure ?_
        refine sup_le_sup le_rfl ?_
        rw [Bool.le_iff_imp]
        simp only [List.any_eq_true, Bool.or_eq_true]
        rintro ⟨a, ha, hhit⟩
        refine ⟨a, ha, hhit.imp (fun hd ↦ (h.classOf a).defines name ▸ hd) fun ho ↦ ?_⟩
        exact Bool.eq_true_of_true_le (ho ▸ (h.classOf a).opaqueOpen_le)
    · rw [if_pos hopen, hr]
      have htrue : (some r != some OpenReason.abstractRaise) = true := by simpa using hne
      rw [htrue]
      exact .of_forall fun b ↦ Bool.le_true b

theorem abstractFamilyDefines (receiver : ClassId) (name : String) :
    Fueled.Simulates (· ≤ ·) (ix.abstractFamilyDefines receiver name)
      (ix'.abstractFamilyDefines receiver name) := by
  unfold ProjectIndex.abstractFamilyDefines
  rw [h.subclassesOf]
  exact Fueled.simulates_search (h.familyMemberDefines name) receiver

theorem lookupMethod (id : ClassId) (name : String) :
    Fueled.Simulates MethodLookup.Softens (ix.lookupMethod id name) (ix'.lookupMethod id name) := by
  unfold ProjectIndex.lookupMethod
  rw [h.sameShape.ancestors, (h.classOf id).isModule]
  refine Fueled.Simulates.bind_same _ fun r ↦ ?_
  dsimp only
  rcases h.scanInstance name r.1 with hscan | hscan
  · rw [hscan]
    cases ix.scanInstance name r.1 with
    | some answer => exact .refl (fun _ ↦ .inl rfl) _
    | none =>
      dsimp only
      split_ifs
      · refine (h.abstractFamilyDefines id name).bind fun b b' hle ↦ ?_
        cases b' with
        | true => exact .of_forall MethodLookup.softens_inconclusive
        | false =>
          obtain rfl : b = false := Bool.eq_false_of_le_false hle
          exact .refl (fun _ ↦ .inl rfl) _
      · exact .refl (fun _ ↦ .inl rfl) _
  · rw [hscan]
    exact .of_forall MethodLookup.softens_inconclusive

/-! ### Class-object lookups -/

theorem descendantDefines (id : ClassId) (name : String) (singleton : Bool) :
    Fueled.Simulates (· ≤ ·) (ix.descendantDefines id name singleton)
      (ix'.descendantDefines id name singleton) := by
  unfold ProjectIndex.descendantDefines
  rw [h.subclassesOf]
  refine Fueled.simulates_search (fun kid ↦ .pure ?_) id
  have hkid := h.classOf kid
  unfold descendantHit
  rw [hkid.definesSingleton, hkid.defines]
  refine sup_le_sup ?_ le_rfl
  rw [Bool.le_iff_imp]
  exact hkid.isOpen

/-- A scan that asks each class of a chain in turn stands down at an open one. -/
theorem isOpen_cases (a : ClassId) :
    (ix'.classOf a).isOpen = true ∨
      (ix'.classOf a).isOpen = false ∧ (ix.classOf a).isOpen = false := by
  cases hopen' : (ix'.classOf a).isOpen with
  | true => exact .inl rfl
  | false =>
    refine .inr ⟨rfl, ?_⟩
    by_contra hopen
    rw [(h.classOf a).isOpen (by simpa using hopen)] at hopen'
    simp at hopen'

theorem scanExtended (name : String) (chain : List ClassId) :
    ScanSoftens (ix.scanExtended name chain) (ix'.scanExtended name chain) := by
  induction chain with
  | nil => exact .inl rfl
  | cons a rest ih =>
    rw [ProjectIndex.scanExtended, ProjectIndex.scanExtended, (h.classOf a).methods]
    rcases h.isOpen_cases a with hopen' | ⟨hopen', hopen⟩
    · rw [if_pos hopen']
      exact scanSoftens_inconclusive _
    · rw [hopen', hopen]
      cases (ix.classOf a).methods.lookup name with
      | some sig => exact .inl rfl
      | none => exact ih

theorem extendedSurface (nesting : List ConstPath) (name : String) (exts : List ConstPath) :
    Fueled.Simulates ScanSoftens (ix.extendedSurface nesting name exts)
      (ix'.extendedSurface nesting name exts) := by
  induction exts with
  | nil => exact .refl (fun _ ↦ .inl rfl) _
  | cons ext rest ih =>
    rw [ProjectIndex.extendedSurface, ProjectIndex.extendedSurface, h.sameShape.resolveConst,
      h.sameShape.ancestors]
    cases ix.resolveConst nesting ext with
    | none => exact .refl (fun _ ↦ .inl rfl) _
    | some mid =>
      refine Fueled.Simulates.bind_same _ fun r ↦ ?_
      dsimp only
      rcases h.scanExtended name r.1 with hscan | hscan
      · rw [hscan]
        cases ix.scanExtended name r.1 with
        | some answer => exact .refl (fun _ ↦ .inl rfl) _
        | none =>
          dsimp only
          split_ifs
          · exact ih
          · exact .refl (fun _ ↦ .inl rfl) _
      · rw [hscan]
        exact .of_forall scanSoftens_inconclusive

theorem extendedModuleSurface (id : ClassId) (name : String) :
    Fueled.Simulates ScanSoftens (ix.extendedModuleSurface (ix.classOf id) name)
      (ix'.extendedModuleSurface (ix'.classOf id) name) := by
  unfold ProjectIndex.extendedModuleSurface
  rw [(h.classOf id).sameShape.nesting, (h.classOf id).extends']
  exact h.extendedSurface _ name _

theorem scanSingleton (name : String) (chain : List ClassId) :
    Fueled.Simulates ScanSoftens (ix.scanSingleton name chain) (ix'.scanSingleton name chain) := by
  induction chain with
  | nil => exact .refl (fun _ ↦ .inl rfl) _
  | cons a rest ih =>
    rw [ProjectIndex.scanSingleton, ProjectIndex.scanSingleton, (h.classOf a).singletonMethods]
    rcases h.isOpen_cases a with hopen' | ⟨hopen', hopen⟩
    · rw [if_pos hopen']
      exact .of_forall scanSoftens_inconclusive
    · rw [hopen', hopen]
      cases (ix.classOf a).singletonMethods.lookup name with
      | some sig => exact .refl (fun _ ↦ .inl rfl) _
      | none =>
        refine (h.extendedModuleSurface a name).bind fun r r' hr ↦ ?_
        rcases hr with rfl | rfl
        · cases r' with
          | some answer => exact .refl (fun _ ↦ .inl rfl) _
          | none => exact ih
        · exact .of_forall scanSoftens_inconclusive

theorem scanSingletonOwn (name : String) (chain : List ClassId) :
    Fueled.Simulates ScanSoftens (ix.scanSingletonOwn name chain)
      (ix'.scanSingletonOwn name chain) := by
  induction chain with
  | nil => exact .refl (fun _ ↦ .inl rfl) _
  | cons a rest ih =>
    rw [ProjectIndex.scanSingletonOwn, ProjectIndex.scanSingletonOwn,
      (h.classOf a).singletonMethods]
    rcases (h.classOf a).opens with ⟨hopen, hreason⟩ | ⟨hopen', -⟩
    · rw [hopen, hreason]
      split_ifs
      · exact ih
      · exact .refl (fun _ ↦ .inl rfl) _
      · cases (ix.classOf a).singletonMethods.lookup name with
        | some sig => exact .refl (fun _ ↦ .inl rfl) _
        | none =>
          refine (h.extendedModuleSurface a name).bind fun r r' hr ↦ ?_
          rcases hr with rfl | rfl
          · cases r' with
            | some answer => exact .refl (fun _ ↦ .inl rfl) _
            | none => exact ih
          · exact .of_forall scanSoftens_inconclusive
    · rw [if_pos hopen']
      by_cases hdeclared' : (ix'.classOf a).openReason = some .declaredExternal
      · obtain ⟨hopen, hdeclared⟩ := (h.classOf a).declared hopen' hdeclared'
        rw [if_pos hdeclared', if_pos hopen, if_pos hdeclared]
        exact ih
      · rw [if_neg hdeclared']
        exact .of_forall scanSoftens_inconclusive

theorem firstDefinition (name : String) (chain : List ClassId) :
    ix'.firstDefinition name chain = ix.firstDefinition name chain := by
  induction chain with
  | nil => rfl
  | cons a rest ih =>
    rw [ProjectIndex.firstDefinition, ProjectIndex.firstDefinition, (h.classOf a).methods, ih]

theorem coreMixinDefinition (id : ClassId) (name : String) (mixins : List ConstPath) :
    ix'.coreMixinDefinition (ix'.classOf id) name mixins =
      ix.coreMixinDefinition (ix.classOf id) name mixins := by
  induction mixins with
  | nil => rfl
  | cons mixin rest ih =>
    rw [ProjectIndex.coreMixinDefinition, ProjectIndex.coreMixinDefinition,
      (h.classOf id).sameShape.nesting, h.sameShape.resolveConst, h.sameShape.ancestorChain, ih]
    simp only [h.firstDefinition]

/-- A core reopening answers with what is written in it, open or not. -/
theorem coreSurface (name : String) (paths : List ConstPath) :
    ix'.coreSurface name paths = ix.coreSurface name paths := by
  induction paths with
  | nil => rfl
  | cons path rest ih =>
    rw [ProjectIndex.coreSurface, ProjectIndex.coreSurface, h.byPath, ih]
    cases ix.byPath.lookup path with
    | none => rfl
    | some id =>
      dsimp only
      rw [(h.classOf id).sameShape.prepends, (h.classOf id).sameShape.includes,
        (h.classOf id).methods, h.coreMixinDefinition, h.coreMixinDefinition]

theorem coreObjectInstanceSurface (id : ClassId) (name : String) :
    ix'.coreObjectInstanceSurface id name = ix.coreObjectInstanceSurface id name := by
  unfold ProjectIndex.coreObjectInstanceSurface
  rw [h.ambiguousAncestry, (h.classOf id).isModule, h.coreSurface, h.coreSurface]

theorem lookupSingleton (id : ClassId) (name : String) :
    Fueled.Simulates MethodLookup.Softens (ix.lookupSingleton id name)
      (ix'.lookupSingleton id name) := by
  unfold ProjectIndex.lookupSingleton
  rw [h.sameShape.ancestors, h.coreObjectInstanceSurface]
  refine Fueled.Simulates.bind_same _ fun r ↦ ?_
  dsimp only
  refine (h.scanSingleton name r.1).bind fun scan scan' hscan ↦ ?_
  rcases hscan with rfl | rfl
  · cases scan' with
    | some answer => exact .refl (fun _ ↦ .inl rfl) _
    | none =>
      refine Fueled.Simulates.bind_same _ fun core ↦ ?_
      cases core with
      | some answer => exact .refl (fun _ ↦ .inl rfl) _
      | none =>
        dsimp only
        split_ifs
        · refine (h.descendantDefines id name true).bind fun b b' hle ↦ ?_
          cases b' with
          | true => exact .of_forall MethodLookup.softens_inconclusive
          | false =>
            obtain rfl : b = false := Bool.eq_false_of_le_false hle
            exact .refl (fun _ ↦ .inl rfl) _
        · exact .refl (fun _ ↦ .inl rfl) _
  · exact .of_forall MethodLookup.softens_inconclusive

theorem lookupSingletonOwn (id : ClassId) (name : String) :
    Fueled.Simulates MethodLookup.Softens (ix.lookupSingletonOwn id name)
      (ix'.lookupSingletonOwn id name) := by
  unfold ProjectIndex.lookupSingletonOwn
  rw [h.sameShape.ancestorChain, h.ambiguousAncestry]
  refine Fueled.Simulates.bind_same _ fun chain ↦ ?_
  refine (h.scanSingletonOwn name chain).bind fun scan scan' hscan ↦ ?_
  rcases hscan with rfl | rfl
  · cases scan' with
    | some answer => exact .refl (fun _ ↦ .inl rfl) _
    | none =>
      dsimp only
      split_ifs
      · exact .refl (fun _ ↦ .inl rfl) _
      · refine (h.descendantDefines id name true).bind fun b b' hle ↦ ?_
        cases b' with
        | true => exact .of_forall MethodLookup.softens_inconclusive
        | false =>
          obtain rfl : b = false := Bool.eq_false_of_le_false hle
          exact .refl (fun _ ↦ .inl rfl) _
  · exact .of_forall MethodLookup.softens_inconclusive

/-! ### `super` -/

theorem lookupFrom (name : String) (singleton complete : Bool) (chain : List ClassId) :
    (ix.lookupFrom name singleton complete chain).Softens
      (ix'.lookupFrom name singleton complete chain) := by
  induction chain with
  | nil => exact .inl rfl
  | cons a rest ih =>
    rw [ProjectIndex.lookupFrom, ProjectIndex.lookupFrom, (h.classOf a).methods,
      (h.classOf a).singletonMethods]
    rcases h.isOpen_cases a with hopen' | ⟨hopen', hopen⟩
    · rw [if_pos hopen']
      exact MethodLookup.softens_inconclusive _
    · rw [hopen', hopen]
      dsimp only
      cases (if singleton = true then (ix.classOf a).singletonMethods
        else (ix.classOf a).methods).lookup name with
      | some sig => exact .inl rfl
      | none => exact ih

/-- The consumers of a module: as long as neither side stands down both carry one outcome. -/
theorem superOverConsumers (module : ClassId) (name : String) (consumers : List ClassId) :
    ∀ outcome : Option (Option (MethodSig × ClassId)),
      Fueled.Simulates MethodLookup.Softens (ix.superOverConsumers module name outcome consumers)
        (ix'.superOverConsumers module name outcome consumers) := by
  induction consumers with
  | nil => exact fun outcome ↦ .refl (fun _ ↦ .inl rfl) _
  | cons consumer rest ih =>
    intro outcome
    rw [ProjectIndex.superOverConsumers, ProjectIndex.superOverConsumers,
      (h.classOf consumer).isModule, h.sameShape.ancestors]
    by_cases hmodule : (ix.classOf consumer).isModule = true
    · rw [if_pos hmodule, if_pos hmodule]
      exact ih outcome
    · rw [if_neg hmodule, if_neg hmodule]
      refine Fueled.Simulates.bind_same _ fun r ↦ ?_
      dsimp only
      cases chainAfter module r.1 with
      | none => exact ih outcome
      | some after =>
        dsimp only
        rcases h.lookupFrom name false r.2 after with heq | heq
        · rw [heq]
          cases ix.lookupFrom name false r.2 after with
          | inconclusive => exact .refl (fun _ ↦ .inl rfl) _
          | notFound =>
            dsimp only
            split_ifs
            · exact ih _
            · exact .refl (fun _ ↦ .inl rfl) _
          | found sig owner =>
            dsimp only
            split_ifs
            · exact ih _
            · exact .refl (fun _ ↦ .inl rfl) _
        · rw [heq]
          exact .of_forall MethodLookup.softens_inconclusive

theorem superLookup (owner : ClassId) (singleton : Bool) (name : String) :
    Fueled.Simulates MethodLookup.Softens (ix.superLookup owner singleton name)
      (ix'.superLookup owner singleton name) := by
  unfold ProjectIndex.superLookup
  rw [(h.classOf owner).isModule, h.length, h.sameShape.ancestors]
  split_ifs
  · exact .refl (fun _ ↦ .inl rfl) _
  · exact h.superOverConsumers owner name _ none
  · refine Fueled.Simulates.bind_same _ fun r ↦ ?_
    dsimp only
    cases chainAfter owner r.1 with
    | none => exact .refl (fun _ ↦ .inl rfl) _
    | some after => exact .pure (h.lookupFrom name singleton r.2 after)

/-- A class offered as a closed candidate was one before. -/
theorem closedCandidate (id : ClassId) :
    Fueled.Simulates (· ≥ ·) (ix.closedCandidate id) (ix'.closedCandidate id) := by
  unfold ProjectIndex.closedCandidate
  rw [h.sameShape.ancestors]
  refine Fueled.Simulates.bind_same _ fun r ↦ .pure ?_
  refine inf_le_inf le_rfl ?_
  rw [Bool.le_iff_imp]
  simp only [List.all_eq_true, Bool.not_eq_true']
  intro hall a ha
  rcases h.isOpen_cases a with hopen' | ⟨-, hopen⟩
  · rw [hall a ha] at hopen'
    simp at hopen'
  · exact hopen

end Lookups

end Softer

/-! ### What a softer index answers -/

/-- Every lookup of the second index answers what the same lookup of the first one answers,
or stands down; a class is offered as a closed candidate only where it was before. -/
structure Softens (ix ix' : ProjectIndex) : Prop where
  lookupMethod : ∀ id name, Fueled.Simulates MethodLookup.Softens
    (ix.lookupMethod id name) (ix'.lookupMethod id name)
  lookupSingleton : ∀ id name, Fueled.Simulates MethodLookup.Softens
    (ix.lookupSingleton id name) (ix'.lookupSingleton id name)
  lookupSingletonOwn : ∀ id name, Fueled.Simulates MethodLookup.Softens
    (ix.lookupSingletonOwn id name) (ix'.lookupSingletonOwn id name)
  superLookup : ∀ owner singleton name, Fueled.Simulates MethodLookup.Softens
    (ix.superLookup owner singleton name) (ix'.superLookup owner singleton name)
  closedCandidate : ∀ id, Fueled.Simulates (· ≥ ·)
    (ix.closedCandidate id) (ix'.closedCandidate id)

theorem Softer.softens {ix ix' : ProjectIndex} (h : ix.Softer ix') : ix.Softens ix' :=
  ⟨h.lookupMethod, h.lookupSingleton, h.lookupSingletonOwn, h.superLookup, h.closedCandidate⟩

end ProjectIndex

end Itaruby
