import Itaruby.Index.Basic

/-!
Merging one file's fragments into the class table. The fields of a class follow
different policies: methods keep the last definition, the lexical nesting and the
table name the first, the mixin lists grow, and every superclass header is kept
for reconciliation.
-/

set_option autoImplicit false
set_option relaxedAutoImplicit false

namespace Itaruby

namespace ProjectIndex

def modifyClass (ix : ProjectIndex) (id : ClassId) (f : ClassDef → ClassDef) : ProjectIndex :=
  { ix with classes := ix.classes.modify id f }

/-- A fresh class at the end of the table. -/
def addClass (ix : ProjectIndex) (path : ConstPath) : ProjectIndex :=
  { ix with
    classes := ix.classes ++ [{ path }]
    byPath := ix.byPath.insert path ix.classes.length }

/-- `ProjectIndex::intern`. -/
def intern (ix : ProjectIndex) (path : ConstPath) : ProjectIndex × ClassId :=
  match ix.byPath.lookup path with
  | some id => (ix, id)
  | none => (ix.addClass path, ix.classes.length)

/-- The header's scope stays apart from the nesting of whichever fragment came first. -/
def mergeSuperclassHeader (ix : ProjectIndex) (id : ClassId) (frag : ClassFragment) :
    ProjectIndex :=
  match frag.superclass with
  | none => ix
  | some superclass =>
    let headers := (ix.superclassDeclarations.lookup id).getD [] ++ [(superclass, frag.nesting)]
    let ix := { ix with superclassDeclarations := ix.superclassDeclarations.insert id headers }
    let cls := ix.classOf id
    if cls.superclass.isSome then ix
    else
      let ix := ix.modifyClass id fun c ↦ { c with superclass := some superclass }
      if cls.nesting ≠ [] ∧ cls.nesting ≠ frag.nesting then
        { ix with superclassNesting := ix.superclassNesting.insert id frag.nesting }
      else ix

end ProjectIndex

/-- The merge of the open reasons of two fragments of one class: the first reason stays,
except that any other reason replaces `abstractRaise`. -/
def mergeOpenReason (current incoming : Option OpenReason) : Option OpenReason :=
  match current with
  | none => incoming
  | some .abstractRaise =>
    match incoming with
    | some reason => if reason ≠ .abstractRaise then some reason else current
    | none => current
  | some reason => some reason

def insertMethods (table : MethodTable) (defs : List MethodDef) (file : SourceFile) :
    MethodTable :=
  defs.foldl (fun table md ↦ table.insert md.name (methodSig md file)) table

theorem lookup_insertMethods (table : MethodTable) (defs : List MethodDef) (file : SourceFile)
    (name : String) :
    (insertMethods table defs file).lookup name =
      (defs.reverse.findSome? fun md ↦
        if md.name = name then some (methodSig md file) else none).or (table.lookup name) := by
  unfold insertMethods
  induction defs generalizing table with
  | nil => rfl
  | cons md defs ih =>
    rw [List.foldl_cons, ih, List.reverse_cons, List.findSome?_append]
    by_cases h : md.name = name
    · subst h
      cases defs.reverse.findSome? _ <;> simp
    · rw [AList.lookup_insert_ne (Ne.symm h)]
      cases defs.reverse.findSome? _ <;> simp [h]

def mergeHookInstalls (cls : ClassDef) (frag : ClassFragment) (file : SourceFile) : ClassDef :=
  { cls with
    hookInstanceInstalls := cls.hookInstanceInstalls ++
      frag.hookInstanceInstalls.map fun (name, span) ↦ (name, span, file)
    hookSingletonInstalls := cls.hookSingletonInstalls ++
      frag.hookSingletonInstalls.map fun (name, span) ↦ (name, span, file)
    hookInstallsOpaque := cls.hookInstallsOpaque || frag.hookInstallsOpaque }

/-- The per-class part of `merge_file_fragments`. -/
def mergeFragment (cls : ClassDef) (frag : ClassFragment) (file : SourceFile) : ClassDef :=
  mergeHookInstalls
    { cls with
      isModule := cls.isModule || frag.isModule
      isOpen := cls.isOpen || frag.isOpen
      openReason := mergeOpenReason cls.openReason frag.openReason
      nesting := if cls.nesting = [] then frag.nesting else cls.nesting
      tableName := if cls.tableName = none then frag.tableName else cls.tableName
      includes := cls.includes ++ frag.includes
      prepends := cls.prepends ++ frag.prepends
      extends' := cls.extends' ++ frag.extends'
      consts := cls.consts ++ frag.consts
      methods := insertMethods cls.methods frag.methods file
      singletonMethods := insertMethods cls.singletonMethods frag.singletonMethods file
      grounds := cls.grounds ++ frag.grounds }
    frag file

namespace ProjectIndex

/-- One fragment of the loop of `merge_file_fragments`. A patch by name is held aside. -/
def mergeOneFragment (file : SourceFile) (ix : ProjectIndex) (frag : ClassFragment) :
    ProjectIndex :=
  if frag.declaredOwnerRequired then
    { ix with singletonPatches := ix.singletonPatches ++ [(file, frag)] }
  else
    let (ix, id) := ix.intern frag.path
    (ix.mergeSuperclassHeader id frag).modifyClass id fun cls ↦ mergeFragment cls frag file

def addAlias (aliases : AList fun _ : ConstPath ↦ List ConstPath × ConstPath)
    (write : ConstPath × List ConstPath × ConstPath) :
    AList fun _ : ConstPath ↦ List ConstPath × ConstPath :=
  match aliases.lookup write.1 with
  | some _ => aliases
  | none => aliases.insert write.1 (write.2.1, write.2.2)

def addConstReturning (table : AList fun _ : String ↦ List (ConstPath × List ConstPath))
    (entry : String × ConstPath × List ConstPath) :
    AList fun _ : String ↦ List (ConstPath × List ConstPath) :=
  table.insert entry.1 ((table.lookup entry.1).getD [] ++ [(entry.2.1, entry.2.2)])

def mergeFileAccumulators (ix : ProjectIndex) (defs : FileDefs) : ProjectIndex :=
  { ix with
    coreMixin := ix.coreMixin || defs.coreMixin
    refineRaw := ix.refineRaw ++ defs.refineTargets
    refinedUnknown := ix.refinedUnknown || defs.refinedUnknown
    evalRaw := ix.evalRaw ++ defs.evalTargets
    evalPollutedUnknown := ix.evalPollutedUnknown || defs.evalUnknown
    keyedRaw := ix.keyedRaw ++ defs.keyedPollution
    dynamicMixinRaw := ix.dynamicMixinRaw ++ defs.dynamicMixinTargets
    attributedMixinRaw := ix.attributedMixinRaw ++ defs.attributedMixinEdges
    loadHookRaw := ix.loadHookRaw ++ defs.loadHookBases
    stringSourceConsts := defs.stringSourceConsts.foldl
      (fun names name ↦ if name ∈ names then names else names ++ [name]) ix.stringSourceConsts
    constReturningMethods := defs.constReturningMethods.foldl addConstReturning
      ix.constReturningMethods
    requires := ix.requires ∪ defs.requires.toFinset
    toplevelConsts := ix.toplevelConsts ∪ (defs.toplevelConsts.map fun name ↦ [name]).toFinset
    constAliases := defs.constAliases.foldl addAlias ix.constAliases }

/-- `merge_file_fragments`; the qualified constant writes are collected for a later pass. -/
def mergeFileFragments (ix : ProjectIndex) (file : SourceFile) (defs : FileDefs) : ProjectIndex :=
  defs.fragments.foldl (mergeOneFragment file) (ix.mergeFileAccumulators defs)

def mergeFiles (ix : ProjectIndex) (files : List (SourceFile × FileDefs)) : ProjectIndex :=
  files.foldl (fun ix (file, defs) ↦ ix.mergeFileFragments file defs) ix

/-! ### What the merge records of a class

A class is the fold of the fragments written at its path, in file order.
-/

/-- The fragments that are merged into the class at `path`. -/
def fragmentsAt (files : List (SourceFile × FileDefs)) (path : ConstPath) :
    List (SourceFile × ClassFragment) :=
  files.flatMap fun (file, defs) ↦
    (defs.fragments.filter fun frag ↦ frag.path = path ∧ frag.declaredOwnerRequired = false).map
      fun frag ↦ (file, frag)

/-- Every path leads to a class of that path. -/
def WellKeyed (ix : ProjectIndex) : Prop :=
  ∀ path id, ix.byPath.lookup path = some id →
    id < ix.classes.length ∧ (ix.classOf id).path = path

theorem classOf_modifyClass (ix : ProjectIndex) (id a : ClassId) (f : ClassDef → ClassDef) :
    (ix.modifyClass id f).classOf a =
      if a = id ∧ a < ix.classes.length then f (ix.classOf a) else ix.classOf a := by
  unfold modifyClass classOf
  by_cases ha : a < ix.classes.length
  · by_cases hid : a = id
    · simp [hid ▸ ha, hid]
    · simp [ha, hid, Ne.symm hid]
  · simp [ha]

/-- A view of a class that neither superclass headers nor the position in the table change. -/
structure FieldView (β : Type) where
  view : ClassDef → β
  merge : β → SourceFile → ClassFragment → β
  view_superclass : ∀ cls superclass, view { cls with superclass } = view cls
  view_merge : ∀ cls frag file, view (mergeFragment cls frag file) = merge (view cls) file frag

variable {β : Type} (V : FieldView β)

/-- The view of the class at `path`, as if it were fresh when there is none. -/
def viewAt (ix : ProjectIndex) (path : ConstPath) : β :=
  match ix.byPath.lookup path with
  | some id => V.view (ix.classOf id)
  | none => V.view { path }

variable {V} {ix : ProjectIndex}

theorem classOf_addClass (path : ConstPath) (id : ClassId) :
    (ix.addClass path).classOf id =
      if id = ix.classes.length then { path } else ix.classOf id := by
  unfold addClass classOf
  simp only [List.getD_eq_getElem?_getD]
  rcases lt_trichotomy id ix.classes.length with h | h | h
  · rw [List.getElem?_append_left h, if_neg h.ne]
  · simp [h]
  · rw [if_neg h.ne', List.getElem?_eq_none h.le, List.getElem?_eq_none]
    rw [List.length_append, List.length_singleton]
    exact h

theorem intern_spec (hkeyed : ix.WellKeyed) (path : ConstPath) :
    (ix.intern path).1.WellKeyed ∧
      (ix.intern path).1.byPath.lookup path = some (ix.intern path).2 ∧
      ∀ q, viewAt V (ix.intern path).1 q = viewAt V ix q := by
  unfold intern
  cases hlookup : ix.byPath.lookup path with
  | some id => exact ⟨hkeyed, hlookup, fun _ ↦ rfl⟩
  | none =>
    refine ⟨fun q id hq ↦ ?_, AList.lookup_insert _, fun q ↦ ?_⟩
    · change (ix.byPath.insert path ix.classes.length).lookup q = some id at hq
      rw [classOf_addClass]
      by_cases hpath : q = path
      · subst hpath
        rw [AList.lookup_insert] at hq
        obtain rfl := Option.some.inj hq
        simp [addClass]
      · rw [AList.lookup_insert_ne hpath] at hq
        obtain ⟨hlt, heq⟩ := hkeyed q id hq
        rw [if_neg hlt.ne]
        refine ⟨?_, heq⟩
        simp only [addClass, List.length_append, List.length_singleton]
        exact Nat.lt_succ_of_lt hlt
    · unfold viewAt
      change (match (ix.byPath.insert path ix.classes.length).lookup q with
        | some id => V.view ((ix.addClass path).classOf id)
        | none => V.view { path := q }) = _
      by_cases hpath : q = path
      · subst hpath
        rw [AList.lookup_insert, hlookup]
        simp [classOf_addClass]
      · rw [AList.lookup_insert_ne hpath]
        cases hq : ix.byPath.lookup q with
        | none => rfl
        | some id =>
          dsimp only
          rw [classOf_addClass, if_neg (hkeyed q id hq).1.ne]

theorem modifyClass_wellKeyed (hkeyed : ix.WellKeyed) (id : ClassId) {f : ClassDef → ClassDef}
    (hf : ∀ cls, (f cls).path = cls.path) : (ix.modifyClass id f).WellKeyed := by
  intro path a ha
  obtain ⟨hlt, heq⟩ := hkeyed path a ha
  refine ⟨by simpa [modifyClass] using hlt, ?_⟩
  rw [classOf_modifyClass]
  split_ifs
  · rw [hf, heq]
  · exact heq

theorem viewAt_modifyClass (hkeyed : ix.WellKeyed) {id : ClassId} {path : ConstPath}
    (hid : ix.byPath.lookup path = some id) (f : ClassDef → ClassDef) (q : ConstPath) :
    viewAt V (ix.modifyClass id f) q =
      if q = path then V.view (f (ix.classOf id)) else viewAt V ix q := by
  unfold viewAt
  have hby : (ix.modifyClass id f).byPath = ix.byPath := rfl
  rw [hby]
  by_cases hq : q = path
  · subst hq
    rw [hid, if_pos rfl]
    dsimp only
    rw [classOf_modifyClass, if_pos ⟨rfl, (hkeyed q id hid).1⟩]
  · rw [if_neg hq]
    cases hlookup : ix.byPath.lookup q with
    | none => rfl
    | some a =>
      have hne : a ≠ id := by
        rintro rfl
        exact hq ((hkeyed q a hlookup).2.symm.trans (hkeyed path a hid).2)
      dsimp only
      rw [classOf_modifyClass, if_neg fun h ↦ hne h.1]

theorem mergeSuperclassHeader_spec (hkeyed : ix.WellKeyed) {id : ClassId} {path : ConstPath}
    (hid : ix.byPath.lookup path = some id) (frag : ClassFragment) :
    (ix.mergeSuperclassHeader id frag).WellKeyed ∧
      (ix.mergeSuperclassHeader id frag).byPath = ix.byPath ∧
      ∀ q, viewAt V (ix.mergeSuperclassHeader id frag) q = viewAt V ix q := by
  unfold mergeSuperclassHeader
  cases frag.superclass with
  | none => exact ⟨hkeyed, rfl, fun _ ↦ rfl⟩
  | some superclass =>
    dsimp only
    have hview : ∀ q, viewAt V (ix.modifyClass id fun c ↦ { c with superclass := some superclass })
        q = viewAt V ix q := by
      intro q
      rw [viewAt_modifyClass hkeyed hid, V.view_superclass]
      split_ifs with hq
      · subst hq
        rw [viewAt, hid]
      · rfl
    have hkeyed' := modifyClass_wellKeyed hkeyed id
      (f := fun c ↦ { c with superclass := some superclass }) fun _ ↦ rfl
    split
    · exact ⟨hkeyed, rfl, fun _ ↦ rfl⟩
    · split
      · exact ⟨hkeyed', rfl, hview⟩
      · exact ⟨hkeyed', rfl, hview⟩

theorem mergeOneFragment_spec (hkeyed : ix.WellKeyed) (file : SourceFile) (frag : ClassFragment) :
    (ix.mergeOneFragment file frag).WellKeyed ∧
      ∀ path, viewAt V (ix.mergeOneFragment file frag) path =
        if frag.path = path ∧ frag.declaredOwnerRequired = false then
          V.merge (viewAt V ix path) file frag
        else viewAt V ix path := by
  unfold mergeOneFragment
  cases hheld : frag.declaredOwnerRequired with
  | true =>
    refine ⟨hkeyed, fun path ↦ ?_⟩
    rw [if_pos rfl, if_neg (by simp)]
    rfl
  | false =>
    obtain ⟨hkeyed₁, hlookup, hview₁⟩ := intern_spec (V := V) hkeyed frag.path
    obtain ⟨hkeyed₂, hby, hview₂⟩ := mergeSuperclassHeader_spec (V := V) hkeyed₁ hlookup frag
    simp only [Bool.false_eq_true, if_false, and_true]
    refine ⟨modifyClass_wellKeyed hkeyed₂ _ fun _ ↦ rfl, fun path ↦ ?_⟩
    rw [viewAt_modifyClass hkeyed₂ (hby ▸ hlookup), V.view_merge, hview₂, hview₁]
    by_cases hpath : frag.path = path
    · subst hpath
      have hsame := hview₂ frag.path
      rw [hview₁, viewAt, hby, hlookup] at hsame
      dsimp only at hsame
      rw [if_pos rfl, if_pos rfl, hsame]
    · rw [if_neg (Ne.symm hpath), if_neg hpath]

theorem foldl_mergeOneFragment_spec (file : SourceFile) (frags : List ClassFragment)
    {ix : ProjectIndex} (hkeyed : ix.WellKeyed) :
    (frags.foldl (mergeOneFragment file) ix).WellKeyed ∧
      ∀ path, viewAt V (frags.foldl (mergeOneFragment file) ix) path =
        ((frags.filter fun frag ↦ frag.path = path ∧ frag.declaredOwnerRequired = false).map
          fun frag ↦ (file, frag)).foldl (fun view (file, frag) ↦ V.merge view file frag)
            (viewAt V ix path) := by
  induction frags generalizing ix with
  | nil => exact ⟨hkeyed, fun _ ↦ rfl⟩
  | cons frag rest ih =>
    obtain ⟨hkeyed', hview⟩ := mergeOneFragment_spec (V := V) hkeyed file frag
    obtain ⟨hkeyed'', hrest⟩ := ih hkeyed'
    refine ⟨hkeyed'', fun path ↦ ?_⟩
    rw [List.foldl_cons, hrest, hview, List.filter_cons]
    by_cases h : frag.path = path ∧ frag.declaredOwnerRequired = false
    · simp [h]
    · simp [h]

/-- The class at a path is the fold of the fragments written there. -/
theorem mergeFiles_spec (files : List (SourceFile × FileDefs)) {ix : ProjectIndex}
    (hkeyed : ix.WellKeyed) :
    (ix.mergeFiles files).WellKeyed ∧
      ∀ path, viewAt V (ix.mergeFiles files) path =
        (fragmentsAt files path).foldl (fun view (file, frag) ↦ V.merge view file frag)
          (viewAt V ix path) := by
  induction files generalizing ix with
  | nil => exact ⟨hkeyed, fun _ ↦ rfl⟩
  | cons entry rest ih =>
    obtain ⟨file, defs⟩ := entry
    have hkeyed' : (ix.mergeFileAccumulators defs).WellKeyed := hkeyed
    obtain ⟨hfile, hview⟩ := foldl_mergeOneFragment_spec (V := V) file defs.fragments hkeyed'
    obtain ⟨hall, hrest⟩ := ih hfile
    refine ⟨hall, fun path ↦ ?_⟩
    have hstart : viewAt V (ix.mergeFileAccumulators defs) path = viewAt V ix path := rfl
    change viewAt V ((defs.fragments.foldl (mergeOneFragment file)
      (ix.mergeFileAccumulators defs)).mergeFiles rest) path = _
    rw [hrest, hview, hstart]
    simp only [fragmentsAt, List.flatMap_cons, List.foldl_append]

end ProjectIndex

end Itaruby
