import Itaruby.Index.ConstPaths
import Itaruby.Index.Growth
import Itaruby.Index.Lookup

/-!
Whether a constant exists, asked before a reference is reported: the classes first, then the
constants of the lexical scopes and their ancestors, then the top level. Every constant that
the index lists exists for the references that Ruby resolves to it.
-/

set_option autoImplicit false
set_option relaxedAutoImplicit false

namespace Itaruby

/-- `stdlib_declares`, with the libraries that declare a constant. -/
def stdlibDeclares (libs : ConstPath → List String) (requires : Finset String)
    (nesting : List ConstPath) (name : ConstPath) : Bool :=
  let name := trimCbase name
  let provided (path : ConstPath) := (libs path).any fun lib ↦ decide (lib ∈ requires)
  provided name || nesting.reverse.any fun level ↦ provided (level ++ name)

namespace ProjectIndex

section Exists

variable (libs : ConstPath → List String) (ix : ProjectIndex)

/-- `const_exists` after the classes have been tried. The empty text before the `::` of a rooted
name of one segment names nothing. -/
def constListed (nesting : List ConstPath) (name : ConstPath) : Fueled Bool :=
  let stdlib := stdlibDeclares libs ix.requires nesting name
  match name.reverse with
  | [] => pure stdlib
  | [simple] => do
    let member ← nesting.reverse.anyM fun level ↦
      match ix.byPath.lookup level with
      | some id => ix.constInAncestors id simple
      | none => pure false
    return member || decide ([simple] ∈ ix.toplevelConsts) || stdlib
  | [simple, ""] => pure (decide ([simple] ∈ ix.toplevelConsts) || stdlib)
  | simple :: qualifier =>
    match ix.resolveConstThroughAliases nesting qualifier.reverse with
    | some owner => do
      let member ← ix.constInAncestors owner simple
      return member || stdlib
    | none => pure (decide (name ∈ ix.toplevelConsts) || stdlib)

def constExists (nesting : List ConstPath) (name : ConstPath) : Fueled Bool :=
  match ix.constResolution nesting name with
  | .resolved _ => pure true
  | .ambiguous => pure true
  | .missing => ix.constListed libs nesting name

end Exists

variable {libs : ConstPath → List String} {ix : ProjectIndex} {nesting : List ConstPath}

/-! ### What the index lists -/

/-- A constant of the index: a class, a value of a class, or one of the top level; the owner of
`A::B = value` may be no class of the project. -/
inductive Lists (ix : ProjectIndex) : ConstPath → Prop
  | object {path : ConstPath} {id : ClassId} : ix.byPath.lookup path = some id → Lists ix path
  | value {owner : ConstPath} {id : ClassId} {simple : String} :
      owner ≠ [] → ix.byPath.lookup owner = some id → simple ∈ (ix.classOf id).consts →
      Lists ix (owner ++ [simple])
  | toplevel {simple : String} : [simple] ∈ ix.toplevelConsts → Lists ix [simple]
  | unowned {owner : ConstPath} {simple : String} :
      owner ≠ [] → ix.byPath.lookup owner = none → owner ++ [simple] ∈ ix.toplevelConsts →
      Lists ix (owner ++ [simple])

/-- The constant that Ruby finds for a name: in a lexical scope, in an ancestor of the innermost
one, at top level, or in what the qualifier of the name denotes and its ancestors. What a
qualifier denotes and what the ancestors are is as the index has it. -/
inductive RefersTo (ix : ProjectIndex) (nesting : List ConstPath) : ConstPath → ConstPath → Prop
  | lexical {level : ConstPath} {id : ClassId} {simple : String} :
      level ∈ nesting → ix.byPath.lookup level = some id →
      RefersTo ix nesting [simple] (level ++ [simple])
  | inherited {inner owner : ConstPath} {id a : ClassId} {chain : List ClassId}
      {simple : String} :
      nesting.getLast? = some inner → ix.byPath.lookup inner = some id →
      (ix.ancestorChain id).Returns chain → a ∈ chain → ix.byPath.lookup owner = some a →
      RefersTo ix nesting [simple] (owner ++ [simple])
  | toplevel {simple : String} :
      (∀ level ∈ nesting, ix.constAliases.lookup (level ++ [simple]) = none) →
      RefersTo ix nesting [simple] [simple]
  | rooted {simple : String} : RefersTo ix nesting ["", simple] [simple]
  | member {qualifier owner : ConstPath} {id a : ClassId} {chain : List ClassId}
      {simple : String} :
      qualifier ≠ [] → qualifier ≠ [""] → owner ≠ [] →
      ix.resolveConstThroughAliases nesting qualifier = some id →
      (ix.ancestorChain id).Returns chain → a ∈ chain → ix.byPath.lookup owner = some a →
      RefersTo ix nesting (qualifier ++ [simple]) (owner ++ [simple])
  | unowned {owner : ConstPath} {simple : String} :
      owner ≠ [] → owner ≠ [""] → stripCbase (owner ++ [simple]) = none →
      ix.byPath.lookup owner = none → ix.resolveConstThroughAliases nesting owner = none →
      ix.conflictingConstScope nesting = false →
      RefersTo ix nesting (owner ++ [simple]) (owner ++ [simple])

/-! ### A constant that is found missing -/

theorem not_declared_of_ancestors {id : ClassId} {simple : String} {chain : List ClassId}
    (h : (ix.constInAncestors id simple).Returns false)
    (hchain : (ix.ancestorChain id).Returns chain) {a : ClassId} (ha : a ∈ chain) :
    simple ∉ (ix.classOf a).consts ∧
      ix.byPath.lookup ((ix.classOf a).path ++ [simple]) = none := by
  obtain ⟨chain', hchain', hany⟩ := Fueled.returns_bind.mp h
  obtain rfl := hchain'.unique hchain
  have hnone := List.any_eq_false.mp (Fueled.returns_pure.mp hany) a ha
  simp only [Bool.or_eq_true, not_or, decide_eq_true_eq, List.contains_iff_mem,
    Bool.not_eq_true, Option.isSome_eq_false_iff, Option.isNone_iff_eq_none] at hnone
  exact ⟨hnone.1.2, hnone.2⟩

theorem not_declared_of_self {id : ClassId} {simple : String}
    (h : (ix.constInAncestors id simple).Returns false) :
    simple ∉ (ix.classOf id).consts ∧
      ix.byPath.lookup ((ix.classOf id).path ++ [simple]) = none := by
  obtain ⟨chain, hchain, -⟩ := Fueled.returns_bind.mp h
  obtain ⟨⟨_, complete⟩, hancestors, rfl⟩ := Fueled.returns_map.mp hchain
  exact not_declared_of_ancestors h hchain (self_mem_ancestors hancestors)

theorem missing_of_not_exists {name : ConstPath}
    (h : (ix.constExists libs nesting name).Returns false) :
    ix.constResolution nesting name = .missing ∧
      (ix.constListed libs nesting name).Returns false := by
  unfold constExists at h
  split at h
  · exact absurd (Fueled.returns_pure.mp h) (by decide)
  · exact absurd (Fueled.returns_pure.mp h) (by decide)
  · exact ⟨by assumption, h⟩

theorem resolveConst_eq_none_of_missing {name : ConstPath}
    (h : ix.constResolution nesting name = .missing) : ix.resolveConst nesting name = none := by
  unfold constResolution resolveConstPath at h
  split at h
  · cases h
  · assumption

/-- A name of one segment is missing where every scope, its ancestors and the top level are. -/
theorem bare_missing {simple : String}
    (h : (ix.constExists libs nesting [simple]).Returns false) :
    (∀ level ∈ nesting, ∀ id, ix.byPath.lookup level = some id →
      (ix.constInAncestors id simple).Returns false) ∧ [simple] ∉ ix.toplevelConsts := by
  obtain ⟨-, h⟩ := missing_of_not_exists h
  obtain ⟨member, hmember, h⟩ := Fueled.returns_bind.mp h
  have hfalse := Fueled.returns_pure.mp h
  simp only [Bool.or_eq_false_iff, decide_eq_false_iff_not] at hfalse
  obtain ⟨⟨rfl, htop⟩, -⟩ := hfalse
  refine ⟨fun level hlevel id hid ↦ ?_, htop⟩
  have := Fueled.returns_anyM_false.mp hmember level (List.mem_reverse.mpr hlevel)
  rwa [hid] at this

theorem rooted_missing {simple : String}
    (h : (ix.constExists libs nesting ["", simple]).Returns false) :
    ix.byPath.lookup [simple] = none ∧ [simple] ∉ ix.toplevelConsts := by
  obtain ⟨hmissing, h⟩ := missing_of_not_exists h
  refine ⟨resolveConst_eq_none_of_missing hmissing, ?_⟩
  have hfalse := Fueled.returns_pure.mp h
  simp only [Bool.or_eq_false_iff, decide_eq_false_iff_not] at hfalse
  exact hfalse.1

/-- A qualified name is missing where the class that the qualifier denotes and its ancestors
miss it. -/
theorem qualified_missing {qualifier : ConstPath} {simple : String} (hne : qualifier ≠ [])
    (hroot : qualifier ≠ [""])
    (h : (ix.constExists libs nesting (qualifier ++ [simple])).Returns false) :
    (∀ id, ix.resolveConstThroughAliases nesting qualifier = some id →
      (ix.constInAncestors id simple).Returns false) ∧
    (ix.resolveConstThroughAliases nesting qualifier = none →
      qualifier ++ [simple] ∉ ix.toplevelConsts) := by
  obtain ⟨-, h⟩ := missing_of_not_exists h
  unfold constListed at h
  rw [List.reverse_append, List.reverse_singleton, List.singleton_append] at h
  have hrev : qualifier.reverse ≠ [] := by simpa using hne
  have hrevroot : qualifier.reverse ≠ [""] := fun heq ↦
    hroot (by simpa using congrArg List.reverse heq)
  split at h
  · rename_i heq
    cases heq
  · rename_i heq
    exact absurd (List.cons.inj heq).2 hrev
  · rename_i heq
    exact absurd (List.cons.inj heq).2 hrevroot
  · rename_i heq
    obtain ⟨rfl, rfl⟩ := List.cons.inj heq
    rw [List.reverse_reverse] at h
    constructor
    · intro id hid
      rw [hid] at h
      obtain ⟨member, hmember, h⟩ := Fueled.returns_bind.mp h
      have hfalse := Fueled.returns_pure.mp h
      simp only [Bool.or_eq_false_iff] at hfalse
      obtain ⟨rfl, -⟩ := hfalse
      exact hmember
    · intro hnone
      rw [hnone] at h
      have hfalse := Fueled.returns_pure.mp h
      simp only [Bool.or_eq_false_iff, decide_eq_false_iff_not] at hfalse
      exact hfalse.1

/-! ### The constants that are listed exist -/

/-- The lexical loop stops short of a class of the top level only where a value hides it or the
innermost scope is in conflict. -/
theorem hidden_of_unresolved {name : ConstPath} {levels : List ConstPath}
    {fallback : Option ClassId} (h : ix.resolveConstLevels name fallback levels = none) :
    fallback = none ∨ ∃ level ∈ levels, ix.shadows level name = true := by
  induction levels with
  | nil => exact .inl h
  | cons level outer ih =>
    unfold resolveConstLevels at h
    split at h
    · cases h
    · by_cases hshadow : ix.shadows level name = true
      · exact .inr ⟨level, List.mem_cons_self, hshadow⟩
      · rw [if_neg hshadow] at h
        exact (ih h).imp id fun ⟨l, hl, hs⟩ ↦ ⟨l, List.mem_cons_of_mem _ hl, hs⟩

theorem stripCbase_singleton (simple : String) : stripCbase [simple] = none := by
  unfold stripCbase
  split
  · rename_i heq
    cases heq
  · rfl

theorem value_of_shadows {level : ConstPath} {simple : String}
    (h : ix.shadows level [simple] = true) :
    ∃ id, ix.byPath.lookup level = some id ∧ simple ∈ (ix.classOf id).consts := by
  unfold shadows at h
  rw [Bool.and_eq_true] at h
  cases hid : ix.byPath.lookup level with
  | none => simp [hid] at h
  | some id =>
    rw [hid] at h
    obtain ⟨c, hc, heq⟩ := List.any_eq_true.mp h.2
    obtain rfl : c = simple := by simpa using heq
    exact ⟨id, rfl, hc⟩

theorem findAliasLevels_of_free {name : ConstPath} {fallback : Option ConstAlias}
    {levels : List ConstPath}
    (h : ∀ level ∈ levels, ix.constAliases.lookup (level ++ name) = none)
    (hfallback : fallback = none) : ix.findAliasLevels name fallback levels = none := by
  induction levels with
  | nil => exact hfallback
  | cons level outer ih =>
    rw [findAliasLevels, h level List.mem_cons_self,
      ih fun l hl ↦ h l (List.mem_cons_of_mem _ hl)]
    simp

/-- A class of the top level that no scope gives another meaning is not missing. -/
theorem toplevel_class_exists {simple : String} {id : ClassId}
    (hid : ix.byPath.lookup [simple] = some id)
    (hfree : ∀ level ∈ nesting, ix.constAliases.lookup (level ++ [simple]) = none)
    (h : (ix.constExists libs nesting [simple]).Returns false) : False := by
  obtain ⟨hlevels, -⟩ := bare_missing h
  have hmissing := (missing_of_not_exists h).1
  have hunresolved := resolveConst_eq_none_of_missing hmissing
  have hwalk := hunresolved
  unfold resolveConst at hwalk
  rw [stripCbase_singleton] at hwalk
  rcases hidden_of_unresolved hwalk with hfallback | hhidden
  · -- no scope hides the class, so the innermost one is in conflict, and nothing is settled
    have hconflict : ix.conflictingConstScope nesting = true := by
      by_contra hno
      rw [if_neg hno, hid] at hfallback
      cases hfallback
    have halias : ix.findConstAlias nesting [simple] = none := by
      unfold findConstAlias
      rw [stripCbase_singleton]
      exact findAliasLevels_of_free (fun level hl ↦ hfree level (List.mem_reverse.mp hl))
        (if_pos hconflict)
    have hambiguous : ix.constResolution nesting [simple] = .ambiguous := by
      simp [constResolution, resolveConstPath, scopeAndPath, stripCbase_singleton,
        resolveConstSegment, resolveLaterSegments, hunresolved, halias, hconflict]
    rw [hambiguous] at hmissing
    cases hmissing
  · obtain ⟨level, hlevel, hshadow⟩ := hhidden
    obtain ⟨owner, howner, hmem⟩ := value_of_shadows hshadow
    exact (not_declared_of_self (hlevels level (List.mem_reverse.mp hlevel) owner howner)).1 hmem

theorem append_singleton_inj {owner owner' : ConstPath} {simple simple' : String}
    (h : owner ++ [simple] = owner' ++ [simple']) : owner = owner' ∧ simple = simple' := by
  obtain ⟨howner, hsimple⟩ := List.append_inj' h rfl
  exact ⟨howner, (List.cons.inj hsimple).1⟩

theorem append_singleton_eq {owner : ConstPath} {simple simple' : String}
    (h : owner ++ [simple] = [simple']) : owner = [] ∧ simple = simple' := by
  have h' : owner ++ [simple] = [] ++ [simple'] := h
  exact append_singleton_inj h'

/-- A constant of a class exists for what is looked up in the class. -/
theorem Lists.not_missing {owner : ConstPath} {simple : String}
    (hlists : ix.Lists (owner ++ [simple])) (hkeyed : ix.WellKeyed) {id a : ClassId}
    {chain : List ClassId} (hchain : (ix.ancestorChain id).Returns chain) (ha : a ∈ chain)
    (hid : ix.byPath.lookup owner = some a)
    (h : (ix.constInAncestors id simple).Returns false) :
    owner = [] ∧ [simple] ∈ ix.toplevelConsts := by
  obtain ⟨hvalue, hclass⟩ := not_declared_of_ancestors h hchain ha
  rw [(hkeyed owner a hid).2] at hclass
  generalize hpath : owner ++ [simple] = path at hlists
  cases hlists with
  | object hobject =>
    rw [← hpath, hclass] at hobject
    cases hobject
  | value _ howner hmem =>
    obtain ⟨rfl, rfl⟩ := append_singleton_inj hpath
    rw [hid] at howner
    cases howner
    exact absurd hmem hvalue
  | toplevel htop =>
    obtain ⟨rfl, rfl⟩ := append_singleton_eq hpath
    exact ⟨rfl, htop⟩
  | unowned _ howner _ =>
    obtain ⟨rfl, rfl⟩ := append_singleton_inj hpath
    rw [hid] at howner
    cases howner

/-- A constant that the index lists exists for every name that refers to it. -/
theorem constExists_of_lists (hkeyed : ix.WellKeyed) {name path : ConstPath}
    (hlists : ix.Lists path) (hrefers : ix.RefersTo nesting name path) :
    ¬ (ix.constExists libs nesting name).Returns false := by
  intro h
  cases hrefers with
  | @lexical level id simple hlevel hid =>
    obtain ⟨hlevels, htop⟩ := bare_missing h
    have hmember := hlevels level hlevel id hid
    obtain ⟨chain, hchain, -⟩ := Fueled.returns_bind.mp hmember
    obtain ⟨⟨_, complete⟩, hancestors, rfl⟩ := Fueled.returns_map.mp hchain
    exact htop (hlists.not_missing hkeyed hchain (self_mem_ancestors hancestors) hid hmember).2
  | inherited hinner hid hchain ha howner =>
    obtain ⟨hlevels, htop⟩ := bare_missing h
    have hmember := hlevels _ (List.mem_of_getLast? hinner) _ hid
    exact htop (hlists.not_missing hkeyed hchain ha howner hmember).2
  | @toplevel simple hfree =>
    obtain ⟨-, htop⟩ := bare_missing h
    generalize hpath : [simple] = path at hlists
    cases hlists with
    | object hid =>
      subst hpath
      exact toplevel_class_exists hid hfree h
    | value hne _ _ => exact hne (append_singleton_eq hpath.symm).1
    | toplevel hmem =>
      cases hpath
      exact htop hmem
    | unowned hne _ _ => exact hne (append_singleton_eq hpath.symm).1
  | @rooted simple =>
    obtain ⟨hclass, htop⟩ := rooted_missing h
    generalize hpath : [simple] = path at hlists
    cases hlists with
    | object hid =>
      rw [← hpath, hclass] at hid
      cases hid
    | value hne _ _ => exact hne (append_singleton_eq hpath.symm).1
    | toplevel hmem =>
      cases hpath
      exact htop hmem
    | unowned hne _ _ => exact hne (append_singleton_eq hpath.symm).1
  | member hne hroot howner hid hchain ha hlookup =>
    have hmember := (qualified_missing hne hroot h).1 _ hid
    exact howner (hlists.not_missing hkeyed hchain ha hlookup hmember).1
  | @unowned owner simple hne hroot hplain hnone hunresolved hconflict =>
    have htop := (qualified_missing hne hroot h).2 hunresolved
    generalize hpath : owner ++ [simple] = path at hlists
    cases hlists with
    | @object _ id hid =>
      have hresolve := resolveConst_eq_none_of_missing (missing_of_not_exists h).1
      unfold resolveConst at hresolve
      rw [hplain, hpath, hconflict] at hresolve
      rcases hidden_of_unresolved hresolve with hfallback | ⟨level, -, hshadow⟩
      · rw [if_neg Bool.false_ne_true, hid] at hfallback
        cases hfallback
      · -- a value hides single names only
        unfold shadows singleSegment at hshadow
        rw [← hpath, List.length_append] at hshadow
        have hpos := List.length_pos_of_ne_nil hne
        rw [Bool.and_eq_true, beq_iff_eq] at hshadow
        simp only [List.length_singleton] at hshadow
        omega
    | value _ howner _ =>
      obtain ⟨rfl, rfl⟩ := append_singleton_inj hpath
      rw [hnone] at howner
      cases howner
    | toplevel hmem => exact hne (append_singleton_eq hpath).1
    | unowned _ _ hmem => exact htop (hpath ▸ hmem)

/-! ### What the files record -/

end ProjectIndex

/-- A constant that a file records: a class or module, a value of one, a value of the top level,
or `A::B = value`. -/
inductive FileDefs.Records (defs : FileDefs) : ConstPath → Prop
  | object {frag : ClassFragment} :
      frag ∈ defs.fragments → frag.declaredOwnerRequired = false → Records defs frag.path
  | value {frag : ClassFragment} {simple : String} :
      frag ∈ defs.fragments → frag.declaredOwnerRequired = false → frag.path ≠ [] →
      simple ∈ frag.consts → Records defs (frag.path ++ [simple])
  | toplevel {simple : String} : simple ∈ defs.toplevelConsts → Records defs [simple]
  | qualified {owner : ConstPath} {simple : String} :
      owner ≠ [] → (owner, simple) ∈ defs.qualifiedWrites → Records defs (owner ++ [simple])

namespace ProjectIndex

/-- A qualified write is filed with its owner, or by its whole path at the top level. -/
theorem resolveQualifiedWrite_lists {ix : ProjectIndex} (hkeyed : ix.WellKeyed)
    (owner : ConstPath) (simple : String) :
    (∀ id, ix.byPath.lookup owner = some id →
      simple ∈ ((ix.resolveQualifiedWrite (owner, simple)).classOf id).consts) ∧
    (ix.byPath.lookup owner = none →
      owner ++ [simple] ∈ (ix.resolveQualifiedWrite (owner, simple)).toplevelConsts) := by
  unfold resolveQualifiedWrite
  constructor
  · intro id hid
    rw [hid]
    dsimp only
    rw [classOf_modifyClass, if_pos ⟨rfl, (hkeyed owner id hid).1⟩]
    exact List.mem_append_right _ List.mem_cons_self
  · intro hnone
    rw [hnone]
    exact Finset.mem_insert_self _ _

theorem resolveQualifiedConstWrites_lists {ix : ProjectIndex} (hkeyed : ix.WellKeyed)
    {writes : List (ConstPath × String)} {owner : ConstPath} {simple : String}
    (hmem : (owner, simple) ∈ writes) :
    (∀ id, ix.byPath.lookup owner = some id →
      simple ∈ ((ix.resolveQualifiedConstWrites writes).classOf id).consts) ∧
    (ix.byPath.lookup owner = none →
      owner ++ [simple] ∈ (ix.resolveQualifiedConstWrites writes).toplevelConsts) := by
  obtain ⟨before, after, rfl⟩ := List.append_of_mem hmem
  unfold resolveQualifiedConstWrites
  rw [List.foldl_append, List.foldl_cons]
  have hbefore : ix.Grows (before.foldl resolveQualifiedWrite ix) :=
    .foldl (fun write _ ix ↦ ix.resolveQualifiedWrite_grows write) ix
  have hkeys : ix.SameKeys (before.foldl resolveQualifiedWrite ix) :=
    .foldl resolveQualifiedWrite_sameKeys before ix
  have hafter (ix : ProjectIndex) : ix.Grows (after.foldl resolveQualifiedWrite ix) :=
    .foldl (fun write _ ix ↦ ix.resolveQualifiedWrite_grows write) ix
  obtain ⟨howned, hunowned⟩ :=
    resolveQualifiedWrite_lists (hbefore.wellKeyed hkeyed) owner simple
  constructor
  · intro id hid
    exact ((hafter _).classOf id).consts (howned id (hkeys.byPath ▸ hid))
  · intro hnone
    exact (hafter _).toplevelConsts (hunowned (hkeys.byPath ▸ hnone))

theorem mergeFiles_toplevelConsts {files : List (SourceFile × FileDefs)}
    (hfiles : FilesGrounded files) {entry : SourceFile × FileDefs} (hentry : entry ∈ files)
    {simple : String} (hmem : simple ∈ entry.2.toplevelConsts) :
    [simple] ∈ (({} : ProjectIndex).mergeFiles files).toplevelConsts := by
  refine Grows.foldl_reaches (I := fun _ ↦ True) (fun _ _ _ ↦ id)
    (fun ix ix' hgrows hix ↦ hgrows.toplevelConsts hix)
    (fun entry hentry ix ↦ ix.mergeFileFragments_grows entry.1 (hfiles entry hentry)) hentry
    (fun ix _ ↦ ?_) trivial
  have hgrows : (ix.mergeFileAccumulators entry.2).Grows
      (ix.mergeFileFragments entry.1 entry.2) :=
    .foldl (fun frag hfrag ix ↦ ix.mergeOneFragment_grows entry.1 (hfiles entry hentry frag hfrag)) _
  refine hgrows.toplevelConsts (Finset.mem_union_right _ ?_)
  exact List.mem_toFinset.mpr (List.mem_map.mpr ⟨simple, hmem, rfl⟩)

theorem mem_qualifiedWrites {files : List (SourceFile × FileDefs)} {entry : SourceFile × FileDefs}
    (hentry : entry ∈ files) {write : ConstPath × String} (h : write ∈ entry.2.qualifiedWrites) :
    write ∈ files.flatMap fun (_, defs) ↦ defs.qualifiedWrites :=
  List.mem_flatMap.mpr ⟨entry, hentry, h⟩

/-- Every constant that a file of the project records is a constant of the index. -/
theorem buildIndex_lists {input : BuildInput} (hfiles : FilesGrounded input.files)
    {ix : ProjectIndex} (h : (buildIndex input).Returns ix) {entry : SourceFile × FileDefs}
    (hentry : entry ∈ input.files) {path : ConstPath} (hrecords : entry.2.Records path) :
    ix.Lists path := by
  have hgrows := buildIndex_grows hfiles h
  cases hrecords with
  | object hfrag hfree =>
    obtain ⟨id, hid, -⟩ := hgrows.holdsAt (mergeFiles_holdsAt hfiles hentry hfrag hfree)
    exact .object hid
  | value hfrag hfree hne hmem =>
    obtain ⟨id, hid, hholds⟩ := hgrows.holdsAt (mergeFiles_holdsAt hfiles hentry hfrag hfree)
    exact .value hne hid (hholds.consts hfree hmem)
  | toplevel hmem =>
    exact .toplevel (hgrows.toplevelConsts (mergeFiles_toplevelConsts hfiles hentry hmem))
  | @qualified owner simple hne hmem =>
    obtain ⟨merged, hmerged, hbuild⟩ := Fueled.returns_bind.mp h
    obtain ⟨edges, -, hbuild⟩ := Fueled.returns_bind.mp hbuild
    obtain rfl := Fueled.returns_pure.mp hbuild
    have hstart := mergeFiles_grows {} hfiles
    have hreconciled :=
      (mergeInput_grows input).trans (reconcileSuperclasses_sameBodies hmerged).grows
    have hpatches := (hreconciled.trans (merged.beforePatches_grows input)).patches
      (hstart.patches empty_patchesGrounded)
    have hrest : (beforePatches input merged).Grows (applyPasses input merged) := by
      rw [applyPasses_eq]
      exact (applySingletonPatches_grows _ hpatches).trans (afterPatches_grows _ input)
    have hkeyed : (beforeWrites input merged).WellKeyed :=
      (hreconciled.trans (merged.beforeWrites_grows input)).wellKeyed
        (hstart.wellKeyed empty_wellKeyed)
    have hkeys : (applyPasses input merged).byPath = (beforeWrites input merged).byPath := by
      rw [applyPasses_eq, afterPatches_byPath, applySingletonPatches_byPath]
      exact (SameKeys.foldl resolveQualifiedWrite_sameKeys _ _).byPath
    obtain ⟨howned, hunowned⟩ :=
      resolveQualifiedConstWrites_lists hkeyed (mem_qualifiedWrites hentry hmem)
    cases hid : (applyPasses input merged).byPath.lookup owner with
    | some id => exact .value hne hid ((hrest.classOf id).consts (howned id (hkeys ▸ hid)))
    | none => exact .unowned hne hid (hrest.toplevelConsts (hunowned (hkeys ▸ hid)))

end ProjectIndex

end Itaruby
