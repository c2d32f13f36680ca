import Itaruby.Index.ConstPaths
import Itaruby.Index.Termination
import Itaruby.Ruby.Constants

/-!
The index's constants against Ruby's. Compared with Ruby's search over the same
declarations, the index leaves out the ancestors of the innermost scope, takes a
whole path from an outer scope past a nearer first segment, and keeps the first of
several assignments. Away from these places its answers are Ruby's.
-/

set_option autoImplicit false
set_option relaxedAutoImplicit false

namespace Itaruby

open Ruby

namespace ProjectIndex

variable (ix : ProjectIndex)

/-! ### What the files declare -/

abbrev Files := List (SourceFile × FileDefs)

def aliasWrites (files : Files) : List (ConstPath × List ConstPath × ConstPath) :=
  files.flatMap fun file ↦ file.2.constAliases

/-- The constants that are assigned anything but a literal path. -/
def valueWrites (files : Files) : List ConstPath :=
  files.flatMap fun file ↦ (file.2.consts.map Prod.fst).diff (file.2.constAliases.map Prod.fst)

def referenceAt (nesting : List ConstPath) (name : ConstPath) : Reference ConstPath :=
  match stripCbase name with
  | some rest => ⟨[], rest⟩
  | none => ⟨nesting.reverse, name⟩

/-- A declared class, or a namespace that a declared path goes through. -/
def IsNamespace (path : ConstPath) : Prop :=
  ∃ more id, ix.byPath.lookup (path ++ more) = some id

inductive Defines (files : Files) (owner : ConstPath) (name : String) :
    Definition ConstPath → Prop
  | object : ix.IsNamespace (owner ++ [name]) → Defines files owner name (.object (owner ++ [name]))
  | aliasOf {nesting : List ConstPath} {target : ConstPath} :
      (owner ++ [name], nesting, target) ∈ aliasWrites files →
      Defines files owner name (.aliasOf (referenceAt nesting target))
  | value : owner ++ [name] ∈ valueWrites files → Defines files owner name .value
  | unread : ix.shadows owner [name] = true →
      (∀ write ∈ aliasWrites files, write.1 ≠ owner ++ [name]) → Defines files owner name .value

/-- The definitions of one constant, listed. -/
def definitionsAt (files : Files) (owner : ConstPath) (name : String) :
    List (Definition ConstPath) :=
  let path := owner ++ [name]
  let writes := (aliasWrites files).filter fun write ↦ write.1 = path
  (if ix.byPath.keys.any path.isPrefixOf then [.object path] else []) ++
    (writes.map fun write ↦ .aliasOf (referenceAt write.2.1 write.2.2)) ++
    if path ∈ valueWrites files ∨ (ix.shadows owner [name] ∧ writes = []) then [.value] else []

variable {ix} in
theorem isNamespace_iff {path : ConstPath} :
    ix.IsNamespace path ↔ ix.byPath.keys.any path.isPrefixOf = true := by
  rw [List.any_eq_true]
  constructor
  · rintro ⟨more, id, hid⟩
    refine ⟨path ++ more, ?_, by simp⟩
    exact AList.mem_keys.mpr (AList.lookup_isSome.mp (by rw [hid]; rfl))
  · rintro ⟨key, hkey, hprefix⟩
    obtain ⟨more, rfl⟩ := List.isPrefixOf_iff_prefix.mp hprefix
    obtain ⟨id, hid⟩ := Option.isSome_iff_exists.mp (AList.lookup_isSome.mpr (AList.mem_keys.mp hkey))
    exact ⟨more, id, hid⟩

variable {ix} in
theorem defines_iff {files : Files} {owner : ConstPath} {name : String}
    {d : Definition ConstPath} :
    ix.Defines files owner name d ↔ d ∈ ix.definitionsAt files owner name := by
  unfold definitionsAt
  simp only [List.mem_append, List.mem_map, List.mem_filter, decide_eq_true_eq]
  constructor
  · intro h
    cases h with
    | object hnamespace =>
      rw [if_pos (isNamespace_iff.mp hnamespace)]
      exact Or.inl (Or.inl (List.mem_singleton.mpr rfl))
    | aliasOf hmem => exact Or.inl (Or.inr ⟨_, ⟨hmem, rfl⟩, rfl⟩)
    | value hmem => exact Or.inr (by simp [hmem])
    | unread hshadow hnone =>
      have hwrites : (aliasWrites files).filter (fun write ↦ write.1 = owner ++ [name]) = [] :=
        List.filter_eq_nil_iff.mpr fun write hwrite ↦ by simpa using hnone write hwrite
      rw [if_pos (Or.inr ⟨hshadow, hwrites⟩)]
      exact Or.inr (List.mem_singleton.mpr rfl)
  · rintro ((h | ⟨⟨path, nesting, target⟩, ⟨hmem, hpath⟩, rfl⟩) | h)
    · split_ifs at h with hnamespace
      · obtain rfl := List.mem_singleton.mp h
        exact .object (isNamespace_iff.mpr hnamespace)
      · simp at h
    · dsimp only at hpath
      subst hpath
      exact .aliasOf hmem
    · split_ifs at h with hvalue
      · obtain rfl := List.mem_singleton.mp h
        rcases hvalue with hmem | ⟨hshadow, hnone⟩
        · exact .value hmem
        · refine .unread hshadow fun write hwrite ↦ ?_
          simpa using List.filter_eq_nil_iff.mp hnone write hwrite
      · simp at h

/-- The declarations of the files, with every class under the path it is declared at. -/
def declarations (files : Files) : Declarations ConstPath where
  toplevel := []
  defs owner name := {d | ix.Defines files owner name d}
  Ancestry owner chain := ∃ id ids, ix.byPath.lookup owner = some id ∧
    (ix.ancestors id).Returns (ids, true) ∧ chain = ids.map fun a ↦ (ix.classOf a).path
  ancestry_unique := by
    rintro owner _ _ ⟨id, ids, hid, hret, rfl⟩ ⟨id', ids', hid', hret', rfl⟩
    obtain rfl := Option.some.inj (hid.symm.trans hid')
    obtain ⟨rfl, -⟩ := Prod.mk.inj (hret.unique hret')
    rfl

/-- The class a reference denotes, by Ruby's search over the declarations. -/
def RubyResolves (files : Files) (r : Reference ConstPath) (id : ClassId) : Prop :=
  ∃ path, (ix.declarations files).Denotes (.reference r) path ∧ ix.byPath.lookup path = some id

/-- The index never answers with a class that the reference does not denote. -/
def ResolvesAsRuby (files : Files) (nesting : List ConstPath) (name : ConstPath) : Prop :=
  ∀ id, ix.resolveConst nesting name = some id ∨
    ix.resolveConstThroughAliases nesting name = some id →
      ix.RubyResolves files (referenceAt nesting name) id

/-! ### The index a project's files are merged into -/

/-- What indexing keeps of the merge: every class under its own path, and of the literal
aliases at one path the first. -/
structure MergedFrom (files : Files) : Prop where
  path : ∀ path id, ix.byPath.lookup path = some id → (ix.classOf id).path = path
  constAliases : ix.constAliases = (aliasWrites files).foldl addAlias ∅

variable {ix}

theorem mergeSuperclassHeader_constAliases (ix : ProjectIndex) (id : ClassId)
    (frag : ClassFragment) : (ix.mergeSuperclassHeader id frag).constAliases = ix.constAliases := by
  unfold mergeSuperclassHeader
  cases frag.superclass with
  | none => rfl
  | some superclass =>
    dsimp only
    split_ifs
    · rfl
    · rfl
    · rfl

theorem mergeOneFragment_constAliases (file : SourceFile) (ix : ProjectIndex)
    (frag : ClassFragment) : (ix.mergeOneFragment file frag).constAliases = ix.constAliases := by
  unfold mergeOneFragment
  split_ifs
  · rfl
  · refine (mergeSuperclassHeader_constAliases (ix.intern frag.path).1 _ frag).trans ?_
    unfold intern
    cases ix.byPath.lookup frag.path with
    | some id => rfl
    | none => rfl

theorem foldl_mergeOneFragment_constAliases (file : SourceFile) (frags : List ClassFragment)
    (ix : ProjectIndex) :
    (frags.foldl (mergeOneFragment file) ix).constAliases = ix.constAliases := by
  induction frags generalizing ix with
  | nil => rfl
  | cons frag rest ih => rw [List.foldl_cons, ih, mergeOneFragment_constAliases]

theorem mergeFiles_constAliases (files : Files) (ix : ProjectIndex) :
    (ix.mergeFiles files).constAliases = (aliasWrites files).foldl addAlias ix.constAliases := by
  induction files generalizing ix with
  | nil => rfl
  | cons entry rest ih =>
    change ((ix.mergeFileFragments entry.1 entry.2).mergeFiles rest).constAliases = _
    rw [ih, mergeFileFragments, foldl_mergeOneFragment_constAliases]
    unfold aliasWrites
    rw [List.flatMap_cons, List.foldl_append]
    rfl

/-- The view that sees nothing, for the facts about the paths alone. -/
def classView : FieldView Unit where
  view _ := ()
  merge _ _ _ := ()
  view_superclass _ _ := rfl
  view_merge _ _ _ := rfl

theorem mergedFrom_mergeFiles (files : Files) : (mergeFiles {} files).MergedFrom files where
  path path id hid := by
    have hempty : ({} : ProjectIndex).WellKeyed := fun _ _ h ↦ by simp at h
    exact ((mergeFiles_spec (V := classView) files hempty).1 path id hid).2
  constAliases := mergeFiles_constAliases files {}

theorem MergedFrom.reconcileSuperclasses {files : Files} {ix' : ProjectIndex}
    (h : ix.MergedFrom files) (hix' : ix.reconcileSuperclasses.Returns ix') :
    ix'.MergedFrom files := by
  have hsame := reconcileSuperclasses_sameBodies hix'
  refine ⟨fun path id hid ↦ ?_, hsame.constAliases.trans h.constAliases⟩
  obtain ⟨superclass, heq⟩ := hsame.classOf id
  rw [heq]
  exact h.path path id (hsame.byPath ▸ hid)

theorem lookup_foldl_addAlias (writes : List (ConstPath × List ConstPath × ConstPath))
    (aliases : AList fun _ : ConstPath ↦ ConstAlias) (path : ConstPath) :
    (writes.foldl addAlias aliases).lookup path =
      ((aliases.lookup path).or ((writes.find? fun write ↦ write.1 = path).map Prod.snd)) := by
  induction writes generalizing aliases with
  | nil => simp
  | cons write rest ih =>
    rw [List.foldl_cons, ih, List.find?_cons]
    unfold addAlias
    by_cases hpath : write.1 = path
    · subst hpath
      cases hfound : aliases.lookup write.1 with
      | some found => simp [hfound]
      | none => simp [AList.lookup_insert]
    · cases hfound : aliases.lookup write.1 with
      | some found => simp [hpath]
      | none => simp [AList.lookup_insert_ne (Ne.symm hpath), hpath]

section Aliases

variable {files : Files} (h : ix.MergedFrom files)

include h

theorem MergedFrom.lookup_constAliases (path : ConstPath) :
    ix.constAliases.lookup path =
      ((aliasWrites files).find? fun write ↦ write.1 = path).map Prod.snd := by
  rw [h.constAliases, lookup_foldl_addAlias]
  simp

theorem MergedFrom.mem_aliasWrites {path : ConstPath} {found : ConstAlias}
    (hfound : ix.constAliases.lookup path = some found) : (path, found) ∈ aliasWrites files := by
  rw [h.lookup_constAliases] at hfound
  obtain ⟨write, hwrite, rfl⟩ := Option.map_eq_some_iff.mp hfound
  have hpath : write.1 = path := by simpa using List.find?_some hwrite
  rw [← hpath]
  exact List.mem_of_find?_eq_some hwrite

theorem MergedFrom.lookup_constAliases_eq_none {path : ConstPath} :
    ix.constAliases.lookup path = none ↔ ∀ write ∈ aliasWrites files, write.1 ≠ path := by
  rw [h.lookup_constAliases]
  simp

end Aliases

/-! ### Where the index looks -/

variable (ix)

/-- The scopes of a reference and the top level, which a scope in conflict closes off. -/
def placesOf (scopes : List ConstPath) : List ConstPath :=
  scopes ++ if ix.conflictingConstScope scopes.reverse then [] else [[]]

variable {ix}

theorem resolveConstLevels_append (name : ConstPath) (levels more : List ConstPath)
    (fallback : Option ClassId) :
    ix.resolveConstLevels name (ix.resolveConstLevels name fallback more) levels =
      ix.resolveConstLevels name fallback (levels ++ more) := by
  induction levels with
  | nil => rfl
  | cons level outer ih => rw [List.cons_append, resolveConstLevels, resolveConstLevels, ih]

theorem findAliasLevels_append (name : ConstPath) (levels more : List ConstPath)
    (fallback : Option ConstAlias) :
    ix.findAliasLevels name (ix.findAliasLevels name fallback more) levels =
      ix.findAliasLevels name fallback (levels ++ more) := by
  induction levels with
  | nil => rfl
  | cons level outer ih => rw [List.cons_append, findAliasLevels, findAliasLevels, ih]

theorem resolveConstLevels_toplevel (name : ConstPath) :
    ix.resolveConstLevels name none [[]] = ix.byPath.lookup name := by
  unfold resolveConstLevels resolveConstLevels
  rw [List.nil_append]
  cases ix.byPath.lookup name with
  | some id => rfl
  | none => simp

theorem findAliasLevels_toplevel (name : ConstPath) :
    ix.findAliasLevels name none [[]] = ix.constAliases.lookup name := by
  unfold findAliasLevels findAliasLevels
  rw [List.nil_append]
  cases ix.constAliases.lookup name with
  | some found => rfl
  | none => simp

theorem resolveConst_eq (nesting : List ConstPath) (name : ConstPath) :
    ix.resolveConst nesting name =
      ix.resolveConstLevels (referenceAt nesting name).path none
        (ix.placesOf (referenceAt nesting name).scopes) := by
  unfold resolveConst referenceAt placesOf
  cases stripCbase name with
  | some rest => exact (resolveConstLevels_toplevel rest).symm
  | none =>
    dsimp only
    rw [List.reverse_reverse, ← resolveConstLevels_append]
    split_ifs
    · rfl
    · rw [resolveConstLevels_toplevel]

theorem findConstAlias_eq (nesting : List ConstPath) (name : ConstPath) :
    ix.findConstAlias nesting name =
      ix.findAliasLevels (referenceAt nesting name).path none
        (ix.placesOf (referenceAt nesting name).scopes) := by
  unfold findConstAlias referenceAt placesOf
  cases stripCbase name with
  | some rest => exact (findAliasLevels_toplevel rest).symm
  | none =>
    dsimp only
    rw [List.reverse_reverse, ← findAliasLevels_append]
    split_ifs
    · rfl
    · rw [findAliasLevels_toplevel]

theorem resolveConstLevels_eq_none {name : ConstPath} {levels : List ConstPath}
    (h : ∀ level ∈ levels, ix.byPath.lookup (level ++ name) = none) :
    ix.resolveConstLevels name none levels = none := by
  induction levels with
  | nil => rfl
  | cons level outer ih =>
    rw [resolveConstLevels, h level List.mem_cons_self,
      ih fun o ho ↦ h o (List.mem_cons_of_mem _ ho)]
    simp

theorem findAliasLevels_eq_none {name : ConstPath} {levels : List ConstPath}
    (h : ∀ level ∈ levels, ix.constAliases.lookup (level ++ name) = none) :
    ix.findAliasLevels name none levels = none := by
  induction levels with
  | nil => rfl
  | cons level outer ih =>
    rw [findAliasLevels, h level List.mem_cons_self,
      ih fun o ho ↦ h o (List.mem_cons_of_mem _ ho)]
    simp

/-! ### References that the index settles as Ruby does -/

variable (ix)

/-- The nearest place that declares the first segment declares it once, and what the index
passes over there is not declared farther out: neither the whole path nor, where the place
neither lists a class nor shadows the name, the segment. -/
structure DecidesAt (files : Files) (segment : String) (rest : List String) (place : ConstPath)
    (outer : List ConstPath) : Prop where
  once : ((ix.declarations files).defs place segment).Subsingleton
  whole : rest ≠ [] → ix.byPath.lookup (place ++ segment :: rest) = none →
    ∀ o ∈ outer, ix.byPath.lookup (o ++ segment :: rest) = none
  first : ix.byPath.lookup (place ++ [segment]) = none → ix.shadows place [segment] = false →
    ∀ o ∈ outer, ix.byPath.lookup (o ++ [segment]) = none ∧
      (ix.constAliases.lookup (place ++ [segment]) = none →
        ix.constAliases.lookup (o ++ [segment]) = none)

def NearestDecides (files : Files) (segment : String) (rest : List String) :
    List ConstPath → Prop
  | [] => True
  | place :: outer =>
    ((ix.declarations files).Silent place segment → NearestDecides files segment rest outer) ∧
    (¬ (ix.declarations files).Silent place segment →
      ix.DecidesAt files segment rest place outer)

/-- Where the index goes on to a class or an alias at top level, the ancestors of the innermost
scope are all known and leave the segment alone. -/
def AncestorsAside (files : Files) (scopes : List ConstPath) (segment : String) : Prop :=
  (∀ o ∈ scopes, (ix.declarations files).Silent o segment) →
    ix.conflictingConstScope scopes.reverse = false →
    (∃ d, ix.Defines files [] segment d ∧ d ≠ .value) →
    ∀ inner, scopes.head? = some inner → ∃ chain, (ix.declarations files).Ancestry inner chain ∧
      ∀ o ∈ chain, (ix.declarations files).Silent o segment

def SettledAt (files : Files) : Ruby.Query ConstPath → Prop
  | .reference ⟨scopes, segment :: rest⟩ =>
    ix.NearestDecides files segment rest (ix.placesOf scopes) ∧
      ix.AncestorsAside files scopes segment
  | .reference ⟨_, []⟩ => False
  | .definition _ => True
  | .member owner (segment :: _) => ((ix.declarations files).defs owner segment).Subsingleton
  | .member _ [] => True

/-- Every query that Ruby's search for the query goes through is settled. -/
def Settled (files : Files) (q : Ruby.Query ConstPath) : Prop :=
  ∀ q', (ix.declarations files).Visits q q' → ix.SettledAt files q'

variable {ix} {files : Files}

theorem Settled.self {q : Ruby.Query ConstPath} (h : ix.Settled files q) : ix.SettledAt files q :=
  h q .refl

theorem Settled.next {q q' : Ruby.Query ConstPath} (h : ix.Settled files q)
    (hvisit : (ix.declarations files).Visit q q') : ix.Settled files q' :=
  fun q'' hq'' ↦ h q'' (Relation.ReflTransGen.head hvisit hq'')

theorem isNamespace_of_lookup {path more : ConstPath} {id : ClassId}
    (h : ix.byPath.lookup (path ++ more) = some id) : ix.IsNamespace path := ⟨more, id, h⟩

theorem not_silent_of_defines {owner : ConstPath} {name : String} {d : Definition ConstPath}
    (h : ix.Defines files owner name d) : ¬ (ix.declarations files).Silent owner name := by
  intro hsilent
  have hmem : d ∈ (ix.declarations files).defs owner name := h
  rw [hsilent] at hmem
  exact hmem

/-- The object a listed path goes through is the only definition where there is only one. -/
theorem sole_object {owner : ConstPath} {name : String} {more : List String} {id : ClassId}
    (hid : ix.byPath.lookup (owner ++ name :: more) = some id)
    (honce : ((ix.declarations files).defs owner name).Subsingleton) :
    (ix.declarations files).Sole owner name (.object (owner ++ [name])) := by
  refine Declarations.sole_of_subsingleton honce (Defines.object ⟨more, id, ?_⟩)
  rwa [List.append_assoc]

theorem defines_of_lookup {owner : ConstPath} {name : String} {more : List String} {id : ClassId}
    (hid : ix.byPath.lookup (owner ++ name :: more) = some id) :
    ix.Defines files owner name (.object (owner ++ [name])) :=
  .object ⟨more, id, by rwa [List.append_assoc]⟩

/-- A class the scope loop finds is under the nearest declaration of the first segment. -/
theorem picks_of_listed {segment : String} {rest tail : List String}
    (htail : tail = rest ∨ tail = []) {places : List ConstPath}
    (h : ix.NearestDecides files segment rest places) {id : ClassId}
    (hid : ix.resolveConstLevels (segment :: tail) none places = some id) :
    ∃ place, (ix.declarations files).Picks places segment (.object (place ++ [segment])) ∧
      ix.byPath.lookup (place ++ segment :: tail) = some id := by
  induction places with
  | nil => simp [resolveConstLevels] at hid
  | cons place outer ih =>
    obtain ⟨hquiet, hdecides⟩ := h
    unfold resolveConstLevels at hid
    cases hlookup : ix.byPath.lookup (place ++ segment :: tail) with
    | some found =>
      rw [hlookup] at hid
      obtain rfl : found = id := Option.some.inj hid
      have hat := hdecides (not_silent_of_defines (defines_of_lookup hlookup))
      exact ⟨place, .here (sole_object hlookup hat.once), hlookup⟩
    | none =>
      rw [hlookup] at hid
      dsimp only at hid
      split_ifs at hid with hshadow
      by_cases hsilent : (ix.declarations files).Silent place segment
      · obtain ⟨o, hpicks, ho⟩ := ih (hquiet hsilent) hid
        exact ⟨o, .outward hsilent hpicks, ho⟩
      · have hat := hdecides hsilent
        have hnone : ∀ o ∈ outer, ix.byPath.lookup (o ++ segment :: tail) = none := by
          intro o ho
          by_cases hempty : tail = []
          · subst hempty
            exact (hat.first hlookup (Bool.eq_false_iff.mpr hshadow) o ho).1
          · obtain rfl : tail = rest := htail.resolve_right hempty
            exact hat.whole hempty hlookup o ho
        rw [resolveConstLevels_eq_none hnone] at hid
        simp at hid

/-- An alias the scope loop finds, where no class is found, is the nearest declaration. -/
theorem picks_of_alias (hix : ix.MergedFrom files) {segment : String} {rest : List String}
    {places : List ConstPath} (h : ix.NearestDecides files segment rest places)
    (hclass : ix.resolveConstLevels [segment] none places = none) {found : ConstAlias}
    (hfound : ix.findAliasLevels [segment] none places = some found) :
    (ix.declarations files).Picks places segment (.aliasOf (referenceAt found.1 found.2)) := by
  induction places with
  | nil => simp [findAliasLevels] at hfound
  | cons place outer ih =>
    obtain ⟨hquiet, hdecides⟩ := h
    unfold resolveConstLevels at hclass
    unfold findAliasLevels at hfound
    have hlookup : ix.byPath.lookup (place ++ [segment]) = none := by
      by_contra hne
      obtain ⟨id, hid⟩ := Option.ne_none_iff_exists'.mp hne
      rw [hid] at hclass
      simp at hclass
    cases halias : ix.constAliases.lookup (place ++ [segment]) with
    | some here =>
      rw [halias] at hfound
      obtain rfl : here = found := Option.some.inj hfound
      have hdef : ix.Defines files place segment (.aliasOf (referenceAt here.1 here.2)) :=
        .aliasOf (hix.mem_aliasWrites halias)
      exact .here (Declarations.sole_of_subsingleton
        (hdecides (not_silent_of_defines hdef)).once hdef)
    | none =>
      rw [halias] at hfound
      dsimp only at hfound
      split_ifs at hfound with hshadow
      rw [hlookup] at hclass
      dsimp only at hclass
      rw [if_neg hshadow] at hclass
      by_cases hsilent : (ix.declarations files).Silent place segment
      · exact .outward hsilent (ih (hquiet hsilent) hclass hfound)
      · have hat := (hdecides hsilent).first hlookup (Bool.eq_false_iff.mpr hshadow)
        rw [findAliasLevels_eq_none fun o ho ↦ (hat o ho).2 halias] at hfound
        simp at hfound

/-- What the index finds in its places is what Ruby's search for the first segment finds. -/
theorem firstPick_of_picks {scopes : List ConstPath} {segment : String} {rest : List String}
    (h : ix.SettledAt files (.reference ⟨scopes, segment :: rest⟩)) {d : Definition ConstPath}
    (hpicks : (ix.declarations files).Picks (ix.placesOf scopes) segment d) (hd : d ≠ .value) :
    (ix.declarations files).FirstPick scopes segment d := by
  obtain ⟨-, haside⟩ := h
  unfold placesOf at hpicks
  by_cases hconflict : ix.conflictingConstScope scopes.reverse = true
  · rw [if_pos hconflict, List.append_nil] at hpicks
    exact .lexical hpicks
  · rw [if_neg hconflict] at hpicks
    refine Declarations.FirstPick.of_picks hpicks fun hsilent ↦ ?_
    refine haside hsilent (Bool.eq_false_iff.mpr hconflict) ?_
    rcases hpicks.of_append with hlexical | ⟨-, htop⟩
    · exact absurd hsilent hlexical.not_all_silent
    · obtain ⟨o, ho, hsole⟩ := htop.exists_sole
      obtain rfl := List.mem_singleton.mp ho
      have hmem : d ∈ (ix.declarations files).defs [] segment := hsole ▸ rfl
      exact ⟨d, hmem, hd⟩

/-- Below a listed class every segment of its path is its owner's own. -/
theorem denotes_member_of_listed {path : List String} :
    ∀ {owner : ConstPath} {id : ClassId}, ix.byPath.lookup (owner ++ path) = some id →
      ix.Settled files (.member owner path) →
        (ix.declarations files).Denotes (.member owner path) (owner ++ path) := by
  induction path with
  | nil =>
    intro owner id hid _
    rw [List.append_nil]
    exact .found
  | cons segment rest ih =>
    intro owner id hid hsettled
    have hpick : (ix.declarations files).MemberPick owner segment (.object (owner ++ [segment])) :=
      .own (sole_object hid hsettled.self)
    have hsplit : owner ++ segment :: rest = owner ++ [segment] ++ rest := by simp
    rw [hsplit] at hid ⊢
    exact .member hpick .object (ih hid (hsettled.next (.memberRest hpick .object)))

/-! ### The walk -/

/-- What a follower of aliases is right about. -/
def FollowsAsRuby (ix : ProjectIndex) (files : Files) (follow : ConstAlias → AliasWalk) : Prop :=
  ∀ target walk id, (follow target walk).1 = .resolved id →
    ix.Settled files (.reference (referenceAt target.1 target.2)) →
      ix.RubyResolves files (referenceAt target.1 target.2) id

theorem scopeAndPath_eq (nesting : List ConstPath) (name : ConstPath) :
    scopeAndPath nesting name =
      ((referenceAt nesting name).scopes.reverse, (referenceAt nesting name).path) := by
  unfold scopeAndPath referenceAt
  cases stripCbase name with
  | some rest => rfl
  | none => simp

theorem resolveConst_denotes {nesting : List ConstPath} {name : ConstPath}
    (h : ix.Settled files (.reference (referenceAt nesting name))) {id : ClassId}
    (hid : ix.resolveConst nesting name = some id) :
    ix.RubyResolves files (referenceAt nesting name) id := by
  rw [resolveConst_eq] at hid
  generalize referenceAt nesting name = r at h hid ⊢
  obtain ⟨scopes, _ | ⟨segment, rest⟩⟩ := r
  · exact h.self.elim
  · obtain ⟨place, hpicks, hlookup⟩ := picks_of_listed (Or.inl rfl) h.self.1 hid
    have hpick := firstPick_of_picks h.self hpicks (by simp)
    have hsplit : place ++ segment :: rest = place ++ [segment] ++ rest := by simp
    have hmember := denotes_member_of_listed (hsplit ▸ hlookup)
      (h.next (.firstRest hpick .object))
    exact ⟨_, .reference hpick .object hmember, hsplit ▸ hlookup⟩

section Walk

variable (hix : ix.MergedFrom files) {follow : ConstAlias → AliasWalk}
  (hfollow : ix.FollowsAsRuby files follow)

include hix hfollow

theorem resolveConstSegment_first {scopes : List ConstPath} {segment : String}
    {rest : List String} (h : ix.Settled files (.reference ⟨scopes, segment :: rest⟩))
    {walk : ConstAliasWalk} {id : ClassId}
    (hid : (ix.resolveConstSegment follow scopes.reverse [segment] none walk).1 = .resolved id) :
    ∃ d path, (ix.declarations files).FirstPick scopes segment d ∧
      (ix.declarations files).Denotes (.definition d) path ∧ ix.byPath.lookup path = some id := by
  have hreference : referenceAt scopes.reverse [segment] = ⟨scopes, [segment]⟩ := by
    simp [referenceAt, stripCbase]
  have hnearest := h.self.1
  unfold resolveConstSegment at hid
  rw [resolveConst_eq, findConstAlias_eq, hreference] at hid
  cases hclass : ix.resolveConstLevels [segment] none (ix.placesOf scopes) with
  | some found =>
    rw [hclass] at hid
    obtain rfl : found = id := by simpa using hid
    obtain ⟨place, hpicks, hlookup⟩ := picks_of_listed (Or.inr rfl) hnearest hclass
    exact ⟨_, _, firstPick_of_picks h.self hpicks (by simp), .object, hlookup⟩
  | none =>
    rw [hclass] at hid
    cases hfound : ix.findAliasLevels [segment] none (ix.placesOf scopes) with
    | some found =>
      rw [hfound] at hid
      have hpick := firstPick_of_picks h.self (picks_of_alias hix hnearest hclass hfound) (by simp)
      obtain ⟨path, hdenotes, hlookup⟩ := hfollow found walk id hid
        ((h.next (.first hpick)).next .aliased)
      exact ⟨_, path, hpick, .aliased hdenotes, hlookup⟩
    | none =>
      rw [hfound] at hid
      dsimp only at hid
      split_ifs at hid

theorem resolveConstSegment_later {owner : ClassId} {path : ConstPath}
    (howner : ix.byPath.lookup path = some owner) {segment : String} {rest : List String}
    (h : ix.Settled files (.member path (segment :: rest))) {walk : ConstAliasWalk} {id : ClassId}
    (hid : (ix.resolveConstSegment follow [] ("" :: ((ix.classOf owner).path ++ [segment]))
      (some owner) walk).1 = .resolved id) :
    ∃ d path', (ix.declarations files).MemberPick path segment d ∧
      (ix.declarations files).Denotes (.definition d) path' ∧
      ix.byPath.lookup path' = some id := by
  have hstrip : stripCbase ("" :: (path ++ [segment])) = some (path ++ [segment]) := by
    cases path <;> rfl
  unfold resolveConstSegment resolveConst findConstAlias at hid
  rw [hix.path path owner howner, hstrip] at hid
  dsimp only at hid
  cases hclass : ix.byPath.lookup (path ++ [segment]) with
  | some found =>
    rw [hclass] at hid
    obtain rfl : found = id := by simpa using hid
    exact ⟨_, _, .own (sole_object hclass h.self), .object, hclass⟩
  | none =>
    rw [hclass] at hid
    cases hfound : ix.constAliases.lookup (path ++ [segment]) with
    | some found =>
      rw [hfound] at hid
      have hpick : (ix.declarations files).MemberPick path segment
          (.aliasOf (referenceAt found.1 found.2)) :=
        .own (Declarations.sole_of_subsingleton h.self (.aliasOf (hix.mem_aliasWrites hfound)))
      obtain ⟨path', hdenotes, hlookup⟩ := hfollow found walk id hid
        ((h.next (.member hpick)).next .aliased)
      exact ⟨_, path', hpick, .aliased hdenotes, hlookup⟩
    | none =>
      rw [hfound] at hid
      dsimp only at hid
      split_ifs at hid

theorem resolveLaterSegments_denotes {rest : List String} :
    ∀ {owner : ClassId} {path : ConstPath} {walk : ConstAliasWalk} {id : ClassId},
      ix.byPath.lookup path = some owner → ix.Settled files (.member path rest) →
      (ix.resolveLaterSegments follow (.resolved owner) rest walk).1 = .resolved id →
        ∃ path', (ix.declarations files).Denotes (.member path rest) path' ∧
          ix.byPath.lookup path' = some id := by
  induction rest with
  | nil =>
    intro owner path walk id howner _ hid
    obtain rfl : owner = id := by simpa [resolveLaterSegments] using hid
    exact ⟨path, .found, howner⟩
  | cons segment rest ih =>
    intro owner path walk id howner h hid
    unfold resolveLaterSegments at hid
    dsimp only at hid
    set step := ix.resolveConstSegment follow [] ("" :: ((ix.classOf owner).path ++ [segment]))
      (some owner) walk with hstep
    cases hfound : step.1 with
    | resolved found =>
      obtain ⟨d, path', hpick, hd, hlookup⟩ :=
        resolveConstSegment_later hix hfollow howner h hfound
      rw [hfound] at hid
      obtain ⟨path'', hrest, hlookup'⟩ := ih hlookup (h.next (.memberRest hpick hd)) hid
      exact ⟨path'', .member hpick hd hrest, hlookup'⟩
    | ambiguous => simp [hfound, resolveLaterSegments] at hid
    | missing => simp [hfound, resolveLaterSegments] at hid

theorem resolveConstPath_denotes {nesting : List ConstPath} {name : ConstPath}
    (h : ix.Settled files (.reference (referenceAt nesting name))) {walk : ConstAliasWalk}
    {id : ClassId} (hid : (ix.resolveConstPath follow nesting name walk).1 = .resolved id) :
    ix.RubyResolves files (referenceAt nesting name) id := by
  unfold resolveConstPath at hid
  cases hwhole : ix.resolveConst nesting name with
  | some found =>
    rw [hwhole] at hid
    obtain rfl : found = id := by simpa using hid
    exact resolveConst_denotes h hwhole
  | none =>
    rw [hwhole] at hid
    dsimp only at hid
    rw [scopeAndPath_eq] at hid
    generalize referenceAt nesting name = r at h hid ⊢
    obtain ⟨scopes, _ | ⟨segment, rest⟩⟩ := r
    · exact h.self.elim
    · dsimp only at hid
      set step := ix.resolveConstSegment follow scopes.reverse [segment] none walk with hstep
      cases hfound : step.1 with
      | resolved found =>
        obtain ⟨d, path, hpick, hd, hlookup⟩ := resolveConstSegment_first hix hfollow h hfound
        rw [hfound] at hid
        obtain ⟨path', hrest, hlookup'⟩ := resolveLaterSegments_denotes hix hfollow hlookup
          (h.next (.firstRest hpick hd)) hid
        exact ⟨path', .reference hpick hd hrest, hlookup'⟩
      | ambiguous => simp [hfound, resolveLaterSegments] at hid
      | missing => simp [hfound, resolveLaterSegments] at hid

end Walk

theorem followConstAlias_followsAsRuby (hix : ix.MergedFrom files) (depth : ℕ) :
    ix.FollowsAsRuby files (ix.followConstAlias depth) := by
  induction depth with
  | zero => intro target walk id hid; simp [followConstAlias] at hid
  | succ depth ih =>
    intro target walk id hid h
    unfold followConstAlias at hid
    split_ifs at hid
    exact resolveConstPath_denotes hix ih h hid

theorem resolvesAsRuby_of_settled (hix : ix.MergedFrom files) {nesting : List ConstPath}
    {name : ConstPath} (h : ix.Settled files (.reference (referenceAt nesting name))) :
    ix.ResolvesAsRuby files nesting name := by
  rintro id (hid | hid)
  · exact resolveConst_denotes h hid
  · unfold resolveConstThroughAliases constResolution at hid
    split at hid
    · next found hfound =>
      obtain rfl : found = id := Option.some.inj hid
      exact resolveConstPath_denotes hix (followConstAlias_followsAsRuby hix _) h hfound
    · simp at hid
    · simp at hid

/-! ### Where the condition is exact

A name of one segment whose nearest declaration is a listed class, in a project without
literal aliases.
-/

/-- The first of the places that declares the segment lists a class for it. -/
def NearestListed (ix : ProjectIndex) (files : Files) (segment : String)
    (places : List ConstPath) : Prop :=
  ∃ before place outer id, places = before ++ place :: outer ∧
    (∀ o ∈ before, (ix.declarations files).Silent o segment) ∧
    ix.byPath.lookup (place ++ [segment]) = some id

theorem lookup_eq_none_of_silent {owner : ConstPath} {segment : String}
    (h : (ix.declarations files).Silent owner segment) :
    ix.byPath.lookup (owner ++ [segment]) = none := by
  by_contra hne
  obtain ⟨id, hid⟩ := Option.ne_none_iff_exists'.mp hne
  exact not_silent_of_defines (defines_of_lookup hid) h

theorem shadows_eq_false_of_silent (halias : aliasWrites files = []) {owner : ConstPath}
    {segment : String} (h : (ix.declarations files).Silent owner segment) :
    ix.shadows owner [segment] = false := by
  by_contra hne
  refine not_silent_of_defines (.unread (Bool.not_eq_false _ ▸ hne) ?_) h
  simp [halias]

theorem resolveConstLevels_of_nearest (halias : aliasWrites files = [])
    {before outer : List ConstPath} {place : ConstPath} {segment : String} {id : ClassId}
    (hbefore : ∀ o ∈ before, (ix.declarations files).Silent o segment)
    (hid : ix.byPath.lookup (place ++ [segment]) = some id) :
    ix.resolveConstLevels [segment] none (before ++ place :: outer) = some id := by
  induction before with
  | nil => rw [List.nil_append, resolveConstLevels, hid]
  | cons o before ih =>
    have hsilent := hbefore o List.mem_cons_self
    rw [List.cons_append, resolveConstLevels, lookup_eq_none_of_silent hsilent,
      shadows_eq_false_of_silent halias hsilent]
    exact ih fun o' ho' ↦ hbefore o' (List.mem_cons_of_mem _ ho')

theorem nearestDecides_of_nearest {before outer : List ConstPath} {place : ConstPath}
    {segment : String} {id : ClassId}
    (hbefore : ∀ o ∈ before, (ix.declarations files).Silent o segment)
    (hid : ix.byPath.lookup (place ++ [segment]) = some id)
    (honce : ((ix.declarations files).defs place segment).Subsingleton) :
    ix.NearestDecides files segment [] (before ++ place :: outer) := by
  induction before with
  | nil =>
    refine ⟨fun hsilent ↦ ?_, fun _ ↦ ⟨honce, by simp, fun hnone ↦ ?_⟩⟩
    · exact absurd hsilent (not_silent_of_defines (defines_of_lookup hid))
    · simp [hid] at hnone
  | cons o before ih =>
    refine ⟨fun _ ↦ ih fun o' ho' ↦ hbefore o' (List.mem_cons_of_mem _ ho'), fun hnot ↦ ?_⟩
    exact absurd (hbefore o List.mem_cons_self) hnot

theorem sole_of_nearest {before outer : List ConstPath} {place : ConstPath}
    {segment : String} {id : ClassId} {d : Definition ConstPath}
    (hbefore : ∀ o ∈ before, (ix.declarations files).Silent o segment)
    (hid : ix.byPath.lookup (place ++ [segment]) = some id)
    (hpicks : (ix.declarations files).Picks (before ++ place :: outer) segment d) :
    (ix.declarations files).Sole place segment d := by
  rcases hpicks.of_append with h | ⟨-, h⟩
  · exact absurd hbefore h.not_all_silent
  · cases h with
    | here hsole => exact hsole
    | outward hsilent _ =>
      exact absurd hsilent (not_silent_of_defines (defines_of_lookup hid))

/-- Without aliases a one-segment reference denotes the object its first pick is. -/
theorem firstPick_of_denotes (halias : aliasWrites files = []) {scopes : List ConstPath}
    {segment : String} {path : ConstPath}
    (h : (ix.declarations files).Denotes (.reference ⟨scopes, [segment]⟩) path) :
    (ix.declarations files).FirstPick scopes segment (.object path) := by
  cases h with
  | reference hpick hd hrest =>
    cases hrest with
    | found =>
      cases hd with
      | object => exact hpick
      | aliased _ =>
        obtain ⟨owner, hsole⟩ := hpick.exists_sole
        have hdef : ix.Defines files owner segment (.aliasOf _) := hsole.mem
        cases hdef with
        | aliasOf hmem => simp [halias] at hmem

/-- The ancestors the index knows of are classes of the table. -/
theorem ancestry_named (hix : ix.MergedFrom files) (hroot : ix.byPath.lookup [] = none)
    {inner : ConstPath} {chain : List ConstPath}
    (h : (ix.declarations files).Ancestry inner chain) : [] ∉ chain := by
  obtain ⟨id, ids, hid, hret, rfl⟩ := h
  intro hmem
  obtain ⟨a, ha, hempty⟩ := List.mem_map.mp hmem
  have hlisted : ∃ path, ix.byPath.lookup path = some a := by
    rcases Relation.ReflTransGen.cases_tail ((mem_ancestors_iff hret).mp ha) with rfl | ⟨b, -, hb⟩
    · exact ⟨inner, hid⟩
    · exact ix.exists_path_of_mem_targets (ancestor_mem_targets hb)
  obtain ⟨path, hpath⟩ := hlisted
  have heq := hix.path path a hpath
  rw [hempty] at heq
  rw [← heq, hroot] at hpath
  simp at hpath

theorem settled_object (o : ConstPath) : ix.Settled files (.definition (.object o)) := by
  intro q hq
  rcases hq.cases_head with rfl | ⟨q', hvisit, -⟩
  · trivial
  · cases hvisit

theorem settled_found (o : ConstPath) : ix.Settled files (.member o []) := by
  intro q hq
  rcases hq.cases_head with rfl | ⟨q', hvisit, -⟩
  · trivial
  · cases hvisit

theorem settled_member {owner path : ConstPath} {segment : String} {rest : List String}
    (hpick : (ix.declarations files).MemberPick owner segment (.object path))
    (hat : ix.SettledAt files (.member owner (segment :: rest)))
    (hrest : ix.Settled files (.member path rest)) :
    ix.Settled files (.member owner (segment :: rest)) := by
  intro q hq
  rcases hq.cases_head with rfl | ⟨q', hvisit, hq'⟩
  · exact hat
  · cases hvisit with
    | member hpick' =>
      obtain rfl := hpick'.unique hpick
      exact settled_object path q hq'
    | memberRest hpick' hd =>
      obtain rfl := hpick'.unique hpick
      cases hd with
      | object => exact hrest q hq'

theorem settled_reference {scopes : List ConstPath} {path : ConstPath} {segment : String}
    {rest : List String}
    (hpick : (ix.declarations files).FirstPick scopes segment (.object path))
    (hat : ix.SettledAt files (.reference ⟨scopes, segment :: rest⟩))
    (hrest : ix.Settled files (.member path rest)) :
    ix.Settled files (.reference ⟨scopes, segment :: rest⟩) := by
  intro q hq
  rcases hq.cases_head with rfl | ⟨q', hvisit, hq'⟩
  · exact hat
  · cases hvisit with
    | first hpick' =>
      obtain rfl := hpick'.unique hpick
      exact settled_object path q hq'
    | firstRest hpick' hd =>
      obtain rfl := hpick'.unique hpick
      cases hd with
      | object => exact hrest q hq'

theorem settled_of_resolvesAsRuby (hix : ix.MergedFrom files) (halias : aliasWrites files = [])
    (hroot : ix.byPath.lookup [] = none) {nesting : List ConstPath} {name : ConstPath}
    {scopes : List ConstPath} {segment : String}
    (hreference : referenceAt nesting name = ⟨scopes, [segment]⟩)
    (hnear : ix.NearestListed files segment (ix.placesOf scopes))
    (h : ix.ResolvesAsRuby files nesting name) :
    ix.Settled files (.reference ⟨scopes, [segment]⟩) := by
  obtain ⟨before, place, outer, id, hplaces, hbefore, hid⟩ := hnear
  have hresolve : ix.resolveConst nesting name = some id := by
    rw [resolveConst_eq, hreference]
    dsimp only
    rw [hplaces]
    exact resolveConstLevels_of_nearest halias hbefore hid
  obtain ⟨path, hdenotes, hpath⟩ := h id (Or.inl hresolve)
  rw [hreference] at hdenotes
  have hpick := firstPick_of_denotes halias hdenotes
  have hpathEq : path = place ++ [segment] :=
    (hix.path _ _ hpath).symm.trans (hix.path _ _ hid)
  suffices hat : ((ix.declarations files).defs place segment).Subsingleton ∧
      ix.AncestorsAside files scopes segment by
    refine settled_reference hpick ⟨?_, hat.2⟩ (settled_found path)
    rw [hplaces]
    exact nearestDecides_of_nearest hbefore hid hat.1
  have hlast : ∀ o ∈ ix.placesOf scopes, o ∉ scopes → o = [] := by
    intro o ho hnot
    unfold placesOf at ho
    split_ifs at ho
    · exact absurd (by simpa using ho) hnot
    · rcases List.mem_append.mp ho with ho | ho
      · exact absurd ho hnot
      · exact List.mem_singleton.mp ho
  have hplace : place ∈ ix.placesOf scopes := by simp [hplaces]
  have htop : (∀ o ∈ scopes, (ix.declarations files).Silent o segment) → place = [] := by
    refine fun hsilent ↦ hlast place hplace fun hmem ↦ ?_
    exact not_silent_of_defines (defines_of_lookup hid) (hsilent place hmem)
  cases hpick with
  | lexical hpicks =>
    have hplaced : (ix.declarations files).Picks (before ++ place :: outer) segment
        (.object path) := hplaces ▸ hpicks.append_right _
    refine ⟨(sole_of_nearest hbefore hid hplaced).subsingleton, fun hsilent ↦ ?_⟩
    exact absurd hsilent hpicks.not_all_silent
  | inherited hsilent hhead hancestry hpicks =>
    obtain rfl := htop hsilent
    rcases hpicks.of_append with hchain | ⟨hquiet, hpicks⟩
    · obtain ⟨o, ho, hsole⟩ := hchain.exists_sole
      have hdef : ix.Defines files o segment (.object path) := hsole.mem
      obtain ⟨rfl⟩ : o = [] := by
        cases hdef with
        | object _ => simpa using hpathEq
      exact absurd ho (ancestry_named hix hroot hancestry)
    · obtain ⟨o, ho, hsole⟩ := hpicks.exists_sole
      obtain rfl := List.mem_singleton.mp ho
      refine ⟨hsole.subsingleton, fun _ _ _ inner hinner ↦ ?_⟩
      obtain rfl := Option.some.inj (hhead.symm.trans hinner)
      exact ⟨_, hancestry, hquiet⟩
  | toplevel hnil hpicks =>
    obtain rfl := htop (by simp [hnil])
    obtain ⟨o, ho, hsole⟩ := hpicks.exists_sole
    obtain rfl := List.mem_singleton.mp ho
    exact ⟨hsole.subsingleton, fun _ _ _ inner hinner ↦ by simp [hnil] at hinner⟩

/-- A top-level `Client`, another one in `Support`, and `Host` that includes `Support`. -/
def hostFiles : Files :=
  [("client.rb", { fragments := [{ path := ["Client"], nesting := [["Client"]], isModule := false }] }),
   ("support.rb", { fragments :=
     [{ path := ["Support"], nesting := [["Support"]], isModule := true },
      { path := ["Support", "Client"], nesting := [["Support"], ["Support", "Client"]],
        isModule := false }] }),
   ("host.rb", { fragments :=
     [{ path := ["Host"], nesting := [["Host"]], isModule := false,
        includes := [["Support"]] }] })]

def hostClasses : ProjectIndex := mergeFiles {} hostFiles

theorem silent_of_definitionsAt {owner : ConstPath} {name : String}
    (h : ix.definitionsAt files owner name = []) : (ix.declarations files).Silent owner name := by
  refine Set.eq_empty_iff_forall_notMem.mpr fun d hd ↦ ?_
  have hmem := defines_iff.mp hd
  rw [h] at hmem
  simp at hmem

theorem sole_of_definitionsAt {owner : ConstPath} {name : String} {d : Definition ConstPath}
    (h : ix.definitionsAt files owner name = [d]) :
    (ix.declarations files).Sole owner name d := by
  refine Set.ext fun d' ↦ ?_
  rw [Set.mem_singleton_iff, ← List.mem_singleton, ← h]
  exact defines_iff

theorem host_ancestry :
    (hostClasses.declarations hostFiles).Ancestry ["Host"] [["Host"], ["Support"]] :=
  ⟨3, [3, 1], by decide, ⟨8, rfl⟩, by decide⟩

theorem host_client_pick :
    (hostClasses.declarations hostFiles).FirstPick [["Host"]] "Client"
      (.object ["Support", "Client"]) := by
  refine .inherited (fun o ho ↦ ?_) rfl host_ancestry (.outward ?_ (.here ?_))
  · obtain rfl := List.mem_singleton.mp ho
    exact silent_of_definitionsAt rfl
  · exact silent_of_definitionsAt rfl
  · exact sole_of_definitionsAt rfl

end ProjectIndex

end Itaruby
