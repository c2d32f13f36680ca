import Itaruby.Index.Lookup
import Itaruby.Index.Merge

/-!
Reconciliation of superclass headers. Headers of one class that disagree drop
its superclass edge and mark its ancestry ambiguous; the loop repeats because a
dropped edge can make another header ambiguous.
-/

set_option autoImplicit false
set_option relaxedAutoImplicit false

namespace Itaruby

namespace ProjectIndex

abbrev Header := ConstPath × List ConstPath

variable (ix : ProjectIndex)

def superclassHeaderIsAmbiguous (id : ClassId) (nesting : List ConstPath) (name : ConstPath) :
    Bool :=
  (stripCbase name).isNone && ix.conflictingConstScope nesting.dropLast &&
    (ix.resolveSuperclassLexical id nesting name).isNone

/-- One header against the first one. -/
def headerDisagrees (id : ClassId) (first : Header) (target : Option ClassId) (header : Header) :
    Fueled Bool :=
  if header = first then pure false
  else do
    let other ← ix.resolveSuperclassHeader ix.ancestorChain id header.2 header.1
    return target.isNone || target != other

def superclassHeadersAreAmbiguous (id : ClassId) (headers : List Header) : Fueled Bool :=
  if headers.any fun (name, nesting) ↦ ix.superclassHeaderIsAmbiguous id nesting name then
    pure true
  else
    match headers with
    | [] => pure false
    | [_] => pure false
    | first :: rest => do
      let target ← ix.resolveSuperclassHeader ix.ancestorChain id first.2 first.1
      rest.anyM (ix.headerDisagrees id first target)

def headersConflict (seen : Finset ClassId) (entry : ClassId × List Header) : Fueled Bool :=
  if entry.1 ∈ seen then pure false else ix.superclassHeadersAreAmbiguous entry.1 entry.2

/-- The classes not yet seen whose headers are ambiguous now. -/
def conflicts (seen : Finset ClassId) (declarations : List (ClassId × List Header)) :
    Fueled (List ClassId) :=
  List.map Prod.fst <$> Fueled.filter (ix.headersConflict seen) declarations

def dropSuperclass (ix : ProjectIndex) (id : ClassId) : ProjectIndex :=
  { ix.modifyClass id fun cls ↦ { cls with superclass := none } with
    ambiguousAncestry := insert id ix.ambiguousAncestry }

/-- `id` is outside the ambiguous set and has an ambiguous ancestor. -/
def isAffected (id : ClassId) : Fueled Bool :=
  if id ∈ ix.ambiguousAncestry then pure false
  else do
    let chain ← ix.ancestorChain id
    return chain.any fun a ↦ decide (a ∈ ix.ambiguousAncestry)

def propagateAncestryConflicts : Fueled (ProjectIndex × Bool) :=
  if ix.ambiguousAncestry = ∅ then pure (ix, false)
  else do
    let hits ← Fueled.filter ix.isAffected (ix.byPath.entries.map Sigma.snd)
    return ({ ix with ambiguousAncestry := ix.ambiguousAncestry ∪ hits.toFinset }, !hits.isEmpty)

/-- One round of the reconciliation loop. -/
def reconcileRound (declarations : List (ClassId × List Header))
    (st : ProjectIndex × Finset ClassId) :
    Fueled ((ProjectIndex × Finset ClassId) ⊕ ProjectIndex) := do
  let found ← st.1.conflicts st.2 declarations
  let (ix, changed) ← (found.foldl dropSuperclass st.1).propagateAncestryConflicts
  if changed || !found.isEmpty then return .inl (ix, st.2 ∪ found.toFinset) else return .inr ix

def declarationList : List (ClassId × List Header) :=
  ix.superclassDeclarations.entries.map fun entry ↦ (entry.1, entry.2)

def reconcileSuperclasses : Fueled ProjectIndex :=
  Fueled.iterate (reconcileRound ix.declarationList) ({ ix with superclassDeclarations := ∅ }, ∅)

/-- The reversed superclass edges, in table order. -/
def subclassEdges : List ClassId → Fueled (List (ClassId × ClassId))
  | [] => pure []
  | child :: rest => do
    let parent ← ix.superclassOf child
    let more ← subclassEdges rest
    return match parent with
      | some parent => if parent ≠ child then (parent, child) :: more else more
      | none => more

def addSubclass (table : AList fun _ : ClassId ↦ List ClassId) (edge : ClassId × ClassId) :
    AList fun _ : ClassId ↦ List ClassId :=
  table.insert edge.1 ((table.lookup edge.1).getD [] ++ [edge.2])

def buildSubclassMap : Fueled ProjectIndex := do
  let edges ← ix.subclassEdges (List.range ix.classes.length)
  return { ix with subclasses := edges.foldl addSubclass ix.subclasses }

/-! ### What reconciliation leaves alone -/

/-- The same classes up to their superclass names, and the same aliases and held patches. -/
structure SameBodies (ix ix' : ProjectIndex) : Prop where
  byPath : ix'.byPath = ix.byPath
  constAliases : ix'.constAliases = ix.constAliases
  singletonPatches : ix'.singletonPatches = ix.singletonPatches
  toplevelConsts : ix'.toplevelConsts = ix.toplevelConsts
  length : ix'.classes.length = ix.classes.length
  classOf : ∀ id, ∃ superclass, ix'.classOf id = { ix.classOf id with superclass }

namespace SameBodies

variable {ix ix' ix'' : ProjectIndex}

theorem refl (ix : ProjectIndex) : ix.SameBodies ix :=
  ⟨rfl, rfl, rfl, rfl, rfl, fun _ ↦ ⟨_, rfl⟩⟩

theorem trans (h : ix.SameBodies ix') (h' : ix'.SameBodies ix'') : ix.SameBodies ix'' := by
  refine ⟨h'.byPath.trans h.byPath, h'.constAliases.trans h.constAliases,
    h'.singletonPatches.trans h.singletonPatches,
    h'.toplevelConsts.trans h.toplevelConsts, h'.length.trans h.length, fun id ↦ ?_⟩
  obtain ⟨superclass, heq⟩ := h.classOf id
  obtain ⟨superclass', heq'⟩ := h'.classOf id
  exact ⟨superclass', by rw [heq', heq]⟩

theorem dropSuperclass (ix : ProjectIndex) (id : ClassId) : ix.SameBodies (ix.dropSuperclass id) := by
  refine ⟨rfl, rfl, rfl, rfl, List.length_modify _ _ _, fun a ↦ ?_⟩
  have heq : (ix.dropSuperclass id).classOf a =
      (ix.modifyClass id fun cls ↦ { cls with superclass := none }).classOf a := rfl
  rw [heq, classOf_modifyClass]
  split_ifs
  · exact ⟨none, rfl⟩
  · exact ⟨_, rfl⟩

theorem foldl_dropSuperclass (found : List ClassId) (ix : ProjectIndex) :
    ix.SameBodies (found.foldl ProjectIndex.dropSuperclass ix) := by
  induction found generalizing ix with
  | nil => exact refl ix
  | cons id rest ih => exact (dropSuperclass ix id).trans (ih _)

theorem view {β : Type} (V : FieldView β) (h : ix.SameBodies ix') (id : ClassId) :
    V.view (ix'.classOf id) = V.view (ix.classOf id) := by
  obtain ⟨superclass, heq⟩ := h.classOf id
  rw [heq, V.view_superclass]

end SameBodies

theorem propagateAncestryConflicts_sameBodies {ix ix' : ProjectIndex} {changed : Bool}
    (h : ix.propagateAncestryConflicts.Returns (ix', changed)) : ix.SameBodies ix' := by
  unfold propagateAncestryConflicts at h
  split_ifs at h
  · obtain ⟨rfl, -⟩ := Prod.mk.inj (Fueled.returns_pure.mp h)
    exact .refl ix
  · obtain ⟨hits, -, h⟩ := Fueled.returns_bind.mp h
    obtain ⟨rfl, -⟩ := Prod.mk.inj (Fueled.returns_pure.mp h)
    exact ⟨rfl, rfl, rfl, rfl, rfl, fun id ↦ ⟨_, rfl⟩⟩

theorem reconcileRound_sameBodies {declarations : List (ClassId × List Header)}
    {st : ProjectIndex × Finset ClassId} {next : (ProjectIndex × Finset ClassId) ⊕ ProjectIndex}
    (h : (reconcileRound declarations st).Returns next) :
    st.1.SameBodies (next.elim Prod.fst id) := by
  unfold reconcileRound at h
  obtain ⟨found, -, h⟩ := Fueled.returns_bind.mp h
  obtain ⟨⟨ix', changed⟩, hprop, h⟩ := Fueled.returns_bind.mp h
  have hsame := (SameBodies.foldl_dropSuperclass found st.1).trans
    (propagateAncestryConflicts_sameBodies hprop)
  dsimp only at h
  split_ifs at h
  · obtain rfl := Fueled.returns_pure.mp h
    exact hsame
  · obtain rfl := Fueled.returns_pure.mp h
    exact hsame

theorem reconcileSuperclasses_sameBodies {ix ix' : ProjectIndex}
    (h : ix.reconcileSuperclasses.Returns ix') : ix.SameBodies ix' := by
  refine Fueled.iterate_invariant (I := fun st ↦ ix.SameBodies st.1) (Q := ix.SameBodies)
    (fun st st' hst hstep ↦ hst.trans (reconcileRound_sameBodies hstep))
    (fun st r hst hstep ↦ hst.trans (reconcileRound_sameBodies hstep)) ?_ h
  exact ⟨rfl, rfl, rfl, rfl, rfl, fun id ↦ ⟨_, rfl⟩⟩

end ProjectIndex

end Itaruby
