import Itaruby.Index.Basic

/-!
Lexical constant resolution over the class table: the innermost scope outward,
then the top level, without the ancestors of the scope.
-/

set_option autoImplicit false
set_option relaxedAutoImplicit false

namespace Itaruby

namespace ProjectIndex

variable (ix : ProjectIndex)

/-- A plain `NAME = expr` in the scope `level` hides every outer class of that name. -/
def shadows (level name : ConstPath) : Bool :=
  singleSegment name &&
    match ix.byPath.lookup level with
    | some sid => (ix.classOf sid).consts.any fun c ↦ [c] == name
    | none => false

/-- The innermost scope's ancestry is in conflict. -/
def conflictingConstScope (nesting : List ConstPath) : Bool :=
  match nesting.getLast? with
  | some scope =>
    match ix.byPath.lookup scope with
    | some id => decide (id ∈ ix.ambiguousAncestry)
    | none => false
  | none => false

/-- The scope loop of `resolve_const`, innermost scope first; `fallback` is what
follows the loop when no scope decides. -/
def resolveConstLevels (name : ConstPath) (fallback : Option ClassId) :
    List ConstPath → Option ClassId
  | [] => fallback
  | level :: outer =>
    match ix.byPath.lookup (level ++ name) with
    | some id => some id
    | none => if ix.shadows level name then none else resolveConstLevels name fallback outer

def resolveConst (nesting : List ConstPath) (name : ConstPath) : Option ClassId :=
  match stripCbase name with
  | some rest => ix.byPath.lookup rest
  | none =>
    ix.resolveConstLevels name
      (if ix.conflictingConstScope nesting then none else ix.byPath.lookup name) nesting.reverse

/-- The identifiers a resolution can answer with. -/
def targets : Finset ClassId := (ix.byPath.entries.map Sigma.snd).toFinset

theorem mem_targets_of_lookup {path : ConstPath} {id : ClassId}
    (h : ix.byPath.lookup path = some id) : id ∈ ix.targets := by
  have hmem : (⟨path, id⟩ : Sigma fun _ : ConstPath ↦ ClassId) ∈ ix.byPath.entries :=
    List.of_mem_dlookup (Option.mem_def.mpr h)
  exact List.mem_toFinset.mpr (List.mem_map.mpr ⟨_, hmem, rfl⟩)

theorem exists_path_of_mem_targets {id : ClassId} (h : id ∈ ix.targets) :
    ∃ path, ix.byPath.lookup path = some id := by
  obtain ⟨⟨path, _⟩, hmem, rfl⟩ := List.mem_map.mp (List.mem_toFinset.mp h)
  exact ⟨path, List.mem_dlookup ix.byPath.nodupKeys hmem⟩

theorem resolveConstLevels_mem_targets {name : ConstPath} {fallback : Option ClassId}
    (hfallback : ∀ id, fallback = some id → id ∈ ix.targets) (levels : List ConstPath)
    {id : ClassId} (h : ix.resolveConstLevels name fallback levels = some id) :
    id ∈ ix.targets := by
  induction levels with
  | nil => exact hfallback id h
  | cons level outer ih =>
    unfold resolveConstLevels at h
    split at h
    · next found hfound =>
      obtain rfl : found = id := Option.some.inj h
      exact ix.mem_targets_of_lookup hfound
    · split_ifs at h
      exact ih h

theorem resolveConst_mem_targets {nesting : List ConstPath} {name : ConstPath} {id : ClassId}
    (h : ix.resolveConst nesting name = some id) : id ∈ ix.targets := by
  unfold resolveConst at h
  split at h
  · exact ix.mem_targets_of_lookup h
  · refine ix.resolveConstLevels_mem_targets ?_ _ h
    intro id hid
    split_ifs at hid
    exact ix.mem_targets_of_lookup hid

end ProjectIndex

end Itaruby
