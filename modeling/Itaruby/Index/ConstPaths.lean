import Itaruby.Index.Constants

/-!
Constant paths through literal aliases. `resolve_const` tries a path as a whole at
every scope; what it misses is walked segment by segment, and an alias is followed
in the scope that wrote it, within a budget of hops.
-/

set_option autoImplicit false
set_option relaxedAutoImplicit false

namespace Itaruby

abbrev ConstAlias := List ConstPath × ConstPath

inductive ConstResolution
  | resolved (id : ClassId)
  | ambiguous
  | missing
  deriving DecidableEq, Repr

/-- What is left of the budget of alias hops, and the aliases being followed. -/
structure ConstAliasWalk where
  remaining : ℕ
  active : List ConstAlias

abbrev AliasWalk := ConstAliasWalk → ConstResolution × ConstAliasWalk

namespace ProjectIndex

variable (ix : ProjectIndex)

def findAliasLevels (name : ConstPath) (fallback : Option ConstAlias) :
    List ConstPath → Option ConstAlias
  | [] => fallback
  | level :: outer =>
    match ix.constAliases.lookup (level ++ name) with
    | some found => some found
    | none => if ix.shadows level name then none else findAliasLevels name fallback outer

def findConstAlias (nesting : List ConstPath) (name : ConstPath) : Option ConstAlias :=
  match stripCbase name with
  | some rest => ix.constAliases.lookup rest
  | none =>
    ix.findAliasLevels name
      (if ix.conflictingConstScope nesting then none else ix.constAliases.lookup name)
      nesting.reverse

def constAliasChainCap : ℕ := 32

/-- A path rooted at top level is looked up in no scope. -/
def scopeAndPath (nesting : List ConstPath) (name : ConstPath) : List ConstPath × ConstPath :=
  match stripCbase name with
  | some rest => ([], rest)
  | none => (nesting, name)

section Segments

variable (follow : ConstAlias → AliasWalk)

def resolveConstSegment (nesting : List ConstPath) (name : ConstPath) (owner : Option ClassId) :
    AliasWalk := fun walk ↦
  match ix.resolveConst nesting name with
  | some id => (.resolved id, walk)
  | none =>
    match ix.findConstAlias nesting name with
    | some found => follow found walk
    | none =>
      let ambiguous := match owner with
        | some id => decide (id ∈ ix.ambiguousAncestry)
        | none => ix.conflictingConstScope nesting
      (if ambiguous then .ambiguous else .missing, walk)

/-- The segments after the first, each looked up in the class found so far. -/
def resolveLaterSegments : ConstResolution → List String → AliasWalk
  | .resolved owner, segment :: rest, walk =>
    let qualified := "" :: ((ix.classOf owner).path ++ [segment])
    let (found, walk) := ix.resolveConstSegment follow [] qualified (some owner) walk
    resolveLaterSegments found rest walk
  | found, _, walk => (found, walk)

def resolveConstPath (nesting : List ConstPath) (name : ConstPath) : AliasWalk := fun walk ↦
  match ix.resolveConst nesting name with
  | some id => (.resolved id, walk)
  | none =>
    let (scope, path) := scopeAndPath nesting name
    match path with
    | [] => (.missing, walk)
    | first :: rest =>
      let (found, walk) := ix.resolveConstSegment follow scope [first] none walk
      ix.resolveLaterSegments follow found rest walk

end Segments

/-- `depth` bounds the hops below one another, which the budget keeps under the cap. -/
def followConstAlias : ℕ → ConstAlias → AliasWalk
  | 0, _, walk => (.ambiguous, walk)
  | depth + 1, target, walk =>
    if target ∈ walk.active then (.ambiguous, walk)
    else if walk.remaining = 0 then (.ambiguous, walk)
    else
      let (found, after) := ix.resolveConstPath (followConstAlias depth) target.1 target.2
        { remaining := walk.remaining - 1, active := target :: walk.active }
      (found, { after with active := after.active.tail })

def constResolution (nesting : List ConstPath) (name : ConstPath) : ConstResolution :=
  (ix.resolveConstPath (ix.followConstAlias constAliasChainCap) nesting name
    { remaining := constAliasChainCap, active := [] }).1

def resolveConstThroughAliases (nesting : List ConstPath) (name : ConstPath) : Option ClassId :=
  match ix.constResolution nesting name with
  | .resolved id => some id
  | .ambiguous => none
  | .missing => none

end ProjectIndex

end Itaruby
