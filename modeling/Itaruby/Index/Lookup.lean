import Itaruby.Index.Ancestry

/-!
Method lookup over the ancestor chain: instances, class objects and `super`.
A lookup that reads the descendants of its receiver searches the reversed
superclass edges.
-/

set_option autoImplicit false
set_option relaxedAutoImplicit false

namespace Itaruby

inductive MethodLookup
  | found (sig : MethodSig) (owner : ClassId)
  | notFound
  | inconclusive

inductive Blocker
  | unresolved
  | declared
  | project (reason : OpenReason)
  deriving DecidableEq, Repr

namespace ProjectIndex

variable (ix : ProjectIndex)

def subclassesOf (id : ClassId) : List ClassId := (ix.subclasses.lookup id).getD []

/-- Every class some superclass edge leads down to. -/
def subclassTargets : Finset ClassId := (ix.subclasses.entries.flatMap Sigma.snd).toFinset

theorem subclassesOf_mem_targets (a b : ClassId) (h : b ∈ ix.subclassesOf a) :
    b ∈ ix.subclassTargets := by
  unfold subclassesOf at h
  cases hkids : ix.subclasses.lookup a with
  | none => simp [hkids] at h
  | some kids =>
    rw [hkids] at h
    have hmem : (⟨a, kids⟩ : Sigma fun _ : ClassId ↦ List ClassId) ∈ ix.subclasses.entries :=
      List.of_mem_dlookup (Option.mem_def.mpr hkids)
    exact List.mem_toFinset.mpr (List.mem_flatMap.mpr ⟨_, hmem, h⟩)

/-- The chain loop of `lookup_method`; `none` when no class of the chain decides. -/
def scanInstance (name : String) : List ClassId → Option MethodLookup
  | [] => none
  | a :: rest =>
    if (ix.classOf a).opaqueOpen then some .inconclusive
    else
      match (ix.classOf a).methods.lookup name with
      | some sig => some (.found sig a)
      | none => scanInstance name rest

/-- The test `abstract_family_defines` makes on one descendant. -/
def familyMemberDefines (name : String) (kid : ClassId) : Fueled Bool :=
  let cls := ix.classOf kid
  if cls.defines name || cls.defines "method_missing" || cls.defines "respond_to_missing?" then
    pure true
  else if cls.isOpen then
    -- a member open only for its own abstract stubs passes through unread
    pure (cls.openReason != some .abstractRaise)
  else do
    let (chain, complete) ← ix.ancestors kid
    return !complete ||
      chain.any fun a ↦ (ix.classOf a).defines name || (ix.classOf a).opaqueOpen

def abstractFamilyDefines (receiver : ClassId) (name : String) : Fueled Bool :=
  Fueled.search ix.subclassesOf (ix.familyMemberDefines name) receiver

def lookupMethod (id : ClassId) (name : String) : Fueled MethodLookup := do
  let (chain, complete) ← ix.ancestors id
  match ix.scanInstance name chain with
  | some answer => return answer
  | none =>
    if complete && !(ix.classOf id).isModule then
      if ← ix.abstractFamilyDefines id name then return .inconclusive else return .notFound
    else return .inconclusive

/-- The test `descendant_defines` makes on one descendant. -/
def descendantHit (name : String) (singleton : Bool) (kid : ClassId) : Bool :=
  (ix.classOf kid).isOpen ||
    if singleton then (ix.classOf kid).definesSingleton name else (ix.classOf kid).defines name

def descendantDefines (id : ClassId) (name : String) (singleton : Bool) : Fueled Bool :=
  Fueled.search ix.subclassesOf (fun kid ↦ pure (ix.descendantHit name singleton kid)) id

/-- The chain loop of `extended_module_surface`: any openness stops it. -/
def scanExtended (name : String) : List ClassId → Option MethodLookup
  | [] => none
  | a :: rest =>
    if (ix.classOf a).isOpen then some .inconclusive
    else
      match (ix.classOf a).methods.lookup name with
      | some sig => some (.found sig a)
      | none => scanExtended name rest

def extendedSurface (nesting : List ConstPath) (name : String) :
    List ConstPath → Fueled (Option MethodLookup)
  | [] => pure none
  | ext :: rest =>
    match ix.resolveConst nesting ext with
    | none => pure (some .inconclusive)
    | some mid => do
      let (chain, complete) ← ix.ancestors mid
      match ix.scanExtended name chain with
      | some answer => return some answer
      | none => if complete then extendedSurface nesting name rest else return some .inconclusive

def extendedModuleSurface (cls : ClassDef) (name : String) : Fueled (Option MethodLookup) :=
  ix.extendedSurface cls.nesting name cls.extends'

def firstDefinition (name : String) : List ClassId → Option MethodLookup
  | [] => none
  | a :: rest =>
    match (ix.classOf a).methods.lookup name with
    | some sig => some (.found sig a)
    | none => firstDefinition name rest

/-- A mixin of a core reopening answers only with a literal definition: openness and
unresolved names are passed over. -/
def coreMixinDefinition (core : ClassDef) (name : String) :
    List ConstPath → Fueled (Option MethodLookup)
  | [] => pure none
  | mixin :: rest =>
    match ix.resolveConst core.nesting mixin with
    | none => coreMixinDefinition core name rest
    | some mid => do
      let chain ← ix.ancestorChain mid
      match ix.firstDefinition name chain with
      | some answer => return some answer
      | none => coreMixinDefinition core name rest

def coreSurface (name : String) : List ConstPath → Fueled (Option MethodLookup)
  | [] => pure none
  | path :: rest =>
    match ix.byPath.lookup path with
    | none => coreSurface name rest
    | some cid => do
      let core := ix.classOf cid
      if let some answer ← ix.coreMixinDefinition core name core.prepends.reverse then
        return some answer
      if let some sig := core.methods.lookup name then
        return some (.found sig cid)
      if let some answer ← ix.coreMixinDefinition core name core.includes.reverse then
        return some answer
      coreSurface name rest

def coreObjectInstanceSurface (id : ClassId) (name : String) : Fueled (Option MethodLookup) :=
  if id ∈ ix.ambiguousAncestry then pure (some .inconclusive)
  else if (ix.classOf id).isModule then
    ix.coreSurface name [["Module"], ["Object"], ["Kernel"], ["BasicObject"]]
  else
    ix.coreSurface name [["Class"], ["Module"], ["Object"], ["Kernel"], ["BasicObject"]]

/-- The chain loop of `lookup_singleton`. -/
def scanSingleton (name : String) : List ClassId → Fueled (Option MethodLookup)
  | [] => pure none
  | a :: rest =>
    if (ix.classOf a).isOpen then pure (some .inconclusive)
    else
      match (ix.classOf a).singletonMethods.lookup name with
      | some sig => pure (some (.found sig a))
      | none => do
        match ← ix.extendedModuleSurface (ix.classOf a) name with
        | some answer => return some answer
        | none => scanSingleton name rest

def lookupSingleton (id : ClassId) (name : String) : Fueled MethodLookup := do
  let (chain, complete) ← ix.ancestors id
  match ← ix.scanSingleton name chain with
  | some answer => return answer
  | none =>
    match ← ix.coreObjectInstanceSurface id name with
    | some answer => return answer
    | none =>
      if complete then
        if ← ix.descendantDefines id name true then return .inconclusive else return .notFound
      else return .inconclusive

/-- The chain loop of `lookup_singleton_own`, which skips curated external classes. -/
def scanSingletonOwn (name : String) : List ClassId → Fueled (Option MethodLookup)
  | [] => pure none
  | a :: rest =>
    if (ix.classOf a).isOpen then
      if (ix.classOf a).openReason = some .declaredExternal then scanSingletonOwn name rest
      else pure (some .inconclusive)
    else
      match (ix.classOf a).singletonMethods.lookup name with
      | some sig => pure (some (.found sig a))
      | none => do
        match ← ix.extendedModuleSurface (ix.classOf a) name with
        | some answer => return some answer
        | none => scanSingletonOwn name rest

def lookupSingletonOwn (id : ClassId) (name : String) : Fueled MethodLookup := do
  let chain ← ix.ancestorChain id
  match ← ix.scanSingletonOwn name chain with
  | some answer => return answer
  | none =>
    if id ∈ ix.ambiguousAncestry then return .inconclusive
    else if ← ix.descendantDefines id name true then return .inconclusive
    else return .notFound

/-- `lookup_from` on the part of the chain after the executing method's slot. -/
def lookupFrom (name : String) (singleton complete : Bool) : List ClassId → MethodLookup
  | [] => if complete then .notFound else .inconclusive
  | a :: rest =>
    if (ix.classOf a).isOpen then .inconclusive
    else
      let table := if singleton then (ix.classOf a).singletonMethods else (ix.classOf a).methods
      match table.lookup name with
      | some sig => .found sig a
      | none => lookupFrom name singleton complete rest

/-- The classes after `owner` in a chain that contains it. -/
def chainAfter (owner : ClassId) : List ClassId → Option (List ClassId)
  | [] => none
  | a :: rest => if a = owner then some rest else chainAfter owner rest

/-- Two consumers of a module agree when they continue to the same written definition, or
both to none. -/
def outcomesAgree : Option (Option (MethodSig × ClassId)) → Option (MethodSig × ClassId) → Bool
  | none, _ => true
  | some (some (prior, _)), some (here, _) =>
    prior.file == here.file && prior.nameSpan == here.nameSpan
  | some none, none => true
  | _, _ => false

/-- The verdict after the last consumer. A module mixed in nowhere has no target. -/
def agreedOutcome : Option (Option (MethodSig × ClassId)) → MethodLookup
  | some (some (sig, owner)) => .found sig owner
  | some none => .notFound
  | none => .inconclusive

/-- The consumer loop of `super_lookup_module`; the accumulator is the outcome so far, an
absent definition being `some none`. -/
def superOverConsumers (module : ClassId) (name : String) :
    Option (Option (MethodSig × ClassId)) → List ClassId → Fueled MethodLookup
  | outcome, [] => pure (agreedOutcome outcome)
  | outcome, consumer :: rest =>
    if (ix.classOf consumer).isModule then superOverConsumers module name outcome rest
    else do
      let (chain, complete) ← ix.ancestors consumer
      match chainAfter module chain with
      | none => superOverConsumers module name outcome rest
      | some after =>
        match ix.lookupFrom name false complete after with
        | .inconclusive => return .inconclusive
        | .notFound =>
          if outcomesAgree outcome none then superOverConsumers module name (some none) rest
          else return .inconclusive
        | .found sig owner =>
          if outcomesAgree outcome (some (sig, owner)) then
            superOverConsumers module name (some (some (sig, owner))) rest
          else return .inconclusive

def superLookup (owner : ClassId) (singleton : Bool) (name : String) : Fueled MethodLookup :=
  if (ix.classOf owner).isModule then
    if singleton then pure .inconclusive
    else ix.superOverConsumers owner name none (List.range ix.classes.length)
  else do
    let (chain, complete) ← ix.ancestors owner
    match chainAfter owner chain with
    | some after => return ix.lookupFrom name singleton complete after
    | none => return .inconclusive

/-- A class table position whose whole chain is resolved and closed. -/
def closedCandidate (id : ClassId) : Fueled Bool := do
  let (chain, complete) ← ix.ancestors id
  return complete && chain.all fun a ↦ !(ix.classOf a).isOpen

/-- Is the constant declared in the class or one of its ancestors? An ambiguous ancestor
may declare any name. -/
def constInAncestors (id : ClassId) (simple : String) : Fueled Bool := do
  let chain ← ix.ancestorChain id
  return chain.any fun a ↦
    decide (a ∈ ix.ambiguousAncestry) || (ix.classOf a).consts.contains simple ||
      (ix.byPath.lookup ((ix.classOf a).path ++ [simple])).isSome

def inconclusiveReason (id : ClassId) : Fueled (Option Blocker) := do
  let (chain, complete) ← ix.ancestors id
  let reasons := chain.filterMap fun a ↦
    match (ix.classOf a).openReason with
    | some reason => some reason
    | none => if (ix.classOf a).isOpen then some .unattributed else none
  if !complete then return some .unresolved
  else if reasons.any (· == .declaredExternal) then return some .declared
  else return reasons.head?.map .project

def declaredBy (id : ClassId) (path : ConstPath) : Fueled Bool := do
  let (chain, complete) ← ix.ancestors id
  return complete && chain.any fun a ↦
    (ix.classOf a).openReason == some .declaredExternal && (ix.classOf a).path == path

end ProjectIndex

end Itaruby
