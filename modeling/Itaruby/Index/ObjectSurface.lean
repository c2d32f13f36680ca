import Itaruby.Index.ClassObject
import Itaruby.Syntax.Node

/-!
What every object answers because the project defines it on `Object`, `Kernel` or
`BasicObject`. The class-object track reads those definitions; the instance track ends at the
chain of the class and two tables of names, whatever the project writes.
-/

set_option autoImplicit false
set_option relaxedAutoImplicit false

namespace Itaruby

/-- The tables of `core.rs` that the instance track asks: `kernel_object_instance_method`, and
the names of `core_method(CoreClass::Object, _)`. -/
structure ObjectTables where
  kernelObjectInstanceMethod : String → Bool
  coreObjectMethod : String → Bool

/-- A call that reaches the dispatch of `check_call`. -/
structure SendSite where
  receiverless : Bool
  respondToGuards : List String := []

namespace ProjectIndex

variable (ix : ProjectIndex) (tables : ObjectTables) (rbiMap : Option (ConstPath → Bool))

def dynamicMixinInstanceTargets : List ClassId :=
  ix.dynamicMixinRaw.filterMap fun (track, name, nesting) ↦
    if track = .instanceTrack then ix.resolveConst nesting name else none

def dynamicMixinCovers (targets : List ClassId) (name : String) : Bool :=
  targets.any fun m ↦ (ix.classOf m).defines name

def gemReopens (id : ClassId) (map : ConstPath → Bool) : Fueled Bool := do
  let chain ← ix.ancestorChain id
  return chain.any fun a ↦ map (ix.classOf a).path

/-- `rbi_map.is_some_and(|map| self.gem_reopens(id, map))` -/
def reopenedByGem (id : ClassId) : Fueled Bool :=
  match rbiMap with
  | some map => ix.gemReopens id map
  | none => pure false

/-- `soften_not_found` for an instance. -/
def softenNotFound (id : ClassId) (name : String) : Fueled MethodLookup := do
  let reopened ← ix.reopenedByGem rbiMap id
  let covered := ix.dynamicMixinCovers ix.dynamicMixinInstanceTargets name
  if reopened || tables.kernelObjectInstanceMethod name || covered then return .inconclusive
  else return .notFound

def lookupMethodRbi (id : ClassId) (name : String) : Fueled MethodLookup := do
  match ← ix.lookupMethod id name with
  | .notFound => ix.softenNotFound tables rbiMap id name
  | other => return other

/-- Does `check_call` emit E0101 for `name` on an instance of `c`? -/
def emitsUnknownMethod (c : ClassId) (name : String) (site : SendSite) : Fueled Bool := do
  match ← ix.lookupMethodRbi tables rbiMap c name with
  | .notFound =>
    let guarded := site.receiverless && site.respondToGuards.contains name
    return !tables.coreObjectMethod name && !guarded
  | _ => return false

/-! ### What the project puts on every object -/

def objectSurfacePaths : List ConstPath := [["Object"], ["Kernel"], ["BasicObject"]]

/-- The statements of a file outside every class and module. -/
def topLevel : Node → List Node
  | .programNode _ (.statementsNode _ body) => body
  | _ => []

/-- The project gives `name` to every object, in a call with or without a receiver. A method
defined at top level is private. -/
inductive ObjectAnswers (roots : List Node) (name : String) : Bool → Prop
  | reopening (receiverless : Bool) (path : ConstPath) (places : List Place) (place : Place) :
      path ∈ objectSurfacePaths → (ix.reopeningPlaces path).Returns places → place ∈ places →
        (ix.placeSig name place).isSome → ObjectAnswers roots name receiverless
  | topLevelDef (root : Node) (loc nameLoc : Span) (parameters : Option Params)
      (defaults : List Node) (body : Option Node) : root ∈ roots →
        .defNode loc nameLoc none name parameters defaults body ∈ topLevel root →
          ObjectAnswers roots name true
  | topLevelInclude (receiverless : Bool) (root : Node) (loc : Span) (arguments : List Node)
      (arg : Node) (path : ConstPath) (m w : ClassId) (chain : List ClassId) : root ∈ roots →
        .callNode loc none "include" arguments none ∈ topLevel root → arg ∈ arguments →
          arg.constPathStr = some path → ix.resolveConst [] path = some m →
            (ix.ancestorChain m).Returns chain → w ∈ chain → (ix.classOf w).defines name = true →
              ObjectAnswers roots name receiverless

/-- No call of a method that every object has is accused on an instance of `c`. -/
def AnswersLikeObject (roots : List Node) (c : ClassId) : Prop :=
  ∀ name site, ix.ObjectAnswers roots name site.receiverless →
    ¬ (ix.emitsUnknownMethod tables rbiMap c name site).Returns true

/-- The chain of `c` is read to its end without `name`, and so are those of its subclasses. -/
def ChainLacks (c : ClassId) (name : String) : Prop :=
  ix.ReadsThrough (ix.InstanceSilent name) c ∧ (ix.classOf c).isModule = false ∧
    ∀ d, ix.Descendant c d → (ix.familyMemberDefines name d).Returns false

/-- A gem declares a class of the chain, a table or a module mixed in at run time has `name`,
or the call stands under a guard. -/
def Softened (c : ClassId) (name : String) (site : SendSite) : Prop :=
  (∃ map, rbiMap = some map ∧ (ix.gemReopens c map).Returns true) ∨
    tables.kernelObjectInstanceMethod name = true ∨
      ix.dynamicMixinCovers ix.dynamicMixinInstanceTargets name = true ∨
        tables.coreObjectMethod name = true ∨
          (site.receiverless && site.respondToGuards.contains name) = true

/-! ### When a call is accused -/

section Accused

variable {ix tables rbiMap} {c : ClassId} {name : String}

theorem softenNotFound_notFound_iff (hwalk : (ix.ancestorChain c).Converges) :
    (ix.softenNotFound tables rbiMap c name).Returns .notFound ↔
      (∀ map, rbiMap = some map → ¬ (ix.gemReopens c map).Returns true) ∧
        tables.kernelObjectInstanceMethod name = false ∧
          ix.dynamicMixinCovers ix.dynamicMixinInstanceTargets name = false := by
  obtain ⟨chain, hchain⟩ := hwalk
  have hverdict : ∀ reopened : Bool,
      (if reopened || tables.kernelObjectInstanceMethod name ||
          ix.dynamicMixinCovers ix.dynamicMixinInstanceTargets name then pure .inconclusive
        else pure .notFound : Fueled MethodLookup).Returns .notFound ↔
      reopened = false ∧ tables.kernelObjectInstanceMethod name = false ∧
        ix.dynamicMixinCovers ix.dynamicMixinInstanceTargets name = false := by
    intro reopened
    split_ifs with h
    · rw [Bool.or_eq_true, Bool.or_eq_true] at h
      simp only [Fueled.returns_pure, reduceCtorEq, false_iff]
      rintro ⟨rfl, hkernel, hcovered⟩
      simp [hkernel, hcovered] at h
    · simpa [Bool.or_eq_true, and_assoc] using h
  unfold softenNotFound
  rw [Fueled.returns_bind]
  simp only [hverdict]
  unfold reopenedByGem
  cases rbiMap with
  | none => simp
  | some map =>
    have hreopens : ∀ b, (ix.gemReopens c map).Returns b ↔
        chain.any (fun a ↦ map (ix.classOf a).path) = b := by
      intro b
      unfold gemReopens
      rw [Fueled.returns_bind]
      constructor
      · rintro ⟨chain', hchain', h⟩
        obtain rfl := hchain.unique hchain'
        exact Fueled.returns_pure.mp h
      · exact fun h ↦ ⟨chain, hchain, Fueled.returns_pure.mpr h⟩
    simp only [hreopens, Option.some.injEq, forall_eq', exists_eq_left', Bool.not_eq_true]

theorem lookupMethodRbi_notFound_iff :
    (ix.lookupMethodRbi tables rbiMap c name).Returns .notFound ↔
      ix.ChainLacks c name ∧ (∀ map, rbiMap = some map → ¬ (ix.gemReopens c map).Returns true) ∧
        tables.kernelObjectInstanceMethod name = false ∧
          ix.dynamicMixinCovers ix.dynamicMixinInstanceTargets name = false := by
  unfold lookupMethodRbi
  rw [Fueled.returns_bind]
  constructor
  · rintro ⟨lookup, hlookup, h⟩
    cases lookup with
    | found sig owner => simp at h
    | inconclusive => simp at h
    | notFound =>
      have hlacks := lookupMethod_notFound_iff.mp hlookup
      obtain ⟨chain, hchain, -⟩ := hlacks.1
      have hwalk := Fueled.Converges.map Prod.fst hchain.converges
      exact ⟨hlacks, (softenNotFound_notFound_iff hwalk).mp h⟩
  · rintro ⟨hlacks, hsoft⟩
    obtain ⟨chain, hchain, -⟩ := hlacks.1
    have hwalk := Fueled.Converges.map Prod.fst hchain.converges
    exact ⟨.notFound, lookupMethod_notFound_iff.mpr hlacks,
      (softenNotFound_notFound_iff hwalk).mpr hsoft⟩

/-- E0101 is emitted where the chain lacks the name and nothing softens the verdict; what
the project defines on `Object` is not asked. -/
theorem emitsUnknownMethod_iff {site : SendSite} :
    (ix.emitsUnknownMethod tables rbiMap c name site).Returns true ↔
      ix.ChainLacks c name ∧ ¬ ix.Softened tables rbiMap c name site := by
  have hsoftened : ¬ ix.Softened tables rbiMap c name site ↔
      ((∀ map, rbiMap = some map → ¬ (ix.gemReopens c map).Returns true) ∧
        tables.kernelObjectInstanceMethod name = false ∧
          ix.dynamicMixinCovers ix.dynamicMixinInstanceTargets name = false) ∧
        tables.coreObjectMethod name = false ∧
          (site.receiverless && site.respondToGuards.contains name) = false := by
    unfold Softened
    simp only [not_or, not_exists, not_and, Bool.not_eq_true, and_assoc]
  rw [hsoftened, ← and_assoc, ← lookupMethodRbi_notFound_iff]
  unfold emitsUnknownMethod
  rw [Fueled.returns_bind]
  constructor
  · rintro ⟨lookup, hlookup, h⟩
    cases lookup with
    | found sig owner => simp at h
    | inconclusive => simp at h
    | notFound =>
      rw [Fueled.returns_pure, Bool.and_eq_true, Bool.not_eq_true', Bool.not_eq_true'] at h
      exact ⟨hlookup, h⟩
  · rintro ⟨hlookup, hcore, hguard⟩
    refine ⟨.notFound, hlookup, Fueled.returns_pure.mpr ?_⟩
    rw [hcore, hguard]
    rfl

end Accused

/-! ### A method written on `Object` -/

/-- `class Object; def shout; end; end` and a class without a superclass. -/
def kennel (dog : ClassFragment) : ProjectIndex :=
  mergeFiles {}
    [("core_ext.rb", { fragments := [
      { path := ["Object"], nesting := [["Object"]], isModule := false, isOpen := true,
        openReason := some .reopenedExternal,
        methods := [{ name := "shout", nameSpan := (20, 25), defSpan := (16, 30) }] },
      dog] })]

def plainDog : ClassFragment := { path := ["Dog"], nesting := [["Dog"]], isModule := false }

/-- Neither table of the tool has the name. -/
def toolTables : ObjectTables where
  kernelObjectInstanceMethod name := name = "to_s" || name = "puts"
  coreObjectMethod name := name = "to_s" || name = "puts"

end ProjectIndex

end Itaruby
