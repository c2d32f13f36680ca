import Itaruby.Index.Constants
import Itaruby.Library.Fueled
import Itaruby.Library.Linearization

/-!
Superclass headers and the ancestor chain. Resolving a header can ask for the
ancestors of the enclosing class, which resolves that class's header in turn, so
`linearize` carries a budget for its depth and `none` stands for a recursion that
does not end. It is an instance of the general linearization walk.
-/

set_option autoImplicit false
set_option relaxedAutoImplicit false

namespace Itaruby

open Linearization

/-- Two records of one class that the ancestor walk cannot tell apart: methods and openness
may differ. -/
structure ClassDef.SameShape (c c' : ClassDef) : Prop where
  path : c'.path = c.path
  nesting : c'.nesting = c.nesting
  superclass : c'.superclass = c.superclass
  includes : c'.includes = c.includes
  prepends : c'.prepends = c.prepends
  consts : c'.consts = c.consts

namespace ProjectIndex

variable (ix : ProjectIndex)

/-- The scope loop of `resolve_superclass_lexical`: a candidate that is the class
itself is passed over, and there is no top-level fallback. -/
def resolveSuperclassLevels (id : ClassId) (name : ConstPath) : List ConstPath → Option ClassId
  | [] => none
  | level :: outer =>
    match ix.byPath.lookup (level ++ name) with
    | some found => if found ≠ id then some found else resolveSuperclassLevels id name outer
    | none => if ix.shadows level name then none else resolveSuperclassLevels id name outer

def resolveSuperclassLexical (id : ClassId) (nesting : List ConstPath) (name : ConstPath) :
    Option ClassId :=
  match stripCbase name with
  | some rest => (ix.byPath.lookup rest).filter (· ≠ id)
  | none => ix.resolveSuperclassLevels id name nesting.reverse

/-- The class of the scope around the header, `nesting`'s second-to-last entry. -/
def enclosingClass (nesting : List ConstPath) : Option ClassId :=
  nesting.dropLast.getLast?.bind fun enclosing ↦ ix.byPath.lookup enclosing

/-- The first ancestor of the enclosing class with `name` in its own namespace. -/
def ancestorNamespace (id : ClassId) (name : ConstPath) (chain : List ClassId) : Option ClassId :=
  chain.findSome? fun a ↦ (ix.byPath.lookup ((ix.classOf a).path ++ name)).filter (· ≠ id)

def toplevelSuperclass (id : ClassId) (name : ConstPath) : Option ClassId :=
  (ix.byPath.lookup name).filter (· ≠ id)

section Header

variable {m : Type → Type} [Monad m] (ancestors : ClassId → m (List ClassId))

def resolveSuperclassAncestor (id : ClassId) (nesting : List ConstPath) (name : ConstPath) :
    m (Option ClassId) :=
  match ix.enclosingClass nesting with
  | none => pure none
  | some enclosing => do return ix.ancestorNamespace id name (← ancestors enclosing)

def resolveSuperclassFallback (id : ClassId) (nesting : List ConstPath) (name : ConstPath) :
    m (Option ClassId) := do
  match ← ix.resolveSuperclassAncestor ancestors id nesting name with
  | some found => return some found
  | none => return ix.toplevelSuperclass id name

def resolveSuperclassHeader (id : ClassId) (nesting : List ConstPath) (name : ConstPath) :
    m (Option ClassId) :=
  match ix.resolveSuperclassLexical id nesting name with
  | some found => pure (some found)
  | none => ix.resolveSuperclassFallback ancestors id nesting name

/-- The scope a class's header was written in. -/
def headerNesting (id : ClassId) (nesting : List ConstPath) : List ConstPath :=
  (ix.superclassNesting.lookup id).getD nesting

def resolveSuperclassConst (id : ClassId) (nesting : List ConstPath) (name : ConstPath) :
    m (Option ClassId) :=
  ix.resolveSuperclassHeader ancestors id (ix.headerNesting id nesting) name

end Header

def linearizeMixins (visit : ClassId → State ClassId → Option (State ClassId))
    (nesting : List ConstPath) : List ConstPath → State ClassId → Option (State ClassId)
  | [], st => some st
  | name :: rest, st =>
    match ix.resolveConst nesting name with
    | some mixin => (visit mixin st).bind (linearizeMixins visit nesting rest)
    | none => linearizeMixins visit nesting rest st.spoil

def linearize : ℕ → ClassId → State ClassId → Option (State ClassId)
  | 0, _, _ => none
  | fuel + 1, id, st =>
    if id ∈ st.visited then some st
    else do
      let cls := ix.classOf id
      let st := st.enter id (decide (id ∉ ix.ambiguousAncestry))
      let st ← ix.linearizeMixins (linearize fuel) cls.nesting cls.prepends.reverse st
      let st ← ix.linearizeMixins (linearize fuel) cls.nesting cls.includes.reverse (st.emit id)
      match cls.superclass with
      | none => return st
      | some sc =>
        -- the enclosing class is linearized with a visited set of its own
        let parent ← ix.resolveSuperclassConst
          (fun enclosing ↦ (linearize fuel enclosing {}).map State.out) id cls.nesting sc
        match parent with
        | some parent => linearize fuel parent st
        | none => return st.spoil

/-! ### The walk as an instance of the general linearization -/

/-- The enclosing class whose ancestors the header of `id` has to ask for. -/
def asks (id : ClassId) : Option ClassId := do
  let sc ← (ix.classOf id).superclass
  let nesting := ix.headerNesting id (ix.classOf id).nesting
  match ix.resolveSuperclassLexical id nesting sc with
  | some _ => none
  | none => ix.enclosingClass nesting

/-- What the header of `id` resolves to, given the ancestors it asked for. -/
def headerTarget (id : ClassId) (sc : ConstPath) (chain : Option (List ClassId)) :
    Option ClassId :=
  match ix.resolveSuperclassLexical id (ix.headerNesting id (ix.classOf id).nesting) sc with
  | some found => some found
  | none =>
    match chain.bind (ix.ancestorNamespace id sc) with
    | some found => some found
    | none => ix.toplevelSuperclass id sc

/-- The expansion of `id` when its header resolves to `target`. -/
def expansionOf (id : ClassId) (target : Option (Option ClassId)) : Expansion ClassId where
  before := (ix.classOf id).prepends.reverse.map (ix.resolveConst (ix.classOf id).nesting)
  after := (ix.classOf id).includes.reverse.map (ix.resolveConst (ix.classOf id).nesting) ++
    target.toList
  trusted := decide (id ∉ ix.ambiguousAncestry)

def expander : Expander ClassId where
  asks := ix.asks
  build id chain :=
    ix.expansionOf id ((ix.classOf id).superclass.map fun sc ↦ ix.headerTarget id sc chain)

theorem expander_build (id : ClassId) (chain : Option (List ClassId)) :
    ix.expander.build id chain =
      ix.expansionOf id ((ix.classOf id).superclass.map fun sc ↦ ix.headerTarget id sc chain) := rfl

theorem linearizeMixins_eq_visitAll (visit : ClassId → State ClassId → Option (State ClassId))
    (nesting : List ConstPath) (names : List ConstPath) (st : State ClassId) :
    ix.linearizeMixins visit nesting names st =
      visitAll visit (names.map (ix.resolveConst nesting)) st := by
  induction names generalizing st with
  | nil => rfl
  | cons name rest ih =>
    unfold linearizeMixins
    cases h : ix.resolveConst nesting name with
    | none => simpa [visitAll, h] using ih st.spoil
    | some mixin =>
      simp only [List.map_cons, h, visitAll]
      congr 1
      funext st'
      exact ih st'

theorem visitAll_append (visit : ClassId → State ClassId → Option (State ClassId))
    (a b : List (Option ClassId)) (st : State ClassId) :
    visitAll visit (a ++ b) st = (visitAll visit a st).bind (visitAll visit b) := by
  induction a generalizing st with
  | nil => rfl
  | cons entry rest ih =>
    cases entry with
    | none => exact ih st.spoil
    | some x =>
      simp only [List.cons_append, visitAll, Option.bind_assoc]
      congr 1
      funext st'
      exact ih st'

/-- Resolving a class's header is expanding the class: both ask for the same ancestors. -/
theorem resolveSuperclassConst_eq_headerTarget (ask : ClassId → Option (List ClassId))
    (id : ClassId) {sc : ConstPath} (hsc : (ix.classOf id).superclass = some sc) :
    ix.resolveSuperclassConst ask id (ix.classOf id).nesting sc =
      match ix.asks id with
      | none => some (ix.headerTarget id sc none)
      | some enclosing => (ask enclosing).map fun chain ↦ ix.headerTarget id sc (some chain) := by
  unfold resolveSuperclassConst resolveSuperclassHeader asks headerTarget
  simp only [hsc, Option.bind_eq_bind, Option.bind_some]
  cases hlex : ix.resolveSuperclassLexical id
      (ix.headerNesting id (ix.classOf id).nesting) sc with
  | some found => rfl
  | none =>
    unfold resolveSuperclassFallback resolveSuperclassAncestor
    cases henc : ix.enclosingClass (ix.headerNesting id (ix.classOf id).nesting) with
    | none => rfl
    | some enclosing =>
      cases hask : ask enclosing with
      | none => simp [hask]
      | some chain =>
        cases hfound : ix.ancestorNamespace id sc chain <;> simp [hask, hfound]

theorem expandAt_of_superclass (n : ℕ) (id : ClassId) {sc : ConstPath}
    (hsc : (ix.classOf id).superclass = some sc) :
    ix.expander.expandAt n id =
      (ix.resolveSuperclassConst (fun enclosing ↦ (ix.expander.visit n enclosing {}).map State.out)
        id (ix.classOf id).nesting sc).map fun target ↦ ix.expansionOf id (some target) := by
  rw [ix.resolveSuperclassConst_eq_headerTarget _ id hsc]
  have hasks : ix.expander.asks id = ix.asks id := rfl
  unfold Expander.expandAt Expander.expand
  rw [hasks]
  cases ix.asks id with
  | none => simp [expander_build, hsc]
  | some enclosing => simp [expander_build, hsc, Function.comp_def]

theorem expandAt_of_no_superclass (n : ℕ) (id : ClassId)
    (hsc : (ix.classOf id).superclass = none) :
    ix.expander.expandAt n id = some (ix.expansionOf id none) := by
  have hasks : ix.expander.asks id = none := by simp [expander, asks, hsc]
  rw [Expander.expandAt_of_asks_none n hasks]
  simp [expander_build, hsc]

theorem linearize_eq_visit (n : ℕ) :
    ∀ (id : ClassId) (st : State ClassId), ix.linearize n id st = ix.expander.visit n id st := by
  induction n with
  | zero => exact fun _ _ ↦ rfl
  | succ n ih =>
    have hfun : ix.linearize n = ix.expander.visit n := funext fun id ↦ funext fun st ↦ ih id st
    intro id st
    rw [Expander.visit_succ, linearize]
    split_ifs with hv
    · rfl
    · simp only [hfun, linearizeMixins_eq_visitAll, Option.bind_eq_bind]
      cases hsc : (ix.classOf id).superclass with
      | none =>
        rw [ix.expandAt_of_no_superclass n id hsc]
        simp [expansionOf]
      | some sc =>
        rw [ix.expandAt_of_superclass n id hsc]
        dsimp only
        cases ix.resolveSuperclassConst
            (fun enclosing ↦ (ix.expander.visit n enclosing {}).map State.out) id
            (ix.classOf id).nesting sc with
        | none => simp
        | some target =>
          cases target <;> simp [expansionOf, visitAll_append, visitAll]

/-! ### Ancestors -/

/-- `ProjectIndex::ancestors`: the chain and whether every name in it resolved. -/
def ancestors (id : ClassId) : Fueled (List ClassId × Bool) where
  run n := (ix.linearize n id {}).map fun st ↦ (st.out, st.complete)
  mono := by
    intro n r h
    obtain ⟨st, hst, rfl⟩ := Option.map_eq_some_iff.mp h
    rw [linearize_eq_visit] at hst ⊢
    exact Option.map_eq_some_iff.mpr ⟨st, Expander.visit_mono (Nat.le_succ n) hst, rfl⟩

def ancestorChain (id : ClassId) : Fueled (List ClassId) := Prod.fst <$> ix.ancestors id

/-- The class that the written superclass of `id` resolves to. -/
def superclassOf (id : ClassId) : Fueled (Option ClassId) :=
  match (ix.classOf id).superclass with
  | none => pure none
  | some sc => ix.resolveSuperclassConst ix.ancestorChain id (ix.classOf id).nesting sc

/-- `m` is what an `include` or `prepend` written in `a` names. -/
def MixesIn (a m : ClassId) : Prop :=
  ∃ name ∈ (ix.classOf a).prepends ++ (ix.classOf a).includes,
    ix.resolveConst (ix.classOf a).nesting name = some m

/-- One step of the ancestor chain. -/
def Ancestor (a b : ClassId) : Prop := ix.MixesIn a b ∨ (ix.superclassOf a).Returns (some b)

/-- A written superclass or mixin name of `a` that leads to no class of the index. -/
def Unresolved (a : ClassId) : Prop :=
  (∃ name ∈ (ix.classOf a).prepends ++ (ix.classOf a).includes,
    ix.resolveConst (ix.classOf a).nesting name = none) ∨
  ∃ sc, (ix.classOf a).superclass = some sc ∧ (ix.superclassOf a).Returns none

variable {ix}

theorem returns_ancestors_iff {id : ClassId} {r : List ClassId × Bool} :
    (ix.ancestors id).Returns r ↔
      ∃ n st, ix.expander.visit n id {} = some st ∧ (st.out, st.complete) = r := by
  unfold Fueled.Returns ancestors
  simp only [linearize_eq_visit, Option.map_eq_some_iff]

theorem returns_ancestorChain_iff {id : ClassId} {chain : List ClassId} :
    (ix.ancestorChain id).Returns chain ↔
      ∃ n st, ix.expander.visit n id {} = some st ∧ st.out = chain := by
  unfold ancestorChain
  rw [Fueled.returns_map]
  constructor
  · rintro ⟨r, hr, rfl⟩
    obtain ⟨n, st, hst, rfl⟩ := returns_ancestors_iff.mp hr
    exact ⟨n, st, hst, rfl⟩
  · rintro ⟨n, st, hst, rfl⟩
    exact ⟨(st.out, st.complete), returns_ancestors_iff.mpr ⟨n, st, hst, rfl⟩, rfl⟩

theorem converges_ancestors_iff {id : ClassId} :
    (ix.ancestors id).Converges ↔ ix.expander.Terminates id := by
  constructor
  · rintro ⟨r, hr⟩
    obtain ⟨n, st, hst, -⟩ := returns_ancestors_iff.mp hr
    exact ⟨n, st, hst⟩
  · rintro ⟨n, st, hst⟩
    exact ⟨_, returns_ancestors_iff.mpr ⟨n, st, hst, rfl⟩⟩

/-- Running a header resolution is resolving with the ancestors known at that budget. -/
theorem resolveSuperclassHeader_run (anc : ClassId → Fueled (List ClassId)) (n : ℕ) (id : ClassId)
    (nesting : List ConstPath) (name : ConstPath) :
    (ix.resolveSuperclassHeader anc id nesting name).run n =
      ix.resolveSuperclassHeader (fun enclosing ↦ (anc enclosing).run n) id nesting name := by
  unfold resolveSuperclassHeader
  cases ix.resolveSuperclassLexical id nesting name with
  | some found => rfl
  | none =>
    unfold resolveSuperclassFallback resolveSuperclassAncestor
    cases ix.enclosingClass nesting with
    | none => rfl
    | some enclosing =>
      change (((anc enclosing).run n).bind _).bind _ = (((anc enclosing).run n).bind _).bind _
      cases (anc enclosing).run n with
      | none => rfl
      | some chain =>
        cases hfound : ix.ancestorNamespace id name chain <;>
          simp only [Option.bind_some] <;> change Option.bind (some _) _ = Option.bind (some _) _ <;>
          simp only [Option.bind_some, hfound] <;> rfl

theorem returns_superclassOf_iff {id : ClassId} {sc : ConstPath}
    (hsc : (ix.classOf id).superclass = some sc) {target : Option ClassId} :
    (ix.superclassOf id).Returns target ↔
      ∃ n, ix.resolveSuperclassConst
        (fun enclosing ↦ (ix.expander.visit n enclosing {}).map State.out) id
        (ix.classOf id).nesting sc = some target := by
  unfold superclassOf Fueled.Returns
  rw [hsc]
  refine exists_congr fun n ↦ ?_
  unfold resolveSuperclassConst
  rw [resolveSuperclassHeader_run]
  have hchain : ∀ enclosing, (ix.ancestorChain enclosing).run n =
      (ix.expander.visit n enclosing {}).map State.out := by
    intro enclosing
    change ((ix.linearize n enclosing {}).map _).bind _ = _
    rw [linearize_eq_visit]
    cases ix.expander.visit n enclosing {} <;> rfl
  simp only [hchain]

/-- The expansion that the walk uses lists the resolved superclass. -/
theorem exists_expandAt_iff {id : ClassId} {e : Expansion ClassId} :
    (∃ n, ix.expander.expandAt n id = some e) ↔
      ((ix.classOf id).superclass = none ∧ e = ix.expansionOf id none) ∨
      ∃ sc target, (ix.classOf id).superclass = some sc ∧
        (ix.superclassOf id).Returns target ∧ e = ix.expansionOf id (some target) := by
  cases hsc : (ix.classOf id).superclass with
  | none => simp [ix.expandAt_of_no_superclass _ id hsc, eq_comm]
  | some sc =>
    constructor
    · rintro ⟨n, hn⟩
      rw [ix.expandAt_of_superclass n id hsc, Option.map_eq_some_iff] at hn
      obtain ⟨target, htarget, rfl⟩ := hn
      exact Or.inr ⟨sc, target, rfl, (returns_superclassOf_iff hsc).mpr ⟨n, htarget⟩, rfl⟩
    · rintro (⟨h, -⟩ | ⟨_, target, -, htarget, rfl⟩)
      · simp at h
      · obtain ⟨n, hn⟩ := (returns_superclassOf_iff hsc).mp htarget
        refine ⟨n, ?_⟩
        rw [ix.expandAt_of_superclass n id hsc, hn, Option.map_some]

theorem lists_expansionOf_iff {id w : ClassId} {target : Option (Option ClassId)} :
    (ix.expansionOf id target).Lists w ↔ ix.MixesIn id w ∨ target = some (some w) := by
  unfold Expansion.Lists expansionOf MixesIn
  simp only [List.mem_map, List.mem_reverse, List.mem_append, Option.mem_toList, or_and_right,
    exists_or, or_assoc]

theorem definite_expansionOf_iff {id : ClassId} {target : Option (Option ClassId)} :
    (ix.expansionOf id target).Definite ↔ id ∉ ix.ambiguousAncestry ∧
      (∀ name ∈ (ix.classOf id).prepends ++ (ix.classOf id).includes,
        ix.resolveConst (ix.classOf id).nesting name ≠ none) ∧ target ≠ some none := by
  unfold Expansion.Definite expansionOf
  simp only [decide_eq_true_eq, List.mem_map, List.mem_reverse, List.mem_append,
    Option.mem_toList, or_imp, forall_and, not_or, not_exists, not_and, ne_eq]
  tauto

/-- The edges of the walk are the resolved mixins and the resolved superclass. -/
theorem edge_iff {a b : ClassId} (hterm : ∃ n e, ix.expander.expandAt n a = some e) :
    ix.expander.Edge a b ↔ ix.Ancestor a b := by
  unfold Expander.Edge Ancestor
  constructor
  · rintro ⟨n, e, he, hl⟩
    rcases exists_expandAt_iff.mp ⟨n, he⟩ with ⟨-, rfl⟩ | ⟨sc, target, -, htarget, rfl⟩
    · exact Or.inl (by simpa using lists_expansionOf_iff.mp hl)
    · rcases lists_expansionOf_iff.mp hl with h | h
      · exact Or.inl h
      · obtain rfl : target = some b := Option.some.inj h
        exact Or.inr htarget
  · intro h
    obtain ⟨n, e, he⟩ := hterm
    refine ⟨n, e, he, ?_⟩
    rcases exists_expandAt_iff.mp ⟨n, he⟩ with ⟨hsc, rfl⟩ | ⟨sc, target, -, htarget, rfl⟩
    · rcases h with h | h
      · exact lists_expansionOf_iff.mpr (Or.inl h)
      · unfold superclassOf at h
        rw [hsc] at h
        simp at h
    · rcases h with h | h
      · exact lists_expansionOf_iff.mpr (Or.inl h)
      · obtain rfl : target = some b := htarget.unique h
        exact lists_expansionOf_iff.mpr (Or.inr rfl)

/-! ### What a returned chain is -/

section Chain

variable {id : ClassId} {chain : List ClassId} {complete : Bool}
  (h : (ix.ancestors id).Returns (chain, complete))

include h

theorem ancestors_nodup : chain.Nodup := by
  obtain ⟨n, st, hst, heq⟩ := returns_ancestors_iff.mp h
  obtain ⟨rfl, -⟩ := Prod.mk.inj heq
  exact Expander.out_nodup hst

theorem self_mem_ancestors : id ∈ chain := by
  obtain ⟨n, st, hst, heq⟩ := returns_ancestors_iff.mp h
  obtain ⟨rfl, -⟩ := Prod.mk.inj heq
  exact Expander.self_mem_out hst

theorem expandAt_of_mem_ancestors {a : ClassId} (ha : a ∈ chain) :
    ∃ n e, ix.expander.expandAt n a = some e := by
  obtain ⟨n, st, hst, heq⟩ := returns_ancestors_iff.mp h
  obtain ⟨rfl, -⟩ := Prod.mk.inj heq
  obtain ⟨m, rfl⟩ := Expander.exists_succ_of_visit hst
  exact ⟨m, Expander.expandAt_of_mem_out hst ha⟩

/-- Closure of the chain under its own step. -/
theorem mem_ancestors_of_ancestor {a b : ClassId} (ha : a ∈ chain) (hab : ix.Ancestor a b) :
    b ∈ chain := by
  have hedge := (edge_iff (expandAt_of_mem_ancestors h ha)).mpr hab
  obtain ⟨n, st, hst, heq⟩ := returns_ancestors_iff.mp h
  obtain ⟨rfl, -⟩ := Prod.mk.inj heq
  exact (Expander.mem_out_iff hst).mpr (((Expander.mem_out_iff hst).mp ha).tail hedge)

/-- The chain lists the classes reached by mixins and superclasses, and no others. -/
theorem mem_ancestors_iff {a : ClassId} :
    a ∈ chain ↔ Relation.ReflTransGen ix.Ancestor id a := by
  constructor
  · intro ha
    obtain ⟨n, st, hst, heq⟩ := returns_ancestors_iff.mp h
    obtain ⟨rfl, -⟩ := Prod.mk.inj heq
    have hreach := (Expander.mem_out_iff hst).mp ha
    induction hreach with
    | refl => exact Relation.ReflTransGen.refl
    | tail hprev hedge ih =>
      have hmem := (Expander.mem_out_iff hst).mpr hprev
      exact (ih hmem).tail ((edge_iff (expandAt_of_mem_ancestors h hmem)).mp hedge)
  · intro hreach
    induction hreach with
    | refl => exact self_mem_ancestors h
    | tail _ hstep ih => exact mem_ancestors_of_ancestor h ih hstep

theorem superclassOf_converges {a : ClassId} (ha : a ∈ chain) : (ix.superclassOf a).Converges := by
  obtain ⟨n, e, he⟩ := expandAt_of_mem_ancestors h ha
  rcases exists_expandAt_iff.mp ⟨n, he⟩ with ⟨hsc, -⟩ | ⟨_, target, -, htarget, -⟩
  · unfold superclassOf
    rw [hsc]
    exact Fueled.converges_pure none
  · exact ⟨target, htarget⟩

/-- The flag is `true` exactly when every name in the chain resolved and no class of
the chain has conflicting superclasses. -/
theorem ancestors_complete_iff :
    complete = true ↔ ∀ a ∈ chain, a ∉ ix.ambiguousAncestry ∧ ¬ ix.Unresolved a := by
  have hexp := fun a (ha : a ∈ chain) ↦ expandAt_of_mem_ancestors h ha
  obtain ⟨n, st, hst, heq⟩ := returns_ancestors_iff.mp h
  obtain ⟨rfl, rfl⟩ := Prod.mk.inj heq
  rw [Expander.complete_iff hst]
  refine forall₂_congr fun a ha ↦ ?_
  have hdef : ∀ e, (∃ n, ix.expander.expandAt n a = some e) →
      (e.Definite ↔ a ∉ ix.ambiguousAncestry ∧ ¬ ix.Unresolved a) := by
    intro e he
    unfold Unresolved
    rcases exists_expandAt_iff.mp he with ⟨hsc, rfl⟩ | ⟨sc, target, hsc, htarget, rfl⟩
    · rw [definite_expansionOf_iff]
      simp [hsc]
    · rw [definite_expansionOf_iff]
      have hnone : (ix.superclassOf a).Returns none ↔ target = none :=
        ⟨fun hn ↦ htarget.unique hn, fun hn ↦ hn ▸ htarget⟩
      simp [hsc, hnone]
  obtain ⟨k, e, he⟩ := hexp a ha
  constructor
  · exact fun hall ↦ (hdef e ⟨k, he⟩).mp (hall k e he)
  · exact fun hgood k' e' he' ↦ (hdef e' ⟨k', he'⟩).mpr hgood

end Chain

/-! ### What the walk reads -/

/-- Two indexes with the same paths, header scopes and ambiguous classes, and classes of the
same shape. -/
structure SameShape (ix ix' : ProjectIndex) : Prop where
  classOf : ∀ id, (ix.classOf id).SameShape (ix'.classOf id)
  byPath : ix'.byPath = ix.byPath
  superclassNesting : ix'.superclassNesting = ix.superclassNesting
  ambiguousAncestry : ix'.ambiguousAncestry = ix.ambiguousAncestry

namespace SameShape

variable {ix ix' : ProjectIndex} (h : ix.SameShape ix')

include h

theorem shadows (level name : ConstPath) : ix'.shadows level name = ix.shadows level name := by
  unfold ProjectIndex.shadows
  simp only [h.byPath, (h.classOf _).consts]

theorem resolveConst (nesting : List ConstPath) (name : ConstPath) :
    ix'.resolveConst nesting name = ix.resolveConst nesting name := by
  have hlevels : ∀ (fallback : Option ClassId) (levels : List ConstPath),
      ix'.resolveConstLevels name fallback levels =
        ix.resolveConstLevels name fallback levels := by
    intro fallback levels
    induction levels with
    | nil => rfl
    | cons level outer ih =>
      rw [resolveConstLevels, resolveConstLevels, h.byPath, h.shadows, ih]
  unfold ProjectIndex.resolveConst conflictingConstScope
  rw [h.byPath, h.ambiguousAncestry]
  simp only [hlevels]

theorem resolveSuperclassLexical (id : ClassId) (nesting : List ConstPath) (name : ConstPath) :
    ix'.resolveSuperclassLexical id nesting name = ix.resolveSuperclassLexical id nesting name := by
  have hlevels : ∀ levels : List ConstPath, ix'.resolveSuperclassLevels id name levels =
      ix.resolveSuperclassLevels id name levels := by
    intro levels
    induction levels with
    | nil => rfl
    | cons level outer ih =>
      rw [resolveSuperclassLevels, resolveSuperclassLevels, h.byPath, h.shadows, ih]
  unfold ProjectIndex.resolveSuperclassLexical
  rw [h.byPath, hlevels]

theorem ancestorNamespace (id : ClassId) (name : ConstPath) (chain : List ClassId) :
    ix'.ancestorNamespace id name chain = ix.ancestorNamespace id name chain := by
  unfold ProjectIndex.ancestorNamespace
  congr 1
  funext a
  rw [h.byPath, (h.classOf a).path]

theorem resolveSuperclassHeader {m : Type → Type} [Monad m] (anc : ClassId → m (List ClassId))
    (id : ClassId) (nesting : List ConstPath) (name : ConstPath) :
    ix'.resolveSuperclassHeader anc id nesting name =
      ix.resolveSuperclassHeader anc id nesting name := by
  unfold ProjectIndex.resolveSuperclassHeader resolveSuperclassFallback
    resolveSuperclassAncestor enclosingClass toplevelSuperclass
  simp only [h.byPath, h.ancestorNamespace, h.resolveSuperclassLexical]

theorem resolveSuperclassConst {m : Type → Type} [Monad m] (anc : ClassId → m (List ClassId))
    (id : ClassId) (nesting : List ConstPath) (name : ConstPath) :
    ix'.resolveSuperclassConst anc id nesting name =
      ix.resolveSuperclassConst anc id nesting name := by
  unfold ProjectIndex.resolveSuperclassConst headerNesting
  rw [h.superclassNesting, h.resolveSuperclassHeader]

theorem linearize (n : ℕ) : ix'.linearize n = ix.linearize n := by
  induction n with
  | zero => rfl
  | succ n ih =>
    have hmixins : ∀ (nesting names : List ConstPath) (st : State ClassId),
        ix'.linearizeMixins (ix.linearize n) nesting names st =
          ix.linearizeMixins (ix.linearize n) nesting names st := by
      intro nesting names st
      simp only [linearizeMixins_eq_visitAll]
      congr 2
      exact funext fun name ↦ h.resolveConst nesting name
    funext id st
    unfold ProjectIndex.linearize
    simp only [ih, (h.classOf id).nesting, (h.classOf id).superclass, (h.classOf id).includes,
      (h.classOf id).prepends, h.ambiguousAncestry, hmixins, h.resolveSuperclassConst]

theorem ancestors : ix'.ancestors = ix.ancestors := by
  funext id
  unfold ProjectIndex.ancestors
  congr 1
  funext n
  rw [h.linearize]

theorem ancestorChain : ix'.ancestorChain = ix.ancestorChain := by
  funext id
  unfold ProjectIndex.ancestorChain
  rw [h.ancestors]

theorem superclassOf : ix'.superclassOf = ix.superclassOf := by
  funext id
  unfold ProjectIndex.superclassOf
  simp only [(h.classOf id).nesting, (h.classOf id).superclass, h.ancestorChain,
    h.resolveSuperclassConst]

end SameShape

/-- Two indexes with the same classes, paths, header scopes and ambiguous classes. -/
structure SameTable (ix ix' : ProjectIndex) : Prop where
  classes : ix'.classes = ix.classes
  byPath : ix'.byPath = ix.byPath
  superclassNesting : ix'.superclassNesting = ix.superclassNesting
  ambiguousAncestry : ix'.ambiguousAncestry = ix.ambiguousAncestry

namespace SameTable

variable {ix ix' : ProjectIndex}

theorem sameShape (h : ix.SameTable ix') : ix.SameShape ix' := by
  refine ⟨fun id ↦ ?_, h.byPath, h.superclassNesting, h.ambiguousAncestry⟩
  have hclass : ix'.classOf id = ix.classOf id := by
    rw [ProjectIndex.classOf, h.classes, ProjectIndex.classOf]
  rw [hclass]
  exact ⟨rfl, rfl, rfl, rfl, rfl, rfl⟩

theorem superclassOf (h : ix.SameTable ix') : ix'.superclassOf = ix.superclassOf :=
  h.sameShape.superclassOf

end SameTable

end ProjectIndex

end Itaruby
