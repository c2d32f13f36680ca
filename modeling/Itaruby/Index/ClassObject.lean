import Itaruby.Index.Inheritance

/-!
Dispatch on class objects. Ruby looks through the class methods of a class and the modules
the class extends, then does the same for each superclass, and ends at the reopenings of the
core classes. A module that is only mixed in lends a class object nothing. The walk of
`lookup_singleton` follows the instance chain instead, in which the mixed-in modules stand.
-/

set_option autoImplicit false
set_option relaxedAutoImplicit false

namespace Itaruby

/-- Where a call on a class object looks: the class methods of a class, the instance methods
of a module that is extended, the class methods and the instance methods of a core class that
is reopened, or what a name stands for that the index cannot resolve. -/
inductive Place
  | singleton (a : ClassId)
  | extension (a : ClassId)
  | root (a : ClassId)
  | reopening (a : ClassId)
  | unresolved

namespace ProjectIndex

variable (ix : ProjectIndex) (extended : ClassId → List (List ConstPath))

def placeSig (name : String) : Place → Option MethodSig
  | .singleton a => (ix.classOf a).singletonMethods.lookup name
  | .extension a => (ix.classOf a).methods.lookup name
  | .root a => (ix.classOf a).singletonMethods.lookup name
  | .reopening a => (ix.classOf a).methods.lookup name
  | .unresolved => none

def placeOwner : Place → Option ClassId
  | .singleton a => some a
  | .extension a => some a
  | .root a => some a
  | .reopening a => some a
  | .unresolved => none

/-- May the place have methods that the index does not list? A reopened core class has those
that are written in the project. -/
def placeOpen : Place → Bool
  | .singleton a => (ix.classOf a).isOpen
  | .extension a => (ix.classOf a).isOpen
  | .root _ => false
  | .reopening _ => false
  | .unresolved => true

/-- The first place that has `name`; `answers` tells which open places have it. -/
def runsAt (name : String) (answers : Place → Bool) (places : List Place) : Option Place :=
  places.find? fun place ↦
    (ix.placeSig name place).isSome || ix.placeOpen place && answers place

def extensionPlaces (a : ClassId) (ext : ConstPath) : Fueled (List Place) :=
  match ix.resolveConst (ix.classOf a).nesting ext with
  | none => pure [.unresolved]
  | some m => do
    let (chain, complete) ← ix.ancestors m
    return chain.map .extension ++ if complete then [] else [.unresolved]

/-- The class methods of `a` and the modules it extends: those of a later call come first,
those of one call in the order they are written. -/
def classPlaces (a : ClassId) : Fueled (List Place) := do
  let exts ← Fueled.gather (ix.extensionPlaces a) (extended a).reverse.flatten
  return .singleton a :: exts

def onLine (c a : ClassId) : Bool := decide (a = c) || !(ix.classOf a).isModule

/-- A class whose superclass is written and not known. -/
def headless (a : ClassId) : Fueled Bool := do
  let parent ← ix.superclassOf a
  return decide (a ∈ ix.ambiguousAncestry) || (ix.classOf a).superclass.isSome && parent.isNone

/-- The superclasses that every class has without naming them. -/
def rootClasses (c : ClassId) : List ClassId :=
  if (ix.classOf c).isModule then []
  else [["Object"], ["BasicObject"]].filterMap fun path ↦ ix.byPath.lookup path

def reopeningMixin (core : ClassDef) (mixin : ConstPath) : Fueled (List Place) :=
  match ix.resolveConst core.nesting mixin with
  | none => pure []
  | some m => do return (← ix.ancestorChain m).map .reopening

/-- What the project writes on a superclass that every class has. -/
def rootPlaces (a : ClassId) : Fueled (List Place) := do
  let exts ← Fueled.gather (ix.reopeningMixin (ix.classOf a)) (extended a).reverse.flatten
  return .root a :: exts

def reopeningPlaces (path : ConstPath) : Fueled (List Place) :=
  match ix.byPath.lookup path with
  | none => pure []
  | some cid => do
    let core := ix.classOf cid
    let prepended ← Fueled.gather (ix.reopeningMixin core) core.prepends.reverse
    let included ← Fueled.gather (ix.reopeningMixin core) core.includes.reverse
    return prepended ++ .reopening cid :: included

def objectPaths (c : ClassId) : List ConstPath :=
  if (ix.classOf c).isModule then moduleObjectPaths else ["Class"] :: moduleObjectPaths

/-- The places a call on the class object of `c` looks in, in Ruby's order. -/
def singletonPlaces (c : ClassId) : Fueled (List Place) := do
  let (chain, _) ← ix.ancestors c
  let line := chain.filter (ix.onLine c)
  let own ← Fueled.gather (ix.classPlaces extended) line
  let cut ← line.anyM ix.headless
  let roots ← Fueled.gather (ix.rootPlaces extended) (ix.rootClasses c)
  let core ← Fueled.gather ix.reopeningPlaces (ix.objectPaths c)
  return own ++ ((if cut then [.unresolved] else []) ++ (roots ++ core))

/-- A method found on the class object is the one that runs, whatever the open places have. -/
def SingletonRuns (c : ClassId) (name : String) (places : List Place) : Prop :=
  ∀ sig owner, (ix.lookupSingleton c name).Returns (.found sig owner) →
    ∀ answers, ∃ place, ix.runsAt name answers places = some place ∧
      ix.placeSig name place = some sig ∧ placeOwner place = some owner

/-- The extended module is resolved and readable without `name`. -/
def ExtensionSilent (name : String) (a : ClassId) (ext : ConstPath) : Prop :=
  ∃ m, ix.resolveConst (ix.classOf a).nesting ext = some m ∧
    ix.ReadsThrough (ix.SurfaceSilent name) m

/-- The module has no class method `name` and extends nothing that gives it one. -/
def LendsNothing (name : String) (a : ClassId) : Prop :=
  (ix.classOf a).definesSingleton name = false ∧
    ∀ ext ∈ (ix.classOf a).extends', ∀ m,
      ix.resolveConst (ix.classOf a).nesting ext = some m → ∀ chain complete,
        (ix.ancestors m).Returns (chain, complete) →
          ∀ w ∈ chain, (ix.classOf w).defines name = false

/-- What the walk of `lookup_singleton` meets first, and Ruby does not look at in that order,
has no `name`. -/
structure FollowsSingletons (c : ClassId) (name : String) : Prop where
  /-- up to the first class or module that has `name`, mixed-in modules have none -/
  mixins : ∀ chain complete, (ix.ancestors c).Returns (chain, complete) →
    ∀ l a r, chain = l ++ a :: r → (∀ b ∈ l, ix.SingletonSilent name b) →
      ix.onLine c a = false → (ix.classOf a).isOpen = false → ix.LendsNothing name a
  /-- the class that has `name` from an extended module has it from one only -/
  extensions : ∀ chain complete, (ix.ancestors c).Returns (chain, complete) →
    ∀ l a r, chain = l ++ a :: r → (∀ b ∈ l, ix.SingletonSilent name b) →
      (ix.classOf a).definesSingleton name = false →
        ∀ x ∈ (ix.classOf a).extends', ∀ y ∈ (ix.classOf a).extends',
          ¬ ix.ExtensionSilent name a x → ¬ ix.ExtensionSilent name a y →
            ix.resolveConst (ix.classOf a).nesting x = ix.resolveConst (ix.classOf a).nesting y
  /-- a core reopening answers only behind every superclass -/
  roots : ∀ chain complete, (ix.ancestors c).Returns (chain, complete) →
    (∀ b ∈ chain, ix.SingletonSilent name b) →
      (∀ a ∈ chain, ix.onLine c a = true → (ix.headless a).Returns false) ∧
        ∀ a ∈ ix.rootClasses c, ix.LendsNothing name a

/-! ### What the walk finds -/

section Found

variable {ix} {name : String} {sig : MethodSig} {owner : ClassId}

theorem scanExtended_found {chain : List ClassId}
    (h : ix.scanExtended name chain = some (.found sig owner)) :
    ∃ l r, chain = l ++ owner :: r ∧ (∀ a ∈ l, ix.SurfaceSilent name a) ∧
      (ix.classOf owner).methods.lookup name = some sig := by
  induction chain with
  | nil => simp [scanExtended] at h
  | cons a rest ih =>
    unfold scanExtended at h
    split_ifs at h with hopen
    · simp at h
    · rw [Bool.not_eq_true] at hopen
      split at h
      · next found hfound =>
        obtain ⟨rfl, rfl⟩ := MethodLookup.found.inj (Option.some.inj h)
        exact ⟨[], rest, rfl, by simp, hfound⟩
      · next hnone =>
        obtain ⟨l, r, rfl, hl, howner⟩ := ih h
        refine ⟨a :: l, r, rfl, ?_, howner⟩
        rw [List.forall_mem_cons]
        exact ⟨⟨hopen, by simp [ClassDef.defines, hnone]⟩, hl⟩

theorem extendedSurface_found {nesting : List ConstPath} {exts : List ConstPath}
    (h : (ix.extendedSurface nesting name exts).Returns (some (.found sig owner))) :
    ∃ ext ∈ exts, ∃ m chain complete, ix.resolveConst nesting ext = some m ∧
      (ix.ancestors m).Returns (chain, complete) ∧
        ix.scanExtended name chain = some (.found sig owner) := by
  induction exts with
  | nil => simp [extendedSurface] at h
  | cons ext rest ih =>
    unfold extendedSurface at h
    split at h
    · simp at h
    · next m hm =>
      obtain ⟨⟨chain, complete⟩, hchain, h⟩ := Fueled.returns_bind.mp h
      dsimp only at h
      split at h
      · next answer hanswer =>
        obtain rfl := Option.some.inj (Fueled.returns_pure.mp h)
        exact ⟨ext, List.mem_cons_self, m, chain, complete, hm, hchain, hanswer⟩
      · split_ifs at h
        · obtain ⟨x, hx, hrest⟩ := ih h
          exact ⟨x, List.mem_cons_of_mem _ hx, hrest⟩
        · simp at h

theorem scanSingleton_found {chain : List ClassId}
    (h : (ix.scanSingleton name chain).Returns (some (.found sig owner))) :
    ∃ l a r, chain = l ++ a :: r ∧ (∀ b ∈ l, ix.SingletonSilent name b) ∧
      (ix.classOf a).isOpen = false ∧
        (a = owner ∧ (ix.classOf a).singletonMethods.lookup name = some sig ∨
          (ix.classOf a).definesSingleton name = false ∧
            (ix.extendedModuleSurface (ix.classOf a) name).Returns (some (.found sig owner))) := by
  induction chain with
  | nil => simp [scanSingleton] at h
  | cons a rest ih =>
    unfold scanSingleton at h
    split_ifs at h with hopen
    · simp at h
    · rw [Bool.not_eq_true] at hopen
      split at h
      · next found hfound =>
        obtain ⟨rfl, rfl⟩ := MethodLookup.found.inj (Option.some.inj (Fueled.returns_pure.mp h))
        exact ⟨[], a, rest, rfl, by simp, hopen, Or.inl ⟨rfl, hfound⟩⟩
      · next hnone =>
        have hown : (ix.classOf a).definesSingleton name = false := by
          simp [ClassDef.definesSingleton, hnone]
        rw [Fueled.returns_first_some] at h
        swap
        · exact fun _ ↦ rfl
        rcases h with h | ⟨hsilent, h⟩
        · exact ⟨[], a, rest, rfl, by simp, hopen, Or.inr ⟨hown, h⟩⟩
        · obtain ⟨l, b, r, rfl, hl, hb⟩ := ih h
          refine ⟨a :: l, b, r, rfl, ?_, hb⟩
          rw [List.forall_mem_cons]
          exact ⟨⟨hopen, hown, extendedSurface_none_iff.mp hsilent⟩, hl⟩

theorem lookupSingleton_found {c : ClassId}
    (h : (ix.lookupSingleton c name).Returns (.found sig owner)) :
    ∃ chain complete, (ix.ancestors c).Returns (chain, complete) ∧
      ((ix.scanSingleton name chain).Returns (some (.found sig owner)) ∨
        (∀ b ∈ chain, ix.SingletonSilent name b) ∧
          (ix.coreSurface name (ix.objectPaths c)).Returns (some (.found sig owner))) := by
  unfold lookupSingleton at h
  obtain ⟨⟨chain, complete⟩, hchain, h⟩ := Fueled.returns_bind.mp h
  refine ⟨chain, complete, hchain, ?_⟩
  obtain ⟨scanned, hscanned, h⟩ := Fueled.returns_bind.mp h
  cases scanned with
  | some answer =>
    obtain rfl := Fueled.returns_pure.mp h
    exact Or.inl hscanned
  | none =>
    refine Or.inr ⟨scanSingleton_none_iff.mp hscanned, ?_⟩
    obtain ⟨core, hcore, h⟩ := Fueled.returns_bind.mp h
    cases core with
    | some answer =>
      obtain rfl := Fueled.returns_pure.mp h
      unfold coreObjectInstanceSurface at hcore
      split_ifs at hcore with hamb hmodule
      · simp at hcore
      · rwa [objectPaths, if_pos hmodule]
      · rwa [objectPaths, if_neg hmodule]
    | none =>
      dsimp only at h
      split_ifs at h
      · obtain ⟨hit, -, h⟩ := Fueled.returns_bind.mp h
        cases hit <;> simp at h
      · simp at h

end Found

/-! ### Where Ruby looks first -/

/-- Nothing at the place has `name`. -/
def PlaceSilent (name : String) (place : Place) : Prop :=
  ix.placeSig name place = none ∧ ix.placeOpen place = false

/-- The first place that is not silent has the definition. -/
def Hits (name : String) (sig : MethodSig) (owner : ClassId) (places : List Place) : Prop :=
  ∃ l place r, places = l ++ place :: r ∧ (∀ p ∈ l, ix.PlaceSilent name p) ∧
    ix.placeSig name place = some sig ∧ placeOwner place = some owner

section Places

variable {ix extended} {name : String} {sig : MethodSig} {owner : ClassId}

theorem Hits.runs {places : List Place} (h : ix.Hits name sig owner places)
    (answers : Place → Bool) : ∃ place, ix.runsAt name answers places = some place ∧
      ix.placeSig name place = some sig ∧ placeOwner place = some owner := by
  obtain ⟨l, place, r, rfl, hl, hsig, howner⟩ := h
  refine ⟨place, ?_, hsig, howner⟩
  unfold runsAt
  rw [List.find?_eq_some_iff_append]
  refine ⟨by simp [hsig], l, r, rfl, fun p hp ↦ ?_⟩
  simp [(hl p hp).1, (hl p hp).2]

theorem Hits.append {first second : List Place} (h : ix.Hits name sig owner first) :
    ix.Hits name sig owner (first ++ second) := by
  obtain ⟨l, place, r, rfl, hplace⟩ := h
  exact ⟨l, place, r ++ second, by simp, hplace⟩

theorem Hits.after {first second : List Place} (hfirst : ∀ p ∈ first, ix.PlaceSilent name p)
    (h : ix.Hits name sig owner second) : ix.Hits name sig owner (first ++ second) := by
  obtain ⟨l, place, r, rfl, hl, hplace⟩ := h
  refine ⟨first ++ l, place, r, by simp, fun p hp ↦ ?_, hplace⟩
  rcases List.mem_append.mp hp with hp | hp
  · exact hfirst p hp
  · exact hl p hp

theorem Hits.cons {p : Place} {rest : List Place} (hp : ix.PlaceSilent name p)
    (h : ix.Hits name sig owner rest) : ix.Hits name sig owner (p :: rest) := by
  rw [← List.singleton_append]
  exact h.after (List.forall_mem_singleton.mpr hp)

theorem extensionPlaces_silent {a : ClassId} {ext : ConstPath}
    (h : ix.ExtensionSilent name a ext) {places : List Place}
    (hplaces : (ix.extensionPlaces a ext).Returns places) :
    ∀ p ∈ places, ix.PlaceSilent name p := by
  obtain ⟨m, hm, chain, hchain, hsilent⟩ := h
  rw [extensionPlaces, hm] at hplaces
  have hplaces := (Fueled.Returns.bind_iff hchain).mp hplaces
  obtain rfl := Fueled.returns_pure.mp hplaces
  intro p hp
  rw [if_pos rfl, List.append_nil] at hp
  obtain ⟨w, hw, rfl⟩ := List.mem_map.mp hp
  have hdef := (hsilent w hw).2
  rw [ClassDef.defines, Option.isSome_eq_false_iff, Option.isNone_iff_eq_none] at hdef
  exact ⟨hdef, (hsilent w hw).1⟩

theorem extensionPlaces_hits {a : ClassId} {ext : ConstPath} {m : ClassId} {chain : List ClassId}
    {complete : Bool} (hm : ix.resolveConst (ix.classOf a).nesting ext = some m)
    (hchain : (ix.ancestors m).Returns (chain, complete))
    (hfound : ix.scanExtended name chain = some (.found sig owner)) {places : List Place}
    (hplaces : (ix.extensionPlaces a ext).Returns places) : ix.Hits name sig owner places := by
  rw [extensionPlaces, hm] at hplaces
  have hplaces := (Fueled.Returns.bind_iff hchain).mp hplaces
  obtain rfl := Fueled.returns_pure.mp hplaces
  obtain ⟨l, r, rfl, hl, hsig⟩ := scanExtended_found hfound
  refine Hits.append ⟨l.map .extension, .extension owner, r.map .extension, by simp, ?_, hsig, rfl⟩
  intro p hp
  obtain ⟨w, hw, rfl⟩ := List.mem_map.mp hp
  have hdef := (hl w hw).2
  rw [ClassDef.defines, Option.isSome_eq_false_iff, Option.isNone_iff_eq_none] at hdef
  exact ⟨hdef, (hl w hw).1⟩

section Extended

variable (hextended : ∀ a, (extended a).flatten = (ix.classOf a).extends')

include hextended

theorem mem_extended {a : ClassId} {ext : ConstPath} :
    ext ∈ (extended a).reverse.flatten ↔ ext ∈ (ix.classOf a).extends' := by
  rw [← hextended a]
  simp

theorem classPlaces_silent {a : ClassId} (h : ix.SingletonSilent name a) {places : List Place}
    (hplaces : (ix.classPlaces extended a).Returns places) :
    ∀ p ∈ places, ix.PlaceSilent name p := by
  obtain ⟨hopen, hown, hexts⟩ := h
  obtain ⟨exts, hreturns, hplaces⟩ := Fueled.returns_bind.mp hplaces
  obtain rfl := Fueled.returns_pure.mp hplaces
  rw [List.forall_mem_cons]
  constructor
  · rw [ClassDef.definesSingleton, Option.isSome_eq_false_iff, Option.isNone_iff_eq_none] at hown
    exact ⟨hown, hopen⟩
  · refine Fueled.forall_of_returns_gather (fun ext hext here hhere ↦ ?_) hreturns
    exact extensionPlaces_silent (hexts ext ((mem_extended hextended).mp hext)) hhere

/-- With one extended module that may have `name`, the order of the calls is nothing to it. -/
theorem classPlaces_hits_extension {a : ClassId} (hopen : (ix.classOf a).isOpen = false)
    (hown : (ix.classOf a).definesSingleton name = false)
    (hone : ∀ x ∈ (ix.classOf a).extends', ∀ y ∈ (ix.classOf a).extends',
      ¬ ix.ExtensionSilent name a x → ¬ ix.ExtensionSilent name a y →
        ix.resolveConst (ix.classOf a).nesting x = ix.resolveConst (ix.classOf a).nesting y)
    (hfound : (ix.extendedModuleSurface (ix.classOf a) name).Returns (some (.found sig owner)))
    {places : List Place} (hplaces : (ix.classPlaces extended a).Returns places) :
    ix.Hits name sig owner places := by
  classical
  obtain ⟨x, hx, m, chain, complete, hm, hchain, hscan⟩ := extendedSurface_found hfound
  have hspeaks : ¬ ix.ExtensionSilent name a x := by
    rintro ⟨m', hm', chain', hchain', hsilent⟩
    obtain rfl := Option.some.inj (hm'.symm.trans hm)
    obtain ⟨rfl, -⟩ := Prod.mk.inj (hchain'.unique hchain)
    rw [scanExtended_eq_none_iff.mpr hsilent] at hscan
    simp at hscan
  obtain ⟨exts, hreturns, hplaces⟩ := Fueled.returns_bind.mp hplaces
  obtain rfl := Fueled.returns_pure.mp hplaces
  -- the first extended module in Ruby's order that may have `name`
  cases hfirst : (extended a).reverse.flatten.find? fun ext ↦ ¬ ix.ExtensionSilent name a ext with
  | none =>
    rw [List.find?_eq_none] at hfirst
    have := hfirst x ((mem_extended hextended).mpr hx)
    simp [hspeaks] at this
  | some y =>
    obtain ⟨hy, l, r, hsplit, hl⟩ := List.find?_eq_some_iff_append.mp hfirst
    rw [decide_eq_true_eq] at hy
    have hmem : y ∈ (extended a).reverse.flatten := by simp [hsplit]
    have hsame := hone y ((mem_extended hextended).mp hmem) x hx hy hspeaks
    rw [hsplit] at hreturns
    obtain ⟨before, rest, hbefore, hrest, rfl⟩ := Fueled.returns_gather_append.mp hreturns
    obtain ⟨here, more, hhere, -, rfl⟩ := Fueled.returns_gather_cons.mp hrest
    have hhits := extensionPlaces_hits (hsame.trans hm) hchain hscan hhere
    refine Hits.cons ?_ (Hits.after ?_ hhits.append)
    · rw [ClassDef.definesSingleton, Option.isSome_eq_false_iff, Option.isNone_iff_eq_none] at hown
      exact ⟨hown, hopen⟩
    · refine Fueled.forall_of_returns_gather (fun ext hext here hhere ↦ ?_) hbefore
      have hsilent := hl ext hext
      rw [Bool.not_eq_true', decide_eq_false_iff_not, not_not] at hsilent
      exact extensionPlaces_silent hsilent hhere

end Extended

/-! ### The core reopenings -/

theorem reopening_hits {chain : List ClassId}
    (h : ix.firstDefinition name chain = some (.found sig owner)) :
    ix.Hits name sig owner (chain.map .reopening) := by
  induction chain with
  | nil => simp [firstDefinition] at h
  | cons a rest ih =>
    unfold firstDefinition at h
    split at h
    · next found hfound =>
      obtain ⟨rfl, rfl⟩ := MethodLookup.found.inj (Option.some.inj h)
      exact ⟨[], .reopening a, rest.map .reopening, rfl, by simp, hfound, rfl⟩
    · next hnone =>
      exact Hits.cons ⟨hnone, rfl⟩ (ih h)

theorem reopening_silent {chain : List ClassId} (h : ix.firstDefinition name chain = none) :
    ∀ p ∈ chain.map Place.reopening, ix.PlaceSilent name p := by
  induction chain with
  | nil => simp
  | cons a rest ih =>
    unfold firstDefinition at h
    split at h
    · simp at h
    · next hnone =>
      rw [List.map_cons, List.forall_mem_cons]
      exact ⟨⟨hnone, rfl⟩, ih h⟩

theorem rootPlaces_silent (hextended : ∀ a, (extended a).flatten = (ix.classOf a).extends')
    {a : ClassId} (h : ix.LendsNothing name a) {places : List Place}
    (hplaces : (ix.rootPlaces extended a).Returns places) :
    ∀ p ∈ places, ix.PlaceSilent name p := by
  obtain ⟨hown, hexts⟩ := h
  obtain ⟨exts, hreturns, hplaces⟩ := Fueled.returns_bind.mp hplaces
  obtain rfl := Fueled.returns_pure.mp hplaces
  rw [List.forall_mem_cons]
  constructor
  · rw [ClassDef.definesSingleton, Option.isSome_eq_false_iff, Option.isNone_iff_eq_none] at hown
    exact ⟨hown, rfl⟩
  · refine Fueled.forall_of_returns_gather (fun ext hext here hhere ↦ ?_) hreturns
    have hlends := hexts ext ((mem_extended hextended).mp hext)
    unfold reopeningMixin at hhere
    split at hhere
    · obtain rfl := Fueled.returns_pure.mp hhere
      simp
    · next m hm =>
      obtain ⟨chain, hchain, hhere⟩ := Fueled.returns_bind.mp hhere
      obtain rfl := Fueled.returns_pure.mp hhere
      obtain ⟨⟨_, complete⟩, hreturns, rfl⟩ := Fueled.returns_map.mp hchain
      intro p hp
      obtain ⟨w, hw, rfl⟩ := List.mem_map.mp hp
      have hdef := hlends m hm _ _ hreturns w hw
      rw [ClassDef.defines, Option.isSome_eq_false_iff, Option.isNone_iff_eq_none] at hdef
      exact ⟨hdef, rfl⟩

variable {core : ClassDef}

theorem mixin_silent {mixins : List ConstPath}
    (h : (ix.coreMixinDefinition core name mixins).Returns none) {places : List Place}
    (hplaces : (Fueled.gather (ix.reopeningMixin core) mixins).Returns places) :
    ∀ p ∈ places, ix.PlaceSilent name p := by
  induction mixins generalizing places with
  | nil =>
    obtain rfl : [] = places := Fueled.returns_pure.mp hplaces
    simp
  | cons mixin rest ih =>
    obtain ⟨here, more, hhere, hmore, rfl⟩ := Fueled.returns_gather_cons.mp hplaces
    unfold coreMixinDefinition at h
    unfold reopeningMixin at hhere
    split at h
    · next hm =>
      rw [hm] at hhere
      obtain rfl := Fueled.returns_pure.mp hhere
      exact ih h hmore
    · next m hm =>
      rw [hm] at hhere
      obtain ⟨chain, hchain, hhere⟩ := Fueled.returns_bind.mp hhere
      obtain rfl := Fueled.returns_pure.mp hhere
      obtain ⟨chain', hchain', h⟩ := Fueled.returns_bind.mp h
      obtain rfl := hchain.unique hchain'
      split at h
      · simp at h
      · next hnone =>
        intro p hp
        rcases List.mem_append.mp hp with hp | hp
        · exact reopening_silent hnone p hp
        · exact ih h hmore p hp

theorem mixin_hits {mixins : List ConstPath}
    (h : (ix.coreMixinDefinition core name mixins).Returns (some (.found sig owner)))
    {places : List Place}
    (hplaces : (Fueled.gather (ix.reopeningMixin core) mixins).Returns places) :
    ix.Hits name sig owner places := by
  induction mixins generalizing places with
  | nil => simp [coreMixinDefinition] at h
  | cons mixin rest ih =>
    obtain ⟨here, more, hhere, hmore, rfl⟩ := Fueled.returns_gather_cons.mp hplaces
    unfold coreMixinDefinition at h
    unfold reopeningMixin at hhere
    split at h
    · next hm =>
      rw [hm] at hhere
      obtain rfl := Fueled.returns_pure.mp hhere
      exact ih h hmore
    · next m hm =>
      rw [hm] at hhere
      obtain ⟨chain, hchain, hhere⟩ := Fueled.returns_bind.mp hhere
      obtain rfl := Fueled.returns_pure.mp hhere
      obtain ⟨chain', hchain', h⟩ := Fueled.returns_bind.mp h
      obtain rfl := hchain.unique hchain'
      split at h
      · next answer hanswer =>
        obtain rfl := Option.some.inj (Fueled.returns_pure.mp h)
        exact (reopening_hits hanswer).append
      · next hnone => exact Hits.after (reopening_silent hnone) (ih h hmore)

theorem coreSurface_hits {paths : List ConstPath}
    (h : (ix.coreSurface name paths).Returns (some (.found sig owner))) {places : List Place}
    (hplaces : (Fueled.gather ix.reopeningPlaces paths).Returns places) :
    ix.Hits name sig owner places := by
  induction paths generalizing places with
  | nil => simp [coreSurface] at h
  | cons path rest ih =>
    obtain ⟨here, more, hhere, hmore, rfl⟩ := Fueled.returns_gather_cons.mp hplaces
    unfold coreSurface at h
    unfold reopeningPlaces at hhere
    split at h
    · next hcid =>
      rw [hcid] at hhere
      obtain rfl := Fueled.returns_pure.mp hhere
      exact ih h hmore
    · next cid hcid =>
      rw [hcid] at hhere
      obtain ⟨prepended, hprepended, hhere⟩ := Fueled.returns_bind.mp hhere
      obtain ⟨included, hincluded, hhere⟩ := Fueled.returns_bind.mp hhere
      obtain rfl := Fueled.returns_pure.mp hhere
      dsimp only at h
      rw [Fueled.returns_first_some] at h
      swap
      · exact fun _ ↦ rfl
      rcases h with h | ⟨hfront, h⟩
      · exact (mixin_hits h hprepended).append.append
      rw [List.append_assoc]
      refine Hits.after (mixin_silent hfront hprepended) ?_
      rw [List.cons_append]
      cases hown : (ix.classOf cid).methods.lookup name with
      | some found =>
        simp only [hown, Fueled.returns_pure, Option.some.injEq, MethodLookup.found.injEq] at h
        obtain ⟨rfl, rfl⟩ := h
        exact ⟨[], _, included ++ more, rfl, by simp, hown, rfl⟩
      | none =>
        simp only [hown] at h
        refine Hits.cons ⟨hown, rfl⟩ ?_
        rw [Fueled.returns_first_some] at h
        swap
        · exact fun _ ↦ rfl
        rcases h with h | ⟨hback, h⟩
        · exact (mixin_hits h hincluded).append
        · exact Hits.after (mixin_silent hback hincluded) (ih h hmore)

/-! ### Dispatch -/

end Places

/-! ### A mixed-in module with class methods -/

/-- A class method `build` in a module and in a class, and an instance method `label` in two
modules; `body` completes the subclass `Host`. -/
def workshop (body : ClassFragment → ClassFragment) : ProjectIndex :=
  mergeFiles {}
    [("workshop.rb", { fragments := [
      { path := ["Shared"], nesting := [["Shared"]], isModule := true,
        singletonMethods := [{ name := "build", required := 1, nameSpan := (26, 31),
                               defSpan := (17, 42) }] },
      { path := ["First"], nesting := [["First"]], isModule := true,
        methods := [{ name := "label", required := 1, nameSpan := (72, 77),
                      defSpan := (68, 88) }] },
      { path := ["Second"], nesting := [["Second"]], isModule := true,
        methods := [{ name := "label", nameSpan := (117, 122), defSpan := (113, 127) }] },
      { path := ["Base"], nesting := [["Base"]], isModule := false,
        singletonMethods := [{ name := "build", nameSpan := (155, 160), defSpan := (146, 165) }] },
      body { path := ["Host"], nesting := [["Host"]], isModule := false,
             superclass := some ["Base"] }] })]

/-- `include Shared`, `extend First`, `extend Second` -/
def mixingHost : ProjectIndex :=
  workshop fun host ↦ { host with includes := [["Shared"]], extends' := [["First"], ["Second"]] }

/-- Only the class methods of `Base` and the instance methods of `Second` are called `build`
and `label`. -/
def plainHost : ProjectIndex :=
  workshop fun host ↦ { host with includes := [["First"]], extends' := [["Second"]] }

theorem plainHost_follows (name : String) : plainHost.FollowsSingletons 4 name := by
  have hwalk : (plainHost.ancestors 4).Returns ([4, 1, 3], true) := ⟨20, rfl⟩
  have hchain : ∀ chain complete, (plainHost.ancestors 4).Returns (chain, complete) →
      chain = [4, 1, 3] := fun chain complete h ↦ (Prod.mk.inj (h.unique hwalk)).1
  have hexts : ∀ a ∈ [4, 1, 3], ∀ x ∈ (plainHost.classOf a).extends', x = ["Second"] := by
    decide
  refine ⟨fun chain complete h l a r heq _ hoff _ ↦ ?_, fun chain complete h l a r heq _ _ ↦ ?_,
    fun chain complete h _ ↦ ?_⟩
  · have ha : a ∈ [4, 1, 3] := by
      rw [← hchain chain complete h, heq]
      simp
    have hmodule : ∀ a ∈ [4, 1, 3], plainHost.onLine 4 a = false → a = 1 := by decide
    obtain rfl := hmodule a ha hoff
    have hown : (plainHost.classOf 1).singletonMethods = ∅ := rfl
    have hnone : (plainHost.classOf 1).extends' = [] := rfl
    exact ⟨by simp [ClassDef.definesSingleton, hown], by simp [hnone]⟩
  · have ha : a ∈ [4, 1, 3] := by
      rw [← hchain chain complete h, heq]
      simp
    intro x hx y hy _ _
    rw [hexts a ha x hx, hexts a ha y hy]
  · rw [hchain chain complete h]
    have hroots : plainHost.rootClasses 4 = [] := rfl
    refine ⟨fun a ha _ ↦ ?_, by simp [hroots]⟩
    simp only [List.mem_cons, List.not_mem_nil, or_false] at ha
    rcases ha with rfl | rfl | rfl
    · exact ⟨20, rfl⟩
    · exact ⟨20, rfl⟩
    · exact ⟨20, rfl⟩

end ProjectIndex

end Itaruby
