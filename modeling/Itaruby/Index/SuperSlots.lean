import Itaruby.Index.ClassObject
import Itaruby.Index.Dispatch

/-!
Where `super` goes. A method runs in the instances of every class that has its owner among
its ancestors, and on the class objects that have it; `super` goes on behind the owner in the
ancestors of that object. `super_lookup` answers for all of them at once: for a class it
reads one chain, for a module the chains of the classes that mix it in, which have to agree
on the written definition. It does not look at class objects, and it does not notice an
unresolved module in front of the definition it finds.
-/

set_option autoImplicit false
set_option relaxedAutoImplicit false

namespace Itaruby

def MethodSig.writtenAt (sig : MethodSig) : SourceFile × Span := (sig.file, sig.nameSpan)

/-- The class or module whose instance methods a place has. -/
def Place.lends : Place → Option ClassId
  | .extension a => some a
  | .reopening a => some a
  | _ => none

namespace ProjectIndex

variable {ε : Type} (ix : ProjectIndex) (denote : ClassId → ConstPath → ε) (project : Project)
  (H : Ruby.Hierarchy (Ref ε)) (s : Ruby.Chains (Ref ε))
  (extended : ClassId → List (List ConstPath))

/-! ### What runs -/

/-- Whatever the libraries define, the first definition in the order is the one at `site`. -/
def RunsFrom (name : String) (site : SourceFile × Span) (order : List (Ref ε)) : Prop :=
  ∀ answers, ∃ target sig, ix.dispatch project answers name order = some (.project target) ∧
    project.lastDef (ix.classOf target).path name = some sig ∧ sig.writtenAt = site

/-- Whatever the open places have, the first definition is the one at `site`. -/
def ObjectRunsFrom (name : String) (site : SourceFile × Span) (places : List Place) : Prop :=
  ∀ answers, ∃ place sig, ix.runsAt name answers places = some place ∧
    ix.placeSig name place = some sig ∧ sig.writtenAt = site

/-- The classes of the program whose instances have the methods of `owner`. -/
structure Consumer (owner c : ClassId) : Prop where
  listed : ∃ path, ix.byPath.lookup path = some c
  isModule : (ix.classOf c).isModule = false
  mem : .project owner ∈ Ruby.ancestors H s (.project c)

/-- `P` holds of what comes behind `owner` in every class whose instances have its methods. -/
def BehindInInstances (owner : ClassId) (P : List (Ref ε) → Prop) : Prop :=
  ∀ c, ix.Consumer H s owner c → ∀ l r,
    Ruby.ancestors H s (.project c) = l ++ .project owner :: r → .project owner ∉ l → P r

/-- `P` holds of what comes behind `owner` on every class object that has its methods. -/
def BehindInObjects (owner : ClassId) (P : List Place → Prop) : Prop :=
  ∀ path c, ix.byPath.lookup path = some c → (ix.classOf c).isModule = false →
    ∀ places, (ix.singletonPlaces extended c).Returns places →
      ∀ l slot r, places = l ++ slot :: r → slot.lends = some owner →
        (∀ p ∈ l, p.lends ≠ some owner) → P r

/-- A definition that `super` is said to go to is the next one behind the owner in every
object that runs the owner's method, and not the owner's own. -/
def SuperGoesToOne (owner : ClassId) (name : String) : Prop :=
  ∀ sig target, (ix.superLookup owner false name).Returns (.found sig target) →
    target ≠ owner ∧
      ix.BehindInInstances H s owner (ix.RunsFrom project name sig.writtenAt) ∧
        ix.BehindInObjects extended owner (ix.ObjectRunsFrom name sig.writtenAt)

/-! ### When it does -/

/-- The first class of the chain that is open or has `name` is readable and has the definition
at `site`. -/
def Continues (name : String) (site : SourceFile × Span) (chain : List ClassId) : Prop :=
  ∃ before target after sig, chain = before ++ target :: after ∧
    (∀ a ∈ before, ix.SurfaceSilent name a) ∧ (ix.classOf target).isOpen = false ∧
      (ix.classOf target).methods.lookup name = some sig ∧ sig.writtenAt = site

/-- The chains the answer for `owner` is read from. -/
def superConsumers (owner : ClassId) : List ClassId :=
  if (ix.classOf owner).isModule then
    (List.range ix.classes.length).filter fun c ↦ !(ix.classOf c).isModule
  else [owner]

def InChain (owner c : ClassId) : Prop :=
  ∃ chain complete, (ix.ancestors c).Returns (chain, complete) ∧ owner ∈ chain

def ContinuesIn (owner : ClassId) (name : String) (site : SourceFile × Span) (c : ClassId) :
    Prop :=
  ∃ chain complete, (ix.ancestors c).Returns (chain, complete) ∧
    ∀ l r, chain = l ++ owner :: r → owner ∉ l → ix.Continues name site r

/-- Some chain of the index has `owner`, and all that have it go on to the definition at
`site`. -/
def Agreed (owner : ClassId) (name : String) (site : SourceFile × Span) : Prop :=
  (∃ c ∈ ix.superConsumers owner, ix.InChain owner c) ∧
    ∀ c ∈ ix.superConsumers owner, ix.ContinuesIn owner name site c

/-- No library module comes before the first class that has `name`, as long as every class up
to it is readable. -/
def Resolved (name : String) (order : List (Ref ε)) : Prop :=
  ∀ before target after, order = before ++ .project target :: after →
    (∀ a, .project a ∈ before → ix.SurfaceSilent name a) → (ix.classOf target).isOpen = false →
      (ix.classOf target).defines name = true → ∀ x ∈ before, x.id?.isSome

/-- The first place that is not silent has the definition at `site`. -/
def ObjectContinues (name : String) (site : SourceFile × Span) (places : List Place) : Prop :=
  ∃ before place after sig, places = before ++ place :: after ∧
    (∀ p ∈ before, ix.PlaceSilent name p) ∧ ix.placeSig name place = some sig ∧ sig.writtenAt = site

/-- Where the chains agree on a definition, no unresolved module stands between the owner and
the definition, and the class objects that have the owner's methods go on to the same one. -/
def NothingBetween (owner : ClassId) (name : String) : Prop :=
  ∀ site, ix.Agreed owner name site →
    ix.BehindInInstances H s owner (ix.Resolved name) ∧
      ix.BehindInObjects extended owner (ix.ObjectContinues name site)

/-! ### What the lookup answers -/

section Lookup

variable {ix} {name : String} {sig : MethodSig} {owner target : ClassId}

theorem chainAfter_eq_none_iff {chain : List ClassId} :
    chainAfter owner chain = none ↔ owner ∉ chain := by
  induction chain with
  | nil => simp [chainAfter]
  | cons a rest ih =>
    unfold chainAfter
    by_cases ha : a = owner
    · simp [ha]
    · rw [if_neg ha, ih, List.mem_cons, not_or]
      exact ⟨fun h ↦ ⟨Ne.symm ha, h⟩, And.right⟩

theorem chainAfter_append {l : List ClassId} (hl : owner ∉ l) (r : List ClassId) :
    chainAfter owner (l ++ owner :: r) = some r := by
  induction l with
  | nil => simp [chainAfter]
  | cons a l ih =>
    rw [List.mem_cons, not_or] at hl
    rw [List.cons_append, chainAfter, if_neg (Ne.symm hl.1), ih hl.2]

theorem exists_split_of_chainAfter {chain after : List ClassId}
    (h : chainAfter owner chain = some after) :
    ∃ l, chain = l ++ owner :: after ∧ owner ∉ l := by
  have hmem : owner ∈ chain := by
    by_contra hnot
    simp [chainAfter_eq_none_iff.mpr hnot] at h
  obtain ⟨l, r, rfl, hl⟩ := List.eq_append_cons_of_mem hmem
  rw [chainAfter_append hl] at h
  exact ⟨l, by rw [Option.some.inj h], hl⟩

theorem lookupFrom_found_iff {complete : Bool} {chain : List ClassId} :
    ix.lookupFrom name false complete chain = .found sig target ↔
      ∃ before after, chain = before ++ target :: after ∧
        (∀ a ∈ before, ix.SurfaceSilent name a) ∧ (ix.classOf target).isOpen = false ∧
          (ix.classOf target).methods.lookup name = some sig := by
  constructor
  · intro h
    induction chain with
    | nil => cases complete <;> simp [lookupFrom] at h
    | cons a rest ih =>
      have hopen : (ix.classOf a).isOpen = false := by
        by_contra hopen
        rw [Bool.not_eq_false] at hopen
        simp [lookupFrom, hopen] at h
      simp only [lookupFrom, hopen, Bool.false_eq_true, if_false] at h
      split at h
      · next found hfound =>
        obtain ⟨rfl, rfl⟩ := MethodLookup.found.inj h
        exact ⟨[], rest, rfl, by simp, hopen, hfound⟩
      · next hnone =>
        obtain ⟨before, after, rfl, hbefore, htarget⟩ := ih h
        refine ⟨a :: before, after, rfl, ?_, htarget⟩
        rw [List.forall_mem_cons]
        exact ⟨⟨hopen, by simp [ClassDef.defines, hnone]⟩, hbefore⟩
  · rintro ⟨before, after, rfl, hbefore, hopen, hsig⟩
    induction before with
    | nil => simp [lookupFrom, hopen, hsig]
    | cons a before ih =>
      rw [List.forall_mem_cons] at hbefore
      have hnone : (ix.classOf a).methods.lookup name = none := by
        simpa [ClassDef.defines] using hbefore.1.2
      rw [List.cons_append, lookupFrom, hbefore.1.1]
      simpa [hnone] using ih hbefore.2

theorem continues_iff {site : SourceFile × Span} {complete : Bool} {chain : List ClassId} :
    ix.Continues name site chain ↔
      ∃ sig target, ix.lookupFrom name false complete chain = .found sig target ∧
        sig.writtenAt = site := by
  constructor
  · rintro ⟨before, target, after, sig, hsplit, hbefore, hopen, hsig, hsite⟩
    exact ⟨sig, target, lookupFrom_found_iff.mpr ⟨before, after, hsplit, hbefore, hopen, hsig⟩,
      hsite⟩
  · rintro ⟨sig, target, hfound, hsite⟩
    obtain ⟨before, after, hsplit, hbefore, hopen, hsig⟩ := lookupFrom_found_iff.mp hfound
    exact ⟨before, target, after, sig, hsplit, hbefore, hopen, hsig, hsite⟩

theorem target_ne_of_lookupFrom {complete : Bool} {l r : List ClassId}
    (hnodup : (l ++ owner :: r).Nodup)
    (h : ix.lookupFrom name false complete r = .found sig target) : target ≠ owner := by
  obtain ⟨before, after, rfl, -⟩ := lookupFrom_found_iff.mp h
  rintro rfl
  have := List.nodup_middle.mp hnodup
  simp at this

section Chain

variable {c : ClassId} {chain : List ClassId} {complete : Bool}
  (hchain : (ix.ancestors c).Returns (chain, complete))

include hchain

theorem inChain_iff : ix.InChain owner c ↔ owner ∈ chain := by
  constructor
  · rintro ⟨chain', complete', hchain', hmem⟩
    obtain ⟨rfl, -⟩ := Prod.mk.inj (hchain.unique hchain')
    exact hmem
  · exact fun h ↦ ⟨chain, complete, hchain, h⟩

theorem continuesIn_iff {site : SourceFile × Span} :
    ix.ContinuesIn owner name site c ↔
      ∀ l r, chain = l ++ owner :: r → owner ∉ l → ix.Continues name site r := by
  constructor
  · rintro ⟨chain', complete', hchain', h⟩
    obtain ⟨rfl, -⟩ := Prod.mk.inj (hchain.unique hchain')
    exact h
  · exact fun h ↦ ⟨chain, complete, hchain, h⟩

theorem continuesIn_of_not_mem {site : SourceFile × Span} (h : owner ∉ chain) :
    ix.ContinuesIn owner name site c := by
  refine (continuesIn_iff hchain).mpr fun l r hsplit _ ↦ ?_
  simp [hsplit] at h

/-- `after` is what the loop reads of the chain. -/
theorem continuesIn_iff_of_split {site : SourceFile × Span} {l after : List ClassId}
    (hsplit : chain = l ++ owner :: after) (hl : owner ∉ l) :
    ix.ContinuesIn owner name site c ↔
      ∃ sig target, ix.lookupFrom name false complete after = .found sig target ∧
        sig.writtenAt = site := by
  rw [continuesIn_iff hchain, ← continues_iff]
  constructor
  · exact fun h ↦ h l after hsplit hl
  · intro h l' r hsplit' hl'
    have hsame := congrArg (chainAfter owner) (hsplit.symm.trans hsplit')
    rw [chainAfter_append hl, chainAfter_append hl'] at hsame
    exact Option.some.inj hsame ▸ h

end Chain

/-- The loop found a definition at `site`. -/
def OutcomeAt (site : SourceFile × Span) (outcome : Option (Option (MethodSig × ClassId))) :
    Prop :=
  ∃ sig target, outcome = some (some (sig, target)) ∧ sig.writtenAt = site

theorem outcomeAt_some_iff {site : SourceFile × Span} :
    OutcomeAt site (some (some (sig, target))) ↔ sig.writtenAt = site := by
  simp [OutcomeAt]

theorem agreedOutcome_found_iff {outcome : Option (Option (MethodSig × ClassId))} :
    agreedOutcome outcome = .found sig target ↔ outcome = some (some (sig, target)) := by
  cases outcome with
  | none => simp [agreedOutcome]
  | some found =>
    cases found with
    | none => simp [agreedOutcome]
    | some entry => simp [agreedOutcome, Prod.ext_iff]

theorem outcomesAgree_found_iff {outcome : Option (Option (MethodSig × ClassId))} :
    outcomesAgree outcome (some (sig, target)) = true ↔
      outcome = none ∨ OutcomeAt sig.writtenAt outcome := by
  cases outcome with
  | none => simp [outcomesAgree]
  | some found =>
    cases found with
    | none => simp [outcomesAgree, OutcomeAt]
    | some entry => simp [outcomesAgree, OutcomeAt, MethodSig.writtenAt, Prod.ext_iff]

theorem superOverConsumers_found_iff {site : SourceFile × Span} (consumers : List ClassId) :
    ∀ outcome, (∃ sig target, (ix.superOverConsumers owner name outcome consumers).Returns
        (.found sig target) ∧ sig.writtenAt = site) ↔
      (∀ c ∈ consumers, (ix.classOf c).isModule = false → ix.ContinuesIn owner name site c) ∧
        (OutcomeAt site outcome ∨ outcome = none ∧
          ∃ c ∈ consumers, (ix.classOf c).isModule = false ∧ ix.InChain owner c) := by
  induction consumers with
  | nil =>
    intro outcome
    simp [superOverConsumers, agreedOutcome_found_iff, OutcomeAt]
  | cons c rest ih =>
    intro outcome
    rw [List.forall_mem_cons, List.exists_mem_cons_iff]
    unfold superOverConsumers
    by_cases hmodule : (ix.classOf c).isModule = true
    · simp only [hmodule, if_true, ih, Bool.true_eq_false, false_implies, true_and, false_and,
        false_or]
    · rw [Bool.not_eq_true] at hmodule
      simp only [hmodule, Bool.false_eq_true, if_false, true_and, forall_const]
      by_cases hwalk : (ix.ancestors c).Converges
      swap
      · refine iff_of_false ?_ ?_
        · rintro ⟨sig, target, h, -⟩
          obtain ⟨x, hx, -⟩ := Fueled.returns_bind.mp h
          exact hwalk ⟨x, hx⟩
        · rintro ⟨⟨⟨chain, complete, hchain, -⟩, -⟩, -⟩
          exact hwalk ⟨_, hchain⟩
      obtain ⟨⟨chain, complete⟩, hchain⟩ := hwalk
      simp only [Fueled.Returns.bind_iff hchain]
      cases hafter : chainAfter owner chain with
      | none =>
        have hnot := chainAfter_eq_none_iff.mp hafter
        simp only [ih, continuesIn_of_not_mem hchain hnot, inChain_iff hchain, hnot, true_and,
          false_or]
      | some after =>
        obtain ⟨l, hsplit, hl⟩ := exists_split_of_chainAfter hafter
        have hmem : owner ∈ chain := by simp [hsplit]
        rw [continuesIn_iff_of_split hchain hsplit hl]
        simp only [inChain_iff hchain, hmem, true_or, and_true]
        cases hhere : ix.lookupFrom name false complete after with
        | inconclusive => simp
        | notFound =>
          simp only [reduceCtorEq, false_and, exists_const, exists_false, iff_false]
          rintro ⟨sig, target, h, hsite⟩
          split_ifs at h with hagree
          · obtain ⟨-, hrest⟩ := (ih _).mp ⟨sig, target, h, hsite⟩
            simp [OutcomeAt] at hrest
          · simp at h
        | found found foundIn =>
          have hfound : (∃ sig target, MethodLookup.found found foundIn = .found sig target ∧
              sig.writtenAt = site) ↔ found.writtenAt = site := by simp
          rw [hfound]
          by_cases hagree : outcomesAgree outcome (some (found, foundIn)) = true
          · simp only [hagree, if_true, ih, outcomeAt_some_iff, reduceCtorEq, false_and, or_false]
            rw [outcomesAgree_found_iff] at hagree
            constructor
            · rintro ⟨hrest, rfl⟩
              exact ⟨⟨rfl, hrest⟩, hagree.symm⟩
            · rintro ⟨⟨rfl, hrest⟩, -⟩
              exact ⟨hrest, rfl⟩
          · simp only [hagree, Bool.false_eq_true, if_false]
            refine iff_of_false (by simp) ?_
            rintro ⟨⟨rfl, -⟩, h⟩
            exact hagree (outcomesAgree_found_iff.mpr h.symm)

theorem superOverConsumers_target_ne (consumers : List ClassId) :
    ∀ outcome, (∀ sig target, outcome = some (some (sig, target)) → target ≠ owner) →
      (ix.superOverConsumers owner name outcome consumers).Returns (.found sig target) →
        target ≠ owner := by
  induction consumers with
  | nil =>
    intro outcome houtcome h
    exact houtcome sig target (agreedOutcome_found_iff.mp (Fueled.returns_pure.mp h))
  | cons c rest ih =>
    intro outcome houtcome h
    unfold superOverConsumers at h
    split at h
    · exact ih outcome houtcome h
    obtain ⟨⟨chain, complete⟩, hchain, h⟩ := Fueled.returns_bind.mp h
    dsimp only at h
    split at h
    · exact ih outcome houtcome h
    · next after hafter =>
      obtain ⟨l, rfl, -⟩ := exists_split_of_chainAfter hafter
      split at h
      · simp at h
      · split_ifs at h
        · exact ih _ (by simp) h
        · simp at h
      · next found foundIn hfound =>
        split_ifs at h
        · refine ih _ ?_ h
          rintro _ _ ⟨⟩
          exact target_ne_of_lookupFrom (ancestors_nodup hchain) hfound
        · simp at h

theorem superLookup_target_ne
    (h : (ix.superLookup owner false name).Returns (.found sig target)) : target ≠ owner := by
  unfold superLookup at h
  simp only [Bool.false_eq_true, if_false] at h
  split_ifs at h
  · exact superOverConsumers_target_ne _ none (by simp) h
  · obtain ⟨⟨chain, complete⟩, hchain, h⟩ := Fueled.returns_bind.mp h
    dsimp only at h
    split at h
    · next after hafter =>
      obtain ⟨l, rfl, -⟩ := exists_split_of_chainAfter hafter
      exact target_ne_of_lookupFrom (ancestors_nodup hchain) (Fueled.returns_pure.mp h)
    · simp at h

/-- The lookup answers with a definition at `site` exactly when the chains agree on it. -/
theorem superLookup_found_iff {site : SourceFile × Span} :
    (∃ sig target, (ix.superLookup owner false name).Returns (.found sig target) ∧
      sig.writtenAt = site) ↔ ix.Agreed owner name site := by
  unfold superLookup Agreed superConsumers
  by_cases hmodule : (ix.classOf owner).isModule = true
  · simp only [hmodule, if_true, Bool.false_eq_true, if_false, superOverConsumers_found_iff]
    simp only [OutcomeAt, reduceCtorEq, false_and, exists_false, false_or, true_and,
      List.mem_filter, Bool.not_eq_true', and_assoc, and_imp]
    exact and_comm
  · simp only [hmodule, Bool.false_eq_true, if_false, List.mem_singleton, exists_eq_left,
      forall_eq]
    constructor
    · rintro ⟨sig, target, h, hsite⟩
      obtain ⟨⟨chain, complete⟩, hchain, h⟩ := Fueled.returns_bind.mp h
      have hself := self_mem_ancestors hchain
      obtain ⟨l, after, hsplit, hl⟩ := List.eq_append_cons_of_mem hself
      rw [hsplit, chainAfter_append hl] at h
      exact ⟨(inChain_iff hchain).mpr hself, (continuesIn_iff_of_split hchain hsplit hl).mpr
        ⟨sig, target, Fueled.returns_pure.mp h, hsite⟩⟩
    · rintro ⟨⟨chain, complete, hchain, hself⟩, hcontinues⟩
      obtain ⟨l, after, hsplit, hl⟩ := List.eq_append_cons_of_mem hself
      obtain ⟨sig, target, hfound, hsite⟩ :=
        (continuesIn_iff_of_split hchain hsplit hl).mp hcontinues
      refine ⟨sig, target, (Fueled.Returns.bind_iff hchain).mpr ?_, hsite⟩
      rw [hsplit, chainAfter_append hl]
      exact Fueled.returns_pure.mpr hfound

end Lookup

/-! ### What runs in instances -/

section Instances

variable {ix project} {name : String} {site : SourceFile × Span}

theorem exists_split_of_filterMap {order : List (Ref ε)} {before after : List ClassId}
    {target : ClassId} (h : order.filterMap Ref.id? = before ++ target :: after) :
    ∃ l r, order = l ++ .project target :: r ∧ l.filterMap Ref.id? = before := by
  obtain ⟨l, rest, rfl, hl, hrest⟩ := List.filterMap_eq_append_iff.mp h
  obtain ⟨skipped, x, r, rfl, hskipped, hx, -⟩ := List.filterMap_eq_cons_iff.mp hrest
  cases x with
  | external e => simp [Ref.id?] at hx
  | project a =>
    obtain rfl : a = target := Option.some.inj hx
    refine ⟨l ++ skipped, r, by simp, ?_⟩
    rw [List.filterMap_append, hl, List.filterMap_eq_nil_iff.mpr hskipped, List.append_nil]

/-- A library module in front of the classes that have `name` may have it. -/
theorem dispatch_external {before rest : List (Ref ε)} {e : ε}
    (hsilent : ∀ a, .project a ∈ before → project.lastDef (ix.classOf a).path name = none)
    (he : .external e ∈ before) :
    ∃ e', ix.dispatch project (fun _ ↦ true) name (before ++ rest) = some (.external e') := by
  have happend : ix.dispatch project (fun _ ↦ true) name (before ++ rest) =
      (ix.dispatch project (fun _ ↦ true) name before).or
        (ix.dispatch project (fun _ ↦ true) name rest) := List.find?_append
  rw [happend]
  cases hfirst : ix.dispatch project (fun _ ↦ true) name before with
  | none => simpa using List.find?_eq_none.mp hfirst _ he
  | some x =>
    cases x with
    | external e' => exact ⟨e', rfl⟩
    | project a =>
      have hhas := List.find?_some hfirst
      simp [hsilent a (List.mem_of_find?_eq_some hfirst)] at hhas

theorem runsFrom_iff {order : List (Ref ε)}
    (hlast : ∀ a, .project a ∈ order →
      project.lastDef (ix.classOf a).path name = (ix.classOf a).methods.lookup name)
    (hcontinues : ix.Continues name site (order.filterMap Ref.id?)) :
    ix.RunsFrom project name site order ↔ ix.Resolved name order := by
  have hsilent : ∀ a, .project a ∈ order → ix.SurfaceSilent name a →
      project.lastDef (ix.classOf a).path name = none := by
    intro a ha hsilent
    rw [hlast a ha]
    simpa [ClassDef.defines] using hsilent.2
  constructor
  · rintro hruns before target after rfl hbefore - - x hx
    cases x with
    | project a => rfl
    | external e =>
      have hexternal : ∃ e', ix.dispatch project (fun _ ↦ true) name
          (before ++ .project target :: after) = some (.external e') :=
        dispatch_external (fun a ha ↦ hsilent a (List.mem_append_left _ ha) (hbefore a ha)) hx
      obtain ⟨e', hdispatch⟩ := hexternal
      obtain ⟨target', sig, hruns, -⟩ := hruns fun _ ↦ true
      simp [hdispatch] at hruns
  · intro hresolved answers
    obtain ⟨before, target, after, sig, hchain, hbefore, hopen, hsig, hsite⟩ := hcontinues
    obtain ⟨l, r, rfl, rfl⟩ := exists_split_of_filterMap hchain
    have hquiet : ∀ a, .project a ∈ l → ix.SurfaceSilent name a := fun a ha ↦
      hbefore a (mem_filterMap_id.mpr ha)
    have hknown := hresolved l target r rfl hquiet hopen (by simp [ClassDef.defines, hsig])
    have hdef : project.lastDef (ix.classOf target).path name = some sig := by
      rw [hlast target (by simp), hsig]
    refine ⟨target, sig, ?_, hdef, hsite⟩
    unfold dispatch
    rw [List.find?_eq_some_iff_append]
    refine ⟨by simp [hdef], l, r, rfl, fun x hx ↦ ?_⟩
    cases x with
    | external e => simpa [Ref.id?] using hknown _ hx
    | project a => simp [hsilent a (List.mem_append_left _ hx) (hquiet a hx)]

variable [DecidableEq ε] {denote : ClassId → ConstPath → ε} {H : Ruby.Hierarchy (Ref ε)}
  {s : Ruby.Chains (Ref ε)} {owner : ClassId} (hrec : ix.Records project) (hload : ix.Loads H)
  (hrun : Ruby.Run H (ix.calls denote project) s)
  (hplain : ∀ c, ix.Consumer H s owner c → ix.PlainMixins denote project c)

include hrec hload hrun hplain

/-- A class is a consumer of its own methods, and a subclass has the same behind it. -/
theorem behind_class {c : ClassId} (hc : ix.Consumer H s owner c)
    (hmodule : (ix.classOf owner).isModule = false) {l r : List (Ref ε)}
    (hsplit : Ruby.ancestors H s (.project c) = l ++ .project owner :: r)
    (hl : .project owner ∉ l) : ix.Consumer H s owner owner ∧
      ∃ l', Ruby.ancestors H s (.project owner) = l' ++ .project owner :: r ∧
        .project owner ∉ l' := by
  obtain ⟨path, hpath⟩ := hc.listed
  have hregion := region hrec hload (hplain c hc)
  have hflat := Ruby.run_flat hrun hregion
  have hself : Relation.ReflTransGen ix.Ancestor c c := .refl
  obtain ⟨complete, hchain⟩ := ancestors_order hrec hpath hload hrun (hplain c hc)
  have hreach := (mem_ancestors_iff hchain).mp (mem_filterMap_id.mpr hc.mem)
  have hmem : .project owner ∈ Ruby.ancestors H s (.project owner) :=
    List.mem_append_left _ (hflat.self_mem hreach)
  refine ⟨⟨exists_path_of_reach hpath hreach, hmodule, hmem⟩, ?_⟩
  obtain ⟨front, hfront⟩ := hflat.ancestors_of_class hregion hrun.isModule (a := .project c) hself
    ((hload.isModule owner).trans hmodule) hc.mem
  obtain ⟨l', r', hsplit', hl'⟩ := List.eq_append_cons_of_mem hmem
  have hnodup := hflat.ancestors_nodup hregion hrun.isModule (a := .project c) hself
  have hboth : l ++ .project owner :: r = (front ++ l') ++ .project owner :: r' := by
    rw [← hsplit, hfront, hsplit', List.append_assoc]
  have hout : .project owner ∉ front ++ l' := by
    rw [hsplit, hboth] at hnodup
    have := List.nodup_middle.mp hnodup
    rw [List.nodup_cons, List.mem_append, not_or] at this
    exact this.1.1
  have hsame := congrArg (Ruby.past (.project owner)) hboth
  rw [Ruby.past_append hl, Ruby.past_append hout] at hsame
  exact ⟨l', hsame ▸ hsplit', hl'⟩

/-- The part of a consumer's ancestors behind the owner goes on as the lookup read it. -/
theorem continues_of_agreed (hagreed : ix.Agreed owner name site) {c : ClassId}
    (hc : ix.Consumer H s owner c) {l r : List (Ref ε)}
    (hsplit : Ruby.ancestors H s (.project c) = l ++ .project owner :: r)
    (hl : .project owner ∉ l) : ix.Continues name site (r.filterMap Ref.id?) := by
  have hread : ∀ c, c ∈ ix.superConsumers owner → ix.Consumer H s owner c → ∀ l,
      Ruby.ancestors H s (.project c) = l ++ .project owner :: r → .project owner ∉ l →
        ix.Continues name site (r.filterMap Ref.id?) := by
    intro c hmem hc l hsplit hl
    obtain ⟨path, hpath⟩ := hc.listed
    obtain ⟨complete, hchain⟩ := ancestors_order hrec hpath hload hrun (hplain c hc)
    refine (continuesIn_iff hchain).mp (hagreed.2 c hmem) _ _ (filterMap_split hsplit) ?_
    exact fun h ↦ hl (mem_filterMap_id.mp h)
  by_cases hmodule : (ix.classOf owner).isModule = true
  · obtain ⟨path, hpath⟩ := hc.listed
    have hmem : c ∈ ix.superConsumers owner := by
      simp [superConsumers, hmodule, hrec.bound path c hpath, hc.isModule]
    exact hread c hmem hc l hsplit hl
  · have hmem : owner ∈ ix.superConsumers owner := by simp [superConsumers, hmodule]
    rw [Bool.not_eq_true] at hmodule
    obtain ⟨howner, l', hsplit', hl'⟩ :=
      behind_class hrec hload hrun hplain hc hmodule hsplit hl
    exact hread owner hmem howner l' hsplit' hl'

theorem runsFrom_behind_iff (hagreed : ix.Agreed owner name site) :
    ix.BehindInInstances H s owner (ix.RunsFrom project name site) ↔
      ix.BehindInInstances H s owner (ix.Resolved name) := by
  refine forall_congr' fun c ↦ forall_congr' fun hc ↦ forall_congr' fun l ↦
    forall_congr' fun r ↦ forall_congr' fun hsplit ↦ forall_congr' fun hl ↦ ?_
  obtain ⟨path, hpath⟩ := hc.listed
  refine runsFrom_iff (fun a ha ↦ ?_)
    (continues_of_agreed hrec hload hrun hplain hagreed hc hsplit hl)
  refine lastDef_of_mem_ancestors hrec hpath hload hrun (hplain c hc) ?_ name
  rw [hsplit]
  exact List.mem_append_right _ (List.mem_cons_of_mem _ ha)

end Instances

/-! ### What runs on class objects -/

section Objects

variable {ix} {name : String} {site : SourceFile × Span}

theorem objectRunsFrom_iff {places : List Place} :
    ix.ObjectRunsFrom name site places ↔ ix.ObjectContinues name site places := by
  constructor
  · intro h
    obtain ⟨place, sig, hruns, hsig, hsite⟩ := h fun _ ↦ true
    obtain ⟨-, before, after, hsplit, hbefore⟩ := List.find?_eq_some_iff_append.mp hruns
    refine ⟨before, place, after, sig, hsplit, fun p hp ↦ ?_, hsig, hsite⟩
    have hskipped := hbefore p hp
    simpa [PlaceSilent] using hskipped
  · rintro ⟨before, place, after, sig, hsplit, hbefore, hsig, hsite⟩ answers
    refine ⟨place, sig, List.find?_eq_some_iff_append.mpr ?_, hsig, hsite⟩
    refine ⟨by simp [hsig], before, after, hsplit, fun p hp ↦ ?_⟩
    simp [(hbefore p hp).1, (hbefore p hp).2]

theorem objectRunsFrom_behind_iff {owner : ClassId} :
    ix.BehindInObjects extended owner (ix.ObjectRunsFrom name site) ↔
      ix.BehindInObjects extended owner (ix.ObjectContinues name site) := by
  rw [show ix.ObjectRunsFrom name site = ix.ObjectContinues name site from
    funext fun places ↦ propext objectRunsFrom_iff]

end Objects

section Merged

variable {ix project H s} [DecidableEq ε] {denote : ClassId → ConstPath → ε}
  {files : List (SourceFile × FileDefs)} {owner : ClassId}

end Merged

/-! ### A module that is included and extended -/

/-- `greeters` and a class `Crowd`. -/
def crowd (stmts : List BodyStmt) : Project :=
  greeters stmts ++ [("crowd.rb", [{ path := ["Crowd"], nesting := [["Crowd"]] }])]

/-- `Crowd` extends the modules named. -/
def crowdFiles (stmts : List BodyStmt) (exts : List ConstPath) : List (SourceFile × FileDefs) :=
  (greeters stmts).files ++
    [("crowd.rb", { fragments := [{ path := ["Crowd"], nesting := [["Crowd"]], isModule := false,
                                    extends' := exts }] })]

def crowdIndex (stmts : List BodyStmt) (exts : List ConstPath) : ProjectIndex :=
  mergeFiles {} (crowdFiles stmts exts)

/-- One call for each module extended. -/
def extendCalls (ix : ProjectIndex) (a : ClassId) : List (List ConstPath) :=
  (ix.classOf a).extends'.map ([·])

/-- `def greet; super; end`, `include Quiet`, `include Vendored` -/
def vendoredCalls : List BodyStmt :=
  [.define { name := "greet", nameSpan := (88, 93), defSpan := (84, 106) },
    .mixin .inclusion [["Quiet"]], .mixin .inclusion [["Vendored"]]]

/-- Ruby's chains after `Quiet` and then `Vendored` are included in `Host`. -/
def vendoredChains (ix : ProjectIndex) : Ruby.Chains (Ref ConstPath) :=
  Ruby.relayAll (rootHierarchy ix)
    (Ruby.relayAll (rootHierarchy ix) Ruby.initialChains ⟨.inclusion, .project 2, .project 1⟩ [])
    ⟨.inclusion, .project 2, .external ["Vendored"]⟩ []

theorem crowd_written (stmts : List BodyStmt) (exts : List ConstPath) :
    (crowd stmts).WrittenIn (crowdFiles stmts exts) := rfl

theorem crowdIndex_superclass (stmts : List BodyStmt) (exts : List ConstPath) (a : ClassId) :
    ((crowdIndex stmts exts).classOf a).superclass = none := by
  match a with
  | 0 => rfl
  | 1 => rfl
  | 2 => rfl
  | 3 => rfl
  | _ + 4 => rfl

theorem vendoredChains_run (ix : ProjectIndex) (hquiet : (ix.classOf 1).isModule = true) :
    Ruby.Run (rootHierarchy ix)
      [⟨.inclusion, .project 2, .project 1⟩, ⟨.inclusion, .project 2, .external ["Vendored"]⟩]
      (vendoredChains ix) := by
  have hinitial : ∀ d : Ref ConstPath, d ≠ .project 2 →
      .project 2 ∉ (Ruby.initialChains d : List (Ref ConstPath)) := fun d hd h ↦
    hd (List.mem_singleton.mp h).symm
  refine .snoc (.snoc .nil (.of_not_held hquiet ?_ hinitial)) (.of_not_held rfl ?_ ?_)
  · exact hinitial _ (by simp)
  · rw [Ruby.relayAll, List.foldl_nil, Function.update_of_ne (by simp)]
    exact hinitial _ (by simp)
  · intro d hd
    rw [Ruby.relayAll, List.foldl_nil, Function.update_of_ne hd]
    exact hinitial d hd

def loudCrowd : ProjectIndex := crowdIndex twoCalls [["Loud"]]

def wholeCrowd : ProjectIndex := crowdIndex twoCalls [["Quiet"], ["Loud"]]

def vendoredHost : ProjectIndex := crowdIndex vendoredCalls []

theorem wholeCrowd_merged :
    (mergeFiles {} (crowdFiles twoCalls [["Quiet"], ["Loud"]])).reconcileSuperclasses.Returns
      wholeCrowd := ⟨16, rfl⟩

theorem wholeCrowd_classes {path : ConstPath} {c : ClassId}
    (hpath : wholeCrowd.byPath.lookup path = some c)
    (hmodule : (wholeCrowd.classOf c).isModule = false) : c = 2 ∨ c = 3 := by
  have hlt : c < 4 := (records wholeCrowd_merged (crowd_written _ _)).bound path c hpath
  match c with
  | 0 => exact absurd hmodule (by decide)
  | 1 => exact absurd hmodule (by decide)
  | 2 => exact Or.inl rfl
  | 3 => exact Or.inr rfl
  | n + 4 => exact absurd hlt (Nat.not_lt.mpr (Nat.le_add_left 4 n))

theorem wholeCrowd_consumer {c : ClassId}
    (h : wholeCrowd.Consumer (rootHierarchy wholeCrowd) (hostChains wholeCrowd 1 0) 0 c) :
    c = 2 := by
  obtain ⟨path, hpath⟩ := h.listed
  rcases wholeCrowd_classes hpath h.isModule with rfl | rfl
  · rfl
  · have hcrowd : Ruby.ancestors (rootHierarchy wholeCrowd) (hostChains wholeCrowd 1 0)
        (.project 3) = [.project 3] := by decide
    have hmem := h.mem
    simp [hcrowd] at hmem

theorem wholeCrowd_plain : wholeCrowd.PlainMixins asWritten (crowd twoCalls) 2 := by
  refine ⟨⟨_, 16, rfl⟩, fun a _ ↦ Finset.notMem_empty a, fun a _ body hbody _ ↦ ?_, ?_⟩
  · have hall : ∀ body ∈ (crowd twoCalls).bodies, ∀ stmt ∈ body.stmts,
        ∀ kind args, stmt = .mixin kind args → args.length ≤ 1 := by
      simp [crowd, greeters, twoCalls, Project.bodies]
    exact fun kind args h ↦ hall body hbody _ h kind args rfl
  · have hpairs : (wholeCrowd.calls asWritten (crowd twoCalls)).Pairwise
        fun k k' ↦ k.module ≠ k'.module := by decide
    exact hpairs.imp fun h _ _ _ _ _ _ ↦ h

end ProjectIndex

end Itaruby
