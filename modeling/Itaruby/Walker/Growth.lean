import Itaruby.Index.Growth
import Itaruby.Walker.FileScan

/-!
What the walk of a file may do to its fragments: fragments keep their paths, and their
definitions, their mixin edges and their grounds only grow. One lemma for each operation;
the whole walk follows by induction on the tree.
-/

set_option autoImplicit false
set_option relaxedAutoImplicit false

namespace Itaruby

/-- A fragment later in the walk. -/
structure ClassFragment.Grows (f f' : ClassFragment) : Prop where
  path : f'.path = f.path
  declaredOwnerRequired : f'.declaredOwnerRequired = f.declaredOwnerRequired
  methods : f.methods <+: f'.methods
  singletonMethods : f.singletonMethods <+: f'.singletonMethods
  extends' : f.extends' <+: f'.extends'
  consts : f.consts <+: f'.consts
  hookInstances : f.hookInstanceInstalls <+: f'.hookInstanceInstalls
  hookSingletons : f.hookSingletonInstalls <+: f'.hookSingletonInstalls
  hookOpaque : f.hookInstallsOpaque = true → f'.hookInstallsOpaque = true
  grounds : f.grounds <+: f'.grounds
  grounded : f.GroundedFragment → f'.GroundedFragment

namespace ClassFragment

/-- What an operation leaves alone of a fragment that it does not open. -/
theorem Grows.of_closed {f f' : ClassFragment} (hpath : f'.path = f.path)
    (hheld : f'.declaredOwnerRequired = f.declaredOwnerRequired)
    (hopen : f'.isOpen = f.isOpen) (hreason : f'.openReason = f.openReason)
    (hgrounds : f'.grounds = f.grounds) (hmethods : f.methods <+: f'.methods)
    (hsingleton : f.singletonMethods <+: f'.singletonMethods)
    (hextends : f.extends' <+: f'.extends') (hconsts : f.consts <+: f'.consts)
    (hhooks : f.hookInstanceInstalls <+: f'.hookInstanceInstalls ∧
      f.hookSingletonInstalls <+: f'.hookSingletonInstalls ∧
        (f.hookInstallsOpaque = true → f'.hookInstallsOpaque = true)) : f.Grows f' where
  path := hpath
  declaredOwnerRequired := hheld
  methods := hmethods
  singletonMethods := hsingleton
  extends' := hextends
  consts := hconsts
  hookInstances := hhooks.1
  hookSingletons := hhooks.2.1
  hookOpaque := hhooks.2.2
  grounds := by rw [hgrounds]
  grounded h := by
    unfold GroundedFragment at h ⊢
    rwa [hopen, hreason, hgrounds]

theorem Grows.refl (f : ClassFragment) : f.Grows f :=
  .of_closed rfl rfl rfl rfl rfl List.prefix_rfl List.prefix_rfl List.prefix_rfl List.prefix_rfl
    ⟨List.prefix_rfl, List.prefix_rfl, id⟩

theorem Grows.trans {f f' f'' : ClassFragment} (h : f.Grows f') (h' : f'.Grows f'') :
    f.Grows f'' where
  path := h'.path.trans h.path
  declaredOwnerRequired := h'.declaredOwnerRequired.trans h.declaredOwnerRequired
  methods := h.methods.trans h'.methods
  singletonMethods := h.singletonMethods.trans h'.singletonMethods
  extends' := h.extends'.trans h'.extends'
  consts := h.consts.trans h'.consts
  hookInstances := h.hookInstances.trans h'.hookInstances
  hookSingletons := h.hookSingletons.trans h'.hookSingletons
  hookOpaque := h'.hookOpaque ∘ h.hookOpaque
  grounds := h.grounds.trans h'.grounds
  grounded := h'.grounded ∘ h.grounded

theorem openWith_openReason (f : ClassFragment) (reason : OpenReason) :
    (f.openWith reason).openReason = mergeOpenReason f.openReason (some reason) := by
  change (if f.openReason = none ∨ (f.openReason = some .abstractRaise ∧ reason ≠ .abstractRaise)
    then some reason else f.openReason) = _
  cases hcur : f.openReason with
  | none => simp [mergeOpenReason]
  | some r =>
    by_cases hr : r = .abstractRaise
    · subst hr
      by_cases hreason : reason = .abstractRaise
      · simp [hreason, mergeOpenReason_weak]
      · simp [hreason, mergeOpenReason_weak]
    · simp [hr, mergeOpenReason_strong hr]

theorem openWith_grows (f : ClassFragment) (reason : OpenReason) : f.Grows (f.openWith reason) where
  path := rfl
  declaredOwnerRequired := rfl
  methods := List.prefix_rfl
  singletonMethods := List.prefix_rfl
  extends' := List.prefix_rfl
  consts := List.prefix_rfl
  hookInstances := List.prefix_rfl
  hookSingletons := List.prefix_rfl
  hookOpaque := id
  grounds := List.prefix_append _ _
  grounded h := by
    change Grounded true (f.openWith reason).openReason _
    rw [openWith_openReason]
    exact Grounded.openFor h reason

theorem openHeader_grows (f : ClassFragment) (reason : OpenReason) :
    f.Grows (f.openHeader reason) where
  path := rfl
  declaredOwnerRequired := rfl
  methods := List.prefix_rfl
  singletonMethods := List.prefix_rfl
  extends' := List.prefix_rfl
  consts := List.prefix_rfl
  hookInstances := List.prefix_rfl
  hookSingletons := List.prefix_rfl
  hookOpaque := id
  grounds := List.prefix_append _ _
  grounded h := Grounded.openHeader h reason

theorem bornOpen_grounded (f : ClassFragment) (reason : OpenReason) :
    (f.bornOpen reason).GroundedFragment :=
  Grounded.single reason

theorem pushTracks_grows (f : ClassFragment) (inSingleton : Bool) (defs : List MethodDef) :
    f.Grows (f.pushTracks inSingleton defs) := by
  unfold pushTracks
  cases inSingleton with
  | true =>
    exact .of_closed rfl rfl rfl rfl rfl List.prefix_rfl (List.prefix_append _ _) List.prefix_rfl
      List.prefix_rfl ⟨List.prefix_rfl, List.prefix_rfl, id⟩
  | false =>
    exact .of_closed rfl rfl rfl rfl rfl (List.prefix_append _ _) List.prefix_rfl List.prefix_rfl
      List.prefix_rfl ⟨List.prefix_rfl, List.prefix_rfl, id⟩

theorem addExtends_grows (f : ClassFragment) (paths : List ConstPath) :
    f.Grows { f with extends' := f.extends' ++ paths } :=
  .of_closed rfl rfl rfl rfl rfl List.prefix_rfl List.prefix_rfl (List.prefix_append _ _)
    List.prefix_rfl ⟨List.prefix_rfl, List.prefix_rfl, id⟩

theorem addConsts_grows (f : ClassFragment) (names : List String) :
    f.Grows { f with consts := f.consts ++ names } :=
  .of_closed rfl rfl rfl rfl rfl List.prefix_rfl List.prefix_rfl List.prefix_rfl
    (List.prefix_append _ _) ⟨List.prefix_rfl, List.prefix_rfl, id⟩

/-- An edit of the fields that the walk may replace or that no lemma below reads. -/
theorem edit_grows (f : ClassFragment) (superclass : Option ConstPath) (isModule : Bool)
    (includes prepends mixes : List ConstPath) (tableName : Option TableNameDecl) :
    f.Grows
      { f with
        superclass, isModule, includes, prepends, mixesInClassMethods := mixes, tableName } :=
  .of_closed rfl rfl rfl rfl rfl List.prefix_rfl List.prefix_rfl List.prefix_rfl List.prefix_rfl
    ⟨List.prefix_rfl, List.prefix_rfl, id⟩

theorem addInstances_grows (f : ClassFragment) (names : List (String × Span)) :
    f.Grows { f with hookInstanceInstalls := f.hookInstanceInstalls ++ names } :=
  .of_closed rfl rfl rfl rfl rfl List.prefix_rfl List.prefix_rfl List.prefix_rfl List.prefix_rfl
    ⟨List.prefix_append _ _, List.prefix_rfl, id⟩

theorem addSingletons_grows (f : ClassFragment) (names : List (String × Span)) :
    f.Grows { f with hookSingletonInstalls := f.hookSingletonInstalls ++ names } :=
  .of_closed rfl rfl rfl rfl rfl List.prefix_rfl List.prefix_rfl List.prefix_rfl List.prefix_rfl
    ⟨List.prefix_rfl, List.prefix_append _ _, id⟩

theorem setOpaque_grows (f : ClassFragment) : f.Grows { f with hookInstallsOpaque := true } :=
  .of_closed rfl rfl rfl rfl rfl List.prefix_rfl List.prefix_rfl List.prefix_rfl List.prefix_rfl
    ⟨List.prefix_rfl, List.prefix_rfl, fun _ ↦ rfl⟩

theorem pushExtends_grows (f : ClassFragment) (path : ConstPath) : f.Grows (f.pushExtends path) := by
  unfold pushExtends
  split_ifs
  · exact .refl f
  · exact f.addExtends_grows [path]

end ClassFragment

namespace DefWalker

/-- The state of the walk later on. -/
structure Grows (w w' : DefWalker) : Prop where
  fragments : ∀ (i : ℕ) (f : ClassFragment), w.fragments[i]? = some f →
    ∃ f', w'.fragments[i]? = some f' ∧ f.Grows f'
  fresh : ∀ (i : ℕ) (f' : ClassFragment), w.fragments.length ≤ i → w'.fragments[i]? = some f' →
    f'.GroundedFragment
  toplevelConsts : w.toplevelConsts <+: w'.toplevelConsts
  qualifiedWrites : w.qualifiedWrites <+: w'.qualifiedWrites

namespace Grows

variable {w w' w'' : DefWalker}

theorem of_moreWrites (h : w'.fragments = w.fragments)
    (htoplevel : w.toplevelConsts <+: w'.toplevelConsts)
    (hqualified : w.qualifiedWrites <+: w'.qualifiedWrites) : w.Grows w' where
  fragments i f hf := ⟨f, h ▸ hf, .refl f⟩
  fresh i f' hi hf' := by
    rw [h, List.getElem?_eq_none hi] at hf'
    cases hf'
  toplevelConsts := htoplevel
  qualifiedWrites := hqualified

theorem of_same (h : w'.fragments = w.fragments)
    (htoplevel : w'.toplevelConsts = w.toplevelConsts)
    (hqualified : w'.qualifiedWrites = w.qualifiedWrites) : w.Grows w' :=
  of_moreWrites h (by rw [htoplevel]) (by rw [hqualified])

theorem refl (w : DefWalker) : w.Grows w := of_same rfl rfl rfl

theorem trans (h : w.Grows w') (h' : w'.Grows w'') : w.Grows w'' where
  fragments i f hf := by
    obtain ⟨f', hf', hgrows⟩ := h.fragments i f hf
    obtain ⟨f'', hf'', hgrows'⟩ := h'.fragments i f' hf'
    exact ⟨f'', hf'', hgrows.trans hgrows'⟩
  fresh i f'' hi hf'' := by
    by_cases hlt : i < w'.fragments.length
    · have hget : w'.fragments[i]? = some w'.fragments[i] := List.getElem?_eq_getElem hlt
      obtain ⟨g, hg, hgrows⟩ := h'.fragments i _ hget
      obtain rfl : g = f'' := Option.some.inj (hg.symm.trans hf'')
      exact hgrows.grounded (h.fresh i _ hi hget)
    · exact h'.fresh i f'' (Nat.le_of_not_lt hlt) hf''
  toplevelConsts := h.toplevelConsts.trans h'.toplevelConsts
  qualifiedWrites := h.qualifiedWrites.trans h'.qualifiedWrites

theorem foldl {α : Type} {step : DefWalker → α → DefWalker}
    (hstep : ∀ (w : DefWalker) a, w.Grows (step w a)) (l : List α) (w : DefWalker) :
    w.Grows (l.foldl step w) := by
  induction l generalizing w with
  | nil => exact refl w
  | cons a l ih => exact (hstep w a).trans (ih _)

/-- What a step of a fold does is kept to the end. -/
theorem foldl_reaches {α : Type} {step : DefWalker → α → DefWalker}
    (hstep : ∀ (w : DefWalker) a, w.Grows (step w a)) {a : α} {l : List α} (ha : a ∈ l)
    (w : DefWalker) : ∃ w', w.Grows w' ∧ (step w' a).Grows (l.foldl step w) := by
  obtain ⟨before, after, rfl⟩ := List.append_of_mem ha
  rw [List.foldl_append]
  exact ⟨_, foldl hstep before w, foldl hstep after _⟩

theorem foldl_fst {α β : Type} {step : DefWalker × β → α → DefWalker × β}
    (hstep : ∀ (acc : DefWalker × β) a, acc.1.Grows (step acc a).1) (l : List α) (acc : DefWalker × β) :
    acc.1.Grows (l.foldl step acc).1 := by
  induction l generalizing acc with
  | nil => exact refl acc.1
  | cons a l ih => exact (hstep acc a).trans (ih _)

end Grows

variable (w : DefWalker)

theorem modifyFragment_grows (i : ℕ) {g : ClassFragment → ClassFragment}
    (hg : ∀ f : ClassFragment, f.Grows (g f)) : w.Grows (w.modifyFragment i g) where
  fragments j f hf := by
    change ∃ f', (w.fragments.modify i g)[j]? = some f' ∧ f.Grows f'
    rw [List.getElem?_modify, hf]
    by_cases hij : i = j
    · exact ⟨g f, by simp [hij], hg f⟩
    · exact ⟨f, by simp [hij], .refl f⟩
  fresh j f' hj hf' := by
    change (w.fragments.modify i g)[j]? = some f' at hf'
    rw [List.getElem?_eq_none (by rwa [List.length_modify])] at hf'
    cases hf'
  toplevelConsts := List.prefix_rfl
  qualifiedWrites := List.prefix_rfl

theorem pushFragment_grows {frag : ClassFragment} (h : frag.GroundedFragment) :
    w.Grows (w.pushFragment frag) where
  fragments i f hf := by
    refine ⟨f, ?_, .refl f⟩
    change (w.fragments ++ [frag])[i]? = some f
    obtain ⟨hlt, -⟩ := List.getElem?_eq_some_iff.mp hf
    rw [List.getElem?_append_left hlt, hf]
  fresh i f' hi hf' := by
    change (w.fragments ++ [frag])[i]? = some f' at hf'
    rw [List.getElem?_append_right hi] at hf'
    obtain ⟨hlt, heq⟩ := List.getElem?_eq_some_iff.mp hf'
    have hzero : i - w.fragments.length = 0 := by simpa using hlt
    simp only [hzero, List.getElem_cons_zero] at heq
    exact heq ▸ h
  toplevelConsts := List.prefix_rfl
  qualifiedWrites := List.prefix_rfl

theorem openClass_grows (i : ℕ) (reason : OpenReason) : w.Grows (w.openClass i reason) :=
  w.modifyFragment_grows i fun f ↦ f.openWith_grows reason

theorem openClassHeader_grows (i : ℕ) (reason : OpenReason) :
    w.Grows (w.openClassHeader i reason) :=
  w.modifyFragment_grows i fun f ↦ f.openHeader_grows reason

theorem fileTrack_grows (i : ℕ) (inSingleton : Bool) (defs : List MethodDef) :
    w.Grows (w.fileTrack i inSingleton defs) :=
  w.modifyFragment_grows i fun f ↦ f.pushTracks_grows inSingleton defs

theorem pushExtends_grows (i : ℕ) (path : ConstPath) :
    w.Grows (w.modifyFragment i (·.pushExtends path)) :=
  w.modifyFragment_grows i fun f ↦ f.pushExtends_grows path

theorem fragmentIdxFor_grows (path : ConstPath) (nesting : List ConstPath) :
    w.Grows (w.fragmentIdxFor path nesting).1 := by
  unfold fragmentIdxFor
  cases w.fragments.findIdx? (·.path == path) with
  | some i => exact .refl w
  | none => exact w.pushFragment_grows Grounded.closed

theorem methodDef_grows (env : WalkEnv) (site : DefSite) : w.Grows (w.methodDef env site).1 :=
  .of_same rfl rfl rfl

/-! ### Bodies -/

theorem applyBodyDef_grows (i : ℕ) (nesting : List ConstPath) (selfIsTheClass : Bool) (span : Span)
    (target : DefTarget) (lit : BodyDefLiteral) :
    w.Grows (w.applyBodyDef i nesting selfIsTheClass span target lit) := by
  cases target with
  | enclosing =>
    unfold applyBodyDef
    dsimp only
    split_ifs
    · exact w.fileTrack_grows _ _ _
    · exact w.openClass_grows _ _
  | named path => exact (w.fragmentIdxFor_grows path nesting).trans (openClass_grows _ _ _)

theorem applyOpen_grows (i : ℕ) (nesting : List ConstPath) (entry : DefTarget × OpenReason) :
    w.Grows (w.applyOpen i nesting entry) := by
  obtain ⟨target, reason⟩ := entry
  cases target with
  | enclosing => exact w.openClass_grows _ _
  | named path => exact (w.fragmentIdxFor_grows path nesting).trans (openClass_grows _ _ _)

theorem openIf_grows (b : Bool) (i : ℕ) (reason : OpenReason) :
    w.Grows (if b then w.openClass i reason else w) := by
  cases b with
  | true => exact w.openClass_grows i reason
  | false => exact .refl w

theorem applyNestedDef_grows (i : ℕ) (treatedAsSingleton : Bool) (nd : NestedDef) :
    w.Grows (w.applyNestedDef i treatedAsSingleton nd) := by
  unfold applyNestedDef
  refine (w.openIf_grows (isMethodMissing nd.md.name) i .methodMissing).trans ?_
  dsimp only
  split_ifs
  all_goals first | exact fileTrack_grows _ _ _ _ | exact openClass_grows _ _ _

theorem applyBodyDefs_grows (i : ℕ) (nesting : List ConstPath) (treatedAsSingleton : Bool)
    (span : Span) (defs : BodyDefs) :
    w.Grows (w.applyBodyDefs i nesting treatedAsSingleton span defs) :=
  ((Grows.foldl (fun w entry ↦ w.applyOpen_grows i nesting entry) defs.opens w).trans
    (.foldl (fun w entry ↦ w.applyBodyDef_grows i nesting treatedAsSingleton span entry.1 entry.2)
      defs.literals _)).trans
    (.foldl (fun w nd ↦ w.applyNestedDef_grows i treatedAsSingleton nd) defs.nestedDefs _)

/-! ### Harvests -/

theorem harvestBlockConst_grows (i : ℕ) (stmt : Node) : w.Grows (harvestBlockConst i w stmt) := by
  cases stmt with
  | constantWriteNode loc nameLoc name value =>
    exact w.modifyFragment_grows i fun f ↦ f.addConsts_grows [name]
  | constantPathWriteNode loc target value =>
    unfold harvestBlockConst
    dsimp only
    split
    · exact .of_moreWrites rfl List.prefix_rfl (List.prefix_append _ _)
    · exact .refl w
  | _ => exact .refl w

theorem harvestBlockConsts_grows (i : ℕ) (call : CallSite) :
    w.Grows (w.harvestBlockConsts i call) :=
  .foldl (fun w stmt ↦ w.harvestBlockConst_grows i stmt) _ w

theorem harvestBlockNestedDefinitions_grows (ctx : WalkCtx) (call : CallSite) :
    w.Grows (w.harvestBlockNestedDefinitions ctx call) := by
  unfold harvestBlockNestedDefinitions
  cases call.blockBody with
  | none => exact .refl w
  | some body =>
    exact .foldl (fun w entry ↦ w.pushFragment_grows (ClassFragment.bornOpen_grounded _ _)) _ w

theorem harvestInterpolatedEvalDefs_grows (fe : Frontend) (i : ℕ) (call : CallSite) :
    w.Grows (w.harvestInterpolatedEvalDefs fe i call) := by
  have htemplate : ∀ param elements (w : DefWalker) template,
      w.Grows (harvestTemplate fe i param elements w template) := by
    intro param elements w template
    unfold harvestTemplate
    split_ifs
    · exact .refl w
    · exact w.fileTrack_grows _ _ _
  unfold harvestInterpolatedEvalDefs
  split
  · split
    · exact .refl w
    · exact .foldl (htemplate _ _) _ w
  · exact .refl w

theorem classMethodsDefs_grows (env : WalkEnv) (stmts : List Node) :
    w.Grows (w.classMethodsDefs env stmts).1 := by
  unfold classMethodsDefs
  refine Grows.foldl_fst (fun acc stmt ↦ ?_) stmts (w, [])
  cases stmt.asDef with
  | none => exact .refl acc.1
  | some site =>
    dsimp only
    split_ifs
    · exact .refl acc.1
    · exact acc.1.methodDef_grows env site

theorem harvestClassMethodsBlock_grows (env : WalkEnv) (i : ℕ) (ctx : WalkCtx) (call : CallSite) :
    w.Grows (w.harvestClassMethodsBlock env i ctx call) := by
  unfold harvestClassMethodsBlock
  cases call.blockStatements with
  | none => exact .refl w
  | some stmts =>
    have hdefs := w.classMethodsDefs_grows env stmts
    dsimp only
    split_ifs
    · exact hdefs
    · refine (hdefs.trans (pushExtends_grows _ i (ctx.scope ++ ["ClassMethods"]))).trans ?_
      split
      · exact fileTrack_grows _ _ _ _
      · exact pushFragment_grows _ Grounded.closed

theorem hookOpaque_grows (i : ℕ) : w.Grows (w.hookOpaque i) :=
  w.modifyFragment_grows i fun f ↦ f.setOpaque_grows

theorem hookInstances_grows (i : ℕ) (names : List (String × Span)) :
    w.Grows (w.hookInstances i names) :=
  w.modifyFragment_grows i fun f ↦ f.addInstances_grows names

theorem hookSingletons_grows (i : ℕ) (names : List (String × Span)) :
    w.Grows (w.hookSingletons i names) :=
  w.modifyFragment_grows i fun f ↦ f.addSingletons_grows names

theorem harvestIncludedStmt_grows (i : ℕ) (pname : String) (stmt : Node) :
    w.Grows (harvestIncludedStmt i pname w stmt) := by
  unfold harvestIncludedStmt
  cases stmt.asCall with
  | none => exact .refl w
  | some call =>
    dsimp only
    split_ifs
    · cases symbolArguments call.arguments with
      | none => exact .refl w
      | some attrs => exact w.fileTrack_grows _ _ _
    · cases call.firstLiteralName with
      | none => exact .refl w
      | some m => exact w.fileTrack_grows _ _ _
    · exact .refl w
    · exact .refl w

theorem harvestIncludedHook_grows (i : ℕ) (site : DefSite) :
    w.Grows (w.harvestIncludedHook i site) := by
  unfold harvestIncludedHook
  split
  · exact .foldl (fun w stmt ↦ w.harvestIncludedStmt_grows i _ stmt) _ w
  · exact .refl w

theorem harvestExtendedEvalStmt_grows (i : ℕ) (stmt : Node) :
    w.Grows (harvestExtendedEvalStmt i w stmt) := by
  unfold harvestExtendedEvalStmt
  cases stmt.asDef with
  | some site =>
    dsimp only
    split_ifs
    · exact w.hookInstances_grows _ _
    · exact .refl w
  | none =>
    cases stmt.asCall with
    | none => exact .refl w
    | some call =>
      dsimp only
      split_ifs
      · exact w.hookOpaque_grows i
      · cases call.firstLiteralName with
        | none => exact w.hookOpaque_grows i
        | some n => exact w.hookInstances_grows _ _
      · exact .refl w

theorem harvestExtendedCall_grows (i : ℕ) (call : CallSite) :
    w.Grows (w.harvestExtendedCall i call) := by
  unfold harvestExtendedCall
  split_ifs
  · cases hookDelegateNames call.arguments with
    | none => exact w.hookOpaque_grows i
    | some names => exact w.hookInstances_grows _ _
  · cases call.firstLiteralName with
    | none => exact w.hookOpaque_grows i
    | some n => exact w.hookInstances_grows _ _
  · cases call.firstLiteralName with
    | none => exact w.hookOpaque_grows i
    | some n => exact w.hookSingletons_grows _ _
  · exact w.hookOpaque_grows i
  · exact .foldl (fun w stmt ↦ w.harvestExtendedEvalStmt_grows i stmt) _ w
  · exact w.hookOpaque_grows i
  · exact .refl w

theorem harvestExtendedStmt_grows (i : ℕ) (pname : String) (stmt : Node) :
    w.Grows (harvestExtendedStmt i pname w stmt).1 := by
  unfold harvestExtendedStmt
  cases stmt.asDef with
  | some site =>
    dsimp only
    split_ifs
    · exact w.hookSingletons_grows _ _
    · exact .refl w
  | none =>
    cases stmt.asCall with
    | none => exact .refl w
    | some call =>
      dsimp only
      split_ifs
      · exact w.harvestExtendedCall_grows i call
      · exact .refl w

theorem foldl_harvestExtendedStmt_grows (i : ℕ) (base : String) (stmts : List Node) :
    w.Grows (stmts.foldl
      (fun (acc : DefWalker × ℕ) stmt ↦
        let (w, used) := acc.1.harvestExtendedStmt i base stmt
        (w, acc.2 + if used then 1 else 0))
      (w, 0)).1 := by
  refine Grows.foldl_fst (fun acc stmt ↦ ?_) stmts (w, 0)
  exact harvestExtendedStmt_grows acc.1 i base stmt

theorem harvestExtendedHook_grows (i : ℕ) (site : DefSite) :
    w.Grows (w.harvestExtendedHook i site) := by
  unfold harvestExtendedHook
  split
  · next pname body hpname hbody =>
    cases body.statementsOf with
    | none => exact .refl w
    | some stmts =>
      have hfold := foldl_harvestExtendedStmt_grows w i pname stmts
      dsimp only
      split_ifs
      · exact hfold.trans (hookOpaque_grows _ i)
      · exact hfold
  · exact .refl w

/-! ### Statements -/

section

variable (env : WalkEnv) (ctx : WalkCtx)

theorem scanDef_grows (i : ℕ) (site : DefSite) (treatedAsSingleton : Bool) :
    w.Grows (w.scanDef env ctx i site treatedAsSingleton) := by
  have hbody : ∀ w : DefWalker, w.Grows
      (if mayDefine (bodyTextOf env site) then
        w.applyBodyDefs i ctx.nesting treatedAsSingleton site.loc (dynamicDefsInBody env site)
      else w) := by
    intro w
    split_ifs
    · exact w.applyBodyDefs_grows _ _ _ _ _
    · exact .refl w
  exact ((w.openIf_grows _ i .methodMissing).trans (hbody _)).trans
    (openIf_grows _ _ i .abstractRaise)

theorem harvestHooks_grows (i : ℕ) (site : DefSite) : w.Grows (w.harvestHooks i site) := by
  unfold harvestHooks
  split_ifs
  · exact w.harvestIncludedHook_grows i site
  · exact w.harvestExtendedHook_grows i site
  · exact .refl w

theorem walkDef_grows (site : DefSite) : w.Grows (w.walkDef env ctx site) := by
  have hdef := w.methodDef_grows env site
  unfold walkDef
  dsimp only
  cases ctx.fragIdx with
  | none =>
    dsimp only
    split_ifs
    · exact hdef.trans (.of_same rfl rfl rfl)
    · exact hdef
  | some i =>
    dsimp only
    split_ifs
    · exact ((hdef.trans (scanDef_grows _ env ctx i site _)).trans (fileTrack_grows _ _ _ _)).trans
        (harvestHooks_grows _ i site)
    · exact (hdef.trans (scanDef_grows _ env ctx i site _)).trans (fileTrack_grows _ _ _ _)

theorem walkDefineMethod_grows (i : ℕ) (call : CallSite) :
    w.Grows (w.walkDefineMethod ctx i call) := by
  unfold walkDefineMethod
  cases call.firstLiteralName with
  | none => exact w.openClass_grows _ _
  | some m => exact w.fileTrack_grows _ _ _

theorem walkBlockCall_grows (i : ℕ) (call : CallSite) : w.Grows (w.walkBlockCall env ctx i call) := by
  have hsig : w.Grows { w with pendingSorbetRet := extractSigReturn env.text call } :=
    .of_same rfl rfl rfl
  unfold walkBlockCall
  split_ifs
  · exact w.walkDefineMethod_grows ctx i call
  · exact hsig
  · exact hsig.trans (openClass_grows _ _ _)
  · exact (w.harvestClassMethodsBlock_grows env i ctx call).trans (openClass_grows _ _ _)
  · exact (((w.harvestBlockConsts_grows i call).trans
      (harvestBlockNestedDefinitions_grows _ ctx call)).trans
        (harvestInterpolatedEvalDefs_grows _ env.toFrontend i call)).trans (openClass_grows _ _ _)

theorem walkSingletonMixin_grows (owner : ConstPath) (call : CallSite) :
    w.Grows (w.walkSingletonMixin ctx owner call) := by
  have hidx := w.fragmentIdxFor_grows owner ctx.nesting
  have hfold : ∀ (oi : ℕ) (paths : List ConstPath) (w : DefWalker), w.Grows
      (paths.foldl (fun w path ↦ w.modifyFragment oi (·.pushExtends path)) w) :=
    fun oi paths w ↦ .foldl (fun w path ↦ w.pushExtends_grows oi path) paths w
  unfold walkSingletonMixin
  dsimp only
  split_ifs
  · exact hidx.trans (openClass_grows _ _ _)
  · exact hidx.trans (hfold _ _ _)
  · exact (hidx.trans (hfold _ _ _)).trans (openClass_grows _ _ _)

theorem walkMixinArg_grows (i : ℕ) (name : String) (arg : Node) :
    w.Grows (walkMixinArg ctx i name w arg) := by
  unfold walkMixinArg
  cases arg.constPathStr with
  | some path =>
    dsimp only
    split_ifs
    · exact w.pushExtends_grows i path
    · exact w.modifyFragment_grows i fun f ↦ f.edit_grows _ _ _ _ _ _
    · exact w.modifyFragment_grows i fun f ↦ f.addExtends_grows [path]
    · exact w.modifyFragment_grows i fun f ↦ f.edit_grows _ _ _ _ _ _
  | none =>
    dsimp only
    split_ifs
    · exact w.modifyFragment_grows i fun f ↦ f.addExtends_grows [ctx.scope]
    · exact w.openClass_grows _ _

theorem walkMixin_grows (call : CallSite) : w.Grows (w.walkMixin ctx call) := by
  unfold walkMixin
  cases singletonClassOwner call with
  | some owner => exact w.walkSingletonMixin_grows ctx owner call
  | none =>
    cases ctx.fragIdx with
    | none =>
      dsimp only
      split_ifs
      · exact .of_same rfl rfl rfl
      · exact .refl w
    | some i =>
      dsimp only
      split_ifs
      · exact .foldl (fun w arg ↦ w.walkMixinArg_grows ctx i call.name arg) _ w
      · exact w.openClass_grows _ _

theorem walkAttr_grows (i : ℕ) (inSingleton : Bool) (call : CallSite) :
    w.Grows (w.walkAttr i inSingleton call) := by
  unfold walkAttr
  dsimp only
  split_ifs
  · exact w.fileTrack_grows _ _ _
  · exact (w.fileTrack_grows _ _ _).trans (openClass_grows _ _ _)

theorem fileAccessors_grows (i : ℕ) (singleton instance' : List MethodDef) (allKnown : Bool) :
    w.Grows (w.fileAccessors i singleton instance' allKnown) := by
  have hfile := ((w.fileTrack_grows i true singleton).trans
    (fileTrack_grows _ i false instance')).trans (openClass_grows _ i .unknownClassBodyCall)
  unfold fileAccessors
  dsimp only
  split_ifs
  · exact hfile
  · exact hfile.trans (openClass_grows _ _ _)

theorem walkAliasMethod_grows (i : ℕ) (call : CallSite) :
    w.Grows (w.walkAliasMethod ctx i call) := by
  unfold walkAliasMethod
  cases call.arguments.head?.bind Node.symbolName with
  | none => exact w.openClass_grows _ _
  | some m => exact w.fileTrack_grows _ _ _

theorem walkVisibility_grows (i : ℕ) (call : CallSite) :
    w.Grows (w.walkVisibility env ctx i call) := by
  have hfold : ∀ (sites : List DefSite) (w : DefWalker), w.Grows
      (sites.foldl (fun w site ↦ w.walkDef env ctx site) w) :=
    fun sites w ↦ .foldl (fun w site ↦ w.walkDef_grows env ctx site) sites w
  unfold walkVisibility
  dsimp only
  split_ifs
  · exact (w.modifyFragment_grows i fun f ↦ f.addExtends_grows [ctx.scope]).trans (hfold _ _)
  · exact hfold _ w

theorem walkMacro_grows (i : ℕ) (call : CallSite) : w.Grows (w.walkMacro env ctx i call) := by
  have hmixes : w.Grows (w.modifyFragment i fun f ↦
      { f with
        mixesInClassMethods :=
          f.mixesInClassMethods ++ call.arguments.filterMap Node.constPathStr }) :=
    w.modifyFragment_grows i fun f ↦ f.edit_grows _ _ _ _ _ _
  unfold walkMacro
  split_ifs
  · exact w.walkAttr_grows i ctx.inSingleton call
  · exact w.fileAccessors_grows _ _ _ _
  · exact w.fileAccessors_grows _ _ _ _
  · exact w.walkDefineMethod_grows ctx i call
  · exact w.walkAliasMethod_grows ctx i call
  · exact w.openClass_grows _ _
  · exact hmixes.trans (openClass_grows _ _ _)
  · exact w.walkVisibility_grows env ctx i call
  · exact .refl w
  · exact w.openClass_grows _ _

theorem walkTableName_grows (call : CallSite) : w.Grows (w.walkTableName ctx call) := by
  unfold walkTableName
  cases ctx.fragIdx with
  | none => exact .refl w
  | some i => exact w.modifyFragment_grows i fun f ↦ f.edit_grows _ _ _ _ _ _

theorem walkRequire_grows (call : CallSite) : w.Grows (w.walkRequire call) := by
  unfold walkRequire
  split
  · split_ifs
    · exact .refl w
    · exact .of_same rfl rfl rfl
  · exact .refl w

theorem noteCoreMixin_grows (b : Bool) :
    w.Grows (if b = true then { w with coreMixin := true } else w) := by
  split_ifs
  · exact .of_same rfl rfl rfl
  · exact .refl w

theorem walkCall_grows (call : CallSite) : w.Grows (w.walkCall env ctx call) := by
  unfold walkCall
  refine (w.noteCoreMixin_grows (call.receiver.any fun receiver ↦
    coreInjectionCall env.toFrontend receiver call.name)).trans ?_
  generalize (if call.receiver.any fun receiver ↦
      coreInjectionCall env.toFrontend receiver call.name then
    { w with coreMixin := true } else w) = w
  dsimp only
  cases (singletonClassOwner call).filter fun _ ↦ isSingletonClassPatch call.name with
  | some owner => exact w.pushFragment_grows (ClassFragment.bornOpen_grounded _ _)
  | none =>
    dsimp only
    split_ifs
    · cases ctx.fragIdx with
      | none => exact .refl w
      | some i => exact w.walkBlockCall_grows env ctx i call
    · exact w.walkTableName_grows ctx call
    · exact w.walkMixin_grows ctx call
    · exact w.walkRequire_grows call
    · cases ctx.fragIdx with
      | none => exact .refl w
      | some i => exact w.walkAttr_grows i true call
    · cases ctx.fragIdx with
      | none => exact .refl w
      | some i => exact .refl w
    · exact .refl w
    · cases ctx.fragIdx with
      | none => exact .refl w
      | some i => exact w.walkMacro_grows env ctx i call

theorem walkAlias_grows (span : Span) (newName : Node) :
    w.Grows (w.walkAlias ctx span newName) := by
  unfold walkAlias
  split
  · exact w.fileTrack_grows _ _ _
  · exact .refl w

theorem Grows.pushAlias {w w' : DefWalker} (h : w.Grows w') (ctx : WalkCtx) (full : ConstPath)
    (value : Node) : w.Grows (w'.pushAlias ctx full value) := by
  unfold DefWalker.pushAlias
  cases value.constPathStr with
  | none => exact h
  | some target => exact h.trans (.of_same rfl rfl rfl)

theorem walkConstWrite_grows (nameLoc : Span) (name : String) (value : Node) :
    w.Grows (w.walkConstWrite ctx nameLoc name value) := by
  unfold walkConstWrite
  cases ctx.fragIdx with
  | none =>
    dsimp only
    refine Grows.pushAlias ?_ ctx _ value
    exact .of_moreWrites rfl (List.prefix_append _ _) List.prefix_rfl
  | some i =>
    have hconst : w.Grows
        (w.modifyFragment i fun f ↦ { f with consts := f.consts ++ [name] }) :=
      w.modifyFragment_grows i fun f ↦ f.addConsts_grows [name]
    dsimp only
    refine Grows.pushAlias ?_ ctx _ value
    exact hconst.trans (.of_same rfl rfl rfl)

theorem walkConstPathWrite_grows (span : Span) (target value : Node) :
    w.Grows (w.walkConstPathWrite ctx span target value) := by
  unfold walkConstPathWrite
  cases target.constPathStr with
  | none => exact .refl w
  | some path =>
    dsimp only
    cases rsplitPath (trimCbase path) with
    | none =>
      refine Grows.pushAlias ?_ ctx _ value
      exact .of_moreWrites rfl (List.prefix_append _ _) List.prefix_rfl
    | some write =>
      refine Grows.pushAlias ?_ ctx _ value
      exact .of_moreWrites rfl List.prefix_rfl (List.prefix_append _ _)

/-! ### The walk -/

theorem enterBody_grows (scope : ConstPath) (nesting : List ConstPath) :
    w.Grows (w.enterBody scope nesting).1 := by
  unfold enterBody
  split_ifs
  · exact .refl w
  · exact w.pushFragment_grows Grounded.closed

theorem closeClass_grows (fe : Frontend) (full : ConstPath) (superclass : Option Node) :
    w.Grows (w.closeClass fe full superclass) := by
  have hknown : ∀ (b : Bool) (i : ℕ) (w : DefWalker),
      w.Grows (if b then w.openClassHeader i .reopenedExternal else w) := by
    intro b i w
    cases b with
    | true => exact w.openClassHeader_grows i _
    | false => exact .refl w
  unfold closeClass
  cases w.lastFragmentIdx full with
  | none => exact .refl w
  | some i =>
    dsimp only
    refine Grows.trans ?_ (hknown _ i _)
    cases superclass with
    | none => exact .refl w
    | some node =>
      dsimp only
      cases node.constPathStr with
      | none => exact w.openClassHeader_grows i _
      | some sc => exact w.modifyFragment_grows i fun f ↦ f.edit_grows _ _ _ _ _ _

theorem closeModule_grows (full : ConstPath) : w.Grows (w.closeModule full) := by
  unfold closeModule
  cases w.lastFragmentIdx full with
  | none => exact .refl w
  | some i => exact w.modifyFragment_grows i fun f ↦ f.edit_grows _ _ _ _ _ _

theorem closeSingletonClass_grows : w.Grows (closeSingletonClass ctx w) := by
  unfold closeSingletonClass
  cases ctx.fragIdx with
  | none => exact .refl w
  | some i => exact w.openClass_grows _ _

theorem enterSingletonClass_grows (owner : ConstPath) :
    w.Grows (enterSingletonClass ctx w owner).1 :=
  w.fragmentIdxFor_grows owner ctx.nesting

end

variable (env : WalkEnv)

mutual

/-- Every step of the walk only adds to the fragments. -/
theorem walk_grows (asBody : Bool) : ∀ (n : Node) (ctx : WalkCtx) (w : DefWalker),
    w.Grows (walk env asBody n ctx w)
  | .programNode _ statements, ctx, w => by
    rw [walk]
    split_ifs
    · exact walk_grows true statements ctx w
    · exact .refl w
  | .statementsNode _ body, ctx, w => by
    rw [walk]
    split_ifs
    · exact walkEach_grows body ctx w
    · exact .refl w
  | .classNode _ constantPath superclass body, ctx, w => by
    rw [walk]
    cases constantPath.constPathStr with
    | none => exact .refl w
    | some path =>
      dsimp only
      refine Grows.trans ?_ (closeClass_grows _ env.toFrontend _ superclass)
      split_ifs
      · exact (w.enterBody_grows _ _).trans (walkBody_grows body _ _)
      · exact w.pushFragment_grows Grounded.closed
  | .moduleNode _ constantPath body, ctx, w => by
    rw [walk]
    cases constantPath.constPathStr with
    | none => exact .refl w
    | some path =>
      dsimp only
      refine Grows.trans ?_ (closeModule_grows _ _)
      split_ifs
      · exact (w.enterBody_grows _ _).trans (walkBody_grows body _ _)
      · exact w.pushFragment_grows Grounded.closed
  | .singletonClassNode _ expression body, ctx, w => by
    rw [walk]
    by_cases hself : expression.isSelf = true
    · rw [if_pos hself]
      exact walkBody_grows body _ w
    · rw [if_neg hself]
      refine Grows.trans ?_ (closeSingletonClass_grows _ ctx)
      cases expression.constPathStr with
      | none => exact .refl w
      | some owner =>
        dsimp only
        split_ifs
        · exact (enterSingletonClass_grows w ctx owner).trans (walkBody_grows body _ _)
        · exact .refl w
  | .defNode _ _ _ _ _ _ _, ctx, w => by
    rw [walk]
    exact w.walkDef_grows env ctx _
  | .constantWriteNode _ nameLoc name value, ctx, w => by
    rw [walk]
    exact w.walkConstWrite_grows ctx nameLoc name value
  | .constantPathWriteNode loc target value, ctx, w => by
    rw [walk]
    exact w.walkConstPathWrite_grows ctx loc target value
  | .callNode _ _ _ _ _, ctx, w => by
    rw [walk]
    exact w.walkCall_grows env ctx _
  | .aliasMethodNode loc newName _, ctx, w => by
    rw [walk]
    exact w.walkAlias_grows ctx loc newName
  | .ifNode _ _ statements subsequent, ctx, w => by
    rw [walk]
    exact (walkBody_grows statements ctx w).trans (walkBody_grows subsequent ctx _)
  | .unlessNode _ _ statements _, ctx, w => by
    rw [walk]
    exact walkBody_grows statements ctx w
  | .elseNode _ statements, ctx, w => by
    rw [walk]
    exact walkBody_grows statements ctx w
  | .beginNode _ statements rescueClause elseClause ensureClause, ctx, w => by
    rw [walk]
    exact (((walkBody_grows statements ctx w).trans (walkClause_grows rescueClause ctx _)).trans
      (walkClause_grows elseClause ctx _)).trans (walkClause_grows ensureClause ctx _)
  | .blockNode .., _, w => .refl w
  | .blockArgumentNode .., _, w => .refl w
  | .constantReadNode .., _, w => .refl w
  | .constantPathNode .., _, w => .refl w
  | .localVariableReadNode .., _, w => .refl w
  | .localVariableWriteNode .., _, w => .refl w
  | .selfNode _, _, w => .refl w
  | .trueNode _, _, w => .refl w
  | .falseNode _, _, w => .refl w
  | .symbolNode .., _, w => .refl w
  | .stringNode .., _, w => .refl w
  | .interpolatedStringNode .., _, w => .refl w
  | .embeddedStatementsNode .., _, w => .refl w
  | .arrayNode .., _, w => .refl w
  | .keywordHashNode .., _, w => .refl w
  | .assocNode .., _, w => .refl w
  | .caseNode .., _, w => .refl w
  | .whenNode .., _, w => .refl w
  | .loopNode .., _, w => .refl w
  | .rescueNode .., _, w => .refl w
  | .ensureNode .., _, w => .refl w
  | .otherNode .., _, w => .refl w

theorem walkEach_grows : ∀ (stmts : List Node) (ctx : WalkCtx) (w : DefWalker),
    w.Grows (walkEach env stmts ctx w)
  | [], _, w => .refl w
  | stmt :: rest, ctx, w => by
    have hsig : w.Grows (if isSigCallOrDef stmt then w else { w with pendingSorbetRet := none }) := by
      split_ifs
      · exact .refl w
      · exact .of_same rfl rfl rfl
    rw [walkEach]
    exact (hsig.trans (walk_grows false stmt ctx _)).trans (walkEach_grows rest ctx _)

theorem walkBody_grows : ∀ (body : Option Node) (ctx : WalkCtx) (w : DefWalker),
    w.Grows (walkBody env body ctx w)
  | none, _, w => .refl w
  | some n, ctx, w => by
    rw [walkBody]
    exact walk_grows true n ctx w

theorem walkArm_grows : ∀ (n : Node) (ctx : WalkCtx) (w : DefWalker),
    w.Grows (walkArm env n ctx w)
  | .rescueNode _ _ statements subsequent, ctx, w => by
    rw [walkArm]
    exact (walkBody_grows statements ctx w).trans (walkClause_grows subsequent ctx _)
  | .elseNode _ statements, ctx, w => by
    rw [walkArm]
    exact walkBody_grows statements ctx w
  | .ensureNode _ statements, ctx, w => by
    rw [walkArm]
    exact walkBody_grows statements ctx w
  | .programNode .., _, w => .refl w
  | .statementsNode .., _, w => .refl w
  | .classNode .., _, w => .refl w
  | .moduleNode .., _, w => .refl w
  | .singletonClassNode .., _, w => .refl w
  | .defNode .., _, w => .refl w
  | .constantWriteNode .., _, w => .refl w
  | .constantPathWriteNode .., _, w => .refl w
  | .callNode .., _, w => .refl w
  | .aliasMethodNode .., _, w => .refl w
  | .ifNode .., _, w => .refl w
  | .unlessNode .., _, w => .refl w
  | .beginNode .., _, w => .refl w
  | .blockNode .., _, w => .refl w
  | .blockArgumentNode .., _, w => .refl w
  | .constantReadNode .., _, w => .refl w
  | .constantPathNode .., _, w => .refl w
  | .localVariableReadNode .., _, w => .refl w
  | .localVariableWriteNode .., _, w => .refl w
  | .selfNode _, _, w => .refl w
  | .trueNode _, _, w => .refl w
  | .falseNode _, _, w => .refl w
  | .symbolNode .., _, w => .refl w
  | .stringNode .., _, w => .refl w
  | .interpolatedStringNode .., _, w => .refl w
  | .embeddedStatementsNode .., _, w => .refl w
  | .arrayNode .., _, w => .refl w
  | .keywordHashNode .., _, w => .refl w
  | .assocNode .., _, w => .refl w
  | .caseNode .., _, w => .refl w
  | .whenNode .., _, w => .refl w
  | .loopNode .., _, w => .refl w
  | .otherNode .., _, w => .refl w

theorem walkClause_grows : ∀ (clause : Option Node) (ctx : WalkCtx) (w : DefWalker),
    w.Grows (walkClause env clause ctx w)
  | none, _, w => .refl w
  | some n, ctx, w => by
    rw [walkClause]
    exact walkArm_grows n ctx w

end

end DefWalker

end Itaruby
