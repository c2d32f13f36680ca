import Itaruby.Walker.Places

/-!
What the scan of a body finds: the definers that stand in the body of a `def`, wherever they
stand, and what the class of the `def` has of them.
-/

set_option autoImplicit false
set_option relaxedAutoImplicit false

namespace Itaruby

/-- The scan of a body comes to the node: it is not below an evaluation on a named class. -/
inductive Scanned : Node → Node → Prop
  | here {n : Node} : Scanned n n
  | child {n c s : Node} :
      c ∈ n.children →
      (∀ call target, n.asCall = some call → bodyDefTarget call = some target →
        BodyDefs.stopsAt call target = false) →
      Scanned c s → Scanned n s

/-- A definer without a receiver, at any depth of the body: it defines on the module itself. -/
inductive BodyInstalls (body : Node) : String → Prop
  | literal {s : Node} {call : CallSite} {lit : BodyDefLiteral} :
      Scanned body s → s.asCall = some call → bodyDefTarget call = some .enclosing →
      bodyDefReasonNamed call.name call.arguments = none →
      lit ∈ bodyDefLiteralsNamed call.name call.arguments → lit.isSingleton = false →
      BodyInstalls body lit.name

/-- A definer without a receiver whose names the text does not spell. -/
inductive BodyOpens (body : Node) : Prop
  | dynamic {s : Node} {call : CallSite} {reason : OpenReason} :
      Scanned body s → s.asCall = some call → bodyDefTarget call = some .enclosing →
      bodyDefReasonNamed call.name call.arguments = some reason → BodyOpens body
  | methodMissing {s : Node} {site : DefSite} :
      Scanned body s → s.asCall = none → s.asDef = some site →
      DefWalker.isMethodMissing site.name = true → BodyOpens body

theorem buildMethodDef_name (env : WalkEnv) (site : DefSite) (pendingSorbetRet : Option String) :
    (buildMethodDef env site pendingSorbetRet).1.name = site.name := by
  unfold buildMethodDef
  cases site.parameters with
  | none =>
    dsimp only
    split
    · rfl
    · rfl
    · rfl
  | some params =>
    dsimp only
    split
    · rfl
    · rfl
    · rfl

namespace BodyDefs

/-- The scan keeps what it has found. -/
structure Extends (found found' : BodyDefs) : Prop where
  opens : found.opens <+: found'.opens
  literals : found.literals <+: found'.literals
  nestedDefs : found.nestedDefs <+: found'.nestedDefs

theorem Extends.refl (found : BodyDefs) : found.Extends found :=
  ⟨List.prefix_rfl, List.prefix_rfl, List.prefix_rfl⟩

theorem Extends.trans {found found' found'' : BodyDefs} (h : found.Extends found')
    (h' : found'.Extends found'') : found.Extends found'' :=
  ⟨h.opens.trans h'.opens, h.literals.trans h'.literals, h.nestedDefs.trans h'.nestedDefs⟩

theorem note_extends (found : BodyDefs) (target : DefTarget) (reason : OpenReason) :
    found.Extends (found.note target reason) := by
  unfold note
  split_ifs
  · exact .refl found
  · exact ⟨List.prefix_append _ _, List.prefix_rfl, List.prefix_rfl⟩

theorem consume_extends (found : BodyDefs) (call : CallSite) (target : DefTarget) :
    found.Extends (found.consume call target) := by
  unfold consume
  split
  · exact note_extends found target _
  · exact ⟨List.prefix_rfl, List.prefix_append _ _, List.prefix_rfl⟩

theorem enter_keeps (env : WalkEnv) : Node.Keeps (enter env) Extends where
  refl := Extends.refl
  trans := Extends.trans
  enter n recur hrecur found := by
    unfold enter
    split
    · split
      · split_ifs
        · exact consume_extends found _ _
        · exact (consume_extends found _ _).trans (hrecur _)
      · exact hrecur found
    · split
      · refine Extends.trans ?_ (hrecur _)
        exact ⟨List.prefix_rfl, List.prefix_rfl, List.prefix_append _ _⟩
      · exact hrecur found

/-- What the scan does at a node stays to its end. -/
theorem scanned_reaches (env : WalkEnv) {n s : Node} (h : Scanned n s) (found : BodyDefs) :
    ∃ found', (Node.visit (enter env) s found').Extends (Node.visit (enter env) n found) := by
  induction h generalizing found with
  | here => exact ⟨found, .refl _⟩
  | @child n c s hc hpasses _ ih =>
    have hrecur (found : BodyDefs) : ∃ found', (Node.visit (enter env) s found').Extends
        (Node.visitAll (enter env) n.children found) := by
      obtain ⟨found', -, hreach⟩ := (enter_keeps env).visitAll_reaches hc found
      obtain ⟨found'', hfinds⟩ := ih found'
      exact ⟨found'', hfinds.trans hreach⟩
    rw [Node.visit_eq]
    unfold enter
    split
    · rename_i call hcall
      split
      · rename_i target htarget
        rw [if_neg (by simp [hpasses call target hcall htarget])]
        exact hrecur _
      · exact hrecur _
    · split
      · exact hrecur _
      · exact hrecur _

theorem enter_call (env : WalkEnv) {s : Node} {call : CallSite} (hcall : s.asCall = some call)
    (htarget : bodyDefTarget call = some .enclosing) (recur : BodyDefs → BodyDefs)
    (found : BodyDefs) : enter env s recur found = recur (found.consume call .enclosing) := by
  simp [enter, hcall, htarget, stopsAt]

theorem visit_call (env : WalkEnv) {s : Node} {call : CallSite} (hcall : s.asCall = some call)
    (htarget : bodyDefTarget call = some .enclosing) (found : BodyDefs) :
    (found.consume call .enclosing).Extends (Node.visit (enter env) s found) := by
  rw [Node.visit_eq, enter_call env hcall htarget]
  exact (enter_keeps env).visitAll _ _

theorem visit_nestedDef (env : WalkEnv) {s : Node} {site : DefSite} (hcall : s.asCall = none)
    (hdef : s.asDef = some site) (found : BodyDefs) :
    ∃ nd ∈ (Node.visit (enter env) s found).nestedDefs,
      nd.md = (buildMethodDef env site none).1 := by
  rw [Node.visit_eq]
  have henter (recur : BodyDefs → BodyDefs) (hrecur : ∀ found : BodyDefs, found.Extends (recur found)) :
      ∃ nd ∈ (enter env s recur found).nestedDefs, nd.md = (buildMethodDef env site none).1 := by
    unfold enter
    rw [hcall]
    dsimp only
    rw [hdef]
    exact ⟨_, (hrecur _).nestedDefs.subset (List.mem_append_right _ List.mem_cons_self), rfl⟩
  exact henter _ ((enter_keeps env).visitAll _)

theorem note_opens (found : BodyDefs) (target : DefTarget) (reason : OpenReason) :
    ∃ reason', (target, reason') ∈ (found.note target reason).opens := by
  unfold note
  split_ifs with hany
  · obtain ⟨⟨target', reason'⟩, hmem, htarget⟩ := List.any_eq_true.mp hany
    obtain rfl : target' = target := by simpa using htarget
    exact ⟨reason', hmem⟩
  · exact ⟨reason, List.mem_append_right _ List.mem_cons_self⟩

/-- A literal that the body spells is found. -/
theorem dynamicDefsInBody_literal (env : WalkEnv) {site : DefSite} {body : Node}
    (hbody : site.body = some body) {s : Node} {call : CallSite} {lit : BodyDefLiteral}
    (hscanned : Scanned body s) (hcall : s.asCall = some call)
    (htarget : bodyDefTarget call = some .enclosing)
    (hreason : bodyDefReasonNamed call.name call.arguments = none)
    (hlit : lit ∈ bodyDefLiteralsNamed call.name call.arguments) :
    (.enclosing, lit) ∈ (dynamicDefsInBody env site).literals := by
  unfold dynamicDefsInBody
  rw [hbody]
  obtain ⟨found, hreach⟩ := scanned_reaches env hscanned {}
  refine ((visit_call env hcall htarget found).trans hreach).literals.subset ?_
  unfold consume
  rw [hreason]
  exact List.mem_append_right _ (List.mem_map_of_mem hlit)

theorem dynamicDefsInBody_opens (env : WalkEnv) {site : DefSite} {body : Node}
    (hbody : site.body = some body) {s : Node} {call : CallSite} {reason : OpenReason}
    (hscanned : Scanned body s) (hcall : s.asCall = some call)
    (htarget : bodyDefTarget call = some .enclosing)
    (hreason : bodyDefReasonNamed call.name call.arguments = some reason) :
    ∃ reason', (.enclosing, reason') ∈ (dynamicDefsInBody env site).opens := by
  unfold dynamicDefsInBody
  rw [hbody]
  obtain ⟨found, hreach⟩ := scanned_reaches env hscanned {}
  have hconsume : found.consume call .enclosing = found.note .enclosing reason := by
    unfold consume
    rw [hreason]
  obtain ⟨reason', hmem⟩ := note_opens found .enclosing reason
  refine ⟨reason', ((visit_call env hcall htarget found).trans hreach).opens.subset ?_⟩
  rwa [hconsume]

theorem dynamicDefsInBody_nestedDef (env : WalkEnv) {site : DefSite} {body : Node}
    (hbody : site.body = some body) {s : Node} {nested : DefSite} (hscanned : Scanned body s)
    (hcall : s.asCall = none) (hdef : s.asDef = some nested) :
    ∃ nd ∈ (dynamicDefsInBody env site).nestedDefs, nd.md.name = nested.name := by
  unfold dynamicDefsInBody
  rw [hbody]
  obtain ⟨found, hreach⟩ := scanned_reaches env hscanned {}
  obtain ⟨nd, hnd, hmd⟩ := visit_nestedDef env hcall hdef found
  exact ⟨nd, hreach.nestedDefs.subset hnd, hmd ▸ buildMethodDef_name env nested none⟩

/-- No call in a body opens a class as an abstract method does. -/
theorem bodyDefReasonNamed_ne {name : String} {args : List Node} {reason : OpenReason}
    (h : bodyDefReasonNamed name args = some reason) : reason ≠ .abstractRaise := by
  induction args generalizing name with
  | nil =>
    unfold bodyDefReasonNamed at h
    split_ifs at h
    all_goals
      cases h
      exact OpenReason.noConfusion
  | cons arg rest ih =>
    unfold bodyDefReasonNamed at h
    split_ifs at h
    any_goals
      cases h
      exact OpenReason.noConfusion
    split at h
    · exact ih h
    · cases h

theorem enter_keepsUnmasked (env : WalkEnv) :
    Node.Keeps (enter env) fun found found' ↦
      (∀ entry ∈ found.opens, entry.2 ≠ .abstractRaise) →
        ∀ entry ∈ found'.opens, entry.2 ≠ .abstractRaise where
  refl _ := id
  trans h h' := h' ∘ h
  enter n recur hrecur found := by
    have hconsume (call : CallSite) (target : DefTarget)
        (h : ∀ entry ∈ found.opens, entry.2 ≠ .abstractRaise) :
        ∀ entry ∈ (found.consume call target).opens, entry.2 ≠ .abstractRaise := by
      unfold consume
      split
      · rename_i reason hreason
        unfold note
        split_ifs
        · exact h
        · intro entry hentry
          rcases List.mem_append.mp hentry with hold | hnew
          · exact h entry hold
          · obtain rfl := List.mem_singleton.mp hnew
            exact bodyDefReasonNamed_ne hreason
      · exact h
    unfold enter
    split
    · split
      · split_ifs
        · exact hconsume _ _
        · exact hrecur _ ∘ hconsume _ _
      · exact hrecur found
    · split
      · intro h
        exact hrecur _ h
      · exact hrecur found

theorem dynamicDefsInBody_unmasked (env : WalkEnv) (site : DefSite) :
    ∀ entry ∈ (dynamicDefsInBody env site).opens, entry.2 ≠ .abstractRaise := by
  unfold dynamicDefsInBody
  split
  · exact (enter_keepsUnmasked env).visit _ {} (by simp)
  · simp

end BodyDefs

/-! ### What the class has of it -/

namespace DefWalker

variable {w w' : DefWalker}

/-- What is known of the fragment that the walk is in, once something is done to it. -/
theorem modifyFragment_reaches {ctx : WalkCtx} {p : BodyPlace} (hat : ctx.At p w)
    (hscope : p.scope ≠ []) {i : ℕ} (hi : ctx.fragIdx = some i)
    {g : ClassFragment → ClassFragment} (hgrows : ∀ f : ClassFragment, f.Grows (g f))
    {P : ClassFragment → Prop} (hg : ∀ f, P (g f)) :
    ∃ frag ∈ (w.modifyFragment i g).fragments, frag.path = p.scope ∧
      frag.declaredOwnerRequired = false ∧ P frag := by
  obtain ⟨j, f, hj, hf, hpath, hfree⟩ := hat.inside hscope
  obtain rfl : j = i := Option.some.inj (hj.symm.trans hi)
  refine ⟨g f, ?_, (hgrows f).path.trans hpath,
    (hgrows f).declaredOwnerRequired.trans hfree, hg f⟩
  refine List.mem_of_getElem? (i := j) ?_
  change (w.fragments.modify j g)[j]? = _
  rw [List.getElem?_modify, hf]
  simp

/-- An entry of a body is applied to the class of the body, and what it does stays. -/
theorem applyBodyDefs_reaches (i : ℕ) (nesting : List ConstPath) (treatedAsSingleton : Bool)
    (span : Span) (defs : BodyDefs) (w : DefWalker) :
    (∀ entry ∈ defs.opens, ∃ w', w.Grows w' ∧
      (w'.applyOpen i nesting entry).Grows
        (w.applyBodyDefs i nesting treatedAsSingleton span defs)) ∧
    (∀ entry ∈ defs.literals, ∃ w', w.Grows w' ∧
      (w'.applyBodyDef i nesting treatedAsSingleton span entry.1 entry.2).Grows
        (w.applyBodyDefs i nesting treatedAsSingleton span defs)) ∧
    ∀ nd ∈ defs.nestedDefs, ∃ w', w.Grows w' ∧
      (w'.applyNestedDef i treatedAsSingleton nd).Grows
        (w.applyBodyDefs i nesting treatedAsSingleton span defs) := by
  have hopen (w : DefWalker) (entry : DefTarget × OpenReason) :
      w.Grows (w.applyOpen i nesting entry) := w.applyOpen_grows i nesting entry
  have hliteral (w : DefWalker) (entry : DefTarget × BodyDefLiteral) :
      w.Grows (w.applyBodyDef i nesting treatedAsSingleton span entry.1 entry.2) :=
    w.applyBodyDef_grows i nesting treatedAsSingleton span entry.1 entry.2
  have hnested (w : DefWalker) (nd : NestedDef) :
      w.Grows (w.applyNestedDef i treatedAsSingleton nd) :=
    w.applyNestedDef_grows i treatedAsSingleton nd
  refine ⟨fun entry hentry ↦ ?_, fun entry hentry ↦ ?_, fun nd hnd ↦ ?_⟩
  · obtain ⟨w', hgrows, hreach⟩ := Grows.foldl_reaches hopen hentry w
    exact ⟨w', hgrows, (hreach.trans (.foldl hliteral _ _)).trans (.foldl hnested _ _)⟩
  · obtain ⟨w', hgrows, hreach⟩ := Grows.foldl_reaches hliteral hentry
      (defs.opens.foldl (fun w entry ↦ w.applyOpen i nesting entry) w)
    exact ⟨w', (Grows.foldl hopen _ w).trans hgrows, hreach.trans (.foldl hnested _ _)⟩
  · obtain ⟨w', hgrows, hreach⟩ := Grows.foldl_reaches hnested hnd _
    exact ⟨w', ((Grows.foldl hopen _ w).trans (.foldl hliteral _ _)).trans hgrows, hreach⟩

/-- The body of a `def` that may define is scanned. -/
theorem scanDef_reaches (env : WalkEnv) (ctx : WalkCtx) (i : ℕ) {site : DefSite}
    (hmay : mayDefine (bodyTextOf env site) = true) (treatedAsSingleton : Bool) (w : DefWalker) :
    ∃ w', w.Grows w' ∧
      (w'.applyBodyDefs i ctx.nesting treatedAsSingleton site.loc
        (dynamicDefsInBody env site)).Grows (w.scanDef env ctx i site treatedAsSingleton) := by
  unfold scanDef
  dsimp only
  rw [if_pos hmay]
  refine ⟨_, w.openIf_grows (isMethodMissing site.name) i .methodMissing, ?_⟩
  exact openIf_grows _ _ i .abstractRaise

end DefWalker

end Itaruby
