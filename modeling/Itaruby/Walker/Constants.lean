import Itaruby.Index.ConstExists
import Itaruby.Index.Termination
import Itaruby.Walker.Openness
import Itaruby.Walker.Places

/-!
The constants that the definition walk records: those written with `=`, with `class` or with
`module` where the walk reads them. Each of them is a constant of the index, so no reference that
finds it in a scope, an ancestor or at top level is reported.
-/

set_option autoImplicit false
set_option relaxedAutoImplicit false

namespace Itaruby

/-! ### Keywords in a block -/

namespace NestedDefScan

/-- A `class` or `module` keyword in a block, with its path from the scope the block is in. -/
inductive Keyword : Node → BodyPlace → ConstPath → Prop
  | classHere {loc : Span} {constantPath : Node} {superclass body : Option Node}
      {path : ConstPath} {p : BodyPlace} :
      constantPath.constPathStr = some path → plainPath p.scope path = true →
      Keyword (.classNode loc constantPath superclass body) p (joinPath p.scope path)
  | moduleHere {loc : Span} {constantPath : Node} {body : Option Node} {path : ConstPath}
      {p : BodyPlace} :
      constantPath.constPathStr = some path → plainPath p.scope path = true →
      Keyword (.moduleNode loc constantPath body) p (joinPath p.scope path)
  | inClass {loc : Span} {constantPath body : Node} {superclass : Option Node}
      {path full : ConstPath} {p : BodyPlace} :
      constantPath.constPathStr = some path → plainPath p.scope path = true →
      Keyword body (p.enter path) full →
      Keyword (.classNode loc constantPath superclass (some body)) p full
  | inModule {loc : Span} {constantPath body : Node} {path full : ConstPath} {p : BodyPlace} :
      constantPath.constPathStr = some path → plainPath p.scope path = true →
      Keyword body (p.enter path) full →
      Keyword (.moduleNode loc constantPath (some body)) p full
  | child {n c : Node} {p : BodyPlace} {full : ConstPath} :
      (∀ loc path superclass body, n ≠ .classNode loc path superclass body) →
      (∀ loc path body, n ≠ .moduleNode loc path body) →
      c ∈ n.children → Keyword c p full → Keyword n p full

/-- The scan is back in its scope and has all it had. -/
structure Extends (s s' : NestedDefScan) : Prop where
  scope : s'.scope = s.scope
  nesting : s'.nesting = s.nesting
  out : s.out <+: s'.out

theorem Extends.refl (s : NestedDefScan) : s.Extends s := ⟨rfl, rfl, List.prefix_rfl⟩

theorem Extends.trans {s s' s'' : NestedDefScan} (h : s.Extends s') (h' : s'.Extends s'') :
    s.Extends s'' :=
  ⟨h'.scope.trans h.scope, h'.nesting.trans h.nesting, h.out.trans h'.out⟩

theorem enterPath_extends (constantPath : Node) (isModule : Bool)
    {recur : NestedDefScan → NestedDefScan} (hrecur : ∀ s : NestedDefScan, s.Extends (recur s))
    (s : NestedDefScan) : s.Extends (enterPath constantPath isModule recur s) := by
  unfold enterPath
  cases constantPath.constPathStr with
  | none => exact hrecur s
  | some path =>
    have hout := (hrecur
      { scope := joinPath s.scope path, nesting := s.nesting ++ [joinPath s.scope path]
        out := s.out ++
          [(joinPath s.scope path, s.nesting ++ [joinPath s.scope path], isModule)] }).out
    exact ⟨rfl, rfl, (List.prefix_append _ _).trans hout⟩

theorem enter_keeps : Node.Keeps enter Extends where
  refl := Extends.refl
  trans := Extends.trans
  enter n recur hrecur s := by
    unfold enter
    split
    · exact enterPath_extends _ _ hrecur s
    · exact enterPath_extends _ _ hrecur s
    · exact hrecur s

theorem mem_enterPath {constantPath : Node} {path : ConstPath} {isModule : Bool}
    (hpath : constantPath.constPathStr = some path) {recur : NestedDefScan → NestedDefScan}
    (hrecur : ∀ s : NestedDefScan, s.Extends (recur s)) (s : NestedDefScan) :
    (joinPath s.scope path, s.nesting ++ [joinPath s.scope path], isModule) ∈
      (enterPath constantPath isModule recur s).out := by
  unfold enterPath
  rw [hpath]
  refine (hrecur _).out.subset ?_
  exact List.mem_append_right _ List.mem_cons_self

/-- What the scan finds below a keyword, from the scope of the keyword, it has found. -/
theorem enterPath_finds {constantPath body : Node} {path full : ConstPath} (isModule : Bool)
    (hpath : constantPath.constPathStr = some path) {children : List Node}
    (hbody : body ∈ children) (s : NestedDefScan)
    (hfinds : ∀ s' : NestedDefScan, s'.scope = joinPath s.scope path →
      ∃ nesting isModule, (full, nesting, isModule) ∈ (Node.visit enter body s').out) :
    ∃ nesting isModule', (full, nesting, isModule') ∈
      (enterPath constantPath isModule (Node.visitAll enter children) s).out := by
  unfold enterPath
  rw [hpath]
  obtain ⟨s', hextends, hreach⟩ := enter_keeps.visitAll_reaches hbody
    { scope := joinPath s.scope path, nesting := s.nesting ++ [joinPath s.scope path]
      out := s.out ++ [(joinPath s.scope path, s.nesting ++ [joinPath s.scope path], isModule)] }
  obtain ⟨nesting, isModule', hmem⟩ := hfinds s' hextends.scope
  exact ⟨nesting, isModule', hreach.out.subset hmem⟩

/-- The scan finds every keyword. -/
theorem visit_finds {n : Node} {p : BodyPlace} {full : ConstPath} (h : Keyword n p full) :
    ∀ s : NestedDefScan, s.scope = p.scope →
      ∃ nesting isModule, (full, nesting, isModule) ∈ (Node.visit enter n s).out := by
  induction h with
  | classHere hpath _ =>
    intro s hscope
    rw [Node.visit_eq, ← hscope]
    exact ⟨_, false, mem_enterPath hpath (enter_keeps.visitAll _) s⟩
  | moduleHere hpath _ =>
    intro s hscope
    rw [Node.visit_eq, ← hscope]
    exact ⟨_, true, mem_enterPath hpath (enter_keeps.visitAll _) s⟩
  | inClass hpath _ _ ih =>
    intro s hscope
    rw [Node.visit_eq]
    refine enterPath_finds false hpath ?_ s fun s' hscope' ↦ ih s' ?_
    · simp [Node.children]
    · rw [hscope', hscope]
      rfl
  | inModule hpath _ _ ih =>
    intro s hscope
    rw [Node.visit_eq]
    refine enterPath_finds true hpath ?_ s fun s' hscope' ↦ ih s' ?_
    · simp [Node.children]
    · rw [hscope', hscope]
      rfl
  | child hclass hmodule hc _ ih =>
    intro s hscope
    rw [Node.visit_eq]
    obtain ⟨s', hextends, hreach⟩ := enter_keeps.visitAll_reaches hc s
    obtain ⟨nesting, isModule, hmem⟩ := ih s' (hextends.scope.trans hscope)
    refine ⟨nesting, isModule, ?_⟩
    unfold enter
    split
    · exact absurd rfl (hclass _ _ _ _)
    · exact absurd rfl (hmodule _ _ _)
    · exact hreach.out.subset hmem

end NestedDefScan

/-! ### What is declared, and where -/

/-- A call in a class body whose block the walk reads for constants. -/
structure CallSite.ReadsBlock (call : CallSite) : Prop where
  hasBlock : call.hasBlockNode = true
  noPatch : (singletonClassOwner call).filter (fun _ ↦ isSingletonClassPatch call.name) = none
  noMacro : call.receiver.isSome ∨ call.name ∉ ["define_method", "sig", "class_methods"]

/-- A statement at a place declares a constant where the walk reads it. A compact path is read
from top level. -/
inductive DeclaredAt : Node → BodyPlace → ConstPath → Prop
  | classKeyword {loc : Span} {constantPath : Node} {superclass body : Option Node}
      {path : ConstPath} {p : BodyPlace} :
      constantPath.constPathStr = some path → plainPath p.scope path = true →
      DeclaredAt (.classNode loc constantPath superclass body) p (joinPath p.scope path)
  | moduleKeyword {loc : Span} {constantPath : Node} {body : Option Node} {path : ConstPath}
      {p : BodyPlace} :
      constantPath.constPathStr = some path → plainPath p.scope path = true →
      DeclaredAt (.moduleNode loc constantPath body) p (joinPath p.scope path)
  | write {loc nameLoc : Span} {name : String} {value : Node} {p : BodyPlace} :
      DeclaredAt (.constantWriteNode loc nameLoc name value) p (p.scope ++ [name])
  | pathWrite {loc : Span} {target value : Node} {path : ConstPath} {p : BodyPlace} :
      target.constPathStr = some path → (p.scope = [] ∨ (stripCbase path).isSome) →
      DeclaredAt (.constantPathWriteNode loc target value) p (trimCbase path)
  | blockWrite {n : Node} {call : CallSite} {stmts : List Node} {loc nameLoc : Span}
      {name : String} {value : Node} {p : BodyPlace} :
      n.asCall = some call → call.ReadsBlock → p.scope ≠ [] →
      call.blockStatements = some stmts → .constantWriteNode loc nameLoc name value ∈ stmts →
      DeclaredAt n p (p.scope ++ [name])
  | blockPathWrite {n : Node} {call : CallSite} {stmts : List Node} {loc : Span}
      {target value : Node} {path : ConstPath} {p : BodyPlace} :
      n.asCall = some call → call.ReadsBlock → p.scope ≠ [] →
      call.blockStatements = some stmts → .constantPathWriteNode loc target value ∈ stmts →
      target.constPathStr = some path → (stripCbase path).isSome → 1 < (trimCbase path).length →
      DeclaredAt n p (trimCbase path)
  | blockKeyword {n body : Node} {call : CallSite} {path : ConstPath} {p : BodyPlace} :
      n.asCall = some call → call.ReadsBlock → p.scope ≠ [] → call.blockBody = some body →
      NestedDefScan.Keyword body p path → DeclaredAt n p path

/-- A file declares a constant by a statement that the walk comes to. -/
def Declares (root : Node) (path : ConstPath) : Prop :=
  ∃ s p, Stands true root {} s p ∧ p.plain = true ∧ DeclaredAt s p path

/-! ### What is declared is recorded -/

theorem rsplitPath_eq_some {full owner : ConstPath} {simple : String}
    (h : rsplitPath full = some (owner, simple)) : owner ≠ [] ∧ full = owner ++ [simple] := by
  unfold rsplitPath at h
  split at h
  · cases h
  · rename_i hlast hne
    obtain ⟨rfl, rfl⟩ := Prod.mk.inj (Option.some.inj h)
    exact ⟨hne, (List.dropLast_append_getLast? _ hlast).symm⟩
  · cases h

theorem rsplitPath_eq_none {full : ConstPath} (hne : full ≠ []) (h : rsplitPath full = none) :
    ∃ simple, full = [simple] := by
  have hparts := List.dropLast_append_getLast hne
  unfold rsplitPath at h
  split at h
  · rename_i howner
    rw [howner, List.nil_append] at hparts
    exact ⟨_, hparts.symm⟩
  · cases h
  · rename_i hlast _
    exact absurd (List.getLast?_eq_none_iff.mp hlast) hne

namespace DefWalker

variable {scan : FileScan} {w w' : DefWalker}

theorem Grows.records (h : w.Grows w') {path : ConstPath}
    (hrecords : (fileDefsOf w scan).Records path) : (fileDefsOf w' scan).Records path := by
  cases hrecords with
  | @object frag hfrag hfree =>
    obtain ⟨i, hi⟩ := List.mem_iff_getElem?.mp hfrag
    obtain ⟨frag', hfrag', hgrows⟩ := h.fragments i frag hi
    rw [← hgrows.path]
    exact .object (List.mem_of_getElem? hfrag') (hgrows.declaredOwnerRequired.trans hfree)
  | @value frag simple hfrag hfree hne hmem =>
    obtain ⟨i, hi⟩ := List.mem_iff_getElem?.mp hfrag
    obtain ⟨frag', hfrag', hgrows⟩ := h.fragments i frag hi
    rw [← hgrows.path]
    exact .value (List.mem_of_getElem? hfrag') (hgrows.declaredOwnerRequired.trans hfree)
      (hgrows.path ▸ hne) (hgrows.consts.subset hmem)
  | toplevel hmem => exact .toplevel (h.toplevelConsts.subset hmem)
  | qualified hne hmem => exact .qualified hne (h.qualifiedWrites.subset hmem)

theorem pushFragment_records (w : DefWalker) {frag : ClassFragment}
    (hfree : frag.declaredOwnerRequired = false) :
    (fileDefsOf (w.pushFragment frag) scan).Records frag.path :=
  .object (List.mem_append_right _ List.mem_cons_self) hfree

/-- A constant written in the class of a place is recorded with its fragment. -/
theorem modifyFragment_records {ctx : WalkCtx} {p : BodyPlace} (hat : ctx.At p w)
    (hscope : p.scope ≠ []) {i : ℕ} (hi : ctx.fragIdx = some i) (name : String) :
    (fileDefsOf (w.modifyFragment i fun f ↦ { f with consts := f.consts ++ [name] }) scan).Records
      (p.scope ++ [name]) := by
  obtain ⟨j, f, hj, hf, hpath, hfree⟩ := hat.inside hscope
  obtain rfl : j = i := Option.some.inj (hj.symm.trans hi)
  have hmem : { f with consts := f.consts ++ [name] } ∈
      (w.modifyFragment j fun f ↦ { f with consts := f.consts ++ [name] }).fragments := by
    refine List.mem_of_getElem? (i := j) ?_
    change (w.fragments.modify j _)[j]? = _
    rw [List.getElem?_modify, hf]
    simp
  rw [← hpath]
  have hne : f.path ≠ [] := hpath ▸ hscope
  exact @FileDefs.Records.value _ { f with consts := f.consts ++ [name] } name hmem hfree hne
    (List.mem_append_right _ List.mem_cons_self)

theorem qualifiedWrite_records (w : DefWalker) {full : ConstPath} {write : ConstPath × String}
    (hfull : rsplitPath full = some write) :
    (fileDefsOf { w with qualifiedWrites := w.qualifiedWrites ++ [write] } scan).Records full := by
  obtain ⟨owner, simple⟩ := write
  obtain ⟨hne, rfl⟩ := rsplitPath_eq_some hfull
  exact .qualified hne (List.mem_append_right _ List.mem_cons_self)

variable (env : WalkEnv)

theorem pushAlias_grows (w : DefWalker) (ctx : WalkCtx) (full : ConstPath) (value : Node) :
    w.Grows (w.pushAlias ctx full value) :=
  (Grows.refl w).pushAlias ctx full value

theorem walkConstWrite_records {ctx : WalkCtx} {p : BodyPlace} (hat : ctx.At p w)
    (nameLoc : Span) (name : String) (value : Node) :
    (fileDefsOf (w.walkConstWrite ctx nameLoc name value) scan).Records (p.scope ++ [name]) := by
  unfold walkConstWrite
  refine (pushAlias_grows _ _ _ _).records ?_
  by_cases hscope : p.scope = []
  · rw [hat.toplevel hscope, hscope]
    exact .toplevel (List.mem_append_right _ List.mem_cons_self)
  · obtain ⟨i, -, hi, -⟩ := hat.inside hscope
    rw [hi]
    refine Grows.records ?_ (modifyFragment_records hat hscope hi name)
    exact .of_same rfl rfl rfl

theorem walkConstPathWrite_records (w : DefWalker) (ctx : WalkCtx) (span : Span)
    {target : Node} (value : Node) {path : ConstPath} (hpath : target.constPathStr = some path) :
    (fileDefsOf (w.walkConstPathWrite ctx span target value) scan).Records (trimCbase path) := by
  unfold walkConstPathWrite
  rw [hpath]
  refine (pushAlias_grows _ _ _ _).records ?_
  have hne := trimCbase_ne_nil (Node.constPathStr_ne_nil hpath)
  cases hsplit : rsplitPath (trimCbase path) with
  | none =>
    obtain ⟨simple, hsimple⟩ := rsplitPath_eq_none hne hsplit
    rw [hsimple]
    exact .toplevel (List.mem_append_right _ List.mem_cons_self)
  | some write => exact qualifiedWrite_records _ hsplit

/-- A block that the walk reads is read for constants and for keywords. -/
theorem walkBlockCall_reads (ctx : WalkCtx) {call : CallSite} (hread : call.ReadsBlock) (i : ℕ)
    (w : DefWalker) :
    ((w.harvestBlockConsts i call).harvestBlockNestedDefinitions ctx call).Grows
      (w.walkBlockCall env ctx i call) := by
  have hmacros (m : String) (hm : m ∈ ["define_method", "sig", "class_methods"]) :
      ¬ (call.name = m ∧ call.receiver.isNone) := by
    rintro ⟨rfl, hnone⟩
    rcases hread.noMacro with hsome | hname
    · rw [Option.isNone_iff_eq_none.mp hnone] at hsome
      cases hsome
    · exact hname hm
  unfold walkBlockCall
  rw [if_neg (hmacros _ (by simp)), if_neg (hmacros _ (by simp)),
    if_neg fun h ↦ hmacros "class_methods" (by simp) ⟨h.1, h.2.1⟩]
  exact (harvestInterpolatedEvalDefs_grows _ _ _ _).trans (openClass_grows _ _ _)

theorem walkCall_reads {ctx : WalkCtx} {call : CallSite} (hread : call.ReadsBlock) {i : ℕ}
    (hi : ctx.fragIdx = some i) (w : DefWalker) :
    ∃ w', w.Grows w' ∧ ((w'.harvestBlockConsts i call).harvestBlockNestedDefinitions ctx call).Grows
      (w.walkCall env ctx call) := by
  unfold walkCall
  refine ⟨_, w.noteCoreMixin_grows (call.receiver.any fun receiver ↦
    coreInjectionCall env.toFrontend receiver call.name), ?_⟩
  dsimp only
  rw [hread.noPatch]
  dsimp only
  rw [if_pos hread.hasBlock, hi]
  exact walkBlockCall_reads env ctx hread i _

/-- What a statement of the block writes, it writes in the class of the call. -/
theorem harvestBlockConsts_reaches (i : ℕ) {call : CallSite} {stmts : List Node}
    (hstmts : call.blockStatements = some stmts) {stmt : Node} (hstmt : stmt ∈ stmts)
    (w : DefWalker) :
    ∃ w', w.Grows w' ∧ (harvestBlockConst i w' stmt).Grows (w.harvestBlockConsts i call) := by
  unfold harvestBlockConsts
  rw [hstmts]
  exact Grows.foldl_reaches (fun w stmt ↦ w.harvestBlockConst_grows i stmt) hstmt w

theorem harvestBlockNestedDefinitions_records (ctx : WalkCtx) {p : BodyPlace}
    (hscope : ctx.scope = p.scope) {call : CallSite} {body : Node}
    (hbody : call.blockBody = some body) {path : ConstPath}
    (hkeyword : NestedDefScan.Keyword body p path) (w : DefWalker) :
    (fileDefsOf (w.harvestBlockNestedDefinitions ctx call) scan).Records path := by
  unfold harvestBlockNestedDefinitions
  rw [hbody]
  obtain ⟨nesting, isModule, hmem⟩ := NestedDefScan.visit_finds hkeyword
    { scope := ctx.scope, nesting := ctx.nesting } hscope
  have hstep : ∀ (w : DefWalker) (entry : ConstPath × List ConstPath × Bool),
      w.Grows (w.pushFragment (ClassFragment.bornOpen
        { path := entry.1, nesting := entry.2.1, isModule := entry.2.2 }
        .blockNestedDefinition)) :=
    fun w entry ↦ w.pushFragment_grows (ClassFragment.bornOpen_grounded _ _)
  obtain ⟨w', -, hreach⟩ := Grows.foldl_reaches hstep hmem w
  exact hreach.records (w'.pushFragment_records rfl)

theorem enterBody_records (w : DefWalker) {full : ConstPath} (hne : full ≠ [])
    (nesting : List ConstPath) :
    (fileDefsOf (w.enterBody full nesting).1 scan).Records full := by
  unfold enterBody
  rw [if_neg hne]
  exact w.pushFragment_records rfl

theorem walk_call {s : Node} {call : CallSite} (hcall : s.asCall = some call) (ctx : WalkCtx)
    (w : DefWalker) : walk env false s ctx w = w.walkCall env ctx call := by
  unfold Node.asCall at hcall
  split at hcall
  · obtain rfl := Option.some.inj hcall
    rw [walk]
  · cases hcall

/-- What a statement declares at its place is recorded by the walk of the statement. -/
theorem walk_records {s : Node} {p : BodyPlace} {path : ConstPath} (h : DeclaredAt s p path)
    {ctx : WalkCtx} (hat : ctx.At p w) :
    (fileDefsOf (walk env false s ctx w) scan).Records path := by
  cases h with
  | @classKeyword loc constantPath superclass body path _ hpath _ =>
    have hne : joinPath ctx.scope path ≠ [] := joinPath_ne_nil (Node.constPathStr_ne_nil hpath)
    rw [walk, hpath, ← hat.scope]
    refine (closeClass_grows _ _ _ _).records ?_
    cases body with
    | none => exact w.pushFragment_records rfl
    | some body => exact (walkBody_grows env (some body) _ _).records (w.enterBody_records hne _)
  | @moduleKeyword loc constantPath body path _ hpath _ =>
    have hne : joinPath ctx.scope path ≠ [] := joinPath_ne_nil (Node.constPathStr_ne_nil hpath)
    rw [walk, hpath, ← hat.scope]
    refine (closeModule_grows _ _).records ?_
    cases body with
    | none => exact w.pushFragment_records rfl
    | some body => exact (walkBody_grows env (some body) _ _).records (w.enterBody_records hne _)
  | @write loc nameLoc name value =>
    rw [walk]
    exact walkConstWrite_records hat nameLoc name value
  | @pathWrite loc target value path _ hpath _ =>
    rw [walk]
    exact walkConstPathWrite_records w ctx loc value hpath
  | @blockWrite _ call stmts loc nameLoc name value _ hcall hread hscope hstmts hstmt =>
    obtain ⟨i, -, hi, -⟩ := hat.inside hscope
    rw [walk_call env hcall]
    obtain ⟨w₁, hbefore, hblock⟩ := walkCall_reads env hread hi w
    obtain ⟨w₂, hbefore', hreach⟩ := harvestBlockConsts_reaches i hstmts hstmt w₁
    have hat₂ : ctx.At p w₂ := hat.later (hbefore.trans hbefore')
    refine Grows.records ?_ (modifyFragment_records hat₂ hscope hi name)
    exact (hreach.trans (harvestBlockNestedDefinitions_grows _ ctx call)).trans hblock
  | @blockPathWrite _ call stmts loc target value path _ hcall hread hscope hstmts hstmt hpath _
      hlong =>
    obtain ⟨i, -, hi, -⟩ := hat.inside hscope
    rw [walk_call env hcall]
    obtain ⟨w₁, hbefore, hblock⟩ := walkCall_reads env hread hi w
    obtain ⟨w₂, hbefore', hreach⟩ := harvestBlockConsts_reaches i hstmts hstmt w₁
    cases hsplit : rsplitPath (trimCbase path) with
    | none =>
      obtain ⟨simple, hsimple⟩ :=
        rsplitPath_eq_none (trimCbase_ne_nil (Node.constPathStr_ne_nil hpath)) hsplit
      rw [hsimple] at hlong
      exact absurd hlong (lt_irrefl 1)
    | some write =>
      have hwrite : harvestBlockConst i w₂ (.constantPathWriteNode loc target value) =
          { w₂ with qualifiedWrites := w₂.qualifiedWrites ++ [write] } := by
        simp [harvestBlockConst, hpath, hsplit]
      rw [hwrite] at hreach
      refine Grows.records ?_ (qualifiedWrite_records w₂ hsplit)
      exact (hreach.trans (harvestBlockNestedDefinitions_grows _ ctx call)).trans hblock
  | @blockKeyword _ body call path _ hcall hread hscope hbody hkeyword =>
    obtain ⟨i, -, hi, -⟩ := hat.inside hscope
    rw [walk_call env hcall]
    obtain ⟨w₁, -, hblock⟩ := walkCall_reads env hread hi w
    exact hblock.records (harvestBlockNestedDefinitions_records ctx hat.scope hbody hkeyword _)

end DefWalker

/-- A file records what it declares. -/
theorem records_of_declares (fe : Frontend) (text : Text) {path : ConstPath}
    (h : Declares (fe.parse text).node path) : (parseDefsText fe text).Records path := by
  obtain ⟨s, p, hstands, -, hdeclared⟩ := h
  obtain ⟨ctx, w, hat, hgrows⟩ := DefWalker.walkFile_reaches (walkEnv fe text) hstands
  exact hgrows.records (DefWalker.walk_records _ hdeclared hat)

/-! ### No declared constant is missing -/

namespace ProjectIndex

variable {libs : ConstPath → List String} {ix : ProjectIndex}

theorem constListed_converges (hall : ∀ id, (ix.ancestors id).Converges)
    (nesting : List ConstPath) (name : ConstPath) :
    (ix.constListed libs nesting name).Converges := by
  unfold constListed
  dsimp only
  split
  · exact Fueled.converges_pure _
  · refine Fueled.Converges.bind (Fueled.converges_anyM fun level _ ↦ ?_) fun member _ ↦ ?_
    · split
      · exact constInAncestors_converges hall _ _
      · exact Fueled.converges_pure _
    · exact Fueled.converges_pure _
  · exact Fueled.converges_pure _
  · split
    · refine (constInAncestors_converges hall _ _).bind fun member _ ↦ ?_
      exact Fueled.converges_pure _
    · exact Fueled.converges_pure _

theorem constExists_converges (hall : ∀ id, (ix.ancestors id).Converges)
    (nesting : List ConstPath) (name : ConstPath) :
    (ix.constExists libs nesting name).Converges := by
  unfold constExists
  split
  · exact Fueled.converges_pure _
  · exact Fueled.converges_pure _
  · exact constListed_converges hall nesting name

/-- A constant that a file of the project declares where the walk reads it exists for every
reference that finds it in a scope, in an ancestor or at top level. -/
theorem const_exists_of_declared (fe : Frontend) (texts : List (SourceFile × Text))
    (rest : BuildInput) (h : (buildIndex (projectInput fe texts rest)).Returns ix)
    {file : SourceFile} {text : Text} (htext : (file, text) ∈ texts) {path : ConstPath}
    (hdeclares : Declares (fe.parse text).node path) {nesting : List ConstPath} {name : ConstPath}
    (hrefers : ix.RefersTo nesting name path) :
    ¬ (ix.constExists libs nesting name).Returns false ∧
      (ix.HeadersSettle → (ix.constExists libs nesting name).Returns true) := by
  have hfiles := projectInput_grounded fe texts rest
  have hentry : (file, parseDefsText fe text) ∈ (projectInput fe texts rest).files :=
    List.mem_map.mpr ⟨(file, text), htext, rfl⟩
  have hlists : ix.Lists path :=
    buildIndex_lists hfiles h hentry (records_of_declares fe text hdeclares)
  have hkeyed : ix.WellKeyed :=
    (buildIndex_grows hfiles h).wellKeyed ((mergeFiles_grows {} hfiles).wellKeyed empty_wellKeyed)
  have hnot : ¬ (ix.constExists libs nesting name).Returns false :=
    constExists_of_lists hkeyed hlists hrefers
  refine ⟨hnot, fun hsettle ↦ ?_⟩
  have hconverges : (ix.constExists libs nesting name).Converges :=
    constExists_converges (ancestors_converge_iff_headersSettle.mpr hsettle) nesting name
  obtain ⟨b, hb⟩ := hconverges
  cases b with
  | true => exact hb
  | false => exact absurd hb hnot

/-! ### A constant under `case` -/

def poolText : Text :=
  "case RUBY_ENGINE\nwhen \"jruby\" then POOL = 1\nelse POOL = 2\nend\nPOOL\n".toList

/-- `POOL = 1` in the first arm. -/
def poolWrite : Node :=
  .constantWriteNode (35, 43) (35, 39) "POOL" (.otherNode (42, 43) [])

def poolWhen : Node :=
  .whenNode (17, 43) [.stringNode (22, 29) "jruby"] (some (.statementsNode (35, 43) [poolWrite]))

def poolCase : Node :=
  .caseNode (0, 61) (some (.constantReadNode (5, 16) "RUBY_ENGINE")) [poolWhen]
    (some (.elseNode (44, 61) (some (.statementsNode (49, 57)
      [.constantWriteNode (49, 57) (49, 53) "POOL" (.otherNode (56, 57) [])]))))

def poolTree : Node :=
  .programNode (0, 66) (.statementsNode (0, 66)
    [poolCase, .constantReadNode (62, 66) "POOL"])

def limitText : Text := "class Pool\n  LIMIT = 1\n  enums do\n    Idle = 2\n  end\nend\n".toList

/-- `enums do .. end`, with `Idle = 2` in its block. -/
def enumsCall : Node :=
  .callNode (25, 52) none "enums" []
    (some (.blockNode (31, 52) none [] (some (.statementsNode (38, 46)
      [.constantWriteNode (38, 46) (38, 42) "Idle" (.otherNode (45, 46) [])]))))

def limitTree : Node :=
  .programNode (0, 56) (.statementsNode (0, 56)
    [.classNode (0, 56) (.constantReadNode (6, 10) "Pool") none
      (some (.statementsNode (13, 52)
        [.constantWriteNode (13, 22) (13, 18) "LIMIT" (.otherNode (21, 22) []), enumsCall]))])

def poolFrontend : Frontend where
  parse text := ⟨if text = poolText then poolTree else limitTree, [], false⟩
  parseRbsComment _ := .error ""
  isAlphanumeric := Char.isAlphanum
  isCoreNamespace name := name ∈ ["Object", "Kernel", "BasicObject"]
  isKnownExternalClassPath path := path ∈ [["Object"], ["Kernel"], ["BasicObject"]]

def poolIndex (text : Text) : ProjectIndex :=
  ((buildIndex (projectInput poolFrontend [("pool.rb", text)] { files := [] })).run 20).getD {}

/-- `POOL` is written at top level, in every arm of a `case`, and is reported. -/
theorem pool_missing :
    (buildIndex (projectInput poolFrontend [("pool.rb", poolText)] { files := [] })).Returns
      (poolIndex poolText) ∧
    Relation.ReflTransGen (fun c n ↦ c ∈ Node.children n) poolWrite
      (poolFrontend.parse poolText).node ∧
    (constExists (fun _ ↦ []) (poolIndex poolText) [] ["POOL"]).Returns false := by
  refine ⟨⟨20, by rfl⟩, ?_, 20, by rfl⟩
  have hparse : (poolFrontend.parse poolText).node = poolTree := by
    change (if poolText = poolText then poolTree else limitTree) = poolTree
    rw [if_pos rfl]
  rw [hparse]
  refine .head (b := .statementsNode (35, 43) [poolWrite]) (List.mem_singleton_self _) ?_
  refine .head (b := poolWhen) (by simp [poolWhen, Node.children]) ?_
  refine .head (b := poolCase) (by simp [poolCase, Node.children]) ?_
  exact .head List.mem_cons_self (.single (List.mem_singleton_self _))

theorem idle_declared : Declares limitTree ["Pool", "Idle"] := by
  refine ⟨enumsCall, { scope := ["Pool"], nesting := [["Pool"]] }, ?_, rfl, ?_⟩
  · refine .program (.statement List.mem_cons_self (.classBody rfl ?_))
    exact .statement (List.mem_cons_of_mem _ List.mem_cons_self) .here
  · refine @DeclaredAt.blockWrite enumsCall _ _ _ _ "Idle" _ _ rfl ?_ ?_ rfl List.mem_cons_self
    · exact ⟨rfl, rfl, .inr (by decide)⟩
    · decide

/-- A constant in the block of a class body is found in its class. -/
theorem idle_exists :
    ¬ (constExists (fun _ ↦ []) (poolIndex limitText) [["Pool"]] ["Idle"]).Returns false := by
  have hix : (buildIndex (projectInput poolFrontend [("pool.rb", limitText)] { files := [] })).Returns
      (poolIndex limitText) := ⟨20, by rfl⟩
  have hid : (poolIndex limitText).byPath.lookup ["Pool"] = some 0 := by decide +kernel
  have hparse : (poolFrontend.parse limitText).node = limitTree := by
    change (if limitText = poolText then poolTree else limitTree) = limitTree
    rw [if_neg (by decide +kernel)]
  have hdeclared : Declares (poolFrontend.parse limitText).node ["Pool", "Idle"] :=
    hparse ▸ idle_declared
  have hrefers : (poolIndex limitText).RefersTo [["Pool"]] ["Idle"] ["Pool", "Idle"] :=
    .lexical List.mem_cons_self hid
  exact (const_exists_of_declared poolFrontend [("pool.rb", limitText)] { files := [] } hix
    List.mem_cons_self hdeclared hrefers).1

end ProjectIndex

end Itaruby
