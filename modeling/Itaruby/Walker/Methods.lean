import Itaruby.Walker.Constants
import Itaruby.Walker.Hooks

/-!
The methods that the statements of a class body give: by `def`, by a macro, by an alias, or under a
name that the text does not spell. The walk files each of them on its track or opens the class, and
a lookup that reads the class does not answer `NotFound`.
-/

set_option autoImplicit false
set_option relaxedAutoImplicit false

namespace Itaruby

open DefWalker

/-- `def self.m` -/
def DefSite.onSelf (site : DefSite) : Bool :=
  match site.receiver with
  | some receiver => receiver.isSelf
  | none => false

/-! ### What a statement gives -/

/-- The definers in the body of a `def` are read. -/
structure ScansBody (env : WalkEnv) (site : DefSite) (body : Node) : Prop where
  hasBody : site.body = some body
  may : mayDefine (bodyTextOf env site) = true

/-- What a `def` gives to the class around it, on the track of its instances or of the class
object. -/
inductive DefGives (env : WalkEnv) (inSingleton : Bool) (site : DefSite) : Bool → String → Prop
  | itself : DefGives env inSingleton site (inSingleton || site.onSelf) site.name
  | missing {track : Bool} {name : String} :
      isMethodMissing site.name = true → DefGives env inSingleton site track name
  | literal {body : Node} {name : String} :
      ScansBody env site body → BodyInstalls body name → DefGives env inSingleton site false name
  | unread {body : Node} {track : Bool} {name : String} :
      ScansBody env site body → BodyOpens body → DefGives env inSingleton site track name
  | nested {body s : Node} {inner : DefSite} :
      (inSingleton || site.onSelf) = false → ScansBody env site body → Scanned body s →
      s.asCall = none → s.asDef = some inner → DefGives env inSingleton site false inner.name

/-- A call of a class body on the class itself, without a block. -/
structure CallSite.IsMacro (call : CallSite) : Prop where
  receiver : call.receiver = none
  noBlock : call.hasBlockNode = false

/-- A call with one of these names gives what its arguments say; a call with another name may
give anything. -/
def leavesClosed (name : String) : Bool :=
  isAttrName name || name = "define_method" || name = "alias_method" || isVisibilityName name ||
    isNoOpName name || definesNoMethod name || isMixinName name

inductive CallGives (env : WalkEnv) (inSingleton : Bool) (call : CallSite) : Bool → String → Prop
  | attr {arg : Node} {m : String} {accessor : String × ℕ} :
      call.IsMacro → isAttrName call.name = true → arg ∈ call.arguments →
      arg.symbolName = some m → accessor ∈ attrPair call.name m →
      CallGives env inSingleton call inSingleton accessor.1
  | attrUnread {arg : Node} {track : Bool} {name : String} :
      call.IsMacro → isAttrName call.name = true → arg ∈ call.arguments → arg.symbolName = none →
      CallGives env inSingleton call track name
  | defineMethod {name : String} :
      call.receiver = none → call.name = "define_method" → call.firstLiteralName = some name →
      CallGives env inSingleton call inSingleton name
  | defineUnread {track : Bool} {name : String} :
      call.receiver = none → call.name = "define_method" → call.firstLiteralName = none →
      CallGives env inSingleton call track name
  | aliasMethod {name : String} :
      call.IsMacro → call.name = "alias_method" →
      call.arguments.head?.bind Node.symbolName = some name →
      CallGives env inSingleton call inSingleton name
  | aliasUnread {track : Bool} {name : String} :
      call.IsMacro → call.name = "alias_method" →
      call.arguments.head?.bind Node.symbolName = none → CallGives env inSingleton call track name
  | modified {arg : Node} {site : DefSite} {track : Bool} {name : String} :
      call.IsMacro → isVisibilityName call.name = true → arg ∈ call.arguments →
      arg.asDef = some site → DefGives env inSingleton site track name →
      CallGives env inSingleton call track name
  | mixinUnread {arg : Node} {track : Bool} {name : String} :
      call.IsMacro → isMixinName call.name = true → arg ∈ call.arguments →
      arg.constPathStr = none → ¬ (arg.isSelf = true ∧ call.name = "extend") →
      CallGives env inSingleton call track name
  | unknown {track : Bool} {name : String} :
      call.IsMacro → leavesClosed call.name = false → CallGives env inSingleton call track name
  | block {track : Bool} {name : String} :
      call.hasBlockNode = true →
      (singletonClassOwner call).filter (fun _ ↦ isSingletonClassPatch call.name) = none →
      call.receiver.isSome ∨ call.name ≠ "define_method" ∧ call.name ≠ "sig" →
      CallGives env inSingleton call track name

/-- What a statement of a class body gives to the class. -/
inductive Gives (env : WalkEnv) (inSingleton : Bool) : Node → Bool → String → Prop
  | method {s : Node} {site : DefSite} {track : Bool} {name : String} :
      s.asDef = some site → DefGives env inSingleton site track name →
      Gives env inSingleton s track name
  | call {s : Node} {call : CallSite} {track : Bool} {name : String} :
      s.asCall = some call → CallGives env inSingleton call track name →
      Gives env inSingleton s track name
  | aliased {loc : Span} {newName oldName : Node} {name : String} :
      newName.symbolName = some name →
      Gives env inSingleton (.aliasMethodNode loc newName oldName) inSingleton name
  | singletonClass {loc : Span} {expression : Node} {body : Option Node} {track : Bool}
      {name : String} :
      expression.isSelf = false →
      Gives env inSingleton (.singletonClassNode loc expression body) track name

/-- The fragment has the method on the track, or is open for another reason than an abstract
method. -/
def ClassFragment.Has (frag : ClassFragment) (track : Bool) (name : String) : Prop :=
  frag.OpensUnmasked ∨
    ∃ md ∈ if track then frag.singletonMethods else frag.methods, md.name = name

theorem ClassFragment.Has.grows {f f' : ClassFragment} {track : Bool} {name : String}
    (h : f.Has track name) (hgrows : f.Grows f') : f'.Has track name := by
  rcases h with ⟨reason, hreason, hground⟩ | ⟨md, hmd, hname⟩
  · exact .inl ⟨reason, hreason, hgrows.grounds.subset hground⟩
  · refine .inr ⟨md, ?_, hname⟩
    cases track with
    | false => exact hgrows.methods.subset hmd
    | true => exact hgrows.singletonMethods.subset hmd

/-! ### The walk of a statement -/

namespace DefWalker

variable {w w' : DefWalker}

/-- On the way from one walk to a later one, the fragment is opened or gets the method. -/
inductive GivesOn (w w' : DefWalker) (i : ℕ) (track : Bool) (name : String) : Prop
  | opens {w₁ : DefWalker} {reason : OpenReason} :
      w.Grows w₁ → reason ≠ .abstractRaise → (w₁.openClass i reason).Grows w' →
      GivesOn w w' i track name
  | files {w₁ : DefWalker} {defs : List MethodDef} {md : MethodDef} :
      w.Grows w₁ → md ∈ defs → md.name = name → (w₁.fileTrack i track defs).Grows w' →
      GivesOn w w' i track name

namespace GivesOn

variable {i : ℕ} {track : Bool} {name : String}

theorem within {v v' : DefWalker} (h : GivesOn w w' i track name) (hbefore : v.Grows w)
    (hafter : w'.Grows v') : GivesOn v v' i track name := by
  cases h with
  | opens hgrows hreason hreach => exact .opens (hbefore.trans hgrows) hreason (hreach.trans hafter)
  | files hgrows hmd hname hreach =>
    exact .files (hbefore.trans hgrows) hmd hname (hreach.trans hafter)

theorem openClass {reason : OpenReason} (hreason : reason ≠ .abstractRaise) (w : DefWalker) :
    GivesOn w (w.openClass i reason) i track name := .opens (.refl w) hreason (.refl _)

theorem fileTrack {defs : List MethodDef} {md : MethodDef} (hmd : md ∈ defs)
    (hname : md.name = name) (w : DefWalker) :
    GivesOn w (w.fileTrack i track defs) i track name := .files (.refl w) hmd hname (.refl _)

/-- What is done at a place of the walk is done to a fragment of the class there. -/
theorem has {ctx : WalkCtx} {p : BodyPlace} (h : GivesOn w w' i track name) (hat : ctx.At p w)
    (hscope : p.scope ≠ []) (hi : ctx.fragIdx = some i) :
    ∃ frag ∈ w'.fragments, frag.path = p.scope ∧ frag.declaredOwnerRequired = false ∧
      frag.Has track name := by
  have hkept {w₁ : DefWalker} (hreach : w₁.Grows w')
      (h₁ : ∃ frag ∈ w₁.fragments, frag.path = p.scope ∧ frag.declaredOwnerRequired = false ∧
        frag.Has track name) :
      ∃ frag ∈ w'.fragments, frag.path = p.scope ∧ frag.declaredOwnerRequired = false ∧
        frag.Has track name := by
    obtain ⟨frag, hfrag, hpath, hfree, hhas⟩ := h₁
    obtain ⟨j, hj⟩ := List.mem_iff_getElem?.mp hfrag
    obtain ⟨frag', hfrag', hgrows⟩ := hreach.fragments j frag hj
    exact ⟨frag', List.mem_of_getElem? hfrag', hgrows.path.trans hpath,
      hgrows.declaredOwnerRequired.trans hfree, hhas.grows hgrows⟩
  cases h with
  | @opens w₁ reason hgrows hreason hreach =>
    refine hkept hreach (modifyFragment_reaches (hat.later hgrows) hscope hi
      (fun f ↦ f.openWith_grows reason) fun f ↦ .inl ⟨reason, hreason, ?_⟩)
    exact List.mem_append_right _ List.mem_cons_self
  | @files w₁ defs md hgrows hmd hname hreach =>
    refine hkept hreach (modifyFragment_reaches (hat.later hgrows) hscope hi
      (fun f ↦ f.pushTracks_grows track defs) fun f ↦ .inr ⟨md, ?_, hname⟩)
    cases track with
    | false => exact List.mem_append_right _ hmd
    | true => exact List.mem_append_right _ hmd

end GivesOn

/-! ### Definitions -/

theorem methodMissing_ne : OpenReason.methodMissing ≠ .abstractRaise := by decide

section Body

variable (env : WalkEnv) (i : ℕ) (nesting : List ConstPath) (treatedAsSingleton : Bool)
  {site : DefSite} {body : Node}

theorem applyBodyDefs_literal (hbody : site.body = some body) {name : String}
    (h : BodyInstalls body name) (w : DefWalker) :
    GivesOn w (w.applyBodyDefs i nesting treatedAsSingleton site.loc (dynamicDefsInBody env site))
      i false name := by
  obtain ⟨hscanned, hcall, htarget, hreason, hlit, htrack⟩ := h
  rename_i s call lit
  have hentry := BodyDefs.dynamicDefsInBody_literal env hbody hscanned hcall htarget hreason hlit
  obtain ⟨w', hgrows, hreach⟩ := (applyBodyDefs_reaches i nesting treatedAsSingleton site.loc
    (dynamicDefsInBody env site) w).2.1 _ hentry
  refine GivesOn.within ?_ hgrows hreach
  unfold applyBodyDef
  dsimp only
  rw [htrack]
  split_ifs
  · exact .fileTrack List.mem_cons_self rfl w'
  · exact .openClass (by decide) w'

theorem applyBodyDefs_unread (hbody : site.body = some body) (h : BodyOpens body) (track : Bool)
    (name : String) (w : DefWalker) :
    GivesOn w (w.applyBodyDefs i nesting treatedAsSingleton site.loc (dynamicDefsInBody env site))
      i track name := by
  have hdefs := applyBodyDefs_reaches i nesting treatedAsSingleton site.loc
    (dynamicDefsInBody env site) w
  cases h with
  | dynamic hscanned hcall htarget hreason =>
    obtain ⟨reason', hentry⟩ :=
      BodyDefs.dynamicDefsInBody_opens env hbody hscanned hcall htarget hreason
    obtain ⟨w', hgrows, hreach⟩ := hdefs.1 _ hentry
    exact (GivesOn.openClass (BodyDefs.dynamicDefsInBody_unmasked env site _ hentry) w').within
      hgrows hreach
  | methodMissing hscanned hcall hdef hmissing =>
    obtain ⟨nd, hnd, hname⟩ := BodyDefs.dynamicDefsInBody_nestedDef env hbody hscanned hcall hdef
    obtain ⟨w', hgrows, hreach⟩ := hdefs.2.2 nd hnd
    refine (GivesOn.openClass methodMissing_ne w').within hgrows (Grows.trans ?_ hreach)
    unfold applyNestedDef
    rw [hname, if_pos hmissing]
    dsimp only
    split_ifs
    · exact fileTrack_grows _ i true _
    · exact openClass_grows _ i _
    · exact fileTrack_grows _ i false _

theorem applyBodyDefs_nested (hbody : site.body = some body) {s : Node} {inner : DefSite}
    (hscanned : Scanned body s) (hcall : s.asCall = none) (hdef : s.asDef = some inner)
    (w : DefWalker) :
    GivesOn w (w.applyBodyDefs i nesting false site.loc (dynamicDefsInBody env site)) i false
      inner.name := by
  obtain ⟨nd, hnd, hname⟩ := BodyDefs.dynamicDefsInBody_nestedDef env hbody hscanned hcall hdef
  obtain ⟨w', hgrows, hreach⟩ := (applyBodyDefs_reaches i nesting false site.loc
    (dynamicDefsInBody env site) w).2.2 nd hnd
  refine GivesOn.within ?_ (hgrows.trans
    (w'.openIf_grows (isMethodMissing nd.md.name) i .methodMissing)) hreach
  unfold applyNestedDef
  dsimp only
  rw [if_neg Bool.false_ne_true]
  generalize (if isMethodMissing nd.md.name = true then _ else w') = w₂
  split_ifs
  · exact .openClass (show OpenReason.nestedDefOwner ≠ .abstractRaise by decide) w₂
  · exact .fileTrack List.mem_cons_self hname w₂

end Body

variable (env : WalkEnv) {ctx : WalkCtx} {i : ℕ}

theorem scanDef_missing {site : DefSite} (hmissing : isMethodMissing site.name = true)
    (treatedAsSingleton track : Bool) (name : String) (w : DefWalker) :
    GivesOn w (w.scanDef env ctx i site treatedAsSingleton) i track name := by
  refine (GivesOn.openClass methodMissing_ne w).within (.refl w) ?_
  unfold scanDef
  rw [if_pos hmissing]
  dsimp only
  refine Grows.trans ?_ (openIf_grows _ _ i .abstractRaise)
  split_ifs
  · exact applyBodyDefs_grows _ i ctx.nesting treatedAsSingleton site.loc _
  · exact .refl _

section Filed

variable (hi : ctx.fragIdx = some i)

include hi

theorem walkDef_eq (site : DefSite) (w : DefWalker) :
    w.walkDef env ctx site =
      let md : MethodDef := { (w.methodDef env site).2 with
        abstractStub := (env.text.slice site.loc).contains "NotImplementedError" }
      let w := (w.methodDef env site).1.scanDef env ctx i site (ctx.inSingleton || site.onSelf)
      if (ctx.inSingleton || site.onSelf) = true then (w.fileTrack i true [md]).harvestHooks i site
      else w.fileTrack i false [md] := by
  unfold walkDef
  rw [hi]
  rfl

/-- The walk of a `def` scans it and then files it. -/
theorem walkDef_steps (site : DefSite) (w : DefWalker) :
    ∃ w₁ md, w.Grows w₁ ∧ md.name = site.name ∧
      ((w₁.scanDef env ctx i site (ctx.inSingleton || site.onSelf)).fileTrack i
        (ctx.inSingleton || site.onSelf) [md]).Grows (w.walkDef env ctx site) := by
  have hname : (w.methodDef env site).2.name = site.name :=
    buildMethodDef_name env site w.pendingSorbetRet
  refine ⟨(w.methodDef env site).1, { (w.methodDef env site).2 with
    abstractStub := (env.text.slice site.loc).contains "NotImplementedError" },
    w.methodDef_grows env site, hname, ?_⟩
  rw [walkDef_eq env hi]
  dsimp only
  split_ifs with htreated
  · rw [htreated]
    exact harvestHooks_grows _ i site
  · rw [Bool.not_eq_true] at htreated
    rw [htreated]
    exact .refl _

theorem walkDef_gives {site : DefSite} {track : Bool} {name : String}
    (h : DefGives env ctx.inSingleton site track name) (w : DefWalker) :
    GivesOn w (w.walkDef env ctx site) i track name := by
  obtain ⟨w₁, md, hgrows, hmd, hreach⟩ := walkDef_steps env hi site w
  have hfiled := (fileTrack_grows (w₁.scanDef env ctx i site (ctx.inSingleton || site.onSelf)) i
    (ctx.inSingleton || site.onSelf) [md]).trans hreach
  have hscan {body : Node} (hscans : ScansBody env site body) {track : Bool} {name : String}
      (hbody : ∀ w₂ : DefWalker, GivesOn w₂ (w₂.applyBodyDefs i ctx.nesting
        (ctx.inSingleton || site.onSelf) site.loc (dynamicDefsInBody env site)) i track name) :
      GivesOn w (w.walkDef env ctx site) i track name := by
    obtain ⟨w₂, hbefore, hafter⟩ :=
      scanDef_reaches env ctx i hscans.may (ctx.inSingleton || site.onSelf) w₁
    exact (hbody w₂).within (hgrows.trans hbefore) (hafter.trans hfiled)
  cases h with
  | itself =>
    exact (GivesOn.fileTrack List.mem_cons_self hmd _).within
      (hgrows.trans (w₁.scanDef_grows env ctx i site _)) hreach
  | missing hmissing =>
    exact (scanDef_missing env hmissing _ track name w₁).within hgrows hfiled
  | literal hscans hinstalls =>
    exact hscan hscans (applyBodyDefs_literal env i ctx.nesting _ hscans.hasBody hinstalls)
  | unread hscans hopens =>
    exact hscan hscans (applyBodyDefs_unread env i ctx.nesting _ hscans.hasBody hopens track name)
  | nested hinstance hscans hscanned hcall hdef =>
    refine hscan hscans ?_
    rw [hinstance]
    exact applyBodyDefs_nested env i ctx.nesting hscans.hasBody hscanned hcall hdef

end Filed

/-! ### Calls -/

theorem walkAttr_gives {call : CallSite} {arg : Node} {m : String} {accessor : String × ℕ}
    (harg : arg ∈ call.arguments) (hsymbol : arg.symbolName = some m)
    (haccessor : accessor ∈ attrPair call.name m) (inSingleton : Bool) (w : DefWalker) :
    GivesOn w (w.walkAttr i inSingleton call) i inSingleton accessor.1 := by
  have hmd : MethodDef.synthetic accessor.1 accessor.2 arg.loc ∈ attrMethods call.name
      (call.arguments.filterMap fun arg ↦ arg.symbolName.map fun name ↦ (name, arg.loc)) := by
    refine List.mem_flatMap.mpr ⟨(m, arg.loc), List.mem_filterMap.mpr ⟨arg, harg, ?_⟩, ?_⟩
    · rw [hsymbol, Option.map_some]
    · exact List.mem_map.mpr ⟨accessor, haccessor, rfl⟩
  refine GivesOn.within (GivesOn.fileTrack hmd rfl w) (.refl w) ?_
  unfold walkAttr
  dsimp only
  split_ifs
  · exact .refl _
  · exact openClass_grows _ i _

theorem walkAttr_opens {call : CallSite} {arg : Node} (harg : arg ∈ call.arguments)
    (hsymbol : arg.symbolName = none) (inSingleton track : Bool) (name : String) (w : DefWalker) :
    GivesOn w (w.walkAttr i inSingleton call) i track name := by
  have hunread : ¬ (call.arguments.all fun arg ↦ arg.symbolName.isSome) = true := by
    intro hall
    have hread := List.all_eq_true.mp hall arg harg
    rw [hsymbol] at hread
    cases hread
  unfold walkAttr
  dsimp only
  rw [if_neg hunread]
  exact (GivesOn.openClass (show OpenReason.dynamicAttrArg ≠ .abstractRaise by decide) _).within
    (w.fileTrack_grows i inSingleton _) (.refl _)

theorem walkDefineMethod_gives {call : CallSite} {name : String}
    (hliteral : call.firstLiteralName = some name) (w : DefWalker) :
    GivesOn w (w.walkDefineMethod ctx i call) i ctx.inSingleton name := by
  unfold walkDefineMethod
  rw [hliteral]
  exact .fileTrack List.mem_cons_self rfl w

theorem walkDefineMethod_opens {call : CallSite} (hliteral : call.firstLiteralName = none)
    (track : Bool) (name : String) (w : DefWalker) :
    GivesOn w (w.walkDefineMethod ctx i call) i track name := by
  unfold walkDefineMethod
  rw [hliteral]
  exact .openClass (by decide) w

theorem walkAliasMethod_gives {call : CallSite} {name : String}
    (hsymbol : call.arguments.head?.bind Node.symbolName = some name) (w : DefWalker) :
    GivesOn w (w.walkAliasMethod ctx i call) i ctx.inSingleton name := by
  unfold walkAliasMethod
  rw [hsymbol]
  exact .fileTrack List.mem_cons_self rfl w

theorem walkAliasMethod_opens {call : CallSite}
    (hsymbol : call.arguments.head?.bind Node.symbolName = none) (track : Bool) (name : String)
    (w : DefWalker) : GivesOn w (w.walkAliasMethod ctx i call) i track name := by
  unfold walkAliasMethod
  rw [hsymbol]
  exact .openClass (by decide) w

theorem fileAccessors_opens (singleton instance' : List MethodDef) (allKnown track : Bool)
    (name : String) (w : DefWalker) :
    GivesOn w (w.fileAccessors i singleton instance' allKnown) i track name := by
  refine (GivesOn.openClass (show OpenReason.unknownClassBodyCall ≠ .abstractRaise by decide)
    _).within ((w.fileTrack_grows i true singleton).trans (fileTrack_grows _ i false instance')) ?_
  unfold fileAccessors
  dsimp only
  split_ifs
  · exact .refl _
  · exact openClass_grows _ i _

theorem walkMixinArg_opens {call : CallSite} {arg : Node} (harg : arg ∈ call.arguments)
    (hpath : arg.constPathStr = none) (hself : ¬ (arg.isSelf = true ∧ call.name = "extend"))
    (track : Bool) (name : String) (w : DefWalker) :
    GivesOn w (call.arguments.foldl (walkMixinArg ctx i call.name) w) i track name := by
  obtain ⟨w', hgrows, hreach⟩ :=
    Grows.foldl_reaches (fun w arg ↦ w.walkMixinArg_grows ctx i call.name arg) harg w
  refine GivesOn.within ?_ hgrows hreach
  unfold walkMixinArg
  rw [hpath]
  dsimp only
  rw [if_neg fun h ↦ hself ⟨h.1, h.2.1⟩]
  exact .openClass (by decide) w'

theorem walkVisibility_gives (hi : ctx.fragIdx = some i) {call : CallSite} {arg : Node}
    {site : DefSite} (harg : arg ∈ call.arguments) (hdef : arg.asDef = some site) {track : Bool}
    {name : String} (h : DefGives env ctx.inSingleton site track name) (w : DefWalker) :
    GivesOn w (w.walkVisibility env ctx i call) i track name := by
  have hsite : site ∈ call.arguments.filterMap Node.asDef :=
    List.mem_filterMap.mpr ⟨arg, harg, hdef⟩
  have hfold (v : DefWalker) :
      GivesOn v ((call.arguments.filterMap Node.asDef).foldl
        (fun w site ↦ w.walkDef env ctx site) v) i track name := by
    obtain ⟨w', hgrows, hreach⟩ :=
      Grows.foldl_reaches (fun w site ↦ w.walkDef_grows env ctx site) hsite v
    exact (walkDef_gives env hi h w').within hgrows hreach
  unfold walkVisibility
  dsimp only
  split_ifs
  · refine (hfold _).within (w.modifyFragment_grows i fun f ↦ f.addExtends_grows _) (.refl _)
  · exact hfold w

theorem walkBlockCall_opens {call : CallSite}
    (hname : call.receiver.isSome ∨ call.name ≠ "define_method" ∧ call.name ≠ "sig")
    (track : Bool) (name : String) (w : DefWalker) :
    GivesOn w (w.walkBlockCall env ctx i call) i track name := by
  have hne : OpenReason.classBodyBlock ≠ .abstractRaise := by decide
  have hother (m : String) (hm : m = "define_method" ∨ m = "sig") :
      ¬ (call.name = m ∧ call.receiver.isNone) := by
    rintro ⟨rfl, hnone⟩
    rcases hname with hsome | ⟨hdefine, hsig⟩
    · rw [Option.isNone_iff_eq_none.mp hnone] at hsome
      cases hsome
    · exact hm.elim hdefine hsig
  unfold walkBlockCall
  rw [if_neg (hother _ (.inl rfl)), if_neg (hother _ (.inr rfl))]
  split_ifs
  · exact (GivesOn.openClass hne _).within (w.harvestClassMethodsBlock_grows env i ctx call)
      (.refl _)
  · exact (GivesOn.openClass hne _).within (((w.harvestBlockConsts_grows i call).trans
      (harvestBlockNestedDefinitions_grows _ ctx call)).trans
        (harvestInterpolatedEvalDefs_grows _ _ i call)) (.refl _)

theorem leavesClosed_eq_false {name : String} (h : leavesClosed name = false) :
    isAttrName name = false ∧ name ≠ "define_method" ∧ name ≠ "alias_method" ∧
      isVisibilityName name = false ∧ isNoOpName name = false ∧ definesNoMethod name = false ∧
      isMixinName name = false := by
  simpa [leavesClosed, and_assoc] using h

theorem walkMacro_opens {call : CallSite} (h : leavesClosed call.name = false) (track : Bool)
    (name : String) (w : DefWalker) :
    GivesOn w (w.walkMacro env ctx i call) i track name := by
  obtain ⟨hattr, hdefine, halias, hvisibility, hnoOp, hnone, -⟩ := leavesClosed_eq_false h
  have hmixes : w.Grows (w.modifyFragment i fun f ↦
      { f with
        mixesInClassMethods :=
          f.mixesInClassMethods ++ call.arguments.filterMap Node.constPathStr }) :=
    w.modifyFragment_grows i fun f ↦ f.edit_grows _ _ _ _ _ _
  simp only [walkMacro, hattr, hdefine, halias, hvisibility, hnoOp, hnone, Bool.false_eq_true,
    if_false, Bool.or_self]
  split_ifs
  · exact fileAccessors_opens _ _ _ track name w
  · exact fileAccessors_opens _ _ _ track name w
  · exact .openClass (by decide) w
  · exact (GivesOn.openClass (show OpenReason.unknownClassBodyCall ≠ .abstractRaise by decide)
      _).within hmixes (.refl _)
  · exact .openClass (by decide) w

/-- A call on the class itself that is no mixin and no `require` is read by its name. -/
theorem walkCall_bare (hi : ctx.fragIdx = some i) {call : CallSite} (hbare : call.IsMacro)
    (hmixin : isMixinName call.name = false) (hrequire : call.name ≠ "require") (w : DefWalker) :
    w.walkCall env ctx call = w.walkMacro env ctx i call := by
  obtain ⟨hreceiver, hblock⟩ := hbare
  have howner : singletonClassOwner call = none := by
    unfold singletonClassOwner
    rw [hreceiver]
  have hself : call.receiverIsSelf = false := by
    unfold CallSite.receiverIsSelf
    rw [hreceiver]
  simp [walkCall, howner, hself, hreceiver, hblock, hmixin, hrequire, hi]

theorem walkCall_mixin (hi : ctx.fragIdx = some i) {call : CallSite} (hbare : call.IsMacro)
    (hmixin : isMixinName call.name = true) (w : DefWalker) :
    w.walkCall env ctx call = call.arguments.foldl (walkMixinArg ctx i call.name) w := by
  obtain ⟨hreceiver, hblock⟩ := hbare
  have howner : singletonClassOwner call = none := by
    unfold singletonClassOwner
    rw [hreceiver]
  have hself : call.receiverIsSelf = false := by
    unfold CallSite.receiverIsSelf
    rw [hreceiver]
  simp [walkCall, walkMixin, howner, hself, hreceiver, hblock, hmixin, hi]

theorem walkCall_block (hi : ctx.fragIdx = some i) {call : CallSite}
    (hblock : call.hasBlockNode = true)
    (hpatch : (singletonClassOwner call).filter (fun _ ↦ isSingletonClassPatch call.name) = none)
    (w : DefWalker) :
    ∃ w', w.Grows w' ∧ w.walkCall env ctx call = w'.walkBlockCall env ctx i call := by
  refine ⟨_, w.noteCoreMixin_grows (call.receiver.any fun receiver ↦
    coreInjectionCall env.toFrontend receiver call.name), ?_⟩
  unfold walkCall
  dsimp only
  rw [hpatch]
  dsimp only
  rw [if_pos hblock, hi]

theorem not_mixin_of_attr {name : String} (h : isAttrName name = true) :
    isMixinName name = false ∧ name ≠ "require" := by
  have hname : name = "attr_reader" ∨ name = "attr_writer" ∨ name = "attr_accessor" := by
    simpa [isAttrName] using h
  rcases hname with rfl | rfl | rfl
  · decide
  · decide
  · decide

theorem walkCall_visibility (hi : ctx.fragIdx = some i) {call : CallSite}
    (hbare : call.IsMacro) (hvisibility : isVisibilityName call.name = true) (w : DefWalker) :
    w.walkCall env ctx call = w.walkVisibility env ctx i call := by
  have hname : call.name = "private" ∨ call.name = "public" ∨ call.name = "protected" ∨
      call.name = "module_function" ∨ call.name = "private_class_method" ∨
      call.name = "public_class_method" := by
    simpa [isVisibilityName] using hvisibility
  have hmixin : isMixinName call.name = false ∧ call.name ≠ "require" := by
    rcases hname with h | h | h | h | h | h
    all_goals
      rw [h]
      decide
  rw [walkCall_bare env hi hbare hmixin.1 hmixin.2]
  rcases hname with h | h | h | h | h | h
  all_goals simp [walkMacro, h, isAttrName, isMattrName, isVisibilityName]

theorem walkCall_defineMethod (hi : ctx.fragIdx = some i) {call : CallSite}
    (hreceiver : call.receiver = none) (hname : call.name = "define_method") (w : DefWalker) :
    w.walkCall env ctx call = w.walkDefineMethod ctx i call := by
  by_cases hblock : call.hasBlockNode = true
  · have howner : singletonClassOwner call = none := by
      unfold singletonClassOwner
      rw [hreceiver]
    simp [walkCall, walkBlockCall, howner, hreceiver, hblock, hname, hi]
  · rw [Bool.not_eq_true] at hblock
    rw [walkCall_bare env hi ⟨hreceiver, hblock⟩ (by rw [hname]; decide) (by rw [hname]; decide)]
    simp [walkMacro, hname, isAttrName, isMattrName]

theorem walkCall_aliasMethod (hi : ctx.fragIdx = some i) {call : CallSite}
    (hbare : call.IsMacro) (hname : call.name = "alias_method") (w : DefWalker) :
    w.walkCall env ctx call = w.walkAliasMethod ctx i call := by
  rw [walkCall_bare env hi hbare (by rw [hname]; decide) (by rw [hname]; decide)]
  simp [walkMacro, hname, isAttrName, isMattrName]

theorem walkCall_gives (hi : ctx.fragIdx = some i) {call : CallSite} {track : Bool} {name : String}
    (h : CallGives env ctx.inSingleton call track name) (w : DefWalker) :
    GivesOn w (w.walkCall env ctx call) i track name := by
  cases h with
  | attr hbare hattr harg hsymbol haccessor =>
    obtain ⟨hmixin, hrequire⟩ := not_mixin_of_attr hattr
    rw [walkCall_bare env hi hbare hmixin hrequire, walkMacro, if_pos hattr]
    exact walkAttr_gives harg hsymbol haccessor ctx.inSingleton w
  | attrUnread hbare hattr harg hsymbol =>
    obtain ⟨hmixin, hrequire⟩ := not_mixin_of_attr hattr
    rw [walkCall_bare env hi hbare hmixin hrequire, walkMacro, if_pos hattr]
    exact walkAttr_opens harg hsymbol ctx.inSingleton track name w
  | defineMethod hreceiver hname hliteral =>
    rw [walkCall_defineMethod env hi hreceiver hname]
    exact walkDefineMethod_gives hliteral w
  | defineUnread hreceiver hname hliteral =>
    rw [walkCall_defineMethod env hi hreceiver hname]
    exact walkDefineMethod_opens hliteral track name w
  | aliasMethod hbare hname hsymbol =>
    rw [walkCall_aliasMethod env hi hbare hname]
    exact walkAliasMethod_gives hsymbol w
  | aliasUnread hbare hname hsymbol =>
    rw [walkCall_aliasMethod env hi hbare hname]
    exact walkAliasMethod_opens hsymbol track name w
  | modified hbare hvisibility harg hdef hgives =>
    rw [walkCall_visibility env hi hbare hvisibility]
    exact walkVisibility_gives env hi harg hdef hgives w
  | unknown hbare hname =>
    obtain ⟨-, -, -, -, hnoOp, -, hmixin⟩ := leavesClosed_eq_false hname
    have hrequire : call.name ≠ "require" := by
      intro heq
      rw [heq] at hnoOp
      exact absurd hnoOp (by decide)
    rw [walkCall_bare env hi hbare hmixin hrequire]
    exact walkMacro_opens env hname track name w
  | mixinUnread hbare hmixin harg hpath hself =>
    rw [walkCall_mixin env hi hbare hmixin]
    exact walkMixinArg_opens harg hpath hself track name w
  | block hblock hpatch hname =>
    obtain ⟨w', hgrows, hwalk⟩ := walkCall_block env hi hblock hpatch w
    rw [hwalk]
    exact (walkBlockCall_opens env hname track name w').within hgrows (.refl _)

/-- The walk files what a statement of a class body gives, or opens the class. -/
theorem walk_gives (hi : ctx.fragIdx = some i) {s : Node} {track : Bool} {name : String}
    (h : Gives env ctx.inSingleton s track name) (w : DefWalker) :
    GivesOn w (walk env false s ctx w) i track name := by
  cases h with
  | method hdef hgives =>
    rw [walk_def env hdef]
    exact walkDef_gives env hi hgives w
  | call hcall hgives =>
    rw [walk_call env hcall]
    exact walkCall_gives env hi hgives w
  | aliased hsymbol =>
    rw [walk, walkAlias, hi, hsymbol]
    exact .fileTrack List.mem_cons_self rfl w
  | @singletonClass loc expression body _ _ hself =>
    have hopens (w₁ : DefWalker) : GivesOn w₁ (closeSingletonClass ctx w₁) i track name := by
      unfold closeSingletonClass
      rw [hi]
      exact .openClass (by decide) w₁
    rw [walk, if_neg (by rw [hself]; exact Bool.false_ne_true)]
    refine (hopens _).within ?_ (.refl _)
    cases expression.constPathStr with
    | none => exact .refl w
    | some owner =>
      dsimp only
      split_ifs
      · exact (w.enterSingletonClass_grows ctx owner).trans (walkBody_grows env body _ _)
      · exact .refl w

/-- The file keeps what a statement gives to the class that it stands in. -/
theorem walkFile_has {root s : Node} {q : BodyPlace} (hstands : Stands true root {} s q)
    (hinside : q.scope ≠ []) {track : Bool} {name : String}
    (hgives : Gives env q.inSingleton s track name) :
    ∃ frag ∈ (walkFile env root).fragments, frag.path = q.scope ∧
      frag.declaredOwnerRequired = false ∧ frag.Has track name := by
  obtain ⟨ctx, w, hat, hreach⟩ := walkFile_reaches env hstands
  obtain ⟨i, -, hi, -⟩ := hat.inside hinside
  have hwalk := walk_gives env hi (hat.inSingleton ▸ hgives) w
  exact (hwalk.within (.refl w) hreach).has hat hinside hi

end DefWalker

/-! ### No written method is missing -/

namespace ProjectIndex

variable {ix : ProjectIndex}

/-- A lookup on the class, or on the class object, reads a track of another class: on the way up,
below it, up from below it, or in what the class object is extended with. -/
inductive Consults (ix : ProjectIndex) (c : ClassId) : Bool → ClassId → Bool → Prop
  | chain {singleton : Bool} {chain : List ClassId} {a : ClassId} :
      (ix.ancestorChain c).Returns chain → a ∈ chain → Consults ix c singleton a singleton
  | below {singleton : Bool} {a : ClassId} :
      ix.Descendant c a → Consults ix c singleton a singleton
  | besides {d : ClassId} {chain : List ClassId} {a : ClassId} :
      ix.Descendant c d → (ix.classOf d).isOpen = false → (ix.ancestorChain d).Returns chain →
      a ∈ chain → Consults ix c false a false
  | extended {chain chain' : List ClassId} {b m a : ClassId} {ext : ConstPath} :
      (ix.ancestorChain c).Returns chain → b ∈ chain → ext ∈ (ix.classOf b).extends' →
      ix.resolveConst (ix.classOf b).nesting ext = some m → (ix.ancestorChain m).Returns chain' →
      a ∈ chain' → Consults ix c true a false

theorem ReadsThrough.holds {P : ClassId → Prop} {id : ClassId} (h : ix.ReadsThrough P id)
    {chain : List ClassId} (hchain : (ix.ancestorChain id).Returns chain) {a : ClassId}
    (ha : a ∈ chain) : P a := by
  obtain ⟨chain', hancestors, hall⟩ := h
  obtain rfl := hchain.unique (Fueled.returns_map.mpr ⟨_, hancestors, rfl⟩)
  exact hall a ha

/-- The class does not have the method on the track, and is not open for certain. -/
def Lacks (ix : ProjectIndex) (a : ClassId) (track : Bool) (name : String) : Prop :=
  ((ix.classOf a).isOpen = false ∨ (ix.classOf a).opaqueOpen = false) ∧
    (if track then (ix.classOf a).definesSingleton name else (ix.classOf a).defines name) = false

/-- What a lookup reads before it answers `NotFound`, it reads for nothing. -/
theorem lacks_of_notFound {c a : ClassId} {singleton track : Bool} {name : String}
    (h : (ix.lookupTrack singleton c name).Returns .notFound)
    (hconsults : ix.Consults c singleton a track) : ix.Lacks a track name := by
  cases hconsults with
  | chain hchain ha =>
    cases singleton with
    | false =>
      have hsilent := instanceSilent_of_notFound h hchain ha
      exact ⟨.inr hsilent.1, hsilent.2⟩
    | true =>
      have hsilent := singletonSilent_of_notFound h hchain ha
      exact ⟨.inl hsilent.1, hsilent.2.1⟩
  | below ha =>
    cases singleton with
    | false =>
      have hsilent := instanceSilent_of_familyMember ((lookupMethod_notFound_iff.mp h).2.2 a ha)
      exact ⟨.inr hsilent.1, hsilent.2⟩
    | true =>
      have hhit := (lookupSingleton_notFound_iff.mp h).2.2 a ha
      rw [descendantHit, Bool.or_eq_false_iff, if_pos rfl] at hhit
      exact ⟨.inl hhit.1, hhit.2⟩
  | besides hd hclosed hchain ha =>
    have hmember := familyMemberDefines_false_iff.mp ((lookupMethod_notFound_iff.mp h).2.2 _ hd)
    have hsilent := (hmember.2.2 hclosed).holds hchain ha
    exact ⟨.inr hsilent.1, hsilent.2⟩
  | extended hchain hb hext hresolves hchain' ha =>
    obtain ⟨-, -, hextends⟩ := singletonSilent_of_notFound h hchain hb
    obtain ⟨m', hm', hreads⟩ := hextends _ hext
    obtain rfl := Option.some.inj (hresolves.symm.trans hm')
    have hsilent := hreads.holds hchain' ha
    exact ⟨.inl hsilent.1, hsilent.2⟩

end ProjectIndex

end Itaruby
