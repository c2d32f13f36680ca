import Itaruby.Index.Hooks
import Itaruby.Walker.BodyScan
import Itaruby.Walker.Openness

/-!
The hooks of a module: what the walk reads of `def self.included(base)` and of
`def self.extended(base)`, and the classes that have it in the end. A hook runs for a class in
another file, so what is not read is missing far from its cause.
-/

set_option autoImplicit false
set_option relaxedAutoImplicit false

namespace Itaruby

open DefWalker

inductive HookKind
  | included
  | prepended
  | extended
  deriving DecidableEq, Repr

def HookKind.methodName : HookKind → String
  | .included => "included"
  | .prepended => "prepended"
  | .extended => "extended"

/-- A hook in the body of its module. -/
structure HookAt (root : Node) (kind : HookKind) (path : ConstPath) (site : DefSite)
    (body : Node) : Prop where
  stands : ∃ s p, Stands true root {} s p ∧ s.asDef = some site ∧ p.scope = path ∧
    (p.inSingleton = true ∨ ∃ receiver, site.receiver = some receiver ∧ receiver.isSelf = true)
  inside : path ≠ []
  name : site.name = kind.methodName
  hasBody : site.body = some body

/-- A hook that takes the base and nothing else. -/
structure ReadsHook (root : Node) (kind : HookKind) (path : ConstPath) (site : DefSite)
    (base : String) (body : Node) (stmts : List Node) : Prop extends
    HookAt root kind path site body where
  takes : hookReceiverParamName site = some base
  hasStmts : body.statementsOf = some stmts

/-! ### The shapes that are read -/

/-- The statement is a call on the base. -/
def CallsBase (base : String) (stmt : Node) (call : CallSite) : Prop :=
  stmt.asCall = some call ∧ call.receiver.any (hookParamRead base) = true

/-- What a statement of an `included` hook gives to the instances of the base. -/
inductive IncludedInstalls (base : String) : Node → String → Prop
  | attr {stmt : Node} {call : CallSite} {attrs : List (String × Span)} {md : MethodDef} :
      CallsBase base stmt call → isAttrName call.name = true →
      symbolArguments call.arguments = some attrs → md ∈ attrMethods call.name attrs →
      IncludedInstalls base stmt md.name
  | defineMethod {stmt : Node} {call : CallSite} {name : String} :
      CallsBase base stmt call → call.name = "define_method" →
      call.firstLiteralName = some name → IncludedInstalls base stmt name

def extendedEvalNames : List String := ["class_eval", "module_eval", "class_exec", "module_exec"]

/-- What a statement of an `extended` hook gives to the base, with a mark on what it gives to the
class object. -/
inductive ExtendedInstalls (base : String) : Node → Bool → String → Prop
  | defOn {stmt : Node} {site : DefSite} :
      stmt.asDef = some site → site.receiver.any (hookParamRead base) = true →
      ExtendedInstalls base stmt true site.name
  | delegate {stmt : Node} {call : CallSite} {names : List (String × Span)}
      {entry : String × Span} :
      CallsBase base stmt call → call.name = "delegate" →
      hookDelegateNames call.arguments = some names → entry ∈ names →
      ExtendedInstalls base stmt false entry.1
  | defineMethod {stmt : Node} {call : CallSite} {name : String} :
      CallsBase base stmt call → call.name = "define_method" →
      call.firstLiteralName = some name → ExtendedInstalls base stmt false name
  | defineSingletonMethod {stmt : Node} {call : CallSite} {name : String} :
      CallsBase base stmt call → call.name = "define_singleton_method" →
      call.firstLiteralName = some name → ExtendedInstalls base stmt true name
  | evalDef {stmt s : Node} {call : CallSite} {stmts : List Node} {site : DefSite} :
      CallsBase base stmt call → call.name ∈ extendedEvalNames → call.arguments = [] →
      call.blockStatements = some stmts → s ∈ stmts → s.asDef = some site →
      site.receiver = none → ExtendedInstalls base stmt false site.name
  | evalDefineMethod {stmt s : Node} {call inner : CallSite} {stmts : List Node}
      {name : String} :
      CallsBase base stmt call → call.name ∈ extendedEvalNames → call.arguments = [] →
      call.blockStatements = some stmts → s ∈ stmts → s.asCall = some inner →
      inner.name = "define_method" → inner.firstLiteralName = some name →
      ExtendedInstalls base stmt false name

/-- A statement of an `extended` hook after which the installs are unknown. -/
inductive ExtendedOpaque (base : String) : Node → Prop
  | delegate {stmt : Node} {call : CallSite} :
      CallsBase base stmt call → call.name = "delegate" →
      hookDelegateNames call.arguments = none → ExtendedOpaque base stmt
  | define {stmt : Node} {call : CallSite} :
      CallsBase base stmt call →
      call.name = "define_method" ∨ call.name = "define_singleton_method" →
      call.firstLiteralName = none → ExtendedOpaque base stmt
  | evalText {stmt : Node} {call : CallSite} :
      CallsBase base stmt call → call.name ∈ extendedEvalNames → call.arguments ≠ [] →
      ExtendedOpaque base stmt
  | evalSend {stmt s : Node} {call inner : CallSite} {stmts : List Node} :
      CallsBase base stmt call → call.name ∈ extendedEvalNames →
      call.blockStatements = some stmts → s ∈ stmts → s.asCall = some inner →
      isSendName inner.name = true → ExtendedOpaque base stmt
  | evalDefine {stmt s : Node} {call inner : CallSite} {stmts : List Node} :
      CallsBase base stmt call → call.name ∈ extendedEvalNames →
      call.blockStatements = some stmts → s ∈ stmts → s.asCall = some inner →
      inner.name = "define_method" → inner.firstLiteralName = none → ExtendedOpaque base stmt
  | send {stmt : Node} {call : CallSite} :
      CallsBase base stmt call →
      isSendName call.name = true ∨ call.name = "instance_eval" ∨ call.name = "instance_exec" →
      ExtendedOpaque base stmt

/-- The statement takes one read of the base for itself. -/
def consumesBase (base : String) (stmt : Node) : Bool :=
  match stmt.asDef with
  | some site => site.receiver.any (hookParamRead base)
  | none =>
    match stmt.asCall with
    | some call => call.receiver.any (hookParamRead base)
    | none => false

/-- What a hook gives, as far as it is read; the installs of an `extended` hook are unknown when
the base is read elsewhere, stored, passed on or used in a condition. -/
inductive HookInstalls (env : WalkEnv) (root : Node) : HookKind → ConstPath → Bool → String → Prop
  | included {path : ConstPath} {site : DefSite} {base name : String} {body stmt : Node}
      {stmts : List Node} :
      ReadsHook root .included path site base body stmts → stmt ∈ stmts →
      IncludedInstalls base stmt name → HookInstalls env root .included path false name
  | scanned {kind : HookKind} {path : ConstPath} {site : DefSite} {name : String} {body : Node} :
      kind ≠ .extended → HookAt root kind path site body →
      mayDefine (bodyTextOf env site) = true → BodyInstalls body name →
      HookInstalls env root kind path false name
  | opened {kind : HookKind} {path : ConstPath} {site : DefSite} {name : String} {body : Node}
      {singleton : Bool} :
      kind ≠ .extended → HookAt root kind path site body →
      mayDefine (bodyTextOf env site) = true → BodyOpens body →
      HookInstalls env root kind path singleton name
  | extended {path : ConstPath} {site : DefSite} {base name : String} {body stmt : Node}
      {stmts : List Node} {singleton : Bool} :
      ReadsHook root .extended path site base body stmts → stmt ∈ stmts →
      ExtendedInstalls base stmt singleton name →
      HookInstalls env root .extended path singleton name
  | unreadable {path : ConstPath} {site : DefSite} {base name : String} {body stmt : Node}
      {stmts : List Node} {singleton : Bool} :
      ReadsHook root .extended path site base body stmts → stmt ∈ stmts →
      ExtendedOpaque base stmt → HookInstalls env root .extended path singleton name
  | escapes {path : ConstPath} {site : DefSite} {base name : String} {body : Node}
      {stmts : List Node} {singleton : Bool} :
      ReadsHook root .extended path site base body stmts →
      stmts.countP (consumesBase base) < countLocalReads body base →
      HookInstalls env root .extended path singleton name

/-- The fragment is open for another reason than an abstract method. -/
def ClassFragment.OpensUnmasked (frag : ClassFragment) : Prop :=
  ∃ reason ≠ OpenReason.abstractRaise, { reason } ∈ frag.grounds

/-- What a fragment carries of a hook. -/
def ClassFragment.Carries (frag : ClassFragment) (kind : HookKind) (singleton : Bool)
    (name : String) : Prop :=
  match kind with
  | .extended =>
    frag.hookInstallsOpaque = true ∨
      ∃ install ∈ if singleton then frag.hookSingletonInstalls else frag.hookInstanceInstalls,
        install.1 = name
  | _ => frag.OpensUnmasked ∨ (singleton = false ∧ ∃ md ∈ frag.methods, md.name = name)

theorem ClassFragment.Carries.of_not_extended {frag : ClassFragment} {kind : HookKind}
    (hkind : kind ≠ .extended) {singleton : Bool} {name : String} :
    frag.Carries kind singleton name ↔
      frag.OpensUnmasked ∨ (singleton = false ∧ ∃ md ∈ frag.methods, md.name = name) := by
  cases kind with
  | included => exact Iff.rfl
  | prepended => exact Iff.rfl
  | extended => exact absurd rfl hkind

theorem ClassFragment.Carries.grows {f f' : ClassFragment} {kind : HookKind} {singleton : Bool}
    {name : String} (h : f.Carries kind singleton name) (hgrows : f.Grows f') :
    f'.Carries kind singleton name := by
  by_cases hkind : kind = .extended
  · subst hkind
    rcases h with hsealed | ⟨install, hinstall, hname⟩
    · exact .inl (hgrows.hookOpaque hsealed)
    · refine .inr ⟨install, ?_, hname⟩
      cases singleton with
      | false => exact hgrows.hookInstances.subset hinstall
      | true => exact hgrows.hookSingletons.subset hinstall
  · rw [Carries.of_not_extended hkind] at h ⊢
    rcases h with ⟨reason, hreason, hground⟩ | ⟨hsingleton, md, hmd, hname⟩
    · exact .inl ⟨reason, hreason, hgrows.grounds.subset hground⟩
    · exact .inr ⟨hsingleton, md, hgrows.methods.subset hmd, hname⟩

/-! ### The walk of a hook -/

namespace DefWalker

variable {w w' : DefWalker}

/-- The walk has a fragment of a class body that carries an install of its hook. -/
def CarriesAt (w : DefWalker) (path : ConstPath) (kind : HookKind) (singleton : Bool)
    (name : String) : Prop :=
  ∃ frag ∈ w.fragments, frag.path = path ∧ frag.declaredOwnerRequired = false ∧
    frag.Carries kind singleton name

theorem CarriesAt.grows {path : ConstPath} {kind : HookKind} {singleton : Bool} {name : String}
    (h : w.CarriesAt path kind singleton name) (hgrows : w.Grows w') :
    w'.CarriesAt path kind singleton name := by
  obtain ⟨frag, hfrag, hpath, hfree, hcarries⟩ := h
  obtain ⟨i, hi⟩ := List.mem_iff_getElem?.mp hfrag
  obtain ⟨frag', hfrag', hfragGrows⟩ := hgrows.fragments i frag hi
  exact ⟨frag', List.mem_of_getElem? hfrag', hfragGrows.path.trans hpath,
    hfragGrows.declaredOwnerRequired.trans hfree, hcarries.grows hfragGrows⟩

/-- A change of the fragment that the walk is in. -/
theorem modifyFragment_carriesAt {ctx : WalkCtx} {p : BodyPlace} (hat : ctx.At p w)
    (hscope : p.scope ≠ []) {i : ℕ} (hi : ctx.fragIdx = some i)
    {g : ClassFragment → ClassFragment} (hgrows : ∀ f : ClassFragment, f.Grows (g f))
    {kind : HookKind} {singleton : Bool} {name : String}
    (hg : ∀ f, (g f).Carries kind singleton name) :
    (w.modifyFragment i g).CarriesAt p.scope kind singleton name :=
  modifyFragment_reaches hat hscope hi hgrows hg

/-- An `included` hook is read statement by statement. -/
theorem harvestIncludedHook_carries {ctx : WalkCtx} {p : BodyPlace} (hat : ctx.At p w)
    (hscope : p.scope ≠ []) {i : ℕ} (hi : ctx.fragIdx = some i) {site : DefSite}
    {base name : String} {body stmt : Node} {stmts : List Node}
    (htakes : hookReceiverParamName site = some base) (hbody : site.body = some body)
    (hstmts : body.statementsOf = some stmts) (hstmt : stmt ∈ stmts)
    (hinstalls : IncludedInstalls base stmt name) :
    (w.harvestIncludedHook i site).CarriesAt p.scope .included false name := by
  unfold harvestIncludedHook
  rw [htakes, hbody, Option.bind_some, hstmts]
  obtain ⟨w', hgrows, hreach⟩ :=
    Grows.foldl_reaches (fun w stmt ↦ w.harvestIncludedStmt_grows i base stmt) hstmt w
  refine CarriesAt.grows ?_ hreach
  cases hinstalls with
  | @attr call attrs md hcalls hattr hsymbols hmd =>
    have hstep : harvestIncludedStmt i base w' stmt =
        w'.fileTrack i false (attrMethods call.name attrs) := by
      simp [harvestIncludedStmt, hcalls.1, hcalls.2, hattr, hsymbols]
    rw [hstep]
    exact modifyFragment_carriesAt (hat.later hgrows) hscope hi
      (fun f ↦ f.pushTracks_grows false _)
      fun f ↦ .inr ⟨rfl, md, List.mem_append_right _ hmd, rfl⟩
  | @defineMethod call _ hcalls hname hliteral =>
    have hstep : harvestIncludedStmt i base w' stmt =
        w'.fileTrack i false
          [{ MethodDef.synthetic name 0 stmt.loc with arityUnknown := true }] := by
      simp [harvestIncludedStmt, hcalls.1, hcalls.2, hname, hliteral, isAttrName]
    rw [hstep]
    exact modifyFragment_carriesAt (hat.later hgrows) hscope hi
      (fun f ↦ f.pushTracks_grows false _)
      fun f ↦ .inr ⟨rfl, _, List.mem_append_right _ List.mem_cons_self, rfl⟩

theorem harvestExtendedStmt_call (w : DefWalker) (i : ℕ) {base : String} {stmt : Node}
    {call : CallSite} (hcalls : CallsBase base stmt call) :
    (harvestExtendedStmt i base w stmt).1 = w.harvestExtendedCall i call := by
  simp [harvestExtendedStmt, Node.asDef_of_asCall hcalls.1, hcalls.1, hcalls.2]

theorem harvestExtendedCall_eval (w : DefWalker) (i : ℕ) {call : CallSite}
    (hname : call.name ∈ extendedEvalNames) :
    w.harvestExtendedCall i call =
      if !call.arguments.isEmpty then w.hookOpaque i
      else (call.blockStatements.getD []).foldl (harvestExtendedEvalStmt i) w := by
  have hother (m : String) (hm : m ∉ extendedEvalNames) : call.name ≠ m :=
    fun heq ↦ hm (heq ▸ hname)
  have heval : call.name ∈ ["class_eval", "module_eval", "class_exec", "module_exec"] := hname
  unfold harvestExtendedCall
  rw [if_neg (hother _ (by decide)), if_neg (hother _ (by decide)),
    if_neg (hother _ (by decide)), if_pos heval]

theorem harvestExtendedCall_send (w : DefWalker) (i : ℕ) {call : CallSite}
    (hname : isSendName call.name = true ∨ call.name = "instance_eval" ∨
      call.name = "instance_exec") : w.harvestExtendedCall i call = w.hookOpaque i := by
  have hmem : call.name ∈ ["send", "public_send", "__send__", "instance_eval", "instance_exec"] := by
    rcases hname with hname | hname | hname
    · have hsend : call.name ∈ ["send", "public_send", "__send__"] := by
        simpa [isSendName] using hname
      exact List.mem_append_left ["instance_eval", "instance_exec"] hsend
    · simp [hname]
    · simp [hname]
  have hother (m : String)
      (hm : m ∉ ["send", "public_send", "__send__", "instance_eval", "instance_exec"]) :
      call.name ≠ m := fun heq ↦ hm (heq ▸ hmem)
  have heval : call.name ∉ ["class_eval", "module_eval", "class_exec", "module_exec"] := by
    simp [hother]
  have hdynamic : (isSendName call.name || call.name = "instance_eval" ||
      call.name = "instance_exec") = true := by
    simpa [or_assoc] using hname
  unfold harvestExtendedCall
  rw [if_neg (hother _ (by decide)), if_neg (hother _ (by decide)),
    if_neg (hother _ (by decide)), if_neg heval, if_pos hdynamic]

/-- A statement of a literal block is read where it stands. -/
theorem harvestExtendedEvalStmt_reaches {i : ℕ} {call : CallSite} (hname : call.name ∈ extendedEvalNames)
    (harguments : call.arguments = []) {stmts : List Node}
    (hstmts : call.blockStatements = some stmts) {s : Node} (hs : s ∈ stmts) {path : ConstPath}
    {singleton : Bool} {name : String}
    (hcarries : ∀ w' : DefWalker, w.Grows w' →
      (harvestExtendedEvalStmt i w' s).CarriesAt path .extended singleton name) :
    (w.harvestExtendedCall i call).CarriesAt path .extended singleton name := by
  rw [harvestExtendedCall_eval w i hname, if_neg (by simp [harguments]), hstmts]
  obtain ⟨w', hgrows, hreach⟩ :=
    Grows.foldl_reaches (fun w stmt ↦ w.harvestExtendedEvalStmt_grows i stmt) hs w
  exact (hcarries w' hgrows).grows hreach

section Extended

variable {ctx : WalkCtx} {p : BodyPlace} (hscope : p.scope ≠ []) {i : ℕ}
  (hi : ctx.fragIdx = some i)

include hscope hi

theorem hookInstances_carries (hat : ctx.At p w) {names : List (String × Span)}
    {entry : String × Span} (hentry : entry ∈ names) :
    (w.hookInstances i names).CarriesAt p.scope .extended false entry.1 :=
  modifyFragment_carriesAt hat hscope hi (fun f ↦ f.addInstances_grows names)
    fun _ ↦ .inr ⟨entry, List.mem_append_right _ hentry, rfl⟩

theorem hookSingletons_carries (hat : ctx.At p w) {names : List (String × Span)}
    {entry : String × Span} (hentry : entry ∈ names) :
    (w.hookSingletons i names).CarriesAt p.scope .extended true entry.1 :=
  modifyFragment_carriesAt hat hscope hi (fun f ↦ f.addSingletons_grows names)
    fun _ ↦ .inr ⟨entry, List.mem_append_right _ hentry, rfl⟩

theorem hookOpaque_carries (hat : ctx.At p w) (singleton : Bool) (name : String) :
    (w.hookOpaque i).CarriesAt p.scope .extended singleton name :=
  modifyFragment_carriesAt hat hscope hi (fun f ↦ f.setOpaque_grows) fun _ ↦ .inl rfl

theorem harvestExtendedStmt_carries (hat : ctx.At p w) {base name : String} {stmt : Node}
    {singleton : Bool} (hinstalls : ExtendedInstalls base stmt singleton name) :
    (harvestExtendedStmt i base w stmt).1.CarriesAt p.scope .extended singleton name := by
  cases hinstalls with
  | @defOn site hdef hreceiver =>
    have hstep : harvestExtendedStmt i base w stmt =
        (w.hookSingletons i [(site.name, stmt.loc)], true) := by
      simp [harvestExtendedStmt, hdef, hreceiver]
    rw [hstep]
    exact hookSingletons_carries hscope hi hat List.mem_cons_self
  | @delegate call names entry hcalls hname hnames hentry =>
    rw [harvestExtendedStmt_call w i hcalls]
    have hstep : w.harvestExtendedCall i call = w.hookInstances i names := by
      simp [harvestExtendedCall, hname, hnames]
    rw [hstep]
    exact hookInstances_carries hscope hi hat hentry
  | @defineMethod call _ hcalls hname hliteral =>
    rw [harvestExtendedStmt_call w i hcalls]
    have hstep : w.harvestExtendedCall i call = w.hookInstances i [(name, call.loc)] := by
      simp [harvestExtendedCall, hname, hliteral]
    rw [hstep]
    exact hookInstances_carries hscope hi hat List.mem_cons_self
  | @defineSingletonMethod call _ hcalls hname hliteral =>
    rw [harvestExtendedStmt_call w i hcalls]
    have hstep : w.harvestExtendedCall i call = w.hookSingletons i [(name, call.loc)] := by
      simp [harvestExtendedCall, hname, hliteral]
    rw [hstep]
    exact hookSingletons_carries hscope hi hat List.mem_cons_self
  | @evalDef s call stmts site hcalls hname harguments hstmts hs hdef hreceiver =>
    rw [harvestExtendedStmt_call w i hcalls]
    refine harvestExtendedEvalStmt_reaches hname harguments hstmts hs fun w' hgrows ↦ ?_
    have hstep : harvestExtendedEvalStmt i w' s =
        w'.hookInstances i [(site.name, s.loc)] := by
      simp [harvestExtendedEvalStmt, hdef, hreceiver]
    rw [hstep]
    exact hookInstances_carries hscope hi (hat.later hgrows) List.mem_cons_self
  | @evalDefineMethod s call inner stmts _ hcalls hname harguments hstmts hs hinner hdefine
      hliteral =>
    rw [harvestExtendedStmt_call w i hcalls]
    refine harvestExtendedEvalStmt_reaches hname harguments hstmts hs fun w' hgrows ↦ ?_
    have hstep : harvestExtendedEvalStmt i w' s = w'.hookInstances i [(name, s.loc)] := by
      simp [harvestExtendedEvalStmt, Node.asDef_of_asCall hinner, hinner, hdefine, hliteral,
        isSendName]
    rw [hstep]
    exact hookInstances_carries hscope hi (hat.later hgrows) List.mem_cons_self

theorem harvestExtendedStmt_sealed (hat : ctx.At p w) {base : String} {stmt : Node}
    (hsealed : ExtendedOpaque base stmt) (singleton : Bool) (name : String) :
    (harvestExtendedStmt i base w stmt).1.CarriesAt p.scope .extended singleton name := by
  have hnow := hookOpaque_carries hscope hi hat singleton name
  cases hsealed with
  | @delegate call hcalls hname hnames =>
    have hstep : w.harvestExtendedCall i call = w.hookOpaque i := by
      simp [harvestExtendedCall, hname, hnames]
    rwa [harvestExtendedStmt_call w i hcalls, hstep]
  | @define call hcalls hname hliteral =>
    have hstep : w.harvestExtendedCall i call = w.hookOpaque i := by
      rcases hname with hname | hname
      · simp [harvestExtendedCall, hname, hliteral]
      · simp [harvestExtendedCall, hname, hliteral]
    rwa [harvestExtendedStmt_call w i hcalls, hstep]
  | @evalText call hcalls hname harguments =>
    have hstep : w.harvestExtendedCall i call = w.hookOpaque i := by
      rw [harvestExtendedCall_eval w i hname, if_pos (by simpa using harguments)]
    rwa [harvestExtendedStmt_call w i hcalls, hstep]
  | @evalSend s call inner stmts hcalls hname hstmts hs hinner hsend =>
    rw [harvestExtendedStmt_call w i hcalls]
    by_cases harguments : call.arguments = []
    · refine harvestExtendedEvalStmt_reaches hname harguments hstmts hs fun w' hgrows ↦ ?_
      have hstep : harvestExtendedEvalStmt i w' s = w'.hookOpaque i := by
        simp [harvestExtendedEvalStmt, Node.asDef_of_asCall hinner, hinner, hsend]
      rw [hstep]
      exact hookOpaque_carries hscope hi (hat.later hgrows) singleton name
    · rwa [harvestExtendedCall_eval w i hname, if_pos (by simpa using harguments)]
  | @evalDefine s call inner stmts hcalls hname hstmts hs hinner hdefine hliteral =>
    rw [harvestExtendedStmt_call w i hcalls]
    by_cases harguments : call.arguments = []
    · refine harvestExtendedEvalStmt_reaches hname harguments hstmts hs fun w' hgrows ↦ ?_
      have hstep : harvestExtendedEvalStmt i w' s = w'.hookOpaque i := by
        simp [harvestExtendedEvalStmt, Node.asDef_of_asCall hinner, hinner, hdefine, hliteral,
          isSendName]
      rw [hstep]
      exact hookOpaque_carries hscope hi (hat.later hgrows) singleton name
    · rwa [harvestExtendedCall_eval w i hname, if_pos (by simpa using harguments)]
  | @send call hcalls hname =>
    have hstep : w.harvestExtendedCall i call = w.hookOpaque i :=
      harvestExtendedCall_send w i hname
    rwa [harvestExtendedStmt_call w i hcalls, hstep]

end Extended

theorem harvestExtendedStmt_consumes (w : DefWalker) (i : ℕ) (base : String) (stmt : Node) :
    (harvestExtendedStmt i base w stmt).2 = consumesBase base stmt := by
  unfold harvestExtendedStmt consumesBase
  cases stmt.asDef with
  | some site =>
    dsimp only
    split_ifs with h
    · exact h.symm
    · exact (Bool.not_eq_true _ ▸ h).symm
  | none =>
    cases stmt.asCall with
    | none => rfl
    | some call =>
      dsimp only
      split_ifs with h
      · exact h.symm
      · exact (Bool.not_eq_true _ ▸ h).symm

/-- The statements are read one after the other, and the reads that they consume are counted. -/
theorem foldl_harvestExtendedStmt (i : ℕ) (base : String) (stmts : List Node) (w : DefWalker)
    (n : ℕ) :
    stmts.foldl
      (fun (acc : DefWalker × ℕ) stmt ↦
        let (w, used) := acc.1.harvestExtendedStmt i base stmt
        (w, acc.2 + if used then 1 else 0))
      (w, n) =
    (stmts.foldl (fun w stmt ↦ (harvestExtendedStmt i base w stmt).1) w,
      n + stmts.countP (consumesBase base)) := by
  induction stmts generalizing w n with
  | nil => rfl
  | cons stmt stmts ih =>
    rw [List.foldl_cons, List.foldl_cons, ih, List.countP_cons,
      ← harvestExtendedStmt_consumes w i base stmt]
    simp only [Prod.mk.injEq, true_and]
    omega

theorem harvestExtendedHook_eq (w : DefWalker) (i : ℕ) {site : DefSite} {base : String}
    {body : Node} {stmts : List Node} (htakes : hookReceiverParamName site = some base)
    (hbody : site.body = some body) (hstmts : body.statementsOf = some stmts) :
    w.harvestExtendedHook i site =
      if stmts.countP (consumesBase base) < countLocalReads body base then
        (stmts.foldl (fun w stmt ↦ (harvestExtendedStmt i base w stmt).1) w).hookOpaque i
      else stmts.foldl (fun w stmt ↦ (harvestExtendedStmt i base w stmt).1) w := by
  unfold harvestExtendedHook
  rw [htakes, hbody]
  dsimp only
  rw [hstmts]
  have hall := foldl_harvestExtendedStmt i base stmts w 0
  rw [Nat.zero_add] at hall
  dsimp only
  rw [hall]

theorem harvestExtendedHook_reaches {i : ℕ} {site : DefSite} {base : String} {body stmt : Node}
    {stmts : List Node} (htakes : hookReceiverParamName site = some base)
    (hbody : site.body = some body) (hstmts : body.statementsOf = some stmts)
    (hstmt : stmt ∈ stmts) (w : DefWalker) :
    ∃ w', w.Grows w' ∧ (harvestExtendedStmt i base w' stmt).1.Grows (w.harvestExtendedHook i site) := by
  obtain ⟨w', hgrows, hreach⟩ :=
    Grows.foldl_reaches (fun w stmt ↦ w.harvestExtendedStmt_grows i base stmt) hstmt w
  rw [harvestExtendedHook_eq w i htakes hbody hstmts]
  refine ⟨w', hgrows, hreach.trans ?_⟩
  split_ifs
  · exact hookOpaque_grows _ i
  · exact .refl _

section Scan

variable {ctx : WalkCtx} {p : BodyPlace} (hscope : p.scope ≠ []) {i : ℕ}
  (hi : ctx.fragIdx = some i) {kind : HookKind} (hkind : kind ≠ .extended)

include hscope hi hkind

theorem openClass_carries (hat : ctx.At p w) {reason : OpenReason}
    (hreason : reason ≠ .abstractRaise) (singleton : Bool) (name : String) :
    (w.openClass i reason).CarriesAt p.scope kind singleton name := by
  refine modifyFragment_carriesAt hat hscope hi (fun f ↦ f.openWith_grows reason) fun f ↦ ?_
  refine (ClassFragment.Carries.of_not_extended hkind).mpr (.inl ⟨reason, hreason, ?_⟩)
  exact List.mem_append_right _ List.mem_cons_self

/-- What the body of a hook defines on the module is in the walk. -/
theorem applyBodyDefs_installs (env : WalkEnv) (hat : ctx.At p w) {site : DefSite} {body : Node}
    (hbody : site.body = some body) {name : String} (hinstalls : BodyInstalls body name) :
    (w.applyBodyDefs i ctx.nesting true site.loc (dynamicDefsInBody env site)).CarriesAt p.scope
      kind false name := by
  obtain ⟨hscanned, hcall, htarget, hreason, hlit, htrack⟩ := hinstalls
  rename_i s call lit
  have hentry := BodyDefs.dynamicDefsInBody_literal env hbody hscanned hcall htarget hreason hlit
  obtain ⟨w', hgrows, hreach⟩ := (applyBodyDefs_reaches i ctx.nesting true site.loc
    (dynamicDefsInBody env site) w).2.1 _ hentry
  refine CarriesAt.grows ?_ hreach
  refine modifyFragment_carriesAt (hat.later hgrows) hscope hi
    (fun f ↦ f.pushTracks_grows lit.isSingleton _) fun f ↦ ?_
  refine (ClassFragment.Carries.of_not_extended hkind).mpr
    (.inr ⟨rfl, { MethodDef.synthetic lit.name lit.required site.loc with
      arityUnknown := lit.arityUnknown }, ?_, rfl⟩)
  rw [htrack]
  exact List.mem_append_right _ List.mem_cons_self

theorem applyBodyDefs_opens (env : WalkEnv) (hat : ctx.At p w) {site : DefSite} {body : Node}
    (hbody : site.body = some body) (hopens : BodyOpens body) (singleton : Bool) (name : String) :
    (w.applyBodyDefs i ctx.nesting true site.loc (dynamicDefsInBody env site)).CarriesAt p.scope
      kind singleton name := by
  cases hopens with
  | @dynamic s call reason hscanned hcall htarget hreason =>
    obtain ⟨reason', hentry⟩ :=
      BodyDefs.dynamicDefsInBody_opens env hbody hscanned hcall htarget hreason
    obtain ⟨w', hgrows, hreach⟩ := (applyBodyDefs_reaches i ctx.nesting true site.loc
      (dynamicDefsInBody env site) w).1 _ hentry
    have hne := BodyDefs.dynamicDefsInBody_unmasked env site _ hentry
    exact (openClass_carries hscope hi hkind (hat.later hgrows) hne singleton name).grows hreach
  | @methodMissing s nested hscanned hcall hdef hmissing =>
    obtain ⟨nd, hnd, hname⟩ := BodyDefs.dynamicDefsInBody_nestedDef env hbody hscanned hcall hdef
    obtain ⟨w', hgrows, hreach⟩ := (applyBodyDefs_reaches i ctx.nesting true site.loc
      (dynamicDefsInBody env site) w).2.2 nd hnd
    have hopened := openClass_carries hscope hi hkind (hat.later hgrows)
      (show OpenReason.methodMissing ≠ .abstractRaise by decide) singleton name
    refine (hopened.grows ?_).grows hreach
    unfold applyNestedDef
    rw [hname, if_pos hmissing]
    dsimp only
    rw [if_pos rfl]
    exact fileTrack_grows _ i true _

end Scan

/-- The walk of a hook's `def` scans its body and ends with its harvest. -/
theorem walkDef_harvests (env : WalkEnv) {ctx : WalkCtx} {i : ℕ} (hi : ctx.fragIdx = some i)
    {site : DefSite}
    (hsingleton : ctx.inSingleton = true ∨
      ∃ receiver, site.receiver = some receiver ∧ receiver.isSelf = true) (w : DefWalker) :
    ∃ w₁ w₂, w.Grows w₁ ∧ (w₁.scanDef env ctx i site true).Grows w₂ ∧
      w.walkDef env ctx site = w₂.harvestHooks i site := by
  have hdef := w.methodDef_grows env site
  unfold walkDef
  dsimp only
  rw [hi]
  dsimp only
  rcases hsingleton with hin | ⟨receiver, hreceiver, hself⟩
  · simp only [hin, Bool.true_or, if_pos]
    exact ⟨_, _, hdef, fileTrack_grows _ _ _ _, rfl⟩
  · simp only [hreceiver, hself, Bool.or_true, if_pos]
    exact ⟨_, _, hdef, fileTrack_grows _ _ _ _, rfl⟩

theorem walk_def (env : WalkEnv) {s : Node} {site : DefSite} (hdef : s.asDef = some site)
    (ctx : WalkCtx) (w : DefWalker) : walk env false s ctx w = w.walkDef env ctx site := by
  unfold Node.asDef at hdef
  split at hdef
  · obtain rfl := Option.some.inj hdef
    rw [walk]
  · cases hdef

theorem harvestHooks_included (w : DefWalker) (i : ℕ) {site : DefSite}
    (hname : site.name = HookKind.included.methodName) :
    w.harvestHooks i site = w.harvestIncludedHook i site := by
  simp [harvestHooks, hname, HookKind.methodName]

theorem harvestHooks_extended (w : DefWalker) (i : ℕ) {site : DefSite}
    (hname : site.name = HookKind.extended.methodName) :
    w.harvestHooks i site = w.harvestExtendedHook i site := by
  simp [harvestHooks, hname, HookKind.methodName]

/-- The walk of a file scans its hooks and harvests them, each in the body of its module. -/
theorem walkFile_harvests (env : WalkEnv) {root : Node} {kind : HookKind} {path : ConstPath}
    {site : DefSite} {body : Node} (h : HookAt root kind path site body) :
    ∃ (ctx : WalkCtx) (p : BodyPlace) (i : ℕ) (w₁ w₂ : DefWalker), p.scope = path ∧ ctx.At p w₁ ∧
      ctx.fragIdx = some i ∧ (w₁.scanDef env ctx i site true).Grows w₂ ∧
      (w₂.harvestHooks i site).Grows (walkFile env root) := by
  obtain ⟨s, p, hstands, hdef, hscope, hsingleton⟩ := h.stands
  obtain ⟨ctx, w, hat, hreach⟩ := walkFile_reaches env hstands
  obtain ⟨i, -, hi, -⟩ := hat.inside (hscope ▸ h.inside)
  have htreated : ctx.inSingleton = true ∨
      ∃ receiver, site.receiver = some receiver ∧ receiver.isSelf = true :=
    hsingleton.imp_left fun hin ↦ hat.inSingleton.trans hin
  obtain ⟨w₁, w₂, hgrows, hscan, hwalk⟩ := walkDef_harvests env hi htreated w
  rw [walk_def env hdef, hwalk] at hreach
  exact ⟨ctx, p, i, w₁, w₂, hscope, hat.later hgrows, hi, hscan, hreach⟩

/-- What the scan of a hook's body does is in the walk of the file. -/
theorem walkFile_scans (env : WalkEnv) {root : Node} {kind : HookKind} {path : ConstPath}
    {site : DefSite} {body : Node} (h : HookAt root kind path site body)
    (hmay : mayDefine (bodyTextOf env site) = true) :
    ∃ (ctx : WalkCtx) (p : BodyPlace) (i : ℕ) (w : DefWalker), p.scope = path ∧ ctx.At p w ∧
      ctx.fragIdx = some i ∧
      (w.applyBodyDefs i ctx.nesting true site.loc (dynamicDefsInBody env site)).Grows
        (walkFile env root) := by
  obtain ⟨ctx, p, i, w₁, w₂, hscope, hat, hi, hscan, hreach⟩ := walkFile_harvests env h
  obtain ⟨w, hgrows, hbody⟩ := scanDef_reaches env ctx i hmay true w₁
  exact ⟨ctx, p, i, w, hscope, hat.later hgrows, hi,
    (hbody.trans hscan).trans ((w₂.harvestHooks_grows i site).trans hreach)⟩

end DefWalker

/-- The walk of a file carries what its hooks give, as far as they are read. -/
theorem walkFile_carries (env : WalkEnv) {root : Node} {kind : HookKind} {path : ConstPath}
    {singleton : Bool} {name : String} (h : HookInstalls env root kind path singleton name) :
    (walkFile env root).CarriesAt path kind singleton name := by
  cases h with
  | included hhook hstmt hinstalls =>
    obtain ⟨ctx, p, i, w₁, w, rfl, hat, hi, hscan, hreach⟩ :=
      walkFile_harvests env hhook.toHookAt
    rw [harvestHooks_included w i hhook.name] at hreach
    have hgrows := (w₁.scanDef_grows env ctx i _ true).trans hscan
    exact (harvestIncludedHook_carries (hat.later hgrows) hhook.inside hi hhook.takes
      hhook.hasBody hhook.hasStmts hstmt hinstalls).grows hreach
  | scanned hkind hhook hmay hinstalls =>
    obtain ⟨ctx, p, i, w, rfl, hat, hi, hreach⟩ := walkFile_scans env hhook hmay
    exact (applyBodyDefs_installs hhook.inside hi hkind env hat hhook.hasBody hinstalls).grows
      hreach
  | opened hkind hhook hmay hopens =>
    obtain ⟨ctx, p, i, w, rfl, hat, hi, hreach⟩ := walkFile_scans env hhook hmay
    exact (applyBodyDefs_opens hhook.inside hi hkind env hat hhook.hasBody hopens singleton
      name).grows hreach
  | extended hhook hstmt hinstalls =>
    obtain ⟨ctx, p, i, w₁, w, rfl, hat, hi, hscan, hreach⟩ :=
      walkFile_harvests env hhook.toHookAt
    rw [harvestHooks_extended w i hhook.name] at hreach
    obtain ⟨w', hgrows, hstep⟩ :=
      harvestExtendedHook_reaches hhook.takes hhook.hasBody hhook.hasStmts hstmt w
    have hlater := ((w₁.scanDef_grows env ctx i _ true).trans hscan).trans hgrows
    exact (harvestExtendedStmt_carries hhook.inside hi (hat.later hlater) hinstalls).grows
      (hstep.trans hreach)
  | unreadable hhook hstmt hsealed =>
    obtain ⟨ctx, p, i, w₁, w, rfl, hat, hi, hscan, hreach⟩ :=
      walkFile_harvests env hhook.toHookAt
    rw [harvestHooks_extended w i hhook.name] at hreach
    obtain ⟨w', hgrows, hstep⟩ :=
      harvestExtendedHook_reaches hhook.takes hhook.hasBody hhook.hasStmts hstmt w
    have hlater := ((w₁.scanDef_grows env ctx i _ true).trans hscan).trans hgrows
    exact (harvestExtendedStmt_sealed hhook.inside hi (hat.later hlater) hsealed
      singleton name).grows (hstep.trans hreach)
  | @escapes path site base name body stmts singleton hhook hescapes =>
    obtain ⟨ctx, p, i, w₁, w, rfl, hat, hi, hscan, hreach⟩ :=
      walkFile_harvests env hhook.toHookAt
    rw [harvestHooks_extended w i hhook.name,
      harvestExtendedHook_eq w i hhook.takes hhook.hasBody hhook.hasStmts, if_pos hescapes]
      at hreach
    have hgrows : w.Grows (stmts.foldl (fun w stmt ↦ (harvestExtendedStmt i base w stmt).1) w) :=
      .foldl (fun w stmt ↦ w.harvestExtendedStmt_grows i base stmt) stmts w
    have hlater := ((w₁.scanDef_grows env ctx i site true).trans hscan).trans hgrows
    exact (hookOpaque_carries hhook.inside hi (hat.later hlater) singleton name).grows hreach

/-! ### No install is missing -/

namespace ProjectIndex

/-- The hook of a module runs for the class, or for one of its ancestors. -/
def Receives (ix : ProjectIndex) (kind : HookKind) (c m : ClassId) : Prop :=
  ∃ chain, (ix.ancestorChain c).Returns chain ∧
    match kind with
    | .extended =>
      ∃ d ∈ chain, (∃ path, ix.byPath.lookup path = some d) ∧ ix.ExtendsModule d m
    | _ => m ∈ chain

/-- The lookup on an instance of the class or on the class object. -/
def lookupTrack (ix : ProjectIndex) (singleton : Bool) (c : ClassId) (name : String) :
    Fueled MethodLookup :=
  if singleton then ix.lookupSingleton c name else ix.lookupMethod c name

theorem opaqueOpen_of_ground {c : ClassDef} (h : c.GroundedClass) {reason : OpenReason}
    (hne : reason ≠ .abstractRaise) (hmem : { reason } ∈ c.grounds) :
    c.isOpen = true ∧ c.opaqueOpen = true := by
  have hgrounds : c.grounds ≠ [] := List.ne_nil_of_mem hmem
  have hopen : c.isOpen = true := h.isOpen_iff.mpr hgrounds
  have hstrong : c.openReason ≠ some .abstractRaise :=
    (h.reason_ne_weak_iff ⟨_, hmem, hne⟩).mpr ⟨_, hmem, hne, rfl⟩
  exact ⟨hopen, by simp [ClassDef.opaqueOpen, hopen, hstrong]⟩

theorem instanceSilent_of_notFound {ix : ProjectIndex} {c : ClassId} {name : String}
    (h : (ix.lookupMethod c name).Returns .notFound) {chain : List ClassId}
    (hchain : (ix.ancestorChain c).Returns chain) {a : ClassId} (ha : a ∈ chain) :
    ix.InstanceSilent name a := by
  obtain ⟨chain', hancestors, hsilent⟩ := (lookupMethod_notFound_iff.mp h).1
  obtain rfl := hchain.unique (Fueled.returns_map.mpr ⟨_, hancestors, rfl⟩)
  exact hsilent a ha

theorem singletonSilent_of_notFound {ix : ProjectIndex} {c : ClassId} {name : String}
    (h : (ix.lookupSingleton c name).Returns .notFound) {chain : List ClassId}
    (hchain : (ix.ancestorChain c).Returns chain) {a : ClassId} (ha : a ∈ chain) :
    ix.SingletonSilent name a := by
  obtain ⟨chain', hancestors, hsilent⟩ := (lookupSingleton_notFound_iff.mp h).1
  obtain rfl := hchain.unique (Fueled.returns_map.mpr ⟨_, hancestors, rfl⟩)
  exact hsilent a ha

/-- What a hook gives, as far as the walk reads it, is not missing on any class the hook runs
for. -/
theorem hook_installs_kept (fe : Frontend) (texts : List (SourceFile × Text)) (rest : BuildInput)
    {ix : ProjectIndex} (h : (buildIndex (projectInput fe texts rest)).Returns ix)
    {file : SourceFile} {text : Text} (htext : (file, text) ∈ texts) {kind : HookKind}
    {path : ConstPath} {singleton : Bool} {name : String}
    (hinstalls :
      HookInstalls (walkEnv fe text) (fe.parse text).node kind path singleton name) {c m : ClassId}
    (hm : ix.byPath.lookup path = some m) (hreceives : ix.Receives kind c m) :
    ¬ (ix.lookupTrack singleton c name).Returns .notFound := by
  intro hlookup
  have hfiles := projectInput_grounded fe texts rest
  have hentry : (file, parseDefsText fe text) ∈ (projectInput fe texts rest).files :=
    List.mem_map.mpr ⟨(file, text), htext, rfl⟩
  obtain ⟨frag, hfrag, rfl, hfree, hcarries⟩ := walkFile_carries (walkEnv fe text) hinstalls
  obtain ⟨chain, hchain, hrun⟩ := hreceives
  have hholds := buildIndex_holds hfiles h hentry hfrag hm
  by_cases hkind : kind = .extended
  · subst hkind
    obtain ⟨d, hd, ⟨path, hpath⟩, hedge⟩ := hrun
    have hinstalled : Installed (ix.classOf d) frag :=
      buildIndex_installs hfiles h hentry hfrag hfree hpath hm hedge
    have hsealed (hground : { reason := .evalOrSend } ∈ (ix.classOf d).grounds) :=
      opaqueOpen_of_ground (buildIndex_grounded hfiles h d) (by decide) hground
    cases singleton with
    | false =>
      have hsilent := instanceSilent_of_notFound hlookup hchain hd
      rcases hcarries with hflag | ⟨install, hinstall, rfl⟩
      · have hclosed := hsilent.1
        rw [(hsealed (hinstalled.isOpaque hflag)).2] at hclosed
        cases hclosed
      · have hdefines := hinstalled.instances install hinstall
        rw [hsilent.2] at hdefines
        cases hdefines
    | true =>
      have hsilent := singletonSilent_of_notFound hlookup hchain hd
      rcases hcarries with hflag | ⟨install, hinstall, rfl⟩
      · have hclosed := hsilent.1
        rw [(hsealed (hinstalled.isOpaque hflag)).1] at hclosed
        cases hclosed
      · have hdefines := hinstalled.singletons install hinstall
        rw [hsilent.2.1] at hdefines
        cases hdefines
  · have hmember : m ∈ chain := by
      cases kind with
      | included => exact hrun
      | prepended => exact hrun
      | extended => exact absurd rfl hkind
    rcases (ClassFragment.Carries.of_not_extended hkind).mp hcarries with
      ⟨reason, hreason, hground⟩ | ⟨rfl, md, hmd, rfl⟩
    · have hopen := opaqueOpen_of_ground (buildIndex_grounded hfiles h m) hreason
        (hholds.grounds hground)
      cases singleton with
      | false =>
        have hclosed := (instanceSilent_of_notFound hlookup hchain hmember).1
        rw [hopen.2] at hclosed
        cases hclosed
      | true =>
        have hclosed := (singletonSilent_of_notFound hlookup hchain hmember).1
        rw [hopen.1] at hclosed
        cases hclosed
    · have hdefines := hholds.methods hfree md hmd
      rw [(instanceSilent_of_notFound hlookup hchain hmember).2] at hdefines
      cases hdefines

def trackText : Text :=
  ("module Track\ndef self.included(base)\nbase.attr_reader :seen\n" ++
    "base.class_eval \x7b def track; end \x7d\nend\nend\nclass Order\ninclude Track\nend\n").toList

def seenStmt : Node :=
  .callNode (37, 59) (some (.localVariableReadNode (37, 41) "base")) "attr_reader"
    [.symbolNode (54, 59) "seen"] none

def trackDef : Node := .defNode (78, 92) (82, 87) none "track" none [] none

/-- `base.class_eval` on a block, with `def track` in it. -/
def trackStmt : Node :=
  .callNode (60, 94) (some (.localVariableReadNode (60, 64) "base")) "class_eval" []
    (some (.blockNode (76, 94) none [] (some (.statementsNode (78, 92) [trackDef]))))

def trackBody : Node := .statementsNode (37, 94) [seenStmt, trackStmt]

def trackHook : Node :=
  .defNode (13, 98) (22, 30) (some (.selfNode (17, 21))) "included"
    (some { requireds := [some "base"] }) [] (some trackBody)

def trackTree : Node :=
  .programNode (0, 132) (.statementsNode (0, 132)
    [.moduleNode (0, 102) (.constantReadNode (7, 12) "Track")
      (some (.statementsNode (13, 98) [trackHook])),
     .classNode (103, 132) (.constantReadNode (109, 114) "Order") none
      (some (.statementsNode (115, 128)
        [.callNode (115, 128) none "include" [.constantReadNode (123, 128) "Track"] none]))])

def trackFrontend : Frontend where
  parse _ := ⟨trackTree, [], false⟩
  parseRbsComment _ := .error ""
  isAlphanumeric := Char.isAlphanum
  isCoreNamespace name := name ∈ ["Object", "Kernel", "BasicObject"]
  isKnownExternalClassPath path := path ∈ [["Object"], ["Kernel"], ["BasicObject"]]

def trackInput : BuildInput :=
  projectInput trackFrontend [("order.rb", trackText)] { files := [] }

def trackIndex : ProjectIndex := ((buildIndex trackInput).run 20).getD {}

set_option maxRecDepth 2000 in
theorem track_built : (buildIndex trackInput).Returns trackIndex := ⟨20, by rfl⟩

theorem track_readsHook :
    ∃ site, trackHook.asDef = some site ∧
      ReadsHook trackTree .included ["Track"] site "base" trackBody [seenStmt, trackStmt] := by
  refine ⟨_, rfl, ⟨?_, List.cons_ne_nil _ _, rfl, rfl⟩, rfl, rfl⟩
  refine ⟨trackHook, { scope := ["Track"], nesting := [["Track"]] }, ?_, rfl, rfl,
    .inr ⟨_, rfl, rfl⟩⟩
  refine .program (.statement List.mem_cons_self (.moduleBody rfl ?_))
  exact .statement List.mem_cons_self .here

set_option maxRecDepth 2000 in
theorem track_receives : trackIndex.Receives .included 1 0 := by
  refine ⟨[1, 0], ⟨20, by rfl⟩, ?_⟩
  exact List.mem_cons_of_mem _ List.mem_cons_self

theorem track_paths :
    trackIndex.byPath.lookup ["Track"] = some 0 ∧ trackIndex.byPath.lookup ["Order"] = some 1 := by
  decide +kernel

set_option maxRecDepth 2000 in
/-- `Order` has `track` by the hook of `Track`, and the lookup does not find it. -/
theorem track_missing :
    (buildIndex trackInput).Returns trackIndex ∧
    (∃ site, ReadsHook trackTree .included ["Track"] site "base" trackBody [seenStmt, trackStmt]) ∧
    (∃ call, CallsBase "base" trackStmt call ∧ call.name = "class_eval" ∧
      call.blockStatements = some [trackDef]) ∧
    trackIndex.byPath.lookup ["Track"] = some 0 ∧ trackIndex.byPath.lookup ["Order"] = some 1 ∧
    trackIndex.Receives .included 1 0 ∧ (trackIndex.lookupMethod 1 "track").Returns .notFound := by
  obtain ⟨site, -, hreads⟩ := track_readsHook
  exact ⟨track_built, ⟨site, hreads⟩, ⟨_, ⟨rfl, rfl⟩, rfl, rfl⟩, track_paths.1, track_paths.2,
    track_receives, 20, by rfl⟩

/-- `attr_reader` on the base is read. -/
theorem seen_found : ¬ (trackIndex.lookupTrack false 1 "seen").Returns .notFound := by
  obtain ⟨site, -, hreads⟩ := track_readsHook
  have hinstalls : IncludedInstalls "base" seenStmt "seen" :=
    @IncludedInstalls.attr "base" seenStmt _ [("seen", (54, 59))] _ ⟨rfl, rfl⟩ rfl rfl
      List.mem_cons_self
  exact hook_installs_kept trackFrontend [("order.rb", trackText)] { files := [] } track_built
    List.mem_cons_self (.included hreads List.mem_cons_self hinstalls) track_paths.1 track_receives

end ProjectIndex

end Itaruby
