import Itaruby.Check.Compatible
import Itaruby.Index.ObjectSurface

/-!
`new` on a class object. The method that the index finds decides how many arguments the call
may have, and of what types; the type of the call is the same whatever was found.
-/

set_option autoImplicit false
set_option relaxedAutoImplicit false

namespace Itaruby

open Ruby

/-- `check_arity` -/
def checkArity (m : MethodSig) (name : String) (given : ℕ) (loc : Span) : List Diagnostic :=
  if m.arityUnknown || m.rest then []
  else if m.required ≤ given ∧ given ≤ m.required + m.optional then []
  else
    let expects :=
      if m.optional = 0 then
        toString m.required ++ " argument" ++ (if m.required = 1 then "" else "s")
      else toString m.required ++ " to " ++ toString (m.required + m.optional) ++ " arguments"
    [{ span := loc, code := "E0102", severity := .error,
       message := "`" ++ name ++ "` expects " ++ expects ++ ", got " ++ toString given }]

/-- What `check_call` knows of a call when it looks for the method. -/
structure ArgumentSite where
  posArgs : List PosArg
  exactArity : Bool
  message : Span
  scope : List ConstPath

namespace ProjectIndex

variable (ix : ProjectIndex)

/-- The checks of a call against the method that was found. -/
def checkAgainst (ancestors : ClassId → List ClassId × Bool) (site : ArgumentSite) (name : String)
    (m : MethodSig) (owner : ClassId) : List Diagnostic :=
  (if site.exactArity then checkArity m name site.posArgs.length site.message else []) ++
    ix.checkSigArgs ancestors m name site.posArgs (some owner) site.scope

/-- `Class.new` and `Struct.new` make a class. -/
def BuildsAnonymous (c : ClassId) : Prop :=
  (ix.classOf c).path = ["Class"] ∨ (ix.classOf c).path = ["Struct"]

instance (c : ClassId) : Decidable (ix.BuildsAnonymous c) := by
  unfold BuildsAnonymous
  infer_instance

/-- The arm of `check_call` for `new` on a class object: the type of the call, and what is
reported. -/
def checkNew (tables : ObjectTables) (rbiMap : Option (ConstPath → Bool))
    (ancestors : ClassId → List ClassId × Bool) (site : ArgumentSite) (c : ClassId) :
    Fueled (Ty × List Diagnostic) := do
  if ix.BuildsAnonymous c then return (.unknown, [])
  else
    match ← ix.lookupSingletonOwn c "new" with
    | .found m owner => return (.instanceOf c, ix.checkAgainst ancestors site "new" m owner)
    | .inconclusive => return (.instanceOf c, [])
    | .notFound =>
      match ← ix.lookupMethodRbi tables rbiMap c "initialize" with
      | .found m owner => return (.instanceOf c, ix.checkAgainst ancestors site "new" m owner)
      | .notFound => return (.instanceOf c, [])
      | .inconclusive => return (.instanceOf c, [])

/-! ### What Ruby runs -/

/-- The method that `new` on a class object runs: `Class#new`, one of the project, or one that
the index does not show. -/
inductive NewMethod
  | builtin
  | written (m : MethodSig)
  | unseen

/-- A run of the project, as far as the calls of `new` go. Where the index is conclusive about
`new`, the run agrees. -/
structure Constructing where
  ancestry : Ancestry
  newOf : ClassId → NewMethod
  /-- the values that the method can return, called on the class object -/
  returns : NewMethod → ClassId → Datum → Prop
  found : ∀ c m owner, (ix.lookupSingletonOwn c "new").Returns (.found m owner) →
    newOf c = .written m
  notFound : ∀ c, (ix.lookupSingletonOwn c "new").Returns .notFound → newOf c = .builtin
  builtin : ∀ c v, ¬ ix.BuildsAnonymous c → returns .builtin c v → ancestry.IsA v c

variable {ix} {tables : ObjectTables} {rbiMap : Option (ConstPath → Bool)}
  {ancestors : ClassId → List ClassId × Bool} {site : ArgumentSite} {c : ClassId}

/-- What was found makes no difference to the type. -/
theorem checkNew_ty {ty : Ty} {diagnostics : List Diagnostic}
    (h : (ix.checkNew tables rbiMap ancestors site c).Returns (ty, diagnostics)) :
    ty = if ix.BuildsAnonymous c then .unknown else .instanceOf c := by
  unfold checkNew at h
  split_ifs at h ⊢
  · cases Fueled.returns_pure.mp h
    rfl
  · obtain ⟨own, -, h⟩ := Fueled.returns_bind.mp h
    cases own with
    | found m owner =>
      cases Fueled.returns_pure.mp h
      rfl
    | inconclusive =>
      cases Fueled.returns_pure.mp h
      rfl
    | notFound =>
      obtain ⟨init, -, h⟩ := Fueled.returns_bind.mp h
      cases init <;>
      · cases Fueled.returns_pure.mp h
        rfl

/-- A call of `new` that the project answers itself is checked against that method alone. -/
theorem checkNew_diagnostics {own : MethodLookup} {ty : Ty} {diagnostics : List Diagnostic}
    (hnamed : ¬ ix.BuildsAnonymous c) (hown : (ix.lookupSingletonOwn c "new").Returns own)
    (h : (ix.checkNew tables rbiMap ancestors site c).Returns (ty, diagnostics)) :
    (∀ m owner, own = .found m owner →
      diagnostics = ix.checkAgainst ancestors site "new" m owner) ∧
    (own = .inconclusive → diagnostics = []) := by
  unfold checkNew at h
  rw [if_neg hnamed] at h
  obtain ⟨own', hown', h⟩ := Fueled.returns_bind.mp h
  obtain rfl := hown.unique hown'
  constructor
  · rintro m owner rfl
    cases Fueled.returns_pure.mp h
    rfl
  · rintro rfl
    cases Fueled.returns_pure.mp h
    rfl

/-- The run in which only the methods that the index finds answer `new`. -/
noncomputable def Constructing.visible (ix : ProjectIndex) (A : Ancestry)
    (returns : MethodSig → ClassId → Datum → Prop) : ix.Constructing := by
  classical exact {
    ancestry := A
    newOf := fun c ↦
      if h : ∃ m owner, (ix.lookupSingletonOwn c "new").Returns (.found m owner) then
        .written h.choose
      else .builtin
    returns := fun method c v ↦
      match method with
      | .builtin => A.IsA v c
      | .written m => returns m c v
      | .unseen => False
    found := by
      intro c m owner hfound
      have h : ∃ m owner, (ix.lookupSingletonOwn c "new").Returns (.found m owner) :=
        ⟨m, owner, hfound⟩
      obtain ⟨owner', hfound'⟩ := h.choose_spec
      rw [dif_pos h]
      cases hfound.unique hfound'
      rfl
    notFound := by
      intro c hnone
      refine dif_neg ?_
      rintro ⟨m, owner, hfound⟩
      cases hnone.unique hfound
    builtin := fun _ _ _ hv ↦ hv }

/-- `class Pass; end` and `class Ticket; def self.new = Pass.allocate; end`. -/
def ticketIndex : ProjectIndex :=
  mergeFiles {}
    [("ticket.rb", { fragments := [
      { path := ["Pass"], nesting := [["Pass"]], isModule := false },
      { path := ["Ticket"], nesting := [["Ticket"]], isModule := false,
        singletonMethods := [{ name := "new", nameSpan := (38, 41), defSpan := (29, 57) }] }] })]

/-- `Ticket.new` -/
def ticketSite : ArgumentSite where
  posArgs := []
  exactArity := true
  message := (69, 72)
  scope := []

def noTables : ObjectTables where
  kernelObjectInstanceMethod _ := false
  coreObjectMethod _ := false

theorem ticketNew_returns :
    (ticketIndex.checkNew noTables none (fun _ ↦ ([], true)) ticketSite 1).Returns
      (.instanceOf 1, []) := ⟨20, by rfl⟩

theorem ticketNew_found :
    ∃ m, (ticketIndex.lookupSingletonOwn 1 "new").Returns (.found m 1) := ⟨_, 20, by rfl⟩

/-- The project's `new` allocates a ticket. -/
noncomputable def Constructing.ticket : ticketIndex.Constructing :=
  .visible ticketIndex .apart fun _ c v ↦ v = .object c

theorem ticket_returns_iff (v : Datum) :
    Constructing.ticket.returns (Constructing.ticket.newOf 1) 1 v ↔ v = .object 1 := by
  obtain ⟨m, hm⟩ := ticketNew_found
  rw [Constructing.found _ 1 m 1 hm]
  exact Iff.rfl

end ProjectIndex

end Itaruby
