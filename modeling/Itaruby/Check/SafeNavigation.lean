import Itaruby.Check.CoreMethods
import Itaruby.Check.Settles

/-!
Calls with `&.`. Ruby evaluates neither the arguments nor the call when the receiver is nil, and
the whole is nil then. `check_call` does not ask which operator a call is written with: the nil
arm judges the call and types it, and the arguments are walked as always.
-/

set_option autoImplicit false
set_option relaxedAutoImplicit false

namespace Itaruby

/-- A call written with `&.`. -/
structure NavigatingCall where
  loc : Span
  msg : Span
  receiver : Expr
  name : String
  arguments : List Expr
  casts : List (Option Cast)
  block : Option Expr

/-- What the arms of `check_call` read beside the call. -/
structure CallWorld where
  /-- the call is the subject of an asserted raise -/
  asserted : Bool
  /-- a call on `self` in a block that may rebind it -/
  rebound : Bool
  /-- `core_unknown_is_conclusive` -/
  conclusive : CoreClass → Bool
  /-- some class of `core_inventory_names` has the name -/
  inventoryHas : CoreClass → String → Bool
  /-- `rbi_core_declares` -/
  rbiDeclares : CoreClass → String → Bool
  /-- the arms of receivers that are instances and class objects of the project -/
  instanceArm : ClassId → List Diagnostic × Ty
  classArm : ClassId → List Diagnostic × Ty

/-- The arguments that count for the arity; a splat or a keyword hash leaves it open. -/
def Expr.isPlainArg : Expr → Bool
  | .splat _ => false
  | .hash true _ => false
  | _ => true

namespace NavigatingCall

variable (call : NavigatingCall)

def expr : Expr :=
  .callNode call.loc call.msg (some call.receiver) call.name call.arguments call.casts call.block

def given : ℕ := call.arguments.countP Expr.isPlainArg

def exactArity : Bool := call.arguments.all Expr.isPlainArg

def unknownCoreMethod (ix : ProjectIndex) (t : Ty) : Diagnostic where
  span := call.msg
  code := "E0101"
  severity := .error
  message := "undefined method `" ++ call.name ++ "` for `" ++ ix.tyName t ++ "`"

/-- The arm of `check_call` for receivers of a core class. -/
def checkCore (ix : ProjectIndex) (world : CallWorld) (t : Ty) (cc : CoreClass) :
    List Diagnostic × Ty :=
  match coreEntry cc call.name with
  | some cm =>
    (if call.exactArity then checkCoreArity cm call.name call.given call.msg else [],
      coreRetToTy cm.ret t)
  | none =>
    if world.conclusive cc && !world.inventoryHas cc call.name &&
        !world.rbiDeclares cc call.name then
      ([call.unknownCoreMethod ix t], .unknown)
    else ([], .unknown)

/-- `check_call` behind the walk of the receiver and the arguments: what is reported, and the
type of the call. -/
def checkCall (ix : ProjectIndex) (world : CallWorld) (recv : Ty) : List Diagnostic × Ty :=
  if world.asserted || world.rebound then ([], .unknown)
  else
    match recv with
    | .instanceOf c => world.instanceArm c
    | .classOf c => world.classArm c
    | .unknown => ([], .unknown)
    | .union _ => ([], .unknown)
    | t =>
      match coreClassOf t with
      | some cc => call.checkCore ix world t cc
      | none => ([], .unknown)

variable (inherits : ClassId → ClassId → Prop)

/-- A receiver that is nil is no ground for a report, the type of the call covers nil when that
of the receiver does, and what the receiver left of the locals is still covered behind the
call. -/
structure SafelyNavigates (ix : ProjectIndex) (world : CallWorld) (scene : Scene) (recv : Ty) :
    Prop where
  silent : recv = .nil → (call.checkCall ix world recv).1 = []
  covers : recv.Covers inherits .nil → (call.checkCall ix world recv).2.Covers inherits .nil
  skips : ∀ depth env ty env', (call.expr.infer scene depth env).Yields (ty, env') →
    ∃ env₁, (env₁ = env ∨
      ∃ t, (call.receiver.infer scene (depth + 1) env).Yields (t, env₁)) ∧
      ∀ x v, env₁.Holds inherits x v → env'.Holds inherits x v

/-- The arm of nil receivers lets the call pass: nil has the method, with this arity, and the
table's answer covers nil; or the method is not known to be missing. -/
def NilPasses (world : CallWorld) : Prop :=
  world.asserted = true ∨ world.rebound = true ∨
    match coreEntry .nil call.name with
    | some cm =>
      (call.exactArity = true → cm.maxArgs = none ∨ cm.Accepts call.given) ∧
        cm.ret ∈ [CoreRet.nil, .selfSame, .elem, .keyArray, .valArray, .unknown]
    | none =>
      world.conclusive .nil = false ∨ world.inventoryHas .nil call.name = true ∨
        world.rbiDeclares .nil call.name = true

end NavigatingCall

/-! ### The nil arm -/

theorem checkCoreArity_eq_nil_iff {cm : CoreMethod} {name : String} {given : ℕ} {loc : Span} :
    checkCoreArity cm name given loc = [] ↔ cm.maxArgs = none ∨ cm.Accepts given := by
  unfold checkCoreArity CoreMethod.Accepts
  cases cm.maxArgs with
  | none => simp
  | some most => by_cases h : cm.minArgs ≤ given ∧ given ≤ most <;> simp [h]

theorem coreRetToTy_nil_covers_iff {inherits : ClassId → ClassId → Prop} {ret : CoreRet} :
    (coreRetToTy ret .nil).Covers inherits .nil ↔
      ret ∈ [CoreRet.nil, .selfSame, .elem, .keyArray, .valArray, .unknown] := by
  cases ret <;> simp [coreRetToTy, Ty.Covers]

namespace NavigatingCall

variable {call : NavigatingCall} {inherits : ClassId → ClassId → Prop} {ix : ProjectIndex}
  {world : CallWorld}

theorem checkCall_nil_iff :
    ((call.checkCall ix world .nil).1 = [] ∧
      (call.checkCall ix world .nil).2.Covers inherits .nil) ↔ call.NilPasses world := by
  unfold checkCall NilPasses
  by_cases hquiet : world.asserted = true ∨ world.rebound = true
  · have : (world.asserted || world.rebound) = true := by simpa using hquiet
    rw [if_pos this]
    rcases hquiet with h | h
    · simp [h, Ty.Covers]
    · simp [h, Ty.Covers]
  · rw [not_or, Bool.not_eq_true, Bool.not_eq_true] at hquiet
    simp only [hquiet.1, hquiet.2, Bool.or_self, Bool.false_eq_true, if_false, false_or,
      coreClassOf, checkCore]
    cases coreEntry .nil call.name with
    | some cm =>
      dsimp only
      rw [coreRetToTy_nil_covers_iff]
      by_cases hexact : call.exactArity = true
      · simp only [hexact, if_true, checkCoreArity_eq_nil_iff, forall_const]
      · simp [hexact]
    | none =>
      by_cases hmissing : (world.conclusive .nil && !world.inventoryHas .nil call.name &&
          !world.rbiDeclares .nil call.name) = true
      · simp_all
      · rw [if_neg hmissing]
        simp only [Ty.Covers, and_self, true_iff]
        by_contra h
        simp_all

/-- Only nil itself is judged by the arm of a class: a receiver that may be nil and may be
something else is passed over. -/
theorem checkCall_covers {recv : Ty} (hne : recv ≠ .nil) (h : recv.Covers inherits .nil) :
    (call.checkCall ix world recv).2.Covers inherits .nil := by
  unfold checkCall
  split_ifs
  · trivial
  · cases recv <;> simp_all [Ty.Covers]

end NavigatingCall

/-! ### The walk of the arguments -/

namespace Expr

open Inquiry

variable {inherits : ClassId → ClassId → Prop} {scene : Scene}

/-- Which arguments count is read off the syntax, whatever their walks find. -/
theorem inferArgs_isSome (depth : ℕ) (casts : List (Option Cast)) (env : Env) (es : List Expr) :
    Always (fun r ↦ r.1.map Option.isSome = es.map isPlainArg)
      (inferArgs scene depth es casts env) := by
  induction es generalizing casts env with
  | nil => exact always_pure rfl
  | cons e rest ih =>
    refine Always.bind (P := fun _ ↦ True) (fun _ _ ↦ trivial) fun x _ ↦
      (ih casts.tail x.2).bind fun r h ↦ always_pure ?_
    rw [List.map_cons, List.map_cons, h]
    congr 1
    cases e
    case hash keyword _ => cases keyword <;> rfl
    all_goals rfl

/-- The site of a call has as many arguments as the syntax says. -/
theorem inferArgs_counts (depth : ℕ) (casts : List (Option Cast)) (env : Env)
    (es : List Expr) :
    Always (fun r ↦ r.1.reduceOption.length = es.countP isPlainArg ∧
        r.1.all Option.isSome = es.all isPlainArg)
      (inferArgs scene depth es casts env) := by
  intro r hr
  have hshape : r.1.map Option.isSome = es.map isPlainArg :=
    inferArgs_isSome depth casts env es r hr
  constructor
  · calc r.1.reduceOption.length
        = (r.1.map Option.isSome).countP id := by
          rw [List.countP_map, List.reduceOption_length_eq, List.countP_eq_length_filter]
          rfl
      _ = es.countP isPlainArg := by
          rw [hshape, List.countP_map]
          rfl
  · calc r.1.all Option.isSome = (r.1.map Option.isSome).all id := by simp
      _ = es.all isPlainArg := by simp [hshape]

end Expr

namespace NavigatingCall

open Inquiry

variable {call : NavigatingCall} {inherits : ClassId → ClassId → Prop} {ix : ProjectIndex}
  {world : CallWorld} {scene : Scene} {recv : Ty}

theorem settles_extend (inherits : ClassId → ClassId → Prop) (extending : Prop) [Decidable extending] (local? : Option String)
    (env : Env) :
    Settles inherits true env
      (match local? with
        | some var => if extending then env.insert var .unknown else env
        | none => env) := by
  cases local? with
  | none => exact .refl
  | some var =>
    dsimp only
    split_ifs
    · exact (Settles.insertUnknown : Settles inherits true env (env.insertUnknown [var]))
    · exact .refl

theorem arguments_settle (hsettled : Expr.settledEach call.arguments = true) (depth n : ℕ)
    (receiver' : Receiver) (env : Env) :
    Always (Expr.SettlesTo inherits true env) (do
      let _ ← .query (.disarmSubjects n)
      let (args, env) ← Expr.inferArgs scene depth call.arguments call.casts env
      let env ← Expr.inferBlock scene depth receiver' call.name call.block env
      let site : CallQuery :=
        { depth := depth, loc := call.loc, msg := call.msg, receiver := receiver',
          name := call.name, args := args.reduceOption, exactArity := args.all Option.isSome }
      return ((← .query (.call site)), env)) := by
  refine always_query_bind fun _ ↦
    (Expr.inferArgs_settles inherits depth call.casts env call.arguments).bind fun r h ↦
      (Expr.inferBlock_settles inherits depth receiver' call.name r.2 call.block).bind
        fun _ h' ↦ always_query_bind fun _ ↦ always_pure ?_
  rw [Expr.SettlesTo, hsettled] at h
  exact h.andThen h'

/-- What follows the walk of the receiver loses no value when the arguments write no local. -/
theorem infer_skips (hsettled : Expr.settledEach call.arguments = true) (depth : ℕ) (env : Env) :
    Always (fun r ↦ ∃ env₁, (env₁ = env ∨
        ∃ t, (call.receiver.infer scene (depth + 1) env).Yields (t, env₁)) ∧
        Settles inherits true env₁ r.2)
      (call.expr.infer scene depth env) := by
  refine Expr.always_guarded_of ⟨env, .inl rfl, .refl⟩ <| always_query_bind fun _ ↦
    Always.bind (P := fun r ↦ (call.receiver.infer scene (depth + 1) env).Yields r)
      (fun _ h ↦ h) fun x hx ↦ ?_
  have hfrom {env₁ env₂ : Env} (h : Settles inherits true x.2 env₁)
      (h' : Settles inherits true env₁ env₂) : ∃ env₁, (env₁ = env ∨
        ∃ t, (call.receiver.infer scene (depth + 1) env).Yields (t, env₁)) ∧
        Settles inherits true env₁ env₂ :=
    ⟨x.2, .inr ⟨x.1, hx⟩, h.andThen h'⟩
  have hextend := settles_extend inherits (call.name = "extend" ∧ scene.closedWorld)
    ((some call.receiver).bind Expr.localName) x.2
  dsimp only
  split
  · by_cases hname : call.name = "extend"
    · rw [if_pos hname]
      exact always_query_bind fun _ r hr ↦
        hfrom hextend (arguments_settle hsettled (depth + 1) _ _ _ r hr)
    · rw [if_neg hname]
      exact fun r hr ↦ hfrom hextend (arguments_settle hsettled (depth + 1) _ _ _ r hr)
  · exact fun r hr ↦ hfrom hextend (arguments_settle hsettled (depth + 1) _ _ _ r hr)

/-- A call is safely navigated if its arguments write no local and nil has the method, with its
arity and an answer that may be nil; the latter is needed too. -/
theorem safelyNavigates_exact :
    (Expr.settledEach call.arguments = true ∧ (recv = .nil → call.NilPasses world) →
      call.SafelyNavigates inherits ix world scene recv) ∧
    (call.SafelyNavigates inherits ix world scene recv → recv = .nil → call.NilPasses world) := by
  constructor
  · rintro ⟨hsettled, hpasses⟩
    have hboth (h : recv = .nil) : (call.checkCall ix world recv).1 = [] ∧
        (call.checkCall ix world recv).2.Covers inherits .nil := by
      subst h
      exact checkCall_nil_iff.2 (hpasses rfl)
    refine ⟨fun h ↦ (hboth h).1, ?_, ?_⟩
    · intro hcovers
      by_cases hnil : recv = .nil
      · exact (hboth hnil).2
      · exact checkCall_covers hnil hcovers
    · intro depth env ty env' hyields
      obtain ⟨env₁, hreceiver, hsettles⟩ := infer_skips hsettled depth env _ hyields
      exact ⟨env₁, hreceiver, hsettles.holds rfl⟩
  · rintro hsafe rfl
    have hcovers : (call.checkCall ix world .nil).2.Covers inherits .nil := hsafe.covers rfl
    exact checkCall_nil_iff.1 ⟨hsafe.silent rfl, hcovers⟩

/-- `x&.m` -/
def ofLocal (name : String) : NavigatingCall where
  loc := (8, 8 + 3 + name.length)
  msg := (11, 11 + name.length)
  receiver := .localRead (8, 9) "x"
  name := name
  arguments := []
  casts := []
  block := none

/-- A world that reopens no core class. -/
def closed : CallWorld where
  asserted := false
  rebound := false
  conclusive _ := true
  inventoryHas _ _ := false
  rbiDeclares _ _ := false
  instanceArm _ := ([], .unknown)
  classArm _ := ([], .unknown)

theorem freeze_nilPasses : (ofLocal "freeze").NilPasses closed := by
  have hentry : coreEntry .nil (ofLocal "freeze").name = some ⟨0, some 0, .selfSame⟩ := by decide
  refine .inr (.inr ?_)
  rw [hentry]
  exact ⟨fun _ ↦ .inr (by decide), by decide⟩

/-- `x = nil; x&.freeze` -/
theorem freeze_safelyNavigates :
    (ofLocal "freeze").SafelyNavigates (fun _ _ ↦ False) {} closed { selfTy := .unknown } .nil :=
  safelyNavigates_exact.1 ⟨rfl, fun _ ↦ freeze_nilPasses⟩

/-- `x = nil; x&.foo` is an undefined method of nil. -/
theorem nil_accused :
    ¬ (ofLocal "foo").SafelyNavigates (fun _ _ ↦ False) {} closed { selfTy := .unknown } .nil := by
  intro h
  have haccused : ((ofLocal "foo").checkCall {} closed .nil).1 ≠ [] := by decide
  exact haccused (h.silent rfl)

end NavigatingCall

end Itaruby
