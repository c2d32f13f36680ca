import Itaruby.Index.Lookup
import Mathlib.Tactic.Linarith

/-!
The coverage census: which counter each call site of a file increments. What the counters of
one call do to the sums of the others is settled here, before any walk.
-/

set_option autoImplicit false
set_option relaxedAutoImplicit false

namespace Itaruby

/-- The outcome of a call. -/
inductive Bucket
  | resolved
  | core
  | rbiMethod
  | dslMethod
  | arApiMethod
  | inconclusive
  | unknownReceiver
  | diagnosed
  deriving DecidableEq, Repr

/-- Where a receiver of unknown type comes from. -/
inductive UnkOrigin
  | param
  | blockParam
  | coreRet
  | projectRet
  | chain
  | ivar
  | const
  | other
  deriving DecidableEq, Repr

/-- Why the return type of a method of the project is unknown. -/
inductive RetCause
  | param
  | ivar
  | const
  | explicit
  | other
  deriving DecidableEq, Repr

structure CallStats where
  resolved : ℕ := 0
  core : ℕ := 0
  rbiMethod : ℕ := 0
  dslMethod : ℕ := 0
  arApiMethod : ℕ := 0
  inconclusive : ℕ := 0
  unknownReceiver : ℕ := 0
  diagnosed : ℕ := 0
  unkParam : ℕ := 0
  unkBlockParam : ℕ := 0
  unkCoreRet : ℕ := 0
  unkProjectRet : ℕ := 0
  unkChain : ℕ := 0
  unkIvar : ℕ := 0
  unkConst : ℕ := 0
  unkOther : ℕ := 0
  retParam : ℕ := 0
  retIvar : ℕ := 0
  retConst : ℕ := 0
  retExplicit : ℕ := 0
  retOther : ℕ := 0
  retUnresolved : ℕ := 0
  ancUnresolved : ℕ := 0
  ancDeclared : ℕ := 0
  ancDsl : ℕ := 0
  ancBlock : ℕ := 0
  ancMeta : ℕ := 0
  ancMissing : ℕ := 0
  ancOther : ℕ := 0
  ancNa : ℕ := 0
  notArApi : ℕ := 0
  deriving DecidableEq, Repr

namespace CallStats

variable (s : CallStats)

def total : ℕ :=
  s.resolved + s.core + s.rbiMethod + s.dslMethod + s.arApiMethod + s.inconclusive +
    s.unknownReceiver + s.diagnosed

/-- The counter of a top-level bucket. -/
def count : Bucket → ℕ
  | .resolved => s.resolved
  | .core => s.core
  | .rbiMethod => s.rbiMethod
  | .dslMethod => s.dslMethod
  | .arApiMethod => s.arApiMethod
  | .inconclusive => s.inconclusive
  | .unknownReceiver => s.unknownReceiver
  | .diagnosed => s.diagnosed

/-- The breakdown of `unknownReceiver`. -/
def unkSum : ℕ :=
  s.unkParam + s.unkBlockParam + s.unkCoreRet + s.unkProjectRet + s.unkChain + s.unkIvar +
    s.unkConst + s.unkOther

/-- The breakdown of `unkProjectRet`. -/
def retSum : ℕ :=
  s.retParam + s.retIvar + s.retConst + s.retExplicit + s.retOther + s.retUnresolved

/-- The breakdown of `inconclusive`. -/
def ancSum : ℕ :=
  s.ancUnresolved + s.ancDeclared + s.ancDsl + s.ancBlock + s.ancMeta + s.ancMissing +
    s.ancOther + s.ancNa

/-! ### The increments -/

def tally : Bucket → CallStats
  | .resolved => { s with resolved := s.resolved + 1 }
  | .core => { s with core := s.core + 1 }
  | .rbiMethod => { s with rbiMethod := s.rbiMethod + 1 }
  | .dslMethod => { s with dslMethod := s.dslMethod + 1 }
  | .arApiMethod => { s with arApiMethod := s.arApiMethod + 1 }
  | .inconclusive => { s with inconclusive := s.inconclusive + 1 }
  | .unknownReceiver => { s with unknownReceiver := s.unknownReceiver + 1 }
  | .diagnosed => { s with diagnosed := s.diagnosed + 1 }

/-- `tally_ancestry` -/
def tallyAncestry : Option Blocker → CallStats
  | some .unresolved => { s with ancUnresolved := s.ancUnresolved + 1 }
  | some .declared => { s with ancDeclared := s.ancDeclared + 1 }
  | some (.project reason) =>
    match reason with
    | .unknownClassBodyCall => { s with ancDsl := s.ancDsl + 1 }
    | .classBodyBlock | .blockNestedDefinition => { s with ancBlock := s.ancBlock + 1 }
    | .dynamicSuperclass | .dynamicMixinReceiver | .dynamicMixinArg | .dynamicAttrArg
    | .dynamicDefineMethod | .dynamicAliasMethod | .evalOrSend | .singletonClassExpr
    | .nestedDefOwner | .stringSourceDefined => { s with ancMeta := s.ancMeta + 1 }
    | .methodMissing | .abstractRaise => { s with ancMissing := s.ancMissing + 1 }
    | .reopenedExternal | .namespaceOnlyModule | .ignoredReopening | .declaredExternal
    | .unattributed => { s with ancOther := s.ancOther + 1 }
  | none => { s with ancNa := s.ancNa + 1 }

/-- `tally_ret_cause` -/
def tallyRetCause : Option RetCause → CallStats
  | some .param => { s with retParam := s.retParam + 1 }
  | some .ivar => { s with retIvar := s.retIvar + 1 }
  | some .const => { s with retConst := s.retConst + 1 }
  | some .explicit => { s with retExplicit := s.retExplicit + 1 }
  | some .other => { s with retOther := s.retOther + 1 }
  | none => { s with retUnresolved := s.retUnresolved + 1 }

/-- The part of `tally_unknown_receiver` after the bucket. -/
def tallyOrigin (cause : Option RetCause) : UnkOrigin → CallStats
  | .param => { s with unkParam := s.unkParam + 1 }
  | .blockParam => { s with unkBlockParam := s.unkBlockParam + 1 }
  | .coreRet => { s with unkCoreRet := s.unkCoreRet + 1 }
  | .projectRet => tallyRetCause { s with unkProjectRet := s.unkProjectRet + 1 } cause
  | .chain => { s with unkChain := s.unkChain + 1 }
  | .ivar => { s with unkIvar := s.unkIvar + 1 }
  | .const => { s with unkConst := s.unkConst + 1 }
  | .other => { s with unkOther := s.unkOther + 1 }

/-- `tally_ar_base`, of a call that an ancestor declared elsewhere blocks. -/
def tallyArBase (blocker : Option Blocker) (declaredByActiveRecord : Bool) : CallStats :=
  if blocker = some .declared && declaredByActiveRecord then { s with notArApi := s.notArApi + 1 }
  else s

/-! ### What a call adds -/

/-- A call has been counted in one bucket, with its origin if its receiver has no type, and with
`blamed` blockers. -/
structure Counted (s s' : CallStats) (bucket : Bucket) (blamed : ℕ) : Prop where
  count : ∀ b, s'.count b = s.count b + if b = bucket then 1 else 0
  unkSum : s'.unkSum = s.unkSum + if bucket = .unknownReceiver then 1 else 0
  retSum : s'.retSum + s.unkProjectRet = s.retSum + s'.unkProjectRet
  ancSum : s'.ancSum = s.ancSum + blamed

variable {s}

theorem count_tally (b b' : Bucket) :
    (s.tally b).count b' = s.count b' + if b' = b then 1 else 0 := by
  cases b
  all_goals
    cases b'
    all_goals rfl

theorem counted_tally (b : Bucket) (h : b ≠ .unknownReceiver := by decide) :
    Counted s (s.tally b) b 0 where
  count := count_tally b
  unkSum := by
    rw [if_neg h]
    cases b
    all_goals rfl
  retSum := by
    cases b
    all_goals rfl
  ancSum := by
    cases b
    all_goals rfl

/-- Between two states only the breakdowns differ, that of `inconclusive` by `n`. -/
structure Breaks (s s' : CallStats) (n : ℕ) : Prop where
  count : ∀ b, s'.count b = s.count b
  unkSum : s'.unkSum = s.unkSum
  retSum : s'.retSum = s.retSum
  unkProjectRet : s'.unkProjectRet = s.unkProjectRet
  ancSum : s'.ancSum = s.ancSum + n

theorem breaks_tallyAncestry (blocker : Option Blocker) : Breaks s (s.tallyAncestry blocker) 1 := by
  have hsum : (s.tallyAncestry blocker).ancSum = s.ancSum + 1 := by
    rcases blocker with _ | _ | _ | reason
    on_goal 4 => cases reason
    all_goals
      simp only [tallyAncestry, ancSum]
      omega
  refine ⟨fun b ↦ ?_, ?_, ?_, ?_, hsum⟩
  all_goals
    rcases blocker with _ | _ | _ | reason
    on_goal 4 => cases reason
    all_goals rfl

theorem breaks_tallyArBase (blocker : Option Blocker) (declared : Bool) :
    Breaks s (s.tallyArBase blocker declared) 0 := by
  unfold tallyArBase
  split
  · refine ⟨fun b ↦ ?_, rfl, rfl, rfl, rfl⟩
    cases b
    all_goals rfl
  · exact ⟨fun _ ↦ rfl, rfl, rfl, rfl, rfl⟩

theorem Counted.breaks {s' s'' : CallStats} {b : Bucket} {blamed n : ℕ}
    (h : Counted s s' b blamed) (hbreaks : Breaks s' s'' n) : Counted s s'' b (blamed + n) where
  count b' := (hbreaks.count b').trans (h.count b')
  unkSum := hbreaks.unkSum.trans h.unkSum
  retSum := by rw [hbreaks.retSum, hbreaks.unkProjectRet, h.retSum]
  ancSum := by rw [hbreaks.ancSum, h.ancSum, Nat.add_assoc]

/-- `tally_inconclusive` -/
theorem counted_inconclusive (blocker : Option Blocker) :
    Counted s ((s.tally .inconclusive).tallyAncestry blocker) .inconclusive 1 :=
  (counted_tally .inconclusive).breaks (breaks_tallyAncestry blocker)

theorem counted_origin (cause : Option RetCause) (origin : UnkOrigin) :
    Counted s ((s.tally .unknownReceiver).tallyOrigin cause origin) .unknownReceiver 0 := by
  refine ⟨fun b ↦ ?_, ?_, ?_, ?_⟩
  · refine Eq.trans ?_ (count_tally .unknownReceiver b)
    rcases origin with _ | _ | _ | _ | _ | _ | _ | _
    on_goal 4 => rcases cause with _ | _ | _ | _ | _ | _
    all_goals
      cases b
      all_goals rfl
  all_goals
    rcases origin with _ | _ | _ | _ | _ | _ | _ | _
    on_goal 4 => rcases cause with _ | _ | _ | _ | _ | _
    all_goals
      simp only [tallyOrigin, tallyRetCause, tally, unkSum, retSum, ancSum, if_pos]
      try omega

end CallStats

end Itaruby
