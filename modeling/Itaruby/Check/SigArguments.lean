import Itaruby.Check.Signatures
import Itaruby.Ruby.Arguments

/-!
The argument check against an inline signature. The call's plain arguments are numbered
without its splats, the signature's positional entries without their kinds, and equal numbers
are compared.
-/

set_option autoImplicit false
set_option relaxedAutoImplicit false

namespace Itaruby

/-! ### Compatibility -/

mutual

/-- A parameter against a type that is no union: some alternative has to take it. -/
def anyAlternative (passes : Ty → Bool) : Ty → Bool
  | .unknown => true
  | .union parts => anyAlternatives passes parts
  | p => passes p

def anyAlternatives (passes : Ty → Bool) : List Ty → Bool
  | [] => false
  | p :: ps => anyAlternative passes p || anyAlternatives passes ps

end

section

variable (ancestors : ClassId → List ClassId × Bool)

/-- An instance passes for a class of its chain, and for every class when its chain is not
completely known; `ancestors` gives the chain and whether it is. -/
def instancePasses (a p : ClassId) : Bool :=
  a == p || (ancestors a).1.contains p || !(ancestors a).2

mutual

def compatible : Ty → Ty → Bool
  | .unknown, _ => true
  | .union parts, p => p == .unknown || compatibleAll parts p
  | .array a, p =>
    anyAlternative (fun q ↦ match q with | .array e => compatible a e | _ => false) p
  | .hash k v, p =>
    anyAlternative
      (fun q ↦ match q with | .hash k' v' => compatible k k' && compatible v v' | _ => false) p
  | .instanceOf a, p =>
    anyAlternative (fun q ↦ match q with | .instanceOf c => instancePasses ancestors a c | _ => false) p
  | .nil, p => anyAlternative (Ty.nil == ·) p
  | .bool, p => anyAlternative (Ty.bool == ·) p
  | .int, p => anyAlternative (Ty.int == ·) p
  | .float, p => anyAlternative (Ty.float == ·) p
  | .str, p => anyAlternative (Ty.str == ·) p
  | .sym, p => anyAlternative (Ty.sym == ·) p
  | .classOf c, p => anyAlternative (Ty.classOf c == ·) p

def compatibleAll : List Ty → Ty → Bool
  | [], _ => true
  | a :: as, p => compatible a p && compatibleAll as p

end

end

/-! ### The check -/

inductive Severity
  | error
  | warning
  deriving DecidableEq, Repr

structure Diagnostic where
  span : Span
  code : String
  severity : Severity
  message : String
  deriving DecidableEq, Repr

/-- A plain argument of a call: its type, its place, and its text when it is a string. -/
structure PosArg where
  ty : Ty
  span : Span
  literal : Option String := none

namespace ProjectIndex

variable (ix : ProjectIndex)

def pathText (c : ClassId) : String := "::".intercalate (ix.classOf c).path

mutual

def tyName : Ty → String
  | .unknown => "untyped"
  | .nil => "nil"
  | .bool => "bool"
  | .int => "Integer"
  | .float => "Float"
  | .str => "String"
  | .sym => "Symbol"
  | .instanceOf c => ix.pathText c
  | .classOf c => "Class[" ++ ix.pathText c ++ "]"
  | .array e => "Array[" ++ tyName e ++ "]"
  | .hash k v => "Hash[" ++ tyName k ++ ", " ++ tyName v ++ "]"
  | .union parts => " | ".intercalate (tyNames parts)

def tyNames : List Ty → List String
  | [] => []
  | t :: ts => tyName t :: tyNames ts

end

/-- The numbers at which the loop of `check_sig_args` finds a mismatch, with the argument and
the type it was compared with. -/
def sigMismatches (ancestors : ClassId → List ClassId × Bool) (posArgs : List PosArg)
    (params : List Ty) : List ((PosArg × Ty) × ℕ) :=
  (posArgs.zip params).zipIdx.filter fun ((arg, param), _) ↦ !compatible ancestors arg.ty param

def argTypeMismatch (name : String) (i : ℕ) (arg : PosArg) (param : Ty) : Diagnostic where
  span := arg.span
  code := "E0103"
  severity := .error
  message :=
    "argument " ++ toString (i + 1) ++ " of `" ++ name ++ "` expects " ++ ix.tyName param ++
      ", got " ++ ix.tyName arg.ty

/-- `check_sig_args`. -/
def checkSigArgs (ancestors : ClassId → List ClassId × Bool) (m : MethodSig) (name : String)
    (posArgs : List PosArg) (owner : Option ClassId) (scope : List ConstPath) : List Diagnostic :=
  match m.sig with
  | some sig =>
    (sigMismatches ancestors posArgs (ix.sigParamTys owner scope sig)).map
      fun ((arg, param), i) ↦ ix.argTypeMismatch name i arg param
  | none => []

theorem mem_sigMismatches_iff {ancestors : ClassId → List ClassId × Bool} {posArgs : List PosArg}
    {params : List Ty} {arg : PosArg} {param : Ty} {i : ℕ} :
    ((arg, param), i) ∈ sigMismatches ancestors posArgs params ↔
      posArgs[i]? = some arg ∧ params[i]? = some param ∧
        compatible ancestors arg.ty param = false := by
  rw [sigMismatches, List.mem_filter, List.mem_zipIdx_iff_getElem?, List.getElem?_zip_eq_some]
  simp [and_assoc]

end ProjectIndex

/-! ### Signatures as written -/

inductive SigParam
  | required (ty : RbsTy)
  | optional (ty : RbsTy)
  | rest (ty : RbsTy)
  | keyword (name : String) (ty : RbsTy) (isRequired : Bool)
  | restKeyword (ty : RbsTy)

/-- What `Parser::param` keeps of a parameter it has read: a rest parameter is kept as an
optional one, a rest keyword is dropped. -/
def SigParam.record : SigParam → Option RbsParam
  | .required ty => some (.required ty)
  | .optional ty => some (.optional ty)
  | .rest ty => some (.optional ty)
  | .keyword name ty isRequired => some (.keyword name ty isRequired)
  | .restKeyword _ => none

/-- `Parser::param_list`. -/
def paramList (params : List SigParam) : List RbsParam := params.filterMap SigParam.record

/-- A signature of a method Ruby can define. -/
structure WrittenSig where
  leading : List RbsTy
  optional : List RbsTy
  rest : Option RbsTy
  trailing : List RbsTy
  keywords : List (String × RbsTy × Bool)
  restKeyword : Option RbsTy
  ret : RbsTy
  typeParams : List String
  trailing_behind : trailing ≠ [] → optional ≠ [] ∨ rest.isSome = true

namespace WrittenSig

variable (w : WrittenSig)

def params : List SigParam :=
  w.leading.map .required ++ w.optional.map .optional ++ w.rest.toList.map .rest ++
    w.trailing.map .required ++ w.keywords.map (fun (name, ty, req) ↦ .keyword name ty req) ++
    w.restKeyword.toList.map .restKeyword

/-- The signature `parse_rbs_comment` reads. -/
def sig : RbsSig :=
  { params := paramList w.params, ret := w.ret, typeParams := w.typeParams }

def shape : Ruby.ParamShape where
  leading := w.leading.length
  optional := w.optional.length
  rest := w.rest.isSome
  trailing := w.trailing.length
  trailing_behind h :=
    (w.trailing_behind (mt List.length_eq_zero_iff.mpr h)).imp_left (mt List.length_eq_zero_iff.mp)

def acceptsKeywords : Bool := !w.keywords.isEmpty || w.restKeyword.isSome

/-- The type written for a parameter. -/
def slotTy : Ruby.Slot → Option RbsTy
  | .leading i => w.leading[i]?
  | .optional i => w.optional[i]?
  | .rest => w.rest
  | .trailing i => w.trailing[i]?

variable {w}

/-- The parser puts the positional parameters of every kind in one list. -/
theorem positional_sig :
    w.sig.positional = w.leading ++ (w.optional ++ (w.rest.toList ++ w.trailing)) := by
  unfold RbsSig.positional sig params paramList
  rw [List.filterMap_filterMap]
  simp [List.filterMap_append, List.filterMap_map, SigParam.record]

theorem rest_toList_length : w.rest.toList.length = w.shape.rest.toNat := by
  cases h : w.rest <;> simp [shape, h]

/-- The entry a number stands for is the parameter written at that position. -/
theorem getElem?_positional_sig (i : ℕ) :
    w.sig.positional[i]? = w.slotTy (w.shape.written i) := by
  have hlength := w.rest_toList_length
  rw [positional_sig]
  unfold Ruby.ParamShape.written
  split_ifs with hleading hoptional hatRest
  · exact List.getElem?_append_left hleading
  · change ¬ i < w.leading.length at hleading
    change i < w.leading.length + w.optional.length at hoptional
    rw [List.getElem?_append_right (by omega)]
    exact List.getElem?_append_left (by omega)
  · obtain ⟨hrest, hi⟩ := hatRest
    change i = w.leading.length + w.optional.length at hi
    obtain ⟨ty, hty⟩ := Option.isSome_iff_exists.mp hrest
    rw [List.getElem?_append_right (by omega), List.getElem?_append_right (by omega), slotTy, hty]
    simp [hi]
  · change ¬ i < w.leading.length at hleading
    change ¬ i < w.leading.length + w.optional.length at hoptional
    have hpast : w.shape.rest.toNat ≤ i - w.leading.length - w.optional.length := by
      cases hrest : w.shape.rest with
      | false => simp
      | true =>
        have : i ≠ w.leading.length + w.optional.length := fun h ↦ hatRest ⟨hrest, h⟩
        simp only [Bool.toNat_true]
        omega
    rw [List.getElem?_append_right (by omega), List.getElem?_append_right (by omega),
      List.getElem?_append_right (by omega), slotTy, hlength]
    congr 1
    change _ = i - (w.leading.length + w.optional.length + w.shape.rest.toNat)
    omega

theorem length_positional_sig :
    w.sig.positional.length = w.shape.single + w.shape.rest.toNat := by
  rw [positional_sig, ← rest_toList_length]
  simp only [List.length_append, Ruby.ParamShape.single, shape]
  omega

end WrittenSig

/-! ### Calls -/

inductive CallArg
  | plain (arg : PosArg)
  | splat

/-- What may stand behind the positional arguments; a keyword hash holds a literal pair or
only `**` splats. -/
inductive CallTail
  | none
  | forwarding
  | keywordHash (hasPair : Bool)

structure CallArgs where
  args : List CallArg
  tail : CallTail

def posArgsOf (args : List CallArg) : List PosArg :=
  args.filterMap fun a ↦
    match a with
    | .plain arg => some arg
    | .splat => none

def hasSplat (args : List CallArg) : Bool :=
  args.any fun a ↦
    match a with
    | .plain _ => false
    | .splat => true

namespace CallArgs

/-- The positional arguments `check_call` collects. -/
def posArgs (call : CallArgs) : List PosArg := posArgsOf call.args

/-- `exact_arity`. -/
def exactArity (call : CallArgs) : Bool :=
  !hasSplat call.args &&
    match call.tail with
    | .none => true
    | _ => false

end CallArgs

/-- The numbers of values a list of arguments supplies, one for each run. -/
inductive Supplies : List CallArg → ℕ → Prop
  | nil : Supplies [] 0
  | plain {arg : PosArg} {rest : List CallArg} {n : ℕ} (h : Supplies rest n) :
      Supplies (.plain arg :: rest) (n + 1)
  | splat {rest : List CallArg} {n : ℕ} (k : ℕ) (h : Supplies rest n) :
      Supplies (.splat :: rest) (n + k)

/-- The positional values the tail of a call supplies: a keyword hash becomes one where the
method takes no keywords and it is not empty. -/
def CallTail.Supplies (acceptsKeywords : Bool) : CallTail → ℕ → Prop
  | .none, n => n = 0
  | .forwarding, _ => True
  | .keywordHash hasPair, n =>
    if acceptsKeywords then n = 0 else if hasPair then n = 1 else n = 0 ∨ n = 1

theorem posArgsOf_plain (arg : PosArg) (rest : List CallArg) :
    posArgsOf (.plain arg :: rest) = arg :: posArgsOf rest := rfl

theorem posArgsOf_splat (rest : List CallArg) : posArgsOf (.splat :: rest) = posArgsOf rest := rfl

theorem hasSplat_plain (arg : PosArg) (rest : List CallArg) :
    hasSplat (.plain arg :: rest) = hasSplat rest := rfl

theorem hasSplat_splat (rest : List CallArg) : hasSplat (.splat :: rest) = true := rfl

/-- A list supplies a value for each plain argument, and any number more where it has a
splat. -/
theorem supplies_iff {args : List CallArg} {n : ℕ} :
    Supplies args n ↔
      ∃ extra, (hasSplat args = false → extra = 0) ∧ n = (posArgsOf args).length + extra := by
  induction args generalizing n with
  | nil =>
    constructor
    · intro h
      cases h
      exact ⟨0, fun _ ↦ rfl, rfl⟩
    · rintro ⟨extra, h, rfl⟩
      obtain rfl := h rfl
      exact .nil
  | cons a rest ih =>
    cases a with
    | plain arg =>
      rw [posArgsOf_plain, hasSplat_plain, List.length_cons]
      constructor
      · intro h
        cases h with
        | plain h =>
          obtain ⟨extra, hzero, rfl⟩ := ih.mp h
          exact ⟨extra, hzero, by omega⟩
      · rintro ⟨extra, hzero, rfl⟩
        have hrest : Supplies (.plain arg :: rest) _ := .plain (ih.mpr ⟨extra, hzero, rfl⟩)
        rwa [show (posArgsOf rest).length + 1 + extra = (posArgsOf rest).length + extra + 1 by omega]
    | splat =>
      rw [posArgsOf_splat, hasSplat_splat]
      constructor
      · intro h
        cases h with
        | splat k h =>
          obtain ⟨extra, -, rfl⟩ := ih.mp h
          exact ⟨extra + k, by simp, by omega⟩
      · rintro ⟨extra, -, rfl⟩
        exact .splat extra (ih.mpr ⟨0, fun _ ↦ rfl, rfl⟩)

/-! ### What was compared and what is bound -/

namespace WrittenSig

variable (w : WrittenSig)

/-- In every run that binds, the argument between `pre` and `post` goes to the parameter
written at its number. -/
def BoundAsCompared (call : CallArgs) (pre post : List CallArg) : Prop :=
  ∀ p q t, Supplies pre p → Supplies post q → call.tail.Supplies w.acceptsKeywords t →
    w.shape.Accepts (p + 1 + (q + t)) →
      w.shape.bindSlot p (q + t) = w.shape.written (posArgsOf pre).length

/-- Its surroundings put it there. -/
def PlacedAsCompared (call : CallArgs) (pre post : List CallArg) : Prop :=
  ∀ t, call.tail.Supplies w.acceptsKeywords t → (call.tail = .forwarding → t = 0) →
    let before := (posArgsOf pre).length
    let after := (posArgsOf post).length + t
    let splatAfter := hasSplat post || call.tail matches .forwarding
    w.shape.Unbindable before (hasSplat pre) after splatAfter ∨
      w.shape.Aligned before (hasSplat pre) after splatAfter

variable {w} {call : CallArgs} {pre post : List CallArg}

theorem boundAsCompared_iff_alwaysBinds :
    w.BoundAsCompared call pre post ↔
      ∀ t, call.tail.Supplies w.acceptsKeywords t → (call.tail = .forwarding → t = 0) →
        w.shape.AlwaysBinds (posArgsOf pre).length (hasSplat pre) ((posArgsOf post).length + t)
          (hasSplat post || call.tail matches .forwarding)
          (w.shape.written (posArgsOf pre).length) := by
  constructor
  · intro hbound t ht hzero b e hb he hrun
    have hpre := supplies_iff.mpr ⟨b, hb, rfl⟩
    cases hpost : hasSplat post with
    | true =>
      have hsupplies : Supplies post ((posArgsOf post).length + e) :=
        supplies_iff.mpr ⟨e, by simp [hpost], rfl⟩
      have hslot := hbound _ _ t hpre hsupplies ht
      rw [Nat.add_right_comm _ e t] at hslot
      exact hslot hrun
    | false =>
      have hsupplies : Supplies post (posArgsOf post).length :=
        supplies_iff.mpr ⟨0, fun _ ↦ rfl, rfl⟩
      rw [hpost, Bool.false_or] at he
      cases htail : call.tail with
      | forwarding =>
        obtain rfl := hzero htail
        exact hbound _ _ e hpre hsupplies (by rw [htail]; trivial) hrun
      | none =>
        obtain rfl := he (by rw [htail])
        exact hbound _ _ t hpre hsupplies ht hrun
      | keywordHash hasPair =>
        obtain rfl := he (by rw [htail])
        exact hbound _ _ t hpre hsupplies ht hrun
  · intro hbinds p q t hp hq ht hrun
    obtain ⟨b, hb, rfl⟩ := supplies_iff.mp hp
    obtain ⟨e, he, rfl⟩ := supplies_iff.mp hq
    by_cases htail : call.tail = .forwarding
    · have hslot := hbinds 0 (by rw [htail]; trivial) (fun _ ↦ rfl) b (e + t) hb
        (by simp [htail])
      rw [Nat.add_assoc _ e t] at hrun ⊢
      exact hslot hrun
    · have hslot := hbinds t ht (absurd · htail) b e hb
        (fun h ↦ he (Bool.or_eq_false_iff.mp h).1)
      rw [Nat.add_right_comm _ e t] at hrun ⊢
      exact hslot hrun

theorem boundAsCompared_iff_placed
    (hlast : (posArgsOf pre).length < w.shape.single + w.shape.rest.toNat) :
    w.BoundAsCompared call pre post ↔ w.PlacedAsCompared call pre post := by
  rw [boundAsCompared_iff_alwaysBinds]
  refine forall_congr' fun t ↦ forall_congr' fun _ ↦ forall_congr' fun _ ↦ ?_
  by_cases hbind : w.shape.Unbindable (posArgsOf pre).length (hasSplat pre)
      ((posArgsOf post).length + t) (hasSplat post || call.tail matches .forwarding)
  · exact ⟨fun _ ↦ .inl hbind, fun _ ↦ Ruby.ParamShape.alwaysBinds_of_unbindable hbind _⟩
  · rw [Ruby.ParamShape.alwaysBinds_written_iff hbind hlast]
    exact (or_iff_right hbind).symm

end WrittenSig

namespace ProjectIndex

/-- An argument reported by the check was compared with the type of the parameter written at
its number; it is bound to that parameter in every run exactly when its surroundings put it
there. -/
theorem reported_argument_bound_iff (ix : ProjectIndex)
    (ancestors : ClassId → List ClassId × Bool) (w : WrittenSig) (owner : Option ClassId)
    (scope : List ConstPath) (call : CallArgs) (pre post : List CallArg) {arg reported : PosArg}
    {param : Ty} (hcall : call.args = pre ++ .plain arg :: post)
    (hreported : ((reported, param), (posArgsOf pre).length) ∈
      sigMismatches ancestors call.posArgs (ix.sigParamTys owner scope w.sig)) :
    reported = arg ∧
    (∃ ty, w.slotTy (w.shape.written (posArgsOf pre).length) = some ty ∧
      rbsToTy (ix.resolveConst scope) owner w.typeParams ty = param) ∧
    (w.BoundAsCompared call pre post ↔ w.PlacedAsCompared call pre post) := by
  obtain ⟨harg, hparam, -⟩ := mem_sigMismatches_iff.mp hreported
  have hposArgs : call.posArgs = posArgsOf pre ++ arg :: posArgsOf post := by
    rw [CallArgs.posArgs, hcall]
    exact List.filterMap_append
  rw [hposArgs, List.getElem?_append_right (Nat.le_refl _), Nat.sub_self] at harg
  rw [sigParamTys, List.getElem?_map, Option.map_eq_some_iff] at hparam
  obtain ⟨ty, hty, hparam⟩ := hparam
  refine ⟨(Option.some.inj harg).symm, ⟨ty, WrittenSig.getElem?_positional_sig _ ▸ hty, hparam⟩, ?_⟩
  apply WrittenSig.boundAsCompared_iff_placed
  rw [← WrittenSig.length_positional_sig]
  exact (List.getElem?_eq_some_iff.mp hty).1

/-! ### Signatures with a rest parameter -/

def plainArg (ty : Ty) (start stop : ℕ) : CallArg := .plain { ty, span := (start, stop) }

/-- `#: (Integer, *String, Symbol) -> void`. -/
def logSig : WrittenSig where
  leading := [.simple "Integer"]
  optional := []
  rest := some (.simple "String")
  trailing := [.simple "Symbol"]
  keywords := []
  restKeyword := none
  ret := .simple "void"
  typeParams := []
  trailing_behind _ := .inr rfl

/-- `#: (Integer, *String) -> void`. -/
def printSig : WrittenSig where
  leading := [.simple "Integer"]
  optional := []
  rest := some (.simple "String")
  trailing := []
  keywords := []
  restKeyword := none
  ret := .simple "void"
  typeParams := []
  trailing_behind h := absurd rfl h

/-- `log(1, :done)`: the symbol is reported as no `String`, and is the trailing parameter. -/
theorem log_done_reported :
    ((({ ty := .sym, span := (7, 12) } : PosArg), Ty.str), 1) ∈
      sigMismatches (fun _ ↦ ([], true)) (posArgsOf [plainArg .int 4 5, plainArg .sym 7 12])
        (({} : ProjectIndex).sigParamTys none [] logSig.sig) ∧
    ¬ logSig.BoundAsCompared ⟨[plainArg .int 4 5, plainArg .sym 7 12], .none⟩
      [plainArg .int 4 5] [] := by
  refine ⟨mem_sigMismatches_iff.mpr ⟨rfl, by decide +kernel, by decide +kernel⟩, fun h ↦ ?_⟩
  have hslot := h 1 0 0 (.plain .nil) .nil rfl (by decide)
  revert hslot
  decide

/-- `print(1, *words, 3)`: the last argument is reported as no `String`, and goes to the rest
parameter in every run. -/
theorem print_last_bound :
    printSig.BoundAsCompared ⟨[plainArg .int 6 7, .splat, plainArg .int 17 18], .none⟩
      [plainArg .int 6 7, .splat] [] := by
  have hreported : ((({ ty := .int, span := (17, 18) } : PosArg), Ty.str), 1) ∈
      sigMismatches (fun _ ↦ ([], true))
        (posArgsOf [plainArg .int 6 7, .splat, plainArg .int 17 18])
        (({} : ProjectIndex).sigParamTys none [] printSig.sig) :=
    mem_sigMismatches_iff.mpr ⟨rfl, by decide +kernel, by decide +kernel⟩
  have h := reported_argument_bound_iff {} (fun _ ↦ ([], true)) printSig none []
    ⟨[plainArg .int 6 7, .splat, plainArg .int 17 18], .none⟩
    [plainArg .int 6 7, .splat] [] rfl hreported
  refine h.2.2.mpr fun t ht _ ↦ ?_
  obtain rfl : t = 0 := ht
  exact .inr (by decide)

end ProjectIndex

end Itaruby
