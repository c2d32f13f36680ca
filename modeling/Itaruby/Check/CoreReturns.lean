import Itaruby.Check.CoreContainers
import Itaruby.Check.CoreNumbers

/-!
The types that the checker gives to calls of core methods, against what the methods return. The
table knows a method by its name alone; what the arguments and the block have to be like for its
answer to hold is said for each behaviour.
-/

set_option autoImplicit false
set_option relaxedAutoImplicit false

namespace Itaruby

open Ruby

/-- The entry that a call on a receiver of the type is typed by; on an instance of a project class,
where the class has no method of the name. -/
def acceptedEntry (t : Ty) (name : String) : Option CoreMethod :=
  match t with
  | .instanceOf _ => coreMethod .object name
  | t => (coreClassOf t).bind (coreEntry · name)

namespace Ruby

def Kind.ret : Kind → CoreRet
  | .int => .int
  | .float => .float
  | .str => .str
  | .sym => .sym
  | .bool => .bool
  | .nil => .nil

/-- The kind of a number that is a receiver. -/
def Datum.numberKind : Datum → Kind
  | .float _ => .float
  | _ => .int

namespace Behaviour

/-- The shape that stands for a behaviour in the tables, whatever the receiver is. -/
def plainRet : Behaviour → Option CoreRet
  | .gives kind => some kind.ret
  | .itself => some .selfSame
  | .anything => some .unknown
  | .prints => some .nil
  | _ => none

/-- The shapes that stand for a behaviour in the tables of single classes. -/
def classRets : Behaviour → List (CoreClass × CoreRet)
  | .gives .int => [(.integer, .selfSame)]
  | .gives .float => [(.float, .selfSame)]
  | .gives .str => [(.str, .selfSame)]
  | .arithmetic | .power => [(.integer, .int), (.float, .float)]
  | .compare => [(.integer, .int), (.float, .int)]
  | .relation => [(.integer, .bool), (.float, .bool)]
  | .clamp => [(.integer, .selfSame)]
  | .rounding => [(.float, .int)]
  | .walks => [(.array, .selfSame), (.hash, .selfSame)]
  | .splits => [(.str, .strArray)]
  | .substitutes => [(.str, .str)]
  | .element _ => [(.array, .elem)]
  | .toArray | .reorders | .sortsBy | .selects | .flattens | .appends | .concatenates =>
    [(.array, .selfSame)]
  | .keys => [(.hash, .keyArray)]
  | .values => [(.hash, .valArray)]
  | .merges | .toHash => [(.hash, .selfSame)]
  | _ => []

variable (P : Protocols) (A : Ancestry)

/-- What a call has to be like for the shape to be right about it. -/
def Fits (t : Ty) (call : CoreCall) : Behaviour → Prop
  | .gives _ | .itself | .anything | .toArray | .reorders | .selects | .keys | .values => True
  | .arithmetic => ArithmeticFits P call.receiver.numberKind call
  | .power => PowerFits P call.receiver.numberKind call
  | .compare => CompareFits P call
  | .relation => RelationFits P call
  | .clamp => ClampFits P call
  | .rounding => RoundingFits P call
  | .walks => call.block.isSome = true
  | .splits => call.block.isSome = false
  | .substitutes => ¬ (call.args.length = 1 ∧ call.block = none)
  | .element ending =>
    ∀ e cls l, t = .array e → call.receiver = .array cls l → ElementFits P A e ending l call.args
  | .sortsBy => call.args = [] → call.block.isSome = true
  | .flattens => ∀ e cls l, t = .array e → call.receiver = .array cls l →
    FlattensFits P A e l call.args
  | .appends => ∀ e, t = .array e → AppendsFits A e call
  | .concatenates => ∀ e, t = .array e → ConcatenatesFits P A e call.args
  | .merges => ∀ k v cls l, t = .hash k v → call.receiver = .hash cls l → MergesFits P A k v l call
  | .toHash => ∀ k v cls l, t = .hash k v → call.receiver = .hash cls l → ToHashFits P A k v l call
  | .prints => call.args = [] ∨ call.args = [.nil]

variable {P A} {t : Ty} {call : CoreCall}

theorem returns_plain_iff {b : Behaviour} {ret : CoreRet} (h : b.plainRet = some ret)
    (hrecv : t.Describes A call.receiver) :
    (∀ w, b.Returns P call w → (coreRetToTy ret t).Describes A w) ↔ b.Fits P A t call := by
  cases b with
  | gives kind =>
    cases h
    constructor
    · exact fun _ ↦ trivial
    · intro _ w hw
      have hty : coreRetToTy kind.ret t = kind.ty := by cases kind <;> rfl
      rw [hty]
      exact Kind.describes_ty.mpr hw
  | itself =>
    cases h
    constructor
    · exact fun _ ↦ trivial
    · rintro _ w rfl
      exact hrecv
  | anything =>
    cases h
    constructor
    · exact fun _ ↦ trivial
    · exact fun _ w _ ↦ Ty.describes_unknown
  | prints =>
    cases h
    obtain ⟨name, v, onSelf, args, block⟩ := call
    rcases args with _ | ⟨a, _ | ⟨b, rest⟩⟩
    · simp [Returns, Fits, coreRetToTy, Ty.Describes]
    · simp [Returns, Fits, coreRetToTy, Ty.Describes]
    · simp [Returns, Fits, coreRetToTy, Ty.Describes]
  | _ => cases h

/-- A receiver with the type of a core class: the type, and the shape of the value. -/
theorem receiver_of_class {cls : CoreClass} {v : Datum} (ht : coreClassOf t = some cls)
    (hrecv : t.Describes A v) :
    match cls with
    | .integer => t = .int ∧ ∃ n, v = .int n
    | .float => t = .float ∧ ∃ x, v = .float x
    | .str => t = .str ∧ ∃ of, v = .str of
    | .array => ∃ e of l, t = .array e ∧ v = .array of l ∧ ∀ x ∈ l, e.Describes A x
    | .hash => ∃ k w of l, t = .hash k w ∧ v = .hash of l ∧
        ∀ p ∈ l, k.Describes A p.1 ∧ w.Describes A p.2
    | _ => True := by
  cases t with
  | int =>
    cases ht
    exact ⟨rfl, hrecv⟩
  | float =>
    cases ht
    exact ⟨rfl, hrecv⟩
  | str =>
    cases ht
    exact ⟨rfl, hrecv⟩
  | array e =>
    cases ht
    obtain ⟨of, l, hv, hl⟩ := hrecv
    exact ⟨e, of, l, rfl, hv, hl⟩
  | hash k w =>
    cases ht
    obtain ⟨of, l, hv, hl⟩ := hrecv
    exact ⟨k, w, of, l, rfl, hv, hl⟩
  | sym | nil | bool =>
    cases ht
    trivial
  | _ => cases ht

theorem returns_number_iff {b : Behaviour} {ret : CoreRet} {cls : CoreClass}
    (hcls : cls = .integer ∨ cls = .float) (h : (cls, ret) ∈ b.classRets)
    (ht : coreClassOf t = some cls) (hrecv : t.Describes A call.receiver) :
    (∀ w, b.Returns P call w → (coreRetToTy ret t).Describes A w) ↔ b.Fits P A t call := by
  rcases hcls with rfl | rfl
  · obtain ⟨rfl, n, hn⟩ := receiver_of_class ht hrecv
    have hkind : call.receiver.numberKind = .int := by rw [hn]; rfl
    cases b with
    | gives kind =>
      cases kind with
      | int =>
        have hret : ret = .selfSame := by simpa [classRets] using h
        rw [hret]
        exact ⟨fun _ ↦ trivial, fun _ _ hw ↦ hw⟩
      | _ => simp [classRets] at h
    | arithmetic =>
      have hret : ret = .int := by simpa [classRets] using h
      rw [hret, Fits, hkind, ← arithmetic_int_iff hn]
      exact Iff.rfl
    | power =>
      have hret : ret = .int := by simpa [classRets] using h
      rw [hret, Fits, hkind, ← power_int_iff hn]
      exact Iff.rfl
    | compare =>
      have hret : ret = .int := by simpa [classRets] using h
      rw [hret, Fits, ← compare_iff]
      exact Iff.rfl
    | relation =>
      have hret : ret = .bool := by simpa [classRets] using h
      rw [hret, Fits, ← relation_iff]
      exact Iff.rfl
    | clamp =>
      have hret : ret = .selfSame := by simpa [classRets] using h
      rw [hret, Fits, ← clamp_iff hn]
      exact Iff.rfl
    | _ => simp [classRets] at h
  · obtain ⟨rfl, x, hx⟩ := receiver_of_class ht hrecv
    have hkind : call.receiver.numberKind = .float := by rw [hx]; rfl
    cases b with
    | gives kind =>
      cases kind with
      | float =>
        have hret : ret = .selfSame := by simpa [classRets] using h
        rw [hret]
        exact ⟨fun _ ↦ trivial, fun _ _ hw ↦ hw⟩
      | _ => simp [classRets] at h
    | arithmetic =>
      have hret : ret = .float := by simpa [classRets] using h
      rw [hret, Fits, hkind, ← arithmetic_float_iff hx]
      exact Iff.rfl
    | power =>
      have hret : ret = .float := by simpa [classRets] using h
      rw [hret, Fits, hkind, ← power_float_iff hx]
      exact Iff.rfl
    | compare =>
      have hret : ret = .int := by simpa [classRets] using h
      rw [hret, Fits, ← compare_iff]
      exact Iff.rfl
    | relation =>
      have hret : ret = .bool := by simpa [classRets] using h
      rw [hret, Fits, ← relation_iff]
      exact Iff.rfl
    | rounding =>
      have hret : ret = .int := by simpa [classRets] using h
      rw [hret, Fits, ← rounding_iff]
      exact Iff.rfl
    | _ => simp [classRets] at h

theorem returns_str_iff {b : Behaviour} {ret : CoreRet} (h : (CoreClass.str, ret) ∈ b.classRets)
    (ht : coreClassOf t = some .str) (hrecv : t.Describes A call.receiver) :
    (∀ w, b.Returns P call w → (coreRetToTy ret t).Describes A w) ↔ b.Fits P A t call := by
  obtain ⟨rfl, of, hof⟩ := receiver_of_class ht hrecv
  cases b with
  | gives kind =>
    cases kind with
    | str =>
      have hret : ret = .selfSame := by simpa [classRets] using h
      rw [hret]
      exact ⟨fun _ ↦ trivial, fun _ _ hw ↦ hw⟩
    | _ => simp [classRets] at h
  | splits =>
    have hret : ret = .strArray := by simpa [classRets] using h
    simp only [hret, Returns, Fits, coreRetToTy]
    cases hblock : call.block.isSome with
    | true =>
      simp only [if_true, forall_eq, hof]
      constructor
      · rintro ⟨_, _, heq, -⟩
        cases heq
      · intro hfalse
        cases hfalse
    | false =>
      constructor
      · exact fun _ ↦ rfl
      · rintro - w ⟨l, rfl, hl⟩
        rw [Ty.describes_array]
        exact fun x hx ↦ ⟨none, hl x hx⟩
  | substitutes =>
    have hret : ret = .str := by simpa [classRets] using h
    simp only [hret, Returns, Fits, coreRetToTy]
    by_cases hone : call.args.length = 1 ∧ call.block = none
    · simp only [hone, and_self, if_true, forall_eq, not_true_eq_false, iff_false]
      rintro ⟨_, heq⟩
      cases heq
    · simp only [hone, if_false, not_false_eq_true, iff_true]
      exact fun w hw ↦ hw
  | _ => simp [classRets] at h

/-- The receiver after its block was called, an enumerator where there is none. -/
theorem walks_iff (hrecv : t.Describes A call.receiver)
    (henum : ¬ t.Describes A (.foreign .enumerator)) :
    (∀ w, Returns P call w .walks → t.Describes A w) ↔ call.block.isSome = true := by
  simp only [Returns]
  cases hblock : call.block.isSome with
  | true => simpa using hrecv
  | false => simpa using henum

theorem returns_array_iff {b : Behaviour} {ret : CoreRet}
    (h : (CoreClass.array, ret) ∈ b.classRets) (ht : coreClassOf t = some .array)
    (hrecv : t.Describes A call.receiver) :
    (∀ w, b.Returns P call w → (coreRetToTy ret t).Describes A w) ↔ b.Fits P A t call := by
  obtain ⟨e, of, l, rfl, hof, hl⟩ := receiver_of_class ht hrecv
  have henum : ¬ (Ty.array e).Describes A (.foreign .enumerator) := by
    rintro ⟨_, _, heq, -⟩
    cases heq
  cases b with
  | gives kind => cases kind <;> simp [classRets] at h
  | element ending =>
    have hret : ret = .elem := by simpa [classRets] using h
    rw [hret]
    constructor
    · rintro hall _ _ _ hte hrecv'
      cases hte
      cases hof.symm.trans hrecv'
      exact (element_iff hof hl).mp hall
    · exact fun hfits ↦ (element_iff hof hl).mpr (hfits e of l rfl hof)
  | walks =>
    have hret : ret = .selfSame := by simpa [classRets] using h
    rw [hret]
    exact walks_iff hrecv henum
  | toArray =>
    have hret : ret = .selfSame := by simpa [classRets] using h
    rw [hret]
    constructor
    · exact fun _ ↦ trivial
    · rintro - w ⟨_, _, l', heq, rfl⟩
      cases hof.symm.trans heq
      exact Ty.describes_array.mpr hl
  | reorders =>
    have hret : ret = .selfSame := by simpa [classRets] using h
    rw [hret]
    constructor
    · exact fun _ ↦ trivial
    · rintro - w ⟨_, l', l'', heq, hperm, rfl⟩
      cases hof.symm.trans heq
      exact Ty.describes_array.mpr fun x hx ↦ hl x (hperm.mem_iff.mp hx)
  | selects =>
    have hret : ret = .selfSame := by simpa [classRets] using h
    rw [hret]
    constructor
    · exact fun _ ↦ trivial
    · rintro - w ⟨_, l', l'', heq, hsub, rfl⟩
      cases hof.symm.trans heq
      exact Ty.describes_array.mpr fun x hx ↦ hl x (hsub.subset hx)
  | sortsBy =>
    have hret : ret = .selfSame := by simpa [classRets] using h
    rw [hret]
    constructor
    · intro hall hargs
      by_contra hblock
      exact henum (hall _ ⟨hargs, by rw [if_neg hblock]⟩)
    · rintro hfits w ⟨hargs, hw⟩
      rw [if_pos (hfits hargs)] at hw
      obtain ⟨_, l', l'', heq, hperm, rfl⟩ := hw
      cases hof.symm.trans heq
      exact Ty.describes_array.mpr fun x hx ↦ hl x (hperm.mem_iff.mp hx)
  | flattens =>
    have hret : ret = .selfSame := by simpa [classRets] using h
    rw [hret]
    constructor
    · rintro hall _ _ _ hte hrecv'
      cases hte
      cases hof.symm.trans hrecv'
      exact (flattens_iff hof).mp hall
    · exact fun hfits ↦ (flattens_iff hof).mpr (hfits e of l rfl hof)
  | appends =>
    have hret : ret = .selfSame := by simpa [classRets] using h
    rw [hret]
    constructor
    · rintro hall _ hte
      cases hte
      exact (appends_iff hof hl).mp hall
    · exact fun hfits ↦ (appends_iff hof hl).mpr (hfits e rfl)
  | concatenates =>
    have hret : ret = .selfSame := by simpa [classRets] using h
    rw [hret]
    constructor
    · rintro hall _ hte
      cases hte
      exact (concatenates_iff hof hl).mp hall
    · exact fun hfits ↦ (concatenates_iff hof hl).mpr (hfits e rfl)
  | _ => simp [classRets] at h

theorem returns_hash_iff {b : Behaviour} {ret : CoreRet}
    (h : (CoreClass.hash, ret) ∈ b.classRets) (ht : coreClassOf t = some .hash)
    (hrecv : t.Describes A call.receiver) :
    (∀ w, b.Returns P call w → (coreRetToTy ret t).Describes A w) ↔ b.Fits P A t call := by
  obtain ⟨k, v, of, l, rfl, hof, hl⟩ := receiver_of_class ht hrecv
  cases b with
  | gives kind => cases kind <;> simp [classRets] at h
  | walks =>
    have hret : ret = .selfSame := by simpa [classRets] using h
    rw [hret]
    apply walks_iff hrecv
    rintro ⟨_, _, heq, -⟩
    cases heq
  | keys =>
    have hret : ret = .keyArray := by simpa [classRets] using h
    rw [hret]
    constructor
    · exact fun _ ↦ trivial
    · rintro - w ⟨_, l', heq, rfl⟩
      cases hof.symm.trans heq
      apply Ty.describes_array.mpr
      intro x hx
      obtain ⟨p, hp, rfl⟩ := List.mem_map.mp hx
      exact (hl p hp).1
  | values =>
    have hret : ret = .valArray := by simpa [classRets] using h
    rw [hret]
    constructor
    · exact fun _ ↦ trivial
    · rintro - w ⟨_, l', heq, rfl⟩
      cases hof.symm.trans heq
      apply Ty.describes_array.mpr
      intro x hx
      obtain ⟨p, hp, rfl⟩ := List.mem_map.mp hx
      exact (hl p hp).2
  | merges =>
    have hret : ret = .selfSame := by simpa [classRets] using h
    rw [hret]
    constructor
    · rintro hall _ _ _ _ hte hrecv'
      cases hte
      cases hof.symm.trans hrecv'
      exact (merges_iff hof hl).mp hall
    · exact fun hfits ↦ (merges_iff hof hl).mpr (hfits k v of l rfl hof)
  | toHash =>
    have hret : ret = .selfSame := by simpa [classRets] using h
    rw [hret]
    constructor
    · rintro hall _ _ _ _ hte hrecv'
      cases hte
      cases hof.symm.trans hrecv'
      exact (toHash_iff hof hl).mp hall
    · exact fun hfits ↦ (toHash_iff hof hl).mpr (hfits k v of l rfl hof)
  | _ => simp [classRets] at h

/-- A shape that stands for a behaviour in the table of a class is right about the calls that fit
it, and about no others. -/
theorem returns_iff {b : Behaviour} {ret : CoreRet} {cls : CoreClass}
    (h : b.plainRet = some ret ∨ (cls, ret) ∈ b.classRets) (ht : coreClassOf t = some cls)
    (hrecv : t.Describes A call.receiver) :
    (∀ w, b.Returns P call w → (coreRetToTy ret t).Describes A w) ↔ b.Fits P A t call := by
  rcases h with h | h
  · exact returns_plain_iff h hrecv
  · cases cls with
    | integer => exact returns_number_iff (.inl rfl) h ht hrecv
    | float => exact returns_number_iff (.inr rfl) h ht hrecv
    | str => exact returns_str_iff h ht hrecv
    | array => exact returns_array_iff h ht hrecv
    | hash => exact returns_hash_iff h ht hrecv
    | _ =>
      cases b with
      | gives kind => cases kind <;> simp [classRets] at h
      | _ => simp [classRets] at h

end Behaviour

/-! ### The tables -/

/-- Every class that values answer with. -/
def CoreClass.ofValues : List CoreClass :=
  [.integer, .float, .str, .sym, .array, .hash, .nil, .bool]

/-- The tables against the behaviours. Every entry of `Object` is of a method that every value has,
and has a shape for it; a class that has such a method of its own leaves the shape as it is; and
every entry of a class is of a method that its values have, with a shape for it. -/
theorem tables_typed :
    (∀ row ∈ objectMethods, ∀ name ∈ row.1,
      (behaviourOf .object name).any (fun p ↦ decide (p.1.plainRet = some row.2.ret)) = true) ∧
    (∀ cls ∈ CoreClass.ofValues, ∀ row ∈ coreBehaviours cls, ∀ name ∈ row.1,
      (coreMethod .object name).all (fun cm ↦ decide (row.2.plainRet = some cm.ret)) = true) ∧
    ∀ cls ∈ CoreClass.ofValues, ∀ row ∈ coreMethods cls, ∀ name ∈ row.1,
      (behaviourOf cls name).any (fun p ↦
        decide (p.1.plainRet = some row.2.ret ∨ (cls, row.2.ret) ∈ p.1.classRets)) = true := by
  decide +kernel

theorem mem_ofValues {cls : CoreClass} (h : cls ≠ .object) : cls ∈ CoreClass.ofValues := by
  cases cls with
  | object => exact absurd rfl h
  | _ => decide

theorem coreClass_of_describes {A : Ancestry} {t : Ty} {v : Datum} {cls : CoreClass}
    (ht : coreClassOf t = some cls) (hv : t.Describes A v) : v.coreClass = cls := by
  cases t with
  | nil | sym =>
    cases ht
    cases hv
    rfl
  | bool | int | float | str =>
    cases ht
    obtain ⟨_, rfl⟩ := hv
    rfl
  | array e =>
    cases ht
    obtain ⟨_, _, rfl, -⟩ := hv
    rfl
  | hash k w =>
    cases ht
    obtain ⟨_, _, rfl, -⟩ := hv
    rfl
  | _ => cases ht

theorem coreMethod_object_typed {name : String} {cm : CoreMethod} (cls : CoreClass)
    (h : coreMethod .object name = some cm) :
    ∃ b hidden, behaviourOf cls name = some (b, hidden) ∧ b.plainRet = some cm.ret := by
  cases hown : methodNamed (coreBehaviours cls) name with
  | some b =>
    obtain ⟨row, hrow, hname, rfl⟩ := methodNamed_eq_some hown
    have hcls : cls ≠ .object := by
      rintro rfl
      cases hrow
    have hret := tables_typed.2.1 cls (mem_ofValues hcls) row hrow name hname
    rw [h, Option.all_some] at hret
    exact ⟨row.2, false, by simp [behaviourOf, hown], of_decide_eq_true hret⟩
  | none =>
    have hobject : behaviourOf cls name = behaviourOf .object name := by
      have hnone : methodNamed (coreBehaviours .object) name = none := rfl
      rw [behaviourOf, behaviourOf, hown, hnone]
    obtain ⟨row, hrow, hname, rfl⟩ := methodNamed_eq_some h
    have hrow := tables_typed.1 row hrow name hname
    rw [← hobject] at hrow
    obtain ⟨⟨b, hidden⟩, hb, hret⟩ := (Option.any_eq_true _ _).mp hrow
    exact ⟨b, hidden, hb, of_decide_eq_true hret⟩

theorem coreEntry_typed {name : String} {cm : CoreMethod} {cls : CoreClass}
    (h : coreEntry cls name = some cm) :
    ∃ b hidden, behaviourOf cls name = some (b, hidden) ∧
      (b.plainRet = some cm.ret ∨ (cls, cm.ret) ∈ b.classRets) := by
  have hobject (h : coreMethod .object name = some cm) :
      ∃ b hidden, behaviourOf cls name = some (b, hidden) ∧
        (b.plainRet = some cm.ret ∨ (cls, cm.ret) ∈ b.classRets) := by
    obtain ⟨b, hidden, hb, hret⟩ := coreMethod_object_typed cls h
    exact ⟨b, hidden, hb, .inl hret⟩
  rcases Option.or_eq_some_iff.mp h with h | ⟨-, h⟩
  · by_cases hcls : cls = .object
    · rw [hcls] at h
      exact hobject h
    · obtain ⟨row, hrow, hname, rfl⟩ := methodNamed_eq_some h
      have hrow := tables_typed.2.2 cls (mem_ofValues hcls) row hrow name hname
      obtain ⟨⟨b, hidden⟩, hb, hret⟩ := (Option.any_eq_true _ _).mp hrow
      exact ⟨b, hidden, hb, of_decide_eq_true hret⟩
  · exact hobject h

variable (P : Protocols) (A : Ancestry)

/-- The arguments and the block leave what is returned as the table has it, if the call reaches
the method at all. -/
def CoreCall.Fits (t : Ty) (call : CoreCall) : Prop :=
  ∀ b hidden, behaviourOf call.receiver.coreClass call.name = some (b, hidden) →
    (hidden = true → call.onSelf = true) → b.Fits P A t call

end Ruby

variable {P : Protocols} {A : Ancestry}

/-- The type of a core call describes all that the call can return, if and only if its arguments
and its block fit the entry. -/
theorem coreRetToTy_describes_iff {t : Ty} {cm : CoreMethod} {call : CoreCall}
    (haccepted : acceptedEntry t call.name = some cm) (hrecv : t.Describes A call.receiver) :
    (∀ w, call.Returns P w → (coreRetToTy cm.ret t).Describes A w) ↔ call.Fits P A t := by
  have hentry : ∃ b hidden, behaviourOf call.receiver.coreClass call.name = some (b, hidden) ∧
      ((∀ w, b.Returns P call w → (coreRetToTy cm.ret t).Describes A w) ↔ b.Fits P A t call) := by
    by_cases hinst : ∃ c, t = .instanceOf c
    · obtain ⟨c, rfl⟩ := hinst
      obtain ⟨b, hidden, hb, hret⟩ := coreMethod_object_typed call.receiver.coreClass haccepted
      exact ⟨b, hidden, hb, Behaviour.returns_plain_iff hret hrecv⟩
    · have hclass : (coreClassOf t).bind (coreEntry · call.name) = some cm := by
        rw [← haccepted]
        unfold acceptedEntry
        split
        · exact absurd ⟨_, rfl⟩ hinst
        · rfl
      obtain ⟨cls, ht, hentry⟩ := Option.bind_eq_some_iff.mp hclass
      obtain ⟨b, hidden, hb, hret⟩ := coreEntry_typed hentry
      rw [coreClass_of_describes ht hrecv]
      exact ⟨b, hidden, hb, Behaviour.returns_iff hret ht hrecv⟩
  obtain ⟨b, hidden, hb, hiff⟩ := hentry
  constructor
  · intro h b' hidden' hb' hself
    cases hb.symm.trans hb'
    exact hiff.mp fun w hw ↦ h w ⟨b, hidden, hb, hself, hw⟩
  · rintro h w ⟨b', hidden', hb', hself, hw⟩
    cases hb.symm.trans hb'
    exact hiff.mpr (h b hidden hb hself) w hw

/-! ### Calls of one method with different arguments -/

/-- Values that convert to nothing else; strings and containers are no keys here. -/
def Ruby.Protocols.plain : Protocols where
  coerced name _ _ w := name = "<=>" ∧ w = .nil
  toInt _ := none
  toAry _ := none
  toHash _ := none
  less _ _ := False
  sameKey v w :=
    match v, w with
    | .nil, .nil | .sym, .sym => true
    | .bool b, .bool c => b == c
    | .int m, .int n => m == n
    | .rational q, .rational r => q == r
    | _, _ => false

/-- `["a"] + ["b"]` -/
def Ruby.CoreCall.stringsJoined : CoreCall where
  name := "+"
  receiver := .array none [.str none]
  onSelf := false
  args := [.array none [.str none]]
  block := none

theorem stringsJoined_describes :
    CoreCall.stringsJoined.Fits Protocols.plain Ancestry.apart (.array .str) ∧
      ∀ w, CoreCall.stringsJoined.Returns Protocols.plain w →
        (coreRetToTy .selfSame (.array .str)).Describes Ancestry.apart w := by
  have hstr : Ty.str.Describes Ancestry.apart (.str none) := ⟨none, rfl⟩
  have haccepted : acceptedEntry (.array .str) CoreCall.stringsJoined.name =
      some ⟨1, some 1, .selfSame⟩ := by rfl
  have hrecv : (Ty.array .str).Describes Ancestry.apart CoreCall.stringsJoined.receiver :=
    Ty.describes_array.mpr fun x hx ↦ List.mem_singleton.mp hx ▸ hstr
  have hfits : CoreCall.stringsJoined.Fits Protocols.plain Ancestry.apart (.array .str) := by
    intro b hidden hb _
    have hplus : behaviourOf .array "+" = some (.concatenates, false) := by rfl
    cases hplus.symm.trans hb
    rintro e hte l' hl' x hx
    cases hte
    cases hl'
    rw [List.append_nil] at hx
    exact List.mem_singleton.mp hx ▸ hstr
  exact ⟨hfits, (coreRetToTy_describes_iff haccepted hrecv).mpr hfits⟩

/-- A call within the arity of its entry can return what its type does not describe. -/
def Ruby.CoreCall.Mistyped (P : Protocols) (A : Ancestry) (t : Ty) (call : CoreCall) : Prop :=
  ∃ cm w, acceptedEntry t call.name = some cm ∧ t.Describes A call.receiver ∧
    cm.Accepts call.args.length ∧ call.Returns P w ∧ ¬ (coreRetToTy cm.ret t).Describes A w

/-- `1 + 1.5`, `[1].first(1)`, `[1] + ["a"]` and `[[1]].flatten` -/
theorem coreCalls_mistyped :
    CoreCall.Mistyped Protocols.plain Ancestry.apart .int
        ⟨"+", .int 1, false, [.float (.finite (3 / 2))], none⟩ ∧
      CoreCall.Mistyped Protocols.plain Ancestry.apart (.array .int)
        ⟨"first", .array none [.int 1], false, [.int 1], none⟩ ∧
      CoreCall.Mistyped Protocols.plain Ancestry.apart (.array .int)
        ⟨"+", .array none [.int 1], false, [.array none [.str none]], none⟩ ∧
      CoreCall.Mistyped Protocols.plain Ancestry.apart (.array (.array .int))
        ⟨"flatten", .array none [.array none [.int 1]], false, [], none⟩ := by
  have hone : Ty.int.Describes Ancestry.apart (.int 1) := ⟨1, rfl⟩
  have hones : (Ty.array .int).Describes Ancestry.apart (.array none [.int 1]) :=
    Ty.describes_array.mpr fun x hx ↦ List.mem_singleton.mp hx ▸ hone
  have hnested : (Ty.array (.array .int)).Describes Ancestry.apart
      (.array none [.array none [.int 1]]) :=
    Ty.describes_array.mpr fun x hx ↦ List.mem_singleton.mp hx ▸ hones
  refine ⟨?_, ?_, ?_, ?_⟩
  · refine ⟨⟨1, some 1, .int⟩, .float (.finite (5 / 2)), by rfl, hone, by decide,
      ⟨.arithmetic, false, by rfl, nofun, ⟨_, rfl⟩⟩, ?_⟩
    rintro ⟨_, heq⟩
    cases heq
  · refine ⟨⟨0, some 1, .elem⟩, .array none [.int 1], by rfl, hones, by decide,
      ⟨.element .front, false, by rfl, nofun, _, _, rfl, .inr ⟨1, rfl, _, rfl, rfl⟩⟩, ?_⟩
    rintro ⟨_, heq⟩
    cases heq
  · refine ⟨⟨1, some 1, .selfSame⟩, .array none [.int 1, .str none], by rfl, hones,
      by decide,
      ⟨.concatenates, false, by rfl, nofun, _, none, _, _, rfl, rfl, rfl⟩, ?_⟩
    intro h
    obtain ⟨_, heq⟩ := Ty.describes_array.mp h (.str none) (by simp)
    cases heq
  · have hflat : Protocols.plain.Flattened none [.array none [.int 1]] [.int 1] :=
      .deep _ [.int 1] [] [.int 1] [] rfl (.leaf none _ [] [] rfl (.nil none)) (.nil none)
    refine ⟨⟨0, some 1, .selfSame⟩, .array none [.int 1], by rfl, hnested, by decide,
      ⟨.flattens, false, by rfl, nofun, _, _, none, _, rfl, rfl, hflat, rfl⟩, ?_⟩
    intro h
    obtain ⟨_, _, heq, -⟩ := Ty.describes_array.mp h (.int 1) (by simp)
    cases heq

end Itaruby
