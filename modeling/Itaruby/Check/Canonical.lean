import Itaruby.Check.CoreMethods
import Itaruby.Check.Reading
import Itaruby.Check.Signatures
import Itaruby.Check.SorbetSig
import Mathlib.Data.Set.Lattice

/-!
Canonical types. A union in them has at least two members, all different, and no member
is a union or `unknown`. Canonical types form a join semilattice up to the order of
members, with `unknown` on top, and what the checker does with types stays in it.
-/

set_option autoImplicit false
set_option relaxedAutoImplicit false

namespace Itaruby

namespace Ty

/-! ### The canonical form -/

/-- What may stand in a union. -/
def IsMember (t : Ty) : Prop := t ≠ .unknown ∧ ∀ ts, t ≠ .union ts

inductive Canonical : Ty → Prop
  | unknown : Canonical .unknown
  | nil : Canonical .nil
  | bool : Canonical .bool
  | int : Canonical .int
  | float : Canonical .float
  | str : Canonical .str
  | sym : Canonical .sym
  | instanceOf (c : ClassId) : Canonical (.instanceOf c)
  | classOf (c : ClassId) : Canonical (.classOf c)
  | array {elem : Ty} : Canonical elem → Canonical (.array elem)
  | hash {key value : Ty} : Canonical key → Canonical value → Canonical (.hash key value)
  | union {ts : List Ty} : 2 ≤ ts.length → ts.Nodup → (∀ t ∈ ts, Canonical t) →
      (∀ t ∈ ts, IsMember t) → Canonical (.union ts)

/-- The members of a type. `unknown` may be anything. -/
def members : Ty → Set Ty
  | .unknown => Set.univ
  | t => {u | u ∈ t.parts}

/-- The same members in any order. -/
def Reordered (a b : Ty) : Prop := a.parts.Perm b.parts

/-! ### Members -/

/-- The list of the members of a canonical type other than `unknown`. -/
structure MemberList (ts : List Ty) : Prop where
  ne_nil : ts ≠ []
  nodup : ts.Nodup
  canonical : ∀ t ∈ ts, Canonical t
  isMember : ∀ t ∈ ts, IsMember t

theorem IsMember.parts_eq {t : Ty} (h : IsMember t) : t.parts = [t] := by
  cases t with
  | union ts => exact absurd rfl (h.2 ts)
  | _ => rfl

theorem Canonical.memberList {t : Ty} (h : Canonical t) (hunknown : t ≠ .unknown) :
    MemberList t.parts := by
  have hone : IsMember t → MemberList t.parts := by
    intro hmember
    rw [hmember.parts_eq]
    exact ⟨List.cons_ne_nil _ _, List.nodup_singleton t, by simpa using h, by simpa using hmember⟩
  cases h with
  | unknown => exact absurd rfl hunknown
  | union hlength hnodup hcanonical hmember =>
    refine ⟨?_, hnodup, hcanonical, hmember⟩
    exact List.ne_nil_of_length_pos (Nat.lt_of_lt_of_le Nat.zero_lt_two hlength)
  | _ => exact hone ⟨hunknown, fun ts ↦ nofun⟩

theorem MemberList.canonical_gathered {ts : List Ty} (h : MemberList ts) :
    Canonical (gathered ts) := by
  unfold gathered
  split
  · exact h.canonical _ List.mem_cons_self
  · next hmany =>
    refine .union ?_ h.nodup h.canonical h.isMember
    match ts, h.ne_nil, hmany with
    | [t], _, hmany => exact absurd rfl (hmany t)
    | _ :: _ :: _, _, _ => simp

theorem MemberList.parts_gathered {ts : List Ty} (h : MemberList ts) :
    (gathered ts).parts = ts := by
  unfold gathered
  split
  · exact (h.isMember _ List.mem_cons_self).parts_eq
  · rfl

theorem MemberList.gathered_ne_unknown {ts : List Ty} (h : MemberList ts) :
    gathered ts ≠ .unknown := by
  unfold gathered
  split
  · exact (h.isMember _ List.mem_cons_self).1
  · exact fun heq ↦ nomatch heq

theorem Canonical.gathered_parts {t : Ty} (h : Canonical t) (hunknown : t ≠ .unknown) :
    gathered t.parts = t := by
  cases h with
  | unknown => exact absurd rfl hunknown
  | @union ts hlength =>
    unfold gathered
    split
    · next heq =>
      rw [show ts = [_] from heq] at hlength
      simp at hlength
    · rfl
  | _ => rfl

theorem members_eq {t : Ty} (hunknown : t ≠ .unknown) : t.members = {u | u ∈ t.parts} := by
  unfold members
  split
  · exact absurd rfl hunknown
  · rfl

/-! ### The join -/

/-- The members of two types without repetition. -/
def joinedParts (a b : Ty) : List Ty := (a.parts ++ b.parts).foldl pushUnique []

theorem mem_joinedParts {a b t : Ty} : t ∈ joinedParts a b ↔ t ∈ a.parts ∨ t ∈ b.parts := by
  unfold joinedParts
  rw [mem_foldl_pushUnique, List.mem_append]
  simp

section Join

variable {a b c : Ty}

theorem MemberList.joined (ha : MemberList a.parts) (hb : MemberList b.parts) :
    MemberList (joinedParts a b) := by
  refine ⟨?_, nodup_foldl_pushUnique _ List.nodup_nil, fun t ht ↦ ?_, fun t ht ↦ ?_⟩
  · obtain ⟨t, ht⟩ := List.exists_mem_of_ne_nil _ ha.ne_nil
    exact List.ne_nil_of_mem (mem_joinedParts.mpr (.inl ht))
  · rcases mem_joinedParts.mp ht with h | h
    · exact ha.canonical t h
    · exact hb.canonical t h
  · rcases mem_joinedParts.mp ht with h | h
    · exact ha.isMember t h
    · exact hb.isMember t h

/-- The shortcut for equal types gives what the members give. -/
theorem join_eq_gathered (ha : Canonical a) (hane : a ≠ .unknown) (hbne : b ≠ .unknown) :
    a.join b = gathered (joinedParts a b) := by
  unfold join
  by_cases heq : a = b
  · subst heq
    have hself : joinedParts a a = a.parts := by
      unfold joinedParts
      have hnodup : ([] ++ a.parts).Nodup := (ha.memberList hane).nodup
      rw [List.foldl_append, foldl_pushUnique_of_nodup hnodup]
      exact foldl_pushUnique_subset (List.Subset.refl _)
    rw [if_pos rfl, hself, ha.gathered_parts hane]
  · rw [if_neg heq, if_neg (by simp [hane, hbne])]
    rfl

theorem join_eq_unknown_of (h : a = .unknown ∨ b = .unknown) : a.join b = .unknown := by
  rcases h with rfl | rfl
  · exact unknown_join b
  · exact join_unknown a

theorem parts_join (ha : Canonical a) (hb : Canonical b) (hane : a ≠ .unknown)
    (hbne : b ≠ .unknown) : (a.join b).parts = joinedParts a b := by
  rw [join_eq_gathered ha hane hbne]
  exact ((ha.memberList hane).joined (hb.memberList hbne)).parts_gathered

theorem Canonical.join (ha : Canonical a) (hb : Canonical b) : Canonical (a.join b) := by
  by_cases hunknown : a = .unknown ∨ b = .unknown
  · rw [join_eq_unknown_of hunknown]
    exact .unknown
  · rw [not_or] at hunknown
    rw [join_eq_gathered ha hunknown.1 hunknown.2]
    exact ((ha.memberList hunknown.1).joined (hb.memberList hunknown.2)).canonical_gathered

theorem join_eq_unknown_iff (ha : Canonical a) (hb : Canonical b) :
    a.join b = .unknown ↔ a = .unknown ∨ b = .unknown := by
  refine ⟨fun h ↦ ?_, join_eq_unknown_of⟩
  by_contra hunknown
  rw [not_or] at hunknown
  rw [join_eq_gathered ha hunknown.1 hunknown.2] at h
  exact ((ha.memberList hunknown.1).joined (hb.memberList hunknown.2)).gathered_ne_unknown h

theorem members_join (ha : Canonical a) (hb : Canonical b) :
    (a.join b).members = a.members ∪ b.members := by
  by_cases hunknown : a = .unknown ∨ b = .unknown
  · rw [join_eq_unknown_of hunknown]
    rcases hunknown with rfl | rfl
    · exact (Set.univ_union _).symm
    · exact (Set.union_univ _).symm
  · have hne : a.join b ≠ .unknown := fun h ↦ hunknown ((join_eq_unknown_iff ha hb).mp h)
    rw [not_or] at hunknown
    rw [members_eq hne, members_eq hunknown.1, members_eq hunknown.2,
      parts_join ha hb hunknown.1 hunknown.2]
    ext t
    exact mem_joinedParts

/-- Canonical types with the same members differ in their order only. -/
theorem reordered_of_members (ha : Canonical a) (hb : Canonical b)
    (hunknown : a = .unknown ↔ b = .unknown) (h : a.members = b.members) : Reordered a b := by
  by_cases hane : a = .unknown
  · rw [hane, hunknown.mp hane]
    exact List.Perm.refl _
  · have hbne : b ≠ .unknown := fun h ↦ hane (hunknown.mpr h)
    rw [members_eq hane, members_eq hbne] at h
    refine (List.perm_ext_iff_of_nodup (ha.memberList hane).nodup (hb.memberList hbne).nodup).mpr ?_
    exact fun t ↦ Set.ext_iff.mp h t

theorem join_comm_reordered (ha : Canonical a) (hb : Canonical b) :
    Reordered (a.join b) (b.join a) := by
  refine reordered_of_members (ha.join hb) (hb.join ha) ?_ ?_
  · rw [join_eq_unknown_iff ha hb, join_eq_unknown_iff hb ha, or_comm]
  · rw [members_join ha hb, members_join hb ha, Set.union_comm]

theorem join_assoc_reordered (ha : Canonical a) (hb : Canonical b) (hc : Canonical c) :
    Reordered ((a.join b).join c) (a.join (b.join c)) := by
  refine reordered_of_members ((ha.join hb).join hc) (ha.join (hb.join hc)) ?_ ?_
  · rw [join_eq_unknown_iff (ha.join hb) hc, join_eq_unknown_iff ha hb,
      join_eq_unknown_iff ha (hb.join hc), join_eq_unknown_iff hb hc, or_assoc]
  · rw [members_join (ha.join hb) hc, members_join ha hb, members_join ha (hb.join hc),
      members_join hb hc, Set.union_assoc]

theorem Canonical.foldl_join {t : Ty} {ts : List Ty} (ht : Canonical t)
    (hts : ∀ u ∈ ts, Canonical u) : Canonical (ts.foldl Ty.join t) := by
  induction ts generalizing t with
  | nil => exact ht
  | cons u ts ih =>
    exact ih (ht.join (hts u List.mem_cons_self)) fun v hv ↦ hts v (List.mem_cons_of_mem _ hv)

end Join

/-- Fewer members of a union make a canonical type, if any is left. -/
theorem Canonical.filter {ts : List Ty} (h : Canonical (.union ts)) (p : Ty → Bool)
    (hne : ts.filter p ≠ []) : Canonical (gathered (ts.filter p)) := by
  cases h with
  | union hlength hnodup hcanonical hmember =>
    exact MemberList.canonical_gathered ⟨hne, hnodup.filter p,
      fun t ht ↦ hcanonical t (List.mem_of_mem_filter ht),
      fun t ht ↦ hmember t (List.mem_of_mem_filter ht)⟩

end Ty

open Ty (Canonical)

/-! ### Narrowing -/

theorem stripNil_union (parts : List Ty) :
    stripNil (.union parts) = .unknown ∧ parts.filter (· ≠ .nil) = [] ∨
      stripNil (.union parts) = Ty.gathered (parts.filter (· ≠ .nil)) ∧
        parts.filter (· ≠ .nil) ≠ [] := by
  simp only [stripNil]
  split
  · next hempty => exact .inl ⟨rfl, hempty⟩
  · next single heq =>
    rw [heq]
    exact .inr ⟨rfl, List.cons_ne_nil _ _⟩
  · next hne hmany =>
    refine .inr ⟨?_, hne⟩
    unfold Ty.gathered
    split
    · next single heq => exact absurd heq (hmany single)
    · rfl

theorem canonical_stripNil {t : Ty} (h : Canonical t) : Canonical (stripNil t) := by
  cases t with
  | nil => exact .unknown
  | union parts =>
    rcases stripNil_union parts with ⟨heq, -⟩ | ⟨heq, hne⟩
    · rw [heq]
      exact .unknown
    · rw [heq]
      exact h.filter _ hne
  | _ => exact h

theorem canonical_eliminateUnionMember {cur tested narrowed : Ty} (h : Canonical cur)
    (hnarrowed : eliminateUnionMember cur tested = some narrowed) : Canonical narrowed := by
  obtain ⟨parts, rfl, -, -, hne, rfl⟩ := Ty.eliminateUnionMember_eq hnarrowed
  exact h.filter _ hne

/-! ### Environments -/

namespace Env

def Canonical (env : Env) : Prop := ∀ name t, env name = some t → t.Canonical

theorem Canonical.join {base : Env} {branches : List Env} (hbase : base.Canonical)
    (hbranches : ∀ branch ∈ branches, branch.Canonical) : (base.join branches).Canonical := by
  intro name t ht
  have hin : ∀ branch ∈ branches, (inBranch base branch name).Canonical := by
    intro branch hbranch
    unfold inBranch
    cases hown : branch name with
    | some u => exact hbranches branch hbranch name u hown
    | none =>
      cases hold : base name with
      | some u => exact hbase name u hold
      | none => exact .nil
  unfold Env.join at ht
  split_ifs at ht
  · split at ht
    · exact hbase name t ht
    · next first rest hmap =>
      obtain rfl := Option.some.inj ht
      have hall : ∀ u ∈ first :: rest, u.Canonical := by
        intro u hu
        rw [← hmap] at hu
        obtain ⟨branch, hbranch, rfl⟩ := List.mem_map.mp hu
        exact hin branch hbranch
      exact Ty.Canonical.foldl_join (hall first List.mem_cons_self)
        fun u hu ↦ hall u (List.mem_cons_of_mem _ hu)
  · exact hbase name t ht

theorem Canonical.mergeLoop {base body : Env} (hbase : base.Canonical) (hbody : body.Canonical) :
    (base.mergeLoop body).Canonical := by
  intro name t ht
  unfold Env.mergeLoop at ht
  split at ht
  · exact hbase name t ht
  · next v hv =>
    split at ht
    · next prev hprev =>
      split_ifs at ht
      · obtain rfl := Option.some.inj ht
        exact hbase name _ hprev
      · obtain rfl := Option.some.inj ht
        exact (hbase name _ hprev).join (hbody name _ hv)
    · obtain rfl := Option.some.inj ht
      exact Ty.Canonical.nil.join (hbody name _ hv)

theorem Canonical.spillBlockWrites {outer block : Env} (houter : outer.Canonical)
    (hblock : block.Canonical) : (outer.spillBlockWrites block).Canonical := by
  intro name t ht
  unfold Env.spillBlockWrites at ht
  split at ht
  · next v prev hv hprev =>
    split_ifs at ht
    · obtain rfl := Option.some.inj ht
      exact houter name _ hprev
    · obtain rfl := Option.some.inj ht
      exact (houter name _ hprev).join (hblock name _ hv)
  · exact houter name t ht

end Env

/-! ### Types read off signatures and tables -/

theorem canonical_instanceOf (target : Option ClassId) :
    Canonical (target.elim .unknown .instanceOf) := by
  cases target with
  | none => exact .unknown
  | some c => exact .instanceOf c

theorem canonical_builtinTy {selfClass : Option ClassId} {name : String} {t : Ty}
    (h : builtinTy selfClass name = some t) : Canonical t := by
  unfold builtinTy at h
  split_ifs at h
  · exact Option.some.inj h ▸ .int
  · exact Option.some.inj h ▸ .float
  · exact Option.some.inj h ▸ .str
  · exact Option.some.inj h ▸ .sym
  · exact Option.some.inj h ▸ .bool
  · exact Option.some.inj h ▸ .nil
  · exact Option.some.inj h ▸ .unknown
  · exact Option.some.inj h ▸ canonical_instanceOf selfClass

theorem canonical_genericTy (name : String) {ts : List Ty} (h : ∀ t ∈ ts, Canonical t) :
    Canonical (genericTy name ts) := by
  unfold genericTy
  split
  · split_ifs
    · exact .array (h _ List.mem_cons_self)
    · exact .unknown
  · split_ifs
    · exact .hash (h _ List.mem_cons_self) (h _ (List.mem_cons_of_mem _ List.mem_cons_self))
    · exact .unknown
  · exact .unknown

theorem canonical_reduceJoin {ts : List Ty} (h : ∀ t ∈ ts, Canonical t) :
    Canonical (reduceJoin ts) := by
  cases ts with
  | nil => exact .unknown
  | cons t ts =>
    exact (h t List.mem_cons_self).foldl_join fun u hu ↦ h u (List.mem_cons_of_mem _ hu)

section Rbs

variable (resolve : ConstPath → Option ClassId) (selfClass : Option ClassId)
  (typeParams : List String)

theorem canonical_simpleTy (name : String) :
    Canonical (simpleTy resolve selfClass typeParams name) := by
  unfold simpleTy
  split_ifs
  · exact .unknown
  · split
    · next t ht => exact canonical_builtinTy ht
    · exact canonical_instanceOf _

mutual

theorem canonical_rbsToTy : ∀ t : RbsTy, Canonical (rbsToTy resolve selfClass typeParams t)
  | .simple name => by
    rw [rbsToTy]
    exact canonical_simpleTy resolve selfClass typeParams name
  | .generic name args => by
    rw [rbsToTy]
    exact canonical_genericTy name (canonical_rbsToTys args)
  | .nilable inner => by
    rw [rbsToTy]
    exact (canonical_rbsToTy inner).join .nil
  | .union parts => by
    rw [rbsToTy]
    exact canonical_reduceJoin (canonical_rbsToTys parts)

theorem canonical_rbsToTys : ∀ ts : List RbsTy,
    ∀ t ∈ rbsToTys resolve selfClass typeParams ts, Canonical t
  | [] => by simp [rbsToTys]
  | t :: ts => by
    rw [rbsToTys, List.forall_mem_cons]
    exact ⟨canonical_rbsToTy t, canonical_rbsToTys ts⟩

end

end Rbs

namespace SorbetSig

theorem canonical_scalarTy {s : Text} {t : Ty} (h : scalarTy s = some t) : Canonical t := by
  unfold scalarTy at h
  split_ifs at h
  · exact Option.some.inj h ▸ .int
  · exact Option.some.inj h ▸ .float
  · exact Option.some.inj h ▸ .str
  · exact Option.some.inj h ▸ .sym
  · exact Option.some.inj h ▸ .bool
  · exact Option.some.inj h ▸ .nil

theorem canonical_compoundTyLeaf {parse : Text → Ty} (hparse : ∀ s, Canonical (parse s)) {s : Text}
    {t : Ty} (h : compoundTyLeaf parse s = some t) : Canonical t := by
  unfold compoundTyLeaf at h
  split at h
  · exact Option.some.inj h ▸ (hparse _).join .nil
  · split at h
    · exact Option.some.inj h ▸ .array (hparse _)
    · split at h
      · obtain rfl := Option.some.inj h
        split
        · exact .hash (hparse _) (hparse _)
        · exact .unknown
      · obtain ⟨inner, -, h⟩ := Option.bind_eq_some_iff.mp h
        split at h
        · cases h
        · next first tys hmap =>
          obtain rfl := Option.some.inj h
          have hall : ∀ u ∈ first :: tys, Canonical u := by
            intro u hu
            rw [← hmap] at hu
            obtain ⟨part, -, rfl⟩ := List.mem_map.mp hu
            exact hparse part
          exact (hall first List.mem_cons_self).foldl_join
            fun u hu ↦ hall u (List.mem_cons_of_mem _ hu)

theorem canonical_parseTyLeafTo {resolve : Text → Option Ty}
    (hresolve : ∀ s t, resolve s = some t → Canonical t) (depth : ℕ) :
    ∀ expr, Canonical (parseTyLeafTo resolve depth expr) := by
  induction depth with
  | zero => exact fun expr ↦ .unknown
  | succ depth ih =>
    intro expr
    rw [parseTyLeafTo]
    cases hscalar : scalarTy (bare expr) with
    | some t => exact canonical_scalarTy hscalar
    | none =>
      cases hcompound : compoundTyLeaf (parseTyLeafTo resolve depth) (bare expr) with
      | some t => exact canonical_compoundTyLeaf ih hcompound
      | none =>
        cases hname : resolve (bare expr) with
        | some t => exact hresolve _ t hname
        | none => exact .unknown

theorem canonical_sorbetRetTy (expr : Text) : Canonical (sorbetRetTy expr) :=
  canonical_parseTyLeafTo (fun _ _ h ↦ by cases h) _ expr

end SorbetSig

theorem canonical_coreRetToTy (ret : CoreRet) {recv : Ty} (h : Canonical recv) :
    Canonical (coreRetToTy ret recv) := by
  cases ret with
  | int => exact .int
  | float => exact .float
  | str => exact .str
  | sym => exact .sym
  | bool => exact .bool
  | nil => exact .nil
  | selfSame => exact h
  | elem =>
    cases h with
    | array helem => exact helem
    | _ => exact .unknown
  | keyArray =>
    cases h with
    | hash hkey hvalue => exact .array hkey
    | _ => exact .unknown
  | valArray =>
    cases h with
    | hash hkey hvalue => exact .array hvalue
    | _ => exact .unknown
  | strArray => exact .array .str
  | unknown => exact .unknown

/-- Canonical types are closed under the join, which unites their members and is idempotent,
commutative and associative up to their order, and under all the checker makes of them. -/
theorem union_stays_canonical :
    (∀ a b : Ty, a.Canonical → b.Canonical →
      (a.join b).Canonical ∧ (a.join b = .unknown ↔ a = .unknown ∨ b = .unknown) ∧
      (a.join b).members = a.members ∪ b.members ∧ a.join a = a ∧
      (a.join b).Reordered (b.join a) ∧
      ∀ c : Ty, c.Canonical → ((a.join b).join c).Reordered (a.join (b.join c))) ∧
    (∀ t : Ty, t.Canonical → (stripNil t).Canonical) ∧
    (∀ cur tested narrowed : Ty, cur.Canonical →
      eliminateUnionMember cur tested = some narrowed → narrowed.Canonical) ∧
    (∀ resolve selfClass typeParams t, (rbsToTy resolve selfClass typeParams t).Canonical) ∧
    (∀ expr, (SorbetSig.sorbetRetTy expr).Canonical) ∧
    (∀ ret recv, recv.Canonical → (coreRetToTy ret recv).Canonical) ∧
    (∀ (base : Env) (branches : List Env), base.Canonical →
      (∀ branch ∈ branches, branch.Canonical) → (base.join branches).Canonical) ∧
    (∀ base body : Env, base.Canonical → body.Canonical → (base.mergeLoop body).Canonical) ∧
    (∀ outer block : Env, outer.Canonical → block.Canonical →
      (outer.spillBlockWrites block).Canonical) := by
  refine ⟨fun a b ha hb ↦ ⟨ha.join hb, Ty.join_eq_unknown_iff ha hb, Ty.members_join ha hb,
    a.join_self, Ty.join_comm_reordered ha hb, fun c hc ↦ Ty.join_assoc_reordered ha hb hc⟩, ?_⟩
  refine ⟨fun t ↦ canonical_stripNil, fun cur tested narrowed ↦ canonical_eliminateUnionMember,
    canonical_rbsToTy, SorbetSig.canonical_sorbetRetTy,
    fun ret recv ↦ canonical_coreRetToTy ret, ?_⟩
  exact ⟨fun base branches ↦ Env.Canonical.join, fun base body ↦ Env.Canonical.mergeLoop,
    fun outer block ↦ Env.Canonical.spillBlockWrites⟩

end Itaruby
