import Mathlib.Data.List.DropRight
import Mathlib.Data.List.Nodup
import Mathlib.Data.List.Pairwise
import Mathlib.Logic.Function.Basic
import Mathlib.Logic.Relation

/-!
How Ruby orders ancestors. Every class and module has a chain of its own: the
modules prepended to it, itself, the modules included in it, each entered with
the chain it had at the time of the call. A call on a module is relayed to the
chains that already hold that module. A module that a chain already has is not
entered again, and moves the place where the rest of the call goes on. The
ancestors of a class are its own chain and those of its superclasses.

When no module is mixed in twice, none of this matters and the chain is the
plain unfolding of the calls, newest call first (`run_flat`).
-/

set_option autoImplicit false
set_option relaxedAutoImplicit false

namespace Itaruby

namespace Ruby

inductive MixinKind
  | inclusion
  | prepending
  deriving DecidableEq, Repr

/-- One module mixed into one class or module. -/
structure Call (α : Type) where
  kind : MixinKind
  target : α
  module : α

/-- The superclasses. A program that loads has no superclass circle, gives no superclass to
a module and makes no module a superclass. -/
structure Hierarchy (α : Type) where
  isModule : α → Bool
  sup : α → Option α
  above : α → List α
  above_eq : ∀ a, above a = (sup a).elim [] fun b ↦ b :: above b
  sup_of_module : ∀ a, isModule a = true → sup a = none
  isModule_of_sup : ∀ a b, sup a = some b → isModule b = false

/-- The chain of each class and module, without superclasses. -/
abbrev Chains (α : Type) := α → List α

variable {α : Type}

def initialChains : Chains α := fun a ↦ [a]

def superChain (H : Hierarchy α) (s : Chains α) (a : α) : List α := (H.above a).flatMap s

def ancestors (H : Hierarchy α) (s : Chains α) (a : α) : List α := s a ++ superChain H s a

variable [DecidableEq α]

/-- The part of a chain before `m`. -/
def ahead (m : α) (l : List α) : List α := l.takeWhile (· ≠ m)

/-- The part of a chain after `m`. -/
def past (m : α) (l : List α) : List α := (l.dropWhile (· ≠ m)).tail

/-- Enter modules one by one between `passed` and `rest`. -/
def place (above : List α) : List α → List α → List α → List α
  | passed, rest, [] => passed ++ rest
  | passed, rest, m :: mods =>
    if m ∈ passed then place above passed rest mods
    else if m ∈ rest then place above (passed ++ (ahead m rest ++ [m])) (past m rest) mods
    else if m ∈ above then place above passed rest mods
    else place above (passed ++ [m]) rest mods

/-- The chain of the target after the call. A prepended module is looked for only among the
prepended ones, an included one down to the last superclass. -/
def enter (H : Hierarchy α) (s : Chains α) (call : Call α) : List α :=
  let own := s call.target
  match call.kind with
  | .inclusion =>
    place (superChain H s call.target) (ahead call.target own ++ [call.target])
      (past call.target own) (s call.module)
  | .prepending =>
    place [] [] (ahead call.target own) (s call.module) ++ call.target :: past call.target own

def relayInclusion (above : List α) (target module : α) (mods : List α) : List α → List α
  | [] => []
  | a :: rest =>
    let rest := relayInclusion above target module mods rest
    if a = target ∧ module ∉ rest ∧ module ∉ above then place above [a] rest mods else a :: rest

/-- `front` is what the target had prepended; in another chain it stands right before the
target. -/
def relayPrepending (target : α) (front mods chain : List α) : List α :=
  (ahead target chain).rdropWhile (· ∈ front) ++
    place [] [] ((ahead target chain).rtakeWhile (· ∈ front)) mods ++ target :: past target chain

/-- What the call does to the chain of `d`, which holds the target. -/
def relay (H : Hierarchy α) (s : Chains α) (call : Call α) (now : Chains α) (d : α) : List α :=
  match call.kind with
  | .inclusion =>
    relayInclusion (superChain H now d) call.target call.module (s call.module) (now d)
  | .prepending =>
    relayPrepending call.target (ahead call.target (s call.target)) (s call.module) (now d)

def relayAll (H : Hierarchy α) (s : Chains α) (call : Call α) (order : List α) : Chains α :=
  order.foldl (fun now d ↦ Function.update now d (relay H s call now d))
    (Function.update s call.target (enter H s call))

/-- A call that raises no error. The chains that hold the target are visited in an order of
the interpreter's own. -/
structure Step (H : Hierarchy α) (s : Chains α) (call : Call α) (s' : Chains α) : Prop where
  isModule : H.isModule call.module = true
  acyclic : call.target ∉ s call.module
  relayed : ∃ order : List α, order.Nodup ∧
    (∀ d, d ∈ order ↔ d ≠ call.target ∧ call.target ∈ s d) ∧ s' = relayAll H s call order

/-- The calls of a program in the order they are executed. -/
inductive Run (H : Hierarchy α) : List (Call α) → Chains α → Prop
  | nil : Run H [] initialChains
  | snoc {calls : List (Call α)} {s s' : Chains α} {call : Call α} :
      Run H calls s → Step H s call s' → Run H (calls ++ [call]) s'

/-- A call on a class that no other chain holds is relayed to none. -/
theorem Step.of_not_held {H : Hierarchy α} {s : Chains α} {call : Call α}
    (hmodule : H.isModule call.module = true) (hacyclic : call.target ∉ s call.module)
    (hheld : ∀ d, d ≠ call.target → call.target ∉ s d) : Step H s call (relayAll H s call []) := by
  refine ⟨hmodule, hacyclic, [], List.nodup_nil, fun d ↦ ?_, rfl⟩
  simp only [List.not_mem_nil, false_iff, not_and]
  exact hheld d

/-- The modules one kind of call mixed into `a`, newest first. -/
def entries (calls : List (Call α)) (kind : MixinKind) (a : α) : List α :=
  ((calls.filter fun call ↦ call.kind = kind ∧ call.target = a).map Call.module).reverse

/-- The chains are the unfolding of the calls on the classes of `R`. -/
def Flat (calls : List (Call α)) (s : Chains α) (R : α → Prop) : Prop :=
  ∀ a, R a → s a =
    (entries calls .prepending a).flatMap s ++ a :: (entries calls .inclusion a).flatMap s

/-- A set of classes closed under mixins and superclasses in which no module is mixed in
twice. -/
structure Region (H : Hierarchy α) (calls : List (Call α)) (R : α → Prop) : Prop where
  closed : ∀ call ∈ calls, R call.target → R call.module
  superclass : ∀ a b, R a → H.sup a = some b → R b
  once : calls.Pairwise fun k k' ↦ R k.target → R k'.target → k.module ≠ k'.module

/-! ### Superclasses -/

namespace Hierarchy

omit [DecidableEq α] in
theorem isModule_of_mem_above (H : Hierarchy α) {a p : α} (h : p ∈ H.above a) :
    H.isModule p = false := by
  induction hl : (H.above a).length generalizing a with
  | zero =>
    rw [List.length_eq_zero_iff.mp hl] at h
    simp at h
  | succ n ih =>
    rw [H.above_eq] at h hl
    cases hsup : H.sup a with
    | none => simp [hsup] at h
    | some b =>
      simp only [hsup, Option.elim_some, List.mem_cons, List.length_cons] at h hl
      rcases h with rfl | h
      · exact H.isModule_of_sup a _ hsup
      · exact ih h (Nat.succ.inj hl)

omit [DecidableEq α] in
theorem length_above_lt (H : Hierarchy α) {a p : α} (h : p ∈ H.above a) :
    (H.above p).length < (H.above a).length := by
  induction hl : (H.above a).length generalizing a with
  | zero =>
    rw [List.length_eq_zero_iff.mp hl] at h
    simp at h
  | succ n ih =>
    rw [H.above_eq] at h hl
    cases hsup : H.sup a with
    | none => simp [hsup] at h
    | some b =>
      simp only [hsup, Option.elim_some, List.mem_cons, List.length_cons] at h hl
      rcases h with rfl | h
      · omega
      · have := ih h (Nat.succ.inj hl)
        omega

omit [DecidableEq α] in
theorem not_mem_above_self (H : Hierarchy α) (a : α) : a ∉ H.above a :=
  fun h ↦ (H.length_above_lt h).false

omit [DecidableEq α] in
theorem above_of_mem (H : Hierarchy α) {a p : α} (h : p ∈ H.above a) :
    ∃ l, H.above a = l ++ p :: H.above p := by
  induction hl : (H.above a).length generalizing a with
  | zero =>
    rw [List.length_eq_zero_iff.mp hl] at h
    simp at h
  | succ n ih =>
    have habove := H.above_eq a
    cases hsup : H.sup a with
    | none =>
      rw [habove, hsup, Option.elim_none] at h
      simp at h
    | some b =>
      rw [hsup, Option.elim_some] at habove
      rw [habove] at h hl ⊢
      rcases List.mem_cons.mp h with rfl | h
      · exact ⟨[], rfl⟩
      · obtain ⟨l, heq⟩ := ih h (Nat.succ.inj hl)
        exact ⟨b :: l, by rw [heq, List.cons_append]⟩

omit [DecidableEq α] in
theorem above_of_module (H : Hierarchy α) {a : α} (h : H.isModule a = true) : H.above a = [] := by
  rw [H.above_eq, H.sup_of_module a h, Option.elim_none]

end Hierarchy

/-! ### The modules below a class -/

def Kid (calls : List (Call α)) (a x : α) : Prop :=
  ∃ call ∈ calls, call.target = a ∧ call.module = x

theorem mem_entries_iff {calls : List (Call α)} {kind : MixinKind} {a x : α} :
    x ∈ entries calls kind a ↔
      ∃ call ∈ calls, call.kind = kind ∧ call.target = a ∧ call.module = x := by
  simp [entries, and_assoc]

theorem kid_iff {calls : List (Call α)} {a x : α} :
    Kid calls a x ↔ x ∈ entries calls .prepending a ∨ x ∈ entries calls .inclusion a := by
  simp only [mem_entries_iff, Kid]
  constructor
  · rintro ⟨call, hcall, ha, hx⟩
    cases hkind : call.kind with
    | inclusion => exact Or.inr ⟨call, hcall, hkind, ha, hx⟩
    | prepending => exact Or.inl ⟨call, hcall, hkind, ha, hx⟩
  · rintro (⟨call, hcall, -, ha, hx⟩ | ⟨call, hcall, -, ha, hx⟩)
    · exact ⟨call, hcall, ha, hx⟩
    · exact ⟨call, hcall, ha, hx⟩

namespace Region

variable {H : Hierarchy α} {calls : List (Call α)} {R : α → Prop} (hR : Region H calls R)

include hR

omit [DecidableEq α] in
theorem kid {a x : α} (ha : R a) (h : Kid calls a x) : R x := by
  obtain ⟨call, hcall, rfl, rfl⟩ := h
  exact hR.closed call hcall ha

omit [DecidableEq α] in
theorem reach {a x : α} (ha : R a) (h : Relation.ReflTransGen (Kid calls) a x) : R x := by
  induction h with
  | refl => exact ha
  | tail _ hstep ih => exact hR.kid ih hstep

omit [DecidableEq α] in
theorem above {a p : α} (ha : R a) (hp : p ∈ H.above a) : R p := by
  induction hl : (H.above a).length generalizing a with
  | zero =>
    rw [List.length_eq_zero_iff.mp hl] at hp
    simp at hp
  | succ n ih =>
    rw [H.above_eq] at hp hl
    cases hsup : H.sup a with
    | none => simp [hsup] at hp
    | some b =>
      simp only [hsup, Option.elim_some, List.mem_cons, List.length_cons] at hp hl
      rcases hp with rfl | hp
      · exact hR.superclass a _ ha hsup
      · exact ih (hR.superclass a b ha hsup) hp (Nat.succ.inj hl)

omit [DecidableEq α] in
/-- No module is mixed in by two calls. -/
theorem call_unique {call call' : Call α} (hcall : call ∈ calls) (hcall' : call' ∈ calls)
    (ha : R call.target) (hb : R call'.target) (heq : call.module = call'.module) :
    call = call' := by
  by_contra hne
  have hsymm : Std.Symm fun k k' : Call α ↦ R k.target → R k'.target → k.module ≠ k'.module :=
    ⟨fun k k' h hk hk' ↦ (h hk' hk).symm⟩
  exact hR.once.forall hcall hcall' hne ha hb heq

omit [DecidableEq α] in
theorem parent_unique {a b x : α} (ha : R a) (hb : R b) (hax : Kid calls a x)
    (hbx : Kid calls b x) : a = b := by
  obtain ⟨call, hcall, rfl, rfl⟩ := hax
  obtain ⟨call', hcall', rfl, heq⟩ := hbx
  rw [hR.call_unique hcall hcall' ha hb heq.symm]

omit [DecidableEq α] in
/-- Two classes that reach a module are one above the other. -/
theorem comparable {a b x : α} (ha : R a) (hb : R b) (hax : Relation.ReflTransGen (Kid calls) a x)
    (hbx : Relation.ReflTransGen (Kid calls) b x) :
    Relation.ReflTransGen (Kid calls) a b ∨ Relation.ReflTransGen (Kid calls) b a := by
  induction hax with
  | refl => exact Or.inr hbx
  | tail hay hyx ih =>
    rcases Relation.ReflTransGen.cases_tail hbx with rfl | ⟨z, hbz, hzx⟩
    · exact Or.inl (hay.tail hyx)
    · obtain rfl := hR.parent_unique (hR.reach ha hay) (hR.reach hb hbz) hyx hzx
      exact ih hbz

theorem entries_nodup {a : α} (ha : R a) :
    (entries calls .prepending a ++ entries calls .inclusion a).Nodup := by
  have hkind : ∀ kind, (entries calls kind a).Nodup := by
    intro kind
    unfold entries
    rw [List.nodup_reverse, List.Nodup, List.pairwise_map]
    refine (hR.once.sublist List.filter_sublist).imp_of_mem fun {k k'} hk hk' h ↦ ?_
    have hk := of_decide_eq_true (List.mem_filter.mp hk).2
    have hk' := of_decide_eq_true (List.mem_filter.mp hk').2
    exact h (hk.2 ▸ ha) (hk'.2 ▸ ha)
  refine List.nodup_append.mpr ⟨hkind _, hkind _, ?_⟩
  rintro x hx y hy rfl
  obtain ⟨call, hcall, hk, rfl, rfl⟩ := mem_entries_iff.mp hx
  obtain ⟨call', hcall', hk', htarget, heq⟩ := mem_entries_iff.mp hy
  obtain rfl := hR.call_unique hcall hcall' ha (htarget ▸ ha) heq.symm
  simp [hk] at hk'

end Region

/-! ### Flat chains -/

namespace Flat

variable {H : Hierarchy α} {calls : List (Call α)} {R : α → Prop} {s : Chains α}
  (hR : Region H calls R) (hs : Flat calls s R)

include hs

theorem self_mem {a : α} (ha : R a) : a ∈ s a := by
  rw [hs a ha]
  simp

/-- The chain of a module stands in one piece in the chain of the class it is mixed into. -/
theorem block_of_kid {a x : α} (ha : R a) (hx : Kid calls a x) :
    ∃ l r, s a = l ++ s x ++ r ∧ (a ∈ l ∨ a ∈ r) := by
  rcases kid_iff.mp hx with hx | hx
  · obtain ⟨l, r, hlr⟩ := List.append_of_mem hx
    refine ⟨l.flatMap s, r.flatMap s ++ a :: (entries calls .inclusion a).flatMap s, ?_, ?_⟩
    · rw [hs a ha, hlr]
      simp
    · simp
  · obtain ⟨l, r, hlr⟩ := List.append_of_mem hx
    refine ⟨(entries calls .prepending a).flatMap s ++ a :: l.flatMap s, r.flatMap s, ?_, ?_⟩
    · rw [hs a ha, hlr]
      simp
    · simp

theorem length_lt_of_kid {a x : α} (ha : R a) (hx : Kid calls a x) :
    (s x).length < (s a).length := by
  obtain ⟨l, r, heq, hmem⟩ := hs.block_of_kid ha hx
  rw [heq, List.length_append, List.length_append]
  rcases hmem with hmem | hmem
  · have := List.length_pos_of_mem hmem
    omega
  · have := List.length_pos_of_mem hmem
    omega

include hR

theorem block_of_reach {a x : α} (ha : R a) (hx : Relation.ReflTransGen (Kid calls) a x) :
    ∃ l r, s a = l ++ s x ++ r := by
  induction hx with
  | refl => exact ⟨[], [], by simp⟩
  | tail hay hyx ih =>
    obtain ⟨l, r, heq⟩ := ih
    obtain ⟨l', r', heq', -⟩ := hs.block_of_kid (hR.reach ha hay) hyx
    exact ⟨l ++ l', r' ++ r, by rw [heq, heq']; simp⟩

theorem mem_iff {a x : α} (ha : R a) :
    x ∈ s a ↔ Relation.ReflTransGen (Kid calls) a x := by
  constructor
  · induction hn : (s a).length using Nat.strong_induction_on generalizing a with
    | _ n ih =>
      intro hx
      rw [hs a ha] at hx
      have hdown : ∀ k, Kid calls a k → x ∈ s k → Relation.ReflTransGen (Kid calls) a x := by
        intro k hk hxk
        have hlt := hs.length_lt_of_kid ha hk
        exact .head hk (ih _ (hn ▸ hlt) (hR.kid ha hk) rfl hxk)
      rcases List.mem_append.mp hx with hx | hx
      · obtain ⟨k, hk, hxk⟩ := List.mem_flatMap.mp hx
        exact hdown k (kid_iff.mpr (Or.inl hk)) hxk
      · rcases List.mem_cons.mp hx with rfl | hx
        · exact .refl
        · obtain ⟨k, hk, hxk⟩ := List.mem_flatMap.mp hx
          exact hdown k (kid_iff.mpr (Or.inr hk)) hxk
  · intro hx
    obtain ⟨l, r, heq⟩ := hs.block_of_reach hR ha hx
    rw [heq]
    simp [hs.self_mem (hR.reach ha hx)]

theorem length_le_of_mem {a x : α} (ha : R a) (hx : x ∈ s a) : (s x).length ≤ (s a).length := by
  obtain ⟨l, r, heq⟩ := hs.block_of_reach hR ha ((hs.mem_iff hR ha).mp hx)
  rw [heq, List.length_append, List.length_append]
  omega

theorem not_mem_of_kid {a k : α} (ha : R a) (hk : Kid calls a k) : a ∉ s k := by
  intro h
  have hle := hs.length_le_of_mem hR (hR.kid ha hk) h
  have hlt := hs.length_lt_of_kid ha hk
  omega

/-- Different modules mixed into one class have disjoint chains. -/
theorem disjoint_of_kids {a k k' : α} (ha : R a) (hk : Kid calls a k) (hk' : Kid calls a k')
    (hne : k ≠ k') : List.Disjoint (s k) (s k') := by
  have hnot : ∀ k k', Kid calls a k → Kid calls a k' → k ≠ k' →
      ¬ Relation.ReflTransGen (Kid calls) k k' := by
    intro k k' hk hk' hne hreach
    rcases Relation.ReflTransGen.cases_tail hreach with rfl | ⟨p, hkp, hpk'⟩
    · exact hne rfl
    · have hRk := hR.kid ha hk
      obtain rfl := hR.parent_unique ha (hR.reach hRk hkp) hk' hpk'
      exact hs.not_mem_of_kid hR ha hk ((hs.mem_iff hR hRk).mpr hkp)
  intro x hx hx'
  have hRk := hR.kid ha hk
  have hRk' := hR.kid ha hk'
  rcases hR.comparable hRk hRk' ((hs.mem_iff hR hRk).mp hx) ((hs.mem_iff hR hRk').mp hx') with h | h
  · exact hnot k k' hk hk' hne h
  · exact hnot k' k hk' hk hne.symm h

theorem nodup {a : α} (ha : R a) : (s a).Nodup := by
  induction hn : (s a).length using Nat.strong_induction_on generalizing a with
  | _ n ih =>
    have hall : ((entries calls .prepending a ++ entries calls .inclusion a).flatMap s).Nodup := by
      rw [List.nodup_flatMap]
      refine ⟨fun k hk ↦ ?_, ?_⟩
      · have hkid : Kid calls a k := kid_iff.mpr (List.mem_append.mp hk)
        exact ih _ (hn ▸ hs.length_lt_of_kid ha hkid) (hR.kid ha hkid) rfl
      · refine (hR.entries_nodup ha).imp_of_mem fun {k k'} hk hk' hne ↦ ?_
        exact hs.disjoint_of_kids hR ha (kid_iff.mpr (List.mem_append.mp hk))
          (kid_iff.mpr (List.mem_append.mp hk')) hne
    have hself : a ∉ (entries calls .prepending a ++ entries calls .inclusion a).flatMap s := by
      intro h
      obtain ⟨k, hk, hak⟩ := List.mem_flatMap.mp h
      exact hs.not_mem_of_kid hR ha (kid_iff.mpr (List.mem_append.mp hk)) hak
    rw [hs a ha]
    rw [List.flatMap_append] at hall hself
    exact List.nodup_middle.mpr (List.nodup_cons.mpr ⟨hself, hall⟩)

theorem eq_of_mutual {a x : α} (ha : R a) (hx : x ∈ s a) (hax : a ∈ s x) : a = x := by
  rcases Relation.ReflTransGen.cases_head ((hs.mem_iff hR ha).mp hx) with heq | ⟨k, hk, hkx⟩
  · exact heq
  · have hRk := hR.kid ha hk
    have hRx := hR.reach hRk hkx
    have h₁ := hs.length_le_of_mem hR hRx hax
    have h₂ := hs.length_le_of_mem hR hRk ((hs.mem_iff hR hRk).mpr hkx)
    have h₃ := hs.length_lt_of_kid ha hk
    omega

theorem eq_of_class (hmodules : ∀ k ∈ calls, H.isModule k.module = true) {a p : α} (ha : R a)
    (hp : H.isModule p = false) (h : p ∈ s a) : p = a := by
  rcases Relation.ReflTransGen.cases_tail ((hs.mem_iff hR ha).mp h) with heq | ⟨q, -, k, hk, -, rfl⟩
  · exact heq
  · simp [hmodules k hk] at hp

/-- What stands after a class in the ancestors of a subclass are its own ancestors. -/
theorem ancestors_of_class (hmodules : ∀ k ∈ calls, H.isModule k.module = true) {a p : α}
    (ha : R a) (hp : H.isModule p = false) (h : p ∈ ancestors H s a) :
    ∃ l, ancestors H s a = l ++ ancestors H s p := by
  rcases List.mem_append.mp h with h | h
  · obtain rfl := hs.eq_of_class hR hmodules ha hp h
    exact ⟨[], rfl⟩
  · obtain ⟨b, hb, hpb⟩ := List.mem_flatMap.mp h
    obtain rfl := hs.eq_of_class hR hmodules (hR.above ha hb) hp hpb
    obtain ⟨l, heq⟩ := H.above_of_mem hb
    refine ⟨s a ++ l.flatMap s, ?_⟩
    rw [ancestors, superChain, heq, List.flatMap_append, List.flatMap_cons, List.append_assoc]
    rfl

/-- A class and one of its superclasses never both hold a module. -/
theorem not_mem_above (hmodules : ∀ k ∈ calls, H.isModule k.module = true) {d p m : α} (hd : R d)
    (hp : p ∈ H.above d) (hm : m ∈ s d) : m ∉ s p := by
  have hRp : R p := hR.above hd hp
  have hclass := H.isModule_of_mem_above hp
  have hne : d ≠ p := fun h ↦ H.not_mem_above_self d (h ▸ hp)
  intro hmp
  rcases hR.comparable hd hRp ((hs.mem_iff hR hd).mp hm) ((hs.mem_iff hR hRp).mp hmp) with h | h
  · rcases Relation.ReflTransGen.cases_tail h with heq | ⟨q, -, k, hk, -, rfl⟩
    · exact hne heq.symm
    · simp [hmodules k hk] at hclass
  · rcases Relation.ReflTransGen.cases_tail h with heq | ⟨q, -, k, hk, -, rfl⟩
    · exact hne heq
    · rw [H.above_of_module (hmodules k hk)] at hp
      simp at hp

theorem ancestors_nodup (hmodules : ∀ k ∈ calls, H.isModule k.module = true) {a : α} (ha : R a) :
    (ancestors H s a).Nodup := by
  induction hn : (H.above a).length generalizing a with
  | zero =>
    rw [ancestors, superChain, List.length_eq_zero_iff.mp hn, List.flatMap_nil, List.append_nil]
    exact hs.nodup hR ha
  | succ n ih =>
    have habove := H.above_eq a
    cases hsup : H.sup a with
    | none =>
      rw [hsup, Option.elim_none] at habove
      simp [habove] at hn
    | some b =>
      rw [hsup, Option.elim_some] at habove
      rw [habove, List.length_cons] at hn
      have hb := hR.superclass a b ha hsup
      have htail : superChain H s a = ancestors H s b := by
        rw [superChain, habove, List.flatMap_cons]
        rfl
      rw [ancestors]
      refine List.nodup_append.mpr ⟨hs.nodup hR ha, htail ▸ ih hb (Nat.succ.inj hn), ?_⟩
      rintro x hx y hy rfl
      obtain ⟨p, hp, hxp⟩ := List.mem_flatMap.mp hy
      exact hs.not_mem_above hR hmodules ha hp hx hxp

end Flat

/-! ### Entering modules that a chain does not have -/

theorem place_fresh {above passed rest mods : List α} (hnodup : mods.Nodup)
    (habove : List.Disjoint mods above) (hpassed : List.Disjoint mods passed)
    (hrest : List.Disjoint mods rest) :
    place above passed rest mods = passed ++ mods ++ rest := by
  induction mods generalizing passed with
  | nil => simp [place]
  | cons m mods ih =>
    rw [List.nodup_cons] at hnodup
    rw [List.disjoint_cons_left] at habove hpassed hrest
    rw [place, if_neg hpassed.1, if_neg hrest.1, if_neg habove.1, ih hnodup.2 habove.2 ?_ hrest.2]
    · simp
    · refine List.disjoint_append_right.mpr ⟨hpassed.2, ?_⟩
      intro x hx hxm
      rw [List.mem_singleton.mp hxm] at hx
      exact hnodup.1 hx

theorem ahead_append {m : α} {l r : List α} (hm : m ∉ l) : ahead m (l ++ m :: r) = l := by
  unfold ahead
  rw [List.takeWhile_append_of_pos]
  · simp
  · intro x hx
    simpa using fun h : x = m ↦ hm (h ▸ hx)

theorem past_append {m : α} {l r : List α} (hm : m ∉ l) : past m (l ++ m :: r) = r := by
  unfold past
  rw [List.dropWhile_append_of_pos]
  · simp
  · intro x hx
    simpa using fun h : x = m ↦ hm (h ▸ hx)

theorem relayInclusion_append {above : List α} {target module : α} {mods l r : List α}
    (hl : target ∉ l) (hr : target ∉ r) (hnodup : mods.Nodup) (hmodule : module ∈ mods)
    (habove : List.Disjoint mods above) (hrest : List.Disjoint mods r)
    (htarget : target ∉ mods) :
    relayInclusion above target module mods (l ++ target :: r) = l ++ target :: (mods ++ r) := by
  have hskip : ∀ t : List α, target ∉ t → relayInclusion above target module mods t = t := by
    intro t ht
    induction t with
    | nil => rfl
    | cons a t ih =>
      rw [List.mem_cons, not_or] at ht
      simp [relayInclusion, ih ht.2, Ne.symm ht.1]
  induction l with
  | nil =>
    have hplace : place above [target] r mods = [target] ++ mods ++ r :=
      place_fresh hnodup habove (List.disjoint_singleton.mpr htarget) hrest
    have hmem : module ∉ r ∧ module ∉ above := ⟨hrest hmodule, habove hmodule⟩
    simp [relayInclusion, hskip r hr, hmem, hplace]
  | cons a l ih =>
    rw [List.mem_cons, not_or] at hl
    simp [relayInclusion, ih hl.2, Ne.symm hl.1]

omit [DecidableEq α] in
theorem dropWhile_eq_self_of_forall {p : α → Bool} {l : List α} (h : ∀ x ∈ l, p x = false) :
    l.dropWhile p = l := by
  cases l with
  | nil => rfl
  | cons a l => simp [h a List.mem_cons_self]

omit [DecidableEq α] in
theorem takeWhile_eq_nil_of_forall {p : α → Bool} {l : List α} (h : ∀ x ∈ l, p x = false) :
    l.takeWhile p = [] := by
  cases l with
  | nil => rfl
  | cons a l => simp [h a List.mem_cons_self]

theorem relayPrepending_append {target : α} {front mods l r : List α} (hl : target ∉ l)
    (hfront : target ∉ front) (hdisjoint : List.Disjoint front l) (hnodup : mods.Nodup)
    (hmods : List.Disjoint mods front) :
    relayPrepending target front mods (l ++ front ++ target :: r) =
      l ++ mods ++ front ++ target :: r := by
  have hnot : target ∉ l ++ front := by simp [hl, hfront]
  have hfrontAll : ∀ x ∈ front.reverse, decide (x ∈ front) = true := by simp
  have hstop : ∀ x ∈ l.reverse, decide (x ∈ front) = false := by
    intro x hx
    exact decide_eq_false fun hxf ↦ hdisjoint hxf (List.mem_reverse.mp hx)
  have hdrop : (l ++ front).rdropWhile (· ∈ front) = l := by
    unfold List.rdropWhile
    rw [List.reverse_append, List.dropWhile_append_of_pos hfrontAll,
      dropWhile_eq_self_of_forall hstop, List.reverse_reverse]
  have htake : (l ++ front).rtakeWhile (· ∈ front) = front := by
    unfold List.rtakeWhile
    rw [List.reverse_append, List.takeWhile_append_of_pos hfrontAll,
      takeWhile_eq_nil_of_forall hstop, List.append_nil, List.reverse_reverse]
  unfold relayPrepending
  rw [ahead_append hnot, past_append hnot, hdrop, htake,
    place_fresh hnodup (List.disjoint_nil_right _) (List.disjoint_nil_right _) hmods]
  simp

/-! ### One call -/

/-- Visiting classes one by one, each changed from the chains at that moment. -/
theorem foldl_update_apply {f : Chains α → α → List α} {order : List α} (hnodup : order.Nodup)
    (init : Chains α) (d : α) :
    (d ∉ order →
      order.foldl (fun now d ↦ Function.update now d (f now d)) init d = init d) ∧
    (d ∈ order → ∃ now : Chains α, now d = init d ∧ (∀ e, e ∉ order → now e = init e) ∧
      order.foldl (fun now d ↦ Function.update now d (f now d)) init d = f now d) := by
  induction order generalizing init with
  | nil => simp
  | cons a order ih =>
    rw [List.nodup_cons] at hnodup
    obtain ⟨hout, hin⟩ := ih hnodup.2 (Function.update init a (f init a))
    rw [List.foldl_cons]
    constructor
    · intro hd
      rw [List.mem_cons, not_or] at hd
      rw [hout hd.2, Function.update_of_ne hd.1]
    · intro hd
      by_cases hda : d = a
      · subst hda
        refine ⟨init, rfl, fun _ _ ↦ rfl, ?_⟩
        rw [hout hnodup.1, Function.update_self]
      · have hmem : d ∈ order := (List.mem_cons.mp hd).resolve_left hda
        obtain ⟨now, hnow, helse, heq⟩ := hin hmem
        refine ⟨now, ?_, fun e he ↦ ?_, heq⟩
        · rw [hnow, Function.update_of_ne hda]
        · rw [List.mem_cons, not_or] at he
          rw [helse e he.2, Function.update_of_ne he.1]

omit [DecidableEq α] in
theorem Region.of_snoc {H : Hierarchy α} {calls : List (Call α)} {call : Call α} {R : α → Prop}
    (hR : Region H (calls ++ [call]) R) : Region H calls R where
  closed k hk := hR.closed k (List.mem_append_left _ hk)
  superclass := hR.superclass
  once := (List.pairwise_append.mp hR.once).1

theorem entries_snoc (calls : List (Call α)) (call : Call α) (kind : MixinKind) (a : α) :
    entries (calls ++ [call]) kind a =
      if call.kind = kind ∧ call.target = a then call.module :: entries calls kind a
      else entries calls kind a := by
  unfold entries
  rw [List.filter_append, List.map_append, List.reverse_append, List.filter_singleton]
  by_cases h : call.kind = kind ∧ call.target = a
  · simp [h]
  · simp [h]

omit [DecidableEq α] in
theorem superChain_congr {H : Hierarchy α} {s now : Chains α} {d : α}
    (h : ∀ p ∈ H.above d, now p = s p) : superChain H now d = superChain H s d := by
  unfold superChain
  exact List.flatMap_congr h

/-- Put `t` in the place of `m`. -/
def replaced (m : α) (t : List α) (a : α) : List α := if a = m then t else [a]

theorem flatMap_replaced_of_not_mem {m : α} {t l : List α} (h : m ∉ l) :
    l.flatMap (replaced m t) = l := by
  induction l with
  | nil => rfl
  | cons a l ih =>
    rw [List.mem_cons, not_or] at h
    rw [List.flatMap_cons, ih h.2, replaced, if_neg (Ne.symm h.1), List.singleton_append]

theorem flatMap_replaced_of_middle {m : α} {t l r : List α} (hl : m ∉ l) (hr : m ∉ r) :
    (l ++ m :: r).flatMap (replaced m t) = l ++ t ++ r := by
  rw [List.flatMap_append, List.flatMap_cons, flatMap_replaced_of_not_mem hl,
    flatMap_replaced_of_not_mem hr, replaced, if_pos rfl, List.append_assoc]

section OneCall

variable {H : Hierarchy α} {calls : List (Call α)} {call : Call α} {R : α → Prop}
  {s s' : Chains α} (hR : Region H (calls ++ [call]) R) (hs : Flat calls s R)
  (hmodules : ∀ k ∈ calls, H.isModule k.module = true) (hstep : Step H s call s')

include hR hs

omit [DecidableEq α] hs in
/-- The module of the new call was mixed into nothing in the region so far. -/
theorem not_kid_module {a : α} (ha : R a) (htarget : R call.target) :
    ¬ Kid calls a call.module := by
  rintro ⟨k, hk, rfl, heq⟩
  have hpair := (List.pairwise_append.mp hR.once).2.2 k hk call (List.mem_singleton_self call)
  exact hpair ha htarget heq

include hstep

theorem disjoint_chain_of_mem {d : α} (htarget : R call.target) (hd : R d)
    (hmem : call.target ∈ s d) : List.Disjoint (s call.module) (s d) := by
  have hR' := hR.of_snoc
  have hmodule : R call.module := hR.closed call (by simp) htarget
  intro x hx hxd
  rcases hR'.comparable hmodule hd ((hs.mem_iff hR' hmodule).mp hx) ((hs.mem_iff hR' hd).mp hxd)
    with h | h
  · have hreach := h.trans ((hs.mem_iff hR' hd).mp hmem)
    exact hstep.acyclic ((hs.mem_iff hR' hmodule).mpr hreach)
  · rcases Relation.ReflTransGen.cases_tail h with heq | ⟨p, hdp, hp⟩
    · exact hstep.acyclic (heq ▸ hmem)
    · exact not_kid_module hR (hR'.reach hd hdp) htarget hp

include hmodules

theorem isModule_of_mem_module {x : α} (htarget : R call.target) (hx : x ∈ s call.module) :
    H.isModule x = true := by
  have hmodule : R call.module := hR.closed call (by simp) htarget
  rcases Relation.ReflTransGen.cases_tail ((hs.mem_iff hR.of_snoc hmodule).mp hx)
    with heq | ⟨p, -, k, hk, -, rfl⟩
  · rw [heq]
    exact hstep.isModule
  · exact hmodules k hk

theorem disjoint_superChain {d : α} (htarget : R call.target) (hd : R d) :
    List.Disjoint (s call.module) (superChain H s d) := by
  have hR' := hR.of_snoc
  have hmodule : R call.module := hR.closed call (by simp) htarget
  intro x hx hxd
  obtain ⟨p, hp, hxp⟩ := List.mem_flatMap.mp hxd
  have hRp : R p := hR'.above hd hp
  have hclass := H.isModule_of_mem_above hp
  rcases hR'.comparable hmodule hRp ((hs.mem_iff hR' hmodule).mp hx) ((hs.mem_iff hR' hRp).mp hxp)
    with h | h
  · have hpm := isModule_of_mem_module hR hs hmodules hstep htarget ((hs.mem_iff hR' hmodule).mpr h)
    simp [hclass] at hpm
  · rcases Relation.ReflTransGen.cases_tail h with heq | ⟨q, hpq, hq⟩
    · rw [← heq, hstep.isModule] at hclass
      simp at hclass
    · exact not_kid_module hR (hR'.reach hRp hpq) htarget hq

omit hR hs hmodules in
theorem step_apply_of_not_mem {d : α} (hne : d ≠ call.target) (hnot : call.target ∉ s d) :
    s' d = s d := by
  obtain ⟨order, hnodup, horder, rfl⟩ := hstep.relayed
  have hd : d ∉ order := fun h ↦ hnot ((horder d).mp h).2
  unfold relayAll
  rw [(foldl_update_apply hnodup _ d).1 hd, Function.update_of_ne hne]

/-- A class that holds the target gets the module's chain right behind it. -/
theorem step_inclusion (hkind : call.kind = .inclusion) (htarget : R call.target) {d : α}
    (hd : R d) {l r : List α} (heq : s d = l ++ call.target :: r) :
    s' d = l ++ call.target :: (s call.module ++ r) := by
  have hR' := hR.of_snoc
  have hmem : call.target ∈ s d := by simp [heq]
  have hnodup := hs.nodup hR' hd
  rw [heq] at hnodup
  have hsplit := List.nodup_middle.mp hnodup
  rw [List.nodup_cons, List.mem_append, not_or] at hsplit
  obtain ⟨⟨hl, hr⟩, -⟩ := hsplit
  have hmodule : R call.module := hR.closed call (by simp) htarget
  have hmods := hs.nodup hR' hmodule
  have hdisjoint := disjoint_chain_of_mem hR hs hstep htarget hd hmem
  have habove := disjoint_superChain hR hs hmodules hstep htarget hd
  rw [heq] at hdisjoint
  rw [List.disjoint_append_right, List.disjoint_cons_right] at hdisjoint
  obtain ⟨order, horderNodup, horder, rfl⟩ := hstep.relayed
  obtain ⟨hout, hin⟩ := foldl_update_apply (f := relay H s call) horderNodup
    (Function.update s call.target (enter H s call)) d
  unfold relayAll
  by_cases hself : d = call.target
  · have hnot : d ∉ order := fun h ↦ ((horder d).mp h).1 hself
    rw [hout hnot, hself, Function.update_self]
    subst hself
    unfold enter
    simp only [hkind]
    rw [heq, ahead_append hl, past_append hl, place_fresh hmods habove ?_ hdisjoint.2.2]
    · simp
    · rw [List.disjoint_append_right, List.disjoint_singleton]
      exact ⟨hdisjoint.1, hdisjoint.2.1⟩
  · obtain ⟨now, hnow, helse, hrelay⟩ := hin ((horder d).mpr ⟨hself, hmem⟩)
    have hsuper : superChain H now d = superChain H s d := by
      refine superChain_congr fun p hp ↦ ?_
      have hnot := hs.not_mem_above hR' hmodules hd hp hmem
      have hne : p ≠ call.target := fun h ↦ hnot (h ▸ hs.self_mem (hR'.above hd hp))
      rw [helse p fun h ↦ hnot ((horder p).mp h).2, Function.update_of_ne hne]
    rw [hrelay]
    unfold relay
    simp only [hkind]
    rw [hsuper, hnow, Function.update_of_ne hself, heq]
    exact relayInclusion_append hl hr hmods (hs.self_mem hmodule) habove hdisjoint.2.2
      hdisjoint.2.1

omit hmodules in
/-- A class that holds the target gets the module's chain right before the target's. -/
theorem step_prepending (hkind : call.kind = .prepending) (htarget : R call.target) {d : α}
    (hd : R d) {l r : List α} (heq : s d = l ++ s call.target ++ r) :
    s' d = l ++ s call.module ++ s call.target ++ r := by
  have hR' := hR.of_snoc
  have hmem : call.target ∈ s d := by simp [heq, hs.self_mem htarget]
  have hmodule : R call.module := hR.closed call (by simp) htarget
  have hmods := hs.nodup hR' hmodule
  obtain ⟨front, back, hown⟩ := List.append_of_mem (hs.self_mem htarget)
  have hownNodup := hs.nodup hR' htarget
  rw [hown] at hownNodup
  have hfront : call.target ∉ front := fun h ↦ by
    have := List.nodup_middle.mp hownNodup
    simp [h] at this
  have hdisjoint := disjoint_chain_of_mem hR hs hstep htarget hd hmem
  rw [heq, hown] at hdisjoint
  simp only [List.disjoint_append_right] at hdisjoint
  have hplace : place [] [] front (s call.module) = s call.module ++ front := by
    rw [place_fresh hmods (List.disjoint_nil_right _) (List.disjoint_nil_right _) hdisjoint.1.2.1]
    simp
  obtain ⟨order, horderNodup, horder, rfl⟩ := hstep.relayed
  obtain ⟨hout, hin⟩ := foldl_update_apply (f := relay H s call) horderNodup
    (Function.update s call.target (enter H s call)) d
  unfold relayAll
  by_cases hself : d = call.target
  · have hnot : d ∉ order := fun h ↦ ((horder d).mp h).1 hself
    have hnil : l = [] ∧ r = [] := by
      have hlength := congrArg List.length heq
      rw [hself, List.length_append, List.length_append] at hlength
      exact ⟨List.length_eq_zero_iff.mp (by omega), List.length_eq_zero_iff.mp (by omega)⟩
    rw [hout hnot, hself, Function.update_self, hnil.1, hnil.2]
    unfold enter
    simp only [hkind]
    rw [hown, ahead_append hfront, past_append hfront, hplace]
    simp
  · obtain ⟨now, hnow, -, hrelay⟩ := hin ((horder d).mpr ⟨hself, hmem⟩)
    have hnodup := hs.nodup hR' hd
    rw [heq, hown] at hnodup
    have hleft := (List.nodup_append.mp (List.nodup_append.mp hnodup).1).2.2
    have hl : call.target ∉ l := fun h ↦ hleft _ h call.target (by simp) rfl
    have hfrontLeft : List.Disjoint front l := fun x hx hxl ↦ hleft x hxl x (by simp [hx]) rfl
    rw [hrelay]
    unfold relay
    simp only [hkind]
    rw [hnow, Function.update_of_ne hself, heq, hown, ahead_append hfront]
    have hsplit : l ++ (front ++ call.target :: back) ++ r =
        l ++ front ++ call.target :: (back ++ r) := by simp
    rw [hsplit, relayPrepending_append hl hfront hfrontLeft hmods hdisjoint.1.2.1]
    simp

theorem step_inclusion_eq (hkind : call.kind = .inclusion) (htarget : R call.target) {d : α}
    (hd : R d) :
    s' d = (s d).flatMap (replaced call.target (call.target :: s call.module)) := by
  by_cases hmem : call.target ∈ s d
  · obtain ⟨l, r, heq⟩ := List.append_of_mem hmem
    have hnodup := hs.nodup hR.of_snoc hd
    rw [heq] at hnodup
    have hsplit := List.nodup_middle.mp hnodup
    rw [List.nodup_cons, List.mem_append, not_or] at hsplit
    rw [step_inclusion hR hs hmodules hstep hkind htarget hd heq, heq,
      flatMap_replaced_of_middle hsplit.1.1 hsplit.1.2]
    simp
  · have hne : d ≠ call.target := fun h ↦ hmem (h ▸ hs.self_mem hd)
    rw [step_apply_of_not_mem hstep hne hmem, flatMap_replaced_of_not_mem hmem]

theorem step_flat_inclusion (hkind : call.kind = .inclusion) (htarget : R call.target) :
    Flat (calls ++ [call]) s' R := by
  have hmodule : R call.module := hR.closed call (by simp) htarget
  have hvalue := fun d (hd : R d) ↦ step_inclusion_eq hR hs hmodules hstep hkind htarget hd
  have hkids : ∀ kind d, R d → ((entries calls kind d).flatMap s).flatMap
      (replaced call.target (call.target :: s call.module)) =
        (entries calls kind d).flatMap s' := by
    intro kind d hd
    rw [List.flatMap_assoc]
    refine List.flatMap_congr fun k hk ↦ ?_
    obtain ⟨c, hc, -, rfl, rfl⟩ := mem_entries_iff.mp hk
    exact (hvalue _ (hR.of_snoc.closed c hc hd)).symm
  intro d hd
  rw [hvalue d hd, hs d hd, List.flatMap_append, List.flatMap_cons, hkids _ d hd, hkids _ d hd,
    entries_snoc, entries_snoc, hkind]
  by_cases hself : call.target = d
  · have hsame : s' call.module = s call.module := by
      rw [hvalue _ hmodule, flatMap_replaced_of_not_mem hstep.acyclic]
    simp [hself, replaced, hsame]
  · simp [hself, replaced, Ne.symm hself]

omit hmodules in
theorem step_prepending_eq (hkind : call.kind = .prepending) (htarget : R call.target) {d h : α}
    {t : List α} (hd : R d) (hmem : call.target ∈ s d) (hhead : s call.target = h :: t) :
    s' d = (s d).flatMap (replaced h (s call.module ++ [h])) := by
  have hR' := hR.of_snoc
  obtain ⟨l, r, heq⟩ := hs.block_of_reach hR' hd ((hs.mem_iff hR' hd).mp hmem)
  have hnodup := hs.nodup hR' hd
  have hsplit : s d = l ++ h :: (t ++ r) := by simp [heq, hhead]
  rw [hsplit] at hnodup
  have hnot := List.nodup_middle.mp hnodup
  rw [List.nodup_cons, List.mem_append, not_or] at hnot
  rw [step_prepending hR hs hstep hkind htarget hd heq, hsplit,
    flatMap_replaced_of_middle hnot.1.1 hnot.1.2, hhead]
  simp

omit hmodules hstep in
/-- In a class that holds the target, no other module holds what stands at the target's head. -/
theorem head_not_mem_kid {d k h : α} (htarget : R call.target) (hd : R d)
    (hself : d ≠ call.target) (hmem : call.target ∈ s d) (hk : Kid calls d k)
    (hnot : call.target ∉ s k) (hh : h ∈ s call.target) : h ∉ s k := by
  have hR' := hR.of_snoc
  have hRk := hR'.kid hd hk
  intro hhk
  rcases hR'.comparable hRk htarget ((hs.mem_iff hR' hRk).mp hhk) ((hs.mem_iff hR' htarget).mp hh)
    with hreach | hreach
  · exact hnot ((hs.mem_iff hR' hRk).mpr hreach)
  · rcases Relation.ReflTransGen.cases_tail hreach with heq | ⟨p, htp, hpk⟩
    · exact hnot (heq ▸ hs.self_mem hRk)
    · obtain rfl := hR'.parent_unique hd (hR'.reach htarget htp) hk hpk
      exact hself (hs.eq_of_mutual hR' hd hmem ((hs.mem_iff hR' htarget).mpr htp))

omit hmodules in
theorem step_flat_prepending (hkind : call.kind = .prepending) (htarget : R call.target) :
    Flat (calls ++ [call]) s' R := by
  have hR' := hR.of_snoc
  have hmodule : R call.module := hR.closed call (by simp) htarget
  have hsame : ∀ d, R d → call.target ∉ s d → s' d = s d := fun d hd hnot ↦
    step_apply_of_not_mem hstep (fun h ↦ hnot (h ▸ hs.self_mem hd)) hnot
  intro d hd
  by_cases hself : d = call.target
  · -- the target itself: its own modules do not hold it
    subst hself
    have hkids : ∀ kind, (entries calls kind call.target).flatMap s' =
        (entries calls kind call.target).flatMap s := by
      intro kind
      refine List.flatMap_congr fun k hk ↦ ?_
      obtain ⟨c, hc, -, hct, rfl⟩ := mem_entries_iff.mp hk
      have hkid : Kid calls call.target c.module := ⟨c, hc, hct, rfl⟩
      exact hsame _ (hR'.kid htarget hkid) (hs.not_mem_of_kid hR' htarget hkid)
    have hown := step_prepending hR hs hstep hkind htarget htarget
      (show s call.target = [] ++ s call.target ++ [] by simp)
    rw [hown, entries_snoc, entries_snoc, hkind]
    simp only [and_self, if_true, List.flatMap_cons, hkids, hsame _ hmodule hstep.acyclic,
      reduceCtorEq, false_and, if_false]
    rw [hs _ htarget]
    simp
  · have hentries : ∀ kind, entries (calls ++ [call]) kind d = entries calls kind d := by
      intro kind
      rw [entries_snoc, if_neg fun h ↦ hself h.2.symm]
    rw [hentries, hentries]
    by_cases hmem : call.target ∈ s d
    · obtain ⟨h, t, hhead⟩ := List.exists_cons_of_ne_nil (List.ne_nil_of_mem (hs.self_mem htarget))
      have hvalue := fun e (he : R e) (hmem : call.target ∈ s e) ↦
        step_prepending_eq hR hs hstep hkind htarget he hmem hhead
      have hkids : ∀ kind, ((entries calls kind d).flatMap s).flatMap
          (replaced h (s call.module ++ [h])) = (entries calls kind d).flatMap s' := by
        intro kind
        rw [List.flatMap_assoc]
        refine List.flatMap_congr fun k hk ↦ ?_
        obtain ⟨c, hc, -, hct, rfl⟩ := mem_entries_iff.mp hk
        have hkid : Kid calls d c.module := ⟨c, hc, hct, rfl⟩
        by_cases hin : call.target ∈ s c.module
        · exact (hvalue _ (hR'.kid hd hkid) hin).symm
        · rw [hsame _ (hR'.kid hd hkid) hin, flatMap_replaced_of_not_mem]
          exact head_not_mem_kid hR hs htarget hd hself hmem hkid hin (by simp [hhead])
      have hdh : d ≠ h := by
        rintro rfl
        exact hself (hs.eq_of_mutual hR' hd hmem (by simp [hhead]))
      rw [hvalue d hd hmem, hs d hd, List.flatMap_append, List.flatMap_cons, hkids, hkids,
        replaced, if_neg hdh, List.singleton_append]
    · have hkids : ∀ kind, (entries calls kind d).flatMap s' =
          (entries calls kind d).flatMap s := by
        intro kind
        refine List.flatMap_congr fun k hk ↦ ?_
        obtain ⟨c, hc, -, hct, rfl⟩ := mem_entries_iff.mp hk
        have hkid : Kid calls d c.module := ⟨c, hc, hct, rfl⟩
        refine hsame _ (hR'.kid hd hkid) fun h ↦ hmem ?_
        exact (hs.mem_iff hR' hd).mpr (.head hkid ((hs.mem_iff hR' (hR'.kid hd hkid)).mp h))
      rw [hsame d hd hmem, hkids, hkids, ← hs d hd]

/-- A call keeps the chains flat. -/
theorem step_flat : Flat (calls ++ [call]) s' R := by
  by_cases htarget : R call.target
  · cases hkind : call.kind with
    | inclusion => exact step_flat_inclusion hR hs hmodules hstep hkind htarget
    | prepending => exact step_flat_prepending hR hs hstep hkind htarget
  · -- a call outside the region reaches no chain of it
    have hR' := hR.of_snoc
    have hsame : ∀ d, R d → s' d = s d := by
      intro d hd
      have hne : d ≠ call.target := fun h ↦ htarget (h ▸ hd)
      refine step_apply_of_not_mem hstep hne fun hmem ↦ htarget ?_
      exact hR'.reach hd ((hs.mem_iff hR' hd).mp hmem)
    intro d hd
    have hentries : ∀ kind, entries (calls ++ [call]) kind d = entries calls kind d := by
      intro kind
      have hne : call.target ≠ d := fun h ↦ htarget (h ▸ hd)
      rw [entries_snoc, if_neg fun h ↦ hne h.2]
    have hkids : ∀ kind, (entries calls kind d).flatMap s' = (entries calls kind d).flatMap s := by
      intro kind
      refine List.flatMap_congr fun k hk ↦ ?_
      obtain ⟨c, hc, -, hct, rfl⟩ := mem_entries_iff.mp hk
      exact hsame _ (hR'.closed c hc (hct ▸ hd))
    rw [hsame d hd, hentries, hentries, hkids, hkids, ← hs d hd]

end OneCall

/-! ### Whole programs -/

theorem Run.isModule {H : Hierarchy α} {calls : List (Call α)} {s : Chains α} (h : Run H calls s) :
    ∀ call ∈ calls, H.isModule call.module = true := by
  induction h with
  | nil => simp
  | snoc _ hstep ih =>
    intro call hcall
    rcases List.mem_append.mp hcall with hcall | hcall
    · exact ih call hcall
    · rw [List.mem_singleton.mp hcall]
      exact hstep.isModule

/-- Where no module is mixed in twice, the chains are the unfolding of the calls. -/
theorem run_flat {H : Hierarchy α} {calls : List (Call α)} {s : Chains α} {R : α → Prop}
    (h : Run H calls s) (hR : Region H calls R) : Flat calls s R := by
  induction h with
  | nil => exact fun a _ ↦ by simp [initialChains, entries]
  | snoc hrun hstep ih => exact step_flat hR (ih hR.of_snoc) hrun.isModule hstep

/-- The ancestors of a class unfold its prepended modules, itself, its included modules and
its superclass. -/
theorem ancestors_eq {H : Hierarchy α} {calls : List (Call α)} {s : Chains α} {R : α → Prop}
    (h : Run H calls s) (hR : Region H calls R) {a : α} (ha : R a) :
    ancestors H s a =
      (entries calls .prepending a).flatMap (ancestors H s) ++
        a :: ((entries calls .inclusion a).flatMap (ancestors H s) ++
          (H.sup a).toList.flatMap (ancestors H s)) := by
  have hmodule : ∀ kind, (entries calls kind a).flatMap s =
      (entries calls kind a).flatMap (ancestors H s) := by
    intro kind
    refine List.flatMap_congr fun k hk ↦ ?_
    obtain ⟨c, hc, -, -, rfl⟩ := mem_entries_iff.mp hk
    simp [ancestors, superChain, H.above_of_module (h.isModule c hc)]
  have hsuper : superChain H s a = (H.sup a).toList.flatMap (ancestors H s) := by
    unfold superChain
    rw [H.above_eq]
    cases H.sup a with
    | none => rfl
    | some b => simp [ancestors, superChain]
  rw [ancestors, run_flat h hR a ha, hmodule, hmodule, hsuper]
  simp

end Ruby

end Itaruby
