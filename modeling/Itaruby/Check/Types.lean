import Itaruby.Index.Basic

/-!
The checker's types. A union is flat and without duplicates as long as it is built by
`Ty.join`; `unknown` absorbs everything and stands for silence.
-/

set_option autoImplicit false
set_option relaxedAutoImplicit false

namespace Itaruby

inductive Ty
  | unknown
  | nil
  | bool
  | int
  | float
  | str
  | sym
  | instanceOf (c : ClassId)
  | classOf (c : ClassId)
  | array (elem : Ty)
  | hash (key value : Ty)
  | union (parts : List Ty)
  deriving Repr

namespace Ty

/-! ### Equality -/

mutual

def beq : Ty → Ty → Bool
  | .unknown, .unknown => true
  | .nil, .nil => true
  | .bool, .bool => true
  | .int, .int => true
  | .float, .float => true
  | .str, .str => true
  | .sym, .sym => true
  | .instanceOf c, .instanceOf d => c == d
  | .classOf c, .classOf d => c == d
  | .array a, .array b => beq a b
  | .hash k v, .hash k' v' => beq k k' && beq v v'
  | .union ts, .union us => beqAll ts us
  | _, _ => false

def beqAll : List Ty → List Ty → Bool
  | [], [] => true
  | t :: ts, u :: us => beq t u && beqAll ts us
  | _, _ => false

end

mutual

theorem beq_self : ∀ t : Ty, beq t t = true
  | .unknown | .nil | .bool | .int | .float | .str | .sym => rfl
  | .instanceOf c => by simp [beq]
  | .classOf c => by simp [beq]
  | .array a => by simp [beq, beq_self a]
  | .hash k v => by simp [beq, beq_self k, beq_self v]
  | .union ts => by simp [beq, beqAll_self ts]

theorem beqAll_self : ∀ ts : List Ty, beqAll ts ts = true
  | [] => rfl
  | t :: ts => by simp [beqAll, beq_self t, beqAll_self ts]

end

mutual

theorem eq_of_beq : ∀ {a b : Ty}, beq a b = true → a = b
  | .unknown, b, h => by cases b <;> simp_all [beq]
  | .nil, b, h => by cases b <;> simp_all [beq]
  | .bool, b, h => by cases b <;> simp_all [beq]
  | .int, b, h => by cases b <;> simp_all [beq]
  | .float, b, h => by cases b <;> simp_all [beq]
  | .str, b, h => by cases b <;> simp_all [beq]
  | .sym, b, h => by cases b <;> simp_all [beq]
  | .instanceOf c, b, h => by cases b <;> simp_all [beq]
  | .classOf c, b, h => by cases b <;> simp_all [beq]
  | .array a, b, h => by
    cases b with
    | array a' =>
      have ha : beq a a' = true := by simpa [beq] using h
      rw [eq_of_beq ha]
    | _ => simp [beq] at h
  | .hash k v, b, h => by
    cases b with
    | hash k' v' =>
      obtain ⟨hk, hv⟩ : beq k k' = true ∧ beq v v' = true := by simpa [beq] using h
      rw [eq_of_beq hk, eq_of_beq hv]
    | _ => simp [beq] at h
  | .union ts, b, h => by
    cases b with
    | union us =>
      have hts : beqAll ts us = true := by simpa [beq] using h
      rw [eq_of_beqAll hts]
    | _ => simp [beq] at h

theorem eq_of_beqAll : ∀ {ts us : List Ty}, beqAll ts us = true → ts = us
  | [], us, h => by cases us <;> simp_all [beqAll]
  | t :: ts, us, h => by
    cases us with
    | nil => simp [beqAll] at h
    | cons u us =>
      obtain ⟨ht, hts⟩ : beq t u = true ∧ beqAll ts us = true := by simpa [beqAll] using h
      rw [eq_of_beq ht, eq_of_beqAll hts]

end

instance : DecidableEq Ty := fun a b ↦
  decidable_of_iff (beq a b = true) ⟨eq_of_beq, fun h ↦ h ▸ beq_self a⟩

/-! ### Unions -/

/-- The members of a type seen as a union. -/
def parts : Ty → List Ty
  | .union ts => ts
  | t => [t]

def pushUnique (uniq : List Ty) (t : Ty) : List Ty := if t ∈ uniq then uniq else uniq ++ [t]

/-- `Ty::union`. -/
def join (a b : Ty) : Ty :=
  if a = b then a
  else if a = .unknown ∨ b = .unknown then .unknown
  else
    match (a.parts ++ b.parts).foldl pushUnique [] with
    | [t] => t
    | ts => .union ts

theorem join_self (a : Ty) : a.join a = a := if_pos rfl

theorem unknown_join (b : Ty) : Ty.unknown.join b = .unknown := by
  unfold join
  split_ifs with h h'
  · rfl
  · rfl
  · simp at h'

theorem join_unknown (a : Ty) : a.join .unknown = .unknown := by
  unfold join
  split_ifs with h h'
  · exact h
  · rfl
  · simp at h'

theorem mem_foldl_pushUnique {t : Ty} (ts uniq : List Ty) :
    t ∈ ts.foldl pushUnique uniq ↔ t ∈ uniq ∨ t ∈ ts := by
  induction ts generalizing uniq with
  | nil => simp
  | cons u ts ih =>
    rw [List.foldl_cons, ih, List.mem_cons]
    unfold pushUnique
    split_ifs with hu
    · constructor
      · rintro (h | h)
        · exact .inl h
        · exact .inr (.inr h)
      · rintro (h | rfl | h)
        · exact .inl h
        · exact .inl hu
        · exact .inr h
    · simp [or_assoc]

theorem nodup_foldl_pushUnique (ts : List Ty) {uniq : List Ty} (h : uniq.Nodup) :
    (ts.foldl pushUnique uniq).Nodup := by
  induction ts generalizing uniq with
  | nil => exact h
  | cons t ts ih =>
    refine ih ?_
    unfold pushUnique
    split_ifs with ht
    · exact h
    · exact List.nodup_append.mpr ⟨h, List.nodup_singleton t, by
        rintro a ha b hb rfl
        exact ht (List.mem_singleton.mp hb ▸ ha)⟩

theorem foldl_pushUnique_subset {ts uniq : List Ty} (h : ts ⊆ uniq) :
    ts.foldl pushUnique uniq = uniq := by
  induction ts with
  | nil => rfl
  | cons t ts ih =>
    rw [List.foldl_cons, pushUnique, if_pos (h List.mem_cons_self)]
    exact ih fun u hu ↦ h (List.mem_cons_of_mem _ hu)

theorem foldl_pushUnique_of_nodup {uniq ts : List Ty} (h : (uniq ++ ts).Nodup) :
    ts.foldl pushUnique uniq = uniq ++ ts := by
  induction ts generalizing uniq with
  | nil => simp
  | cons t ts ih =>
    have hfresh : t ∉ uniq := fun ht ↦
      (List.nodup_append.mp h).2.2 t ht t List.mem_cons_self rfl
    rw [List.foldl_cons, pushUnique, if_neg hfresh, ih (by simpa using h)]
    simp

/-- Adding `nil` to a type twice is adding it once. -/
theorem join_nil_nil (a : Ty) : (a.join .nil).join .nil = a.join .nil := by
  by_cases hnil : a = .nil
  · rw [hnil, join_self, join_self]
  by_cases hunknown : a = .unknown
  · rw [hunknown, unknown_join, unknown_join]
  have hjoin : a.join .nil =
      match (a.parts ++ [Ty.nil]).foldl pushUnique [] with
      | [t] => t
      | ts => .union ts := by
    unfold join
    rw [if_neg hnil, if_neg (by simp [hunknown])]
    rfl
  have hmem : Ty.nil ∈ (a.parts ++ [Ty.nil]).foldl pushUnique [] :=
    (mem_foldl_pushUnique _ _).mpr (.inr (by simp))
  have hnodup := nodup_foldl_pushUnique (a.parts ++ [Ty.nil]) List.nodup_nil
  rw [hjoin]
  generalize (a.parts ++ [Ty.nil]).foldl pushUnique [] = us at hmem hnodup
  have hfold : ((Ty.union us).parts ++ Ty.nil.parts).foldl pushUnique [] = us := by
    rw [List.foldl_append]
    change [Ty.nil].foldl pushUnique (us.foldl pushUnique []) = us
    rw [show us.foldl pushUnique [] = us from foldl_pushUnique_of_nodup hnodup]
    exact foldl_pushUnique_subset (List.cons_subset.mpr ⟨hmem, List.nil_subset _⟩)
  split
  · next t => rw [← List.mem_singleton.mp hmem, join_self]
  · next hmany =>
    unfold join
    rw [if_neg (by simp), if_neg (by simp), hfold]
    split
    · next t => exact absurd rfl (hmany t)
    · rfl

end Ty

end Itaruby
