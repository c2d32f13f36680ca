import Mathlib.Data.List.Sort
import Mathlib.Data.List.Nodup

/-!
What a stable sort forgets of the order of its input: lists that agree on the elements of each
key have one sorted list.
-/

set_option autoImplicit false
set_option relaxedAutoImplicit false

namespace List

variable {α : Type} {le : α → α → Bool}

/-- The elements with the key of `a`, in their order. -/
def sameKey (le : α → α → Bool) (a : α) (l : List α) : List α :=
  l.filter fun b ↦ le a b && le b a

theorem mem_sameKey {a b : α} {l : List α} :
    b ∈ sameKey le a l ↔ b ∈ l ∧ le a b = true ∧ le b a = true := by
  simp [sameKey]

theorem sameKey_append (a : α) (l l' : List α) :
    sameKey le a (l ++ l') = sameKey le a l ++ sameKey le a l' :=
  filter_append l l'

variable (trans : ∀ a b c, le a b = true → le b c = true → le a c = true)
variable (total : ∀ a b, (le a b || le b a) = true)

include total in
theorem key_refl (a : α) : le a a = true := by
  simpa using total a a

include total in
/-- Sorted lists that agree on each key agree. -/
theorem eq_of_sameKey {l l' : List α} (hl : l.Pairwise fun a b ↦ le a b = true)
    (hl' : l'.Pairwise fun a b ↦ le a b = true)
    (h : ∀ a, sameKey le a l = sameKey le a l') : l = l' := by
  have mem {k k' : List α} (h : ∀ a, sameKey le a k = sameKey le a k') {a : α}
      (ha : a ∈ k) : a ∈ k' :=
    (mem_sameKey.mp
      (h a ▸ mem_sameKey.mpr ⟨ha, key_refl total a, key_refl total a⟩)).1
  induction l generalizing l' with
  | nil =>
    cases l' with
    | nil => rfl
    | cons b l' => exact absurd (mem (fun a ↦ (h a).symm) mem_cons_self) not_mem_nil
  | cons a l ih =>
    cases l' with
    | nil => exact absurd (mem h mem_cons_self) not_mem_nil
    | cons b l' =>
      have hab : le a b = true := by
        cases mem (fun c ↦ (h c).symm) (mem_cons_self (a := b)) with
        | head => exact key_refl total _
        | tail _ hb => exact rel_of_pairwise_cons hl hb
      have hba : le b a = true := by
        cases mem h (mem_cons_self (a := a)) with
        | head => exact key_refl total _
        | tail _ ha => exact rel_of_pairwise_cons hl' ha
      have heads : a = b := by
        have := h a
        simp only [sameKey, filter_cons, key_refl total a, hab, hba, Bool.and_self,
          if_true] at this
        exact (cons.inj this).1
      subst heads
      refine congrArg _ (ih hl.of_cons hl'.of_cons fun c ↦ ?_)
      have hc := h c
      simp only [sameKey, filter_cons] at hc ⊢
      split at hc
      · exact (cons.inj hc).2
      · exact hc

include trans total in
theorem sameKey_mergeSort (a : α) (l : List α) :
    sameKey le a (l.mergeSort le) = sameKey le a l := by
  have sorted : (sameKey le a l).Pairwise fun b c ↦ le b c = true :=
    pairwise_of_forall_mem_list fun b hb c hc ↦
      trans b a c (mem_sameKey.mp hb).2.2 (mem_sameKey.mp hc).2.1
  have sub : sameKey le a l <+ sameKey le a (l.mergeSort le) := by
    have := (sublist_mergeSort trans total sorted filter_sublist).filter
      fun b ↦ le a b && le b a
    rwa [sameKey, filter_filter, show (fun b ↦ (le a b && le b a) && (le a b && le b a)) =
      fun b ↦ le a b && le b a from funext fun b ↦ Bool.and_self _] at this
  exact (sub.eq_of_length ((mergeSort_perm l le).filter _).length_eq.symm).symm

include trans total in
theorem mergeSort_eq_of_sameKey {l l' : List α}
    (h : ∀ a, sameKey le a l = sameKey le a l') : l.mergeSort le = l'.mergeSort le :=
  eq_of_sameKey total (pairwise_mergeSort trans total l) (pairwise_mergeSort trans total l')
    fun a ↦ by
      rw [sameKey_mergeSort trans total, sameKey_mergeSort trans total]
      exact h a

/-! ### Lists with one order -/

theorem Perm.eq_of_length_le_one {l l' : List α} (h : l.Perm l') (one : l.length ≤ 1) :
    l = l' := by
  match l, one with
  | [], _ => exact (nil_perm.mp h).symm
  | [a], _ => exact singleton_perm.mp h

/-- A list without repetitions that is its own reverse. -/
theorem Nodup.length_le_one_of_reverse {l : List α} (nodup : l.Nodup) (h : l.reverse = l) :
    l.length ≤ 1 := by
  match l with
  | [] => exact Nat.zero_le 1
  | [a] => exact Nat.le_refl 1
  | a :: b :: l =>
    have last : (a :: b :: l).getLast (cons_ne_nil _ _) = a := by
      have := head_reverse (l := a :: b :: l) (by simp)
      rw [← this]
      simp only [h, head_cons]
    have inside : (b :: l).getLast (cons_ne_nil _ _) ∈ b :: l := getLast_mem _
    rw [getLast_cons (cons_ne_nil _ _)] at last
    exact absurd (last ▸ inside) (nodup_cons.mp nodup).1

/-- One element at most has an image. -/
theorem Nodup.length_filterMap_le_one {β : Type} {f : α → Option β} {l : List α}
    (nodup : l.Nodup) (h : ∀ a ∈ l, ∀ b ∈ l, (f a).isSome → (f b).isSome → a = b) :
    (l.filterMap f).length ≤ 1 := by
  induction l with
  | nil => exact Nat.zero_le 1
  | cons a l ih =>
    have tail := ih nodup.of_cons fun b hb c hc ↦ h b (.tail _ hb) c (.tail _ hc)
    cases image : f a with
    | none => rwa [filterMap_cons_none image]
    | some b =>
      have others : l.filterMap f = [] := by
        refine filterMap_eq_nil_iff.mpr fun c hc ↦ ?_
        by_contra hsome
        have := h a (.head _) c (.tail _ hc) (by rw [image]; rfl)
          (Option.isSome_iff_ne_none.mpr hsome)
        exact (nodup_cons.mp nodup).1 (this ▸ hc)
      rw [filterMap_cons_some image, others]
      exact Nat.le_refl 1

/-- Pieces of equal lengths are told apart in their concatenation. -/
theorem eq_of_flatMap_eq {β : Type} {f g : α → List β} {l : List α}
    (lengths : ∀ a ∈ l, (f a).length = (g a).length) (h : l.flatMap f = l.flatMap g) :
    ∀ a ∈ l, f a = g a := by
  induction l with
  | nil => exact fun a ha ↦ absurd ha not_mem_nil
  | cons a l ih =>
    rw [flatMap_cons, flatMap_cons] at h
    obtain ⟨head, tail⟩ := append_inj h (lengths a (.head _))
    intro b hb
    cases hb with
    | head => exact head
    | tail _ hb => exact ih (fun c hc ↦ lengths c (.tail _ hc)) tail b hb

end List
