import Itaruby.Check.Env

/-!
A reading of the types says of each whether it fits some fixed thing. What the checker does to
types is right for every reading that takes a union apart and lets `unknown` fit everything.
-/

set_option autoImplicit false
set_option relaxedAutoImplicit false

namespace Itaruby

/-- One type, or the union of several. -/
def Ty.gathered : List Ty → Ty
  | [t] => t
  | ts => .union ts

structure Ty.Reading (D : Ty → Prop) : Prop where
  unknown : D .unknown
  union : ∀ parts, D (.union parts) ↔ ∃ part ∈ parts, D part

namespace Ty

/-- What is left of a union is its other members. -/
theorem eliminateUnionMember_eq {cur tested narrowed : Ty}
    (hnarrowed : eliminateUnionMember cur tested = some narrowed) :
    ∃ parts, cur = .union parts ∧ .unknown ∉ parts ∧ (∃ part ∈ parts, tyClassEq part tested) ∧
      (parts.filter fun p ↦ !tyClassEq p tested) ≠ [] ∧
      narrowed = gathered (parts.filter fun p ↦ !tyClassEq p tested) := by
  unfold eliminateUnionMember at hnarrowed
  split at hnarrowed
  · next parts =>
    refine ⟨parts, rfl, ?_⟩
    split_ifs at hnarrowed with hunknown hany
    have hany : ∃ part ∈ parts, tyClassEq part tested = true := by simpa using hany
    have hunknown : Ty.unknown ∉ parts := by simpa using hunknown
    refine ⟨hunknown, hany, ?_⟩
    split at hnarrowed
    · cases hnarrowed
    · next single heq =>
      rw [heq]
      exact ⟨by simp, (Option.some.inj hnarrowed).symm⟩
    · next hne hmany =>
      refine ⟨hne, ?_⟩
      rw [← Option.some.inj hnarrowed]
      unfold Ty.gathered
      split
      · next t heq => exact absurd heq (hmany t)
      · rfl
  · cases hnarrowed

theorem eliminateUnionMember_isSome {parts : List Ty} {tested : Ty} (hunknown : .unknown ∉ parts)
    (hany : ∃ part ∈ parts, tyClassEq part tested = true)
    (hother : ∃ part ∈ parts, tyClassEq part tested = false) :
    ∃ narrowed, eliminateUnionMember (.union parts) tested = some narrowed := by
  obtain ⟨kept, hkept, hdiffers⟩ := hother
  have hmem : kept ∈ parts.filter fun p ↦ !tyClassEq p tested := by
    rw [List.mem_filter, Bool.not_eq_true']
    exact ⟨hkept, hdiffers⟩
  simp only [eliminateUnionMember]
  rw [if_neg (by simpa using hunknown), if_neg (by simpa using hany)]
  split
  · next hnil => simp [hnil] at hmem
  · exact ⟨_, rfl⟩
  · exact ⟨_, rfl⟩

theorem foldl_join_const {ty : Ty} {tys : List Ty} (h : ∀ t ∈ tys, t = ty) :
    tys.foldl join ty = ty := by
  induction tys with
  | nil => rfl
  | cons t rest ih =>
    rw [List.foldl_cons, h t List.mem_cons_self, join_self]
    exact ih fun u hu ↦ h u (List.mem_cons_of_mem _ hu)

namespace Reading

variable {D : Ty → Prop} (h : Reading D)

include h

theorem parts {ty : Ty} : D ty ↔ ∃ part ∈ ty.parts, D part := by
  cases ty with
  | union parts => exact h.union parts
  | _ => simp [Ty.parts]

theorem of_mem_gathered {tys : List Ty} {part : Ty} (hpart : part ∈ tys) (hD : D part) :
    D (gathered tys) := by
  unfold Ty.gathered
  split
  · next t =>
    rw [List.mem_singleton] at hpart
    exact hpart ▸ hD
  · exact (h.union _).mpr ⟨part, hpart, hD⟩

theorem join {a b : Ty} (hab : D a ∨ D b) : D (a.join b) := by
  unfold Ty.join
  split_ifs with heq hunknown
  · exact hab.elim id (heq ▸ id)
  · exact h.unknown
  · obtain ⟨part, hpart, hD⟩ : ∃ part ∈ a.parts ++ b.parts, D part := by
      rcases hab with ha | hb
      · obtain ⟨part, hpart, hD⟩ := h.parts.mp ha
        exact ⟨part, List.mem_append_left _ hpart, hD⟩
      · obtain ⟨part, hpart, hD⟩ := h.parts.mp hb
        exact ⟨part, List.mem_append_right _ hpart, hD⟩
    exact h.of_mem_gathered ((mem_foldl_pushUnique (a.parts ++ b.parts) []).mpr (.inr hpart)) hD

theorem foldl_join {tys : List Ty} {ty : Ty} (hD : D ty ∨ ∃ t ∈ tys, D t) :
    D (tys.foldl Ty.join ty) := by
  induction tys generalizing ty with
  | nil => simpa using hD
  | cons t rest ih =>
    apply ih
    rcases hD with hD | ⟨u, hu, hD⟩
    · exact .inl (h.join (.inl hD))
    · rcases List.mem_cons.mp hu with rfl | hu
      · exact .inl (h.join (.inr hD))
      · exact .inr ⟨u, hu, hD⟩

theorem stripNil {ty : Ty} (hD : D ty) (hnil : ¬ D .nil) : D (stripNil ty) := by
  unfold Itaruby.stripNil
  split
  · exact h.unknown
  · next parts =>
    obtain ⟨part, hpart, hD⟩ := (h.union parts).mp hD
    have hmem : part ∈ parts.filter (· ≠ .nil) := by
      have hne : part ≠ .nil := fun heq ↦ hnil (heq ▸ hD)
      simpa using ⟨hpart, hne⟩
    split
    · exact h.unknown
    · next single heq =>
      rw [heq, List.mem_singleton] at hmem
      exact hmem ▸ hD
    · exact (h.union _).mpr ⟨part, hmem, hD⟩
  · exact hD

theorem eliminate_iff {cur tested narrowed : Ty}
    (hnarrowed : eliminateUnionMember cur tested = some narrowed) :
    D narrowed ↔ ∃ part ∈ cur.parts, tyClassEq part tested = false ∧ D part := by
  obtain ⟨parts, rfl, -, -, -, rfl⟩ := eliminateUnionMember_eq hnarrowed
  constructor
  · intro hD
    obtain ⟨part, hpart, hD⟩ : ∃ part ∈ parts.filter fun p ↦ !tyClassEq p tested, D part := by
      unfold Ty.gathered at hD
      split at hD
      · next t heq => exact ⟨t, heq ▸ List.mem_singleton_self t, hD⟩
      · exact (h.union _).mp hD
    rw [List.mem_filter, Bool.not_eq_true'] at hpart
    exact ⟨part, hpart.1, hpart.2, hD⟩
  · rintro ⟨part, hpart, hother, hD⟩
    refine h.of_mem_gathered ?_ hD
    rw [List.mem_filter, Bool.not_eq_true']
    exact ⟨hpart, hother⟩

end Reading

end Ty

end Itaruby
