import Itaruby.Index.Build

/-!
Why a class is open. The recorded reason of a class agrees with the grounds on which it
was opened: it is `abstractRaise` exactly when every ground is that one or was masked by
it. Every operation that opens, merges or patches a class keeps this agreement.
-/

set_option autoImplicit false
set_option relaxedAutoImplicit false

namespace Itaruby

theorem mergeOpenReason_weak (incoming : Option OpenReason) :
    mergeOpenReason (some .abstractRaise) incoming = incoming.or (some .abstractRaise) := by
  cases incoming with
  | none => rfl
  | some r =>
    by_cases hr : r = .abstractRaise
    · simp [mergeOpenReason, hr]
    · simp [mergeOpenReason, hr]

theorem mergeOpenReason_strong {r : OpenReason} (hr : r ≠ .abstractRaise)
    (incoming : Option OpenReason) : mergeOpenReason (some r) incoming = some r := by
  cases r with
  | abstractRaise => exact absurd rfl hr
  | _ => rfl

theorem mergeOpenReason_none_right (current : Option OpenReason) :
    mergeOpenReason current none = current := by
  cases current with
  | none => rfl
  | some r => cases r with
    | _ => rfl

theorem mergeOpenReason_eq_none_iff {current incoming : Option OpenReason} :
    mergeOpenReason current incoming = none ↔ current = none ∧ incoming = none := by
  cases current with
  | none => simp [mergeOpenReason]
  | some r =>
    by_cases hr : r = .abstractRaise
    · subst hr
      simp [mergeOpenReason_weak]
    · simp [mergeOpenReason_strong hr]

theorem mergeOpenReason_eq_weak_iff {current incoming : Option OpenReason} :
    mergeOpenReason current incoming = some .abstractRaise ↔
      ¬ (current = none ∧ incoming = none) ∧
        (current = none ∨ current = some .abstractRaise) ∧
          (incoming = none ∨ incoming = some .abstractRaise) := by
  cases current with
  | none =>
    cases incoming with
    | none => simp [mergeOpenReason]
    | some r => simp [mergeOpenReason]
  | some r =>
    by_cases hr : r = .abstractRaise
    · subst hr
      cases incoming with
      | none => simp [mergeOpenReason_weak]
      | some r => simp [mergeOpenReason_weak]
    · simp [mergeOpenReason_strong hr, hr]

/-- A ground that leaves the class open for `abstractRaise`: that idiom itself, or a header
that found it recorded. -/
def Ground.Weak (g : Ground) : Prop := g.reason = .abstractRaise ∨ g.masked = true

instance (g : Ground) : Decidable g.Weak := inferInstanceAs (Decidable (_ ∨ _))

structure Grounded (isOpen : Bool) (reason : Option OpenReason) (grounds : List Ground) : Prop where
  isOpen_iff : isOpen = true ↔ grounds ≠ []
  reason_none_iff : reason = none ↔ grounds = []
  weak_iff : reason = some .abstractRaise ↔ grounds ≠ [] ∧ ∀ g ∈ grounds, g.Weak

namespace Grounded

variable {isOpen isOpen' : Bool} {reason reason' : Option OpenReason}
  {grounds grounds' : List Ground}

theorem closed : Grounded false none [] :=
  ⟨by simp, by simp, by simp⟩

theorem single (r : OpenReason) : Grounded true (some r) [{ reason := r }] :=
  ⟨by simp, by simp, by simp [Ground.Weak]⟩

/-- A record is empty or weak exactly when all of its grounds are weak. -/
theorem all_weak_iff (h : Grounded isOpen reason grounds) :
    (∀ g ∈ grounds, g.Weak) ↔ reason = none ∨ reason = some .abstractRaise := by
  rw [h.reason_none_iff, h.weak_iff]
  by_cases hnil : grounds = []
  · simp [hnil]
  · simp [hnil]

/-- Two records of one class side by side, under the merge of their reasons. -/
theorem merge (h : Grounded isOpen reason grounds) (h' : Grounded isOpen' reason' grounds') :
    Grounded (isOpen || isOpen') (mergeOpenReason reason reason') (grounds ++ grounds') := by
  have hall : (∀ g ∈ grounds ++ grounds', g.Weak) ↔
      (reason = none ∨ reason = some .abstractRaise) ∧
        (reason' = none ∨ reason' = some .abstractRaise) := by
    rw [← h.all_weak_iff, ← h'.all_weak_iff]
    simp only [List.mem_append, or_imp, forall_and]
  have hnil : grounds ++ grounds' = [] ↔ reason = none ∧ reason' = none := by
    rw [List.append_eq_nil_iff, h.reason_none_iff, h'.reason_none_iff]
  refine ⟨?_, ?_, ?_⟩
  · rw [Bool.or_eq_true, h.isOpen_iff, h'.isOpen_iff, Ne, Ne, Ne, List.append_eq_nil_iff]
    tauto
  · rw [hnil]
    exact mergeOpenReason_eq_none_iff
  · rw [Ne, hnil, hall]
    exact mergeOpenReason_eq_weak_iff

theorem openFor (h : Grounded isOpen reason grounds) (r : OpenReason) :
    Grounded true (mergeOpenReason reason (some r)) (grounds ++ [{ reason := r }]) := by
  simpa using h.merge (single r)

/-- A header that fills a missing reason only. -/
theorem openHeader (h : Grounded isOpen reason grounds) (r : OpenReason) :
    Grounded true (if reason = none then some r else reason)
      (grounds ++ [{ reason := r, masked := reason = some .abstractRaise }]) := by
  by_cases hnone : reason = none
  · obtain rfl := h.reason_none_iff.mp hnone
    subst hnone
    simpa using single r
  · have hne : grounds ≠ [] := fun hnil ↦ hnone (h.reason_none_iff.mpr hnil)
    refine ⟨by simp, by simp [hnone], ?_⟩
    rw [if_neg hnone]
    by_cases hweak : reason = some .abstractRaise
    · have hall := (h.weak_iff.mp hweak).2
      simp only [hweak, decide_true, List.mem_append, List.mem_singleton, true_iff]
      refine ⟨by simp, fun g hg ↦ ?_⟩
      rcases hg with hg | rfl
      · exact hall g hg
      · exact .inr rfl
    · refine ⟨fun heq ↦ absurd heq hweak, fun hall ↦ ?_⟩
      exact absurd (h.weak_iff.mpr ⟨hne, fun g hg ↦ hall.2 g (List.mem_append_left _ hg)⟩) hweak

/-- A class with a ground other than the weak idiom is open for another reason exactly when
one of these grounds was not masked. -/
theorem reason_ne_weak_iff (h : Grounded isOpen reason grounds)
    (hground : ∃ g ∈ grounds, g.reason ≠ .abstractRaise) :
    reason ≠ some .abstractRaise ↔
      ∃ g ∈ grounds, g.reason ≠ .abstractRaise ∧ g.masked = false := by
  obtain ⟨g, hg, -⟩ := hground
  have hne : grounds ≠ [] := List.ne_nil_of_mem hg
  rw [Ne, h.weak_iff]
  simp only [Ground.Weak, hne, Ne, not_false_eq_true, true_and, not_forall, not_or,
    Bool.not_eq_true, exists_prop]

end Grounded

namespace ClassFragment

def GroundedFragment (f : ClassFragment) : Prop := Grounded f.isOpen f.openReason f.grounds

end ClassFragment

namespace ClassDef

def GroundedClass (c : ClassDef) : Prop := Grounded c.isOpen c.openReason c.grounds

theorem GroundedClass.openFor {c : ClassDef} (h : c.GroundedClass) (reason : OpenReason) :
    (c.openFor reason).GroundedClass := by
  have hreason : (c.openFor reason).openReason = mergeOpenReason c.openReason (some reason) := by
    change (if c.openReason = none ∨ c.openReason = some .abstractRaise then some reason
      else c.openReason) = _
    cases hcur : c.openReason with
    | none => simp [mergeOpenReason]
    | some r =>
      by_cases hr : r = .abstractRaise
      · simp [hr, mergeOpenReason_weak]
      · simp [hr, mergeOpenReason_strong hr]
  change Grounded true (c.openFor reason).openReason _
  rw [hreason]
  exact Grounded.openFor h reason

theorem GroundedClass.mergeFragment {c : ClassDef} (h : c.GroundedClass) {frag : ClassFragment}
    (hfrag : frag.GroundedFragment) (file : SourceFile) :
    (Itaruby.mergeFragment c frag file).GroundedClass :=
  Grounded.merge h hfrag

theorem GroundedClass.patchClass {c : ClassDef} (h : c.GroundedClass) {frag : ClassFragment}
    (hfrag : frag.GroundedFragment) (file : SourceFile) :
    (ProjectIndex.patchClass c frag file).GroundedClass := by
  change Grounded (c.isOpen || frag.isOpen)
    (if frag.isOpen then mergeOpenReason c.openReason frag.openReason else c.openReason)
    (c.grounds ++ frag.grounds)
  have hmerge := Grounded.merge h hfrag
  by_cases hopen : frag.isOpen = true
  · rwa [if_pos hopen]
  · have hnil : frag.grounds = [] := by
      by_contra hne
      exact hopen (hfrag.isOpen_iff.mpr hne)
    have hnone := hfrag.reason_none_iff.mpr hnil
    rw [if_neg hopen]
    rwa [hnone, mergeOpenReason_none_right] at hmerge

end ClassDef

end Itaruby
