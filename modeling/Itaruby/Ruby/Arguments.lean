import Mathlib.Data.List.Basic

/-!
How Ruby binds the positional arguments of a call to the parameters of a method: the leading
required parameters from the front, the trailing ones from the back, the optional ones from
what is left, and the rest parameter takes the remainder. An argument is described by how
many values stand before and after it, a splat among them standing for any number.
-/

set_option autoImplicit false
set_option relaxedAutoImplicit false

namespace Itaruby

namespace Ruby

/-- The positional parameters of a method. Required parameters count as trailing only behind
an optional or a rest parameter. -/
structure ParamShape where
  leading : ℕ
  optional : ℕ
  rest : Bool
  trailing : ℕ
  trailing_behind : trailing ≠ 0 → optional ≠ 0 ∨ rest = true

inductive Slot
  | leading (i : ℕ)
  | optional (i : ℕ)
  | rest
  | trailing (i : ℕ)
  deriving DecidableEq, Repr

namespace ParamShape

variable (s : ParamShape)

def required : ℕ := s.leading + s.trailing

/-- The parameters that take one value at most. -/
def single : ℕ := s.leading + s.optional + s.trailing

/-- A call with so many values raises no `ArgumentError`. -/
def Accepts (values : ℕ) : Prop := s.required ≤ values ∧ (s.rest = true ∨ values ≤ s.single)

/-- The parameter of the value with `before` values in front of it and `after` behind it. -/
def bindSlot (before after : ℕ) : Slot :=
  if before < s.leading then .leading before
  else if after < s.trailing then .trailing (s.trailing - 1 - after)
  else if before - s.leading < s.optional then .optional (before - s.leading)
  else .rest

/-- The parameter written at a position of the parameter list. -/
def written (i : ℕ) : Slot :=
  if i < s.leading then .leading i
  else if i < s.leading + s.optional then .optional (i - s.leading)
  else if s.rest = true ∧ i = s.leading + s.optional then .rest
  else .trailing (i - (s.leading + s.optional + s.rest.toNat))

/-- In every run that binds, the value with `before` values and possibly a splat in front of
it, and `after` and possibly a splat behind it, goes to `slot`. -/
def AlwaysBinds (before : ℕ) (splatBefore : Bool) (after : ℕ) (splatAfter : Bool)
    (slot : Slot) : Prop :=
  ∀ b e : ℕ, (splatBefore = false → b = 0) → (splatAfter = false → e = 0) →
    s.Accepts (before + b + 1 + (after + e)) → s.bindSlot (before + b) (after + e) = slot

/-- No run binds. -/
def Unbindable (before : ℕ) (splatBefore : Bool) (after : ℕ) (splatAfter : Bool) : Prop :=
  (s.rest = false ∧ s.single < before + 1 + after) ∨
    (splatBefore = false ∧ splatAfter = false ∧ before + 1 + after < s.required)

/-- No splat in front adds a value in a run that binds. -/
def FixedBefore (before : ℕ) (splatBefore : Bool) (after : ℕ) : Prop :=
  splatBefore = false ∨ (s.rest = false ∧ before + 1 + after = s.single)

/-- The value goes to the parameter written at its own position. -/
def Aligned (before : ℕ) (splatBefore : Bool) (after : ℕ) (splatAfter : Bool) : Prop :=
  if before < s.leading then s.FixedBefore before splatBefore after
  else if before < s.leading + s.optional then
    s.FixedBefore before splatBefore after ∧ s.trailing ≤ after
  else if s.rest = true ∧ before = s.leading + s.optional then s.trailing ≤ after
  else before + 1 + after = s.single + s.rest.toNat ∧ (s.rest = true → splatAfter = false)

instance (values : ℕ) : Decidable (s.Accepts values) := inferInstanceAs (Decidable (_ ∧ _))

instance (before : ℕ) (splatBefore : Bool) (after : ℕ) :
    Decidable (s.FixedBefore before splatBefore after) := inferInstanceAs (Decidable (_ ∨ _))

instance (before : ℕ) (splatBefore : Bool) (after : ℕ) (splatAfter : Bool) :
    Decidable (s.Aligned before splatBefore after splatAfter) :=
  inferInstanceAs (Decidable (ite _ _ (ite _ _ (ite _ _ _))))

variable {s} {before after : ℕ} {splatBefore splatAfter : Bool}

/-! ### One run -/

theorem bindSlot_eq_leading_iff {i : ℕ} :
    s.bindSlot before after = .leading i ↔ before < s.leading ∧ before = i := by
  unfold bindSlot
  split_ifs <;> simp <;> omega

theorem bindSlot_eq_trailing_iff {i : ℕ} :
    s.bindSlot before after = .trailing i ↔
      s.leading ≤ before ∧ after < s.trailing ∧ s.trailing - 1 - after = i := by
  unfold bindSlot
  split_ifs <;> simp <;> omega

theorem bindSlot_eq_optional_iff {i : ℕ} :
    s.bindSlot before after = .optional i ↔
      s.leading ≤ before ∧ s.trailing ≤ after ∧ before - s.leading < s.optional ∧
        before - s.leading = i := by
  unfold bindSlot
  split_ifs <;> simp <;> omega

theorem bindSlot_eq_rest_iff :
    s.bindSlot before after = .rest ↔
      s.leading ≤ before ∧ s.trailing ≤ after ∧ s.optional ≤ before - s.leading := by
  unfold bindSlot
  split_ifs <;> simp <;> omega

/-! ### Runs that bind -/

/-- A splat in front that may add a value adds one in some run. -/
theorem exists_shifted_run (hbind : ¬ s.Unbindable before splatBefore after splatAfter)
    (hfree : ¬ s.FixedBefore before splatBefore after) :
    ∃ b, b ≠ 0 ∧ splatBefore ≠ false ∧ s.Accepts (before + b + 1 + (after + 0)) := by
  unfold Unbindable FixedBefore at *
  unfold Accepts required single at *
  refine ⟨1 + (s.leading + s.trailing - (before + 1 + after + 1)), by omega, by tauto, by omega, ?_⟩
  by_cases hrest : s.rest = true
  · exact .inl hrest
  · right
    have hroom : before + 1 + after ≠ s.leading + s.optional + s.trailing := by simp_all
    have hmax : before + 1 + after ≤ s.leading + s.optional + s.trailing := by simp_all
    omega

/-- Some run binds with as few values behind as the required parameters allow. -/
theorem exists_tight_run (hbind : ¬ s.Unbindable before splatBefore after splatAfter) :
    ∃ b e, (splatBefore = false → b = 0) ∧ (splatAfter = false → e = 0) ∧
      (b = 0 ∨ e = 0) ∧ before + 1 + after + b + e = max (before + 1 + after) s.required ∧
        s.Accepts (before + b + 1 + (after + e)) := by
  unfold Unbindable at hbind
  unfold Accepts required single at *
  have hmax : s.rest = true ∨ before + 1 + after ≤ s.leading + s.optional + s.trailing := by
    by_cases hrest : s.rest = true
    · exact .inl hrest
    · simp_all
  by_cases hfew : before + 1 + after < s.leading + s.trailing
  · cases splatBefore with
    | true =>
      refine ⟨s.leading + s.trailing - (before + 1 + after), 0, by simp, by simp, .inr rfl,
        by omega, by omega, ?_⟩
      exact hmax.imp_right fun _ ↦ by omega
    | false =>
      cases splatAfter with
      | true =>
        refine ⟨0, s.leading + s.trailing - (before + 1 + after), by simp, by simp, .inl rfl,
          by omega, by omega, ?_⟩
        exact hmax.imp_right fun _ ↦ by omega
      | false => exact absurd (.inr ⟨rfl, rfl, hfew⟩) hbind
  · exact ⟨0, 0, by simp, by simp, .inl rfl, by omega, by omega, hmax.imp_right fun _ ↦ by omega⟩

/-! ### Every run -/

theorem FixedBefore.eq_zero (h : s.FixedBefore before splatBefore after) {b e : ℕ}
    (hb : splatBefore = false → b = 0) (hrun : s.Accepts (before + b + 1 + (after + e))) :
    b = 0 := by
  unfold FixedBefore at h
  unfold Accepts at hrun
  rcases h with h | ⟨hrest, hfull⟩
  · exact hb h
  · have hmax : before + b + 1 + (after + e) ≤ s.single := by simpa [hrest] using hrun.2
    omega

theorem alwaysBinds_leading_iff (hbind : ¬ s.Unbindable before splatBefore after splatAfter)
    (h : before < s.leading) :
    s.AlwaysBinds before splatBefore after splatAfter (.leading before) ↔
      s.FixedBefore before splatBefore after := by
  constructor
  · intro hbinds
    by_contra hfree
    obtain ⟨b, hb, hsplat, hrun⟩ := exists_shifted_run hbind hfree
    have hslot := hbinds b 0 (absurd · hsplat) (fun _ ↦ rfl) hrun
    have hpos := (bindSlot_eq_leading_iff.mp hslot).2
    omega
  · intro hfixed b e hb _ hrun
    obtain rfl := hfixed.eq_zero hb hrun
    exact bindSlot_eq_leading_iff.mpr ⟨h, rfl⟩

/-- Behind the leading parameters, a value is taken from the back in some run unless enough
values follow it. -/
theorem trailing_le_of_alwaysBinds {slot : Slot}
    (hbind : ¬ s.Unbindable before splatBefore after splatAfter) (h : s.leading ≤ before)
    (hslot : ∀ i, slot ≠ .trailing i)
    (hbinds : s.AlwaysBinds before splatBefore after splatAfter slot) : s.trailing ≤ after := by
  by_contra hafter
  obtain ⟨b, e, hb, he, hone, hsum, hrun⟩ := exists_tight_run hbind
  have hslot' := hbinds b e hb he hrun
  have hback : after + e < s.trailing := by
    unfold required at hsum
    omega
  exact hslot _ (hslot'.symm.trans
    (bindSlot_eq_trailing_iff.mpr ⟨by omega, hback, rfl⟩))

theorem alwaysBinds_optional_iff (hbind : ¬ s.Unbindable before splatBefore after splatAfter)
    (h : s.leading ≤ before) (hoptional : before < s.leading + s.optional) :
    s.AlwaysBinds before splatBefore after splatAfter (.optional (before - s.leading)) ↔
      s.FixedBefore before splatBefore after ∧ s.trailing ≤ after := by
  constructor
  · intro hbinds
    refine ⟨?_, trailing_le_of_alwaysBinds hbind h (by simp) hbinds⟩
    by_contra hfree
    obtain ⟨b, hb, hsplat, hrun⟩ := exists_shifted_run hbind hfree
    have hslot := hbinds b 0 (absurd · hsplat) (fun _ ↦ rfl) hrun
    have hpos := (bindSlot_eq_optional_iff.mp hslot).2.2.2
    omega
  · rintro ⟨hfixed, hafter⟩ b e hb _ hrun
    obtain rfl := hfixed.eq_zero hb hrun
    exact bindSlot_eq_optional_iff.mpr ⟨h, by omega, by omega, rfl⟩

theorem alwaysBinds_rest_iff (hbind : ¬ s.Unbindable before splatBefore after splatAfter)
    (h : before = s.leading + s.optional) :
    s.AlwaysBinds before splatBefore after splatAfter .rest ↔ s.trailing ≤ after := by
  constructor
  · exact trailing_le_of_alwaysBinds hbind (by omega) (by simp)
  · intro hafter b e _ _ _
    exact bindSlot_eq_rest_iff.mpr ⟨by omega, by omega, by omega⟩

theorem alwaysBinds_trailing_iff (hbind : ¬ s.Unbindable before splatBefore after splatAfter)
    (h : s.leading + s.optional + s.rest.toNat ≤ before)
    (hlast : before < s.single + s.rest.toNat) :
    s.AlwaysBinds before splatBefore after splatAfter
        (.trailing (before - (s.leading + s.optional + s.rest.toNat))) ↔
      before + 1 + after = s.single + s.rest.toNat ∧ (s.rest = true → splatAfter = false) := by
  have hslots : ∀ b e, s.bindSlot (before + b) (after + e) =
      .trailing (before - (s.leading + s.optional + s.rest.toNat)) ↔
        before + 1 + (after + e) = s.single + s.rest.toNat := by
    intro b e
    rw [bindSlot_eq_trailing_iff]
    unfold single at *
    omega
  have hbehind := s.trailing_behind
  constructor
  · intro hbinds
    obtain ⟨b, e, hb, he, hone, hsum, hrun⟩ := exists_tight_run hbind
    have htight := (hslots b e).mp (hbinds b e hb he hrun)
    unfold required at hsum
    cases hrest : s.rest with
    | false =>
      simp only [hrest, Bool.toNat_false, Bool.false_eq_true, or_false] at *
      unfold single at *
      refine ⟨by omega, by simp⟩
    | true =>
      have hafter : splatAfter = false := by
        by_contra hsplat
        have hrun' : s.Accepts (before + b + 1 + (after + (e + 1))) :=
          ⟨by have := hrun.1; omega, .inl hrest⟩
        have := (hslots b (e + 1)).mp (hbinds b (e + 1) hb (absurd · hsplat) hrun')
        omega
      obtain rfl := he hafter
      exact ⟨by simpa [hrest] using htight, fun _ ↦ hafter⟩
  · rintro ⟨hfull, hsplat⟩ b e _ he hrun
    refine (hslots b e).mpr ?_
    cases hrest : s.rest with
    | false =>
      have hmax : before + b + 1 + (after + e) ≤ s.single := by simpa [hrest] using hrun.2
      simp only [hrest, Bool.toNat_false] at *
      omega
    | true =>
      obtain rfl := he (hsplat hrest)
      simpa [hrest] using hfull

/-- The value written at a position of the call goes to the parameter written at the same
position, in every run that binds, exactly when the surroundings are aligned. -/
theorem alwaysBinds_written_iff (hbind : ¬ s.Unbindable before splatBefore after splatAfter)
    (hlast : before < s.single + s.rest.toNat) :
    s.AlwaysBinds before splatBefore after splatAfter (s.written before) ↔
      s.Aligned before splatBefore after splatAfter := by
  unfold written Aligned
  split_ifs with hleading hoptional hrest
  · exact alwaysBinds_leading_iff hbind hleading
  · exact alwaysBinds_optional_iff hbind (by omega) hoptional
  · exact alwaysBinds_rest_iff hbind hrest.2
  · refine alwaysBinds_trailing_iff hbind ?_ hlast
    cases hr : s.rest with
    | false => simpa using hoptional
    | true =>
      have : before ≠ s.leading + s.optional := fun h ↦ hrest ⟨hr, h⟩
      simp only [Bool.toNat_true]
      omega

theorem alwaysBinds_of_unbindable (h : s.Unbindable before splatBefore after splatAfter)
    (slot : Slot) : s.AlwaysBinds before splatBefore after splatAfter slot := by
  intro b e hb he hrun
  unfold Unbindable at h
  unfold Accepts at hrun
  rcases h with ⟨hrest, hmany⟩ | ⟨hbefore, hafter, hfew⟩
  · have hmax : before + b + 1 + (after + e) ≤ s.single := by simpa [hrest] using hrun.2
    omega
  · obtain rfl := hb hbefore
    obtain rfl := he hafter
    omega

end ParamShape

end Ruby

end Itaruby
