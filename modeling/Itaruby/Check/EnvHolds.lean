import Itaruby.Check.Infer
import Itaruby.Ruby.Values

/-!
When an environment is right about a local. A local without a type has no value yet: that is
what the joins take it for.
-/

set_option autoImplicit false
set_option relaxedAutoImplicit false

namespace Itaruby

namespace Env

variable (inherits : ClassId → ClassId → Prop)

/-- The environment covers what the local holds. -/
def Holds (env : Env) (x : String) (v : Option Value) : Prop :=
  match env x with
  | none => v = none
  | some ty => ty.Covers inherits (v.getD .nil)

variable {inherits} {env base body outer block : Env} {x : String} {v : Option Value}

theorem holds_of_some {ty : Ty} (hx : env x = some ty) :
    env.Holds inherits x v ↔ ty.Covers inherits (v.getD .nil) := by
  simp only [Holds, hx]

theorem holds_of_none (hx : env x = none) : env.Holds inherits x v ↔ v = none := by
  simp only [Holds, hx]

theorem holds_congr {env' : Env} (hx : env x = env' x) :
    env.Holds inherits x v ↔ env'.Holds inherits x v := by
  simp only [Holds, hx]

theorem Holds.getD_covers (h : env.Holds inherits x v) :
    ((env x).getD .unknown).Covers inherits (v.getD .nil) := by
  cases hx : env x with
  | none => trivial
  | some ty => exact (holds_of_some hx).1 h

/-- What the joins take a local for. -/
theorem Holds.nil_covers (h : env.Holds inherits x v) :
    ((env x).getD .nil).Covers inherits (v.getD .nil) := by
  cases hx : env x with
  | none =>
    rw [(holds_of_none hx).1 h]
    rfl
  | some ty => exact (holds_of_some hx).1 h

/-! ### Insertions -/

theorem insert_eq_none {name : String} {ty : Ty} (h : env.insert name ty x = none) :
    env x = none := by
  by_cases hx : x = name
  · rw [hx, insert_self] at h
    cases h
  · rwa [insert_ne env hx] at h

theorem holds_insert {name : String} {ty : Ty}
    (hself : x = name → ty.Covers inherits (v.getD .nil))
    (hne : x ≠ name → env.Holds inherits x v) : (env.insert name ty).Holds inherits x v := by
  by_cases hx : x = name
  · exact (holds_of_some (by rw [hx, insert_self])).2 (hself hx)
  · exact (holds_congr (insert_ne env hx ty)).2 (hne hx)

theorem insertUnknown_eq_none {names : List String} (h : env.insertUnknown names x = none) :
    env x = none := by
  induction names generalizing env with
  | nil => exact h
  | cons name rest ih => exact insert_eq_none (ih h)

theorem insertUnknown_of_notMem {names : List String} (h : x ∉ names) :
    env.insertUnknown names x = env x := by
  induction names generalizing env with
  | nil => rfl
  | cons name rest ih =>
    rw [List.mem_cons, not_or] at h
    change (env.insert name .unknown).insertUnknown rest x = _
    rw [ih h.2, insert_ne env h.1]

theorem insertUnknown_of_mem {names : List String} (h : x ∈ names) :
    env.insertUnknown names x = some .unknown := by
  induction names generalizing env with
  | nil => cases h
  | cons name rest ih =>
    change (env.insert name .unknown).insertUnknown rest x = _
    by_cases hrest : x ∈ rest
    · exact ih hrest
    · rw [insertUnknown_of_notMem hrest, (List.mem_cons.1 h).resolve_right hrest, insert_self]

theorem holds_insertUnknown {names : List String} (h : x ∉ names → env.Holds inherits x v) :
    (env.insertUnknown names).Holds inherits x v := by
  by_cases hx : x ∈ names
  · exact (holds_of_some (insertUnknown_of_mem hx)).2 trivial
  · exact (holds_congr (insertUnknown_of_notMem hx)).2 (h hx)

/-! ### Joins -/

theorem join_eq_none {branches : List Env} (h : base.join branches x = none) :
    base x = none ∧ ∀ b ∈ branches, b x = none := by
  unfold join at h
  split at h
  · next hany =>
    split at h
    · next hmap =>
      rw [List.map_eq_nil_iff] at hmap
      simp [hmap] at hany
    · cases h
  · next hany =>
    refine ⟨h, fun b hb ↦ ?_⟩
    simp only [List.any_eq_true, not_exists, not_and, Option.not_isSome_iff_eq_none] at hany
    exact hany b hb

/-- The join covers what a branch does, where the branch did not lose sight of the local. -/
theorem holds_join {branches : List Env} {b : Env} (hb : b ∈ branches)
    (hbase : b x = none → base.Holds inherits x none) (h : b.Holds inherits x v) :
    (base.join branches).Holds inherits x v := by
  have hbranch : (inBranch base b x).Covers inherits (v.getD .nil) := by
    unfold inBranch
    cases hx : b x with
    | some ty => exact (holds_of_some hx).1 h
    | none =>
      rw [(holds_of_none hx).1 h, Option.none_or]
      exact (hbase hx).nil_covers
  by_cases hany : branches.any (fun b ↦ (b x).isSome) = true
  · obtain ⟨t, rest, hmap⟩ : ∃ t rest, branches.map (fun b ↦ inBranch base b x) = t :: rest := by
      cases hmap : branches.map (fun b ↦ inBranch base b x) with
      | nil =>
        rw [List.map_eq_nil_iff] at hmap
        rw [hmap] at hb
        cases hb
      | cons t rest => exact ⟨t, rest, rfl⟩
    have hjoin : base.join branches x = some (rest.foldl Ty.join t) := by
      simp only [join, hany, if_true, hmap]
    refine (holds_of_some hjoin).2 (Ty.covers_foldl_join ?_)
    have hmem : inBranch base b x ∈ t :: rest := hmap ▸ List.mem_map_of_mem hb
    rcases List.mem_cons.1 hmem with heq | hmem
    · exact Or.inl (heq ▸ hbranch)
    · exact Or.inr ⟨_, hmem, hbranch⟩
  · have hx : b x = none := by
      simp only [List.any_eq_true, not_exists, not_and, Option.not_isSome_iff_eq_none] at hany
      exact hany b hb
    have hjoin : base.join branches x = base x := by
      simp only [join, hany, if_false, Bool.false_eq_true]
    rw [holds_congr hjoin, (holds_of_none hx).1 h]
    exact hbase hx

theorem mergeLoop_eq_none (h : base.mergeLoop body x = none) : base x = none ∧ body x = none := by
  unfold mergeLoop at h
  split at h
  · next hbody => exact ⟨h, hbody⟩
  · split at h
    · split_ifs at h
    · cases h

/-- Where two types of one local meet outside of a branch. -/
theorem exists_covers_merged {p t : Ty} {w : Value}
    (h : p.Covers inherits w ∨ t.Covers inherits w) :
    ∃ m, (if p = t then some p else some (p.join t)) = some m ∧ m.Covers inherits w := by
  by_cases hpt : p = t
  · exact ⟨p, if_pos hpt, h.elim id fun ht ↦ hpt ▸ ht⟩
  · exact ⟨p.join t, if_neg hpt, Ty.covers_join h⟩

theorem holds_mergeLoop_base (h : base.Holds inherits x v) :
    (base.mergeLoop body).Holds inherits x v := by
  cases hbody : body x with
  | none => exact (holds_congr (by simp only [mergeLoop, hbody])).2 h
  | some t =>
    cases hbase : base x with
    | none =>
      have hmerge : base.mergeLoop body x = some (Ty.nil.join t) := by
        simp only [mergeLoop, hbody, hbase]
      refine (holds_of_some hmerge).2 (Ty.covers_join ?_)
      rw [(holds_of_none hbase).1 h]
      exact Or.inl rfl
    | some p =>
      obtain ⟨m, hm, hcovers⟩ :=
        exists_covers_merged (t := t) (Or.inl ((holds_of_some hbase).1 h))
      have hmerge : base.mergeLoop body x = some m := by
        simp only [mergeLoop, hbody, hbase, hm]
      exact (holds_of_some hmerge).2 hcovers

theorem holds_mergeLoop_body (hgrows : body x = none → base x = none)
    (h : body.Holds inherits x v) : (base.mergeLoop body).Holds inherits x v := by
  cases hbody : body x with
  | none =>
    rw [(holds_of_none hbody).1 h]
    exact (holds_congr (by simp only [mergeLoop, hbody])).2 ((holds_of_none (hgrows hbody)).2 rfl)
  | some t =>
    have ht := (holds_of_some hbody).1 h
    cases hbase : base x with
    | none =>
      have hmerge : base.mergeLoop body x = some (Ty.nil.join t) := by
        simp only [mergeLoop, hbody, hbase]
      exact (holds_of_some hmerge).2 (Ty.covers_join (Or.inr ht))
    | some p =>
      obtain ⟨m, hm, hcovers⟩ := exists_covers_merged (p := p) (Or.inr ht)
      have hmerge : base.mergeLoop body x = some m := by
        simp only [mergeLoop, hbody, hbase, hm]
      exact (holds_of_some hmerge).2 hcovers

theorem spillBlockWrites_eq_none (h : outer.spillBlockWrites block x = none) : outer x = none := by
  unfold spillBlockWrites at h
  split at h
  · split_ifs at h
  · exact h

theorem spillBlockWrites_of_none (houter : outer x = none) :
    outer.spillBlockWrites block x = none := by
  simp only [spillBlockWrites, houter]
  cases block x <;> rfl

theorem holds_spill_outer (h : outer.Holds inherits x v) :
    (outer.spillBlockWrites block).Holds inherits x v := by
  cases houter : outer x with
  | none => exact (holds_of_none (spillBlockWrites_of_none houter)).2 ((holds_of_none houter).1 h)
  | some p =>
    cases hblock : block x with
    | none => exact (holds_congr (by simp only [spillBlockWrites, hblock])).2 h
    | some t =>
      obtain ⟨m, hm, hcovers⟩ :=
        exists_covers_merged (t := t) (Or.inl ((holds_of_some houter).1 h))
      have hspill : outer.spillBlockWrites block x = some m := by
        simp only [spillBlockWrites, houter, hblock, hm]
      exact (holds_of_some hspill).2 hcovers

theorem holds_spill_block (hgrows : block x = none → outer x = none)
    (hnew : outer x = none → v = none) (h : block.Holds inherits x v) :
    (outer.spillBlockWrites block).Holds inherits x v := by
  cases houter : outer x with
  | none => exact (holds_of_none (spillBlockWrites_of_none houter)).2 (hnew houter)
  | some p =>
    cases hblock : block x with
    | none =>
      rw [hgrows hblock] at houter
      cases houter
    | some t =>
      obtain ⟨m, hm, hcovers⟩ := exists_covers_merged (p := p) (Or.inr ((holds_of_some hblock).1 h))
      have hspill : outer.spillBlockWrites block x = some m := by
        simp only [spillBlockWrites, houter, hblock, hm]
      exact (holds_of_some hspill).2 hcovers

theorem widen_eq_none (h : env.widen x = none) : env x = none := by
  simpa [widen] using h

theorem holds_widen (h : env x = none → v = none) : env.widen.Holds inherits x v := by
  cases hx : env x with
  | none => exact (holds_of_none (by simp [widen, hx])).2 (h hx)
  | some ty =>
    have hwiden : env.widen x = some .unknown := by simp [widen, hx]
    exact (holds_of_some hwiden).2 trivial

/-! ### Narrowing -/

theorem narrowTrue_of_ne {nw : Narrow} (hx : x ≠ nw.var) : env.narrowTrue nw x = env x := by
  cases hkind : nw.kind <;> simp only [narrowTrue, hkind, insert_ne env hx]

theorem narrowFalse_of_ne {nw : Narrow} (hx : x ≠ nw.var) :
    env.narrowFalse nw base x = env x := by
  cases hkind : nw.kind with
  | isA ty =>
    simp only [narrowFalse, hkind]
    cases eliminateUnionMember ((base nw.var).getD .unknown) ty with
    | none => rfl
    | some narrowed => exact insert_ne env hx _
  | nilCheck => simp only [narrowFalse, hkind, insert_ne env hx]
  | nilCheckOrGuard => simp only [narrowFalse, hkind, insert_ne env hx]
  | truthy => simp only [narrowFalse, hkind]

theorem narrowTrue_eq_none {nw : Narrow} (h : env.narrowTrue nw x = none) : env x = none := by
  cases hkind : nw.kind <;> simp only [narrowTrue, hkind] at h
  case nilCheckOrGuard => exact h
  all_goals exact insert_eq_none h

theorem narrowFalse_eq_none {nw : Narrow} (h : env.narrowFalse nw base x = none) :
    env x = none := by
  cases hkind : nw.kind <;> simp only [narrowFalse, hkind] at h
  case isA ty =>
    cases heliminate : eliminateUnionMember ((base nw.var).getD .unknown) ty with
    | none => rwa [heliminate] at h
    | some narrowed =>
      rw [heliminate] at h
      exact insert_eq_none h
  case truthy => exact h
  all_goals exact insert_eq_none h

end Env

namespace Narrow

variable (inherits : ClassId → ClassId → Prop)

/-- What a check says of the value when it comes out true. -/
def HoldsTrue (nw : Narrow) (v : Value) : Prop :=
  match nw.kind with
  | .isA ty => ty.Covers inherits v
  | .nilCheck => v = .nil
  | .truthy => v ≠ .nil
  | .nilCheckOrGuard => True

def HoldsFalse (nw : Narrow) (v : Value) : Prop :=
  match nw.kind with
  | .isA ty => ¬ ty.Covers inherits v
  | .nilCheck | .nilCheckOrGuard => v ≠ .nil
  | .truthy => True

end Narrow

namespace Env

variable {inherits : ClassId → ClassId → Prop} {env : Env} {x : String} {v : Option Value}

theorem holds_narrowTrue {nw : Narrow} (htrue : x = nw.var → nw.HoldsTrue inherits (v.getD .nil))
    (h : env.Holds inherits x v) : (env.narrowTrue nw).Holds inherits x v := by
  by_cases hx : x = nw.var
  · have hnw := htrue hx
    subst hx
    cases hkind : nw.kind with
    | isA ty =>
      simp only [Narrow.HoldsTrue, hkind] at hnw
      simp only [narrowTrue, hkind]
      exact holds_insert (fun _ ↦ hnw) fun hne ↦ absurd rfl hne
    | nilCheck =>
      simp only [Narrow.HoldsTrue, hkind] at hnw
      simp only [narrowTrue, hkind]
      exact holds_insert (fun _ ↦ hnw) fun hne ↦ absurd rfl hne
    | truthy =>
      simp only [Narrow.HoldsTrue, hkind] at hnw
      simp only [narrowTrue, hkind]
      exact holds_insert (fun _ ↦ covers_stripNil h.getD_covers hnw) fun hne ↦ absurd rfl hne
    | nilCheckOrGuard =>
      simp only [narrowTrue, hkind]
      exact h
  · exact (holds_congr (narrowTrue_of_ne hx)).2 h

/-- The environment before the branch is the one that is narrowed. -/
theorem holds_narrowFalse {nw : Narrow}
    (hfalse : x = nw.var → nw.HoldsFalse inherits (v.getD .nil))
    (h : env.Holds inherits x v) : (env.narrowFalse nw env).Holds inherits x v := by
  by_cases hx : x = nw.var
  · have hnw := hfalse hx
    subst hx
    cases hkind : nw.kind with
    | isA ty =>
      simp only [Narrow.HoldsFalse, hkind] at hnw
      simp only [narrowFalse, hkind]
      cases heliminate : eliminateUnionMember ((env nw.var).getD .unknown) ty with
      | none => exact h
      | some narrowed =>
        exact holds_insert (fun _ ↦ covers_eliminateUnionMember heliminate h.getD_covers hnw)
          fun hne ↦ absurd rfl hne
    | nilCheck =>
      simp only [Narrow.HoldsFalse, hkind] at hnw
      simp only [narrowFalse, hkind]
      exact holds_insert (fun _ ↦ covers_stripNil h.getD_covers hnw) fun hne ↦ absurd rfl hne
    | nilCheckOrGuard =>
      simp only [Narrow.HoldsFalse, hkind] at hnw
      simp only [narrowFalse, hkind]
      exact holds_insert (fun _ ↦ covers_stripNil h.getD_covers hnw) fun hne ↦ absurd rfl hne
    | truthy =>
      simp only [narrowFalse, hkind]
      exact h
  · exact (holds_congr (narrowFalse_of_ne hx)).2 h

/-- One of the branches of a check covers the local, whichever way the check comes out. -/
theorem holds_narrow (nw : Narrow) (h : env.Holds inherits x v) :
    (env.narrowTrue nw).Holds inherits x v ∨ (env.narrowFalse nw env).Holds inherits x v := by
  by_cases htrue : nw.HoldsTrue inherits (v.getD .nil)
  · exact Or.inl (holds_narrowTrue (fun _ ↦ htrue) h)
  · refine Or.inr (holds_narrowFalse (fun _ ↦ ?_) h)
    unfold Narrow.HoldsTrue at htrue
    unfold Narrow.HoldsFalse
    cases hkind : nw.kind with
    | isA ty => simpa only [hkind] using htrue
    | nilCheck => simpa only [hkind] using htrue
    | truthy => trivial
    | nilCheckOrGuard => simp only [hkind, not_true] at htrue

end Env

end Itaruby
