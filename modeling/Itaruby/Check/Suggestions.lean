import Itaruby.Library.EditDistance
import Itaruby.Walker.Source
import Mathlib.Data.Prod.Lex
import Mathlib.Data.String.Basic

/-!
Suggestions for a mistyped name: a bounded edit distance, and the candidate of least
distance and least key.
-/

set_option autoImplicit false
set_option relaxedAutoImplicit false

namespace Itaruby.Suggestions

open EditDistance

/-! ### The distance -/

/-- The rows below `row`, which stands for the first `done` characters. -/
def editRows (b : Text) : List ℕ → ℕ → Text → ℕ
  | row, _, [] => row.getD b.length 0
  | row, done, ca :: rest =>
    let entries := fill ca (done + 1) row b
    if 2 < entries.foldl min (done + 1) then 3
    else editRows b ((done + 1) :: entries) (done + 1) rest

/-- `edit_distance`, with 3 for every distance above 2. -/
def editDistance (a b : String) : ℕ :=
  let a := a.toList
  let b := b.toList
  if 2 < max a.length b.length - min a.length b.length then 3
  else editRows b (List.range (b.length + 1)) 0 a

/-! ### The choice -/

/-- The best candidate so far, after one more `(shown, key)`. -/
def consider (typo : String) (best : Option (ℕ × String)) (cand : String × String) :
    Option (ℕ × String) :=
  if cand.1 = typo then best
  else
    let d := editDistance typo cand.1
    if 2 < d then best
    else
      match best with
      | none => some (d, cand.2)
      | some (bd, bk) => if d < bd ∨ d = bd ∧ cand.2 < bk then some (d, cand.2) else some (bd, bk)

/-- `closest_const_key` -/
def closestConstKey (typo : String) (candidates : List (String × String)) : Option String :=
  (candidates.foldl (consider typo) none).map Prod.snd

/-- `closest_name`: every candidate is shown as it is. -/
def closestName (typo : String) (candidates : List String) : Option String :=
  closestConstKey typo (candidates.map fun cand ↦ (cand, cand))

/-! ### The distance is the real one -/

/-- The rows agree with the table of distances, and a row above 2 settles it. -/
theorem editRows_spec (b : Text) : ∀ rest done : Text,
    let computed := editRows b (rowFrom done [] b) done.length rest
    let distance := levenshtein (done ++ rest) b
    (distance ≤ 2 → computed = distance) ∧ (2 < distance → 2 < computed)
  | [], done => by
    have hlast := getLast_rowFrom done [] b
    rw [List.getLast?_eq_getElem?, length_rowFrom, Nat.add_sub_cancel, List.nil_append] at hlast
    have hcomputed : editRows b (rowFrom done [] b) done.length [] = levenshtein done b := by
      rw [editRows, List.getD_eq_getElem?_getD, hlast]
      rfl
    dsimp only
    rw [hcomputed, List.append_nil]
    exact ⟨fun _ ↦ rfl, id⟩
  | ca :: rest, done => by
    have hrow := rowFrom_fill ca done [] b
    rw [levenshtein_nil_right, List.length_append, List.length_singleton] at hrow
    have hsame : done ++ ca :: rest = (done ++ [ca]) ++ rest := by simp
    dsimp only
    rw [editRows]
    split_ifs with habandon
    · have hgrown : 2 < levenshtein (done ++ ca :: rest) b := by
        obtain ⟨vs, ws, hb, hle⟩ := exists_split_le (done ++ [ca]) rest b
        have hmem : levenshtein (done ++ [ca]) vs ∈ rowFrom (done ++ [ca]) [] b :=
          mem_rowFrom.mpr ⟨vs, ws, hb, by rw [List.nil_append]⟩
        rw [hrow] at hmem
        have hmin : (fill ca (done.length + 1) (rowFrom done [] b) b).foldl min (done.length + 1) ≤
            levenshtein (done ++ [ca]) vs := by
          generalize fill ca (done.length + 1) (rowFrom done [] b) b = row at hmem
          have hleast : ((done.length + 1) :: row).min? = some (row.foldl min (done.length + 1)) :=
            List.min?_cons'
          exact (List.min?_eq_some_iff.mp hleast).2 _ hmem
        rw [hsame]
        omega
      exact ⟨fun hle ↦ absurd hle (by omega), fun _ ↦ by decide⟩
    · have hnext := editRows_spec b rest (done ++ [ca])
      rw [hrow, List.length_append, List.length_singleton] at hnext
      rw [hsame]
      exact hnext

theorem editDistance_spec (a b : String) :
    let distance := levenshtein a.toList b.toList
    (distance ≤ 2 → editDistance a b = distance) ∧ (2 < distance → 2 < editDistance a b) := by
  have hgap := length_le_levenshtein a.toList b.toList
  dsimp only
  unfold editDistance
  dsimp only
  split_ifs with hfar
  · exact ⟨fun hle ↦ absurd hfar (by omega), fun _ ↦ by decide⟩
  · have hrows := editRows_spec b.toList a.toList []
    rw [rowFrom_nil, List.length_nil, ← List.range_eq_range'] at hrows
    exact hrows

theorem editDistance_le_two_iff (a b : String) :
    editDistance a b ≤ 2 ↔ levenshtein a.toList b.toList ≤ 2 := by
  obtain ⟨hnear, hfar⟩ := editDistance_spec a b
  constructor
  · intro hle
    by_contra hgt
    exact absurd (hfar (Nat.lt_of_not_le hgt)) (by omega)
  · intro hle
    rw [hnear hle]
    exact hle

/-! ### The choice is the least candidate -/

/-- A candidate within distance 2 that is not shown as the typo itself. -/
def Suggestible (typo : String) (cand : String × String) : Prop :=
  cand.1 ≠ typo ∧ levenshtein typo.toList cand.1.toList ≤ 2

/-- Candidates are ordered by distance, and by key where it is the same. -/
def rank (typo : String) (cand : String × String) : ℕ ×ₗ String :=
  toLex (levenshtein typo.toList cand.1.toList, cand.2)

/-- A best candidate of the list. -/
def Closest (typo : String) (candidates : List (String × String)) (cand : String × String) :
    Prop :=
  cand ∈ candidates ∧ Suggestible typo cand ∧
    ∀ other ∈ candidates, Suggestible typo other → rank typo cand ≤ rank typo other

instance (typo : String) (cand : String × String) : Decidable (Suggestible typo cand) :=
  inferInstanceAs (Decidable (_ ∧ _))

/-- What `consider` compares. -/
def ranked (typo : String) (cand : String × String) : Option (ℕ ×ₗ String) :=
  if Suggestible typo cand then some (rank typo cand) else none

theorem toLex_lt_iff {d bd : ℕ} {key bk : String} :
    (toLex (d, key) : ℕ ×ₗ String) < toLex (bd, bk) ↔ d < bd ∨ d = bd ∧ key < bk :=
  Prod.Lex.toLex_lt_toLex

theorem consider_eq (typo : String) (best : Option (ℕ × String)) (cand : String × String) :
    (consider typo best cand).map toLex =
      ((best.map toLex).toList ++ (ranked typo cand).toList).min? := by
  obtain ⟨hnear, hfar⟩ := editDistance_spec typo cand.1
  unfold consider ranked
  by_cases hshown : Suggestible typo cand
  · rw [if_pos hshown, if_neg hshown.1]
    dsimp only
    rw [hnear hshown.2, if_neg (Nat.not_lt.mpr hshown.2)]
    cases best with
    | none => rfl
    | some best =>
      obtain ⟨bd, bk⟩ := best
      change _ = some (min (toLex (bd, bk)) (rank typo cand))
      dsimp only
      rw [min_comm, min_def_lt]
      by_cases hless : rank typo cand < toLex (bd, bk)
      · rw [if_pos hless, if_pos (toLex_lt_iff.mp hless)]
        rfl
      · rw [if_neg hless, if_neg fun h ↦ hless (toLex_lt_iff.mpr h)]
        rfl
  · have hkeep : (best.map toLex : Option (ℕ ×ₗ String)) =
        ((best.map toLex).toList ++ ([] : List (ℕ ×ₗ String))).min? := by
      cases best <;> rfl
    rw [if_neg hshown]
    split_ifs with hsame
    · exact hkeep
    · rw [if_pos]
      · exact hkeep
      · refine hfar (Nat.lt_of_not_le fun hle ↦ hshown ⟨hsame, hle⟩)

/-- The loop finds the least of what it compares. -/
theorem foldl_consider (typo : String) (candidates : List (String × String)) :
    ∀ best, (candidates.foldl (consider typo) best).map toLex =
      ((best.map toLex).toList ++ candidates.filterMap (ranked typo)).min? := by
  induction candidates with
  | nil =>
    intro best
    cases best <;> rfl
  | cons cand candidates ih =>
    intro best
    rw [List.foldl_cons, ih, consider_eq]
    cases hranked : ranked typo cand with
    | none =>
      rw [List.filterMap_cons_none hranked]
      cases best <;> rfl
    | some r =>
      rw [List.filterMap_cons_some hranked]
      cases best <;> rfl

theorem closestConstKey_eq (typo : String) (candidates : List (String × String)) :
    closestConstKey typo candidates =
      (candidates.filterMap (ranked typo)).min?.map fun r ↦ (ofLex r).2 := by
  have h := foldl_consider typo candidates none
  change _ = (candidates.filterMap (ranked typo)).min? at h
  rw [← h]
  unfold closestConstKey
  cases candidates.foldl (consider typo) none <;> rfl

theorem mem_ranked {typo : String} {candidates : List (String × String)} {r : ℕ ×ₗ String} :
    r ∈ candidates.filterMap (ranked typo) ↔
      ∃ cand ∈ candidates, Suggestible typo cand ∧ rank typo cand = r := by
  rw [List.mem_filterMap]
  refine exists_congr fun cand ↦ and_congr_right fun _ ↦ ?_
  unfold ranked
  split_ifs with hshown
  · simp [hshown]
  · simp [hshown]

theorem closestConstKey_eq_some_iff (typo key : String) (candidates : List (String × String)) :
    closestConstKey typo candidates = some key ↔
      ∃ cand, Closest typo candidates cand ∧ cand.2 = key := by
  rw [closestConstKey_eq, Option.map_eq_some_iff]
  constructor
  · rintro ⟨r, hr, rfl⟩
    obtain ⟨hmem, hleast⟩ := List.min?_eq_some_iff.mp hr
    obtain ⟨cand, hcand, hshown, rfl⟩ := mem_ranked.mp hmem
    refine ⟨cand, ⟨hcand, hshown, fun other hother hother' ↦ ?_⟩, rfl⟩
    exact hleast _ (mem_ranked.mpr ⟨other, hother, hother', rfl⟩)
  · rintro ⟨cand, ⟨hcand, hshown, hleast⟩, rfl⟩
    refine ⟨rank typo cand, List.min?_eq_some_iff.mpr ⟨?_, fun r hr ↦ ?_⟩, rfl⟩
    · exact mem_ranked.mpr ⟨cand, hcand, hshown, rfl⟩
    · obtain ⟨other, hother, hother', rfl⟩ := mem_ranked.mp hr
      exact hleast other hother hother'

theorem closestConstKey_eq_none_iff (typo : String) (candidates : List (String × String)) :
    closestConstKey typo candidates = none ↔ ∀ cand ∈ candidates, ¬ Suggestible typo cand := by
  rw [closestConstKey_eq, Option.map_eq_none_iff, List.min?_eq_none_iff,
    List.eq_nil_iff_forall_not_mem]
  constructor
  · exact fun h cand hcand hshown ↦ h _ (mem_ranked.mpr ⟨cand, hcand, hshown, rfl⟩)
  · intro h r hr
    obtain ⟨cand, hcand, hshown, -⟩ := mem_ranked.mp hr
    exact h cand hcand hshown

theorem closestConstKey_perm {typo : String} {candidates candidates' : List (String × String)}
    (h : candidates.Perm candidates') :
    closestConstKey typo candidates = closestConstKey typo candidates' := by
  refine Option.ext fun key ↦ ?_
  rw [closestConstKey_eq_some_iff, closestConstKey_eq_some_iff]
  unfold Closest
  simp only [h.mem_iff]

/-- The bounded distance is the real one up to 2, and a suggestion is the least candidate,
whatever the order they come in. -/
theorem suggestions_least :
    (∀ a b : String, (editDistance a b ≤ 2 ↔ levenshtein a.toList b.toList ≤ 2) ∧
      (levenshtein a.toList b.toList ≤ 2 → editDistance a b = levenshtein a.toList b.toList)) ∧
    (∀ (typo : String) (candidates candidates' : List (String × String)),
      candidates.Perm candidates' →
        (∀ key, closestConstKey typo candidates' = some key ↔
          ∃ cand, Closest typo candidates cand ∧ cand.2 = key) ∧
        (closestConstKey typo candidates' = none ↔
          ∀ cand ∈ candidates, ¬ Suggestible typo cand)) ∧
    (∀ (typo : String) (names names' : List String), names.Perm names' →
      (∀ name, closestName typo names' = some name ↔
        name ∈ names ∧ Closest typo (names.map fun cand ↦ (cand, cand)) (name, name)) ∧
      (closestName typo names' = none ↔ ∀ name ∈ names, ¬ Suggestible typo (name, name))) := by
  refine ⟨fun a b ↦ ⟨editDistance_le_two_iff a b, (editDistance_spec a b).1⟩, ?_, ?_⟩
  · intro typo candidates candidates' hperm
    rw [← closestConstKey_perm hperm]
    exact ⟨fun key ↦ closestConstKey_eq_some_iff typo key candidates,
      closestConstKey_eq_none_iff typo candidates⟩
  · intro typo names names' hperm
    unfold closestName
    rw [← closestConstKey_perm (hperm.map fun cand ↦ (cand, cand))]
    refine ⟨fun name ↦ ?_, ?_⟩
    · rw [closestConstKey_eq_some_iff]
      constructor
      · rintro ⟨cand, hclosest, rfl⟩
        obtain ⟨shown, hshown, rfl⟩ := List.mem_map.mp hclosest.1
        exact ⟨hshown, hclosest⟩
      · exact fun h ↦ ⟨_, h.2, rfl⟩
    · rw [closestConstKey_eq_none_iff]
      simp

end Itaruby.Suggestions
