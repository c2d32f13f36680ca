import Mathlib.Data.List.Basic
import Mathlib.Data.List.Infix

/-!
Substrings of a text: where a search from left to right finds them, and how a run of the fields
between separators looks in it.
-/

set_option autoImplicit false
set_option relaxedAutoImplicit false

namespace List

variable {α : Type} [DecidableEq α]

section Matches

/-- The places of a needle in what follows the first `place` elements of a text. The next `skip`
elements belong to a match, and the search goes on behind it. -/
def matchIndicesFrom (needle : List α) : ℕ → ℕ → List α → List ℕ
  | _, _, [] => []
  | place, skip + 1, _ :: rest => matchIndicesFrom needle (place + 1) skip rest
  | place, 0, c :: rest =>
    if needle.isPrefixOf (c :: rest) then
      place :: matchIndicesFrom needle (place + 1) (needle.length - 1) rest
    else matchIndicesFrom needle (place + 1) 0 rest

/-- The matches of a needle from left to right, none of which overlaps the one before. -/
def matchIndices (text needle : List α) : List ℕ := matchIndicesFrom needle 0 0 text

variable {needle : List α}

theorem le_of_mem_matchIndicesFrom {place skip i : ℕ} {text : List α}
    (h : i ∈ matchIndicesFrom needle place skip text) : place + skip ≤ i := by
  induction text generalizing place skip with
  | nil => cases h
  | cons c rest ih =>
    cases skip with
    | succ skip =>
      have hi := ih h
      omega
    | zero =>
      rw [matchIndicesFrom] at h
      split at h
      · rcases mem_cons.mp h with rfl | h
        · exact le_refl _
        · have hi := ih h
          omega
      · have hi := ih h
        omega

omit [DecidableEq α] in
theorem drop_cons_of_lt {place i : ℕ} (c : α) (rest : List α) (h : place < i) :
    (c :: rest).drop (i - place) = rest.drop (i - (place + 1)) := by
  have hi : i - place = (i - (place + 1)) + 1 := by omega
  rw [hi, drop_succ_cons]

/-- A place of the needle is found if and only if no match from before reaches behind it. -/
theorem mem_matchIndicesFrom_iff (hneedle : needle ≠ []) {place skip i : ℕ} {text : List α} :
    i ∈ matchIndicesFrom needle place skip text ↔
      place + skip ≤ i ∧ needle <+: text.drop (i - place) ∧
        ∀ g ∈ matchIndicesFrom needle place skip text, g < i → g + needle.length ≤ i := by
  have hlength : 0 < needle.length := length_pos_iff.mpr hneedle
  induction text generalizing place skip with
  | nil => simp [matchIndicesFrom, hneedle]
  | cons c rest ih =>
    cases skip with
    | succ skip =>
      have hshift : place + (skip + 1) = place + 1 + skip := by omega
      rw [matchIndicesFrom, hshift]
      refine ih.trans (and_congr_right fun hle ↦ ?_)
      rw [drop_cons_of_lt c rest (by omega : place < i)]
    | zero =>
      rw [matchIndicesFrom]
      split
      · rename_i hmatch
        constructor
        · intro hi
          rcases mem_cons.mp hi with rfl | hi
          · refine ⟨le_refl _, ?_, ?_⟩
            · simpa using isPrefixOf_iff_prefix.mp hmatch
            · intro g hg hlt
              rcases mem_cons.mp hg with rfl | hg
              · omega
              · have hge := le_of_mem_matchIndicesFrom hg
                omega
          · obtain ⟨hle, hoccurs, hfree⟩ := ih.mp hi
            refine ⟨by omega, ?_, ?_⟩
            · rwa [drop_cons_of_lt c rest (by omega)]
            · intro g hg hlt
              rcases mem_cons.mp hg with rfl | hg
              · omega
              · exact hfree g hg hlt
        · intro ⟨hle, hoccurs, hfree⟩
          rcases Nat.eq_or_lt_of_le hle with heq | hlt
          · exact mem_cons.mpr (.inl heq.symm)
          · have hbehind := hfree place mem_cons_self hlt
            refine mem_cons_of_mem _ (ih.mpr ⟨by omega, ?_, ?_⟩)
            · rwa [← drop_cons_of_lt c rest (by omega)]
            · exact fun g hg ↦ hfree g (mem_cons_of_mem _ hg)
      · rename_i hmatch
        refine ih.trans ?_
        constructor
        · intro ⟨hle, hoccurs, hfree⟩
          refine ⟨by omega, ?_, hfree⟩
          rwa [drop_cons_of_lt c rest (by omega)]
        · intro ⟨hle, hoccurs, hfree⟩
          rcases Nat.eq_or_lt_of_le hle with heq | hlt
          · have hzero : i - place = 0 := by omega
            rw [hzero, drop_zero] at hoccurs
            exact absurd (List.isPrefixOf_iff_prefix.mpr hoccurs) hmatch
          · refine ⟨hlt, ?_, hfree⟩
            rwa [← drop_cons_of_lt c rest (by omega)]

theorem mem_matchIndices_iff (hneedle : needle ≠ []) {i : ℕ} {text : List α} :
    i ∈ matchIndices text needle ↔ needle <+: text.drop i ∧
      ∀ g ∈ matchIndices text needle, g < i → g + needle.length ≤ i := by
  rw [matchIndices, mem_matchIndicesFrom_iff hneedle]
  simp

end Matches

section Fields

variable {sep : α}

/-- Every field with a separator before it. -/
def withSep (sep : α) (fields : List (List α)) : List α := fields.flatMap (sep :: ·)

omit [DecidableEq α] in
theorem withSep_append (fields fields' : List (List α)) :
    withSep sep (fields ++ fields') = withSep sep fields ++ withSep sep fields' :=
  flatMap_append

omit [DecidableEq α] in
theorem withSep_eq_cons {fields : List (List α)} (h : fields ≠ []) :
    withSep sep fields = sep :: [sep].intercalate fields := by
  induction fields with
  | nil => exact absurd rfl h
  | cons field rest ih =>
    cases rest with
    | nil => simp [withSep]
    | cons field' rest =>
      have hrest := ih (cons_ne_nil _ _)
      rw [intercalate_cons_cons, withSep, flatMap_cons, ← withSep, hrest]
      simp

/-- What stands between two separators is a run of the fields. -/
theorem run_of_framed {text before inner after : List α}
    (h : sep :: (text ++ [sep]) = before ++ sep :: (inner ++ sep :: after)) :
    text.splitOn sep = (before.splitOn sep).tail ++ inner.splitOn sep ++
      (after.splitOn sep).dropLast := by
  have hsplit := congrArg (splitOn sep) h
  have hleft : (sep :: (text ++ [sep])).splitOn sep = [] :: (text.splitOn sep ++ [[]]) := by
    have hlast := splitOn_append_cons_self (a := sep) text []
    have hfirst := splitOn_append_cons_self (a := sep) [] (text ++ [sep])
    rw [splitOn_nil] at hlast hfirst
    simpa [hlast] using hfirst
  rw [hleft, splitOn_append_cons_self, splitOn_append_cons_self] at hsplit
  obtain ⟨first, restBefore, hbefore⟩ := exists_cons_of_ne_nil (splitOn_ne_nil sep before)
  have hafter := dropLast_append_getLast (splitOn_ne_nil sep after)
  rw [hbefore, cons_append] at hsplit
  rw [← hafter, ← append_assoc, ← append_assoc] at hsplit
  have hcut := (append_inj' (cons.inj hsplit).2 rfl).1
  rw [hcut, hbefore, tail_cons]

/-- A run of the fields stands between two separators. -/
theorem framed_of_run {text inner : List α} {fields fields' : List (List α)}
    (h : text.splitOn sep = fields ++ inner.splitOn sep ++ fields') :
    ∃ after, sep :: (text ++ [sep]) =
      withSep sep fields ++ sep :: (inner ++ sep :: after) := by
  have htext : sep :: text = withSep sep fields ++ (sep :: inner) ++ withSep sep fields' := by
    have hfields : [sep].intercalate (text.splitOn sep) = text := intercalate_splitOn sep
    rw [← hfields, ← withSep_eq_cons (splitOn_ne_nil _ _), h, withSep_append, withSep_append,
      withSep_eq_cons (splitOn_ne_nil sep inner), intercalate_splitOn]
  have hafter : ∃ after, withSep sep fields' ++ [sep] = sep :: after := by
    cases fields' with
    | nil => exact ⟨[], rfl⟩
    | cons field rest => exact ⟨_, rfl⟩
  obtain ⟨after, hafter⟩ := hafter
  refine ⟨after, ?_⟩
  rw [← cons_append, htext, append_assoc, hafter]
  simp

end Fields

end List
