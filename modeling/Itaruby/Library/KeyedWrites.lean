import Mathlib.Data.List.AList
import Mathlib.Data.List.Induction

/-!
Writes to a table by key, in order: the last write of a key stands where a later one replaces an
earlier one, the first one where an entry that is there stays.
-/

set_option autoImplicit false
set_option relaxedAutoImplicit false

namespace Itaruby.KeyedWrites

variable {κ ν : Type} [DecidableEq κ]

/-- Every write replaces what its key had. -/
def overwrite (table : AList fun _ : κ ↦ ν) (writes : List (κ × ν)) : AList fun _ : κ ↦ ν :=
  writes.foldl (fun table write ↦ table.insert write.1 write.2) table

/-- A write of a key that has an entry is dropped. -/
def fillOne (table : AList fun _ : κ ↦ ν) (write : κ × ν) : AList fun _ : κ ↦ ν :=
  match table.lookup write.1 with
  | some _ => table
  | none => table.insert write.1 write.2

def fill (table : AList fun _ : κ ↦ ν) (writes : List (κ × ν)) : AList fun _ : κ ↦ ν :=
  writes.foldl fillOne table

omit [DecidableEq κ] in
def LastWrite (writes : List (κ × ν)) (key : κ) (value : ν) : Prop :=
  ∃ before after, writes = before ++ (key, value) :: after ∧ ∀ write ∈ after, write.1 ≠ key

omit [DecidableEq κ] in
def FirstWrite (writes : List (κ × ν)) (key : κ) (value : ν) : Prop :=
  ∃ before after, writes = before ++ (key, value) :: after ∧ ∀ write ∈ before, write.1 ≠ key

variable {writes writes' : List (κ × ν)} {table : AList fun _ : κ ↦ ν} {key : κ} {value : ν}

/-! ### Replacing -/

omit [DecidableEq κ] in
/-- A key that is written is written for the last time somewhere. -/
theorem exists_lastWrite (h : ¬ ∀ write ∈ writes, write.1 ≠ key) :
    ∃ value, LastWrite writes key value := by
  induction writes using List.reverseRecOn with
  | nil => exact absurd (fun _ hwrite ↦ absurd hwrite List.not_mem_nil) h
  | append_singleton writes last ih =>
    by_cases hlast : last.1 = key
    · exact ⟨last.2, writes, [], by rw [← hlast], fun _ hwrite ↦ absurd hwrite List.not_mem_nil⟩
    · have hbefore : ¬ ∀ write ∈ writes, write.1 ≠ key := by
        intro hall
        refine h fun write hwrite ↦ ?_
        rcases List.mem_append.mp hwrite with hwrite | hwrite
        · exact hall write hwrite
        · rwa [List.mem_singleton.mp hwrite]
      obtain ⟨value, before, after, rfl, hafter⟩ := ih hbefore
      refine ⟨value, before, after ++ [last], by simp, fun write hwrite ↦ ?_⟩
      rcases List.mem_append.mp hwrite with hwrite | hwrite
      · exact hafter write hwrite
      · rwa [List.mem_singleton.mp hwrite]

omit [DecidableEq κ] in
/-- The last write of those that a list of items makes. -/
theorem lastWrite_filterMap {α : Type} {f : α → Option (κ × ν)} {items : List α} :
    LastWrite (items.filterMap f) key value ↔
      ∃ before item after, items = before ++ item :: after ∧ f item = some (key, value) ∧
        ∀ later ∈ after, ∀ value', f later ≠ some (key, value') := by
  constructor
  · rintro ⟨before, after, h, hafter⟩
    obtain ⟨items₁, rest, rfl, -, hrest⟩ := List.filterMap_eq_append_iff.mp h
    obtain ⟨skipped, item, items₂, rfl, -, hitem, hlater⟩ := List.filterMap_eq_cons_iff.mp hrest
    refine ⟨items₁ ++ skipped, item, items₂, (List.append_assoc _ _ _).symm, hitem,
      fun later hmem value' hvalue ↦ ?_⟩
    exact hafter _ (hlater ▸ List.mem_filterMap.mpr ⟨later, hmem, hvalue⟩) rfl
  · rintro ⟨before, item, after, rfl, hitem, hafter⟩
    refine ⟨before.filterMap f, after.filterMap f, ?_, fun write hwrite hkey ↦ ?_⟩
    · rw [List.filterMap_append, List.filterMap_cons_some hitem]
    · obtain ⟨later, hlater, hvalue⟩ := List.mem_filterMap.mp hwrite
      exact hafter later hlater write.2 (by rw [hvalue, ← hkey])

theorem overwrite_append (table : AList fun _ : κ ↦ ν) (before after : List (κ × ν)) :
    overwrite table (before ++ after) = overwrite (overwrite table before) after :=
  List.foldl_append

theorem lookup_overwrite_of_unwritten (h : ∀ write ∈ writes, write.1 ≠ key) :
    (overwrite table writes).lookup key = table.lookup key := by
  induction writes generalizing table with
  | nil => rfl
  | cons write rest ih =>
    have hne : key ≠ write.1 := (h write List.mem_cons_self).symm
    change (overwrite (table.insert write.1 write.2) rest).lookup key = _
    rw [ih fun later hlater ↦ h later (List.mem_cons_of_mem _ hlater), AList.lookup_insert_ne hne]

theorem lookup_overwrite_of_last (h : LastWrite writes key value) :
    (overwrite table writes).lookup key = some value := by
  obtain ⟨before, after, rfl, hafter⟩ := h
  rw [overwrite_append]
  change (overwrite ((overwrite table before).insert key value) after).lookup key = _
  rw [lookup_overwrite_of_unwritten hafter, AList.lookup_insert]

omit [DecidableEq κ] in
theorem LastWrite.mem (h : LastWrite writes key value) : (key, value) ∈ writes := by
  obtain ⟨before, after, rfl, -⟩ := h
  exact List.mem_append_right _ List.mem_cons_self

omit [DecidableEq κ] in
theorem LastWrite.unique {other : ν} (h : LastWrite writes key value)
    (h' : LastWrite writes key other) : value = other := by
  classical
  have hwrote : (overwrite ∅ writes).lookup key = some value := lookup_overwrite_of_last h
  exact Option.some.inj (hwrote.symm.trans (lookup_overwrite_of_last h'))

/-- After the writes a key has what was written last, or what it had. -/
theorem lookup_overwrite_eq_some_iff :
    (overwrite table writes).lookup key = some value ↔
      LastWrite writes key value ∨
        (∀ write ∈ writes, write.1 ≠ key) ∧ table.lookup key = some value := by
  by_cases hwritten : ∀ write ∈ writes, write.1 ≠ key
  · rw [lookup_overwrite_of_unwritten hwritten]
    refine ⟨fun h ↦ .inr ⟨hwritten, h⟩, ?_⟩
    rintro (h | h)
    · exact absurd rfl (hwritten (key, value) h.mem)
    · exact h.2
  · obtain ⟨last, hlast⟩ := exists_lastWrite hwritten
    rw [lookup_overwrite_of_last hlast]
    refine ⟨fun h ↦ .inl (Option.some.inj h ▸ hlast), ?_⟩
    rintro (h | h)
    · exact congrArg some (hlast.unique h)
    · exact absurd h.1 hwritten

/-! ### Filling -/

theorem fill_append (table : AList fun _ : κ ↦ ν) (before after : List (κ × ν)) :
    fill table (before ++ after) = fill (fill table before) after := List.foldl_append

theorem lookup_fillOne (table : AList fun _ : κ ↦ ν) (write : κ × ν) (key : κ) :
    (fillOne table write).lookup key =
      (table.lookup key).or (if write.1 = key then some write.2 else none) := by
  unfold fillOne
  by_cases hkey : write.1 = key
  · subst hkey
    rw [if_pos rfl]
    cases hold : table.lookup write.1 with
    | some old => simp [hold]
    | none => simp
  · rw [if_neg hkey, Option.or_none]
    cases table.lookup write.1 with
    | some old => rfl
    | none => exact AList.lookup_insert_ne (Ne.symm hkey)

omit [DecidableEq κ] in
theorem firstWrite_cons {write : κ × ν} {rest : List (κ × ν)} :
    FirstWrite (write :: rest) key value ↔
      write = (key, value) ∨ write.1 ≠ key ∧ FirstWrite rest key value := by
  constructor
  · rintro ⟨before, after, h, hbefore⟩
    cases before with
    | nil => exact .inl (List.cons.inj h).1
    | cons first before =>
      obtain ⟨rfl, rfl⟩ := List.cons.inj h
      exact .inr ⟨hbefore _ List.mem_cons_self,
        before, after, rfl, fun w hw ↦ hbefore w (List.mem_cons_of_mem _ hw)⟩
  · rintro (rfl | ⟨hne, before, after, rfl, hbefore⟩)
    · exact ⟨[], rest, rfl, fun w hw ↦ absurd hw List.not_mem_nil⟩
    · exact ⟨write :: before, after, rfl, List.forall_mem_cons.mpr ⟨hne, hbefore⟩⟩

/-- After the fills a key has what it had, or else what was written first. -/
theorem lookup_fill_eq_some_iff :
    (fill table writes).lookup key = some value ↔
      table.lookup key = some value ∨
        table.lookup key = none ∧ FirstWrite writes key value := by
  induction writes generalizing table with
  | nil =>
    refine ⟨.inl, ?_⟩
    rintro (h | ⟨-, before, after, h, -⟩)
    · exact h
    · exact absurd h.symm (List.append_ne_nil_of_right_ne_nil _ (List.cons_ne_nil _ _))
  | cons write rest ih =>
    change (fill (fillOne table write) rest).lookup key = _ ↔ _
    rw [ih, lookup_fillOne, firstWrite_cons]
    cases table.lookup key with
    | some old => simp
    | none =>
      by_cases hkey : write.1 = key
      · subst hkey
        simp [Prod.ext_iff]
      · have hne : write ≠ (key, value) := fun h ↦ hkey (by rw [h])
        simp [hkey, hne]

omit [DecidableEq κ] in
theorem firstWrite_mem (h : FirstWrite writes key value) : (key, value) ∈ writes := by
  obtain ⟨before, after, rfl, -⟩ := h
  exact List.mem_append_right _ List.mem_cons_self

omit [DecidableEq κ] in
theorem exists_firstWrite (h : (key, value) ∈ writes) : ∃ first, FirstWrite writes key first := by
  classical
  induction writes with
  | nil => cases h
  | cons write rest ih =>
    by_cases hkey : write.1 = key
    · exact ⟨write.2, firstWrite_cons.mpr (.inl (by rw [← hkey]))⟩
    · have hne : (key, value) ≠ write := fun heq ↦ hkey (by rw [← heq])
      obtain ⟨first, hfirst⟩ := ih ((List.mem_cons.mp h).resolve_left hne)
      exact ⟨first, firstWrite_cons.mpr (.inr ⟨hkey, hfirst⟩)⟩

omit [DecidableEq κ] in
/-- A key that is always written with one value is written with it first, whatever the order. -/
theorem firstWrite_of_mem (h : (key, value) ∈ writes)
    (hsame : ∀ other, (key, other) ∈ writes → other = value) : FirstWrite writes key value := by
  obtain ⟨first, hfirst⟩ := exists_firstWrite h
  exact hsame first (firstWrite_mem hfirst) ▸ hfirst

end Itaruby.KeyedWrites
