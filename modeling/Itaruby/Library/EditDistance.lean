import Mathlib.Data.List.Basic
import Mathlib.Data.List.MinMax
import Mathlib.Order.Lattice

/-!
The Levenshtein distance of two lists, as a recursion and as the least cost of an
alignment, and the rows of its table. A row's entries are distances to the initial
segments of the second list, and no row has its least entry above a later one's.
-/

set_option autoImplicit false
set_option relaxedAutoImplicit false

namespace EditDistance

variable {α : Type} [DecidableEq α]

/-- The fewest insertions, deletions and substitutions that lead from one list to the other. -/
def levenshtein : List α → List α → ℕ
  | [], ys => ys.length
  | x :: xs, [] => (x :: xs).length
  | x :: xs, y :: ys =>
    min (min (levenshtein xs (y :: ys) + 1) (levenshtein (x :: xs) ys + 1))
      (levenshtein xs ys + if x = y then 0 else 1)
termination_by xs ys => xs.length + ys.length

@[simp] theorem levenshtein_nil (ys : List α) : levenshtein [] ys = ys.length := by
  rw [levenshtein]

@[simp] theorem levenshtein_nil_right (xs : List α) : levenshtein xs [] = xs.length := by
  cases xs with
  | nil => rw [levenshtein_nil]
  | cons x xs => rw [levenshtein]

theorem levenshtein_cons (x y : α) (xs ys : List α) :
    levenshtein (x :: xs) (y :: ys) =
      min (min (levenshtein xs (y :: ys) + 1) (levenshtein (x :: xs) ys + 1))
        (levenshtein xs ys + if x = y then 0 else 1) := by
  rw [levenshtein]

/-! ### Alignments -/

/-- The lists are put against each other, with a cost for each item without an equal one. -/
inductive Aligns : ℕ → List α → List α → Prop
  | nil : Aligns 0 [] []
  | keep {n : ℕ} {xs ys : List α} (x : α) : Aligns n xs ys → Aligns n (x :: xs) (x :: ys)
  | replace {n : ℕ} {xs ys : List α} (x y : α) : Aligns n xs ys → Aligns (n + 1) (x :: xs) (y :: ys)
  | delete {n : ℕ} {xs ys : List α} (x : α) : Aligns n xs ys → Aligns (n + 1) (x :: xs) ys
  | insert {n : ℕ} {xs ys : List α} (y : α) : Aligns n xs ys → Aligns (n + 1) xs (y :: ys)

namespace Aligns

variable {n m : ℕ} {xs ys us vs : List α}

omit [DecidableEq α] in
theorem append (h : Aligns n xs ys) (h' : Aligns m us vs) :
    Aligns (n + m) (xs ++ us) (ys ++ vs) := by
  induction h with
  | nil => rwa [Nat.zero_add]
  | keep x _ ih => exact ih.keep x
  | replace x y _ ih =>
    rw [Nat.add_right_comm]
    exact ih.replace x y
  | delete x _ ih =>
    rw [Nat.add_right_comm]
    exact ih.delete x
  | insert y _ ih =>
    rw [Nat.add_right_comm]
    exact ih.insert y

omit [DecidableEq α] in
theorem reverse (h : Aligns n xs ys) : Aligns n xs.reverse ys.reverse := by
  induction h with
  | nil => exact nil
  | keep x _ ih =>
    rw [List.reverse_cons, List.reverse_cons]
    exact ih.append (nil.keep x)
  | replace x y _ ih =>
    rw [List.reverse_cons, List.reverse_cons]
    exact ih.append (nil.replace x y)
  | delete x _ ih =>
    rw [List.reverse_cons, ← List.append_nil (List.reverse _)]
    have hone : Aligns 1 [x] ([] : List α) := nil.delete x
    simpa using ih.append hone
  | insert y _ ih =>
    rw [List.reverse_cons]
    have hone : Aligns 1 ([] : List α) [y] := nil.insert y
    simpa using ih.append hone

omit [DecidableEq α] in
/-- Where the first list is parted, an alignment parts the second one. -/
theorem split {zs : List α} (h : Aligns n zs ys) : ∀ {xs us : List α}, zs = xs ++ us →
    ∃ k m vs ws, ys = vs ++ ws ∧ n = k + m ∧ Aligns k xs vs ∧ Aligns m us ws := by
  induction h with
  | nil =>
    intro xs us heq
    obtain ⟨rfl, rfl⟩ := List.append_eq_nil_iff.mp heq.symm
    exact ⟨0, 0, [], [], rfl, rfl, nil, nil⟩
  | @keep n zs ys x h ih =>
    intro xs us heq
    cases xs with
    | nil =>
      obtain rfl : us = x :: zs := heq.symm
      exact ⟨0, n, [], x :: ys, rfl, (Nat.zero_add _).symm, nil, h.keep x⟩
    | cons x' xs =>
      obtain ⟨rfl, rfl⟩ := List.cons.inj heq
      obtain ⟨k, m, vs, ws, rfl, rfl, hfirst, hrest⟩ := ih rfl
      exact ⟨k, m, x :: vs, ws, rfl, rfl, hfirst.keep x, hrest⟩
  | @replace n zs ys x y h ih =>
    intro xs us heq
    cases xs with
    | nil =>
      obtain rfl : us = x :: zs := heq.symm
      exact ⟨0, n + 1, [], y :: ys, rfl, (Nat.zero_add _).symm, nil, h.replace x y⟩
    | cons x' xs =>
      obtain ⟨rfl, rfl⟩ := List.cons.inj heq
      obtain ⟨k, m, vs, ws, rfl, rfl, hfirst, hrest⟩ := ih rfl
      exact ⟨k + 1, m, y :: vs, ws, rfl, Nat.add_right_comm k m 1, hfirst.replace x y, hrest⟩
  | @delete n zs ys x h ih =>
    intro xs us heq
    cases xs with
    | nil =>
      obtain rfl : us = x :: zs := heq.symm
      exact ⟨0, n + 1, [], ys, rfl, (Nat.zero_add _).symm, nil, h.delete x⟩
    | cons x' xs =>
      obtain ⟨rfl, rfl⟩ := List.cons.inj heq
      obtain ⟨k, m, vs, ws, rfl, rfl, hfirst, hrest⟩ := ih rfl
      exact ⟨k + 1, m, vs, ws, rfl, Nat.add_right_comm k m 1, hfirst.delete x, hrest⟩
  | insert y _ ih =>
    intro xs us heq
    obtain ⟨k, m, vs, ws, rfl, rfl, hfirst, hrest⟩ := ih heq
    exact ⟨k + 1, m, y :: vs, ws, rfl, Nat.add_right_comm k m 1, hfirst.insert y, hrest⟩

omit [DecidableEq α] in
theorem length_le (h : Aligns n xs ys) : xs.length ≤ ys.length + n ∧ ys.length ≤ xs.length + n := by
  induction h with
  | nil => exact ⟨le_rfl, le_rfl⟩
  | keep x _ ih =>
    simp only [List.length_cons]
    omega
  | replace x y _ ih =>
    simp only [List.length_cons]
    omega
  | delete x _ ih =>
    simp only [List.length_cons]
    omega
  | insert y _ ih =>
    simp only [List.length_cons]
    omega

omit [DecidableEq α] in
theorem inserts (ys : List α) : Aligns ys.length [] ys := by
  induction ys with
  | nil => exact nil
  | cons y ys ih => exact ih.insert y

omit [DecidableEq α] in
theorem deletes (xs : List α) : Aligns xs.length xs [] := by
  induction xs with
  | nil => exact nil
  | cons x xs ih => exact ih.delete x

end Aligns

theorem levenshtein_delete_le (x : α) (xs ys : List α) :
    levenshtein (x :: xs) ys ≤ levenshtein xs ys + 1 := by
  cases ys with
  | nil => simp
  | cons y ys =>
    rw [levenshtein_cons]
    exact (min_le_left _ _).trans (min_le_left _ _)

theorem levenshtein_insert_le (y : α) (xs ys : List α) :
    levenshtein xs (y :: ys) ≤ levenshtein xs ys + 1 := by
  cases xs with
  | nil => simp
  | cons x xs =>
    rw [levenshtein_cons]
    exact (min_le_left _ _).trans (min_le_right _ _)

/-- No alignment costs less than the distance, by induction on the alignment. -/
theorem Aligns.levenshtein_le {n : ℕ} {xs ys : List α} (h : Aligns n xs ys) :
    levenshtein xs ys ≤ n := by
  induction h with
  | nil => simp
  | keep x _ ih =>
    rw [levenshtein_cons, if_pos rfl]
    exact (min_le_right _ _).trans ih
  | replace x y _ ih =>
    rw [levenshtein_cons]
    refine (min_le_right _ _).trans ?_
    split_ifs
    · exact ih.trans (Nat.le_succ _)
    · exact Nat.succ_le_succ ih
  | delete x _ ih => exact (levenshtein_delete_le x _ _).trans (Nat.succ_le_succ ih)
  | insert y _ ih => exact (levenshtein_insert_le y _ _).trans (Nat.succ_le_succ ih)

theorem aligns_levenshtein : ∀ xs ys : List α, Aligns (levenshtein xs ys) xs ys
  | [], ys => by
    rw [levenshtein_nil]
    exact .inserts ys
  | x :: xs, [] => by
    rw [levenshtein_nil_right]
    exact .deletes _
  | x :: xs, y :: ys => by
    have hdelete := (aligns_levenshtein xs (y :: ys)).delete x
    have hinsert := (aligns_levenshtein (x :: xs) ys).insert y
    have hdiagonal : Aligns (levenshtein xs ys + if x = y then 0 else 1) (x :: xs) (y :: ys) := by
      split_ifs with heq
      · subst heq
        exact (aligns_levenshtein xs ys).keep x
      · exact (aligns_levenshtein xs ys).replace x y
    rw [levenshtein_cons]
    rcases min_choice (min (levenshtein xs (y :: ys) + 1) (levenshtein (x :: xs) ys + 1))
        (levenshtein xs ys + if x = y then 0 else 1) with hmin | hmin
    · rw [hmin]
      rcases min_choice (levenshtein xs (y :: ys) + 1) (levenshtein (x :: xs) ys + 1) with h | h
      · rw [h]
        exact hdelete
      · rw [h]
        exact hinsert
    · rw [hmin]
      exact hdiagonal
termination_by xs ys => xs.length + ys.length

theorem levenshtein_le_iff {n : ℕ} {xs ys : List α} :
    levenshtein xs ys ≤ n ↔ ∃ m ≤ n, Aligns m xs ys := by
  constructor
  · exact fun h ↦ ⟨_, h, aligns_levenshtein xs ys⟩
  · rintro ⟨m, hm, h⟩
    exact h.levenshtein_le.trans hm

theorem levenshtein_reverse (xs ys : List α) :
    levenshtein xs.reverse ys.reverse = levenshtein xs ys := by
  apply le_antisymm
  · exact (aligns_levenshtein xs ys).reverse.levenshtein_le
  · have h := (aligns_levenshtein xs.reverse ys.reverse).reverse
    rw [List.reverse_reverse, List.reverse_reverse] at h
    exact h.levenshtein_le

/-- The recursion at the other end. -/
theorem levenshtein_concat (x y : α) (xs ys : List α) :
    levenshtein (xs ++ [x]) (ys ++ [y]) =
      min (min (levenshtein xs (ys ++ [y]) + 1) (levenshtein (xs ++ [x]) ys + 1))
        (levenshtein xs ys + if x = y then 0 else 1) := by
  have h := levenshtein_cons x y xs.reverse ys.reverse
  rw [← List.reverse_concat, ← List.reverse_concat] at h
  simpa only [levenshtein_reverse] using h

theorem length_le_levenshtein (xs ys : List α) :
    xs.length ≤ ys.length + levenshtein xs ys ∧ ys.length ≤ xs.length + levenshtein xs ys :=
  (aligns_levenshtein xs ys).length_le

/-- A distance leads through some entry of every row. -/
theorem exists_split_le (xs us ys : List α) :
    ∃ vs ws, ys = vs ++ ws ∧ levenshtein xs vs ≤ levenshtein (xs ++ us) ys := by
  obtain ⟨k, m, vs, ws, hys, hn, hfirst, -⟩ := (aligns_levenshtein (xs ++ us) ys).split rfl
  exact ⟨vs, ws, hys, hfirst.levenshtein_le.trans (by omega)⟩

/-! ### Rows of the table -/

/-- The distances to `pre` and its extensions by the items of `rest`. -/
def rowFrom (xs pre : List α) : List α → List ℕ
  | [] => [levenshtein xs pre]
  | y :: rest => levenshtein xs pre :: rowFrom xs (pre ++ [y]) rest

/-- The entries after one on the left, from the row above. -/
def fill (x : α) (left : ℕ) : List ℕ → List α → List ℕ
  | diagonal :: above :: row, y :: rest =>
    let entry := min (min (above + 1) (left + 1)) (diagonal + if x = y then 0 else 1)
    entry :: fill x entry (above :: row) rest
  | _, _ => []

theorem rowFrom_cons (xs pre rest : List α) :
    ∃ tail, rowFrom xs pre rest = levenshtein xs pre :: tail := by
  cases rest with
  | nil => exact ⟨[], rfl⟩
  | cons y rest => exact ⟨_, rfl⟩

theorem rowFrom_fill (x : α) (xs : List α) : ∀ pre rest : List α,
    rowFrom (xs ++ [x]) pre rest = levenshtein (xs ++ [x]) pre ::
      fill x (levenshtein (xs ++ [x]) pre) (rowFrom xs pre rest) rest
  | pre, [] => rfl
  | pre, y :: rest => by
    obtain ⟨tail, htail⟩ := rowFrom_cons xs (pre ++ [y]) rest
    rw [rowFrom, rowFrom_fill x xs (pre ++ [y]) rest]
    conv_rhs => rw [rowFrom, htail, fill]
    rw [htail, levenshtein_concat]

theorem mem_rowFrom {xs : List α} {n : ℕ} : ∀ {pre rest : List α},
    n ∈ rowFrom xs pre rest ↔ ∃ vs ws, rest = vs ++ ws ∧ n = levenshtein xs (pre ++ vs)
  | pre, [] => by
    rw [rowFrom, List.mem_singleton]
    constructor
    · rintro rfl
      exact ⟨[], [], rfl, by rw [List.append_nil]⟩
    · rintro ⟨vs, ws, heq, rfl⟩
      obtain ⟨rfl, -⟩ := List.append_eq_nil_iff.mp heq.symm
      rw [List.append_nil]
  | pre, y :: rest => by
    rw [rowFrom, List.mem_cons, mem_rowFrom]
    constructor
    · rintro (rfl | ⟨vs, ws, rfl, rfl⟩)
      · exact ⟨[], y :: rest, rfl, by rw [List.append_nil]⟩
      · exact ⟨y :: vs, ws, rfl, by simp⟩
    · rintro ⟨vs, ws, heq, rfl⟩
      cases vs with
      | nil => exact .inl (by rw [List.append_nil])
      | cons v vs =>
        obtain ⟨rfl, rfl⟩ := List.cons.inj heq
        exact .inr ⟨vs, ws, rfl, by simp⟩

theorem length_rowFrom (xs : List α) : ∀ pre rest : List α,
    (rowFrom xs pre rest).length = rest.length + 1
  | _, [] => rfl
  | pre, _ :: rest => by
    rw [rowFrom, List.length_cons, length_rowFrom xs _ rest, List.length_cons]

theorem getLast_rowFrom (xs : List α) : ∀ pre rest : List α,
    (rowFrom xs pre rest).getLast? = some (levenshtein xs (pre ++ rest))
  | pre, [] => by simp [rowFrom]
  | pre, y :: rest => by
    obtain ⟨tail, htail⟩ := rowFrom_cons xs (pre ++ [y]) rest
    have hlast := getLast_rowFrom xs (pre ++ [y]) rest
    rw [htail] at hlast
    rw [rowFrom, htail, List.getLast?_cons_cons, hlast, List.append_assoc]
    rfl

/-- The row above the first item. -/
theorem rowFrom_nil : ∀ pre rest : List α,
    rowFrom [] pre rest = (List.range' pre.length (rest.length + 1))
  | pre, [] => by simp [rowFrom]
  | pre, y :: rest => by
    rw [rowFrom, rowFrom_nil (pre ++ [y]) rest, levenshtein_nil, List.length_cons,
      List.range'_succ, List.length_append]
    rfl

end EditDistance
