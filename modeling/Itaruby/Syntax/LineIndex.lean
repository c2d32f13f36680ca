import Mathlib.Algebra.BigOperators.Group.List.Basic
import Mathlib.Algebra.GroupWithZero.Nat
import Mathlib.Data.List.Infix
import Mathlib.Data.Prod.Lex

/-!
Offsets and positions. An offset counts bytes, a position is a line and the UTF-16 units before a
place on it, both from zero. A text is its characters; `none` is a panic, at an offset that is not
between two of them or at an index out of range.
-/

set_option autoImplicit false
set_option relaxedAutoImplicit false

namespace Itaruby

def byteLength (text : List Char) : ℕ := (text.map Char.utf8Size).sum

/-- `len_utf16` -/
def lenUtf16 (c : Char) : ℕ := if c.toNat < 0x10000 then 1 else 2

def utf16Length (text : List Char) : ℕ := (text.map lenUtf16).sum

/-- `as u32` -/
def asU32 (n : ℕ) : ℕ := n % 2 ^ 32

def splitAtByte : ℕ → List Char → Option (List Char × List Char)
  | 0, rest => some ([], rest)
  | _ + 1, [] => none
  | n + 1, c :: rest =>
    if c.utf8Size ≤ n + 1 then
      (splitAtByte (n + 1 - c.utf8Size) rest).map fun parts ↦ (c :: parts.1, parts.2)
    else none

/-- `&text[start..stop]` -/
def byteSlice (text : List Char) (start stop : ℕ) : Option (List Char) :=
  if stop < start then none
  else
    (splitAtByte start text).bind fun parts ↦
      (splitAtByte (stop - start) parts.2).map Prod.fst

structure LineIndex where
  lineStarts : List ℕ

namespace LineIndex

/-- The starts of the lines that begin behind an offset. -/
def startsFrom (offset : ℕ) : List Char → List ℕ
  | [] => []
  | c :: rest =>
    if c = '\n' then (asU32 offset + 1) :: startsFrom (offset + c.utf8Size) rest
    else startsFrom (offset + c.utf8Size) rest

def new (text : List Char) : LineIndex where
  lineStarts := 0 :: startsFrom 0 text

/-- `binary_search` of a sorted slice without duplicates: the index of the element, or the index
where it would stand. -/
def binarySearch (l : List ℕ) (x : ℕ) : Except ℕ ℕ :=
  if x ∈ l then .ok (l.idxOf x) else .error (l.countP (· < x))

/-- The line that an offset is on. -/
def lineAt (l : List ℕ) (offset : ℕ) : ℕ :=
  match binarySearch l offset with
  | .ok line => line
  | .error line => line - 1

variable (index : LineIndex)

/-- The line and column of an offset; an offset past the end is the end. -/
def lineCol (text : List Char) (offset : ℕ) : Option (ℕ × ℕ) :=
  let offset := min offset (byteLength text)
  let line := lineAt index.lineStarts (asU32 offset)
  index.lineStarts[line]?.bind fun start ↦
    (byteSlice text start offset).map fun inner ↦ (asU32 line, asU32 (utf16Length inner))

/-- The start of a line; a line past the last one is the last one. -/
def lineStart (line : ℕ) : Option ℕ :=
  index.lineStarts[min line (index.lineStarts.length - 1)]?

/-- The place in the characters of a line where the column is reached, or else its end. -/
def placeOf (col stop : ℕ) : ℕ → ℕ → List Char → ℕ
  | _, _, [] => stop
  | units, place, c :: rest =>
    if col ≤ units then place
    else placeOf col stop (units + lenUtf16 c) (place + c.utf8Size) rest

def offset (text : List Char) (line col : ℕ) : Option ℕ :=
  (index.lineStart line).bind fun start ↦
    let stop := index.lineStarts[line + 1]?.getD (byteLength text)
    (byteSlice text start stop).map (placeOf col stop 0 start)

end LineIndex

/-! ### Lengths -/

@[simp] theorem byteLength_nil : byteLength [] = 0 := rfl

@[simp] theorem byteLength_cons (c : Char) (rest : List Char) :
    byteLength (c :: rest) = c.utf8Size + byteLength rest := by
  simp [byteLength]

@[simp] theorem byteLength_append (text other : List Char) :
    byteLength (text ++ other) = byteLength text + byteLength other := by
  simp [byteLength]

@[simp] theorem utf16Length_nil : utf16Length [] = 0 := rfl

@[simp] theorem utf16Length_cons (c : Char) (rest : List Char) :
    utf16Length (c :: rest) = lenUtf16 c + utf16Length rest := by
  simp [utf16Length]

@[simp] theorem utf16Length_append (text other : List Char) :
    utf16Length (text ++ other) = utf16Length text + utf16Length other := by
  simp [utf16Length]

theorem lenUtf16_pos (c : Char) : 0 < lenUtf16 c := by
  unfold lenUtf16
  split
  · decide
  · decide

/-- A character outside the basic plane takes four bytes. -/
theorem lenUtf16_le (c : Char) : lenUtf16 c ≤ c.utf8Size := by
  have hpos := c.utf8Size_pos
  unfold lenUtf16
  split
  · exact hpos
  · rename_i hastral
    have hval : ¬ c.val.toNat < 0x10000 := hastral
    have hsize : c.utf8Size = 4 := by
      simp only [Char.utf8Size, UInt32.le_iff_toNat_le, UInt32.toNat_ofNatLT]
      rw [if_neg (by omega), if_neg (by omega), if_neg (by omega)]
    omega

theorem utf16Length_le (text : List Char) : utf16Length text ≤ byteLength text := by
  induction text with
  | nil => exact le_refl _
  | cons c rest ih =>
    have hc := lenUtf16_le c
    rw [utf16Length_cons, byteLength_cons]
    omega

theorem asU32_of_lt {n : ℕ} (h : n < 2 ^ 32) : asU32 n = n := Nat.mod_eq_of_lt h

theorem splitAtByte_append (before after : List Char) :
    splitAtByte (byteLength before) (before ++ after) = some (before, after) := by
  induction before with
  | nil => simp [splitAtByte]
  | cons c rest ih =>
    have hc := c.utf8Size_pos
    obtain ⟨n, hn⟩ : ∃ n, byteLength (c :: rest) = n + 1 :=
      ⟨byteLength (c :: rest) - 1, by rw [byteLength_cons]; omega⟩
    have hrest : n + 1 - c.utf8Size = byteLength rest := by
      rw [← hn, byteLength_cons]
      omega
    rw [hn, List.cons_append, splitAtByte, if_pos (by rw [← hn, byteLength_cons]; omega), hrest, ih]
    rfl

theorem byteSlice_append (before inner after : List Char) :
    byteSlice (before ++ inner ++ after) (byteLength before) (byteLength (before ++ inner)) =
      some inner := by
  rw [byteSlice, if_neg (by simp), List.append_assoc, splitAtByte_append]
  simp [splitAtByte_append]

/-! ### Lines -/

/-- The text ends a line, or is empty: what follows it begins one. -/
def EndsLine (text : List Char) : Prop := text = [] ∨ ∃ init, text = init ++ ['\n']

theorem exists_line (text : List Char) :
    ∃ head tail, text = head ++ tail ∧ EndsLine head ∧ '\n' ∉ tail := by
  induction text using List.reverseRecOn with
  | nil => exact ⟨[], [], rfl, .inl rfl, List.not_mem_nil⟩
  | append_singleton init c ih =>
    by_cases hc : c = '\n'
    · exact ⟨init ++ [c], [], by simp, .inr ⟨init, by rw [hc]⟩, List.not_mem_nil⟩
    · obtain ⟨head, tail, rfl, hhead, htail⟩ := ih
      refine ⟨head, tail ++ [c], by simp, hhead, ?_⟩
      simp [htail, Ne.symm hc]

namespace LineIndex

theorem startsFrom_append {text other : List Char} {offset : ℕ} :
    startsFrom offset (text ++ other) =
      startsFrom offset text ++ startsFrom (offset + byteLength text) other := by
  induction text generalizing offset with
  | nil => simp [startsFrom]
  | cons c rest ih =>
    rw [List.cons_append, startsFrom, startsFrom, ih, byteLength_cons, ← Nat.add_assoc]
    split
    · rfl
    · rfl

theorem startsFrom_of_notMem {text : List Char} {offset : ℕ} (h : '\n' ∉ text) :
    startsFrom offset text = [] := by
  induction text generalizing offset with
  | nil => rfl
  | cons c rest ih =>
    rw [startsFrom, if_neg (fun hc ↦ h (by simp [hc])), ih (fun hmem ↦ h (by simp [hmem]))]

@[simp] theorem length_startsFrom (offset : ℕ) (text : List Char) :
    (startsFrom offset text).length = text.count '\n' := by
  induction text generalizing offset with
  | nil => rfl
  | cons c rest ih =>
    rw [startsFrom]
    split
    · rename_i hc
      rw [List.length_cons, ih, hc, List.count_cons_self]
    · rename_i hc
      rw [ih, List.count_cons_of_ne hc]

/-- A line starts behind the offset, and not behind the text. -/
theorem startsFrom_bounds {text : List Char} {offset start : ℕ}
    (hsize : offset + byteLength text < 2 ^ 32) (h : start ∈ startsFrom offset text) :
    offset < start ∧ start ≤ offset + byteLength text := by
  induction text generalizing offset with
  | nil => cases h
  | cons c rest ih =>
    have hc := c.utf8Size_pos
    rw [byteLength_cons] at hsize ⊢
    have hrest : start ∈ startsFrom (offset + c.utf8Size) rest →
        offset < start ∧ start ≤ offset + (c.utf8Size + byteLength rest) := by
      intro hmem
      have hbounds := ih (by omega) hmem
      omega
    rw [startsFrom] at h
    split at h
    · rcases List.mem_cons.mp h with rfl | h
      · rw [asU32_of_lt (by omega)]
        omega
      · exact hrest h
    · exact hrest h

/-- The starts of the lines up to one of them, and those behind it. -/
theorem lineStarts_split {head rest : List Char} (hhead : EndsLine head)
    (hsize : byteLength (head ++ rest) < 2 ^ 32) :
    ∃ before, (new (head ++ rest)).lineStarts =
        before ++ byteLength head :: startsFrom (byteLength head) rest ∧
      before.length = head.count '\n' ∧ ∀ start ∈ before, start < byteLength head := by
  rw [byteLength_append] at hsize
  rcases hhead with rfl | ⟨init, rfl⟩
  · exact ⟨[], rfl, rfl, by simp⟩
  · have hnewline : ('\n').utf8Size = 1 := rfl
    rw [byteLength_append] at hsize
    refine ⟨0 :: startsFrom 0 init, ?_, by simp, ?_⟩
    · have hinit : asU32 (byteLength init) = byteLength init := asU32_of_lt (by omega)
      simp [new, startsFrom_append, startsFrom, hinit, hnewline]
    · intro start hstart
      rw [byteLength_append]
      rcases List.mem_cons.mp hstart with rfl | hstart
      · simp [hnewline]
      · have hbounds := startsFrom_bounds (by omega) hstart
        simp [hnewline]
        omega

theorem lineAt_of_split {before after : List ℕ} {start x : ℕ} (hbefore : ∀ a ∈ before, a < start)
    (hstart : start ≤ x) (hafter : ∀ a ∈ after, x < a) :
    lineAt (before ++ start :: after) x = before.length := by
  have hnot : x ∉ before ∧ x ∉ after := by
    constructor
    · intro hmem
      have hlt := hbefore x hmem
      omega
    · exact fun hmem ↦ lt_irrefl x (hafter x hmem)
  unfold lineAt binarySearch
  by_cases hx : x = start
  · subst hx
    rw [if_pos (by simp), List.idxOf_append_of_notMem hnot.1]
    simp
  · rw [if_neg (by simp [hnot, hx])]
    have hall : before.countP (· < x) = before.length := by
      rw [List.countP_eq_length]
      intro a ha
      have hlt := hbefore a ha
      exact decide_eq_true (by omega)
    have hnone : after.countP (· < x) = 0 := by
      rw [List.countP_eq_zero]
      intro a ha
      have hlt := hafter a ha
      simp
      omega
    have hlt : start < x := by omega
    simp [List.countP_append, hall, hnone, hlt]

end LineIndex

end Itaruby
