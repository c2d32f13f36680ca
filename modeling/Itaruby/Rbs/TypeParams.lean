import Itaruby.Check.Signatures
import Itaruby.Library.Brackets
import Itaruby.Rbs.Parser
import Mathlib.Data.List.TakeWhile

/-!
Lists of type parameters as RBS writes them, and the names that the parser takes from them.
-/

set_option autoImplicit false
set_option relaxedAutoImplicit false

namespace Itaruby.RbsComment

open Brackets Parsing Parser
open scoped Text

/-! ### The lists -/

def Blanks (text : Text) : Prop := ∀ c ∈ text, isBlank c = true

instance (text : Text) : Decidable (Blanks text) := inferInstanceAs (Decidable (∀ c ∈ text, _))

/-- The variances, and the keyword that leaves them unchecked. -/
def paramKeywords : List Text := ["in".toList, "out".toList, "unchecked".toList]

/-- A keyword, and the blanks after it. -/
structure ParamKeyword where
  keyword : Text
  gap : Text
  known : keyword ∈ paramKeywords
  gap_ne : gap ≠ []
  blank : Blanks gap

/-- `<keywords> <name> <bound or default>`. No keyword is a name. -/
structure TypeParam where
  before : Text
  keywords : List ParamKeyword
  name : Text
  after : Text
  bound : Text
  before_blank : Blanks before
  name_ne : name ≠ []
  chars : ∀ c ∈ name, isIdentByte c = true
  free : name ∉ paramKeywords
  after_blank : Blanks after
  bound_sign : ∀ c ∈ bound.head?, c = '<' ∨ c = '=' ∨ c = '>'
  closed : closes [] bound = true

namespace TypeParam

/-- What stands before the name. -/
def lead (p : TypeParam) : Text := p.keywords.flatMap fun k ↦ k.keyword ++ k.gap

def text (p : TypeParam) : Text := p.before ++ (p.lead ++ (p.name ++ (p.after ++ p.bound)))

end TypeParam

/-- The parameters with commas between them. -/
def paramsText : List TypeParam → Text
  | [] => []
  | [p] => p.text
  | p :: params => p.text ++ ',' :: paramsText params

def StartsName (text : Text) : Bool := !(spanIdent (text.dropWhile isBlank)).1.isEmpty

/-- A name follows a comma that is in no square bracket but the one of the list. -/
def strays : ℕ → Text → Bool
  | _, [] => false
  | depth, c :: rest =>
    if c = '[' then strays (depth + 1) rest
    else if c = ']' then strays (depth - 1) rest
    else (c == ',' && depth == 1 && StartsName rest) || strays depth rest

/-- No keyword stands before the name, and no name after a comma in its bound. -/
def TypeParam.Plain (p : TypeParam) : Prop := p.keywords = [] ∧ strays 1 p.bound = false

/-! ### Identifiers -/

section Identifiers

variable {text : Text}

theorem spanIdent_append (text : Text) : (spanIdent text).1 ++ (spanIdent text).2 = text := by
  induction text using spanIdent.induct with
  | case1 rest ih => simp [spanIdent, ih]
  | case2 c rest hcolon hc ih =>
    rw [spanIdent.eq_2 _ _ hcolon, if_pos hc]
    simp [ih]
  | case3 c rest hcolon hc =>
    rw [spanIdent.eq_2 _ _ hcolon, if_neg hc]
    rfl
  | case4 => rfl

theorem isIdentByte_of_mem_span {c : Char} (h : c ∈ (spanIdent text).1) :
    isIdentByte c = true ∨ c = ':' := by
  induction text using spanIdent.induct with
  | case1 rest ih =>
    simp only [spanIdent, List.mem_cons] at h
    rcases h with rfl | rfl | h
    · exact .inr rfl
    · exact .inr rfl
    · exact ih h
  | case2 d rest hcolon hd ih =>
    rw [spanIdent.eq_2 _ _ hcolon, if_pos hd] at h
    rcases List.mem_cons.mp h with rfl | h
    · exact .inl hd
    · exact ih h
  | case3 d rest hcolon hd =>
    rw [spanIdent.eq_2 _ _ hcolon, if_neg hd] at h
    cases h
  | case4 => cases h

/-- Nothing goes on with an identifier. -/
def Ends (rest : Text) : Prop := ∀ c ∈ rest.head?, isIdentByte c = false ∧ c ≠ ':'

theorem spanIdent_of_ends {rest : Text} (h : Ends rest) : spanIdent rest = ([], rest) := by
  cases rest with
  | nil => rfl
  | cons c rest =>
    obtain ⟨hbyte, hcolon⟩ := h c rfl
    rw [spanIdent.eq_2 _ _ fun _ heq _ ↦ hcolon heq, if_neg (by simp [hbyte])]

theorem spanIdent_word {word rest : Text} (hword : ∀ c ∈ word, isIdentByte c = true)
    (hrest : Ends rest) : spanIdent (word ++ rest) = (word, rest) := by
  induction word with
  | nil => exact spanIdent_of_ends hrest
  | cons c word ih =>
    rw [List.forall_mem_cons] at hword
    have hcolon : c ≠ ':' := by
      rintro rfl
      exact absurd hword.1 (by decide)
    rw [List.cons_append, spanIdent.eq_2 _ _ fun _ heq _ ↦ hcolon heq, if_pos hword.1, ih hword.2]

end Identifiers

/-! ### The loop -/

section Loop

variable {names : List Text} {rest : Text} {depth n m : ℕ} {atName : Bool}

theorem tryIdent_eq (rest : Text) :
    tryIdent rest =
      if (spanIdent rest).1 = [] then .ok (none, rest)
      else .ok (some (spanIdent rest).1, (spanIdent rest).2) := by
  unfold tryIdent ident
  split_ifs <;> rfl

/-- One step past a character. -/
def passed (n depth : ℕ) (names : List Text) : Text → Except Failure (List Text × Text)
  | c :: rest => typeParamsLoop n (pastChar depth c).1 (pastChar depth c).2 names rest
  | [] => failPlain "unterminated type parameter list" []

theorem loop_done : typeParamsLoop (n + 1) 0 atName names rest = .ok (names, rest) := by
  unfold typeParamsLoop
  rw [if_pos rfl]
  rfl

theorem loop_pass (hdepth : depth ≠ 0) (hname : ¬ (depth = 1 ∧ atName = true)) :
    typeParamsLoop (n + 1) depth atName names rest = passed n depth names rest := by
  unfold typeParamsLoop
  rw [if_neg hdepth, if_neg hname, (Yields.pure none rest).bind_eq]
  cases rest with
  | nil => rfl
  | cons c rest => rfl

theorem loop_found {found : Option Text} {rest' : Text}
    (h : tryIdent (rest.dropWhile isBlank) = .ok (found, rest')) :
    typeParamsLoop (n + 1) 1 true names rest =
      match found with
      | some name => typeParamsLoop n 1 false (names ++ [name]) rest'
      | none => passed n 1 names rest' := by
  have hyields : Yields (do skipWs; tryIdent) rest found rest' := by
    have hblanks : Yields skipWs rest () (rest.dropWhile isBlank) := rfl
    exact hblanks.bind h
  conv_lhs => rw [typeParamsLoop]
  rw [if_neg one_ne_zero, if_pos ⟨rfl, rfl⟩, hyields.bind_eq]
  cases found with
  | some name => rfl
  | none =>
    cases rest' with
    | nil => rfl
    | cons c rest => rfl

theorem loop_name :
    typeParamsLoop (n + 1) 1 true names rest =
      if (spanIdent (rest.dropWhile isBlank)).1 = [] then passed n 1 names (rest.dropWhile isBlank)
      else typeParamsLoop n 1 false (names ++ [(spanIdent (rest.dropWhile isBlank)).1])
        (spanIdent (rest.dropWhile isBlank)).2 := by
  have hfound := tryIdent_eq (rest.dropWhile isBlank)
  split_ifs at hfound ⊢ with hnil
  · exact loop_found hfound
  · exact loop_found hfound

/-- Every step goes on in a shorter text, so that the loop has steps enough. -/
theorem loop_stable : ∀ {n m depth : ℕ} {atName : Bool} {names : List Text} {rest : Text},
    rest.length < n → rest.length < m →
      typeParamsLoop n depth atName names rest = typeParamsLoop m depth atName names rest
  | 0, _, _, _, _, _, h, _ => absurd h (Nat.not_lt_zero _)
  | _, 0, _, _, _, _, _, h => absurd h (Nat.not_lt_zero _)
  | n + 1, m + 1, depth, atName, names, rest, hn, hm => by
    have hpassed : ∀ depth names (text : Text), text.length ≤ rest.length →
        passed n depth names text = passed m depth names text := by
      intro depth names text hlength
      cases text with
      | nil => rfl
      | cons c text =>
        rw [List.length_cons] at hlength
        exact loop_stable (by omega) (by omega)
    by_cases hdepth : depth = 0
    · rw [hdepth, loop_done, loop_done]
    · by_cases hname : depth = 1 ∧ atName = true
      · obtain ⟨rfl, rfl⟩ := hname
        have hblanks := (List.dropWhile_sublist isBlank (l := rest)).length_le
        have hspan := congrArg List.length (spanIdent_append (rest.dropWhile isBlank))
        rw [List.length_append] at hspan
        rw [loop_name, loop_name]
        split_ifs with hnil
        · exact hpassed _ _ _ hblanks
        · have hpos := List.length_pos_iff.mpr hnil
          exact loop_stable (by omega) (by omega)
      · rw [loop_pass hdepth hname, loop_pass hdepth hname]
        exact hpassed _ _ _ le_rfl

/-- The loop with steps enough. -/
def scanned (depth : ℕ) (atName : Bool) (names : List Text) (rest : Text) :
    Except Failure (List Text × Text) :=
  typeParamsLoop (rest.length + 1) depth atName names rest

theorem scanned_done : scanned 0 atName names rest = .ok (names, rest) := loop_done

theorem scanned_cons {c : Char} (hdepth : depth ≠ 0) (hname : ¬ (depth = 1 ∧ atName = true)) :
    scanned depth atName names (c :: rest) =
      scanned (pastChar depth c).1 (pastChar depth c).2 names rest :=
  loop_pass hdepth hname

theorem scanned_name (h : StartsName rest = true) :
    scanned 1 true names rest =
      scanned 1 false (names ++ [(spanIdent (rest.dropWhile isBlank)).1])
        (spanIdent (rest.dropWhile isBlank)).2 := by
  have hnil : ¬ (spanIdent (rest.dropWhile isBlank)).1 = [] := by
    intro hnil
    rw [StartsName, hnil] at h
    cases h
  have hblanks := (List.dropWhile_sublist isBlank (l := rest)).length_le
  have hspan := congrArg List.length (spanIdent_append (rest.dropWhile isBlank))
  have hpos := List.length_pos_iff.mpr hnil
  rw [List.length_append] at hspan
  unfold scanned
  rw [loop_name, if_neg hnil]
  exact loop_stable (by omega) (Nat.lt_succ_self _)

theorem scanned_no_name (h : StartsName rest = false) :
    scanned 1 true names rest = scanned 1 false names (rest.dropWhile isBlank) := by
  have hnil : (spanIdent (rest.dropWhile isBlank)).1 = [] := by
    simpa [StartsName] using h
  have hblanks := (List.dropWhile_sublist isBlank (l := rest)).length_le
  unfold scanned
  rw [loop_name, if_pos hnil, ← loop_pass one_ne_zero (by simp : ¬ (1 = 1 ∧ false = true))]
  exact loop_stable (by omega) (Nat.lt_succ_self _)

end Loop

/-! ### What is caught in a bound -/

section Bounds

/-- No bracket and no comma. -/
def isPlain (c : Char) : Bool := (closerOf c).isNone && !isCloser c && c != ','

variable {stack : List Char} {text rest : Text} {depth : ℕ}

theorem closes_plain {before : Text} (h : ∀ c ∈ before, isPlain c = true) (text : Text) :
    closes stack (before ++ text) = closes stack text := by
  induction before with
  | nil => rfl
  | cons c before ih =>
    rw [List.forall_mem_cons] at h
    obtain ⟨⟨hopen, hclose⟩, hcomma⟩ : (closerOf c = none ∧ isCloser c = false) ∧ c ≠ ',' := by
      simpa [isPlain] using h.1
    rw [List.cons_append, closes.eq_def]
    simp [hopen, hclose, hcomma, ih h.2]

theorem strays_plain {before : Text} (h : ∀ c ∈ before, isPlain c = true) (text : Text) :
    strays depth (before ++ text) = strays depth text := by
  induction before with
  | nil => rfl
  | cons c before ih =>
    rw [List.forall_mem_cons] at h
    obtain ⟨⟨hopen, hclose⟩, hcomma⟩ : (closerOf c = none ∧ isCloser c = false) ∧ c ≠ ',' := by
      simpa [isPlain] using h.1
    have hleft : c ≠ '[' := by
      rintro rfl
      cases hopen
    have hright : c ≠ ']' := by
      rintro rfl
      cases hclose
    rw [List.cons_append, strays, if_neg hleft, if_neg hright, ih h.2]
    simp [hcomma]

theorem exists_closer {top : Char} (h : closes (top :: stack) text = true) :
    ∃ c ∈ text, isCloser c = true := by
  induction text generalizing top stack with
  | nil => cases h
  | cons c text ih =>
    rw [closes.eq_def] at h
    by_cases hcloser : isCloser c = true
    · exact ⟨c, List.mem_cons_self, hcloser⟩
    · have hrest : ∃ top stack, closes (top :: stack) text = true := by
        cases hopen : closerOf c with
        | some closer =>
          simp only [hopen] at h
          exact ⟨closer, top :: stack, h⟩
        | none =>
          simp only [hopen, if_neg hcloser] at h
          exact ⟨top, stack, by simpa using h⟩
      obtain ⟨top', stack', hclosed⟩ := hrest
      obtain ⟨d, hd, hdcloser⟩ := ih hclosed
      exact ⟨d, List.mem_cons_of_mem _ hd, hdcloser⟩

/-- An identifier ends before the end of a text that has more than identifiers in it. -/
theorem spanIdent_of_mem {c : Char} (hmem : c ∈ text) (hbyte : isIdentByte c = false)
    (hcolon : c ≠ ':') (rest : Text) :
    spanIdent (text ++ rest) = ((spanIdent text).1, (spanIdent text).2 ++ rest) := by
  induction text using spanIdent.induct with
  | case1 text ih =>
    have hin : c ∈ text := by
      rcases List.mem_cons.mp hmem with rfl | hmem
      · exact absurd rfl hcolon
      · exact (List.mem_cons.mp hmem).resolve_left hcolon
    rw [List.cons_append, List.cons_append, spanIdent, ih hin]
    rfl
  | case2 d text hnot hd ih =>
    have hin : c ∈ text := by
      refine (List.mem_cons.mp hmem).resolve_left ?_
      rintro rfl
      rw [hbyte] at hd
      cases hd
    have hdcolon : d ≠ ':' := by
      rintro rfl
      exact absurd hd (by decide)
    rw [List.cons_append, spanIdent.eq_2 _ _ fun _ heq _ ↦ hdcolon heq, if_pos hd, ih hin,
      spanIdent.eq_2 _ _ hnot, if_pos hd]
  | case3 d text hnot hd =>
    have hstill : ∀ tail, d = ':' → text ++ rest = ':' :: tail → False := by
      rintro tail rfl heq
      have hin := (List.mem_cons.mp hmem).resolve_left hcolon
      cases text with
      | nil => cases hin
      | cons e text =>
        obtain ⟨rfl, -⟩ := List.cons.inj heq
        exact hnot text rfl rfl
    rw [List.cons_append, spanIdent.eq_2 _ _ hstill, if_neg hd, spanIdent.eq_2 _ _ hnot, if_neg hd]
    rfl
  | case4 => cases hmem

theorem mem_of_not_plain {c : Char} (h : ¬ isPlain c = true) :
    c ∈ ['(', '[', '{', ')', ']', '}', ','] := by
  by_contra hmem
  simp only [List.mem_cons, not_or] at hmem
  refine h ?_
  simp [isPlain, closerOf, isCloser, hmem]

theorem isPlain_of_isIdentByte {c : Char} (h : isIdentByte c = true ∨ c = ':') :
    isPlain c = true := by
  by_contra hplain
  have hall : ∀ c ∈ ['(', '[', '{', ')', ']', '}', ','], ¬ (isIdentByte c = true ∨ c = ':') := by
    decide
  exact hall c (mem_of_not_plain hplain) h

theorem isBlank_of_isIdentByte {c : Char} (h : isIdentByte c = true) : isBlank c = false := by
  rw [Bool.eq_false_iff]
  intro hblank
  simp only [isBlank, Bool.or_eq_true, beq_iff_eq] at hblank
  rcases hblank with rfl | rfl
  · exact absurd h (by decide)
  · exact absurd h (by decide)

theorem isPlain_of_isBlank {c : Char} (h : isBlank c = true) : isPlain c = true := by
  by_contra hplain
  have hall : ∀ c ∈ ['(', '[', '{', ')', ']', '}', ','], ¬ isBlank c = true := by decide
  exact hall c (mem_of_not_plain hplain) h

theorem byte_of_closer {c : Char} (h : isCloser c = true) : isIdentByte c = false ∧ c ≠ ':' := by
  simp only [isCloser, Bool.or_eq_true, beq_iff_eq] at h
  rcases h with (rfl | rfl) | rfl
  · decide
  · decide
  · decide

/-- The depth that the loop counts: the brackets of the list, and the square ones in it. -/
def squareDepth (stack : List Char) : ℕ := stack.count ']' + 1

/-- A character that closes or opens nothing leaves the brackets as they are. -/
theorem closes_cons_plain {c : Char} (depth : ℕ) (hc : isPlain c = true)
    (h : closes stack (c :: text) = true) :
    closes stack text = true ∧ pastChar depth c = (depth, false) ∧
      strays depth (c :: text) = strays depth text := by
  have hone : ∀ d ∈ [c], isPlain d = true := by simpa using hc
  refine ⟨(closes_plain hone text).symm.trans h, ?_, strays_plain hone text⟩
  unfold pastChar
  split
  next => exact absurd hc (by decide)
  next => exact absurd hc (by decide)
  next => exact absurd hc (by decide)
  next => rfl

theorem closes_closer {c : Char} (hc : isCloser c = true) (h : closes stack (c :: text) = true) :
    ∃ stack', stack = c :: stack' ∧ closes stack' text = true := by
  have hopen : closerOf c = none := by
    simp only [isCloser, Bool.or_eq_true, beq_iff_eq] at hc
    rcases hc with (rfl | rfl) | rfl <;> rfl
  rw [closes.eq_def] at h
  simp only [hopen, if_pos hc] at h
  cases stack with
  | nil => cases h
  | cons top stack =>
    simp only [Bool.and_eq_true, beq_iff_eq] at h
    exact ⟨stack, by rw [h.1], h.2⟩

/-- A step of the loop keeps to the brackets that are open. -/
theorem closes_cons {c : Char} (h : closes stack (c :: text) = true) :
    ∃ stack', closes stack' text = true ∧ squareDepth stack' = (pastChar (squareDepth stack) c).1 ∧
      ((pastChar (squareDepth stack) c).2 = true → stack' ≠ [] ∧ squareDepth stack' = 1) ∧
      strays (squareDepth stack) (c :: text) =
        (((pastChar (squareDepth stack) c).2 && StartsName text) ||
          strays (squareDepth stack') text) := by
  by_cases hplain : isPlain c = true
  · obtain ⟨hclosed, hpast, hstrays⟩ := closes_cons_plain (squareDepth stack) hplain h
    refine ⟨stack, hclosed, by rw [hpast], ?_, ?_⟩
    · rw [hpast]
      exact fun hfalse ↦ nomatch hfalse
    · rw [hpast, hstrays, Bool.false_and, Bool.false_or]
  · have hmem := mem_of_not_plain hplain
    simp only [List.mem_cons, List.not_mem_nil, or_false] at hmem
    rcases hmem with rfl | rfl | rfl | rfl | rfl | rfl | rfl
    · exact ⟨')' :: stack, h, by simp [squareDepth, pastChar], by simp [pastChar],
        by simp [strays, pastChar, squareDepth]⟩
    · exact ⟨']' :: stack, h, by simp [squareDepth, pastChar], by simp [pastChar],
        by simp [strays, pastChar, squareDepth]⟩
    · exact ⟨'}' :: stack, h, by simp [squareDepth, pastChar], by simp [pastChar],
        by simp [strays, pastChar, squareDepth]⟩
    · obtain ⟨stack, rfl, hclosed⟩ := closes_closer (by decide) h
      exact ⟨stack, hclosed, by simp [squareDepth, pastChar], by simp [pastChar],
        by simp [strays, pastChar, squareDepth]⟩
    · obtain ⟨stack, rfl, hclosed⟩ := closes_closer (by decide) h
      exact ⟨stack, hclosed, by simp [squareDepth, pastChar], by simp [pastChar],
        by simp [strays, pastChar, squareDepth]⟩
    · obtain ⟨stack, rfl, hclosed⟩ := closes_closer (by decide) h
      exact ⟨stack, hclosed, by simp [squareDepth, pastChar], by simp [pastChar],
        by simp [strays, pastChar, squareDepth]⟩
    · have hne : stack ≠ [] := by
        rintro rfl
        cases h
      obtain ⟨top, stack, rfl⟩ := List.exists_cons_of_ne_nil hne
      exact ⟨top :: stack, h, rfl, by simp [pastChar], by simp [strays, pastChar]⟩

/-- What the loop catches in a text that closes its brackets. -/
theorem scanned_closes : ∀ {text : Text} {stack : List Char} {atName : Bool},
    closes stack text = true → (atName = true → stack ≠ [] ∧ squareDepth stack = 1) →
    ∃ caught, (caught = [] ↔
        (atName && StartsName text) = false ∧ strays (squareDepth stack) text = false) ∧
      ∀ names rest, scanned (squareDepth stack) atName names (text ++ rest) =
        scanned 1 false (names ++ caught) rest := by
  intro text
  induction hn : text.length using Nat.strong_induction_on generalizing text with
  | _ n ih =>
    subst hn
    -- The characters one by one, where no name is due.
    have hpass : ∀ {t : Text} {stack : List Char}, t.length ≤ text.length →
        closes stack t = true → ∃ caught, (caught = [] ↔ strays (squareDepth stack) t = false) ∧
          ∀ names rest, scanned (squareDepth stack) false names (t ++ rest) =
            scanned 1 false (names ++ caught) rest := by
      intro t stack hlength hclosed
      cases t with
      | nil =>
        have hstack : stack = [] := by
          rw [closes.eq_def] at hclosed
          simpa using hclosed
        refine ⟨[], by simp [strays], fun names rest ↦ ?_⟩
        rw [hstack, List.append_nil]
        rfl
      | cons c t =>
        obtain ⟨stack', hclosed', hdepth, hname, hstrays⟩ := closes_cons hclosed
        obtain ⟨caught, hcaught, hscan⟩ := ih t.length hlength rfl hclosed' hname
        refine ⟨caught, ?_, fun names rest ↦ ?_⟩
        · rw [hcaught, hstrays, Bool.or_eq_false_iff]
        · have hpositive : squareDepth stack ≠ 0 := by
            unfold squareDepth
            omega
          rw [List.cons_append, scanned_cons hpositive (by simp), ← hdepth, hscan]
    intro stack atName hclosed hname
    cases atName with
    | false => simpa using hpass le_rfl hclosed
    | true =>
      obtain ⟨hne, hone⟩ := hname rfl
      obtain ⟨top, stack, rfl⟩ := List.exists_cons_of_ne_nil hne
      have hblanks : ∀ c ∈ text.takeWhile isBlank, isPlain c = true := fun c hc ↦
        isPlain_of_isBlank (List.mem_takeWhile_imp hc)
      have hsplit : text.takeWhile isBlank ++ text.dropWhile isBlank = text :=
        List.takeWhile_append_dropWhile
      have hclosed' : closes (top :: stack) (text.dropWhile isBlank) = true := by
        rw [← closes_plain hblanks, hsplit]
        exact hclosed
      have hstrays : strays (squareDepth (top :: stack)) (text.dropWhile isBlank) =
          strays (squareDepth (top :: stack)) text := by
        rw [← strays_plain hblanks, hsplit]
      have hlength := (List.dropWhile_sublist isBlank (l := text)).length_le
      obtain ⟨c, hc, hcloser⟩ := exists_closer hclosed'
      have hdrop : ∀ rest : Text,
          (text ++ rest).dropWhile isBlank = text.dropWhile isBlank ++ rest := by
        intro rest
        have hne : (text.dropWhile isBlank).isEmpty = false := by
          simpa using List.ne_nil_of_mem hc
        rw [List.dropWhile_append, hne]
        rfl
      have hspan := fun rest ↦ spanIdent_of_mem hc (byte_of_closer hcloser).1
        (byte_of_closer hcloser).2 rest
      have hstarts : ∀ rest : Text, StartsName (text ++ rest) = StartsName text := by
        intro rest
        unfold StartsName
        rw [hdrop, hspan]
      rw [hone] at hstrays ⊢
      by_cases hstart : StartsName text = true
      · have happend := spanIdent_append (text.dropWhile isBlank)
        have hchars : ∀ c ∈ (spanIdent (text.dropWhile isBlank)).1, isPlain c = true :=
          fun c hc ↦ isPlain_of_isIdentByte (isIdentByte_of_mem_span hc)
        have hclosed'' : closes (top :: stack) (spanIdent (text.dropWhile isBlank)).2 = true := by
          rw [← closes_plain hchars, happend]
          exact hclosed'
        have hshort := congrArg List.length happend
        rw [List.length_append] at hshort
        obtain ⟨caught, -, hscan⟩ := hpass (by omega) hclosed''
        refine ⟨(spanIdent (text.dropWhile isBlank)).1 :: caught, by simp [hstart], ?_⟩
        intro names rest
        rw [scanned_name ((hstarts rest).trans hstart), hdrop, hspan]
        rw [hone] at hscan
        rw [hscan, List.append_assoc]
        rfl
      · obtain ⟨caught, hcaught, hscan⟩ := hpass hlength hclosed'
        rw [hone] at hcaught hscan
        refine ⟨caught, by simp [hcaught, hstart, hstrays], fun names rest ↦ ?_⟩
        rw [scanned_no_name ((hstarts rest).trans (Bool.eq_false_iff.mpr hstart)), hdrop, hscan]

end Bounds

/-! ### A parameter -/

namespace TypeParam

variable (p : TypeParam)

/-- The first word of the parameter. -/
def head : Text :=
  match p.keywords with
  | [] => p.name
  | k :: _ => k.keyword

/-- What follows it. -/
def tail : Text :=
  match p.keywords with
  | [] => p.after ++ p.bound
  | k :: keywords =>
    k.gap ++ (keywords.flatMap (fun k ↦ k.keyword ++ k.gap) ++ (p.name ++ (p.after ++ p.bound)))

theorem text_eq : p.text = p.before ++ (p.head ++ p.tail) := by
  unfold text head tail lead
  cases p.keywords with
  | nil => rfl
  | cons k keywords => simp

theorem keyword_chars {keyword : Text} (h : keyword ∈ paramKeywords) :
    (∀ c ∈ keyword, isIdentByte c = true) ∧ keyword ≠ [] := by
  have hall : ∀ keyword ∈ paramKeywords, keyword.all isIdentByte = true ∧ keyword ≠ [] := by
    decide
  exact ⟨List.all_eq_true.mp (hall keyword h).1, (hall keyword h).2⟩

theorem head_chars : (∀ c ∈ p.head, isIdentByte c = true) ∧ p.head ≠ [] := by
  unfold head
  cases p.keywords with
  | nil => exact ⟨p.chars, p.name_ne⟩
  | cons k keywords => exact keyword_chars k.known

theorem head_eq_name_iff : p.head = p.name ↔ p.keywords = [] := by
  unfold head
  cases p.keywords with
  | nil => simp
  | cons k keywords =>
    refine iff_of_false ?_ (List.cons_ne_nil _ _)
    intro heq
    have hkeyword : k.keyword = p.name := heq
    exact p.free (hkeyword ▸ k.known)

theorem ends_of_blank {gap rest : Text} (hgap : Blanks gap) (hrest : gap = [] → Ends rest) :
    Ends (gap ++ rest) := by
  cases gap with
  | nil => exact hrest rfl
  | cons c gap =>
    intro d hd
    obtain rfl : c = d := Option.some.inj hd
    have hblank := hgap c List.mem_cons_self
    simp only [isBlank, Bool.or_eq_true, beq_iff_eq] at hblank
    rcases hblank with rfl | rfl
    · decide
    · decide

/-- The first word ends where it should. -/
theorem ends_tail {rest : Text} (hrest : Ends rest) : Ends (p.tail ++ rest) := by
  unfold tail
  cases p.keywords with
  | cons k keywords =>
    rw [List.append_assoc]
    exact ends_of_blank k.blank fun heq ↦ absurd heq k.gap_ne
  | nil =>
    simp only [List.append_assoc]
    refine ends_of_blank p.after_blank fun _ ↦ ?_
    cases hbound : p.bound with
    | nil => exact hrest
    | cons c bound =>
      intro d hd
      obtain rfl : c = d := Option.some.inj hd
      rcases p.bound_sign c (by rw [hbound]; rfl) with rfl | rfl | rfl
      · decide
      · decide
      · decide

/-- Up to the bound, nothing opens a bracket and nothing is parted. -/
theorem tail_plain : ∃ before, (∀ c ∈ before, isPlain c = true) ∧ p.tail = before ++ p.bound := by
  have hname : ∀ c ∈ p.name ++ p.after, isPlain c = true := by
    intro c hc
    rcases List.mem_append.mp hc with hc | hc
    · exact isPlain_of_isIdentByte (.inl (p.chars c hc))
    · exact isPlain_of_isBlank (p.after_blank c hc)
  unfold tail
  cases p.keywords with
  | nil => exact ⟨p.after, fun c hc ↦ hname c (List.mem_append_right _ hc), rfl⟩
  | cons k keywords =>
    refine ⟨k.gap ++ (keywords.flatMap (fun k ↦ k.keyword ++ k.gap) ++ (p.name ++ p.after)), ?_,
      by simp⟩
    intro c hc
    rcases List.mem_append.mp hc with hc | hc
    · exact isPlain_of_isBlank (k.blank c hc)
    · rcases List.mem_append.mp hc with hc | hc
      · obtain ⟨k', -, hc⟩ := List.mem_flatMap.mp hc
        rcases List.mem_append.mp hc with hc | hc
        · exact isPlain_of_isIdentByte (.inl ((keyword_chars k'.known).1 c hc))
        · exact isPlain_of_isBlank (k'.blank c hc)
      · exact hname c hc

/-- The loop takes the first word of a parameter, and what it catches in the bound. -/
theorem scanned_text : ∃ caught, (caught = [] ↔ strays 1 p.bound = false) ∧
    ∀ names rest, Ends rest → scanned 1 true names (p.text ++ rest) =
      scanned 1 false (names ++ p.head :: caught) rest := by
  obtain ⟨before, hplain, htail⟩ := p.tail_plain
  have hclosed : closes [] p.tail = true := by
    rw [htail, closes_plain hplain]
    exact p.closed
  have hnever : false = true → ([] : List Char) ≠ [] ∧ squareDepth [] = 1 := fun h ↦ nomatch h
  obtain ⟨caught, hcaught, hscan⟩ := scanned_closes hclosed hnever
  refine ⟨caught, ?_, fun names rest hrest ↦ ?_⟩
  · rw [hcaught, htail, strays_plain hplain]
    simp [squareDepth]
  · have hdrop : (p.text ++ rest).dropWhile isBlank = p.head ++ (p.tail ++ rest) := by
      obtain ⟨c, head, hhead⟩ := List.exists_cons_of_ne_nil p.head_chars.2
      have hc : isBlank c = false := by
        have hbyte := p.head_chars.1 c (by rw [hhead]; exact List.mem_cons_self)
        exact isBlank_of_isIdentByte hbyte
      rw [text_eq, List.append_assoc, List.append_assoc,
        List.dropWhile_append_of_pos p.before_blank, hhead, List.cons_append,
        List.dropWhile_cons_of_neg (by simp [hc])]
    have hspan := spanIdent_word p.head_chars.1 (p.ends_tail hrest)
    have hstart : StartsName (p.text ++ rest) = true := by
      unfold StartsName
      rw [hdrop, hspan]
      simpa using p.head_chars.2
    rw [scanned_name hstart, hdrop, hspan]
    exact (hscan _ rest).trans (by rw [List.append_assoc]; rfl)

end TypeParam

/-! ### The list -/

section Lists

theorem ends_separator (rest : Text) : Ends (',' :: rest) ∧ Ends (']' :: rest) := by
  constructor
  · intro c hc
    exact Option.some.inj hc ▸ by decide
  · intro c hc
    exact Option.some.inj hc ▸ by decide

theorem scanned_end (names : List Text) (rest : Text) (atName : Bool) :
    scanned 1 atName names (']' :: rest) = .ok (names, rest) := by
  have hfalse : scanned 1 false names (']' :: rest) = .ok (names, rest) := by
    rw [scanned_cons one_ne_zero (by simp)]
    exact scanned_done
  cases atName with
  | false => exact hfalse
  | true =>
    have hstart : StartsName (']' :: rest) = false := by
      unfold StartsName
      rw [List.dropWhile_cons_of_neg (by decide), spanIdent_of_ends (ends_separator rest).2]
      rfl
    rw [scanned_no_name hstart, List.dropWhile_cons_of_neg (by decide), hfalse]

/-- What the loop takes from a list: the names of its parameters when all are plain, and something
else otherwise. -/
theorem scanned_params (params : List TypeParam) : ∃ captured,
    params.length ≤ captured.length ∧
    (captured = params.map TypeParam.name ↔ ∀ p ∈ params, p.Plain) ∧
    ∀ names rest, scanned 1 true names (paramsText params ++ ']' :: rest) =
      .ok (names ++ captured, rest) := by
  induction params with
  | nil =>
    refine ⟨[], le_rfl, by simp, fun names rest ↦ ?_⟩
    rw [List.append_nil]
    exact scanned_end names rest true
  | cons p params ih =>
    obtain ⟨captured, hlength, hcaptured, hrest⟩ := ih
    obtain ⟨caught, hcaught, hscan⟩ := p.scanned_text
    refine ⟨p.head :: (caught ++ captured), ?_, ?_, fun names rest ↦ ?_⟩
    · simp only [List.length_cons, List.length_append]
      omega
    · rw [List.map_cons, List.cons_eq_cons, p.head_eq_name_iff, List.forall_mem_cons, ← hcaptured]
      constructor
      · rintro ⟨hkeywords, heq⟩
        have hlengths := congrArg List.length heq
        rw [List.length_append, List.length_map] at hlengths
        have hnil : caught = [] := List.length_eq_zero_iff.mp (by omega)
        rw [hnil, List.nil_append] at heq
        exact ⟨⟨hkeywords, hcaught.mp hnil⟩, heq⟩
      · rintro ⟨⟨hkeywords, hstrays⟩, heq⟩
        rw [hcaught.mpr hstrays]
        exact ⟨hkeywords, heq⟩
    · cases params with
      | nil =>
        have hempty := hrest (names ++ p.head :: caught) rest
        rw [paramsText, List.nil_append, scanned_end] at hempty
        rw [paramsText, hscan _ _ (ends_separator rest).2, scanned_end]
        rw [List.append_assoc] at hempty
        exact hempty
      | cons p' params =>
        have htext : paramsText (p :: p' :: params) = p.text ++ ',' :: paramsText (p' :: params) :=
          rfl
        have htail := hrest (names ++ p.head :: caught) rest
        rw [List.append_assoc, List.cons_append] at htail
        rw [htext, List.append_assoc, List.cons_append, hscan _ _ (ends_separator _).1,
          scanned_cons one_ne_zero (by simp)]
        exact htail

/-- The names are the declared ones exactly when every parameter is plain. -/
theorem parseTypeParams_names_iff (params : List TypeParam) (before rest : Text)
    (hbefore : Blanks before) :
    parseTypeParams (before ++ '[' :: (paramsText params ++ ']' :: rest)) =
        .ok (params.map TypeParam.name, rest) ↔
      ∀ p ∈ params, p.Plain := by
  obtain ⟨captured, -, hcaptured, hscan⟩ := scanned_params params
  have hdrop : (before ++ '[' :: (paramsText params ++ ']' :: rest)).dropWhile isBlank =
      '[' :: (paramsText params ++ ']' :: rest) := by
    rw [List.dropWhile_append_of_pos hbefore, List.dropWhile_cons_of_neg (by decide)]
  have hblanks : Yields skipWs (before ++ '[' :: (paramsText params ++ ']' :: rest)) ()
      ('[' :: (paramsText params ++ ']' :: rest)) := congrArg (fun rest ↦ Except.ok ((), rest)) hdrop
  have heat : Yields (eat '[') ('[' :: (paramsText params ++ ']' :: rest)) true
      (paramsText params ++ ']' :: rest) := rfl
  have hparse : parseTypeParams (before ++ '[' :: (paramsText params ++ ']' :: rest)) =
      .ok (captured, rest) := by
    unfold parseTypeParams
    rw [hblanks.bind_eq, heat.bind_eq]
    exact hscan [] rest
  rw [hparse, ← hcaptured, Except.ok.injEq, Prod.mk.injEq, and_iff_left rfl]

/-- A name that was taken stands for a type that is not known. -/
theorem rbsToTy_declared (resolve : ConstPath → Option ClassId) (selfClass : Option ClassId)
    {params : List TypeParam} {p : TypeParam} (h : p ∈ params) :
    rbsToTy resolve selfClass (params.map fun p ↦ String.ofList p.name)
      (.simple (String.ofList p.name)) = .unknown :=
  if_pos (List.mem_map_of_mem h)

end Lists

/-- `T < Hash[Symbol, Integer]` -/
def boundParam : TypeParam where
  before := []
  keywords := []
  name := ['T']
  after := [' ']
  bound := "< Hash[Symbol, Integer]".toList
  before_blank := by decide
  name_ne := by decide
  chars := by decide
  free := by decide
  after_blank := by decide
  bound_sign := by decide
  closed := by decide

theorem boundParam_names : parseTypeParams "[T < Hash[Symbol, Integer]] (T) -> T".toList =
    .ok (["T".toList], " (T) -> T".toList) :=
  (parseTypeParams_names_iff [boundParam] [] " (T) -> T".toList (by decide)).mpr (by
    intro p hp
    obtain rfl := List.mem_singleton.mp hp
    exact ⟨rfl, by decide⟩)

/-- `out T` -/
def outParam : TypeParam where
  before := []
  keywords := [⟨"out".toList, [' '], by decide, by decide, by decide⟩]
  name := ['T']
  after := []
  bound := []
  before_blank := by decide
  name_ne := by decide
  chars := by decide
  free := by decide
  after_blank := by decide
  bound_sign := by decide
  closed := by decide

theorem out_captured : ¬ ∀ (params : List TypeParam) (before rest : Text), Blanks before →
    parseTypeParams (before ++ '[' :: (paramsText params ++ ']' :: rest)) =
      .ok (params.map TypeParam.name, rest) := by
  intro h
  have hnames := h [outParam] [] [] (by decide)
  exact absurd hnames (by decide)

end Itaruby.RbsComment
