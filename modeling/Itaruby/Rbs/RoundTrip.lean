import Itaruby.Rbs.Steps
import Mathlib.Data.List.DropRight

/-!
Signatures as texts. A signature whose names are names and whose types have their parts is written
out, with parentheses around all but names and their arguments, and read back as it was.
-/

set_option autoImplicit false
set_option relaxedAutoImplicit false

namespace Itaruby

open RbsComment RbsComment.Parser

/-! ### Texts -/

namespace RbsComment

def separated (separator : Text) : List Text → Text
  | [] => []
  | part :: parts => part ++ parts.flatMap (separator ++ ·)

/-- The whole of it is one identifier for the parser. -/
def IsName (name : Text) : Prop := name ≠ [] ∧ spanIdent name = (name, [])

instance (name : Text) : Decidable (IsName name) := inferInstanceAs (Decidable (_ ∧ _))

end RbsComment

/-- A type that needs no parentheses before `?` or `|`. -/
def RbsTy.isAtom : RbsTy → Bool
  | .simple _ => true
  | .generic _ _ => true
  | .nilable _ => false
  | .union _ => false

def RbsTy.enclose (t : RbsTy) (text : Text) : Text :=
  if t.isAtom then text else '(' :: (text ++ [')'])

mutual

def RbsTy.text : RbsTy → Text
  | .simple name => name.toList
  | .generic name args =>
    (if name = "__tuple" then [] else name.toList) ++
      '[' :: (separated ", ".toList (RbsTy.texts args) ++ [']'])
  | .nilable t => t.enclose t.text ++ ['?']
  | .union parts => separated " | ".toList (RbsTy.groups parts)

def RbsTy.texts : List RbsTy → List Text
  | [] => []
  | t :: ts => t.text :: RbsTy.texts ts

def RbsTy.groups : List RbsTy → List Text
  | [] => []
  | t :: ts => t.enclose t.text :: RbsTy.groups ts

end

def RbsParam.text : RbsParam → Text
  | .required t => t.text
  | .optional t => '?' :: t.text
  | .keyword name t true => name.toList ++ ':' :: ' ' :: t.text
  | .keyword name t false => '?' :: (name.toList ++ ':' :: ' ' :: t.text)

def RbsSig.text (sig : RbsSig) : Text :=
  (if sig.typeParams = [] then []
    else '[' :: (separated ", ".toList (sig.typeParams.map String.toList) ++ "] ".toList)) ++
  '(' :: (separated ", ".toList (sig.params.map RbsParam.text) ++ (") -> ".toList ++ sig.ret.text))

/-! ### Signatures that have a text -/

mutual

/-- Names are names, unions have parts, and a type has one or two arguments. -/
def RbsTy.Writable : RbsTy → Prop
  | .simple name => IsName name.toList
  | .generic name args =>
    (name = "__tuple" ∨ IsName name.toList ∧ args.length ≤ 2) ∧ args ≠ [] ∧
      RbsTy.AllWritable args
  | .nilable t => t.Writable
  | .union parts => 2 ≤ parts.length ∧ RbsTy.AllWritable parts

def RbsTy.AllWritable : List RbsTy → Prop
  | [] => True
  | t :: ts => t.Writable ∧ RbsTy.AllWritable ts

end

theorem RbsTy.allWritable_iff {ts : List RbsTy} : RbsTy.AllWritable ts ↔ ∀ t ∈ ts, t.Writable := by
  induction ts with
  | nil => simp [RbsTy.AllWritable]
  | cons t ts ih => rw [RbsTy.AllWritable, ih, List.forall_mem_cons]

/-- A keyword that must be given begins with a lowercase letter. -/
def RbsParam.Writable : RbsParam → Prop
  | .required t => t.Writable
  | .optional t => t.Writable
  | .keyword name t isRequired =>
    IsName name.toList ∧ t.Writable ∧ (isRequired = true → startsLowercase name.toList = true)

structure RbsSig.Writable (sig : RbsSig) : Prop where
  typeParams : ∀ name ∈ sig.typeParams, IsName name.toList
  params : ∀ p ∈ sig.params, p.Writable
  ret : sig.ret.Writable

namespace RbsComment

open Parsing

/-! ### Names -/

section Names

variable {name rest : Text}

theorem spanIdent_idem (s : Text) : spanIdent (spanIdent s).1 = ((spanIdent s).1, []) := by
  induction s using spanIdent.induct with
  | case1 rest ih => simp [spanIdent, ih]
  | case2 c rest hcolon hc ih =>
    have hspan : spanIdent (c :: rest) = (c :: (spanIdent rest).1, (spanIdent rest).2) := by
      rw [spanIdent.eq_2 _ _ hcolon, if_pos hc]
    have hne : c ≠ ':' := by
      rintro rfl
      exact absurd hc (by decide)
    rw [hspan, spanIdent.eq_2 _ _ fun _ heq _ ↦ hne heq, if_pos hc, ih]
  | case3 c rest hcolon hc =>
    rw [spanIdent.eq_2 _ _ hcolon, if_neg hc]
    rfl
  | case4 => rfl

/-- What the parser takes for an identifier is a name. -/
theorem isName_span {s : Text} (h : (spanIdent s).1 ≠ []) : IsName (spanIdent s).1 :=
  ⟨h, spanIdent_idem s⟩

theorem spanIdent_append_of_stop (hname : spanIdent name = (name, []))
    (hrest : spanIdent rest = ([], rest)) : spanIdent (name ++ rest) = (name, rest) := by
  induction name using spanIdent.induct with
  | case1 text ih =>
    have htext : spanIdent text = (text, []) := by
      simpa [spanIdent, Prod.ext_iff] using hname
    rw [List.cons_append, List.cons_append, spanIdent, ih htext]
  | case2 c text hcolon hc ih =>
    have hne : c ≠ ':' := by
      rintro rfl
      exact absurd hc (by decide)
    have htext : spanIdent text = (text, []) := by
      rw [spanIdent.eq_2 _ _ hcolon, if_pos hc] at hname
      simpa [Prod.ext_iff] using hname
    rw [List.cons_append, spanIdent.eq_2 _ _ fun _ heq _ ↦ hne heq, if_pos hc, ih htext]
  | case3 c text hcolon hc =>
    rw [spanIdent.eq_2 _ _ hcolon, if_neg hc] at hname
    cases hname
  | case4 => exact hrest

/-- The first character of a name. -/
theorem IsName.exists_cons (h : IsName name) :
    ∃ c tail, name = c :: tail ∧ (isIdentByte c = true ∨ c = ':') := by
  obtain ⟨c, tail, rfl⟩ := List.exists_cons_of_ne_nil h.1
  have hmem : c ∈ (spanIdent (c :: tail)).1 := by
    rw [h.2]
    exact List.mem_cons_self
  exact ⟨c, tail, rfl, isIdentByte_of_mem_span hmem⟩

/-- A name begins with none of the signs. -/
theorem IsName.head_ne (h : IsName name) {d : Char} (hbyte : isIdentByte d = false)
    (hcolon : d ≠ ':') : (name ++ rest).head? ≠ some d := by
  obtain ⟨c, tail, rfl, hc⟩ := h.exists_cons
  intro heq
  obtain rfl : c = d := Option.some.inj heq
  rcases hc with hc | rfl
  · rw [hbyte] at hc
    cases hc
  · exact hcolon rfl

theorem IsName.dropBlanks (h : IsName name) : (name ++ rest).dropWhile isBlank = name ++ rest := by
  obtain ⟨c, tail, rfl, hc⟩ := h.exists_cons
  refine List.dropWhile_cons_of_neg ?_
  rcases hc with hc | rfl
  · simp [isBlank_of_isIdentByte hc]
  · decide

end Names

/-! ### What follows -/

section Follows

/-- The rest begins with one of the characters, or is empty. -/
def Follows (signs : List Char) (rest : Text) : Prop := ∀ c ∈ rest.head?, c ∈ signs

def typeEnds : List Char := [',', ')', ']']

def atomEnds : List Char := [',', ')', ']', ' ', '?']

variable {signs : List Char} {rest : Text}

theorem Follows.mono {signs' : List Char} (h : Follows signs rest) (hsub : signs ⊆ signs') :
    Follows signs' rest := fun c hc ↦ hsub (h c hc)

theorem Follows.head_ne (h : Follows signs rest) {c : Char} (hc : c ∉ signs) :
    rest.head? ≠ some c := fun heq ↦ hc (h c heq)

theorem Follows.span (h : Follows atomEnds rest) : spanIdent rest = ([], rest) := by
  refine spanIdent_of_ends fun c hc ↦ ?_
  have hall : ∀ c ∈ atomEnds, isIdentByte c = false ∧ c ≠ ':' := by
    simp [atomEnds, isIdentByte]
  exact hall c (h c hc)

theorem Follows.dropBlanks (h : Follows typeEnds rest) : rest.dropWhile isBlank = rest := by
  cases rest with
  | nil => rfl
  | cons c rest =>
    have hall : ∀ c ∈ typeEnds, isBlank c = false := by
      simp [typeEnds, isBlank]
    exact List.dropWhile_cons_of_neg (by simp [hall c (h c rfl)])

theorem follows_cons {c : Char} (hc : c ∈ signs) : Follows signs (c :: rest) := by
  intro d hd
  exact Option.some.inj hd ▸ hc

end Follows

/-! ### How a type begins -/

section Leading

/-- A parenthesis, a bracket, or a name that no colon follows. -/
inductive Leads : Text → Prop
  | paren (tail : Text) : Leads ('(' :: tail)
  | bracket (tail : Text) : Leads ('[' :: tail)
  | name {name tail : Text} (h : IsName name) (htail : Follows ['[', '?', ' '] tail) :
      Leads (name ++ tail)

theorem Leads.append {s tail : Text} (h : Leads s) (htail : Follows ['[', '?', ' '] tail) :
    Leads (s ++ tail) := by
  cases h with
  | paren _ => exact .paren _
  | bracket _ => exact .bracket _
  | @name name tail' hname htail' =>
    rw [List.append_assoc]
    cases tail' with
    | nil => exact .name hname htail
    | cons c tail' => exact .name hname (follows_cons (htail' c rfl))

theorem leads_enclose {t : RbsTy} (h : t.Writable) : Leads (t.enclose t.text) := by
  cases t with
  | simple name =>
    have hname := Leads.name h (fun _ hc ↦ nomatch hc : Follows ['[', '?', ' '] [])
    rw [List.append_nil] at hname
    exact hname
  | generic name args =>
    rw [RbsTy.enclose, RbsTy.isAtom, if_pos rfl, RbsTy.text]
    obtain ⟨hname, -, -⟩ := h
    by_cases htuple : name = "__tuple"
    · rw [if_pos htuple]
      exact .bracket _
    · rw [if_neg htuple]
      exact .name (hname.resolve_left htuple).1 (follows_cons (by decide))
  | nilable _ => exact .paren _
  | union _ => exact .paren _

theorem leads_text {t : RbsTy} (h : t.Writable) : Leads t.text := by
  cases t with
  | simple name => exact leads_enclose h
  | generic name args => exact leads_enclose h
  | nilable inner =>
    have hopens : Leads (inner.enclose inner.text ++ ['?']) :=
      (leads_enclose (t := inner) h).append (follows_cons (by decide))
    exact hopens
  | union parts =>
    obtain ⟨hlength, hparts⟩ := h
    obtain ⟨part, parts, rfl⟩ := List.exists_cons_of_length_pos (by omega : 0 < parts.length)
    refine (leads_enclose hparts.1).append fun c hc ↦ ?_
    cases parts with
    | nil => cases hc
    | cons part' parts =>
      obtain rfl : ' ' = c := Option.some.inj hc
      exact List.mem_of_elem_eq_true rfl

variable {s rest : Text}

theorem Leads.dropBlanks (h : Leads s) : (s ++ rest).dropWhile isBlank = s ++ rest := by
  cases h with
  | paren _ => exact List.dropWhile_cons_of_neg (by decide)
  | bracket _ => exact List.dropWhile_cons_of_neg (by decide)
  | name hname _ =>
    rw [List.append_assoc]
    exact hname.dropBlanks

theorem Leads.head_ne (h : Leads s) {d : Char} (hbyte : isIdentByte d = false)
    (hd : d ∉ [':', '(', '[']) : (s ++ rest).head? ≠ some d := by
  simp only [List.mem_cons, not_or] at hd
  cases h with
  | paren _ => exact fun heq ↦ hd.2.1 (Option.some.inj heq).symm
  | bracket _ => exact fun heq ↦ hd.2.2.1 (Option.some.inj heq).symm
  | name hname _ =>
    rw [List.append_assoc]
    exact hname.head_ne hbyte hd.1

theorem ends_cons {c : Char} (hbyte : isIdentByte c = false) (hcolon : c ≠ ':') (s : Text) :
    Ends (c :: s) := by
  intro d hd
  exact Option.some.inj hd ▸ ⟨hbyte, hcolon⟩

/-- A type does not begin like a keyword. -/
theorem Leads.keywordIn (h : Leads s) (admits : Text → Bool) (hrest : Follows typeEnds rest) :
    keywordIn admits (s ++ rest) = (none, s ++ rest) := by
  refine if_neg ?_
  rintro ⟨hnil, hcolon, -⟩
  cases h with
  | paren tail => exact hnil (congrArg Prod.fst (spanIdent_of_ends (ends_cons rfl (by decide) _)))
  | bracket tail => exact hnil (congrArg Prod.fst (spanIdent_of_ends (ends_cons rfl (by decide) _)))
  | @name name tail hname htail =>
    have htail' : Follows ('[' :: atomEnds) (tail ++ rest) := by
      cases tail with
      | nil => exact hrest.mono (by decide)
      | cons c tail =>
        have hsub : ['[', '?', ' '] ⊆ '[' :: atomEnds := by decide
        exact follows_cons (hsub (htail c rfl))
    have hends : Ends (tail ++ rest) := by
      have hall : ∀ c ∈ '[' :: atomEnds, isIdentByte c = false ∧ c ≠ ':' := by
        simp [atomEnds, isIdentByte]
      exact fun c hc ↦ hall c (htail' c hc)
    rw [List.append_assoc, spanIdent_append_of_stop hname.2 (spanIdent_of_ends hends)] at hcolon
    exact htail'.head_ne (by decide) hcolon

end Leading

/-! ### Reading a type -/

section Reading

variable {α : Type} {p q : ℕ → Parser α} {s s' rest rest' : Text} {a : α} {t r : RbsTy}

/-- The type is read from its text. -/
def Reads (t : RbsTy) : Prop :=
  ∀ {rest : Text}, Follows typeEnds rest → YieldsIn ty (t.text ++ rest) t rest

/-- Read where it stands for itself, in parentheses or not, and with what comes behind it. -/
def AtomReads (t : RbsTy) : Prop :=
  ∀ {rest rest' : Text} {r : RbsTy}, Follows atomEnds rest →
    Yields (postfixNilable t) rest r rest' → YieldsIn primary (t.enclose t.text ++ rest) r rest'

theorem yields_skipWs (h : s.dropWhile isBlank = rest) : Yields skipWs s () rest := by
  rw [← h]
  rfl

theorem yields_peek (s : Text) : Yields peek s s.head? s := rfl

theorem yields_postfix_miss (h : s.head? ≠ some '?') : Yields (postfixNilable t) s t s := by
  unfold postfixNilable
  exact (eat_miss h).bind (Yields.pure t s)

theorem yields_postfix_hit : Yields (postfixNilable t) ('?' :: s) (.nilable t) s := by
  unfold postfixNilable
  exact (eat_hit '?' s).bind (Yields.pure _ s)

/-- The signs that a type may begin with. -/
theorem primary_eq_misses (n : ℕ) (hblank : s.dropWhile isBlank = s) (hquery : s.head? ≠ some '?')
    (hcaret : s.head? ≠ some '^') :
    primary (n + 1) s = (eat '(' >>= fun b ↦ if b = true then grouped (ty n) else
      eat '{' >>= fun b ↦ if b = true then shapeType (shapeLoop n) else
        eat '[' >>= fun b ↦ if b = true then (do
            let args ← bracketedTypes (ty n) (typesLoop n)
            postfixNilable (.generic "__tuple" args))
          else do
            let name ← ident
            if ← opensSingleton name then singletonType (ty n)
            else namedType (bracketedTypes (ty n) (typesLoop n)) name) s := by
  unfold primary
  rw [(yields_skipWs hblank).bind_eq, (eat_miss hquery).bind_eq, if_neg Bool.false_ne_true,
    (eat_miss hcaret).bind_eq, if_neg Bool.false_ne_true]

theorem primary_group (n : ℕ) (s : Text) : primary (n + 1) ('(' :: s) = grouped (ty n) s := by
  rw [primary_eq_misses n (List.dropWhile_cons_of_neg (by decide)) (by simp) (by simp),
    (eat_hit '(' s).bind_eq, if_pos rfl]

theorem primary_tuple (n : ℕ) (s : Text) :
    primary (n + 1) ('[' :: s) = (do
      let args ← bracketedTypes (ty n) (typesLoop n)
      postfixNilable (.generic "__tuple" args)) s := by
  rw [primary_eq_misses n (List.dropWhile_cons_of_neg (by decide)) (by simp) (by simp),
    (eat_miss (by simp)).bind_eq, if_neg Bool.false_ne_true, (eat_miss (by simp)).bind_eq,
    if_neg Bool.false_ne_true, (eat_hit '[' s).bind_eq, if_pos rfl]

theorem primary_name (n : ℕ) {name : Text} (hname : IsName name)
    (hspan : spanIdent rest = ([], rest)) (hopen : rest.head? ≠ some '(') :
    primary (n + 1) (name ++ rest) =
      namedType (bracketedTypes (ty n) (typesLoop n)) name rest := by
  have hident : Yields ident (name ++ rest) name rest := by
    rw [Yields, ident_eq, spanIdent_append_of_stop hname.2 hspan, if_neg hname.1]
  have hsingleton : Yields (opensSingleton name) rest false rest := by
    unfold opensSingleton
    split_ifs
    · exact eat_miss hopen
    · exact Yields.pure false rest
  have hmiss : ∀ c ∈ ['?', '^', '(', '{', '['], (name ++ rest).head? ≠ some c := by
    have hall : ∀ c ∈ ['?', '^', '(', '{', '['], isIdentByte c = false ∧ c ≠ ':' := by
      simp [isIdentByte]
    exact fun c hc ↦ hname.head_ne (hall c hc).1 (hall c hc).2
  rw [primary_eq_misses n hname.dropBlanks (hmiss '?' (by simp)) (hmiss '^' (by simp)),
    (eat_miss (hmiss '(' (by simp))).bind_eq, if_neg Bool.false_ne_true,
    (eat_miss (hmiss '{' (by simp))).bind_eq, if_neg Bool.false_ne_true,
    (eat_miss (hmiss '[' (by simp))).bind_eq, if_neg Bool.false_ne_true, hident.bind_eq,
    hsingleton.bind_eq, if_neg Bool.false_ne_true]

theorem atomReads_simple {name : String} (hname : IsName name.toList) :
    AtomReads (.simple name) := by
  intro rest rest' r hrest hending
  refine YieldsIn.of_succ ?_
  have hname' : ∀ n, primary (n + 1) (name.toList ++ rest) =
      postfixNilable (.simple name) rest := by
    intro n
    rw [primary_name n hname hrest.span (hrest.head_ne (by decide))]
    unfold namedType
    rw [(eat_miss (hrest.head_ne (by decide))).bind_eq, if_neg Bool.false_ne_true,
      String.ofList_toList]
  exact hending.always.of_eq hname'

/-! ### Types in brackets -/

theorem yields_typesLoop {ts : List RbsTy} (hts : ∀ t ∈ ts, t.Writable ∧ Reads t)
    (args : List RbsTy) :
    YieldsIn (fun n ↦ typesLoop n args)
      ((RbsTy.texts ts).flatMap (", ".toList ++ ·) ++ ']' :: rest) (args ++ ts) rest := by
  induction ts generalizing args with
  | nil =>
    rw [List.append_nil]
    refine YieldsIn.of_succ ((Yields.pure args rest).always.of_eq fun n ↦ ?_)
    change typesLoop (n + 1) args (']' :: rest) = _
    rw [typesLoop, (eat_miss (by simp)).bind_eq, if_neg Bool.false_ne_true,
      (eat_hit ']' rest).bind_eq, if_pos rfl]
  | cons t ts ih =>
    rw [List.forall_mem_cons] at hts
    obtain ⟨⟨hwritable, hreads⟩, hts⟩ := hts
    have hrest := ih hts (args ++ [t])
    rw [List.append_assoc] at hrest
    generalize htail : (RbsTy.texts ts).flatMap (", ".toList ++ ·) ++ ']' :: rest = tail at hrest
    have hfollows : Follows typeEnds tail := by
      rw [← htail]
      cases ts with
      | nil => exact follows_cons (by decide)
      | cons t' ts => exact follows_cons (by decide)
    have hnext := (hreads hfollows).bind (f := fun n t ↦ do skipWs; typesLoop n (args ++ [t]))
      (hrest.after (f := fun n _ ↦ typesLoop n (args ++ [t])) (yields_skipWs hfollows.dropBlanks))
    refine YieldsIn.of_succ (hnext.of_eq fun n ↦ ?_)
    have htext : (RbsTy.texts (t :: ts)).flatMap (", ".toList ++ ·) ++ ']' :: rest =
        ',' :: ' ' :: (t.text ++ tail) := by
      simp [RbsTy.texts, ← htail]
    rw [htext]
    have hblank : Yields skipWs (' ' :: (t.text ++ tail)) () (t.text ++ tail) :=
      yields_skipWs ((leads_text hwritable).dropBlanks)
    rw [typesLoop, (eat_hit ',' _).bind_eq, if_pos rfl, hblank.bind_eq]

theorem yields_bracketedTypes {ts : List RbsTy} (hne : ts ≠ [])
    (hts : ∀ t ∈ ts, t.Writable ∧ Reads t) (rest : Text) :
    YieldsIn (fun n ↦ bracketedTypes (ty n) (typesLoop n))
      (separated ", ".toList (RbsTy.texts ts) ++ ']' :: rest) ts rest := by
  obtain ⟨t, ts, rfl⟩ := List.exists_cons_of_ne_nil hne
  rw [List.forall_mem_cons] at hts
  obtain ⟨⟨hwritable, hreads⟩, hts⟩ := hts
  have hrest : YieldsIn (fun n ↦ typesLoop n [t]) _ (t :: ts) rest := yields_typesLoop hts [t]
  have hfollows : Follows typeEnds
      ((RbsTy.texts ts).flatMap (", ".toList ++ ·) ++ ']' :: rest) := by
    cases ts with
    | nil => exact follows_cons (by decide)
    | cons t' ts => exact follows_cons (by decide)
  have hnext := (hreads hfollows).bind (f := fun n first ↦ do skipWs; typesLoop n [first])
    (hrest.after (f := fun n _ ↦ typesLoop n [t]) (yields_skipWs hfollows.dropBlanks))
  have hstart := hnext.after (f := fun n _ ↦ ty n >>= fun first ↦ do skipWs; typesLoop n [first])
    (yields_skipWs (leads_text hwritable).dropBlanks)
  rw [RbsTy.texts, separated, List.append_assoc]
  exact hstart

theorem yields_namedType {name : Text} {args : List RbsTy} (hne : args ≠ [])
    (hlength : args.length ≤ 2) (hargs : ∀ t ∈ args, t.Writable ∧ Reads t) {r : RbsTy}
    (hending : Yields (postfixNilable (.generic (String.ofList name) args)) rest r rest') :
    YieldsIn (fun n ↦ namedType (bracketedTypes (ty n) (typesLoop n)) name)
      ('[' :: (separated ", ".toList (RbsTy.texts args) ++ ']' :: rest)) r rest' := by
  have hnext := (yields_bracketedTypes hne hargs rest).bind
    (f := fun _ args ↦ if 2 < args.length then failPlain "generics support at most 2 type arguments"
      else postfixNilable (.generic (String.ofList name) args))
    (b := r) (by rw [if_neg (Nat.not_lt.mpr hlength)]; exact hending.always)
  refine hnext.of_eq fun n ↦ ?_
  unfold namedType
  rw [(eat_hit '[' _).bind_eq, if_pos rfl]

theorem atomReads_generic {name : String} {args : List RbsTy}
    (h : (RbsTy.generic name args).Writable) (hargs : ∀ t ∈ args, Reads t) :
    AtomReads (.generic name args) := by
  intro rest rest' r hrest hending
  obtain ⟨hname, hne, hwritable⟩ := h
  rw [RbsTy.allWritable_iff] at hwritable
  have hboth : ∀ t ∈ args, t.Writable ∧ Reads t := fun t ht ↦ ⟨hwritable t ht, hargs t ht⟩
  rw [RbsTy.enclose, RbsTy.isAtom, if_pos rfl, RbsTy.text]
  refine YieldsIn.of_succ ?_
  by_cases htuple : name = "__tuple"
  · subst htuple
    rw [if_pos rfl, List.nil_append, List.cons_append, List.append_assoc]
    have hnext := (yields_bracketedTypes hne hboth rest).bind
      (f := fun _ args ↦ postfixNilable (.generic "__tuple" args)) hending.always
    exact hnext.of_eq fun n ↦ primary_tuple n _
  · obtain ⟨hname, hlength⟩ := hname.resolve_left htuple
    rw [if_neg htuple, List.append_assoc, List.cons_append, List.append_assoc]
    have hnext := yields_namedType hne hlength hboth (r := r)
      (by rwa [String.ofList_toList])
    exact hnext.of_eq fun n ↦ primary_name n hname (spanIdent_of_ends (ends_cons rfl (by decide) _))
      (by simp)

/-! ### Terms and unions -/

theorem yields_intersectionTy (h : YieldsIn primary s t rest)
    (hblank : rest.dropWhile isBlank = rest') (hand : rest'.head? ≠ some '&') :
    YieldsIn intersectionTy s t rest' := by
  have hnext := h.bind (f := fun n first ↦ do
      skipWs
      if (← peek) = some '&' then do
        conjuncts n
        return untyped
      else return first)
    (((Yields.pure t rest').always.of_eq fun n ↦ by
      rw [(yields_peek rest').bind_eq, if_neg hand]).after
        (f := fun n _ ↦ peek >>= fun c ↦
          if c = some '&' then conjuncts n >>= fun _ ↦ pure untyped else pure t)
        (yields_skipWs hblank))
  exact YieldsIn.of_succ hnext

theorem yields_ty (h : YieldsIn intersectionTy s t rest) (hrest : Follows typeEnds rest) :
    YieldsIn ty s t rest := by
  have hnext := h.bind (f := fun n first ↦ do
      skipWs
      if (← peek) = some '|' then do
        let parts ← alternatives n [first]
        return .union parts
      else return first)
    (((Yields.pure t rest).always.of_eq fun n ↦ by
      rw [(yields_peek rest).bind_eq, if_neg (hrest.head_ne (by decide))]).after
        (f := fun n _ ↦ peek >>= fun c ↦
          if c = some '|' then alternatives n [t] >>= fun parts ↦ pure (.union parts) else pure t)
        (yields_skipWs hrest.dropBlanks))
  exact YieldsIn.of_succ hnext

theorem yields_ty_of_primary (h : YieldsIn primary s t rest) (hrest : Follows typeEnds rest) :
    YieldsIn ty s t rest :=
  yields_ty (yields_intersectionTy h hrest.dropBlanks (hrest.head_ne (by decide))) hrest

theorem reads_of_isAtom (hatom : t.isAtom = true) (h : AtomReads t) : Reads t := by
  intro rest hrest
  have hprimary := h (hrest.mono (by decide : typeEnds ⊆ atomEnds))
    (yields_postfix_miss (hrest.head_ne (by decide)))
  rw [RbsTy.enclose, if_pos hatom] at hprimary
  exact yields_ty_of_primary hprimary hrest

theorem reads_nilable (h : AtomReads t) : Reads (.nilable t) := by
  intro rest hrest
  have hprimary := h (follows_cons (by decide)) (yields_postfix_hit (s := rest))
  rw [RbsTy.text, List.append_assoc]
  exact yields_ty_of_primary hprimary hrest

theorem atomReads_of_reads (hatom : t.isAtom = false) (h : Reads t) : AtomReads t := by
  intro rest rest' r hrest hending
  rw [RbsTy.enclose, if_neg (by simp [hatom]), List.cons_append, List.append_assoc]
  have hclose : Follows typeEnds (')' :: rest) := follows_cons (by decide)
  have hnext := (h hclose).bind (f := fun _ inner ↦ do
      skipWs
      if ← eat ')' then postfixNilable inner else fail "expected `)`")
    (((hending.always.of_eq fun n ↦ by
      rw [(eat_hit ')' rest).bind_eq, if_pos rfl]).after
        (f := fun _ _ ↦ eat ')' >>= fun b ↦
          if b = true then postfixNilable t else fail "expected `)`")
        (yields_skipWs hclose.dropBlanks)))
  exact YieldsIn.of_succ (hnext.of_eq fun n ↦ primary_group n _)

/-- What stands behind a part of a union. -/
def moreParts (ts : List RbsTy) (rest : Text) : Text :=
  (RbsTy.groups ts).flatMap (" | ".toList ++ ·) ++ rest

theorem moreParts_cons (t : RbsTy) (ts : List RbsTy) (rest : Text) :
    moreParts (t :: ts) rest = ' ' :: '|' :: ' ' :: (t.enclose t.text ++ moreParts ts rest) := by
  simp [moreParts, RbsTy.groups]

theorem follows_moreParts (ts : List RbsTy) (hrest : Follows typeEnds rest) :
    Follows atomEnds (moreParts ts rest) ∧ (moreParts ts rest).head? ≠ some '?' ∧
      ((moreParts ts rest).dropWhile isBlank).head? ≠ some '&' := by
  cases ts with
  | nil =>
    refine ⟨hrest.mono (by decide), hrest.head_ne (by decide), ?_⟩
    change (rest.dropWhile isBlank).head? ≠ _
    rw [hrest.dropBlanks]
    exact hrest.head_ne (by decide)
  | cons t ts =>
    rw [moreParts_cons]
    exact ⟨follows_cons (by decide), by simp, by simp [List.dropWhile, isBlank]⟩

/-- A part, and the blanks behind it. -/
theorem yields_part (h : AtomReads t) (ts : List RbsTy) (hrest : Follows typeEnds rest) :
    YieldsIn intersectionTy (t.enclose t.text ++ moreParts ts rest) t
      ((moreParts ts rest).dropWhile isBlank) := by
  obtain ⟨hfollows, hquery, hand⟩ := follows_moreParts ts hrest
  exact yields_intersectionTy (h hfollows (yields_postfix_miss hquery)) rfl hand

theorem yields_alternatives {ts : List RbsTy} (hts : ∀ t ∈ ts, t.Writable ∧ AtomReads t)
    (hrest : Follows typeEnds rest) (parts : List RbsTy) :
    YieldsIn (fun n ↦ alternatives n parts) ((moreParts ts rest).dropWhile isBlank)
      (parts ++ ts) rest := by
  induction ts generalizing parts with
  | nil =>
    rw [List.append_nil, show moreParts [] rest = rest from rfl, hrest.dropBlanks]
    refine YieldsIn.of_succ ((Yields.pure parts rest).always.of_eq fun n ↦ ?_)
    rw [alternatives, (eat_miss (hrest.head_ne (by decide))).bind_eq, if_neg Bool.false_ne_true]
  | cons t ts ih =>
    rw [List.forall_mem_cons] at hts
    obtain ⟨⟨hwritable, hreads⟩, hts⟩ := hts
    have hmore := ih hts (parts ++ [t])
    rw [List.append_assoc] at hmore
    have hnext := (yields_part hreads ts hrest).bind
      (f := fun n part ↦ do skipWs; alternatives n (parts ++ [part]))
      (hmore.after (f := fun n _ ↦ alternatives n (parts ++ [t]))
        (yields_skipWs (List.dropWhile_idempotent isBlank (moreParts ts rest))))
    have hblank : Yields skipWs (' ' :: (t.enclose t.text ++ moreParts ts rest)) ()
        (t.enclose t.text ++ moreParts ts rest) :=
      yields_skipWs (leads_enclose hwritable).dropBlanks
    have hbar : (moreParts (t :: ts) rest).dropWhile isBlank =
        '|' :: ' ' :: (t.enclose t.text ++ moreParts ts rest) := by
      rw [moreParts_cons]
      rfl
    rw [hbar]
    refine YieldsIn.of_succ (hnext.of_eq fun n ↦ ?_)
    rw [alternatives, (eat_hit '|' _).bind_eq, if_pos rfl, hblank.bind_eq]

theorem reads_union {parts : List RbsTy} (hlength : 2 ≤ parts.length)
    (hparts : ∀ t ∈ parts, t.Writable ∧ AtomReads t) : Reads (.union parts) := by
  intro rest hrest
  obtain ⟨t, ts, rfl⟩ := List.exists_cons_of_length_pos (by omega : 0 < parts.length)
  rw [List.forall_mem_cons] at hparts
  obtain ⟨⟨hwritable, hreads⟩, hts⟩ := hparts
  have hmore : YieldsIn (fun n ↦ alternatives n [t]) _ (t :: ts) rest :=
    yields_alternatives hts hrest [t]
  have hbar : ((moreParts ts rest).dropWhile isBlank).head? = some '|' := by
    obtain ⟨t', ts', rfl⟩ := List.exists_cons_of_length_pos
      (by rw [List.length_cons] at hlength; omega : 0 < ts.length)
    rw [moreParts_cons]
    rfl
  have hunion := hmore.bind (f := fun _ parts ↦ pure (RbsTy.union parts))
    (Yields.pure (RbsTy.union (t :: ts)) rest).always
  have hnext := (yields_part hreads ts hrest).bind (f := fun n first ↦ do
      skipWs
      if (← peek) = some '|' then do
        let parts ← alternatives n [first]
        return .union parts
      else return first)
    ((hunion.of_eq fun n ↦ by rw [(yields_peek _).bind_eq, if_pos hbar]).after
      (f := fun n _ ↦ peek >>= fun c ↦
        if c = some '|' then alternatives n [t] >>= fun parts ↦ pure (.union parts) else pure t)
      (yields_skipWs (List.dropWhile_idempotent isBlank (moreParts ts rest))))
  rw [RbsTy.text, RbsTy.groups, separated, List.append_assoc]
  exact YieldsIn.of_succ hnext

end Reading

mutual

theorem reads_both : ∀ {t : RbsTy}, t.Writable → AtomReads t ∧ Reads t
  | .simple _, h => ⟨atomReads_simple h, reads_of_isAtom rfl (atomReads_simple h)⟩
  | .generic name args, h =>
    have hargs := reads_all h.2.2
    have hatom : AtomReads (.generic name args) := atomReads_generic h fun t ht ↦ (hargs t ht).2
    ⟨hatom, reads_of_isAtom rfl hatom⟩
  | .nilable t, h =>
    have hreads : Reads (.nilable t) := reads_nilable (reads_both (t := t) h).1
    ⟨atomReads_of_reads rfl hreads, hreads⟩
  | .union parts, h =>
    have hparts := reads_all h.2
    have hreads : Reads (.union parts) := reads_union h.1 fun t ht ↦
      ⟨RbsTy.allWritable_iff.mp h.2 t ht, (hparts t ht).1⟩
    ⟨atomReads_of_reads rfl hreads, hreads⟩

theorem reads_all : ∀ {ts : List RbsTy}, RbsTy.AllWritable ts →
    ∀ t ∈ ts, AtomReads t ∧ Reads t
  | [], _ => fun _ h ↦ absurd h List.not_mem_nil
  | _ :: _, h => List.forall_mem_cons.mpr ⟨reads_both h.1, reads_all h.2⟩

end

/-! ### Reading parameters -/

section Params

variable {rest : Text} {p : RbsParam}

theorem yields_skipParamName (hrest : Follows typeEnds rest) :
    Yields skipParamName rest () rest := by
  have hnone : Yields tryIdent rest none rest := by
    rw [Yields, tryIdent_eq, (hrest.mono (by decide : typeEnds ⊆ atomEnds)).span, if_pos rfl]
  unfold skipParamName
  exact (yields_skipWs hrest.dropBlanks).bind (hnone.bind (Yields.pure () rest))

/-- A type, the name that may follow it, and what is made of the type. -/
theorem yields_positional {t : RbsTy} (h : Reads t) (hrest : Follows typeEnds rest)
    (make : RbsTy → RbsParam) :
    YieldsIn (fun n ↦ ty n >>= fun t ↦ skipParamName >>= fun _ ↦ pure (some (make t)))
      (t.text ++ rest) (some (make t)) rest := by
  have hnamed : Yields (skipParamName >>= fun _ ↦ pure (some (make t))) rest (some (make t)) rest :=
    (yields_skipParamName hrest).bind (Yields.pure _ rest)
  exact (h hrest).bind (f := fun _ t ↦ skipParamName >>= fun _ ↦ pure (some (make t)))
    hnamed.always

/-- `name: T` -/
theorem yields_keywordName {name : Text} (hname : IsName name) {admits : Text → Bool}
    (hadmits : admits name = true) (s : Text) :
    Yields (keywordName admits) (name ++ ':' :: ' ' :: s) (some name) (' ' :: s) := by
  have hspan : spanIdent (name ++ ':' :: ' ' :: s) = (name, ':' :: ' ' :: s) :=
    spanIdent_append_of_stop hname.2 rfl
  rw [Yields, keywordName_eq]
  unfold keywordIn
  rw [hspan]
  dsimp only
  rw [if_pos ⟨hname.1, rfl, by simp, hadmits⟩]
  rfl

/-- A type may have a blank before it. -/
theorem ty_blank (n : ℕ) (s : Text) : ty (n + 3) (' ' :: s) = ty (n + 3) s := by
  have hblanks : skipWs (' ' :: s) = skipWs s := rfl
  have hprimary : primary (n + 1) (' ' :: s) = primary (n + 1) s := by
    rw [primary]
    exact bind_congr_state hblanks _
  have hterm : intersectionTy (n + 2) (' ' :: s) = intersectionTy (n + 2) s := by
    rw [intersectionTy]
    exact bind_congr_state hprimary _
  rw [ty]
  exact bind_congr_state hterm _

theorem Reads.afterBlank {t : RbsTy} (h : Reads t) (hrest : Follows typeEnds rest) :
    YieldsIn ty (' ' :: (t.text ++ rest)) t rest :=
  (h hrest).of_eq_add 3 fun n ↦ ty_blank n _

/-- A parameter without a sign before it. -/
theorem param_plain (t : Parser RbsTy) {s : Text} (hblank : s.dropWhile isBlank = s)
    (hstar : s.head? ≠ some '*') (hquery : s.head? ≠ some '?') :
    param t s = requiredOrKeywordParam t s := by
  unfold param
  rw [(yields_skipWs hblank).bind_eq, (yields_peek s).bind_eq, if_neg hstar,
    (eat_miss hquery).bind_eq, if_neg Bool.false_ne_true]

theorem param_optional (t : Parser RbsTy) (s : Text) :
    param t ('?' :: s) = optionalParam t s := by
  have hsign : Yields skipWs ('?' :: s) () ('?' :: s) :=
    yields_skipWs (List.dropWhile_cons_of_neg (by decide))
  unfold param
  rw [hsign.bind_eq, (yields_peek _).bind_eq, if_neg (by simp), (eat_hit '?' s).bind_eq,
    if_pos rfl]

theorem yields_param (h : p.Writable) (hrest : Follows typeEnds rest) :
    YieldsIn (fun n ↦ param (ty n)) (p.text ++ rest) (some p) rest := by
  cases p with
  | required t =>
    have hleads := leads_text h
    have hnone : Yields (keywordName startsLowercase) (t.text ++ rest) none (t.text ++ rest) :=
      (keywordName_eq _ _).trans (congrArg Except.ok (hleads.keywordIn _ hrest))
    refine (yields_positional (reads_both h).2 hrest .required).of_eq fun n ↦ ?_
    rw [RbsParam.text, param_plain _ hleads.dropBlanks (hleads.head_ne rfl (by decide))
      (hleads.head_ne rfl (by decide))]
    unfold requiredOrKeywordParam
    rw [hnone.bind_eq]
  | optional t =>
    have hleads := leads_text h
    have hnone : Yields (keywordName fun _ ↦ true) (t.text ++ rest) none (t.text ++ rest) :=
      (keywordName_eq _ _).trans (congrArg Except.ok (hleads.keywordIn _ hrest))
    refine (yields_positional (reads_both h).2 hrest .optional).of_eq fun n ↦ ?_
    rw [RbsParam.text, List.cons_append, param_optional]
    unfold optionalParam
    rw [(yields_skipWs hleads.dropBlanks).bind_eq, hnone.bind_eq]
  | keyword name t isRequired =>
    obtain ⟨hname, hwritable, hlower⟩ := h
    have hreads : Reads t := (reads_both hwritable).2
    have hmake : Yields
        (pure (some (RbsParam.keyword (String.ofList name.toList) t isRequired)) :
          Parser (Option RbsParam)) rest (some (.keyword name t isRequired)) rest := by
      rw [String.ofList_toList]
      exact Yields.pure _ rest
    have hafter := (hreads.afterBlank hrest).bind
      (f := fun _ t ↦ pure (some (RbsParam.keyword (String.ofList name.toList) t isRequired)))
      hmake.always
    refine hafter.of_eq fun n ↦ ?_
    cases isRequired with
    | true =>
      rw [RbsParam.text, List.append_assoc, List.cons_append, List.cons_append,
        param_plain _ hname.dropBlanks (hname.head_ne rfl (by decide))
          (hname.head_ne rfl (by decide))]
      unfold requiredOrKeywordParam
      rw [(yields_keywordName hname (hlower rfl) _).bind_eq]
    | false =>
      rw [RbsParam.text, List.cons_append, List.append_assoc, List.cons_append, List.cons_append,
        param_optional]
      unfold optionalParam
      rw [(yields_skipWs hname.dropBlanks).bind_eq, (yields_keywordName hname rfl _).bind_eq]

/-- A parameter begins with none of these. -/
theorem param_head_ne (h : p.Writable) (rest : Text) {d : Char} (hd : d ∈ [' ', '\t', ')']) :
    (p.text ++ rest).head? ≠ some d := by
  have hall : ∀ d ∈ [' ', '\t', ')'], isIdentByte d = false ∧ d ∉ [':', '(', '[', '?'] := by
    simp [isIdentByte]
  obtain ⟨hbyte, hsigns⟩ := hall d hd
  cases p with
  | required t => exact (leads_text h).head_ne hbyte (by simp_all)
  | optional t =>
    intro heq
    obtain rfl : '?' = d := Option.some.inj heq
    exact hsigns (by decide)
  | keyword name t isRequired =>
    cases isRequired with
    | true =>
      rw [RbsParam.text, List.append_assoc]
      exact h.1.head_ne hbyte (by simp_all)
    | false =>
      intro heq
      obtain rfl : '?' = d := Option.some.inj heq
      exact hsigns (by decide)

theorem param_dropBlanks (h : p.Writable) (rest : Text) :
    (p.text ++ rest).dropWhile isBlank = p.text ++ rest := by
  have hspace := param_head_ne h rest (by decide : ' ' ∈ [' ', '\t', ')'])
  have htab := param_head_ne h rest (by decide : '\t' ∈ [' ', '\t', ')'])
  cases htext : p.text ++ rest with
  | nil => rfl
  | cons c tail =>
    rw [htext] at hspace htab
    refine List.dropWhile_cons_of_neg ?_
    simpa [isBlank] using ⟨fun hc ↦ hspace (hc ▸ rfl), fun hc ↦ htab (hc ▸ rfl)⟩

/-- What stands behind a parameter. -/
def moreParams (ps : List RbsParam) (rest : Text) : Text :=
  (ps.map RbsParam.text).flatMap (", ".toList ++ ·) ++ ')' :: rest

theorem moreParams_cons (p : RbsParam) (ps : List RbsParam) (rest : Text) :
    moreParams (p :: ps) rest = ',' :: ' ' :: (p.text ++ moreParams ps rest) := by
  simp [moreParams]

theorem follows_moreParams (ps : List RbsParam) : Follows typeEnds (moreParams ps rest) := by
  cases ps with
  | nil => exact follows_cons (by decide)
  | cons p ps => exact follows_cons (by decide)

/-- What the loop does behind a parameter. -/
def afterParam (n : ℕ) (params : List RbsParam) (found : Option RbsParam) :
    Parser (List RbsParam) := do
  skipWs
  if ← eat ',' then do
    skipWs
    paramLoop n (params ++ found.toList)
  else if ← eat ')' then return params ++ found.toList
  else fail "expected `,` or `)`"

theorem yields_paramLoop {ps : List RbsParam} (h : p.Writable) (hps : ∀ p ∈ ps, p.Writable)
    (params : List RbsParam) :
    YieldsIn (fun n ↦ paramLoop n params) (p.text ++ moreParams ps rest) (params ++ p :: ps)
      rest := by
  suffices hafter : YieldsIn (fun n ↦ afterParam n params (some p)) (moreParams ps rest)
      (params ++ p :: ps) rest from
    YieldsIn.of_succ ((yields_param h (follows_moreParams ps)).bind
      (f := fun n ↦ afterParam n params) hafter)
  induction ps generalizing p params with
  | nil =>
    refine (Yields.pure (params ++ [p]) rest).always.of_eq fun n ↦ ?_
    have hclose : Yields skipWs (moreParams [] rest) () (')' :: rest) :=
      yields_skipWs (follows_moreParams []).dropBlanks
    unfold afterParam
    rw [hclose.bind_eq, (eat_miss (by simp)).bind_eq, if_neg Bool.false_ne_true,
      (eat_hit ')' rest).bind_eq, if_pos rfl]
    rfl
  | cons p' ps ih =>
    rw [List.forall_mem_cons] at hps
    have hmore : YieldsIn (fun n ↦ paramLoop n (params ++ [p])) (p'.text ++ moreParams ps rest)
        (params ++ [p] ++ p' :: ps) rest :=
      YieldsIn.of_succ ((yields_param hps.1 (follows_moreParams ps)).bind
        (f := fun n ↦ afterParam n (params ++ [p])) (ih hps.1 hps.2 (params ++ [p])))
    rw [List.append_assoc] at hmore
    refine hmore.of_eq fun n ↦ ?_
    have hcomma : Yields skipWs (moreParams (p' :: ps) rest) ()
        (',' :: ' ' :: (p'.text ++ moreParams ps rest)) := by
      rw [moreParams_cons]
      rfl
    have hblank : Yields skipWs (' ' :: (p'.text ++ moreParams ps rest)) ()
        (p'.text ++ moreParams ps rest) := yields_skipWs (param_dropBlanks hps.1 _)
    unfold afterParam
    rw [hcomma.bind_eq, (eat_hit ',' _).bind_eq, if_pos rfl, hblank.bind_eq]
    rfl

/-- The parameters, without blanks next to the parentheses. -/
theorem yields_paramList {ps : List RbsParam} (hps : ∀ p ∈ ps, p.Writable) :
    YieldsIn (fun n ↦ Parser.paramList (paramLoop n))
      (separated ", ".toList (ps.map RbsParam.text) ++ ')' :: rest) ps rest := by
  cases ps with
  | nil => exact (Yields.pure [] rest).always
  | cons p ps =>
    rw [List.forall_mem_cons] at hps
    have hblank := yields_skipWs (param_dropBlanks hps.1 (moreParams ps rest))
    have hclose : (p.text ++ moreParams ps rest).head? ≠ some ')' :=
      param_head_ne hps.1 _ (by decide)
    have hloop : YieldsIn (fun n ↦ paramLoop n []) (p.text ++ moreParams ps rest) (p :: ps) rest :=
      yields_paramLoop hps.1 hps.2 []
    rw [List.map_cons, separated, List.append_assoc]
    refine hloop.of_eq fun n ↦ ?_
    unfold Parser.paramList
    change (skipWs >>= fun _ ↦ _) (p.text ++ moreParams ps rest) = _
    rw [hblank.bind_eq, (eat_miss hclose).bind_eq, if_neg Bool.false_ne_true]

end Params

/-! ### Reading a signature -/

section Signature

variable {rest : Text}

/-- Names with commas between them, up to the bracket. -/
theorem scanned_names {name : Text} {names : List Text} (hname : IsName name)
    (hnames : ∀ name ∈ names, IsName name) (found : List Text) {s : Text}
    (hs : s.dropWhile isBlank = name ++ (names.flatMap (", ".toList ++ ·) ++ ']' :: rest)) :
    scanned 1 true found s = .ok (found ++ name :: names, rest) := by
  induction names generalizing name found s with
  | nil =>
    have hspan : spanIdent (s.dropWhile isBlank) = (name, ']' :: rest) := by
      rw [hs]
      exact spanIdent_append_of_stop hname.2 rfl
    have hstarts : StartsName s = true := by
      rw [StartsName, hspan]
      simpa using hname.1
    rw [scanned_name hstarts, hspan]
    exact scanned_end _ rest false
  | cons name' names ih =>
    rw [List.forall_mem_cons] at hnames
    have htail : (name' :: names).flatMap (", ".toList ++ ·) ++ ']' :: rest =
        ',' :: ' ' :: (name' ++ (names.flatMap (", ".toList ++ ·) ++ ']' :: rest)) := by
      simp
    rw [htail] at hs
    have hspan : spanIdent (s.dropWhile isBlank) =
        (name, ',' :: ' ' :: (name' ++ (names.flatMap (", ".toList ++ ·) ++ ']' :: rest))) := by
      rw [hs]
      exact spanIdent_append_of_stop hname.2 rfl
    have hstarts : StartsName s = true := by
      rw [StartsName, hspan]
      simpa using hname.1
    have hblank : (' ' :: (name' ++ (names.flatMap (", ".toList ++ ·) ++ ']' :: rest))).dropWhile
        isBlank = name' ++ (names.flatMap (", ".toList ++ ·) ++ ']' :: rest) :=
      hnames.1.dropBlanks
    have hmore := ih hnames.1 hnames.2 (found ++ [name]) hblank
    rw [List.append_assoc] at hmore
    rw [scanned_name hstarts, hspan, scanned_cons one_ne_zero (by simp)]
    exact hmore

theorem yields_parseTypeParams {name : Text} {names : List Text} (hname : IsName name)
    (hnames : ∀ name ∈ names, IsName name) (rest : Text) :
    Yields parseTypeParams ('[' :: (separated ", ".toList (name :: names) ++ ']' :: rest))
      (name :: names) rest := by
  have hblanks : Yields skipWs ('[' :: (separated ", ".toList (name :: names) ++ ']' :: rest)) ()
    ('[' :: (separated ", ".toList (name :: names) ++ ']' :: rest)) := rfl
  have hscan := scanned_names (s := separated ", ".toList (name :: names) ++ ']' :: rest)
    hname hnames [] (by rw [separated, List.append_assoc]; exact hname.dropBlanks)
  unfold Yields parseTypeParams
  rw [hblanks.bind_eq, (eat_hit '[' _).bind_eq, if_pos rfl]
  exact hscan

/-- The list of type parameters in front, when there is one. -/
theorem yields_typeParams {names : List String} (hnames : ∀ name ∈ names, IsName name.toList)
    (s : Text) : ∃ s₁ s₂, Yields skipWs ((if names = [] then []
        else '[' :: (separated ", ".toList (names.map String.toList) ++ "] ".toList)) ++ '(' :: s)
        () s₁ ∧
      Yields parseTypeParams s₁ (names.map String.toList) s₂ ∧ Yields skipWs s₂ () ('(' :: s) := by
  cases names with
  | nil => exact ⟨'(' :: s, '(' :: s, rfl, rfl, rfl⟩
  | cons name names =>
    rw [List.forall_mem_cons] at hnames
    have hmore : ∀ name ∈ names.map String.toList, IsName name := by simpa using hnames.2
    have hlist := yields_parseTypeParams hnames.1 hmore (' ' :: '(' :: s)
    rw [if_neg (List.cons_ne_nil _ _), List.cons_append, List.append_assoc]
    exact ⟨_, _, rfl, hlist, rfl⟩

theorem yields_sigParams {ps : List RbsParam} (hps : ∀ p ∈ ps, p.Writable) (rest : Text) :
    YieldsIn sigParams ('(' :: (separated ", ".toList (ps.map RbsParam.text) ++ ')' :: rest)) ps
      rest :=
  (yields_paramList hps).of_eq fun n ↦ by
    unfold sigParams
    rw [(eat_hit '(' _).bind_eq, if_pos rfl]

/-- Behind the arrow: the result, and nothing else. -/
theorem yields_ret {t : RbsTy} (h : t.Writable) (params : List RbsParam)
    (typeParams : List Text) :
    YieldsIn (fun n ↦ ty n >>= fun ret ↦ skipWs >>= fun _ ↦ atEnd >>= fun _ ↦
        pure (RbsSig.mk params ret (typeParams.map String.ofList))) (' ' :: t.text)
      ⟨params, t, typeParams.map String.ofList⟩ [] := by
  have hnil : Follows typeEnds [] := fun c hc ↦ by cases hc
  have hreads : Reads t := (reads_both h).2
  have hty := hreads.afterBlank hnil
  rw [List.append_nil] at hty
  refine hty.bind (f := fun _ ret ↦ skipWs >>= fun _ ↦ atEnd >>= fun _ ↦
    pure (RbsSig.mk params ret (typeParams.map String.ofList))) (Yields.always ?_)
  have hend : Yields atEnd [] () [] := rfl
  exact (yields_skipWs rfl).bind (hend.bind (Yields.pure _ _))

theorem yields_signature {sig : RbsSig} (h : sig.Writable) :
    YieldsIn signature sig.text sig [] := by
  obtain ⟨params, ret, typeParams⟩ := sig
  have hstrings : (typeParams.map String.toList).map String.ofList = typeParams := by
    simp [List.map_map, Function.comp_def, String.ofList_toList]
  suffices hwhole : YieldsIn signature (RbsSig.text ⟨params, ret, typeParams⟩)
      ⟨params, ret, (typeParams.map String.toList).map String.ofList⟩ [] by
    rwa [hstrings] at hwhole
  obtain ⟨s₁, s₂, hstart, hnames, hopen⟩ := yields_typeParams h.typeParams
    (separated ", ".toList (params.map RbsParam.text) ++ (") -> ".toList ++ ret.text))
  obtain ⟨b, hparams⟩ := yields_sigParams h.params (" -> ".toList ++ ret.text)
  obtain ⟨b', hret⟩ := yields_ret h.ret params (typeParams.map String.toList)
  refine ⟨max b b', fun n hn ↦ ?_⟩
  have hparams := hparams n (le_of_max_le_left hn)
  have hret := hret n (le_of_max_le_right hn)
  have hblank : Yields skipWs (" -> ".toList ++ ret.text) () ("-> ".toList ++ ret.text) := rfl
  have hblock : Yields (skipBlockType n) ("-> ".toList ++ ret.text) ()
    ("-> ".toList ++ ret.text) := rfl
  have hsame : Yields skipWs ("-> ".toList ++ ret.text) () ("-> ".toList ++ ret.text) := rfl
  have harrow : Yields eatArrow ("-> ".toList ++ ret.text) true (' ' :: ret.text) := rfl
  unfold signature
  exact hstart.bind (hnames.bind (hopen.bind (hparams.bind (hblank.bind (hblock.bind
    (hsame.bind (harrow.bind hret)))))))

theorem parse_of_yields {input : Text} {sig : RbsSig} (h : YieldsIn signature input sig []) :
    parseRbsComment input = .ok sig := by
  obtain ⟨bound, hbound⟩ := h
  rw [parseRbsComment_eq (le_max_left (8 * (input.length + 1)) bound),
    show signature (max _ bound) input = _ from hbound _ (le_max_right _ _)]
  rfl

/-- A signature is what its text is read as. -/
theorem parseRbsComment_text {sig : RbsSig} (h : sig.Writable) :
    parseRbsComment sig.text = .ok sig :=
  parse_of_yields (yields_signature h)

def sampleSig : RbsSig where
  typeParams := ["T"]
  params := [.required (.simple "::Foo"), .optional (.generic "__tuple" [.simple "A", .simple "B"]),
    .keyword "key" (.nilable (.union [.simple "C", .simple "nil"])) true]
  ret := .generic "Hash" [.simple "T", .nilable (.simple "D")]

theorem sampleSig_text :
    sampleSig.text = "[T] (::Foo, ?[A, B], key: (C | nil)?) -> Hash[T, D?]".toList := by
  rfl

theorem parseRbsComment_text_sample :
    parseRbsComment "[T] (::Foo, ?[A, B], key: (C | nil)?) -> Hash[T, D?]".toList =
      .ok sampleSig := by
  have hparams : ∀ p ∈ sampleSig.params, p.Writable := by
    simp only [sampleSig, List.forall_mem_cons, List.not_mem_nil, false_imp_iff, implies_true,
      and_true, RbsParam.Writable, RbsTy.Writable, RbsTy.AllWritable]
    decide
  have hret : sampleSig.ret.Writable := by
    simp only [sampleSig, RbsTy.Writable, RbsTy.AllWritable, and_true]
    decide
  rw [← sampleSig_text]
  exact parseRbsComment_text ⟨by decide, hparams, hret⟩

end Signature

end RbsComment

end Itaruby
