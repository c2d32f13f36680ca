import Itaruby.Rbs.TypeParams
import Itaruby.Rbs.Types

/-!
The parser of signatures has steps enough. Between two steps that consume nothing there are at most
seven others, so that eight for each character are never used up: more steps give the same result,
and no failure is one for want of steps.
-/

set_option autoImplicit false
set_option relaxedAutoImplicit false

namespace Itaruby.RbsComment

open Parsing

namespace Parser

variable {α β : Type}

/-- No failure of the parser itself. -/
def OutOfSteps (e : Failure) : Prop := e.what = "too deep" ∨ e.what = "too long"

theorem not_outOfSteps {what : String} {rest : Text} {offset : Bool}
    (h : ¬ (what = "too deep" ∨ what = "too long")) : ¬ OutOfSteps ⟨what, rest, offset⟩ := h

abbrev Agrees (k : ℕ) (p q : Parser α) : Prop := Agree List.length OutOfSteps k p q

/-- A parser that takes no steps of its own agrees with itself. -/
abbrev Steady (p : Parser α) : Prop := ∀ k, Agrees k p p

/-! ### The small parsers -/

section Small

variable {k : ℕ}

theorem steady_fail {what : String} (h : ¬ (what = "too deep" ∨ what = "too long")) :
    Steady (fail what : Parser α) :=
  fun _ ↦ {
    same := fun _ _ ↦ rfl
    shrinks := fun _ _ _ _ h ↦ by cases h
    good := fun _ _ _ h' ↦ by cases h'; exact h }

theorem steady_failPlain {what : String} (h : ¬ (what = "too deep" ∨ what = "too long")) :
    Steady (failPlain what : Parser α) :=
  fun _ ↦ {
    same := fun _ _ ↦ rfl
    shrinks := fun _ _ _ _ h ↦ by cases h
    good := fun _ _ _ h' ↦ by cases h'; exact h }

/-- A parser that never fails and never goes back. -/
theorem steady_of_ok {p : Parser α} {f : Text → α × Text} (hp : ∀ s, p s = .ok (f s))
    (hf : ∀ s, (f s).2.length ≤ s.length) : Steady p :=
  fun _ ↦ {
    same := fun _ _ ↦ rfl
    shrinks := fun s a s' _ h ↦ by
      rw [Yields, hp] at h
      have hlength := hf s
      rw [Except.ok.inj h] at hlength
      exact hlength
    good := fun s e _ h ↦ by rw [hp] at h; cases h }

theorem steady_skipWs : Steady skipWs :=
  steady_of_ok (fun _ ↦ rfl) fun _ ↦ (List.dropWhile_sublist _).length_le

theorem steady_peek : Steady peek := steady_of_ok (fun _ ↦ rfl) fun _ ↦ le_rfl

theorem steady_peekSecond : Steady peekSecond := steady_of_ok (fun _ ↦ rfl) fun _ ↦ le_rfl

theorem steady_advance : Steady advance :=
  steady_of_ok (fun _ ↦ rfl) fun s ↦ by
    change s.tail.length ≤ _
    rw [List.length_tail]
    exact Nat.sub_le _ _

theorem eat_eq (c : Char) (s : Text) :
    eat c s = .ok (if s.head? = some c then (true, s.tail) else (false, s)) := by
  cases s with
  | nil => rfl
  | cons d s =>
    unfold eat
    by_cases hd : d = c
    · simp [hd]
    · simp [hd]

theorem eat_hit (c : Char) (s : Text) : Yields (eat c) (c :: s) true s := by
  unfold Yields eat
  exact if_pos rfl

theorem eat_miss {c : Char} {s : Text} (h : s.head? ≠ some c) : Yields (eat c) s false s := by
  rw [Yields, eat_eq, if_neg h]

theorem eat_consumes (c : Char) : Consumes List.length (eat c) true := by
  intro s s' h
  rw [Yields, eat_eq] at h
  split_ifs at h with hhead
  · obtain ⟨rest, rfl⟩ := List.head?_eq_some_iff.mp hhead
    obtain ⟨-, rfl⟩ := Prod.mk.inj (Except.ok.inj h)
    exact Nat.lt_succ_self _
  · cases h

theorem steady_eat (c : Char) : Steady (eat c) :=
  steady_of_ok (eat_eq c) fun s ↦ by
    split_ifs
    · rw [List.length_tail]
      exact Nat.sub_le _ _
    · exact le_rfl

theorem spanIdent_length (s : Text) :
    (spanIdent s).1.length + (spanIdent s).2.length = s.length := by
  rw [← List.length_append, spanIdent_append]

theorem ident_eq (s : Text) :
    ident s = if (spanIdent s).1 = [] then fail "expected identifier" s
      else .ok (spanIdent s) := rfl

theorem steady_ident : Steady ident :=
  fun _ ↦ {
    same := fun _ _ ↦ rfl
    shrinks := fun s a s' _ h ↦ by
      rw [Yields, ident_eq] at h
      have hlength := spanIdent_length s
      split_ifs at h
      · cases h
      · rw [Except.ok.inj h] at hlength
        dsimp only at hlength
        omega
    good := fun s e _ h ↦ by
      rw [ident_eq] at h
      split_ifs at h
      cases h
      exact not_outOfSteps (by decide) }

theorem ident_consumes (name : Text) : Consumes List.length ident name := by
  intro s s' h
  rw [Yields, ident_eq] at h
  have hlength := spanIdent_length s
  split_ifs at h with hnil
  · cases h
  · rw [Except.ok.inj h] at hlength hnil
    have hpos := List.length_pos_iff.mpr hnil
    dsimp only at hlength hpos
    omega

theorem steady_tryIdent : Steady tryIdent := by
  refine steady_of_ok (f := fun s ↦ if (spanIdent s).1 = [] then (none, s)
    else (some (spanIdent s).1, (spanIdent s).2)) (fun s ↦ ?_) fun s ↦ ?_
  · rw [tryIdent_eq]
    split_ifs <;> rfl
  · have hlength := spanIdent_length s
    split_ifs
    · exact le_rfl
    · change (spanIdent s).2.length ≤ s.length
      omega

theorem agrees_bind {p q : Parser α} {f g : α → Parser β} (hp : Agrees k p q)
    (hf : ∀ a, Agrees k (f a) (g a)) : Agrees k (p >>= f) (q >>= g) := hp.bind hf

/-- What comes after a parser without steps. -/
theorem Steady.then {p : Parser α} (hp : Steady p) {f g : α → Parser β}
    (hf : ∀ a, Agrees k (f a) (g a)) : Agrees k (p >>= f) (p >>= g) := (hp k).bind hf

theorem Steady.bind {p : Parser α} (hp : Steady p) {f : α → Parser β} (hf : ∀ a, Steady (f a)) :
    Steady (p >>= f) := fun k ↦ (hp k).bind fun a ↦ hf a k

theorem steady_pure (a : α) : Steady (pure a : Parser α) := fun _ ↦ agree_pure a

/-- Behind a character that is there, the text is shorter. -/
theorem agrees_eat (c : Char) {p p' q q' : Parser α} (hp : ∀ j < k, Agrees j p p')
    (hq : Agrees k q q') :
    Agrees k (eat c >>= fun b ↦ if b = true then p else q)
      (eat c >>= fun b ↦ if b = true then p' else q') := by
  refine (steady_eat c k).bind_step fun b ↦ ?_
  cases b with
  | true => exact .inr ⟨eat_consumes c, hp⟩
  | false => exact .inl hq

/-- So it is behind an identifier. -/
theorem agrees_ident {f g : Text → Parser α} (hf : ∀ name, ∀ j < k, Agrees j (f name) (g name)) :
    Agrees k (ident >>= f) (ident >>= g) :=
  (steady_ident k).bind_step fun name ↦ .inr ⟨ident_consumes name, hf name⟩

theorem steady_eat_ite (c : Char) {p q : Parser α} (hp : Steady p) (hq : Steady q) :
    Steady (eat c >>= fun b ↦ if b = true then p else q) :=
  fun k ↦ agrees_eat c (fun j _ ↦ hp j) (hq k)

theorem steady_eatArrow : Steady eatArrow :=
  steady_eat_ite '-' (steady_eat '>') (steady_pure false)

theorem steady_postfixNilable (t : RbsTy) : Steady (postfixNilable t) :=
  steady_eat_ite '?' (steady_pure _) (steady_pure _)

theorem steady_skipParamName : Steady skipParamName :=
  steady_skipWs.bind fun _ ↦ steady_tryIdent.bind fun _ ↦ steady_pure ()

theorem steady_opensSingleton (name : Text) : Steady (opensSingleton name) :=
  fun k ↦ .ite (steady_eat '(' k) (agree_pure false)

/-- A keyword, or the text as it was. -/
def keywordIn (admits : Text → Bool) (s : Text) : Option Text × Text :=
  let span := spanIdent s
  if span.1 ≠ [] ∧ span.2.head? = some ':' ∧ span.2.tail.head? ≠ some ':' ∧ admits span.1 then
    (some span.1, span.2.tail)
  else (none, s)

theorem keywordName_eq (admits : Text → Bool) (s : Text) :
    keywordName admits s = .ok (keywordIn admits s) := by
  have hsave : Yields (get : Parser Text) s s s := rfl
  unfold keywordName keywordIn
  rw [hsave.bind_eq]
  have htry := tryIdent_eq s
  by_cases hnil : (spanIdent s).1 = []
  · rw [if_pos hnil] at htry
    have hnone : Yields tryIdent s none s := htry
    rw [hnone.bind_eq, if_neg fun h ↦ h.1 hnil]
    rfl
  · rw [if_neg hnil] at htry
    have hsome : Yields tryIdent s (some (spanIdent s).1) (spanIdent s).2 := htry
    rw [hsome.bind_eq]
    dsimp only
    have hpeek : Yields peek (spanIdent s).2 (spanIdent s).2.head? (spanIdent s).2 := rfl
    have hsecond : Yields peekSecond (spanIdent s).2 (spanIdent s).2.tail.head?
      (spanIdent s).2 := rfl
    rw [hpeek.bind_eq, hsecond.bind_eq]
    by_cases hkeyword : (spanIdent s).2.head? = some ':' ∧
        (spanIdent s).2.tail.head? ≠ some ':' ∧ admits (spanIdent s).1 = true
    · rw [if_pos hkeyword, if_pos ⟨hnil, hkeyword⟩]
      rfl
    · rw [if_neg hkeyword, if_neg fun h ↦ hkeyword h.2]
      rfl

theorem steady_keywordName (admits : Text → Bool) : Steady (keywordName admits) :=
  steady_of_ok (keywordName_eq admits) fun s ↦ by
    have hlength := spanIdent_length s
    unfold keywordIn
    dsimp only
    split_ifs
    · rw [List.length_tail]
      omega
    · exact le_rfl

end Small

/-! ### The parsers of parts -/

section Parts

variable {k : ℕ} {t t' : Parser RbsTy}

theorem agrees_optionalList {p p' : Parser α} (hp : ∀ j < k, Agrees j p p') :
    Agrees k (optionalList p) (optionalList p') :=
  agrees_eat '(' (fun j hj ↦ (hp j hj).bind fun _ ↦ steady_skipWs j) (agree_pure ())

theorem agrees_restParam (ht : Agrees k t t') : Agrees k (restParam t) (restParam t') := by
  unfold restParam
  refine steady_peekSecond.then fun second ↦ .ite ?_ ?_
  · exact steady_advance.then fun _ ↦ steady_advance.then fun _ ↦ ht.bind fun _ ↦
      steady_skipParamName.then fun _ ↦ agree_pure none
  · exact steady_advance.then fun _ ↦ ht.bind fun _ ↦
      steady_skipParamName.then fun _ ↦ agree_pure _

theorem agrees_optionalParam (ht : Agrees k t t') :
    Agrees k (optionalParam t) (optionalParam t') := by
  unfold optionalParam
  refine steady_skipWs.then fun _ ↦ (steady_keywordName _).then fun name ↦ ?_
  cases name with
  | some name => exact ht.bind fun _ ↦ agree_pure _
  | none => exact ht.bind fun _ ↦ steady_skipParamName.then fun _ ↦ agree_pure _

theorem agrees_requiredOrKeywordParam (ht : Agrees k t t') :
    Agrees k (requiredOrKeywordParam t) (requiredOrKeywordParam t') := by
  unfold requiredOrKeywordParam
  refine (steady_keywordName _).then fun name ↦ ?_
  cases name with
  | some name => exact ht.bind fun _ ↦ agree_pure _
  | none => exact ht.bind fun _ ↦ steady_skipParamName.then fun _ ↦ agree_pure _

theorem agrees_param (ht : Agrees k t t') : Agrees k (param t) (param t') := by
  unfold param
  refine steady_skipWs.then fun _ ↦ steady_peek.then fun c ↦ .ite (agrees_restParam ht) ?_
  exact agrees_eat '?' (fun j hj ↦ agrees_optionalParam (ht.mono hj.le))
    (agrees_requiredOrKeywordParam ht)

theorem agrees_grouped (ht : Agrees k t t') : Agrees k (grouped t) (grouped t') :=
  ht.bind fun _ ↦ steady_skipWs.then fun _ ↦
    steady_eat_ite ')' (steady_postfixNilable _) (steady_fail (by decide)) k

theorem agrees_singletonType (ht : Agrees k t t') :
    Agrees k (singletonType t) (singletonType t') :=
  ht.bind fun _ ↦ steady_skipWs.then fun _ ↦
    steady_eat_ite ')' (steady_postfixNilable _) (steady_fail (by decide)) k

theorem agrees_paramList {loop loop' : List RbsParam → Parser (List RbsParam)}
    (hloop : Agrees k (loop []) (loop' [])) : Agrees k (paramList loop) (paramList loop') :=
  steady_skipWs.then fun _ ↦ agrees_eat ')' (fun _ _ ↦ agree_pure []) hloop

theorem agrees_procType {list list' : Parser (List RbsParam)} (ht : Agrees k t t')
    (hlist : Agrees k list list') : Agrees k (procType t list) (procType t' list') := by
  unfold procType
  refine steady_skipWs.then fun _ ↦
    (agrees_optionalList fun j hj ↦ hlist.mono hj.le).bind fun _ ↦
      steady_eatArrow.then fun arrow ↦ .ite ?_ (steady_fail (by decide) k)
  exact ht.bind fun _ ↦ steady_postfixNilable untyped k

theorem agrees_bracketedTypes {loop loop' : List RbsTy → Parser (List RbsTy)}
    (ht : Agrees k t t') (hloop : ∀ args, Agrees k (loop args) (loop' args)) :
    Agrees k (bracketedTypes t loop) (bracketedTypes t' loop') :=
  steady_skipWs.then fun _ ↦ ht.bind fun first ↦ steady_skipWs.then fun _ ↦ hloop [first]

theorem agrees_shapeType {loop loop' : Parser Unit} (hloop : Agrees k loop loop') :
    Agrees k (shapeType loop) (shapeType loop') :=
  steady_skipWs.then fun _ ↦ agrees_eat '\x7d' (fun j _ ↦ steady_postfixNilable untyped j)
    (hloop.bind fun _ ↦ steady_postfixNilable untyped k)

theorem agrees_namedType {args args' : Parser (List RbsTy)} (name : Text)
    (hargs : ∀ j < k, Agrees j args args') :
    Agrees k (namedType args name) (namedType args' name) := by
  refine agrees_eat '[' (fun j hj ↦ (hargs j hj).bind fun found ↦ .ite ?_ ?_)
    (steady_postfixNilable _ k)
  · exact steady_failPlain (by decide) j
  · exact steady_postfixNilable _ j

end Parts

/-! ### The parser of types -/

/-- Two numbers of steps that do the same on texts of so many characters. -/
structure StepsAgree (k n m : ℕ) : Prop where
  ty : Agrees k (ty n) (ty m)
  alternatives : ∀ parts, Agrees k (alternatives n parts) (alternatives m parts)
  intersectionTy : Agrees k (intersectionTy n) (intersectionTy m)
  conjuncts : Agrees k (conjuncts n) (conjuncts m)
  primary : Agrees k (primary n) (primary m)
  shapeLoop : Agrees k (shapeLoop n) (shapeLoop m)
  typesLoop : ∀ args, Agrees k (typesLoop n args) (typesLoop m args)
  paramLoop : ∀ params, Agrees k (paramLoop n params) (paramLoop m params)

section Types

variable {k n m : ℕ} (h : ∀ j < k, StepsAgree j n m)

include h

theorem agrees_primary : Agrees k (primary (n + 1)) (primary (m + 1)) := by
  have hbracketed : ∀ j < k,
      Agrees j (bracketedTypes (ty n) (typesLoop n)) (bracketedTypes (ty m) (typesLoop m)) :=
    fun j hj ↦ agrees_bracketedTypes (h j hj).ty (h j hj).typesLoop
  refine steady_skipWs.then fun _ ↦ ?_
  refine agrees_eat '?' (fun j hj ↦ (h j hj).primary.bind fun _ ↦ agree_pure _) ?_
  refine agrees_eat '^'
    (fun j hj ↦ agrees_procType (h j hj).ty (agrees_paramList ((h j hj).paramLoop []))) ?_
  refine agrees_eat '(' (fun j hj ↦ agrees_grouped (h j hj).ty) ?_
  refine agrees_eat '{' (fun j hj ↦ agrees_shapeType (h j hj).shapeLoop) ?_
  refine agrees_eat '['
    (fun j hj ↦ (hbracketed j hj).bind fun _ ↦ steady_postfixNilable _ j) ?_
  refine agrees_ident fun name j hj ↦ (steady_opensSingleton name).then fun opens ↦ .ite ?_ ?_
  · exact agrees_singletonType (h j hj).ty
  · exact agrees_namedType name fun i hi ↦ hbracketed i (hi.trans hj)

theorem agrees_conjuncts : Agrees k (conjuncts (n + 1)) (conjuncts (m + 1)) := by
  refine agrees_eat '&' (fun j hj ↦ steady_skipWs.then fun _ ↦ ?_) (agree_pure ())
  exact (h j hj).primary.bind fun _ ↦ steady_skipWs.then fun _ ↦ (h j hj).conjuncts

theorem agrees_alternatives (parts : List RbsTy) :
    Agrees k (alternatives (n + 1) parts) (alternatives (m + 1) parts) := by
  refine agrees_eat '|' (fun j hj ↦ steady_skipWs.then fun _ ↦ ?_) (agree_pure parts)
  exact (h j hj).intersectionTy.bind fun _ ↦ steady_skipWs.then fun _ ↦ (h j hj).alternatives _

theorem agrees_typesLoop (args : List RbsTy) :
    Agrees k (typesLoop (n + 1) args) (typesLoop (m + 1) args) := by
  refine agrees_eat ',' (fun j hj ↦ steady_skipWs.then fun _ ↦ ?_) ?_
  · exact (h j hj).ty.bind fun _ ↦ steady_skipWs.then fun _ ↦ (h j hj).typesLoop _
  · exact steady_eat_ite ']' (steady_pure args) (steady_fail (by decide)) k

theorem agrees_shapeLoop : Agrees k (shapeLoop (n + 1)) (shapeLoop (m + 1)) := by
  refine steady_skipWs.then fun _ ↦ (steady_ident k).bind fun _ ↦ steady_skipWs.then fun _ ↦ ?_
  refine agrees_eat ':' (fun j hj ↦ ?_) (steady_fail (by decide) k)
  refine (h j hj).ty.bind fun _ ↦ steady_skipWs.then fun _ ↦ ?_
  refine agrees_eat ',' (fun i hi ↦ (h i (hi.trans hj)).shapeLoop) ?_
  exact steady_eat_ite '\x7d' (steady_pure ()) (steady_fail (by decide)) j

theorem agrees_paramLoop (hty : Agrees k (ty n) (ty m)) (params : List RbsParam) :
    Agrees k (paramLoop (n + 1) params) (paramLoop (m + 1) params) := by
  refine (agrees_param hty).bind fun _ ↦ steady_skipWs.then fun _ ↦ ?_
  refine agrees_eat ',' (fun j hj ↦ steady_skipWs.then fun _ ↦ (h j hj).paramLoop _) ?_
  exact steady_eat_ite ')' (steady_pure _) (steady_fail (by decide)) k

end Types

theorem agrees_intersectionTy {k n m : ℕ} (hprimary : Agrees k (primary n) (primary m))
    (hconjuncts : Agrees k (conjuncts n) (conjuncts m)) :
    Agrees k (intersectionTy (n + 1)) (intersectionTy (m + 1)) := by
  refine hprimary.bind fun first ↦ steady_skipWs.then fun _ ↦ steady_peek.then fun c ↦ .ite ?_ ?_
  · exact hconjuncts.bind fun _ ↦ agree_pure untyped
  · exact agree_pure first

theorem agrees_ty {k n m : ℕ} (hterm : Agrees k (intersectionTy n) (intersectionTy m))
    (hterms : ∀ parts, Agrees k (alternatives n parts) (alternatives m parts)) :
    Agrees k (ty (n + 1)) (ty (m + 1)) := by
  refine hterm.bind fun first ↦ steady_skipWs.then fun _ ↦ steady_peek.then fun c ↦ .ite ?_ ?_
  · exact (hterms [first]).bind fun _ ↦ agree_pure _
  · exact agree_pure first

/-- Eight steps for each character, and eight more, are enough. -/
theorem stepsAgree {k n m : ℕ} (hn : 8 * k + 8 ≤ n) (hm : 8 * k + 8 ≤ m) : StepsAgree k n m := by
  induction k using Nat.strong_induction_on generalizing n m with
  | _ k ih =>
    have hbelow : ∀ {n m : ℕ}, 8 * k ≤ n → 8 * k ≤ m → ∀ j < k, StepsAgree j n m :=
      fun hn hm j hj ↦ ih j hj (by omega) (by omega)
    obtain ⟨n, rfl⟩ := Nat.exists_eq_add_of_le' (by omega : 4 ≤ n)
    obtain ⟨m, rfl⟩ := Nat.exists_eq_add_of_le' (by omega : 4 ≤ m)
    have hterm : ∀ {n m : ℕ}, 8 * k ≤ n → 8 * k ≤ m →
        Agrees k (intersectionTy (n + 2)) (intersectionTy (m + 2)) := fun hn hm ↦
      agrees_intersectionTy (agrees_primary (hbelow hn hm)) (agrees_conjuncts (hbelow hn hm))
    have hty : ∀ {n m : ℕ}, 8 * k ≤ n → 8 * k ≤ m → Agrees k (ty (n + 3)) (ty (m + 3)) :=
      fun hn hm ↦ agrees_ty (hterm hn hm) (agrees_alternatives (hbelow (by omega) (by omega)))
    have h : ∀ j < k, StepsAgree j (n + 3) (m + 3) := hbelow (by omega) (by omega)
    exact {
      ty := hty (by omega : 8 * k ≤ n + 1) (by omega : 8 * k ≤ m + 1)
      alternatives := agrees_alternatives h
      intersectionTy := hterm (by omega : 8 * k ≤ n + 2) (by omega : 8 * k ≤ m + 2)
      conjuncts := agrees_conjuncts h
      primary := agrees_primary h
      shapeLoop := agrees_shapeLoop h
      typesLoop := agrees_typesLoop h
      paramLoop := agrees_paramLoop h (hty (by omega) (by omega)) }

/-! ### Signatures -/

/-- The list of type parameters ends or is not closed, and the loop has a step for each name and
each character. -/
theorem typeParamsLoop_ends {n : ℕ} (depth : ℕ) (atName : Bool) (names : List Text) {rest : Text}
    (h : rest.length < n) :
    (∃ names' rest', typeParamsLoop n depth atName names rest = .ok (names', rest') ∧
      rest'.length ≤ rest.length) ∨
    ∃ rest', typeParamsLoop n depth atName names rest =
      failPlain "unterminated type parameter list" rest' := by
  induction n generalizing depth atName names rest with
  | zero => exact absurd h (Nat.not_lt_zero _)
  | succ n ih =>
    have hpassed : ∀ depth names (text : Text), text.length ≤ rest.length →
        (∃ names' rest', passed n depth names text = .ok (names', rest') ∧
          rest'.length ≤ rest.length) ∨
        ∃ rest', passed n depth names text =
          failPlain "unterminated type parameter list" rest' := by
      intro depth names text htext
      cases text with
      | nil => exact .inr ⟨[], rfl⟩
      | cons c text =>
        rw [List.length_cons] at htext
        have hnext := ih (pastChar depth c).1 (pastChar depth c).2 names
          (by omega : text.length < n)
        rcases hnext with ⟨names', rest', hok, hlength⟩ | hfail
        · exact .inl ⟨names', rest', hok, by omega⟩
        · exact .inr hfail
    by_cases hdepth : depth = 0
    · subst hdepth
      exact .inl ⟨names, rest, loop_done, le_rfl⟩
    · by_cases hname : depth = 1 ∧ atName = true
      · obtain ⟨rfl, rfl⟩ := hname
        have hblanks := (List.dropWhile_sublist isBlank (l := rest)).length_le
        have hspan := spanIdent_length (rest.dropWhile isBlank)
        rw [loop_name]
        split_ifs with hnil
        · exact hpassed _ _ _ hblanks
        · have hpos := List.length_pos_iff.mpr hnil
          have hnext := ih 1 false (names ++ [(spanIdent (rest.dropWhile isBlank)).1])
            (by omega : (spanIdent (rest.dropWhile isBlank)).2.length < n)
          rcases hnext with ⟨names', rest', hok, hlength⟩ | hfail
          · exact .inl ⟨names', rest', hok, by omega⟩
          · exact .inr hfail
      · rw [loop_pass hdepth hname]
        exact hpassed _ _ _ le_rfl

theorem steady_parseTypeParams : Steady parseTypeParams := by
  refine steady_skipWs.bind fun _ ↦ steady_eat_ite '[' (fun k ↦ ?_) (steady_pure [])
  have hends := fun s : Text ↦ typeParamsLoop_ends 1 true [] (Nat.lt_succ_self s.length)
  refine ⟨fun _ _ ↦ rfl, fun s names s' _ h ↦ ?_, fun s e _ h ↦ ?_⟩
  · rcases hends s with ⟨names', rest', hok, hlength⟩ | ⟨rest', hfail⟩
    · obtain ⟨-, rfl⟩ := Prod.mk.inj (Except.ok.inj (hok.symm.trans h))
      exact hlength
    · cases hfail.symm.trans h
  · rcases hends s with ⟨names', rest', hok, hlength⟩ | ⟨rest', hfail⟩
    · cases hok.symm.trans h
    · obtain rfl := Except.error.inj (hfail.symm.trans h)
      exact not_outOfSteps (by decide)

/-- Whether `?)` comes next, and what the test leaves. -/
def placed (s : Text) : Bool × Text :=
  if s.head? = some '?' then
    let rest := s.tail.dropWhile isBlank
    if rest.head? = some ')' then (true, rest.tail) else (false, rest)
  else (false, s)

theorem placeholder_eq (s : Text) : placeholder s = .ok (placed s) := by
  unfold placeholder placed
  by_cases hhead : s.head? = some '?'
  · obtain ⟨rest, rfl⟩ := List.head?_eq_some_iff.mp hhead
    rw [(eat_hit '?' rest).bind_eq, if_pos hhead]
    exact eat_eq ')' (rest.dropWhile isBlank)
  · rw [(eat_miss hhead).bind_eq, if_neg hhead]
    rfl

theorem placed_length (s : Text) : (placed s).2.length ≤ s.length := by
  have hblanks := (List.dropWhile_sublist isBlank (l := s.tail)).length_le
  rw [List.length_tail] at hblanks
  unfold placed
  dsimp only
  split_ifs
  · rw [List.length_tail]
    omega
  · change (s.tail.dropWhile isBlank).length ≤ _
    omega
  · exact le_rfl

/-- The list, read from where its placeholder was looked for. -/
theorem blockParamList_eq (n : ℕ) (s : Text) :
    blockParamList n s =
      if (placed (s.dropWhile isBlank)).1 = true then .ok ((), (placed (s.dropWhile isBlank)).2)
      else (paramList (paramLoop n) >>= fun _ ↦ pure ()) (s.dropWhile isBlank) := by
  have hblanks : Yields skipWs s () (s.dropWhile isBlank) := rfl
  have hsave : Yields (get : Parser Text) (s.dropWhile isBlank) (s.dropWhile isBlank)
    (s.dropWhile isBlank) := rfl
  have hplaced : Yields placeholder (s.dropWhile isBlank) (placed (s.dropWhile isBlank)).1
    (placed (s.dropWhile isBlank)).2 := placeholder_eq _
  unfold blockParamList
  rw [hblanks.bind_eq, hsave.bind_eq, hplaced.bind_eq]
  split_ifs <;> rfl

section Signature

variable {k n m : ℕ} (h : StepsAgree k n m)

include h

theorem agrees_paramLists : Agrees k (paramList (paramLoop n)) (paramList (paramLoop m)) :=
  agrees_paramList (h.paramLoop [])

theorem agrees_sigParams : Agrees k (sigParams n) (sigParams m) :=
  agrees_eat '(' (fun _ hj ↦ (agrees_paramLists h).mono hj.le) (agree_pure [])

theorem agrees_blockParamList : Agrees k (blockParamList n) (blockParamList m) := by
  have hlist : Agrees k (paramList (paramLoop n) >>= fun _ ↦ pure ())
    (paramList (paramLoop m) >>= fun _ ↦ pure ()) :=
      (agrees_paramLists h).bind fun _ ↦ agree_pure ()
  have hblanks := fun s : Text ↦ (List.dropWhile_sublist isBlank (l := s)).length_le
  refine ⟨fun s hs ↦ ?_, fun s a s' hs hyields ↦ ?_, fun s e hs hfails ↦ ?_⟩
  · rw [blockParamList_eq, blockParamList_eq, hlist.same _ ((hblanks s).trans hs)]
  · rw [Yields, blockParamList_eq] at hyields
    split_ifs at hyields with hplaced
    · obtain ⟨-, rfl⟩ := Prod.mk.inj (Except.ok.inj hyields)
      exact (placed_length _).trans (hblanks s)
    · exact (hlist.shrinks _ _ _ ((hblanks s).trans hs) hyields).trans (hblanks s)
  · rw [blockParamList_eq] at hfails
    split_ifs at hfails
    exact hlist.good _ _ ((hblanks s).trans hs) hfails

theorem agrees_skipBlockSelfType : Agrees k (skipBlockSelfType n) (skipBlockSelfType m) := by
  refine agrees_eat '[' (fun j hj ↦ steady_skipWs.then fun _ ↦ ?_) (agree_pure ())
  refine (steady_ident j).bind fun name ↦ .ite ?_ (steady_fail (by decide) j)
  refine steady_skipWs.then fun _ ↦ agrees_eat ':' (fun i hi ↦ ?_) (steady_fail (by decide) j)
  refine (h.ty.mono (hi.trans hj).le).bind fun _ ↦ steady_skipWs.then fun _ ↦ ?_
  exact steady_eat_ite ']' steady_skipWs (steady_fail (by decide)) i

theorem agrees_blockBody : Agrees k (blockBody n) (blockBody m) := by
  unfold blockBody
  refine steady_skipWs.then fun _ ↦
    (agrees_optionalList fun j hj ↦ (agrees_blockParamList h).mono hj.le).bind fun _ ↦
      (agrees_skipBlockSelfType h).bind fun _ ↦ steady_eatArrow.then fun arrow ↦
        .ite ?_ (steady_fail (by decide) k)
  refine h.ty.bind fun _ ↦ steady_skipWs.then fun _ ↦ ?_
  exact steady_eat_ite '\x7d' (steady_pure ()) (steady_fail (by decide)) k

theorem agrees_skipBlockType : Agrees k (skipBlockType n) (skipBlockType m) := by
  unfold skipBlockType
  refine steady_skipWs.then fun _ ↦ steady_peek.then fun _ ↦ steady_peekSecond.then fun _ ↦
    .ite ?_ (.ite ?_ (agree_pure ()))
  · exact steady_advance.then fun _ ↦ steady_advance.then fun _ ↦ agrees_blockBody h
  · exact steady_advance.then fun _ ↦ agrees_blockBody h

theorem agrees_signature : Agrees k (signature n) (signature m) := by
  unfold signature
  have hend : Steady atEnd := by
    refine fun k ↦ ⟨fun _ _ ↦ rfl, fun s a s' _ h ↦ ?_, fun s e _ h ↦ ?_⟩
    · unfold Yields atEnd at h
      split_ifs at h
      · cases h
        exact Nat.zero_le _
      · cases h
    · unfold atEnd at h
      split_ifs at h
      cases h
      exact not_outOfSteps (by decide)
  refine steady_skipWs.then fun _ ↦ steady_parseTypeParams.then fun typeParams ↦
    steady_skipWs.then fun _ ↦ (agrees_sigParams h).bind fun params ↦
      steady_skipWs.then fun _ ↦ (agrees_skipBlockType h).bind fun _ ↦
        steady_skipWs.then fun _ ↦ steady_eatArrow.then fun arrow ↦
          .ite ?_ (steady_fail (by decide) k)
  exact h.ty.bind fun ret ↦ steady_skipWs.then fun _ ↦ hend.then fun _ ↦ agree_pure _

end Signature

end Parser

/-! ### Steps enough -/

open RbsComment.Parser

/-- More steps find the same. -/
theorem parseRbsComment_eq {input : Text} {n : ℕ} (hn : 8 * (input.length + 1) ≤ n) :
    parseRbsComment input = Prod.fst <$> signature n input := by
  have hagree : Agrees input.length (signature (8 * (input.length + 1))) (signature n) :=
    agrees_signature (stepsAgree (by omega) (by omega))
  unfold parseRbsComment
  rw [hagree.same input le_rfl]

/-- A text that is turned down has something wrong in it. -/
theorem not_outOfSteps_of_parse {input : Text} {e : Failure}
    (h : parseRbsComment input = .error e) : ¬ OutOfSteps e := by
  have hagree : Agrees input.length (signature (8 * (input.length + 1)))
      (signature (8 * (input.length + 1))) :=
    agrees_signature (stepsAgree (by omega) (by omega))
  unfold parseRbsComment at h
  cases hresult : signature (8 * (input.length + 1)) input with
  | error e' =>
    rw [hresult] at h
    obtain rfl : e' = e := Except.error.inj h
    exact hagree.good input e' le_rfl hresult
  | ok r =>
    rw [hresult] at h
    cases h

end Itaruby.RbsComment
