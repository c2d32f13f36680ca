import Itaruby.Rbs.RoundTrip

/-!
What the parser accepts. Every signature it makes can be written out, so reading, writing and
reading again changes nothing. Blanks, optional parentheses and the names of positional parameters
are gone from the text then, and a type without a form of its own is the `untyped` that the parser
made of it.
-/

set_option autoImplicit false
set_option relaxedAutoImplicit false

namespace Itaruby.RbsComment

open Parsing RbsComment.Parser

/-! ### What is read -/

section Produced

theorem produces_fail {α : Type} {P : α → Prop} (what : String) :
    Produces P (fail what : Parser α) := fun _ _ _ h ↦ by cases h

theorem produces_failPlain {α : Type} {P : α → Prop} (what : String) :
    Produces P (failPlain what : Parser α) := fun _ _ _ h ↦ by cases h

theorem produces_ident : Produces IsName ident := by
  intro s name s' h
  rw [Yields, ident_eq] at h
  split_ifs at h with hnil
  · cases h
  · have hname : (spanIdent s).1 = name := congrArg Prod.fst (Except.ok.inj h)
    exact hname ▸ isName_span hnil

theorem produces_keywordName (admits : Text → Bool) :
    Produces (fun found ↦ ∀ name ∈ found, IsName name ∧ admits name = true)
      (keywordName admits) := by
  intro s found s' h
  rw [Yields, keywordName_eq] at h
  have hfound := congrArg Prod.fst (Except.ok.inj h)
  unfold keywordIn at hfound
  dsimp only at hfound
  split_ifs at hfound with hkeyword
  · rw [← hfound]
    intro name hname
    obtain rfl := Option.some.inj hname
    exact ⟨isName_span hkeyword.1, hkeyword.2.2.2⟩
  · rw [← hfound]
    intro name hname
    cases hname

theorem produces_postfixNilable {t : RbsTy} (h : t.Writable) :
    Produces RbsTy.Writable (postfixNilable t) := by
  unfold postfixNilable
  refine .after fun b ↦ .ite (fun _ ↦ .pure ?_) fun _ ↦ .pure h
  exact h

theorem untyped_writable : untyped.Writable := by
  change IsName "untyped".toList
  decide

variable {t : Parser RbsTy} (ht : Produces RbsTy.Writable t)

include ht

theorem produces_param :
    Produces (fun found ↦ ∀ p ∈ found, RbsParam.Writable p) (param t) := by
  have hsome : ∀ {p : RbsParam}, p.Writable → ∀ q ∈ some p, q.Writable := by
    intro p hp q hq
    exact Option.some.inj hq ▸ hp
  refine .after fun _ ↦ .after fun c ↦ .ite (fun _ ↦ ?_) fun _ ↦ .after fun b ↦
    .ite (fun _ ↦ ?_) fun _ ↦ ?_
  · refine .after fun second ↦ .ite (fun _ ↦ ?_) fun _ ↦ ?_
    · exact .after fun _ ↦ .after fun _ ↦ .after fun _ ↦ .after fun _ ↦
        .pure fun _ h ↦ by cases h
    · exact .after fun _ ↦ ht.bind fun _ h ↦ .after fun _ ↦ .pure (hsome h)
  · refine .after fun _ ↦ (produces_keywordName _).bind fun found hfound ↦ ?_
    cases found with
    | some name =>
      refine ht.bind fun _ h ↦ .pure (hsome ⟨?_, h, fun h ↦ by cases h⟩)
      rw [String.toList_ofList]
      exact (hfound name rfl).1
    | none => exact ht.bind fun _ h ↦ .after fun _ ↦ .pure (hsome h)
  · refine (produces_keywordName _).bind fun found hfound ↦ ?_
    cases found with
    | some name =>
      refine ht.bind fun _ h ↦ .pure (hsome ⟨?_, h, fun _ ↦ ?_⟩)
      · rw [String.toList_ofList]
        exact (hfound name rfl).1
      · rw [String.toList_ofList]
        exact (hfound name rfl).2
    | none => exact ht.bind fun _ h ↦ .after fun _ ↦ .pure (hsome h)

theorem produces_bracketedTypes {loop : List RbsTy → Parser (List RbsTy)}
    (hloop : ∀ args, (∀ t ∈ args, t.Writable) → Produces
      (fun r ↦ (∀ t ∈ r, RbsTy.Writable t) ∧ args.length ≤ r.length) (loop args)) :
    Produces (fun args ↦ (∀ t ∈ args, RbsTy.Writable t) ∧ args ≠ []) (bracketedTypes t loop) := by
  refine .after fun _ ↦ ht.bind fun first hfirst ↦ .after fun _ ↦ ?_
  refine (hloop [first] (by simpa using hfirst)).mono ?_
  rintro args ⟨hargs, hlength⟩
  refine ⟨hargs, ?_⟩
  rintro rfl
  exact Nat.not_succ_le_zero _ hlength

end Produced

/-! ### What the parser of types makes -/

/-- What is read with so many steps. -/
structure Writes (n : ℕ) : Prop where
  ty : Produces RbsTy.Writable (ty n)
  alternatives : ∀ parts, (∀ t ∈ parts, t.Writable) →
    Produces (fun r ↦ ∀ t ∈ r, RbsTy.Writable t) (alternatives n parts)
  intersectionTy : Produces RbsTy.Writable (intersectionTy n)
  primary : Produces RbsTy.Writable (primary n)
  typesLoop : ∀ args, (∀ t ∈ args, t.Writable) →
    Produces (fun r ↦ (∀ t ∈ r, RbsTy.Writable t) ∧ args.length ≤ r.length) (typesLoop n args)
  paramLoop : ∀ params, (∀ p ∈ params, p.Writable) →
    Produces (fun r ↦ ∀ p ∈ r, RbsParam.Writable p) (paramLoop n params)

section Made

variable {n : ℕ} (h : Writes n)

include h

theorem produces_primary : Produces RbsTy.Writable (primary (n + 1)) := by
  have hbracketed := produces_bracketedTypes h.ty h.typesLoop
  refine .after fun _ ↦ .after fun b ↦ .ite (fun _ ↦ ?_) fun _ ↦ .after fun b ↦
    .ite (fun _ ↦ ?_) fun _ ↦ .after fun b ↦ .ite (fun _ ↦ ?_) fun _ ↦ .after fun b ↦
    .ite (fun _ ↦ ?_) fun _ ↦ .after fun b ↦ .ite (fun _ ↦ ?_) fun _ ↦
    produces_ident.bind fun name hname ↦ .after fun b ↦ .ite (fun _ ↦ ?_) fun _ ↦ ?_
  · exact h.primary.bind fun inner hinner ↦ .pure hinner
  · exact .after fun _ ↦ .after fun _ ↦ .after fun arrow ↦ .ite
      (fun _ ↦ .after fun _ ↦ produces_postfixNilable untyped_writable) fun _ ↦ produces_fail _
  · exact h.ty.bind fun inner hinner ↦ .after fun _ ↦ .after fun b ↦ .ite
      (fun _ ↦ produces_postfixNilable hinner) fun _ ↦ produces_fail _
  · exact .after fun _ ↦ .after fun b ↦ .ite
      (fun _ ↦ produces_postfixNilable untyped_writable) fun _ ↦ .after fun _ ↦
        produces_postfixNilable untyped_writable
  · exact hbracketed.bind fun args hargs ↦ produces_postfixNilable
      ⟨.inl rfl, hargs.2, RbsTy.allWritable_iff.mpr hargs.1⟩
  · refine h.ty.bind fun inner hinner ↦ .after fun _ ↦ .after fun b ↦ .ite
      (fun _ ↦ produces_postfixNilable ⟨.inr ⟨?_, ?_⟩, List.cons_ne_nil _ _, hinner, trivial⟩)
      fun _ ↦ produces_fail _
    · decide
    · simp
  · have hstring : IsName (String.ofList name).toList := by rwa [String.toList_ofList]
    refine .after fun b ↦ .ite (fun _ ↦ hbracketed.bind fun args hargs ↦ .ite
      (fun _ ↦ produces_failPlain _) fun hlength ↦ ?_) fun _ ↦ produces_postfixNilable hstring
    exact produces_postfixNilable ⟨.inr ⟨hstring, Nat.not_lt.mp hlength⟩, hargs.2,
      RbsTy.allWritable_iff.mpr hargs.1⟩

theorem produces_alternatives (parts : List RbsTy) (hparts : ∀ t ∈ parts, t.Writable) :
    Produces (fun r ↦ ∀ t ∈ r, RbsTy.Writable t) (alternatives (n + 1) parts) := by
  refine .after fun b ↦ .ite (fun _ ↦ .after fun _ ↦ h.intersectionTy.bind fun part hpart ↦
    .after fun _ ↦ h.alternatives _ ?_) fun _ ↦ .pure hparts
  simpa [or_imp, forall_and] using ⟨hparts, hpart⟩

theorem produces_typesLoop (args : List RbsTy) (hargs : ∀ t ∈ args, t.Writable) :
    Produces (fun r ↦ (∀ t ∈ r, RbsTy.Writable t) ∧ args.length ≤ r.length)
      (typesLoop (n + 1) args) := by
  refine .after fun b ↦ .ite (fun _ ↦ .after fun _ ↦ h.ty.bind fun t ht ↦
    .after fun _ ↦ (h.typesLoop _ ?_).mono ?_) fun _ ↦ .after fun b ↦
      .ite (fun _ ↦ .pure ⟨hargs, le_rfl⟩) fun _ ↦ produces_fail _
  · simpa [or_imp, forall_and] using ⟨hargs, ht⟩
  · rintro r ⟨hr, hlength⟩
    rw [List.length_append] at hlength
    exact ⟨hr, by omega⟩

theorem produces_paramLoop (params : List RbsParam) (hparams : ∀ p ∈ params, p.Writable) :
    Produces (fun r ↦ ∀ p ∈ r, RbsParam.Writable p) (paramLoop (n + 1) params) := by
  refine (produces_param h.ty).bind fun found hfound ↦ .after fun _ ↦ .after fun b ↦
    .ite (fun _ ↦ .after fun _ ↦ h.paramLoop _ ?_) fun _ ↦ .after fun b ↦
      .ite (fun _ ↦ .pure ?_) fun _ ↦ produces_fail _
  all_goals
    intro p hp
    rcases List.mem_append.mp hp with hp | hp
    · exact hparams p hp
    · exact hfound p (Option.mem_toList.mp hp)

theorem produces_intersectionTy : Produces RbsTy.Writable (intersectionTy (n + 1)) :=
  h.primary.bind fun _ hfirst ↦ .after fun _ ↦ .after fun _ ↦ .ite
    (fun _ ↦ .after fun _ ↦ .pure untyped_writable) fun _ ↦ .pure hfirst

end Made

/-- The parts stay, and a bar that is there adds one. -/
theorem length_of_alternatives {n : ℕ} {parts r : List RbsTy} {s s' : Text}
    (h : Yields (alternatives n parts) s r s') :
    parts.length ≤ r.length ∧ (s.head? = some '|' → parts.length < r.length) := by
  induction n generalizing parts s with
  | zero => cases h
  | succ n ih =>
    by_cases hbar : s.head? = some '|'
    · obtain ⟨s, rfl⟩ := List.head?_eq_some_iff.mp hbar
      rw [Yields, alternatives, (eat_hit '|' s).bind_eq, if_pos rfl] at h
      obtain ⟨_, _, -, hrest⟩ := yields_bind.mp h
      obtain ⟨part, _, -, hrest⟩ := yields_bind.mp hrest
      obtain ⟨_, _, -, hrest⟩ := yields_bind.mp hrest
      have hlength := (ih hrest).1
      rw [List.length_append, List.length_singleton] at hlength
      exact ⟨by omega, fun _ ↦ by omega⟩
    · rw [Yields, alternatives, (eat_miss hbar).bind_eq, if_neg Bool.false_ne_true] at h
      obtain ⟨rfl, -⟩ := Prod.mk.inj (Except.ok.inj h)
      exact ⟨le_rfl, fun h ↦ absurd h hbar⟩

theorem produces_ty {n : ℕ} (h : Writes n) : Produces RbsTy.Writable (ty (n + 1)) := by
  refine h.intersectionTy.bind fun first hfirst ↦ .after fun _ ↦ ?_
  intro s t s' hyields
  rw [Yields, (yields_peek s).bind_eq] at hyields
  split_ifs at hyields with hbar
  · obtain ⟨parts, s₁, hparts, hpure⟩ := yields_bind.mp hyields
    obtain ⟨rfl, -⟩ := Prod.mk.inj (Except.ok.inj hpure)
    have hwritable := h.alternatives [first] (by simpa using hfirst) s parts s₁ hparts
    exact ⟨(length_of_alternatives hparts).2 hbar, RbsTy.allWritable_iff.mpr hwritable⟩
  · obtain ⟨rfl, -⟩ := Prod.mk.inj (Except.ok.inj hyields)
    exact hfirst

theorem writes (n : ℕ) : Writes n := by
  induction n with
  | zero =>
    exact ⟨produces_fail _, fun _ _ ↦ produces_fail _, produces_fail _, produces_fail _,
      fun _ _ ↦ produces_fail _, fun _ _ ↦ produces_fail _⟩
  | succ n ih =>
    exact ⟨produces_ty ih, produces_alternatives ih, produces_intersectionTy ih,
      produces_primary ih, produces_typesLoop ih, produces_paramLoop ih⟩

/-! ### What the parser of signatures makes -/

theorem isName_of_typeParamsLoop {n depth : ℕ} {atName : Bool} {names found : List Text}
    {s s' : Text} (hnames : ∀ name ∈ names, IsName name)
    (h : typeParamsLoop n depth atName names s = .ok (found, s')) :
    ∀ name ∈ found, IsName name := by
  induction n generalizing depth atName names s with
  | zero => cases h
  | succ n ih =>
    have hpassed : ∀ depth (text : Text), passed n depth names text = .ok (found, s') →
        ∀ name ∈ found, IsName name := by
      intro depth text hpass
      cases text with
      | nil => cases hpass
      | cons c text => exact ih hnames hpass
    by_cases hdepth : depth = 0
    · subst hdepth
      rw [loop_done] at h
      obtain ⟨rfl, -⟩ := Prod.mk.inj (Except.ok.inj h)
      exact hnames
    · by_cases hname : depth = 1 ∧ atName = true
      · obtain ⟨rfl, rfl⟩ := hname
        rw [loop_name] at h
        split_ifs at h with hnil
        · exact hpassed _ _ h
        · refine ih ?_ h
          simpa [or_imp, forall_and] using ⟨hnames, isName_span hnil⟩
      · rw [loop_pass hdepth hname] at h
        exact hpassed _ _ h

theorem produces_parseTypeParams :
    Produces (fun names ↦ ∀ name ∈ names, IsName name) parseTypeParams := by
  refine .after fun _ ↦ .after fun b ↦ .ite (fun _ ↦ ?_) fun _ ↦ .pure (by simp)
  intro s names s' h
  have hnone : ∀ name ∈ ([] : List Text), IsName name := by simp
  exact isName_of_typeParamsLoop hnone h

theorem produces_signature (n : ℕ) : Produces RbsSig.Writable (signature n) := by
  have hparams : Produces (fun ps ↦ ∀ p ∈ ps, RbsParam.Writable p) (sigParams n) := by
    refine .after fun b ↦ .ite (fun _ ↦ .after fun _ ↦ .after fun b ↦ .ite
      (fun _ ↦ .pure (by simp)) fun _ ↦ (writes n).paramLoop [] (by simp)) fun _ ↦ .pure (by simp)
  refine .after fun _ ↦ produces_parseTypeParams.bind fun names hnames ↦ .after fun _ ↦
    hparams.bind fun params hparams ↦ .after fun _ ↦ .after fun _ ↦ .after fun _ ↦
      .after fun arrow ↦ .ite (fun _ ↦ (writes n).ty.bind fun ret hret ↦ .after fun _ ↦
        .after fun _ ↦ .pure ⟨?_, hparams, hret⟩) fun _ ↦ produces_fail _
  intro name hname
  obtain ⟨text, htext, rfl⟩ := List.mem_map.mp hname
  rw [String.toList_ofList]
  exact hnames text htext

theorem writable_of_parse {input : Text} {sig : RbsSig} (h : parseRbsComment input = .ok sig) :
    sig.Writable := by
  unfold parseRbsComment at h
  cases hresult : signature (8 * (input.length + 1)) input with
  | error e => rw [hresult] at h; cases h
  | ok r =>
    rw [hresult] at h
    obtain rfl : r.1 = sig := Except.ok.inj h
    exact produces_signature _ input r.1 r.2 hresult

/-- The signatures that are read from some text are those that have a text of their own, and that
text will do: to read, to write and to read again changes nothing. -/
theorem exists_parse_iff {sig : RbsSig} :
    (∃ input, parseRbsComment input = .ok sig) ↔
      sig.Writable ∧ parseRbsComment sig.text = .ok sig := by
  constructor
  · rintro ⟨input, h⟩
    have hwritable := writable_of_parse h
    exact ⟨hwritable, parse_of_yields (yields_signature hwritable)⟩
  · rintro ⟨-, h⟩
    exact ⟨sig.text, h⟩

end Itaruby.RbsComment
