import Mathlib.Data.Set.Subsingleton
import Mathlib.Logic.Relation

/-!
How Ruby finds a constant. The first segment of a path is searched in the lexical
scopes from the innermost out, then in the ancestors of the innermost scope, then
at top level; every later segment only in the object found so far and its
ancestors. A literal alias stands for what its right-hand side denotes in the
scope that wrote it. The relations below hold of what the declarations settle: a
constant with two different definitions, or one that an ancestor outside the
declarations could define, denotes nothing.
-/

set_option autoImplicit false
set_option relaxedAutoImplicit false

namespace Itaruby

namespace Ruby

/-- A constant path as it is written, with the scopes around it, innermost first. A path
rooted at top level has no scopes. -/
structure Reference (α : Type) where
  scopes : List α
  path : List String

inductive Definition (α : Type)
  | object (o : α)
  | aliasOf (target : Reference α)
  | value

/-- Every definition of a name in an object's own table, and the ancestors of the objects
whose ancestors are all known. -/
structure Declarations (α : Type) where
  toplevel : α
  defs : α → String → Set (Definition α)
  Ancestry : α → List α → Prop
  ancestry_unique : ∀ {o chain chain'}, Ancestry o chain → Ancestry o chain' → chain = chain'

namespace Declarations

variable {α : Type} (D : Declarations α)

def Silent (o : α) (name : String) : Prop := D.defs o name = ∅

def Sole (o : α) (name : String) (d : Definition α) : Prop := D.defs o name = {d}

/-- The nearest object of the list that defines the name, which defines it once. -/
inductive Picks : List α → String → Definition α → Prop
  | here {o : α} {os : List α} {name : String} {d : Definition α} :
      D.Sole o name d → Picks (o :: os) name d
  | outward {o : α} {os : List α} {name : String} {d : Definition α} :
      D.Silent o name → Picks os name d → Picks (o :: os) name d

inductive FirstPick (scopes : List α) (name : String) (d : Definition α) : Prop
  | lexical : D.Picks scopes name d → FirstPick scopes name d
  | inherited {inner : α} {chain : List α} : (∀ o ∈ scopes, D.Silent o name) →
      scopes.head? = some inner → D.Ancestry inner chain →
      D.Picks (chain ++ [D.toplevel]) name d → FirstPick scopes name d
  | toplevel : scopes = [] → D.Picks [D.toplevel] name d → FirstPick scopes name d

inductive MemberPick (o : α) (name : String) (d : Definition α) : Prop
  | own : D.Sole o name d → MemberPick o name d
  | inherited {chain : List α} : D.Silent o name → D.Ancestry o chain →
      D.Picks chain name d → MemberPick o name d

end Declarations

/-- What the search is about at one moment: a path, a definition, or what is left of a path
in the object found so far. -/
inductive Query (α : Type)
  | reference (r : Reference α)
  | definition (d : Definition α)
  | member (o : α) (path : List String)

namespace Declarations

variable {α : Type} (D : Declarations α)

inductive Denotes : Query α → α → Prop
  | object {o : α} : Denotes (.definition (.object o)) o
  | aliased {r : Reference α} {o : α} :
      Denotes (.reference r) o → Denotes (.definition (.aliasOf r)) o
  | found {o : α} : Denotes (.member o []) o
  | member {o o' o'' : α} {name : String} {rest : List String} {d : Definition α} :
      D.MemberPick o name d → Denotes (.definition d) o' → Denotes (.member o' rest) o'' →
      Denotes (.member o (name :: rest)) o''
  | reference {scopes : List α} {name : String} {rest : List String} {d : Definition α}
      {o o' : α} :
      D.FirstPick scopes name d → Denotes (.definition d) o → Denotes (.member o rest) o' →
      Denotes (.reference ⟨scopes, name :: rest⟩) o'

/-- The queries a query turns into. -/
inductive Visit : Query α → Query α → Prop
  | aliased {r : Reference α} : Visit (.definition (.aliasOf r)) (.reference r)
  | member {o : α} {name : String} {rest : List String} {d : Definition α} :
      D.MemberPick o name d → Visit (.member o (name :: rest)) (.definition d)
  | memberRest {o o' : α} {name : String} {rest : List String} {d : Definition α} :
      D.MemberPick o name d → D.Denotes (.definition d) o' →
      Visit (.member o (name :: rest)) (.member o' rest)
  | first {scopes : List α} {name : String} {rest : List String} {d : Definition α} :
      D.FirstPick scopes name d → Visit (.reference ⟨scopes, name :: rest⟩) (.definition d)
  | firstRest {scopes : List α} {name : String} {rest : List String} {d : Definition α} {o : α} :
      D.FirstPick scopes name d → D.Denotes (.definition d) o →
      Visit (.reference ⟨scopes, name :: rest⟩) (.member o rest)

abbrev Visits : Query α → Query α → Prop := Relation.ReflTransGen D.Visit

variable {D}

theorem Sole.not_silent {o : α} {name : String} {d : Definition α} (h : D.Sole o name d) :
    ¬ D.Silent o name := by
  intro hsilent
  have hmem : d ∈ D.defs o name := h ▸ rfl
  rw [hsilent] at hmem
  exact hmem

theorem Sole.unique {o : α} {name : String} {d d' : Definition α} (h : D.Sole o name d)
    (h' : D.Sole o name d') : d = d' :=
  Set.singleton_injective (h.symm.trans h')

theorem Sole.mem {o : α} {name : String} {d : Definition α} (h : D.Sole o name d) :
    d ∈ D.defs o name := h ▸ rfl

theorem Sole.subsingleton {o : α} {name : String} {d : Definition α} (h : D.Sole o name d) :
    (D.defs o name).Subsingleton := by
  rw [h]
  exact Set.subsingleton_singleton

theorem sole_of_subsingleton {o : α} {name : String} {d : Definition α}
    (hone : (D.defs o name).Subsingleton) (hmem : d ∈ D.defs o name) : D.Sole o name d :=
  hone.eq_singleton_of_mem hmem

/-! ### Picking -/

theorem Picks.append_right {os : List α} {name : String} {d : Definition α}
    (h : D.Picks os name d) (more : List α) : D.Picks (os ++ more) name d := by
  induction h with
  | here hsole => exact .here hsole
  | outward hsilent _ ih => exact .outward hsilent (ih)

theorem Picks.past {os : List α} {name : String} {d : Definition α} (h : D.Picks os name d)
    {before : List α} (hbefore : ∀ o ∈ before, D.Silent o name) :
    D.Picks (before ++ os) name d := by
  induction before with
  | nil => exact h
  | cons o before ih =>
    exact .outward (hbefore o List.mem_cons_self)
      (ih fun o' ho' ↦ hbefore o' (List.mem_cons_of_mem _ ho'))

theorem Picks.of_append {before os : List α} {name : String} {d : Definition α}
    (h : D.Picks (before ++ os) name d) :
    D.Picks before name d ∨ (∀ o ∈ before, D.Silent o name) ∧ D.Picks os name d := by
  induction before with
  | nil => exact Or.inr ⟨by simp, h⟩
  | cons o before ih =>
    cases h with
    | here hsole => exact Or.inl (.here hsole)
    | outward hsilent hrest =>
      rcases ih hrest with hpick | ⟨hall, hpick⟩
      · exact Or.inl (.outward hsilent hpick)
      · exact Or.inr ⟨List.forall_mem_cons.mpr ⟨hsilent, hall⟩, hpick⟩

theorem Picks.exists_sole {os : List α} {name : String} {d : Definition α}
    (h : D.Picks os name d) : ∃ o ∈ os, D.Sole o name d := by
  induction h with
  | here hsole => exact ⟨_, List.mem_cons_self, hsole⟩
  | outward _ _ ih =>
    obtain ⟨o, ho, hsole⟩ := ih
    exact ⟨o, List.mem_cons_of_mem _ ho, hsole⟩

theorem Picks.not_all_silent {os : List α} {name : String} {d : Definition α}
    (h : D.Picks os name d) : ¬ ∀ o ∈ os, D.Silent o name := by
  obtain ⟨o, ho, hsole⟩ := h.exists_sole
  exact fun hall ↦ hsole.not_silent (hall o ho)

theorem Picks.unique {os : List α} {name : String} {d d' : Definition α}
    (h : D.Picks os name d) (h' : D.Picks os name d') : d = d' := by
  induction h with
  | here hsole =>
    cases h' with
    | here hsole' => exact hsole.unique hsole'
    | outward hsilent _ => exact absurd hsilent hsole.not_silent
  | outward hsilent _ ih =>
    cases h' with
    | here hsole' => exact absurd hsilent hsole'.not_silent
    | outward _ hrest => exact ih hrest

theorem FirstPick.exists_sole {scopes : List α} {name : String} {d : Definition α}
    (h : D.FirstPick scopes name d) : ∃ o, D.Sole o name d := by
  cases h with
  | lexical hpick =>
    obtain ⟨o, -, hsole⟩ := hpick.exists_sole
    exact ⟨o, hsole⟩
  | inherited _ _ _ hpick =>
    obtain ⟨o, -, hsole⟩ := hpick.exists_sole
    exact ⟨o, hsole⟩
  | toplevel _ hpick =>
    obtain ⟨o, -, hsole⟩ := hpick.exists_sole
    exact ⟨o, hsole⟩

theorem FirstPick.unique {scopes : List α} {name : String} {d d' : Definition α}
    (h : D.FirstPick scopes name d) (h' : D.FirstPick scopes name d') : d = d' := by
  cases h with
  | lexical hpick =>
    cases h' with
    | lexical hpick' => exact hpick.unique hpick'
    | inherited hall _ _ _ => exact absurd hall hpick.not_all_silent
    | toplevel hnil _ => exact absurd (by simp [hnil]) hpick.not_all_silent
  | inherited hall hhead hchain hpick =>
    cases h' with
    | lexical hpick' => exact absurd hall hpick'.not_all_silent
    | inherited _ hhead' hchain' hpick' =>
      obtain rfl := Option.some.inj (hhead.symm.trans hhead')
      obtain rfl := D.ancestry_unique hchain hchain'
      exact hpick.unique hpick'
    | toplevel hnil _ => simp [hnil] at hhead
  | toplevel hnil hpick =>
    cases h' with
    | lexical hpick' => exact absurd (by simp [hnil]) hpick'.not_all_silent
    | inherited _ hhead' _ _ => simp [hnil] at hhead'
    | toplevel _ hpick' => exact hpick.unique hpick'

theorem MemberPick.unique {o : α} {name : String} {d d' : Definition α}
    (h : D.MemberPick o name d) (h' : D.MemberPick o name d') : d = d' := by
  cases h with
  | own hsole =>
    cases h' with
    | own hsole' => exact hsole.unique hsole'
    | inherited hsilent _ _ => exact absurd hsilent hsole.not_silent
  | inherited hsilent hchain hpick =>
    cases h' with
    | own hsole' => exact absurd hsilent hsole'.not_silent
    | inherited _ hchain' hpick' =>
      obtain rfl := D.ancestry_unique hchain hchain'
      exact hpick.unique hpick'

/-- A query denotes at most one object. -/
theorem Denotes.unique {q : Query α} {o o' : α} (h : D.Denotes q o) (h' : D.Denotes q o') :
    o = o' := by
  induction h generalizing o' with
  | object => cases h' with | object => rfl
  | aliased _ ih => cases h' with | aliased hr => exact ih hr
  | found => cases h' with | found => rfl
  | member hpick _ _ ihd ihrest =>
    cases h' with
    | member hpick' hd' hrest' =>
      obtain rfl := hpick.unique hpick'
      obtain rfl := ihd hd'
      exact ihrest hrest'
  | reference hpick _ _ ihd ihrest =>
    cases h' with
    | reference hpick' hd' hrest' =>
      obtain rfl := hpick.unique hpick'
      obtain rfl := ihd hd'
      exact ihrest hrest'

/-- A lookup that starts in the lexical scopes and at top level, for a name the ancestors of
the innermost scope leave alone. -/
theorem FirstPick.of_picks {scopes : List α} {name : String} {d : Definition α}
    (hpick : D.Picks (scopes ++ [D.toplevel]) name d)
    (hchain : (∀ o ∈ scopes, D.Silent o name) → ∀ inner, scopes.head? = some inner →
      ∃ chain, D.Ancestry inner chain ∧ ∀ o ∈ chain, D.Silent o name) :
    D.FirstPick scopes name d := by
  rcases hpick.of_append with hlexical | ⟨hsilent, htop⟩
  · exact .lexical hlexical
  · cases hscopes : scopes with
    | nil => exact .toplevel rfl htop
    | cons inner outer =>
      obtain ⟨chain, hancestry, hquiet⟩ := hchain hsilent inner (by simp [hscopes])
      rw [← hscopes]
      exact .inherited hsilent (by simp [hscopes]) hancestry (htop.past hquiet)

end Declarations

end Ruby

end Itaruby
