import Itaruby.Ruby.CoreBehaviour

/-!
Methods of arrays and hashes. For each that takes its result from the arguments, from the block or
from what the elements are made of: the calls that leave it of the type of the receiver.
-/

set_option autoImplicit false
set_option relaxedAutoImplicit false

namespace Itaruby

namespace Ruby

namespace Protocols

variable (P : Protocols)

/-- What is left of an element when the arrays in it are flattened. -/
inductive Leaf : Option ℕ → Datum → Datum → Prop
  | itself (depth : Option ℕ) (x : Datum) : P.elements x = none → Leaf depth x x
  | kept (x : Datum) : Leaf (some 0) x x
  | deep (x y z : Datum) (l : List Datum) : P.elements x = some l → y ∈ l → Leaf none y z →
      Leaf none x z
  | level (depth : ℕ) (x y z : Datum) (l : List Datum) : P.elements x = some l → y ∈ l →
      Leaf (some depth) y z → Leaf (some (depth + 1)) x z

/-- An entry that storing pairs in a hash brings in. -/
def BroughtIn (resolve : List Datum → Datum → Prop) (l new : List (Datum × Datum))
    (p : Datum × Datum) : Prop :=
  ∃ l', P.StoredAll resolve l new l' ∧ p ∈ l' ∧ p ∉ l

variable {P}

theorem leaf_of_elements_none {depth : Option ℕ} {x z : Datum} (hx : P.elements x = none)
    (h : P.Leaf depth x z) : z = x := by
  cases h with
  | itself => rfl
  | kept => rfl
  | deep _ _ _ l hl => cases hx.symm.trans hl
  | level _ _ _ _ l hl => cases hx.symm.trans hl

theorem mem_flattened {depth : Option ℕ} {l ys : List Datum} {z : Datum}
    (h : P.Flattened depth l ys) : z ∈ ys ↔ ∃ x ∈ l, P.Leaf depth x z := by
  induction h with
  | nil => simp
  | leaf depth x rest ys hx _ ih =>
    have hleaf : P.Leaf depth x z ↔ z = x := by
      constructor
      · exact leaf_of_elements_none hx
      · rintro rfl
        exact .itself depth z hx
    simp only [List.mem_cons, ih, exists_eq_or_imp, hleaf]
  | kept x rest ys _ ih =>
    have hleaf : P.Leaf (some 0) x z ↔ z = x := by
      constructor
      · intro hz
        cases hz <;> rfl
      · rintro rfl
        exact .kept z
    simp only [List.mem_cons, ih, exists_eq_or_imp, hleaf]
  | deep x l rest ys zs hl _ _ ihl ih =>
    have hleaf : P.Leaf none x z ↔ ∃ y ∈ l, P.Leaf none y z := by
      constructor
      · intro hz
        cases hz with
        | itself _ _ hx => cases hx.symm.trans hl
        | deep _ y _ l' hl' hy hyz =>
          cases hl.symm.trans hl'
          exact ⟨y, hy, hyz⟩
      · rintro ⟨y, hy, hyz⟩
        exact .deep x y z l hl hy hyz
    simp only [List.mem_append, ihl, ih, List.mem_cons, exists_eq_or_imp, hleaf]
  | level depth x l rest ys zs hl _ _ ihl ih =>
    have hleaf : P.Leaf (some (depth + 1)) x z ↔ ∃ y ∈ l, P.Leaf (some depth) y z := by
      constructor
      · intro hz
        cases hz with
        | itself _ _ hx => cases hx.symm.trans hl
        | level _ _ y _ l' hl' hy hyz =>
          cases hl.symm.trans hl'
          exact ⟨y, hy, hyz⟩
      · rintro ⟨y, hy, hyz⟩
        exact .level depth x y z l hl hy hyz
    simp only [List.mem_append, ihl, ih, List.mem_cons, exists_eq_or_imp, hleaf]

section Storing

variable {K V : Datum → Prop} {l l' : List (Datum × Datum)}

theorem stored_forall {p : Datum × Datum} (h : P.Stored newValue l p l')
    (hl : ∀ q ∈ l, K q.1 ∧ V q.2) (hp : K p.1 ∧ V p.2) : ∀ q ∈ l', K q.1 ∧ V q.2 := by
  induction h with
  | last p =>
    intro q hq
    rw [List.mem_singleton.mp hq]
    exact hp
  | same e p rest w _ hw =>
    have hvalue : p.2 = w := by simpa [newValue] using hw
    intro q hq
    rcases List.mem_cons.mp hq with rfl | hq
    · exact ⟨(hl e List.mem_cons_self).1, hvalue ▸ hp.2⟩
    · exact hl q (List.mem_cons_of_mem e hq)
  | other e p rest rest' _ _ ih =>
    intro q hq
    rcases List.mem_cons.mp hq with rfl | hq
    · exact hl q List.mem_cons_self
    · exact ih (fun r hr ↦ hl r (List.mem_cons_of_mem e hr)) hp q hq

theorem storedAll_forall {new : List (Datum × Datum)} (h : P.StoredAll newValue l new l')
    (hl : ∀ q ∈ l, K q.1 ∧ V q.2) (hnew : ∀ q ∈ new, K q.1 ∧ V q.2) :
    ∀ q ∈ l', K q.1 ∧ V q.2 := by
  induction h with
  | nil => exact hl
  | cons l l₁ l₂ p rest hp _ ih =>
    apply ih
    · exact stored_forall hp hl (hnew p List.mem_cons_self)
    · exact fun q hq ↦ hnew q (List.mem_cons_of_mem p hq)

end Storing

end Protocols

namespace Behaviour

section Containers

variable (P : Protocols) (A : Ancestry) (e k v : Ty)

/-- There is an element to take; a number of them is asked for only where the element type covers
the array of them. -/
def ElementFits (ending : End) (l args : List Datum) : Prop :=
  match args with
  | [] => l = [] → e.Describes A .nil
  | [a] => (ending = .extreme → a = .nil → l = [] → e.Describes A .nil) ∧
    ∀ n : ℕ, P.count a = some (n : ℤ) → ∀ l', Taken ending n l l' → e.Describes A (.array none l')
  | _ => True

/-- What comes out of nested arrays is of the element type. -/
def FlattensFits (l args : List Datum) : Prop :=
  ∀ depth, P.depthOf args = some depth → (∃ ys, P.Flattened depth l ys) →
    ∀ x ∈ l, ∀ z, P.Leaf depth x z → e.Describes A z

def AppendsFits (call : CoreCall) : Prop :=
  (call.name = "<<" → call.args.length = 1) → ∀ x ∈ call.args, e.Describes A x

def ConcatenatesFits (args : List Datum) : Prop :=
  ∀ l', joined P args = some l' → ∀ x ∈ l', e.Describes A x

/-- What the arguments bring in is of the key and value types. -/
def MergesFits (l : List (Datum × Datum)) (call : CoreCall) : Prop :=
  ∀ new, mergedIn P call.args = some new →
    ∀ p, P.BroughtIn (call.block.getD Protocols.newValue) l new p →
      k.Describes A p.1 ∧ v.Describes A p.2

/-- The pairs of a block that stay are of the key and value types. -/
def ToHashFits (l : List (Datum × Datum)) (call : CoreCall) : Prop :=
  ∀ block, call.block = some block → ∀ pairs, PairsOf P block l pairs →
    ∀ p, P.BroughtIn Protocols.newValue [] pairs p → k.Describes A p.1 ∧ v.Describes A p.2

variable {P A e k v} {call : CoreCall}

theorem element_iff {ending : End} {cls : Option ClassId} {l : List Datum}
    (hrecv : call.receiver = .array cls l) (hl : ∀ x ∈ l, e.Describes A x) :
    (∀ w, Element P ending call w → e.Describes A w) ↔ ElementFits P A e ending l call.args := by
  have hpicked : ∀ w, Picked ending l w → e.Describes A w := by
    intro w hw
    cases ending with
    | front => exact hl w (List.mem_of_head? hw)
    | back => exact hl w (List.mem_of_getLast? hw)
    | extreme => exact hl w hw
  obtain ⟨name, _, onSelf, args, block⟩ := call
  cases hrecv
  rcases args with _ | ⟨a, _ | ⟨b, rest⟩⟩
  · constructor
    · intro h hempty
      exact h .nil ⟨cls, l, rfl, .inl ⟨hempty, rfl⟩⟩
    · rintro h w ⟨_, _, heq, hw⟩
      cases heq
      rcases hw with ⟨hempty, rfl⟩ | hw
      · exact h hempty
      · exact hpicked w hw
  · constructor
    · intro h
      constructor
      · intro hending ha hempty
        exact h .nil ⟨cls, l, rfl, .inl ⟨hending, ha, .inl ⟨hempty, rfl⟩⟩⟩
      · intro n hn l' hl'
        exact h _ ⟨cls, l, rfl, .inr ⟨n, hn, l', hl', rfl⟩⟩
    · rintro ⟨hnil, hcount⟩ w ⟨_, _, heq, hw⟩
      cases heq
      rcases hw with ⟨hending, ha, ⟨hempty, rfl⟩ | hw⟩ | ⟨n, hn, l', hl', rfl⟩
      · exact hnil hending ha hempty
      · exact hpicked w hw
      · exact hcount n hn l' hl'
  · constructor
    · exact fun _ ↦ trivial
    · rintro - w ⟨_, _, -, hw⟩
      exact hw.elim

theorem flattens_iff {cls : Option ClassId} {l : List Datum}
    (hrecv : call.receiver = .array cls l) :
    (∀ w, Returns P call w .flattens → (Ty.array e).Describes A w) ↔
      FlattensFits P A e l call.args := by
  constructor
  · intro h depth hdepth ⟨ys, hys⟩ x hx z hz
    have hw := h _ ⟨cls, l, depth, ys, hrecv, hdepth, hys, rfl⟩
    exact Ty.describes_array.mp hw z ((Protocols.mem_flattened hys).mpr ⟨x, hx, hz⟩)
  · rintro h w ⟨_, l', depth, ys, hrecv', hdepth, hys, rfl⟩
    cases hrecv.symm.trans hrecv'
    rw [Ty.describes_array]
    intro z hz
    obtain ⟨x, hx, hxz⟩ := (Protocols.mem_flattened hys).mp hz
    exact h depth hdepth ⟨ys, hys⟩ x hx z hxz

theorem appends_iff {cls : Option ClassId} {l : List Datum}
    (hrecv : call.receiver = .array cls l) (hl : ∀ x ∈ l, e.Describes A x) :
    (∀ w, Returns P call w .appends → (Ty.array e).Describes A w) ↔ AppendsFits A e call := by
  constructor
  · intro h hname x hx
    have hw := h _ ⟨cls, l, hrecv, hname, rfl⟩
    exact Ty.describes_array.mp hw x (List.mem_append_right l hx)
  · rintro h w ⟨_, l', hrecv', hname, rfl⟩
    cases hrecv.symm.trans hrecv'
    rw [Ty.describes_array]
    intro x hx
    rcases List.mem_append.mp hx with hx | hx
    · exact hl x hx
    · exact h hname x hx

theorem concatenates_iff {cls : Option ClassId} {l : List Datum}
    (hrecv : call.receiver = .array cls l) (hl : ∀ x ∈ l, e.Describes A x) :
    (∀ w, Returns P call w .concatenates → (Ty.array e).Describes A w) ↔
      ConcatenatesFits P A e call.args := by
  constructor
  · intro h l' hl' x hx
    have hw := h _ ⟨cls, none, l, l', hrecv, hl', rfl⟩
    exact Ty.describes_array.mp hw x (List.mem_append_right l hx)
  · rintro h w ⟨_, _, _, l', hrecv', hl', rfl⟩
    cases hrecv.symm.trans hrecv'
    rw [Ty.describes_array]
    intro x hx
    rcases List.mem_append.mp hx with hx | hx
    · exact hl x hx
    · exact h l' hl' x hx

theorem merges_iff {cls : Option ClassId} {l : List (Datum × Datum)}
    (hrecv : call.receiver = .hash cls l)
    (hl : ∀ p ∈ l, k.Describes A p.1 ∧ v.Describes A p.2) :
    (∀ w, Returns P call w .merges → (Ty.hash k v).Describes A w) ↔ MergesFits P A k v l call := by
  constructor
  · rintro h new hnew p ⟨l', hstored, hp, -⟩
    have hw := h _ ⟨cls, l, new, l', hrecv, hnew, hstored, rfl⟩
    exact Ty.describes_hash.mp hw p hp
  · rintro h w ⟨_, _, new, l', hrecv', hnew, hstored, rfl⟩
    cases hrecv.symm.trans hrecv'
    rw [Ty.describes_hash]
    intro p hp
    by_cases hold : p ∈ l
    · exact hl p hold
    · exact h new hnew p ⟨l', hstored, hp, hold⟩

theorem toHash_iff {cls : Option ClassId} {l : List (Datum × Datum)}
    (hrecv : call.receiver = .hash cls l)
    (hl : ∀ p ∈ l, k.Describes A p.1 ∧ v.Describes A p.2) :
    (∀ w, Returns P call w .toHash → (Ty.hash k v).Describes A w) ↔ ToHashFits P A k v l call := by
  obtain ⟨name, _, onSelf, args, block⟩ := call
  cases hrecv
  cases block with
  | none =>
    constructor
    · rintro - block hblock
      cases hblock
    · rintro - w ⟨_, _, _, heq, rfl⟩
      cases heq
      exact Ty.describes_hash.mpr hl
  | some block =>
    constructor
    · rintro h _ hblock pairs hpairs p ⟨l', hstored, hp, -⟩
      cases hblock
      have hw := h _ ⟨cls, l, pairs, l', rfl, hpairs, hstored, rfl⟩
      exact Ty.describes_hash.mp hw p hp
    · rintro h w ⟨_, _, pairs, l', heq, hpairs, hstored, rfl⟩
      cases heq
      rw [Ty.describes_hash]
      intro p hp
      exact h block rfl pairs hpairs p ⟨l', hstored, hp, List.not_mem_nil⟩

/-- Without a block it is enough that all entries of the arguments are of the types. -/
theorem mergesFits_of_new {l : List (Datum × Datum)} (hblock : call.block = none)
    (hl : ∀ p ∈ l, k.Describes A p.1 ∧ v.Describes A p.2)
    (hnew : ∀ new, mergedIn P call.args = some new →
      ∀ p ∈ new, k.Describes A p.1 ∧ v.Describes A p.2) :
    MergesFits P A k v l call := by
  rintro new hmerged p ⟨l', hstored, hp, -⟩
  rw [hblock] at hstored
  exact Protocols.storedAll_forall hstored hl (hnew new hmerged) p hp

end Containers

end Behaviour

end Ruby

end Itaruby
