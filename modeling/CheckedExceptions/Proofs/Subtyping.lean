import CheckedExceptions.Proofs.Hierarchy

/-! The subtype relation of a store as a preorder. It is read without its limit on nesting first,
level by level, and the limit is shown not to matter for types that are nested half as deep. -/

namespace CheckedExceptions

/-- The components that the subtype relation looks into. Classes, instantiations, primitive types
and type parameters without a bound have none. -/
def Shape.unfolded : Shape → List TypeRef
  | .typeParam _ (some bound) => [some bound]
  | .array elem => [elem]
  | .disjunction alternatives => alternatives
  | _ => []

def Shape.isDisjunction : Shape → Bool
  | .disjunction _ => true
  | _ => false

def Shape.isNominal : Shape → Bool
  | .declared .. => true
  | .instantiation .. => true
  | _ => false

def Shape.origin? : Shape → Option TypeRef
  | .instantiation origin _ => some origin
  | _ => none

/-- A type of this shape is below the top class, if that has the shape `above`, whatever it is made
of. -/
def Shape.underTop (shape above : Shape) : Bool :=
  match shape, above with
  | .typeParam _ none, _ => true
  | .array _, .array _ => false
  | .array _, _ => true
  | shape, _ => shape.isNominal

theorem Shape.eq_disjunction {shape : Shape} (h : shape.isDisjunction = true) :
    ∃ alternatives, shape = .disjunction alternatives := by
  cases shape with
  | disjunction alternatives => exact ⟨alternatives, rfl⟩
  | _ => cases h

theorem Shape.isDisjunction_eq_false {shape : Shape}
    (h : ∀ alternatives, shape = .disjunction alternatives → False) :
    shape.isDisjunction = false := by
  cases shape with
  | disjunction alternatives => exact (h alternatives rfl).elim
  | _ => rfl

theorem Shape.underTop_of_isNominal {shape above : Shape} (h : shape.isNominal = true) :
    shape.underTop above = true := by
  cases shape with
  | declared | instantiation => rfl
  | _ => cases h

namespace TypeStore

variable {st : TypeStore} {a b c : TypeRef}

def unfolded (st : TypeStore) (ty : TypeRef) : List TypeRef :=
  ((st.shape? ty).map Shape.unfolded).getD []

def nestsWithin (st : TypeStore) : (depth : Nat) → TypeRef → Bool
  | 0, ty => (st.unfolded ty).isEmpty
  | depth + 1, ty => (st.unfolded ty).all (st.nestsWithin depth)

theorem shape?_unique {shape shape' : Shape} (h : st.shape? a = some shape)
    (h' : st.shape? a = some shape') : shape = shape' :=
  Option.some.inj (h.symm.trans h')

/-- One level of the subtype relation between different types, where `rel` relates their
components. -/
inductive Level (st : TypeStore) (rel : TypeRef → TypeRef → Prop) (sub sup : TypeRef) : Prop
  | left {alternatives shape} : st.shape? sub = some (.disjunction alternatives) →
      st.shape? sup = some shape → (∀ ty ∈ alternatives, rel ty sup) → Level st rel sub sup
  | right {shape alternatives ty} : st.shape? sub = some shape → shape.isDisjunction = false →
      st.shape? sup = some (.disjunction alternatives) → ty ∈ alternatives → rel sub ty →
      Level st rel sub sup
  | bound {name bound shape} : st.shape? sub = some (.typeParam name (some bound)) →
      st.shape? sup = some shape → shape.isDisjunction = false → rel (some bound) sup →
      Level st rel sub sup
  | array {elem supElem} : st.shape? sub = some (.array elem) →
      st.shape? sup = some (.array supElem) → rel elem supElem → Level st rel sub sup
  | top {shape supShape} : st.shape? sub = some shape → st.shape? sup = some supShape →
      supShape.isDisjunction = false → shape.underTop supShape = true → st.isTop sup = true →
      Level st rel sub sup
  | inherits {shape supShape} : st.shape? sub = some shape → shape.isNominal = true →
      st.shape? sup = some supShape → supShape.isDisjunction = false →
      st.inherits (st.erase sub) (st.erase sup) = true → Level st rel sub sup

theorem Level.of_isSubtypeWithin {depth : Nat} (h : st.isSubtypeWithin (depth + 1) a b = true) :
    a = b ∨ st.Level (fun x y => st.isSubtypeWithin depth x y = true) a b := by
  apply (Bool.or_eq_true_iff.mp h).imp beq_iff_eq.mp
  intro h
  split at h
  · next ha hb => exact .left ha hb (List.all_eq_true.mp h)
  · next hplain ha hb =>
    obtain ⟨ty, hty, hrel⟩ := List.any_eq_true.mp h
    exact .right ha (Shape.isDisjunction_eq_false hplain) hb hty hrel
  · cases h
  · next hplain ha hb => exact .top ha hb (Shape.isDisjunction_eq_false hplain) rfl h
  · next bound shape hplain hbound ha hb =>
    cases bound with
    | none => exact (hbound rfl).elim
    | some bound => exact .bound ha hb (Shape.isDisjunction_eq_false hplain) h
  · next ha hb => exact .array ha hb h
  · next shape hplain harray ha hb =>
    refine .top ha hb (Shape.isDisjunction_eq_false hplain) ?_ h
    cases shape with
    | array elem => exact (harray elem rfl).elim
    | _ => rfl
  · next shape supShape halternatives hplain hprimitive hopen hparam helem harray ha hb =>
    have hnominal : shape.isNominal = true := by
      cases shape with
      | declared => rfl
      | instantiation => rfl
      | primitive name => exact (hprimitive name rfl).elim
      | typeParam name bound => exact (hparam name bound rfl).elim
      | array elem => exact (harray elem rfl).elim
      | disjunction alternatives => exact (halternatives alternatives rfl).elim
    have hplain := Shape.isDisjunction_eq_false hplain
    rcases Bool.or_eq_true_iff.mp h with htop | hinherits
    · exact .top ha hb hplain (Shape.underTop_of_isNominal hnominal) htop
    · exact .inherits ha hnominal hb hplain hinherits
  · cases h

theorem Level.isSubtypeWithin {depth : Nat}
    (h : st.Level (fun x y => st.isSubtypeWithin depth x y = true) a b) :
    st.isSubtypeWithin (depth + 1) a b = true := by
  refine Bool.or_eq_true_iff.mpr (Or.inr ?_)
  cases h with
  | left ha hb hrel =>
    rw [ha, hb]
    exact List.all_eq_true.mpr hrel
  | @right shape _ ty ha hplain hb hty hrel =>
    rw [ha, hb]
    cases shape with
    | disjunction => cases hplain
    | _ => exact List.any_eq_true.mpr ⟨ty, hty, hrel⟩
  | @bound _ _ shape ha hb hplain hrel =>
    rw [ha, hb]
    cases shape with
    | disjunction => cases hplain
    | _ => exact hrel
  | array ha hb hrel =>
    rw [ha, hb]
    exact hrel
  | @top shape supShape ha hb hplain hunder htop =>
    rw [ha, hb, htop]
    cases supShape with
    | disjunction => cases hplain
    | array => rcases shape with _ | _ | ⟨_, _ | _⟩ | _ | _ | _ <;> first | rfl | cases hunder
    | _ => rcases shape with _ | _ | ⟨_, _ | _⟩ | _ | _ | _ <;> first | rfl | cases hunder
  | @inherits shape supShape ha hnominal hb hplain hinherits =>
    rw [ha, hb, hinherits]
    cases supShape with
    | disjunction => cases hplain
    | _ => cases shape <;> first | exact Bool.or_true _ | cases hnominal

theorem isSubtypeWithin_self (depth : Nat) (a : TypeRef) :
    st.isSubtypeWithin depth a a = true := by
  cases depth with
  | zero => exact beq_self_eq_true a
  | succ depth => exact Bool.or_eq_true_iff.mpr (Or.inl (beq_self_eq_true a))

theorem isSubtypeWithin_succ {depth : Nat} : st.isSubtypeWithin (depth + 1) a b = true ↔
    a = b ∨ st.Level (fun x y => st.isSubtypeWithin depth x y = true) a b := by
  refine ⟨Level.of_isSubtypeWithin, ?_⟩
  rintro (rfl | hlevel)
  · exact isSubtypeWithin_self (depth + 1) a
  · exact hlevel.isSubtypeWithin

theorem Level.mono {rel rel' : TypeRef → TypeRef → Prop} (h : st.Level rel a b)
    (hrel : ∀ x y, rel x y → rel' x y) : st.Level rel' a b := by
  cases h with
  | left ha hb h => exact .left ha hb fun ty hty => hrel _ _ (h ty hty)
  | right ha hplain hb hty h => exact .right ha hplain hb hty (hrel _ _ h)
  | bound ha hb hplain h => exact .bound ha hb hplain (hrel _ _ h)
  | array ha hb h => exact .array ha hb (hrel _ _ h)
  | top ha hb hplain hunder htop => exact .top ha hb hplain hunder htop
  | inherits ha hnominal hb hplain h => exact .inherits ha hnominal hb hplain h

/-- A positive answer is not lost when more levels are followed. -/
theorem isSubtypeWithin_mono {depth more : Nat} (hle : depth ≤ more)
    (h : st.isSubtypeWithin depth a b = true) : st.isSubtypeWithin more a b = true := by
  induction depth generalizing more a b with
  | zero =>
    obtain rfl : a = b := beq_iff_eq.mp h
    exact isSubtypeWithin_self more a
  | succ depth ih =>
    obtain ⟨more, rfl⟩ := Nat.exists_eq_add_of_le' (Nat.le_trans (Nat.le_add_left 1 depth) hle)
    rcases isSubtypeWithin_succ.mp h with rfl | hlevel
    · exact isSubtypeWithin_succ.mpr (Or.inl rfl)
    · exact isSubtypeWithin_succ.mpr
        (Or.inr (hlevel.mono fun x y => ih (Nat.le_of_succ_le_succ hle)))

/-- The subtype relation without a limit on nesting. -/
def Below (st : TypeStore) (a b : TypeRef) : Prop :=
  ∃ depth, st.isSubtypeWithin depth a b = true

theorem below_refl (st : TypeStore) (a : TypeRef) : st.Below a a :=
  ⟨0, isSubtypeWithin_self 0 a⟩

theorem below_all {tys : List TypeRef} (h : ∀ ty ∈ tys, st.Below ty b) :
    ∃ depth, ∀ ty ∈ tys, st.isSubtypeWithin depth ty b = true := by
  induction tys with
  | nil => exact ⟨0, fun ty hty => absurd hty List.not_mem_nil⟩
  | cons ty tys ih =>
    obtain ⟨d, hd⟩ := h ty List.mem_cons_self
    obtain ⟨e, he⟩ := ih fun x hx => h x (List.mem_cons_of_mem ty hx)
    refine ⟨max d e, fun x hx => ?_⟩
    rcases List.mem_cons.mp hx with rfl | hx
    · exact isSubtypeWithin_mono (Nat.le_max_left d e) hd
    · exact isSubtypeWithin_mono (Nat.le_max_right d e) (he x hx)

theorem Level.below (h : st.Level st.Below a b) : st.Below a b := by
  have hsucc : ∀ depth, st.Level (fun x y => st.isSubtypeWithin depth x y = true) a b →
      st.Below a b := fun depth h => ⟨depth + 1, isSubtypeWithin_succ.mpr (Or.inr h)⟩
  cases h with
  | left ha hb h =>
    obtain ⟨depth, hall⟩ := below_all h
    exact hsucc depth (.left ha hb hall)
  | right ha hplain hb hty h =>
    obtain ⟨depth, h⟩ := h
    exact hsucc depth (.right ha hplain hb hty h)
  | bound ha hb hplain h =>
    obtain ⟨depth, h⟩ := h
    exact hsucc depth (.bound ha hb hplain h)
  | array ha hb h =>
    obtain ⟨depth, h⟩ := h
    exact hsucc depth (.array ha hb h)
  | top ha hb hplain hunder htop => exact hsucc 0 (.top ha hb hplain hunder htop)
  | inherits ha hnominal hb hplain h => exact hsucc 0 (.inherits ha hnominal hb hplain h)

theorem below_iff : st.Below a b ↔ a = b ∨ st.Level st.Below a b := by
  constructor
  · rintro ⟨depth, h⟩
    rcases isSubtypeWithin_succ.mp (isSubtypeWithin_mono (Nat.le_succ depth) h) with rfl | hlevel
    · exact Or.inl rfl
    · exact Or.inr (hlevel.mono fun x y hxy => ⟨depth, hxy⟩)
  · rintro (rfl | hlevel)
    · exact st.below_refl a
    · exact hlevel.below

theorem nestsWithin_part {depth : Nat} {part : TypeRef} (h : st.nestsWithin depth a = true)
    (hpart : part ∈ st.unfolded a) :
    ∃ less, depth = less + 1 ∧ st.nestsWithin less part = true := by
  cases depth with
  | zero =>
    rw [nestsWithin, List.isEmpty_iff] at h
    exact absurd (h ▸ hpart) List.not_mem_nil
  | succ less => exact ⟨less, rfl, List.all_eq_true.mp h part hpart⟩

theorem nestsWithin_of_shape?_eq_none {depth : Nat} (h : st.shape? a = none) :
    st.nestsWithin depth a = true := by
  cases depth <;> simp [nestsWithin, unfolded, h]

theorem mem_unfolded {shape : Shape} {part : TypeRef} (h : st.shape? a = some shape)
    (hpart : part ∈ shape.unfolded) : part ∈ st.unfolded a := by
  simpa [unfolded, h] using hpart

/-- For types nested `i` and `j` levels deep, it is enough to follow `i + j` levels. -/
theorem Below.within (h : st.Below a b) {i j : Nat} (ha : st.nestsWithin i a = true)
    (hb : st.nestsWithin j b = true) : st.isSubtypeWithin (i + j + 1) a b = true := by
  obtain ⟨depth, h⟩ := h
  induction depth generalizing a b i j with
  | zero => exact isSubtypeWithin_mono (Nat.zero_le _) h
  | succ depth ih =>
    rcases isSubtypeWithin_succ.mp h with rfl | hlevel
    · exact isSubtypeWithin_succ.mpr (Or.inl rfl)
    · refine isSubtypeWithin_succ.mpr (Or.inr ?_)
      cases hlevel with
      | left hsa hsb h =>
        apply Level.left hsa hsb
        intro ty hty
        obtain ⟨i, rfl, hi⟩ := nestsWithin_part ha (mem_unfolded hsa hty)
        exact isSubtypeWithin_mono (by omega) (ih hi hb (h ty hty))
      | right hsa hplain hsb hty h =>
        obtain ⟨j, rfl, hj⟩ := nestsWithin_part hb (mem_unfolded hsb hty)
        exact .right hsa hplain hsb hty (ih ha hj h)
      | bound hsa hsb hplain h =>
        obtain ⟨i, rfl, hi⟩ := nestsWithin_part ha (mem_unfolded hsa List.mem_cons_self)
        exact .bound hsa hsb hplain (isSubtypeWithin_mono (by omega) (ih hi hb h))
      | array hsa hsb h =>
        obtain ⟨i, rfl, hi⟩ := nestsWithin_part ha (mem_unfolded hsa List.mem_cons_self)
        obtain ⟨j, rfl, hj⟩ := nestsWithin_part hb (mem_unfolded hsb List.mem_cons_self)
        exact .array hsa hsb (isSubtypeWithin_mono (by omega) (ih hi hj h))
      | top hsa hsb hplain hunder htop => exact .top hsa hsb hplain hunder htop
      | inherits hsa hnominal hsb hplain h => exact .inherits hsa hnominal hsb hplain h

def TopIsRoot (st : TypeStore) : Prop :=
  ∀ top, st.wellKnown? .object = some top →
    (∃ name params, st.shape? top = some (.declared name [] params)) ∧
      ∀ shape ∈ st.shapes, ∀ args, shape ≠ .instantiation top args

theorem Level.exists_left {rel : TypeRef → TypeRef → Prop} (h : st.Level rel a b) :
    ∃ shape, st.shape? a = some shape := by
  cases h with
  | left ha _ _ => exact ⟨_, ha⟩
  | right ha _ _ _ _ => exact ⟨_, ha⟩
  | bound ha _ _ _ => exact ⟨_, ha⟩
  | array ha _ _ => exact ⟨_, ha⟩
  | top ha _ _ _ _ => exact ⟨_, ha⟩
  | inherits ha _ _ _ _ => exact ⟨_, ha⟩

theorem Level.exists_right {rel : TypeRef → TypeRef → Prop} (h : st.Level rel a b) :
    ∃ shape, st.shape? b = some shape := by
  cases h with
  | left _ hb _ => exact ⟨_, hb⟩
  | right _ _ hb _ _ => exact ⟨_, hb⟩
  | bound _ hb _ _ => exact ⟨_, hb⟩
  | array _ hb _ => exact ⟨_, hb⟩
  | top _ hb _ _ _ => exact ⟨_, hb⟩
  | inherits _ _ hb _ _ => exact ⟨_, hb⟩

theorem eq_of_isTop (hb : st.isTop b = true) (hc : st.isTop c = true) : b = c := by
  simp only [isTop, beq_iff_eq] at hb hc
  exact Option.some.inj (hb.symm.trans hc)

theorem TopIsRoot.eq_of_level (hst : st.TopIsRoot) {rel : TypeRef → TypeRef → Prop}
    (hb : st.isTop b = true) (h : st.Level rel b c) {shape : Shape} (hc : st.shape? c = some shape)
    (hplain : shape.isDisjunction = false) : b = c := by
  obtain ⟨⟨name, params, hshape⟩, horigin⟩ := hst b (by simpa [isTop] using hb)
  cases h with
  | left hsb => simp [hshape] at hsb
  | right _ _ hsc =>
    obtain rfl := shape?_unique hsc hc
    simp [Shape.isDisjunction] at hplain
  | bound hsb => simp [hshape] at hsb
  | array hsb => simp [hshape] at hsb
  | top _ _ _ _ htop => exact eq_of_isTop hb htop
  | inherits _ _ _ _ hinherits =>
    obtain ⟨-, hext⟩ := inherits_iff.mp hinherits
    have hself : st.erase b = b := by simp [erase, hshape]
    have hnone : st.supertypesOf b = [] := by simp [supertypesOf, hshape]
    have habove : b = st.erase c := by
      rw [hself] at hext
      rcases hext.cases_head with heq | ⟨x, ⟨ty, hty, -⟩, -⟩
      · exact heq
      · exact absurd (hnone ▸ hty) List.not_mem_nil
    unfold erase at habove
    split at habove
    · next origin args hinst =>
      obtain ⟨n, rfl, hn⟩ := Option.bind_eq_some_iff.mp hinst
      exact absurd (by rw [habove]) (horigin _ (Array.mem_of_getElem? hn) args)
    · exact habove

theorem isNominal_of_inherits {shape : Shape} (hb : st.shape? b = some shape)
    (h : st.inherits a (st.erase b) = true) : shape.isNominal = true := by
  obtain ⟨hdeclared, -⟩ := inherits_iff.mp h
  cases shape with
  | declared | instantiation => rfl
  | _ => simp [isDeclared, erase, hb] at hdeclared

theorem Level.of_disjunction_left {rel : TypeRef → TypeRef → Prop} {alternatives : List TypeRef}
    (ha : st.shape? a = some (.disjunction alternatives)) (h : st.Level rel a b) :
    ∀ ty ∈ alternatives, rel ty b := by
  cases h with
  | left ha' _ hall =>
    obtain rfl := Shape.disjunction.inj (shape?_unique ha ha')
    exact hall
  | right ha' hplain =>
    obtain rfl := shape?_unique ha ha'
    cases hplain
  | bound ha' => cases shape?_unique ha ha'
  | array ha' => cases shape?_unique ha ha'
  | top ha' _ _ hunder =>
    obtain rfl := shape?_unique ha ha'
    cases hunder
  | inherits ha' hnominal =>
    obtain rfl := shape?_unique ha ha'
    cases hnominal

theorem Level.of_disjunction_right {rel : TypeRef → TypeRef → Prop} {alternatives : List TypeRef}
    {shape : Shape} (ha : st.shape? a = some shape) (hplain : shape.isDisjunction = false)
    (hb : st.shape? b = some (.disjunction alternatives)) (h : st.Level rel a b) :
    ∃ ty ∈ alternatives, rel a ty := by
  cases h with
  | left ha' =>
    obtain rfl := shape?_unique ha ha'
    cases hplain
  | right _ _ hb' hty hrel =>
    obtain rfl := Shape.disjunction.inj (shape?_unique hb hb')
    exact ⟨_, hty, hrel⟩
  | array _ hb' => cases shape?_unique hb hb'
  | bound _ hb' hplain' | top _ hb' hplain' | inherits _ _ hb' hplain' =>
    obtain rfl := shape?_unique hb hb'
    cases hplain'

theorem Level.of_array {rel : TypeRef → TypeRef → Prop} {elem : TypeRef} {shape : Shape}
    (ha : st.shape? a = some (.array elem)) (hb : st.shape? b = some shape)
    (hplain : shape.isDisjunction = false) (h : st.Level rel a b) :
    (∃ supElem, shape = .array supElem ∧ rel elem supElem) ∨
      ((∀ supElem, shape ≠ .array supElem) ∧ st.isTop b = true) := by
  cases h with
  | left ha' => cases shape?_unique ha ha'
  | right _ _ hb' =>
    obtain rfl := shape?_unique hb hb'
    cases hplain
  | bound ha' => cases shape?_unique ha ha'
  | array ha' hb' hrel =>
    obtain rfl := Shape.array.inj (shape?_unique ha ha')
    exact Or.inl ⟨_, shape?_unique hb hb', hrel⟩
  | top ha' hb' _ hunder htop =>
    obtain rfl := shape?_unique ha ha'
    obtain rfl := shape?_unique hb hb'
    refine Or.inr ⟨?_, htop⟩
    rintro supElem rfl
    cases hunder
  | inherits ha' hnominal =>
    obtain rfl := shape?_unique ha ha'
    cases hnominal

theorem Level.of_nominal {rel : TypeRef → TypeRef → Prop} {sa sb : Shape}
    (ha : st.shape? a = some sa) (hnominal : sa.isNominal = true) (hb : st.shape? b = some sb)
    (hplain : sb.isDisjunction = false) (h : st.Level rel a b) :
    st.isTop b = true ∨ st.inherits (st.erase a) (st.erase b) = true := by
  cases h with
  | left ha' =>
    obtain rfl := shape?_unique ha ha'
    cases hnominal
  | right _ _ hb' =>
    obtain rfl := shape?_unique hb hb'
    cases hplain
  | bound ha' =>
    obtain rfl := shape?_unique ha ha'
    cases hnominal
  | array ha' =>
    obtain rfl := shape?_unique ha ha'
    cases hnominal
  | top _ _ _ _ htop => exact Or.inl htop
  | inherits _ _ _ _ hinherits => exact Or.inr hinherits

/-- Transitivity, by induction on how deep the three types are nested together. Disjunctions are
opened from left to right, as the relation itself opens them, so that in the end none is left. -/
theorem TopIsRoot.below_trans (hst : st.TopIsRoot) {i j k : Nat} (ha : st.nestsWithin i a = true)
    (hb : st.nestsWithin j b = true) (hc : st.nestsWithin k c = true) (hab : st.Below a b)
    (hbc : st.Below b c) : st.Below a c := by
  induction hn : i + j + k using Nat.strongRecOn generalizing i j k a b c with
  | ind n ih =>
    rcases below_iff.mp hab with rfl | hleft
    · exact hbc
    rcases below_iff.mp hbc with rfl | hright
    · exact hab
    obtain ⟨sa, hsa⟩ := hleft.exists_left
    obtain ⟨sb, hsb⟩ := hleft.exists_right
    obtain ⟨sc, hsc⟩ := hright.exists_right
    cases hda : sa.isDisjunction with
    | true =>
      obtain ⟨alternatives, rfl⟩ := Shape.eq_disjunction hda
      refine Level.below (.left hsa hsc fun ty hty => ?_)
      obtain ⟨i, rfl, hi⟩ := nestsWithin_part ha (mem_unfolded hsa hty)
      exact ih (i + j + k) (by omega) hi hb hc (hleft.of_disjunction_left hsa ty hty) hbc rfl
    | false =>
    cases hdb : sb.isDisjunction with
    | true =>
      obtain ⟨alternatives, rfl⟩ := Shape.eq_disjunction hdb
      obtain ⟨ty, hty, hrel⟩ := hleft.of_disjunction_right hsa hda hsb
      obtain ⟨j, rfl, hj⟩ := nestsWithin_part hb (mem_unfolded hsb hty)
      exact ih (i + j + k) (by omega) ha hj hc hrel (hright.of_disjunction_left hsb ty hty) rfl
    | false =>
    cases hdc : sc.isDisjunction with
    | true =>
      obtain ⟨alternatives, rfl⟩ := Shape.eq_disjunction hdc
      obtain ⟨ty, hty, hrel⟩ := hright.of_disjunction_right hsb hdb hsc
      obtain ⟨k, rfl, hk⟩ := nestsWithin_part hc (mem_unfolded hsc hty)
      have hrec := ih (i + j + k) (by omega) ha hb hk hab hrel rfl
      exact Level.below (.right hsa hda hsc hty hrec)
    | false =>
    cases hleft with
    | left hsa' =>
      obtain rfl := shape?_unique hsa hsa'
      cases hda
    | right _ _ hsb' =>
      obtain rfl := shape?_unique hsb hsb'
      cases hdb
    | bound hsa' _ _ h =>
      obtain ⟨i, rfl, hi⟩ := nestsWithin_part ha (mem_unfolded hsa' List.mem_cons_self)
      exact Level.below (.bound hsa' hsc hdc (ih (i + j + k) (by omega) hi hb hc h hbc rfl))
    | array hsa' hsb' h =>
      rcases hright.of_array hsb' hsc hdc with ⟨elem, rfl, h'⟩ | ⟨hnot, htop⟩
      · obtain ⟨i, rfl, hi⟩ := nestsWithin_part ha (mem_unfolded hsa' List.mem_cons_self)
        obtain ⟨j, rfl, hj⟩ := nestsWithin_part hb (mem_unfolded hsb' List.mem_cons_self)
        obtain ⟨k, rfl, hk⟩ := nestsWithin_part hc (mem_unfolded hsc List.mem_cons_self)
        exact Level.below (.array hsa' hsc (ih (i + j + k) (by omega) hi hj hk h h' rfl))
      · refine Level.below (.top hsa' hsc hdc ?_ htop)
        cases sc with
        | array elem => exact absurd rfl (hnot elem)
        | _ => rfl
    | top _ _ _ _ htop =>
      obtain rfl := hst.eq_of_level htop hright hsc hdc
      exact hab
    | inherits hsa' hnominal hsb' _ h =>
      rcases hright.of_nominal hsb' (isNominal_of_inherits hsb' h) hsc hdc with htop | h'
      · exact Level.below (.top hsa' hsc hdc (Shape.underTop_of_isNominal hnominal) htop)
      · exact Level.below (.inherits hsa' hnominal hsc hdc (inherits_trans h h'))

theorem isSubtype_refl (st : TypeStore) (a : TypeRef) : st.isSubtype a a = true :=
  isSubtypeWithin_self _ a

theorem TopIsRoot.isSubtype_trans (hst : st.TopIsRoot) (ha : st.nestsWithin 32 a = true)
    (hb : st.nestsWithin 32 b = true) (hc : st.nestsWithin 32 c = true)
    (hab : st.isSubtype a b = true) (hbc : st.isSubtype b c = true) : st.isSubtype a c = true :=
  (hst.below_trans ha hb hc ⟨_, hab⟩ ⟨_, hbc⟩).within ha hc

theorem topIsRoot_of_object {top : TypeRef} {name : String} {params : List TypeRef}
    (hobject : st.wellKnown? .object = some top)
    (hshape : st.shape? top = some (.declared name [] params))
    (horigins : ∀ shape ∈ st.shapes.toList, shape.origin? ≠ some top) : st.TopIsRoot := by
  intro other hother
  obtain rfl := Option.some.inj (hobject.symm.trans hother)
  refine ⟨⟨name, params, hshape⟩, ?_⟩
  rintro shape hmem args rfl
  exact horigins _ (Array.mem_def.mp hmem) rfl

theorem nestsWithin_of_ids {depth : Nat}
    (h : ∀ id < st.size, st.nestsWithin depth (some id) = true) (ty : TypeRef) :
    st.nestsWithin depth ty = true := by
  cases ty with
  | none => exact nestsWithin_of_shape?_eq_none rfl
  | some id =>
    by_cases hid : id < st.size
    · exact h id hid
    · exact nestsWithin_of_shape?_eq_none (Array.getElem?_eq_none (Nat.le_of_not_lt hid))

/-- The first type is the root class, which nothing instantiates, and no type is nested deeper than
half as deep as subtyping looks. -/
def RootedAndShallow (st : TypeStore) : Prop :=
  st.wellKnown? .object = some (some 0) ∧
  st.shape? (some 0) = some (.declared "java.lang.Object" [] []) ∧
  (∀ shape ∈ st.shapes.toList, shape.origin? ≠ some (some 0)) ∧
  ∀ id < st.size, st.nestsWithin 32 (some id) = true

instance : DecidablePred RootedAndShallow :=
  fun _ => inferInstanceAs (Decidable (_ ∧ _))

theorem RootedAndShallow.isSubtype_trans (h : st.RootedAndShallow) (a b c : TypeRef)
    (hab : st.isSubtype a b = true) (hbc : st.isSubtype b c = true) : st.isSubtype a c = true := by
  obtain ⟨hobject, hshape, horigins, hids⟩ := h
  have hnests := nestsWithin_of_ids hids
  exact (topIsRoot_of_object hobject hshape horigins).isSubtype_trans (hnests a) (hnests b)
    (hnests c) hab hbc

/-- Subtyping is a preorder on the types that are nested at most half as deep as it looks. -/
theorem isSubtype_preorder (hst : st.TopIsRoot) :
    (∀ a, st.isSubtype a a = true) ∧
      ∀ a b c, st.nestsWithin 32 a = true → st.nestsWithin 32 b = true →
        st.nestsWithin 32 c = true → st.isSubtype a b = true → st.isSubtype b c = true →
        st.isSubtype a c = true :=
  ⟨st.isSubtype_refl, fun _ _ _ => hst.isSubtype_trans⟩

/-- A generic exception, a type parameter bounded by two alternatives, and arrays: the elements of
11 are bounded by 9, those of 12 and 14 are 2 and the alternatives 13. -/
def mixedStore : TypeStore :=
  let (io, st) := withRoots.declare "IOException" [some 2]
  let ((failure, _), st) := st.declareGeneric "Failure" ["T"] [some 2]
  let (failed, st) := st.instantiate (some failure) [some io]
  let (either, st) := st.disjunction [some io, some failed]
  let (param, st) := st.typeParam "E" either
  let (_, st) := st.arrayOf (some param)
  let (_, st) := st.arrayOf (some 2)
  let (wide, st) := st.disjunction [some 4, some 1]
  (st.arrayOf wide).2

theorem mixedStore_topIsRoot : mixedStore.TopIsRoot := by
  have hobject : mixedStore.wellKnown? .object = some (some 0) := by decide +kernel
  have hshape : mixedStore.shape? (some 0) = some (.declared "java.lang.Object" [] []) := by
    decide +kernel
  exact topIsRoot_of_object hobject hshape (by decide +kernel)

theorem mixedStore_nests : ∀ ty, mixedStore.nestsWithin 32 ty = true :=
  nestsWithin_of_ids (by decide +kernel)

theorem mixedStore_trans (a b c : TypeRef) (hab : mixedStore.isSubtype a b = true)
    (hbc : mixedStore.isSubtype b c = true) : mixedStore.isSubtype a c = true :=
  mixedStore_topIsRoot.isSubtype_trans (mixedStore_nests a) (mixedStore_nests b)
    (mixedStore_nests c) hab hbc

theorem mixedStore_array_trans : mixedStore.isSubtype (some 11) (some 12) = true ∧
    mixedStore.isSubtype (some 12) (some 14) = true ∧
    mixedStore.isSubtype (some 11) (some 14) = true := by
  have hleft : mixedStore.isSubtype (some 11) (some 12) = true := by decide +kernel
  have hright : mixedStore.isSubtype (some 12) (some 14) = true := by decide +kernel
  exact ⟨hleft, hright, (isSubtype_preorder mixedStore_topIsRoot).2 _ _ _ (mixedStore_nests _)
    (mixedStore_nests _) (mixedStore_nests _) hleft hright⟩

end TypeStore

end CheckedExceptions
