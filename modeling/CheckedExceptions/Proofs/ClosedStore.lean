import CheckedExceptions.Proofs.Ensuring
import CheckedExceptions.Proofs.Growth

/-! Stores in which every reference is empty or names a type that is there. What such a store says
of its types does not change as it grows, and a substitution in it can be repeated. -/

namespace CheckedExceptions

open Relation (ReflTransGen)

namespace Shape

def references : Shape → List TypeRef
  | declared _ supertypes typeParams => supertypes ++ typeParams
  | instantiation origin args => origin :: args
  | typeParam _ bound => [bound]
  | array elem => [elem]
  | primitive _ => []
  | disjunction alternatives => alternatives

theorem components_subset_references (shape : Shape) : shape.components ⊆ shape.references := by
  cases shape with
  | instantiation origin args => exact List.subset_cons_self origin args
  | array | disjunction => exact List.Subset.refl _
  | declared | typeParam | primitive => exact List.nil_subset _

end Shape

namespace TypeStore

variable {st st' : TypeStore} {a b ty : TypeRef} {shape : Shape}

/-- The place is empty or names a type of the store. -/
def Holds (st : TypeStore) (ty : TypeRef) : Prop := ∀ id ∈ ty, id < st.size

instance (st : TypeStore) (ty : TypeRef) : Decidable (st.Holds ty) :=
  inferInstanceAs (Decidable (∀ id ∈ ty, id < st.size))

structure Closed (st : TypeStore) : Prop where
  shapes : ∀ shape ∈ st.shapes.toList, ∀ ty ∈ shape.references, st.Holds ty
  wellKnown : ∀ which ty, st.wellKnown? which = some ty → st.Holds ty

def Descending (st : TypeStore) : Prop :=
  ∀ id < st.size, ∀ shape ∈ st.shape? (some id), ∀ part ∈ shape.components, ∀ less ∈ part, less < id

/-- A type is entered that is made of types of the store. -/
def Adds (st st' : TypeStore) : Prop :=
  ∃ shape : Shape, st.find? shape = none ∧ (∀ ty ∈ shape.references, st.Holds ty) ∧
    st' = (st.enter shape).2

theorem holds_of_shape? (h : st.shape? ty = some shape) : st.Holds ty := by
  rintro id rfl
  exact (Array.getElem?_eq_some_iff.mp h).1

theorem exists_shape? {id : TypeId} (h : st.Holds (some id)) :
    ∃ shape, st.shape? (some id) = some shape :=
  ⟨_, Array.getElem?_eq_getElem (h id rfl)⟩

theorem eq_none_of_shape? (hty : st.Holds ty) (h : st.shape? ty = none) : ty = none := by
  cases ty with
  | none => rfl
  | some id =>
    obtain ⟨shape, hshape⟩ := exists_shape? hty
    rw [h] at hshape
    cases hshape

theorem Closed.holds_reference (hst : st.Closed) (h : st.shape? a = some shape)
    (hty : ty ∈ shape.references) : st.Holds ty := by
  obtain ⟨id, -, hid⟩ := Option.bind_eq_some_iff.mp h
  exact hst.shapes shape (Array.mem_def.mp (Array.mem_of_getElem? hid)) ty hty

namespace Grows

theorem size_le (h : st.Grows st') : st.size ≤ st'.size := by
  induction h with
  | refl => exact Nat.le_refl _
  | tail _ hstep ih =>
    obtain ⟨shape, -, rfl⟩ := hstep
    simp only [size, enter, push, Array.size_push] at ih ⊢
    omega

theorem holds (h : st.Grows st') (hty : st.Holds ty) : st'.Holds ty :=
  fun id hid => Nat.lt_of_lt_of_le (hty id hid) h.size_le

theorem shape?_eq (h : st.Grows st') (hty : st.Holds ty) : st'.shape? ty = st.shape? ty := by
  cases ty with
  | none => rfl
  | some id =>
    obtain ⟨shape, hshape⟩ := exists_shape? hty
    rw [hshape, h.shape hshape]

theorem alternatives_eq (h : st.Grows st') (hty : st.Holds ty) :
    st'.alternatives ty = st.alternatives ty := by
  simp only [alternatives, h.shape?_eq hty]

theorem isArray_eq (h : st.Grows st') (hty : st.Holds ty) : st'.isArray ty = st.isArray ty := by
  simp only [isArray, h.shape?_eq hty]

end Grows

theorem Adds.appends (h : st.Adds st') : st.Appends st' := by
  obtain ⟨shape, hnone, -, rfl⟩ := h
  exact ⟨shape, hnone, rfl⟩

theorem grows_of_adds (h : ReflTransGen Adds st st') : st.Grows st' :=
  ReflTransGen.mono (fun _ _ hadds => hadds.appends) st st' h

namespace Closed

theorem holds_alternatives (hst : st.Closed) (hty : st.Holds ty) (h : a ∈ st.alternatives ty) :
    st.Holds a := by
  unfold alternatives at h
  split at h
  · next hshape => exact hst.holds_reference hshape h
  · rw [List.mem_singleton.mp h]
    exact hty

theorem holds_erase (hst : st.Closed) (hty : st.Holds ty) : st.Holds (st.erase ty) := by
  unfold erase
  split
  · next hshape => exact hst.holds_reference hshape List.mem_cons_self
  · exact hty

theorem of_adds (hst : st.Closed) (h : ReflTransGen Adds st st') : st'.Closed := by
  induction h with
  | refl => exact hst
  | @tail mid _ _ hstep ih =>
    obtain ⟨shape, hnone, hrefs, rfl⟩ := hstep
    have hgrows : mid.Grows (mid.enter shape).2 := .single ⟨shape, hnone, rfl⟩
    constructor
    · intro other hother ty hty
      apply hgrows.holds
      have hmem : other ∈ mid.shapes.toList ∨ other = shape := by
        simpa [enter, push] using hother
      rcases hmem with hmem | rfl
      · exact ih.shapes other hmem ty hty
      · exact hrefs ty hty
    · intro which ty hty
      exact hgrows.holds (ih.wellKnown which ty hty)

end Closed

theorem Descending.enter (hst : st.Descending) (hparts : ∀ part ∈ shape.components, st.Holds part) :
    (st.enter shape).2.Descending := by
  intro id _ other hother part hpart less hless
  rcases shape?_push_iff.mp hother with hold | ⟨rfl, rfl⟩
  · exact hst id (holds_of_shape? hold id rfl) other hold part hpart less hless
  · exact hparts part hpart less hless

theorem Descending.component (hst : st.Descending) {id less : TypeId}
    (hshape : st.shape? (some id) = some shape) (hpart : some less ∈ shape.components) :
    less < id ∧ st.Holds (some less) := by
  have hid : id < st.size := holds_of_shape? hshape id rfl
  have hless := hst id hid shape hshape _ hpart less rfl
  exact ⟨hless, fun k hk => Option.some.inj hk ▸ Nat.lt_trans hless hid⟩

theorem Descending.of_adds (hst : st.Descending) (h : ReflTransGen Adds st st') :
    st'.Descending := by
  induction h with
  | refl => exact hst
  | @tail mid _ _ hstep ih =>
    obtain ⟨shape, -, hrefs, rfl⟩ := hstep
    exact ih.enter fun part hpart => hrefs part (shape.components_subset_references hpart)

section Subtyping

/-- The classes above a type of a closed store are in the store. -/
theorem Closed.extends_back (hst : st.Closed) (hgrows : st.Grows st') (ha : st.Holds a)
    (h : ReflTransGen st'.DirectlyExtends a b) : ReflTransGen st.DirectlyExtends a b := by
  have hback : ReflTransGen st.DirectlyExtends a b ∧ st.Holds b := by
    induction h with
    | refl => exact ⟨.refl, ha⟩
    | @tail mid next _ hstep ih =>
      obtain ⟨hmid, hheld⟩ := ih
      obtain ⟨ty, hty, herase⟩ := hstep
      have hlisted : ty ∈ st.supertypesOf mid := by
        simpa only [supertypesOf, hgrows.shape?_eq hheld] using hty
      have hholds : st.Holds ty := by
        unfold supertypesOf at hlisted
        split at hlisted
        · next hshape => exact hst.holds_reference hshape (List.mem_append_left _ hlisted)
        · exact absurd hlisted List.not_mem_nil
      have hsame : st'.erase ty = st.erase ty := by
        simp only [erase, hgrows.shape?_eq hholds]
      rw [hsame] at herase
      exact ⟨hmid.tail ⟨ty, hlisted, herase⟩, herase ▸ hst.holds_erase hholds⟩
  exact hback.1

theorem Closed.inherits_back (hst : st.Closed) (hgrows : st.Grows st') (ha : st.Holds a)
    (hb : st.Holds b) (h : st'.inherits a b = true) : st.inherits a b = true := by
  obtain ⟨hdeclared, hext⟩ := inherits_iff.mp h
  refine inherits_iff.mpr ⟨?_, hst.extends_back hgrows ha hext⟩
  simpa only [isDeclared, hgrows.shape?_eq hb] using hdeclared

theorem Closed.level_back (hst : st.Closed) (hgrows : st.Grows st') (ha : st.Holds a)
    (hb : st.Holds b) {rel rel' : TypeRef → TypeRef → Prop}
    (hrel : ∀ x y, st.Holds x → st.Holds y → rel' x y → rel x y) (h : st'.Level rel' a b) :
    st.Level rel a b := by
  have hsa := hgrows.shape?_eq ha
  have hsb := hgrows.shape?_eq hb
  cases h with
  | left hshape hsup hall =>
    rw [hsa] at hshape
    rw [hsb] at hsup
    refine .left hshape hsup fun ty hty => ?_
    exact hrel ty b (hst.holds_reference hshape hty) hb (hall ty hty)
  | right hshape hplain hsup hty hr =>
    rw [hsa] at hshape
    rw [hsb] at hsup
    exact .right hshape hplain hsup hty (hrel a _ ha (hst.holds_reference hsup hty) hr)
  | bound hshape hsup hplain hr =>
    rw [hsa] at hshape
    rw [hsb] at hsup
    have hbound := hst.holds_reference hshape List.mem_cons_self
    exact .bound hshape hsup hplain (hrel _ b hbound hb hr)
  | array hshape hsup hr =>
    rw [hsa] at hshape
    rw [hsb] at hsup
    have helem := hst.holds_reference hshape List.mem_cons_self
    have hsupElem := hst.holds_reference hsup List.mem_cons_self
    exact .array hshape hsup (hrel _ _ helem hsupElem hr)
  | top hshape hsup hplain hunder htop =>
    rw [hsa] at hshape
    rw [hsb] at hsup
    exact .top hshape hsup hplain hunder (hgrows.isTop b ▸ htop)
  | inherits hshape hnominal hsup hplain hr =>
    rw [hsa] at hshape
    rw [hsb] at hsup
    refine .inherits hshape hnominal hsup hplain ?_
    rw [hgrows.erase hshape, hgrows.erase hsup] at hr
    exact hst.inherits_back hgrows (hst.holds_erase ha) (hst.holds_erase hb) hr

theorem Closed.isSubtypeWithin_back (hst : st.Closed) (hgrows : st.Grows st') {depth : Nat}
    (ha : st.Holds a) (hb : st.Holds b) (h : st'.isSubtypeWithin depth a b = true) :
    st.isSubtypeWithin depth a b = true := by
  induction depth generalizing a b with
  | zero => exact h
  | succ depth ih =>
    rcases isSubtypeWithin_succ.mp h with rfl | hlevel
    · exact isSubtypeWithin_self _ a
    · apply isSubtypeWithin_succ.mpr
      exact Or.inr (hst.level_back hgrows ha hb (fun x y hx hy => ih hx hy) hlevel)

/-- A closed store answers a question about its types as every later store does. -/
theorem Closed.isSubtype_eq (hst : st.Closed) (hgrows : st.Grows st') (ha : st.Holds a)
    (hb : st.Holds b) : st'.isSubtype a b = st.isSubtype a b :=
  Bool.eq_iff_iff.mpr ⟨hst.isSubtypeWithin_back hgrows ha hb, hgrows.isSubtype⟩

theorem holds_of_isSubtype (h : st.isSubtype a b = true) (hb : st.Holds b) : st.Holds a := by
  rcases isSubtypeWithin_succ.mp h with rfl | hlevel
  · exact hb
  · obtain ⟨shape, hshape⟩ := hlevel.exists_left
    exact holds_of_shape? hshape

theorem isSubtype_none_eq_false (h : a.isSome = true) : st.isSubtype a none = false := by
  apply Bool.eq_false_iff.mpr
  intro hsub
  rcases isSubtypeWithin_succ.mp hsub with rfl | hlevel
  · cases h
  · obtain ⟨shape, hshape⟩ := hlevel.exists_right
    cases hshape

end Subtyping

end TypeStore

end CheckedExceptions
