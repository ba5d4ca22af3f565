import CheckedExceptions.Proofs.Repetition

/-! A store that is built up by its operations holds every structural type and every class name
once, and its indexes lead to them. -/

namespace CheckedExceptions

open Relation (ReflTransGen)

namespace TypeStore

variable {st later : TypeStore} {shape : Shape} {id i j : TypeId} {name : String}

/-- The indexes lead exactly to where the types are. -/
structure Indexed (st : TypeStore) : Prop where
  structural : ∀ shape id, st.find? shape = some id ↔
    shape.isStructural = true ∧ st.shape? (some id) = some shape
  classes : ∀ name id, st.classNamed? name = some id ↔
    ∃ supertypes params, st.shape? (some id) = some (.declared name supertypes params)
  params : ∀ id name supertypes params,
    st.shape? (some id) = some (.declared name supertypes params) →
      ∀ param ∈ params, ∃ earlier < id, param = some earlier ∧
        ∃ label bound, st.shape? (some earlier) = some (.typeParam label bound)
  plural : ∀ id ty, st.shape? (some id) ≠ some (.disjunction [ty])

namespace Indexed

variable (h : st.Indexed)
include h

theorem eq_of_structural (hstructural : shape.isStructural = true)
    (hi : st.shape? (some i) = some shape) (hj : st.shape? (some j) = some shape) : i = j := by
  have hfind := (h.structural shape i).mpr ⟨hstructural, hi⟩
  rw [(h.structural shape j).mpr ⟨hstructural, hj⟩] at hfind
  exact (Option.some.inj hfind).symm

theorem eq_of_declared {above above' own own' : List TypeRef}
    (hi : st.shape? (some i) = some (.declared name above own))
    (hj : st.shape? (some j) = some (.declared name above' own')) : i = j := by
  have hfind := (h.classes name i).mpr ⟨above, own, hi⟩
  rw [(h.classes name j).mpr ⟨above', own', hj⟩] at hfind
  exact (Option.some.inj hfind).symm

end Indexed

theorem lt_size_of_shape? (h : st.shape? (some id) = some shape) : id < st.size :=
  holds_of_shape? h id rfl

theorem classNamed?_enterClass (st : TypeStore) (name other : String)
    (supertypes params : List TypeRef) : (st.enterClass name supertypes params).2.classNamed? other =
      if other = name then some st.size else st.classNamed? other := by
  show ((name, st.size) :: st.classes).lookup other = _
  rw [List.lookup_cons]
  by_cases h : other = name
  · rw [if_pos h, beq_iff_eq.mpr h]
  · rw [if_neg h, beq_eq_false_iff_ne.mpr h]
    rfl

inductive Step (st : TypeStore) : TypeStore → Prop
  | enter {shape : Shape} : shape.isStructural = true → (∀ ty, shape ≠ .disjunction [ty]) →
      st.find? shape = none → Step st (st.enter shape).2
  | typeParam (label : String) (bound : TypeRef) : Step st (st.push (.typeParam label bound)).2
  | declare {name : String} {params : List TypeRef} (supertypes : List TypeRef) :
      st.classNamed? name = none →
      (∀ param ∈ params, ∃ id label bound, param = some id ∧
        st.shape? (some id) = some (.typeParam label bound)) →
      Step st (st.enterClass name supertypes params).2
  | designate (which : WellKnown) (ty : TypeRef) : Step st (st.designate which ty)

/-- To append a type keeps the indexes exact if they lead to it from then on, and to what they led
to before. -/
theorem Indexed.append (h : st.Indexed) (new : Shape) (hshapes : later.shapes = st.shapes.push new)
    (hfind : ∀ shape id, later.find? shape = some id ↔
      (shape.isStructural = true ∧ shape = new ∧ id = st.size) ∨ st.find? shape = some id)
    (hclass : ∀ name id, later.classNamed? name = some id ↔
      (∃ supertypes params, new = .declared name supertypes params ∧ id = st.size) ∨
        st.classNamed? name = some id)
    (hparams : ∀ name supertypes params, new = .declared name supertypes params →
      ∀ param ∈ params, ∃ id label bound, param = some id ∧
        st.shape? (some id) = some (.typeParam label bound))
    (hplural : ∀ ty, new ≠ .disjunction [ty]) : later.Indexed := by
  have hshape : ∀ id shape, later.shape? (some id) = some shape ↔
      st.shape? (some id) = some shape ∨ (id = st.size ∧ shape = new) := by
    intro id shape
    rw [← shape?_push_iff, shape?, hshapes]
    rfl
  refine ⟨fun shape id => ?_, fun name id => ?_, ?_, ?_⟩
  · rw [hfind, h.structural, hshape]
    tauto
  · rw [hclass, h.classes]
    constructor
    · rintro (⟨supertypes, params, rfl, rfl⟩ | ⟨supertypes, params, hold⟩)
      · exact ⟨supertypes, params, (hshape _ _).mpr (Or.inr ⟨rfl, rfl⟩)⟩
      · exact ⟨supertypes, params, (hshape _ _).mpr (Or.inl hold)⟩
    · rintro ⟨supertypes, params, hid⟩
      rcases (hshape _ _).mp hid with hold | ⟨rfl, rfl⟩
      · exact Or.inr ⟨supertypes, params, hold⟩
      · exact Or.inl ⟨supertypes, params, rfl, rfl⟩
  · intro id name supertypes params hid param hparam
    rcases (hshape _ _).mp hid with hold | ⟨rfl, rfl⟩
    · obtain ⟨earlier, hlt, rfl, label, bound, hearlier⟩ := h.params id _ _ _ hold param hparam
      exact ⟨earlier, hlt, rfl, label, bound, (hshape _ _).mpr (Or.inl hearlier)⟩
    · obtain ⟨earlier, label, bound, rfl, hearlier⟩ := hparams _ _ _ rfl param hparam
      exact ⟨earlier, lt_size_of_shape? hearlier, rfl, label, bound,
        (hshape _ _).mpr (Or.inl hearlier)⟩
  · intro id ty hid
    rcases (hshape _ _).mp hid with hold | ⟨-, hnew⟩
    · exact h.plural id ty hold
    · exact hplural ty hnew.symm

/-- An index with a new entry leads to it and to what it led to before. -/
theorem ite_eq_some_iff {α : Type} [DecidableEq α] {key other : α} {found : Option TypeId}
    (hnew : other = key → found = none) :
    (if other = key then some id else found) = some i ↔ (other = key ∧ i = id) ∨ found = some i := by
  by_cases h : other = key
  · simp [h, hnew h, eq_comm]
  · simp [h]

theorem Indexed.step (h : st.Indexed) (hstep : st.Step later) : later.Indexed := by
  cases hstep with
  | @enter new hstructural hplural hnone =>
    refine h.append new rfl (fun shape id => ?_) (fun name id => ?_) ?_ hplural
    · rw [find?_enter, ite_eq_some_iff fun heq => heq ▸ hnone]
      constructor
      · rintro (⟨rfl, rfl⟩ | hold)
        · exact Or.inl ⟨hstructural, rfl, rfl⟩
        · exact Or.inr hold
      · rintro (⟨-, rfl, rfl⟩ | hold)
        · exact Or.inl ⟨rfl, rfl⟩
        · exact Or.inr hold
    · refine (or_iff_right ?_).symm
      rintro ⟨supertypes, params, rfl, -⟩
      cases hstructural
    · rintro name supertypes params rfl
      cases hstructural
  | typeParam label bound =>
    refine h.append (.typeParam label bound) rfl (fun shape id => ?_) (fun name id => ?_)
      (by simp) (by simp)
    · refine (or_iff_right ?_).symm
      rintro ⟨hstructural, rfl, -⟩
      cases hstructural
    · exact (or_iff_right (by simp)).symm
  | @declare name params supertypes hnone hparams =>
    refine h.append (.declared name supertypes params) rfl (fun shape id => ?_)
      (fun other id => ?_) ?_ (by simp)
    · refine (or_iff_right ?_).symm
      rintro ⟨hstructural, rfl, -⟩
      cases hstructural
    · rw [classNamed?_enterClass, ite_eq_some_iff fun heq => heq ▸ hnone]
      simp [eq_comm]
    · rintro _ _ _ heq
      obtain ⟨rfl, rfl, rfl⟩ := Shape.declared.inj heq
      exact hparams
  | designate which ty => exact ⟨h.structural, h.classes, h.params, h.plural⟩

theorem Indexed.steps (h : st.Indexed) (hsteps : ReflTransGen Step st later) : later.Indexed := by
  induction hsteps with
  | refl => exact h
  | tail _ hstep ih => exact ih.step hstep

theorem prefix_of_steps (hsteps : ReflTransGen Step st later) :
    st.shapes.toList <+: later.shapes.toList := by
  induction hsteps with
  | refl => exact List.prefix_refl _
  | tail _ hstep ih =>
    refine ih.trans ?_
    cases hstep with
    | designate which ty => exact List.prefix_refl _
    | enter | typeParam | declare => simp [enter, enterClass, push]

section Operations

theorem intern_steps (st : TypeStore) (shape : Shape) (hstructural : shape.isStructural = true)
    (hplural : ∀ ty, shape ≠ .disjunction [ty]) : ReflTransGen Step st (st.intern shape).2 := by
  unfold intern
  split
  · exact .refl
  · next hnone => exact .single (.enter hstructural hplural hnone)

theorem pushTypeParams_steps (st : TypeStore) (names : List String) :
    ReflTransGen Step st (st.pushTypeParams names).2 ∧
    (st.pushTypeParams names).2.classes = st.classes ∧
    (∀ id shape, st.shape? (some id) = some shape →
      (st.pushTypeParams names).2.shape? (some id) = some shape) ∧
    ∀ param ∈ (st.pushTypeParams names).1, ∃ id label bound, param = some id ∧
      (st.pushTypeParams names).2.shape? (some id) = some (.typeParam label bound) := by
  induction names generalizing st with
  | nil => exact ⟨.refl, rfl, fun _ _ => id, by simp [pushTypeParams]⟩
  | cons label names ih =>
    obtain ⟨hsteps, hclasses, hkept, hparams⟩ := ih (st.push (.typeParam label none)).2
    refine ⟨.head (.typeParam label none) hsteps, hclasses, ?_, ?_⟩
    · exact fun id shape hshape => hkept id shape (shape?_push_iff.mpr (Or.inl hshape))
    · intro param hparam
      rcases List.mem_cons.mp hparam with rfl | hparam
      · exact ⟨st.size, label, none, rfl, hkept _ _ (shape?_push_iff.mpr (Or.inr ⟨rfl, rfl⟩))⟩
      · exact hparams param hparam

theorem declareGeneric_steps (st : TypeStore) (name : String) (params : List String)
    (supertypes : List TypeRef) :
    ReflTransGen Step st (st.declareGeneric name params supertypes).2 := by
  unfold declareGeneric
  split
  · exact .refl
  · next hnone =>
    obtain ⟨hsteps, hclasses, -, hparams⟩ := st.pushTypeParams_steps params
    refine hsteps.tail (.declare supertypes ?_ hparams)
    rwa [classNamed?, hclasses]

theorem classNamed?_declareGeneric (st : TypeStore) (name : String) (params : List String)
    (supertypes : List TypeRef) : (st.declareGeneric name params supertypes).2.classNamed? name =
      some (st.declareGeneric name params supertypes).1.1 := by
  unfold declareGeneric
  split
  · next id hfound => exact hfound
  · exact (classNamed?_enterClass _ name name supertypes _).trans (if_pos rfl)

inductive Operation where
  | declare (name : String) (supertypes : List TypeRef)
  | declareGeneric (name : String) (params : List String) (supertypes : List TypeRef)
  | typeParam (name : String) (bound : TypeRef)
  | primitive (name : String)
  | arrayOf (elem : TypeRef)
  | instantiate (origin : TypeRef) (args : List TypeRef)
  | disjunction (alternatives : List TypeRef)
  | designate (which : WellKnown) (ty : TypeRef)
  | substitute (ty : TypeRef) (s : Substitution)

def perform (st : TypeStore) : Operation → TypeStore
  | .declare name supertypes => (st.declare name supertypes).2
  | .declareGeneric name params supertypes => (st.declareGeneric name params supertypes).2
  | .typeParam name bound => (st.typeParam name bound).2
  | .primitive name => (st.primitive name).2
  | .arrayOf elem => (st.arrayOf elem).2
  | .instantiate origin args => (st.instantiate origin args).2
  | .disjunction alternatives => (st.disjunction alternatives).2
  | .designate which ty => st.designate which ty
  | .substitute ty s => (substitute ty s st).2

def performAll (st : TypeStore) (operations : List Operation) : TypeStore :=
  operations.foldl perform st

theorem perform_steps (st : TypeStore) (operation : Operation) :
    ReflTransGen Step st (st.perform operation) := by
  cases operation with
  | declare name supertypes => exact st.declareGeneric_steps name [] supertypes
  | declareGeneric name params supertypes => exact st.declareGeneric_steps name params supertypes
  | typeParam name bound => exact .single (.typeParam name bound)
  | primitive name => exact st.intern_steps (.primitive name) rfl (by simp)
  | arrayOf elem => exact st.intern_steps (.array elem) rfl (by simp)
  | instantiate origin args => exact st.intern_steps (.instantiation origin args) rfl (by simp)
  | disjunction alternatives => exact disjunction_moves intern_steps st alternatives
  | designate which ty => exact .single (.designate which ty)
  | substitute ty s => exact substitute_moves_of_intern intern_steps ty s st

theorem performAll_steps (st : TypeStore) (operations : List Operation) :
    ReflTransGen Step st (st.performAll operations) := by
  induction operations generalizing st with
  | nil => exact .refl
  | cons operation operations ih =>
    exact (st.perform_steps operation).trans (ih (st.perform operation))

end Operations

theorem indexed_empty : empty.Indexed := by
  have hshape : ∀ id, empty.shape? (some id) = none := fun _ => rfl
  have hfind : ∀ shape, empty.find? shape = none := fun _ => rfl
  have hclass : ∀ name, empty.classNamed? name = none := fun _ => rfl
  constructor <;> simp [hshape, hfind, hclass]

theorem declareDesignated_steps (st : TypeStore) (which : WellKnown) (supertypes : List TypeRef) :
    ReflTransGen Step st (st.declareDesignated which supertypes).2 :=
  (st.declareGeneric_steps which.qualifiedName [] supertypes).tail (.designate which _)

theorem withRoots_steps : ReflTransGen Step empty withRoots := by
  let object := empty.declareDesignated .object []
  let throwable := object.2.declareDesignated .throwable [some object.1]
  let exception := throwable.2.declareDesignated .exception [some throwable.1]
  let runtime := exception.2.declareDesignated .runtimeException [some exception.1]
  calc
    ReflTransGen Step empty object.2 := declareDesignated_steps _ _ _
    ReflTransGen Step _ throwable.2 := declareDesignated_steps _ _ _
    ReflTransGen Step _ exception.2 := declareDesignated_steps _ _ _
    ReflTransGen Step _ runtime.2 := declareDesignated_steps _ _ _
    ReflTransGen Step _ withRoots := declareDesignated_steps _ .error [some throwable.1]

theorem indexed_performAll {start : TypeStore} (hstart : start = empty ∨ start = withRoots)
    (operations : List Operation) : (start.performAll operations).Indexed := by
  have hindexed : start.Indexed := by
    rcases hstart with rfl | rfl
    · exact indexed_empty
    · exact indexed_empty.steps withRoots_steps
  exact hindexed.steps (start.performAll_steps operations)

/-- Whatever is done to a store, its entries stay, the indexes lead to each structural type and each
class where it is and to nothing else, and so it holds none of them twice. What has been asked for is
found from then on. -/
theorem operations_keep_index {start : TypeStore} (hstart : start = empty ∨ start = withRoots)
    (before after : List Operation) :
    let st := start.performAll before
    st.shapes.toList <+: (st.performAll after).shapes.toList ∧ st.Indexed ∧
      (∀ shape, shape.isStructural = true → ∀ i j, st.shape? (some i) = some shape →
        st.shape? (some j) = some shape → i = j) ∧
      (∀ name i j above above' own own', st.shape? (some i) = some (.declared name above own) →
        st.shape? (some j) = some (.declared name above' own') → i = j) ∧
      (∀ shape, (st.intern shape).2.find? shape = some (st.intern shape).1) ∧
      ∀ name params supertypes, (st.declareGeneric name params supertypes).2.classNamed? name =
        some (st.declareGeneric name params supertypes).1.1 := by
  intro st
  have hindexed : st.Indexed := indexed_performAll hstart before
  exact ⟨prefix_of_steps (st.performAll_steps after), hindexed,
    fun _ hstructural _ _ => hindexed.eq_of_structural hstructural,
    fun _ _ _ _ _ _ _ => hindexed.eq_of_declared, st.find?_intern, st.classNamed?_declareGeneric⟩

/-- A generic class that is declared twice, an array 8 of itself, and alternatives 9 of which the
second is missing. The substitution makes 10 and 11. -/
def tangling : List Operation :=
  [.declareGeneric "Failure" ["T"] [some 2], .instantiate (some 6) [some 5], .arrayOf (some 8),
    .disjunction [some 7, some 20], .declareGeneric "Failure" ["A", "B"] [],
    .substitute (some 9) (.ofLists [some 5] [some 2])]

theorem tangling_indexed :
    (withRoots.performAll tangling).find? (.array (some 8)) = some 8 ∧
    (withRoots.performAll tangling).find? (.disjunction [some 10, some 20]) = some 11 ∧
    (withRoots.performAll tangling).classNamed? "Failure" = some 6 ∧
    ∀ other supertypes params, (withRoots.performAll tangling).shape? (some other) =
      some (.declared "Failure" supertypes params) → other = 6 := by
  obtain ⟨-, hindexed, -, hclasses, -⟩ := operations_keep_index (Or.inr rfl) tangling []
  have harray : (withRoots.performAll tangling).shape? (some 8) = some (.array (some 8)) := by
    decide +kernel
  have hreplaced : (withRoots.performAll tangling).shape? (some 11) =
      some (.disjunction [some 10, some 20]) := by decide +kernel
  have hclass : (withRoots.performAll tangling).shape? (some 6) =
      some (.declared "Failure" [some 2] [some 5]) := by decide +kernel
  exact ⟨(hindexed.structural _ _).mpr ⟨rfl, harray⟩, (hindexed.structural _ _).mpr ⟨rfl, hreplaced⟩,
    (hindexed.classes _ _).mpr ⟨_, _, hclass⟩,
    fun other _ _ hother => hclasses _ _ _ _ _ _ _ hother hclass⟩

end TypeStore

end CheckedExceptions
