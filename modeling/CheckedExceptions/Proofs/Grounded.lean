import CheckedExceptions.Proofs.Delivery
import CheckedExceptions.Proofs.Repetition

/-! Programs over a store in which every place for a type is empty or names a type of the store.
Their analysis adds types, and what the store says of the types it had before stays the same. -/

namespace CheckedExceptions

open Relation (ReflTransGen)

def Payload.types : Payload → List TypeRef
  | classDecl _ classType _ _ => [classType]
  | method _ _ _ throws _ _ => throws
  | field _ _ fieldType _ => [fieldType]
  | parameter _ declaredType _ => [declaredType]
  | resourceVariable _ declaredType _ => [declaredType]
  | creation classType _ _ => [classType]
  | _ => []

theorem SyntaxTree.exists_node_of_payload? {t : SyntaxTree} {n : NodeRef} {payload : Payload}
    (h : t.payload? n = some payload) : ∃ node ∈ t.nodes.toList, node.payload = payload := by
  obtain ⟨node, hnode, rfl⟩ := Option.map_eq_some_iff.mp h
  obtain ⟨id, -, hid⟩ := Option.bind_eq_some_iff.mp hnode
  exact ⟨node, Array.mem_def.mp (Array.mem_of_getElem? hid), rfl⟩

namespace Program

variable {p : Program TypeStore} {st now : TypeStore} {ty : TypeRef}

structure Grounded (p : Program TypeStore) (st : TypeStore) : Prop where
  types : p.types = .ofStore
  store : st.Closed
  tree : ∀ {n payload}, p.tree.payload? n = some payload → ∀ ty ∈ payload.types, st.Holds ty
  throws : ∀ {c}, p.Offers c → ∀ ty ∈ c.callable.throws, st.Holds ty
  targets : ∀ {c}, p.Offers c → ∀ binding ∈ c.substitution.bindings, st.Holds binding.2
  staticType : ∀ {n ty}, p.resolution.staticType? n = some ty → st.Holds ty

namespace Grounded

theorem holds_thrownType (h : p.Grounded st) {expr : NodeRef}
    (htype : p.thrownType? expr = some ty) : st.Holds ty := by
  unfold thrownType? at htype
  split at htype
  · next hstatic => exact h.staticType (htype ▸ hstatic)
  · split at htype
    · next hcreation =>
      rw [← Option.some.inj htype]
      exact h.tree hcreation _ List.mem_cons_self
    · cases htype

theorem ensures_substitute (h : p.Grounded st) (hnow : ReflTransGen TypeStore.Adds st now)
    {c : Candidate} (hc : p.Offers c) (hty : ty ∈ c.callable.throws) {repeats : Prop}
    (hdescending : repeats → st.Descending) :
    Ensures TypeStore.Adds repeats now (p.types.substitute ty c.substitution) fun later result =>
      ∀ given ∈ result, given.isSome = true ∧ later.Holds given := by
  have hgrows := TypeStore.grows_of_adds hnow
  rw [h.types]
  apply TypeStore.ensures_substitute (h.store.of_adds hnow)
  · intro binding hbinding
    exact hgrows.holds (h.targets hc binding hbinding)
  · intro hrepeats
    exact (hdescending hrepeats).of_adds hnow
  · exact hgrows.holds (h.throws hc ty hty)

theorem adds_of_evolves (h : p.Grounded st) (hnow : p.Evolves st now) :
    ReflTransGen TypeStore.Adds st now := by
  induction hnow with
  | refl => exact .refl
  | tail _ hstep ih =>
    obtain ⟨c, ty, hc, hty, rfl⟩ := hstep
    exact ih.trans (h.ensures_substitute ih hc hty False.elim).steps

theorem closed_of_evolves (h : p.Grounded st) (hnow : p.Evolves st now) : now.Closed :=
  h.store.of_adds (h.adds_of_evolves hnow)

theorem grows_of_evolves (h : p.Grounded st) (hnow : p.Evolves st now) : st.Grows now :=
  TypeStore.grows_of_adds (h.adds_of_evolves hnow)

theorem holds_later (h : p.Grounded st) (hnow : p.Evolves st now) (hty : st.Holds ty) :
    now.Holds ty :=
  (h.grows_of_evolves hnow).holds hty

theorem of_evolves (h : p.Grounded st) (hnow : p.Evolves st now) : p.Grounded now := by
  constructor
  · exact h.types
  · exact h.closed_of_evolves hnow
  · intro n payload hpayload ty hty
    exact h.holds_later hnow (h.tree hpayload ty hty)
  · intro c hc ty hty
    exact h.holds_later hnow (h.throws hc ty hty)
  · intro c hc binding hbinding
    exact h.holds_later hnow (h.targets hc binding hbinding)
  · intro n ty hty
    exact h.holds_later hnow (h.staticType hty)

theorem holds_alternatives (h : p.Grounded st) {alternative : TypeRef} (hty : st.Holds ty)
    (halternative : alternative ∈ p.types.alternatives st ty) : st.Holds alternative := by
  rw [h.types] at halternative
  exact h.store.holds_alternatives hty halternative

theorem holds_of_known (h : p.Grounded st) (hty : p.Known st now ty) : now.Holds ty := by
  cases hty with
  | @thrown c declared mid _ hc hdeclared hmid hresult hnow =>
    have hadds := h.adds_of_evolves hmid
    have hensures := h.ensures_substitute hadds hc hdeclared False.elim
    have hmoved : p.Evolves st (p.types.substitute declared c.substitution mid).2 :=
      hmid.tail ⟨c, declared, hc, hdeclared, rfl⟩
    exact (h.of_evolves hmoved).holds_later hnow (hensures.result ty hresult).2
  | parameter hn hmid hnow hmem =>
    have hmidway := h.of_evolves hmid
    exact hmidway.holds_later hnow
      (hmidway.holds_alternatives (hmidway.tree hn _ List.mem_cons_self) hmem)
  | raised hn htype hmid hnow hmem =>
    have hmidway := h.of_evolves hmid
    exact hmidway.holds_later hnow
      (hmidway.holds_alternatives (hmidway.holds_thrownType htype) hmem)
  | exempt hmid hnow hroot =>
    have hmidway := h.of_evolves hmid
    obtain ⟨which, -, hwhich⟩ := List.mem_filterMap.mp hroot
    rw [h.types] at hwhich
    exact hmidway.holds_later hnow (hmidway.store.wellKnown which ty hwhich)

theorem isSubtype_eq (h : p.Grounded st) {later : TypeStore} (hlater : p.Evolves st later)
    {a b : TypeRef} (ha : st.Holds a) (hb : st.Holds b) :
    p.types.isSubtype later a b = p.types.isSubtype st a b := by
  rw [h.types]
  exact h.store.isSubtype_eq (h.grows_of_evolves hlater) ha hb

theorem keepsSubtyping (h : p.Grounded st) : p.KeepsSubtyping st where
  isSubtype := by
    intro now later a b hnow hlater ha hb
    exact (h.of_evolves hnow).isSubtype_eq hlater (h.holds_of_known ha) (h.holds_of_known hb)
  wellKnown := by
    intro later hlater
    rw [h.types]
    exact (h.grows_of_evolves hlater).wellKnown

/-- If moreover the components of every type come before it, answers are repeated. -/
theorem repeatsAnswers (h : p.Grounded st) (hdescending : st.Descending)
    (howner : ∀ c, p.Offers c → st.Holds c.callable.owner) : p.RepeatsAnswers st where
  substitute := by
    intro c ty now later hc hty hnow hlater
    have hmoved : p.Evolves st (p.types.substitute ty c.substitution now).2 :=
      hnow.tail ⟨c, ty, hc, hty, rfl⟩
    have hensures :=
      h.ensures_substitute (h.adds_of_evolves hnow) hc hty fun _ : True => hdescending
    exact hensures.again trivial later ((h.of_evolves hmoved).adds_of_evolves hlater)
  parameter := by
    intro n name declaredType reassigned later hn hlater
    rw [h.types]
    exact (h.grows_of_evolves hlater).alternatives_eq (h.tree hn _ List.mem_cons_self)
  raised := by
    intro n expression thrownType later hn htype hlater
    rw [h.types]
    exact (h.grows_of_evolves hlater).alternatives_eq (h.holds_thrownType htype)
  owner := by
    intro c other later hc hother hlater
    exact h.isSubtype_eq hlater (howner c hc) (howner other hother)
  isArray := by
    intro n ty later hty hlater
    rw [h.types]
    exact (h.grows_of_evolves hlater).isArray_eq (h.staticType hty)

end Grounded

/-- For a program that is spelled out, the types are looked up one by one. -/
theorem grounded_of_checks (htypes : p.types = .ofStore) (hstore : st.Closed)
    (htree : ∀ node ∈ p.tree.nodes.toList, ∀ ty ∈ node.payload.types, st.Holds ty)
    (hcandidates : p.resolution.AllCandidates fun c =>
      (∀ ty ∈ c.callable.throws, st.Holds ty) ∧
      ∀ binding ∈ c.substitution.bindings, st.Holds binding.2)
    (hstatic : ∀ {n ty}, p.resolution.staticType? n = some ty → st.Holds ty) : p.Grounded st where
  types := htypes
  store := hstore
  tree := by
    intro n payload hpayload ty hty
    obtain ⟨node, hnode, rfl⟩ := SyntaxTree.exists_node_of_payload? hpayload
    exact htree node hnode ty hty
  throws := fun hc => (hc.of_all hcandidates).1
  targets := fun hc => (hc.of_all hcandidates).2
  staticType := hstatic

/-- `mixedStore` with one more type: 15 is the class 7 with its own parameter 6 as argument. -/
def genericStore : TypeStore := (TypeStore.mixedStore.instantiate (some 7) [some 6]).2

/-- Two methods to read with. Of what the first one throws, type 15 with 2 in place of its parameter
is not in the store. -/
def readCall : CallTarget :=
  ⟨⟨.method "read" (some 0) [some 15, some 5], .ofLists [some 6] [some 2]⟩,
    [⟨.method "read" (some 0) [some 2], .identity⟩]⟩

/-- A resource is opened, and what reading from it throws is caught and rethrown by one of two
clauses. -/
def genericProgram : Program TypeStore where
  tree := ⟨#[⟨0, 0, .resourceVariable "r" (some 0) none, some 1⟩,
    ⟨0, 0, .resourceList [some 0], some 14⟩, ⟨0, 0, .call "read" none [], some 3⟩,
    ⟨0, 0, .block [some 2], some 14⟩, ⟨0, 0, .parameter "e" (some 9) false, some 8⟩,
    ⟨0, 0, .reference "e" (some 4), some 6⟩, ⟨0, 0, .throwing (some 5), some 7⟩,
    ⟨0, 0, .block [some 6], some 8⟩, ⟨0, 0, .catchClause (some 4) (some 7), some 14⟩,
    ⟨0, 0, .parameter "e" (some 2) false, some 13⟩, ⟨0, 0, .reference "e" (some 9), some 11⟩,
    ⟨0, 0, .throwing (some 10), some 12⟩, ⟨0, 0, .block [some 11], some 13⟩,
    ⟨0, 0, .catchClause (some 9) (some 12), some 14⟩,
    ⟨0, 0, .trying ⟨some 1, some 3, [some 8, some 13], none⟩, none⟩]⟩
  types := .ofStore
  completion := fun _ => .ok true
  resolution := (Resolution.unknown.withTarget (some 2) readCall).withCloser (some 0)
    ⟨.method "close" (some 0) [some 4], .identity⟩
  handlers := .empty
  options := .default

theorem genericStore_closed : genericStore.Closed := by
  constructor
  · decide +kernel
  · have hknown : ∀ which ∈ WellKnown.all, ∀ ty ∈ genericStore.wellKnown? which,
        genericStore.Holds ty := by decide +kernel
    intro which ty
    cases which <;> exact hknown _ (by decide) ty

theorem genericStore_descending : genericStore.Descending := by
  unfold TypeStore.Descending
  decide +kernel

theorem genericProgram_grounded : genericProgram.Grounded genericStore :=
  grounded_of_checks rfl genericStore_closed (by decide +kernel)
    ((Resolution.allCandidates_unknown.withTarget _ (by decide +kernel)).withCloser _
      (by decide +kernel)) fun h => nomatch h

theorem genericProgram_owner (c : Candidate) (hc : genericProgram.Offers c) :
    genericStore.Holds c.callable.owner := by
  have hall : genericProgram.resolution.AllCandidates fun c =>
      genericStore.Holds c.callable.owner :=
    (Resolution.allCandidates_unknown.withTarget _ (by decide +kernel)).withCloser _
      (by decide +kernel)
  exact hc.of_all hall

def grownStore : TypeStore := (genericStore.instantiate (some 7) [some 2]).2

theorem grownStore_rootedAndShallow : grownStore.RootedAndShallow := by decide +kernel

theorem eq_grownStore (hnow : genericProgram.Evolves genericStore now)
    (hshapes : now.shapes = grownStore.shapes) (hinterned : now.interned = grownStore.interned)
    (hclasses : now.classes = grownStore.classes) : now = grownStore := by
  have hknown : now.wellKnown? = grownStore.wellKnown? :=
    (genericProgram_grounded.grows_of_evolves hnow).wellKnown.trans
      (genericStore.intern_grows _).wellKnown.symm
  exact TypeStore.ext hshapes hinterned hclasses hknown

/-- A program that consists of one call. -/
def singleCall (call : CallTarget) : Program TypeStore where
  tree := ⟨#[⟨0, 0, .call "read" none [], none⟩]⟩
  types := .ofStore
  completion := fun _ => .ok true
  resolution := Resolution.unknown.withTarget (some 0) call
  handlers := .empty
  options := .default

/-- Two methods, one of which is declared in a class that is missing. The type that is added when it
is asked what this method throws comes to stand in the place of the class. -/
def strayCall : CallTarget :=
  ⟨⟨.method "read" (some 0) [some 2], .identity⟩,
    [⟨.method "read" (some 16) [some 15], .ofLists [some 6] [some 2]⟩]⟩

/-- The parameter 7 has a bound that is missing. The type 8 with 2 for its own parameter comes to
stand in its place, below the class 6. -/
def looseStore : TypeStore :=
  let (param, st) := TypeStore.withRoots.typeParam "T" none
  let (box, st) := st.declare "Box" [some 2]
  let (_, st) := st.typeParam "X" (some 9)
  (st.instantiate (some box) [some param]).2

def looseCall : CallTarget :=
  ⟨⟨.method "read" (some 0) [some 7], .identity⟩,
    [⟨.method "read" (some 0) [some 6], .identity⟩,
      ⟨.method "read" (some 0) [some 8], .ofLists [some 5] [some 2]⟩]⟩

end Program

end CheckedExceptions
