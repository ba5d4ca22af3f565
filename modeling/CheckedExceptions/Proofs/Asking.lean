import CheckedExceptions.Proofs.Grounded
import CheckedExceptions.Proofs.Handling
import CheckedExceptions.Proofs.Reporting

/-! To ask twice gives the same answer. A query may add types to the store; it changes nothing that
the store said before, and when it is asked again it finds all the types that it needs. -/

namespace CheckedExceptions

namespace Program

variable {p : Program TypeStore} {st now later : TypeStore} {exception : TypeRef}
  {element top : NodeRef}

namespace Grounded

variable (h : p.Grounded st) (hrepeats : p.RepeatsAnswers st) (hnow : p.Evolves st now)
include h hnow

section Later

variable (hlater : p.Evolves now later) (hexception : now.Holds exception)
include hlater hexception

theorem declares_eq {throws : List TypeRef} (hthrows : ∀ ty ∈ throws, now.Holds ty) :
    p.declares later throws exception = p.declares now throws exception := by
  apply any_congr_of_mem
  intro declared hdeclared
  exact (h.of_evolves hnow).isSubtype_eq hlater hexception (hthrows declared hdeclared)

theorem declares_method_eq {n : NodeRef} {name : String} {kind : CallableKind} {isStatic : Bool}
    {throws : List TypeRef} {parameters : List NodeRef} {body : NodeRef}
    (hn : p.tree.payload? n = some (.method name kind isStatic throws parameters body)) :
    p.declares later throws exception = p.declares now throws exception :=
  h.declares_eq hnow hlater hexception ((h.of_evolves hnow).tree hn)

theorem everyConstructorAllows_eq (member : NodeRef) :
    p.everyConstructorAllows later member exception =
      p.everyConstructorAllows now member exception := by
  have hallows : ∀ constructor,
      p.constructorAllows later exception constructor =
        p.constructorAllows now exception constructor := by
    intro constructor
    unfold constructorAllows
    split
    · next hpayload => exact h.declares_method_eq hnow hlater hexception hpayload
    · rfl
  unfold everyConstructorAllows
  rw [funext hallows]

include hrepeats

theorem stopsInTry_eq (parts : TryParts) (element : NodeRef) :
    p.stopsInTry later parts element exception = p.stopsInTry now parts element exception := by
  have hcatches : p.catches later parts exception = p.catches now parts exception := by
    apply any_congr_of_mem
    intro clause _
    rw [hrepeats.caughtTypes_eq hnow hlater clause]
    apply h.declares_eq hnow hlater hexception
    intro ty hty
    exact h.holds_of_known (known_of_mem_caughtTypes hnow hty)
  unfold stopsInTry
  rw [hcatches]

/-- What becomes of an exception stays the same, where no substitution decides about it. -/
theorem outcome_eq (hrule : (p.ruleAt element top).substitutes = false) :
    p.outcome later element exception top (p.ruleAt element top) =
      p.outcome now element exception top (p.ruleAt element top) := by
  cases hat : p.ruleAt element top with
  | implements expr =>
    rw [hat] at hrule
    cases hrule
  | declares throws =>
    obtain ⟨_, _, _, _, _, hpayload⟩ := ruleAt_declares hat
    exact congrArg Ascent.settled (h.declares_method_eq hnow hlater hexception hpayload)
  | tries parts =>
    simp only [outcome, h.stopsInTry_eq hrepeats hnow hlater hexception parts element]
  | constructors =>
    exact congrArg Ascent.settled (h.everyConstructorAllows_eq hnow hlater hexception _)
  | _ => rfl

end Later

include hrepeats

theorem ensures_implementedAllows (expr : NodeRef) (hexception : now.Holds exception) :
    Ensures p.Substitutes True now (p.implementedAllows expr exception) fun _ _ => True := by
  unfold implementedAllows
  split
  · next method hmethod =>
    refine .bind (lists_throwsAtSite (fun _ => hrepeats) hnow (.implemented hmethod))
      fun tys next hnext htys => .get_bind (.pure trivial) fun _ later hlater => ?_
    have hheld := (h.of_evolves hnow).holds_later hnext hexception
    rw [h.declares_eq (hnow.trans hnext) hlater hheld fun ty hty => h.holds_of_known (htys ty hty)]
  · exact .pure trivial

theorem ensures_ascentStep (element top : NodeRef) (hexception : now.Holds exception) :
    Ensures p.Substitutes True now (p.ascentStep element exception top) fun _ _ => True := by
  rcases p.ascentStep_cases element exception top with ⟨expr, -, hstep⟩ | ⟨hrule, hstep⟩
  · rw [hstep]
    exact .map (h.ensures_implementedAllows hrepeats hnow expr hexception) fun _ _ _ _ => trivial
  · rw [funext hstep]
    refine ⟨.refl, trivial, fun _ later hlater => ?_⟩
    rw [h.outcome_eq hrepeats hnow hlater hexception hrule]

/-- By induction on the steps of the ascent, each of which can be repeated. -/
theorem ensures_isHandledWithin (steps : Nat) (element top : NodeRef)
    (hexception : now.Holds exception) :
    Ensures p.Substitutes True now (p.isHandledWithin exception top steps element)
      fun _ _ => True := by
  induction steps generalizing element now with
  | zero => exact .pure trivial
  | succ steps ih =>
    refine .bind (h.ensures_ascentStep hrepeats hnow element top hexception)
      fun outcome next hnext _ => ?_
    cases outcome with
    | settled handled => exact .pure trivial
    | climb above =>
      exact ih (hnow.trans hnext) above ((h.of_evolves hnow).holds_later hnext hexception)

omit hnow in
theorem consistent : p.Consistent st where
  toRepeatsAnswers := hrepeats
  handled := by
    intro n ty top now later hnow hty hlater
    exact (h.ensures_isHandledWithin hrepeats hnow _ n top (h.holds_of_known hty)).again trivial
      later
      hlater

end Grounded

/-- Asked at a store, the query only appends types to it, and the store says the same of the types
it had before. Asked again, the query gives the same answer and appends nothing. -/
structure Repeatable {α : Type} (st : TypeStore) (query : StateM TypeStore α) : Prop where
  grows : st.Grows (query st).2
  shape : ∀ ty, st.Holds ty → (query st).2.shape? ty = st.shape? ty
  isSubtype : ∀ a b, st.Holds a → st.Holds b → (query st).2.isSubtype a b = st.isSubtype a b
  again : query (query st).2 = query st

theorem Grounded.repeatable (h : p.Grounded st) {α : Type} {query : StateM TypeStore α}
    {Q : TypeStore → α → Prop} (hquery : Ensures p.Substitutes True st query Q) :
    Repeatable st query where
  grows := h.grows_of_evolves hquery.steps
  shape := fun _ => (h.grows_of_evolves hquery.steps).shape?_eq
  isSubtype := fun _ _ => h.store.isSubtype_eq (h.grows_of_evolves hquery.steps)
  again := hquery.again trivial _ .refl

/-- Every query about a program can be repeated if all the types that are named anywhere exist, and
types are made of earlier types. -/
theorem repeatable_of_grounded (h : p.Grounded st) (hdescending : st.Descending)
    (howner : ∀ c, p.Offers c → st.Holds c.callable.owner) (n top : NodeRef) :
    Repeatable st (p.thrown n) ∧ Repeatable st (p.unhandled n top) ∧
    Repeatable st (p.typesReaching n) ∧ Repeatable st (p.sites n top) := by
  have hst := h.keepsSubtyping
  have hrepeats := h.repeatsAnswers hdescending howner
  have hconsistent := h.consistent hrepeats
  have hwithin : ∀ depth m later, p.Evolves st later →
      p.Delivers st True later (p.thrownWithin depth m) :=
    fun depth m later hlater => delivers_thrownWithin hst (fun _ => hrepeats) hlater depth m
  refine ⟨?_, ?_, ?_, ?_⟩
  · exact h.repeatable (hwithin _ n st .refl)
  · exact h.repeatable (ensures_unhandled hst (fun _ => hconsistent) .refl n top)
  · exact h.repeatable (lists_arrivingTypes hst (fun _ => hrepeats) .refl (hwithin _) n)
  · exact h.repeatable (ensures_allSites hst (fun _ => hconsistent) .refl n top)

/-- The first time, type 16 is added. It is in the answers, and it is not added again. -/
theorem genericProgram_repeats :
    (genericProgram.thrown (some 14) genericStore).1.members =
      [some 4, some 16, some 5, some 3] ∧
    (genericProgram.thrown (some 14) genericStore).2.size = genericStore.size + 1 ∧
    Repeatable genericStore (genericProgram.thrown (some 14)) ∧
    Repeatable genericStore (genericProgram.sites (some 14) none) := by
  obtain ⟨hthrown, -, -, hsites⟩ := repeatable_of_grounded genericProgram_grounded
    genericStore_descending genericProgram_owner (some 14) none
  exact ⟨by decide +kernel, by decide +kernel, hthrown, hsites⟩

def strayProgram : Program TypeStore := singleCall strayCall

theorem strayProgram_grounded : strayProgram.Grounded genericStore :=
  grounded_of_checks rfl genericStore_closed (by decide +kernel)
    (Resolution.allCandidates_unknown.withTarget _ (by decide +kernel)) fun h => nomatch h

/-- Where a declaring class is missing, the second answer is not the first one: by then the class is
there, and its method overrides the other one. -/
theorem strayProgram_not_repeatable :
    strayProgram.Grounded genericStore ∧
    (∀ id < genericStore.size, ∀ shape ∈ genericStore.shape? (some id),
      ∀ ty ∈ shape.references, ∀ less ∈ ty, less < id) ∧
    (strayProgram.thrown (some 0) genericStore).1.members = [some 16] ∧
    (strayProgram.thrown (some 0)
      (strayProgram.thrown (some 0) genericStore).2).1.members = [some 2] :=
  ⟨strayProgram_grounded, by decide +kernel, by decide +kernel, by decide +kernel⟩

end Program

end CheckedExceptions
