import CheckedExceptions.Proofs.Evolution

/-! Which options an analysis looks at. What a node throws depends on the rules for ambiguous calls
and for rethrows and on the depth of the walk, and on no other option. -/

namespace CheckedExceptions

namespace Program

variable {σ : Type} {p : Program σ} {o : Options} {st : σ} {below : NodeRef → StateM σ ThrowSet}

def withOptions (p : Program σ) (o : Options) : Program σ := { p with options := o }

theorem Offers.of_resolution_eq {q : Program σ} (hsame : q.resolution = p.resolution)
    {c : Candidate} (h : q.Offers c) : p.Offers c := by
  cases h with
  | chosen h => exact .chosen (hsame ▸ h)
  | other h hmem => exact .other (hsame ▸ h) hmem
  | closer h => exact .closer (hsame ▸ h)
  | implemented h => exact .implemented (hsame ▸ h)

theorem withOptions_offers {c : Candidate} : (p.withOptions o).Offers c ↔ p.Offers c := by
  have hsame : (p.withOptions o).resolution = p.resolution := rfl
  exact ⟨.of_resolution_eq hsame, .of_resolution_eq hsame.symm⟩

theorem Complete.withOptions (hst : p.Complete st) : (p.withOptions o).Complete st := by
  rintro st' ⟨c, ty, hc, hty, hsubstitute⟩
  exact hst st' ⟨c, ty, withOptions_offers.mp hc, hty, hsubstitute⟩

theorem withOptions_meetAll (common : List TypeRef) (candidates : List Candidate) :
    (p.withOptions o).meetAll common candidates = p.meetAll common candidates := by
  induction candidates generalizing common with
  | nil => rfl
  | cons c candidates ih =>
    unfold meetAll
    simp only [ih]
    rfl

theorem withOptions_agreedThrows (target : CallTarget) :
    (p.withOptions o).agreedThrows target = p.agreedThrows target := by
  have hcommon : ∀ candidates,
      (p.withOptions o).commonThrows candidates = p.commonThrows candidates := by
    intro candidates
    cases candidates with
    | nil => rfl
    | cons c candidates =>
      unfold commonThrows
      simp only [withOptions_meetAll]
      rfl
  unfold agreedThrows
  simp only [hcommon]
  rfl

section Calls

variable (hcalls : o.overloadIntersection = p.options.overloadIntersection)
include hcalls

theorem withOptions_invocationThrows (site : NodeRef) :
    (p.withOptions o).invocationThrows site = p.invocationThrows site := by
  have hoption : (p.withOptions o).options.overloadIntersection =
      p.options.overloadIntersection := hcalls
  unfold invocationThrows
  simp only [withOptions_agreedThrows, hoption]
  rfl

theorem withOptions_thrownByInvocation (n : NodeRef) :
    (p.withOptions o).thrownByInvocation below n = p.thrownByInvocation below n := by
  unfold thrownByInvocation
  rw [withOptions_invocationThrows hcalls]
  rfl

variable (hrethrow : o.preciseRethrow = p.options.preciseRethrow)
include hrethrow

theorem withOptions_thrownStep (n : NodeRef) :
    (p.withOptions o).thrownStep below n = p.thrownStep below n := by
  have hraised : ∀ expression,
      (p.withOptions o).raisedTypes below expression = p.raisedTypes below expression := by
    intro expression
    have hoption : (p.withOptions o).options.preciseRethrow = p.options.preciseRethrow := hrethrow
    unfold raisedTypes
    simp only [hoption]
    rfl
  unfold thrownStep
  simp only [hraised, withOptions_thrownByInvocation hcalls]
  rfl

theorem withOptions_thrownWithin (depth : Nat) :
    (p.withOptions o).thrownWithin depth = p.thrownWithin depth := by
  induction depth with
  | zero => rfl
  | succ depth ih =>
    funext n
    show (p.withOptions o).thrownStep ((p.withOptions o).thrownWithin depth) n = _
    rw [ih]
    exact withOptions_thrownStep hcalls hrethrow n

end Calls

end Program

end CheckedExceptions
