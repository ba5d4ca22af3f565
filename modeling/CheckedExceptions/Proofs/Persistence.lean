import CheckedExceptions.Proofs.Coverage
import CheckedExceptions.Proofs.Ensuring
import CheckedExceptions.Proofs.PreciseRethrow

/-! Type systems that keep their answers. A substitution may change what is said of types that do
not exist yet; what is said of the types that have come up stays the same. -/

namespace CheckedExceptions

open Relation (ReflTransGen)

namespace Program

variable {σ : Type} {p : Program σ} {st now later : σ} {s t : ThrowSet} {a b ty : TypeRef}
  {tys : List TypeRef} {clause : NodeRef} {parts : TryParts}

/-- A type that can have come up on the way from `st` to `now`. -/
inductive Known (p : Program σ) (st now : σ) : TypeRef → Prop
  | thrown {c ty mid result} : p.Offers c → ty ∈ c.callable.throws → p.Evolves st mid →
    (p.types.substitute ty c.substitution mid).1 = some result →
    p.Evolves (p.types.substitute ty c.substitution mid).2 now → Known p st now result
  | parameter {n name declaredType reassigned mid ty} :
    p.tree.payload? n = some (.parameter name declaredType reassigned) →
    p.Evolves st mid → p.Evolves mid now → ty ∈ p.types.alternatives mid declaredType →
    Known p st now ty
  | raised {n expression thrownType mid ty} : p.tree.payload? n = some (.throwing expression) →
    p.thrownType? expression = some thrownType → p.Evolves st mid → p.Evolves mid now →
    ty ∈ p.types.alternatives mid thrownType → Known p st now ty
  | exempt {mid root} : p.Evolves st mid → p.Evolves mid now → root ∈ p.exemptRoots mid →
    Known p st now root

/-- What is said of types that have come up does not change, and the roots are the same always. -/
structure KeepsSubtyping (p : Program σ) (st : σ) : Prop where
  isSubtype : ∀ {now later a b}, p.Evolves st now → p.Evolves now later →
    p.Known st now a → p.Known st now b →
    p.types.isSubtype later a b = p.types.isSubtype now a b
  wellKnown : ∀ {later}, p.Evolves st later → p.types.wellKnown? later = p.types.wellKnown? st

/-- A question that is asked again is given the same answer, and to ask it again changes nothing. -/
structure RepeatsAnswers (p : Program σ) (st : σ) : Prop where
  substitute : ∀ {c ty now later}, p.Offers c → ty ∈ c.callable.throws → p.Evolves st now →
    p.Evolves (p.types.substitute ty c.substitution now).2 later →
    p.types.substitute ty c.substitution later =
      ((p.types.substitute ty c.substitution now).1, later)
  parameter : ∀ {n name declaredType reassigned later},
    p.tree.payload? n = some (.parameter name declaredType reassigned) → p.Evolves st later →
    p.types.alternatives later declaredType = p.types.alternatives st declaredType
  raised : ∀ {n expression thrownType later}, p.tree.payload? n = some (.throwing expression) →
    p.thrownType? expression = some thrownType → p.Evolves st later →
    p.types.alternatives later thrownType = p.types.alternatives st thrownType
  owner : ∀ {c other later}, p.Offers c → p.Offers other → p.Evolves st later →
    p.types.isSubtype later c.callable.owner other.callable.owner =
      p.types.isSubtype st c.callable.owner other.callable.owner
  isArray : ∀ {n ty later}, p.resolution.staticType? n = some ty → p.Evolves st later →
    p.types.isArray later ty = p.types.isArray st ty

theorem Known.persists (h : p.Known st now ty) (hlater : p.Evolves now later) :
    p.Known st later ty := by
  cases h with
  | thrown hc hty hmid hresult hnow => exact .thrown hc hty hmid hresult (hnow.trans hlater)
  | parameter hn hmid hnow hty => exact .parameter hn hmid (hnow.trans hlater) hty
  | raised hn htype hmid hnow hty => exact .raised hn htype hmid (hnow.trans hlater) hty
  | exempt hmid hnow hroot => exact .exempt hmid (hnow.trans hlater) hroot

theorem exists_parameter_of_catchType {id : TypeId} (h : p.tree.catchType clause = some id) :
    ∃ n name reassigned, p.tree.payload? n = some (.parameter name (some id) reassigned) := by
  unfold SyntaxTree.catchType at h
  split at h
  · next parameter _ _ =>
    split at h
    · next name _ reassigned hparameter =>
      rw [h] at hparameter
      exact ⟨parameter, name, reassigned, hparameter⟩
    · cases h
  · cases h

theorem known_of_mem_caughtTypes (hnow : p.Evolves st now) (h : ty ∈ p.caughtTypes now clause) :
    p.Known st now ty := by
  unfold caughtTypes at h
  split at h
  · next hcatch =>
    obtain ⟨_, _, _, hparameter⟩ := exists_parameter_of_catchType hcatch
    exact .parameter hparameter hnow .refl h
  · exact absurd h List.not_mem_nil

theorem isChecked_of_isSubtype {I : TypeRef → Prop}
    (hord : ThrowSet.OrderedOn (p.types.isSubtype st) I)
    (hroots : ∀ root ∈ p.exemptRoots st, I root) (ha : I a) (hb : I b)
    (hab : p.types.isSubtype st a b = true) (hchecked : p.isChecked st a = true) :
    p.isChecked st b = true := by
  simp only [isChecked, Bool.not_eq_true', isUnchecked, List.any_eq_false] at hchecked ⊢
  intro root hroot habove
  exact hchecked root hroot (hord.trans _ _ _ ha hb (hroots root hroot) hab habove)

namespace KeepsSubtyping

theorem agreeOn (hst : p.KeepsSubtyping st) (hnow : p.Evolves st now)
    (hlater : p.Evolves now later) :
    ThrowSet.AgreeOn (p.types.isSubtype now) (p.types.isSubtype later) (p.Known st now) :=
  fun _ _ => hst.isSubtype hnow hlater

theorem exemptRoots_eq (hst : p.KeepsSubtyping st) (hnow : p.Evolves st now)
    (hlater : p.Evolves now later) : p.exemptRoots later = p.exemptRoots now := by
  unfold exemptRoots
  rw [hst.wellKnown hnow, hst.wellKnown (hnow.trans hlater)]

theorem isUnchecked_eq (hst : p.KeepsSubtyping st) (hnow : p.Evolves st now)
    (hlater : p.Evolves now later) (hty : p.Known st now ty) :
    p.isUnchecked later ty = p.isUnchecked now ty := by
  unfold isUnchecked
  rw [hst.exemptRoots_eq hnow hlater]
  apply any_congr_of_mem
  intro root hroot
  exact hst.isSubtype hnow hlater hty (.exempt hnow .refl hroot)

theorem isChecked_eq (hst : p.KeepsSubtyping st) (hnow : p.Evolves st now)
    (hlater : p.Evolves now later) (hty : p.Known st now ty) :
    p.isChecked later ty = p.isChecked now ty :=
  congrArg (!·) (hst.isUnchecked_eq hnow hlater hty)

theorem allUnchecked_eq (hst : p.KeepsSubtyping st) (hnow : p.Evolves st now)
    (hlater : p.Evolves now later) (htys : ∀ ty ∈ tys, p.Known st now ty) :
    tys.all (p.isUnchecked later) = tys.all (p.isUnchecked now) :=
  all_congr_of_mem fun ty hty => hst.isUnchecked_eq hnow hlater (htys ty hty)

theorem meet_eq (hst : p.KeepsSubtyping st) (hnow : p.Evolves st now) (hlater : p.Evolves now later)
    {ours theirs : List TypeRef} (hours : ∀ ty ∈ ours, p.Known st now ty)
    (htheirs : ∀ ty ∈ theirs, p.Known st now ty) :
    p.meet later ours theirs = p.meet now ours theirs := by
  apply congrArg List.eraseDups
  apply List.flatMap_congr
  intro a ha
  apply List.filterMap_congr
  intro b hb
  have hka := hours a ha
  have hkb := htheirs b hb
  rw [hst.isSubtype hnow hlater hka hkb, hst.isSubtype hnow hlater hkb hka,
    hst.isUnchecked_eq hnow hlater hka, hst.isUnchecked_eq hnow hlater hkb]

end KeepsSubtyping

def arrivals (p : Program σ) (st : σ) (alternatives : List TypeRef) (parts : TryParts)
    (clause : NodeRef) (thrown : ThrowSet) : List TypeRef :=
  ((thrown.members.filter (p.isChecked st) ++ p.exemptRoots st).filterMap
    (reaching? (p.types.isSubtype st) alternatives)).eraseDups.filter
      fun ty => !(p.caughtEarlier st parts clause).any (p.types.isSubtype st ty)

theorem mem_arrivals_iff {alternatives : List TypeRef} :
    ty ∈ p.arrivals st alternatives parts clause s ↔
      (∃ candidate ∈ s.members.filter (p.isChecked st) ++ p.exemptRoots st,
        reaching? (p.types.isSubtype st) alternatives candidate = some ty) ∧
      (p.caughtEarlier st parts clause).any (p.types.isSubtype st ty) = false := by
  unfold arrivals
  rw [List.mem_filter, List.mem_eraseDups, List.mem_filterMap, Bool.not_eq_true']

theorem arrivingTypes_of_try {below : NodeRef → StateM σ ThrowSet}
    (htry : p.tree.payload? (p.tree.parent clause) = some (.trying parts)) :
    p.arrivingTypes below clause = get >>= fun st => p.bodyThrows below parts >>= fun thrown =>
      get >>= fun now => pure (p.arrivals now (p.caughtTypes st clause) parts clause thrown) := by
  unfold arrivingTypes
  simp only [htry]
  rfl

theorem arrivingTypes_of_not_try {below : NodeRef → StateM σ ThrowSet}
    (h : ∀ parts, p.tree.payload? (p.tree.parent clause) ≠ some (.trying parts)) :
    p.arrivingTypes below clause = get >>= fun st => pure (p.caughtTypes st clause) := by
  unfold arrivingTypes
  congr 1
  funext st
  split
  · next parts htry => exact absurd htry (h parts)
  · rfl

theorem known_of_mem_arrivals (hnow : p.Evolves st now) {alternatives : List TypeRef}
    (halternatives : ∀ ty ∈ alternatives, p.Known st now ty)
    (hs : ∀ ty ∈ s.members, p.Known st now ty)
    (h : ty ∈ p.arrivals now alternatives parts clause s) : p.Known st now ty := by
  obtain ⟨⟨candidate, hcandidate, hform⟩, -⟩ := mem_arrivals_iff.mp h
  rcases mem_of_reaching?_eq_some hform with rfl | halternative
  · rcases List.mem_append.mp hcandidate with hchecked | hroot
    · exact hs _ (List.mem_filter.mp hchecked).1
    · exact .exempt hnow .refl hroot
  · exact halternatives _ halternative

namespace RepeatsAnswers

theorem caughtTypes_eq (hrepeats : p.RepeatsAnswers st) (hnow : p.Evolves st now)
    (hlater : p.Evolves now later) (clause : NodeRef) :
    p.caughtTypes later clause = p.caughtTypes now clause := by
  unfold caughtTypes
  cases hcatch : p.tree.catchType clause with
  | none => rfl
  | some id =>
    obtain ⟨_, _, _, hparameter⟩ := exists_parameter_of_catchType hcatch
    exact (hrepeats.parameter hparameter (hnow.trans hlater)).trans
      (hrepeats.parameter hparameter hnow).symm

theorem survivors_eq (hrepeats : p.RepeatsAnswers st) (hnow : p.Evolves st now)
    (hlater : p.Evolves now later) {candidates : List Candidate}
    (h : ∀ c ∈ candidates, p.Offers c) :
    p.survivors later candidates = p.survivors now candidates := by
  apply List.filter_congr
  intro c hc
  have hany : candidates.any (p.isOverriddenBy later c) =
      candidates.any (p.isOverriddenBy now c) := by
    apply any_congr_of_mem
    intro other hother
    unfold isOverriddenBy
    rw [hrepeats.owner (h other hother) (h c hc) hnow,
      hrepeats.owner (h other hother) (h c hc) (hnow.trans hlater)]
  rw [hany]

end RepeatsAnswers

section Later

variable (hst : p.KeepsSubtyping st) (hrepeats : p.RepeatsAnswers st) (hnow : p.Evolves st now)
  (hlater : p.Evolves now later)
include hst hrepeats hnow hlater

theorem clonesArray_eq (site : NodeRef) (c : Candidate) :
    p.clonesArray later site c = p.clonesArray now site c := by
  have harray : (p.resolution.staticType? (p.qualifierOf site)).any (p.types.isArray later) =
      (p.resolution.staticType? (p.qualifierOf site)).any (p.types.isArray now) := by
    cases htype : p.resolution.staticType? (p.qualifierOf site) with
    | none => rfl
    | some ty =>
      exact (hrepeats.isArray htype (hnow.trans hlater)).trans (hrepeats.isArray htype hnow).symm
  unfold clonesArray
  rw [harray, hst.wellKnown hnow, hst.wellKnown (hnow.trans hlater)]

theorem uncaught_eq (hs : ∀ ty ∈ s.members, p.Known st now ty) :
    p.uncaught later parts s = p.uncaught now parts s := by
  have hhandlers : parts.clauses.flatMap (p.caughtTypes later) =
      parts.clauses.flatMap (p.caughtTypes now) :=
    List.flatMap_congr fun clause _ => hrepeats.caughtTypes_eq hnow hlater clause
  unfold uncaught
  rw [hhandlers]
  apply (hst.agreeOn hnow hlater).foldl_removeCovered hs
  intro handler hhandler
  obtain ⟨clause, -, hcaught⟩ := List.mem_flatMap.mp hhandler
  exact known_of_mem_caughtTypes hnow hcaught

theorem arrivals_eq {alternatives : List TypeRef} (clause : NodeRef)
    (halternatives : ∀ ty ∈ alternatives, p.Known st now ty)
    (hs : ∀ ty ∈ s.members, p.Known st now ty) :
    p.arrivals later alternatives parts clause s = p.arrivals now alternatives parts clause s := by
  have hearlier : p.caughtEarlier later parts clause = p.caughtEarlier now parts clause :=
    List.flatMap_congr fun other _ => hrepeats.caughtTypes_eq hnow hlater other
  have hchecked : s.members.filter (p.isChecked later) = s.members.filter (p.isChecked now) :=
    List.filter_congr fun ty hty => hst.isChecked_eq hnow hlater (hs ty hty)
  have hcandidate : ∀ ty ∈ s.members.filter (p.isChecked now) ++ p.exemptRoots now,
      p.Known st now ty := by
    intro ty hty
    rcases List.mem_append.mp hty with hty | hroot
    · exact hs ty (List.mem_filter.mp hty).1
    · exact .exempt hnow .refl hroot
  have hreaching : ∀ ty ∈ s.members.filter (p.isChecked now) ++ p.exemptRoots now,
      reaching? (p.types.isSubtype later) alternatives ty =
        reaching? (p.types.isSubtype now) alternatives ty := by
    intro ty hty
    unfold reaching?
    rw [← List.head?_filterMap, ← List.head?_filterMap]
    apply congrArg List.head?
    apply List.filterMap_congr
    intro alternative halternative
    have hkty := hcandidate ty hty
    have hkalternative := halternatives alternative halternative
    rw [hst.isSubtype hnow hlater hkty hkalternative, hst.isSubtype hnow hlater hkalternative hkty]
  unfold arrivals
  rw [hchecked, hst.exemptRoots_eq hnow hlater, List.filterMap_congr hreaching, hearlier]
  apply List.filter_congr
  intro ty hty
  obtain ⟨candidate, hmem, hform⟩ := List.mem_filterMap.mp (List.mem_eraseDups.mp hty)
  have hkty : p.Known st now ty := by
    rcases mem_of_reaching?_eq_some hform with rfl | halternative
    · exact hcandidate _ hmem
    · exact halternatives _ halternative
  apply congrArg (!·)
  apply any_congr_of_mem
  intro handler hhandler
  obtain ⟨other, -, hcaught⟩ := List.mem_flatMap.mp hhandler
  exact hst.isSubtype hnow hlater hkty (known_of_mem_caughtTypes hnow hcaught)

end Later

end Program

end CheckedExceptions
