import CheckedExceptions.Analysis.Unhandled
import CheckedExceptions.Proofs.Growth

/-! What an analysis does to the state of the type system: it substitutes in `throws` clauses, and
nothing else. -/

namespace CheckedExceptions

open Relation (ReflTransGen)

theorem CallTarget.mem_distinct {target : CallTarget} {c : Candidate} (h : c ∈ target.distinct) :
    c = target.chosen ∨ c ∈ target.others := by
  have hfold : ∀ (others listed : List Candidate),
      c ∈ others.foldl CallTarget.appendNew listed → c ∈ listed ∨ c ∈ others := by
    intro others
    induction others with
    | nil => exact fun listed h => Or.inl h
    | cons other others ih =>
      intro listed h
      rcases ih _ h with h | h
      · unfold CallTarget.appendNew at h
        split at h
        · exact Or.inl h
        · rcases List.mem_append.mp h with h | h
          · exact Or.inl h
          · exact Or.inr (List.mem_cons.mpr (Or.inl (List.mem_singleton.mp h)))
      · exact Or.inr (List.mem_cons_of_mem other h)
  rcases hfold _ _ h with h | h
  · exact Or.inl (List.mem_singleton.mp h)
  · exact Or.inr h

namespace Resolution

variable {r : Resolution} {P : Candidate → Prop}

structure AllCandidates (r : Resolution) (P : Candidate → Prop) : Prop where
  targets : ∀ n target, r.target? n = some target → ∀ c ∈ target.chosen :: target.others, P c
  closers : ∀ ty c, r.closer? ty = some c → P c
  implemented : ∀ n c, r.implemented? n = some c → P c

theorem allCandidates_unknown : unknown.AllCandidates P :=
  ⟨fun _ _ h => (nomatch h), fun _ _ h => (nomatch h), fun _ _ h => (nomatch h)⟩

theorem of_record {α β : Type} [DecidableEq α] {f : α → Option β} {a x : α} {b y : β}
    (h : record f a b x = some y) : y = b ∨ f x = some y := by
  unfold record at h
  split at h
  · exact Or.inl (Option.some.inj h).symm
  · exact Or.inr h

namespace AllCandidates

theorem withTarget (h : r.AllCandidates P) (site : NodeRef) {target : CallTarget}
    (hnew : ∀ c ∈ target.chosen :: target.others, P c) :
    (r.withTarget site target).AllCandidates P := by
  refine ⟨fun n other hother => ?_, h.closers, h.implemented⟩
  rcases of_record hother with rfl | hother
  · exact hnew
  · exact h.targets n other hother

theorem withCloser (h : r.AllCandidates P) (ty : TypeRef) {closer : Candidate} (hnew : P closer) :
    (r.withCloser ty closer).AllCandidates P := by
  refine ⟨h.targets, fun other c hc => ?_, h.implemented⟩
  rcases of_record hc with rfl | hc
  · exact hnew
  · exact h.closers other c hc

end AllCandidates

end Resolution

namespace Program

variable {σ α : Type} {p : Program σ}

/-- `c` is a candidate that the program can come to ask about. -/
inductive Offers (p : Program σ) : Candidate → Prop
  | chosen {n target} : p.resolution.target? n = some target → Offers p target.chosen
  | other {n target c} : p.resolution.target? n = some target → c ∈ target.others → Offers p c
  | closer {ty c} : p.resolution.closer? ty = some c → Offers p c
  | implemented {n c} : p.resolution.implemented? n = some c → Offers p c

theorem Offers.of_all {P : Candidate → Prop} {c : Candidate} (hall : p.resolution.AllCandidates P)
    (h : p.Offers c) : P c := by
  cases h with
  | chosen htarget => exact hall.targets _ _ htarget _ List.mem_cons_self
  | other htarget hmem => exact hall.targets _ _ htarget _ (List.mem_cons_of_mem _ hmem)
  | closer hcloser => exact hall.closers _ _ hcloser
  | implemented hmethod => exact hall.implemented _ _ hmethod

/-- A substitution in the `throws` clause of a candidate leads from one state to the other. -/
def Substitutes (p : Program σ) (st st' : σ) : Prop :=
  ∃ c ty, p.Offers c ∧ ty ∈ c.callable.throws ∧ (p.types.substitute ty c.substitution st).2 = st'

def Evolves (p : Program σ) : σ → σ → Prop := ReflTransGen p.Substitutes

/-- No substitution changes the state: every type that the program can come to need is there. -/
def Complete (p : Program σ) (st : σ) : Prop := ∀ st', p.Substitutes st st' → st' = st

theorem Complete.eq_of_evolves {st st' : σ} (h : p.Complete st) (hevolves : p.Evolves st st') :
    st' = st := by
  induction hevolves with
  | refl => rfl
  | tail _ hstep ih =>
    subst ih
    exact h _ hstep

theorem complete_of_isEmpty {p : Program TypeStore} (htypes : p.types = .ofStore)
    (h : p.resolution.AllCandidates fun c => c.substitution.isEmpty = true) (st : TypeStore) :
    p.Complete st := by
  rintro st' ⟨c, ty, hoffers, -, rfl⟩
  rw [htypes]
  exact TypeStore.substitute_snd_of_isEmpty (hoffers.of_all h) ty st

abbrev Evolving (p : Program σ) (m : StateM σ α) : Prop := Moves p.Substitutes m

theorem evolving_setOf (tys : List TypeRef) : p.Evolving (p.setOf tys) :=
  .bind .get fun _ => .pure _

theorem evolving_unite (s t : ThrowSet) : p.Evolving (p.unite s t) :=
  .bind .get fun _ => .pure _

theorem evolving_uniteAll {below : NodeRef → StateM σ ThrowSet} (h : ∀ n, p.Evolving (below n))
    (s : ThrowSet) (nodes : List NodeRef) : p.Evolving (p.uniteAll below s nodes) :=
  .foldlM (fun s n => .bind (h n) fun t => evolving_unite s t) nodes s

theorem evolving_throwsAtSite {c : Candidate} (hc : p.Offers c) :
    p.Evolving (p.throwsAtSite c) := by
  refine .bind (.mapM fun ty hty st => ?_) fun _ => .pure _
  exact ReflTransGen.single ⟨c, ty, hc, hty, rfl⟩

theorem evolving_declaredSet {c : Candidate} (hc : p.Offers c) : p.Evolving (p.declaredSet c) :=
  .bind (evolving_throwsAtSite hc) fun _ => evolving_setOf _

theorem evolving_meetAll {candidates : List Candidate} (h : ∀ c ∈ candidates, p.Offers c)
    (common : List TypeRef) : p.Evolving (p.meetAll common candidates) := by
  induction candidates generalizing common with
  | nil => exact .pure common
  | cons c candidates ih =>
    refine .bind (evolving_throwsAtSite (h c List.mem_cons_self)) fun tys => ?_
    refine .bind .get fun st => ?_
    split
    · exact .pure []
    · exact ih (fun x hx => h x (List.mem_cons_of_mem c hx)) _

theorem evolving_commonThrows {candidates : List Candidate} (h : ∀ c ∈ candidates, p.Offers c) :
    p.Evolving (p.commonThrows candidates) := by
  cases candidates with
  | nil => exact .pure []
  | cons c candidates =>
    refine .bind (evolving_throwsAtSite (h c List.mem_cons_self)) fun tys => ?_
    refine .bind .get fun st => ?_
    split
    · exact .pure []
    · exact evolving_meetAll (fun x hx => h x (List.mem_cons_of_mem c hx)) _

theorem Offers.of_mem_distinct {n : NodeRef} {target : CallTarget} {c : Candidate}
    (htarget : p.resolution.target? n = some target) (h : c ∈ target.distinct) : p.Offers c := by
  rcases CallTarget.mem_distinct h with rfl | h
  · exact .chosen htarget
  · exact .other htarget h

theorem evolving_agreedThrows {n : NodeRef} {target : CallTarget}
    (htarget : p.resolution.target? n = some target) : p.Evolving (p.agreedThrows target) := by
  refine .bind .get fun st => ?_
  split
  · next first second rest hsurvivors =>
    refine .bind (evolving_commonThrows fun c hc => ?_) fun tys => .map (evolving_setOf tys) some
    rw [← hsurvivors] at hc
    exact .of_mem_distinct htarget (List.mem_filter.mp hc).1
  · exact .pure none

theorem evolving_invocationThrows (site : NodeRef) : p.Evolving (p.invocationThrows site) := by
  unfold invocationThrows
  split
  · exact .pure _
  · split
    · exact .pure _
    · next target htarget =>
      refine .bind .get fun st => ?_
      split
      · exact .pure _
      · split
        · refine .bind (evolving_agreedThrows htarget) fun agreed => ?_
          cases agreed with
          | none => exact evolving_declaredSet (.chosen htarget)
          | some set => exact .pure set
        · exact evolving_declaredSet (.chosen htarget)

theorem evolving_closingThrows (resource : NodeRef) : p.Evolving (p.closingThrows resource) := by
  unfold closingThrows
  split
  · exact .pure _
  · split
    · next closer hcloser => exact evolving_declaredSet (.closer hcloser)
    · exact .pure _

section Walk

variable {below : NodeRef → StateM σ ThrowSet}

theorem evolving_resourceThrows (h : ∀ n, p.Evolving (below n)) (resource : NodeRef) :
    p.Evolving (p.resourceThrows below resource) := by
  unfold resourceThrows
  split
  · exact h resource
  · refine .bind (evolving_closingThrows resource) fun closing => ?_
    exact .bind (h resource) fun producing => evolving_unite closing producing
  · exact .pure _

theorem evolving_bodyThrows (h : ∀ n, p.Evolving (below n)) (parts : TryParts) :
    p.Evolving (p.bodyThrows below parts) :=
  .bind (evolving_uniteAll (evolving_resourceThrows h) _ _) fun resources =>
    evolving_uniteAll h resources _

theorem evolving_arrivingTypes (h : ∀ n, p.Evolving (below n)) (clause : NodeRef) :
    p.Evolving (p.arrivingTypes below clause) := by
  refine .bind .get fun st => ?_
  split
  · exact .bind (evolving_bodyThrows h _) fun thrown => .bind .get fun st => .pure _
  · exact .pure _

theorem evolving_raisedTypes (h : ∀ n, p.Evolving (below n)) (expr : NodeRef) :
    p.Evolving (p.raisedTypes below expr) := by
  refine .bind .get fun st => ?_
  split
  · split
    · exact evolving_arrivingTypes h _
    · exact .pure _
  · split <;> exact .pure _

theorem evolving_leavingTry (h : ∀ n, p.Evolving (below n)) (parts : TryParts) :
    p.Evolving (p.leavingTry below parts) := by
  refine .bind (evolving_bodyThrows h parts) fun body => .bind .get fun st => ?_
  refine .bind (evolving_uniteAll h _ _) fun pending => ?_
  split
  · exact .pure pending
  · refine .bind (h _) fun final => ?_
    split
    · exact evolving_unite pending final
    · exact .pure final

theorem evolving_thrownByChildren (h : ∀ n, p.Evolving (below n)) (n : NodeRef) :
    p.Evolving (p.thrownByChildren below n) :=
  evolving_uniteAll h _ _

theorem evolving_thrownByInvocation (h : ∀ n, p.Evolving (below n)) (n : NodeRef) :
    p.Evolving (p.thrownByInvocation below n) :=
  .bind (evolving_invocationThrows n) fun own =>
    .bind (evolving_thrownByChildren h n) fun operands => evolving_unite own operands

theorem evolving_thrownStep (h : ∀ n, p.Evolving (below n)) (n : NodeRef) :
    p.Evolving (p.thrownStep below n) := by
  unfold thrownStep
  split
  · exact .pure _
  · exact evolving_uniteAll h _ _
  · exact .pure _
  · exact .pure _
  · exact .pure _
  · refine .bind (evolving_raisedTypes h _) fun tys => ?_
    exact .bind (evolving_setOf tys) fun own => evolving_uniteAll h own _
  · exact evolving_leavingTry h _
  · exact .bind (evolving_closingThrows n) fun closing => evolving_uniteAll h closing _
  · exact evolving_thrownByInvocation h n
  · exact evolving_thrownByInvocation h n
  · exact evolving_thrownByChildren h n

end Walk

theorem evolving_thrownWithin (depth : Nat) (n : NodeRef) :
    p.Evolving (p.thrownWithin depth n) := by
  induction depth generalizing n with
  | zero => exact .pure _
  | succ depth ih => exact evolving_thrownStep ih n

theorem evolving_implementedAllows (expr : NodeRef) (exception : TypeRef) :
    p.Evolving (p.implementedAllows expr exception) := by
  unfold implementedAllows
  split
  · next method hmethod =>
    exact .bind (evolving_throwsAtSite (.implemented hmethod)) fun tys =>
      .bind .get fun st => .pure _
  · exact .pure _

theorem evolving_ascentStep (element : NodeRef) (exception : TypeRef) (top : NodeRef) :
    p.Evolving (p.ascentStep element exception top) := by
  refine .bind .get fun st => ?_
  split
  · exact .pure _
  · split
    · exact .map (evolving_implementedAllows element exception) _
    · split
      case h_5 => exact .map (evolving_implementedAllows _ exception) _
      all_goals exact .pure _

theorem evolving_isHandledWithin (exception : TypeRef) (top : NodeRef) (steps : Nat)
    (element : NodeRef) : p.Evolving (p.isHandledWithin exception top steps element) := by
  induction steps generalizing element with
  | zero => exact .pure false
  | succ steps ih =>
    refine .bind (evolving_ascentStep element exception top) fun ascent => ?_
    cases ascent with
    | settled handled => exact .pure handled
    | climb next => exact ih next

theorem evolving_remaining (n : NodeRef) (set : ThrowSet) (top : NodeRef) :
    p.Evolving (p.remaining n set top) := by
  have hcollect : ∀ (tys : List TypeRef) (found : ThrowSet),
      p.Evolving (p.collectRemaining n top found tys) := by
    intro tys
    induction tys with
    | nil => exact fun found => .pure found
    | cons ty tys ih =>
      intro found
      refine .bind .get fun st => ?_
      split
      · refine .bind (evolving_isHandledWithin ty top _ n) fun handled => ?_
        split
        · exact ih found
        · exact .bind .get fun st => ih _
      · exact ih found
  exact hcollect set.members .empty

theorem evolving_ownThrows (site : NodeRef) : p.Evolving (p.ownThrows site) := by
  unfold ownThrows
  split
  · exact .pure _
  · exact evolving_invocationThrows site
  · exact evolving_invocationThrows site
  · exact evolving_invocationThrows site
  · exact .bind (evolving_raisedTypes (evolving_thrownWithin _) _) fun tys => evolving_setOf tys
  · exact evolving_closingThrows site
  · split
    · exact evolving_closingThrows site
    · exact .pure _

theorem sitesAt_eq (top n : NodeRef) : p.sitesAt top n =
    (if p.isClosed n then siteOf n true <$> p.unhandledClosing n top else pure []) >>=
      fun closing =>
        (if p.isThrower n then siteOf n false <$> p.unhandledItself n top else pure []) >>=
          fun own => pure (closing ++ own) := by
  unfold sitesAt
  cases p.isClosed n <;> cases p.isThrower n <;> rfl

theorem evolving_sitesAt (top n : NodeRef) : p.Evolving (p.sitesAt top n) := by
  rw [sitesAt_eq]
  refine .bind ?_ fun closing => .bind ?_ fun own => .pure _
  · split
    · exact .map (.bind (evolving_closingThrows n) fun set => evolving_remaining n set top) _
    · exact .pure []
  · split
    · exact .map (.bind (evolving_ownThrows n) fun set => evolving_remaining n set top) _
    · exact .pure []

end Program

end CheckedExceptions
