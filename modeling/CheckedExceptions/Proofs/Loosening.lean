import CheckedExceptions.Proofs.Handling
import CheckedExceptions.Proofs.Influence
import CheckedExceptions.Proofs.Sites

/-! Options that are looser only handle more: what was unhandled may be handled, and nothing new is
unhandled. The same holds of a search that does not end at a boundary. -/

namespace CheckedExceptions

/-- The second options go on for longer on the way up to a handler, or let more pass for want of
knowledge. There is no other difference. -/
structure Options.Loosens (o o' : Options) : Prop where
  overloadIntersection : o'.overloadIntersection = o.overloadIntersection
  preciseRethrow : o'.preciseRethrow = o.preciseRethrow
  maxTreeDepth : o'.maxTreeDepth = o.maxTreeDepth
  serverPages : o.permissiveServerPages = true → o'.permissiveServerPages = true
  functionalType :
    o.permissiveMissingFunctionalType = true → o'.permissiveMissingFunctionalType = true
  ascent : o.maxAscentDepth ≤ o'.maxAscentDepth

def Handlers.IgnoreBoundary (h : Handlers) (t : SyntaxTree) : Prop :=
  ∀ handler ∈ h.custom, ∀ element exception top top',
    handler t element exception top = handler t element exception top'

theorem Handlers.IgnoreBoundary.someCustom_eq {h : Handlers} {t : SyntaxTree}
    (hignore : h.IgnoreBoundary t) (element : NodeRef) (exception : TypeRef) (top top' : NodeRef) :
    h.someCustom t element exception top = h.someCustom t element exception top' :=
  any_congr_of_mem fun handler hmem => hignore handler hmem element exception top top'

namespace Program

variable {σ : Type} {p : Program σ} {o : Options} {st : σ} {element top : NodeRef}
  {exception : TypeRef}

theorem ruleAt_eq_or (element top : NodeRef) :
    p.ruleAt element top = .fails ∨ p.ruleAt element top = p.ruleAt element none := by
  unfold ruleAt
  by_cases hroot : (p.tree.parent element).isNone = true
  · exact Or.inl (by simp [hroot])
  · by_cases htop : (p.tree.parent element == top) = true
    · exact Or.inl (by simp [htop])
    · refine Or.inr ?_
      have hnone : (p.tree.parent element == none) = false := by
        cases hparent : p.tree.parent element with
        | none => exact absurd (by rw [hparent]; rfl) hroot
        | some parent => rfl
      simp only [hroot, htop, hnone, Bool.or_self]

section Loosens

variable (hloosens : p.options.Loosens o)
include hloosens

theorem withOptions_implementedAllows {expr : NodeRef}
    (h : (p.implementedAllows expr exception st).1 = true) :
    ((p.withOptions o).implementedAllows expr exception st).1 = true := by
  unfold implementedAllows at h ⊢
  have hsame : (p.withOptions o).resolution.implemented? expr =
      p.resolution.implemented? expr := rfl
  rw [hsame]
  cases hmethod : p.resolution.implemented? expr with
  | some method =>
    rw [hmethod] at h
    exact h
  | none =>
    rw [hmethod] at h
    exact hloosens.functionalType h

theorem outcome_eases_withOptions (hhandlers : p.handlers.IgnoreBoundary p.tree)
    (element top : NodeRef) : (p.outcome st element exception top (p.ruleAt element top)).Eases
      ((p.withOptions o).outcome st element exception none
        ((p.withOptions o).ruleAt element none)) := by
  show Ascent.Eases _ ((p.withOptions o).outcome st element exception none (p.ruleAt element none))
  rcases p.ruleAt_eq_or element top with hfails | hsame
  · rw [hfails]
    exact Or.inl rfl
  · rw [hsame]
    cases p.ruleAt element none with
    | implements expr => exact Ascent.eases_settled (withOptions_implementedAllows hloosens)
    | file role =>
      apply Ascent.eases_settled
      simp only [Bool.and_eq_true]
      exact And.imp_right hloosens.serverPages
    | custom =>
      refine Or.inr (Or.inl ?_)
      simp only [outcome, customStep, hhandlers.someCustom_eq element exception top none]
      rfl
    | _ => exact Or.inr (Or.inl rfl)

theorem isHandledUpTo_withOptions (hhandlers : p.handlers.IgnoreBoundary p.tree)
    (h : (p.isHandledUpTo element exception top st).1 = true) :
    ((p.withOptions o).isHandledUpTo element exception none st).1 = true :=
  isHandledWithin_of_eases (fun element => outcome_eases_withOptions hloosens hhandlers element top)
    hloosens.ascent h

theorem withOptions_unhandled (hhandlers : p.handlers.IgnoreBoundary p.tree) (hst : p.Complete st)
    (n top : NodeRef) : ((p.withOptions o).unhandled n none st).1 =
      (p.unhandled n top st).1.filter fun ty =>
        !((p.withOptions o).isHandledUpTo n ty none st).1 := by
  have hthrown : (p.withOptions o).thrown n = p.thrown n := by
    show (p.withOptions o).thrownWithin (o.maxTreeDepth + 1) n = _
    rw [withOptions_thrownWithin hloosens.overloadIntersection hloosens.preciseRethrow,
      hloosens.maxTreeDepth]
    rfl
  have hreferenced : (p.withOptions o).referencedThrows n = p.referencedThrows n := by
    unfold referencedThrows
    rw [withOptions_invocationThrows hloosens.overloadIntersection]
    rfl
  have hset : (if (p.withOptions o).isMethodRef n then (p.withOptions o).referencedThrows n
      else (p.withOptions o).thrown n) =
        if p.isMethodRef n then p.referencedThrows n else p.thrown n := by
    rw [hthrown, hreferenced]
    rfl
  rw [hst.withOptions.unhandled_fst, hst.unhandled_fst, hset]
  unfold ThrowSet.filter
  rw [List.filter_filter]
  congr 2
  funext ty
  show (p.isChecked st ty && _) = _
  cases hhandled : (p.isHandledUpTo n ty top st).1 with
  | false => simp [Bool.and_comm]
  | true => simp [isHandledUpTo_withOptions hloosens hhandlers hhandled]

/-- Loosening handles whatever was handled, and leaves a part of what was unhandled: just what is
still handled nowhere. -/
theorem loosening_handles_more (hhandlers : p.handlers.IgnoreBoundary p.tree) (top : NodeRef) :
    (∀ st element exception, (p.isHandledUpTo element exception top st).1 = true →
      ((p.withOptions o).isHandledUpTo element exception none st).1 = true) ∧
    ∀ st, p.Complete st → ∀ n,
      ((p.withOptions o).unhandled n none st).1.members.Sublist
        (p.unhandled n top st).1.members ∧
      ∀ ty ∈ (p.unhandled n top st).1.members,
        ty ∈ ((p.withOptions o).unhandled n none st).1.members ↔
          ((p.withOptions o).isHandledUpTo n ty none st).1 = false := by
  refine ⟨fun st element exception => isHandledUpTo_withOptions hloosens hhandlers, ?_⟩
  intro st hst n
  rw [withOptions_unhandled hloosens hhandlers hst n top]
  refine ⟨List.filter_sublist, fun ty hty => ?_⟩
  simp [ThrowSet.filter, hty]

end Loosens

def pageProgram : Program TypeStore where
  tree := ⟨#[⟨0, 0, .call "read" none [], some 1⟩, ⟨0, 0, .block [some 0], some 5⟩,
    ⟨0, 0, .parameter "e" (some 5) false, some 4⟩, ⟨0, 0, .block [], some 4⟩,
    ⟨0, 0, .catchClause (some 2) (some 3), some 5⟩,
    ⟨0, 0, .trying ⟨none, some 1, [some 4], none⟩, some 6⟩,
    ⟨0, 0, .file "page" .serverPage [some 5], none⟩]⟩
  types := .ofStore
  completion := fun _ => .ok true
  resolution := Resolution.unknown.withTarget (some 0)
    ⟨⟨.method "read" (some 0) [some 5, some 7], .identity⟩, []⟩
  handlers := Handlers.empty.addCustom fun _ _ exception _ => exception == some 2
  options := { Options.strict with maxAscentDepth := 1 }

theorem pageProgram_complete : pageProgram.Complete TypeStore.mixedStore :=
  complete_of_isEmpty rfl (Resolution.allCandidates_unknown.withTarget _ (by decide)) _

/-- With the try statement as boundary both exceptions are unhandled. Without it, one of them is
caught; the other one only a permissive page handles. -/
theorem pageProgram_loosened :
    (pageProgram.isHandledUpTo (some 0) (some 2) (some 5) TypeStore.mixedStore).1 = true ∧
    ((pageProgram.withOptions .strict).isHandledUpTo (some 0) (some 2) none
      TypeStore.mixedStore).1 = true ∧
    (pageProgram.unhandled (some 0) (some 5) TypeStore.mixedStore).1.members =
      [some 5, some 7] ∧
    ((pageProgram.withOptions .strict).unhandled (some 0) none
      TypeStore.mixedStore).1.members.Sublist [some 5, some 7] ∧
    some 7 ∈ ((pageProgram.withOptions .strict).unhandled (some 0) none
      TypeStore.mixedStore).1.members := by
  have hloosens : pageProgram.options.Loosens .strict := ⟨rfl, rfl, rfl, id, id, by decide⟩
  have hhandlers : pageProgram.handlers.IgnoreBoundary pageProgram.tree := by
    intro handler hmem element exception top top'
    rw [List.mem_singleton.mp hmem]
  have hpasses :
      (pageProgram.isHandledUpTo (some 0) (some 2) (some 5) TypeStore.mixedStore).1 = true := by
    decide +kernel
  have hmembers : (pageProgram.unhandled (some 0) (some 5) TypeStore.mixedStore).1.members =
      [some 5, some 7] := by decide +kernel
  obtain ⟨hhandled, hunhandled⟩ := loosening_handles_more hloosens hhandlers (some 5)
  obtain ⟨hsublist, hstill⟩ := hunhandled TypeStore.mixedStore pageProgram_complete (some 0)
  rw [hmembers] at hsublist hstill
  have hseven : some 7 ∈ [some 5, some 7] := List.mem_cons_of_mem _ List.mem_cons_self
  exact ⟨hpasses, hhandled _ _ _ hpasses, hmembers, hsublist,
    (hstill (some 7) hseven).mpr (by decide +kernel)⟩

end Program

end CheckedExceptions
