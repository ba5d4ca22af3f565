import CheckedExceptions.Proofs.Evolution

/-! What a rethrown catch parameter may stand for: each exception that comes out of the try block is
matched with the first alternative of the clause that is related to it. -/

namespace CheckedExceptions

namespace Program

variable {σ : Type} {p : Program σ} {sub : ThrowSet.Subtyping} {alternatives : List TypeRef}

def FirstRelated (sub : ThrowSet.Subtyping) (alternatives : List TypeRef)
    (ty alternative : TypeRef) : Prop :=
  ∃ before after, alternatives = before ++ alternative :: after ∧
    (∀ other ∈ before, sub ty other = false ∧ sub other ty = false) ∧
    (sub ty alternative = true ∨ sub alternative ty = true)

theorem reaching?_eq_some_iff {ty reached : TypeRef} :
    reaching? sub alternatives ty = some reached ↔
      ∃ alternative, FirstRelated sub alternatives ty alternative ∧
        reached = if sub ty alternative then ty else alternative := by
  unfold reaching? FirstRelated
  rw [List.findSome?_eq_some_iff]
  constructor
  · rintro ⟨before, alternative, after, hsplit, hfound, hbefore⟩
    have hunrelated : ∀ other ∈ before, sub ty other = false ∧ sub other ty = false := by
      intro other hother
      have hnone := hbefore other hother
      split at hnone
      · cases hnone
      · next hup =>
        split at hnone
        · cases hnone
        · next hdown => exact ⟨Bool.eq_false_iff.mpr hup, Bool.eq_false_iff.mpr hdown⟩
    by_cases hup : sub ty alternative = true
    · rw [if_pos hup] at hfound
      refine ⟨alternative, ⟨before, after, hsplit, hunrelated, Or.inl hup⟩, ?_⟩
      rw [if_pos hup, Option.some.inj hfound]
    · by_cases hdown : sub alternative ty = true
      · rw [if_neg hup, if_pos hdown] at hfound
        refine ⟨alternative, ⟨before, after, hsplit, hunrelated, Or.inr hdown⟩, ?_⟩
        rw [if_neg hup, Option.some.inj hfound]
      · rw [if_neg hup, if_neg hdown] at hfound
        cases hfound
  · rintro ⟨alternative, ⟨before, after, hsplit, hbefore, hrelated⟩, rfl⟩
    refine ⟨before, alternative, after, hsplit, ?_, fun other hother => ?_⟩
    · by_cases hup : sub ty alternative = true
      · rw [if_pos hup, if_pos hup]
      · rw [if_neg hup, if_neg hup, if_pos (hrelated.resolve_left hup)]
    · obtain ⟨hup, hdown⟩ := hbefore other hother
      simp [hup, hdown]

/-- The form in which an exception reaches a clause is the lesser of the exception and one of the
alternatives. -/
theorem exists_related_of_reaching? {ty reached : TypeRef}
    (h : reaching? sub alternatives ty = some reached) : ∃ alternative ∈ alternatives,
      (reached = ty ∧ sub ty alternative = true) ∨
        (reached = alternative ∧ sub alternative ty = true) := by
  obtain ⟨alternative, halternative, hform⟩ := List.exists_of_findSome?_eq_some h
  refine ⟨alternative, halternative, ?_⟩
  split at hform
  · next hup => exact Or.inl ⟨(Option.some.inj hform).symm, hup⟩
  · split at hform
    · next hdown => exact Or.inr ⟨(Option.some.inj hform).symm, hdown⟩
    · cases hform

theorem mem_of_reaching?_eq_some {ty reached : TypeRef}
    (h : reaching? sub alternatives ty = some reached) : reached = ty ∨ reached ∈ alternatives := by
  obtain ⟨alternative, halternative, ⟨rfl, -⟩ | ⟨rfl, -⟩⟩ := exists_related_of_reaching? h
  · exact Or.inl rfl
  · exact Or.inr halternative

variable {st : σ} {clause : NodeRef} {parts : TryParts}

/-- What the try block throws, the checked part of it and the unchecked roots: the exceptions that a
clause of the try statement is asked about. The second component is the state reached. -/
def candidates (p : Program σ) (parts : TryParts) (st : σ) : List TypeRef × σ :=
  let (thrown, st) := p.bodyThrows (p.thrownWithin p.options.maxTreeDepth) parts st
  (thrown.members.filter (p.isChecked st) ++ p.exemptRoots st, st)

theorem candidates_evolves : p.Evolves st (p.candidates parts st).2 :=
  evolving_bodyThrows (evolving_thrownWithin _) parts st

def caughtEarlier (p : Program σ) (st : σ) (parts : TryParts) (clause : NodeRef) : List TypeRef :=
  (parts.clauses.takeWhile (· != clause)).flatMap (p.caughtTypes st)

/-- A type reaches a clause as the form of some candidate in which no earlier clause catches it. -/
theorem mem_typesReaching_iff (htry : p.tree.payload? (p.tree.parent clause) = some (.trying parts))
    (ty : TypeRef) : ty ∈ (p.typesReaching clause st).1 ↔
      (∃ candidate ∈ (p.candidates parts st).1,
        reaching? (p.types.isSubtype (p.candidates parts st).2) (p.caughtTypes st clause)
          candidate = some ty) ∧
      (p.caughtEarlier (p.candidates parts st).2 parts clause).any
        (p.types.isSubtype (p.candidates parts st).2 ty) = false := by
  have heq : (p.typesReaching clause st).1 =
      ((p.candidates parts st).1.filterMap (reaching?
        (p.types.isSubtype (p.candidates parts st).2) (p.caughtTypes st clause))).eraseDups.filter
          fun ty => !(p.caughtEarlier (p.candidates parts st).2 parts clause).any
            (p.types.isSubtype (p.candidates parts st).2 ty) := by
    unfold typesReaching arrivingTypes
    simp only [htry]
    rfl
  rw [heq, List.mem_filter, List.mem_eraseDups, List.mem_filterMap, Bool.not_eq_true']

/-- Which types a rethrown parameter may stand for. A type that no earlier clause catches is covered
by the types that reach the clause exactly if some candidate, cut down to the first alternative
related to it, covers it. This holds of a candidate and of the first alternative related to it. -/
theorem typesReaching_covers_iff
    (htry : p.tree.payload? (p.tree.parent clause) = some (.trying parts))
    (hrefl : ∀ a, p.types.isSubtype (p.candidates parts st).2 a a = true)
    (htrans : ∀ a b c, p.types.isSubtype (p.candidates parts st).2 a b = true →
      p.types.isSubtype (p.candidates parts st).2 b c = true →
      p.types.isSubtype (p.candidates parts st).2 a c = true) :
    let sub := p.types.isSubtype (p.candidates parts st).2
    let missedEarlier := fun ty =>
      (p.caughtEarlier (p.candidates parts st).2 parts clause).any (sub ty) = false
    let covered := fun ty => ∃ reached ∈ (p.typesReaching clause st).1, sub ty reached = true
    (∀ ty, missedEarlier ty → (covered ty ↔
      ∃ candidate ∈ (p.candidates parts st).1, ∃ alternative,
        FirstRelated sub (p.caughtTypes st clause) candidate alternative ∧
        sub ty (if sub candidate alternative then candidate else alternative) = true)) ∧
    ∀ candidate ∈ (p.candidates parts st).1, ∀ alternative,
      FirstRelated sub (p.caughtTypes st clause) candidate alternative →
      (sub candidate alternative = true → missedEarlier candidate → covered candidate) ∧
      (sub alternative candidate = true → missedEarlier alternative → covered alternative) := by
  intro sub missedEarlier covered
  have hcovered : ∀ ty, missedEarlier ty → (covered ty ↔
      ∃ candidate ∈ (p.candidates parts st).1, ∃ alternative,
        FirstRelated sub (p.caughtTypes st clause) candidate alternative ∧
        sub ty (if sub candidate alternative then candidate else alternative) = true) := by
    intro ty hearlier
    constructor
    · rintro ⟨reached, hreached, hbelow⟩
      obtain ⟨⟨candidate, hcandidate, hform⟩, -⟩ := (mem_typesReaching_iff htry reached).mp hreached
      obtain ⟨alternative, hfirst, rfl⟩ := reaching?_eq_some_iff.mp hform
      exact ⟨candidate, hcandidate, alternative, hfirst, hbelow⟩
    · rintro ⟨candidate, hcandidate, alternative, hfirst, hbelow⟩
      refine ⟨_, (mem_typesReaching_iff htry _).mpr
        ⟨⟨candidate, hcandidate, reaching?_eq_some_iff.mpr ⟨alternative, hfirst, rfl⟩⟩, ?_⟩, hbelow⟩
      rw [List.any_eq_false]
      intro handler hhandler hcatches
      exact List.any_eq_false.mp hearlier handler hhandler (htrans _ _ _ hbelow hcatches)
  refine ⟨hcovered, fun candidate hcandidate alternative hfirst => ⟨?_, ?_⟩⟩
  · intro hup hearlier
    refine (hcovered candidate hearlier).mpr ⟨candidate, hcandidate, alternative, hfirst, ?_⟩
    rw [if_pos hup]
    exact hrefl candidate
  · intro hdown hearlier
    refine (hcovered alternative hearlier).mpr ⟨candidate, hcandidate, alternative, hfirst, ?_⟩
    split
    · exact hdown
    · exact hrefl alternative

def rethrowProgram : Program TypeStore where
  tree := ⟨#[⟨0, 0, .call "read" none [], some 1⟩, ⟨0, 0, .block [some 0], some 5⟩,
    ⟨0, 0, .parameter "e" (some 9) false, some 4⟩, ⟨0, 0, .block [], some 4⟩,
    ⟨0, 0, .catchClause (some 2) (some 3), some 5⟩,
    ⟨0, 0, .trying ⟨none, some 1, [some 4], none⟩, none⟩]⟩
  types := .ofStore
  completion := fun _ => .ok true
  resolution := Resolution.unknown.withTarget (some 0)
    ⟨⟨.method "read" (some 0) [some 2], .identity⟩, []⟩
  handlers := .empty
  options := .default

/-- The first alternative of the clause is covered, and the second is missed. -/
theorem rethrowProgram_misses :
    (∃ reached ∈ (rethrowProgram.typesReaching (some 4) TypeStore.mixedStore).1,
      TypeStore.mixedStore.isSubtype (some 5) reached = true) ∧
    ¬ ∃ reached ∈ (rethrowProgram.typesReaching (some 4) TypeStore.mixedStore).1,
      TypeStore.mixedStore.isSubtype (some 8) reached = true := by
  have hcomplete : rethrowProgram.Complete TypeStore.mixedStore :=
    complete_of_isEmpty rfl (Resolution.allCandidates_unknown.withTarget _ (by decide)) _
  have hstate : (rethrowProgram.candidates ⟨none, some 1, [some 4], none⟩ TypeStore.mixedStore).2 =
      TypeStore.mixedStore := hcomplete.eq_of_evolves candidates_evolves
  have hcandidate : some 2 ∈
      (rethrowProgram.candidates ⟨none, some 1, [some 4], none⟩ TypeStore.mixedStore).1 := by
    decide +kernel
  have hfirst : FirstRelated TypeStore.mixedStore.isSubtype
      (rethrowProgram.caughtTypes TypeStore.mixedStore (some 4)) (some 2) (some 5) :=
    ⟨[], [some 8], by decide +kernel, by simp, Or.inr (by decide +kernel)⟩
  have htry : rethrowProgram.tree.payload? (rethrowProgram.tree.parent (some 4)) =
      some (.trying ⟨none, some 1, [some 4], none⟩) := rfl
  have hcovers := @typesReaching_covers_iff _ rethrowProgram TypeStore.mixedStore (some 4) _ htry
  rw [hstate] at hcovers
  refine ⟨?_, by decide +kernel⟩
  have hresult := hcovers (TypeStore.isSubtype_refl _) TypeStore.mixedStore_trans
  exact (hresult.2 _ hcandidate _ hfirst).2 (by decide +kernel) (by decide +kernel)

end Program

end CheckedExceptions
