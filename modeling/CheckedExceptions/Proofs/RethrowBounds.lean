import CheckedExceptions.Proofs.Grounded

/-! What a rethrown catch parameter cannot stand for. A type that reaches a clause is caught by it,
is something that the try block may throw, and has passed the clauses before. -/

namespace CheckedExceptions

namespace Program

variable {σ : Type} {p : Program σ} {st : σ} {clause : NodeRef} {parts : TryParts} {ty : TypeRef}
  {alternatives : List TypeRef} {thrown : ThrowSet}

theorem mem_caughtEarlier {before : List NodeRef} {earlier : NodeRef} {handler : TypeRef}
    (hbefore : before <+: parts.clauses) (hclause : clause ∉ before) (hearlier : earlier ∈ before)
    (hhandler : handler ∈ p.caughtTypes st earlier) :
    handler ∈ p.caughtEarlier st parts clause := by
  obtain ⟨after, hsplit⟩ := hbefore
  have hpassed : ∀ n ∈ before, (n != clause) = true :=
    fun n hn => bne_iff_ne.mpr fun heq => hclause (heq ▸ hn)
  refine List.mem_flatMap.mpr ⟨earlier, ?_, hhandler⟩
  rw [← hsplit, List.takeWhile_append_of_pos hpassed]
  exact List.mem_append_left _ hearlier

theorem arrivals_nodup : (p.arrivals st alternatives parts clause thrown).Nodup :=
  (nodup_eraseDups _).filter _

/-- What arrives at a clause is below one of its alternatives, and below an exception that is on its
way. -/
theorem exists_above_of_mem_arrivals (hrefl : ∀ a, p.types.isSubtype st a a = true)
    (h : ty ∈ p.arrivals st alternatives parts clause thrown) :
    (∃ alternative ∈ alternatives, p.types.isSubtype st ty alternative = true) ∧
    ∃ source, (source ∈ thrown.members ∧ p.isChecked st source = true ∨ source ∈ p.exemptRoots st) ∧
      p.types.isSubtype st ty source = true := by
  obtain ⟨⟨candidate, hcandidate, hform⟩, -⟩ := mem_arrivals_iff.mp h
  have hsource : candidate ∈ thrown.members ∧ p.isChecked st candidate = true ∨
      candidate ∈ p.exemptRoots st :=
    (List.mem_append.mp hcandidate).imp_left List.mem_filter.mp
  obtain ⟨alternative, hmem, ⟨rfl, hup⟩ | ⟨rfl, hdown⟩⟩ := exists_related_of_reaching? hform
  · exact ⟨⟨alternative, hmem, hup⟩, ty, hsource, hrefl ty⟩
  · exact ⟨⟨ty, hmem, hrefl ty⟩, candidate, hsource, hdown⟩

/-- Each type that reaches a clause of a try statement is a subtype of an alternative of the clause
and of a checked exception of the resources and the block, or of an unchecked root. No clause listed
before catches it, and it is listed once. With all levels that the options allow, these are the
types of `typesReaching`. -/
theorem arrivingTypes_bounded (depth : Nat)
    (htry : p.tree.payload? (p.tree.parent clause) = some (.trying parts))
    (hrefl : ∀ a, p.types.isSubtype (p.bodyThrows (p.thrownWithin depth) parts st).2 a a = true) :
    let body := p.bodyThrows (p.thrownWithin depth) parts st
    let sub := p.types.isSubtype body.2
    let reached := (p.arrivingTypes (p.thrownWithin depth) clause st).1
    (∀ ty ∈ reached,
      (∃ alternative ∈ p.caughtTypes st clause, sub ty alternative = true) ∧
      (∃ source, (source ∈ body.1.members ∧ p.isChecked body.2 source = true ∨
        source ∈ p.exemptRoots body.2) ∧ sub ty source = true) ∧
      ∀ before, before <+: parts.clauses → clause ∉ before → ∀ earlier ∈ before,
        ∀ handler ∈ p.caughtTypes body.2 earlier, sub ty handler = false) ∧
    reached.Nodup := by
  intro body sub reached
  have hreached : reached =
      p.arrivals body.2 (p.caughtTypes st clause) parts clause body.1 := by
    show (p.arrivingTypes _ clause st).1 = _
    rw [arrivingTypes_of_try htry]
    rfl
  rw [hreached]
  refine ⟨fun ty hty => ?_, arrivals_nodup⟩
  obtain ⟨halternative, hsource⟩ := exists_above_of_mem_arrivals hrefl hty
  refine ⟨halternative, hsource, ?_⟩
  intro before hbefore hclause earlier hearlier handler hhandler
  have hmissed := (mem_arrivals_iff.mp hty).2
  have hcaught := mem_caughtEarlier hbefore hclause hearlier hhandler
  exact Bool.eq_false_iff.mpr (List.any_eq_false.mp hmissed handler hcaught)

/-- Of what leaves the block, the first clause catches 5 and 16; of the rest, 4 is not for the
second clause, which is left with the unchecked root 3. -/
theorem genericProgram_bounded :
    let parts : TryParts := ⟨some 1, some 3, [some 8, some 13], none⟩
    let body := genericProgram.bodyThrows
      (genericProgram.thrownWithin genericProgram.options.maxTreeDepth) parts genericStore
    body.1.members = [some 4, some 16, some 5] ∧
    (genericProgram.typesReaching (some 13) genericStore).1 = [some 3] ∧
    (∃ alternative ∈ genericProgram.caughtTypes genericStore (some 13),
      genericProgram.types.isSubtype body.2 (some 3) alternative = true) ∧
    ∀ handler ∈ genericProgram.caughtTypes body.2 (some 8),
      genericProgram.types.isSubtype body.2 (some 3) handler = false := by
  intro parts body
  have hreached : (genericProgram.typesReaching (some 13) genericStore).1 = [some 3] := by
    decide +kernel
  have hmem : some 3 ∈ (genericProgram.typesReaching (some 13) genericStore).1 := by
    rw [hreached]
    exact List.mem_cons_self
  have htry : genericProgram.tree.payload? (genericProgram.tree.parent (some 13)) =
      some (.trying parts) := rfl
  obtain ⟨hbounds, -⟩ := @arrivingTypes_bounded _ genericProgram genericStore (some 13) parts
    genericProgram.options.maxTreeDepth htry fun a => TypeStore.isSubtype_refl body.2 a
  obtain ⟨halternative, -, hearlier⟩ := hbounds (some 3) hmem
  refine ⟨by decide +kernel, hreached, halternative, ?_⟩
  exact hearlier [some 8] ⟨[some 13], rfl⟩ (by decide) (some 8) List.mem_cons_self

end Program

end CheckedExceptions
