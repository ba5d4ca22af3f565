import CheckedExceptions.Proofs.Grounded
import CheckedExceptions.Proofs.Involved
import CheckedExceptions.Proofs.Limits
import CheckedExceptions.Proofs.Narrowing

/-! Catch clauses that do nothing but rethrow what they catch. As far as checked exceptions go, a
try statement with such clauses throws what its resources and its block throw. -/

namespace CheckedExceptions

/-- The clause throws its own parameter, which is never reassigned, and does nothing else. -/
def SyntaxTree.Relays (t : SyntaxTree) (clause : NodeRef) (declaredType : TypeRef) : Prop :=
  ∃ parameter block statement expression label name,
    t.payload? clause = some (.catchClause parameter block) ∧
    t.payload? parameter = some (.parameter label declaredType false) ∧
    t.payload? block = some (.block [statement]) ∧
    t.payload? statement = some (.throwing expression) ∧
    t.payload? expression = some (.reference name parameter)

namespace Program

variable {σ : Type} {p : Program σ} {st now : σ} {depth : Nat} {n m clause : NodeRef}
  {parts : TryParts} {ty : TypeRef}

theorem Fits.asked (h : p.Fits depth n) (hm : m ∈ p.asked n) : p.Fits depth m := by
  cases depth with
  | zero =>
    rw [asked_of_payload?_eq_none h] at hm
    exact absurd hm List.not_mem_nil
  | succ depth => exact (h m hm).succ

/-- Where the limit is not reached, one more level makes no difference. -/
theorem Fits.thrownWithin_step (h : p.Fits depth n) :
    p.thrownWithin depth n = p.thrownStep (p.thrownWithin depth) n :=
  h.thrownWithin_eq (Nat.le_succ depth)

theorem Fits.thrownWithin_children (h : p.Fits depth n) {payload : Payload}
    (hpayload : p.tree.payload? n = some payload)
    (hstep : p.thrownStep (p.thrownWithin depth) n = p.thrownByChildren (p.thrownWithin depth) n) :
    p.thrownWithin depth n =
      p.uniteAll (p.thrownWithin depth) .empty (payload.children.map some) := by
  rw [h.thrownWithin_step, hstep, thrownByChildren, SyntaxTree.children_eq hpayload]

section Forms

variable {sub : ThrowSet.Subtyping} {I : TypeRef → Prop} {alternatives : List TypeRef}

theorem isSubtype_of_reaching? {reached : TypeRef} (hrefl : sub ty ty = true)
    (h : reaching? sub alternatives ty = some reached) : sub reached ty = true := by
  obtain ⟨alternative, ⟨_, _, _, _, hrelated⟩, rfl⟩ := reaching?_eq_some_iff.mp h
  split
  · exact hrefl
  · next hup => exact hrelated.resolve_left hup

/-- An exception that is caught reaches the clause as it is, if no alternative is below another. -/
theorem reaching?_of_caught (hord : ThrowSet.OrderedOn sub I) (hty : I ty)
    (hinside : ∀ a ∈ alternatives, I a)
    (hapart : alternatives.Pairwise fun a b => sub a b = false ∧ sub b a = false)
    {handler : TypeRef} (hhandler : handler ∈ alternatives) (hcaught : sub ty handler = true) :
    reaching? sub alternatives ty = some ty := by
  have hrelated : ∃ a ∈ alternatives, (sub ty a || sub a ty) = true :=
    ⟨handler, hhandler, by rw [hcaught, Bool.true_or]⟩
  obtain ⟨first, hfirst⟩ := Option.isSome_iff_exists.mp (List.find?_isSome.mpr hrelated)
  obtain ⟨hpair, before, after, hsplit, hbefore⟩ := List.find?_eq_some_iff_append.mp hfirst
  have hfree : ∀ other ∈ before, sub ty other = false ∧ sub other ty = false := by
    intro other hother
    simpa using hbefore other hother
  have hup : sub ty first = true := by
    rw [hsplit, List.mem_append, List.mem_cons] at hhandler
    rcases hhandler with hhandler | rfl | hhandler
    · rw [(hfree handler hhandler).1] at hcaught
      cases hcaught
    · exact hcaught
    · have hmem : first ∈ alternatives ∧ handler ∈ alternatives := by simp [hsplit, hhandler]
      have hunrelated : sub first handler = false := by
        rw [hsplit] at hapart
        exact ((List.pairwise_cons.mp (List.pairwise_append.mp hapart).2.1).1 handler hhandler).1
      rcases Bool.or_eq_true_iff.mp hpair with hup | hdown
      · exact hup
      · have hbelow := hord.trans first ty handler (hinside first hmem.1) hty
          (hinside handler hmem.2) hdown hcaught
        rw [hunrelated] at hbelow
        cases hbelow
  refine reaching?_eq_some_iff.mpr ⟨first, ⟨before, after, hsplit, hfree, Or.inl hup⟩, ?_⟩
  rw [if_pos hup]

end Forms

section Clause

variable {thrown : ThrowSet}

theorem rethrown?_of_relays (hwf : p.tree.WellFormed) {parameter block expression : NodeRef}
    {label name : String} (hclause : p.tree.payload? clause = some (.catchClause parameter block))
    (hparameter : p.tree.payload? parameter = some (.parameter label ty false))
    (hreference : p.tree.payload? expression = some (.reference name parameter)) :
    p.tree.rethrown? expression = some ⟨clause, ty, false⟩ := by
  obtain ⟨id, rfl⟩ := SyntaxTree.eq_some_of_payload? hparameter
  have hchild : id ∈ p.tree.children clause := by
    rw [SyntaxTree.children_eq hclause, Payload.mem_children]
    exact List.mem_cons_self
  have hparent : p.tree.parent (some id) = clause := hwf.parent_eq hchild hparameter
  simp [SyntaxTree.rethrown?, hreference, hparameter, hparent, SyntaxTree.isCatch, hclause]

theorem raisedTypes_run {below : NodeRef → StateM σ ThrowSet} {expression : NodeRef}
    (hprecise : p.options.preciseRethrow = true)
    (htry : p.tree.payload? (p.tree.parent clause) = some (.trying parts))
    (hrethrown : p.tree.rethrown? expression = some ⟨clause, ty, false⟩)
    (hbody : p.bodyThrows below parts now = (thrown, now)) :
    p.raisedTypes below expression now =
      (p.arrivals now (p.caughtTypes now clause) parts clause thrown, now) := by
  have hraised : p.raisedTypes below expression now = p.arrivingTypes below clause now := by
    unfold raisedTypes
    rw [get_bind_apply]
    simp only [hrethrown, hprecise, Bool.not_false, Bool.and_self, if_true]
  rw [hraised, arrivingTypes_of_try htry]
  show (p.arrivals (p.bodyThrows below parts now).2 (p.caughtTypes now clause) parts clause
    (p.bodyThrows below parts now).1, (p.bodyThrows below parts now).2) = _
  rw [hbody]

abbrev Stands (p : Program σ) (st now : σ) (P : TypeRef → Prop) (s : ThrowSet) : Prop :=
  s.Represents (p.types.isSubtype now) (p.Known st now) P

theorem finds_childless (hfits : p.Fits depth n) {payload : Payload}
    (hpayload : p.tree.payload? n = some payload) (hchildren : payload.children = [])
    (hstep : p.thrownStep (p.thrownWithin depth) n = p.thrownByChildren (p.thrownWithin depth) n) :
    Yields now (p.thrownWithin depth n) (p.Stands st now fun _ => False) := by
  rw [hfits.thrownWithin_children hpayload hstep, hchildren]
  exact .pure ThrowSet.represents_empty

/-- To throw a parameter is to throw the types that reach its clause. -/
theorem finds_rethrow {expression : NodeRef} {name : String} {declaration : NodeRef}
    {reached : List TypeRef} (hord : ThrowSet.OrderedOn (p.types.isSubtype now) (p.Known st now))
    (hfits : p.Fits depth n) (hthrow : p.tree.payload? n = some (.throwing expression))
    (hreference : p.tree.payload? expression = some (.reference name declaration))
    (hraised : p.raisedTypes (p.thrownWithin depth) expression now = (reached, now))
    (hreached : ∀ a ∈ reached, p.Known st now a) :
    Yields now (p.thrownWithin depth n)
      (p.Stands st now fun a => a ∈ reached ∧ a.isSome = true) := by
  have hexpression : p.Fits depth expression := hfits.asked (by simp [asked, hthrow])
  have hlist : Yields now (p.raisedTypes (p.thrownWithin depth) expression) (· = reached) := by
    rw [Yields, hraised]
    exact ⟨rfl, rfl⟩
  rw [hfits.thrownWithin_step]
  simp only [thrownStep, hthrow]
  refine .bind hlist fun tys htys => ?_
  subst htys
  have hown : Yields now (p.setOf tys) (p.Stands st now fun a => a ∈ tys ∧ a.isSome = true) :=
    ⟨rfl, hord.represents_ofList hreached⟩
  refine .bind hown fun own hown => (finds_uniteAll hord hown (R := fun _ _ => False) ?_).mono ?_
  · intro m hm
    rw [List.mem_singleton.mp hm]
    exact finds_childless hexpression hreference rfl (by simp only [thrownStep, hreference])
  · intro s hs
    exact hs.congr fun a => by simp

/-- What a clause that only rethrows throws: the types that reach it. -/
theorem finds_relay (hwf : p.tree.WellFormed) (hnow : p.Evolves st now)
    (hord : ThrowSet.OrderedOn (p.types.isSubtype now) (p.Known st now))
    (hprecise : p.options.preciseRethrow = true)
    (htry : p.tree.payload? n = some (.trying parts)) (hclause : clause ∈ parts.clauses)
    (hrelays : p.tree.Relays clause ty) (hfits : p.Fits depth clause)
    (hbody : p.bodyThrows (p.thrownWithin depth) parts now = (thrown, now))
    (hthrown : p.KnownAntichain st now thrown) :
    Yields now (p.thrownWithin depth clause) (p.Stands st now fun a =>
      a ∈ p.arrivals now (p.caughtTypes now clause) parts clause thrown ∧ a.isSome = true) := by
  obtain ⟨parameter, block, statement, expression, label, name, hcatch, hparameter, hblock, hthrow,
    hreference⟩ := hrelays
  obtain ⟨clauseId, rfl⟩ := SyntaxTree.eq_some_of_payload? hcatch
  obtain ⟨parameterId, rfl⟩ := SyntaxTree.eq_some_of_payload? hparameter
  obtain ⟨blockId, rfl⟩ := SyntaxTree.eq_some_of_payload? hblock
  obtain ⟨statementId, rfl⟩ := SyntaxTree.eq_some_of_payload? hthrow
  have hparent : p.tree.parent (some clauseId) = n := by
    apply hwf.parent_eq _ hcatch
    rw [SyntaxTree.children_eq htry, Payload.mem_children]
    simp [Payload.slots, hclause]
  have hfitsParameter : p.Fits depth (some parameterId) :=
    hfits.asked (by simp [asked, hcatch, Payload.operandSlots, Payload.slots])
  have hfitsBlock : p.Fits depth (some blockId) :=
    hfits.asked (by simp [asked, hcatch, Payload.operandSlots, Payload.slots])
  have hfitsStatement : p.Fits depth (some statementId) :=
    hfitsBlock.asked (by simp [asked, hblock, Payload.operandSlots, Payload.slots])
  have hraised := raisedTypes_run hprecise (hparent ▸ htry)
    (rethrown?_of_relays hwf hcatch hparameter hreference) hbody
  have hstatement := finds_rethrow hord hfitsStatement hthrow hreference hraised fun a ha =>
    known_of_mem_arrivals hnow (fun _ => known_of_mem_caughtTypes hnow) hthrown.inside ha
  generalize p.arrivals now (p.caughtTypes now (some clauseId)) parts (some clauseId) thrown =
    reached at hstatement ⊢
  have hinBlock : Yields now (p.thrownWithin depth (some blockId))
      (p.Stands st now fun a => a ∈ reached ∧ a.isSome = true) := by
    rw [hfitsBlock.thrownWithin_children hblock (by simp only [thrownStep, hblock])]
    refine (finds_uniteAll hord ThrowSet.represents_empty
      (R := fun _ a => a ∈ reached ∧ a.isSome = true) ?_).mono ?_
    · intro m hm
      obtain rfl : m = some statementId := by simpa [Payload.children, Payload.slots] using hm
      exact hstatement
    · intro s hs
      exact hs.congr fun a => by simp [Payload.children, Payload.slots]
  rw [hfits.thrownWithin_children hcatch (by simp only [thrownStep, hcatch])]
  refine (finds_uniteAll hord ThrowSet.represents_empty
    (R := fun m a => m = some blockId ∧ a ∈ reached ∧ a.isSome = true) ?_).mono ?_
  · intro m hm
    have hslot : m = some parameterId ∨ m = some blockId := by
      simpa [Payload.children, Payload.slots] using hm
    rcases hslot with rfl | rfl
    · have hdistinct : some parameterId ≠ some blockId := by
        intro hsame
        rw [hsame, hblock] at hparameter
        cases hparameter
      have hsilent : Yields now (p.thrownWithin depth (some parameterId))
          (p.Stands st now fun _ => False) :=
        finds_childless hfitsParameter hparameter rfl (by simp only [thrownStep, hparameter])
      exact hsilent.mono fun s hs => hs.congr fun a => by simp [hdistinct]
    · exact hinBlock.mono fun s hs => hs.congr fun a => by simp
  · intro s hs
    exact hs.congr fun a => by simp [Payload.children, Payload.slots]

end Clause

theorem leavingTry_of_no_cleanup {below : NodeRef → StateM σ ThrowSet} {body : ThrowSet}
    (hcleanup : parts.cleanup = none) (hrun : p.bodyThrows below parts st = (body, now)) :
    p.leavingTry below parts st =
      p.uniteAll below (p.uncaught now parts body) parts.clauses now := by
  have hstep : p.leavingTry below parts st =
      p.uniteAll below (p.uncaught (p.bodyThrows below parts st).2 parts
        (p.bodyThrows below parts st).1) parts.clauses (p.bodyThrows below parts st).2 := by
    unfold leavingTry
    rw [hcleanup]
    rfl
  rw [hstep, hrun]

section Statement

variable {body : ThrowSet}

/-- What gets out of a try statement whose clauses only rethrow: what no clause catches, and what
reaches a clause. -/
def Escapes (p : Program σ) (now : σ) (parts : TryParts) (body : ThrowSet) (ty : TypeRef) : Prop :=
  (ty ∈ body.members ∧ ∀ handler ∈ parts.clauses.flatMap (p.caughtTypes now),
    p.types.isSubtype now ty handler = false) ∨
  ∃ clause ∈ parts.clauses,
    ty ∈ p.arrivals now (p.caughtTypes now clause) parts clause body ∧ ty.isSome = true

variable (hnow : p.Evolves st now)
  (hord : ThrowSet.OrderedOn (p.types.isSubtype now) (p.Known st now))
  (hbody : p.KnownAntichain st now body)
include hnow hord hbody

theorem Escapes.exists_above (h : p.Escapes now parts body ty)
    (hchecked : p.isChecked now ty = true) :
    (body.filter (p.isChecked now)).covers (p.types.isSubtype now) ty = true := by
  have hcovered : ∃ member ∈ body.members.filter (p.isChecked now),
      p.types.isSubtype now ty member = true := by
    rcases h with ⟨hmem, -⟩ | ⟨clause, -, harrives, -⟩
    · exact ⟨ty, List.mem_filter.mpr ⟨hmem, hchecked⟩, hord.refl ty (hbody.inside ty hmem)⟩
    · obtain ⟨⟨candidate, hcandidate, hform⟩, -⟩ := mem_arrivals_iff.mp harrives
      rcases List.mem_append.mp hcandidate with hmem | hroot
      · have hrefl := hord.refl candidate (hbody.inside _ (List.mem_filter.mp hmem).1)
        exact ⟨candidate, hmem, isSubtype_of_reaching? hrefl hform⟩
      · have hrefl := hord.refl candidate (.exempt hnow .refl hroot)
        have hunchecked : p.isUnchecked now ty = true :=
          List.any_eq_true.mpr ⟨candidate, hroot, isSubtype_of_reaching? hrefl hform⟩
        rw [isChecked, hunchecked] at hchecked
        cases hchecked
  exact ThrowSet.covers_iff.mpr hcovered

/-- The first clause that catches an exception throws it again. -/
theorem escapes_of_mem (hapart : ∀ clause ∈ parts.clauses,
      (p.caughtTypes now clause).Pairwise fun a b =>
        p.types.isSubtype now a b = false ∧ p.types.isSubtype now b a = false)
    (hmem : ty ∈ body.members) (hchecked : p.isChecked now ty = true) :
    p.Escapes now parts body ty := by
  cases hfind : parts.clauses.find? fun clause =>
      (p.caughtTypes now clause).any (p.types.isSubtype now ty) with
  | none =>
    refine Or.inl ⟨hmem, ?_⟩
    intro handler hhandler
    obtain ⟨clause, hclause, hcaught⟩ := List.mem_flatMap.mp hhandler
    exact Bool.eq_false_iff.mpr fun hsub =>
      List.find?_eq_none.mp hfind clause hclause (List.any_eq_true.mpr ⟨handler, hcaught, hsub⟩)
  | some clause =>
    obtain ⟨hcatches, before, after, hsplit, hbefore⟩ := List.find?_eq_some_iff_append.mp hfind
    obtain ⟨handler, hhandler, hsub⟩ := List.any_eq_true.mp hcatches
    have hclause : clause ∈ parts.clauses := by simp [hsplit]
    have hform := reaching?_of_caught hord (hbody.inside ty hmem)
      (fun _ => known_of_mem_caughtTypes hnow) (hapart clause hclause) hhandler hsub
    have hdistinct : ∀ other ∈ before, (other != clause) = true := by
      intro other hother
      refine bne_iff_ne.mpr fun hsame => ?_
      have hmisses := hbefore other hother
      rw [hsame, hcatches] at hmisses
      cases hmisses
    have hprior : parts.clauses.takeWhile (· != clause) = before := by
      rw [hsplit, List.takeWhile_append_of_pos hdistinct]
      simp
    have hearlier : ∀ other ∈ parts.clauses.takeWhile (· != clause),
        (p.caughtTypes now other).any (p.types.isSubtype now ty) = false := by
      rw [hprior]
      intro other hother
      simpa only [Bool.not_eq_true'] using hbefore other hother
    refine Or.inr ⟨clause, hclause, ?_, hbody.isSome ty hmem⟩
    refine mem_arrivals_iff.mpr ⟨⟨ty, ?_, hform⟩, ?_⟩
    · exact List.mem_append_left _ (List.mem_filter.mpr ⟨hmem, hchecked⟩)
    · rw [List.any_eq_false]
      intro other hother
      obtain ⟨earlier, hmemEarlier, hcaught⟩ := List.mem_flatMap.mp hother
      exact List.any_eq_false.mp (hearlier earlier hmemEarlier) other hcaught

theorem finds_escaping (hwf : p.tree.WellFormed) (hprecise : p.options.preciseRethrow = true)
    (htry : p.tree.payload? n = some (.trying parts))
    (hfits : ∀ clause ∈ parts.clauses, p.Fits depth clause)
    (hclauses : ∀ clause ∈ parts.clauses, ∃ ty, p.tree.Relays clause ty)
    (hrun : p.bodyThrows (p.thrownWithin depth) parts now = (body, now)) :
    Yields now (p.uniteAll (p.thrownWithin depth) (p.uncaught now parts body) parts.clauses)
      (p.Stands st now (p.Escapes now parts body)) := by
  have hhandlers : ∀ handler ∈ parts.clauses.flatMap (p.caughtTypes now),
      p.Known st now handler := by
    intro handler hhandler
    obtain ⟨clause, -, hcaught⟩ := List.mem_flatMap.mp hhandler
    exact known_of_mem_caughtTypes hnow hcaught
  have huncaught := hord.represents_foldl_removeCovered (hord.represents_members hbody) hhandlers
  refine finds_uniteAll hord huncaught fun clause hclause => ?_
  obtain ⟨ty, hrelays⟩ := hclauses clause hclause
  exact finds_relay hwf hnow hord hprecise htry hclause hrelays (hfits clause hclause) hrun hbody

/-- Without a `finally` block, what leaves the statement is what escapes its clauses. -/
theorem thrownWithin_eq_escaping (hwf : p.tree.WellFormed)
    (hprecise : p.options.preciseRethrow = true)
    (htry : p.tree.payload? n = some (.trying parts)) (hcleanup : parts.cleanup = none)
    (hfits : p.Fits (depth + 1) n)
    (hclauses : ∀ clause ∈ parts.clauses, ∃ ty, p.tree.Relays clause ty)
    (hfirst : p.bodyThrows (p.thrownWithin depth) parts st = (body, now))
    (hagain : p.bodyThrows (p.thrownWithin depth) parts now = (body, now)) :
    ∃ leaving, p.thrownWithin (depth + 1) n st = (leaving, now) ∧
      p.Stands st now (p.Escapes now parts body) leaving := by
  have hclausesFit : ∀ clause ∈ parts.clauses, p.Fits depth clause := by
    intro clause hclause
    exact hfits clause (by simp [asked, htry, hclause])
  obtain ⟨hstill, hescaping⟩ :=
    finds_escaping hnow hord hbody hwf hprecise htry hclausesFit hclauses hagain
  have hleaving : p.thrownWithin (depth + 1) n st = p.uniteAll (p.thrownWithin depth)
      (p.uncaught now parts body) parts.clauses now := by
    rw [← leavingTry_of_no_cleanup hcleanup hfirst]
    simp only [thrownWithin, thrownStep, htry]
  exact ⟨_, hleaving.trans (Prod.ext rfl hstill), hescaping⟩

end Statement

theorem Fits.bodyThrows_eq (htry : p.tree.payload? n = some (.trying parts))
    (hfits : p.Fits (depth + 1) n) :
    p.bodyThrows (p.thrownWithin (depth + 1)) parts =
      p.bodyThrows (p.thrownWithin depth) parts := by
  refine bodyThrows_congr fun m hm => ?_
  have hpart : m ∈ p.asked n := by
    simp only [Program.asked, htry, List.mem_append, List.mem_cons] at hm ⊢
    exact hm.imp_right fun h => Or.inl (h.resolve_right List.not_mem_nil)
  have hwithin : p.Fits depth m := hfits m hpart
  exact (hwithin.thrownWithin_eq (Nat.le_succ depth)).symm

theorem caughtTypes_of_relays {id : Nat} (h : p.tree.Relays clause (some id)) :
    p.caughtTypes st clause = p.types.alternatives st (some id) := by
  obtain ⟨_, _, _, _, _, _, hcatch, hparameter, -⟩ := h
  simp only [caughtTypes, SyntaxTree.catchType, hcatch, hparameter]

theorem apart_of_relays {id : Nat} (hst : p.KeepsSubtyping st) (hrepeats : p.RepeatsAnswers st)
    (hnow : p.Evolves st now) (hrelays : p.tree.Relays clause (some id))
    (hapart : (p.types.alternatives st (some id)).Pairwise fun a b =>
      p.types.isSubtype st a b = false ∧ p.types.isSubtype st b a = false) :
    (p.caughtTypes now clause).Pairwise fun a b =>
      p.types.isSubtype now a b = false ∧ p.types.isSubtype now b a = false := by
  rw [hrepeats.caughtTypes_eq .refl hnow]
  rw [← caughtTypes_of_relays hrelays] at hapart
  refine hapart.imp_of_mem fun ha hb hab => ?_
  have ha := known_of_mem_caughtTypes .refl ha
  have hb := known_of_mem_caughtTypes .refl hb
  rwa [hst.isSubtype .refl hnow ha hb, hst.isSubtype .refl hnow hb ha]

/-- A try statement without cleanup whose clauses only rethrow. The types that one clause catches are
not related to each other. -/
structure Rethrowing (p : Program σ) (st : σ) (n : NodeRef) (parts : TryParts) : Prop where
  wellFormed : p.tree.WellFormed
  preciseRethrow : p.options.preciseRethrow = true
  payload : p.tree.payload? n = some (.trying parts)
  cleanup : parts.cleanup = none
  fits : p.Fits (p.options.maxTreeDepth + 1) n
  clauses : ∀ clause ∈ parts.clauses, ∃ id, p.tree.Relays clause (some id) ∧
    (p.types.alternatives st (some id)).Pairwise fun a b =>
      p.types.isSubtype st a b = false ∧ p.types.isSubtype st b a = false

/-- To catch exceptions only to throw them again is as good as not to catch them: of the checked
exceptions, the try statement and what it encloses throw the same. -/
theorem thrownChecked_covers_body {body : ThrowSet} (h : p.Rethrowing st n parts)
    (hst : p.KeepsSubtyping st) (hrepeats : p.RepeatsAnswers st)
    (hbody : p.bodyThrows p.thrown parts st = (body, now))
    (hord : ThrowSet.OrderedOn (p.types.isSubtype now) (p.Known st now)) :
    ∃ leaving, p.thrownChecked n st = (leaving, now) ∧
      (∀ ty ∈ leaving.members,
        (body.filter (p.isChecked now)).covers (p.types.isSubtype now) ty = true) ∧
      ∀ ty ∈ (body.filter (p.isChecked now)).members,
        leaving.covers (p.types.isSubtype now) ty = true := by
  have hwithin : p.bodyThrows (p.thrownWithin p.options.maxTreeDepth) parts st = (body, now) := by
    rw [← Fits.bodyThrows_eq h.payload h.fits]
    exact hbody
  have hdelivers : p.Delivers st True st
      (p.bodyThrows (p.thrownWithin p.options.maxTreeDepth) parts) :=
    delivers_bodyThrows hst (fun _ => hrepeats) .refl (fun m later hlater =>
      delivers_thrownWithin hst (fun _ => hrepeats) hlater p.options.maxTreeDepth m) parts
  obtain ⟨hnow, hantichain, hagain⟩ := hdelivers
  rw [hwithin] at hnow hantichain hagain
  have hrelays : ∀ clause ∈ parts.clauses, ∃ ty, p.tree.Relays clause ty := by
    intro clause hclause
    obtain ⟨id, hrelays, -⟩ := h.clauses clause hclause
    exact ⟨some id, hrelays⟩
  have hapart : ∀ clause ∈ parts.clauses, (p.caughtTypes now clause).Pairwise fun a b =>
      p.types.isSubtype now a b = false ∧ p.types.isSubtype now b a = false := by
    intro clause hclause
    obtain ⟨id, hrelays, hapart⟩ := h.clauses clause hclause
    exact apart_of_relays hst hrepeats hnow hrelays hapart
  obtain ⟨leaving, hthrown, hescaping⟩ := thrownWithin_eq_escaping hnow hord hantichain h.wellFormed
    h.preciseRethrow h.payload h.cleanup h.fits hrelays hwithin (hagain trivial now .refl)
  refine ⟨leaving.filter (p.isChecked now), ?_, ?_, ?_⟩
  · show ((p.thrown n st).1.filter (p.isChecked (p.thrown n st).2), (p.thrown n st).2) = _
    rw [thrown, hthrown]
  · intro ty hty
    obtain ⟨hmem, hchecked⟩ := List.mem_filter.mp hty
    exact (hescaping.sound ty hmem).exists_above hnow hord hantichain hchecked
  · intro ty hty
    obtain ⟨hmem, hchecked⟩ := List.mem_filter.mp hty
    have hescapes := escapes_of_mem hnow hord hantichain hapart hmem hchecked
    obtain ⟨member, hmember, hsub⟩ := ThrowSet.covers_iff.mp (hescaping.covers ty hescapes)
    have hchecked' := isChecked_of_isSubtype hord (fun _ hroot => .exempt hnow .refl hroot)
      (hantichain.inside ty hmem) (hescaping.antichain.inside member hmember) hsub hchecked
    exact ThrowSet.covers_iff.mpr ⟨member, List.mem_filter.mpr ⟨hmember, hchecked'⟩, hsub⟩

theorem genericProgram_rethrowing : genericProgram.Rethrowing genericStore (some 14)
    ⟨some 1, some 3, [some 8, some 13], none⟩ where
  wellFormed := SyntaxTree.BuiltUp.wellFormed (by decide +kernel)
  preciseRethrow := rfl
  payload := rfl
  cleanup := rfl
  fits := Fits.mono (by decide) (by decide +kernel : genericProgram.Fits 8 (some 14))
  clauses := by
    intro clause hclause
    simp only [List.mem_cons, List.not_mem_nil, or_false] at hclause
    rcases hclause with rfl | rfl
    · exact ⟨9, ⟨some 4, some 7, some 6, some 5, "e", "e", rfl, rfl, rfl, rfl, rfl⟩,
        by decide +kernel⟩
    · exact ⟨2, ⟨some 9, some 12, some 11, some 10, "e", "e", rfl, rfl, rfl, rfl, rfl⟩,
        by decide +kernel⟩

theorem genericProgram_repeatsAnswers : genericProgram.RepeatsAnswers genericStore :=
  genericProgram_grounded.repeatsAnswers genericStore_descending genericProgram_owner

theorem genericProgram_body : genericProgram.bodyThrows genericProgram.thrown
    ⟨some 1, some 3, [some 8, some 13], none⟩ genericStore =
      (⟨[some 4, some 16, some 5]⟩, grownStore) := by
  have hst := genericProgram_grounded.keepsSubtyping
  have hdelivers : genericProgram.Delivers genericStore True genericStore
      (genericProgram.bodyThrows genericProgram.thrown ⟨some 1, some 3, [some 8, some 13], none⟩) :=
    delivers_bodyThrows hst (fun _ => genericProgram_repeatsAnswers) .refl
      (fun m _ hlater =>
        delivers_thrownWithin hst (fun _ => genericProgram_repeatsAnswers) hlater _ m) _
  apply Prod.ext
  · decide +kernel
  · exact eq_grownStore hdelivers.steps (by decide +kernel) (by decide +kernel) (by decide +kernel)

theorem genericProgram_rethrows :
    (genericProgram.thrownChecked (some 14) genericStore).1 = ⟨[some 16, some 5]⟩ ∧
    ∃ leaving, genericProgram.thrownChecked (some 14) genericStore = (leaving, grownStore) ∧
      (∀ ty ∈ leaving.members, ThrowSet.covers grownStore.isSubtype
        (ThrowSet.filter (genericProgram.isChecked grownStore) ⟨[some 4, some 16, some 5]⟩)
        ty = true) ∧
      leaving.covers grownStore.isSubtype (some 5) = true := by
  have hord : ThrowSet.OrderedOn grownStore.isSubtype
      (genericProgram.Known genericStore grownStore) :=
    ⟨fun a _ => TypeStore.isSubtype_refl _ a,
      fun a b c _ _ _ => grownStore_rootedAndShallow.isSubtype_trans a b c⟩
  obtain ⟨leaving, hleaving, hbelow, habove⟩ := thrownChecked_covers_body genericProgram_rethrowing
    genericProgram_grounded.keepsSubtyping genericProgram_repeatsAnswers genericProgram_body hord
  exact ⟨by decide +kernel, leaving, hleaving, hbelow, habove (some 5) (by decide +kernel)⟩

def relaying (call : CallTarget) : Program TypeStore :=
  { relayProgram with resolution := Resolution.unknown.withTarget (some 0) call }

theorem relaying_rethrowing {call : CallTarget} {st : TypeStore}
    (hfits : (relaying call).Fits 8 (some 7)) (hcaught : st.alternatives (some 2) = [some 2]) :
    (relaying call).Rethrowing st (some 7) ⟨none, some 1, [some 6], none⟩ where
  wellFormed := SyntaxTree.BuiltUp.wellFormed (by decide +kernel : relayProgram.tree.BuiltUp)
  preciseRethrow := rfl
  payload := rfl
  cleanup := rfl
  fits := Fits.mono (by decide : 8 ≤ Options.default.maxTreeDepth + 1) hfits
  clauses := by
    intro clause hclause
    obtain rfl := List.mem_singleton.mp hclause
    refine ⟨2, ⟨some 2, some 5, some 4, some 3, "e", "e", rfl, rfl, rfl, rfl, rfl⟩, ?_⟩
    have hone : (relaying call).types.alternatives st (some 2) = [some 2] := hcaught
    rw [hone]
    exact List.pairwise_singleton _ _

/-- Where a declaring class or a bound is missing, the clause can throw what the block does not: when
it is asked what the block throws, the type that was missing is there. -/
theorem relaying_not_transparent :
    (relaying strayCall).Grounded genericStore ∧
    (relaying looseCall).resolution.AllCandidates (fun c => looseStore.Holds c.callable.owner ∧
      (∀ ty ∈ c.callable.throws, looseStore.Holds ty) ∧
      ∀ binding ∈ c.substitution.bindings, looseStore.Holds binding.2) ∧
    ∀ case ∈ [(strayCall, genericStore), (looseCall, looseStore)],
      let p := relaying case.1
      let parts : TryParts := ⟨none, some 1, [some 6], none⟩
      let body := p.bodyThrows p.thrown parts case.2
      let leaving := p.thrownChecked (some 7) case.2
      p.Rethrowing case.2 (some 7) parts ∧
      (∀ st ∈ [case.2, body.2, leaving.2], ∀ a b c, st.isSubtype a b = true →
        st.isSubtype b c = true → st.isSubtype a c = true) ∧
      ∃ ty ∈ leaving.1.members, body.1.covers leaving.2.isSubtype ty = false := by
  have hcases : ∀ case ∈ [(strayCall, genericStore), (looseCall, looseStore)],
      let p := relaying case.1
      let body := p.bodyThrows p.thrown ⟨none, some 1, [some 6], none⟩ case.2
      let leaving := p.thrownChecked (some 7) case.2
      p.Fits 8 (some 7) ∧ case.2.alternatives (some 2) = [some 2] ∧
      (∀ st ∈ [case.2, body.2, leaving.2], st.RootedAndShallow) ∧
      ∃ ty ∈ leaving.1.members, body.1.covers leaving.2.isSubtype ty = false := by decide +kernel
  refine ⟨?_, Resolution.allCandidates_unknown.withTarget _ (by decide +kernel), ?_⟩
  · exact grounded_of_checks rfl genericStore_closed (by decide +kernel)
      (Resolution.allCandidates_unknown.withTarget _ (by decide +kernel)) fun h => nomatch h
  · intro case hcase
    obtain ⟨hfits, hcaught, hstores, hleaves⟩ := hcases case hcase
    exact ⟨relaying_rethrowing hfits hcaught, fun st hst => (hstores st hst).isSubtype_trans,
      hleaves⟩

end Program

end CheckedExceptions
