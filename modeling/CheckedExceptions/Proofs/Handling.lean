import CheckedExceptions.Proofs.Evolution

/-! What is handled where an exception leaves a node is handled for its subtypes too. -/

namespace CheckedExceptions

structure Handlers.Closed (h : Handlers) (t : SyntaxTree) (isSubtype : TypeRef → TypeRef → Bool) :
    Prop where
  custom : ∀ handler ∈ h.custom, ∀ element sub sup top, isSubtype sub sup = true →
    handler t element sup top = true → handler t element sub top = true
  fragment : ∀ n rule, h.fragment? n = some rule → ∀ sub sup, isSubtype sub sup = true →
    rule sup = true → rule sub = true

/-- The second outcome is at least as good for the exception as the first. -/
def Ascent.Eases (a b : Ascent) : Prop := a = .settled false ∨ a = b ∨ b = .settled true

theorem Ascent.eases_settled {a b : Bool} (h : a = true → b = true) :
    Ascent.Eases (.settled a) (.settled b) := by
  cases a with
  | false => exact Or.inl rfl
  | true => exact Or.inr (Or.inr (congrArg _ (h rfl)))

/-- What decides about the exceptions that leave a node, whatever they are. -/
inductive Rule where
  | fails
  | implements (expr : NodeRef)
  | declares (throws : List TypeRef)
  | passes
  | tries (parts : TryParts)
  | fragment
  | file (role : FileRole)
  | constructors
  | custom

def Rule.substitutes : Rule → Bool
  | .implements _ => true
  | _ => false

namespace Program

variable {σ : Type} {p : Program σ} {st : σ} {sub sup : TypeRef}

def ruleAt (p : Program σ) (element top : NodeRef) : Rule :=
  if (p.tree.parent element).isNone || p.tree.parent element == top then .fails
  else if p.isMethodRef element then .implements element
  else
    match p.tree.payload? (p.tree.parent element) with
    | none => .fails
    | some (.method _ _ _ throws ..) => .declares throws
    | some (.classDecl none ..) => .passes
    | some (.classDecl (some _) ..) => .fails
    | some (.lambda ..) => .implements (p.tree.parent element)
    | some (.trying parts) => .tries parts
    | some (.fragment _) => .fragment
    | some (.file _ role _) => .file role
    | some _ =>
      if p.runsInConstructors element (p.tree.parent element) then .constructors else .custom

def outcome (p : Program σ) (st : σ) (element : NodeRef) (exception : TypeRef) (top : NodeRef) :
    Rule → Ascent
  | .fails => .settled false
  | .implements expr => .settled (p.implementedAllows expr exception st).1
  | .declares throws => .settled (p.declares st throws exception)
  | .passes => .climb (p.tree.parent element)
  | .tries parts =>
    if p.stopsInTry st parts element exception then .settled true
    else .climb (p.tree.parent element)
  | .fragment => .settled (p.handlers.fragmentAllows (p.tree.parent element) exception)
  | .file role => .settled (role == .serverPage && p.options.permissiveServerPages)
  | .constructors => .settled (p.everyConstructorAllows st (p.tree.parent element) exception)
  | .custom => p.customStep element (p.tree.parent element) exception top

/-- A level of the ascent follows the rule at the node. -/
theorem ascentStep_cases (element : NodeRef) (exception : TypeRef) (top : NodeRef) :
    (∃ expr, p.ruleAt element top = .implements expr ∧
      p.ascentStep element exception top = .settled <$> p.implementedAllows expr exception) ∨
    ((p.ruleAt element top).substitutes = false ∧ ∀ st,
      p.ascentStep element exception top st =
        (p.outcome st element exception top (p.ruleAt element top), st)) := by
  unfold ascentStep ruleAt
  by_cases hend : ((p.tree.parent element).isNone || p.tree.parent element == top) = true
  · simp only [if_pos hend]
    exact Or.inr ⟨rfl, fun st => rfl⟩
  · simp only [if_neg hend]
    by_cases href : p.isMethodRef element = true
    · simp only [if_pos href]
      exact Or.inl ⟨element, rfl, rfl⟩
    · simp only [if_neg href]
      cases hparent : p.tree.payload? (p.tree.parent element) with
      | none => exact Or.inr ⟨rfl, fun st => rfl⟩
      | some payload =>
        cases payload with
        | lambda => exact Or.inl ⟨p.tree.parent element, rfl, rfl⟩
        | classDecl name => cases name <;> exact Or.inr ⟨rfl, fun st => rfl⟩
        | file | fragment | method | trying => exact Or.inr ⟨rfl, fun st => rfl⟩
        | _ =>
          by_cases hruns : p.runsInConstructors element (p.tree.parent element) = true
          · simp only [if_pos hruns]
            exact Or.inr ⟨rfl, fun st => rfl⟩
          · simp only [if_neg hruns]
            exact Or.inr ⟨rfl, fun st => rfl⟩

theorem ascentStep_fst (element : NodeRef) (exception : TypeRef) (top : NodeRef) :
    (p.ascentStep element exception top st).1 =
      p.outcome st element exception top (p.ruleAt element top) := by
  rcases p.ascentStep_cases element exception top with ⟨expr, hrule, hstep⟩ | ⟨-, hstep⟩
  · rw [hstep, hrule]
    rfl
  · rw [hstep]

theorem ascentStep_snd {element : NodeRef} {exception : TypeRef} {top next : NodeRef}
    (h : (p.ascentStep element exception top st).1 = .climb next) :
    (p.ascentStep element exception top st).2 = st := by
  rcases p.ascentStep_cases element exception top with ⟨expr, -, hstep⟩ | ⟨-, hstep⟩
  · rw [hstep] at h
    cases h
  · rw [hstep]

theorem ruleAt_declares {element top : NodeRef} {throws : List TypeRef}
    (h : p.ruleAt element top = .declares throws) : ∃ name kind isStatic parameters body,
      p.tree.payload? (p.tree.parent element) =
        some (.method name kind isStatic throws parameters body) := by
  unfold ruleAt at h
  split at h
  · cases h
  · split at h
    · cases h
    · split at h <;> try cases h
      · next hpayload => exact ⟨_, _, _, _, _, hpayload⟩
      · split at h <;> cases h

theorem isHandledWithin_succ (exception : TypeRef) (top : NodeRef) (steps : Nat)
    (element : NodeRef) : (p.isHandledWithin exception top (steps + 1) element st).1 =
      match p.outcome st element exception top (p.ruleAt element top) with
      | .settled handled => handled
      | .climb next => (p.isHandledWithin exception top steps next st).1 := by
  rw [← ascentStep_fst]
  show ((match (p.ascentStep element exception top st).1 with
    | .settled handled => pure handled
    | .climb next => p.isHandledWithin exception top steps next : StateM σ Bool)
      (p.ascentStep element exception top st).2).1 = _
  cases hstep : (p.ascentStep element exception top st).1 with
  | settled handled => rfl
  | climb next => rw [ascentStep_snd hstep]

/-- An ascent that fares no worse at any level, and that may go on for longer, handles as much. By
induction on the steps: the two runs stay at the same node until the second one is settled. -/
theorem isHandledWithin_of_eases {q : Program σ} {exception exception' : TypeRef}
    {top top' : NodeRef}
    (heases : ∀ element, (p.outcome st element exception top (p.ruleAt element top)).Eases
      (q.outcome st element exception' top' (q.ruleAt element top')))
    {steps steps' : Nat} (hsteps : steps ≤ steps') {element : NodeRef}
    (h : (p.isHandledWithin exception top steps element st).1 = true) :
    (q.isHandledWithin exception' top' steps' element st).1 = true := by
  induction steps generalizing steps' element with
  | zero => cases h
  | succ steps ih =>
    obtain ⟨steps', rfl⟩ := Nat.exists_eq_add_of_lt hsteps
    rw [isHandledWithin_succ] at h ⊢
    rcases heases element with hfalse | hsame | htrue
    · rw [hfalse] at h
      cases h
    · rw [← hsame]
      revert h
      cases p.outcome st element exception top (p.ruleAt element top) with
      | settled handled => exact id
      | climb next => exact ih (Nat.le_add_right steps steps')
    · rw [htrue]

/-- Whatever the program text or a handler says of `sup` it says of `sub` as well. -/
structure Narrower (p : Program σ) (st : σ) (sub sup : TypeRef) : Prop where
  method : ∀ n name kind isStatic throws parameters body,
    p.tree.payload? n = some (.method name kind isStatic throws parameters body) →
    p.declares st throws sup = true → p.declares st throws sub = true
  caught : ∀ clause, ∀ handler ∈ p.caughtTypes st clause,
    p.types.isSubtype st sup handler = true → p.types.isSubtype st sub handler = true
  implemented : ∀ n, (p.implementedAllows n sup st).1 = true →
    (p.implementedAllows n sub st).1 = true
  custom : ∀ element top, p.handlers.someCustom p.tree element sup top = true →
    p.handlers.someCustom p.tree element sub top = true
  fragment : ∀ n, p.handlers.fragmentAllows n sup = true → p.handlers.fragmentAllows n sub = true

namespace Narrower

/-- It is enough that the exceptions that are declared or caught somewhere are above `sub` if they
are above `sup`. -/
theorem of_above (hclosed : p.handlers.Closed p.tree (p.types.isSubtype st))
    (hbelow : p.types.isSubtype st sub sup = true)
    (hdeclared : ∀ n name kind isStatic throws parameters body,
      p.tree.payload? n = some (.method name kind isStatic throws parameters body) →
      ∀ ty ∈ throws, p.types.isSubtype st sup ty = true → p.types.isSubtype st sub ty = true)
    (hcaught : ∀ clause, ∀ handler ∈ p.caughtTypes st clause,
      p.types.isSubtype st sup handler = true → p.types.isSubtype st sub handler = true)
    (himplemented : ∀ n method, p.resolution.implemented? n = some method →
      ∀ ty ∈ (p.throwsAtSite method st).1,
      p.types.isSubtype (p.throwsAtSite method st).2 sup ty = true →
      p.types.isSubtype (p.throwsAtSite method st).2 sub ty = true) : p.Narrower st sub sup where
  method := by
    intro n name kind isStatic throws parameters body hpayload hsup
    simp only [declares, List.any_eq_true] at hsup ⊢
    obtain ⟨ty, hty, habove⟩ := hsup
    exact ⟨ty, hty, hdeclared _ _ _ _ _ _ _ hpayload ty hty habove⟩
  caught := hcaught
  implemented := by
    intro n
    unfold implementedAllows
    cases hmethod : p.resolution.implemented? n with
    | none => exact id
    | some method =>
      show p.declares (p.throwsAtSite method st).2 (p.throwsAtSite method st).1 sup = true →
        p.declares (p.throwsAtSite method st).2 (p.throwsAtSite method st).1 sub = true
      simp only [declares, List.any_eq_true]
      rintro ⟨ty, hty, habove⟩
      exact ⟨ty, hty, himplemented n method hmethod ty hty habove⟩
  custom := by
    intro element top
    simp only [Handlers.someCustom, List.any_eq_true]
    rintro ⟨handler, hmem, hhandles⟩
    exact ⟨handler, hmem, hclosed.custom handler hmem element sub sup top hbelow hhandles⟩
  fragment := by
    intro n
    unfold Handlers.fragmentAllows
    cases hrule : p.handlers.fragment? n with
    | none => exact id
    | some rule => exact hclosed.fragment n rule hrule sub sup hbelow

theorem stopsInTry (h : p.Narrower st sub sup) (parts : TryParts) (element : NodeRef)
    (hsup : p.stopsInTry st parts element sup = true) :
    p.stopsInTry st parts element sub = true := by
  have hcatches : p.catches st parts sup = true → p.catches st parts sub = true := by
    unfold catches
    simp only [List.any_eq_true]
    rintro ⟨clause, hclause, handler, hhandler, hsub⟩
    exact ⟨clause, hclause, handler, hhandler, h.caught clause handler hhandler hsub⟩
  unfold Program.stopsInTry at hsup ⊢
  split at hsup
  · next hpart =>
    rw [if_pos hpart]
    rcases Bool.or_eq_true_iff.mp hsup with hcaught | hdiscards
    · rw [hcatches hcaught, Bool.true_or]
    · rw [hdiscards, Bool.or_true]
  · next hpart =>
    rw [if_neg hpart]
    exact hsup

theorem everyConstructorAllows (h : p.Narrower st sub sup) (member : NodeRef)
    (hsup : p.everyConstructorAllows st member sup = true) :
    p.everyConstructorAllows st member sub = true := by
  unfold Program.everyConstructorAllows at hsup ⊢
  simp only [Bool.and_eq_true, List.all_eq_true] at hsup ⊢
  refine ⟨hsup.1, fun constructor hmem => ?_⟩
  have hallows := hsup.2 constructor hmem
  unfold constructorAllows at hallows ⊢
  split at hallows
  · next hpayload => exact h.method _ _ _ _ _ _ _ hpayload hallows
  · cases hallows

theorem outcome_eases (h : p.Narrower st sub sup) (element top : NodeRef) :
    (p.outcome st element sup top (p.ruleAt element top)).Eases
      (p.outcome st element sub top (p.ruleAt element top)) := by
  cases hrule : p.ruleAt element top with
  | fails => exact Or.inl rfl
  | implements expr => exact Ascent.eases_settled (h.implemented expr)
  | declares throws =>
    obtain ⟨_, _, _, _, _, hpayload⟩ := ruleAt_declares hrule
    exact Ascent.eases_settled (h.method _ _ _ _ _ _ _ hpayload)
  | passes => exact Or.inr (Or.inl rfl)
  | tries parts =>
    simp only [outcome]
    by_cases hsup : p.stopsInTry st parts element sup = true
    · exact Or.inr (Or.inr (if_pos (h.stopsInTry parts element hsup)))
    · rw [if_neg hsup]
      split
      · exact Or.inr (Or.inr rfl)
      · exact Or.inr (Or.inl rfl)
  | fragment => exact Ascent.eases_settled (h.fragment _)
  | file role => exact Or.inr (Or.inl rfl)
  | constructors => exact Ascent.eases_settled (h.everyConstructorAllows _)
  | custom =>
    simp only [outcome, customStep]
    by_cases hsup : p.handlers.someCustom p.tree element sup top = true
    · exact Or.inr (Or.inr (if_pos (h.custom element top hsup)))
    · rw [if_neg hsup]
      split
      · exact Or.inr (Or.inr rfl)
      · exact Or.inr (Or.inl rfl)

theorem isHandledWithin (h : p.Narrower st sub sup) (top : NodeRef) {steps : Nat}
    {element : NodeRef} (hsup : (p.isHandledWithin sup top steps element st).1 = true) :
    (p.isHandledWithin sub top steps element st).1 = true :=
  isHandledWithin_of_eases (h.outcome_eases · top) le_rfl hsup

end Narrower

theorem grows_of_evolves {p : Program TypeStore} (htypes : p.types = .ofStore) {st st' : TypeStore}
    (hevolves : p.Evolves st st') : st.Grows st' := by
  induction hevolves with
  | refl => exact .refl
  | tail _ hstep ih =>
    obtain ⟨c, ty, -, -, rfl⟩ := hstep
    rw [htypes]
    exact ih.trans (TypeStore.substitute_moves ty c.substitution _)

theorem isSubtype_of_evolves {p : Program TypeStore} (htypes : p.types = .ofStore)
    {st st' : TypeStore} (hevolves : p.Evolves st st') (h : st.isSubtype sub sup = true) :
    st'.isSubtype sub sup = true :=
  (grows_of_evolves htypes hevolves).isSubtype h

/-- Handling is closed under subtypes. -/
theorem isHandledUpTo_of_isSubtype
    (htrans : ∀ st', p.Evolves st st' → ∀ a b c, p.types.isSubtype st' a b = true →
      p.types.isSubtype st' b c = true → p.types.isSubtype st' a c = true)
    (hhandlers : p.handlers.Closed p.tree (p.types.isSubtype st))
    (hsub : ∀ st', p.Evolves st st' → p.types.isSubtype st' sub sup = true)
    (element top : NodeRef) (h : (p.isHandledUpTo element sup top st).1 = true) :
    (p.isHandledUpTo element sub top st).1 = true := by
  have habove : ∀ st', p.Evolves st st' → ∀ ty, p.types.isSubtype st' sup ty = true →
      p.types.isSubtype st' sub ty = true :=
    fun st' hevolves ty => htrans st' hevolves sub sup ty (hsub st' hevolves)
  have hnarrower : p.Narrower st sub sup := by
    refine .of_above hhandlers (hsub st .refl) ?_ ?_ ?_
    · intro _ _ _ _ _ _ _ _ declared _
      exact habove st .refl declared
    · intro _ handler _
      exact habove st .refl handler
    · intro n method hmethod declared _
      exact habove _ (evolving_throwsAtSite (.implemented hmethod) st) declared
  exact hnarrower.isHandledWithin top h

def fragmentProgram : Program TypeStore where
  tree := ⟨#[⟨0, 0, .call "read" none [], some 1⟩, ⟨0, 0, .block [some 0], some 5⟩,
    ⟨0, 0, .parameter "e" (some 5) false, some 4⟩, ⟨0, 0, .block [], some 4⟩,
    ⟨0, 0, .catchClause (some 2) (some 3), some 5⟩,
    ⟨0, 0, .trying ⟨none, some 1, [some 4], none⟩, some 6⟩,
    ⟨0, 0, .fragment [some 5], none⟩]⟩
  types := .ofStore
  completion := fun _ => .ok true
  resolution := .unknown
  handlers :=
    Handlers.empty.setFragment (some 6) fun ty => TypeStore.mixedStore.isSubtype ty (some 2)
  options := .default

/-- The fragment lets 2 pass; its subtype 5 does not even get there. -/
theorem fragmentProgram_handles :
    TypeStore.mixedStore.isSubtype (some 5) (some 2) = true ∧
    (fragmentProgram.isHandledUpTo (some 0) (some 2) none TypeStore.mixedStore).1 = true ∧
    (fragmentProgram.isHandledUpTo (some 0) (some 5) none TypeStore.mixedStore).1 = true := by
  have hsub : TypeStore.mixedStore.isSubtype (some 5) (some 2) = true := by decide +kernel
  have hsup :
      (fragmentProgram.isHandledUpTo (some 0) (some 2) none TypeStore.mixedStore).1 = true := by
    decide +kernel
  have hcomplete : fragmentProgram.Complete TypeStore.mixedStore := by
    rintro st' ⟨c, ty, hoffers, -, -⟩
    cases hoffers with
    | chosen h => cases h
    | other h => cases h
    | closer h => cases h
    | implemented h => cases h
  refine ⟨hsub, hsup, isHandledUpTo_of_isSubtype (fun st' hevolves => ?_) ⟨?_, ?_⟩
    (fun st' hevolves => isSubtype_of_evolves rfl hevolves hsub) _ _ hsup⟩
  · rw [hcomplete.eq_of_evolves hevolves]
    exact TypeStore.mixedStore_trans
  · exact fun handler hmem => absurd hmem List.not_mem_nil
  · intro n rule hrule sub sup hsub hsup
    obtain rfl : (fun ty => TypeStore.mixedStore.isSubtype ty (some 2)) = rule := by
      simp only [fragmentProgram, Handlers.setFragment, Handlers.empty, Handlers.fragment?,
        List.filter_nil, List.lookup_cons] at hrule
      split at hrule
      · exact Option.some.inj hrule
      · cases hrule
    exact TypeStore.mixedStore_trans _ _ _ hsub hsup

end Program

end CheckedExceptions
