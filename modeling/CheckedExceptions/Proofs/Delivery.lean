import CheckedExceptions.Proofs.Persistence

/-! The sets that an analysis makes where subtyping is kept: antichains of types that have come up.
If answers are repeated, the same set is made when the analysis is run again. -/

namespace CheckedExceptions

open Relation (ReflTransGen)

namespace Program

variable {σ : Type} {p : Program σ} {st now later : σ} {s t : ThrowSet} {repeats : Prop}
  {tys : List TypeRef}

abbrev KnownAntichain (p : Program σ) (st now : σ) (s : ThrowSet) : Prop :=
  s.AntichainIn (p.types.isSubtype now) (p.Known st now)

/-- Run at `now`, the action gives an antichain of known types. -/
abbrev Delivers (p : Program σ) (st : σ) (repeats : Prop) (now : σ) (m : StateM σ ThrowSet) :
    Prop :=
  Ensures p.Substitutes repeats now m (p.KnownAntichain st)

abbrev Lists (p : Program σ) (st : σ) (repeats : Prop) (now : σ) (m : StateM σ (List TypeRef)) :
    Prop :=
  Ensures p.Substitutes repeats now m fun now tys => ∀ ty ∈ tys, p.Known st now ty

theorem KeepsSubtyping.knownAntichain_later (hst : p.KeepsSubtyping st) (hnow : p.Evolves st now)
    (hlater : p.Evolves now later) (hs : p.KnownAntichain st now s) : p.KnownAntichain st later s :=
  hs.of_agreeOn (hst.agreeOn hnow hlater) fun _ h => h.persists hlater

theorem lists_throwsAtSite (hrepeats : repeats → p.RepeatsAnswers st) (hnow : p.Evolves st now)
    {c : Candidate} (hc : p.Offers c) : p.Lists st repeats now (p.throwsAtSite c) := by
  have hsubstitute : ∀ ty ∈ c.callable.throws, ∀ mid, p.Evolves now mid →
      Ensures p.Substitutes repeats mid (p.types.substitute ty c.substitution)
        fun later result => ∀ ty ∈ result, p.Known st later ty := by
    intro ty hty mid hmid
    refine ⟨.single ⟨c, ty, hc, hty, rfl⟩, ?_, ?_⟩
    · intro result hresult
      exact .thrown hc hty (hnow.trans hmid) hresult .refl
    · intro h later hlater
      exact (hrepeats h).substitute hc hty (hnow.trans hmid) hlater
  refine .bind (.mapM ?_ hsubstitute) fun results last _ hresults => .pure fun ty hty => ?_
  · intro mid later result _ hlater hresult ty hty
    exact (hresult ty hty).persists hlater
  · obtain ⟨result, hresult, hid⟩ := List.mem_filterMap.mp hty
    exact hresults result hresult ty hid

section KeepsSubtyping

variable (hst : p.KeepsSubtyping st) (hrepeats : repeats → p.RepeatsAnswers st)
  (hnow : p.Evolves st now)
include hst hnow

theorem delivers_setOf (htys : ∀ ty ∈ tys, p.Known st now ty) :
    p.Delivers st repeats now (p.setOf tys) := by
  refine .get_bind (.pure (.ofList htys)) fun _ later hlater => ?_
  rw [(hst.agreeOn hnow hlater).ofList htys]

theorem delivers_unite (hs : p.KnownAntichain st now s) (ht : p.KnownAntichain st now t) :
    p.Delivers st repeats now (p.unite s t) := by
  refine .get_bind (.pure (hs.union ht)) fun _ later hlater => ?_
  unfold ThrowSet.union
  rw [(hst.agreeOn hnow hlater).insertAll hs.inside ht.inside]

theorem delivers_uniteAll {below : NodeRef → StateM σ ThrowSet} {nodes : List NodeRef}
    (hs : p.KnownAntichain st now s)
    (h : ∀ m ∈ nodes, ∀ later, p.Evolves st later → p.Delivers st repeats later (below m)) :
    p.Delivers st repeats now (p.uniteAll below s nodes) := by
  induction nodes generalizing s now with
  | nil => exact .pure hs
  | cons m nodes ih =>
    unfold uniteAll
    rw [List.foldlM_cons]
    have hunite : p.Delivers st repeats now (below m >>= fun t => p.unite s t) := by
      refine .bind (h m List.mem_cons_self now hnow) fun t next hnext ht => ?_
      exact delivers_unite hst (hnow.trans hnext) (hst.knownAntichain_later hnow hnext hs) ht
    refine .bind hunite fun s next hnext hs => ?_
    exact ih (hnow.trans hnext) hs fun k hk => h k (List.mem_cons_of_mem m hk)

include hrepeats

theorem delivers_declaredSet {c : Candidate} (hc : p.Offers c) :
    p.Delivers st repeats now (p.declaredSet c) := by
  refine .bind (lists_throwsAtSite hrepeats hnow hc) fun tys next hnext htys => ?_
  exact delivers_setOf hst (hnow.trans hnext) htys

theorem lists_meetAll {candidates : List Candidate} (h : ∀ c ∈ candidates, p.Offers c)
    {common : List TypeRef} (hcommon : ∀ ty ∈ common, p.Known st now ty) :
    p.Lists st repeats now (p.meetAll common candidates) := by
  induction candidates generalizing common now with
  | nil => exact .pure hcommon
  | cons c candidates ih =>
    refine .bind (lists_throwsAtSite hrepeats hnow (h c List.mem_cons_self))
      fun tys next hnext htys => ?_
    have hcommon' : ∀ ty ∈ common, p.Known st next ty :=
      fun ty hty => (hcommon ty hty).persists hnext
    refine .get_bind ?_ fun _ later hlater => ?_
    · split
      · exact .pure fun ty hty => absurd hty List.not_mem_nil
      · apply ih (hnow.trans hnext) fun x hx => h x (List.mem_cons_of_mem c hx)
        intro ty hty
        obtain ⟨a, ha, hty⟩ := List.mem_flatMap.mp (List.mem_eraseDups.mp hty)
        obtain ⟨b, hb, hpair⟩ := List.mem_filterMap.mp hty
        split at hpair
        · exact Option.some.inj hpair ▸ hcommon' a ha
        · split at hpair
          · exact Option.some.inj hpair ▸ htys b hb
          · cases hpair
    · rw [hst.allUnchecked_eq (hnow.trans hnext) hlater htys,
        hst.meet_eq (hnow.trans hnext) hlater hcommon' htys]

theorem lists_commonThrows {candidates : List Candidate} (h : ∀ c ∈ candidates, p.Offers c) :
    p.Lists st repeats now (p.commonThrows candidates) := by
  cases candidates with
  | nil => exact .pure fun ty hty => absurd hty List.not_mem_nil
  | cons c candidates =>
    refine .bind (lists_throwsAtSite hrepeats hnow (h c List.mem_cons_self))
      fun tys next hnext htys => ?_
    refine .get_bind ?_ fun _ later hlater => ?_
    · split
      · exact .pure fun ty hty => absurd hty List.not_mem_nil
      · exact lists_meetAll hst hrepeats (hnow.trans hnext)
          (fun x hx => h x (List.mem_cons_of_mem c hx)) htys
    · rw [hst.allUnchecked_eq (hnow.trans hnext) hlater htys]

theorem ensures_agreedThrows {n : NodeRef} {target : CallTarget}
    (htarget : p.resolution.target? n = some target) :
    Ensures p.Substitutes repeats now (p.agreedThrows target)
      fun later agreed => ∀ s, agreed = some s → p.KnownAntichain st later s := by
  refine .get_bind ?_ fun h later hlater => ?_
  · split
    · next first second rest hsurvivors =>
      have hoffers : ∀ c ∈ first :: second :: rest, p.Offers c := by
        intro c hc
        rw [← hsurvivors] at hc
        exact .of_mem_distinct htarget (List.mem_filter.mp hc).1
      refine .bind (lists_commonThrows hst hrepeats hnow hoffers) fun tys next hnext htys => ?_
      refine .map (delivers_setOf hst (hnow.trans hnext) htys) fun later s _ hs s' heq => ?_
      exact Option.some.inj heq ▸ hs
    · exact .pure fun s hs => nomatch hs
  · rw [(hrepeats h).survivors_eq hnow hlater fun c => .of_mem_distinct htarget]

theorem delivers_invocationThrows (site : NodeRef) :
    p.Delivers st repeats now (p.invocationThrows site) := by
  unfold invocationThrows
  split
  · exact .pure ThrowSet.antichainIn_empty
  · split
    · exact .pure ThrowSet.antichainIn_empty
    · next target htarget =>
      have hchosen : ∀ next, p.Evolves now next →
          p.Delivers st repeats next (p.declaredSet target.chosen) :=
        fun next hnext => delivers_declaredSet hst hrepeats (hnow.trans hnext) (.chosen htarget)
      refine .get_bind ?_ fun h later hlater => ?_
      · split
        · exact .pure ThrowSet.antichainIn_empty
        · split
          · refine .bind (ensures_agreedThrows hst hrepeats hnow htarget)
              fun agreed next hnext hagreed => ?_
            cases agreed with
            | none => exact hchosen next hnext
            | some s => exact .pure (hagreed s rfl)
          · exact hchosen now .refl
      · simp only [clonesArray_eq hst (hrepeats h) hnow hlater]

theorem delivers_throwsOfReference (n : NodeRef) :
    p.Delivers st repeats now (p.referencedThrows n) := by
  unfold referencedThrows
  split
  · exact delivers_invocationThrows hst hrepeats hnow n
  · exact .pure ThrowSet.antichainIn_empty

theorem delivers_closingThrows (resource : NodeRef) :
    p.Delivers st repeats now (p.closingThrows resource) := by
  unfold closingThrows
  split
  · exact .pure ThrowSet.antichainIn_empty
  · split
    · next closer hcloser => exact delivers_declaredSet hst hrepeats hnow (.closer hcloser)
    · exact .pure ThrowSet.antichainIn_empty

section Walk

variable {below : NodeRef → StateM σ ThrowSet}
  (hbelow : ∀ m later, p.Evolves st later → p.Delivers st repeats later (below m))
include hbelow

theorem delivers_resourceThrows (resource : NodeRef) :
    p.Delivers st repeats now (p.resourceThrows below resource) := by
  unfold resourceThrows
  split
  · exact hbelow resource now hnow
  · have hcloser := delivers_closingThrows hst hrepeats hnow resource
    refine .bind hcloser fun closing mid hmid hclosing => ?_
    refine .bind (hbelow resource mid (hnow.trans hmid)) fun producing next hnext hproducing => ?_
    exact delivers_unite hst (hnow.trans (hmid.trans hnext))
      (hst.knownAntichain_later (hnow.trans hmid) hnext hclosing) hproducing
  · exact .pure ThrowSet.antichainIn_empty

theorem delivers_bodyThrows (parts : TryParts) :
    p.Delivers st repeats now (p.bodyThrows below parts) := by
  have hresources : p.Delivers st repeats now
      (p.uniteAll (p.resourceThrows below) .empty (p.tree.tryResources parts)) :=
    delivers_uniteAll hst hnow ThrowSet.antichainIn_empty fun m _ later hlater =>
      delivers_resourceThrows hst hrepeats hlater hbelow m
  refine .bind hresources fun resources next hnext hs => ?_
  exact delivers_uniteAll hst (hnow.trans hnext) hs fun m _ => hbelow m

theorem lists_arrivingTypes (clause : NodeRef) :
    p.Lists st repeats now (p.arrivingTypes below clause) := by
  by_cases htry : ∃ parts, p.tree.payload? (p.tree.parent clause) = some (.trying parts)
  · obtain ⟨parts, htry⟩ := htry
    rw [arrivingTypes_of_try htry]
    refine .get_bind ?_ fun h later hlater => ?_
    · refine .bind (delivers_bodyThrows hst hrepeats hnow hbelow parts)
        fun thrown next hnext hthrown => ?_
      have halternatives : ∀ ty ∈ p.caughtTypes now clause, p.Known st next ty :=
        fun ty hty => (known_of_mem_caughtTypes hnow hty).persists hnext
      refine .get_bind (.pure fun ty hty => ?_) fun h later hlater => ?_
      · exact known_of_mem_arrivals (hnow.trans hnext) halternatives hthrown.inside hty
      · rw [arrivals_eq hst (hrepeats h) (hnow.trans hnext) hlater clause halternatives
          hthrown.inside]
    · rw [(hrepeats h).caughtTypes_eq hnow hlater]
  · rw [arrivingTypes_of_not_try fun parts hparts => htry ⟨parts, hparts⟩]
    refine .get_bind (.pure fun ty hty => ?_) fun h later hlater => ?_
    · exact known_of_mem_caughtTypes hnow hty
    · rw [(hrepeats h).caughtTypes_eq hnow hlater]

theorem lists_raisedTypes {n expression : NodeRef}
    (hthrow : p.tree.payload? n = some (.throwing expression)) :
    p.Lists st repeats now (p.raisedTypes below expression) := by
  unfold raisedTypes
  cases hrethrown : p.tree.rethrown? expression with
  | some caught =>
    obtain ⟨_, _, _, -, hparameter, -, -⟩ := SyntaxTree.rethrown?_eq_some hrethrown
    refine .get_bind ?_ fun h later hlater => ?_
    · dsimp only
      split
      · exact lists_arrivingTypes hst hrepeats hnow hbelow caught.clause
      · exact .pure fun ty hty => .parameter hparameter hnow .refl hty
    · simp only [(hrepeats h).parameter hparameter hnow,
        (hrepeats h).parameter hparameter (hnow.trans hlater)]
  | none =>
    cases htype : p.thrownType? expression with
    | some thrownType =>
      refine .get_bind (.pure fun ty hty => ?_) fun h later hlater => ?_
      · exact .raised hthrow htype hnow .refl hty
      · simp only [(hrepeats h).raised hthrow htype hnow,
          (hrepeats h).raised hthrow htype (hnow.trans hlater)]
    | none =>
      refine .get_bind (.pure fun ty hty => ?_) fun _ _ _ => rfl
      exact absurd hty List.not_mem_nil

theorem delivers_leavingTry (parts : TryParts) :
    p.Delivers st repeats now (p.leavingTry below parts) := by
  refine .bind (delivers_bodyThrows hst hrepeats hnow hbelow parts) fun body mid hmid hbody => ?_
  have hreach := hnow.trans hmid
  refine .get_bind ?_ fun h later hlater => ?_
  · have huncaught : p.KnownAntichain st mid (p.uncaught mid parts body) :=
      hbody.foldl_removeCovered _
    refine .bind (delivers_uniteAll hst hreach huncaught fun m _ => hbelow m)
      fun pending next hnext hpending => ?_
    split
    · exact .pure hpending
    · refine .bind (hbelow _ next (hreach.trans hnext)) fun final last hfinal hset => ?_
      split
      · exact delivers_unite hst (hreach.trans (hnext.trans hfinal))
          (hst.knownAntichain_later (hreach.trans hnext) hfinal hpending) hset
      · exact .pure hset
  · rw [uncaught_eq hst (hrepeats h) hreach hlater hbody.inside]

omit hrepeats in
theorem delivers_thrownByChildren (n : NodeRef) :
    p.Delivers st repeats now (p.thrownByChildren below n) :=
  delivers_uniteAll hst hnow ThrowSet.antichainIn_empty fun m _ => hbelow m

theorem delivers_thrownByInvocation (n : NodeRef) :
    p.Delivers st repeats now (p.thrownByInvocation below n) := by
  refine .bind (delivers_invocationThrows hst hrepeats hnow n) fun own mid hmid hown => ?_
  refine .bind (delivers_thrownByChildren hst (hnow.trans hmid) hbelow n)
    fun operands next hnext hoperands => ?_
  exact delivers_unite hst (hnow.trans (hmid.trans hnext))
    (hst.knownAntichain_later (hnow.trans hmid) hnext hown) hoperands

theorem delivers_thrownStep (n : NodeRef) :
    p.Delivers st repeats now (p.thrownStep below n) := by
  unfold thrownStep
  split
  · exact .pure ThrowSet.antichainIn_empty
  · exact delivers_uniteAll hst hnow ThrowSet.antichainIn_empty fun m _ => hbelow m
  · exact .pure ThrowSet.antichainIn_empty
  · exact .pure ThrowSet.antichainIn_empty
  · exact .pure ThrowSet.antichainIn_empty
  · next hthrow =>
    refine .bind (lists_raisedTypes hst hrepeats hnow hbelow hthrow) fun tys mid hmid htys => ?_
    refine .bind (delivers_setOf hst (hnow.trans hmid) htys) fun own next hnext hown => ?_
    exact delivers_uniteAll hst (hnow.trans (hmid.trans hnext)) hown fun m _ => hbelow m
  · exact delivers_leavingTry hst hrepeats hnow hbelow _
  · refine .bind (delivers_closingThrows hst hrepeats hnow n) fun closing next hnext hclosing => ?_
    exact delivers_uniteAll hst (hnow.trans hnext) hclosing fun m _ => hbelow m
  · exact delivers_thrownByInvocation hst hrepeats hnow hbelow n
  · exact delivers_thrownByInvocation hst hrepeats hnow hbelow n
  · exact delivers_thrownByChildren hst hnow hbelow n

end Walk

theorem delivers_thrownWithin (depth : Nat) (n : NodeRef) :
    p.Delivers st repeats now (p.thrownWithin depth n) := by
  induction depth generalizing n now with
  | zero => exact .pure ThrowSet.antichainIn_empty
  | succ depth ih => exact delivers_thrownStep hst hrepeats hnow (fun m _ hlater => ih hlater m) n

theorem delivers_ownThrows (site : NodeRef) :
    p.Delivers st repeats now (p.ownThrows site) := by
  unfold ownThrows
  split
  · exact .pure ThrowSet.antichainIn_empty
  · exact delivers_invocationThrows hst hrepeats hnow site
  · exact delivers_invocationThrows hst hrepeats hnow site
  · exact delivers_invocationThrows hst hrepeats hnow site
  · next hthrow =>
    have hraised := lists_raisedTypes hst hrepeats hnow
      (fun m _ hlater => delivers_thrownWithin hst hrepeats hlater p.options.maxTreeDepth m) hthrow
    exact .bind hraised fun tys next hnext => delivers_setOf hst (hnow.trans hnext)
  · exact delivers_closingThrows hst hrepeats hnow site
  · split
    · exact delivers_closingThrows hst hrepeats hnow site
    · exact .pure ThrowSet.antichainIn_empty

end KeepsSubtyping

end Program

end CheckedExceptions
