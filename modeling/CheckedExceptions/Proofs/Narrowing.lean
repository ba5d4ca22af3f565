import CheckedExceptions.Proofs.Agreement
import CheckedExceptions.Proofs.ClosedStore

/-! To take a rethrown parameter for the exceptions that reach it, and not for all that it is
declared to be, makes what is found narrower. -/

namespace CheckedExceptions

/-- Two actions run at `st` side by side: both leave the state alone, and `R` holds of their
results. -/
structure Pairs {σ α β : Type} (st : σ) (m : StateM σ α) (m' : StateM σ β) (R : α → β → Prop) :
    Prop where
  left : (m st).2 = st
  right : (m' st).2 = st
  related : R (m st).1 (m' st).1

namespace Pairs

variable {σ α β γ δ : Type} {st : σ} {R : α → β → Prop} {S : γ → δ → Prop}

theorem pure {a : α} {b : β} (h : R a b) : Pairs st (pure a) (pure b) R := ⟨rfl, rfl, h⟩

theorem bind {m : StateM σ α} {m' : StateM σ β} {f : α → StateM σ γ} {f' : β → StateM σ δ}
    (hm : Pairs st m m' R) (hf : ∀ a b, R a b → Pairs st (f a) (f' b) S) :
    Pairs st (m >>= f) (m' >>= f') S := by
  have hnext := hf _ _ hm.related
  have hrun : (m >>= f) st = f (m st).1 st := congrArg (f (m st).1) hm.left
  have hrun' : (m' >>= f') st = f' (m' st).1 st := congrArg (f' (m' st).1) hm.right
  constructor
  · rw [hrun]
    exact hnext.left
  · rw [hrun']
    exact hnext.right
  · rw [hrun, hrun']
    exact hnext.related

theorem get_bind {f : σ → StateM σ γ} {f' : σ → StateM σ δ} (h : Pairs st (f st) (f' st) S) :
    Pairs st (get >>= f) (get >>= f') S :=
  ⟨h.left, h.right, h.related⟩

end Pairs

def SyntaxTree.NamesCatchParameters (t : SyntaxTree) : Prop :=
  ∀ {n name declaredType reassigned parameter block},
    t.payload? n = some (.parameter name declaredType reassigned) →
    t.payload? (t.parent n) = some (.catchClause parameter block) → parameter = n

theorem SyntaxTree.NamesCatchParameters.catchType_eq {t : SyntaxTree} (ht : t.NamesCatchParameters)
    {expr : NodeRef} {caught : RethrownParameter} (h : t.rethrown? expr = some caught) :
    t.catchType caught.clause = caught.declaredType := by
  obtain ⟨_, _, declaration, -, hparameter, hparent, hcatch⟩ := rethrown?_eq_some h
  unfold isCatch at hcatch
  split at hcatch
  · next parameter block hclause =>
    obtain rfl : parameter = declaration := ht hparameter (hparent ▸ hclause)
    simp only [catchType, hclause, hparameter]
  · cases hcatch

namespace Program

variable {σ : Type} {p : Program σ} {st : σ} {s t s' t' : ThrowSet} {ty : TypeRef}

/-- The same program when a rethrown parameter counts as whatever it is declared to be. -/
def coarse (p : Program σ) : Program σ :=
  { p with options := { p.options with preciseRethrow := false } }

section Coarse

@[simp] theorem coarse_tree : p.coarse.tree = p.tree := rfl

@[simp] theorem coarse_thrownType? (expr : NodeRef) :
    p.coarse.thrownType? expr = p.thrownType? expr := rfl

theorem coarse_offers {c : Candidate} : p.coarse.Offers c ↔ p.Offers c :=
  withOptions_offers

theorem Complete.coarse (hst : p.Complete st) : p.coarse.Complete st :=
  hst.withOptions

theorem Involved.coarse (h : p.Involved st ty) : p.coarse.Involved st ty := by
  cases h with
  | thrown hc hty hresult => exact .thrown (coarse_offers.mpr hc) hty hresult
  | declared hn hty => exact .declared hn hty
  | parameter hn hty => exact .parameter hn hty
  | raised hn htype hty => exact .raised hn htype hty
  | exempt hroot => exact .exempt hroot

theorem coarse_invocationThrows (site : NodeRef) :
    p.coarse.invocationThrows site = p.invocationThrows site := by
  have hcalls : { p.options with preciseRethrow := false }.overloadIntersection =
      p.options.overloadIntersection := rfl
  exact withOptions_invocationThrows hcalls site

theorem coarse_isHandledUpTo (n : NodeRef) (ty : TypeRef) (top : NodeRef) :
    p.coarse.isHandledUpTo n ty top = p.isHandledUpTo n ty top := by
  have hwithin : ∀ steps element,
      p.coarse.isHandledWithin ty top steps element = p.isHandledWithin ty top steps element := by
    intro steps
    induction steps with
    | zero => exact fun _ => rfl
    | succ steps ih =>
      intro element
      unfold isHandledWithin
      simp only [ih]
      rfl
  exact hwithin _ n

end Coarse

abbrev Narrows (p : Program σ) (st : σ) (m m' : StateM σ ThrowSet) : Prop :=
  Pairs st m m' (ThrowSet.Within (p.types.isSubtype st) (p.Known st st))

/-- Types that have come up, with a proper type of the second list above each proper type of the
first. -/
structure Under (p : Program σ) (st : σ) (tys tys' : List TypeRef) : Prop where
  left : ∀ a ∈ tys, p.Known st st a
  right : ∀ a ∈ tys', p.Known st st a
  above : ∀ a ∈ tys, a.isSome = true →
    ∃ b ∈ tys', b.isSome = true ∧ p.types.isSubtype st a b = true

theorem mem_alternatives_of_mem_caughtTypes {clause : NodeRef} (h : ty ∈ p.caughtTypes st clause) :
    ty ∈ p.types.alternatives st (p.tree.catchType clause) := by
  unfold caughtTypes at h
  split at h
  · next hcatch =>
    rw [hcatch]
    exact h
  · exact absurd h List.not_mem_nil

section Walk

variable (hst : p.Complete st)
  (hord : ThrowSet.OrderedOn (p.types.isSubtype st) (p.Known st st))
include hst hord

theorem narrows_of_delivers {m : StateM σ ThrowSet} (h : p.Delivers st False st m) :
    p.Narrows st m m := by
  obtain ⟨hstate, hset⟩ := hst.yields_of_ensures h
  exact ⟨hstate, hstate, hord.within_refl hset⟩

omit hst in
theorem narrows_unite (hs : s.Within (p.types.isSubtype st) (p.Known st st) s')
    (ht : t.Within (p.types.isSubtype st) (p.Known st st) t') :
    p.Narrows st (p.unite s t) (p.coarse.unite s' t') :=
  ⟨rfl, rfl, hord.within_union hs ht⟩

omit hst in
theorem narrows_uniteAll {below below' : NodeRef → StateM σ ThrowSet} {nodes : List NodeRef}
    (hs : s.Within (p.types.isSubtype st) (p.Known st st) s')
    (h : ∀ m ∈ nodes, p.Narrows st (below m) (below' m)) :
    p.Narrows st (p.uniteAll below s nodes) (p.coarse.uniteAll below' s' nodes) := by
  induction nodes generalizing s s' with
  | nil => exact .pure hs
  | cons m nodes ih =>
    unfold uniteAll
    rw [List.foldlM_cons, List.foldlM_cons]
    have hunite : p.Narrows st (below m >>= fun t => p.unite s t)
        (below' m >>= fun t => p.coarse.unite s' t) :=
      .bind (h m List.mem_cons_self) fun t t' => narrows_unite hord hs
    refine .bind hunite fun s s' hs => ih hs ?_
    intro k hk
    exact h k (List.mem_cons_of_mem m hk)

theorem narrows_invocationThrows (site : NodeRef) :
    p.Narrows st (p.invocationThrows site) (p.coarse.invocationThrows site) := by
  rw [coarse_invocationThrows]
  exact narrows_of_delivers hst hord
    (delivers_invocationThrows hst.keepsSubtyping False.elim .refl site)

theorem narrows_closingThrows (resource : NodeRef) :
    p.Narrows st (p.closingThrows resource) (p.coarse.closingThrows resource) :=
  narrows_of_delivers hst hord (delivers_closingThrows hst.keepsSubtyping False.elim .refl resource)

omit hst in
theorem narrows_empty : p.Narrows st (pure .empty) (pure .empty) :=
  .pure (hord.within_refl ThrowSet.antichainIn_empty)

variable {below below' : NodeRef → StateM σ ThrowSet}
  (hbelow : ∀ m, p.Narrows st (below m) (below' m))
include hbelow

theorem narrows_bodyThrows (parts : TryParts) :
    p.Narrows st (p.bodyThrows below parts) (p.coarse.bodyThrows below' parts) := by
  have hresource : ∀ m,
      p.Narrows st (p.resourceThrows below m) (p.coarse.resourceThrows below' m) := by
    intro m
    cases hpayload : p.tree.payload? m with
    | none =>
      simp only [resourceThrows, coarse_tree, hpayload]
      exact narrows_empty hord
    | some payload =>
      cases payload with
      | resourceVariable =>
        simp only [resourceThrows, coarse_tree, hpayload]
        exact hbelow m
      | _ =>
        simp only [resourceThrows, coarse_tree, hpayload]
        refine .bind (narrows_closingThrows hst hord m) fun closing closing' hclosing => ?_
        exact .bind (hbelow m) fun producing producing' => narrows_unite hord hclosing
  have hresources : p.Narrows st
      (p.uniteAll (p.resourceThrows below) .empty (p.tree.tryResources parts))
      (p.coarse.uniteAll (p.coarse.resourceThrows below') .empty (p.tree.tryResources parts)) :=
    narrows_uniteAll hord (hord.within_refl ThrowSet.antichainIn_empty) fun m _ => hresource m
  refine .bind hresources fun resources resources' hresources => ?_
  exact narrows_uniteAll hord hresources fun m _ => hbelow m

omit hord in
theorem delivers_left (m : NodeRef) (later : σ) (hlater : p.Evolves st later) :
    p.Delivers st False later (below m) := by
  rw [hst.eq_of_evolves hlater]
  obtain ⟨hleft, -, hwithin⟩ := hbelow m
  refine ⟨?_, ?_, False.elim⟩
  · rw [hleft]
  · rw [hleft]
    exact hwithin.left

theorem exists_above_of_mem_arrivingTypes {clause : NodeRef}
    (h : ty ∈ (p.arrivingTypes below clause st).1) :
    ∃ alternative ∈ p.caughtTypes st clause, p.types.isSubtype st ty alternative = true := by
  have hrefl : ∀ alternative ∈ p.caughtTypes st clause,
      p.types.isSubtype st alternative alternative = true := by
    intro alternative halternative
    exact hord.refl alternative (known_of_mem_caughtTypes .refl halternative)
  by_cases htry : ∃ parts, p.tree.payload? (p.tree.parent clause) = some (.trying parts)
  · obtain ⟨parts, htry⟩ := htry
    have hbody : (p.bodyThrows below parts st).2 = st :=
      (narrows_bodyThrows hst hord hbelow parts).left
    rw [arrivingTypes_of_try htry] at h
    have harrives : ty ∈ p.arrivals (p.bodyThrows below parts st).2 (p.caughtTypes st clause) parts
        clause (p.bodyThrows below parts st).1 := h
    rw [hbody] at harrives
    obtain ⟨⟨candidate, -, hform⟩, -⟩ := mem_arrivals_iff.mp harrives
    obtain ⟨alternative, hmem, ⟨rfl, hup⟩ | ⟨rfl, -⟩⟩ := exists_related_of_reaching? hform
    · exact ⟨alternative, hmem, hup⟩
    · exact ⟨ty, hmem, hrefl ty hmem⟩
  · rw [arrivingTypes_of_not_try fun parts hparts => htry ⟨parts, hparts⟩] at h
    exact ⟨ty, h, hrefl ty h⟩

variable (htree : p.tree.NamesCatchParameters)
  (hproper : ∀ a, p.Known st st a → a.isSome = true → p.types.isSubtype st a none = false)
include htree hproper

theorem pairs_raisedTypes {n expression : NodeRef}
    (hthrow : p.tree.payload? n = some (.throwing expression)) :
    Pairs st (p.raisedTypes below expression) (p.coarse.raisedTypes below' expression)
      (p.Under st) := by
  have hsame : ∀ tys, (∀ a ∈ tys, p.Known st st a) → p.Under st tys tys := by
    intro tys htys
    refine ⟨htys, htys, ?_⟩
    intro a ha hsome
    exact ⟨a, ha, hsome, hord.refl a (htys a ha)⟩
  unfold raisedTypes
  refine .get_bind ?_
  cases hrethrown : p.tree.rethrown? expression with
  | none =>
    simp only [coarse_tree, hrethrown, coarse_thrownType?]
    cases htype : p.thrownType? expression with
    | none => exact .pure (hsame [] fun a ha => absurd ha List.not_mem_nil)
    | some thrownType =>
      exact .pure (hsame _ fun a ha => .raised hthrow htype .refl .refl ha)
  | some caught =>
    obtain ⟨_, _, _, -, hparameter, -, -⟩ := SyntaxTree.rethrown?_eq_some hrethrown
    have hdeclared : ∀ a ∈ p.types.alternatives st caught.declaredType, p.Known st st a :=
      fun a ha => .parameter hparameter .refl .refl ha
    have hoff : p.coarse.options.preciseRethrow = false := rfl
    simp only [coarse_tree, hrethrown, hoff, Bool.false_and, if_neg Bool.false_ne_true]
    split
    · have harriving := lists_arrivingTypes hst.keepsSubtyping False.elim .refl
        (delivers_left hst hbelow) caught.clause
      obtain ⟨hstate, hknown⟩ := hst.yields_of_ensures harriving
      refine ⟨hstate, rfl, hknown, hdeclared, ?_⟩
      intro a ha hsome
      obtain ⟨b, hb, hab⟩ := exists_above_of_mem_arrivingTypes hst hord hbelow ha
      have hmem := mem_alternatives_of_mem_caughtTypes hb
      rw [htree.catchType_eq hrethrown] at hmem
      refine ⟨b, hmem, ?_, hab⟩
      cases b with
      | some id => rfl
      | none =>
        rw [hproper a (hknown a ha) hsome] at hab
        cases hab
    · exact .pure (hsame _ hdeclared)

omit htree hproper in
theorem narrows_leavingTry (parts : TryParts) :
    p.Narrows st (p.leavingTry below parts) (p.coarse.leavingTry below' parts) := by
  refine .bind (narrows_bodyThrows hst hord hbelow parts) fun body body' hbody => .get_bind ?_
  have hhandlers : ∀ handler ∈ parts.clauses.flatMap (p.caughtTypes st),
      p.Known st st handler := by
    intro handler hhandler
    obtain ⟨clause, -, hcaught⟩ := List.mem_flatMap.mp hhandler
    exact known_of_mem_caughtTypes .refl hcaught
  have huncaught : (p.uncaught st parts body).Within (p.types.isSubtype st) (p.Known st st)
      (p.coarse.uncaught st parts body') :=
    hord.within_foldl_removeCovered hbody hhandlers
  refine .bind (narrows_uniteAll hord huncaught fun m _ => hbelow m)
    fun pending pending' hpending => ?_
  cases parts.cleanup with
  | none => exact .pure hpending
  | some block =>
    refine .bind (hbelow (some block)) fun final final' hfinal => ?_
    show Pairs st _ (if p.completesNormally (some block) then p.coarse.unite pending' final'
      else pure final') _
    split
    · exact narrows_unite hord hpending hfinal
    · exact .pure hfinal

theorem narrows_thrownStep (n : NodeRef) :
    p.Narrows st (p.thrownStep below n) (p.coarse.thrownStep below' n) := by
  have hnone : ThrowSet.empty.Within (p.types.isSubtype st) (p.Known st st) .empty :=
    hord.within_refl ThrowSet.antichainIn_empty
  have hchildren : p.Narrows st (p.thrownByChildren below n) (p.coarse.thrownByChildren below' n) :=
    narrows_uniteAll hord hnone fun m _ => hbelow m
  have hinvocation :
      p.Narrows st (p.thrownByInvocation below n) (p.coarse.thrownByInvocation below' n) :=
    .bind (narrows_invocationThrows hst hord n) fun own own' hown =>
      .bind hchildren fun operands operands' => narrows_unite hord hown
  cases hpayload : p.tree.payload? n with
  | none =>
    simp only [thrownStep, coarse_tree, hpayload]
    exact .pure hnone
  | some payload =>
    cases payload with
    | classDecl name =>
      cases name with
      | none =>
        simp only [thrownStep, coarse_tree, hpayload]
        exact narrows_uniteAll hord hnone fun m _ => hbelow m
      | some name =>
        simp only [thrownStep, coarse_tree, hpayload]
        exact .pure hnone
    | lambda | methodRef =>
      simp only [thrownStep, coarse_tree, hpayload]
      exact .pure hnone
    | throwing expression =>
      simp only [thrownStep, coarse_tree, hpayload]
      refine .bind (pairs_raisedTypes hst hord hbelow htree hproper hpayload)
        fun tys tys' hunder => ?_
      have hown : p.Narrows st (p.setOf tys) (p.coarse.setOf tys') :=
        ⟨rfl, rfl, hord.within_ofList hunder.left hunder.right hunder.above⟩
      exact .bind hown fun own own' hown => narrows_uniteAll hord hown fun m _ => hbelow m
    | trying parts =>
      simp only [thrownStep, coarse_tree, hpayload]
      exact narrows_leavingTry hst hord hbelow parts
    | resourceVariable =>
      simp only [thrownStep, coarse_tree, hpayload]
      exact .bind (narrows_closingThrows hst hord n) fun closing closing' hclosing =>
        narrows_uniteAll hord hclosing fun m _ => hbelow m
    | call | creation =>
      simp only [thrownStep, coarse_tree, hpayload]
      exact hinvocation
    | _ =>
      simp only [thrownStep, coarse_tree, hpayload]
      exact hchildren

end Walk

section Whole

variable (hst : p.Complete st)
  (hord : ThrowSet.OrderedOn (p.types.isSubtype st) (p.Involved st))
  (htree : p.tree.NamesCatchParameters)
  (hproper : ∀ a, p.Involved st a → a.isSome = true → p.types.isSubtype st a none = false)
include hst hord htree hproper

theorem narrows_thrownWithin (depth : Nat) (n : NodeRef) :
    p.Narrows st (p.thrownWithin depth n) (p.coarse.thrownWithin depth n) := by
  have hord' := hord.mono fun _ => hst.involved_of_known
  induction depth generalizing n with
  | zero => exact narrows_empty hord'
  | succ depth ih =>
    exact narrows_thrownStep hst hord' ih htree (fun a ha => hproper a (hst.involved_of_known ha)) n

omit htree hproper in
theorem covers_remaining {n top : NodeRef} {m m' : StateM σ ThrowSet} (h : p.Narrows st m m')
    (hclosed : p.handlers.Closed p.tree (p.types.isSubtype st)) :
    ∀ ty ∈ ((m >>= fun set => p.remaining n set top) st).1.members,
      ((m' >>= fun set => p.coarse.remaining n set top) st).1.covers (p.types.isSubtype st) ty =
        true := by
  have hm : Yields st m (p.InvolvedAntichain st) :=
    ⟨h.left, h.related.left.of_agreeOn (fun _ _ _ _ => rfl) fun _ => hst.involved_of_known⟩
  have hm' : Yields st m' (p.coarse.InvolvedAntichain st) :=
    ⟨h.right, h.related.right.of_agreeOn (fun _ _ _ _ => rfl) fun _ ha =>
      (hst.involved_of_known ha).coarse⟩
  intro ty hty
  obtain ⟨hmem, hchecked, hfree⟩ := (hst.mem_bind_remaining_iff hm).mp hty
  obtain ⟨sup, hsup, hbelow⟩ := ThrowSet.covers_iff.mp (h.related.covers ty hmem)
  have hinvolved := hst.involved_of_known (h.related.left.inside ty hmem)
  have hsupinvolved := hst.involved_of_known (h.related.right.inside sup hsup)
  have hsupchecked := isChecked_of_isSubtype hord (fun _ => .exempt) hinvolved hsupinvolved hbelow
    hchecked
  have hsupfree : (p.coarse.isHandledUpTo n sup top st).1 = false := by
    rw [coarse_isHandledUpTo]
    apply Bool.eq_false_iff.mpr
    intro hhandled
    have hnarrower := narrower_of_orderedOn hst hord hclosed hinvolved hsupinvolved hbelow
    have habsurd := hnarrower.isHandledWithin top hhandled
    exact Bool.false_ne_true (hfree.symm.trans habsurd)
  refine ThrowSet.covers_iff.mpr ⟨sup, ?_, hbelow⟩
  exact (hst.coarse.mem_bind_remaining_iff hm').mpr ⟨hsup, hsupchecked, hsupfree⟩

/-- With precise rethrows, all that is found lies below something that is found without them. -/
theorem preciseRethrow_narrows (n : NodeRef) :
    (∀ ty ∈ (p.thrown n st).1.members,
      (p.coarse.thrown n st).1.covers (p.types.isSubtype st) ty = true) ∧
    (p.handlers.Closed p.tree (p.types.isSubtype st) → ∀ top,
      ∀ ty ∈ (p.unhandled n top st).1.members,
        (p.coarse.unhandled n top st).1.covers (p.types.isSubtype st) ty = true) := by
  have hthrown : p.Narrows st (p.thrown n) (p.coarse.thrown n) :=
    narrows_thrownWithin hst hord htree hproper _ n
  refine ⟨hthrown.related.covers, ?_⟩
  intro hclosed top
  unfold unhandled
  cases href : p.isMethodRef n with
  | false =>
    have hcoarse : p.coarse.isMethodRef n = false := href
    rw [hcoarse]
    exact covers_remaining hst hord hthrown hclosed
  | true =>
    have hcoarse : p.coarse.isMethodRef n = true := href
    rw [hcoarse]
    have hreferenced : p.Narrows st (p.referencedThrows n) (p.coarse.referencedThrows n) := by
      simp only [referencedThrows, href, hcoarse]
      exact narrows_invocationThrows hst (hord.mono fun _ => hst.involved_of_known) n
    exact covers_remaining hst hord hreferenced hclosed

end Whole

def relayProgram : Program TypeStore where
  tree := ⟨#[⟨0, 0, .call "read" none [], some 1⟩, ⟨0, 0, .block [some 0], some 7⟩,
    ⟨0, 0, .parameter "e" (some 2) false, some 6⟩, ⟨0, 0, .reference "e" (some 2), some 4⟩,
    ⟨0, 0, .throwing (some 3), some 5⟩, ⟨0, 0, .block [some 4], some 6⟩,
    ⟨0, 0, .catchClause (some 2) (some 5), some 7⟩,
    ⟨0, 0, .trying ⟨none, some 1, [some 6], none⟩, none⟩]⟩
  types := .ofStore
  completion := fun _ => .ok true
  resolution := Resolution.unknown.withTarget (some 0)
    ⟨⟨.method "read" (some 0) [some 5], .identity⟩, []⟩
  handlers := .empty
  options := .default

theorem relayProgram_complete : relayProgram.Complete TypeStore.mixedStore :=
  complete_of_isEmpty rfl (Resolution.allCandidates_unknown.withTarget _ (by decide)) _

theorem relayProgram_namesCatchParameters : relayProgram.tree.NamesCatchParameters := by
  have honly : ∀ m < 8,
      (relayProgram.tree.payload? (some m)).map Payload.kindName = some "Parameter" → m = 2 := by
    decide +kernel
  intro n name declaredType reassigned parameter block hparameter hclause
  obtain ⟨m, rfl⟩ := SyntaxTree.eq_some_of_payload? hparameter
  obtain rfl : m = 2 :=
    honly m (SyntaxTree.lt_size_of_payload? hparameter) (by rw [hparameter]; rfl)
  exact (Payload.catchClause.inj (Option.some.inj hclause)).1.symm

/-- The exception that is read is 5. Without precise rethrows all that is known of it is 2. -/
theorem relayProgram_narrows :
    (relayProgram.unhandled (some 7) none TypeStore.mixedStore).1.members = [some 5] ∧
    (relayProgram.coarse.unhandled (some 7) none TypeStore.mixedStore).1.members = [some 2] ∧
    (relayProgram.coarse.unhandled (some 7) none TypeStore.mixedStore).1.covers
      TypeStore.mixedStore.isSubtype (some 5) = true := by
  have hprecise : (relayProgram.unhandled (some 7) none TypeStore.mixedStore).1.members =
      [some 5] := by decide +kernel
  have hord : ThrowSet.OrderedOn TypeStore.mixedStore.isSubtype
      (relayProgram.Involved TypeStore.mixedStore) :=
    ⟨fun a _ => TypeStore.isSubtype_refl _ a, fun a b c _ _ _ => TypeStore.mixedStore_trans a b c⟩
  have hclosed : relayProgram.handlers.Closed relayProgram.tree TypeStore.mixedStore.isSubtype :=
    ⟨fun _ h => absurd h List.not_mem_nil, fun _ _ h => nomatch h⟩
  have hnarrows := preciseRethrow_narrows relayProgram_complete hord
    relayProgram_namesCatchParameters (fun a _ => TypeStore.isSubtype_none_eq_false) (some 7)
  refine ⟨hprecise, by decide +kernel, hnarrows.2 hclosed none (some 5) ?_⟩
  rw [hprecise]
  exact List.mem_cons_self

end Program

end CheckedExceptions
