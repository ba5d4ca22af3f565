import CheckedExceptions.Proofs.Delivery

/-! What an analysis reports where subtyping is kept is an antichain of checked types. If answers are
repeated, those about handlers among them, it reports the same when it is run again. -/

namespace CheckedExceptions

namespace Program

variable {σ : Type} {p : Program σ} {st now later : σ} {s found : ThrowSet} {tys : List TypeRef}
  {repeats : Prop}

structure Reportable (p : Program σ) (st now : σ) (s : ThrowSet) : Prop where
  antichain : p.KnownAntichain st now s
  checked : ∀ ty ∈ s.members, p.isChecked now ty = true

/-- Answers are repeated, also to the question whether a type that has come up is handled. -/
structure Consistent (p : Program σ) (st : σ) : Prop extends p.RepeatsAnswers st where
  handled : ∀ {n ty top now later}, p.Evolves st now → p.Known st now ty →
    p.Evolves (p.isHandledUpTo n ty top now).2 later →
    p.isHandledUpTo n ty top later = ((p.isHandledUpTo n ty top now).1, later)

theorem reportable_empty : p.Reportable st now .empty :=
  ⟨ThrowSet.antichainIn_empty, fun _ h => absurd h List.not_mem_nil⟩

theorem Reportable.insert (h : p.Reportable st now s) {ty : TypeRef} (hty : p.Known st now ty)
    (hchecked : p.isChecked now ty = true) :
    p.Reportable st now (s.insert (p.types.isSubtype now) ty) := by
  refine ⟨h.antichain.insert hty, ?_⟩
  intro a ha
  rcases ThrowSet.mem_of_mem_insert ha with ha | rfl
  · exact h.checked a ha
  · exact hchecked

section KeepsSubtyping

variable (hst : p.KeepsSubtyping st) (hconsistent : repeats → p.Consistent st)
  (hnow : p.Evolves st now)
include hst hnow

theorem Reportable.persists (h : p.Reportable st now s) (hlater : p.Evolves now later) :
    p.Reportable st later s := by
  refine ⟨hst.knownAntichain_later hnow hlater h.antichain, ?_⟩
  intro ty hty
  rw [hst.isChecked_eq hnow hlater (h.antichain.inside ty hty)]
  exact h.checked ty hty

include hconsistent

theorem ensures_collectRemaining (n top : NodeRef) (hfound : p.Reportable st now found)
    (htys : ∀ ty ∈ tys, p.Known st now ty) :
    Ensures p.Substitutes repeats now (p.collectRemaining n top found tys) (p.Reportable st) := by
  induction tys generalizing found now with
  | nil => exact .pure hfound
  | cons ty tys ih =>
    have hty := htys ty List.mem_cons_self
    have hrest : ∀ a ∈ tys, p.Known st now a := fun a ha => htys a (List.mem_cons_of_mem ty ha)
    refine .get_bind ?_ fun _ later hlater => ?_
    · split
      · next hchecked =>
        have hhandled :
            Ensures p.Substitutes repeats now (p.isHandledUpTo n ty top) fun _ _ => True :=
          ⟨evolving_isHandledWithin ty top _ n now, trivial,
            fun h later => (hconsistent h).handled hnow hty⟩
        refine .bind hhandled fun handled next hnext _ => ?_
        have hreach := hnow.trans hnext
        have hfound' := hfound.persists hst hnow hnext
        have hty' := hty.persists hnext
        have hrest' : ∀ a ∈ tys, p.Known st next a := fun a ha => (hrest a ha).persists hnext
        split
        · exact ih hreach hfound' hrest'
        · have hchecked' : p.isChecked next ty = true := by
            rw [hst.isChecked_eq hnow hnext hty]
            exact hchecked
          refine .get_bind (ih hreach (hfound'.insert hty' hchecked') hrest') fun _ later hlater => ?_
          rw [(hst.agreeOn hreach hlater).insert hfound'.antichain.inside hty']
      · exact ih hnow hfound hrest
    · rw [hst.isChecked_eq hnow hlater hty]

theorem ensures_remaining (n top : NodeRef) {m : StateM σ ThrowSet}
    (hm : p.Delivers st repeats now m) :
    Ensures p.Substitutes repeats now (m >>= fun set => p.remaining n set top)
      (p.Reportable st) := by
  refine .bind hm fun set next hnext hset => ?_
  exact ensures_collectRemaining hst hconsistent (hnow.trans hnext) n top reportable_empty
    hset.inside

theorem ensures_unhandledClosing (n top : NodeRef) :
    Ensures p.Substitutes repeats now (p.unhandledClosing n top) (p.Reportable st) :=
  ensures_remaining hst hconsistent hnow n top
    (delivers_closingThrows hst (fun h => (hconsistent h).toRepeatsAnswers) hnow n)

theorem ensures_unhandledItself (n top : NodeRef) :
    Ensures p.Substitutes repeats now (p.unhandledItself n top) (p.Reportable st) :=
  ensures_remaining hst hconsistent hnow n top
    (delivers_ownThrows hst (fun h => (hconsistent h).toRepeatsAnswers) hnow n)

theorem ensures_unhandled (n top : NodeRef) :
    Ensures p.Substitutes repeats now (p.unhandled n top) (p.Reportable st) := by
  have hrepeats : repeats → p.RepeatsAnswers st := fun h => (hconsistent h).toRepeatsAnswers
  unfold unhandled
  split
  · exact ensures_remaining hst hconsistent hnow n top
      (delivers_throwsOfReference hst hrepeats hnow n)
  · exact ensures_remaining hst hconsistent hnow n top (delivers_thrownWithin hst hrepeats hnow _ n)

theorem ensures_sitesAt (top n : NodeRef) :
    Ensures p.Substitutes repeats now (p.sitesAt top n) fun later sites =>
      ∀ site ∈ sites, p.Reportable st later site.exceptions := by
  have hsiteOf : ∀ byClosing later (set : ThrowSet), p.Reportable st later set →
      ∀ site ∈ siteOf n byClosing set, p.Reportable st later site.exceptions := by
    intro byClosing later set hset site hsite
    unfold siteOf at hsite
    split at hsite
    · exact absurd hsite List.not_mem_nil
    · rw [List.mem_singleton.mp hsite]
      exact hset
  have hpart : ∀ (asked byClosing : Bool) (m : StateM σ ThrowSet) mid,
      Ensures p.Substitutes repeats mid m (p.Reportable st) →
      Ensures p.Substitutes repeats mid (if asked then siteOf n byClosing <$> m else pure [])
        fun later sites => ∀ site ∈ sites, p.Reportable st later site.exceptions := by
    intro asked byClosing m mid hm
    split
    · exact .map hm fun later set _ => hsiteOf byClosing later set
    · exact .pure fun site hsite => absurd hsite List.not_mem_nil
  rw [sitesAt_eq]
  refine .bind (hpart _ _ _ now (ensures_unhandledClosing hst hconsistent hnow n top))
    fun closing mid hmid hclosing => ?_
  have hreach := hnow.trans hmid
  refine .bind (hpart _ _ _ mid (ensures_unhandledItself hst hconsistent hreach n top))
    fun own last hmore hown => .pure fun site hsite => ?_
  rcases List.mem_append.mp hsite with hsite | hsite
  · exact (hclosing site hsite).persists hst hreach hmore
  · exact hown site hsite

theorem ensures_allSites (root top : NodeRef) :
    Ensures p.Substitutes repeats now (p.sites root top) fun later sites =>
      ∀ site ∈ sites, p.Reportable st later site.exceptions := by
  have hfound : Ensures p.Substitutes repeats now
      ((p.tree.preorder root).mapM fun n => p.sitesAt top (some n)) fun later found =>
        ∀ sites ∈ found, ∀ site ∈ sites, p.Reportable st later site.exceptions := by
    refine .mapM ?_ fun n _ mid hmid =>
      ensures_sitesAt hst hconsistent (hnow.trans hmid) top (some n)
    intro mid later sites hmid hlater hsites site hsite
    exact (hsites site hsite).persists hst (hnow.trans hmid) hlater
  refine .bind hfound fun found last _ hsites => .pure fun site hsite => ?_
  obtain ⟨sites, hmem, hsite⟩ := List.mem_flatten.mp hsite
  exact hsites sites hmem site hsite

end KeepsSubtyping

end Program

end CheckedExceptions
