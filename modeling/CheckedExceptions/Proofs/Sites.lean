import CheckedExceptions.Proofs.Involved

/-! What is left unhandled of a set, and at which sites, when the state is complete. -/

namespace CheckedExceptions

namespace Program

variable {σ : Type} {p : Program σ} {st : σ} {n top : NodeRef} {set : ThrowSet} {ty : TypeRef}

namespace Complete

theorem isHandledUpTo_snd (hst : p.Complete st) (n : NodeRef) (ty : TypeRef) (top : NodeRef) :
    (p.isHandledUpTo n ty top st).2 = st :=
  hst.eq_of_evolves (evolving_isHandledWithin ty top _ n st)

theorem collectRemaining_fst (hst : p.Complete st) (tys : List TypeRef) (found : ThrowSet) :
    (p.collectRemaining n top found tys st).1 = found.insertAll (p.types.isSubtype st)
      (tys.filter fun ty => p.isChecked st ty && !(p.isHandledUpTo n ty top st).1) := by
  induction tys generalizing found with
  | nil => rfl
  | cons ty tys ih =>
    have hstate := hst.isHandledUpTo_snd n ty top
    show ((if p.isChecked st ty then _ else _ : StateM σ ThrowSet) st).1 = _
    cases hchecked : p.isChecked st ty with
    | false =>
      rw [List.filter_cons_of_neg (by simp [hchecked])]
      exact ih found
    | true =>
      rw [if_pos rfl]
      show ((if (p.isHandledUpTo n ty top st).1 then _ else _ : StateM σ ThrowSet)
        (p.isHandledUpTo n ty top st).2).1 = _
      rw [hstate]
      cases hhandled : (p.isHandledUpTo n ty top st).1 with
      | true =>
        rw [List.filter_cons_of_neg (by simp [hhandled])]
        exact ih found
      | false =>
        rw [List.filter_cons_of_pos (by simp [hchecked, hhandled])]
        exact ih (found.insert (p.types.isSubtype st) ty)

theorem bind_remaining_fst (hst : p.Complete st) {m : StateM σ ThrowSet}
    (hm : Yields st m (p.InvolvedAntichain st)) :
    ((m >>= fun set => p.remaining n set top) st).1 =
      (m st).1.filter fun ty => p.isChecked st ty && !(p.isHandledUpTo n ty top st).1 := by
  have hfilter := hm.2.filter fun ty => p.isChecked st ty && !(p.isHandledUpTo n ty top st).1
  show (p.remaining n (m st).1 top (m st).2).1 = _
  rw [hm.1]
  exact (hst.collectRemaining_fst (m st).1.members .empty).trans hfilter.ofList_members

theorem mem_bind_remaining_iff (hst : p.Complete st) {m : StateM σ ThrowSet}
    (hm : Yields st m (p.InvolvedAntichain st)) :
    ty ∈ ((m >>= fun set => p.remaining n set top) st).1.members ↔ ty ∈ (m st).1.members ∧
      p.isChecked st ty = true ∧ (p.isHandledUpTo n ty top st).1 = false := by
  rw [hst.bind_remaining_fst hm]
  simp [ThrowSet.filter]

end Complete

/-- The exception arises at the node itself, by its construct or by closing it. -/
def Arises (p : Program σ) (st : σ) (n : NodeRef) (ty : TypeRef) : Prop :=
  (p.isThrower n = true ∧ ty ∈ (p.ownThrows n st).1.members) ∨
  (p.isClosed n = true ∧ ty ∈ (p.closingThrows n st).1.members)

theorem Arises.exists_payload (h : p.Arises st n ty) :
    ∃ payload, p.tree.payload? n = some payload := by
  cases hpayload : p.tree.payload? n with
  | some payload => exact ⟨payload, rfl⟩
  | none =>
    rcases h with ⟨hthrower, -⟩ | ⟨hclosed, -⟩
    · simp [isThrower, hpayload] at hthrower
    · simp [isClosed, hpayload] at hclosed

theorem exists_mem_siteOf_iff {byClosing : Bool} :
    (∃ site ∈ siteOf n byClosing set, ty ∈ site.exceptions.members) ↔ ty ∈ set.members := by
  unfold siteOf
  split
  · next hempty =>
    have hnil : set.members = [] := List.isEmpty_iff.mp hempty
    simp [hnil]
  · simp

theorem node_of_mem_siteOf {byClosing : Bool} {site : Site} (h : site ∈ siteOf n byClosing set) :
    site.node = n := by
  unfold siteOf at h
  split at h
  · exact absurd h List.not_mem_nil
  · rw [List.mem_singleton.mp h]

namespace Complete

theorem unhandled_fst (hst : p.Complete st) : (p.unhandled n top st).1 =
    ((if p.isMethodRef n then p.referencedThrows n else p.thrown n) st).1.filter fun ty =>
      p.isChecked st ty && !(p.isHandledUpTo n ty top st).1 := by
  unfold unhandled
  split
  · exact hst.bind_remaining_fst
      (hst.yields_of_delivers (delivers_throwsOfReference hst.keepsSubtyping False.elim .refl n))
  · exact hst.bind_remaining_fst (hst.yields_thrownWithin _ n)

theorem mem_unhandled_iff (hst : p.Complete st) (href : p.isMethodRef n = false) :
    ty ∈ (p.unhandled n top st).1.members ↔ ty ∈ (p.thrown n st).1.members ∧
      p.isChecked st ty = true ∧ (p.isHandledUpTo n ty top st).1 = false := by
  unfold unhandled
  rw [href]
  exact hst.mem_bind_remaining_iff (hst.yields_thrownWithin _ n)

theorem sitesAt_fst (hst : p.Complete st) : (p.sitesAt top n st).1 =
    (if p.isClosed n then siteOf n true (p.unhandledClosing n top st).1 else []) ++
      (if p.isThrower n then siteOf n false (p.unhandledItself n top st).1 else []) := by
  have hclosing : (p.unhandledClosing n top st).2 = st :=
    hst.eq_of_evolves ((Moves.bind (evolving_closingThrows n) fun set =>
      evolving_remaining n set top) st)
  rw [sitesAt_eq]
  cases p.isClosed n with
  | false => cases p.isThrower n <;> rfl
  | true =>
    cases p.isThrower n with
    | false => rfl
    | true =>
      show siteOf n true (p.unhandledClosing n top st).1 ++
        siteOf n false (p.unhandledItself n top (p.unhandledClosing n top st).2).1 = _
      rw [hclosing]
      rfl

theorem node_of_mem_sitesAt (hst : p.Complete st) {site : Site}
    (h : site ∈ (p.sitesAt top n st).1) : site.node = n := by
  rw [hst.sitesAt_fst, List.mem_append] at h
  rcases h with h | h
  · split at h
    · exact node_of_mem_siteOf h
    · exact absurd h List.not_mem_nil
  · split at h
    · exact node_of_mem_siteOf h
    · exact absurd h List.not_mem_nil

/-- The sites at a node show what arises there and is handled nowhere above. -/
theorem exists_mem_sitesAt_iff (hst : p.Complete st) :
    (∃ site ∈ (p.sitesAt top n st).1, ty ∈ site.exceptions.members) ↔ p.Arises st n ty ∧
      p.isChecked st ty = true ∧ (p.isHandledUpTo n ty top st).1 = false := by
  have hclosing : (∃ site ∈ siteOf n true (p.unhandledClosing n top st).1,
      ty ∈ site.exceptions.members) ↔ _ :=
    exists_mem_siteOf_iff.trans (hst.mem_bind_remaining_iff (hst.yields_closingThrows n))
  have hown : (∃ site ∈ siteOf n false (p.unhandledItself n top st).1,
      ty ∈ site.exceptions.members) ↔ _ :=
    exists_mem_siteOf_iff.trans (hst.mem_bind_remaining_iff (hst.yields_ownThrows n))
  unfold Arises
  rw [hst.sitesAt_fst]
  simp only [List.mem_append, or_and_right, exists_or]
  cases p.isClosed n <;> cases p.isThrower n <;> simp [hclosing, hown, or_comm]

theorem mem_sites_iff (hst : p.Complete st) {site : Site} :
    site ∈ (p.sites n top st).1 ↔
      ∃ m ∈ p.tree.preorder n, site ∈ (p.sitesAt top (some m) st).1 := by
  have hsites : (p.sites n top st).1 =
      ((p.tree.preorder n).map fun m => (p.sitesAt top (some m) st).1).flatten :=
    congrArg (fun found => found.1.flatten) (mapM_of_unchanged fun m _ =>
      hst.eq_of_evolves (evolving_sitesAt top (some m) st))
  rw [hsites]
  simp

end Complete

end Program

end CheckedExceptions
