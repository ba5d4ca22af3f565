import CheckedExceptions.Proofs.Involved
import CheckedExceptions.Proofs.Limits

/-! Which exceptions leave a node, said of one exception at a time: it arises at the node, or it
rises from an operand and nothing stops it. The walk through the tree finds just these. -/

namespace CheckedExceptions

namespace Program

variable {σ : Type}

/-- An exception that comes from `m` goes no further than `n`, the node above. -/
def stops (p : Program σ) (st : σ) (n m : NodeRef) (ty : TypeRef) : Bool :=
  match p.tree.payload? n with
  | some (.trying parts) => p.stopsInTry st parts m ty
  | _ => false

/-- The exception leaves the node. To close a resource belongs to the resource. -/
inductive Leaves (p : Program σ) (st : σ) : NodeRef → TypeRef → Prop
  | thrown {n ty} : p.isThrower n = true → p.isMethodRef n = false →
    ty ∈ (p.ownThrows n st).1.members → Leaves p st n ty
  | closing {n ty} : p.isClosed n = true → ty ∈ (p.closingThrows n st).1.members → Leaves p st n ty
  | rising {n m ty} : m ∈ p.tree.operands n → Leaves p st (some m) ty →
    p.stops st n (some m) ty = false → Leaves p st n ty

def Rises (p : Program σ) (st : σ) (n : NodeRef) (ty : TypeRef) : Prop :=
  ∃ m ∈ p.tree.operands n, p.Leaves st (some m) ty ∧ p.stops st n (some m) ty = false

/-- The exception leaves the node when it runs. That a bare resource is closed is left to the try
statement. -/
def Emits (p : Program σ) (st : σ) (n : NodeRef) (ty : TypeRef) : Prop :=
  (p.isThrower n = true ∧ p.isMethodRef n = false ∧ ty ∈ (p.ownThrows n st).1.members) ∨
  (p.isClosed n = true ∧ p.isBareResource n = false ∧ ty ∈ (p.closingThrows n st).1.members) ∨
  p.Rises st n ty

variable {p : Program σ} {st : σ} {n : NodeRef} {payload : Payload} {parts : TryParts}
  {ty : TypeRef}

theorem leaves_iff : p.Leaves st n ty ↔ p.Emits st n ty ∨
    p.isClosed n = true ∧ p.isBareResource n = true ∧ ty ∈ (p.closingThrows n st).1.members := by
  constructor
  · intro h
    cases h with
    | thrown hthrower href hown => exact Or.inl (Or.inl ⟨hthrower, href, hown⟩)
    | closing hclosed hmem =>
      cases hbare : p.isBareResource n with
      | false => exact Or.inl (Or.inr (Or.inl ⟨hclosed, hbare, hmem⟩))
      | true => exact Or.inr ⟨hclosed, rfl, hmem⟩
    | rising hm hleaves hstops => exact Or.inl (Or.inr (Or.inr ⟨_, hm, hleaves, hstops⟩))
  · rintro ((⟨hthrower, href, hown⟩ | ⟨hclosed, -, hmem⟩ | ⟨m, hm, hleaves, hstops⟩) |
      ⟨hclosed, -, hmem⟩)
    · exact .thrown hthrower href hown
    · exact .closing hclosed hmem
    · exact .rising hm hleaves hstops
    · exact .closing hclosed hmem

theorem leaves_iff_emits (h : p.isBareResource n = false) : p.Leaves st n ty ↔ p.Emits st n ty := by
  rw [leaves_iff, h]
  simp

theorem Leaves.involved (hst : p.Complete st) (h : p.Leaves st n ty) : p.Involved st ty := by
  induction h with
  | thrown _ _ hown => exact (hst.yields_ownThrows _).2.inside _ hown
  | closing _ hmem => exact (hst.yields_closingThrows _).2.inside _ hmem
  | rising _ _ _ ih => exact ih

theorem Leaves.exists_payload (h : p.Leaves st n ty) :
    ∃ payload, p.tree.payload? n = some payload := by
  cases hpayload : p.tree.payload? n with
  | some payload => exact ⟨payload, rfl⟩
  | none =>
    cases h with
    | thrown hthrower => simp [isThrower, hpayload] at hthrower
    | closing hclosed => simp [isClosed, hpayload] at hclosed
    | rising hm => simp [SyntaxTree.operands, hpayload] at hm

theorem not_leaves_none : ¬p.Leaves st none ty := by
  intro h
  obtain ⟨_, hpayload⟩ := h.exists_payload
  cases hpayload

theorem isBareResource_eq_false (hwf : p.tree.WellFormed) {m : NodeRef}
    (hpayload : p.tree.payload? n = some payload)
    (hlist : ∀ resources, payload ≠ .resourceList resources) (hm : m ∈ payload.slots) :
    p.isBareResource m = false := by
  have hparent : ∀ resources,
      p.tree.payload? (p.tree.parent m) ≠ some (.resourceList resources) := by
    intro resources hresources
    obtain ⟨parent, hparent⟩ := SyntaxTree.eq_some_of_payload? hresources
    cases m with
    | none => cases hparent
    | some k =>
      have hnode : ∃ payload, p.tree.payload? (some k) = some payload := by
        obtain ⟨node, hnode, -⟩ := Option.bind_eq_some_iff.mp hparent
        exact ⟨node.payload, by simp only [SyntaxTree.payload?, hnode]; rfl⟩
      obtain ⟨inner, hinner⟩ := hnode
      have hlisted : k ∈ p.tree.children n := by
        rw [SyntaxTree.children_eq hpayload]
        exact Payload.mem_children.mpr hm
      rw [hwf.parent_eq hlisted hinner, hpayload] at hresources
      exact hlist resources (Option.some.inj hresources)
  unfold isBareResource
  split
  · next resources hresources => exact absurd hresources (hparent resources)
  · rfl

theorem rises_iff (hpayload : p.tree.payload? n = some payload)
    (htry : ∀ parts, payload ≠ .trying parts) :
    p.Rises st n ty ↔ ∃ m ∈ payload.operandSlots, p.Leaves st m ty := by
  have hstops : ∀ m, p.stops st n m ty = false := by
    intro m
    unfold stops
    split
    · next parts hparts =>
      rw [hpayload] at hparts
      exact absurd (Option.some.inj hparts) (htry parts)
    · rfl
  unfold Rises
  rw [SyntaxTree.operands_eq hpayload]
  constructor
  · rintro ⟨m, hm, hleaves, -⟩
    exact ⟨some m, Payload.mem_operands.mp hm, hleaves⟩
  · rintro ⟨m, hm, hleaves⟩
    obtain ⟨_, hinner⟩ := hleaves.exists_payload
    obtain ⟨k, rfl⟩ := SyntaxTree.eq_some_of_payload? hinner
    exact ⟨k, Payload.mem_operands.mpr hm, hleaves, hstops _⟩

theorem leaves_resources_iff (hwf : p.tree.WellFormed)
    (htry : p.tree.payload? n = some (.trying parts)) :
    p.Leaves st parts.resources ty ↔ ∃ m ∈ p.tree.tryResources parts, p.Leaves st m ty := by
  cases hpayload : p.tree.payload? parts.resources with
  | none =>
    constructor
    · intro h
      obtain ⟨_, hsome⟩ := h.exists_payload
      rw [hpayload] at hsome
      cases hsome
    · rintro ⟨m, hm, -⟩
      simp only [SyntaxTree.tryResources, hpayload] at hm
      exact absurd hm List.not_mem_nil
  | some payload =>
    obtain ⟨resources, rfl⟩ := hwf.resources n parts payload htry hpayload
    have hslot : parts.resources ∈ (Payload.trying parts).slots := List.mem_cons_self
    have hbare : p.isBareResource parts.resources = false :=
      isBareResource_eq_false hwf htry (fun _ => Payload.noConfusion) hslot
    have hrises := @rises_iff _ p st _ _ ty hpayload (fun _ => Payload.noConfusion)
    rw [leaves_iff_emits hbare]
    simp only [Emits, isThrower, isClosed, hpayload, hbare, hrises, SyntaxTree.tryResources]
    simp [Payload.operandSlots, Payload.slots]

section Try

variable (hwf : p.tree.WellFormed) (htry : p.tree.payload? n = some (.trying parts))
include hwf htry

theorem ne_body_and_ne_resources {m : NodeId} (hm : some m ∈ parts.clauses ++ [parts.cleanup]) :
    some m ≠ parts.body ∧ some m ≠ parts.resources := by
  have hdistinct := hwf.parts_distinct htry
  rw [List.pairwise_cons, List.pairwise_cons] at hdistinct
  obtain ⟨hresources, hbody, -⟩ := hdistinct
  constructor
  · intro heq
    exact hbody _ hm (by rw [← heq]; rfl) heq.symm
  · intro heq
    exact hresources _ (List.mem_cons_of_mem _ hm) (by rw [← heq]; rfl) heq.symm

theorem stopsInTry_clause {m : NodeId} (hm : some m ∈ parts.clauses) :
    p.stopsInTry st parts (some m) ty = p.discardsPending parts := by
  obtain ⟨hbody, hresources⟩ := ne_body_and_ne_resources hwf htry (List.mem_append_left _ hm)
  simp [stopsInTry, hbody, hresources, hm]

theorem stopsInTry_cleanup {m : NodeId} (hm : some m = parts.cleanup) :
    p.stopsInTry st parts (some m) ty = false := by
  obtain ⟨hbody, hresources⟩ :=
    ne_body_and_ne_resources hwf htry (List.mem_append_right _ (List.mem_singleton.mpr hm))
  have hdistinct := hwf.parts_distinct htry
  rw [List.pairwise_cons, List.pairwise_cons, List.pairwise_append] at hdistinct
  obtain ⟨-, -, -, -, hclauses⟩ := hdistinct
  have hclause : some m ∉ parts.clauses :=
    fun hmem => hclauses _ hmem _ (List.mem_singleton.mpr hm) rfl rfl
  simp [stopsInTry, hbody, hresources, hclause]

/-- What leaves a try statement: exceptions of its resources and its block that no clause catches,
exceptions of its clauses, both unless the `finally` block discards them, and exceptions of that. -/
theorem rises_try_iff : p.Rises st n ty ↔
    (((∃ m ∈ p.tree.tryResources parts, p.Leaves st m ty) ∨ p.Leaves st parts.body ty) ∧
        p.catches st parts ty = false ∨ ∃ m ∈ parts.clauses, p.Leaves st m ty) ∧
      p.discardsPending parts = false ∨ p.Leaves st parts.cleanup ty := by
  have hstops : ∀ m, p.stops st n m ty = p.stopsInTry st parts m ty := by
    intro m
    simp only [stops, htry]
  have hbody : ∀ m : NodeId, (some m = parts.body ∨ some m = parts.resources) →
      p.stopsInTry st parts (some m) ty = (p.catches st parts ty || p.discardsPending parts) := by
    rintro m (hm | hm) <;> simp [stopsInTry, ← hm]
  have hoperand : ∀ m, m ∈ p.tree.operands n ↔ some m ∈ (Payload.trying parts).slots := by
    intro m
    rw [SyntaxTree.operands_eq htry, Payload.mem_operands]
    rfl
  rw [← leaves_resources_iff hwf htry]
  unfold Rises
  simp only [hstops, hoperand]
  constructor
  · rintro ⟨m, hm, hleaves, hpasses⟩
    simp only [Payload.slots, List.mem_cons, List.mem_append, List.not_mem_nil, or_false] at hm
    rcases hm with hm | hm | hm | hm
    · rw [hbody m (Or.inr hm), Bool.or_eq_false_iff] at hpasses
      exact Or.inl ⟨Or.inl ⟨Or.inl (hm ▸ hleaves), hpasses.1⟩, hpasses.2⟩
    · rw [hbody m (Or.inl hm), Bool.or_eq_false_iff] at hpasses
      exact Or.inl ⟨Or.inl ⟨Or.inr (hm ▸ hleaves), hpasses.1⟩, hpasses.2⟩
    · rw [stopsInTry_clause hwf htry hm] at hpasses
      exact Or.inl ⟨Or.inr ⟨some m, hm, hleaves⟩, hpasses⟩
    · exact Or.inr (hm ▸ hleaves)
  · have hexists : ∀ m, p.Leaves st m ty → ∃ k, m = some k := by
      intro m hleaves
      obtain ⟨_, hinner⟩ := hleaves.exists_payload
      exact SyntaxTree.eq_some_of_payload? hinner
    rintro (⟨⟨hleaves | hleaves, hcatches⟩ | ⟨m, hm, hleaves⟩, hdiscards⟩ | hleaves)
    · obtain ⟨k, hk⟩ := hexists _ hleaves
      refine ⟨k, by simp [Payload.slots, hk], hk ▸ hleaves, ?_⟩
      rw [hbody k (Or.inr hk.symm), hcatches, hdiscards]
      rfl
    · obtain ⟨k, hk⟩ := hexists _ hleaves
      refine ⟨k, by simp [Payload.slots, hk], hk ▸ hleaves, ?_⟩
      rw [hbody k (Or.inl hk.symm), hcatches, hdiscards]
      rfl
    · obtain ⟨k, rfl⟩ := hexists _ hleaves
      refine ⟨k, by simp [Payload.slots, hm], hleaves, ?_⟩
      rw [stopsInTry_clause hwf htry hm, hdiscards]
    · obtain ⟨k, hk⟩ := hexists _ hleaves
      exact ⟨k, by simp [Payload.slots, hk], hk ▸ hleaves, stopsInTry_cleanup hwf htry hk.symm⟩

end Try

abbrev Finds (p : Program σ) (st : σ) (P : TypeRef → Prop) (s : ThrowSet) : Prop :=
  s.Represents (p.types.isSubtype st) (p.Involved st) P

theorem finds_nothing (h : p.tree.payload? n = none) : p.Finds st (p.Emits st n) .empty := by
  refine ThrowSet.represents_empty.congr fun ty => ⟨False.elim, fun hemits => ?_⟩
  obtain ⟨payload, hpayload⟩ := (leaves_iff.mpr (Or.inl hemits)).exists_payload
  rw [h] at hpayload
  cases hpayload

theorem catches_eq_false_iff : p.catches st parts ty = false ↔
    ∀ handler ∈ parts.clauses.flatMap (p.caughtTypes st),
      p.types.isSubtype st ty handler = false := by
  simp only [catches, List.any_eq_false, List.mem_flatMap, Bool.not_eq_true]
  constructor
  · rintro h handler ⟨clause, hclause, hhandler⟩
    exact h clause hclause handler hhandler
  · intro h clause hclause handler hhandler
    exact h handler ⟨clause, hclause, hhandler⟩

section Finding

variable {P Q : TypeRef → Prop} {s t : ThrowSet} {below : NodeRef → StateM σ ThrowSet}
  (hord : ThrowSet.OrderedOn (p.types.isSubtype st) (p.Involved st))
include hord

theorem finds_members {m : StateM σ ThrowSet} (hm : Yields st m (p.InvolvedAntichain st)) :
    Yields st m (p.Finds st (· ∈ (m st).1.members)) :=
  ⟨hm.1, hord.represents_members hm.2⟩

theorem finds_leavingTry (hwf : p.tree.WellFormed) (htry : p.tree.payload? n = some (.trying parts))
    (hresources : ∀ m ∈ p.tree.tryResources parts,
      Yields st (p.resourceThrows below m) (p.Finds st (p.Leaves st m)))
    (hparts : ∀ m ∈ parts.body :: (parts.clauses ++ [parts.cleanup]),
      Yields st (below m) (p.Finds st (p.Leaves st m))) :
    Yields st (p.leavingTry below parts) (p.Finds st (p.Rises st n)) := by
  have hbody : Yields st (p.bodyThrows below parts) (p.Finds st fun ty =>
      (∃ m ∈ p.tree.tryResources parts, p.Leaves st m ty) ∨ p.Leaves st parts.body ty) := by
    refine .bind (finds_uniteAll hord ThrowSet.represents_empty hresources) fun resources hset => ?_
    refine (finds_uniteAll hord hset (R := p.Leaves st) fun m hm => hparts m ?_).mono fun s hs => ?_
    · exact List.mem_singleton.mp hm ▸ List.mem_cons_self
    · exact hs.congr fun ty => by simp
  refine .bind hbody fun body hbody => .bind .get fun _ hget => ?_
  subst hget
  have huncaught : p.Finds st (fun ty =>
      ((∃ m ∈ p.tree.tryResources parts, p.Leaves st m ty) ∨ p.Leaves st parts.body ty) ∧
        p.catches st parts ty = false) (p.uncaught st parts body) := by
    refine (hord.represents_foldl_removeCovered hbody fun handler hhandler => ?_).congr fun ty => ?_
    · obtain ⟨clause, -, hcaught⟩ := List.mem_flatMap.mp hhandler
      exact involved_of_mem_caughtTypes hcaught
    · rw [catches_eq_false_iff]
  refine .bind (finds_uniteAll hord huncaught (R := p.Leaves st) fun m hm => hparts m ?_)
    fun pending hpending => ?_
  · exact List.mem_cons_of_mem _ (List.mem_append_left _ hm)
  have hcleanup := hparts parts.cleanup (by simp)
  split
  · next hnone =>
    have hdiscards : p.discardsPending parts = false := by
      rw [discardsPending, hnone]
      rfl
    refine .pure (hpending.congr fun ty => ?_)
    rw [rises_try_iff hwf htry, hdiscards, hnone, iff_false_intro not_leaves_none]
    simp
  · next block hblock =>
    rw [hblock] at hcleanup
    refine .bind hcleanup fun final hfinal => ?_
    split
    · next hcompletes =>
      have hdiscards : p.discardsPending parts = false := by
        rw [discardsPending, hblock, hcompletes]
        rfl
      refine (finds_unite hord hpending hfinal).mono fun s hs => hs.congr fun ty => ?_
      rw [rises_try_iff hwf htry, hdiscards, hblock]
      simp
    · next hcompletes =>
      have hdiscards : p.discardsPending parts = true := by
        rw [discardsPending, hblock, Bool.eq_false_iff.mpr hcompletes]
        rfl
      refine .pure (hfinal.congr fun ty => ?_)
      rw [rises_try_iff hwf htry, hdiscards, hblock]
      simp

end Finding

theorem emits_iff_rises (hthrower : p.isThrower n = true → p.isMethodRef n = true)
    (hclosed : p.isClosed n = true → p.isBareResource n = true) :
    p.Emits st n ty ↔ p.Rises st n ty := by
  constructor
  · rintro (⟨hthrows, href, -⟩ | ⟨hcloses, hbare, -⟩ | hrises)
    · rw [hthrower hthrows] at href
      cases href
    · rw [hclosed hcloses] at hbare
      cases hbare
    · exact hrises
  · exact fun hrises => Or.inr (Or.inr hrises)

theorem emits_iff_own_or_rises (hthrower : p.isThrower n = true) (href : p.isMethodRef n = false)
    (hclosed : p.isClosed n = true → p.isBareResource n = true) :
    p.Emits st n ty ↔ ty ∈ (p.ownThrows n st).1.members ∨ p.Rises st n ty := by
  constructor
  · rintro (⟨-, -, hown⟩ | ⟨hcloses, hbare, -⟩ | hrises)
    · exact Or.inl hown
    · rw [hclosed hcloses] at hbare
      cases hbare
    · exact Or.inr hrises
  · rintro (hown | hrises)
    · exact Or.inl ⟨hthrower, href, hown⟩
    · exact Or.inr (Or.inr hrises)

section Step

variable {depth : Nat} (hord : ThrowSet.OrderedOn (p.types.isSubtype st) (p.Involved st))
  (hst : p.Complete st) (hwf : p.tree.WellFormed)
  (ih : ∀ m ∈ p.asked n, (∀ resources, p.tree.payload? m ≠ some (.resourceList resources)) →
    Yields st (p.thrownWithin depth m) (p.Finds st (p.Emits st m)))
include hwf ih

theorem finds_slot (hpayload : p.tree.payload? n = some payload)
    (hlist : ∀ resources, payload ≠ .resourceList resources) {m : NodeRef} (hm : m ∈ payload.slots)
    (hresources : ∀ parts, payload = .trying parts → m.isSome = true → parts.resources ≠ m)
    (hasked : m ∈ p.asked n) :
    Yields st (p.thrownWithin depth m) (p.Finds st (p.Leaves st m)) := by
  have hplain : ∀ resources, p.tree.payload? m ≠ some (.resourceList resources) := by
    intro resources hinner
    obtain ⟨k, rfl⟩ := SyntaxTree.eq_some_of_payload? hinner
    have hlisted : k ∈ p.tree.children n := by
      rw [SyntaxTree.children_eq hpayload]
      exact Payload.mem_children.mpr hm
    obtain ⟨parts, htry, heq⟩ := hwf.resourceList n k resources hlisted hinner
    rw [hpayload] at htry
    exact hresources parts (Option.some.inj htry) rfl heq
  have hbare : p.isBareResource m = false := isBareResource_eq_false hwf hpayload hlist hm
  exact (ih m hasked hplain).mono fun s hs => hs.congr fun ty => (leaves_iff_emits hbare).symm

include hord hst in
/-- A resource that declares no variable is closed by the try statement. -/
theorem finds_resource (htry : p.tree.payload? n = some (.trying parts)) {m : NodeRef}
    (hm : m ∈ p.tree.tryResources parts) :
    Yields st (p.resourceThrows (p.thrownWithin depth) m) (p.Finds st (p.Leaves st m)) := by
  obtain ⟨resources, hlist, hmem⟩ : ∃ resources,
      p.tree.payload? parts.resources = some (.resourceList resources) ∧ m ∈ resources := by
    unfold SyntaxTree.tryResources at hm
    split at hm
    · next resources hlist => exact ⟨resources, hlist, hm⟩
    · exact absurd hm List.not_mem_nil
  have hasked : m ∈ p.asked n := by
    simp only [asked, htry]
    exact List.mem_append_left _ hm
  unfold resourceThrows
  split
  · next hpayload =>
    have hbare : p.isBareResource m = false := by simp [isBareResource, hpayload]
    refine (ih m hasked fun _ => ?_).mono fun s hs =>
      hs.congr fun ty => (leaves_iff_emits hbare).symm
    rw [hpayload]
    exact fun heq => Payload.noConfusion (Option.some.inj heq)
  · next payload hvariable hpayload =>
    obtain ⟨k, rfl⟩ := SyntaxTree.eq_some_of_payload? hpayload
    have hlisted : k ∈ p.tree.children parts.resources := by
      rw [SyntaxTree.children_eq hlist]
      exact Payload.mem_children.mpr hmem
    have hplain : ∀ inner, p.tree.payload? (some k) ≠ some (.resourceList inner) := by
      intro inner hinner
      obtain ⟨_, htrying, -⟩ := hwf.resourceList _ k inner hlisted hinner
      rw [hlist] at htrying
      cases htrying
    have hbare : p.isBareResource (some k) = true := by
      have hparent : p.tree.payload? (p.tree.parent (some k)) = some (.resourceList resources) := by
        rw [hwf.parent_eq hlisted hpayload, hlist]
      simp only [isBareResource, hparent, hpayload, Bool.true_and]
      split
      · next heq => exact absurd (Option.some.inj heq) (hvariable _ _ _)
      · rfl
    have hclosed : p.isClosed (some k) = true := by
      simp only [isClosed, hpayload]
      exact hbare
    refine .bind (finds_members hord (hst.yields_closingThrows (some k))) fun closing hclosing => ?_
    refine .bind (ih (some k) hasked hplain) fun producing hproducing => ?_
    refine (finds_unite hord hclosing hproducing).mono fun s hs => hs.congr fun ty => ?_
    rw [leaves_iff, hclosed, hbare, or_comm]
    simp
  · next hnone =>
    refine .pure (ThrowSet.represents_empty.congr fun ty => ⟨False.elim, fun h => ?_⟩)
    obtain ⟨_, hsome⟩ := h.exists_payload
    rw [hnone] at hsome
    cases hsome

section Operands

variable (hpayload : p.tree.payload? n = some payload)
  (hlist : ∀ resources, payload ≠ .resourceList resources) (htry : ∀ parts, payload ≠ .trying parts)
include hpayload hlist htry

theorem finds_operand {m : NodeRef} (hm : m ∈ payload.operandSlots) :
    Yields st (p.thrownWithin depth m) (p.Finds st (p.Leaves st m)) := by
  refine finds_slot hwf ih hpayload hlist (payload.operandSlots_subset hm)
    (fun parts heq => absurd heq (htry parts)) ?_
  simp only [asked, hpayload]
  split
  · next heq =>
    obtain rfl := Option.some.inj heq
    exact List.mem_append_right _ hm
  · next parts heq => exact absurd (Option.some.inj heq) (htry parts)
  · next heq => exact Option.some.inj heq ▸ hm
  · next heq => cases heq

include hord

theorem finds_uniteAll_operands {P : TypeRef → Prop} {s : ThrowSet} (hs : p.Finds st P s) :
    Yields st (p.uniteAll (p.thrownWithin depth) s payload.operandSlots)
      (p.Finds st fun ty => P ty ∨ p.Rises st n ty) := by
  refine (finds_uniteAll hord hs (R := p.Leaves st) fun m hm => ?_).mono fun s hs => ?_
  · exact finds_operand hwf ih hpayload hlist htry hm
  · exact hs.congr fun ty => by rw [rises_iff hpayload htry]

theorem finds_thrownByChildren (hoperands : payload.operandSlots = payload.slots) :
    Yields st (p.thrownByChildren (p.thrownWithin depth) n) (p.Finds st (p.Rises st n)) := by
  have hmem : ∀ m, m ∈ p.tree.children n ↔ some m ∈ payload.operandSlots := by
    intro m
    rw [SyntaxTree.children_eq hpayload, hoperands, Payload.mem_children]
  refine (finds_uniteAll hord ThrowSet.represents_empty (R := p.Leaves st) ?_).mono ?_
  · intro m hm
    obtain ⟨k, hk, rfl⟩ := List.mem_map.mp hm
    exact finds_operand hwf ih hpayload hlist htry ((hmem k).mp hk)
  · refine fun s hs => hs.congr fun ty => ?_
    rw [rises_iff hpayload htry, false_or]
    constructor
    · rintro ⟨m, hm, hleaves⟩
      obtain ⟨k, hk, rfl⟩ := List.mem_map.mp hm
      exact ⟨some k, (hmem k).mp hk, hleaves⟩
    · rintro ⟨m, hm, hleaves⟩
      obtain ⟨_, hinner⟩ := hleaves.exists_payload
      obtain ⟨k, rfl⟩ := SyntaxTree.eq_some_of_payload? hinner
      exact ⟨some k, List.mem_map_of_mem ((hmem k).mpr hm), hleaves⟩

end Operands

include hord hst in
/-- One level of the walk, one case for each kind of construct. -/
theorem finds_thrownStep (hdepth : depth ≤ p.options.maxTreeDepth) (hfits : p.Fits (depth + 1) n)
    (hlist : ∀ resources, p.tree.payload? n ≠ some (.resourceList resources)) :
    Yields st (p.thrownStep (p.thrownWithin depth) n) (p.Finds st (p.Emits st n)) := by
  cases hpayload : p.tree.payload? n with
  | none =>
    simp only [thrownStep, hpayload]
    exact .pure (finds_nothing hpayload)
  | some payload =>
    have hnolist : ∀ resources, payload ≠ .resourceList resources := by
      rintro resources rfl
      exact hlist resources hpayload
    cases payload with
    | classDecl name classType arguments members =>
      have hemits : ∀ ty, p.Emits st n ty ↔ p.Rises st n ty := fun ty =>
        emits_iff_rises (by simp [isThrower, hpayload]) (by simp [isClosed, hpayload])
      cases name with
      | none =>
        simp only [thrownStep, hpayload]
        refine (finds_uniteAll_operands hord hwf ih hpayload hnolist (by simp)
          ThrowSet.represents_empty).mono fun s hs => hs.congr fun ty => ?_
        rw [hemits, false_or]
      | some name =>
        simp only [thrownStep, hpayload]
        refine .pure (ThrowSet.represents_empty.congr fun ty => ?_)
        rw [hemits, rises_iff hpayload (by simp)]
        simp [Payload.operandSlots]
    | lambda | methodRef =>
      simp only [thrownStep, hpayload]
      refine .pure (ThrowSet.represents_empty.congr fun ty => ?_)
      rw [emits_iff_rises (by simp [isThrower, isMethodRef, hpayload])
        (by simp [isClosed, hpayload]), rises_iff hpayload (by simp)]
      simp [Payload.operandSlots]
    | throwing expression =>
      have hown : p.ownThrows n =
          p.raisedTypes (p.thrownWithin depth) expression >>= fun tys => p.setOf tys := by
        rw [hfits.raisedTypes_eq hpayload hdepth]
        simp only [ownThrows, hpayload]
      simp only [thrownStep, hpayload]
      rw [← bind_assoc, ← hown]
      refine .bind (finds_members hord (hst.yields_ownThrows n)) fun own hset => ?_
      refine (finds_uniteAll_operands hord hwf ih hpayload hnolist (by simp) hset).mono
        fun s hs => hs.congr fun ty => ?_
      rw [emits_iff_own_or_rises (by simp [isThrower, hpayload]) (by simp [isMethodRef, hpayload])
        (by simp [isClosed, hpayload])]
    | trying parts =>
      have hdistinct := (List.pairwise_cons.mp (hwf.parts_distinct hpayload)).1
      simp only [thrownStep, hpayload]
      refine (finds_leavingTry hord hwf hpayload ?_ ?_).mono fun s hs => hs.congr fun ty => ?_
      · exact fun m hm => finds_resource hord hst hwf ih hpayload hm
      · intro m hm
        refine finds_slot hwf ih hpayload hnolist (List.mem_cons_of_mem _ hm) ?_ ?_
        · rintro _ ⟨⟩ hsome heq
          exact hdistinct m hm (heq ▸ hsome) heq
        · simp only [asked, hpayload]
          exact List.mem_append_right _ hm
      · exact (emits_iff_rises (by simp [isThrower, hpayload]) (by simp [isClosed, hpayload])).symm
    | resourceVariable name declaredType value =>
      simp only [thrownStep, hpayload]
      refine .bind (finds_members hord (hst.yields_closingThrows n)) fun closing hclosing => ?_
      refine (finds_uniteAll_operands hord hwf ih hpayload hnolist (by simp) hclosing).mono
        fun s hs => hs.congr fun ty => ?_
      simp [Emits, isThrower, isClosed, isBareResource, hpayload]
    | call | creation =>
      simp only [thrownStep, hpayload]
      have hown : p.ownThrows n = p.invocationThrows n := by simp only [ownThrows, hpayload]
      refine .bind (finds_members hord (hst.yields_invocationThrows n)) fun own hset => ?_
      refine .bind (finds_thrownByChildren hord hwf ih hpayload hnolist (by simp) rfl)
        fun operands hoperands => ?_
      refine (finds_unite hord hset hoperands).mono fun s hs => hs.congr fun ty => ?_
      rw [emits_iff_own_or_rises (by simp [isThrower, hpayload]) (by simp [isMethodRef, hpayload])
        (by simp [isClosed, hpayload]), hown]
    | _ =>
      simp only [thrownStep, hpayload]
      refine (finds_thrownByChildren hord hwf ih hpayload hnolist (by simp) rfl).mono
        fun s hs => hs.congr fun ty => ?_
      exact (emits_iff_rises (by simp [isThrower, hpayload]) (by simp [isClosed, hpayload])).symm

end Step

/-- The walk from a node finds what leaves it. -/
theorem finds_thrownWithin (hord : ThrowSet.OrderedOn (p.types.isSubtype st) (p.Involved st))
    (hst : p.Complete st) (hwf : p.tree.WellFormed) {depth : Nat}
    (hdepth : depth ≤ p.options.maxTreeDepth + 1) (hfits : p.Fits depth n)
    (hlist : ∀ resources, p.tree.payload? n ≠ some (.resourceList resources)) :
    Yields st (p.thrownWithin depth n) (p.Finds st (p.Emits st n)) := by
  induction depth generalizing n with
  | zero =>
    have hnone : p.tree.payload? n = none := hfits
    exact .pure (finds_nothing hnone)
  | succ depth ih =>
    refine finds_thrownStep hord hst hwf (fun m hm hplain => ?_) (Nat.le_of_succ_le_succ hdepth)
      hfits hlist
    exact ih (Nat.le_of_succ_le hdepth) (hfits m hm) hplain

end Program

end CheckedExceptions
