import CheckedExceptions.Proofs.Influence
import CheckedExceptions.Proofs.Limits

/-! In a tree in which catch parameters are rethrown inside their own clauses, the walk meets each
node at most once, and a limit above the number of nodes is no limit. -/

namespace CheckedExceptions

open Relation (ReflTransGen TransGen)

/-- A catch parameter that is rethrown is rethrown inside its own clause, and the clause is not the
block of the try statement. -/
def SyntaxTree.Scoped (t : SyntaxTree) : Prop :=
  ∀ m expression caught, t.payload? (some m) = some (.throwing expression) →
    t.rethrown? expression = some caught → ∃ clause, caught.clause = some clause ∧
      ReflTransGen t.Above clause m ∧ ∀ parts,
        t.payload? (t.parent (some clause)) = some (.trying parts) → parts.body ≠ some clause

def SyntaxTree.keepsRethrowInside (t : SyntaxTree) (m : NodeId) : Bool :=
  match t.payload? (some m) with
  | some (.throwing expression) =>
    (t.rethrown? expression).all fun caught => caught.clause.any fun clause =>
      (t.upwardWithin t.size (some m)).contains clause &&
        match t.payload? (t.parent (some clause)) with
        | some (.trying parts) => parts.body != some clause
        | _ => true
  | _ => true

theorem SyntaxTree.above_of_mem_upwardWithin {t : SyntaxTree} {steps : Nat} {m a : NodeId}
    (h : a ∈ t.upwardWithin steps (some m)) : ReflTransGen t.Above a m := by
  induction steps generalizing m with
  | zero => cases h
  | succ steps ih =>
    rcases List.mem_cons.mp h with rfl | hup
    · exact .refl
    · cases hparent : t.parent (some m) with
      | none =>
        rw [hparent] at hup
        cases steps <;> cases hup
      | some parent =>
        rw [hparent] at hup
        exact .tail (ih hup) hparent

theorem SyntaxTree.scoped_of_checks {t : SyntaxTree}
    (h : ∀ m < t.size, t.keepsRethrowInside m = true) : t.Scoped := by
  intro m expression caught hthrow hcaught
  have hm := h m (lt_size_of_payload? hthrow)
  simp only [keepsRethrowInside, hthrow, hcaught, Option.all_some, Option.any_eq_true,
    Bool.and_eq_true, List.contains_iff_mem] at hm
  obtain ⟨clause, hclause, hinside, hbody⟩ := hm
  refine ⟨clause, hclause, above_of_mem_upwardWithin hinside, fun parts hparts => ?_⟩
  rw [hparts] at hbody
  exact bne_iff_ne.mp hbody

namespace Program

variable {σ : Type} {p : Program σ} {m k : NodeId} {payload : Payload} {parts : TryParts}

def Asks (p : Program σ) (m k : NodeId) : Prop := some k ∈ p.asked (some m) ∧ k < p.tree.size

def Ends (p : Program σ) (m : NodeId) : Prop := Acc (fun k m => p.Asks m k) m

/-- For every try statement that has `m` inside one of its clauses, the walks that a rethrow can
start end. -/
def Cleared (p : Program σ) (m : NodeId) : Prop :=
  ∀ clause owner parts, p.tree.payload? (some owner) = some (.trying parts) →
    p.tree.Above owner clause → some clause ≠ parts.body → some clause ≠ parts.resources →
    ReflTransGen p.tree.Above clause m →
    ∀ source, some source ∈ p.tree.tryResources parts ++ [parts.body] → p.Ends source

theorem Asks.lt_size (h : p.Asks m k) : m < p.tree.size := by
  by_contra hsize
  have hnone : p.tree.payload? (some m) = none := by
    cases hpayload : p.tree.payload? (some m) with
    | none => rfl
    | some payload => exact absurd (SyntaxTree.lt_size_of_payload? hpayload) hsize
  have hasked := h.1
  rw [asked_of_payload?_eq_none hnone] at hasked
  exact absurd hasked List.not_mem_nil

theorem Cleared.below (hcleared : p.Cleared m) (habove : p.tree.Above m k)
    (htry : ∀ parts, p.tree.payload? (some m) = some (.trying parts) → some k ≠ parts.body →
      some k ≠ parts.resources →
      ∀ source, some source ∈ p.tree.tryResources parts ++ [parts.body] → p.Ends source) :
    p.Cleared k := by
  intro clause owner parts howner hclause hbody hresources hinside
  rcases hinside.cases_tail with rfl | ⟨parent, hinside, hparent⟩
  · obtain rfl : owner = m := Option.some.inj (hclause.symm.trans habove)
    exact htry parts howner hbody hresources
  · obtain rfl : parent = m := Option.some.inj (hparent.symm.trans habove)
    exact hcleared clause owner parts howner hclause hbody hresources hinside

section Scoped

variable (hwf : p.tree.WellFormed)
include hwf

theorem above_of_mem_slots (hpayload : p.tree.payload? (some m) = some payload)
    (hk : some k ∈ payload.slots) (hsize : k < p.tree.size) : p.tree.Above m k := by
  refine hwf.above_of_mem_children hsize ?_
  rw [SyntaxTree.children_eq hpayload]
  exact Payload.mem_children.mpr hk

theorem ends_of_source (htry : p.tree.payload? (some m) = some (.trying parts))
    (hcleared : p.Cleared m) (ih : ∀ k, p.tree.Above m k → p.Cleared k → p.Ends k) {source : NodeId}
    (hsource : some source ∈ p.tree.tryResources parts ++ [parts.body]) : p.Ends source := by
  by_cases hsize : source < p.tree.size
  · rcases List.mem_append.mp hsource with hresource | hbody
    · unfold SyntaxTree.tryResources at hresource
      split at hresource
      · next resources hlist =>
        obtain ⟨list, hslot⟩ := SyntaxTree.eq_some_of_payload? hlist
        have hlisted : some list ∈ (Payload.trying parts).slots := hslot ▸ List.mem_cons_self
        rw [hslot] at hlist
        have habove := above_of_mem_slots hwf htry hlisted (SyntaxTree.lt_size_of_payload? hlist)
        have hclearedlist : p.Cleared list := by
          apply hcleared.below habove
          intro parts' htry' _ hnot
          obtain rfl := Payload.trying.inj (Option.some.inj (htry.symm.trans htry'))
          exact absurd hslot.symm hnot
        refine (ih list habove hclearedlist).inv ⟨?_, hsize⟩
        simp only [asked, hlist]
        exact hresource
      · exact absurd hresource List.not_mem_nil
    · have hslot : some source = parts.body := List.mem_singleton.mp hbody
      have habove := above_of_mem_slots hwf htry
        (hslot ▸ List.mem_cons_of_mem _ List.mem_cons_self) hsize
      refine ih source habove (hcleared.below habove fun parts' htry' hnot => ?_)
      obtain rfl := Payload.trying.inj (Option.some.inj (htry.symm.trans htry'))
      exact absurd hslot hnot
  · exact Acc.intro source fun k hasks => absurd hasks.lt_size hsize

variable (hscoped : p.tree.Scoped)
include hscoped

theorem ends_of_rethrowSource {expression : NodeRef}
    (hthrow : p.tree.payload? (some m) = some (.throwing expression)) (hcleared : p.Cleared m)
    (hk : some k ∈ p.rethrowSources expression) : p.Ends k := by
  unfold rethrowSources at hk
  split at hk
  · next caught hcaught =>
    obtain ⟨clause, hclause, hinside, hbody⟩ := hscoped m expression caught hthrow hcaught
    rw [hclause] at hk
    split at hk
    · split at hk
      · next parts hparts =>
        obtain ⟨owner, howner⟩ := SyntaxTree.eq_some_of_payload? hparts
        have hnotbody := hbody parts hparts
        rw [howner] at hparts
        have hnotresources : some clause ≠ parts.resources := by
          intro heq
          obtain ⟨_, _, _, -, -, -, hcatch⟩ := SyntaxTree.rethrown?_eq_some hcaught
          unfold SyntaxTree.isCatch at hcatch
          split at hcatch
          · next hpayload =>
            rw [hclause, heq] at hpayload
            obtain ⟨_, hlist⟩ := hwf.resources _ parts _ hparts hpayload
            cases hlist
          · cases hcatch
        exact hcleared clause owner parts hparts howner (Ne.symm hnotbody) hnotresources hinside
          k hk
      · exact absurd hk List.not_mem_nil
    · exact absurd hk List.not_mem_nil
  · exact absurd hk List.not_mem_nil

/-- By induction down the tree. The clauses of a try statement come after its block. -/
theorem ends_of_cleared (hcleared : p.Cleared m) : p.Ends m := by
  have hdown : WellFounded fun k m => p.tree.Above m k :=
    wellFounded_of_acyclic hwf.acyclic fun _ _ habove => habove.lt_size
  induction m using hdown.induction with
  | _ m ih =>
    apply Acc.intro m
    intro k hasks
    obtain ⟨hk, hsize⟩ := hasks
    have hbelow : p.tree.Above m k → (∀ parts, p.tree.payload? (some m) ≠ some (.trying parts)) →
        p.Ends k := fun habove htry =>
      ih k habove (hcleared.below habove fun parts hparts => absurd hparts (htry parts))
    unfold asked at hk
    split at hk
    · next expression hthrow =>
      rcases List.mem_append.mp hk with hsource | hoperand
      · exact ends_of_rethrowSource hwf hscoped hthrow hcleared hsource
      · apply hbelow (above_of_mem_slots hwf hthrow hoperand hsize)
        intro parts htry
        rw [hthrow] at htry
        cases htry
    · next parts htry =>
      have hsources : ∀ source, some source ∈ p.tree.tryResources parts ++ [parts.body] →
          p.Ends source := fun source => ends_of_source hwf htry hcleared ih
      have hinner : some k ∈ p.tree.tryResources parts ++ [parts.body] ∨
          some k ∈ (Payload.trying parts).slots := by
        simp only [List.mem_append, List.mem_cons, Payload.slots] at hk ⊢
        rcases hk with hk | hk | hk
        · exact Or.inl (Or.inl hk)
        · exact Or.inr (Or.inr (Or.inl hk))
        · exact Or.inr (Or.inr (Or.inr hk))
      rcases hinner with hsource | hslot
      · exact hsources k hsource
      · have habove := above_of_mem_slots hwf htry hslot hsize
        refine ih k habove (hcleared.below habove fun parts' htry' _ _ => ?_)
        obtain rfl := Payload.trying.inj (Option.some.inj (htry.symm.trans htry'))
        exact hsources
    · next payload hthrow htry hpayload =>
      have hslot : some k ∈ payload.slots := payload.operandSlots_subset hk
      apply hbelow (above_of_mem_slots hwf hpayload hslot hsize)
      intro parts heq
      rw [hpayload] at heq
      exact htry parts (Option.some.inj heq)
    · exact absurd hk List.not_mem_nil

/-- By induction up the tree: a node inherits what holds of its parent. -/
theorem cleared (m : NodeId) : p.Cleared m := by
  have hup : WellFounded fun k m => p.tree.Above k m :=
    wellFounded_of_acyclic (fun n hn => hwf.acyclic n (Relation.transGen_swap.mp hn))
      fun _ _ habove => hwf.lt_size_of_above habove habove.lt_size
  induction m using hup.induction with
  | _ m ih =>
    cases hparent : p.tree.parent (some m) with
    | none =>
      intro clause owner parts _ hclause _ _ hinside
      rcases hinside.cases_tail with rfl | ⟨parent, -, habove⟩
      · exact absurd (hclause.symm.trans hparent) (by simp)
      · exact absurd (habove.symm.trans hparent) (by simp)
    | some parent =>
      apply (ih parent hparent).below hparent
      intro parts htry _ _ source hsource
      exact ends_of_source hwf htry (ih parent hparent)
        (fun k _ hk => ends_of_cleared hwf hscoped hk) hsource

theorem acyclic_asks (m : NodeId) : ¬TransGen p.Asks m m := by
  have hends : WellFounded fun k m => p.Asks m k :=
    ⟨fun m => ends_of_cleared hwf hscoped (cleared hwf hscoped m)⟩
  intro hcycle
  exact hends.transGen.irrefl.irrefl m (Relation.transGen_swap.mpr hcycle)

omit hwf hscoped in
/-- A walk that does not end within some levels goes through as many nodes after the first. -/
theorem exists_chain_of_not_fits {depth : Nat} (h : ¬p.Fits depth (some m)) :
    m < p.tree.size ∧ ∃ path, (m :: path).IsChain p.Asks ∧ path.length = depth ∧
      ∀ k ∈ path, k < p.tree.size := by
  induction depth generalizing m with
  | zero =>
    obtain ⟨payload, hpayload⟩ := Option.ne_none_iff_exists'.mp h
    exact ⟨SyntaxTree.lt_size_of_payload? hpayload, [], List.isChain_singleton m, rfl,
      fun k hk => absurd hk List.not_mem_nil⟩
  | succ depth ih =>
    obtain ⟨n, hasked, hnot⟩ : ∃ n ∈ p.asked (some m), ¬p.Fits depth n := by
      by_contra hall
      exact h fun n hn => by_contra fun hnot => hall ⟨n, hn, hnot⟩
    cases n with
    | none => exact absurd (fits_of_payload?_eq_none rfl depth) hnot
    | some k =>
      obtain ⟨hk, path, hchain, hlength, hbound⟩ := ih hnot
      have hasks : p.Asks m k := ⟨hasked, hk⟩
      exact ⟨hasks.lt_size, k :: path, List.isChain_cons_cons.mpr ⟨hasks, hchain⟩,
        by rw [List.length_cons, hlength], List.forall_mem_cons.mpr ⟨hk, hbound⟩⟩

theorem fits_of_size_le {depth : Nat} (hdepth : p.tree.size ≤ depth) (n : NodeRef) :
    p.Fits depth n := by
  cases n with
  | none => exact fits_of_payload?_eq_none rfl depth
  | some m =>
    by_contra hnot
    obtain ⟨hm, path, hchain, hlength, hbound⟩ := exists_chain_of_not_fits hnot
    have hle := length_le_of_isChain (acyclic_asks hwf hscoped) hchain
      (List.forall_mem_cons.mpr ⟨hm, hbound⟩)
    rw [List.length_cons] at hle
    omega

theorem thrownWithin_eq_of_size_le {depth : Nat} (hdepth : p.tree.size ≤ depth) :
    p.thrownWithin depth = p.thrownWithin p.tree.size := by
  funext n
  exact ((fits_of_size_le hwf hscoped (Nat.le_refl _) n).thrownWithin_eq hdepth).symm

end Scoped

def withTreeDepth (p : Program σ) (depth : Nat) : Program σ :=
  p.withOptions { p.options with maxTreeDepth := depth }

theorem withTreeDepth_thrownWithin (limit depth : Nat) :
    (p.withTreeDepth limit).thrownWithin depth = p.thrownWithin depth := by
  have hcalls : { p.options with maxTreeDepth := limit }.overloadIntersection =
      p.options.overloadIntersection := rfl
  exact withOptions_thrownWithin hcalls rfl depth

theorem withTreeDepth_thrown (depth : Nat) (n : NodeRef) :
    (p.withTreeDepth depth).thrown n = p.thrownWithin (depth + 1) n :=
  congrFun (withTreeDepth_thrownWithin depth (depth + 1)) n

theorem withTreeDepth_typesReaching (depth : Nat) (clause : NodeRef) :
    (p.withTreeDepth depth).typesReaching clause =
      p.arrivingTypes (p.thrownWithin depth) clause :=
  congrArg (p.arrivingTypes · clause) (withTreeDepth_thrownWithin depth depth)

/-- No walk goes through more nodes than there are, whether it goes down or back to a try block. So
any two limits that are no less show the same. -/
theorem treeDepth_irrelevant (hwf : p.tree.WellFormed) (hscoped : p.tree.Scoped)
    {depth depth' : Nat} (hdepth : p.tree.size ≤ depth) (hdepth' : p.tree.size ≤ depth') :
    (∀ path : List NodeId, path.IsChain p.Asks → (∀ m ∈ path, m < p.tree.size) →
      path.length ≤ p.tree.size) ∧
    (∀ n, (p.withTreeDepth depth).thrown n = (p.withTreeDepth depth').thrown n) ∧
    ∀ clause, (p.withTreeDepth depth).typesReaching clause =
      (p.withTreeDepth depth').typesReaching clause := by
  refine ⟨?_, ?_, ?_⟩
  · intro path hchain hbound
    exact length_le_of_isChain (acyclic_asks hwf hscoped) hchain hbound
  · intro n
    rw [withTreeDepth_thrown, withTreeDepth_thrown,
      thrownWithin_eq_of_size_le hwf hscoped (Nat.le_succ_of_le hdepth),
      thrownWithin_eq_of_size_le hwf hscoped (Nat.le_succ_of_le hdepth')]
  · intro clause
    rw [withTreeDepth_typesReaching, withTreeDepth_typesReaching,
      thrownWithin_eq_of_size_le hwf hscoped hdepth,
      thrownWithin_eq_of_size_le hwf hscoped hdepth']

def nestedProgram : Program TypeStore where
  tree := ⟨#[⟨0, 0, .call "read" none [], some 1⟩, ⟨0, 0, .block [some 0], some 7⟩,
    ⟨0, 0, .parameter "e" (some 5) false, some 6⟩, ⟨0, 0, .reference "e" (some 2), some 4⟩,
    ⟨0, 0, .throwing (some 3), some 5⟩, ⟨0, 0, .block [some 4], some 6⟩,
    ⟨0, 0, .catchClause (some 2) (some 5), some 7⟩,
    ⟨0, 0, .trying ⟨none, some 1, [some 6], none⟩, some 8⟩, ⟨0, 0, .block [some 7], some 14⟩,
    ⟨0, 0, .parameter "f" (some 2) false, some 13⟩, ⟨0, 0, .reference "f" (some 9), some 11⟩,
    ⟨0, 0, .throwing (some 10), some 12⟩, ⟨0, 0, .block [some 11], some 13⟩,
    ⟨0, 0, .catchClause (some 9) (some 12), some 14⟩,
    ⟨0, 0, .trying ⟨none, some 8, [some 13], none⟩, none⟩]⟩
  types := .ofStore
  completion := fun _ => .ok true
  resolution := Resolution.unknown.withTarget (some 0)
    ⟨⟨.method "read" (some 0) [some 5], .identity⟩, []⟩
  handlers := .empty
  options := .default

theorem nestedProgram_scoped : nestedProgram.tree.Scoped :=
  SyntaxTree.scoped_of_checks (by decide +kernel)

/-- The walk goes from the outer clause back to the outer block, and from the inner clause back to
the inner block. A limit of 8 stops it on the way to the call. -/
theorem nestedProgram_treeDepth :
    ((nestedProgram.withTreeDepth 15).thrown (some 14) TypeStore.mixedStore).1.members =
      [some 5, some 3] ∧
    (nestedProgram.withTreeDepth 15).thrown (some 14) =
      (nestedProgram.withTreeDepth 2000).thrown (some 14) ∧
    ((nestedProgram.withTreeDepth 8).thrown (some 14) TypeStore.mixedStore).1.members =
      [some 3] := by
  have hbuilt : nestedProgram.tree.BuiltUp := by decide +kernel
  obtain ⟨-, hthrown, -⟩ := treeDepth_irrelevant hbuilt.wellFormed nestedProgram_scoped
    (by decide : nestedProgram.tree.size ≤ 15) (by decide : nestedProgram.tree.size ≤ 2000)
  exact ⟨by decide +kernel, hthrown (some 14), by decide +kernel⟩

end Program

end CheckedExceptions
