import CheckedExceptions.Proofs.Handling
import CheckedExceptions.Proofs.WellFormed

/-! Analyses that end before their limits do: what they find does not depend on the limits. -/

namespace CheckedExceptions

namespace Program

variable {σ : Type} {p : Program σ} {below below' : NodeRef → StateM σ ThrowSet} {n : NodeRef}

def rethrowSources (p : Program σ) (expr : NodeRef) : List NodeRef :=
  match p.tree.rethrown? expr with
  | some caught =>
    if p.options.preciseRethrow && !caught.reassigned then
      match p.tree.payload? (p.tree.parent caught.clause) with
      | some (.trying parts) => p.tree.tryResources parts ++ [parts.body]
      | _ => []
    else []
  | none => []

def asked (p : Program σ) (n : NodeRef) : List NodeRef :=
  match p.tree.payload? n with
  | some (.throwing expression) => p.rethrowSources expression ++ [expression]
  | some (.trying parts) =>
    p.tree.tryResources parts ++ parts.body :: (parts.clauses ++ [parts.cleanup])
  | some payload => payload.operandSlots
  | none => []

/-- The walk from `n` ends within `depth` levels. -/
def Fits (p : Program σ) : Nat → NodeRef → Prop
  | 0, n => p.tree.payload? n = none
  | depth + 1, n => ∀ m ∈ p.asked n, Fits p depth m

instance (p : Program σ) : (depth : Nat) → (n : NodeRef) → Decidable (p.Fits depth n)
  | 0, n => inferInstanceAs (Decidable (p.tree.payload? n = none))
  | depth + 1, n =>
    have : ∀ m, Decidable (p.Fits depth m) := fun m => instDecidableFits p depth m
    inferInstanceAs (Decidable (∀ m ∈ p.asked n, p.Fits depth m))

theorem asked_of_payload?_eq_none (h : p.tree.payload? n = none) : p.asked n = [] := by
  simp only [asked, h]

theorem Fits.succ {depth : Nat} (h : p.Fits depth n) : p.Fits (depth + 1) n := by
  induction depth generalizing n with
  | zero =>
    intro m hm
    rw [asked_of_payload?_eq_none h] at hm
    exact absurd hm List.not_mem_nil
  | succ depth ih => exact fun m hm => ih (h m hm)

theorem fits_of_payload?_eq_none (h : p.tree.payload? n = none) (depth : Nat) : p.Fits depth n := by
  induction depth with
  | zero => exact h
  | succ depth ih => exact ih.succ

theorem Fits.mono {depth depth' : Nat} (hle : depth ≤ depth') (h : p.Fits depth n) :
    p.Fits depth' n := by
  induction hle with
  | refl => exact h
  | step _ ih => exact ih.succ

theorem uniteAll_congr {nodes : List NodeRef} (h : ∀ m ∈ nodes, below m = below' m) (s : ThrowSet) :
    p.uniteAll below s nodes = p.uniteAll below' s nodes := by
  induction nodes generalizing s with
  | nil => rfl
  | cons m nodes ih =>
    simp only [uniteAll, List.foldlM_cons, h m List.mem_cons_self]
    congr 1
    funext s
    exact ih (fun k hk => h k (List.mem_cons_of_mem m hk)) s

theorem resourceThrows_congr (h : below n = below' n) :
    p.resourceThrows below n = p.resourceThrows below' n := by
  unfold resourceThrows
  rw [h]

theorem bodyThrows_congr {parts : TryParts}
    (h : ∀ m ∈ p.tree.tryResources parts ++ [parts.body], below m = below' m) :
    p.bodyThrows below parts = p.bodyThrows below' parts := by
  unfold bodyThrows
  rw [uniteAll_congr fun m hm => resourceThrows_congr (h m (List.mem_append_left _ hm))]
  congr 1
  funext resources
  exact uniteAll_congr (fun m hm => h m (List.mem_append_right _ hm)) resources

theorem arrivingTypes_congr {clause : NodeRef}
    (h : ∀ parts, p.tree.payload? (p.tree.parent clause) = some (.trying parts) →
      p.bodyThrows below parts = p.bodyThrows below' parts) :
    p.arrivingTypes below clause = p.arrivingTypes below' clause := by
  unfold arrivingTypes
  cases hparent : p.tree.payload? (p.tree.parent clause) with
  | none => rfl
  | some payload =>
    cases payload with
    | trying parts => simp only [h parts hparent]
    | _ => rfl

theorem raisedTypes_congr {expr : NodeRef} (h : ∀ m ∈ p.rethrowSources expr, below m = below' m) :
    p.raisedTypes below expr = p.raisedTypes below' expr := by
  unfold raisedTypes
  unfold rethrowSources at h
  cases hcaught : p.tree.rethrown? expr with
  | none => rfl
  | some caught =>
    by_cases hprecise : (p.options.preciseRethrow && !caught.reassigned) = true
    · have harriving :
          p.arrivingTypes below caught.clause = p.arrivingTypes below' caught.clause := by
        apply arrivingTypes_congr
        intro parts hparts
        apply bodyThrows_congr
        simpa only [hcaught, if_pos hprecise, hparts] using h
      simp only [harriving]
    · simp only [if_neg hprecise]

theorem leavingTry_congr {parts : TryParts}
    (h : ∀ m ∈ p.tree.tryResources parts ++ parts.body :: (parts.clauses ++ [parts.cleanup]),
      below m = below' m) : p.leavingTry below parts = p.leavingTry below' parts := by
  have hbody : p.bodyThrows below parts = p.bodyThrows below' parts := by
    refine bodyThrows_congr fun m hm => h m ?_
    rw [List.mem_append, List.mem_singleton] at hm
    exact List.mem_append.mpr (hm.imp_right fun hm => List.mem_cons.mpr (Or.inl hm))
  have hclauses : ∀ s, p.uniteAll below s parts.clauses = p.uniteAll below' s parts.clauses :=
    uniteAll_congr fun m hm => h m (by simp [hm])
  have hcleanup : below parts.cleanup = below' parts.cleanup := h _ (by simp)
  unfold leavingTry
  rw [hbody]
  simp only [hclauses]
  congr 1
  funext body
  congr 1
  funext st
  congr 1
  funext pending
  split
  · rfl
  · next block hblock => rw [← hblock, hcleanup]

theorem thrownStep_congr (h : ∀ m ∈ p.asked n, below m = below' m) :
    p.thrownStep below n = p.thrownStep below' n := by
  cases hpayload : p.tree.payload? n with
  | none => simp only [thrownStep, hpayload]
  | some payload =>
    have hchildren : (∀ m ∈ payload.slots, below m = below' m) →
        p.thrownByChildren below n = p.thrownByChildren below' n := by
      intro hslots
      refine uniteAll_congr (fun m hm => ?_) _
      obtain ⟨child, hchild, rfl⟩ := List.mem_map.mp hm
      rw [SyntaxTree.children_eq hpayload, Payload.mem_children] at hchild
      exact hslots _ hchild
    simp only [asked, hpayload] at h
    cases payload with
    | classDecl name =>
      cases name with
      | none =>
        simp only [thrownStep, hpayload]
        exact uniteAll_congr h _
      | some name => simp only [thrownStep, hpayload]
    | lambda | methodRef => simp only [thrownStep, hpayload]
    | throwing expression =>
      simp only [thrownStep, hpayload,
        raisedTypes_congr fun m hm => h m (List.mem_append_left _ hm)]
      congr 1
      funext tys
      congr 1
      funext own
      exact uniteAll_congr (fun m hm => h m (List.mem_append_right _ hm)) own
    | trying parts =>
      simp only [thrownStep, hpayload]
      exact leavingTry_congr h
    | resourceVariable =>
      simp only [thrownStep, hpayload]
      congr 1
      funext closing
      exact uniteAll_congr h closing
    | call | creation =>
      simp only [thrownStep, hpayload, thrownByInvocation]
      rw [hchildren h]
    | _ =>
      simp only [thrownStep, hpayload]
      exact hchildren h

/-- A walk that ends within its limit finds the same under any larger limit. -/
theorem Fits.thrownWithin_eq {depth depth' : Nat} (h : p.Fits depth n) (hle : depth ≤ depth') :
    p.thrownWithin depth n = p.thrownWithin depth' n := by
  induction depth generalizing n depth' with
  | zero =>
    cases depth' with
    | zero => rfl
    | succ depth' =>
      have hnone : p.tree.payload? n = none := h
      simp only [thrownWithin, thrownStep, hnone]
  | succ depth ih =>
    obtain ⟨depth', rfl⟩ := Nat.exists_eq_succ_of_ne_zero (Nat.ne_zero_of_lt hle)
    exact thrownStep_congr fun m hm => ih (h m hm) (Nat.le_of_succ_le_succ hle)

theorem Fits.raisedTypes_eq {depth depth' : Nat} {expression : NodeRef} (h : p.Fits (depth + 1) n)
    (hthrow : p.tree.payload? n = some (.throwing expression)) (hle : depth ≤ depth') :
    p.raisedTypes (p.thrownWithin depth) expression =
      p.raisedTypes (p.thrownWithin depth') expression := by
  refine raisedTypes_congr fun m hm => Fits.thrownWithin_eq (h m ?_) hle
  simp only [asked, hthrow]
  exact List.mem_append_left _ hm

section Ascent

variable {st : σ} {exception : TypeRef} {top next : NodeRef}

def Settles (p : Program σ) (st : σ) (exception : TypeRef) (top : NodeRef) : Nat → NodeRef → Prop
  | 0, _ => False
  | steps + 1, n =>
    match p.outcome st n exception top (p.ruleAt n top) with
    | .settled _ => True
    | .climb next => Settles p st exception top steps next

/-- Something between `n` and `top` handles the exception, however far up. -/
def Handled (p : Program σ) (st : σ) (exception : TypeRef) (top n : NodeRef) : Prop :=
  ∃ steps, (p.isHandledWithin exception top steps n st).1 = true

theorem handled_iff_of_settled {handled : Bool}
    (h : p.outcome st n exception top (p.ruleAt n top) = .settled handled) :
    p.Handled st exception top n ↔ handled = true := by
  constructor
  · rintro ⟨steps, hsteps⟩
    cases steps with
    | zero => cases hsteps
    | succ steps =>
      rw [isHandledWithin_succ, h] at hsteps
      exact hsteps
  · intro hhandled
    refine ⟨1, ?_⟩
    rw [isHandledWithin_succ, h]
    exact hhandled

theorem handled_iff_of_climb (h : p.outcome st n exception top (p.ruleAt n top) = .climb next) :
    p.Handled st exception top n ↔ p.Handled st exception top next := by
  constructor
  · rintro ⟨steps, hsteps⟩
    cases steps with
    | zero => cases hsteps
    | succ steps =>
      rw [isHandledWithin_succ, h] at hsteps
      exact ⟨steps, hsteps⟩
  · rintro ⟨steps, hsteps⟩
    refine ⟨steps + 1, ?_⟩
    rw [isHandledWithin_succ, h]
    exact hsteps

/-- A way up that ends within the limit shows all there is to see. -/
theorem Settles.isHandledWithin_iff {steps : Nat} (h : p.Settles st exception top steps n) :
    (p.isHandledWithin exception top steps n st).1 = true ↔ p.Handled st exception top n := by
  induction steps generalizing n with
  | zero => exact h.elim
  | succ steps ih =>
    unfold Settles at h
    rw [isHandledWithin_succ]
    cases houtcome : p.outcome st n exception top (p.ruleAt n top) with
    | settled handled => exact (handled_iff_of_settled houtcome).symm
    | climb next =>
      rw [houtcome] at h
      rw [handled_iff_of_climb houtcome]
      exact ih h

end Ascent

section Size

variable {st : σ} {exception : TypeRef} {top next : NodeRef} {m : NodeId}

theorem parent_of_outcome_eq_climb
    (h : p.outcome st n exception top (p.ruleAt n top) = .climb next) :
    ∃ k, p.tree.parent n = some k ∧ next = some k := by
  have hnext : next = p.tree.parent n := by
    cases hrule : p.ruleAt n top with
    | passes =>
      rw [hrule] at h
      exact (Ascent.climb.inj h).symm
    | tries parts =>
      simp only [hrule, outcome] at h
      split at h
      · cases h
      · exact (Ascent.climb.inj h).symm
    | custom =>
      simp only [hrule, outcome, customStep] at h
      split at h
      · cases h
      · exact (Ascent.climb.inj h).symm
    | _ =>
      rw [hrule] at h
      cases h
  cases hparent : p.tree.parent n with
  | none =>
    have hfails : p.ruleAt n top = .fails := by simp [ruleAt, hparent]
    rw [hfails] at h
    cases h
  | some k => exact ⟨k, rfl, hnext.trans hparent⟩

/-- A way up that does not end within some steps goes through as many nodes above the first. -/
theorem exists_chain_of_not_settles (hwf : p.tree.WellFormed) {steps : Nat} (hm : m < p.tree.size)
    (h : ¬p.Settles st exception top steps (some m)) :
    ∃ path, (m :: path).IsChain (fun a b => p.tree.Above b a) ∧ path.length = steps ∧
      ∀ a ∈ path, a < p.tree.size := by
  induction steps generalizing m with
  | zero => exact ⟨[], List.isChain_singleton m, rfl, fun a ha => absurd ha List.not_mem_nil⟩
  | succ steps ih =>
    unfold Settles at h
    cases houtcome : p.outcome st (some m) exception top (p.ruleAt (some m) top) with
    | settled handled => simp [houtcome] at h
    | climb next =>
      obtain ⟨k, hparent, rfl⟩ := parent_of_outcome_eq_climb houtcome
      rw [houtcome] at h
      have hk : k < p.tree.size := hwf.lt_size_of_above hparent hm
      obtain ⟨path, hchain, hlength, hbound⟩ := ih hk h
      exact ⟨k :: path, List.isChain_cons_cons.mpr ⟨hparent, hchain⟩,
        by rw [List.length_cons, hlength], List.forall_mem_cons.mpr ⟨hk, hbound⟩⟩

theorem settles_of_size_le (hwf : p.tree.WellFormed) {steps : Nat} (hsteps : p.tree.size ≤ steps)
    (hm : m < p.tree.size) : p.Settles st exception top steps (some m) := by
  by_contra hnot
  obtain ⟨path, hchain, hlength, hbound⟩ := exists_chain_of_not_settles hwf hm hnot
  have hacyclic : ∀ n, ¬Relation.TransGen (fun a b => p.tree.Above b a) n n := fun n hn =>
    hwf.acyclic n (Relation.transGen_swap.mp hn)
  have hle := length_le_of_isChain hacyclic hchain (List.forall_mem_cons.mpr ⟨hm, hbound⟩)
  rw [List.length_cons] at hle
  omega

end Size

end Program

end CheckedExceptions
