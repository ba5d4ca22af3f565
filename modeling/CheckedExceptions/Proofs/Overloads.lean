import CheckedExceptions.Proofs.StableDeclarations

/-! What an ambiguous call throws whichever candidate it runs: as far as checked exceptions go, the
candidates agree on a type exactly if each of them declares it. -/

namespace CheckedExceptions

namespace Program

variable {σ : Type} {p : Program σ} {st now : σ} {target : CallTarget} {x : TypeRef}
  {candidates : List Candidate} {common : List TypeRef}

def survivingThrows (p : Program σ) (target : CallTarget) : StateM σ (List (List TypeRef)) := do
  let st ← get
  (p.survivors st target.distinct).mapM p.throwsAtSite

theorem declares_iff {tys : List TypeRef} :
    p.declares st tys x = true ↔ ∃ ty ∈ tys, p.types.isSubtype st x ty = true :=
  List.any_eq_true

theorem mem_meet_iff {ours theirs : List TypeRef} {ty : TypeRef} : ty ∈ p.meet st ours theirs ↔
    ∃ a ∈ ours, ∃ b ∈ theirs, (p.types.isSubtype st a b = true ∧ ty = a) ∨
      (p.types.isSubtype st a b = false ∧ p.types.isSubtype st b a = true ∧
        p.isUnchecked st b = p.isUnchecked st a ∧ ty = b) := by
  unfold meet
  simp only [List.mem_eraseDups, List.mem_flatMap, List.mem_filterMap]
  refine exists_congr fun a => and_congr_right fun _ => exists_congr fun b =>
    and_congr_right fun _ => ?_
  cases p.types.isSubtype st a b with
  | true => simpa using eq_comm
  | false =>
    cases p.types.isSubtype st b a with
    | true => simpa using fun _ => eq_comm
    | false => simp

section Ordered

variable (hord : ThrowSet.OrderedOn (p.types.isSubtype st) fun _ => True)
  (hchecked : p.isChecked st x = true)
include hord hchecked

theorem isUnchecked_eq_false_of_isSubtype {ty : TypeRef} (h : p.types.isSubtype st x ty = true) :
    p.isUnchecked st ty = false := by
  have habove := isChecked_of_isSubtype hord (fun _ _ => trivial) trivial trivial h hchecked
  exact (Bool.not_eq_true' _).mp habove

theorem not_declares_of_allUnchecked {tys : List TypeRef}
    (hall : tys.all (p.isUnchecked st) = true) : ¬p.declares st tys x = true := by
  intro hdeclares
  obtain ⟨ty, hty, hsub⟩ := declares_iff.mp hdeclares
  have hunchecked := List.all_eq_true.mp hall ty hty
  rw [isUnchecked_eq_false_of_isSubtype hord hchecked hsub] at hunchecked
  cases hunchecked

/-- What two clauses have in common declares what both declare. -/
theorem declares_meet_iff {ours theirs : List TypeRef}
    (hcomparable : ∀ a ∈ ours, ∀ b ∈ theirs, p.types.isSubtype st x a = true →
      p.types.isSubtype st x b = true →
      p.types.isSubtype st a b = true ∨ p.types.isSubtype st b a = true) :
    p.declares st (p.meet st ours theirs) x = true ↔
      p.declares st ours x = true ∧ p.declares st theirs x = true := by
  simp only [declares_iff]
  constructor
  · rintro ⟨ty, hty, hsub⟩
    obtain ⟨a, ha, b, hb, ⟨hab, rfl⟩ | ⟨-, hba, -, rfl⟩⟩ := mem_meet_iff.mp hty
    · exact ⟨⟨ty, ha, hsub⟩, b, hb, hord.trans x ty b trivial trivial trivial hsub hab⟩
    · exact ⟨⟨a, ha, hord.trans x ty a trivial trivial trivial hsub hba⟩, ty, hb, hsub⟩
  · rintro ⟨⟨a, ha, hxa⟩, b, hb, hxb⟩
    cases hab : p.types.isSubtype st a b with
    | true => exact ⟨a, mem_meet_iff.mpr ⟨a, ha, b, hb, Or.inl ⟨hab, rfl⟩⟩, hxa⟩
    | false =>
      have hba : p.types.isSubtype st b a = true := by
        apply (hcomparable a ha b hb hxa hxb).resolve_left
        rw [hab]
        exact Bool.false_ne_true
      have hsame : p.isUnchecked st b = p.isUnchecked st a := by
        rw [isUnchecked_eq_false_of_isSubtype hord hchecked hxa,
          isUnchecked_eq_false_of_isSubtype hord hchecked hxb]
      exact ⟨b, mem_meet_iff.mpr ⟨a, ha, b, hb, Or.inr ⟨hab, hba, hsame, rfl⟩⟩, hxb⟩

end Ordered

section Run

theorem meetAll_cons_run (c : Candidate) : p.meetAll common (c :: candidates) now =
    if (p.throwsAtSite c now).1.all (p.isUnchecked (p.throwsAtSite c now).2) then
      ([], (p.throwsAtSite c now).2)
    else p.meetAll (p.meet (p.throwsAtSite c now).2 common (p.throwsAtSite c now).1) candidates
      (p.throwsAtSite c now).2 := by
  show (if (p.throwsAtSite c now).1.all (p.isUnchecked (p.throwsAtSite c now).2) then pure []
    else p.meetAll _ candidates : StateM σ _) (p.throwsAtSite c now).2 = _
  split <;> rfl

theorem commonThrows_cons_run (c : Candidate) : p.commonThrows (c :: candidates) now =
    if (p.throwsAtSite c now).1.all (p.isUnchecked (p.throwsAtSite c now).2) then
      ([], (p.throwsAtSite c now).2)
    else p.meetAll (p.throwsAtSite c now).1 candidates (p.throwsAtSite c now).2 := by
  show (if (p.throwsAtSite c now).1.all (p.isUnchecked (p.throwsAtSite c now).2) then pure []
    else p.meetAll _ candidates : StateM σ _) (p.throwsAtSite c now).2 = _
  split <;> rfl

variable (h : ∀ c ∈ candidates, p.Offers c)
include h

theorem evolves_mapM_throwsAtSite : p.Evolves now (candidates.mapM p.throwsAtSite now).2 :=
  Moves.mapM (fun c hc => evolving_throwsAtSite (h c hc)) now

/-- Comparing candidates goes no further than asking all of them. -/
theorem evolves_meetAll :
    p.Evolves (p.meetAll common candidates now).2 (candidates.mapM p.throwsAtSite now).2 := by
  induction candidates generalizing now common with
  | nil => exact .refl
  | cons c candidates ih =>
    have hrest : ∀ x ∈ candidates, p.Offers x := fun x hx => h x (List.mem_cons_of_mem c hx)
    rw [mapM_cons_run, meetAll_cons_run]
    split
    · exact evolves_mapM_throwsAtSite hrest
    · exact ih hrest

theorem evolves_commonThrows :
    p.Evolves (p.commonThrows candidates now).2 (candidates.mapM p.throwsAtSite now).2 := by
  cases candidates with
  | nil => exact .refl
  | cons c candidates =>
    have hrest : ∀ x ∈ candidates, p.Offers x := fun x hx => h x (List.mem_cons_of_mem c hx)
    rw [mapM_cons_run, commonThrows_cons_run]
    split
    · exact evolves_mapM_throwsAtSite hrest
    · exact evolves_meetAll hrest

variable {last : σ} {entry : TypeRef → Prop} (hst : p.KeepsSubtyping st) (hnow : p.Evolves st now)
  (hlast : (candidates.mapM p.throwsAtSite now).2 = last)
  (hord : ThrowSet.OrderedOn (p.types.isSubtype last) fun _ => True)
  (hchecked : p.isChecked last x = true)
  (hcomparable : ∀ a b, entry a → entry b → p.types.isSubtype last x a = true →
    p.types.isSubtype last x b = true →
    p.types.isSubtype last a b = true ∨ p.types.isSubtype last b a = true)
  (hentry : ∀ tys ∈ (candidates.mapM p.throwsAtSite now).1, ∀ ty ∈ tys, entry ty)
include hst hnow hlast hord hchecked hcomparable hentry

/-- Candidates are compared one after the other, in the states that are reached on the way; the
outcome is the same as in the state reached at the end. -/
theorem declares_meetAll_iff (hcommon : ∀ ty ∈ common, p.Known st now ty ∧ entry ty) :
    p.declares last (p.meetAll common candidates now).1 x = true ↔
      p.declares last common x = true ∧
      ∀ tys ∈ (candidates.mapM p.throwsAtSite now).1, p.declares last tys x = true := by
  induction candidates generalizing now common with
  | nil =>
    refine ⟨fun hdeclares => ⟨hdeclares, ?_⟩, fun hdeclares => hdeclares.1⟩
    intro tys htys
    exact absurd htys List.not_mem_nil
  | cons c candidates ih =>
    have hrest : ∀ x ∈ candidates, p.Offers x := fun x hx => h x (List.mem_cons_of_mem c hx)
    have htys := (lists_throwsAtSite False.elim hnow (h c List.mem_cons_self)).result
    have hmoved : p.Evolves now (p.throwsAtSite c now).2 :=
      evolving_throwsAtSite (h c List.mem_cons_self) now
    rw [mapM_cons_run] at hlast hentry ⊢
    rw [meetAll_cons_run]
    generalize p.throwsAtSite c now = run at *
    obtain ⟨tys, mid⟩ := run
    dsimp only at *
    have hmid := hnow.trans hmoved
    have hahead : p.Evolves mid last := hlast ▸ evolves_mapM_throwsAtSite hrest
    have hknown : ∀ ty ∈ common, p.Known st mid ty :=
      fun ty hty => (hcommon ty hty).1.persists hmoved
    obtain ⟨hours, hothers⟩ := List.forall_mem_cons.mp hentry
    rw [← hst.allUnchecked_eq hmid hahead htys, List.forall_mem_cons]
    split
    · next hall =>
      have hnot := not_declares_of_allUnchecked hord hchecked hall
      constructor
      · intro hnothing
        exact absurd hnothing Bool.false_ne_true
      · intro hboth
        exact absurd hboth.2.1 hnot
    · have hmeet : ∀ ty ∈ p.meet mid common tys, p.Known st mid ty ∧ entry ty := by
        intro ty hty
        obtain ⟨a, ha, b, hb, ⟨-, rfl⟩ | ⟨-, -, -, rfl⟩⟩ := mem_meet_iff.mp hty
        · exact ⟨hknown ty ha, (hcommon ty ha).2⟩
        · exact ⟨htys ty hb, hours ty hb⟩
      have hboth : p.declares last (p.meet last common tys) x = true ↔ _ :=
        declares_meet_iff hord hchecked fun a ha b hb =>
          hcomparable a b (hcommon a ha).2 (hours b hb)
      rw [ih hrest hmid hlast hothers hmeet, ← hst.meet_eq hmid hahead hknown htys, hboth,
        and_assoc]

theorem declares_commonThrows_iff (hne : candidates ≠ []) :
    p.declares last (p.commonThrows candidates now).1 x = true ↔
      ∀ tys ∈ (candidates.mapM p.throwsAtSite now).1, p.declares last tys x = true := by
  cases candidates with
  | nil => exact absurd rfl hne
  | cons c candidates =>
    have hrest : ∀ x ∈ candidates, p.Offers x := fun x hx => h x (List.mem_cons_of_mem c hx)
    have htys := (lists_throwsAtSite False.elim hnow (h c List.mem_cons_self)).result
    have hmoved : p.Evolves now (p.throwsAtSite c now).2 :=
      evolving_throwsAtSite (h c List.mem_cons_self) now
    rw [mapM_cons_run] at hlast hentry ⊢
    rw [commonThrows_cons_run]
    generalize p.throwsAtSite c now = run at *
    obtain ⟨tys, mid⟩ := run
    dsimp only at *
    have hmid := hnow.trans hmoved
    have hahead : p.Evolves mid last := hlast ▸ evolves_mapM_throwsAtSite hrest
    obtain ⟨hours, hothers⟩ := List.forall_mem_cons.mp hentry
    rw [← hst.allUnchecked_eq hmid hahead htys, List.forall_mem_cons]
    split
    · next hall =>
      have hnot := not_declares_of_allUnchecked hord hchecked hall
      constructor
      · intro hnothing
        exact absurd hnothing Bool.false_ne_true
      · intro hboth
        exact absurd hboth.1 hnot
    · exact declares_meetAll_iff hrest hst hmid hlast hord hchecked hcomparable hothers
        fun ty hty => ⟨htys ty hty, hours ty hty⟩

end Run

theorem agreedThrows_run (htwo : 2 ≤ (p.survivors st target.distinct).length) :
    (p.agreedThrows target st).1 = some (ThrowSet.ofList
      (p.types.isSubtype (p.commonThrows (p.survivors st target.distinct) st).2)
      (p.commonThrows (p.survivors st target.distinct) st).1) := by
  unfold agreedThrows
  rw [get_bind_apply]
  cases hsurvivors : p.survivors st target.distinct with
  | nil => simp [hsurvivors] at htwo
  | cons first others =>
    cases others with
    | nil => simp [hsurvivors] at htwo
    | cons second rest => rfl

/-- The types that some clauses declare can be compared with each other: subtyping is a preorder,
and where two of the types have a subtype in common, one of them is a subtype of the other. -/
structure Comparable (p : Program σ) (st : σ) (clauses : List (List TypeRef)) : Prop where
  refl : ∀ a, p.types.isSubtype st a a = true
  trans : ∀ a b c, p.types.isSubtype st a b = true → p.types.isSubtype st b c = true →
    p.types.isSubtype st a c = true
  related : ∀ ours ∈ clauses, ∀ theirs ∈ clauses, ∀ a ∈ ours, ∀ b ∈ theirs, ∀ x,
    p.types.isSubtype st x a = true → p.types.isSubtype st x b = true →
    p.types.isSubtype st a b = true ∨ p.types.isSubtype st b a = true

theorem Comparable.orderedOn {clauses : List (List TypeRef)} (h : p.Comparable st clauses) :
    ThrowSet.OrderedOn (p.types.isSubtype st) fun _ => True :=
  ⟨fun a _ => h.refl a, fun a b c _ _ _ => h.trans a b c⟩

/-- A checked exception, which does not lie below the empty place. -/
def IsCheckedType (p : Program σ) (st : σ) (x : TypeRef) : Prop :=
  p.types.isSubtype st x none = false ∧ p.isChecked st x = true

section Agreed

variable {clauses : List (List TypeRef)} {last : σ} (hst : p.KeepsSubtyping st)
  (hoffers : ∀ c ∈ p.survivors st target.distinct, p.Offers c)
  (htwo : 2 ≤ (p.survivors st target.distinct).length)
  (hclauses : p.survivingThrows target st = (clauses, last))
include hst hoffers htwo hclauses

theorem exists_agreedThrows (hcomparable : p.Comparable last clauses) :
    ∃ set, (p.agreedThrows target st).1 = some set ∧ ∀ x, p.IsCheckedType last x →
      (set.covers (p.types.isSubtype last) x = true ↔
        ∀ tys ∈ clauses, p.declares last tys x = true) := by
  have hrun : (p.survivors st target.distinct).mapM p.throwsAtSite st = (clauses, last) := hclauses
  have hord := hcomparable.orderedOn
  have hcommon : p.Lists st False st (p.commonThrows (p.survivors st target.distinct)) :=
    lists_commonThrows hst False.elim .refl hoffers
  have hahead : p.Evolves (p.commonThrows (p.survivors st target.distinct) st).2 last := by
    have hmoves : p.Evolves (p.commonThrows (p.survivors st target.distinct) st).2 _ :=
      evolves_commonThrows hoffers
    rwa [hrun] at hmoves
  refine ⟨_, agreedThrows_run htwo, ?_⟩
  rintro x ⟨hproper, hchecked⟩
  have hne : p.survivors st target.distinct ≠ [] := by
    intro hnil
    simp [hnil] at htwo
  have hdeclares : p.declares last (p.commonThrows (p.survivors st target.distinct) st).1 x = true ↔
      ∀ tys ∈ clauses, p.declares last tys x = true := by
    have hrelated : ∀ a b, (∃ tys ∈ clauses, a ∈ tys) → (∃ tys ∈ clauses, b ∈ tys) →
        p.types.isSubtype last x a = true → p.types.isSubtype last x b = true →
        p.types.isSubtype last a b = true ∨ p.types.isSubtype last b a = true := by
      rintro a b ⟨ours, hours, ha⟩ ⟨theirs, htheirs, hb⟩
      exact hcomparable.related ours hours theirs htheirs a ha b hb x
    have hiff := declares_commonThrows_iff hoffers hst .refl (by rw [hrun]) hord hchecked
      hrelated (by rw [hrun]; exact fun tys htys ty hty => ⟨tys, htys, hty⟩) hne
    rwa [hrun] at hiff
  have hsome : ∀ ty ∈ (p.commonThrows (p.survivors st target.distinct) st).1,
      p.types.isSubtype last x ty = true → ty.isSome = true := by
    intro ty _ hsub
    cases ty with
    | some id => rfl
    | none =>
      rw [hproper] at hsub
      cases hsub
  rw [← (hst.agreeOn hcommon.steps hahead).ofList hcommon.result,
    hord.covers_ofList_iff (fun _ _ => trivial) trivial hsome, ← declares_iff]
  exact hdeclares

end Agreed

/-- Where it is settled what the candidates declare, it does not matter when they are asked. -/
theorem declares_all_iff_of_stable (hoffers : ∀ c ∈ candidates, p.Offers c)
    (hstable : ∀ c ∈ candidates, p.DeclaresStably st c x) (hnow : p.Evolves st now) :
    (∀ tys ∈ (candidates.mapM p.throwsAtSite now).1,
      p.declares (candidates.mapM p.throwsAtSite now).2 tys x = true) ↔
    ∀ c ∈ candidates, p.declares (p.throwsAtSite c st).2 (p.throwsAtSite c st).1 x = true := by
  induction candidates generalizing now with
  | nil => exact ⟨fun _ c hc => (nomatch hc), fun _ tys htys => (nomatch htys)⟩
  | cons c candidates ih =>
    obtain ⟨hc, hothers⟩ := List.forall_mem_cons.mp hoffers
    obtain ⟨hown, hrest⟩ := List.forall_mem_cons.mp hstable
    have hmoved := hnow.trans (evolving_throwsAtSite hc now)
    rw [mapM_cons_run, List.forall_mem_cons, List.forall_mem_cons,
      hown now _ hnow (evolves_mapM_throwsAtSite hothers), ih hothers hrest hmoved]

/-- The candidates of an ambiguous call agree on a checked type exactly if each of them that is not
overridden declares it. So it makes no difference in which order they are listed, to the types for
which it is settled what each of them declares. -/
theorem agreedThrows_covers_iff {n : NodeRef} {clauses : List (List TypeRef)} {last : σ}
    (hst : p.KeepsSubtyping st) (htarget : p.resolution.target? n = some target)
    (htwo : 2 ≤ (p.survivors st target.distinct).length)
    (hclauses : p.survivingThrows target st = (clauses, last))
    (hcomparable : p.Comparable last clauses) :
    ∃ set, (p.agreedThrows target st).1 = some set ∧
      (∀ x, p.IsCheckedType last x → (set.covers (p.types.isSubtype last) x = true ↔
        ∀ tys ∈ clauses, p.declares last tys x = true)) ∧
      ∀ reordered clauses' last',
        (p.survivors st reordered.distinct).Perm (p.survivors st target.distinct) →
        p.survivingThrows reordered st = (clauses', last') → p.Comparable last' clauses' →
        ∃ other, (p.agreedThrows reordered st).1 = some other ∧
          ∀ x, (∀ c ∈ p.survivors st target.distinct, p.DeclaresStably st c x) →
            p.IsCheckedType last x → p.IsCheckedType last' x →
            other.covers (p.types.isSubtype last') x = set.covers (p.types.isSubtype last) x := by
  have hoffers : ∀ c ∈ p.survivors st target.distinct, p.Offers c :=
    fun c hc => .of_mem_distinct htarget (List.mem_filter.mp hc).1
  obtain ⟨set, hset, hcovers⟩ := exists_agreedThrows hst hoffers htwo hclauses hcomparable
  refine ⟨set, hset, hcovers, ?_⟩
  intro reordered clauses' last' hperm hclauses' hcomparable'
  have hoffers' : ∀ c ∈ p.survivors st reordered.distinct, p.Offers c :=
    fun c hc => hoffers c (hperm.mem_iff.mp hc)
  obtain ⟨other, hother, hcovers'⟩ := exists_agreedThrows hst hoffers' (hperm.length_eq ▸ htwo)
    hclauses' hcomparable'
  refine ⟨other, hother, fun x hstable hx hx' => ?_⟩
  have hall := declares_all_iff_of_stable hoffers hstable .refl
  have hall' := declares_all_iff_of_stable hoffers'
    (fun c hc => hstable c (hperm.mem_iff.mp hc)) .refl
  have hrun : (p.survivors st target.distinct).mapM p.throwsAtSite st = (clauses, last) := hclauses
  have hrun' : (p.survivors st reordered.distinct).mapM p.throwsAtSite st = (clauses', last') :=
    hclauses'
  rw [hrun] at hall
  rw [hrun'] at hall'
  rw [Bool.eq_iff_iff, hcovers x hx, hcovers' x hx', hall, hall']
  exact forall_congr' fun c => imp_congr hperm.mem_iff Iff.rfl

theorem comparable_of_ids {p : Program TypeStore} {st : TypeStore} {clauses : List (List TypeRef)}
    (htypes : p.types = .ofStore) (hst : st.RootedAndShallow)
    (hholds : ∀ tys ∈ clauses, ∀ ty ∈ tys, st.Holds ty)
    (hrelated : ∀ x ∈ none :: (List.range st.size).map some, ∀ ours ∈ clauses, ∀ theirs ∈ clauses,
      ∀ a ∈ ours, ∀ b ∈ theirs, st.isSubtype x a = true → st.isSubtype x b = true →
      st.isSubtype a b = true ∨ st.isSubtype b a = true) : p.Comparable st clauses where
  refl := by
    rw [htypes]
    exact st.isSubtype_refl
  trans := by
    rw [htypes]
    exact hst.isSubtype_trans
  related := by
    rw [htypes]
    intro ours hours theirs htheirs a ha b hb x hxa
    refine hrelated x ?_ ours hours theirs htheirs a ha b hb hxa
    cases x with
    | none => exact List.mem_cons_self
    | some id =>
      have hid := TypeStore.holds_of_isSubtype hxa (hholds ours hours a ha) id rfl
      exact List.mem_cons_of_mem _ (List.mem_map_of_mem (List.mem_range.mpr hid))

theorem genericStore_canonical : genericStore.Canonical := by
  have hoperations : genericStore = TypeStore.withRoots.performAll
      [.declare "IOException" [some 2], .declareGeneric "Failure" ["T"] [some 2],
        .instantiate (some 7) [some 5], .disjunction [some 5, some 8], .typeParam "E" (some 9),
        .arrayOf (some 10), .arrayOf (some 2), .disjunction [some 4, some 1], .arrayOf (some 13),
        .instantiate (some 7) [some 6]] := rfl
  exact ⟨hoperations ▸ TypeStore.indexed_performAll (Or.inr rfl) _, genericStore_descending⟩

def readCallReversed : CallTarget :=
  ⟨⟨.method "read" (some 0) [some 2], .identity⟩,
    [⟨.method "read" (some 0) [some 15, some 5], .ofLists [some 6] [some 2]⟩]⟩

theorem readCallReversed_perm :
    (genericProgram.survivors genericStore readCallReversed.distinct).Perm
      (genericProgram.survivors genericStore readCall.distinct) :=
  List.Perm.swap readCall.chosen readCallReversed.chosen []

theorem readCall_clauses (target : CallTarget) (h : target ∈ [readCall, readCallReversed]) :
    (genericProgram.survivingThrows target genericStore).2 = grownStore := by
  have hmoves : genericProgram.Evolves genericStore
      (genericProgram.survivingThrows target genericStore).2 := by
    refine evolves_mapM_throwsAtSite fun c hc => ?_
    have hmem : c ∈ genericProgram.survivors genericStore readCall.distinct := by
      simp only [List.mem_cons, List.not_mem_nil, or_false] at h
      rcases h with rfl | rfl
      · exact hc
      · exact readCallReversed_perm.mem_iff.mp hc
    have htarget : genericProgram.resolution.target? (some 2) = some readCall := rfl
    exact .of_mem_distinct htarget (List.mem_filter.mp hmem).1
  have hsame : ∀ target ∈ [readCall, readCallReversed],
      (genericProgram.survivingThrows target genericStore).2.shapes = grownStore.shapes ∧
      (genericProgram.survivingThrows target genericStore).2.interned = grownStore.interned ∧
      (genericProgram.survivingThrows target genericStore).2.classes = grownStore.classes := by
    decide +kernel
  obtain ⟨hshapes, hinterned, hclasses⟩ := hsame target h
  exact eq_grownStore hmoves hshapes hinterned hclasses

theorem readCall_comparable : genericProgram.Comparable grownStore [[some 16, some 5], [some 2]] :=
  comparable_of_ids rfl grownStore_rootedAndShallow (by decide +kernel) (by decide +kernel)

/-- Both methods may throw 16, which is not in the store before they are asked, and 5; 2 as such is
thrown by one of them only. -/
theorem readCall_agrees : ∃ set, (genericProgram.agreedThrows readCall genericStore).1 = some set ∧
    set.covers grownStore.isSubtype (some 16) = true ∧
    set.covers grownStore.isSubtype (some 2) = false ∧
    ∃ other, (genericProgram.agreedThrows readCallReversed genericStore).1 = some other ∧
      ∀ x, genericStore.Holds x → genericProgram.IsCheckedType grownStore x →
        other.covers grownStore.isSubtype x = set.covers grownStore.isSubtype x := by
  have hclauses : genericProgram.survivingThrows readCall genericStore =
      ([[some 16, some 5], [some 2]], grownStore) :=
    Prod.ext (by decide +kernel) (readCall_clauses _ List.mem_cons_self)
  have hreversed : genericProgram.survivingThrows readCallReversed genericStore =
      ([[some 2], [some 16, some 5]], grownStore) :=
    Prod.ext (by decide +kernel) (readCall_clauses _ (List.mem_cons_of_mem _ List.mem_cons_self))
  have htarget : genericProgram.resolution.target? (some 2) = some readCall := rfl
  obtain ⟨set, hset, hcovers, horder⟩ := agreedThrows_covers_iff
    genericProgram_grounded.keepsSubtyping htarget (by decide +kernel) hclauses readCall_comparable
  obtain ⟨other, hother, hsame⟩ := horder readCallReversed _ _ readCallReversed_perm hreversed
    (comparable_of_ids rfl grownStore_rootedAndShallow (by decide +kernel) (by decide +kernel))
  have hboth := hcovers (some 16) ⟨by decide +kernel, by decide +kernel⟩
  have hone := hcovers (some 2) ⟨by decide +kernel, by decide +kernel⟩
  refine ⟨set, hset, hboth.mpr (by decide +kernel), Bool.eq_false_iff.mpr fun hcovered => ?_, other,
    hother, fun x hx hchecked => hsame x (fun c hc => ?_) hchecked hchecked⟩
  · exact absurd (hone.mp hcovered) (by decide +kernel)
  · exact genericProgram_grounded.declaresStably genericStore_canonical
      (.of_mem_distinct htarget (List.mem_filter.mp hc).1) hx

def looseCallRotated : CallTarget :=
  ⟨⟨.method "read" (some 0) [some 8], .ofLists [some 5] [some 2]⟩,
    [⟨.method "read" (some 0) [some 7], .identity⟩, ⟨.method "read" (some 0) [some 6], .identity⟩]⟩

def looseProgram : Program TypeStore := singleCall looseCall

theorem looseCall_comparable (target : CallTarget) (h : target ∈ [looseCall, looseCallRotated]) :
    looseProgram.Comparable (looseProgram.survivingThrows target looseStore).2
      (looseProgram.survivingThrows target looseStore).1 := by
  have hall : ∀ target ∈ [looseCall, looseCallRotated],
      let run := looseProgram.survivingThrows target looseStore
      run.2.RootedAndShallow ∧ (∀ tys ∈ run.1, ∀ ty ∈ tys, run.2.Holds ty) ∧
      ∀ x ∈ none :: (List.range run.2.size).map some, ∀ ours ∈ run.1, ∀ theirs ∈ run.1, ∀ a ∈ ours,
        ∀ b ∈ theirs, run.2.isSubtype x a = true → run.2.isSubtype x b = true →
        run.2.isSubtype a b = true ∨ run.2.isSubtype b a = true := by decide +kernel
  obtain ⟨hst, hholds, hrelated⟩ := hall target h
  exact comparable_of_ids rfl hst hholds hrelated

/-- Where a bound is missing, the methods can fail to agree on a type that each of them declares,
and it depends on their order whether they do. -/
theorem looseProgram_disagrees :
    looseProgram.resolution.target? (some 0) = some looseCall ∧
    2 ≤ (looseProgram.survivors looseStore looseCall.distinct).length ∧
    (looseProgram.survivors looseStore looseCallRotated.distinct).Perm
      (looseProgram.survivors looseStore looseCall.distinct) ∧
    (∀ a b c, looseStore.isSubtype a b = true → looseStore.isSubtype b c = true →
      looseStore.isSubtype a c = true) ∧
    (∀ target ∈ [looseCall, looseCallRotated],
      let run := looseProgram.survivingThrows target looseStore
      looseProgram.Comparable run.2 run.1 ∧ looseProgram.IsCheckedType run.2 (some 7) ∧
      ∀ tys ∈ run.1, looseProgram.declares run.2 tys (some 7) = true) ∧
    (looseProgram.agreedThrows looseCall looseStore).1 = some ⟨[]⟩ ∧
    (looseProgram.agreedThrows looseCallRotated looseStore).1 = some ⟨[some 7]⟩ := by
  have hdeclared : ∀ target ∈ [looseCall, looseCallRotated],
      let run := looseProgram.survivingThrows target looseStore
      (run.2.isSubtype (some 7) none = false ∧ looseProgram.isChecked run.2 (some 7) = true) ∧
      ∀ tys ∈ run.1, looseProgram.declares run.2 tys (some 7) = true := by decide +kernel
  have hlow : looseStore.RootedAndShallow := by decide +kernel
  refine ⟨rfl, by decide +kernel, ?_, hlow.isSubtype_trans, fun target htarget =>
    ⟨looseCall_comparable target htarget, hdeclared target htarget⟩, by decide +kernel,
    by decide +kernel⟩
  exact (List.perm_append_comm : ([looseCallRotated.chosen] ++ looseCallRotated.others).Perm
    (looseCallRotated.others ++ [looseCallRotated.chosen]))

end Program

end CheckedExceptions
