import CheckedExceptions.Proofs.ClosedStore

/-! A substitution in a closed store adds types made of types of the store. If components come before
their whole, to substitute again gives the same type and adds nothing. -/

namespace CheckedExceptions

open Relation (ReflTransGen)

theorem Substitution.mem_bindings {s : Substitution} {param target : TypeRef}
    (h : s.get? param = some target) : (param, target) ∈ s.bindings := by
  obtain ⟨before, after, hsplit, -⟩ := List.lookup_eq_some_iff.mp h
  rw [hsplit]
  exact List.mem_append_right before List.mem_cons_self

namespace TypeStore

variable {st later : TypeStore} {ty : TypeRef} {shape : Shape} {s : Substitution} {repeats : Prop}

theorem holds_of_find? {id : TypeId} (h : st.find? shape = some id) : st.Holds (some id) := by
  obtain ⟨before, after, hsplit, -⟩ := List.lookup_eq_some_iff.mp h
  have hid : id < st.size :=
    st.interned_lt (shape, id) (hsplit ▸ List.mem_append_right before List.mem_cons_self)
  exact fun k hk => Option.some.inj hk ▸ hid

theorem ensures_intern (hrefs : ∀ ty ∈ shape.references, st.Holds ty) :
    Ensures Adds repeats st (modifyGet fun st => (some (st.intern shape).1, (st.intern shape).2))
      Holds := by
  have hfound := st.find?_intern shape
  refine ⟨?_, holds_of_find? hfound, ?_⟩
  · show ReflTransGen Adds st (st.intern shape).2
    unfold intern
    split
    · exact .refl
    · next hnone => exact .single ⟨shape, hnone, hrefs, rfl⟩
  · intro _ later hlater
    show (some (later.intern shape).1, (later.intern shape).2) = _
    rw [intern, (grows_of_adds hlater).find? hfound]
    rfl

theorem ensures_disjunction {alternatives : List TypeRef}
    (hrefs : ∀ ty ∈ alternatives, st.Holds ty) :
    Ensures Adds repeats st (modifyGet fun st => st.disjunction alternatives) Holds := by
  cases alternatives with
  | nil => exact ensures_intern hrefs
  | cons first rest =>
    cases rest with
    | nil => exact ⟨.refl, hrefs first List.mem_cons_self, fun _ _ _ => rfl⟩
    | cons second rest => exact ensures_intern hrefs

theorem applyStep_eq {part other : TypeRef → StateM TypeStore TypeRef}
    (h : ∀ shape, st.shape? ty = some shape → ∀ a ∈ shape.components, ∀ mid,
      st.Grows mid → mid.Grows (part a mid).2 ∧ part a mid = other a mid) :
    applyStep s part ty st = applyStep s other ty st := by
  have hbind : ∀ {α : Type} {m m' : StateM TypeStore α} {f : α → StateM TypeStore TypeRef},
      m st = m' st → (m >>= f) st = (m' >>= f) st := by
    intro α m m' f heq
    exact congrArg (fun run : α × TypeStore => f run.1 run.2) heq
  unfold applyStep
  rw [get_bind_apply, get_bind_apply]
  cases hshape : st.shape? ty with
  | none => rfl
  | some shape =>
    cases shape with
    | instantiation | disjunction => exact hbind (mapM_eq_of_steps (h _ hshape))
    | array elem => exact hbind (h _ hshape elem List.mem_cons_self st .refl).2
    | _ => rfl

namespace Descending

variable (hst : st.Descending) (hgrows : st.Grows later) (hty : st.Holds ty)
include hst hgrows hty

/-- Where components come before their whole, nothing is left to `ahead` but empty places, and there
is no need for more levels than ids. -/
theorem applyBelow_eq {ahead : TypeRef → StateM TypeStore TypeRef} (hnone : ahead none = pure none)
    {bound : Nat} (hbound : ∀ id ∈ ty, id < bound) : applyBelow s ahead bound ty later =
      applyBelow s pure ((ty.map Nat.succ).getD 0) ty later := by
  cases ty with
  | none => cases bound <;> rfl
  | some id =>
    induction id using Nat.strongRecOn generalizing ahead bound later with
    | ind id ih =>
      obtain ⟨bound, rfl⟩ := Nat.exists_eq_succ_of_ne_zero (Nat.ne_zero_of_lt (hbound id rfl))
      refine applyStep_eq fun shape hshape part hpart mid hmid => ?_
      cases part with
      | none =>
        have hnot : precedes none (some id) = false := rfl
        rw [hnot, if_neg Bool.false_ne_true, if_neg Bool.false_ne_true, hnone]
        exact ⟨.refl, rfl⟩
      | some less =>
        rw [hgrows.shape?_eq hty] at hshape
        obtain ⟨hless, hheld⟩ := hst.component hshape hpart
        have hrec : ∀ {ahead : TypeRef → StateM TypeStore TypeRef} {bound : Nat},
            ahead none = pure none → less < bound → applyBelow s ahead bound (some less) mid =
              applyBelow s pure (less + 1) (some less) mid :=
          fun hnone hlt => ih less hless (hgrows.trans hmid) hnone hheld
            fun k hk => Option.some.inj hk ▸ hlt
        have hprecedes : precedes (some less) (some id) = true := decide_eq_true hless
        rw [if_pos hprecedes, if_pos hprecedes,
          hrec hnone (Nat.lt_of_lt_of_le hless (Nat.le_of_lt_succ (hbound id rfl))), hrec rfl hless]
        exact ⟨applyBelow_moves (fun st shape _ _ => st.intern_grows shape) s .pure _ _ mid, rfl⟩

theorem applyWithin_eq (s : Substitution) (leaps : Nat) : applyWithin s (leaps + 1) ty later =
    applyBelow s pure ((ty.map Nat.succ).getD 0) ty later := by
  refine hst.applyBelow_eq hgrows hty (by cases leaps <;> rfl) ?_
  rintro id rfl
  exact Nat.lt_succ_self id

end Descending

theorem substitute_eq_bind (ty : TypeRef) (s : Substitution) : substitute ty s =
    (if s.isEmpty then pure ty else apply s ty) >>= fun result => substitute result .identity := by
  unfold substitute
  split <;> rfl

/-- What a substitution gives is a type of the store that it leaves. -/
theorem ensures_substitute_identity (hty : st.Holds ty) :
    Ensures Adds repeats st (substitute ty .identity) fun later result =>
      ∀ given ∈ result, given.isSome = true ∧ later.Holds given := by
  refine .bind (.pure hty) fun result mid _ hresult => .get_bind ?_ fun _ later hlater => ?_
  · split
    · next shape hshape =>
      refine .pure fun given hgiven => ?_
      split at hgiven
      · obtain rfl := Option.some.inj hgiven
        obtain ⟨id, rfl, -⟩ := Option.bind_eq_some_iff.mp hshape
        exact ⟨rfl, hresult⟩
      · cases hgiven
    · exact .pure fun given hgiven => nomatch hgiven
  · simp only [(grows_of_adds hlater).shape?_eq hresult]

section Apply

variable (hst : st.Closed) (htargets : ∀ binding ∈ s.bindings, st.Holds binding.2)
include hst htargets

theorem ensures_applyStep {part : TypeRef → StateM TypeStore TypeRef} (hty : st.Holds ty)
    (hpart : ∀ mid a, ReflTransGen Adds st mid → mid.Holds a →
      Ensures Adds repeats mid (part a) Holds) :
    Ensures Adds repeats st (applyStep s part ty) Holds := by
  have hstays : ∀ mid later a, ReflTransGen Adds st mid → ReflTransGen Adds mid later →
      mid.Holds a → later.Holds a := fun mid later a _ hlater => (grows_of_adds hlater).holds
  have hparts : ∀ shape parts, st.shape? ty = some shape → parts ⊆ shape.references →
      Ensures Adds repeats st (parts.mapM part) fun mid replaced =>
        ∀ a ∈ replaced, mid.Holds a := by
    intro shape parts hshape hsubset
    refine .mapM hstays fun a ha mid hmid => hpart mid a hmid ?_
    exact (grows_of_adds hmid).holds (hst.holds_reference hshape (hsubset ha))
  refine .get_bind ?_ fun _ later hlater => ?_
  · split
    · refine .pure ?_
      cases htarget : s.get? ty with
      | none => exact hty
      | some target => exact htargets (ty, target) (Substitution.mem_bindings htarget)
    · next origin args hshape =>
      refine .bind (hparts _ args hshape (List.subset_cons_self origin args))
        fun replaced mid hmid hreplaced => ?_
      have hgrows := grows_of_adds hmid
      split
      · exact .pure (hgrows.holds hty)
      · have horigin := hgrows.holds (hst.holds_reference hshape List.mem_cons_self)
        exact ensures_intern (List.forall_mem_cons.mpr ⟨horigin, hreplaced⟩)
    · next elem hshape =>
      refine .bind (hpart st elem .refl (hst.holds_reference hshape List.mem_cons_self))
        fun replaced mid hmid hreplaced => ?_
      split
      · exact .pure ((grows_of_adds hmid).holds hty)
      · exact ensures_intern (List.forall_mem_singleton.mpr hreplaced)
    · next alternatives hshape =>
      refine .bind (hparts _ alternatives hshape (List.Subset.refl _))
        fun replaced mid hmid hreplaced => ?_
      split
      · exact .pure ((grows_of_adds hmid).holds hty)
      · exact ensures_disjunction hreplaced
    · exact .pure hty
  · simp only [(grows_of_adds hlater).shape?_eq hty]

theorem ensures_applyBelow {ahead : TypeRef → StateM TypeStore TypeRef} (bound : Nat)
    (hty : st.Holds ty)
    (hahead : ∀ mid a, ReflTransGen Adds st mid → mid.Holds a →
      Ensures Adds repeats mid (ahead a) Holds) :
    Ensures Adds repeats st (applyBelow s ahead bound ty) Holds := by
  induction bound generalizing st ty with
  | zero => exact .pure hty
  | succ bound ih =>
    refine ensures_applyStep hst htargets hty fun mid a hmid ha => ?_
    split
    · have hgrows := grows_of_adds hmid
      apply ih (hst.of_adds hmid) (fun binding hb => hgrows.holds (htargets binding hb)) ha
      intro last x hlast
      exact hahead last x (hmid.trans hlast)
    · exact hahead mid a hmid ha

theorem ensures_applyWithin (leaps : Nat) (hty : st.Holds ty) :
    Ensures Adds repeats st (applyWithin s leaps ty) Holds := by
  induction leaps generalizing st ty with
  | zero => exact .pure hty
  | succ leaps ih =>
    refine ensures_applyBelow hst htargets _ hty fun mid a hmid ha => ?_
    have hgrows := grows_of_adds hmid
    exact ih (hst.of_adds hmid) (fun binding hb => hgrows.holds (htargets binding hb)) ha

theorem ensures_apply (hdescending : repeats → st.Descending) (hty : st.Holds ty) :
    Ensures Adds repeats st (apply s ty) Holds := by
  refine .observe (ensures_applyWithin hst htargets _ hty) fun h later hlater => ?_
  have hsame := (hdescending h).applyWithin_eq (grows_of_adds hlater) hty s
  exact (hsame _).trans (hsame _).symm

theorem ensures_substitute (hdescending : repeats → st.Descending) (hty : st.Holds ty) :
    Ensures Adds repeats st (substitute ty s) fun later result =>
      ∀ given ∈ result, given.isSome = true ∧ later.Holds given := by
  rw [substitute_eq_bind]
  split
  · exact .bind (.pure hty) fun result mid _ => ensures_substitute_identity
  · exact .bind (ensures_apply hst htargets hdescending hty) fun result mid _ =>
      ensures_substitute_identity

end Apply

end TypeStore

end CheckedExceptions
