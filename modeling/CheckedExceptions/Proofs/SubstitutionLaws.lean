import CheckedExceptions.Proofs.Images

/-! The laws of substitution. One that binds nothing in a type leaves it as it is, and two in turn
lead to where their composition leads at once: to the image under the composition. -/

namespace CheckedExceptions

open Relation (ReflTransGen)

namespace Substitution

theorem get?_cons (b : TypeRef × TypeRef) (bindings : List (TypeRef × TypeRef)) (param : TypeRef) :
    get? ⟨b :: bindings⟩ param = if param = b.1 then some b.2 else get? ⟨bindings⟩ param := by
  unfold get?
  rw [List.lookup_cons]
  by_cases h : param = b.1
  · rw [if_pos h, beq_iff_eq.mpr h]
  · rw [if_neg h, beq_eq_false_iff_ne.mpr h]

theorem get?_insert (s : Substitution) (param arg other : TypeRef) :
    (s.insert param arg).get? other = if other = param then some arg else s.get? other := by
  obtain ⟨bindings⟩ := s
  refine (get?_cons (param, arg) _ other).trans (ite_congr rfl (fun _ => rfl) fun hother => ?_)
  induction bindings with
  | nil => rfl
  | cons b bindings ih =>
    rw [get?_cons, ← ih]
    by_cases hb : b.1 = param
    · rw [if_neg (hb ▸ hother), List.filter_cons_of_neg (by simpa using hb)]
    · rw [List.filter_cons_of_pos (by simpa using hb), get?_cons]

end Substitution

namespace TypeStore

variable {st later : TypeStore} {ty result a b : TypeRef} {shape : Shape}
  {s first second composed : Substitution}

section Identity

inductive Occurs (st : TypeStore) (param : TypeRef) : (ty : TypeRef) → Prop
  | here {name bound} : st.shape? param = some (.typeParam name bound) → Occurs st param param
  | inside {ty part : TypeRef} {shape : Shape} : st.shape? ty = some shape →
      part ∈ shape.components → Occurs st param part → Occurs st param ty

theorem Descending.le_of_occurs (hst : st.Descending) {param id : TypeId}
    (h : st.Occurs (some param) (some id)) : param ≤ id := by
  generalize hty : some id = ty at h
  induction h generalizing id with
  | here => exact Nat.le_of_eq (Option.some.inj hty).symm
  | @inside ty part shape hshape hpart hoccurs ih =>
    subst hty
    cases part with
    | none => cases hoccurs with
      | inside hnone => cases hnone
    | some less => exact Nat.le_trans (ih rfl) (Nat.le_of_lt (hst.component hshape hpart).1)

theorem Descending.image_self (hst : st.Descending) (hty : st.Holds ty)
    (hfree : ∀ param, st.Occurs param ty → s.get? param = none) : st.Image s ty ty := by
  revert hfree
  refine hst.induction hty ?_
  intro ty hty ih hfree
  cases hshape : st.shape? ty with
  | none =>
    obtain rfl := eq_none_of_shape? hty hshape
    exact .empty
  | some shape =>
    have hparts : ∀ part ∈ shape.components, st.Image s part part := fun part hpart =>
      ih shape hshape part hpart fun param hparam => hfree param (.inside hshape hpart hparam)
    cases shape with
    | declared => exact .declared hshape
    | typeParam =>
      have hkept := Image.param (s := s) hshape
      rwa [hfree ty (.here hshape)] at hkept
    | _ => exact .whole id hshape rfl hparts ((Shape.mapComponents_id _).symm ▸ hshape)

theorem Canonical.apply_eq_self (hst : st.Canonical) (hty : st.Holds ty)
    (hfree : ∀ param, st.Occurs param ty → s.get? param = none) : apply s ty st = (ty, st) :=
  (hst.descending.image_self hty hfree).apply_eq hst

/-- Where there is nothing to replace, it makes no difference that the type is not looked into. -/
theorem Canonical.substitute_eq (hst : st.Canonical) (hty : st.Holds ty) (s : Substitution) :
    substitute ty s st = (apply s ty >>= fun result => substitute result .identity) st := by
  rw [substitute_eq_bind]
  split
  · next hempty =>
    have hfree : ∀ param, st.Occurs param ty → s.get? param = none := by
      intro param _
      rw [Substitution.get?, List.isEmpty_iff.mp hempty, List.lookup_nil]
    rw [bind_apply_of_eq (hst.apply_eq_self hty hfree)]
    rfl
  · rfl

end Identity

section Composition

/-- Binds what `first` binds to what `second` makes of it, and all else as `second` does. -/
def compose (first second : Substitution) : StateM TypeStore Substitution := do
  let replaced ← first.bindings.mapM fun b => (b.1, ·) <$> apply second b.2
  pure (replaced.foldr (fun b s => s.insert b.1 b.2) second)

/-- What it means for `composed` to be the composition, if the store holds all that is bound. -/
structure Composes (st : TypeStore) (first second composed : Substitution) : Prop where
  bound : ∀ param target, first.get? param = some target →
    ∃ result, composed.get? param = some result ∧ st.Image second target result
  free : ∀ param, first.get? param = none → composed.get? param = second.get? param

namespace Composes

theorem get?_eq (h : st.Composes first second composed) (hst : st.Canonical) (param : TypeRef) :
    composed.get? param =
      ((first.get? param).map fun target => (apply second target st).1).or (second.get? param) := by
  cases htarget : first.get? param with
  | none => exact h.free param htarget
  | some target =>
    obtain ⟨result, hresult, himage⟩ := h.bound param target htarget
    rw [hresult, Option.map_some, himage.apply_eq hst]
    rfl

theorem grows (h : st.Composes first second composed) (hgrows : st.Grows later) :
    later.Composes first second composed where
  bound := by
    intro param target htarget
    obtain ⟨result, hresult, himage⟩ := h.bound param target htarget
    exact ⟨result, hresult, himage.grows hgrows⟩
  free := h.free

theorem holdsTargets (h : st.Composes first second composed) (hsecond : st.HoldsTargets second) :
    st.HoldsTargets composed := by
  intro param result hresult
  cases htarget : first.get? param with
  | none => exact hsecond param result (h.free param htarget ▸ hresult)
  | some target =>
    obtain ⟨_, hbound, himage⟩ := h.bound param target htarget
    rw [hbound] at hresult
    exact Option.some.inj hresult ▸ himage.holds_result hsecond

theorem insert {b : TypeRef × TypeRef} {bindings : List (TypeRef × TypeRef)}
    (h : st.Composes ⟨bindings⟩ second composed) (himage : st.Image second b.2 result) :
    st.Composes ⟨b :: bindings⟩ second (composed.insert b.1 result) := by
  constructor
  · intro param target htarget
    rw [Substitution.get?_insert]
    rw [Substitution.get?_cons] at htarget
    by_cases hparam : param = b.1
    · rw [if_pos hparam] at htarget ⊢
      obtain rfl := Option.some.inj htarget
      exact ⟨result, rfl, himage⟩
    · rw [if_neg hparam] at htarget ⊢
      exact h.bound param target htarget
  · intro param hfree
    rw [Substitution.get?_insert]
    rw [Substitution.get?_cons] at hfree
    by_cases hparam : param = b.1
    · rw [if_pos hparam] at hfree
      cases hfree
    · rw [if_neg hparam] at hfree ⊢
      exact h.free param hfree

end Composes

theorem composes_of_forall₂ {bindings replaced : List (TypeRef × TypeRef)}
    (h : List.Forall₂ (fun b c => c.1 = b.1 ∧ st.Image second b.2 c.2) bindings replaced) :
    st.Composes ⟨bindings⟩ second (replaced.foldr (fun b s => s.insert b.1 b.2) second) := by
  induction h with
  | nil => exact ⟨fun param target htarget => (nomatch htarget), fun _ _ => rfl⟩
  | cons hc _ ih =>
    rw [List.foldr_cons, hc.1]
    exact ih.insert hc.2

/-- Two images in turn are the image under the composition. -/
theorem Image.comp (h : st.Image first ty a) (h' : st.Image second a b) (hst : st.Canonical)
    (hcomposes : st.Composes first second composed) : st.Image composed ty b := by
  induction h generalizing b with
  | empty =>
    obtain rfl := h'.unique .empty hst
    exact .empty
  | declared hshape =>
    obtain rfl := h'.unique (.declared hshape) hst
    exact .declared hshape
  | @param ty _ _ hshape =>
    have himage := Image.param (s := composed) hshape
    cases htarget : first.get? ty with
    | none =>
      rw [htarget] at h'
      obtain rfl := h'.unique (.param hshape) hst
      rwa [hcomposes.free ty htarget] at himage
    | some target =>
      obtain ⟨result, hresult, hsecond⟩ := hcomposes.bound ty target htarget
      rw [htarget] at h'
      obtain rfl := h'.unique hsecond hst
      rwa [hresult] at himage
  | whole f hshape hstructural _ hmade ih =>
    have hmapped := (Shape.isStructural_mapComponents f _).trans hstructural
    obtain ⟨g, himages, hresult⟩ := h'.exists_map hmade hmapped
    rw [Shape.mapComponents_mapComponents] at hresult
    refine .whole (g ∘ f) hshape hstructural (fun part hpart => ?_) hresult
    refine ih part hpart (himages (f part) ?_)
    rw [Shape.components_mapComponents]
    exact List.mem_map_of_mem hpart

theorem Composes.apply_eq (h : st.Composes first second composed) (hst : st.Canonical)
    (himages : ∃ between, st.Image first ty between ∧ st.Image second between result) :
    apply composed ty st = (result, st) := by
  obtain ⟨between, hbetween, hresult⟩ := himages
  exact (hbetween.comp hresult hst h).apply_eq hst

structure Supports (st : TypeStore) (first second : Substitution) (ty : TypeRef) : Prop where
  canonical : st.Canonical
  first : ∀ b ∈ first.bindings, st.Holds b.2
  second : ∀ b ∈ second.bindings, st.Holds b.2
  operand : st.Holds ty

namespace Supports

theorem of_makes (h : st.Supports first second ty) (hsteps : ReflTransGen Makes st later) :
    later.Supports first second ty where
  canonical := h.canonical.of_makes hsteps
  first := fun b hb => (grows_of_makes hsteps).holds (h.first b hb)
  second := fun b hb => (grows_of_makes hsteps).holds (h.second b hb)
  operand := (grows_of_makes hsteps).holds h.operand

variable (h : st.Supports first second ty)
include h

theorem holdsTargets_first : st.HoldsTargets first := holdsTargets_of_bindings h.first

theorem holdsTargets_second : st.HoldsTargets second := holdsTargets_of_bindings h.second

theorem ensures_compose : Ensures Makes False st (compose first second) fun later composed =>
    later.Composes first second composed := by
  have hreplaced : Ensures Makes False st
      (first.bindings.mapM fun b => (b.1, ·) <$> apply second b.2) fun later replaced =>
        List.Forall₂ (fun b c => c.1 = b.1 ∧ later.Image second b.2 c.2)
          first.bindings replaced := by
    refine .mapM_forall₂ (fun mid later b c _ hlater hc => ?_) fun b hb mid hmid => ?_
    · exact ⟨hc.1, hc.2.grows (grows_of_makes hlater)⟩
    · have hthere := h.of_makes hmid
      have himage :=
        ensures_image_apply hthere.canonical hthere.holdsTargets_second (hthere.first b hb)
      exact himage.map fun later result _ himage => ⟨rfl, himage⟩
  exact .bind hreplaced fun replaced mid _ hreplaced => .pure (composes_of_forall₂ hreplaced)

theorem ensures_inTurn :
    Ensures Makes False st (apply first ty >>= apply second) fun later result =>
      ∃ between, later.Image first ty between ∧ later.Image second between result := by
  have hbegin := ensures_image_apply h.canonical h.holdsTargets_first h.operand
  refine .bind hbegin fun between mid hmid hbetween => ?_
  have hthere := h.of_makes hmid
  have hheld := hbetween.holds_result hthere.holdsTargets_first
  have hrest := ensures_image_apply hthere.canonical hthere.holdsTargets_second hheld
  have hkept := hbetween.grows (grows_of_makes hrest.steps)
  exact ⟨hrest.steps, ⟨between, hkept, hrest.result⟩, False.elim⟩

theorem apply_after_inTurn (hcomposes : st.Composes first second composed) :
    apply composed ty ((apply first ty >>= apply second) st).2 =
      (apply first ty >>= apply second) st := by
  have hrun := h.ensures_inTurn
  have hlater := hcomposes.grows (grows_of_makes hrun.steps)
  exact hlater.apply_eq (h.canonical.of_makes hrun.steps) hrun.result

theorem inTurn_after_apply (hcomposes : st.Composes first second composed) :
    ((apply first ty >>= apply second) (apply composed ty st).2).1 = (apply composed ty st).1 := by
  have htargets := hcomposes.holdsTargets h.holdsTargets_second
  have hatOnce := ensures_image_apply h.canonical htargets h.operand
  have hthere := h.of_makes hatOnce.steps
  have hrun := hthere.ensures_inTurn
  have hagain := hthere.apply_after_inTurn (hcomposes.grows (grows_of_makes hatOnce.steps))
  have hkept := hatOnce.result.grows (grows_of_makes hrun.steps)
  rw [← hagain, hkept.apply_eq (hthere.canonical.of_makes hrun.steps)]

end Supports

end Composition

/-- In a store that is built up by its operations and holds components before their whole, a
substitution leads to the image of a type. One that binds nothing in the type leads to the type
itself, and two in turn lead to where their composition does, whichever is run first. -/
theorem substitution_laws {start : TypeStore} (hstart : start = empty ∨ start = withRoots)
    (operations : List Operation) (hdescending : (start.performAll operations).Descending)
    (hty : (start.performAll operations).Holds ty) :
    let st := start.performAll operations
    (∀ s, (∀ b ∈ s.bindings, st.Holds b.2) →
      (apply s ty st).2.Image s ty (apply s ty st).1) ∧
    (∀ s, (∀ param, st.Occurs param ty → s.get? param = none) → apply s ty st = (ty, st)) ∧
    (∀ s, substitute ty s st = (apply s ty >>= fun result => substitute result .identity) st) ∧
    ∀ first second, (∀ b ∈ first.bindings, st.Holds b.2) → (∀ b ∈ second.bindings, st.Holds b.2) →
      let inTurn := apply first ty >>= apply second
      let before := compose first second st
      let after := compose first second (inTurn st).2
      (∀ c ∈ [before, after], ∀ param, c.1.get? param =
        ((first.get? param).map fun target => (apply second target c.2).1).or (second.get? param)) ∧
      apply before.1 ty (inTurn before.2).2 = inTurn before.2 ∧
      (inTurn (apply before.1 ty before.2).2).1 = (apply before.1 ty before.2).1 ∧
      apply after.1 ty after.2 = ((inTurn st).1, after.2) := by
  intro st
  have hst : st.Canonical := ⟨indexed_performAll hstart operations, hdescending⟩
  refine ⟨fun s hs => ?_, fun s => hst.apply_eq_self hty, fun s => hst.substitute_eq hty s, ?_⟩
  · exact (ensures_image_apply hst (holdsTargets_of_bindings hs) hty).result
  intro first second hfirst hsecond inTurn before after
  have hready : st.Supports first second ty := ⟨hst, hfirst, hsecond, hty⟩
  have hinTurn := hready.ensures_inTurn
  have hbefore := hready.ensures_compose
  have hafter := (hready.of_makes hinTurn.steps).ensures_compose
  have hready' := hready.of_makes hbefore.steps
  have hlast : after.2.Canonical := hst.of_makes (hinTurn.steps.trans hafter.steps)
  refine ⟨?_, hready'.apply_after_inTurn hbefore.result,
    hready'.inTurn_after_apply hbefore.result, ?_⟩
  · simp only [List.forall_mem_cons]
    exact ⟨hbefore.result.get?_eq hready'.canonical, hafter.result.get?_eq hlast,
      fun _ hc => nomatch hc⟩
  · obtain ⟨between, hbetween, hresult⟩ := hinTurn.result
    have hgrows := grows_of_makes hafter.steps
    exact hafter.result.apply_eq hlast ⟨between, hbetween.grows hgrows, hresult.grows hgrows⟩

/-- A generic class 7 with parameters 5 and 6, a parameter 9 of no class, and alternatives 11, of
which the first is an array 10 of the class applied to its own parameters. -/
def pairing : List Operation :=
  [.declareGeneric "Pair" ["A", "B"] [some 2], .instantiate (some 7) [some 5, some 6],
    .typeParam "X" none, .arrayOf (some 8), .disjunction [some 10, some 9]]

theorem pairing_laws :
    let st := withRoots.performAll pairing
    let first : Substitution := .ofLists [some 5, some 6] [some 10, some 9]
    let second : Substitution := .ofLists [some 9, some 5] [some 3, some 2]
    let inTurn := apply first (some 11) >>= apply second
    let after := compose first second (inTurn st).2
    (inTurn st).1 = some 19 ∧ apply after.1 (some 11) after.2 = (some 19, after.2) ∧
    (apply first (some 11) st).2.Image first (some 11) (some 14) ∧
    apply (.ofLists [some 9] [some 3]) (some 8) st = (some 8, st) := by
  intro st first second inTurn after
  have hdescending : st.Descending := by
    unfold Descending
    decide +kernel
  have hfound : (inTurn st).1 = some 19 := by decide +kernel
  have hbetween : (apply first (some 11) st).1 = some 14 := by decide +kernel
  have hfirst : ∀ b ∈ first.bindings, st.Holds b.2 := by decide +kernel
  have hsecond : ∀ b ∈ second.bindings, st.Holds b.2 := by decide +kernel
  have hwhole : st.Holds (some 11) := by decide +kernel
  have hpart : st.Holds (some 8) := by decide +kernel
  obtain ⟨himage, -, -, hcompose⟩ := substitution_laws (Or.inr rfl) pairing hdescending hwhole
  obtain ⟨-, -, -, hafter⟩ := hcompose first second hfirst hsecond
  obtain ⟨-, hself, -⟩ := substitution_laws (Or.inr rfl) pairing hdescending hpart
  refine ⟨hfound, hfound ▸ hafter, hbetween ▸ himage first hfirst, hself _ fun param hparam => ?_⟩
  have hne : param ≠ some 9 := by
    rintro rfl
    exact absurd (hdescending.le_of_occurs hparam) (by decide)
  exact (Substitution.get?_cons (some 9, some 3) [] param).trans (if_neg hne)

end TypeStore

end CheckedExceptions
