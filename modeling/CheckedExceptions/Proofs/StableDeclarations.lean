import CheckedExceptions.Proofs.Grounded
import CheckedExceptions.Proofs.SubstitutionLaws

/-! It makes no difference to the types of a store when a substitution is applied: they are below
the result at one time if they are below it at any other. -/

namespace CheckedExceptions

open Relation (ReflTransGen)

theorem Shape.isThrowable_mapComponents (f : TypeRef → TypeRef) (shape : Shape) :
    (shape.mapComponents f).isThrowable = shape.isThrowable := by
  cases shape <;> rfl

theorem Shape.isDisjunction_mapComponents (f : TypeRef → TypeRef) (shape : Shape) :
    (shape.mapComponents f).isDisjunction = shape.isDisjunction := by
  cases shape <;> rfl

namespace TypeStore

variable {base left right : TypeStore} {s : Substitution} {ty a b x : TypeRef}

structure Outgrows (base later : TypeStore) : Prop where
  grows : base.Grows later
  canonical : later.Canonical

theorem Outgrows.of_makes {later : TypeStore} (hst : base.Canonical)
    (h : ReflTransGen Makes base later) : base.Outgrows later :=
  ⟨grows_of_makes h, hst.of_makes h⟩

section Twins

theorem Image.back (hbase : base.Closed) (hgrows : base.Grows left) (h : left.Image s ty a) :
    base.Holds ty → base.Holds a → base.Image s ty a := by
  induction h with
  | empty => exact fun _ _ => .empty
  | declared hshape => exact fun hty _ => .declared (hgrows.shape?_eq hty ▸ hshape)
  | param hshape => exact fun hty _ => .param (hgrows.shape?_eq hty ▸ hshape)
  | whole f hshape hstructural _ hresult ih =>
    intro hty ha
    rw [hgrows.shape?_eq hty] at hshape
    rw [hgrows.shape?_eq ha] at hresult
    refine .whole f hshape hstructural (fun part hpart => ih part hpart ?_ ?_) hresult
    · exact hbase.holds_reference hshape (Shape.components_subset_references _ hpart)
    · apply hbase.holds_reference hresult (Shape.components_subset_references _ _)
      rw [Shape.components_mapComponents]
      exact List.mem_map_of_mem hpart

variable (hbase : base.Closed) (hleft : base.Outgrows left) (hright : base.Outgrows right)
  (hty : base.Holds ty) (ha : left.Image s ty a) (hb : right.Image s ty b)
include hbase hleft hright hty ha hb

theorem Image.eq_of_holds (hheld : base.Holds a) : b = a :=
  hb.unique ((ha.back hbase hleft.grows hty hheld).grows hright.grows) hright.canonical

variable (htargets : base.HoldsTargets s)
include htargets

/-- Images of one type in two stores that are new in them are made in the same way. -/
theorem Image.exists_twin (hnew : ¬base.Holds a) : ∃ shape f g,
    base.shape? ty = some shape ∧ shape.isStructural = true ∧
    (∀ part ∈ shape.components,
      base.Holds part ∧ left.Image s part (f part) ∧ right.Image s part (g part)) ∧
    left.shape? a = some (shape.mapComponents f) ∧
    right.shape? b = some (shape.mapComponents g) := by
  cases ha with
  | empty => exact absurd hty hnew
  | declared => exact absurd hty hnew
  | param =>
    refine absurd ?_ hnew
    cases htarget : s.get? ty with
    | none => exact hty
    | some target => exact htargets ty target htarget
  | @whole _ _ shape f hshape hstructural himages hresult =>
    rw [hleft.grows.shape?_eq hty] at hshape
    obtain ⟨g, himages', hresult'⟩ := hb.exists_map (hright.grows.shape hshape) hstructural
    refine ⟨shape, f, g, hshape, hstructural,
      fun part hpart => ⟨?_, himages part hpart, himages' part hpart⟩, hresult, hresult'⟩
    exact hbase.holds_reference hshape (shape.components_subset_references hpart)

theorem Image.isThrowable_eq :
    (right.shape? b).any Shape.isThrowable = (left.shape? a).any Shape.isThrowable := by
  by_cases hheld : base.Holds a
  · obtain rfl := ha.eq_of_holds hbase hleft hright hty hb hheld
    rw [hleft.grows.shape?_eq hheld, hright.grows.shape?_eq hheld]
  · obtain ⟨shape, f, g, -, -, -, hresult, hresult'⟩ :=
      ha.exists_twin hbase hleft hright hty hb htargets hheld
    rw [hresult, hresult', Option.any_some, Option.any_some, Shape.isThrowable_mapComponents,
      Shape.isThrowable_mapComponents]

/-- One level: a type of the first store differs from an image that is new, so that parts of them are
compared. -/
theorem level_of_image {rel rel' : TypeRef → TypeRef → Prop} (hx : base.Holds x)
    (hrels : ∀ {x ty a b}, base.Holds x → base.Holds ty → left.Image s ty a → right.Image s ty b →
      rel x a → rel' x b)
    (hnew : ¬base.Holds a) (h : left.Level rel x a) : right.Level rel' x b := by
  obtain ⟨shape, f, g, hshape, hstructural, hparts, hresult, hresult'⟩ :=
    ha.exists_twin hbase hleft hright hty hb htargets hnew
  have hsame : left.shape? x = base.shape? x := hleft.grows.shape?_eq hx
  cases h with
  | left hsub _ hall =>
    rw [hsame] at hsub
    refine .left (hright.grows.shape hsub) hresult' fun alternative halternative => ?_
    exact hrels (hbase.holds_reference hsub halternative) hty ha hb (hall _ halternative)
  | right hsub hplain hsup hmem hrel =>
    rw [hsame] at hsub
    have hmap := shape?_unique hresult hsup
    cases shape with
    | disjunction alternatives =>
      rw [← Shape.disjunction.inj hmap] at hmem
      obtain ⟨part, hpart, rfl⟩ := List.mem_map.mp hmem
      obtain ⟨hheld, himage, himage'⟩ := hparts part hpart
      exact .right (hright.grows.shape hsub) hplain hresult' (List.mem_map_of_mem hpart)
        (hrels hx hheld himage himage' hrel)
    | _ => cases hmap
  | bound hsub hsup hplain hrel =>
    rw [hsame] at hsub
    rw [← shape?_unique hresult hsup, Shape.isDisjunction_mapComponents] at hplain
    refine .bound (hright.grows.shape hsub) hresult' ?_ ?_
    · rwa [Shape.isDisjunction_mapComponents]
    · exact hrels (hbase.holds_reference hsub List.mem_cons_self) hty ha hb hrel
  | array hsub hsup hrel =>
    rw [hsame] at hsub
    have hmap := shape?_unique hresult hsup
    cases shape with
    | array elem =>
      rw [← Shape.array.inj hmap] at hrel
      obtain ⟨hheld, himage, himage'⟩ := hparts elem List.mem_cons_self
      have helem := hbase.holds_reference hsub List.mem_cons_self
      exact .array (hright.grows.shape hsub) hresult' (hrels helem hheld himage himage' hrel)
    | _ => cases hmap
  | top _ _ _ _ htop =>
    rw [hleft.grows.isTop] at htop
    exact absurd (hbase.wellKnown .object a (beq_iff_eq.mp htop)) hnew
  | inherits hsub hnominal hsup hplain hinherits =>
    have hmap := shape?_unique hresult hsup
    have hbelow := isNominal_of_inherits hsup hinherits
    rw [← hmap] at hbelow
    cases shape with
    | instantiation origin args =>
      have horigin := hbase.holds_reference hshape List.mem_cons_self
      have herase : left.erase a = origin := by simp [erase, hresult, Shape.mapComponents]
      have herase' : right.erase b = origin := by simp [erase, hresult', Shape.mapComponents]
      rw [hsame] at hsub
      rw [herase, hleft.grows.erase hsub] at hinherits
      have hback := hbase.inherits_back hleft.grows (hbase.holds_erase hx) horigin hinherits
      refine .inherits (hright.grows.shape hsub) hnominal hresult' rfl ?_
      rw [herase', hright.grows.erase hsub]
      exact hright.grows.inherits hback
    | declared => cases hstructural
    | _ => cases hbelow

omit hty ha hb in
theorem isSubtypeWithin_of_image {depth : Nat} (hx : base.Holds x) (hty : base.Holds ty)
    (ha : left.Image s ty a) (hb : right.Image s ty b)
    (h : left.isSubtypeWithin depth x a = true) : right.isSubtypeWithin depth x b = true := by
  induction depth generalizing x ty a b with
  | zero =>
    obtain rfl : x = a := beq_iff_eq.mp h
    rw [ha.eq_of_holds hbase hleft hright hty hb hx]
    exact isSubtypeWithin_self 0 x
  | succ depth ih =>
    by_cases hheld : base.Holds a
    · obtain rfl := ha.eq_of_holds hbase hleft hright hty hb hheld
      exact hright.grows.isSubtypeWithin (hbase.isSubtypeWithin_back hleft.grows hx hheld h)
    · rcases isSubtypeWithin_succ.mp h with rfl | hlevel
      · exact absurd hx hheld
      · refine isSubtypeWithin_succ.mpr (Or.inr ?_)
        exact level_of_image hbase hleft hright hty ha hb htargets hx ih hheld hlevel

theorem isSubtype_image_eq (hx : base.Holds x) : left.isSubtype x a = right.isSubtype x b :=
  Bool.eq_iff_iff.mpr
    ⟨isSubtypeWithin_of_image hbase hleft hright htargets hx hty ha hb,
      isSubtypeWithin_of_image hbase hright hleft htargets hx hty hb ha⟩

end Twins

section Throwing

/-- `result` is the image of `ty` if that can be thrown. -/
def ThrownAs (st : TypeStore) (s : Substitution) (ty : TypeRef) (result : Option TypeRef) : Prop :=
  ∃ image, st.Image s ty image ∧
    result = if (st.shape? image).any Shape.isThrowable then some image else none

theorem ThrownAs.grows {result : Option TypeRef} (htargets : base.HoldsTargets s)
    (h : base.ThrownAs s ty result) (hgrows : base.Grows left) : left.ThrownAs s ty result := by
  obtain ⟨image, himage, rfl⟩ := h
  refine ⟨image, himage.grows hgrows, ?_⟩
  rw [hgrows.shape?_eq (himage.holds_result htargets)]

theorem ensures_thrownAs_substitute (hst : base.Canonical) (htargets : base.HoldsTargets s)
    (hty : base.Holds ty) :
    Ensures Makes False base (substitute ty s) fun later result => later.ThrownAs s ty result := by
  refine .of_run_eq (hst.substitute_eq hty s) ?_
  refine .bind (ensures_image_apply hst htargets hty) fun image mid _ himage => ?_
  have hkept : Ensures Makes False mid (pure image) fun later result => later.Image s ty result :=
    .pure himage
  refine .bind hkept fun image mid _ himage => .get_bind ?_ False.elim
  cases hshape : mid.shape? image with
  | none =>
    have hthrown : mid.ThrownAs s ty none := ⟨image, himage, by rw [hshape]; rfl⟩
    exact .pure hthrown
  | some shape =>
    have hthrown : mid.ThrownAs s ty (if shape.isThrowable then some image else none) :=
      ⟨image, himage, by rw [hshape]; rfl⟩
    exact .pure hthrown

theorem any_thrownAs_eq (hbase : base.Closed) (hleft : base.Outgrows left)
    (hright : base.Outgrows right) (htargets : base.HoldsTargets s) (hx : base.Holds x)
    {tys : List TypeRef} (htys : ∀ ty ∈ tys, base.Holds ty)
    {results results' : List (Option TypeRef)} (h : List.Forall₂ (left.ThrownAs s) tys results)
    (h' : List.Forall₂ (right.ThrownAs s) tys results') :
    (results.filterMap id).any (left.isSubtype x) =
      (results'.filterMap id).any (right.isSubtype x) := by
  induction h generalizing results' with
  | nil =>
    cases h'
    simp only [List.filterMap_nil, List.any_nil]
  | cons hhead _ ih =>
    cases h' with
    | cons hhead' htail' =>
      obtain ⟨hty, hrest⟩ := List.forall_mem_cons.mp htys
      obtain ⟨image, himage, rfl⟩ := hhead
      obtain ⟨image', himage', rfl⟩ := hhead'
      have hthrowable := himage.isThrowable_eq hbase hleft hright hty himage' htargets
      have hsub := isSubtype_image_eq hbase hleft hright hty himage himage' htargets hx
      have hothers := ih hrest htail'
      have hsome : ∀ (ty : TypeRef) (rest : List (Option TypeRef)),
          (some ty :: rest).filterMap id = ty :: rest.filterMap id := fun _ _ => rfl
      rw [hthrowable]
      split
      · rw [hsome, hsome, List.any_cons, List.any_cons, hsub, hothers]
      · rw [List.filterMap_cons_none rfl, List.filterMap_cons_none rfl, hothers]

end Throwing

end TypeStore

namespace Program

/-- Whether `c` declares `x` is settled: it does not depend on when `c` is asked, and not on what is
asked afterwards. -/
def DeclaresStably {σ : Type} (p : Program σ) (st : σ) (c : Candidate) (x : TypeRef) : Prop :=
  ∀ now later, p.Evolves st now → p.Evolves (p.throwsAtSite c now).2 later →
    p.declares later (p.throwsAtSite c now).1 x =
      p.declares (p.throwsAtSite c st).2 (p.throwsAtSite c st).1 x

variable {p : Program TypeStore} {st now later : TypeStore} {c : Candidate} {x : TypeRef}

namespace Grounded

variable (h : p.Grounded st) (hst : st.Canonical)
include h hst

theorem makes_of_evolves (hnow : p.Evolves st now) : ReflTransGen TypeStore.Makes st now := by
  induction hnow with
  | refl => exact .refl
  | @tail mid _ _ hstep ih =>
    obtain ⟨c, ty, hc, hty, rfl⟩ := hstep
    have hgrows := TypeStore.grows_of_makes ih
    have htargets := (TypeStore.holdsTargets_of_bindings (h.targets hc)).of_makes ih
    rw [h.types]
    exact ih.trans (TypeStore.ensures_thrownAs_substitute (hst.of_makes ih) htargets
      (hgrows.holds (h.throws hc ty hty))).steps

theorem thrownAs_throwsAtSite (hc : p.Offers c) (hnow : p.Evolves st now)
    (hlater : p.Evolves (p.throwsAtSite c now).2 later) :
    ∃ results, (p.throwsAtSite c now).1 = results.filterMap id ∧
      List.Forall₂ (later.ThrownAs c.substitution) c.callable.throws results := by
  have htargets := TypeStore.holdsTargets_of_bindings (h.targets hc)
  have hmakes := h.makes_of_evolves hst hnow
  have hensures : Ensures TypeStore.Makes False now
      (c.callable.throws.mapM fun ty => p.types.substitute ty c.substitution)
      fun later results =>
        List.Forall₂ (later.ThrownAs c.substitution) c.callable.throws results := by
    rw [h.types]
    refine .mapM_forall₂ (fun mid later _ _ hmid hlater hthrown => ?_) fun ty hty mid hmid => ?_
    · exact hthrown.grows (htargets.of_makes (hmakes.trans hmid)) (TypeStore.grows_of_makes hlater)
    · have hmid := hmakes.trans hmid
      exact TypeStore.ensures_thrownAs_substitute (hst.of_makes hmid) (htargets.of_makes hmid)
        ((TypeStore.grows_of_makes hmid).holds (h.throws hc ty hty))
  refine ⟨_, rfl, hensures.result.imp fun ty result hthrown => ?_⟩
  have hthere : p.Evolves st (p.throwsAtSite c now).2 := hnow.trans (evolving_throwsAtSite hc now)
  have hmoved := h.makes_of_evolves hst hthere
  exact hthrown.grows (htargets.of_makes hmoved) ((h.of_evolves hthere).grows_of_evolves hlater)

/-- What a candidate declares is settled for all types that are there before it is asked. -/
theorem declaresStably (hc : p.Offers c) (hx : st.Holds x) : p.DeclaresStably st c x := by
  intro now later hnow hlater
  have hthere : p.Evolves st later :=
    (hnow.trans (evolving_throwsAtSite hc now)).trans hlater
  obtain ⟨results, hresults, hthrown⟩ := h.thrownAs_throwsAtSite hst hc hnow hlater
  obtain ⟨results', hresults', hthrown'⟩ := h.thrownAs_throwsAtSite hst hc .refl .refl
  have hleft := TypeStore.Outgrows.of_makes hst (h.makes_of_evolves hst hthere)
  have hright := TypeStore.Outgrows.of_makes hst
    (h.makes_of_evolves hst (evolving_throwsAtSite hc st))
  rw [hresults, hresults', declares, declares, h.types]
  exact TypeStore.any_thrownAs_eq h.store hleft hright
    (TypeStore.holdsTargets_of_bindings (h.targets hc)) hx (h.throws hc) hthrown hthrown'

end Grounded

end Program

end CheckedExceptions
