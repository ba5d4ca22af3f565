import CheckedExceptions.Proofs.Interning

/-! What a substitution makes of a type, described in terms of a store that holds all the parts of
the result. The description fits one id only, which the substitution finds or makes. -/

namespace CheckedExceptions

open Relation (ReflTransGen)

namespace Shape

def mapComponents (f : TypeRef → TypeRef) : Shape → Shape
  | instantiation origin args => instantiation origin (args.map f)
  | array elem => array (f elem)
  | disjunction alternatives => disjunction (alternatives.map f)
  | shape => shape

theorem components_mapComponents (f : TypeRef → TypeRef) (shape : Shape) :
    (shape.mapComponents f).components = shape.components.map f := by
  cases shape <;> rfl

theorem isStructural_mapComponents (f : TypeRef → TypeRef) (shape : Shape) :
    (shape.mapComponents f).isStructural = shape.isStructural := by
  cases shape <;> rfl

theorem mapComponents_mapComponents (f g : TypeRef → TypeRef) (shape : Shape) :
    (shape.mapComponents f).mapComponents g = shape.mapComponents (g ∘ f) := by
  cases shape <;> simp [mapComponents]

theorem mapComponents_id (shape : Shape) : shape.mapComponents id = shape := by
  cases shape <;> simp [mapComponents]

end Shape

namespace TypeStore

variable {st later : TypeStore} {ty result a b : TypeRef} {shape : Shape} {s : Substitution}
  {f : TypeRef → TypeRef}

/-- The store holds each structural type once, and components before their whole. -/
structure Canonical (st : TypeStore) : Prop where
  indexed : st.Indexed
  descending : st.Descending

inductive Makes (st : TypeStore) : TypeStore → Prop
  | enter {shape : Shape} : shape.isStructural = true → (∀ ty, shape ≠ .disjunction [ty]) →
      st.find? shape = none → (∀ part ∈ shape.components, st.Holds part) →
      Makes st (st.enter shape).2

theorem grows_of_makes (h : ReflTransGen Makes st later) : st.Grows later := by
  refine ReflTransGen.mono ?_ st later h
  rintro st _ ⟨-, -, hnone, -⟩
  exact ⟨_, hnone, rfl⟩

theorem Canonical.of_makes (hst : st.Canonical) (h : ReflTransGen Makes st later) :
    later.Canonical := by
  induction h with
  | refl => exact hst
  | tail _ hstep ih =>
    obtain ⟨hstructural, hplural, hnone, hparts⟩ := hstep
    exact ⟨ih.indexed.step (.enter hstructural hplural hnone), ih.descending.enter hparts⟩

def HoldsTargets (st : TypeStore) (s : Substitution) : Prop :=
  ∀ param target, s.get? param = some target → st.Holds target

theorem holdsTargets_of_bindings (h : ∀ b ∈ s.bindings, st.Holds b.2) : st.HoldsTargets s :=
  fun _ _ htarget => h _ (Substitution.mem_bindings htarget)

theorem HoldsTargets.of_makes (h : st.HoldsTargets s) (hsteps : ReflTransGen Makes st later) :
    later.HoldsTargets s :=
  fun param target htarget => (grows_of_makes hsteps).holds (h param target htarget)

/-- The store holds all that `s` makes of `ty`, and `result` is the id of it. -/
inductive Image (st : TypeStore) (s : Substitution) : (ty result : TypeRef) → Prop
  | empty : Image st s none none
  | declared {ty : TypeRef} {name supertypes params} :
      st.shape? ty = some (.declared name supertypes params) → Image st s ty ty
  | param {ty : TypeRef} {name bound} : st.shape? ty = some (.typeParam name bound) →
      Image st s ty ((s.get? ty).getD ty)
  | whole {ty result : TypeRef} {shape : Shape} (f : TypeRef → TypeRef) :
      st.shape? ty = some shape → shape.isStructural = true →
      (∀ part ∈ shape.components, Image st s part (f part)) →
      st.shape? result = some (shape.mapComponents f) → Image st s ty result

namespace Image

theorem grows (h : st.Image s ty result) (hgrows : st.Grows later) : later.Image s ty result := by
  induction h with
  | empty => exact .empty
  | declared hshape => exact .declared (hgrows.shape hshape)
  | param hshape => exact .param (hgrows.shape hshape)
  | whole f hshape hstructural _ hresult ih =>
    exact .whole f (hgrows.shape hshape) hstructural ih (hgrows.shape hresult)

theorem holds (h : st.Image s ty result) : st.Holds ty := by
  cases h with
  | empty => exact fun id hid => nomatch hid
  | declared hshape => exact holds_of_shape? hshape
  | param hshape => exact holds_of_shape? hshape
  | whole _ hshape => exact holds_of_shape? hshape

theorem holds_result (h : st.Image s ty result) (htargets : st.HoldsTargets s) :
    st.Holds result := by
  cases h with
  | empty => exact fun id hid => nomatch hid
  | declared hshape => exact holds_of_shape? hshape
  | param hshape =>
    cases htarget : s.get? ty with
    | none => exact holds_of_shape? hshape
    | some target => exact htargets ty target htarget
  | whole _ _ _ _ hresult => exact holds_of_shape? hresult

theorem exists_map (h : st.Image s ty result) (hshape : st.shape? ty = some shape)
    (hstructural : shape.isStructural = true) :
    ∃ f : TypeRef → TypeRef, (∀ part ∈ shape.components, st.Image s part (f part)) ∧
      st.shape? result = some (shape.mapComponents f) := by
  cases h with
  | empty => cases hshape
  | declared hother | param hother =>
    obtain rfl := shape?_unique hshape hother
    cases hstructural
  | whole f hother _ himages hresult =>
    obtain rfl := shape?_unique hshape hother
    exact ⟨f, himages, hresult⟩

end Image

section Unfolding

/-- What holds of a type whenever it holds of the components holds of all types. -/
@[elab_as_elim]
theorem Descending.induction {motive : TypeRef → Prop} (hst : st.Descending) (hty : st.Holds ty)
    (hstep : ∀ ty, st.Holds ty → (∀ shape, st.shape? ty = some shape →
      ∀ part ∈ shape.components, motive part) → motive ty) : motive ty := by
  have hnone : motive none :=
    hstep none (fun id hid => nomatch hid) fun shape hshape => nomatch hshape
  cases ty with
  | none => exact hnone
  | some id =>
    induction id using Nat.strong_induction_on with
    | _ id ih =>
      refine hstep _ hty fun shape hshape part hpart => ?_
      cases part with
      | none => exact hnone
      | some less =>
        obtain ⟨hless, hheld⟩ := hst.component hshape hpart
        exact ih less hless hheld

/-- Where components come before their whole, a substitution is applied to a type by applying it to
the components. -/
theorem Descending.apply_eq (hst : st.Descending) (hty : st.Holds ty) (s : Substitution) :
    apply s ty st = applyStep s (apply s) ty st := by
  have happly : ∀ later part, st.Grows later → st.Holds part → apply s part later =
      applyBelow s pure ((part.map Nat.succ).getD 0) part later :=
    fun later part hgrows hpart => hst.applyWithin_eq hgrows hpart s _
  rw [happly st ty .refl hty]
  cases ty with
  | none => rfl
  | some id =>
    refine applyStep_eq fun shape hshape part hpart mid hmid => ?_
    cases part with
    | none => exact ⟨.refl, rfl⟩
    | some less =>
      obtain ⟨hless, hheld⟩ := hst.component hshape hpart
      have hbelow : applyBelow s pure id (some less) mid = apply s (some less) mid := by
        rw [happly mid _ hmid hheld]
        exact hst.applyBelow_eq hmid hheld rfl fun k hk => Option.some.inj hk ▸ hless
      have hprecedes : precedes (some less) (some id) = true := decide_eq_true hless
      rw [if_pos hprecedes]
      exact ⟨applyBelow_moves (fun st shape _ _ => st.intern_grows shape) s .pure _ _ mid, hbelow⟩

theorem disjunction_eq_intern {alternatives : List TypeRef} (h : ∀ ty, alternatives ≠ [ty])
    (st : TypeStore) :
    st.disjunction alternatives = (some (st.intern (.disjunction alternatives)).1,
      (st.intern (.disjunction alternatives)).2) := by
  unfold disjunction
  split
  · next single => exact absurd rfl (h single)
  · rfl

theorem Indexed.intern_eq (hst : st.Indexed) (hstructural : shape.isStructural = true)
    (h : st.shape? result = some shape) :
    (some (st.intern shape).1, (st.intern shape).2) = (result, st) := by
  obtain ⟨id, rfl, -⟩ := Option.bind_eq_some_iff.mp h
  rw [intern, (hst.structural shape id).mpr ⟨hstructural, h⟩]

end Unfolding

section Found

theorem Indexed.plural_map (hst : st.Indexed) {alternatives : List TypeRef}
    (hshape : st.shape? ty = some (.disjunction alternatives)) (f : TypeRef → TypeRef) :
    ∀ single, alternatives.map f ≠ [single] := by
  obtain ⟨id, rfl, -⟩ := Option.bind_eq_some_iff.mp hshape
  intro single hmap
  obtain ⟨only, rfl⟩ := List.length_eq_one_iff.mp (by simpa using congrArg List.length hmap)
  exact hst.plural id only hshape

/-- If the parts are there and the whole made of them is, too, then it is found. -/
theorem Indexed.applyStep_eq (hst : st.Indexed) {part : TypeRef → StateM TypeStore TypeRef}
    (hshape : st.shape? ty = some shape) (hstructural : shape.isStructural = true)
    (hparts : ∀ a ∈ shape.components, part a st = (f a, st))
    (hresult : st.shape? result = some (shape.mapComponents f)) :
    applyStep s part ty st = (result, st) := by
  have hsame : shape.mapComponents f = shape → ty = result := by
    intro hmap
    rw [hmap] at hresult
    obtain ⟨i, rfl, -⟩ := Option.bind_eq_some_iff.mp hshape
    obtain ⟨j, rfl, -⟩ := Option.bind_eq_some_iff.mp hresult
    exact congrArg some (hst.eq_of_structural hstructural hshape hresult)
  have hmapM : shape.components.mapM part st = (shape.components.map f, st) := by
    rw [mapM_of_unchanged fun a ha => by rw [hparts a ha]]
    rw [List.map_congr_left fun a ha => by rw [hparts a ha]]
  have hfound := hst.intern_eq ((shape.isStructural_mapComponents f).trans hstructural) hresult
  unfold applyStep
  rw [get_bind_apply, hshape]
  cases shape with
  | declared | typeParam => cases hstructural
  | primitive =>
    rw [← hsame rfl]
    rfl
  | instantiation origin args =>
    refine (bind_apply_of_eq hmapM _).trans ?_
    split
    · next hargs => rw [← hsame (congrArg (Shape.instantiation origin) hargs)]; rfl
    · exact hfound
  | array elem =>
    refine (bind_apply_of_eq (hparts elem List.mem_cons_self) _).trans ?_
    split
    · next helem => rw [← hsame (congrArg Shape.array helem)]; rfl
    · exact hfound
  | disjunction alternatives =>
    refine (bind_apply_of_eq hmapM _).trans ?_
    split
    · next halternatives => rw [← hsame (congrArg Shape.disjunction halternatives)]; rfl
    · exact (disjunction_eq_intern (hst.plural_map hshape f) st).trans hfound

/-- A substitution finds the image of a type, and adds nothing to a store that holds it. -/
theorem Image.apply_eq (h : st.Image s ty result) (hst : st.Canonical) :
    apply s ty st = (result, st) := by
  have hholds := h.holds
  rw [hst.descending.apply_eq hholds]
  induction h with
  | empty => rfl
  | declared hshape | param hshape =>
    unfold applyStep
    rw [get_bind_apply, hshape]
    rfl
  | whole f hshape hstructural hparts hresult ih =>
    refine hst.indexed.applyStep_eq hshape hstructural (fun part hpart => ?_) hresult
    have hheld := (hparts part hpart).holds
    rw [hst.descending.apply_eq hheld, ih part hpart hheld]

theorem Image.unique (ha : st.Image s ty a) (hb : st.Image s ty b) (hst : st.Canonical) : a = b :=
  congrArg Prod.fst ((ha.apply_eq hst).symm.trans (hb.apply_eq hst))

end Found

section Made

/-- Equal parts have equal images, so that the images of a list of parts are those of a function. -/
theorem exists_map_of_images (hst : st.Canonical) {parts replaced : List TypeRef}
    (h : List.Forall₂ (st.Image s) parts replaced) :
    ∃ f : TypeRef → TypeRef, replaced = parts.map f ∧ ∀ part ∈ parts, st.Image s part (f part) := by
  refine ⟨fun part => (apply s part st).1, ?_⟩
  induction h with
  | nil => exact ⟨rfl, fun part hpart => absurd hpart List.not_mem_nil⟩
  | @cons part image _ _ himage _ ih =>
    have hfound : (apply s part st).1 = image := congrArg Prod.fst (himage.apply_eq hst)
    refine ⟨?_, List.forall_mem_cons.mpr ⟨?_, ih.2⟩⟩
    · rw [List.map_cons, hfound, ← ih.1]
    · simpa only [hfound] using himage

theorem Indexed.plural_mapComponents (hst : st.Indexed) (hshape : st.shape? ty = some shape)
    (f : TypeRef → TypeRef) : ∀ single, shape.mapComponents f ≠ .disjunction [single] := by
  intro single hmap
  cases shape with
  | disjunction alternatives =>
    exact hst.plural_map hshape f single (Shape.disjunction.inj hmap)
  | _ => cases hmap

theorem intern_makes (hstructural : shape.isStructural = true)
    (hplural : ∀ single, shape ≠ .disjunction [single])
    (hparts : ∀ part ∈ shape.components, st.Holds part) :
    ReflTransGen Makes st (st.intern shape).2 := by
  unfold intern
  split
  · exact .refl
  · next hnone =>
    exact .single (.enter hstructural hplural hnone hparts)

variable (hst : st.Canonical) (htargets : st.HoldsTargets s)
include hst htargets

/-- From the images of the components comes the image of the whole, if the whole is kept where all
of its components are and the shape with the images is interned otherwise. -/
theorem ensures_image_whole {m : StateM TypeStore TypeRef} {replaced : List TypeRef}
    (hshape : st.shape? ty = some shape) (hstructural : shape.isStructural = true)
    (hreplaced : List.Forall₂ (st.Image s) shape.components replaced)
    (hm : ∀ f, replaced = shape.components.map f →
      shape.mapComponents f = shape ∧ m st = (ty, st) ∨
      m st = (some (st.intern (shape.mapComponents f)).1, (st.intern (shape.mapComponents f)).2)) :
    Ensures Makes False st m fun later result => later.Image s ty result := by
  obtain ⟨f, hf, himages⟩ := exists_map_of_images hst hreplaced
  rcases hm f hf with ⟨hmap, hm⟩ | hm
  · have himage : st.Image s ty ty := .whole f hshape hstructural himages (hmap.symm ▸ hshape)
    exact .of_run_eq hm (.pure himage)
  · have hmapped := (shape.isStructural_mapComponents f).trans hstructural
    have hparts : ∀ part ∈ (shape.mapComponents f).components, st.Holds part := by
      intro part hpart
      rw [Shape.components_mapComponents] at hpart
      obtain ⟨a, ha, rfl⟩ := List.mem_map.mp hpart
      exact (himages a ha).holds_result htargets
    have hsteps := intern_makes hmapped (hst.indexed.plural_mapComponents hshape f) hparts
    have hgrows := grows_of_makes hsteps
    have hlater := (hst.of_makes hsteps).indexed
    have hmade := ((hlater.structural _ _).mp (st.find?_intern _)).2
    refine ⟨?_, ?_, False.elim⟩
    · rw [hm]
      exact hsteps
    · rw [hm]
      exact .whole f (hgrows.shape hshape) hstructural
        (fun part hpart => (himages part hpart).grows hgrows) hmade

theorem ensures_image_applyStep {part : TypeRef → StateM TypeStore TypeRef} (hty : st.Holds ty)
    (hpart : ∀ shape, st.shape? ty = some shape → ∀ a ∈ shape.components, ∀ mid,
      ReflTransGen Makes st mid →
        Ensures Makes False mid (part a) fun later result => later.Image s a result) :
    Ensures Makes False st (applyStep s part ty) fun later result => later.Image s ty result := by
  have hparts : ∀ shape, st.shape? ty = some shape →
      Ensures Makes False st (shape.components.mapM part) fun later replaced =>
        List.Forall₂ (later.Image s) shape.components replaced := by
    intro shape hshape
    refine .mapM_forall₂ (fun mid later a b _ hlater himage => ?_) (hpart shape hshape)
    exact himage.grows (grows_of_makes hlater)
  refine .get_bind ?_ False.elim
  split
  · next hshape => exact .pure (.param hshape)
  · next origin args hshape =>
    refine .bind (hparts _ hshape) fun replaced mid hmid hreplaced => ?_
    refine ensures_image_whole (hst.of_makes hmid) (htargets.of_makes hmid)
      ((grows_of_makes hmid).shape hshape) rfl hreplaced ?_
    rintro f rfl
    split
    · next hargs => exact Or.inl ⟨congrArg (Shape.instantiation origin) hargs, rfl⟩
    · exact Or.inr rfl
  · next elem hshape =>
    have helem := hpart _ hshape elem List.mem_cons_self st .refl
    refine .bind helem fun replaced mid hmid himage => ?_
    refine ensures_image_whole (hst.of_makes hmid) (htargets.of_makes hmid)
      ((grows_of_makes hmid).shape hshape) rfl (.cons himage .nil) ?_
    intro f hf
    obtain rfl : replaced = f elem := by simpa [Shape.components] using hf
    split
    · next helem => exact Or.inl ⟨congrArg Shape.array helem, rfl⟩
    · exact Or.inr rfl
  · next alternatives hshape =>
    refine .bind (hparts _ hshape) fun replaced mid hmid hreplaced => ?_
    refine ensures_image_whole (hst.of_makes hmid) (htargets.of_makes hmid)
      ((grows_of_makes hmid).shape hshape) rfl hreplaced ?_
    rintro f rfl
    split
    · next hargs => exact Or.inl ⟨congrArg Shape.disjunction hargs, rfl⟩
    · exact Or.inr (disjunction_eq_intern (hst.indexed.plural_map hshape f) mid)
  · next hparam hinstantiation harray hdisjunction =>
    refine .pure ?_
    cases hshape : st.shape? ty with
    | none =>
      obtain rfl := eq_none_of_shape? hty hshape
      exact .empty
    | some shape =>
      cases shape with
      | declared => exact .declared hshape
      | primitive name =>
        exact .whole id hshape rfl (fun part hpart => absurd hpart List.not_mem_nil) hshape
      | typeParam name bound => exact absurd hshape (hparam name bound)
      | instantiation origin args => exact absurd hshape (hinstantiation origin args)
      | array elem => exact absurd hshape (harray elem)
      | disjunction alternatives => exact absurd hshape (hdisjunction alternatives)

theorem ensures_image_apply (hty : st.Holds ty) :
    Ensures Makes False st (apply s ty) fun later result => later.Image s ty result := by
  have hall : ∀ now, ReflTransGen Makes st now →
      Ensures Makes False now (apply s ty) fun later result => later.Image s ty result := by
    refine hst.descending.induction hty ?_
    intro ty hty ih now hnow
    have hgrows := grows_of_makes hnow
    have hcanonical := hst.of_makes hnow
    refine .of_run_eq (hcanonical.descending.apply_eq (hgrows.holds hty) s) ?_
    refine ensures_image_applyStep hcanonical (htargets.of_makes hnow) (hgrows.holds hty) ?_
    intro shape hshape part hpart mid hmid
    rw [hgrows.shape?_eq hty] at hshape
    exact ih shape hshape part hpart mid (hnow.trans hmid)
  exact hall st .refl

end Made

end TypeStore

end CheckedExceptions
