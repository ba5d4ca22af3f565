import CheckedExceptions.Proofs.Subtyping
import CheckedExceptions.Types.System

/-! Actions that change their state by steps of one kind. In a store of types the steps of a
substitution append types, and no subtype relation is lost by that. -/

namespace CheckedExceptions

open Relation (ReflTransGen)

theorem get_bind_apply {σ α : Type} (f : σ → StateM σ α) (st : σ) : (get >>= f) st = f st st :=
  rfl

theorem bind_apply_of_eq {σ α β : Type} {m : StateM σ α} {st next : σ} {a : α} (h : m st = (a, next))
    (f : α → StateM σ β) : (m >>= f) st = f a next :=
  congrArg (fun run : α × σ => f run.1 run.2) h

def Moves {σ α : Type} (step : σ → σ → Prop) (m : StateM σ α) : Prop :=
  ∀ st, ReflTransGen step st (m st).2

namespace Moves

variable {σ α β : Type} {step : σ → σ → Prop}

theorem pure (a : α) : Moves step (pure a) := fun _ => .refl

theorem get : Moves step (get : StateM σ σ) := fun _ => .refl

theorem bind {m : StateM σ α} {f : α → StateM σ β} (hm : Moves step m)
    (hf : ∀ a, Moves step (f a)) : Moves step (m >>= f) :=
  fun st => (hm st).trans (hf (m st).1 (m st).2)

theorem map {m : StateM σ α} (hm : Moves step m) (f : α → β) : Moves step (f <$> m) :=
  fun st => hm st

theorem mapM {f : α → StateM σ β} {l : List α} (h : ∀ a ∈ l, Moves step (f a)) :
    Moves step (l.mapM f) := by
  induction l with
  | nil => exact pure []
  | cons a l ih =>
    rw [List.mapM_cons]
    refine bind (h a List.mem_cons_self) fun b => ?_
    exact bind (ih fun x hx => h x (List.mem_cons_of_mem a hx)) fun bs => pure (b :: bs)

theorem foldlM {f : β → α → StateM σ β} (h : ∀ b a, Moves step (f b a)) (l : List α) (b : β) :
    Moves step (l.foldlM f b) := by
  induction l generalizing b with
  | nil => exact pure b
  | cons a l ih =>
    rw [List.foldlM_cons]
    exact bind (h b a) ih

end Moves

namespace TypeStore

variable {st st' : TypeStore} {a b : TypeRef}

section Entering

variable {id : TypeId} {shape new : Shape}

theorem shape?_push_iff : (st.push new).2.shape? (some id) = some shape ↔
    st.shape? (some id) = some shape ∨ (id = st.size ∧ shape = new) := by
  show (st.shapes.push new)[id]? = some shape ↔ st.shapes[id]? = some shape ∨ _
  rw [Array.getElem?_push]
  by_cases hid : id = st.shapes.size
  · simp [hid, size, eq_comm]
  · simp [hid, size]

theorem find?_enter (st : TypeStore) (new shape : Shape) :
    (st.enter new).2.find? shape = if shape = new then some st.size else st.find? shape := by
  show ((new, st.size) :: st.interned).lookup shape = _
  rw [List.lookup_cons]
  by_cases h : shape = new
  · rw [if_pos h, beq_iff_eq.mpr h]
  · rw [if_neg h, beq_eq_false_iff_ne.mpr h]
    rfl

theorem find?_intern (st : TypeStore) (shape : Shape) :
    (st.intern shape).2.find? shape = some (st.intern shape).1 := by
  unfold intern
  cases hfind : st.find? shape with
  | some id => exact hfind
  | none => exact (st.find?_enter shape shape).trans (if_pos rfl)

end Entering

/-- A type is entered that the index did not lead to. -/
def Appends (st st' : TypeStore) : Prop := ∃ shape, st.find? shape = none ∧ st' = (st.enter shape).2

def Grows : TypeStore → TypeStore → Prop := ReflTransGen Appends

theorem intern_grows (st : TypeStore) (shape : Shape) : st.Grows (st.intern shape).2 := by
  unfold intern
  split
  · exact .refl
  · next hnone => exact .single ⟨shape, hnone, rfl⟩

theorem substitute_snd (ty : TypeRef) (s : Substitution) (st : TypeStore) : (substitute ty s st).2 =
    ((if s.isEmpty then pure ty else apply s ty : StateM TypeStore TypeRef) st).2 := by
  have hrest : ∀ (m : StateM TypeStore TypeRef) (f : TypeRef → StateM TypeStore (Option TypeRef)),
      (∀ result st, (f result st).2 = st) → ((m >>= f) st).2 = (m st).2 :=
    fun m f hf => hf _ _
  unfold substitute
  cases s.isEmpty
  all_goals
    apply hrest _ _
    intro result st
    beta_reduce
    rw [get_bind_apply]
    cases st.shape? result <;> rfl

section Substituting

variable {step : TypeStore → TypeStore → Prop}
  (hintern : ∀ st shape, shape.isStructural = true → (∀ ty, shape ≠ .disjunction [ty]) →
    ReflTransGen step st (st.intern shape).2)
include hintern

theorem disjunction_moves (st : TypeStore) (alternatives : List TypeRef) :
    ReflTransGen step st (st.disjunction alternatives).2 := by
  unfold disjunction
  split
  · exact .refl
  · next hplural =>
    refine hintern st (.disjunction alternatives) rfl fun ty heq => ?_
    exact hplural ty (Shape.disjunction.inj heq)

theorem applyStep_moves (s : Substitution) {part : TypeRef → StateM TypeStore TypeRef}
    (h : ∀ ty, Moves step (part ty)) (ty : TypeRef) : Moves step (applyStep s part ty) := by
  refine .bind .get fun st => ?_
  split
  · exact .pure _
  · refine .bind (.mapM fun arg _ => h arg) fun replaced => ?_
    split
    · exact .pure _
    · exact fun st => hintern st _ rfl (by simp)
  · refine .bind (h _) fun replaced => ?_
    split
    · exact .pure _
    · exact fun st => hintern st _ rfl (by simp)
  · refine .bind (.mapM fun alternative _ => h alternative) fun replaced => ?_
    split
    · exact .pure _
    · exact fun st => disjunction_moves hintern st _
  · exact .pure _

theorem applyBelow_moves (s : Substitution) {ahead : TypeRef → StateM TypeStore TypeRef}
    (h : ∀ ty, Moves step (ahead ty)) (bound : Nat) (ty : TypeRef) :
    Moves step (applyBelow s ahead bound ty) := by
  induction bound generalizing ty with
  | zero => exact .pure ty
  | succ bound ih =>
    refine applyStep_moves hintern s (fun part => ?_) ty
    split
    · exact ih part
    · exact h part

theorem applyWithin_moves (s : Substitution) (leaps : Nat) (ty : TypeRef) :
    Moves step (applyWithin s leaps ty) := by
  induction leaps generalizing ty with
  | zero => exact .pure ty
  | succ leaps ih => exact applyBelow_moves hintern s ih _ ty

/-- A substitution does nothing to the store but intern types. -/
theorem substitute_moves_of_intern (ty : TypeRef) (s : Substitution) :
    Moves step (substitute ty s) := by
  intro st
  rw [substitute_snd]
  split
  · exact .refl
  · exact Moves.bind .get (fun st => applyWithin_moves hintern s _ ty) st

end Substituting

/-- A substitution appends types and leaves what is there as it is. -/
theorem substitute_moves (ty : TypeRef) (s : Substitution) : Moves Appends (substitute ty s) :=
  substitute_moves_of_intern (fun st shape _ _ => st.intern_grows shape) ty s

theorem substitute_snd_of_isEmpty {s : Substitution} (h : s.isEmpty = true) (ty : TypeRef)
    (st : TypeStore) : (substitute ty s st).2 = st := by
  rw [substitute_snd, if_pos h]
  rfl

theorem substitute_snd_of_typeParam {ty bound : TypeRef} {name : String}
    (h : st.shape? ty = some (.typeParam name bound)) (s : Substitution) :
    (substitute ty s st).2 = st := by
  have hstep : ∀ part, (applyStep s part ty st).2 = st := by
    intro part
    unfold applyStep
    rw [get_bind_apply, h]
    rfl
  cases ty with
  | none => cases h
  | some id =>
    rw [substitute_snd]
    split
    · rfl
    · exact hstep _

namespace Grows

theorem wellKnown (h : st.Grows st') : st'.wellKnown? = st.wellKnown? := by
  induction h with
  | refl => rfl
  | tail _ hstep ih =>
    obtain ⟨shape, -, rfl⟩ := hstep
    exact ih

theorem shape (h : st.Grows st') {ty : TypeRef} {shape : Shape} (hty : st.shape? ty = some shape) :
    st'.shape? ty = some shape := by
  induction h with
  | refl => exact hty
  | tail _ hstep ih =>
    obtain ⟨new, -, rfl⟩ := hstep
    obtain ⟨id, rfl, -⟩ := Option.bind_eq_some_iff.mp ih
    exact shape?_push_iff.mpr (Or.inl ih)

theorem find? (h : st.Grows st') {shape : Shape} {id : TypeId}
    (hfind : st.find? shape = some id) : st'.find? shape = some id := by
  induction h with
  | refl => exact hfind
  | @tail mid _ _ hstep ih =>
    obtain ⟨new, hnone, rfl⟩ := hstep
    have hne : shape ≠ new := by
      rintro rfl
      rw [ih] at hnone
      cases hnone
    rw [find?_enter, if_neg hne, ih]

theorem isTop (h : st.Grows st') (ty : TypeRef) : st'.isTop ty = st.isTop ty := by
  simp [TypeStore.isTop, h.wellKnown]

theorem erase (h : st.Grows st') {ty : TypeRef} {shape : Shape} (hty : st.shape? ty = some shape) :
    st'.erase ty = st.erase ty := by
  simp [TypeStore.erase, hty, h.shape hty]

theorem isDeclared (h : st.Grows st') {ty : TypeRef} (hty : st.isDeclared ty = true) :
    st'.isDeclared ty = true := by
  unfold TypeStore.isDeclared at hty
  split at hty
  · next hshape => simp [TypeStore.isDeclared, h.shape hshape]
  · cases hty

theorem supertypesOf (h : st.Grows st') {ty : TypeRef} (hty : ty ∈ st.supertypesOf a) :
    ty ∈ st'.supertypesOf a := by
  unfold TypeStore.supertypesOf at hty
  split at hty
  · next hshape => simpa [TypeStore.supertypesOf, h.shape hshape] using hty
  · cases hty

/-- A step up to a type that exists stays one. The supertype behind it exists as well, so it does
not come to stand for another class. -/
theorem directlyExtends (h : st.Grows st') {shape : Shape} (hb : st.shape? b = some shape)
    (hext : st.DirectlyExtends a b) : st'.DirectlyExtends a b := by
  obtain ⟨sup, hsup, rfl⟩ := hext
  refine ⟨sup, h.supertypesOf hsup, ?_⟩
  cases hshape : st.shape? sup with
  | some shape => exact h.erase hshape
  | none => simp [TypeStore.erase, hshape] at hb

theorem extends_trans (h : st.Grows st') {shape : Shape} (hb : st.shape? b = some shape)
    (hext : ReflTransGen st.DirectlyExtends a b) : ReflTransGen st'.DirectlyExtends a b := by
  induction hext generalizing shape with
  | refl => exact .refl
  | @tail mid b _ hstep ih =>
    obtain ⟨mid', hmid⟩ := exists_shape?_of_directlyExtends hstep
    exact .tail (ih hmid) (h.directlyExtends hb hstep)

theorem inherits (h : st.Grows st') (hab : st.inherits a b = true) : st'.inherits a b = true := by
  obtain ⟨hdeclared, hext⟩ := inherits_iff.mp hab
  obtain ⟨shape, hshape⟩ := exists_shape?_of_isDeclared hdeclared
  exact inherits_iff.mpr ⟨h.isDeclared hdeclared, h.extends_trans hshape hext⟩

theorem level (h : st.Grows st') {rel rel' : TypeRef → TypeRef → Prop}
    (hrel : ∀ x y, rel x y → rel' x y) (hlevel : st.Level rel a b) : st'.Level rel' a b := by
  cases hlevel with
  | left ha hb hall => exact .left (h.shape ha) (h.shape hb) fun ty hty => hrel _ _ (hall ty hty)
  | right ha hplain hb hty hr => exact .right (h.shape ha) hplain (h.shape hb) hty (hrel _ _ hr)
  | bound ha hb hplain hr => exact .bound (h.shape ha) (h.shape hb) hplain (hrel _ _ hr)
  | array ha hb hr => exact .array (h.shape ha) (h.shape hb) (hrel _ _ hr)
  | top ha hb hplain hunder htop =>
    exact .top (h.shape ha) (h.shape hb) hplain hunder (by rw [h.isTop, htop])
  | inherits ha hnominal hb hplain hr =>
    refine .inherits (h.shape ha) hnominal (h.shape hb) hplain ?_
    rw [h.erase ha, h.erase hb]
    exact h.inherits hr

theorem isSubtypeWithin (h : st.Grows st') {depth : Nat}
    (hab : st.isSubtypeWithin depth a b = true) : st'.isSubtypeWithin depth a b = true := by
  induction depth generalizing a b with
  | zero => exact hab
  | succ depth ih =>
    rcases isSubtypeWithin_succ.mp hab with rfl | hlevel
    · exact isSubtypeWithin_succ.mpr (Or.inl rfl)
    · exact isSubtypeWithin_succ.mpr (Or.inr (h.level (fun x y => ih) hlevel))

theorem isSubtype (h : st.Grows st') (hab : st.isSubtype a b = true) : st'.isSubtype a b = true :=
  h.isSubtypeWithin hab

end Grows

end TypeStore

end CheckedExceptions
