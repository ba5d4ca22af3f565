import Mathlib.Algebra.BigOperators.Group.Finset.Basic
import Mathlib.Logic.Relation
import CheckedExceptions.Types.Subtyping

/-! The search through declared supertypes ends, and finds what steps from class to supertype lead
to. -/

namespace CheckedExceptions

open Relation (ReflTransGen)

namespace TypeStore

variable {st : TypeStore} {a b ty target : TypeRef} {s next : Search} {passes : Nat}

/-- `b` is the class behind a type that the class `a` is declared to extend. -/
def DirectlyExtends (st : TypeStore) (a b : TypeRef) : Prop :=
  ∃ sup ∈ st.supertypesOf a, st.erase sup = b

theorem directlyExtends_iff : st.DirectlyExtends a b ↔ b ∈ (st.supertypesOf a).map st.erase :=
  List.mem_map.symm

theorem exists_shape?_of_directlyExtends (h : st.DirectlyExtends a b) :
    ∃ shape, st.shape? a = some shape := by
  obtain ⟨sup, hsup, -⟩ := h
  unfold supertypesOf at hsup
  split at hsup
  · next hshape => exact ⟨_, hshape⟩
  · cases hsup

theorem exists_shape?_of_isDeclared (h : st.isDeclared a = true) :
    ∃ shape, st.shape? a = some shape := by
  unfold isDeclared at h
  split at h
  · next hshape => exact ⟨_, hshape⟩
  · cases h

theorem pass?_eq_none_iff :
    st.pass? target s = none ↔ s.queue = [] ∨ ∃ rest, s.queue = target :: rest := by
  unfold pass?
  cases s.queue with
  | nil => simp
  | cons current rest =>
    by_cases hcurrent : current = target
    · simp [hcurrent]
    · by_cases hvisited : current ∈ s.visited <;> simp [hcurrent, hvisited]

theorem pass?_eq_some (h : st.pass? target s = some next) :
    ∃ current rest, s.queue = current :: rest ∧ current ≠ target ∧
      (current ∈ s.visited ∧ next = ⟨s.visited, rest⟩ ∨
        current ∉ s.visited ∧
          next = ⟨current :: s.visited, rest ++ (st.supertypesOf current).map st.erase⟩) := by
  unfold pass? at h
  split at h
  · cases h
  · next current rest hqueue =>
    split at h
    · cases h
    · next hcurrent =>
      refine ⟨current, rest, hqueue, hcurrent, ?_⟩
      split at h
      · next hvisited => exact Or.inl ⟨by simpa using hvisited, (Option.some.inj h).symm⟩
      · next hnew => exact Or.inr ⟨by simpa using hnew, (Option.some.inj h).symm⟩

section Ending

def unlisted (st : TypeStore) (visited : List TypeRef) : Nat :=
  ∑ id ∈ Finset.range st.size with some id ∉ visited, (st.supertypesOf (some id)).length

/-- The number of passes to come, unless the target is found. -/
def remaining (st : TypeStore) (s : Search) : Nat := s.queue.length + st.unlisted s.visited

theorem declaredSupertypes_eq_unlisted (st : TypeStore) :
    st.declaredSupertypes = st.unlisted [] := by
  simp only [unlisted, List.not_mem_nil, not_false_eq_true, Finset.filter_true]
  exact List.foldr_map.symm

theorem supertypesOf_eq_nil {id : TypeId} (h : ¬ id < st.size) :
    st.supertypesOf (some id) = [] := by
  have hnone : st.shapes[id]? = none := Array.getElem?_eq_none (Nat.le_of_not_lt h)
  simp [supertypesOf, shape?, hnone]

theorem unlisted_cons {visited : List TypeRef} (h : ty ∉ visited) :
    st.unlisted (ty :: visited) + (st.supertypesOf ty).length = st.unlisted visited := by
  unfold unlisted
  by_cases hty : ∃ id < st.size, ty = some id
  · obtain ⟨id, hid, rfl⟩ := hty
    have herase : (Finset.range st.size).filter (fun x => some x ∉ some id :: visited) =
        ((Finset.range st.size).filter fun x => some x ∉ visited).erase id := by
      ext x
      simp only [Finset.mem_filter, Finset.mem_erase, List.mem_cons, Option.some.injEq, not_or]
      tauto
    have hmem : id ∈ (Finset.range st.size).filter fun x => some x ∉ visited := by
      simp [hid, h]
    rw [herase, add_comm]
    exact Finset.add_sum_erase _ (fun x => (st.supertypesOf (some x)).length) hmem
  · have hnone : st.supertypesOf ty = [] := by
      cases ty with
      | none => rfl
      | some id => exact supertypesOf_eq_nil fun hid => hty ⟨id, hid, rfl⟩
    rw [hnone, List.length_nil, Nat.add_zero]
    congr 1
    refine Finset.filter_congr fun x hx => ?_
    have hne : some x ≠ ty := fun heq => hty ⟨x, Finset.mem_range.mp hx, heq.symm⟩
    simp [hne]

theorem remaining_pass (h : st.pass? target s = some next) :
    st.remaining next + 1 = st.remaining s := by
  obtain ⟨current, rest, hqueue, -, ⟨-, rfl⟩ | ⟨hnew, rfl⟩⟩ := pass?_eq_some h
  · simp only [remaining, hqueue, List.length_cons]
    omega
  · have hcount := st.unlisted_cons hnew
    simp only [remaining, hqueue, List.length_cons, List.length_append, List.length_map]
    omega

/-- The search is over when it has made as many passes as there were to come. -/
theorem pass?_searchWithin (target : TypeRef) (h : st.remaining s ≤ passes) :
    st.pass? target (st.searchWithin target passes s) = none := by
  induction passes generalizing s with
  | zero =>
    have hqueue : s.queue = [] := List.length_eq_zero_iff.mp (by unfold remaining at h; omega)
    exact pass?_eq_none_iff.mpr (Or.inl hqueue)
  | succ passes ih =>
    rw [searchWithin]
    split
    · next next hnext =>
      have hless := remaining_pass hnext
      exact ih (by omega)
    · next hover => exact hover

theorem remaining_searchFrom (st : TypeStore) (ty : TypeRef) :
    st.remaining (searchFrom ty) = st.declaredSupertypes + 1 := by
  rw [declaredSupertypes_eq_unlisted, add_comm]
  rfl

end Ending

section Reaching

/-- The state of a search from `ty` that has not been at the target: what is in the queue can be
reached, and so far as the search has been anywhere, it has not lost what comes next. -/
structure Explores (st : TypeStore) (ty target : TypeRef) (s : Search) : Prop where
  start : ty ∈ s.visited ∨ ty ∈ s.queue
  missed : target ∉ s.visited
  reached : ∀ a ∈ s.queue, ReflTransGen st.DirectlyExtends ty a
  expanded : ∀ a ∈ s.visited, ∀ b, st.DirectlyExtends a b → b ∈ s.visited ∨ b ∈ s.queue

namespace Explores

theorem searchFrom (st : TypeStore) (ty target : TypeRef) :
    st.Explores ty target (searchFrom ty) where
  start := Or.inr List.mem_cons_self
  missed := List.not_mem_nil
  reached := by
    intro a ha
    rw [List.mem_singleton.mp ha]
  expanded := fun a ha => absurd ha List.not_mem_nil

theorem pass (h : st.Explores ty target s) (hnext : st.pass? target s = some next) :
    st.Explores ty target next := by
  obtain ⟨hstart, hmissed, hreached, hexpanded⟩ := h
  obtain ⟨current, rest, hqueue, hcurrent, ⟨hold, rfl⟩ | ⟨hnew, rfl⟩⟩ := pass?_eq_some hnext
  · rw [hqueue] at hstart hreached hexpanded
    have hdrop : ∀ b, b ∈ s.visited ∨ b ∈ current :: rest → b ∈ s.visited ∨ b ∈ rest := by
      rintro b (hb | hb)
      · exact Or.inl hb
      · rcases List.mem_cons.mp hb with rfl | hb
        · exact Or.inl hold
        · exact Or.inr hb
    exact ⟨hdrop ty hstart, hmissed, fun a ha => hreached a (List.mem_cons_of_mem current ha),
      fun a ha b hb => hdrop b (hexpanded a ha b hb)⟩
  · rw [hqueue] at hstart hreached hexpanded
    have hkeep : ∀ b, b ∈ s.visited ∨ b ∈ current :: rest →
        b ∈ current :: s.visited ∨ b ∈ rest ++ (st.supertypesOf current).map st.erase := by
      rintro b (hb | hb)
      · exact Or.inl (List.mem_cons_of_mem current hb)
      · rcases List.mem_cons.mp hb with rfl | hb
        · exact Or.inl List.mem_cons_self
        · exact Or.inr (List.mem_append_left _ hb)
    refine ⟨hkeep ty hstart, ?_, ?_, ?_⟩
    · exact List.not_mem_cons_of_ne_of_not_mem hcurrent.symm hmissed
    · intro a ha
      rcases List.mem_append.mp ha with ha | ha
      · exact hreached a (List.mem_cons_of_mem current ha)
      · exact (hreached current List.mem_cons_self).tail (directlyExtends_iff.mpr ha)
    · intro a ha b hb
      rcases List.mem_cons.mp ha with rfl | ha
      · exact Or.inr (List.mem_append_right _ (directlyExtends_iff.mp hb))
      · exact hkeep b (hexpanded a ha b hb)

theorem searchWithin (h : st.Explores ty target s) (passes : Nat) :
    st.Explores ty target (st.searchWithin target passes s) := by
  induction passes generalizing s with
  | zero => exact h
  | succ passes ih =>
    rw [TypeStore.searchWithin]
    split
    · next hnext => exact ih (h.pass hnext)
    · exact h

theorem mem_visited (h : st.Explores ty target s) (hqueue : s.queue = [])
    (hext : ReflTransGen st.DirectlyExtends ty a) : a ∈ s.visited := by
  have hall : ∀ b, b ∈ s.visited ∨ b ∈ s.queue → b ∈ s.visited := by
    rintro b (hb | hb)
    · exact hb
    · exact absurd (hqueue ▸ hb) List.not_mem_nil
  induction hext with
  | refl => exact hall ty h.start
  | tail _ hstep ih => exact hall _ (h.expanded _ ih _ hstep)

theorem isEmpty_iff (h : st.Explores ty target s) (hover : st.pass? target s = none) :
    s.queue.isEmpty = false ↔ ReflTransGen st.DirectlyExtends ty target := by
  rcases pass?_eq_none_iff.mp hover with hqueue | ⟨rest, hqueue⟩
  · have hmissed : ¬ ReflTransGen st.DirectlyExtends ty target :=
      fun hext => h.missed (h.mem_visited hqueue hext)
    simp [hqueue, hmissed]
  · have hreached : ReflTransGen st.DirectlyExtends ty target :=
      h.reached target (hqueue ▸ List.mem_cons_self)
    simp [hqueue, hreached]

end Explores

end Reaching

/-- A class inherits from another exactly if steps from class to declared supertype lead to it. -/
theorem inherits_iff : st.inherits a b = true ↔
    st.isDeclared b = true ∧ ReflTransGen st.DirectlyExtends a b := by
  have hstate := (Explores.searchFrom st a b).searchWithin (st.declaredSupertypes + 1)
  have hover := pass?_searchWithin b (st.remaining_searchFrom a).le
  rw [inherits, Bool.and_eq_true, Bool.not_eq_true', hstate.isEmpty_iff hover]

theorem inherits_trans {c : TypeRef} (hab : st.inherits a b = true)
    (hbc : st.inherits b c = true) : st.inherits a c = true := by
  obtain ⟨-, hlower⟩ := inherits_iff.mp hab
  obtain ⟨hdeclared, hupper⟩ := inherits_iff.mp hbc
  exact inherits_iff.mpr ⟨hdeclared, hlower.trans hupper⟩

end TypeStore

end CheckedExceptions
