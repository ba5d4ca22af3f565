import CheckedExceptions.Proofs.Subtyping
import Mathlib.Computability.StateTransition

/-! The limits in the subtype relation do no harm: the search for a class is over before its passes
run out, and the limit on nesting only matters to types that are nested deeper than it. -/

namespace CheckedExceptions

open Relation (ReflTransGen)

namespace TypeStore

variable {st : TypeStore} {a b : TypeRef}

theorem reaches_searchWithin (st : TypeStore) (target : TypeRef) (passes : Nat) (s : Search) :
    StateTransition.Reaches (st.pass? target) s (st.searchWithin target passes s) := by
  induction passes generalizing s with
  | zero => exact .refl
  | succ passes ih =>
    rw [searchWithin]
    split
    · next next hnext => exact .head hnext (ih next)
    · exact .refl

/-- The search ends by itself: the bound on its passes is never what stops it. -/
theorem searchWithin_mem_eval (st : TypeStore) (ty target : TypeRef) :
    st.searchWithin target (st.declaredSupertypes + 1) (searchFrom ty) ∈
      StateTransition.eval (st.pass? target) (searchFrom ty) :=
  StateTransition.mem_eval.mpr ⟨st.reaches_searchWithin target _ _,
    pass?_searchWithin target (st.remaining_searchFrom ty).le⟩

/-- The limit on nesting does not matter for types that are nested no deeper than it together. -/
theorem isSubtypeWithin_eq {i j depth more : Nat} (ha : st.nestsWithin i a = true)
    (hb : st.nestsWithin j b = true) (hdepth : i + j < depth) (hmore : depth ≤ more) :
    st.isSubtypeWithin more a b = st.isSubtypeWithin depth a b := by
  refine Bool.eq_iff_iff.mpr ⟨fun h => ?_, isSubtypeWithin_mono hmore⟩
  have hbelow : st.Below a b := ⟨more, h⟩
  exact isSubtypeWithin_mono hdepth (hbelow.within ha hb)

/-- Whatever the types of a store refer to: the search for a class ends, with something left in its
queue exactly if steps from class to supertype lead to the class. A subtype is not lost when more
levels of nesting are followed, and none is gained for types whose depths add up to no more than the
limit. -/
theorem subtyping_within_limits (st : TypeStore) :
    (∀ ty target, ∃ last ∈ StateTransition.eval (st.pass? target) (searchFrom ty),
      st.inherits ty target = (st.isDeclared target && !last.queue.isEmpty)) ∧
    (∀ ty target, st.inherits ty target = true ↔
      st.isDeclared target = true ∧ ReflTransGen st.DirectlyExtends ty target) ∧
    (∀ a b depth more, depth ≤ more → st.isSubtypeWithin depth a b = true →
      st.isSubtypeWithin more a b = true) ∧
    ∀ a b i j, st.nestsWithin i a = true → st.nestsWithin j b = true → i + j ≤ nestingLimit →
      ∀ cutoff ≥ nestingLimit, st.isSubtypeWithin (cutoff + 1) a b = st.isSubtype a b := by
  refine ⟨fun ty target => ⟨_, st.searchWithin_mem_eval ty target, rfl⟩,
    fun _ _ => inherits_iff, fun _ _ _ _ => isSubtypeWithin_mono, ?_⟩
  intro a b i j ha hb hdepth cutoff hcutoff
  exact isSubtypeWithin_eq ha hb (Nat.lt_succ_of_le hdepth) (Nat.succ_le_succ hcutoff)

/-- The classes 5 and 6 extend each other, 5 also a type that is missing, and 6 an instantiation of
2. The parameter 8, the array 9 and the alternatives 10 contain themselves. -/
def knottedStore : TypeStore :=
  let (_, st) := withRoots.declare "Knot" [some 6, none, some 99]
  let (_, st) := st.declare "Loop" [some 5, some 7]
  let (_, st) := st.instantiate (some 2) [some 9]
  let (_, st) := st.typeParam "T" (some 8)
  let (_, st) := st.arrayOf (some 9)
  let (_, st) := st.disjunction [some 10, some 8]
  let (_, st) := st.arrayOf (some 5)
  (st.arrayOf (some 2)).2

theorem knottedStore_within_limits :
    knottedStore.inherits (some 5) (some 2) = true ∧
    ReflTransGen knottedStore.DirectlyExtends (some 5) (some 2) ∧
    (∃ last ∈ StateTransition.eval (knottedStore.pass? (some 3)) (searchFrom (some 5)),
      last.queue = []) ∧
    knottedStore.isSubtype (some 8) (some 2) = false ∧
    ∀ cutoff ≥ 64, knottedStore.isSubtypeWithin (cutoff + 1) (some 11) (some 12) = true := by
  obtain ⟨hends, hreach, -, hlimit⟩ := subtyping_within_limits knottedStore
  have hinherits : knottedStore.inherits (some 5) (some 2) = true := by decide +kernel
  have hsubtype : knottedStore.isSubtype (some 11) (some 12) = true := by decide +kernel
  refine ⟨hinherits, ((hreach _ _).mp hinherits).2, ?_, by decide +kernel, ?_⟩
  · obtain ⟨last, hlast, heq⟩ := hends (some 5) (some 3)
    have hnot : knottedStore.inherits (some 5) (some 3) = false := by decide +kernel
    have hdeclared : knottedStore.isDeclared (some 3) = true := by decide +kernel
    rw [hnot, hdeclared] at heq
    exact ⟨last, hlast, by simpa using heq.symm⟩
  · intro cutoff hcutoff
    rw [hlimit _ _ 1 1 (by decide +kernel) (by decide +kernel) (by decide) cutoff hcutoff, hsubtype]

end TypeStore

end CheckedExceptions
