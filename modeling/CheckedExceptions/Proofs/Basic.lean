import Mathlib.Data.List.Nodup
import Mathlib.Data.List.Range
import Mathlib.Order.WellFounded

/-! Facts about lists and about relations without cycles. -/

namespace CheckedExceptions

open Relation (TransGen)

section Lists

variable {α : Type} {l : List α} {a b : α}

theorem any_congr_of_mem {f g : α → Bool} (h : ∀ a ∈ l, f a = g a) :
    l.any f = l.any g := by
  have hmap : l.map f = l.map g := List.map_congr_left h
  simpa using congrArg (List.any · id) hmap

theorem all_congr_of_mem {f g : α → Bool} (h : ∀ a ∈ l, f a = g a) :
    l.all f = l.all g := by
  have hmap : l.map f = l.map g := List.map_congr_left h
  simpa using congrArg (List.all · id) hmap

theorem nodup_eraseDups [BEq α] [LawfulBEq α] (l : List α) : l.eraseDups.Nodup := by
  induction hlength : l.length using Nat.strongRecOn generalizing l with
  | ind n ih =>
    cases l with
    | nil => exact List.nodup_nil
    | cons a l =>
      rw [List.eraseDups_cons]
      have hshorter : (l.filter fun b => !b == a).length < n :=
        hlength ▸ Nat.lt_succ_of_le (List.length_filter_le _ _)
      refine List.nodup_cons.mpr ⟨fun hmem => ?_, ih _ hshorter _ rfl⟩
      simpa using (List.mem_filter.mp (List.mem_eraseDups.mp hmem)).2

theorem pair_sublist_cons {x : α} : [a, b].Sublist (x :: l) ↔
    [a, b].Sublist l ∨ (a = x ∧ b ∈ l) := by
  rw [List.sublist_cons_iff]
  simp [List.singleton_sublist]

theorem pair_sublist_or (ha : a ∈ l) (hb : b ∈ l) (hne : a ≠ b) :
    [a, b].Sublist l ∨ [b, a].Sublist l := by
  induction l with
  | nil => exact absurd ha List.not_mem_nil
  | cons x l ih =>
    rw [pair_sublist_cons, pair_sublist_cons]
    rcases List.mem_cons.mp ha with rfl | hal
    · exact Or.inl (Or.inr ⟨rfl, List.mem_of_ne_of_mem hne.symm hb⟩)
    · rcases List.mem_cons.mp hb with rfl | hbl
      · exact Or.inr (Or.inr ⟨rfl, hal⟩)
      · exact (ih hal hbl).imp Or.inl Or.inl

theorem not_pair_sublist_swap (hdistinct : l.Nodup) (h : [a, b].Sublist l) :
    ¬[b, a].Sublist l := by
  intro hswap
  induction l with
  | nil => cases h
  | cons x l ih =>
    obtain ⟨hx, hl⟩ := List.nodup_cons.mp hdistinct
    rcases pair_sublist_cons.mp h with hlater | ⟨rfl, -⟩
    · rcases pair_sublist_cons.mp hswap with hswapped | ⟨rfl, -⟩
      · exact ih hl hlater hswapped
      · exact hx (hlater.subset (by simp))
    · rcases pair_sublist_cons.mp hswap with hswapped | ⟨rfl, ha⟩
      · exact hx (hswapped.subset (by simp))
      · exact hx ha

end Lists

/-- In a relation without cycles a chain is no longer than there are numbers to choose from. -/
theorem length_le_of_isChain {R : Nat → Nat → Prop} (hacyclic : ∀ n, ¬TransGen R n n)
    {chain : List Nat} (hchain : chain.IsChain R) {bound : Nat} (hbound : ∀ n ∈ chain, n < bound) :
    chain.length ≤ bound := by
  have hpairwise : chain.Pairwise (TransGen R) :=
    List.isChain_iff_pairwise.mp (hchain.imp fun _ _ => TransGen.single)
  have hnodup : chain.Nodup := by
    refine hpairwise.imp ?_
    rintro a b hab rfl
    exact hacyclic a hab
  have hsubset : chain ⊆ List.range bound := fun n hn => List.mem_range.mpr (hbound n hn)
  simpa using hnodup.length_le_of_subset hsubset

/-- A relation without cycles that leads only to small numbers ends. -/
theorem wellFounded_of_acyclic {R : Nat → Nat → Prop} (hacyclic : ∀ n, ¬TransGen R n n)
    {bound : Nat} (hbound : ∀ a b, R a b → b < bound) : WellFounded fun b a => R a b := by
  refine wellFounded_iff_isEmpty_descending_chain.mpr ⟨fun ⟨f, hf⟩ => ?_⟩
  have hchain : ((List.range (bound + 1)).map fun i => f (i + 1)).IsChain R :=
    (List.isChain_map _).mpr ((List.isChain_range _ _).mpr fun i _ => hf (i + 1))
  have hlength := length_le_of_isChain hacyclic hchain fun n hn => by
    obtain ⟨i, -, rfl⟩ := List.mem_map.mp hn
    exact hbound _ _ (hf i)
  rw [List.length_map, List.length_range] at hlength
  omega

end CheckedExceptions
