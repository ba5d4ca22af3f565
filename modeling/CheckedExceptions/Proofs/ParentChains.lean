import CheckedExceptions.Proofs.WellFormed
import Mathlib.Data.Finset.Card
import Mathlib.Logic.Function.Iterate

/-! The way up from a node, along parent links that may be set at will. Where it does not run in a
circle it has no more links than there are nodes, so the walk over the ancestors misses nothing. -/

namespace CheckedExceptions

namespace SyntaxTree

variable {t : SyntaxTree} {n : NodeRef} {i j k : Nat}

def Circles (t : SyntaxTree) (n : NodeRef) : Prop :=
  ∃ i j, i < j ∧ t.parent^[i] n = t.parent^[j] n ∧ (t.parent^[i] n).isSome = true

def file? (t : SyntaxTree) (n : NodeRef) : Option (String × FileRole) :=
  match t.payload? n with
  | some (.file name role _) => some (name, role)
  | _ => none

theorem iterate_parent_none (t : SyntaxTree) (k : Nat) : t.parent^[k] none = none :=
  Function.iterate_fixed rfl k

theorem isSome_iterate_of_le (h : (t.parent^[k] n).isSome = true) (hle : j ≤ k) :
    (t.parent^[j] n).isSome = true := by
  by_contra hnone
  have hsplit : t.parent^[k] n = t.parent^[k - j] (t.parent^[j] n) := by
    rw [← Function.iterate_add_apply, Nat.sub_add_cancel hle]
  rw [hsplit, Option.not_isSome_iff_eq_none.mp hnone, iterate_parent_none] at h
  cases h

theorem exists_id_of_parent (h : (t.parent n).isSome = true) : ∃ id < t.size, n = some id := by
  obtain ⟨m, hm⟩ := Option.isSome_iff_exists.mp h
  obtain ⟨node, hnode, -⟩ := Option.bind_eq_some_iff.mp hm
  exact exists_id_of_node? hnode

theorem exists_repeat (h : (t.parent^[k] n).isSome = true) (hlong : t.size < k) :
    ∃ i j, i < j ∧ j < k ∧ t.parent^[i] n = t.parent^[j] n := by
  have hthere : ∀ i ∈ Finset.range k, t.parent^[i] n ∈ (Finset.range t.size).image some := by
    intro i hi
    have hparent : (t.parent (t.parent^[i] n)).isSome = true := by
      rw [← Function.iterate_succ_apply' t.parent]
      exact isSome_iterate_of_le h (Finset.mem_range.mp hi)
    obtain ⟨id, hid, heq⟩ := exists_id_of_parent hparent
    exact Finset.mem_image.mpr ⟨id, Finset.mem_range.mpr hid, heq.symm⟩
  have hcard : ((Finset.range t.size).image some).card < (Finset.range k).card := by
    rw [Finset.card_range]
    exact Finset.card_image_le.trans_lt (by rwa [Finset.card_range])
  obtain ⟨i, hi, j, hj, hne, heq⟩ :=
    Finset.exists_ne_map_eq_of_card_lt_of_maps_to hcard hthere
  rcases Nat.lt_or_gt_of_ne hne with hlt | hlt
  · exact ⟨i, j, hlt, Finset.mem_range.mp hj, heq⟩
  · exact ⟨j, i, hlt, Finset.mem_range.mp hi, heq.symm⟩

theorem iterate_eq_none (h : ¬t.Circles n) (hk : t.size < k) : t.parent^[k] n = none := by
  by_contra hsome
  have hsome := Option.isSome_iff_ne_none.mpr hsome
  obtain ⟨i, j, hij, hjk, heq⟩ := exists_repeat hsome hk
  exact h ⟨i, j, hij, heq, isSome_iterate_of_le hsome (Nat.le_of_lt (hij.trans hjk))⟩

/-- A way that runs into a circle has no end: however far it goes, it comes back. -/
theorem Circles.isSome_iterate (h : t.Circles n) (k : Nat) : (t.parent^[k] n).isSome = true := by
  obtain ⟨i, j, hij, heq, hsome⟩ := h
  have hback : ∃ m, k ≤ m ∧ t.parent^[m] n = t.parent^[i] n := by
    induction k with
    | zero => exact ⟨i, Nat.zero_le i, rfl⟩
    | succ k ih =>
      obtain ⟨m, hkm, hm⟩ := ih
      refine ⟨j - i + m, by omega, ?_⟩
      rw [Function.iterate_add_apply, hm, ← Function.iterate_add_apply,
        Nat.sub_add_cancel (Nat.le_of_lt hij), heq]
  obtain ⟨m, hkm, hm⟩ := hback
  exact isSome_iterate_of_le (hm ▸ hsome) hkm

/-- Whatever the way comes to, it comes to within as many links as there are nodes. -/
theorem exists_iterate_eq (h : (t.parent^[k] n).isSome = true) :
    ∃ j ≤ t.size, t.parent^[j] n = t.parent^[k] n := by
  induction k using Nat.strongRecOn with
  | ind k ih =>
    by_cases hk : k ≤ t.size
    · exact ⟨k, hk, rfl⟩
    · obtain ⟨i, j, hij, hjk, heq⟩ := exists_repeat h (Nat.lt_of_not_le hk)
      -- Leaving out the round from `i` to `j` gives a shorter way to the same node.
      have hshort : t.parent^[k - j + i] n = t.parent^[k] n := by
        rw [Function.iterate_add_apply, heq, ← Function.iterate_add_apply,
          Nat.sub_add_cancel (Nat.le_of_lt hjk)]
      obtain ⟨l, hl, hsame⟩ := ih (k - j + i) (by omega) (hshort ▸ h)
      exact ⟨l, hl, hsame.trans hshort⟩

theorem upwardWithin_none (t : SyntaxTree) (steps : Nat) : t.upwardWithin steps none = [] := by
  cases steps <;> rfl

theorem getElem?_upwardWithin (t : SyntaxTree) (steps : Nat) (n : NodeRef) (k : Nat) :
    (t.upwardWithin steps n)[k]? = if k < steps then t.parent^[k] n else none := by
  induction steps generalizing n k with
  | zero => rfl
  | succ steps ih =>
    cases n with
    | none => simp [upwardWithin_none, iterate_parent_none]
    | some id =>
      cases k with
      | zero => rfl
      | succ k => simp [upwardWithin, ih]

theorem getElem?_ancestors (t : SyntaxTree) (n : NodeRef) (k : Nat) :
    (t.ancestors n)[k]? = if k < t.size then t.parent^[k + 1] n else none :=
  t.getElem?_upwardWithin t.size (t.parent n) k

theorem enclosingFile?_eq (t : SyntaxTree) (n : NodeRef) :
    t.enclosingFile? n = ((t.upwardWithin (t.size + 1) n).map some).findSome? t.file? := by
  cases n with
  | none =>
    have hroot : t.ancestors none = [] := t.upwardWithin_none t.size
    rw [upwardWithin_none, enclosingFile?, hroot]
    rfl
  | some id => rfl

theorem findSome?_upwardWithin_iff {steps : Nat} {found : String × FileRole} :
    ((t.upwardWithin steps n).map some).findSome? t.file? = some found ↔
      ∃ k < steps, t.file? (t.parent^[k] n) = some found ∧
        ∀ j < k, t.file? (t.parent^[j] n) = none := by
  induction steps generalizing n with
  | zero => simp [upwardWithin]
  | succ steps ih =>
    cases n with
    | none =>
      have hnone : t.file? none = none := rfl
      simp [upwardWithin_none, iterate_parent_none, hnone]
    | some id =>
      rw [upwardWithin, List.map_cons, List.findSome?_cons]
      cases hfile : t.file? (some id) with
      | some here =>
        constructor
        · intro heq
          exact ⟨0, Nat.succ_pos steps, hfile.trans heq, fun j hj => absurd hj (Nat.not_lt_zero j)⟩
        · rintro ⟨k, -, hk, hbefore⟩
          cases k with
          | zero => exact hfile.symm.trans hk
          | succ k => exact absurd (hfile.symm.trans (hbefore 0 (Nat.succ_pos k))) (by simp)
      | none =>
        refine ih.trans ⟨?_, ?_⟩
        · rintro ⟨k, hlt, hk, hbefore⟩
          refine ⟨k + 1, Nat.succ_lt_succ hlt, hk, fun j hj => ?_⟩
          cases j with
          | zero => exact hfile
          | succ j => exact hbefore j (Nat.lt_of_succ_lt_succ hj)
        · rintro ⟨k, hlt, hk, hbefore⟩
          cases k with
          | zero => exact absurd (hfile.symm.trans hk) (by simp)
          | succ k =>
            exact ⟨k, Nat.lt_of_succ_lt_succ hlt, hk, fun j hj =>
              hbefore (j + 1) (Nat.succ_lt_succ hj)⟩

/-- The first file on the way up is found, however far up it is. -/
theorem enclosingFile?_eq_some_iff {found : String × FileRole} :
    t.enclosingFile? n = some found ↔ ∃ k, t.file? (t.parent^[k] n) = some found ∧
      ∀ j < k, t.file? (t.parent^[j] n) = none := by
  rw [enclosingFile?_eq, findSome?_upwardWithin_iff]
  constructor
  · rintro ⟨k, -, hk, hbefore⟩
    exact ⟨k, hk, hbefore⟩
  · rintro ⟨k, hk, hbefore⟩
    refine ⟨k, Nat.lt_succ_of_le ?_, hk, hbefore⟩
    have hsome : (t.parent^[k] n).isSome = true := by
      by_contra hnone
      rw [Option.not_isSome_iff_eq_none.mp hnone] at hk
      cases hk
    obtain ⟨j, hj, hsame⟩ := exists_iterate_eq hsome
    by_contra hlong
    rw [← hsame, hbefore j (by omega)] at hk
    cases hk

theorem enclosingFile?_eq_none_iff :
    t.enclosingFile? n = none ↔ ∀ k, t.file? (t.parent^[k] n) = none := by
  constructor
  · intro hnone k
    induction k using Nat.strongRecOn with
    | ind k ih =>
      cases hfile : t.file? (t.parent^[k] n) with
      | none => rfl
      | some found =>
        rw [enclosingFile?_eq_some_iff.mpr ⟨k, hfile, ih⟩] at hnone
        cases hnone
  · intro hnone
    cases hfile : t.enclosingFile? n with
    | none => rfl
    | some found =>
      obtain ⟨k, hk, -⟩ := enclosingFile?_eq_some_iff.mp hfile
      exact absurd ((hnone k).symm.trans hk) (by simp)

theorem Circles.length_ancestors (h : t.Circles n) : (t.ancestors n).length = t.size := by
  apply Nat.le_antisymm
  · apply List.getElem?_eq_none_iff.mp
    rw [getElem?_ancestors, if_neg (Nat.lt_irrefl t.size)]
  · by_contra hshort
    have hsome := h.isSome_iterate ((t.ancestors n).length + 1)
    have hnone := t.getElem?_ancestors n (t.ancestors n).length
    rw [if_pos (Nat.lt_of_not_le hshort), List.getElem?_length] at hnone
    rw [← hnone] at hsome
    cases hsome

/-- Where the way up from a node does not circle, the ancestors are all of it, to the last link.
Where it circles, they are its first nodes, as many as the tree has. In both cases the file of the
node is the first one on the whole way, and there is none only if the way comes to none. -/
theorem ancestors_complete (t : SyntaxTree) (n : NodeRef) :
    (¬t.Circles n → ∀ k, (t.ancestors n)[k]? = t.parent^[k + 1] n) ∧
    (t.Circles n → (t.ancestors n).length = t.size ∧
      ∀ k < t.size, (t.ancestors n)[k]? = t.parent^[k + 1] n) ∧
    (∀ found, t.enclosingFile? n = some found ↔
      ∃ k, t.file? (t.parent^[k] n) = some found ∧ ∀ j < k, t.file? (t.parent^[j] n) = none) ∧
    (t.enclosingFile? n = none ↔ ∀ k, t.file? (t.parent^[k] n) = none) := by
  refine ⟨fun hends k => ?_, fun hcircles => ⟨hcircles.length_ancestors, fun k hk => ?_⟩,
    fun found => enclosingFile?_eq_some_iff, enclosingFile?_eq_none_iff⟩
  · rw [getElem?_ancestors]
    split
    · rfl
    · next hk => exact (iterate_eq_none hends (by omega)).symm
  · rw [getElem?_ancestors, if_pos hk]

/-- The way up from node 0 takes every node and ends at a link to none. -/
def frayedTree : SyntaxTree :=
  ⟨#[⟨0, 0, .call "read" none [], some 1⟩, ⟨0, 0, .block [some 0], some 2⟩,
    ⟨0, 0, .file "A.java" .source [some 1], some 9⟩]⟩

/-- The last link is part of the ancestors. When it is bent back, the file is found just before the
way circles. -/
theorem frayedTree_ancestors :
    (frayedTree.ancestors (some 0) = [1, 2, 9] ∧
      ∀ k, (frayedTree.ancestors (some 0))[k]? = frayedTree.parent^[k + 1] (some 0)) ∧
    ((frayedTree.reparent (some 2) (some 1)).ancestors (some 0)).length = 3 ∧
    (frayedTree.reparent (some 2) (some 1)).enclosingFile? (some 0) = some ("A.java", .source) := by
  have hends : ¬frayedTree.Circles (some 0) := by
    intro hcircles
    exact absurd (hcircles.isSome_iterate 4) (by decide)
  have hcircles : (frayedTree.reparent (some 2) (some 1)).Circles (some 0) := by
    exact ⟨1, 3, by decide, by decide, by decide⟩
  obtain ⟨-, hlength, hfile, -⟩ :=
    ancestors_complete (frayedTree.reparent (some 2) (some 1)) (some 0)
  refine ⟨⟨by decide, (ancestors_complete frayedTree (some 0)).1 hends⟩, (hlength hcircles).1, ?_⟩
  exact (hfile ("A.java", .source)).mpr ⟨2, by decide, by decide⟩

end SyntaxTree

end CheckedExceptions
