import CheckedExceptions.Proofs.WellFormed
import Mathlib.Data.List.Nodup

/-! Trees in which every node stands after the nodes that it lists. The walk in source order visits
a node and then what lies below its children, one child after the other. -/

namespace CheckedExceptions

open Relation (ReflTransGen)

namespace SyntaxTree

variable {t : SyntaxTree} {n m : NodeId} {depth depth' : Nat}

/-- The nodes that a node lists, as far as they exist, come before it. -/
def Descending (t : SyntaxTree) : Prop :=
  ∀ n < t.size, ∀ m ∈ t.children (some n), m < t.size → m < n

instance (t : SyntaxTree) : Decidable t.Descending :=
  inferInstanceAs (Decidable (∀ n < t.size, _))

def listed (t : SyntaxTree) (n : NodeId) : List NodeId :=
  (t.children (some n)).filter (· < t.size)

def ListsOnce (t : SyntaxTree) : Prop := ((List.range t.size).flatMap t.listed).Nodup

instance (t : SyntaxTree) : Decidable t.ListsOnce := inferInstanceAs (Decidable (List.Nodup _))

theorem mem_listed : m ∈ t.listed n ↔ m ∈ t.children (some n) ∧ m < t.size := by
  simp [listed]

theorem children_of_node? {n : NodeRef} {node : Node} (h : t.node? n = some node) :
    t.children n = node.children := by
  simp only [children, h]

theorem children_eq_nil {n : NodeRef} (h : t.node? n = none) : t.children n = [] := by
  simp only [children, h]

namespace Descending

theorem lt_of_mem_listed (h : t.Descending) (hm : m ∈ t.listed n) : m < n := by
  obtain ⟨hlists, hsize⟩ := mem_listed.mp hm
  exact h n (lt_size_of_mem_children hlists) m hlists hsize

@[elab_as_elim]
theorem induction {motive : NodeRef → Prop} (h : t.Descending)
    (step : ∀ n, (∀ m ∈ t.children n, motive (some m)) → motive n) (n : NodeRef) : motive n := by
  have hmissing : ∀ n, t.node? n = none → motive n := by
    intro n hnone
    refine step n fun m hm => ?_
    rw [children_eq_nil hnone] at hm
    exact absurd hm List.not_mem_nil
  cases n with
  | none => exact hmissing none rfl
  | some id =>
    induction id using Nat.strong_induction_on with
    | _ id ih =>
      refine step (some id) fun m hm => ?_
      by_cases hsize : m < t.size
      · exact ih m (h.lt_of_mem_listed (mem_listed.mpr ⟨hm, hsize⟩))
      · exact hmissing (some m) (node?_eq_none hsize)

end Descending

theorem preorderOnto_missing {n : NodeRef} (h : t.node? n = none) (depth : Nat) :
    t.preorderOnto depth n [] = [] := by
  cases depth with
  | zero => rfl
  | succ depth => simp only [preorderOnto, h]

theorem foldr_preorderOnto (t : SyntaxTree) (depth : Nat) (children : List NodeId) :
    children.foldr (fun child rest => t.preorderOnto depth (some child) rest) [] =
      children.flatMap fun child => t.preorderOnto depth (some child) [] := by
  induction children with
  | nil => rfl
  | cons child children ih =>
    rw [List.foldr_cons, ih, List.flatMap_cons]
    exact t.preorderOnto_append depth (some child) [] _

theorem preorderOnto_succ (hn : n < t.size) : t.preorderOnto (depth + 1) (some n) [] =
    n :: (t.children (some n)).flatMap fun m => t.preorderOnto depth (some m) [] := by
  simp only [preorderOnto, children, node?_eq_some hn]
  exact congrArg (n :: ·) (t.foldr_preorderOnto depth _)

namespace Descending

/-- A walk from a node needs no more levels than there are nodes up to it. -/
theorem preorderOnto_eq (h : t.Descending) (hdepth : n < depth) (hdepth' : n < depth') :
    t.preorderOnto depth (some n) [] = t.preorderOnto depth' (some n) [] := by
  induction depth generalizing n depth' with
  | zero => exact absurd hdepth (Nat.not_lt_zero n)
  | succ depth ih =>
    obtain ⟨depth', rfl⟩ := Nat.exists_eq_succ_of_ne_zero (Nat.ne_zero_of_lt hdepth')
    by_cases hn : n < t.size
    · rw [preorderOnto_succ hn, preorderOnto_succ hn]
      refine congrArg (n :: ·) (List.flatMap_congr fun m hm => ?_)
      by_cases hm' : m < t.size
      · have hlt := h n hn m hm hm'
        exact ih (hlt.trans_le (Nat.le_of_lt_succ hdepth)) (hlt.trans_le (Nat.le_of_lt_succ hdepth'))
      · rw [preorderOnto_missing (node?_eq_none hm'), preorderOnto_missing (node?_eq_none hm')]
    · rw [preorderOnto_missing (node?_eq_none hn), preorderOnto_missing (node?_eq_none hn)]

/-- The walk from a node: the node itself, and then the walks from its children. -/
theorem preorder_eq (h : t.Descending) (hn : n < t.size) : t.preorder (some n) =
    n :: (t.children (some n)).flatMap fun m => t.preorder (some m) := by
  refine (h.preorderOnto_eq hn (Nat.lt_succ_of_lt hn)).trans ?_
  exact preorderOnto_succ hn

end Descending

theorem preorder_missing {n : NodeRef} (h : t.node? n = none) : t.preorder n = [] :=
  preorderOnto_missing h t.size

theorem flatMap_preorder_listed (t : SyntaxTree) (n : NodeId) :
    (t.children (some n)).flatMap (fun m => t.preorder (some m)) =
      (t.listed n).flatMap fun m => t.preorder (some m) := by
  unfold listed
  induction t.children (some n) with
  | nil => rfl
  | cons m children ih =>
    by_cases hm : m < t.size
    · rw [List.filter_cons_of_pos (by simpa using hm), List.flatMap_cons, List.flatMap_cons, ih]
    · rw [List.filter_cons_of_neg (by simpa using hm), List.flatMap_cons,
        preorder_missing (node?_eq_none hm), List.nil_append, ih]

namespace ListsOnce

theorem nodup_listed (h : t.ListsOnce) (hn : n < t.size) : (t.listed n).Nodup :=
  (List.nodup_flatMap.mp h).1 n (List.mem_range.mpr hn)

theorem lister_unique (h : t.ListsOnce) :
    Relator.RightUnique fun (m : NodeId) (n : NodeId) => m ∈ t.listed n := by
  intro m a b ha hb
  by_contra hne
  have hsize : ∀ n, m ∈ t.listed n → n ∈ List.range t.size := fun n hn =>
    List.mem_range.mpr (lt_size_of_mem_children (mem_listed.mp hn).1)
  have hsymm : Std.Symm (Function.onFun List.Disjoint t.listed) :=
    ⟨fun _ _ hdisjoint _ hb ha => hdisjoint ha hb⟩
  exact (List.nodup_flatMap.mp h).2.forall (hsize a ha) (hsize b hb) hne ha hb

end ListsOnce

namespace Descending

/-- From each node of a walk links lead up to its start. -/
theorem climbs_of_mem_preorder (h : t.Descending) (hm : m ∈ t.preorder (some n)) :
    ReflTransGen (fun a b => a ∈ t.listed b) m n := by
  induction n using Nat.strong_induction_on with
  | _ n ih =>
    by_cases hn : n < t.size
    · rw [h.preorder_eq hn, flatMap_preorder_listed] at hm
      rcases List.mem_cons.mp hm with rfl | hbelow
      · exact .refl
      · obtain ⟨child, hchild, hmem⟩ := List.mem_flatMap.mp hbelow
        exact (ih child (h.lt_of_mem_listed hchild) hmem).tail hchild
    · rw [preorder_missing (node?_eq_none hn)] at hm
      exact absurd hm List.not_mem_nil

theorem le_of_climbs (h : t.Descending) (hclimbs : ReflTransGen (fun a b => a ∈ t.listed b) m n) :
    m ≤ n := by
  induction hclimbs with
  | refl => exact Nat.le_refl m
  | tail _ hstep ih => exact ih.trans (Nat.le_of_lt (h.lt_of_mem_listed hstep))

/-- A child of a node does not lie below another child of it. -/
theorem eq_of_climbs (h : t.Descending) (honce : t.ListsOnce) {a b : NodeId} (ha : a ∈ t.listed n)
    (hb : b ∈ t.listed n) (hclimbs : ReflTransGen (fun a b => a ∈ t.listed b) a b) : a = b := by
  rcases ReflTransGen.cases_head hclimbs with rfl | ⟨lister, hlists, habove⟩
  · rfl
  · obtain rfl : lister = n := honce.lister_unique hlists ha
    exact absurd (h.le_of_climbs habove) (Nat.not_le_of_lt (h.lt_of_mem_listed hb))

theorem disjoint_preorder (h : t.Descending) (honce : t.ListsOnce) {a b : NodeId}
    (ha : a ∈ t.listed n) (hb : b ∈ t.listed n) (hne : a ≠ b) :
    (t.preorder (some a)).Disjoint (t.preorder (some b)) := by
  intro m hma hmb
  have htotal := ReflTransGen.total_of_right_unique honce.lister_unique
    (h.climbs_of_mem_preorder hma) (h.climbs_of_mem_preorder hmb)
  rcases htotal with hab | hba
  · exact hne (h.eq_of_climbs honce ha hb hab)
  · exact hne (h.eq_of_climbs honce hb ha hba).symm

theorem nodup_preorder (h : t.Descending) (honce : t.ListsOnce) (n : NodeRef) :
    (t.preorder n).Nodup := by
  induction n using h.induction with
  | step n ih =>
    cases hnode : t.node? n with
    | none =>
      rw [preorder_missing hnode]
      exact List.nodup_nil
    | some node =>
      obtain ⟨id, hid, rfl⟩ := exists_id_of_node? hnode
      rw [h.preorder_eq hid, flatMap_preorder_listed, List.nodup_cons, List.nodup_flatMap]
      refine ⟨fun hmem => ?_, fun m hm => ih m (mem_listed.mp hm).1, ?_⟩
      · obtain ⟨child, hchild, hbelow⟩ := List.mem_flatMap.mp hmem
        have hle := h.le_of_climbs (h.climbs_of_mem_preorder hbelow)
        exact absurd (h.lt_of_mem_listed hchild) (Nat.not_lt_of_le hle)
      · refine (honce.nodup_listed hid).imp_of_mem fun ha hb hne => ?_
        exact h.disjoint_preorder honce ha hb hne

end Descending

end SyntaxTree

end CheckedExceptions
