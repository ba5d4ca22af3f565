import CheckedExceptions.Proofs.Preorder
import Mathlib.Data.List.Induction
import Mathlib.Logic.Function.Iterate
import Mathlib.Order.Bounds.Basic

/-! Trees that grow node by node: a node that is added becomes the parent of the nodes on its list
that exist by then, so the parent of a node is the latest of the nodes that list it. -/

namespace CheckedExceptions

structure Draft where
  start : Nat
  stop : Nat
  payload : Payload
deriving DecidableEq, Repr

namespace SyntaxTree

variable {t : SyntaxTree} {c p : NodeId}

def grow (drafts : List Draft) : SyntaxTree :=
  drafts.foldl (fun t draft => (t.add draft.start draft.stop draft.payload).2) empty

/-- The nodes that list `c` and are not older than it. -/
def adopters (t : SyntaxTree) (c : NodeId) : Set NodeId := {p | c ≤ p ∧ c ∈ t.children (some p)}

def IsLatest (nodes : Set NodeId) (latest : NodeRef) : Prop :=
  match latest with
  | some p => IsGreatest nodes p
  | none => nodes = ∅

namespace IsLatest

variable {nodes : Set NodeId} {latest : NodeRef}

theorem eq_none_iff (h : IsLatest nodes latest) : latest = none ↔ nodes = ∅ := by
  cases latest with
  | none => exact iff_of_true rfl h
  | some q => exact iff_of_false (Option.some_ne_none q) (Set.nonempty_of_mem h.1).ne_empty

theorem eq_some_iff (h : IsLatest nodes latest) : latest = some p ↔ IsGreatest nodes p := by
  cases latest with
  | none =>
    refine iff_of_false (Option.some_ne_none p).symm fun hp => ?_
    exact (Set.nonempty_of_mem hp.1).ne_empty (h.eq_none_iff.mp rfl)
  | some q =>
    constructor
    · rintro ⟨⟩
      exact h
    · exact fun hp => congrArg some (IsGreatest.unique h hp)

end IsLatest

section Links

variable (t : SyntaxTree) (start stop : Nat) (payload : Payload) (m : NodeId)

theorem children_eq_getD (n : NodeRef) :
    t.children n = ((t.payload? n).map Payload.children).getD [] := by
  unfold children payload?
  cases t.node? n <;> rfl

theorem node?_reparent (child : NodeId) (parent : NodeRef) :
    (t.reparent (some child) parent).node? (some m) = (t.node? (some m)).map fun node =>
      if m = child then { node with parent := parent } else node := by
  simp only [reparent, node?, Option.bind_some, Array.getElem?_modify, eq_comm (a := child)]
  split <;> simp

/-- Adoption changes the parents of the children that exist, and nothing else. -/
theorem node?_adopt (parent : NodeRef) (children : List NodeId) :
    (t.adopt parent children).node? (some m) = (t.node? (some m)).map fun node =>
      if m ∈ children then { node with parent := parent } else node := by
  induction children generalizing t with
  | nil => simp [adopt]
  | cons child children ih =>
    rw [adopt, List.foldl_cons, ← adopt, ih, node?_reparent, Option.map_map]
    congr 1
    funext node
    by_cases hlater : m ∈ children <;> by_cases hchild : m = child <;> simp [hlater, hchild]

theorem size_adopt (parent : NodeRef) (children : List NodeId) :
    (t.adopt parent children).size = t.size := by
  induction children generalizing t with
  | nil => rfl
  | cons child children ih => exact (ih _).trans (Array.size_modify ..)

theorem payload?_adopt (parent : NodeRef) (children : List NodeId) :
    (t.adopt parent children).payload? (some m) = t.payload? (some m) := by
  rw [payload?, node?_adopt, Option.map_map]
  congr 1
  funext node
  rw [Function.comp_apply]
  split <;> rfl

theorem parent_adopt (parent : NodeRef) (children : List NodeId) :
    (t.adopt parent children).parent (some m) =
      if m < t.size ∧ m ∈ children then parent else t.parent (some m) := by
  by_cases hsize : m < t.size
  · simp only [SyntaxTree.parent, node?_adopt, node?_eq_some hsize, hsize, true_and]
    split <;> rfl
  · simp only [SyntaxTree.parent, node?_adopt, node?_eq_none hsize, hsize, false_and]
    rfl

theorem node?_push (node : Node) : (⟨t.nodes.push node⟩ : SyntaxTree).node? (some m) =
    if m = t.size then some node else t.node? (some m) :=
  Array.getElem?_push

theorem size_add : (t.add start stop payload).2.size = t.size + 1 :=
  (size_adopt ..).trans (Array.size_push ..)

theorem payload?_add : (t.add start stop payload).2.payload? (some m) =
    if m = t.size then some payload else t.payload? (some m) := by
  refine (payload?_adopt ..).trans ?_
  rw [payload?, node?_push]
  split <;> rfl

theorem children_add : (t.add start stop payload).2.children (some m) =
    if m = t.size then payload.children else t.children (some m) := by
  rw [children_eq_getD, payload?_add, children_eq_getD]
  split <;> rfl

/-- The new node takes over the nodes that it lists, and may be its own parent. -/
theorem parent_add : (t.add start stop payload).2.parent (some m) =
    if m ≤ t.size ∧ m ∈ payload.children then some t.size else t.parent (some m) := by
  have hpush : (⟨t.nodes.push ⟨start, stop, payload, none⟩⟩ : SyntaxTree).parent (some m) =
      t.parent (some m) := by
    rw [parent, node?_push]
    split
    · next hlast =>
      rw [parent, node?_eq_none (Nat.not_lt_of_le hlast.ge)]
      rfl
    · rfl
  refine (parent_adopt ..).trans ?_
  rw [hpush, size, Array.size_push]
  exact if_congr (and_congr_left' Nat.lt_succ_iff) rfl rfl

end Links

theorem lt_size_of_mem_adopters (h : p ∈ t.adopters c) : p < t.size := lt_size_of_mem_children h.2

theorem mem_adopters_add (t : SyntaxTree) (start stop : Nat) (payload : Payload) :
    p ∈ (t.add start stop payload).2.adopters c ↔
      (p = t.size ∧ c ≤ t.size ∧ c ∈ payload.children) ∨ p ∈ t.adopters c := by
  simp only [adopters, Set.mem_ofPred_eq, children_add]
  split
  · next hlast =>
    have hnew : c ∉ t.children (some t.size) := fun h =>
      Nat.lt_irrefl t.size (lt_size_of_mem_children h)
    simp [hlast, hnew]
  · next hlast => simp [hlast]

def LastAdopted (t : SyntaxTree) : Prop := ∀ c, IsLatest (t.adopters c) (t.parent (some c))

theorem lastAdopted_empty : LastAdopted empty := by
  intro c
  refine Set.eq_empty_of_forall_notMem fun p hp => ?_
  exact absurd (lt_size_of_mem_adopters hp) (Nat.not_lt_zero p)

theorem LastAdopted.add (h : t.LastAdopted) (start stop : Nat) (payload : Payload) :
    (t.add start stop payload).2.LastAdopted := by
  intro c
  rw [parent_add]
  split
  · next htakes =>
    refine ⟨(mem_adopters_add t start stop payload).mpr (Or.inl ⟨rfl, htakes⟩), fun p hp => ?_⟩
    rcases (mem_adopters_add t start stop payload).mp hp with ⟨rfl, -⟩ | hold
    · exact Nat.le_refl t.size
    · exact Nat.le_of_lt (lt_size_of_mem_adopters hold)
  · next hleaves =>
    have hsame : (t.add start stop payload).2.adopters c = t.adopters c := by
      ext p
      rw [mem_adopters_add, or_iff_right (fun hnew => hleaves hnew.2)]
    rw [hsame]
    exact h c

namespace LastAdopted

theorem mem_children_of_parent (h : t.LastAdopted) (hparent : t.parent (some c) = some p) :
    c ∈ t.children (some p) :=
  ((h c).eq_some_iff.mp hparent).1.2

theorem lt_of_parent (h : t.LastAdopted) (hdescending : t.Descending)
    (hparent : t.parent (some c) = some p) : c < p := by
  have hc : c < t.size := Above.lt_size hparent
  exact hdescending.lt_of_mem_listed (mem_listed.mpr ⟨h.mem_children_of_parent hparent, hc⟩)

theorem parent_eq_some_iff (h : t.LastAdopted) (hdescending : t.Descending) (honce : t.ListsOnce)
    (hc : c < t.size) : t.parent (some c) = some p ↔ c ∈ t.children (some p) := by
  refine ⟨h.mem_children_of_parent, fun hlists => ?_⟩
  have hlisted : c ∈ t.listed p := mem_listed.mpr ⟨hlists, hc⟩
  refine (h c).eq_some_iff.mpr ⟨⟨?_, hlists⟩, fun q hq => ?_⟩
  · exact Nat.le_of_lt (hdescending.lt_of_mem_listed hlisted)
  · exact (honce.lister_unique (mem_listed.mpr ⟨hq.2, hc⟩) hlisted).le

/-- Where nodes are listed by later ones a way up ends, and each link leads at least one node
further. -/
theorem exists_root (h : t.LastAdopted) (hdescending : t.Descending) (hc : c < t.size) :
    ∃ k root, c + k ≤ root ∧ root < t.size ∧
      t.parent^[k] (some c) = some root ∧ t.parent (some root) = none := by
  -- The induction is on the number of nodes that are later than `c`.
  induction hgap : t.size - c using Nat.strong_induction_on generalizing c with
  | _ gap ih =>
    cases hparent : t.parent (some c) with
    | none => exact ⟨0, c, Nat.le_refl c, hc, rfl, hparent⟩
    | some p =>
      have hlt : c < p := h.lt_of_parent hdescending hparent
      have hp : p < t.size := lt_size_of_mem_children (h.mem_children_of_parent hparent)
      have hcloser : t.size - p < gap := hgap ▸ Nat.sub_lt_sub_left hc hlt
      obtain ⟨k, root, hfar, hroot, hway, hends⟩ := ih (t.size - p) hcloser hp rfl
      refine ⟨k + 1, root, ?_, hroot, ?_, hends⟩
      · calc c + (k + 1) = c + 1 + k := Nat.add_right_comm c k 1
          _ ≤ p + k := Nat.add_le_add_right hlt k
          _ ≤ root := hfar
      · rw [Function.iterate_succ_apply, hparent, hway]

end LastAdopted

section Growth

variable (drafts : List Draft)

theorem grow_concat (draft : Draft) : grow (drafts ++ [draft]) =
    ((grow drafts).add draft.start draft.stop draft.payload).2 :=
  List.foldl_concat ..

theorem grow_lastAdopted : (grow drafts).LastAdopted := by
  induction drafts using List.reverseRecOn with
  | nil => exact lastAdopted_empty
  | append_singleton drafts draft ih =>
    rw [grow_concat]
    exact ih.add draft.start draft.stop draft.payload

theorem size_grow : (grow drafts).size = drafts.length := by
  induction drafts using List.reverseRecOn with
  | nil => rfl
  | append_singleton drafts draft ih =>
    rw [grow_concat, size_add, ih, List.length_append, List.length_singleton]

theorem children_grow (m : NodeId) :
    (grow drafts).children (some m) = (drafts[m]?.map (·.payload.children)).getD [] := by
  induction drafts using List.reverseRecOn with
  | nil => rfl
  | append_singleton drafts draft ih =>
    have hlookup : (drafts ++ [draft])[m]? =
        if m = drafts.length then some draft else drafts[m]? := by grind
    rw [grow_concat, children_add, size_grow, hlookup, ih]
    split <;> rfl

end Growth

/-- Whatever is added, the parent of a node is the latest of the nodes that list it and are not older
than it, and it has none exactly if there is no such node. If nodes are listed once, by later ones, a
node belongs to the node that lists it, parents are later than their children, and every way up ends
at a root after fewer links than there are nodes. -/
theorem parent_is_last_adopter (drafts : List Draft) :
    let t := grow drafts
    (∀ p, t.children (some p) = (drafts[p]?.map (·.payload.children)).getD []) ∧
    (∀ c p, t.parent (some c) = some p ↔ IsGreatest (t.adopters c) p) ∧
    (∀ c, t.parent (some c) = none ↔ t.adopters c = ∅) ∧
    (t.Descending → t.ListsOnce →
      (∀ c < t.size, ∀ p, t.parent (some c) = some p ↔ c ∈ t.children (some p)) ∧
      (∀ c p, t.parent (some c) = some p → c < p) ∧
      ∀ c < t.size, ∃ k < t.size, ∃ root < t.size,
        t.parent^[k] (some c) = some root ∧ t.parent (some root) = none) := by
  intro t
  have hlast : t.LastAdopted := grow_lastAdopted drafts
  refine ⟨children_grow drafts, fun c p => (hlast c).eq_some_iff, fun c => (hlast c).eq_none_iff,
    fun hdescending honce => ⟨fun c hc p => hlast.parent_eq_some_iff hdescending honce hc,
      fun c p => hlast.lt_of_parent hdescending, fun c hc => ?_⟩⟩
  obtain ⟨k, root, hfar, hroot, hway, hends⟩ := hlast.exists_root hdescending hc
  have hk : k < t.size := ((Nat.le_add_left k c).trans hfar).trans_lt hroot
  exact ⟨k, hk, root, hroot, hway, hends⟩

/-- Node 1 lists node 0 twice, itself, nothing, and node 3 before there is one. Node 2 takes over
node 0. -/
def tangledDrafts : List Draft :=
  [⟨0, 4, .call "read" none []⟩,
    ⟨0, 9, .other "loop" [some 0, some 0, some 1, none, some 3]⟩,
    ⟨0, 5, .block [some 0]⟩,
    ⟨0, 9, .block [some 2]⟩]

def tidyDrafts : List Draft :=
  [⟨5, 9, .call "read" none []⟩,
    ⟨4, 10, .block [some 0]⟩,
    ⟨17, 18, .parameter "e" (some 2) false⟩,
    ⟨20, 22, .block []⟩,
    ⟨11, 22, .catchClause (some 2) (some 3)⟩,
    ⟨0, 22, .trying ⟨none, some 1, [some 4], none⟩⟩]

theorem tangledDrafts_parents :
    IsGreatest ((grow tangledDrafts).adopters 0) 2 ∧
    IsGreatest ((grow tangledDrafts).adopters 1) 1 ∧ (grow tangledDrafts).adopters 3 = ∅ ∧
    (grow tidyDrafts).Descending ∧ (grow tidyDrafts).ListsOnce ∧
    ∀ c < 6, ∃ k < 6, ∃ root < 6, (grow tidyDrafts).parent^[k] (some c) = some root ∧
      (grow tidyDrafts).parent (some root) = none := by
  obtain ⟨-, hsome, hnone, -⟩ := parent_is_last_adopter tangledDrafts
  have hdescending : (grow tidyDrafts).Descending := by decide
  have honce : (grow tidyDrafts).ListsOnce := by decide
  obtain ⟨-, -, -, hroots⟩ := parent_is_last_adopter tidyDrafts
  refine ⟨(hsome 0 2).mp (by decide), (hsome 1 1).mp (by decide), (hnone 3).mp (by decide),
    hdescending, honce, ?_⟩
  exact (hroots hdescending honce).2.2

end SyntaxTree

end CheckedExceptions
