import CheckedExceptions.Proofs.Basic
import CheckedExceptions.Tree.Walk

/-! Trees whose links fit together, and the part of a tree that runs when a node runs. -/

namespace CheckedExceptions

open Relation (ReflTransGen TransGen)

/-- The places of the children that run when the construct runs. Of a lambda, a method reference or
a class with a name none do, of an anonymous class only the arguments. -/
def Payload.operandSlots : Payload → List NodeRef
  | .classDecl none _ arguments _ => arguments
  | .classDecl (some _) .. => []
  | .lambda .. => []
  | .methodRef .. => []
  | payload => payload.slots

def Payload.operands (payload : Payload) : List NodeId := payload.operandSlots.filterMap id

theorem Payload.mem_operands {payload : Payload} {m : NodeId} :
    m ∈ payload.operands ↔ some m ∈ payload.operandSlots := by
  simp [operands]

theorem Payload.mem_children {payload : Payload} {m : NodeId} :
    m ∈ payload.children ↔ some m ∈ payload.slots := by
  simp [children]

theorem Payload.operandSlots_subset (payload : Payload) : payload.operandSlots ⊆ payload.slots := by
  unfold operandSlots
  split
  · exact List.subset_append_left _ _
  · exact List.nil_subset _
  · exact List.nil_subset _
  · exact List.nil_subset _
  · exact List.Subset.refl _

namespace SyntaxTree

variable {t : SyntaxTree} {n : NodeRef} {m k : NodeId} {payload : Payload}

def Above (t : SyntaxTree) (a b : NodeId) : Prop := t.parent (some b) = some a

/-- The links of a tree fit together: the parent of a node is the one that lists it, no node is
listed twice or lies above itself, and lists of resources stand where a try statement has its
resources. -/
structure WellFormed (t : SyntaxTree) : Prop where
  parent_iff : ∀ child parent, child < t.size →
    (t.parent (some child) = some parent ↔ child ∈ t.children (some parent))
  nodup : ∀ n, (t.children n).Nodup
  acyclic : ∀ n, ¬TransGen t.Above n n
  resources : ∀ n parts payload, t.payload? n = some (.trying parts) →
    t.payload? parts.resources = some payload → ∃ resources, payload = .resourceList resources
  resourceList : ∀ n m resources, m ∈ t.children n →
    t.payload? (some m) = some (.resourceList resources) →
    ∃ parts, t.payload? n = some (.trying parts) ∧ parts.resources = some m

def operands (t : SyntaxTree) (n : NodeRef) : List NodeId :=
  match t.payload? n with
  | some payload => payload.operands
  | none => []

def Runs (t : SyntaxTree) : NodeId → NodeId → Prop :=
  ReflTransGen fun a b => b ∈ t.operands (some a)

theorem lt_size_of_payload? (h : t.payload? (some m) = some payload) : m < t.size := by
  obtain ⟨node, hnode, -⟩ := Option.map_eq_some_iff.mp h
  exact (Array.getElem?_eq_some_iff.mp hnode).1

theorem children_eq (h : t.payload? n = some payload) : t.children n = payload.children := by
  obtain ⟨node, hnode, rfl⟩ := Option.map_eq_some_iff.mp h
  simp only [children, hnode]
  rfl

theorem operands_eq (h : t.payload? n = some payload) : t.operands n = payload.operands := by
  simp only [operands, h]

theorem lt_size_of_mem_children (h : m ∈ t.children (some k)) : k < t.size := by
  cases hnode : t.node? (some k) with
  | none =>
    simp only [children, hnode] at h
    exact absurd h List.not_mem_nil
  | some node => exact (Array.getElem?_eq_some_iff.mp hnode).1

theorem exists_payload_of_mem_operands (h : m ∈ t.operands n) :
    ∃ payload, t.payload? n = some payload ∧ m ∈ payload.operands := by
  unfold operands at h
  split at h
  · next payload hpayload => exact ⟨payload, hpayload, h⟩
  · exact absurd h List.not_mem_nil

theorem mem_children_of_mem_operands (h : m ∈ t.operands n) : m ∈ t.children n := by
  obtain ⟨payload, hpayload, hm⟩ := exists_payload_of_mem_operands h
  rw [children_eq hpayload]
  exact Payload.mem_children.mpr (payload.operandSlots_subset (Payload.mem_operands.mp hm))

theorem node?_eq_some (h : m < t.size) : t.node? (some m) = some t.nodes[m] :=
  Array.getElem?_eq_getElem h

theorem node?_eq_none (h : ¬m < t.size) : t.node? (some m) = none :=
  Array.getElem?_eq_none (Nat.le_of_not_lt h)

theorem exists_id_of_node? {node : Node} (h : t.node? n = some node) : ∃ m < t.size, n = some m := by
  cases n with
  | none => cases h
  | some m => exact ⟨m, (Array.getElem?_eq_some_iff.mp h).1, rfl⟩

theorem eq_some_of_payload? (h : t.payload? n = some payload) : ∃ m, n = some m := by
  cases n with
  | none => cases h
  | some m => exact ⟨m, rfl⟩

namespace WellFormed

theorem parent_eq (hwf : t.WellFormed) (hm : m ∈ t.children n)
    (hpayload : t.payload? (some m) = some payload) : t.parent (some m) = n := by
  cases n with
  | none => exact absurd hm List.not_mem_nil
  | some id => exact (hwf.parent_iff m id (lt_size_of_payload? hpayload)).mpr hm

theorem above_of_mem_children (hwf : t.WellFormed) (hm : m < t.size) (h : m ∈ t.children (some k)) :
    t.Above k m :=
  (hwf.parent_iff m k hm).mpr h

theorem lt_size_of_above (hwf : t.WellFormed) (h : t.Above k m) (hm : m < t.size) : k < t.size :=
  lt_size_of_mem_children ((hwf.parent_iff m k hm).mp h)

theorem parts_distinct (hwf : t.WellFormed) {parts : TryParts}
    (h : t.payload? n = some (.trying parts)) :
    (parts.resources :: parts.body :: (parts.clauses ++ [parts.cleanup])).Pairwise
      fun a b => a.isSome = true → a ≠ b := by
  have hnodup : ((Payload.trying parts).slots.filterMap id).Nodup := by
    rw [← Payload.children, ← children_eq h]
    exact hwf.nodup n
  refine (List.pairwise_filterMap.mp hnodup).imp ?_
  rintro (_ | a) b hdistinct hsome rfl
  · cases hsome
  · exact hdistinct a rfl a rfl rfl

end WellFormed

theorem Above.lt_size {a b : NodeId} (h : t.Above a b) : b < t.size := by
  unfold Above parent at h
  obtain ⟨node, hnode, -⟩ := Option.bind_eq_some_iff.mp h
  exact (Array.getElem?_eq_some_iff.mp hnode).1

theorem lt_size_of_isChain {path : List NodeId} (hchain : (m :: path).IsChain t.Above) :
    ∀ a ∈ path, a < t.size := by
  induction path generalizing m with
  | nil => exact fun a ha => absurd ha List.not_mem_nil
  | cons k path ih =>
    obtain ⟨habove, hrest⟩ := List.isChain_cons_cons.mp hchain
    exact List.forall_mem_cons.mpr ⟨habove.lt_size, ih hrest⟩

/-- What is there and runs with a node lies below it. -/
theorem WellFormed.above_of_runs (hwf : t.WellFormed) (h : t.Runs m k)
    (hk : t.payload? (some k) = some payload) : ReflTransGen t.Above m k := by
  induction h generalizing payload with
  | refl => exact .refl
  | tail _ hstep ih =>
    obtain ⟨payload, hpayload, -⟩ := exists_payload_of_mem_operands hstep
    exact (ih hpayload).tail (hwf.parent_eq (mem_children_of_mem_operands hstep) hk)

theorem mem_preorderOnto_of_mem_children {depth : Nat} {children : List NodeId}
    (hm : m ∈ children) (hk : ∀ rest, k ∈ t.preorderOnto depth (some m) rest) (rest : List NodeId) :
    k ∈ children.foldr (fun child rest => t.preorderOnto depth (some child) rest) rest := by
  induction children with
  | nil => exact absurd hm List.not_mem_nil
  | cons child children ih =>
    rw [List.foldr_cons]
    rcases List.mem_cons.mp hm with rfl | hm
    · exact hk _
    · have happend := t.preorderOnto_append depth (some child) []
        (children.foldr (fun child rest => t.preorderOnto depth (some child) rest) rest)
      rw [List.nil_append] at happend
      rw [happend]
      exact List.mem_append_right _ (ih hm)

/-- The walk gets to the end of every way down that has fewer steps than the walk has levels. -/
theorem WellFormed.mem_preorderOnto (hwf : t.WellFormed) {depth : Nat} {path : List NodeId}
    (hchain : (m :: path).IsChain t.Above) (hlength : path.length < depth) (hm : m < t.size)
    (rest : List NodeId) :
    (m :: path).getLast (List.cons_ne_nil m path) ∈ t.preorderOnto depth (some m) rest := by
  induction path generalizing m depth rest with
  | nil =>
    obtain ⟨depth, rfl⟩ := Nat.exists_eq_succ_of_ne_zero (Nat.ne_zero_of_lt hlength)
    simp [preorderOnto, node?_eq_some hm]
  | cons k path ih =>
    obtain ⟨depth, rfl⟩ := Nat.exists_eq_succ_of_ne_zero (Nat.ne_zero_of_lt hlength)
    obtain ⟨habove, hrest⟩ := List.isChain_cons_cons.mp hchain
    have hnode := node?_eq_some hm
    have hk : k ∈ t.nodes[m].children := by
      have hlisted := (hwf.parent_iff k m habove.lt_size).mp habove
      simpa only [children, hnode] using hlisted
    rw [List.getLast_cons (List.cons_ne_nil k path)]
    simp only [preorderOnto, hnode]
    refine List.mem_cons_of_mem m (mem_preorderOnto_of_mem_children hk (fun rest => ?_) rest)
    exact ih hrest (Nat.lt_of_succ_lt_succ hlength) habove.lt_size rest

theorem WellFormed.mem_preorder_of_runs (hwf : t.WellFormed) (h : t.Runs m k)
    (hk : t.payload? (some k) = some payload) : k ∈ t.preorder (some m) := by
  have hm : m < t.size := by
    rcases ReflTransGen.cases_head h with rfl | ⟨_, hstep, -⟩
    · exact lt_size_of_payload? hk
    · obtain ⟨_, hpayload, -⟩ := exists_payload_of_mem_operands hstep
      exact lt_size_of_payload? hpayload
  obtain ⟨path, hchain, hlast⟩ :=
    List.exists_isChain_cons_of_relationReflTransGen (hwf.above_of_runs h hk)
  have hbound : ∀ a ∈ m :: path, a < t.size :=
    List.forall_mem_cons.mpr ⟨hm, lt_size_of_isChain hchain⟩
  have hlength : (m :: path).length ≤ t.size := length_le_of_isChain hwf.acyclic hchain hbound
  rw [← hlast]
  exact hwf.mem_preorderOnto hchain hlength hm []

def isResourceList (t : SyntaxTree) (n : NodeRef) : Bool :=
  match t.payload? n with
  | some (.resourceList _) => true
  | _ => false

def resourceSlot (t : SyntaxTree) (n : NodeRef) : NodeRef :=
  match t.payload? n with
  | some (.trying parts) => parts.resources
  | _ => none

/-- The tree is built from the leaves up, every node from nodes that are there and belong to no
other. -/
def BuiltUp (t : SyntaxTree) : Prop :=
  ∀ n < t.size, (∀ m ∈ t.children (some n), m < n ∧ t.parent (some m) = some n ∧
      (t.isResourceList (some m) = true ↔ t.resourceSlot (some n) = some m)) ∧
    (t.children (some n)).Nodup ∧ ∀ parent ∈ t.parent (some n), n ∈ t.children (some parent)

instance (t : SyntaxTree) : Decidable t.BuiltUp :=
  inferInstanceAs (Decidable (∀ n < t.size, _))

theorem BuiltUp.wellFormed (h : t.BuiltUp) : t.WellFormed where
  parent_iff := by
    intro child parent hchild
    constructor
    · exact (h child hchild).2.2 parent
    · intro hlisted
      exact ((h parent (lt_size_of_mem_children hlisted)).1 child hlisted).2.1
  nodup := by
    intro n
    cases n with
    | none => exact List.nodup_nil
    | some id =>
      by_cases hid : id < t.size
      · exact (h id hid).2.1
      · simp [children, node?_eq_none hid]
  acyclic := by
    have hlt : ∀ a b, t.Above a b → b < a := by
      intro a b hab
      have hlisted := (h b hab.lt_size).2.2 a hab
      exact ((h a (lt_size_of_mem_children hlisted)).1 b hlisted).1
    have htrans : ∀ a b, TransGen t.Above a b → b < a := by
      intro a b hab
      induction hab with
      | single hstep => exact hlt _ _ hstep
      | tail _ hstep ih => exact Nat.lt_trans (hlt _ _ hstep) ih
    exact fun n hn => Nat.lt_irrefl n (htrans n n hn)
  resources := by
    intro n parts payload htry hpayload
    obtain ⟨id, rfl⟩ := eq_some_of_payload? htry
    obtain ⟨m, hm⟩ := eq_some_of_payload? hpayload
    have hlisted : m ∈ t.children (some id) := by
      rw [children_eq htry]
      exact Payload.mem_children.mpr (hm ▸ List.mem_cons_self)
    have hslot : t.resourceSlot (some id) = some m := by simp only [resourceSlot, htry, hm]
    have hlist := ((h id (lt_size_of_payload? htry)).1 m hlisted).2.2.mpr hslot
    unfold isResourceList at hlist
    rw [← hm, hpayload] at hlist
    split at hlist
    · next resources heq => exact ⟨resources, Option.some.inj heq⟩
    · cases hlist
  resourceList := by
    intro n m resources hm hpayload
    obtain ⟨id, rfl⟩ : ∃ id, n = some id := by
      cases n with
      | none => exact absurd hm List.not_mem_nil
      | some id => exact ⟨id, rfl⟩
    have hlist : t.isResourceList (some m) = true := by simp only [isResourceList, hpayload]
    have hslot := ((h id (lt_size_of_mem_children hm)).1 m hm).2.2.mp hlist
    unfold resourceSlot at hslot
    split at hslot
    · next parts htry => exact ⟨parts, htry, hslot⟩
    · cases hslot

end SyntaxTree

end CheckedExceptions
