import CheckedExceptions.Proofs.Ensuring
import CheckedExceptions.Proofs.Evolution
import CheckedExceptions.Proofs.Preorder
import Mathlib.Computability.StateTransition

/-! Sites collected with a stack of nodes that are still to visit. Where every node stands after the
nodes it lists, the walk ends and finds what the recursive rule gives. -/

namespace CheckedExceptions

open Relation (ReflTransGen)

namespace SyntaxTree

def isResourceVariable (t : SyntaxTree) (n : NodeRef) : Bool :=
  match t.payload? n with
  | some (.resourceVariable ..) => true
  | _ => false

end SyntaxTree

structure SiteWalk (σ : Type) where
  pending : List NodeRef
  found : List Site
  state : σ

def SiteWalk.push (pending : List NodeRef) (nodes : List NodeId) : List NodeRef :=
  nodes.foldl (fun stack n => some n :: stack) pending

theorem SiteWalk.push_reverse (pending : List NodeRef) (nodes : List NodeId) :
    push pending nodes.reverse = nodes.map some ++ pending := by
  rw [push, List.foldl_reverse]
  induction nodes with
  | nil => rfl
  | cons n nodes ih => rw [List.foldr_cons, ih, List.map_cons, List.cons_append]

namespace Program

variable {σ : Type} {p : Program σ} {top n : NodeRef} {node : Node}

/-- One round of the walk: visits the top of the stack and puts its children there instead, the first
one on top. A node that does not exist is passed over. The walk is over when the stack is empty. -/
def round? (p : Program σ) (top : NodeRef) (w : SiteWalk σ) : Option (SiteWalk σ) :=
  match w.pending with
  | [] => none
  | n :: rest =>
    match p.tree.node? n with
    | none => some { w with pending := rest }
    | some node =>
      let visit := p.sitesAt top n w.state
      some ⟨SiteWalk.push rest node.children.reverse, w.found ++ visit.1, visit.2⟩

/-- The recursive rule: closing a resource, which is a variable or stands directly in a list of
resources, then the construct itself, then what is below the children one after the other. -/
def sitesFrom (p : Program σ) (top n : NodeRef) (below : NodeId → StateM σ (List Site)) :
    StateM σ (List Site) := do
  match p.tree.node? n with
  | none => pure []
  | some node =>
    let closing ←
      if p.tree.isResourceVariable n || p.tree.isResourceList (p.tree.parent n) then
        siteOf n true <$> p.unhandledClosing n top
      else pure []
    let own ← if p.isThrower n then siteOf n false <$> p.unhandledItself n top else pure []
    let found ← node.children.mapM below
    pure (closing ++ own ++ found.flatten)

theorem round?_of_missing (h : p.tree.node? n = none) (rest : List NodeRef) (found : List Site)
    (st : σ) : p.round? top ⟨n :: rest, found, st⟩ = some ⟨rest, found, st⟩ := by
  simp only [round?, h]

theorem round?_of_node (h : p.tree.node? n = some node) (rest : List NodeRef) (found : List Site)
    (st : σ) : p.round? top ⟨n :: rest, found, st⟩ =
      some ⟨node.children.map some ++ rest, found ++ (p.sitesAt top n st).1,
        (p.sitesAt top n st).2⟩ := by
  simp only [round?, h, SiteWalk.push_reverse]

theorem isClosed_eq (h : p.tree.node? n = some node) : p.isClosed n =
    (p.tree.isResourceVariable n || p.tree.isResourceList (p.tree.parent n)) := by
  have hpayload : p.tree.payload? n = some node.payload := congrArg (Option.map Node.payload) h
  unfold isClosed isBareResource SyntaxTree.isResourceVariable
  rw [hpayload]
  cases node.payload with
  | resourceVariable => rfl
  | _ => exact Bool.and_true _

theorem sitesFrom_of_missing (h : p.tree.node? n = none) (below : NodeId → StateM σ (List Site)) :
    p.sitesFrom top n below = pure [] := by
  rw [sitesFrom, h]

theorem sitesFrom_run (h : p.tree.node? n = some node) (below : NodeId → StateM σ (List Site))
    (st : σ) : p.sitesFrom top n below st =
      ((p.sitesAt top n st).1 ++ (node.children.mapM below (p.sitesAt top n st).2).1.flatten,
        (node.children.mapM below (p.sitesAt top n st).2).2) := by
  rw [sitesFrom, h, sitesAt_eq, isClosed_eq h]
  cases p.tree.isResourceVariable n || p.tree.isResourceList (p.tree.parent n) <;>
    cases p.isThrower n <;> rfl

def sitesAlong (p : Program σ) (top : NodeRef) (nodes : List NodeId) : StateM σ (List Site) := do
  let found ← nodes.mapM fun n => p.sitesAt top (some n)
  pure found.flatten

theorem sitesAlong_cons (n : NodeId) (nodes : List NodeId) (st : σ) :
    p.sitesAlong top (n :: nodes) st =
      ((p.sitesAt top (some n) st).1 ++ (p.sitesAlong top nodes (p.sitesAt top (some n) st).2).1,
        (p.sitesAlong top nodes (p.sitesAt top (some n) st).2).2) := by
  show (List.flatten (((n :: nodes).mapM fun n => p.sitesAt top (some n)) st).1,
    (((n :: nodes).mapM fun n => p.sitesAt top (some n)) st).2) = _
  rw [mapM_cons_run]
  rfl

theorem sitesAlong_append (nodes others : List NodeId) (st : σ) :
    p.sitesAlong top (nodes ++ others) st =
      ((p.sitesAlong top nodes st).1 ++
        (p.sitesAlong top others (p.sitesAlong top nodes st).2).1,
        (p.sitesAlong top others (p.sitesAlong top nodes st).2).2) := by
  induction nodes generalizing st with
  | nil => rfl
  | cons n nodes ih => rw [List.cons_append, sitesAlong_cons, ih, sitesAlong_cons, List.append_assoc]

theorem sitesAlong_flatMap (walk : NodeId → List NodeId) (nodes : List NodeId) (st : σ) :
    p.sitesAlong top (nodes.flatMap walk) st =
      ((nodes.mapM (fun n => p.sitesAlong top (walk n)) st).1.flatten,
        (nodes.mapM (fun n => p.sitesAlong top (walk n)) st).2) := by
  induction nodes generalizing st with
  | nil => rfl
  | cons n nodes ih =>
    rw [List.flatMap_cons, sitesAlong_append, ih, mapM_cons_run, List.flatten_cons]

theorem reaches_all {nodes : List NodeId}
    (hnodes : ∀ n ∈ nodes, ∀ rest found st, StateTransition.Reaches (p.round? top)
      ⟨some n :: rest, found, st⟩
      ⟨rest, found ++ (p.sites (some n) top st).1, (p.sites (some n) top st).2⟩)
    (rest : List NodeRef) (found : List Site) (st : σ) : StateTransition.Reaches (p.round? top)
      ⟨nodes.map some ++ rest, found, st⟩
      ⟨rest, found ++ (nodes.mapM (fun n => p.sites (some n) top) st).1.flatten,
        (nodes.mapM (fun n => p.sites (some n) top) st).2⟩ := by
  induction nodes generalizing found st with
  | nil =>
    show ReflTransGen _ _ (⟨rest, found ++ [], st⟩ : SiteWalk σ)
    rw [List.append_nil]
    exact .refl
  | cons n nodes ih =>
    obtain ⟨hn, hrest⟩ := List.forall_mem_cons.mp hnodes
    refine (hn (nodes.map some ++ rest) found st).trans ?_
    have hnext := ih hrest (found ++ (p.sites (some n) top st).1) (p.sites (some n) top st).2
    rw [List.append_assoc] at hnext
    rw [mapM_cons_run, List.flatten_cons]
    exact hnext

section Descending

variable (h : p.tree.Descending)
include h

/-- The sites obey the recursive rule. -/
theorem sites_eq_sitesFrom (top n : NodeRef) :
    p.sites n top = p.sitesFrom top n fun child => p.sites (some child) top := by
  cases hnode : p.tree.node? n with
  | none =>
    rw [sitesFrom_of_missing hnode, sites, SyntaxTree.preorder_missing hnode]
    rfl
  | some node =>
    obtain ⟨id, hid, rfl⟩ := SyntaxTree.exists_id_of_node? hnode
    funext st
    show p.sitesAlong top (p.tree.preorder (some id)) st = _
    rw [h.preorder_eq hid, sitesAlong_cons, sitesAlong_flatMap, sitesFrom_run hnode,
      SyntaxTree.children_of_node? hnode]
    rfl

/-- The recursive rule has no other solution. -/
theorem eq_sites_of_rule {collect : NodeRef → StateM σ (List Site)}
    (hcollect : ∀ n, collect n = p.sitesFrom top n fun child => collect (some child)) (n : NodeRef) :
    collect n = p.sites n top := by
  induction n using h.induction with
  | step n ih =>
    rw [hcollect n, sites_eq_sitesFrom h]
    cases hnode : p.tree.node? n with
    | none => rw [sitesFrom_of_missing hnode, sitesFrom_of_missing hnode]
    | some node =>
      rw [SyntaxTree.children_of_node? hnode] at ih
      have hchildren : node.children.mapM (fun child => collect (some child)) =
          node.children.mapM fun child => p.sites (some child) top :=
        funext fun st => @mapM_eq_of_steps σ NodeId (List Site) (fun _ _ => True) st _ _ _
          fun child hchild st _ => ⟨.single trivial, congrFun (ih child hchild) st⟩
      funext st
      rw [sitesFrom_run hnode, sitesFrom_run hnode, hchildren]

/-- From a node on top of the stack the walk gets to the rest of the stack, with the sites of the
node and everything below it. -/
theorem reaches_rest (top n : NodeRef) : ∀ (rest : List NodeRef) (found : List Site) (st : σ),
    StateTransition.Reaches (p.round? top) ⟨n :: rest, found, st⟩
      ⟨rest, found ++ (p.sites n top st).1, (p.sites n top st).2⟩ := by
  -- The rest of the stack is arbitrary in the induction: the children are put on top of it.
  induction n using h.induction with
  | step n ih =>
    intro rest found st
    rw [sites_eq_sitesFrom h]
    cases hnode : p.tree.node? n with
    | none =>
      rw [sitesFrom_of_missing hnode]
      show ReflTransGen _ _ (⟨rest, found ++ [], st⟩ : SiteWalk σ)
      rw [List.append_nil]
      exact .single (round?_of_missing hnode rest found st)
    | some node =>
      rw [SyntaxTree.children_of_node? hnode] at ih
      refine ReflTransGen.head (round?_of_node hnode rest found st) ?_
      have hchildren := reaches_all ih rest (found ++ (p.sitesAt top n st).1) (p.sitesAt top n st).2
      rw [List.append_assoc] at hchildren
      rw [sitesFrom_run hnode]
      exact hchildren

end Descending

def siteKey (site : Site) : NodeRef × Bool := (site.node, site.byClosing)

theorem keys_siteOf (n : NodeRef) (byClosing : Bool) (set : ThrowSet) :
    ((siteOf n byClosing set).map siteKey).Sublist [(n, byClosing)] := by
  unfold siteOf
  split
  · exact List.nil_sublist _
  · exact List.Sublist.refl _

theorem keys_sitesAt (top n : NodeRef) (st : σ) :
    ((p.sitesAt top n st).1.map siteKey).Sublist [(n, true), (n, false)] := by
  have hpart : ∀ (here : Bool) (byClosing : Bool) (action : StateM σ ThrowSet) (st : σ),
      (((if here then siteOf n byClosing <$> action else pure [] : StateM σ (List Site))
        st).1.map siteKey).Sublist [(n, byClosing)] := by
    intro here byClosing action st
    cases here with
    | false => exact List.nil_sublist _
    | true => exact keys_siteOf n byClosing (action st).1
  rw [sitesAt_eq]
  show List.Sublist ((_ ++ _ : List Site).map siteKey) _
  rw [List.map_append]
  exact (hpart _ _ _ _).append (hpart _ _ _ _)

theorem keys_sitesAlong (top : NodeRef) (nodes : List NodeId) (st : σ) :
    ((p.sitesAlong top nodes st).1.map siteKey).Sublist
      (nodes.flatMap fun n => [(some n, true), (some n, false)]) := by
  induction nodes generalizing st with
  | nil => exact List.nil_sublist _
  | cons n nodes ih =>
    rw [sitesAlong_cons, List.map_append, List.flatMap_cons]
    exact (keys_sitesAt top (some n) st).append (ih _)

theorem nodup_keys {nodes : List NodeId} (h : nodes.Nodup) :
    (nodes.flatMap fun n => [((some n : NodeRef), true), (some n, false)]).Nodup := by
  refine List.nodup_flatMap.mpr ⟨fun n _ => by simp, h.imp fun hne key ha hb => ?_⟩
  simp only [List.mem_cons, List.not_mem_nil, or_false] at ha hb
  rcases ha with rfl | rfl <;> rcases hb with hb | hb <;> cases hb <;> exact hne rfl

/-- In a tree in which every node stands after the nodes it lists, the walk with a stack comes to an
end, and has then found the sites of its root. These are what the recursive rule gives, and nothing
else fits the rule. Where no node is listed twice there are no two sites of the same kind at a
node. -/
theorem stack_walk_collects_sites (p : Program σ) (h : p.tree.Descending) (top : NodeRef) :
    (∀ root st, ⟨[], (p.sites root top st).1, (p.sites root top st).2⟩ ∈
      StateTransition.eval (p.round? top) ⟨[root], [], st⟩) ∧
    (∀ collect : NodeRef → StateM σ (List Site),
      (∀ n, collect n = p.sitesFrom top n fun child => collect (some child)) ↔
        collect = fun n => p.sites n top) ∧
    (p.tree.ListsOnce → ∀ root st,
      ((p.sites root top st).1.map fun site => (site.node, site.byClosing)).Nodup) := by
  refine ⟨fun root st => ?_, fun collect => ⟨fun hcollect => ?_, ?_⟩, fun honce root st => ?_⟩
  · exact StateTransition.mem_eval.mpr ⟨reaches_rest h top root [] [] st, rfl⟩
  · exact funext (eq_sites_of_rule h hcollect)
  · rintro rfl
    exact sites_eq_sitesFrom h top
  · exact (keys_sitesAlong top (p.tree.preorder root) st).nodup
      (nodup_keys (h.nodup_preorder honce root))

/-- What a call opens is used as a resource directly. The block lists a node that does not exist. -/
def resourceProgram : Program TypeStore where
  tree := ⟨#[⟨0, 0, .call "open" none [], some 1⟩, ⟨0, 0, .resourceList [some 0], some 3⟩,
    ⟨0, 0, .block [some 9], some 3⟩, ⟨0, 0, .trying ⟨some 1, some 2, [], none⟩, none⟩]⟩
  types := .ofStore
  completion := fun _ => .ok true
  resolution := ((Resolution.unknown.withTarget (some 0)
      ⟨⟨.method "open" (some 0) [some 5], .identity⟩, []⟩).withCloser (some 0)
      ⟨.method "close" (some 0) [some 8], .identity⟩).withStaticType (some 0) (some 0)
  handlers := .empty
  options := .default

/-- The walk finds two sites at the call: it is closed, and it throws itself. -/
theorem resourceProgram_walk :
    ∃ w ∈ StateTransition.eval (resourceProgram.round? none) ⟨[some 3], [], TypeStore.mixedStore⟩,
      w.pending = [] ∧
      w.found = [⟨some 0, true, ⟨[some 8]⟩⟩, ⟨some 0, false, ⟨[some 5]⟩⟩] ∧
      (w.found.map fun site => (site.node, site.byClosing)).Nodup := by
  have hfound : (resourceProgram.sites (some 3) none TypeStore.mixedStore).1 =
      [⟨some 0, true, ⟨[some 8]⟩⟩, ⟨some 0, false, ⟨[some 5]⟩⟩] := by decide +kernel
  have hdescending : resourceProgram.tree.Descending := by decide +kernel
  have honce : resourceProgram.tree.ListsOnce := by decide +kernel
  obtain ⟨hwalk, -, hnodup⟩ := stack_walk_collects_sites resourceProgram hdescending none
  exact ⟨_, hwalk (some 3) TypeStore.mixedStore, rfl, hfound,
    hnodup honce (some 3) TypeStore.mixedStore⟩

end Program

end CheckedExceptions
