import CheckedExceptions.Completion
import CheckedExceptions.Proofs.Basic

/-! The rule for normal completion, read without regard to order. The judgement by syntax follows it
where it has room for the whole statement, and never contradicts it. -/

namespace CheckedExceptions

namespace Payload

def deciding : Payload → List NodeRef
  | block statements => statements
  | catchClause _ body => [body]
  | trying parts => parts.body :: (parts.clauses ++ [parts.cleanup])
  | _ => []

/-- The verdict on a statement, from the verdicts on all of its parts. -/
def completesBy (verdict : NodeRef → Bool) : Payload → Bool
  | throwing _ => false
  | jump .. => false
  | block statements => statements.all verdict
  | catchClause _ body => verdict body
  | trying parts =>
    (verdict parts.body || parts.clauses.any verdict) &&
      (parts.cleanup.isNone || verdict parts.cleanup)
  | _ => true

end Payload

namespace SyntaxTree

variable {t : SyntaxTree} {n : NodeRef} {verdict verdict' : NodeRef → Bool} {c c' : Bool}

def deciding (t : SyntaxTree) (n : NodeRef) : List NodeRef :=
  match t.payload? n with
  | some payload => payload.deciding
  | none => []

def completesBy (t : SyntaxTree) (verdict : NodeRef → Bool) (n : NodeRef) : Bool :=
  match t.payload? n with
  | some payload => payload.completesBy verdict
  | none => true

/-- The statement is nested at most `depth` levels deep. A place that is empty or names no node is a
level like any other. -/
def nestsWithin (t : SyntaxTree) : (depth : Nat) → NodeRef → Bool
  | 0, n => (t.deciding n).isEmpty
  | depth + 1, n => (t.deciding n).all (nestsWithin t depth)

/-- The rule applied to every part of a statement, to the parts of the parts, and so on. There is no
verdict on a statement that lies inside itself. -/
inductive Judged (t : SyntaxTree) : NodeRef → Bool → Prop where
  | byParts (n : NodeRef) (verdict : NodeRef → Bool)
      (parts : ∀ part ∈ t.deciding n, Judged t part (verdict part)) :
      Judged t n (t.completesBy verdict n)

theorem completesBy_congr (h : ∀ part ∈ t.deciding n, verdict part = verdict' part) :
    t.completesBy verdict n = t.completesBy verdict' n := by
  unfold deciding at h
  unfold completesBy
  cases hpayload : t.payload? n with
  | none => rfl
  | some payload =>
    rw [hpayload] at h
    cases payload with
    | block statements => exact all_congr_of_mem h
    | catchClause caught body => exact h body List.mem_cons_self
    | trying parts =>
      have hbody := h parts.body List.mem_cons_self
      have hcleanup := h parts.cleanup (by simp [Payload.deciding])
      have hclauses : parts.clauses.any verdict = parts.clauses.any verdict' :=
        any_congr_of_mem fun part hpart => h part (by simp [Payload.deciding, hpart])
      simp only [Payload.completesBy, hbody, hcleanup, hclauses]
    | _ => rfl

theorem Judged.unique (h : t.Judged n c) (h' : t.Judged n c') : c = c' := by
  induction h generalizing c' with
  | byParts n verdict _ ih =>
    obtain ⟨_, verdict', hparts'⟩ := h'
    exact completesBy_congr fun part hpart => ih part hpart (hparts' part hpart)

end SyntaxTree

namespace Completion

variable {t : SyntaxTree} {n : NodeRef} {completes completes' : Completion}
  {verdict : NodeRef → Bool} {nodes : List NodeRef} {parts : TryParts} {b : Bool} {depth depth' : Nat}

section Verdicts

/-! Where every part has a verdict it does not matter in which order they are asked, and where the
asking stops. -/

theorem sequence_eq_all (h : ∀ n ∈ nodes, completes n = .ok (verdict n)) :
    sequence completes nodes = .ok (nodes.all verdict) := by
  induction nodes with
  | nil => rfl
  | cons n nodes ih =>
    obtain ⟨hn, hnodes⟩ := List.forall_mem_cons.mp h
    rw [sequence, hn, List.all_cons]
    cases verdict n with
    | false => rfl
    | true => exact ih hnodes

theorem choice_eq_any (h : ∀ n ∈ nodes, completes n = .ok (verdict n)) :
    choice completes nodes = .ok (nodes.any verdict) := by
  induction nodes with
  | nil => rfl
  | cons n nodes ih =>
    obtain ⟨hn, hnodes⟩ := List.forall_mem_cons.mp h
    rw [choice, hn, List.any_cons]
    cases verdict n with
    | true => rfl
    | false => exact ih hnodes

theorem ofTry_eq (h : ∀ n ∈ (Payload.trying parts).deciding, completes n = .ok (verdict n)) :
    ofTry completes parts = .ok ((Payload.trying parts).completesBy verdict) := by
  have hways : choice completes (parts.body :: parts.clauses) =
      .ok ((parts.body :: parts.clauses).any verdict) :=
    choice_eq_any fun n hn => h n (List.mem_append_left [parts.cleanup] hn)
  have hcleanup := h parts.cleanup (by simp [Payload.deciding])
  rw [ofTry, hways, hcleanup, List.any_cons, Payload.completesBy]
  cases parts.cleanup.isNone with
  | true => exact congrArg Except.ok (Bool.and_true _).symm
  | false => rfl

/-- One level: if every part gets its verdict, so does the statement. -/
theorem within_succ_eq (h : ∀ part ∈ t.deciding n, within t depth part = .ok (verdict part)) :
    within t (depth + 1) n = .ok (t.completesBy verdict n) := by
  unfold SyntaxTree.deciding at h
  unfold SyntaxTree.completesBy
  rw [within]
  cases hpayload : t.payload? n with
  | none => rfl
  | some payload =>
    rw [hpayload] at h
    cases payload with
    | block statements => exact sequence_eq_all h
    | catchClause caught body => exact h body List.mem_cons_self
    | trying parts => exact ofTry_eq h
    | _ => rfl

end Verdicts

/-- A statement that fits gets a verdict, and it is that of the rule. -/
theorem exists_judged_within (h : t.nestsWithin depth n = true) :
    ∃ c, t.Judged n c ∧ within t (depth + 1) n = .ok c := by
  induction depth generalizing n with
  | zero =>
    have hnil : t.deciding n = [] := List.isEmpty_iff.mp h
    have hparts : ∀ part, part ∉ t.deciding n := by simp [hnil]
    exact ⟨_, .byParts n (fun _ => true) fun part hpart => absurd hpart (hparts part),
      within_succ_eq fun part hpart => absurd hpart (hparts part)⟩
  | succ depth ih =>
    have hparts : ∀ part ∈ t.deciding n,
        ∃ c, t.Judged part c ∧ within t (depth + 1) part = .ok c :=
      fun part hpart => ih (List.all_eq_true.mp h part hpart)
    have hread : ∀ part ∈ t.deciding n,
        t.Judged part ((within t (depth + 1) part).toOption.getD true) ∧
        within t (depth + 1) part = .ok ((within t (depth + 1) part).toOption.getD true) := by
      intro part hpart
      obtain ⟨c, hjudged, hwithin⟩ := hparts part hpart
      rw [hwithin]
      exact ⟨hjudged, rfl⟩
    exact ⟨_, .byParts n _ fun part hpart => (hread part hpart).1,
      within_succ_eq fun part hpart => (hread part hpart).2⟩

def Extends (completes' completes : Completion) : Prop :=
  ∀ n b, completes n = .ok b → completes' n = .ok b

namespace Extends

theorem sequence (h : completes'.Extends completes)
    (hok : Completion.sequence completes nodes = .ok b) :
    Completion.sequence completes' nodes = .ok b := by
  induction nodes with
  | nil => exact hok
  | cons n nodes ih =>
    rw [Completion.sequence] at hok ⊢
    cases hn : completes n with
    | error _ =>
      rw [hn] at hok
      cases hok
    | ok first =>
      rw [hn] at hok
      rw [h n first hn]
      cases first with
      | false => exact hok
      | true => exact ih hok

theorem choice (h : completes'.Extends completes)
    (hok : Completion.choice completes nodes = .ok b) :
    Completion.choice completes' nodes = .ok b := by
  induction nodes with
  | nil => exact hok
  | cons n nodes ih =>
    rw [Completion.choice] at hok ⊢
    cases hn : completes n with
    | error _ =>
      rw [hn] at hok
      cases hok
    | ok first =>
      rw [hn] at hok
      rw [h n first hn]
      cases first with
      | true => exact hok
      | false => exact ih hok

theorem ofTry (h : completes'.Extends completes) (hok : Completion.ofTry completes parts = .ok b) :
    Completion.ofTry completes' parts = .ok b := by
  rw [Completion.ofTry] at hok ⊢
  cases hways : Completion.choice completes (parts.body :: parts.clauses) with
  | error _ =>
    rw [hways] at hok
    cases hok
  | ok ways =>
    rw [hways] at hok
    rw [h.choice hways]
    cases hnone : parts.cleanup.isNone with
    | true =>
      rw [hnone] at hok
      exact hok
    | false =>
      rw [hnone] at hok
      cases hcleanup : completes parts.cleanup with
      | error _ =>
        rw [hcleanup] at hok
        cases hok
      | ok final =>
        rw [hcleanup] at hok
        rw [h parts.cleanup final hcleanup]
        exact hok

end Extends

theorem within_succ_extends (t : SyntaxTree) (depth : Nat) :
    (within t (depth + 1)).Extends (within t depth) := by
  induction depth with
  | zero => exact fun n b hok => nomatch hok
  | succ depth ih =>
    intro n b hok
    rw [within] at hok ⊢
    cases hpayload : t.payload? n with
    | none =>
      rw [hpayload] at hok
      exact hok
    | some payload =>
      rw [hpayload] at hok
      cases payload with
      | block statements => exact ih.sequence hok
      | catchClause caught body => exact ih body b hok
      | trying parts => exact ih.ofTry hok
      | _ => exact hok

theorem within_extends (t : SyntaxTree) (h : depth ≤ depth') :
    (within t depth').Extends (within t depth) := by
  induction h with
  | refl => exact fun _ _ => id
  | step _ ih => exact fun n b hok => within_succ_extends t _ n b (ih n b hok)

/-- The judgement by syntax gives every statement that is nested no deeper than the limit the one
verdict of the rule. In any tree, one whose nodes lie inside each other included, an answer under
one limit is the answer under every larger limit. -/
theorem syntactic_follows_rule (t : SyntaxTree) (n : NodeRef) (maxDepth : Nat) :
    (t.nestsWithin maxDepth n = true →
      ∃ c, syntactic t maxDepth n = .ok c ∧ ∀ verdict, t.Judged n verdict ↔ verdict = c) ∧
    ∀ b larger, syntactic t maxDepth n = .ok b → maxDepth ≤ larger →
      syntactic t larger n = .ok b := by
  constructor
  · intro hnests
    obtain ⟨c, hjudged, hwithin⟩ := exists_judged_within hnests
    refine ⟨c, hwithin, fun verdict => ⟨fun h => h.unique hjudged, ?_⟩⟩
    rintro rfl
    exact hjudged
  · intro b larger hok hle
    exact within_extends t (Nat.succ_le_succ hle) n b hok

/-- The block and the first clause of a try statement do not complete, the second clause does; that
is node 9 and what it holds. Node 10 is a block that holds itself. -/
def nestedTree : SyntaxTree :=
  ⟨#[⟨0, 0, .throwing none, some 1⟩, ⟨0, 0, .block [some 0, none], some 8⟩,
    ⟨0, 0, .jump .returning none, some 3⟩, ⟨0, 0, .catchClause none (some 2), some 8⟩,
    ⟨0, 0, .call "close" none [], some 5⟩, ⟨0, 0, .block [some 4, some 99], some 6⟩,
    ⟨0, 0, .catchClause none (some 5), some 8⟩, ⟨0, 0, .block [], some 8⟩,
    ⟨0, 0, .trying ⟨none, some 1, [some 3, some 6, some 3], some 7⟩, some 9⟩,
    ⟨0, 0, .block [some 8], none⟩, ⟨0, 0, .block [some 0, some 10], some 10⟩]⟩

/-- One level less would be too little for node 9. One level is enough to see that node 10 does not
complete. -/
theorem nestedTree_completes :
    nestedTree.nestsWithin 4 (some 9) = true ∧ nestedTree.Judged (some 9) true ∧
    syntactic nestedTree 3 (some 9) = .error .cancelled ∧
    ∀ larger, 1 ≤ larger → syntactic nestedTree larger (some 10) = .ok false := by
  have hnests : nestedTree.nestsWithin 4 (some 9) = true := by decide
  obtain ⟨c, hanswer, hrule⟩ := (syntactic_follows_rule nestedTree (some 9) 4).1 hnests
  obtain rfl : true = c := Except.ok.inj hanswer
  have hcircular : syntactic nestedTree 1 (some 10) = .ok false := rfl
  exact ⟨hnests, (hrule true).mpr rfl, rfl, fun larger =>
    (syntactic_follows_rule nestedTree (some 10) 1).2 false larger hcircular⟩

end Completion

end CheckedExceptions
