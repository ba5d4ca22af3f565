import CheckedExceptions.Proofs.ClosedStore
import CheckedExceptions.Proofs.Leaving

/-! What a catch clause takes out of the exceptions of its try block. The clause looks at one
alternative of its type at a time, so it takes what a single alternative covers. -/

namespace CheckedExceptions

theorem ThrowSet.mem_foldl_removeCovered {sub : Subtyping} {s : ThrowSet}
    {handlers : List TypeRef} {ty : TypeRef} :
    ty ∈ (handlers.foldl (removeCovered sub) s).members ↔
      ty ∈ s.members ∧ ∀ handler ∈ handlers, sub ty handler = false := by
  rw [foldl_removeCovered_eq_filter]
  simp [filter]

namespace TypeStore

variable {st : TypeStore} {a b : TypeRef} {shape : Shape}

/-- Where both types are disjunctions, a single alternative of `b` covers all of `a`. -/
def CoveredAtOnce (st : TypeStore) (a b : TypeRef) : Prop :=
  ∀ parts alternatives, st.shape? a = some (.disjunction parts) →
    st.shape? b = some (.disjunction alternatives) →
    ∃ alternative ∈ alternatives, st.isSubtype a alternative = true

theorem alternatives_of_disjunction {alternatives : List TypeRef}
    (h : st.shape? a = some (.disjunction alternatives)) : st.alternatives a = alternatives := by
  simp only [TypeStore.alternatives, h]

theorem alternatives_of_plain (h : st.shape? a = some shape) (hplain : shape.isDisjunction = false) :
    st.alternatives a = [a] := by
  unfold alternatives
  split
  · next hshape =>
    obtain rfl := shape?_unique h hshape
    cases hplain
  · rfl

/-- A type below a disjunction is below one of its alternatives, unless it is a disjunction too. -/
theorem exists_alternative_iff (hb : st.shape? b = some shape) (h : st.isSubtype a b = true) :
    (∃ alternative ∈ st.alternatives b, st.isSubtype a alternative = true) ↔
      st.CoveredAtOnce a b := by
  constructor
  · rintro ⟨alternative, hmem, hbelow⟩ parts alternatives - hb
    exact ⟨alternative, alternatives_of_disjunction hb ▸ hmem, hbelow⟩
  · intro hcovered
    cases hdisjunction : shape.isDisjunction with
    | false =>
      rw [alternatives_of_plain hb hdisjunction]
      exact ⟨b, List.mem_singleton_self b, h⟩
    | true =>
      obtain ⟨alternatives, rfl⟩ := Shape.eq_disjunction hdisjunction
      rw [alternatives_of_disjunction hb]
      rcases isSubtypeWithin_succ.mp h with rfl | hlevel
      · exact hcovered _ _ hb hb
      · obtain ⟨sub, ha⟩ := hlevel.exists_left
        cases hparts : sub.isDisjunction with
        | true =>
          obtain ⟨parts, rfl⟩ := Shape.eq_disjunction hparts
          exact hcovered parts alternatives ha hb
        | false =>
          obtain ⟨alternative, hmem, hbelow⟩ := hlevel.of_disjunction_right ha hparts hb
          exact ⟨alternative, hmem, isSubtypeWithin_mono (Nat.le_succ _) hbelow⟩

end TypeStore

namespace Program

variable {σ : Type} {p : Program σ} {st : σ} {parts : TryParts} {clause n : NodeRef}
  {exception handler : TypeRef}

theorem catches_of_mem (hclause : clause ∈ parts.clauses)
    (hhandler : handler ∈ p.caughtTypes st clause)
    (hbelow : p.types.isSubtype st exception handler = true) :
    p.catches st parts exception = true :=
  List.any_eq_true.mpr ⟨clause, hclause, List.any_eq_true.mpr ⟨handler, hhandler, hbelow⟩⟩

theorem mem_uncaught_iff {set : ThrowSet} : exception ∈ (p.uncaught st parts set).members ↔
    exception ∈ set.members ∧ p.catches st parts exception = false := by
  rw [catches_eq_false_iff]
  exact ThrowSet.mem_foldl_removeCovered

theorem caughtTypes_of_catchType {ty : TypeRef} (htype : p.tree.catchType clause = ty)
    (hsome : ty.isSome = true) : p.caughtTypes st clause = p.types.alternatives st ty := by
  obtain ⟨id, rfl⟩ := Option.isSome_iff_exists.mp hsome
  simp only [caughtTypes, htype]

theorem isHandledUpTo_body {statements : List NodeRef} {top : NodeRef}
    (htry : p.tree.payload? n = some (.trying parts)) (hparent : p.tree.parent parts.body = n)
    (hbody : p.tree.payload? parts.body = some (.block statements))
    (hdepth : 1 ≤ p.options.maxAscentDepth) (htop : top ≠ n)
    (hcatches : p.catches st parts exception = true) :
    (p.isHandledUpTo parts.body exception top st).1 = true := by
  obtain ⟨depth, hsteps⟩ := Nat.exists_eq_add_of_le' hdepth
  obtain ⟨id, rfl⟩ := SyntaxTree.eq_some_of_payload? htry
  have hrule : p.ruleAt parts.body top = .tries parts := by
    have hpass : ¬((some id).isNone || some id == top) = true := by simpa using htop.symm
    have hnot : ¬p.isMethodRef parts.body = true := by simp [isMethodRef, hbody]
    simp only [ruleAt, hparent, if_neg hpass, if_neg hnot, htry]
  have hstops : p.stopsInTry st parts parts.body exception = true := by
    simp [stopsInTry, hcatches]
  rw [isHandledUpTo, hsteps, isHandledWithin_succ, hrule]
  simp only [outcome, hstops, if_true]

/-- A clause takes a subtype of its declared type out of every set exactly if the two are not both
disjunctions or one alternative covers the subtype. What it takes out does not get past the try
statement. -/
theorem clause_absorbs_iff {p : Program TypeStore} {st : TypeStore} {statements : List NodeRef}
    {declared : TypeRef} {shape : Shape} (htypes : p.types = .ofStore)
    (htry : p.tree.payload? n = some (.trying parts)) (hparent : p.tree.parent parts.body = n)
    (hbody : p.tree.payload? parts.body = some (.block statements))
    (hdepth : 1 ≤ p.options.maxAscentDepth) (hclause : clause ∈ parts.clauses)
    (htype : p.tree.catchType clause = declared) (hdeclared : st.shape? declared = some shape)
    (hbelow : st.isSubtype exception declared = true) :
    ((∀ set : ThrowSet,
        exception ∉ (p.uncaught st { parts with clauses := [clause] } set).members) ↔
      st.CoveredAtOnce exception declared) ∧
    (st.CoveredAtOnce exception declared →
      (∀ top, top ≠ n → (p.isHandledUpTo parts.body exception top st).1 = true) ∧
      ∀ depth, exception ∉ (p.uncaught (p.bodyThrows (p.thrownWithin depth) parts st).2 parts
        (p.bodyThrows (p.thrownWithin depth) parts st).1).members) := by
  have hsome : declared.isSome = true := by
    obtain ⟨id, rfl, -⟩ := Option.bind_eq_some_iff.mp hdeclared
    rfl
  have hcaught : ∀ later : TypeStore, st.Grows later →
      p.caughtTypes later clause = st.alternatives declared := by
    intro later hgrows
    rw [caughtTypes_of_catchType htype hsome, htypes]
    exact hgrows.alternatives_eq (TypeStore.holds_of_shape? hdeclared)
  have hcatches : ∀ later, p.Evolves st later → st.CoveredAtOnce exception declared →
      p.catches later parts exception = true := by
    intro later hevolves hcovered
    obtain ⟨handler, hhandler, habove⟩ :=
      (TypeStore.exists_alternative_iff hdeclared hbelow).mpr hcovered
    refine catches_of_mem hclause (?_ : handler ∈ _) ?_
    · rw [hcaught later (grows_of_evolves htypes hevolves)]
      exact hhandler
    · rw [htypes]
      exact isSubtype_of_evolves htypes hevolves habove
  have hsingle : p.catches st { parts with clauses := [clause] } exception = true ↔
      ∃ handler ∈ st.alternatives declared, st.isSubtype exception handler = true := by
    simp [catches, hcaught st .refl, htypes, TypeSystem.ofStore]
  refine ⟨?_, fun hcovered => ⟨fun top htop => ?_, fun depth hmem => ?_⟩⟩
  · rw [← TypeStore.exists_alternative_iff hdeclared hbelow, ← hsingle]
    constructor
    · intro htaken
      by_contra hmissed
      exact htaken ⟨[exception]⟩
        (mem_uncaught_iff.mpr ⟨List.mem_singleton_self _, Bool.eq_false_iff.mpr hmissed⟩)
    · intro htakes set hmem
      rw [(mem_uncaught_iff.mp hmem).2] at htakes
      cases htakes
  · exact isHandledUpTo_body htry hparent hbody hdepth htop (hcatches st .refl hcovered)
  · have hevolves := evolving_bodyThrows (p.evolving_thrownWithin depth) parts st
    have hfree := (mem_uncaught_iff.mp hmem).2
    rw [hcatches _ hevolves hcovered] at hfree
    cases hfree

/-- Two exceptions 5 and 6, the two as alternatives 7, and a type parameter 8. -/
def eitherStore : TypeStore :=
  let (io, st) := TypeStore.withRoots.declare "IOException" [some 2]
  let (sql, st) := st.declare "SQLException" [some 2]
  let (_, st) := st.disjunction [some io, some sql]
  (st.typeParam "X" (some 2)).2

def eitherProgram : Program TypeStore where
  tree := ⟨#[⟨0, 0, .call "read" none [], some 1⟩, ⟨0, 0, .block [some 0], some 5⟩,
    ⟨0, 0, .parameter "e" (some 7) false, some 4⟩, ⟨0, 0, .block [], some 4⟩,
    ⟨0, 0, .catchClause (some 2) (some 3), some 5⟩,
    ⟨0, 0, .trying ⟨none, some 1, [some 4], none⟩, none⟩]⟩
  types := .ofStore
  completion := fun _ => .ok true
  resolution := Resolution.unknown.withTarget (some 0)
    ⟨⟨.method "read" (some 0) [some 8], .ofLists [some 8] [some 7]⟩, []⟩
  handlers := .empty
  options := .default

/-- Each alternative is absorbed, but not the two as one type, which the block throws. -/
theorem eitherProgram_leaks :
    (eitherProgram.isHandledUpTo (some 1) (some 5) none eitherStore).1 = true ∧
    eitherStore.isSubtype (some 7) (some 7) = true ∧
    ¬eitherStore.CoveredAtOnce (some 7) (some 7) ∧
    (eitherProgram.isHandledUpTo (some 1) (some 7) none eitherStore).1 = false ∧
    (eitherProgram.thrown (some 5) eitherStore).1.members = [some 7] := by
  have hdeclared : eitherStore.shape? (some 7) = some (.disjunction [some 5, some 6]) := by
    decide +kernel
  have habsorbs : ∀ exception, eitherStore.isSubtype exception (some 7) = true → _ :=
    fun exception => clause_absorbs_iff (p := eitherProgram) (n := some 5) rfl rfl rfl rfl
      (by decide) (List.mem_cons_self : some 4 ∈ [some 4]) rfl hdeclared
  have hsingle : eitherStore.CoveredAtOnce (some 5) (some 7) := by
    intro parts alternatives hshape
    have hplain : eitherStore.shape? (some 5) = some (.declared "IOException" [some 2] []) := by
      decide +kernel
    cases TypeStore.shape?_unique hplain hshape
  refine ⟨?_, by decide +kernel, ?_, by decide +kernel, by decide +kernel⟩
  · exact ((habsorbs (some 5) (by decide +kernel)).2 hsingle).1 none (by decide)
  · intro hcovered
    have hkept := (habsorbs (some 7) (by decide +kernel)).1.mpr hcovered ⟨[some 7]⟩
    exact hkept (by decide +kernel)

end Program

end CheckedExceptions
