import CheckedExceptions.Proofs.Grounded
import CheckedExceptions.Proofs.Reporting

/-! Every set that an analysis hands out is an antichain: it names proper types, each once, and none
of them is a subtype of another. What is reported as unhandled is checked. -/

namespace CheckedExceptions

namespace ThrowSet

variable {sub : Subtyping} {I : TypeRef → Prop} {s : ThrowSet}

structure IsAntichain (sub : Subtyping) (s : ThrowSet) : Prop where
  proper : none ∉ s.members
  nodup : s.members.Nodup
  unrelated : s.members.Pairwise fun a b => sub a b = false ∧ sub b a = false

theorem AntichainIn.isAntichain (h : s.AntichainIn sub I) (hrefl : ∀ a, sub a a = true) :
    s.IsAntichain sub where
  proper := by
    intro hnone
    cases h.isSome none hnone
  nodup := h.nodup fun a _ => hrefl a
  unrelated := h.apart

end ThrowSet

namespace Program

section Store

variable {p : Program TypeStore} {st : TypeStore}

namespace Grounded

theorem isAntichain {s : ThrowSet} {now : TypeStore} (h : p.Grounded st)
    (hs : p.KnownAntichain st now s) : s.IsAntichain now.isSubtype := by
  rw [KnownAntichain, h.types] at hs
  exact hs.isAntichain (TypeStore.isSubtype_refl now)

end Grounded

/-- What an analysis hands out, judged by the store that it leaves behind. -/
theorem isAntichain_of_grounded (h : p.Grounded st) (n top : NodeRef) :
    (∀ m ∈ [p.thrown n, p.thrownChecked n, p.closingThrows n, p.referencedThrows n],
      (m st).1.IsAntichain (m st).2.isSubtype) ∧
    (∀ m ∈ [p.unhandled n top, p.unhandledClosing n top, p.unhandledItself n top],
      (m st).1.IsAntichain (m st).2.isSubtype ∧
      ∀ ty ∈ (m st).1.members, p.isChecked (m st).2 ty = true) ∧
    ∀ site ∈ (p.sites n top st).1,
      site.exceptions.IsAntichain (p.sites n top st).2.isSubtype ∧
      ∀ ty ∈ site.exceptions.members, p.isChecked (p.sites n top st).2 ty = true := by
  have hst := h.keepsSubtyping
  have hthrown : p.Delivers st False st (p.thrown n) :=
    delivers_thrownWithin hst False.elim .refl _ n
  have hchecked : p.Delivers st False st (p.thrownChecked n) :=
    .bind hthrown fun set next _ hset => .get_bind (.pure (hset.filter _)) False.elim
  refine ⟨?_, ?_, ?_⟩
  · have hdelivers : ∀ m ∈ [p.thrown n, p.thrownChecked n, p.closingThrows n,
        p.referencedThrows n], p.Delivers st False st m := by
      simp only [List.forall_mem_cons]
      exact ⟨hthrown, hchecked, delivers_closingThrows hst False.elim .refl n,
        delivers_throwsOfReference hst False.elim .refl n, fun _ hm => nomatch hm⟩
    intro m hm
    exact h.isAntichain (hdelivers m hm).result
  · have hreports : ∀ m ∈ [p.unhandled n top, p.unhandledClosing n top, p.unhandledItself n top],
        Ensures p.Substitutes False st m (p.Reportable st) := by
      simp only [List.forall_mem_cons]
      exact ⟨ensures_unhandled hst False.elim .refl n top,
        ensures_unhandledClosing hst False.elim .refl n top,
        ensures_unhandledItself hst False.elim .refl n top, fun _ hm => nomatch hm⟩
    intro m hm
    have hresult := (hreports m hm).result
    exact ⟨h.isAntichain hresult.antichain, hresult.checked⟩
  · intro site hsite
    have hresult := (ensures_allSites hst False.elim .refl n top).result site hsite
    exact ⟨h.isAntichain hresult.antichain, hresult.checked⟩

/-- The analysis adds type 16 to the store, and reports it at the first clause that rethrows. -/
theorem genericProgram_isAntichain :
    (genericProgram.sites (some 14) none genericStore).2.size = genericStore.size + 1 ∧
    (genericProgram.unhandled (some 14) none genericStore).1.IsAntichain
      (genericProgram.unhandled (some 14) none genericStore).2.isSubtype ∧
    ⟨some 6, false, ⟨[some 16, some 5]⟩⟩ ∈ (genericProgram.sites (some 14) none genericStore).1 ∧
    ThrowSet.IsAntichain (genericProgram.sites (some 14) none genericStore).2.isSubtype
      ⟨[some 16, some 5]⟩ := by
  have hsite : ⟨some 6, false, ⟨[some 16, some 5]⟩⟩ ∈
      (genericProgram.sites (some 14) none genericStore).1 := by decide +kernel
  obtain ⟨-, hunhandled, hsites⟩ := isAntichain_of_grounded genericProgram_grounded (some 14) none
  exact ⟨by decide +kernel, (hunhandled _ List.mem_cons_self).1, hsite, (hsites _ hsite).1⟩

end Store

end Program

end CheckedExceptions
