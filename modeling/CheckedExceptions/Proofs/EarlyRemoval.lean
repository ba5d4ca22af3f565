import CheckedExceptions.Proofs.Coverage
import CheckedExceptions.Proofs.Handling

/-! Types may be taken out of a set before or after it is built. It makes no difference if everything
above a kept type is kept. -/

namespace CheckedExceptions

namespace ThrowSet

variable {sub : Subtyping} {keep : TypeRef → Bool} {s : ThrowSet} {ty : TypeRef}

def KeepsAbove (sub : Subtyping) (keep : TypeRef → Bool) : Prop :=
  ∀ a b, sub a b = true → keep a = true → keep b = true

theorem keepsAbove_uncovered (htrans : ∀ a b c, sub a b = true → sub b c = true → sub a c = true)
    (handlers : List TypeRef) : KeepsAbove sub fun ty => !handlers.any (sub ty) := by
  intro a b hab ha
  rw [Bool.not_eq_true', List.any_eq_false] at ha ⊢
  exact fun handler hhandler hb => ha handler hhandler (htrans a b handler hab hb)

namespace KeepsAbove

theorem covers_filter (h : KeepsAbove sub keep) (hty : keep ty = true) :
    (s.filter keep).covers sub ty = s.covers sub ty := by
  rw [Bool.eq_iff_iff, covers_iff, covers_iff]
  constructor
  · rintro ⟨member, hmember, hsub⟩
    exact ⟨member, (List.mem_filter.mp hmember).1, hsub⟩
  · rintro ⟨member, hmember, hsub⟩
    exact ⟨member, List.mem_filter.mpr ⟨hmember, h ty member hsub hty⟩, hsub⟩

theorem filter_insert_of_kept (h : KeepsAbove sub keep) (hty : keep ty = true) :
    (s.insert sub ty).filter keep = (s.filter keep).insert sub ty := by
  have hadmits : (s.filter keep).admits sub ty = s.admits sub ty := by
    rw [admits, h.covers_filter hty, admits]
  unfold ThrowSet.insert
  rw [hadmits]
  split
  · simp [filter, removeCovered, hty, List.filter_filter, Bool.and_comm]
  · rfl

/-- A type that is taken out displaces only what is taken out too. -/
theorem filter_insert_of_dropped (h : KeepsAbove sub keep) (hty : keep ty = false) :
    (s.insert sub ty).filter keep = s.filter keep := by
  have hbelow : ∀ member ∈ s.members, (keep member && !sub member ty) = keep member := by
    intro member _
    cases hmember : keep member with
    | false => rfl
    | true =>
      have hapart : sub member ty = false := by
        apply Bool.eq_false_iff.mpr
        intro hsub
        rw [h member ty hsub hmember] at hty
        cases hty
      rw [hapart]
      rfl
  unfold ThrowSet.insert
  split
  · simp [filter, removeCovered, hty, List.filter_filter, List.filter_congr hbelow]
  · rfl

theorem filter_insertAll (h : KeepsAbove sub keep) (tys : List TypeRef) (s : ThrowSet) :
    (s.insertAll sub tys).filter keep = (s.filter keep).insertAll sub (tys.filter keep) := by
  induction tys generalizing s with
  | nil => rfl
  | cons ty tys ih =>
    refine (ih (s.insert sub ty)).trans ?_
    cases hty : keep ty with
    | true =>
      rw [h.filter_insert_of_kept hty, List.filter_cons_of_pos hty]
      rfl
    | false =>
      rw [h.filter_insert_of_dropped hty, List.filter_cons_of_neg (by simp [hty])]

theorem filter_ofList (h : KeepsAbove sub keep) (tys : List TypeRef) :
    (ofList sub tys).filter keep = ofList sub (tys.filter keep) :=
  h.filter_insertAll tys .empty

end KeepsAbove

end ThrowSet

namespace Program

variable {σ : Type}

/-- What the handlers leave of a set is the set of what they leave of its types. The same holds of
the catch clauses of a try statement, and of the unchecked exceptions when they are taken out. -/
theorem removal_before_pruning (p : Program σ) (st : σ)
    (htrans : ∀ a b c, p.types.isSubtype st a b = true → p.types.isSubtype st b c = true →
      p.types.isSubtype st a c = true) (tys : List TypeRef) :
    (∀ handlers : List TypeRef,
      handlers.foldl (ThrowSet.removeCovered (p.types.isSubtype st))
          (ThrowSet.ofList (p.types.isSubtype st) tys) =
        ThrowSet.ofList (p.types.isSubtype st)
          (tys.filter fun ty => !handlers.any (p.types.isSubtype st ty))) ∧
    (∀ parts, p.uncaught st parts (ThrowSet.ofList (p.types.isSubtype st) tys) =
      ThrowSet.ofList (p.types.isSubtype st) (tys.filter fun ty => !p.catches st parts ty)) ∧
    (ThrowSet.ofList (p.types.isSubtype st) tys).filter (p.isChecked st) =
      ThrowSet.ofList (p.types.isSubtype st) (tys.filter (p.isChecked st)) := by
  have hhandlers : ∀ handlers : List TypeRef,
      handlers.foldl (ThrowSet.removeCovered (p.types.isSubtype st))
          (ThrowSet.ofList (p.types.isSubtype st) tys) =
        ThrowSet.ofList (p.types.isSubtype st)
          (tys.filter fun ty => !handlers.any (p.types.isSubtype st ty)) := by
    intro handlers
    rw [ThrowSet.foldl_removeCovered_eq_filter]
    exact (ThrowSet.keepsAbove_uncovered htrans handlers).filter_ofList tys
  refine ⟨hhandlers, fun parts => ?_, ?_⟩
  · refine (hhandlers (parts.clauses.flatMap (p.caughtTypes st))).trans ?_
    simp only [List.any_flatMap]
    rfl
  · exact (ThrowSet.keepsAbove_uncovered htrans (p.exemptRoots st)).filter_ofList tys

/-- The exception 2 displaces 5 and 3 from the set. Of these only 5 is caught and only 3 is
unchecked, so that 2 would come in without them as well. -/
theorem fragmentProgram_removes_early :
    (ThrowSet.ofList TypeStore.mixedStore.isSubtype
      [some 5, some 3, none, some 2, some 4]).members = [some 2, some 4] ∧
    ([some 5, some 4].foldl (ThrowSet.removeCovered TypeStore.mixedStore.isSubtype)
      (.ofList TypeStore.mixedStore.isSubtype
        [some 5, some 3, none, some 2, some 4])).members = [some 2] ∧
    (fragmentProgram.uncaught TypeStore.mixedStore ⟨none, some 1, [some 4], none⟩
      (.ofList TypeStore.mixedStore.isSubtype
        [some 5, some 3, none, some 2, some 4])).members = [some 2, some 4] ∧
    ((ThrowSet.ofList TypeStore.mixedStore.isSubtype
      [some 5, some 3, none, some 2, some 4]).filter
        (fragmentProgram.isChecked TypeStore.mixedStore)).members = [some 2] := by
  obtain ⟨hhandlers, hcaught, hchecked⟩ := removal_before_pruning fragmentProgram
    TypeStore.mixedStore TypeStore.mixedStore_trans [some 5, some 3, none, some 2, some 4]
  refine ⟨by decide +kernel, ?_, ?_, ?_⟩
  · exact (congrArg ThrowSet.members (hhandlers [some 5, some 4])).trans (by decide +kernel)
  · exact (congrArg ThrowSet.members (hcaught ⟨none, some 1, [some 4], none⟩)).trans
      (by decide +kernel)
  · exact (congrArg ThrowSet.members hchecked).trans (by decide +kernel)

end Program

end CheckedExceptions
