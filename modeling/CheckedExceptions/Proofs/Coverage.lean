import CheckedExceptions.Proofs.Basic
import CheckedExceptions.ThrowSet

/-! What a set of exception types stands for. A set leaves out the types that a member covers, so it
represents a collection of types if it holds only such types, and for each of them one above it. -/

namespace CheckedExceptions

namespace ThrowSet

variable {sub : Subtyping} {I P Q : TypeRef → Prop} {s t : ThrowSet} {a b ty handler : TypeRef}

structure OrderedOn (sub : Subtyping) (I : TypeRef → Prop) : Prop where
  refl : ∀ a, I a → sub a a = true
  trans : ∀ a b c, I a → I b → I c → sub a b = true → sub b c = true → sub a c = true

/-- A set of types in question, all of them proper types, in which no member covers another. -/
structure AntichainIn (sub : Subtyping) (I : TypeRef → Prop) (s : ThrowSet) : Prop where
  inside : ∀ ty ∈ s.members, I ty
  isSome : ∀ ty ∈ s.members, ty.isSome = true
  apart : s.members.Pairwise fun a b => sub a b = false ∧ sub b a = false

/-- Every member is a `P`, and some member is above each `P`. -/
structure Represents (sub : Subtyping) (I : TypeRef → Prop) (s : ThrowSet) (P : TypeRef → Prop) :
    Prop where
  antichain : s.AntichainIn sub I
  inside : ∀ ty, P ty → I ty
  sound : ∀ ty ∈ s.members, P ty
  covers : ∀ ty, P ty → s.covers sub ty = true

theorem covers_iff : s.covers sub ty = true ↔ ∃ member ∈ s.members, sub ty member = true :=
  List.any_eq_true

theorem foldl_removeCovered_eq_filter (sub : Subtyping) (handlers : List TypeRef) (s : ThrowSet) :
    handlers.foldl (removeCovered sub) s = s.filter fun ty => !handlers.any (sub ty) := by
  induction handlers generalizing s with
  | nil => exact congrArg ThrowSet.mk (List.filter_eq_self.mpr fun _ _ => rfl).symm
  | cons handler handlers ih =>
    rw [List.foldl_cons, ih]
    simp [filter, removeCovered, List.filter_filter, Bool.and_comm]

theorem mem_of_mem_insert (h : a ∈ (s.insert sub ty).members) : a ∈ s.members ∨ a = ty := by
  unfold insert at h
  split at h
  · rcases List.mem_append.mp h with h | h
    · exact Or.inl (List.mem_filter.mp h).1
    · exact Or.inr (List.mem_singleton.mp h)
  · exact Or.inl h

theorem mem_of_mem_insertAll {tys : List TypeRef} (h : a ∈ (s.insertAll sub tys).members) :
    a ∈ s.members ∨ a ∈ tys := by
  induction tys generalizing s with
  | nil => exact Or.inl h
  | cons ty tys ih =>
    rcases ih h with h | h
    · rcases mem_of_mem_insert h with h | rfl
      · exact Or.inl h
      · exact Or.inr List.mem_cons_self
    · exact Or.inr (List.mem_cons_of_mem ty h)

theorem antichainIn_empty : AntichainIn sub I .empty where
  inside := fun _ h => absurd h List.not_mem_nil
  isSome := fun _ h => absurd h List.not_mem_nil
  apart := .nil

namespace AntichainIn

theorem insert (h : s.AntichainIn sub I) (hty : I ty) : (s.insert sub ty).AntichainIn sub I := by
  unfold ThrowSet.insert
  split
  · next hadmits =>
    obtain ⟨hsome, hcovers⟩ := Bool.and_eq_true_iff.mp hadmits
    have huncovered := List.any_eq_false.mp ((Bool.not_eq_true' _).mp hcovers)
    refine ⟨fun a ha => ?_, fun a ha => ?_, ?_⟩
    · rcases List.mem_append.mp ha with ha | ha
      · exact h.inside a (List.mem_filter.mp ha).1
      · rw [List.mem_singleton.mp ha]
        exact hty
    · rcases List.mem_append.mp ha with ha | ha
      · exact h.isSome a (List.mem_filter.mp ha).1
      · rw [List.mem_singleton.mp ha]
        exact hsome
    · refine List.pairwise_append.mpr ⟨h.apart.filter _, List.pairwise_singleton _ _, ?_⟩
      intro a ha b hb
      obtain ⟨hmem, hkept⟩ := List.mem_filter.mp ha
      rw [List.mem_singleton.mp hb]
      exact ⟨(Bool.not_eq_true' _).mp hkept, Bool.eq_false_iff.mpr (huncovered a hmem)⟩
  · exact h

theorem insertAll (h : s.AntichainIn sub I) {tys : List TypeRef} (htys : ∀ ty ∈ tys, I ty) :
    (s.insertAll sub tys).AntichainIn sub I := by
  induction tys generalizing s with
  | nil => exact h
  | cons ty tys ih =>
    exact ih (h.insert (htys ty List.mem_cons_self)) fun a ha => htys a (List.mem_cons_of_mem ty ha)

theorem ofList {tys : List TypeRef} (htys : ∀ ty ∈ tys, I ty) :
    (ofList sub tys).AntichainIn sub I :=
  antichainIn_empty.insertAll htys

theorem union (hs : s.AntichainIn sub I) (ht : t.AntichainIn sub I) :
    (s.union sub t).AntichainIn sub I :=
  hs.insertAll ht.inside

theorem nodup (h : s.AntichainIn sub I) (hrefl : ∀ a, I a → sub a a = true) : s.members.Nodup := by
  apply h.apart.imp_of_mem
  rintro a _ ha - ⟨hab, -⟩ rfl
  rw [hrefl a (h.inside a ha)] at hab
  cases hab

theorem filter (h : s.AntichainIn sub I) (keep : TypeRef → Bool) :
    (s.filter keep).AntichainIn sub I where
  inside := fun a ha => h.inside a (List.mem_filter.mp ha).1
  isSome := fun a ha => h.isSome a (List.mem_filter.mp ha).1
  apart := h.apart.filter _

theorem removeCovered (h : s.AntichainIn sub I) (handler : TypeRef) :
    (s.removeCovered sub handler).AntichainIn sub I :=
  h.filter _

/-- Inserting the members of an antichain one by one loses none of them. -/
theorem ofList_members (h : s.AntichainIn sub I) : ThrowSet.ofList sub s.members = s := by
  have hgo : ∀ (tys done : List TypeRef), (⟨done ++ tys⟩ : ThrowSet).AntichainIn sub I →
      ThrowSet.insertAll sub ⟨done⟩ tys = ⟨done ++ tys⟩ := by
    intro tys
    induction tys with
    | nil => simp [ThrowSet.insertAll]
    | cons ty tys ih =>
      intro done hantichain
      obtain ⟨-, -, happart⟩ := List.pairwise_append.mp hantichain.apart
      have hapart : ∀ a ∈ done, sub a ty = false ∧ sub ty a = false :=
        fun a ha => happart a ha ty List.mem_cons_self
      have hadmits : ThrowSet.admits sub ⟨done⟩ ty = true := by
        have huncovered : ThrowSet.covers sub ⟨done⟩ ty = false := by
          apply List.any_eq_false.mpr
          intro a ha
          rw [(hapart a ha).2]
          exact Bool.false_ne_true
        rw [ThrowSet.admits, hantichain.isSome ty (by simp), huncovered]
        rfl
      have hkeeps : done.filter (fun a => !sub a ty) = done := by
        apply List.filter_eq_self.mpr
        intro a ha
        rw [(hapart a ha).1]
        rfl
      have hinsert : ThrowSet.insert sub ⟨done⟩ ty = ⟨done ++ [ty]⟩ := by
        rw [ThrowSet.insert, if_pos hadmits]
        simp only [ThrowSet.removeCovered, hkeeps]
      show ThrowSet.insertAll sub (ThrowSet.insert sub ⟨done⟩ ty) tys = _
      rw [hinsert, ih (done ++ [ty]) (by simpa using hantichain)]
      simp
  exact hgo s.members [] h

end AntichainIn

namespace OrderedOn

theorem mono {J : TypeRef → Prop} (h : OrderedOn sub I) (hJI : ∀ a, J a → I a) :
    OrderedOn sub J where
  refl := fun a ha => h.refl a (hJI a ha)
  trans := fun a b c ha hb hc => h.trans a b c (hJI a ha) (hJI b hb) (hJI c hc)

theorem covers_insert_self (h : OrderedOn sub I) (hty : I ty) (hsome : ty.isSome = true) :
    (s.insert sub ty).covers sub ty = true := by
  unfold insert
  split
  · exact covers_iff.mpr ⟨ty, List.mem_append_right _ List.mem_cons_self, h.refl ty hty⟩
  · next hadmits =>
    simpa [admits, hsome] using hadmits

/-- What was covered by a member that had to go is covered by the type that took its place. -/
theorem covers_insert (h : OrderedOn sub I) (hs : s.AntichainIn sub I) (hty : I ty) (ha : I a)
    (hcovers : s.covers sub a = true) : (s.insert sub ty).covers sub a = true := by
  unfold insert
  split
  · obtain ⟨member, hmember, hsub⟩ := covers_iff.mp hcovers
    by_cases hreplaced : sub member ty = true
    · exact covers_iff.mpr ⟨ty, List.mem_append_right _ List.mem_cons_self,
        h.trans a member ty ha (hs.inside member hmember) hty hsub hreplaced⟩
    · refine covers_iff.mpr
        ⟨member, List.mem_append_left _ (List.mem_filter.mpr ⟨hmember, ?_⟩), hsub⟩
      rw [Bool.eq_false_iff.mpr hreplaced]
      rfl
  · exact hcovers

theorem covers_insertAll (h : OrderedOn sub I) {tys : List TypeRef} (hs : s.AntichainIn sub I)
    (htys : ∀ ty ∈ tys, I ty) (ha : I a) (hcovers : s.covers sub a = true) :
    (s.insertAll sub tys).covers sub a = true := by
  induction tys generalizing s with
  | nil => exact hcovers
  | cons ty tys ih =>
    have hty : I ty := htys ty List.mem_cons_self
    exact ih (hs.insert hty) (fun b hb => htys b (List.mem_cons_of_mem ty hb))
      (h.covers_insert hs hty ha hcovers)

theorem covers_insertAll_of_mem (h : OrderedOn sub I) {tys : List TypeRef} (hs : s.AntichainIn sub I)
    (htys : ∀ ty ∈ tys, I ty) (hmem : a ∈ tys) (hsome : a.isSome = true) :
    (s.insertAll sub tys).covers sub a = true := by
  induction tys generalizing s with
  | nil => exact absurd hmem List.not_mem_nil
  | cons ty tys ih =>
    have hty : I ty := htys ty List.mem_cons_self
    have hrest : ∀ b ∈ tys, I b := fun b hb => htys b (List.mem_cons_of_mem ty hb)
    rcases List.mem_cons.mp hmem with rfl | hmem
    · show ((s.insert sub a).insertAll sub tys).covers sub a = true
      exact h.covers_insertAll (hs.insert hty) hrest hty (h.covers_insert_self hty hsome)
    · exact ih (hs.insert hty) hrest hmem

theorem covers_of_sub (h : OrderedOn sub I) (hs : s.AntichainIn sub I) (ha : I a) (hb : I b)
    (hab : sub a b = true) (hcovers : s.covers sub b = true) : s.covers sub a = true := by
  obtain ⟨member, hmember, hsub⟩ := covers_iff.mp hcovers
  exact covers_iff.mpr
    ⟨member, hmember, h.trans a b member ha hb (hs.inside member hmember) hab hsub⟩

theorem covers_ofList_iff (h : OrderedOn sub I) {tys : List TypeRef} (htys : ∀ ty ∈ tys, I ty)
    (ha : I a) (hsome : ∀ ty ∈ tys, sub a ty = true → ty.isSome = true) :
    (ofList sub tys).covers sub a = true ↔ ∃ ty ∈ tys, sub a ty = true := by
  constructor
  · intro hcovers
    obtain ⟨member, hmember, hsub⟩ := covers_iff.mp hcovers
    rcases mem_of_mem_insertAll hmember with hempty | hmember
    · exact absurd hempty List.not_mem_nil
    · exact ⟨member, hmember, hsub⟩
  · rintro ⟨ty, hty, hsub⟩
    have hcovers := h.covers_insertAll_of_mem antichainIn_empty htys hty (hsome ty hty hsub)
    exact h.covers_of_sub (.ofList htys) ha (htys ty hty) hsub hcovers

theorem represents_members (h : OrderedOn sub I) (hs : s.AntichainIn sub I) :
    s.Represents sub I (· ∈ s.members) where
  antichain := hs
  inside := hs.inside
  sound := fun _ => id
  covers := fun ty hty => covers_iff.mpr ⟨ty, hty, h.refl ty (hs.inside ty hty)⟩

theorem represents_ofList (h : OrderedOn sub I) {tys : List TypeRef} (htys : ∀ ty ∈ tys, I ty) :
    (ofList sub tys).Represents sub I fun ty => ty ∈ tys ∧ ty.isSome = true where
  antichain := .ofList htys
  inside := fun ty hty => htys ty hty.1
  sound := by
    intro ty hty
    have hantichain : (ofList sub tys).AntichainIn sub I := .ofList htys
    exact ⟨(mem_of_mem_insertAll hty).resolve_left List.not_mem_nil, hantichain.isSome ty hty⟩
  covers := fun ty hty => h.covers_insertAll_of_mem antichainIn_empty htys hty.1 hty.2

theorem represents_union (h : OrderedOn sub I) (hs : s.Represents sub I P)
    (ht : t.Represents sub I Q) : (s.union sub t).Represents sub I fun ty => P ty ∨ Q ty where
  antichain := hs.antichain.union ht.antichain
  inside := fun ty hty => hty.elim (hs.inside ty) (ht.inside ty)
  sound := fun ty hty => (mem_of_mem_insertAll hty).imp (hs.sound ty) (ht.sound ty)
  covers := by
    rintro ty (hty | hty)
    · exact h.covers_insertAll hs.antichain ht.antichain.inside (hs.inside ty hty)
        (hs.covers ty hty)
    · obtain ⟨member, hmember, hsub⟩ := covers_iff.mp (ht.covers ty hty)
      have hcovers := h.covers_insertAll_of_mem hs.antichain ht.antichain.inside hmember
        (ht.antichain.isSome member hmember)
      exact h.covers_of_sub (hs.antichain.union ht.antichain) (ht.inside ty hty)
        (ht.antichain.inside member hmember) hsub hcovers

/-- Taking out what a handler catches. A member that goes covers nothing that stays. -/
theorem represents_removeCovered (h : OrderedOn sub I) (hs : s.Represents sub I P)
    (hhandler : I handler) :
    (s.removeCovered sub handler).Represents sub I fun ty => P ty ∧ sub ty handler = false where
  antichain := hs.antichain.removeCovered handler
  inside := fun ty hty => hs.inside ty hty.1
  sound := by
    intro ty hty
    obtain ⟨hmem, hkept⟩ := List.mem_filter.mp hty
    exact ⟨hs.sound ty hmem, (Bool.not_eq_true' _).mp hkept⟩
  covers := by
    rintro ty ⟨hty, hfree⟩
    obtain ⟨member, hmember, hsub⟩ := covers_iff.mp (hs.covers ty hty)
    refine covers_iff.mpr ⟨member, List.mem_filter.mpr ⟨hmember, ?_⟩, hsub⟩
    refine (Bool.not_eq_true' _).mpr (Bool.eq_false_iff.mpr fun hcaught => ?_)
    have hbelow : sub ty handler = true :=
      h.trans ty member handler (hs.inside ty hty) (hs.antichain.inside member hmember) hhandler
        hsub
        hcaught
    rw [hfree] at hbelow
    cases hbelow

theorem represents_foldl_removeCovered (h : OrderedOn sub I) {handlers : List TypeRef}
    (hs : s.Represents sub I P) (hhandlers : ∀ handler ∈ handlers, I handler) :
    (handlers.foldl (ThrowSet.removeCovered sub) s).Represents sub I fun ty =>
      P ty ∧ ∀ handler ∈ handlers, sub ty handler = false := by
  induction handlers generalizing s P with
  | nil => simpa using hs
  | cons handler handlers ih =>
    have hrest := ih (h.represents_removeCovered hs (hhandlers handler List.mem_cons_self))
      fun x hx => hhandlers x (List.mem_cons_of_mem handler hx)
    simpa only [List.forall_mem_cons, and_assoc, List.foldl_cons] using hrest

end OrderedOn

theorem represents_empty : Represents sub I .empty fun _ => False where
  antichain := antichainIn_empty
  inside := fun _ => False.elim
  sound := fun _ h => absurd h List.not_mem_nil
  covers := fun _ => False.elim

theorem Represents.congr (h : s.Represents sub I P) (hPQ : ∀ ty, P ty ↔ Q ty) :
    s.Represents sub I Q where
  antichain := h.antichain
  inside := fun ty hty => h.inside ty ((hPQ ty).mpr hty)
  sound := fun ty hty => (hPQ ty).mp (h.sound ty hty)
  covers := fun ty hty => h.covers ty ((hPQ ty).mpr hty)

section Within

/-- Two antichains, the second of which covers every member of the first. -/
structure Within (sub : Subtyping) (I : TypeRef → Prop) (s t : ThrowSet) : Prop where
  left : s.AntichainIn sub I
  right : t.AntichainIn sub I
  covers : ∀ ty ∈ s.members, t.covers sub ty = true

namespace OrderedOn

variable {s' t' : ThrowSet}

theorem within_refl (h : OrderedOn sub I) (hs : s.AntichainIn sub I) : s.Within sub I s :=
  ⟨hs, hs, (h.represents_members hs).covers⟩

theorem within_union (h : OrderedOn sub I) (hs : s.Within sub I s') (ht : t.Within sub I t') :
    (s.union sub t).Within sub I (s'.union sub t') := by
  refine ⟨hs.left.union ht.left, hs.right.union ht.right, ?_⟩
  intro ty hty
  have hunion := h.represents_union (h.represents_members hs.right) (h.represents_members ht.right)
  have hbelow : ∀ u : ThrowSet, u.covers sub ty = true → I ty →
      (∀ member ∈ u.members, member ∈ s'.members ∨ member ∈ t'.members) →
      (s'.union sub t').covers sub ty = true := by
    intro u hcovers hinside hmembers
    obtain ⟨member, hmember, hsub⟩ := covers_iff.mp hcovers
    have hmem := hmembers member hmember
    exact h.covers_of_sub hunion.antichain hinside (hunion.inside member hmem) hsub
      (hunion.covers member hmem)
  rcases mem_of_mem_insertAll hty with hty | hty
  · exact hbelow s' (hs.covers ty hty) (hs.left.inside ty hty) fun _ => Or.inl
  · exact hbelow t' (ht.covers ty hty) (ht.left.inside ty hty) fun _ => Or.inr

theorem within_ofList (h : OrderedOn sub I) {tys tys' : List TypeRef} (htys : ∀ ty ∈ tys, I ty)
    (htys' : ∀ ty ∈ tys', I ty)
    (hbelow : ∀ a ∈ tys, a.isSome = true → ∃ b ∈ tys', b.isSome = true ∧ sub a b = true) :
    (ofList sub tys).Within sub I (ofList sub tys') := by
  have hantichain : (ofList sub tys).AntichainIn sub I := .ofList htys
  refine ⟨hantichain, .ofList htys', ?_⟩
  intro a ha
  have hmem : a ∈ tys := (mem_of_mem_insertAll ha).resolve_left List.not_mem_nil
  obtain ⟨b, hb, hsome, hsub⟩ := hbelow a hmem (hantichain.isSome a ha)
  exact h.covers_of_sub (.ofList htys') (htys a hmem) (htys' b hb) hsub
    (h.covers_insertAll_of_mem antichainIn_empty htys' hb hsome)

/-- What covers a type that no handler catches is not caught by one either. -/
theorem within_foldl_removeCovered (h : OrderedOn sub I) {handlers : List TypeRef}
    (hs : s.Within sub I s') (hhandlers : ∀ handler ∈ handlers, I handler) :
    (handlers.foldl (ThrowSet.removeCovered sub) s).Within sub I
      (handlers.foldl (ThrowSet.removeCovered sub) s') := by
  have hleft := h.represents_foldl_removeCovered (h.represents_members hs.left) hhandlers
  have hright := h.represents_foldl_removeCovered (h.represents_members hs.right) hhandlers
  refine ⟨hleft.antichain, hright.antichain, ?_⟩
  intro a ha
  obtain ⟨hmem, hfree⟩ := hleft.sound a ha
  have hinside := hs.left.inside a hmem
  obtain ⟨b, hb, hsub⟩ := covers_iff.mp (hs.covers a hmem)
  have hbinside := hs.right.inside b hb
  have hbfree : ∀ handler ∈ handlers, sub b handler = false := by
    intro handler hhandler
    apply Bool.eq_false_iff.mpr
    intro hcaught
    have hbelow := h.trans a b handler hinside hbinside (hhandlers handler hhandler) hsub hcaught
    rw [hfree handler hhandler] at hbelow
    cases hbelow
  exact h.covers_of_sub hright.antichain hinside hbinside hsub (hright.covers b ⟨hb, hbfree⟩)

end OrderedOn

end Within

section Agreeing

variable {sub' : Subtyping} {J : TypeRef → Prop}

def AgreeOn (sub sub' : Subtyping) (I : TypeRef → Prop) : Prop :=
  ∀ a b, I a → I b → sub' a b = sub a b

namespace AgreeOn

theorem removeCovered (h : AgreeOn sub sub' I) (hs : ∀ a ∈ s.members, I a) (hhandler : I handler) :
    s.removeCovered sub' handler = s.removeCovered sub handler := by
  apply congrArg ThrowSet.mk
  apply List.filter_congr
  intro a ha
  rw [h a handler (hs a ha) hhandler]

theorem insert (h : AgreeOn sub sub' I) (hs : ∀ a ∈ s.members, I a) (hty : I ty) :
    s.insert sub' ty = s.insert sub ty := by
  have hcovers : s.covers sub' ty = s.covers sub ty :=
    any_congr_of_mem fun a ha => h ty a hty (hs a ha)
  unfold ThrowSet.insert admits
  rw [hcovers, h.removeCovered hs hty]

theorem insertAll (h : AgreeOn sub sub' I) {tys : List TypeRef} (hs : ∀ a ∈ s.members, I a)
    (htys : ∀ ty ∈ tys, I ty) : s.insertAll sub' tys = s.insertAll sub tys := by
  induction tys generalizing s with
  | nil => rfl
  | cons ty tys ih =>
    have hty : I ty := htys ty List.mem_cons_self
    show (s.insert sub' ty).insertAll sub' tys = (s.insert sub ty).insertAll sub tys
    rw [h.insert hs hty]
    apply ih _ fun a ha => htys a (List.mem_cons_of_mem ty ha)
    intro a ha
    rcases mem_of_mem_insert ha with ha | rfl
    · exact hs a ha
    · exact hty

theorem ofList (h : AgreeOn sub sub' I) {tys : List TypeRef} (htys : ∀ ty ∈ tys, I ty) :
    ThrowSet.ofList sub' tys = ThrowSet.ofList sub tys :=
  h.insertAll (fun _ ha => absurd ha List.not_mem_nil) htys

theorem foldl_removeCovered (h : AgreeOn sub sub' I) {handlers : List TypeRef}
    (hs : ∀ a ∈ s.members, I a) (hhandlers : ∀ handler ∈ handlers, I handler) :
    handlers.foldl (ThrowSet.removeCovered sub') s =
      handlers.foldl (ThrowSet.removeCovered sub) s := by
  induction handlers generalizing s with
  | nil => rfl
  | cons handler handlers ih =>
    rw [List.foldl_cons, List.foldl_cons, h.removeCovered hs (hhandlers _ List.mem_cons_self)]
    apply ih _ fun x hx => hhandlers x (List.mem_cons_of_mem handler hx)
    intro a ha
    exact hs a (List.mem_filter.mp ha).1

end AgreeOn

theorem AntichainIn.foldl_removeCovered (h : s.AntichainIn sub I) (handlers : List TypeRef) :
    (handlers.foldl (ThrowSet.removeCovered sub) s).AntichainIn sub I := by
  rw [foldl_removeCovered_eq_filter]
  exact h.filter _

theorem AntichainIn.of_agreeOn (h : s.AntichainIn sub I) (hagree : AgreeOn sub sub' I)
    (hIJ : ∀ a, I a → J a) :
    s.AntichainIn sub' J where
  inside := fun a ha => hIJ a (h.inside a ha)
  isSome := h.isSome
  apart := by
    apply h.apart.imp_of_mem
    intro a b ha hb
    rw [hagree a b (h.inside a ha) (h.inside b hb), hagree b a (h.inside b hb) (h.inside a ha)]
    exact id

end Agreeing

end ThrowSet

end CheckedExceptions
