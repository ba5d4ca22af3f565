import CheckedExceptions.Proofs.Coverage
import CheckedExceptions.Specificity
import CheckedExceptions.Types.Subtyping
import Mathlib.Data.List.Chain

/-! How far sorting puts exception types in order. A type sinks past the more specific ones that
follow it directly, and only ever passes its supertypes. -/

namespace CheckedExceptions

namespace Specificity

open ThrowSet (Subtyping OrderedOn)

variable {sub : Subtyping} {ty a b c : TypeRef} {tys rest chain : List TypeRef}

def IsProper (sub : Subtyping) (a b : TypeRef) : Prop := b ≠ a ∧ sub a b = true

instance (sub : Subtyping) (a b : TypeRef) : Decidable (IsProper sub a b) :=
  inferInstanceAs (Decidable (b ≠ a ∧ sub a b = true))

def Related (sub : Subtyping) (a b : TypeRef) : Prop := sub a b = true ∨ sub b a = true

def Sorted (sub : Subtyping) (tys : List TypeRef) : Prop :=
  tys.Pairwise fun a b => ¬IsProper sub b a

def LocallySorted (sub : Subtyping) (tys : List TypeRef) : Prop :=
  tys.IsChain fun a b => ¬IsProper sub b a

def AntisymmetricOn (sub : Subtyping) (I : TypeRef → Prop) : Prop :=
  ∀ a b, I a → I b → sub a b = true → sub b a = true → a = b

namespace AntisymmetricOn

variable {I J : TypeRef → Prop}

theorem mono (h : AntisymmetricOn sub I) (hsub : ∀ a, J a → I a) : AntisymmetricOn sub J :=
  fun a b ha hb => h a b (hsub a ha) (hsub b hb)

theorem asymm (h : AntisymmetricOn sub I) (ha : I a) (hb : I b) (hab : IsProper sub a b) :
    ¬IsProper sub b a :=
  fun hba => hab.1 (h b a hb ha hba.2 hab.2)

end AntisymmetricOn

structure PartialOrderOn (sub : Subtyping) (I : TypeRef → Prop) : Prop extends OrderedOn sub I where
  antisymm : ∀ a b, I a → I b → sub a b = true → sub b a = true → a = b

namespace PartialOrderOn

variable {I J : TypeRef → Prop}

theorem mono (h : PartialOrderOn sub I) (hsub : ∀ a, J a → I a) : PartialOrderOn sub J where
  refl := fun a ha => h.refl a (hsub a ha)
  trans := fun a b c ha hb hc => h.trans a b c (hsub a ha) (hsub b hb) (hsub c hc)
  antisymm := fun a b ha hb => h.antisymm a b (hsub a ha) (hsub b hb)

theorem antisymmetricOn (h : PartialOrderOn sub I) : AntisymmetricOn sub I := h.antisymm

theorem trans_proper (h : PartialOrderOn sub I) (ha : I a) (hb : I b) (hc : I c)
    (hab : sub a b = true) (hbc : IsProper sub b c) : IsProper sub a c := by
  refine ⟨?_, h.trans a b c ha hb hc hab hbc.2⟩
  rintro rfl
  exact hbc.1 (h.antisymm c b hc hb hab hbc.2)

theorem proper_trans (h : PartialOrderOn sub I) (ha : I a) (hb : I b) (hc : I c)
    (hab : IsProper sub a b) (hbc : sub b c = true) : IsProper sub a c := by
  refine ⟨?_, h.trans a b c ha hb hc hab.2 hbc⟩
  rintro rfl
  exact hab.1 (h.antisymm b c hb hc hbc hab.2)

end PartialOrderOn

theorem sink_of_proper (h : IsProper sub a ty) : sink sub ty (a :: rest) = a :: sink sub ty rest :=
  if_pos h

theorem sink_of_not_proper (h : ¬IsProper sub a ty) :
    sink sub ty (a :: rest) = ty :: sink sub a rest :=
  if_neg h

theorem sink_perm (sub : Subtyping) (ty : TypeRef) (rest : List TypeRef) :
    (sink sub ty rest).Perm (ty :: rest) := by
  induction rest generalizing ty with
  | nil => exact .refl _
  | cons next rest ih =>
    by_cases hproper : IsProper sub next ty
    · rw [sink_of_proper hproper]
      exact ((ih ty).cons next).trans (.swap ty next rest)
    · rw [sink_of_not_proper hproper]
      exact (ih next).cons ty

theorem sort_perm (sub : Subtyping) (tys : List TypeRef) : (sort sub tys).Perm tys := by
  induction tys with
  | nil => exact .refl _
  | cons ty rest ih => exact (sink_perm sub ty (sort sub rest)).trans (ih.cons ty)

theorem mem_sort : a ∈ sort sub tys ↔ a ∈ tys := (sort_perm sub tys).mem_iff

/-- Sinking lets a type pass another one only if it is a proper subtype of that. -/
theorem pair_of_sink (h : [a, b].Sublist (sink sub ty rest)) :
    [a, b].Sublist (ty :: rest) ∨ ([b, a].Sublist (ty :: rest) ∧ IsProper sub a b) := by
  induction rest generalizing ty with
  | nil => exact Or.inl h
  | cons next rest ih =>
    have hskip : (ty :: rest).Sublist (ty :: next :: rest) := (List.sublist_cons_self _ _).cons_cons ty
    have hlater : (next :: rest).Sublist (ty :: next :: rest) := List.sublist_cons_self _ _
    by_cases hproper : IsProper sub next ty
    · rw [sink_of_proper hproper, pair_sublist_cons] at h
      rcases h with h | ⟨rfl, hb⟩
      · exact (ih h).imp (·.trans hskip) (And.imp_left (·.trans hskip))
      · rcases List.mem_cons.mp ((sink_perm sub ty rest).mem_iff.mp hb) with rfl | hb
        · exact Or.inr ⟨pair_sublist_cons.mpr (Or.inr ⟨rfl, List.mem_cons_self⟩), hproper⟩
        · exact Or.inl ((pair_sublist_cons.mpr (Or.inr ⟨rfl, hb⟩)).trans hlater)
    · rw [sink_of_not_proper hproper, pair_sublist_cons] at h
      rcases h with h | ⟨rfl, hb⟩
      · exact (ih h).imp (·.trans hlater) (And.imp_left (·.trans hlater))
      · have hb : b ∈ next :: rest := (sink_perm sub next rest).mem_iff.mp hb
        exact Or.inl (pair_sublist_cons.mpr (Or.inr ⟨rfl, hb⟩))

theorem pair_of_sort (h : [a, b].Sublist (sort sub tys)) :
    [a, b].Sublist tys ∨ ([b, a].Sublist tys ∧ IsProper sub a b) := by
  induction tys generalizing a b with
  | nil => exact Or.inl h
  | cons ty rest ih =>
    have hlater : rest.Sublist (ty :: rest) := List.sublist_cons_self _ _
    rcases pair_of_sink h with h | ⟨h, hproper⟩
    · rcases pair_sublist_cons.mp h with h | ⟨rfl, hb⟩
      · exact (ih h).imp (·.trans hlater) (And.imp_left (·.trans hlater))
      · exact Or.inl (pair_sublist_cons.mpr (Or.inr ⟨rfl, mem_sort.mp hb⟩))
    · rcases pair_sublist_cons.mp h with h | ⟨rfl, ha⟩
      · rcases ih h with h | ⟨h, -⟩
        · exact Or.inr ⟨h.trans hlater, hproper⟩
        · exact Or.inl (h.trans hlater)
      · exact Or.inr ⟨pair_sublist_cons.mpr (Or.inr ⟨rfl, mem_sort.mp ha⟩), hproper⟩

theorem sink_eq_self (h : LocallySorted sub (ty :: rest)) : sink sub ty rest = ty :: rest := by
  induction rest generalizing ty with
  | nil => rfl
  | cons next rest ih =>
    obtain ⟨hnext, hrest⟩ := List.isChain_cons_cons.mp h
    rw [sink_of_not_proper hnext, ih hrest]

/-- Where neighbours are in order, a type goes behind the proper subtypes at the front, and nothing
else moves. -/
theorem exists_sink_split (ty : TypeRef) (h : LocallySorted sub rest) : ∃ front back,
    rest = front ++ back ∧ sink sub ty rest = front ++ ty :: back ∧
      (∀ a ∈ front, IsProper sub a ty) ∧ ∀ a ∈ back.head?, ¬IsProper sub a ty := by
  induction rest with
  | nil => exact ⟨[], [], rfl, rfl, by simp, by simp⟩
  | cons next rest ih =>
    by_cases hproper : IsProper sub next ty
    · obtain ⟨front, back, hsplit, hsink, hfront, hback⟩ := ih h.tail
      refine ⟨next :: front, back, by rw [hsplit, List.cons_append], ?_, ?_, hback⟩
      · rw [sink_of_proper hproper, hsink, List.cons_append]
      · exact List.forall_mem_cons.mpr ⟨hproper, hfront⟩
    · refine ⟨[], next :: rest, rfl, ?_, by simp, by simpa using hproper⟩
      rw [sink_of_not_proper hproper, sink_eq_self h, List.nil_append]

/-- After sorting, neighbours are in order, whether or not subtyping is transitive. -/
theorem sort_locallySorted (hantisymm : AntisymmetricOn sub (· ∈ tys)) :
    LocallySorted sub (sort sub tys) := by
  induction tys with
  | nil => exact .nil
  | cons ty rest ih =>
    have hrest := ih (hantisymm.mono fun a => List.mem_cons_of_mem ty)
    obtain ⟨front, back, hsplit, hsink, hfront, hback⟩ := exists_sink_split ty hrest
    rw [hsplit] at hrest
    obtain ⟨hleft, hright, -⟩ := List.isChain_append.mp hrest
    rw [sort, hsink]
    refine List.isChain_append.mpr ⟨hleft, List.isChain_cons.mpr ⟨hback, hright⟩, ?_⟩
    intro last hlast next hnext
    obtain rfl : ty = next := by simpa using hnext
    have hlast := List.mem_of_getLast? hlast
    have hmem : last ∈ sort sub rest := hsplit ▸ List.mem_append_left back hlast
    exact hantisymm.asymm (List.mem_cons_of_mem ty (mem_sort.mp hmem)) List.mem_cons_self
      (hfront last hlast)

/-- Types of which none is followed by a proper subtype keep their order. -/
theorem sublist_sort (horder : PartialOrderOn sub (· ∈ tys)) (hchain : LocallySorted sub chain)
    (h : chain.Sublist tys) : chain.Sublist (sort sub tys) := by
  induction tys generalizing chain with
  | nil => exact h
  | cons ty rest ih =>
    have hrest := horder.mono fun a => List.mem_cons_of_mem (a := a) ty
    obtain ⟨front, back, hsplit, hsink, hfront, -⟩ :=
      exists_sink_split ty (sort_locallySorted hrest.antisymmetricOn)
    rw [sort, hsink]
    rcases List.sublist_cons_iff.mp h with hlater | ⟨later, rfl, hlater⟩
    · have hsorted := ih hrest hchain hlater
      rw [hsplit] at hsorted
      exact hsorted.trans ((List.sublist_cons_self ty back).append_left front)
    · have hsorted := ih hrest hchain.tail hlater
      rw [hsplit] at hsorted
      obtain ⟨left, right, rfl, hleft, hright⟩ := List.sublist_append_iff.mp hsorted
      cases left with
      | nil => exact (hright.cons_cons ty).trans (List.sublist_append_right front _)
      | cons next left =>
        have hproper := hfront next (hleft.subset List.mem_cons_self)
        exact absurd hproper (List.isChain_cons_cons.mp hchain).1

/-- A type that sinks into a sorted list finds its place if each type in front of one of its proper
subtypes is related to one of the two. -/
theorem sink_sorted (horder : PartialOrderOn sub (· ∈ ty :: rest)) (hsorted : Sorted sub rest)
    (hrelated : ∀ b c, [b, c].Sublist rest → IsProper sub c ty →
      Related sub b ty ∨ Related sub b c) : Sorted sub (sink sub ty rest) := by
  obtain ⟨front, back, rfl, hsink, hfront, hback⟩ := exists_sink_split ty hsorted.isChain
  have hmem : ∀ a ∈ front ++ back, a ∈ ty :: (front ++ back) := fun a => List.mem_cons_of_mem ty
  obtain ⟨hleft, hright, hacross⟩ := List.pairwise_append.mp hsorted
  have hbelow : ∀ c ∈ back, ¬IsProper sub c ty := by
    intro c hc hproper
    cases back with
    | nil => exact List.not_mem_nil hc
    | cons b back =>
      have hstop : ¬IsProper sub b ty := hback b rfl
      have hb := hmem b (List.mem_append_right front List.mem_cons_self)
      have hcmem := hmem c (List.mem_append_right front hc)
      rcases List.mem_cons.mp hc with rfl | hlater
      · exact hstop hproper
      have hnot : ¬IsProper sub c b := List.rel_of_pairwise_cons hright hlater
      have hpair : [b, c].Sublist (front ++ b :: back) :=
        (pair_sublist_cons.mpr (Or.inr ⟨rfl, hlater⟩)).trans (List.sublist_append_right front _)
      have htop : ty ∈ ty :: (front ++ b :: back) := List.mem_cons_self
      rcases hrelated b c hpair hproper with (hup | hdown) | (hup | hdown)
      · by_cases hsame : ty = b
        · exact hnot (hsame ▸ hproper)
        · exact hstop ⟨hsame, hup⟩
      · exact hnot (horder.proper_trans hcmem htop hb hproper hdown)
      · exact hstop (horder.trans_proper hb hcmem htop hup hproper)
      · by_cases hsame : b = c
        · exact hstop (hsame ▸ hproper)
        · exact hnot ⟨hsame, hdown⟩
  rw [hsink]
  refine List.pairwise_append.mpr ⟨hleft, List.pairwise_cons.mpr ⟨hbelow, hright⟩, ?_⟩
  intro a ha b hb
  rcases List.mem_cons.mp hb with rfl | hb
  · exact horder.antisymmetricOn.asymm (hmem a (List.mem_append_left back ha)) List.mem_cons_self
      (hfront a ha)
  · exact hacross a ha b hb

/-- Sorting puts a list in order exactly if no type stands, unrelated to both, between a type and one
of its proper subtypes. -/
theorem sort_sorted_iff (horder : PartialOrderOn sub (· ∈ tys)) : Sorted sub (sort sub tys) ↔
    ∀ a b c, [a, b, c].Sublist tys → IsProper sub c a → Related sub b a ∨ Related sub b c := by
  constructor
  · intro hsorted a b c h hproper
    by_contra hunrelated
    obtain ⟨hba, hbc⟩ := not_or.mp hunrelated
    have hchain : LocallySorted sub [a, b, c] := by
      refine .cons_cons (fun h => hba (Or.inl h.2)) (.cons_cons (fun h => hbc (Or.inr h.2)) ?_)
      exact .singleton c
    have hpairs := hsorted.sublist (sublist_sort horder hchain h)
    exact List.rel_of_pairwise_cons hpairs (by simp) hproper
  · intro hrelated
    induction tys with
    | nil => exact .nil
    | cons ty rest ih =>
      have hrest := horder.mono fun a => List.mem_cons_of_mem (a := a) ty
      refine sink_sorted (horder.mono ?_) (ih hrest fun a b c h => hrelated a b c (h.cons ty)) ?_
      · intro a ha
        exact List.mem_cons.mpr ((List.mem_cons.mp ha).imp_right mem_sort.mp)
      · intro b c h hproper
        rcases pair_of_sort h with h | ⟨-, hup⟩
        · exact hrelated ty b c (h.cons_cons ty) hproper
        · exact Or.inr (Or.inl hup.2)

/-- Two exceptions that are not related, 5 and 6, and a subtype 7 of the first. -/
def siblingStore : TypeStore :=
  let (io, st) := TypeStore.withRoots.declare "IOException" [some 2]
  let (_, st) := st.declare "SQLException" [some 2]
  (st.declare "FileNotFoundException" [some io]).2

/-- The type 6 keeps 5 from sinking behind its subtype. -/
theorem siblingStore_not_sorted :
    PartialOrderOn siblingStore.isSubtype (· ∈ [some 5, some 6, some 7]) ∧
    sort siblingStore.isSubtype [some 5, some 6, some 7] = [some 5, some 6, some 7] ∧
    ¬Sorted siblingStore.isSubtype (sort siblingStore.isSubtype [some 5, some 6, some 7]) := by
  have horder : PartialOrderOn siblingStore.isSubtype (· ∈ [some 5, some 6, some 7]) := by
    have hlaws : ∀ a ∈ [some 5, some 6, some 7], siblingStore.isSubtype a a = true ∧
        ∀ b ∈ [some 5, some 6, some 7], siblingStore.isSubtype a b = true →
          (siblingStore.isSubtype b a = true → a = b) ∧
          ∀ c ∈ [some 5, some 6, some 7], siblingStore.isSubtype b c = true →
            siblingStore.isSubtype a c = true := by decide +kernel
    refine ⟨⟨fun a ha => (hlaws a ha).1, ?_⟩, ?_⟩
    · exact fun a b c ha hb hc hab => ((hlaws a ha).2 b hb hab).2 c hc
    · exact fun a b ha hb hab => ((hlaws a ha).2 b hb hab).1
  refine ⟨horder, by decide +kernel, fun hsorted => ?_⟩
  have hrelated := (sort_sorted_iff horder).mp hsorted _ _ _ (List.Sublist.refl _)
    ⟨by decide, by decide +kernel⟩
  have hapart : ¬(Related siblingStore.isSubtype (some 6) (some 5) ∨
      Related siblingStore.isSubtype (some 6) (some 7)) := by
    unfold Related
    decide +kernel
  exact hapart hrelated

/-- A type that gets in front of another one is a subtype of it. -/
theorem subtype_of_passed (hdistinct : tys.Nodup) (hbefore : [a, b].Sublist tys)
    (hafter : [b, a].Sublist (sort sub tys)) : sub b a = true := by
  rcases pair_of_sort hafter with hsame | ⟨-, hproper⟩
  · exact absurd hsame (not_pair_sublist_swap hdistinct hbefore)
  · exact hproper.2

theorem pair_sublist_sort (hdistinct : tys.Nodup) (hbefore : [a, b].Sublist tys)
    (hnot : ¬sub b a = true) : [a, b].Sublist (sort sub tys) := by
  have hne : a ≠ b := List.rel_of_pairwise_cons (hdistinct.sublist hbefore) List.mem_cons_self
  have ha : a ∈ sort sub tys := mem_sort.mpr (hbefore.subset (by simp))
  have hb : b ∈ sort sub tys := mem_sort.mpr (hbefore.subset (by simp))
  rcases pair_sublist_or ha hb hne with hkept | hafter
  · exact hkept
  · exact absurd (subtype_of_passed hdistinct hbefore hafter) hnot

theorem LocallySorted.isChain_not_subtype (h : LocallySorted sub tys) (hdistinct : tys.Nodup) :
    tys.IsChain fun left right => ¬sub right left = true := by
  refine List.isChain_iff_forall_rel_of_append_cons_cons.mpr fun left right _ _ hsplit hsub => ?_
  have hne : left ≠ right :=
    List.isChain_iff_forall_rel_of_append_cons_cons.mp (List.Pairwise.isChain hdistinct) hsplit
  exact List.isChain_iff_forall_rel_of_append_cons_cons.mp h hsplit ⟨hne, hsub⟩

theorem sort_eq_self (h : LocallySorted sub tys) : sort sub tys = tys := by
  induction tys with
  | nil => rfl
  | cons ty rest ih => rw [sort, ih h.tail, sink_eq_self h]

/-- Sorting keeps all types, and a type gets in front of another one only if it is a subtype of it,
so unrelated types keep their order. If different types are not subtypes of each other, no type
stands right before a subtype in the end, and sorting again changes nothing. -/
theorem sort_moves_only_subtypes (sub : Subtyping) (hdistinct : tys.Nodup) :
    (sort sub tys).Perm tys ∧
    (∀ x y, [x, y].Sublist tys → [y, x].Sublist (sort sub tys) → sub y x = true) ∧
    (∀ x y, [x, y].Sublist tys → ¬Related sub x y → [x, y].Sublist (sort sub tys)) ∧
    (AntisymmetricOn sub (· ∈ tys) →
      ((sort sub tys).IsChain fun left right => ¬sub right left = true) ∧
      sort sub (sort sub tys) = sort sub tys) := by
  refine ⟨sort_perm sub tys, fun x y => subtype_of_passed hdistinct, ?_, fun hantisymm => ?_⟩
  · intro x y hbefore hunrelated
    exact pair_sublist_sort hdistinct hbefore fun hsub => hunrelated (Or.inr hsub)
  · have hlocal := sort_locallySorted hantisymm
    have hnodup : (sort sub tys).Nodup := (sort_perm sub tys).nodup_iff.mpr hdistinct
    exact ⟨hlocal.isChain_not_subtype hnodup, sort_eq_self hlocal⟩

/-- The type 7 moves in front of 5, and 6 stays behind 5. -/
theorem siblingStore_moves_subtype :
    [some 5, some 7, some 6].Nodup ∧
    AntisymmetricOn siblingStore.isSubtype (· ∈ [some 5, some 7, some 6]) ∧
    sort siblingStore.isSubtype [some 5, some 7, some 6] = [some 7, some 5, some 6] ∧
    siblingStore.isSubtype (some 7) (some 5) = true ∧
    sort siblingStore.isSubtype [some 7, some 5, some 6] = [some 7, some 5, some 6] := by
  have hdistinct : [some 5, some 7, some 6].Nodup := by decide
  have hsort : sort siblingStore.isSubtype [some 5, some 7, some 6] =
      [some 7, some 5, some 6] := by decide +kernel
  have hantisymm : AntisymmetricOn siblingStore.isSubtype (· ∈ [some 5, some 7, some 6]) := by
    have hlaw : ∀ a ∈ [some 5, some 7, some 6], ∀ b ∈ [some 5, some 7, some 6],
        siblingStore.isSubtype a b = true → siblingStore.isSubtype b a = true → a = b := by
      decide +kernel
    exact fun a b ha hb => hlaw a ha b hb
  obtain ⟨-, hmoved, -, hlocal⟩ :=
    sort_moves_only_subtypes siblingStore.isSubtype hdistinct
  rw [hsort] at hmoved hlocal
  exact ⟨hdistinct, hantisymm, hsort, hmoved (some 5) (some 7) (by simp) (by simp),
    (hlocal hantisymm).2⟩

end Specificity

end CheckedExceptions
