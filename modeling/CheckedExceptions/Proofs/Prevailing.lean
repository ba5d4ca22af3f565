import CheckedExceptions.Proofs.Coverage
import CheckedExceptions.Proofs.Subtyping
import Mathlib.Data.List.Nodup
import Mathlib.Data.List.Pairwise

/-! Which types of a list a set keeps: the maximal ones, and of those that are equivalent the first.
Their number does not depend on the order of the list. -/

namespace CheckedExceptions

namespace ThrowSet

variable {sub : Subtyping} {I : TypeRef → Prop} {s t : ThrowSet} {a b ty : TypeRef} {i : Nat}
  {tys : List TypeRef}

/-- The type `ty` at position `i` of a list is a proper type, no earlier one is above it, and each
later one above it is below it as well. -/
@[mk_iff]
structure Prevails (sub : Subtyping) (tys : List TypeRef) (ty : TypeRef) (i : Nat) : Prop where
  isSome : ty.isSome = true
  earlier : ∀ j < i, ∀ other ∈ tys[j]?, other.isSome = true → sub ty other = false
  later : ∀ j < tys.length, i < j → ∀ other ∈ tys[j]?, other.isSome = true → sub ty other = true →
    sub other ty = true

instance (sub : Subtyping) (tys : List TypeRef) (ty : TypeRef) (i : Nat) :
    Decidable (Prevails sub tys ty i) :=
  decidable_of_iff' _ (prevails_iff sub tys ty i)

def prevailing (sub : Subtyping) (tys : List TypeRef) : List TypeRef :=
  (tys.zipIdx.filter fun entry => Prevails sub tys entry.1 entry.2).map Prod.fst

/-- A new type at the end of a list matters to an earlier one if it is above it and not below. -/
theorem prevails_concat_iff (h : i < tys.length) : Prevails sub (tys ++ [ty]) a i ↔
    Prevails sub tys a i ∧ (ty.isSome = true → sub a ty = true → sub ty a = true) := by
  have hold : ∀ j < tys.length, (tys ++ [ty])[j]? = tys[j]? :=
    fun j hj => List.getElem?_append_left hj
  have hnew : (tys ++ [ty])[tys.length]? = some ty := List.getElem?_concat_length
  constructor
  · intro hprevails
    refine ⟨⟨hprevails.isSome, fun j hj => ?_, fun j hj => ?_⟩, ?_⟩
    · rw [← hold j (Nat.lt_trans hj h)]
      exact hprevails.earlier j hj
    · rw [← hold j hj]
      exact hprevails.later j (by simp; omega)
    · exact hprevails.later tys.length (by simp) h ty hnew
  · rintro ⟨hprevails, hlast⟩
    refine ⟨hprevails.isSome, fun j hj => ?_, fun j hj hij => ?_⟩
    · rw [hold j (Nat.lt_trans hj h)]
      exact hprevails.earlier j hj
    · by_cases hlt : j < tys.length
      · rw [hold j hlt]
        exact hprevails.later j hlt hij
      · obtain rfl : j = tys.length := by simp at hj; omega
        rw [hnew]
        rintro other ⟨⟩
        exact hlast

theorem prevails_last_iff : Prevails sub (tys ++ [ty]) ty tys.length ↔
    ty.isSome = true ∧ ∀ other ∈ tys, other.isSome = true → sub ty other = false := by
  constructor
  · intro hprevails
    refine ⟨hprevails.isSome, fun other hother => ?_⟩
    obtain ⟨j, hj, hget⟩ := List.getElem_of_mem hother
    apply hprevails.earlier j hj
    rw [List.getElem?_append_left hj, List.getElem?_eq_getElem hj, hget]
    rfl
  · rintro ⟨hsome, hearlier⟩
    refine ⟨hsome, fun j hj other hother => ?_, fun j hj hlt => ?_⟩
    · rw [List.getElem?_append_left hj] at hother
      exact hearlier other (List.mem_of_getElem? hother)
    · simp at hj
      omega

theorem prevailing_concat (sub : Subtyping) (tys : List TypeRef) (ty : TypeRef) :
    prevailing sub (tys ++ [ty]) =
      ((prevailing sub tys).filter fun a => ty.isSome = true → sub a ty = true → sub ty a = true) ++
        if ty.isSome = true ∧ ∀ other ∈ tys, other.isSome = true → sub ty other = false then [ty]
        else [] := by
  have hfront : ∀ entry ∈ tys.zipIdx, decide (Prevails sub (tys ++ [ty]) entry.1 entry.2) =
      (decide (ty.isSome = true → sub entry.1 ty = true → sub ty entry.1 = true) &&
        decide (Prevails sub tys entry.1 entry.2)) := by
    intro entry hentry
    have hlt : entry.2 < tys.length := by simpa using List.snd_lt_add_of_mem_zipIdx hentry
    rw [decide_eq_decide.mpr (prevails_concat_iff hlt), Bool.decide_and, Bool.and_comm]
  unfold prevailing
  rw [List.zipIdx_append, List.filter_append, List.map_append, List.filter_congr hfront,
    ← List.filter_filter, List.filter_map]
  congr 1
  simp only [List.zipIdx_singleton, Nat.zero_add, List.filter_singleton,
    decide_eq_decide.mpr prevails_last_iff]
  split
  · next hlast => rw [decide_eq_true hlast]; rfl
  · next hlast => rw [decide_eq_false hlast]; rfl

theorem OrderedOn.covers_ofList (h : OrderedOn sub I) (htys : ∀ ty ∈ tys, I ty) (ha : I a) :
    (ofList sub tys).covers sub a = true ↔
      ∃ other ∈ tys, other.isSome = true ∧ sub a other = true := by
  have hrepresents := h.represents_ofList htys
  constructor
  · intro hcovers
    obtain ⟨member, hmember, hsub⟩ := covers_iff.mp hcovers
    obtain ⟨hmem, hsome⟩ := hrepresents.sound member hmember
    exact ⟨member, hmem, hsome, hsub⟩
  · rintro ⟨other, hother, hsome, hsub⟩
    exact h.covers_of_sub hrepresents.antichain ha (htys other hother) hsub
      (hrepresents.covers other ⟨hother, hsome⟩)

theorem mem_prevailing_iff :
    a ∈ prevailing sub tys ↔ ∃ i, tys[i]? = some a ∧ Prevails sub tys a i := by
  simp only [prevailing, List.mem_map, List.mem_filter, decide_eq_true_eq, Prod.exists,
    List.mem_zipIdx_iff_getElem?]
  constructor
  · rintro ⟨_, i, ⟨hget, hprevails⟩, rfl⟩
    exact ⟨i, hget, hprevails⟩
  · rintro ⟨i, hget, hprevails⟩
    exact ⟨a, i, ⟨hget, hprevails⟩, rfl⟩

/-- A type that comes too late, below one that is there already, displaces nothing. -/
theorem prevails_of_covered (h : OrderedOn sub (· ∈ tys ++ [ty])) (hget : tys[i]? = some a)
    (hprevails : Prevails sub tys a i) (hb : b ∈ tys) (hsome : b.isSome = true)
    (hbelow : sub ty b = true) (habove : sub a ty = true) : sub ty a = true := by
  have hmem : ∀ c ∈ tys, c ∈ tys ++ [ty] := fun c => List.mem_append_left [ty]
  have hlast : ty ∈ tys ++ [ty] := List.mem_append_right tys List.mem_cons_self
  have ha := hmem a (List.mem_of_getElem? hget)
  have hab : sub a b = true := h.trans a ty b ha hlast (hmem b hb) habove hbelow
  obtain ⟨j, hj, rfl⟩ := List.getElem_of_mem hb
  have hother : tys[j] ∈ tys[j]? := List.getElem?_eq_getElem hj
  rcases Nat.lt_trichotomy j i with hlt | rfl | hgt
  · rw [hprevails.earlier j hlt _ hother hsome] at hab
    cases hab
  · obtain rfl : tys[j] = a := Option.some.inj (hother.symm.trans hget)
    exact hbelow
  · have hback := hprevails.later j hj hgt _ hother hsome hab
    exact h.trans ty tys[j] a hlast (hmem _ hb) ha hbelow hback

section Insert

variable (h : OrderedOn sub (· ∈ tys ++ [ty]))
  (hmembers : (ofList sub tys).members = prevailing sub tys)
include h hmembers

/-- Nothing that is there is above a type that comes in, so what is below it is properly below. -/
theorem members_insert_of_admits (hadmits : (ofList sub tys).admits sub ty = true) :
    ((ofList sub tys).insert sub ty).members = prevailing sub (tys ++ [ty]) := by
  have hmem : ∀ a ∈ tys, a ∈ tys ++ [ty] := fun a => List.mem_append_left [ty]
  have hlast : ty ∈ tys ++ [ty] := List.mem_append_right tys List.mem_cons_self
  obtain ⟨hsome, huncovered⟩ := Bool.and_eq_true_iff.mp hadmits
  have hunder : ∀ other ∈ tys, other.isSome = true → sub ty other = false := by
    intro other hother hproper
    apply Bool.eq_false_iff.mpr
    intro hsub
    rw [(h.covers_ofList hmem hlast).mpr ⟨other, hother, hproper, hsub⟩] at huncovered
    cases huncovered
  have hkept : ∀ a ∈ (ofList sub tys).members, (!sub a ty) =
      decide (ty.isSome = true → sub a ty = true → sub ty a = true) := by
    intro a ha
    obtain ⟨hinput, hproper⟩ := (h.represents_ofList hmem).sound a ha
    simp [hsome, hunder a hinput hproper]
  rw [prevailing_concat, ← hmembers, insert, if_pos hadmits, if_pos ⟨hsome, hunder⟩, removeCovered,
    List.filter_congr hkept]

/-- A type that does not come in does not prevail either, and displaces nothing. -/
theorem members_insert_of_not_admits (hadmits : ¬(ofList sub tys).admits sub ty = true) :
    ((ofList sub tys).insert sub ty).members = prevailing sub (tys ++ [ty]) := by
  have hcovered : ty.isSome = true →
      ∃ other ∈ tys, other.isSome = true ∧ sub ty other = true := by
    intro hsome
    refine (h.covers_ofList (fun a => List.mem_append_left [ty]) ?_).mp ?_
    · exact List.mem_append_right tys List.mem_cons_self
    · simpa [admits, hsome] using hadmits
  have hkept : ∀ a ∈ (ofList sub tys).members,
      decide (ty.isSome = true → sub a ty = true → sub ty a = true) = true := by
    intro a ha
    rw [hmembers] at ha
    obtain ⟨i, hget, hprevails⟩ := mem_prevailing_iff.mp ha
    refine decide_eq_true fun hsome habove => ?_
    obtain ⟨b, hb, hproper, hbelow⟩ := hcovered hsome
    exact prevails_of_covered h hget hprevails hb hproper hbelow habove
  have hlate : ¬(ty.isSome = true ∧
      ∀ other ∈ tys, other.isSome = true → sub ty other = false) := by
    rintro ⟨hsome, hunder⟩
    obtain ⟨b, hb, hproper, hbelow⟩ := hcovered hsome
    rw [hunder b hb hproper] at hbelow
    cases hbelow
  rw [prevailing_concat, ← hmembers, insert, if_neg hadmits, if_neg hlate,
    List.filter_eq_self.mpr hkept, List.append_nil]

end Insert

/-- A set that takes the types of a list one by one ends up with those that prevail. -/
theorem members_ofList (h : OrderedOn sub (· ∈ tys)) :
    (ofList sub tys).members = prevailing sub tys := by
  induction tys using List.reverseRecOn with
  | nil => rfl
  | append_singleton tys ty ih =>
    have hmembers := ih (h.mono fun a => List.mem_append_left [ty])
    have hinsert : ofList sub (tys ++ [ty]) = (ofList sub tys).insert sub ty :=
      List.foldl_concat _ _ _ _
    rw [hinsert]
    by_cases hadmits : (ofList sub tys).admits sub ty = true
    · exact members_insert_of_admits h hmembers hadmits
    · exact members_insert_of_not_admits h hmembers hadmits

theorem AntichainIn.eq_of_sub (h : s.AntichainIn sub I) (ha : a ∈ s.members) (hb : b ∈ s.members)
    (hab : sub a b = true) : a = b := by
  by_contra hne
  have hsymm : Std.Symm fun a b => sub a b = false ∧ sub b a = false := ⟨fun _ _ => And.symm⟩
  rw [(h.apart.forall ha hb hne).1] at hab
  cases hab

/-- Of two sets that cover each other, each member of the first has a member of the second above it
that is above no other member of the first. -/
theorem OrderedOn.size_le_of_covers (h : OrderedOn sub I) (hs : s.AntichainIn sub I)
    (ht : t.AntichainIn sub I) (hst : ∀ ty ∈ s.members, t.covers sub ty = true)
    (hts : ∀ ty ∈ t.members, s.covers sub ty = true) : s.size ≤ t.size := by
  have habove : ∀ a ∈ s.members, ∃ b ∈ t.members, sub a b = true :=
    fun a ha => covers_iff.mp (hst a ha)
  choose! above hmem hsub using habove
  have hinjective : ∀ a ∈ s.members, ∀ b ∈ s.members, above a = above b → a = b := by
    intro a ha b hb hsame
    obtain ⟨c, hc, hback⟩ := covers_iff.mp (hts _ (hmem a ha))
    have hround : ∀ x ∈ s.members, above x = above a → x = c := by
      intro x hx hx'
      refine hs.eq_of_sub hx hc (h.trans x (above x) c (hs.inside x hx)
        (ht.inside _ (hmem x hx)) (hs.inside c hc) (hsub x hx) ?_)
      rw [hx']
      exact hback
    rw [hround a ha rfl, hround b hb hsame.symm]
  have hnodup := (hs.nodup fun a => h.refl a).map_on hinjective
  have hsubset : s.members.map above ⊆ t.members := by
    intro b hb
    obtain ⟨a, ha, rfl⟩ := List.mem_map.mp hb
    exact hmem a ha
  simpa [size] using hnodup.length_le_of_subset hsubset

/-- A set built from a list holds exactly the types of the list that prevail, in their order. It
covers every proper type of the list, and in another order the list gives a set that covers the same
and is as large. -/
theorem ofList_keeps_prevailing (h : OrderedOn sub (· ∈ tys)) :
    (ofList sub tys).members = prevailing sub tys ∧
    (∀ ty ∈ tys, ty.isSome = true → (ofList sub tys).covers sub ty = true) ∧
    ∀ others, tys.Perm others →
      (∀ ty ∈ (ofList sub tys).members, (ofList sub others).covers sub ty = true) ∧
      (∀ ty ∈ (ofList sub others).members, (ofList sub tys).covers sub ty = true) ∧
      (ofList sub tys).size = (ofList sub others).size := by
  refine ⟨members_ofList h, ?_, fun others hperm => ?_⟩
  · exact fun ty hty hsome => (h.represents_ofList fun _ => id).covers ty ⟨hty, hsome⟩
  · have hothers : ∀ ty ∈ others, ty ∈ tys := fun ty => hperm.mem_iff.mpr
    have hleft : (ofList sub tys).Within sub (· ∈ tys) (ofList sub others) :=
      h.within_ofList (fun _ => id) hothers fun a ha hsome =>
        ⟨a, hperm.mem_iff.mp ha, hsome, h.refl a ha⟩
    have hright : (ofList sub others).Within sub (· ∈ tys) (ofList sub tys) :=
      h.within_ofList hothers (fun _ => id) fun a ha hsome =>
        ⟨a, hothers a ha, hsome, h.refl a (hothers a ha)⟩
    exact ⟨hleft.covers, hright.covers, Nat.le_antisymm
      (h.size_le_of_covers hleft.left hleft.right hleft.covers hright.covers)
      (h.size_le_of_covers hright.left hright.right hright.covers hleft.covers)⟩

/-- The types 7 and 8 are a class and an instantiation of it, and 11 is a subtype of 12. -/
def mixedTypes : List TypeRef := [some 11, some 8, none, some 5, some 7, some 12]

/-- Of the two equivalent types the first one is kept, in either order. -/
theorem mixedTypes_prevailing :
    prevailing TypeStore.mixedStore.isSubtype mixedTypes = [some 8, some 5, some 12] ∧
    (ofList TypeStore.mixedStore.isSubtype mixedTypes.reverse).members = [some 12, some 7, some 5] ∧
    (ofList TypeStore.mixedStore.isSubtype mixedTypes.reverse).covers
      TypeStore.mixedStore.isSubtype (some 8) = true ∧
    (ofList TypeStore.mixedStore.isSubtype mixedTypes.reverse).size = 3 := by
  have horder : OrderedOn TypeStore.mixedStore.isSubtype (· ∈ mixedTypes) :=
    ⟨fun a _ => TypeStore.isSubtype_refl _ a, fun a b c _ _ _ => TypeStore.mixedStore_trans a b c⟩
  have hmembers : (ofList TypeStore.mixedStore.isSubtype mixedTypes).members =
      [some 8, some 5, some 12] := by decide +kernel
  obtain ⟨hprevailing, -, hperm⟩ := ofList_keeps_prevailing horder
  obtain ⟨hcovers, -, hsize⟩ := hperm mixedTypes.reverse (List.reverse_perm _).symm
  refine ⟨hprevailing.symm.trans hmembers, by decide +kernel, hcovers (some 8) ?_, ?_⟩
  · rw [hmembers]
    exact List.mem_cons_self
  · rw [← hsize, size, hmembers]
    rfl

end ThrowSet

end CheckedExceptions
