import CheckedExceptions.Proofs.Delivery

/-! The types that an analysis can come across when its state is complete, and the sets it makes of
them: their members are such types, and none covers another. -/

namespace CheckedExceptions

/-- Run at `st`, the action leaves the state alone and gives a value of which `Q` holds. -/
def Yields {σ α : Type} (st : σ) (m : StateM σ α) (Q : α → Prop) : Prop :=
  (m st).2 = st ∧ Q (m st).1

namespace Yields

variable {σ α β : Type} {st : σ} {Q : α → Prop} {R : β → Prop}

theorem pure {a : α} (h : Q a) : Yields st (pure a) Q := ⟨rfl, h⟩

theorem get : Yields st (get : StateM σ σ) (st = ·) := ⟨rfl, rfl⟩

theorem bind {m : StateM σ α} {f : α → StateM σ β} (hm : Yields st m Q)
    (hf : ∀ a, Q a → Yields st (f a) R) : Yields st (m >>= f) R := by
  have hrun : (m >>= f) st = f (m st).1 st := congrArg (f (m st).1) hm.1
  unfold Yields
  rw [hrun]
  exact hf (m st).1 hm.2

theorem mono {Q' : α → Prop} {m : StateM σ α} (hm : Yields st m Q) (h : ∀ a, Q a → Q' a) :
    Yields st m Q' :=
  ⟨hm.1, h _ hm.2⟩

end Yields

namespace Program

variable {σ : Type} {p : Program σ} {st : σ} {s t : ThrowSet} {ty : TypeRef}

inductive Involved (p : Program σ) (st : σ) : TypeRef → Prop
  | thrown {c ty result} : p.Offers c → ty ∈ c.callable.throws →
    (p.types.substitute ty c.substitution st).1 = some result → Involved p st result
  | declared {n name kind isStatic throws parameters body ty} :
    p.tree.payload? n = some (.method name kind isStatic throws parameters body) → ty ∈ throws →
    Involved p st ty
  | parameter {n name declaredType reassigned ty} :
    p.tree.payload? n = some (.parameter name declaredType reassigned) →
    ty ∈ p.types.alternatives st declaredType → Involved p st ty
  | raised {n expression thrownType ty} : p.tree.payload? n = some (.throwing expression) →
    p.thrownType? expression = some thrownType → ty ∈ p.types.alternatives st thrownType →
    Involved p st ty
  | exempt {root} : root ∈ p.exemptRoots st → Involved p st root

abbrev InvolvedAntichain (p : Program σ) (st : σ) (s : ThrowSet) : Prop :=
  s.AntichainIn (p.types.isSubtype st) (p.Involved st)

theorem involved_of_mem_caughtTypes {clause : NodeRef} (h : ty ∈ p.caughtTypes st clause) :
    p.Involved st ty := by
  unfold caughtTypes at h
  split at h
  · next hcatch =>
    obtain ⟨_, _, _, hparameter⟩ := exists_parameter_of_catchType hcatch
    exact .parameter hparameter h
  · exact absurd h List.not_mem_nil

section Finding

variable {I P Q : TypeRef → Prop} {below : NodeRef → StateM σ ThrowSet}
  (hord : ThrowSet.OrderedOn (p.types.isSubtype st) I)
include hord

theorem finds_unite (hs : s.Represents (p.types.isSubtype st) I P)
    (ht : t.Represents (p.types.isSubtype st) I Q) :
    Yields st (p.unite s t) fun u =>
      u.Represents (p.types.isSubtype st) I fun ty => P ty ∨ Q ty :=
  ⟨rfl, hord.represents_union hs ht⟩

theorem finds_uniteAll {R : NodeRef → TypeRef → Prop} {nodes : List NodeRef}
    (hs : s.Represents (p.types.isSubtype st) I P)
    (h : ∀ m ∈ nodes, Yields st (below m) fun t => t.Represents (p.types.isSubtype st) I (R m)) :
    Yields st (p.uniteAll below s nodes) fun u =>
      u.Represents (p.types.isSubtype st) I fun ty => P ty ∨ ∃ m ∈ nodes, R m ty := by
  induction nodes generalizing s P with
  | nil => exact .pure (hs.congr fun ty => by simp)
  | cons m nodes ih =>
    unfold uniteAll
    rw [List.foldlM_cons]
    have hunite : Yields st (below m >>= fun t => p.unite s t) fun u =>
        u.Represents (p.types.isSubtype st) I fun ty => P ty ∨ R m ty :=
      .bind (h m List.mem_cons_self) fun t ht => finds_unite hord hs ht
    refine .bind hunite fun s hs => (ih hs fun k hk => h k (List.mem_cons_of_mem m hk)).mono ?_
    exact fun s hs => hs.congr fun ty => by simp [or_assoc]

end Finding

namespace Complete

theorem keepsSubtyping (hst : p.Complete st) : p.KeepsSubtyping st where
  isSubtype := by
    intro now later a b hnow hlater _ _
    rw [hst.eq_of_evolves hnow, hst.eq_of_evolves (hnow.trans hlater)]
  wellKnown := by
    intro later hlater
    rw [hst.eq_of_evolves hlater]

theorem involved_of_known (hst : p.Complete st) (h : p.Known st st ty) : p.Involved st ty := by
  cases h with
  | thrown hc hty hmid hresult =>
    rw [hst.eq_of_evolves hmid] at hresult
    exact .thrown hc hty hresult
  | parameter hn hmid _ hty =>
    rw [hst.eq_of_evolves hmid] at hty
    exact .parameter hn hty
  | raised hn htype hmid _ hty =>
    rw [hst.eq_of_evolves hmid] at hty
    exact .raised hn htype hty
  | exempt hmid _ hroot =>
    rw [hst.eq_of_evolves hmid] at hroot
    exact .exempt hroot

theorem yields_of_ensures (hst : p.Complete st) {α : Type} {m : StateM σ α} {Q : σ → α → Prop}
    (h : Ensures p.Substitutes False st m Q) : Yields st m (Q st) := by
  have hstate : (m st).2 = st := hst.eq_of_evolves h.steps
  have hresult := h.result
  rw [hstate] at hresult
  exact ⟨hstate, hresult⟩

theorem yields_of_delivers (hst : p.Complete st) {m : StateM σ ThrowSet}
    (h : p.Delivers st False st m) : Yields st m (p.InvolvedAntichain st) :=
  (hst.yields_of_ensures h).mono fun _ hset =>
    hset.of_agreeOn (fun _ _ _ _ => rfl) fun _ => hst.involved_of_known

theorem yields_throwsAtSite (hst : p.Complete st) {c : Candidate} (hc : p.Offers c) :
    Yields st (p.throwsAtSite c) fun tys => ∀ ty ∈ tys, p.Involved st ty :=
  (hst.yields_of_ensures (lists_throwsAtSite False.elim .refl hc)).mono fun _ htys ty hty =>
    hst.involved_of_known (htys ty hty)

theorem yields_invocationThrows (hst : p.Complete st) (site : NodeRef) :
    Yields st (p.invocationThrows site) (p.InvolvedAntichain st) :=
  hst.yields_of_delivers (delivers_invocationThrows hst.keepsSubtyping False.elim .refl site)

theorem yields_closingThrows (hst : p.Complete st) (resource : NodeRef) :
    Yields st (p.closingThrows resource) (p.InvolvedAntichain st) :=
  hst.yields_of_delivers (delivers_closingThrows hst.keepsSubtyping False.elim .refl resource)

theorem yields_thrownWithin (hst : p.Complete st) (depth : Nat) (n : NodeRef) :
    Yields st (p.thrownWithin depth n) (p.InvolvedAntichain st) :=
  hst.yields_of_delivers (delivers_thrownWithin hst.keepsSubtyping False.elim .refl depth n)

theorem yields_ownThrows (hst : p.Complete st) (site : NodeRef) :
    Yields st (p.ownThrows site) (p.InvolvedAntichain st) :=
  hst.yields_of_delivers (delivers_ownThrows hst.keepsSubtyping False.elim .refl site)

end Complete

end Program

end CheckedExceptions
