import CheckedExceptions.Proofs.Leaving
import CheckedExceptions.Proofs.Scoping
import CheckedExceptions.Proofs.Sites

/-! Two ways to find the exceptions that a node leaves unhandled: to collect what leaves the node
and see what becomes of it, or to follow each exception up from where it arises. They agree. -/

namespace CheckedExceptions

/-- The construct has a rule of its own for the exceptions of the code in it. -/
def Payload.isDeclaration : Payload → Bool
  | .file .. => true
  | .fragment .. => true
  | .method .. => true
  | .field .. => true
  | .initBlock .. => true
  | _ => false

namespace Program

variable {σ : Type} {p : Program σ} {st : σ} {n m : NodeId} {top : NodeRef} {ty : TypeRef}

/-- Exceptions pass through all that runs with `n`: it is code, and no method reference is a
resource in it. The node itself is neither a resource nor a list of them. -/
structure Plain (p : Program σ) (n : NodeId) : Prop where
  notMethodRef : p.isMethodRef (some n) = false
  notList : ∀ resources, p.tree.payload? (some n) ≠ some (.resourceList resources)
  notResource : ∀ resources,
    p.tree.payload? (p.tree.parent (some n)) ≠ some (.resourceList resources)
  code : ∀ m payload, p.tree.Runs n m → p.tree.payload? (some m) = some payload →
    payload.isDeclaration = false
  resources : ∀ m, p.tree.Runs n m → p.isBareResource (some m) = true →
    p.isMethodRef (some m) = false

theorem Plain.not_bare (h : p.Plain n) : p.isBareResource (some n) = false := by
  unfold isBareResource
  split
  · next resources hresources => exact absurd hresources (h.notResource resources)
  · rfl

theorem outcome_operand (hwf : p.tree.WellFormed) (hcustom : p.handlers.custom = [])
    {outer inner : Payload} (hm : m ∈ p.tree.operands (some n))
    (houter : p.tree.payload? (some n) = some outer) (hcode : outer.isDeclaration = false)
    (hinner : p.tree.payload? (some m) = some inner) (href : p.isMethodRef (some m) = false)
    (htop : some n ≠ top) :
    p.outcome st (some m) ty top (p.ruleAt (some m) top) =
      if p.stops st (some n) (some m) ty then .settled true else .climb (some n) := by
  have hparent : p.tree.parent (some m) = some n :=
    hwf.parent_eq (SyntaxTree.mem_children_of_mem_operands hm) hinner
  have hbelow : (Option.isNone (some n) || some n == top) = false := by simp [htop]
  have hclimb : p.customStep (some m) (some n) ty top = .climb (some n) := by
    simp [customStep, Handlers.someCustom, hcustom]
  rw [SyntaxTree.operands_eq houter] at hm
  simp only [ruleAt, hparent, hbelow, href, houter, stops]
  cases outer with
  | classDecl name =>
    cases name with
    | none => simp [outcome, hparent]
    | some name => exact absurd hm List.not_mem_nil
  | lambda | methodRef => exact absurd hm List.not_mem_nil
  | file | fragment | method | field | initBlock => cases hcode
  | trying => simp [outcome, hparent]
  | _ => simp [runsInConstructors, houter, outcome, hparent, hclimb]

theorem Leaves.isMethodRef_eq_false {n : NodeRef} (h : p.Leaves st n ty)
    (hbare : p.isBareResource n = true → p.isMethodRef n = false) : p.isMethodRef n = false := by
  apply Bool.eq_false_iff.mpr
  intro href
  obtain ⟨qualifier, name, hpayload⟩ :
      ∃ qualifier name, p.tree.payload? n = some (.methodRef qualifier name) := by
    unfold isMethodRef at href
    split at href
    · next qualifier name hpayload => exact ⟨qualifier, name, hpayload⟩
    · cases href
  cases h with
  | thrown _ hnot => exact absurd href (Bool.eq_false_iff.mp hnot)
  | closing hclosed =>
    have hresource : p.isBareResource n = true := by simpa only [isClosed, hpayload] using hclosed
    exact absurd href (Bool.eq_false_iff.mp (hbare hresource))
  | rising hm =>
    rw [SyntaxTree.operands_eq hpayload] at hm
    exact absurd hm List.not_mem_nil

theorem Arises.leaves {n : NodeRef} (h : p.Arises st n ty) (href : p.isMethodRef n = false) :
    p.Leaves st n ty := by
  rcases h with ⟨hthrower, hown⟩ | ⟨hclosed, hmem⟩
  · exact .thrown hthrower href hown
  · exact .closing hclosed hmem

section Region

variable (hwf : p.tree.WellFormed) (hcustom : p.handlers.custom = []) (hplain : p.Plain n)
  (htop : ∀ m, p.tree.Runs n m → some m ≠ top)
include hwf hcustom hplain htop

theorem handled_operand {k : NodeId} (hruns : p.tree.Runs n m) (hk : k ∈ p.tree.operands (some m))
    (hleaves : p.Leaves st (some k) ty) :
    p.Handled st ty top (some k) ↔
      p.stops st (some m) (some k) ty = true ∨ p.Handled st ty top (some m) := by
  obtain ⟨outer, houter, -⟩ := SyntaxTree.exists_payload_of_mem_operands hk
  obtain ⟨inner, hinner⟩ := hleaves.exists_payload
  have href : p.isMethodRef (some k) = false :=
    hleaves.isMethodRef_eq_false (hplain.resources k (hruns.tail hk))
  have houtcome := @outcome_operand _ p st m k top ty hwf hcustom outer inner hk houter
    (hplain.code m outer hruns houter) hinner href (htop m hruns)
  split at houtcome
  · next hstops => simp [handled_iff_of_settled houtcome, hstops]
  · next hstops => simp [handled_iff_of_climb houtcome, hstops]

/-- What leaves a node arose somewhere, and is handled there only if it is handled at the node. -/
theorem exists_arises_of_leaves (hruns : p.tree.Runs n m) (hleaves : p.Leaves st (some m) ty) :
    ∃ k, p.tree.Runs n k ∧ p.Leaves st (some k) ty ∧ p.Arises st (some k) ty ∧
      (p.Handled st ty top (some k) → p.Handled st ty top (some m)) := by
  generalize hnode : some m = node at hleaves
  induction hleaves generalizing m with
  | thrown hthrower href hown =>
    subst hnode
    exact ⟨m, hruns, .thrown hthrower href hown, Or.inl ⟨hthrower, hown⟩, id⟩
  | closing hclosed hmem =>
    subst hnode
    exact ⟨m, hruns, .closing hclosed hmem, Or.inr ⟨hclosed, hmem⟩, id⟩
  | rising hoperand hinner hstops ih =>
    subst hnode
    obtain ⟨k, hrunsk, hleaves, harises, hhandled⟩ := ih (hruns.tail hoperand) rfl
    refine ⟨k, hrunsk, hleaves, harises, fun h => ?_⟩
    have hoperand := (handled_operand hwf hcustom hplain htop hruns hoperand hinner).mp (hhandled h)
    rw [hstops] at hoperand
    exact hoperand.resolve_left Bool.false_ne_true

/-- What nothing handles on the way up gets through to the node. -/
theorem leaves_of_not_handled (hruns : p.tree.Runs n m) (hleaves : p.Leaves st (some m) ty)
    (hhandled : ¬p.Handled st ty top (some m)) :
    p.Leaves st (some n) ty ∧ ¬p.Handled st ty top (some n) := by
  induction hruns with
  | refl => exact ⟨hleaves, hhandled⟩
  | tail hruns hoperand ih =>
    rw [handled_operand hwf hcustom hplain htop hruns hoperand hleaves, not_or] at hhandled
    exact ih (.rising hoperand hleaves (Bool.eq_false_iff.mpr hhandled.1)) hhandled.2

end Region

theorem narrower_of_orderedOn (hst : p.Complete st)
    (hord : ThrowSet.OrderedOn (p.types.isSubtype st) (p.Involved st))
    (hclosed : p.handlers.Closed p.tree (p.types.isSubtype st)) {sub sup : TypeRef}
    (hsub : p.Involved st sub) (hsup : p.Involved st sup)
    (hbelow : p.types.isSubtype st sub sup = true) : p.Narrower st sub sup := by
  refine .of_above hclosed hbelow ?_ ?_ ?_
  · intro _ _ _ _ _ _ _ hpayload declared hdeclared
    exact hord.trans sub sup declared hsub hsup (.declared hpayload hdeclared) hbelow
  · intro _ handler hhandler
    exact hord.trans sub sup handler hsub hsup (involved_of_mem_caughtTypes hhandler) hbelow
  · intro n method hmethod declared hdeclared
    obtain ⟨hstate, hinvolved⟩ := hst.yields_throwsAtSite (.implemented hmethod)
    rw [hstate]
    exact hord.trans sub sup declared hsub hsup (hinvolved declared hdeclared) hbelow

structure WithinLimits (p : Program σ) (st : σ) (n : NodeId) (top : NodeRef) : Prop where
  depth : p.Fits (p.options.maxTreeDepth + 1) (some n)
  ascent : ∀ m < p.tree.size, p.tree.Runs n m → ∀ ty,
    p.Settles st ty top p.options.maxAscentDepth (some m)

theorem withinLimits_of_size_le (hwf : p.tree.WellFormed) (hscoped : p.tree.Scoped)
    (hdepth : p.tree.size ≤ p.options.maxTreeDepth + 1)
    (hascent : p.tree.size ≤ p.options.maxAscentDepth) : p.WithinLimits st n top where
  depth := fits_of_size_le hwf hscoped hdepth (some n)
  ascent := fun _ hm _ _ => settles_of_size_le hwf hascent hm

theorem WithinLimits.isHandledUpTo_eq_false_iff (h : p.WithinLimits st n top) {payload : Payload}
    (hm : p.tree.payload? (some m) = some payload) (hruns : p.tree.Runs n m) (ty : TypeRef) :
    (p.isHandledUpTo (some m) ty top st).1 = false ↔ ¬p.Handled st ty top (some m) := by
  rw [← (h.ascent m (SyntaxTree.lt_size_of_payload? hm) hruns ty).isHandledWithin_iff,
    Bool.not_eq_true]
  rfl

/-- The sites of a node that runs with `n` show what arises there and nothing handles. -/
theorem WithinLimits.exists_site_iff (h : p.WithinLimits st n top) (hwf : p.tree.WellFormed)
    (hst : p.Complete st) (hruns : p.tree.Runs n m) :
    (∃ site ∈ (p.sites (some n) top st).1, site.node = some m ∧ ty ∈ site.exceptions.members) ↔
      p.Arises st (some m) ty ∧ p.isChecked st ty = true ∧ ¬p.Handled st ty top (some m) := by
  constructor
  · rintro ⟨site, hsite, hnode, hty⟩
    obtain ⟨k, -, hsitek⟩ := hst.mem_sites_iff.mp hsite
    obtain rfl : k = m := Option.some.inj ((hst.node_of_mem_sitesAt hsitek).symm.trans hnode)
    obtain ⟨harises, hchecked, hunhandled⟩ := hst.exists_mem_sitesAt_iff.mp ⟨site, hsitek, hty⟩
    obtain ⟨_, hpayload⟩ := harises.exists_payload
    exact ⟨harises, hchecked, (h.isHandledUpTo_eq_false_iff hpayload hruns ty).mp hunhandled⟩
  · rintro ⟨harises, hchecked, hnot⟩
    obtain ⟨_, hpayload⟩ := harises.exists_payload
    obtain ⟨site, hsite, hmem⟩ := hst.exists_mem_sitesAt_iff.mpr
      ⟨harises, hchecked, (h.isHandledUpTo_eq_false_iff hpayload hruns ty).mpr hnot⟩
    have hlisted := hwf.mem_preorder_of_runs hruns hpayload
    exact ⟨site, hst.mem_sites_iff.mpr ⟨m, hlisted, hsite⟩, hst.node_of_mem_sitesAt hsite, hmem⟩

section Thrown

variable (hst : p.Complete st) (hord : ThrowSet.OrderedOn (p.types.isSubtype st) (p.Involved st))
  (hplain : p.Plain n) (hlimits : p.WithinLimits st n top)
include hst hord hplain hlimits

theorem finds_thrown (hwf : p.tree.WellFormed) :
    p.Finds st (p.Leaves st (some n)) (p.thrown (some n) st).1 :=
  (finds_thrownWithin hord hst hwf (Nat.le_refl _) hlimits.depth hplain.notList).2.congr
    fun _ => (leaves_iff_emits hplain.not_bare).symm

theorem leaves_of_mem_unhandled (hwf : p.tree.WellFormed)
    (hty : ty ∈ (p.unhandled (some n) top st).1.members) :
    p.Leaves st (some n) ty ∧ p.isChecked st ty = true ∧ ¬p.Handled st ty top (some n) := by
  obtain ⟨hthrown, hchecked, hunhandled⟩ := (hst.mem_unhandled_iff hplain.notMethodRef).mp hty
  have hleaves := (finds_thrown hst hord hplain hlimits hwf).sound ty hthrown
  obtain ⟨_, hpayload⟩ := hleaves.exists_payload
  exact ⟨hleaves, hchecked, (hlimits.isHandledUpTo_eq_false_iff hpayload .refl ty).mp hunhandled⟩

/-- What leaves the node and is not handled further up is covered, maybe by a supertype of it. -/
theorem covers_unhandled (hwf : p.tree.WellFormed)
    (hclosed : p.handlers.Closed p.tree (p.types.isSubtype st))
    (hleaves : p.Leaves st (some n) ty) (hchecked : p.isChecked st ty = true)
    (hnot : ¬p.Handled st ty top (some n)) :
    (p.unhandled (some n) top st).1.covers (p.types.isSubtype st) ty = true := by
  have hfinds := finds_thrown hst hord hplain hlimits hwf
  obtain ⟨sup, hsup, hbelow⟩ := ThrowSet.covers_iff.mp (hfinds.covers ty hleaves)
  have hinvolved := hleaves.involved hst
  have hsupinvolved := hfinds.antichain.inside sup hsup
  have hsupchecked := isChecked_of_isSubtype hord (fun _ => .exempt) hinvolved hsupinvolved hbelow
    hchecked
  have hnotsup : ¬p.Handled st sup top (some n) := by
    rintro ⟨steps, hhandled⟩
    exact hnot ⟨steps, (narrower_of_orderedOn hst hord hclosed hinvolved hsupinvolved
      hbelow).isHandledWithin top hhandled⟩
  obtain ⟨_, hpayload⟩ := hleaves.exists_payload
  have hunhandled := (hlimits.isHandledUpTo_eq_false_iff hpayload .refl sup).mpr hnotsup
  exact ThrowSet.covers_iff.mpr ⟨sup,
    (hst.mem_unhandled_iff hplain.notMethodRef).mpr ⟨hsup, hsupchecked, hunhandled⟩, hbelow⟩

end Thrown

/-- What a node leaves unhandled is what the sites that run with it leave unhandled: each type of
the one comes from a site, and each type of a site is covered by the one. In a scoped tree that is
no larger than the limits, these are not reached (`withinLimits_of_size_le`). -/
theorem unhandled_agrees_with_sites (hwf : p.tree.WellFormed) (hst : p.Complete st)
    (hord : ThrowSet.OrderedOn (p.types.isSubtype st) (p.Involved st))
    (hcustom : p.handlers.custom = []) (hclosed : p.handlers.Closed p.tree (p.types.isSubtype st))
    (hplain : p.Plain n) (htop : ∀ m, p.tree.Runs n m → some m ≠ top)
    (hlimits : p.WithinLimits st n top) :
    (∀ ty ∈ (p.unhandled (some n) top st).1.members, ∃ m, ∃ site ∈ (p.sites (some n) top st).1,
      p.tree.Runs n m ∧ site.node = some m ∧ p.isMethodRef (some m) = false ∧
      ty ∈ site.exceptions.members) ∧
    ∀ m, ∀ site ∈ (p.sites (some n) top st).1, p.tree.Runs n m → site.node = some m →
      p.isMethodRef (some m) = false → ∀ ty ∈ site.exceptions.members,
      (p.unhandled (some n) top st).1.covers (p.types.isSubtype st) ty = true := by
  constructor
  · intro ty hty
    obtain ⟨hleaves, hchecked, hnot⟩ := leaves_of_mem_unhandled hst hord hplain hlimits hwf hty
    obtain ⟨m, hruns, hleavesm, harises, hup⟩ :=
      exists_arises_of_leaves hwf hcustom hplain htop .refl hleaves
    have href := hleavesm.isMethodRef_eq_false (hplain.resources m hruns)
    obtain ⟨site, hsite, hnode, hmem⟩ :=
      (hlimits.exists_site_iff hwf hst hruns).mpr ⟨harises, hchecked, mt hup hnot⟩
    exact ⟨m, site, hsite, hruns, hnode, href, hmem⟩
  · intro m site hsite hruns hnode href ty hty
    obtain ⟨harises, hchecked, hnot⟩ :=
      (hlimits.exists_site_iff hwf hst hruns).mp ⟨site, hsite, hnode, hty⟩
    obtain ⟨hleaves, hnot⟩ :=
      leaves_of_not_handled hwf hcustom hplain htop hruns (harises.leaves href) hnot
    exact covers_unhandled hst hord hplain hlimits hwf hclosed hleaves hchecked hnot

/-- A resource is opened, read from and closed; what opening it throws is caught and rethrown. -/
def cleanupProgram : Program TypeStore where
  tree := ⟨#[⟨0, 0, .call "open" none [], some 1⟩,
    ⟨0, 0, .resourceVariable "r" (some 0) (some 0), some 2⟩,
    ⟨0, 0, .resourceList [some 1], some 10⟩, ⟨0, 0, .call "read" none [], some 4⟩,
    ⟨0, 0, .block [some 3], some 10⟩, ⟨0, 0, .parameter "e" (some 5) false, some 9⟩,
    ⟨0, 0, .reference "e" (some 5), some 7⟩, ⟨0, 0, .throwing (some 6), some 8⟩,
    ⟨0, 0, .block [some 7], some 9⟩, ⟨0, 0, .catchClause (some 5) (some 8), some 10⟩,
    ⟨0, 0, .trying ⟨some 2, some 4, [some 9], none⟩, some 11⟩, ⟨0, 0, .block [some 10], none⟩]⟩
  types := .ofStore
  completion := fun _ => .ok true
  resolution := ((Resolution.unknown.withTarget (some 0)
      ⟨⟨.method "open" (some 0) [some 6], .ofLists [some 6] [some 5]⟩, []⟩).withTarget (some 3)
      ⟨⟨.method "read" (some 0) [some 2], .identity⟩, []⟩).withCloser (some 0)
      ⟨.method "close" (some 0) [some 8], .identity⟩
  handlers := .empty
  options := .default

theorem cleanupProgram_wellFormed : cleanupProgram.tree.WellFormed := by
  have hbuilt : cleanupProgram.tree.BuiltUp := by decide +kernel
  exact hbuilt.wellFormed

theorem cleanupProgram_complete : cleanupProgram.Complete TypeStore.mixedStore := by
  have hparameter : TypeStore.mixedStore.shape? (some 6) = some (.typeParam "T" none) := by
    decide +kernel
  have hall : cleanupProgram.resolution.AllCandidates fun c =>
      c.callable.throws = [some 6] ∨ c.substitution.isEmpty = true :=
    ((Resolution.allCandidates_unknown.withTarget _ (by decide)).withTarget _ (by decide)).withCloser
      _ (by decide)
  rintro st' ⟨c, ty, hoffers, hty, rfl⟩
  rcases hoffers.of_all hall with hthrows | hempty
  · rw [hthrows, List.mem_singleton] at hty
    exact hty ▸ TypeStore.substitute_snd_of_typeParam hparameter c.substitution
  · exact TypeStore.substitute_snd_of_isEmpty hempty ty _

theorem cleanupProgram_scoped : cleanupProgram.tree.Scoped :=
  SyntaxTree.scoped_of_checks (by decide +kernel)

theorem cleanupProgram_plain : cleanupProgram.Plain 11 := by
  have hkinds : ∀ m < 12, ((cleanupProgram.tree.payload? (some m)).all fun payload =>
      !payload.isDeclaration) = true ∧ cleanupProgram.isMethodRef (some m) = false := by
    decide +kernel
  refine ⟨rfl, nofun, nofun, fun m payload _ hpayload => ?_, fun m _ _ => ?_⟩
  · have hm := (hkinds m (SyntaxTree.lt_size_of_payload? hpayload)).1
    simpa [hpayload] using hm
  · by_cases hm : m < 12
    · exact (hkinds m hm).2
    · have hnone : cleanupProgram.tree.node? (some m) = none := SyntaxTree.node?_eq_none hm
      simp [isMethodRef, SyntaxTree.payload?, hnone]

/-- The block leaves 2 unhandled, which some site in it throws, and which covers what closing the
resource leaves unhandled. -/
theorem cleanupProgram_agrees :
    (cleanupProgram.unhandled (some 11) none TypeStore.mixedStore).1.members = [some 2] ∧
    (∃ m, ∃ site ∈ (cleanupProgram.sites (some 11) none TypeStore.mixedStore).1,
      cleanupProgram.tree.Runs 11 m ∧ site.node = some m ∧ some 2 ∈ site.exceptions.members) ∧
    ⟨some 1, true, ⟨[some 8]⟩⟩ ∈ (cleanupProgram.sites (some 11) none TypeStore.mixedStore).1 ∧
    (cleanupProgram.unhandled (some 11) none TypeStore.mixedStore).1.covers
      TypeStore.mixedStore.isSubtype (some 8) = true := by
  have hmembers : (cleanupProgram.unhandled (some 11) none TypeStore.mixedStore).1.members =
      [some 2] := by decide +kernel
  have hsite : ⟨some 1, true, ⟨[some 8]⟩⟩ ∈
      (cleanupProgram.sites (some 11) none TypeStore.mixedStore).1 := by decide +kernel
  have hruns : cleanupProgram.tree.Runs 11 1 := by
    have htry : 10 ∈ cleanupProgram.tree.operands (some 11) := by decide
    have hlist : 2 ∈ cleanupProgram.tree.operands (some 10) := by decide
    have hvariable : 1 ∈ cleanupProgram.tree.operands (some 2) := by decide
    exact .tail (.tail (.single htry) hlist) hvariable
  have hord : ThrowSet.OrderedOn TypeStore.mixedStore.isSubtype
      (cleanupProgram.Involved TypeStore.mixedStore) :=
    ⟨fun a _ => TypeStore.isSubtype_refl _ a, fun a b c _ _ _ => TypeStore.mixedStore_trans a b c⟩
  have hlimits : cleanupProgram.WithinLimits TypeStore.mixedStore 11 none :=
    withinLimits_of_size_le cleanupProgram_wellFormed cleanupProgram_scoped (by decide) (by decide)
  obtain ⟨hfrom, hto⟩ := unhandled_agrees_with_sites cleanupProgram_wellFormed
    cleanupProgram_complete hord rfl ⟨fun _ h => absurd h List.not_mem_nil, fun _ _ h => nomatch h⟩
    cleanupProgram_plain
    (fun _ _ => Option.some_ne_none _) hlimits
  obtain ⟨m, site, hmem, hrunsm, hnode, -, hthrows⟩ :=
    hfrom (some 2) (hmembers ▸ List.mem_cons_self)
  exact ⟨hmembers, ⟨m, site, hmem, hrunsm, hnode, hthrows⟩, hsite,
    hto 1 _ hsite hruns rfl rfl (some 8) List.mem_cons_self⟩

end Program

end CheckedExceptions
