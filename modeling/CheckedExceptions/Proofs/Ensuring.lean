import Mathlib.Data.List.Forall2
import Mathlib.Logic.Relation

/-! What an action does in a given state: which steps it takes, what holds of its result, and
whether it gives the same again when it is run later. -/

namespace CheckedExceptions

open Relation (ReflTransGen)

/-- Run at `st`, the action takes steps, and `Q` holds of the state it leaves and its result. If it
`repeats`, it gives the same result at every later state and takes no step there. -/
structure Ensures {σ α : Type} (step : σ → σ → Prop) (repeats : Prop) (st : σ) (m : StateM σ α)
    (Q : σ → α → Prop) : Prop where
  steps : ReflTransGen step st (m st).2
  result : Q (m st).2 (m st).1
  again : repeats → ∀ later, ReflTransGen step (m st).2 later → m later = ((m st).1, later)

namespace Ensures

variable {σ α β : Type} {step : σ → σ → Prop} {repeats : Prop} {st : σ} {Q : σ → α → Prop}
  {R : σ → β → Prop}

theorem pure {a : α} (h : Q st a) : Ensures step repeats st (pure a) Q :=
  ⟨.refl, h, fun _ _ _ => rfl⟩

theorem bind {m : StateM σ α} {f : α → StateM σ β} (hm : Ensures step repeats st m Q)
    (hf : ∀ a next, ReflTransGen step st next → Q next a → Ensures step repeats next (f a) R) :
    Ensures step repeats st (m >>= f) R := by
  have hnext := hf (m st).1 (m st).2 hm.steps hm.result
  refine ⟨hm.steps.trans hnext.steps, hnext.result, ?_⟩
  intro hrepeats later hlater
  show f (m later).1 (m later).2 = _
  rw [hm.again hrepeats later (hnext.steps.trans hlater)]
  exact hnext.again hrepeats later hlater

theorem map {m : StateM σ α} {f : α → β} (hm : Ensures step repeats st m Q)
    (hf : ∀ later a, ReflTransGen step st later → Q later a → R later (f a)) :
    Ensures step repeats st (f <$> m) R := by
  refine ⟨hm.steps, hf _ _ hm.steps hm.result, ?_⟩
  intro hrepeats later hlater
  show (f (m later).1, (m later).2) = _
  rw [hm.again hrepeats later hlater]
  rfl

/-- An action that looks at its state gives the same again if what it sees makes no difference to it
later. -/
theorem observe {f : σ → StateM σ β} (h : Ensures step repeats st (f st) R)
    (hsame : repeats → ∀ later, ReflTransGen step st later → f later later = f st later) :
    Ensures step repeats st (get >>= f) R := by
  refine ⟨h.steps, h.result, ?_⟩
  intro hrepeats later hlater
  show f later later = _
  rw [hsame hrepeats later (h.steps.trans hlater)]
  exact h.again hrepeats later hlater

theorem get_bind {f : σ → StateM σ β} (h : Ensures step repeats st (f st) R)
    (hsame : repeats → ∀ later, ReflTransGen step st later → f later = f st) :
    Ensures step repeats st (get >>= f) R :=
  h.observe fun hrepeats later hlater => congrFun (hsame hrepeats later hlater) later

theorem of_run_eq {m m' : StateM σ α} (h : m st = m' st) (hm : Ensures step False st m' Q) :
    Ensures step False st m Q :=
  ⟨h ▸ hm.steps, h ▸ hm.result, False.elim⟩

theorem imp {m : StateM σ α} {Q' : σ → α → Prop} (hm : Ensures step repeats st m Q)
    (h : ∀ later a, Q later a → Q' later a) : Ensures step repeats st m Q' :=
  ⟨hm.steps, h _ _ hm.result, hm.again⟩

/-- What holds of each input and its result, and is not lost later, holds of them all in the end. -/
theorem mapM_forall₂ {f : α → StateM σ β} {l : List α} {R : σ → α → β → Prop}
    (hstays : ∀ s later a b, ReflTransGen step st s → ReflTransGen step s later → R s a b →
      R later a b)
    (h : ∀ a ∈ l, ∀ s, ReflTransGen step st s → Ensures step repeats s (f a) fun s => R s a) :
    Ensures step repeats st (l.mapM f) fun s bs => List.Forall₂ (R s) l bs := by
  induction l generalizing st with
  | nil => exact pure .nil
  | cons a l ih =>
    rw [List.mapM_cons]
    refine bind (h a List.mem_cons_self st .refl) fun b next hnext hb => ?_
    have hrest : Ensures step repeats next (l.mapM f) fun s bs => List.Forall₂ (R s) l bs := by
      apply ih
      · intro s later a b hs
        exact hstays s later a b (hnext.trans hs)
      · intro x hx s hs
        exact h x (List.mem_cons_of_mem a hx) s (hnext.trans hs)
    exact bind hrest fun bs last hlast hbs => pure (.cons (hstays next last a b hnext hlast hb) hbs)

theorem mapM {f : α → StateM σ β} {l : List α}
    (hstays : ∀ s later b, ReflTransGen step st s → ReflTransGen step s later → R s b → R later b)
    (h : ∀ a ∈ l, ∀ s, ReflTransGen step st s → Ensures step repeats s (f a) R) :
    Ensures step repeats st (l.mapM f) fun s bs => ∀ b ∈ bs, R s b := by
  refine (mapM_forall₂ (fun s later _ => hstays s later) h).imp fun s bs hbs b hb => ?_
  obtain ⟨i, hi, rfl⟩ := List.getElem_of_mem hb
  exact (List.forall₂_iff_get.mp hbs).2 i (hbs.length_eq ▸ hi) hi

end Ensures

theorem mapM_cons_run {σ α β : Type} (f : α → StateM σ β) (a : α) (l : List α) (st : σ) :
    (a :: l).mapM f st =
      ((f a st).1 :: (l.mapM f (f a st).2).1, (l.mapM f (f a st).2).2) := by
  rw [List.mapM_cons]
  rfl

theorem mapM_of_unchanged {σ α β : Type} {st : σ} {f : α → StateM σ β} {l : List α}
    (h : ∀ a ∈ l, (f a st).2 = st) : l.mapM f st = (l.map fun a => (f a st).1, st) := by
  induction l with
  | nil => rfl
  | cons a l ih =>
    rw [mapM_cons_run, h a List.mem_cons_self, ih fun x hx => h x (List.mem_cons_of_mem a hx)]
    rfl

/-- Two actions that agree at all states which the first one reaches agree over a list. -/
theorem mapM_eq_of_steps {σ α β : Type} {step : σ → σ → Prop} {st : σ} {f g : α → StateM σ β}
    {l : List α} (h : ∀ a ∈ l, ∀ s, ReflTransGen step st s →
      ReflTransGen step s (f a s).2 ∧ f a s = g a s) : l.mapM f st = l.mapM g st := by
  induction l generalizing st with
  | nil => rfl
  | cons a l ih =>
    obtain ⟨hsteps, hhead⟩ := h a List.mem_cons_self st .refl
    have hrest : l.mapM f (f a st).2 = l.mapM g (f a st).2 := by
      apply ih
      intro x hx s hs
      exact h x (List.mem_cons_of_mem a hx) s (hsteps.trans hs)
    rw [mapM_cons_run, mapM_cons_run, hrest, hhead]

end CheckedExceptions
