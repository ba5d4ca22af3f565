import CheckedExceptions.Json.Record
import Mathlib.Data.List.DropRight

/-! What is read from the front of a text stays the same when more text follows. The fuel of a reader
is no obstacle: a longer text comes with more of it. -/

namespace CheckedExceptions

namespace Json

variable {α β : Type} {cs rest : List Char} {atEnd atEnd' : Fault}

theorem ok_of_bind {read : Except Fault α} {next : α → Except Fault β} {b : β}
    (h : read >>= next = .ok b) : ∃ a, read = .ok a ∧ next a = .ok b := by
  cases read with
  | error fault => cases h
  | ok a => exact ⟨a, rfl, h⟩

theorem ok_of_map {read : Except Fault α} {f : α → β} {b : β} (h : read.map f = .ok b) :
    ∃ a, read = .ok a ∧ f a = b := by
  cases read with
  | error fault => cases h
  | ok a => exact ⟨a, rfl, Except.ok.inj h⟩

theorem skipBlanks_skipBlanks (cs : List Char) : skipBlanks (skipBlanks cs) = skipBlanks cs :=
  List.dropWhile_idempotent isBlank cs

theorem skipBlanks_append {c : Char} (h : skipBlanks cs = c :: rest) (tail : List Char) :
    skipBlanks (cs ++ tail) = c :: (rest ++ tail) := by
  unfold skipBlanks at h ⊢
  rw [List.dropWhile_append, h]
  rfl

theorem expect_append {word : List Char} (h : expect word cs = .ok rest) (tail : List Char) :
    expect word (cs ++ tail) = .ok (rest ++ tail) := by
  induction word generalizing cs with
  | nil =>
    obtain rfl : cs = rest := Except.ok.inj h
    rfl
  | cons w word ih =>
    cases cs with
    | nil => cases h
    | cons c cs =>
      simp only [expect] at h
      split at h
      · next hc => simp only [List.cons_append, expect, if_pos hc, ih h]
      · cases h

theorem expectNext_append {w : Char} (h : expectNext w cs = .ok rest) (tail : List Char) :
    expectNext w (cs ++ tail) = .ok (rest ++ tail) := by
  cases hblank : skipBlanks cs with
  | nil =>
    rw [expectNext, hblank] at h
    cases h
  | cons c later =>
    rw [expectNext, hblank] at h
    rw [expectNext, skipBlanks_append hblank]
    exact expect_append h tail

section Strings

theorem ne_backslash {c : Char} (hend : c = '\\' → cs = [] → False)
    (hescape : ∀ d later, c = '\\' → cs = d :: later → False) : c ≠ '\\' := by
  rintro rfl
  cases cs with
  | nil => exact hend rfl rfl
  | cons d later => exact hescape d later rfl rfl

theorem quoted_append {text : List Char} (h : quoted cs = .ok (text, rest)) (tail : List Char) :
    quoted (cs ++ tail) = .ok (text, rest ++ tail) := by
  fun_induction quoted cs generalizing text rest with
  | case2 cs =>
    cases h
    rfl
  | case6 a b c d unit hunit htrailing hleading e f g i cs next hnext hpair ih =>
    obtain ⟨⟨more, left⟩, hmore, heq⟩ := ok_of_map h
    cases heq
    simp [quoted, hunit, htrailing, hleading, hnext, hpair, ih hmore, prepend, Except.map]
  | case9 a b c d cs unit hunit htrailing hleading ih =>
    obtain ⟨⟨more, left⟩, hmore, heq⟩ := ok_of_map h
    cases heq
    simp [quoted, hunit, htrailing, hleading, ih hmore, prepend, Except.map]
  | case12 c cs _ hu e hescaped ih =>
    obtain ⟨⟨more, left⟩, hmore, heq⟩ := ok_of_map h
    have hc : c ≠ 'u' := hu
    cases heq
    simp [quoted, hc, hescaped, ih hmore, prepend, Except.map]
  | case15 c cs hquote _ _ hend hescape hprintable ih =>
    obtain ⟨⟨more, left⟩, hmore, heq⟩ := ok_of_map h
    have hc : c ≠ '\\' := ne_backslash hend hescape
    cases heq
    simp [quoted, hc, hprintable, ih hmore, prepend, Except.map]
  | _ => cases h

theorem skipQuoted_append (h : skipQuoted cs = .ok rest) (tail : List Char) :
    skipQuoted (cs ++ tail) = .ok (rest ++ tail) := by
  fun_induction skipQuoted cs with
  | case2 cs =>
    cases h
    rfl
  | case3 a b c d cs hunit ih => simp [skipQuoted, hunit, ih h]
  | case7 c cs _ hu hescaped ih =>
    have hc : c ≠ 'u' := hu
    simp [skipQuoted, hc, hescaped, ih h]
  | case10 c cs hquote _ _ hend hescape hprintable ih =>
    have hc : c ≠ '\\' := ne_backslash hend hescape
    simp [skipQuoted, hc, hprintable, ih h]
  | _ => cases h

end Strings

section Numbers

def EndsNumber (tail : List Char) : Prop :=
  ∀ c ∈ tail.head?, c.isDigit = false ∧ c ≠ '.' ∧ c ≠ 'e' ∧ c ≠ 'E'

variable {tail : List Char}

theorem takeWhile_isDigit_append (htail : EndsNumber tail) (cs : List Char) :
    (cs ++ tail).takeWhile Char.isDigit = cs.takeWhile Char.isDigit := by
  induction cs with
  | nil =>
    cases tail with
    | nil => rfl
    | cons c tail => simp [(htail c rfl).1]
  | cons c cs ih => cases hc : c.isDigit <;> simp [hc, ih]

theorem dropWhile_isDigit_append (htail : EndsNumber tail) (cs : List Char) :
    (cs ++ tail).dropWhile Char.isDigit = cs.dropWhile Char.isDigit ++ tail := by
  induction cs with
  | nil =>
    cases tail with
    | nil => rfl
    | cons c tail => simp [(htail c rfl).1]
  | cons c cs ih => cases hc : c.isDigit <;> simp [hc, ih]

/-- Which fault is reported at the end of a text makes no difference to what can be read. -/
theorem digits_append {ds : List Char} (htail : EndsNumber tail)
    (h : digits atEnd cs = .ok (ds, rest)) : digits atEnd' (cs ++ tail) = .ok (ds, rest ++ tail) := by
  cases cs with
  | nil => cases h
  | cons c cs =>
    simp only [digits] at h
    split at h
    · next hc =>
      cases h
      simp [digits, hc, takeWhile_isDigit_append htail, dropWhile_isDigit_append htail]
    · cases h

/-- The digits before the point are digits that start with a zero only if that is all of them. -/
theorem wholeDigits_eq_ok_iff {ds : List Char} :
    wholeDigits atEnd cs = .ok (ds, rest) ↔
      digits atEnd cs = .ok (ds, rest) ∧ (ds.head? = some '0' → ds = ['0']) := by
  rw [wholeDigits.eq_def]
  split
  · next d cs =>
    cases hd : d.isDigit with
    | true =>
      have hdigits : digits atEnd ('0' :: d :: cs) =
          .ok ('0' :: d :: cs.takeWhile Char.isDigit, cs.dropWhile Char.isDigit) := by
        simp [digits, hd]
      refine ⟨nofun, fun ⟨h, hzero⟩ => ?_⟩
      cases hdigits.symm.trans h
      simp at hzero
    | false =>
      have hdigits : digits atEnd ('0' :: d :: cs) = .ok (['0'], d :: cs) := by simp [digits, hd]
      rw [hdigits]
      refine ⟨fun h => ⟨h, fun _ => ?_⟩, And.left⟩
      cases h
      rfl
  · next hzero =>
    refine ⟨fun h => ⟨h, fun hhead => ?_⟩, And.left⟩
    cases cs with
    | nil => cases h
    | cons c cs =>
      simp only [digits] at h
      split at h
      · cases h
        obtain rfl : c = '0' := by simpa using hhead
        cases cs with
        | nil => rfl
        | cons d cs => exact (hzero d cs rfl).elim
      · cases h

theorem wholeDigits_append {ds : List Char} (htail : EndsNumber tail)
    (h : wholeDigits atEnd cs = .ok (ds, rest)) :
    wholeDigits atEnd' (cs ++ tail) = .ok (ds, rest ++ tail) := by
  obtain ⟨hdigits, hzero⟩ := wholeDigits_eq_ok_iff.mp h
  exact wholeDigits_eq_ok_iff.mpr ⟨digits_append htail hdigits, hzero⟩

theorem append_ne_cons {c : Char} (hcs : ∀ later, cs = c :: later → False) (htail : c ∉ tail.head?)
    (later : List Char) : cs ++ tail ≠ c :: later := by
  cases cs with
  | nil =>
    rintro rfl
    exact htail rfl
  | cons d cs =>
    intro h
    cases h
    exact hcs cs rfl

theorem fractionDigits_append {ds : Option (List Char)} (htail : EndsNumber tail)
    (h : fractionDigits atEnd cs = .ok (ds, rest)) :
    fractionDigits atEnd' (cs ++ tail) = .ok (ds, rest ++ tail) := by
  rw [fractionDigits.eq_def] at h
  split at h
  · next cs =>
    obtain ⟨⟨ds, left⟩, hds, heq⟩ := ok_of_map h
    cases heq
    simp [fractionDigits, digits_append htail hds, Except.map]
  · next hpoint =>
    cases h
    rw [fractionDigits]
    exact append_ne_cons hpoint fun hc => (htail _ hc).2.1 rfl

theorem exponentSign_append (h : cs ≠ []) (tail : List Char) :
    exponentSign (cs ++ tail) = ((exponentSign cs).1, (exponentSign cs).2 ++ tail) := by
  obtain ⟨c, cs, rfl⟩ := List.exists_cons_of_ne_nil h
  simp only [List.cons_append, exponentSign.eq_def]
  split <;> simp_all

theorem minusSign_append (h : cs ≠ []) (tail : List Char) :
    minusSign (cs ++ tail) = ((minusSign cs).1, (minusSign cs).2 ++ tail) := by
  obtain ⟨c, cs, rfl⟩ := List.exists_cons_of_ne_nil h
  simp only [List.cons_append, minusSign.eq_def]
  split <;> simp_all

theorem exponentDigits_append {exponent : Option (Bool × List Char)} (htail : EndsNumber tail)
    (h : exponentDigits atEnd cs = .ok (exponent, rest)) :
    exponentDigits atEnd' (cs ++ tail) = .ok (exponent, rest ++ tail) := by
  have hne : cs ≠ [] := by
    rintro rfl
    cases h
  rw [exponentDigits] at h ⊢
  rw [exponentSign_append hne]
  generalize exponentSign cs = signed at h ⊢
  obtain ⟨positive, later⟩ := signed
  obtain ⟨⟨ds, left⟩, hds, heq⟩ := ok_of_map h
  cases heq
  simp [digits_append htail hds, Except.map]

theorem exponentPart_append {exponent : Option (Bool × List Char)} (htail : EndsNumber tail)
    (h : exponentPart atEnd cs = .ok (exponent, rest)) :
    exponentPart atEnd' (cs ++ tail) = .ok (exponent, rest ++ tail) := by
  rw [exponentPart.eq_def] at h
  split at h
  · exact exponentDigits_append htail h
  · exact exponentDigits_append htail h
  · next hlower hupper =>
    cases h
    rw [exponentPart]
    · exact append_ne_cons hlower fun hc => (htail _ hc).2.2.1 rfl
    · exact append_ne_cons hupper fun hc => (htail _ hc).2.2.2 rfl

theorem numberText_append {t : NumberText} (htail : EndsNumber tail)
    (h : numberText atEnd cs = .ok (t, rest)) :
    numberText atEnd' (cs ++ tail) = .ok (t, rest ++ tail) := by
  have hne : cs ≠ [] := by
    rintro rfl
    cases h
  rw [numberText] at h ⊢
  rw [minusSign_append hne]
  generalize minusSign cs = signed at h ⊢
  obtain ⟨negative, unsigned⟩ := signed
  obtain ⟨⟨whole, later⟩, hwhole, h⟩ := ok_of_bind h
  obtain ⟨⟨fraction, last⟩, hfraction, h⟩ := ok_of_bind h
  obtain ⟨⟨exponent, left⟩, hexponent, h⟩ := ok_of_bind h
  cases h
  simp only [wholeDigits_append htail hwhole]
  simp only [bind, Except.bind, fractionDigits_append htail hfraction,
    exponentPart_append htail hexponent]
  rfl

theorem number_append {t : NumberText} (htail : EndsNumber tail)
    (h : number cs = .ok (t, rest)) : number (cs ++ tail) = .ok (t, rest ++ tail) := by
  obtain ⟨⟨text, left⟩, htext, h⟩ := ok_of_bind h
  simp only at h
  split at h
  · cases h
  · next hsize =>
    cases h
    simp [number, numberText_append htail htext, hsize, bind, Except.bind]

theorem skipNumber_append (htail : EndsNumber tail) (h : skipNumber cs = .ok rest) :
    skipNumber (cs ++ tail) = .ok (rest ++ tail) := by
  obtain ⟨⟨t, left⟩, ht, heq⟩ := ok_of_map h
  cases heq
  simp [skipNumber, numberText_append htail ht, Except.map]

/-- A number that is read can be passed over. The two differ in the fault at the end of a text, which
is no number yet. -/
theorem skipNumber_of_number {t : NumberText} (h : number cs = .ok (t, rest)) :
    skipNumber cs = .ok rest := by
  obtain ⟨⟨text, left⟩, htext, h⟩ := ok_of_bind h
  have hend : numberText .malformed (cs ++ []) = .ok (text, left ++ []) :=
    numberText_append (by simp [EndsNumber]) htext
  simp only at h
  split at h
  · cases h
  · cases h
    simp only [List.append_nil] at hend
    simp [skipNumber, hend, Except.map]

end Numbers

section Skipping

variable {tail : List Char} {value value' : Skipper} {fuel fuel' : Nat}

/-- What the one passes over, the other passes over in front of `tail`. -/
def SkipsBefore (tail : List Char) (skip skip' : Skipper) : Prop :=
  ∀ {cs rest : List Char}, skip cs = .ok rest → skip' (cs ++ tail) = .ok (rest ++ tail)

theorem skipMember_append (hvalue : SkipsBefore tail value value') :
    SkipsBefore tail (skipMember value) (skipMember value') := by
  intro cs rest h
  obtain ⟨name, hname, h⟩ := ok_of_bind h
  obtain ⟨colon, hcolon, h⟩ := ok_of_bind h
  obtain ⟨start, hstart, h⟩ := ok_of_bind h
  simp only [skipMember, expectNext_append hname, skipQuoted_append hcolon,
    expectNext_append hstart, bind, Except.bind, hvalue h]

theorem skipElements_append (hvalue : SkipsBefore tail value value') (hfuel : fuel ≤ fuel') :
    SkipsBefore tail (skipElements value fuel) (skipElements value' fuel') := by
  intro cs rest h
  induction fuel generalizing fuel' cs with
  | zero => cases h
  | succ fuel ih =>
    obtain ⟨more, rfl⟩ := Nat.exists_eq_add_of_lt hfuel
    rw [skipElements] at h
    split at h
    · cases h
    · next hblank =>
      cases h
      simp only [skipElements, skipBlanks_append hblank]
    · next later hblank =>
      obtain ⟨later, hlater, h⟩ := ok_of_bind h
      rw [skipElements, skipBlanks_append hblank]
      simp only [hvalue hlater, bind, Except.bind]
      exact ih (by omega) h
    · cases h

theorem skipMembers_append (hvalue : SkipsBefore tail value value') (hfuel : fuel ≤ fuel') :
    SkipsBefore tail (skipMembers value fuel) (skipMembers value' fuel') := by
  intro cs rest h
  induction fuel generalizing fuel' cs with
  | zero => cases h
  | succ fuel ih =>
    obtain ⟨more, rfl⟩ := Nat.exists_eq_add_of_lt hfuel
    rw [skipMembers] at h
    split at h
    · cases h
    · next hblank =>
      cases h
      simp only [skipMembers, skipBlanks_append hblank]
    · next later hblank =>
      obtain ⟨later, hlater, h⟩ := ok_of_bind h
      rw [skipMembers, skipBlanks_append hblank]
      simp only [skipMember_append hvalue hlater, bind, Except.bind]
      exact ih (by omega) h
    · cases h

theorem skipList_append (hvalue : SkipsBefore tail value value') (hfuel : fuel ≤ fuel') :
    SkipsBefore tail (skipList value fuel) (skipList value' fuel') := by
  intro cs rest h
  rw [skipList] at h
  split at h
  · cases h
  · next hblank =>
    cases h
    simp only [skipList, skipBlanks_append hblank]
  · next hempty hclosed =>
    obtain ⟨later, hlater, h⟩ := ok_of_bind h
    cases hblank : skipBlanks cs with
    | nil => exact (hempty hblank).elim
    | cons c text =>
      rw [hblank] at hlater
      have hc : c ≠ ']' := by
        rintro rfl
        exact hclosed text hblank
      rw [skipList, skipBlanks_append hblank]
      split
      · next heq => cases heq
      · next heq => exact (hc (List.head_eq_of_cons_eq heq)).elim
      · simp only [← List.cons_append, hvalue hlater, bind, Except.bind]
        exact skipElements_append hvalue hfuel h

theorem skipObject_append (hvalue : SkipsBefore tail value value') (hfuel : fuel ≤ fuel') :
    SkipsBefore tail (skipObject value fuel) (skipObject value' fuel') := by
  intro cs rest h
  rw [skipObject] at h
  split at h
  · cases h
  · next hblank =>
    cases h
    simp only [skipObject, skipBlanks_append hblank]
  · next hempty hclosed =>
    obtain ⟨later, hlater, h⟩ := ok_of_bind h
    cases hblank : skipBlanks cs with
    | nil => exact (hempty hblank).elim
    | cons c text =>
      rw [hblank] at hlater
      have hc : c ≠ '}' := by
        rintro rfl
        exact hclosed text hblank
      rw [skipObject, skipBlanks_append hblank]
      split
      · next heq => cases heq
      · next heq => exact (hc (List.head_eq_of_cons_eq heq)).elim
      · simp only [← List.cons_append, skipMember_append hvalue hlater, bind, Except.bind]
        exact skipMembers_append hvalue hfuel h

theorem skipValueWithin_of_number {c : Char} (hblank : skipBlanks cs = c :: rest)
    (hc : c == '-' || c.isDigit) : skipValueWithin (fuel + 1) cs = skipNumber (c :: rest) := by
  rw [skipValueWithin, hblank]
  split
  case h_8 heq =>
    cases heq
    exact if_pos hc
  all_goals simp_all

theorem skipValueWithin_append (htail : EndsNumber tail) (hfuel : fuel ≤ fuel') :
    SkipsBefore tail (skipValueWithin fuel) (skipValueWithin fuel') := by
  induction fuel generalizing fuel' with
  | zero => exact fun h => nomatch h
  | succ fuel ih =>
    intro cs rest h
    obtain ⟨more, rfl⟩ := Nat.exists_eq_add_of_lt hfuel
    rw [skipValueWithin] at h
    split at h
    · cases h
    · next hblank =>
      rw [skipValueWithin, skipBlanks_append hblank]
      exact skipQuoted_append h tail
    · next hblank =>
      rw [skipValueWithin, skipBlanks_append hblank]
      exact skipList_append (ih (by omega)) (by omega) h
    · next hblank =>
      rw [skipValueWithin, skipBlanks_append hblank]
      exact skipObject_append (ih (by omega)) (by omega) h
    · next hblank =>
      rw [skipValueWithin, skipBlanks_append hblank]
      exact expect_append h tail
    · next hblank =>
      rw [skipValueWithin, skipBlanks_append hblank]
      exact expect_append h tail
    · next hblank =>
      rw [skipValueWithin, skipBlanks_append hblank]
      exact expect_append h tail
    · next hblank =>
      split at h
      · next hc =>
        rw [skipValueWithin_of_number (skipBlanks_append hblank tail) hc]
        exact skipNumber_append htail h
      · cases h

theorem skipValue_append (htail : EndsNumber tail) : SkipsBefore tail skipValue skipValue :=
  skipValueWithin_append htail (by simp)

end Skipping

end Json

end CheckedExceptions
