import CheckedExceptions.Config.File
import CheckedExceptions.Proofs.PrefixStability
import Mathlib.Data.List.Forall2
import Mathlib.Data.Option.Basic

/-! Options and the settings of a configuration file are read by two tables of fields, which agree on
every object that does not ask for the strict preset. -/

namespace CheckedExceptions

namespace Json

variable {α ρ σ : Type} {cs rest tail : List Char}

section Scalars

/-- Reads values that are neither null nor made of other values, and reads all of such a value. -/
structure IsScalar (value : Reader α) : Prop where
  append : ∀ {tail cs rest : List Char} {a : α}, EndsNumber tail → value cs = .ok (a, rest) →
    value (cs ++ tail) = .ok (a, rest ++ tail)
  skip : ∀ {cs rest : List Char} {a : α}, value cs = .ok (a, rest) → skipValue cs = .ok rest
  blanks : ∀ cs : List Char, value (skipBlanks cs) = value cs
  not_null : ∀ (cs : List Char) (r : α × List Char), value ('n' :: cs) ≠ .ok r

theorem bool_eq_ok {b : Bool} (h : bool cs = .ok (b, rest)) :
    ∃ later, (skipBlanks cs = 't' :: later ∧ b = true ∧ expect ['r', 'u', 'e'] later = .ok rest) ∨
      (skipBlanks cs = 'f' :: later ∧ b = false ∧ expect ['a', 'l', 's', 'e'] later = .ok rest) := by
  rw [bool] at h
  split at h
  · next later hblank =>
    obtain ⟨left, hleft, heq⟩ := ok_of_map h
    cases heq
    exact ⟨later, .inl ⟨hblank, rfl, hleft⟩⟩
  · next later hblank =>
    obtain ⟨left, hleft, heq⟩ := ok_of_map h
    cases heq
    exact ⟨later, .inr ⟨hblank, rfl, hleft⟩⟩
  · cases h

theorem bool_isScalar : IsScalar bool where
  append {tail cs rest a} _ h := by
    obtain ⟨later, ⟨hblank, rfl, hword⟩ | ⟨hblank, rfl, hword⟩⟩ := bool_eq_ok h
    · simp [bool, skipBlanks_append hblank, expect_append hword, Except.map]
    · simp [bool, skipBlanks_append hblank, expect_append hword, Except.map]
  skip {cs rest a} h := by
    obtain ⟨later, ⟨hblank, -, hword⟩ | ⟨hblank, -, hword⟩⟩ := bool_eq_ok h
    · simp only [skipValue, skipValueWithin, hblank, hword]
    · simp only [skipValue, skipValueWithin, hblank, hword]
  blanks cs := by rw [bool, bool, skipBlanks_skipBlanks]
  not_null cs r h := by cases h

theorem natBelow_eq_ok_iff {limit n : Nat} :
    natBelow limit cs = .ok (n, rest) ↔
      ∃ c later t, skipBlanks cs = c :: later ∧ (c == '-' || c.isDigit) ∧
        number (c :: later) = .ok (t, rest) ∧ t.natural? = some n ∧ n < limit := by
  constructor
  · intro h
    rw [natBelow] at h
    split at h
    · cases h
    · next c later hblank =>
      split at h
      · next hc =>
        obtain ⟨⟨t, left⟩, ht, h⟩ := ok_of_bind h
        simp only at h
        split at h
        · next m hm =>
          split at h
          · next hlt =>
            cases h
            exact ⟨c, later, t, hblank, hc, ht, hm, hlt⟩
          · cases h
        · cases h
      · cases h
  · rintro ⟨c, later, t, hblank, hc, ht, hn, hlt⟩
    simp [natBelow, hblank, hc, ht, hn, hlt, bind, Except.bind]

theorem natBelow_isScalar (limit : Nat) : IsScalar (natBelow limit) where
  append {tail cs rest a} htail h := by
    obtain ⟨c, later, t, hblank, hc, ht, hn, hlt⟩ := natBelow_eq_ok_iff.mp h
    exact natBelow_eq_ok_iff.mpr
      ⟨c, later ++ tail, t, skipBlanks_append hblank tail, hc, number_append htail ht, hn, hlt⟩
  skip {cs rest a} h := by
    obtain ⟨c, later, t, hblank, hc, ht, -⟩ := natBelow_eq_ok_iff.mp h
    rw [skipValue, skipValueWithin_of_number hblank hc]
    exact skipNumber_of_number ht
  blanks cs := by rw [natBelow, natBelow, skipBlanks_skipBlanks]
  not_null cs r h := by cases h

theorem nullable_of_isScalar {value : Reader α} (hvalue : IsScalar value) {a : α}
    (h : value cs = .ok (a, rest)) : nullable value cs = .ok (some a, rest) := by
  rw [nullable]
  split
  · next hblank =>
    rw [← hvalue.blanks, hblank] at h
    exact (hvalue.not_null _ _ h).elim
  · rw [hvalue.blanks, h]
    rfl

end Scalars

section Keys

theorem expectNext_of_skipBlanks {c : Char} (h : skipBlanks cs = c :: rest) :
    expectNext c cs = .ok rest := by
  simp [expectNext, h, expect]

/-- Passes over the comma behind a member and up to behind the opening quote of the next key. -/
def followingKey : Skipper := fun cs => do
  let cs ← expectNext ',' cs
  expectNext '"' cs

def keysFrom : Nat → List Char → List String
  | 0, _ => []
  | fuel + 1, cs =>
    match quoted cs with
    | .error _ => []
    | .ok (key, cs) =>
      String.ofList key ::
        match expectNext ':' cs >>= skipValue >>= followingKey with
        | .error _ => []
        | .ok cs => keysFrom fuel cs

/-- The keys of the object that a text holds, with their escapes resolved. A text has no more members
than characters. -/
def keys (source : String) : List String :=
  match expectNext '{' source.toList >>= expectNext '"' with
  | .error _ => []
  | .ok cs => keysFrom (cs.length + 1) cs

variable {ignored : String} {fuel : Nat} {key later start : List Char}

theorem ne_of_not_mem_keysFrom (h : ignored ∉ keysFrom (fuel + 1) cs)
    (hkey : quoted cs = .ok (key, later)) : String.ofList key ≠ ignored := by
  rintro rfl
  simp [keysFrom, hkey] at h

theorem not_mem_keysFrom_next (h : ignored ∉ keysFrom (fuel + 1) cs)
    (hkey : quoted cs = .ok (key, later)) (hstart : expectNext ':' later = .ok start)
    (hvalue : skipValue start = .ok rest) {next : List Char} (hnext : followingKey rest = .ok next) :
    ignored ∉ keysFrom fuel next := by
  intro hmem
  simp [keysFrom, hkey, hstart, hvalue, hnext, bind, Except.bind, hmem] at h

end Keys

section Simulation

variable {Related : ρ → σ → Prop} {fields : List (Field ρ)} {fields' : List (Field σ)}

/-- What the field `f` reads, its counterpart `g` reads in front of `tail`. Both change related records
into related ones. -/
structure Field.Simulates (Related : ρ → σ → Prop) (tail : List Char) (f : Field ρ) (g : Field σ) :
    Prop where
  key : f.key = g.key
  skip : ∀ {cs rest : List Char} {change : ρ → ρ}, f.read cs = .ok (change, rest) →
    skipValue cs = .ok rest
  read : ∀ {cs rest : List Char} {change : ρ → ρ}, f.read cs = .ok (change, rest) →
    ∃ change', g.read (cs ++ tail) = .ok (change', rest ++ tail) ∧
      ∀ r s, Related r s → Related (change r) (change' s)

/-- A scalar is also read where null may stand in its place. -/
theorem ofReader_simulates {key : String} {value : Reader α} {set : α → ρ → ρ}
    {set' : Option α → σ → σ} (hvalue : IsScalar value) (htail : EndsNumber tail)
    (hset : ∀ a r s, Related r s → Related (set a r) (set' (some a) s)) :
    Field.Simulates Related tail (.ofReader key value set)
      (.ofReader key (nullable value) set') where
  key := rfl
  skip {cs rest change} h := by
    obtain ⟨⟨a, left⟩, ha, heq⟩ := ok_of_map h
    cases heq
    exact hvalue.skip ha
  read {cs rest change} h := by
    obtain ⟨⟨a, left⟩, ha, heq⟩ := ok_of_map h
    cases heq
    refine ⟨set' (some a), ?_, hset a⟩
    simp [Field.ofReader, nullable_of_isScalar hvalue (hvalue.append htail ha), Except.map]

theorem find?_simulates (h : List.Forall₂ (Field.Simulates Related tail) fields fields')
    (key : String) :
    Option.Rel (Field.Simulates Related tail) (fields.find? fun f => f.key == key)
      (fields'.find? fun g => g.key == key) := by
  induction h with
  | nil => exact .none
  | cons hfg _ ih =>
    rw [List.find?_cons, List.find?_cons, hfg.key]
    split
    · exact .some hfg
    · exact ih

theorem member_eq_ok_iff {seen seen' : List String} {r r' : ρ} :
    member fields seen r cs = .ok ((seen', r'), rest) ↔
      ∃ key later start, quoted cs = .ok (key, later) ∧ expectNext ':' later = .ok start ∧
        ((∃ f change, fields.find? (fun f => f.key == String.ofList key) = some f ∧
            String.ofList key ∉ seen ∧ f.read start = .ok (change, rest) ∧
            seen' = String.ofList key :: seen ∧ r' = change r) ∨
          (fields.find? (fun f => f.key == String.ofList key) = none ∧
            skipValue start = .ok rest ∧ seen' = seen ∧ r' = r)) := by
  constructor
  · intro h
    obtain ⟨⟨key, later⟩, hkey, h⟩ := ok_of_bind h
    simp only at h
    split at h
    · next f hf =>
      split at h
      · cases h
      · next hseen =>
        obtain ⟨start, hstart, h⟩ := ok_of_bind h
        obtain ⟨⟨record, left⟩, hread, h⟩ := ok_of_bind h
        obtain ⟨⟨change, left⟩, hchange, heq⟩ := ok_of_map hread
        cases heq
        cases h
        exact ⟨key, later, start, hkey, hstart,
          .inl ⟨f, change, hf, by simpa using hseen, hchange, rfl, rfl⟩⟩
    · next hf =>
      obtain ⟨start, hstart, h⟩ := ok_of_bind h
      obtain ⟨left, hleft, h⟩ := ok_of_bind h
      cases h
      exact ⟨key, later, start, hkey, hstart, .inr ⟨hf, hleft, rfl, rfl⟩⟩
  · rintro ⟨key, later, start, hkey, hstart,
      ⟨f, change, hf, hseen, hread, rfl, rfl⟩ | ⟨hf, hskip, rfl, rfl⟩⟩
    · simp [member, hkey, hf, hseen, hstart, Field.readInto, hread, bind, Except.bind, Except.map]
    · simp [member, hkey, hf, hstart, hskip, bind, Except.bind]

variable {ignored : String} (htail : EndsNumber tail)
  (hfields : ∀ key, key ≠ ignored →
    Option.Rel (Field.Simulates Related tail) (fields.find? fun f => f.key == key)
      (fields'.find? fun g => g.key == key))
include htail hfields

/-- The step: a member under a key that is not ignored is read alike, and can be passed over. -/
theorem member_simulates {seen seen' : List String} {r r' : ρ} {s : σ} {fuel : Nat}
    (hkeys : ignored ∉ keysFrom (fuel + 1) cs) (hrelated : Related r s)
    (h : member fields seen r cs = .ok ((seen', r'), rest)) :
    (∃ s', member fields' seen s (cs ++ tail) = .ok ((seen', s'), rest ++ tail) ∧ Related r' s') ∧
      ∀ next, followingKey rest = .ok next → ignored ∉ keysFrom fuel next := by
  obtain ⟨key, later, start, hkey, hstart, hmember⟩ := member_eq_ok_iff.mp h
  have hcounterpart := hfields _ (ne_of_not_mem_keysFrom hkeys hkey)
  generalize hfound : fields'.find? (fun g => g.key == String.ofList key) = found at hcounterpart
  rcases hmember with ⟨f, change, hf, hseen, hread, rfl, rfl⟩ | ⟨hf, hskip, rfl, rfl⟩
  · rw [hf] at hcounterpart
    cases hcounterpart with
    | @some _ g hsim =>
      obtain ⟨change', hread', hchange⟩ := hsim.read hread
      refine ⟨⟨change' s, ?_, hchange r s hrelated⟩, fun next hnext => ?_⟩
      · exact member_eq_ok_iff.mpr ⟨key, later ++ tail, start ++ tail, quoted_append hkey tail,
          expectNext_append hstart tail, .inl ⟨g, change', hfound, hseen, hread', rfl, rfl⟩⟩
      · exact not_mem_keysFrom_next hkeys hkey hstart (hsim.skip hread) hnext
  · rw [hf] at hcounterpart
    cases hcounterpart
    refine ⟨⟨s, ?_, hrelated⟩, fun next hnext => ?_⟩
    · exact member_eq_ok_iff.mpr ⟨key, later ++ tail, start ++ tail, quoted_append hkey tail,
        expectNext_append hstart tail, .inr ⟨hfound, skipValue_append htail hskip, rfl, rfl⟩⟩
    · exact not_mem_keysFrom_next hkeys hkey hstart hskip hnext

/-- The run: induction on the members that follow, whose keys are those from the next one on. -/
theorem moreMembers_simulates {seen : List String} {r r' : ρ} {s : σ} {fuel fuel' : Nat}
    (hfuel : fuel ≤ fuel')
    (hkeys : ∀ next, followingKey cs = .ok next → ignored ∉ keysFrom fuel next)
    (hrelated : Related r s) (h : moreMembers fields fuel seen r cs = .ok (r', rest)) :
    ∃ s', moreMembers fields' fuel' seen s (cs ++ tail) = .ok (s', rest ++ tail) ∧
      Related r' s' := by
  induction fuel generalizing fuel' seen r s cs with
  | zero => cases h
  | succ fuel ih =>
    obtain ⟨more, rfl⟩ := Nat.exists_eq_add_of_lt hfuel
    rw [moreMembers] at h
    split at h
    · cases h
    · next hblank =>
      cases h
      exact ⟨s, by simp only [moreMembers, skipBlanks_append hblank], hrelated⟩
    · next later hblank =>
      obtain ⟨name, hname, h⟩ := ok_of_bind h
      obtain ⟨⟨⟨seen', r₁⟩, left⟩, hmember, h⟩ := ok_of_bind h
      have hnext : followingKey cs = .ok name := by
        simp only [followingKey, expectNext_of_skipBlanks hblank, bind, Except.bind, hname]
      obtain ⟨⟨s₁, hmember', hrelated'⟩, hkeys'⟩ :=
        member_simulates htail hfields (hkeys name hnext) hrelated hmember
      obtain ⟨s', hmore, hs'⟩ := ih (Nat.le_add_right fuel more) hkeys' hrelated' h
      refine ⟨s', ?_, hs'⟩
      simp only [moreMembers, skipBlanks_append hblank, expectNext_append hname, hmember', bind,
        Except.bind, hmore]
    · cases h

theorem object_simulates {r r' : ρ} {s : σ}
    (hkeys : ∀ name, expectNext '"' cs = .ok name → ignored ∉ keysFrom (name.length + 1) name)
    (hrelated : Related r s) (h : object fields r cs = .ok (r', rest)) :
    ∃ s', object fields' s (cs ++ tail) = .ok (s', rest ++ tail) ∧ Related r' s' := by
  rw [object] at h
  split at h
  · cases h
  · next hblank =>
    cases h
    exact ⟨s, by simp only [object, skipBlanks_append hblank], hrelated⟩
  · next name hblank =>
    obtain ⟨⟨⟨seen', r₁⟩, left⟩, hmember, h⟩ := ok_of_bind h
    have hlength : name.length ≤ (name ++ tail).length := by simp
    obtain ⟨⟨s₁, hmember', hrelated'⟩, hkeys'⟩ := member_simulates htail hfields
      (hkeys name (expectNext_of_skipBlanks hblank)) hrelated hmember
    obtain ⟨s', hmore, hs'⟩ := moreMembers_simulates htail hfields hlength hkeys' hrelated' h
    refine ⟨s', ?_, hs'⟩
    simp only [object, skipBlanks_append hblank, hmember', bind, Except.bind, hmore]
  · cases h

end Simulation

end Json

namespace Settings

def Spells (o : Options) (s : Settings) : Prop := s.strict = none ∧ s.options = o

theorem spells_unset : Spells .default unset := ⟨rfl, rfl⟩

variable {tail : List Char}

theorem fields_simulate (htail : Json.EndsNumber tail) :
    List.Forall₂ (Json.Field.Simulates Spells tail) Options.fields fields.tail := by
  have hdepth : Json.IsScalar depth := Json.natBelow_isScalar _
  refine .cons (Json.ofReader_simulates Json.bool_isScalar htail ?_)
    (.cons (Json.ofReader_simulates Json.bool_isScalar htail ?_)
    (.cons (Json.ofReader_simulates Json.bool_isScalar htail ?_)
    (.cons (Json.ofReader_simulates Json.bool_isScalar htail ?_)
    (.cons (Json.ofReader_simulates hdepth htail ?_)
    (.cons (Json.ofReader_simulates hdepth htail ?_) .nil)))))
  all_goals
    rintro v _ s ⟨hs, rfl⟩
    exact ⟨hs, rfl⟩

/-- Apart from the preset the two tables have the same keys. -/
theorem find?_fields_simulates (htail : Json.EndsNumber tail) (key : String) (hkey : key ≠ "strict") :
    Option.Rel (Json.Field.Simulates Spells tail) (Options.fields.find? fun f => f.key == key)
      (fields.find? fun g => g.key == key) := by
  have hcons : fields.find? (fun g => g.key == key) = fields.tail.find? fun g => g.key == key :=
    List.find?_cons_of_neg (by simpa [Json.Field.ofReader] using hkey.symm)
  rw [hcons]
  exact Json.find?_simulates (fields_simulate htail) key

/-- An object of options is an object of settings, in front of anything that does not go on with a
number. -/
theorem record_spells {source : String} {later rest : List Char} {o : Options}
    (htail : Json.EndsNumber tail) (hobject : Json.skipBlanks source.toList = '{' :: later)
    (hstrict : "strict" ∉ Json.keys source)
    (h : Json.record Options.fields .default source.toList = .ok (o, rest)) :
    ∃ s, Json.record fields unset (source.toList ++ tail) = .ok (s, rest ++ tail) ∧
      Spells o s := by
  have hkeys : ∀ name, Json.expectNext '"' later = .ok name →
      "strict" ∉ Json.keysFrom (name.length + 1) name := by
    intro name hname
    simpa [Json.keys, Json.expectNext_of_skipBlanks hobject, hname, bind, Except.bind] using hstrict
  simp only [Json.record, hobject] at h
  simp only [Json.record, Json.skipBlanks_append hobject]
  exact Json.object_simulates htail (find?_fields_simulates htail) hkeys spells_unset h

end Settings

namespace ConfigFile

theorem parse_of_record {source : String} {later rest : List Char} {s : Settings}
    (hobject : Json.skipBlanks source.toList = '{' :: later) (hrest : Json.skipBlanks rest = [])
    (h : Json.record Settings.fields .unset (source.toList ++ ['}']) = .ok (s, rest ++ ['}'])) :
    parse ("\x7b\"analysis\": " ++ source ++ "\x7d") = .ok ⟨none, some s⟩ := by
  have htext : ("\x7b\"analysis\": " ++ source ++ "\x7d").toList =
      '{' :: '"' :: ("analysis".toList ++ '"' :: ':' :: ' ' :: (source.toList ++ ['}'])) := by
    simp [String.toList_append]
  have hsettings : Json.nullable (Json.record Settings.fields .unset)
      (' ' :: (source.toList ++ ['}'])) = .ok (some s, rest ++ ['}']) := by
    have hblank : Json.skipBlanks (' ' :: (source.toList ++ ['}'])) = '{' :: (later ++ ['}']) :=
      Json.skipBlanks_append hobject ['}']
    simp only [Json.record, Json.skipBlanks_append hobject] at h
    simp only [Json.nullable, hblank]
    exact congrArg (Except.map _) h
  have hmember : Json.member fields [] ⟨none, none⟩
      ("analysis".toList ++ '"' :: ':' :: ' ' :: (source.toList ++ ['}'])) =
        .ok ((["analysis"], ⟨none, some s⟩), rest ++ ['}']) := by
    refine Json.member_eq_ok_iff.mpr ⟨"analysis".toList, _, _, rfl, rfl,
      .inl ⟨_, fun c => { c with analysis := some s }, rfl, List.not_mem_nil, ?_, rfl, rfl⟩⟩
    exact congrArg (Except.map _) hsettings
  have hclose : Json.skipBlanks (rest ++ ['}']) = ['}'] := by
    unfold Json.skipBlanks at hrest ⊢
    rw [List.dropWhile_append, hrest]
    rfl
  rw [parse, Json.document, htext]
  generalize "analysis".toList ++ '"' :: ':' :: ' ' :: (source.toList ++ ['}']) = text at hmember ⊢
  cases text with
  | nil => cases hmember
  | cons c text =>
    have hfile : Json.record fields ⟨none, none⟩ ('{' :: '"' :: c :: text) =
        .ok (⟨none, some s⟩, []) := by
      change (Json.member fields [] ⟨none, none⟩ (c :: text) >>= _) = _
      simp only [hmember, bind, Except.bind, List.length_cons, Json.moreMembers, hclose]
    rw [hfile]
    rfl

/-- Options that stand on their own are the options of the configuration file that has them as its
settings, whatever their spelling, as long as they do not name the preset. -/
theorem parse_embedded_options {source : String} {o : Options}
    (hobject : (Json.skipBlanks source.toList).head? = some '{')
    (hstrict : "strict" ∉ Json.keys source) (hparse : Options.parse source = .ok o) :
    ∃ c, parse ("\x7b\"analysis\": " ++ source ++ "\x7d") = .ok c ∧
      c.base = none ∧ c.analysis.isSome ∧ c.options = o := by
  obtain ⟨later, hlater⟩ := List.head?_eq_some_iff.mp hobject
  obtain ⟨⟨o, rest⟩, hrecord, hend⟩ := Json.ok_of_bind hparse
  simp only at hend
  split at hend
  · next hrest =>
    cases hend
    have htail : Json.EndsNumber ['}'] := by simp [Json.EndsNumber]
    obtain ⟨s, hs, -, rfl⟩ := Settings.record_spells htail hlater hstrict hrecord
    exact ⟨⟨none, some s⟩, parse_of_record hlater (List.isEmpty_iff.mp hrest) hs, rfl, rfl, rfl⟩
  · cases hend

/-- A key with an escape, white space between the tokens, and a member without meaning whose own
members name the preset and a number beyond every double. -/
def spelledOptions : String :=
  " \x7b\"ma\\u0078TreeDepth\" : 12, \"notes\": [\x7b\"strict\": 1e999\x7d],\n" ++
    "\"preciseRethrow\":false \x7d\n"

theorem spelledOptions_embedded :
    Json.keys spelledOptions = ["maxTreeDepth", "notes", "preciseRethrow"] ∧
      Options.parse spelledOptions =
        .ok { Options.default with maxTreeDepth := 12, preciseRethrow := false } ∧
      ∃ c, parse ("\x7b\"analysis\": " ++ spelledOptions ++ "\x7d") = .ok c ∧
        c.base = none ∧ c.analysis.isSome ∧
        c.options = { Options.default with maxTreeDepth := 12, preciseRethrow := false } := by
  have hkeys : Json.keys spelledOptions = ["maxTreeDepth", "notes", "preciseRethrow"] := by
    decide +kernel
  have hparse : Options.parse spelledOptions =
      .ok { Options.default with maxTreeDepth := 12, preciseRethrow := false } := by
    decide +kernel
  have hstrict : "strict" ∉ Json.keys spelledOptions := by
    rw [hkeys]
    decide
  exact ⟨hkeys, hparse, parse_embedded_options (by decide +kernel) hstrict hparse⟩

end ConfigFile

end CheckedExceptions
