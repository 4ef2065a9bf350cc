import Mathlib.Data.List.Nodup
import SourceIndex.Proofs.Lines.Extractor

/-!
# Sessions of a registry

A registry may be asked for the extractor of a language, for that of a file, and for the language of
a file, as often as one likes and in any order.  A call only adds to what the registry keeps, and
the instances are numbered in the order in which they are made.  So two answers are one instance
exactly if they are for one language, and the extractor is always that of the language it was asked
for.
-/

namespace SourceIndex

namespace Extractor

/-- A language that is parsed with the grammar of another one has an extractor of its own. -/
theorem dedicated?_ne_none {language target : String}
    (h : Language.aliasTarget? language = some target) : dedicated? language ≠ none := by
  obtain ⟨a, ha, -⟩ := Option.map_eq_some_iff.1 h
  have hlanguage : a.1 = language := by simpa using List.find?_some ha
  have hall : ∀ a ∈ Language.aliases, (dedicated? a.1).isSome = true := by decide +kernel
  rw [← hlanguage]
  exact Option.isSome_iff_ne_none.1 (hall a (List.mem_of_find?_eq_some ha))

/-- Whatever the name, the extractor of a language has that name. -/
theorem language_ofLanguage (language : String) : (ofLanguage language).language = language := by
  unfold ofLanguage
  cases hown : dedicated? language with
  | some e => exact (mem_of_dedicated? hown).2
  | none =>
      cases hshared : Language.aliasTarget? language with
      | some target => exact absurd hown (dedicated?_ne_none hshared)
      | none => rfl

end Extractor

namespace Registry

/-- A call on a registry. -/
inductive Call where
  /-- Asks for the extractor of a language. -/
  | extractorOf (language : String)
  /-- Asks for the extractor of the language of a file. -/
  | extractorFor (path : String)
  /-- Asks for the language of a file. -/
  | languageFor (path : String)
  deriving Repr, DecidableEq

/-- What a call is answered with. -/
inductive Answer where
  | extractor (found : Option Instance)
  | language (found : Option String)

/-- The language whose extractor a call asks for; none if no language claims the file. -/
def Call.language? : Call → Option String
  | extractorOf language => some language
  | extractorFor path => Language.ofPath? path
  | languageFor _ => none

/-- The answer to a call, and the registry behind it. -/
def answer (r : Registry) : Call → Answer × Registry
  | .extractorOf language =>
      let (i, r) := r.forLanguage language
      (.extractor (some i), r)
  | .extractorFor path =>
      let (i, r) := r.forFile path
      (.extractor i, r)
  | .languageFor path => (.language (Language.ofPath? path), r)

/-- The calls of a session, each with its answer. -/
def session (r : Registry) : List Call → List (Call × Answer)
  | [] => []
  | c :: rest => (c, (r.answer c).1) :: (r.answer c).2.session rest

/-- The registry behind a session. -/
def after (r : Registry) (calls : List Call) : Registry :=
  calls.foldl (fun r c => (r.answer c).2) r

variable {r other : Registry} {language : String} {i j : Instance} {calls : List Call} {c c' : Call}

/-! ## What is kept -/

theorem mem_made_of_kept? (h : r.kept? language = some i) : (language, i) ∈ r.made := by
  obtain ⟨m, hm, rfl⟩ := Option.map_eq_some_iff.1 h
  have hlanguage : m.1 = language := by simpa using List.find?_some hm
  rw [← hlanguage]
  exact List.mem_of_find?_eq_some hm

/-- What is kept for a language stays, whatever is added behind it. -/
theorem kept?_of_isPrefix (hmade : r.made <+: other.made) (h : r.kept? language = some i) :
    other.kept? language = some i := by
  obtain ⟨m, hm, hi⟩ := Option.map_eq_some_iff.1 h
  obtain ⟨added, hadded⟩ := hmade
  rw [kept?, ← hadded, List.find?_append, hm]
  exact congrArg some hi

theorem forLanguage_of_kept? (h : r.kept? language = some i) : r.forLanguage language = (i, r) := by
  rw [forLanguage, h]

/-- The instance for a language is kept from then on. -/
theorem kept?_forLanguage (r : Registry) (language : String) :
    (r.forLanguage language).2.kept? language = some (r.forLanguage language).1 := by
  cases h : r.kept? language with
  | some i => rw [forLanguage_of_kept? h, h]
  | none =>
      have hmissing : r.made.find? (fun m => m.1 == language) = none := Option.map_eq_none_iff.1 h
      rw [forLanguage, h]
      show (List.find? _ (r.made ++ [_])).map _ = _
      rw [List.find?_append, hmissing]
      simp

theorem isPrefix_forLanguage (r : Registry) (language : String) :
    r.made <+: (r.forLanguage language).2.made := by
  unfold forLanguage
  split
  · exact List.prefix_refl _
  · exact List.prefix_append _ _

/-- Are the instances that a registry keeps the extractors of their languages, numbered in order? -/
structure IsCoherent (r : Registry) : Prop where
  sound : r.IsSound
  numbered : r.made.map (fun m => m.2.serial) = List.range r.made.length

theorem isCoherent_fresh (limits : Limits) : ({ limits } : Registry).IsCoherent :=
  ⟨nofun, rfl⟩

theorem IsCoherent.forLanguage (h : r.IsCoherent) (language : String) :
    (r.forLanguage language).2.IsCoherent := by
  refine ⟨(h.sound.forLanguage language).2, ?_⟩
  unfold Registry.forLanguage
  split
  · exact h.numbered
  · simp only [List.map_append, h.numbered, List.length_append, List.length_singleton,
      List.range_succ, List.map_cons, List.map_nil]

/-- No two of the instances kept have one number. -/
theorem IsCoherent.eq_of_serial_eq (h : r.IsCoherent) {other : String}
    (hi : r.kept? language = some i) (hj : r.kept? other = some j) (hserial : i.serial = j.serial) :
    language = other ∧ i = j := by
  have hnodup : (r.made.map fun m => m.2.serial).Nodup := h.numbered ▸ List.nodup_range
  have heq := List.inj_on_of_nodup_map hnodup (mem_made_of_kept? hi) (mem_made_of_kept? hj) hserial
  exact ⟨congrArg Prod.fst heq, congrArg Prod.snd heq⟩

theorem IsCoherent.language_eq (h : r.IsCoherent) (hi : r.kept? language = some i) :
    i.extractor.language = language := by
  rw [h.sound _ (mem_made_of_kept? hi), Extractor.language_ofLanguage]

/-! ## One call -/

/-- A call for the extractor of a language is answered with an instance, which is kept. -/
theorem answer_of_language? (r : Registry) (hc : c.language? = some language) :
    (r.answer c).1 = .extractor (some (r.forLanguage language).1) ∧
      (r.answer c).2 = (r.forLanguage language).2 := by
  cases c with
  | extractorOf name =>
      cases hc
      exact ⟨rfl, rfl⟩
  | extractorFor path =>
      have hpath : Language.ofPath? path = some language := hc
      rw [answer, forFile, hpath]
      exact ⟨rfl, rfl⟩
  | languageFor path => cases hc

/-- Any other call is answered with no instance, and adds nothing. -/
theorem answer_of_language?_none (r : Registry) (hc : c.language? = none) :
    (∀ i, (r.answer c).1 ≠ .extractor (some i)) ∧ (r.answer c).2 = r := by
  cases c with
  | extractorOf name => cases hc
  | extractorFor path =>
      have hpath : Language.ofPath? path = none := hc
      rw [answer, forFile, hpath]
      exact ⟨fun _ => nofun, rfl⟩
  | languageFor path => exact ⟨fun _ => nofun, rfl⟩

theorem IsCoherent.answer (h : r.IsCoherent) (c : Call) : (r.answer c).2.IsCoherent := by
  cases hc : c.language? with
  | none =>
      rw [(answer_of_language?_none r hc).2]
      exact h
  | some language =>
      rw [(answer_of_language? r hc).2]
      exact h.forLanguage language

theorem isPrefix_answer (r : Registry) (c : Call) : r.made <+: (r.answer c).2.made := by
  cases hc : c.language? with
  | none => rw [(answer_of_language?_none r hc).2]
  | some language =>
      rw [(answer_of_language? r hc).2]
      exact isPrefix_forLanguage r language

/-! ## Sessions -/

theorem after_append (r : Registry) (calls more : List Call) :
    r.after (calls ++ more) = (r.after calls).after more :=
  List.foldl_append

theorem IsCoherent.after (h : r.IsCoherent) (calls : List Call) : (r.after calls).IsCoherent := by
  induction calls generalizing r with
  | nil => exact h
  | cons c rest ih => exact ih (h.answer c)

theorem isPrefix_after (r : Registry) (calls : List Call) : r.made <+: (r.after calls).made := by
  induction calls generalizing r with
  | nil => exact List.prefix_refl _
  | cons c rest ih => exact (isPrefix_answer r c).trans (ih _)

/-- Each call of a session is answered by what the calls before it left behind. -/
theorem mem_session (r : Registry) (before : List Call) (c : Call) (rest : List Call) :
    (c, ((r.after before).answer c).1) ∈ r.session (before ++ c :: rest) := by
  induction before generalizing r with
  | nil => exact List.mem_cons_self
  | cons first before ih => exact List.mem_cons_of_mem _ (ih _)

/-- A call of a session that asks for the extractor of a language is answered with the instance that
is kept for it at the end. -/
theorem exists_kept?_of_mem_session {a : Answer} (h : (c, a) ∈ r.session calls)
    (hc : c.language? = some language) :
    ∃ i, a = .extractor (some i) ∧ (r.after calls).kept? language = some i := by
  induction calls generalizing r with
  | nil => cases h
  | cons first rest ih =>
      rcases List.mem_cons.1 h with h | h
      · obtain ⟨rfl, rfl⟩ := Prod.mk.inj h
        obtain ⟨hanswer, hregistry⟩ := answer_of_language? r hc
        refine ⟨_, hanswer, kept?_of_isPrefix (isPrefix_after (r.answer c).2 rest) ?_⟩
        rw [hregistry]
        exact kept?_forLanguage r language
      · exact ih h

/-- Any other call of a session is answered with no instance. -/
theorem ne_extractor_of_mem_session {a : Answer} (h : (c, a) ∈ r.session calls)
    (hc : c.language? = none) : ∀ i, a ≠ .extractor (some i) := by
  induction calls generalizing r with
  | nil => cases h
  | cons first rest ih =>
      rcases List.mem_cons.1 h with h | h
      · obtain ⟨rfl, rfl⟩ := Prod.mk.inj h
        exact (answer_of_language?_none r hc).1
      · exact ih h

/-- An instance that a session hands out is kept for the language that was asked for. -/
theorem exists_language_of_mem_session (h : (c, .extractor (some i)) ∈ r.session calls) :
    ∃ language, c.language? = some language ∧ (r.after calls).kept? language = some i := by
  cases hc : c.language? with
  | none => exact absurd rfl (ne_extractor_of_mem_session h hc i)
  | some language =>
      obtain ⟨j, hj, hkept⟩ := exists_kept?_of_mem_session h hc
      cases hj
      exact ⟨language, rfl, hkept⟩

/-- The language of a file is the one that its path tells, whatever was asked before. -/
theorem eq_of_languageFor_mem_session {path : String} {a : Answer}
    (h : (.languageFor path, a) ∈ r.session calls) : a = .language (Language.ofPath? path) := by
  induction calls generalizing r with
  | nil => cases h
  | cons first rest ih =>
      rcases List.mem_cons.1 h with h | h
      · obtain ⟨rfl, rfl⟩ := Prod.mk.inj h
        rfl
      · exact ih h

/-- In every session of a fresh registry, whatever its limits: a call that asks for the extractor of
a language is answered with one of that name, which is not replaced by anything that is asked later;
two instances that are handed out are one exactly if they are for one language; and there is no
extractor for a file exactly if there is no language for it. -/
theorem session_answers (limits : Limits) (calls : List Call) :
    (∀ c a, (c, a) ∈ ({ limits } : Registry).session calls → ∀ language,
      c.language? = some language → ∃ i, a = .extractor (some i) ∧
        i.extractor.language = language ∧
        ∀ more, ((({ limits } : Registry).after (calls ++ more)).forLanguage language).1 = i) ∧
    (∀ c i c' i', (c, .extractor (some i)) ∈ ({ limits } : Registry).session calls →
      (c', .extractor (some i')) ∈ ({ limits } : Registry).session calls →
        (i.serial = i'.serial ↔ c.language? = c'.language?) ∧ (i.serial = i'.serial → i = i')) ∧
    ∀ path found name, (.extractorFor path, .extractor found) ∈
        ({ limits } : Registry).session calls →
      (.languageFor path, .language name) ∈ ({ limits } : Registry).session calls →
        (found = none ↔ name = none) := by
  have hfresh := (isCoherent_fresh limits).after calls
  refine ⟨fun c a h language hc => ?_, fun c i c' i' h h' => ?_, fun path found name h h' => ?_⟩
  · obtain ⟨i, rfl, hkept⟩ := exists_kept?_of_mem_session h hc
    refine ⟨i, rfl, hfresh.language_eq hkept, fun more => ?_⟩
    rw [after_append, forLanguage_of_kept? (kept?_of_isPrefix (isPrefix_after _ more) hkept)]
  · obtain ⟨language, hc, hkept⟩ := exists_language_of_mem_session h
    obtain ⟨language', hc', hkept'⟩ := exists_language_of_mem_session h'
    have hserial := hfresh.eq_of_serial_eq hkept hkept'
    refine ⟨⟨fun heq => ?_, fun heq => ?_⟩, fun heq => (hserial heq).2⟩
    · rw [hc, hc', (hserial heq).1]
    · rw [hc, hc'] at heq
      cases heq
      rw [hkept] at hkept'
      exact congrArg Instance.serial (Option.some.inj hkept')
  · cases eq_of_languageFor_mem_session h'
    cases hpath : Language.ofPath? path with
    | none =>
        have hnone : ∀ i, found ≠ some i := fun i hi =>
          ne_extractor_of_mem_session h hpath i (congrArg Answer.extractor hi)
        exact iff_of_true (Option.eq_none_iff_forall_ne_some.2 hnone) rfl
    | some language =>
        obtain ⟨i, hi, -⟩ := exists_kept?_of_mem_session h hpath
        cases hi
        exact iff_of_false nofun nofun

/-- A session that asks for one language by its name and by a file, and for a file without one. -/
def mixedSession : List Call :=
  [.extractorOf "python", .extractorFor "LEGACY/MAIN.PRG", .languageFor "notes.txt",
    .extractorFor "notes.txt", .extractorOf "foxpro", .extractorOf "elixir"]

theorem mixedSession_answers :
    (.languageFor "notes.txt", .language none) ∈ ({} : Registry).session mixedSession ∧
      (.extractorFor "notes.txt", .extractor none) ∈ ({} : Registry).session mixedSession ∧
      ((none : Option Instance) = none ↔ (none : Option String) = none) ∧
      ∃ i i', (.extractorFor "LEGACY/MAIN.PRG", .extractor (some i)) ∈
          ({} : Registry).session mixedSession ∧
        (.extractorOf "foxpro", .extractor (some i')) ∈ ({} : Registry).session mixedSession ∧
        i = i' ∧ i.serial = 1 ∧ i.extractor.language = "foxpro" ∧
        ∀ more, ((({} : Registry).after (mixedSession ++ more)).forLanguage "foxpro").1 = i := by
  have hform : (Call.extractorFor "LEGACY/MAIN.PRG").language? = some "foxpro" := by
    decide +kernel
  have hnotes : Language.ofPath? "notes.txt" = none := by decide +kernel
  obtain ⟨hasked, hsame, hmissing⟩ := session_answers {} mixedSession
  have hfirst := mem_session {} (mixedSession.take 1) (.extractorFor "LEGACY/MAIN.PRG")
    (mixedSession.drop 2)
  have hsecond := mem_session {} (mixedSession.take 4) (.extractorOf "foxpro")
    (mixedSession.drop 5)
  have hlanguage := mem_session {} (mixedSession.take 2) (.languageFor "notes.txt")
    (mixedSession.drop 3)
  have hextractor := mem_session {} (mixedSession.take 3) (.extractorFor "notes.txt")
    (mixedSession.drop 4)
  rw [answer, hnotes] at hlanguage
  rw [answer, forFile, hnotes] at hextractor
  obtain ⟨i, hi, hname, hkept⟩ := hasked _ _ hfirst "foxpro" hform
  obtain ⟨i', hi', -, -⟩ := hasked _ _ hsecond "foxpro" rfl
  rw [hi] at hfirst
  rw [hi'] at hsecond
  obtain ⟨hiff, heq⟩ := hsame _ _ _ _ hfirst hsecond
  refine ⟨hlanguage, hextractor, hmissing _ _ _ hextractor hlanguage, i, i', hfirst, hsecond,
    heq (hiff.2 hform), ?_, hname, hkept⟩
  rw [(answer_of_language? _ hform).1] at hi
  cases hi
  rfl

end Registry

end SourceIndex
