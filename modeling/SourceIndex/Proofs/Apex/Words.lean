import Mathlib
import SourceIndex.Idiom.Apex
import SourceIndex.Proofs.Text.Glyphs
import SourceIndex.Proofs.Text.Search

/-!
# The words that are masked

Where a source has a whole word `global` or the header of a trigger, told by its octets: the word is
six ASCII letters between places where no word goes on, and the header begins where a word begins
and ends with a parenthesis.
-/

namespace SourceIndex.Text

namespace Utf8

/-- Does a word go on behind a place? -/
def wordAhead (ahead : List UInt8) : Bool :=
  ((firstChar? ahead).map Prod.fst).any isWordChar

/-- Does a word come up to a place? -/
def wordBehind (behind : List UInt8) : Bool :=
  (lastChar? behind).any isWordChar

end Utf8

namespace Pattern

open Utf8 (Glyph glyphs glyphsFrom flat IsBoundary isAscii encodeChar)

/-- A pattern over characters, for the glyphs of a source. -/
def inSource (p : Pattern Char) : Pattern Glyph :=
  p.through Glyph.char Glyph.backward

variable {c c' : Char}

/-- Only ASCII letters differ from an ASCII letter in nothing but case, unless it is one that a
letter beyond ASCII folds to. -/
theorem isAlpha_of_sameLetter (hc : c.isLower = true) (hs : c ≠ 's') (hk : c ≠ 'k')
    (h : sameLetter c c' = true) : c'.isAlpha = true := by
  have hfold : sameLetter.fold c = c := by
    unfold sameLetter.fold
    split
    · simp [Char.isLower] at hc
    · simp [Char.isLower] at hc
    · simp only [Char.isLower, ge_iff_le, Bool.and_eq_true, decide_eq_true_eq] at hc
      unfold Char.toLower
      grind
  have heq : c = sameLetter.fold c' := by simpa [sameLetter, hfold] using h
  unfold sameLetter.fold at heq
  split at heq
  · exact absurd heq hs
  · exact absurd heq hk
  · rw [heq] at hc
    unfold Char.isAlpha
    by_cases hupper : c'.isUpper = true
    · simp [hupper]
    · have hsame : c'.toLower = c' := by
        unfold Char.toLower
        unfold Char.isUpper at hupper
        grind
      rw [hsame] at hc
      simp [hc]

theorem toNat_lt_of_isAlpha (h : c.isAlpha = true) : c.toNat < 0x80 := by
  simp only [Char.isAlpha, Char.isUpper, Char.isLower, Bool.or_eq_true, Bool.and_eq_true,
    decide_eq_true_eq, UInt32.le_iff_toNat_le] at h
  have hupper : 'Z'.val.toNat = 90 := rfl
  have hlower : 'z'.val.toNat = 122 := rfl
  show c.val.toNat < 0x80
  omega

theorem isWordChar_of_isAlpha (h : c.isAlpha = true) : isWordChar c = true := by
  rw [isWordChar, if_pos (toNat_lt_of_isAlpha h), Char.isAlphanum, h]
  rfl

/-- An ASCII letter is one octet. -/
theorem exists_octet_of_isAlpha (h : c.isAlpha = true) :
    ∃ b, isAscii b = true ∧ c = Char.ofNat b.toNat ∧ encodeChar c = [b] := by
  have hlt := toNat_lt_of_isAlpha h
  have hvalue : c.toNat.toUInt8.toNat = c.toNat := by
    simp only [UInt8.toNat_ofNat']
    omega
  have hascii : isAscii c.toNat.toUInt8 = true := by
    simp only [isAscii, decide_eq_true_eq, UInt8.lt_iff_toNat_lt, hvalue]
    exact hlt
  have hchar : c = Char.ofNat c.toNat.toUInt8.toNat := by rw [hvalue, Char.ofNat_toNat]
  refine ⟨_, hascii, hchar, ?_⟩
  rw [encodeChar, if_pos hlt]

end Pattern

end SourceIndex.Text

namespace SourceIndex.Idiom.Apex

open SourceIndex.Text (isWordChar)
open SourceIndex.Text.Pattern
open SourceIndex.Text.Utf8

/-- The octets of a word of ASCII letters in either case. -/
def Spells (word : List Char) (octets : List UInt8) : Prop :=
  List.Forall₂ (fun c b => isAscii b = true ∧ sameLetter c (Char.ofNat b.toNat) = true) word octets

/-- A whole word `global` stands ahead of a place. -/
structure IsGlobal (behind ahead : List UInt8) : Prop where
  behind : wordBehind behind = false
  word : ∃ letters rest, ahead = letters ++ rest ∧ Spells "global".toList letters ∧
    wordAhead rest = false

/-- A whole word `global` stands in a source, its first letter behind so many octets. -/
def IsWordAt (source : List UInt8) (k : Nat) : Prop :=
  IsGlobal (source.take k).reverse (source.drop k)

variable {source behind octets : List UInt8} {u v : List Glyph} {m : Text.Pattern.Match}

/-- The edges of words between glyphs are those between octets. -/
theorem isEdge_iff (h : IsBoundary [] u v) (spans : List (Nat × Nat × Nat)) :
    Progress.isEdge ⟨u.reverse, v, spans⟩ (fun g => g.backward.any isWordChar)
      (fun g => g.char.any isWordChar) = (wordBehind (flat u).reverse != wordAhead (flat v)) := by
  have hahead : (v.head?.any fun g => g.char.any isWordChar) = wordAhead (flat v) := by
    rw [wordAhead, ← h.head?_char]
    cases v <;> rfl
  have hbehind : (u.reverse.head?.any fun g => g.backward.any isWordChar) =
      wordBehind (flat u).reverse := by
    rw [List.head?_reverse, wordBehind]
    cases hlast : u.getLast? with
    | none =>
        rw [List.getLast?_eq_none_iff.1 hlast]
        rfl
    | some g =>
        have hg := h.backward g hlast
        rw [List.append_nil] at hg
        rw [Option.any_some, hg]
  rw [Progress.isEdge, hahead, hbehind]

theorem inSource_seqs (ps : List (Text.Pattern Char)) :
    inSource (seqs ps) = seqs (ps.map inSource) :=
  through_seqs _ _ ps

theorem run_wordEdge_eq_some_iff {β : Type} {r : β} {s : Progress Glyph}
    {next : Progress Glyph → Option β} :
    (inSource wordEdge).run s next = some r ↔
      s.isEdge (fun g => g.backward.any isWordChar) (fun g => g.char.any isWordChar) = true ∧
        next s = some r := by
  change (if _ then next s else none) = some r ↔ _
  split <;> simp_all

/-- The class of the glyphs that show a letter in either case. -/
def isLetter (c : Char) (g : Glyph) : Bool :=
  g.char.any (sameLetter c)

theorem inSource_wordAnyCase (text : String) :
    inSource (wordAnyCase text) = seqs ((text.toList.map isLetter).map one) := by
  rw [wordAnyCase, inSource_seqs, List.map_map, List.map_map]
  rfl

theorem run_wordAnyCase_eq_some_iff {β : Type} {r : β} (text : String) {s : Progress Glyph}
    {next : Progress Glyph → Option β} :
    (inSource (wordAnyCase text)).run s next = some r ↔
      ∃ read rest, s.ahead = read ++ rest ∧
        List.Forall₂ (fun c g => isLetter c g = true) text.toList read ∧
          next ⟨read.reverse ++ s.behind, rest, s.groups⟩ = some r := by
  rw [inSource_wordAnyCase, run_ones_eq_some_iff]
  simp only [List.forall₂_map_left_iff]

theorem wordAhead_ascii {b : UInt8} (h : isAscii b = true) (rest : List UInt8) :
    wordAhead (b :: rest) = isWordChar (Char.ofNat b.toNat) := by
  rw [wordAhead, firstChar?_ascii h]
  rfl

theorem wordBehind_ascii {b : UInt8} (h : isAscii b = true) (behind : List UInt8) :
    wordBehind (b :: behind) = isWordChar (Char.ofNat b.toNat) := by
  have hlast := lastChar?_append_ascii h [] behind
  rw [List.nil_append, if_pos ⟨Nat.zero_le _, rfl⟩] at hlast
  rw [wordBehind, hlast]
  rfl

/-! ## The word `global` -/

section Letters

variable {word : List Char}

/-- Letters that only ASCII letters are read as. -/
def IsPlain (word : List Char) : Prop :=
  ∀ c ∈ word, c.isLower = true ∧ c ≠ 's' ∧ c ≠ 'k'

theorem isPlain_global : IsPlain "global".toList := by
  have hall : ("global".toList.all fun c => c.isLower && (c != 's' && c != 'k')) = true := by
    decide
  intro c hc
  simpa using List.all_eq_true.1 hall c hc

/-- A glyph that shows a letter is the octet of the letter. -/
theorem exists_octet_of_isLetter {c : Char} {g : Glyph} (hg : g ∈ glyphs source)
    (hc : c.isLower = true ∧ c ≠ 's' ∧ c ≠ 'k') (h : isLetter c g = true) :
    ∃ b, g.bytes = [b] ∧ isAscii b = true ∧ sameLetter c (Char.ofNat b.toNat) = true := by
  obtain ⟨c', hc', hsame⟩ := (Option.any_eq_true _ _).1 h
  rcases glyph_cases hg with ⟨c'', hshown, hbytes⟩ | ⟨b, hnone, -, -⟩
  · rw [hc'] at hshown
    cases hshown
    have halpha := isAlpha_of_sameLetter hc.1 hc.2.1 hc.2.2 hsame
    obtain ⟨b, hb, hchar, hencode⟩ := exists_octet_of_isAlpha halpha
    exact ⟨b, hbytes.trans hencode, hb, hchar ▸ hsame⟩
  · rw [hc'] at hnone
    cases hnone

theorem spells_flat (hword : IsPlain word) {read : List Glyph}
    (hread : ∀ g ∈ read, g ∈ glyphs source)
    (h : List.Forall₂ (fun c g => isLetter c g = true) word read) : Spells word (flat read) := by
  induction h with
  | nil => exact .nil
  | @cons c g word read hletter hrest ih =>
      obtain ⟨b, hbytes, hb, hsame⟩ :=
        exists_octet_of_isLetter (hread g List.mem_cons_self) (hword c List.mem_cons_self) hletter
      rw [flat, List.flatMap_cons, hbytes]
      exact .cons ⟨hb, hsame⟩ (ih (fun c hc => hword c (List.mem_cons_of_mem _ hc))
        fun g hg => hread g (List.mem_cons_of_mem _ hg))

/-- ASCII octets that may stand in words. -/
def IsLetters (octets : List UInt8) : Prop :=
  ∀ b ∈ octets, isAscii b = true ∧ isWordChar (Char.ofNat b.toNat) = true

theorem isLetters_of_spells (hword : IsPlain word) {letters : List UInt8}
    (h : Spells word letters) : IsLetters letters := by
  induction h with
  | nil => exact fun _ hb => absurd hb List.not_mem_nil
  | @cons c b word letters hletter _ ih =>
      intro b' hb'
      rcases List.mem_cons.1 hb' with rfl | hb'
      · obtain ⟨hc, hs, hk⟩ := hword c List.mem_cons_self
        exact ⟨hletter.1, isWordChar_of_isAlpha (isAlpha_of_sameLetter hc hs hk hletter.2)⟩
      · exact ih (fun c hc => hword c (List.mem_cons_of_mem _ hc)) b' hb'

/-- A word goes on where letters stand ahead. -/
theorem wordAhead_of_isLetters {letters : List UInt8} (h : IsLetters letters) (hne : letters ≠ [])
    (rest : List UInt8) : wordAhead (letters ++ rest) = true := by
  cases letters with
  | nil => exact absurd rfl hne
  | cons b letters =>
      obtain ⟨hb, hletter⟩ := h b List.mem_cons_self
      rw [List.cons_append, wordAhead_ascii hb, hletter]

/-- A word comes up to the place behind letters. -/
theorem wordBehind_of_isLetters {letters : List UInt8} (h : IsLetters letters) (hne : letters ≠ [])
    (behind : List UInt8) : wordBehind (letters.reverse ++ behind) = true := by
  rcases List.eq_nil_or_concat' letters with rfl | ⟨init, b, rfl⟩
  · exact absurd rfl hne
  · obtain ⟨hb, hletter⟩ := h b (by simp)
    rw [List.reverse_append, List.reverse_singleton, List.singleton_append, List.cons_append,
      wordBehind_ascii hb, hletter]

end Letters

/-- The word is matched where its letters stand between two edges. -/
theorem matchAt?_globalWord_eq_some_iff {behind ahead : List Glyph} :
    (inSource globalWord).matchAt? behind ahead = some m ↔
      Progress.isEdge ⟨behind, ahead, []⟩ (fun g => g.backward.any isWordChar)
          (fun g => g.char.any isWordChar) = true ∧
        ∃ read rest, ahead = read ++ rest ∧
          List.Forall₂ (fun c g => isLetter c g = true) "global".toList read ∧
          Progress.isEdge ⟨read.reverse ++ behind, rest, []⟩
              (fun g => g.backward.any isWordChar) (fun g => g.char.any isWordChar) = true ∧
            m = ⟨behind.length, (read.reverse ++ behind).length, []⟩ := by
  simp only [matchAt?, globalWord, inSource_seqs, List.map_cons, List.map_nil, run_seqs_cons,
    run_wordEdge_eq_some_iff, run_wordAnyCase_eq_some_iff]
  have hend : ∀ x : Text.Pattern.Match, (some x = some m) ↔ m = x := by
    intro x
    rw [Option.some_inj, eq_comm]
  simp only [seqs, run, hend, Progress.offset]

/-- The letters of the word are six. -/
theorem isLetters_of_spells_global {letters : List UInt8} (h : Spells "global".toList letters) :
    IsLetters letters ∧ letters.length = 6 :=
  ⟨isLetters_of_spells isPlain_global h, (List.Forall₂.length_eq h).symm⟩

/-- Between glyphs, the word is matched where the octets say so. -/
theorem matchAt?_globalWord_iff (h : glyphs source = u ++ v) :
    (inSource globalWord).matchAt? u.reverse v = some m ↔
      IsGlobal (flat u).reverse (flat v) ∧ m = ⟨u.length, u.length + 6, []⟩ := by
  have hplace := isBoundary_of_glyphsFrom h
  rw [matchAt?_globalWord_eq_some_iff, isEdge_iff hplace]
  constructor
  · rintro ⟨hbefore, read, rest, rfl, hread, hafter, rfl⟩
    have hmem : ∀ g ∈ read, g ∈ glyphs source := by
      intro g hg
      rw [h]
      exact List.mem_append_right _ (List.mem_append_left _ hg)
    have hspells := spells_flat isPlain_global hmem hread
    obtain ⟨hletters, hlength⟩ := isLetters_of_spells_global hspells
    have hne : flat read ≠ [] := List.ne_nil_of_length_pos (by omega)
    have hplace' : IsBoundary [] (u ++ read) rest :=
      isBoundary_of_glyphsFrom (h.trans (List.append_assoc _ _ _).symm)
    have hbehind := wordBehind_of_isLetters hletters hne (flat u).reverse
    rw [← List.reverse_append, isEdge_iff hplace', flat_append, List.reverse_append, hbehind] at hafter
    rw [flat_append, wordAhead_of_isLetters hletters hne] at hbefore
    refine ⟨⟨by simpa using hbefore, flat read, flat rest, flat_append _ _, hspells,
      by simpa using hafter⟩, ?_⟩
    have hread : read.length = 6 := (List.Forall₂.length_eq hread).symm
    simp [hread]
    omega
  · rintro ⟨⟨hbehind, letters, rest, hv, hspells, hrest⟩, rfl⟩
    obtain ⟨hletters, hlength⟩ := isLetters_of_spells_global hspells
    have hne : letters ≠ [] := List.ne_nil_of_length_pos (by omega)
    have hahead := hplace.ahead
    rw [hv, glyphsFrom_append_of_isAscii fun b hb => (hletters b hb).1] at hahead
    rw [hv, hbehind, wordAhead_of_isLetters hletters hne]
    refine ⟨rfl, _, _, hahead, ?_, ?_, ?_⟩
    · refine List.forall₂_map_right_iff.2 (hspells.imp fun c b hletter => ?_)
      exact hletter.2
    · rw [hahead, ← List.append_assoc] at h
      have hafter := wordBehind_of_isLetters hletters hne (flat u).reverse
      rw [← List.reverse_append, isEdge_iff (isBoundary_of_glyphsFrom h), flat_glyphsFrom, hrest,
        flat_append, List.reverse_append, flat_asciiGlyphs, hafter]
      rfl
    · simp [hlength]
      omega

/-- No word starts inside another one. -/
theorem isApart_globalWord (source : List UInt8) : (inSource globalWord).IsApart (glyphs source) := by
  intro a u v m m' htext hm hm' hne
  obtain ⟨⟨-, letters, rest, hahead, hspells, -⟩, rfl⟩ := (matchAt?_globalWord_iff htext).1 hm
  have hplace := isBoundary_of_glyphsFrom htext
  rw [← List.append_assoc] at htext
  obtain ⟨⟨hbehind, -⟩, rfl⟩ := (matchAt?_globalWord_iff htext).1 hm'
  obtain ⟨hletters, hlength⟩ := isLetters_of_spells_global hspells
  change a.length + 6 ≤ (a ++ u).length
  rw [List.length_append]
  by_contra hlt
  -- Between the two starts there would be letters of the first word.
  have hu : flat u = letters.take u.length ∧ letters.take u.length ≠ [] := by
    have hglyphs := hplace.ahead
    rw [hahead, glyphsFrom_append_of_isAscii fun b hb => (hletters b hb).1] at hglyphs
    have htake := congrArg (List.take u.length) hglyphs
    rw [List.take_left, List.take_append_of_le_length (by rw [List.length_map]; omega),
      ← List.map_take] at htake
    refine ⟨(congrArg flat htake).trans (flat_asciiGlyphs _), List.ne_nil_of_length_pos ?_⟩
    have hpos := List.length_pos_iff.2 hne
    rw [List.length_take]
    omega
  have hbehind' := wordBehind_of_isLetters (fun b hb => hletters b (List.mem_of_mem_take hb)) hu.2
    (flat a).reverse
  rw [flat_append, List.reverse_append, hu.1, hbehind'] at hbehind
  cases hbehind

/-- The whole words `global` of a source. -/
def globals (source : List UInt8) : List Text.Pattern.Match :=
  (inSource globalWord).findAll (glyphs source)

theorem mem_globals_iff :
    m ∈ globals source ↔ ∃ u v, glyphs source = u ++ v ∧ IsGlobal (flat u).reverse (flat v) ∧
      m = ⟨u.length, u.length + 6, []⟩ := by
  rw [globals, mem_findAll_iff (isApart_globalWord source)]
  constructor
  · rintro ⟨u, v, h, hm⟩
    exact ⟨u, v, h, (matchAt?_globalWord_iff h).1 hm⟩
  · rintro ⟨u, v, h, hm⟩
    exact ⟨u, v, h, (matchAt?_globalWord_iff h).2 hm⟩

/-! ## The header of a trigger -/

/-- The header of a trigger, if the source is one. -/
def header? (source : List UInt8) (isTrigger : Bool) : Option Text.Pattern.Match :=
  if isTrigger then (inSource triggerHeader).find? (glyphs source) else none

/-- What stands in the header behind its first word. -/
def headerBody : List (Text.Pattern Char) :=
  [.blanks1, .plus .wordChar, .blanks1, .wordAnyCase "on", .blanks1, .plus .wordChar, .blanks,
    .char '(', .star (.noneOf ")")]

theorem inSource_triggerHeader :
    inSource triggerHeader = seqs (inSource wordEdge ::
      (inSource (wordAnyCase "trigger") :: headerBody.map inSource ++ [inSource (char ')')])) :=
  rfl

/-- Octets that begin with a letter and end with a parenthesis. -/
def IsHeader (octets : List UInt8) : Prop :=
  ∃ b inner, octets = b :: inner ++ [0x29] ∧ IsLetters [b]

theorem isHeader_flat {read : List Glyph} (hread : ∀ g ∈ read, g ∈ glyphs source)
    (h : Reads (seqs (inSource (wordAnyCase "trigger") :: headerBody.map inSource ++
      [inSource (char ')')])) read) : IsHeader (flat read) := by
  obtain ⟨first, last, rfl, hfirst, hlast⟩ := h.of_seqs_concat
  obtain ⟨word, body, rfl, hword, -⟩ := hfirst.of_seqs_cons
  have hchars : "trigger".toList = 't' :: "rigger".toList := by decide
  rw [inSource_wordAnyCase, hchars, List.map_cons, List.map_cons] at hword
  obtain ⟨letter, word, rfl, hletter, -⟩ := hword.of_seqs_cons
  change Reads (one fun g => g.char.any (· == ')')) last at hlast
  cases hletter with
  | @one _ g hg =>
      cases hlast with
      | @one _ g' hg' =>
          obtain ⟨b, hb, hascii, hsame⟩ := exists_octet_of_isLetter (hread g (by simp))
            ⟨by decide, by decide, by decide⟩ hg
          have halpha := isAlpha_of_sameLetter (c := 't') (by decide) (by decide) (by decide) hsame
          have hbytes : g'.bytes = [0x29] := by
            obtain ⟨c, hc, hparen⟩ := (Option.any_eq_true _ _).1 hg'
            obtain rfl := beq_iff_eq.1 hparen
            rcases glyph_cases (hread g' (by simp)) with ⟨c', hc', hbytes⟩ | ⟨b', hnone, -, -⟩
            · rw [hc] at hc'
              cases hc'
              exact hbytes
            · rw [hc] at hnone
              cases hnone
          refine ⟨b, flat (word ++ body), ?_, ?_⟩
          · simp [flat, hb, hbytes]
          · intro b' hb'
            obtain rfl := List.mem_singleton.1 hb'
            exact ⟨hascii, isWordChar_of_isAlpha halpha⟩

/-- The header stands where a word begins. -/
theorem exists_of_header? {isTrigger : Bool} (h : header? source isTrigger = some m) :
    ∃ u read rest, glyphs source = u ++ (read ++ rest) ∧ m.start = u.length ∧
      m.stop = (u ++ read).length ∧ wordBehind (flat u).reverse = false ∧
        IsHeader (flat read) := by
  unfold header? at h
  split at h
  · obtain ⟨u, v, hglyphs, hm⟩ := occurs_of_findFrom? h
    rw [List.append_nil, matchAt?, inSource_triggerHeader, run_seqs_cons,
      run_wordEdge_eq_some_iff] at hm
    obtain ⟨hedge, hrun⟩ := hm
    obtain ⟨s', read, found, hpasses, hend⟩ := passes_of_run hrun
    cases hend
    have hv : v = read ++ s'.ahead := hpasses.ahead
    have hmem : ∀ g ∈ read, g ∈ glyphs source := by
      intro g hg
      rw [hglyphs, hv]
      exact List.mem_append_right _ (List.mem_append_left _ hg)
    have hheader := isHeader_flat hmem hpasses.reads
    refine ⟨u, read, s'.ahead, by rw [hglyphs, hv], by simp, ?_, ?_, hheader⟩
    · simp only [Progress.offset, hpasses.behind]
      simp
      omega
    · obtain ⟨b, inner, hflat, hletters⟩ := hheader
      have hahead : wordAhead (flat v) = true := by
        rw [hv, flat_append, hflat, List.append_assoc]
        exact wordAhead_of_isLetters hletters (List.cons_ne_nil _ _) _
      rw [isEdge_iff (isBoundary_of_glyphsFrom hglyphs), hahead] at hedge
      simpa using hedge
  · cases h

end SourceIndex.Idiom.Apex
