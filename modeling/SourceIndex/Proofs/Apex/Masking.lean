import Mathlib.Data.List.Induction
import SourceIndex.Proofs.Apex.Hiding

/-!
# Masking keeps positions

The mask of an Apex source has the octets of the source in their places, but for the words `global`,
over which `public` is written, and the header of a trigger, which becomes blank.  So a line or a
slice of the mask is where it is in the source.
-/

namespace SourceIndex.Idiom.Apex

open SourceIndex.Text (isWordChar)
open SourceIndex.Text.Pattern
open SourceIndex.Text.Utf8

variable {source : List UInt8} {isTrigger : Bool} {u v read rest : List Glyph} {g : Glyph}
  {m n : Text.Pattern.Match} {i k r : Nat} {b : UInt8}

/-! ## Octets of matches -/

/-- Number of octets before a glyph. -/
def octetOffset (source : List UInt8) (k : Nat) : Nat :=
  (flat ((glyphs source).take k)).length

/-- Does an octet lie in a match? -/
def Covers (source : List UInt8) (m : Text.Pattern.Match) (i : Nat) : Prop :=
  octetOffset source m.start ≤ i ∧ i < octetOffset source m.stop

theorem flat_glyphs (source : List UInt8) : flat (glyphs source) = source :=
  flat_glyphsFrom [] source

theorem octetOffset_length (h : glyphs source = u ++ v) :
    octetOffset source u.length = (flat u).length := by
  rw [octetOffset, h, List.take_left]

theorem octetOffset_mono (source : List UInt8) {j k : Nat} (h : j ≤ k) :
    octetOffset source j ≤ octetOffset source k := by
  have hsplit : ((glyphs source).take k).take j = (glyphs source).take j := by
    rw [List.take_take, Nat.min_eq_left h]
  rw [octetOffset, octetOffset, ← hsplit]
  conv_rhs => rw [← List.take_append_drop j ((glyphs source).take k), flat_append, List.length_append]
  exact Nat.le_add_right _ _

/-- An octet of a glyph does not come before another glyph exactly if the glyph itself does not. -/
theorem octetOffset_le_iff (h : glyphs source = u ++ g :: v) (hr : r < g.bytes.length) :
    octetOffset source k ≤ (flat u).length + r ↔ k ≤ u.length := by
  constructor
  · intro hle
    by_contra hlt
    have hmono := octetOffset_mono source (j := u.length + 1) (k := k) (by omega)
    have hnext : glyphs source = (u ++ [g]) ++ v := by rw [h, List.append_assoc]; rfl
    have hoffset := octetOffset_length hnext
    rw [List.length_append, List.length_singleton, flat_append, List.length_append] at hoffset
    have hbytes : (flat [g]).length = g.bytes.length := by simp [flat]
    omega
  · intro hle
    have hmono := octetOffset_mono source hle
    rw [octetOffset_length h] at hmono
    omega

theorem covers_iff (h : glyphs source = u ++ g :: v) (hr : r < g.bytes.length) :
    Covers source m ((flat u).length + r) ↔ m.start ≤ u.length ∧ u.length < m.stop := by
  rw [Covers, octetOffset_le_iff h hr, ← Nat.not_le, octetOffset_le_iff h hr, Nat.not_le]

/-- Every octet belongs to a glyph. -/
theorem exists_glyph (h : i < source.length) :
    ∃ u g v r, glyphs source = u ++ g :: v ∧ r < g.bytes.length ∧ i = (flat u).length + r := by
  have hgeneral : ∀ (gs : List Glyph) (i : Nat), i < (flat gs).length →
      ∃ u g v r, gs = u ++ g :: v ∧ r < g.bytes.length ∧ i = (flat u).length + r := by
    intro gs
    induction gs with
    | nil => exact fun i hi => absurd hi (Nat.not_lt_zero i)
    | cons g gs ih =>
        intro i hi
        by_cases hlt : i < g.bytes.length
        · exact ⟨[], g, gs, i, rfl, hlt, (Nat.zero_add i).symm⟩
        · have hcons : (flat (g :: gs)).length = g.bytes.length + (flat gs).length := by
            simp [flat]
          obtain ⟨u, g', v, r, rfl, hr, hi'⟩ := ih (i - g.bytes.length) (by omega)
          refine ⟨g :: u, g', v, r, rfl, hr, ?_⟩
          have hcons' : (flat (g :: u)).length = g.bytes.length + (flat u).length := by
            simp [flat]
          omega
  exact hgeneral _ _ (by rwa [flat_glyphs])

/-! ## Stretches -/

/-- Octets that begin with a letter, where no word comes up to them. -/
structure IsStretch (source : List UInt8) (m : Text.Pattern.Match)
    (before inner rest : List UInt8) : Prop where
  source_eq : source = before ++ (inner ++ rest)
  start : octetOffset source m.start = before.length
  stop : octetOffset source m.stop = before.length + inner.length
  behind : wordBehind before.reverse = false
  letter : ∃ b more, inner = b :: more ∧ isAscii b = true

/-- A word stands with its glyphs in the source. -/
theorem exists_of_mem_globals (h : n ∈ globals source) :
    ∃ u letters v, glyphs source = u ++ (letters.map asciiGlyph ++ v) ∧
      n = ⟨u.length, u.length + 6, []⟩ ∧ IsLetters letters ∧ letters.length = 6 ∧
        IsStretch source n (flat u) letters (flat v) := by
  obtain ⟨u, v, hglyphs, ⟨hbehind, letters, rest, hv, hspells, -⟩, rfl⟩ := mem_globals_iff.1 h
  obtain ⟨hletters, hlength⟩ := isLetters_of_spells_global hspells
  have hahead := (isBoundary_of_glyphsFrom hglyphs).ahead
  rw [hv, glyphsFrom_append_of_isAscii fun b hb => (hletters b hb).1] at hahead
  rw [hahead] at hglyphs
  refine ⟨u, letters, _, hglyphs, rfl, hletters, hlength, ?_, octetOffset_length hglyphs, ?_,
    hbehind, ?_⟩
  · rw [← flat_glyphs source, hglyphs, flat_append, flat_append, flat_asciiGlyphs]
  · have hstop := octetOffset_length (hglyphs.trans (List.append_assoc _ _ _).symm)
    rw [List.length_append, List.length_map, hlength, flat_append, flat_asciiGlyphs,
      List.length_append] at hstop
    exact hstop
  · cases letters with
    | nil => cases hlength
    | cons b more => exact ⟨b, more, rfl, (hletters b List.mem_cons_self).1⟩

theorem exists_stretch_of_header? (h : header? source isTrigger = some m) :
    ∃ before inner rest, IsStretch source m before (inner ++ [0x29]) rest := by
  obtain ⟨u, read, rest, hglyphs, hstart, hstop, hbehind, b, inner, hflat, hletters⟩ :=
    exists_of_header? h
  refine ⟨flat u, b :: inner, flat rest, ?_, ?_, ?_, hbehind, b, inner ++ [0x29], rfl,
    (hletters b List.mem_cons_self).1⟩
  · rw [← hflat, ← flat_append, ← flat_append, ← hglyphs, flat_glyphs]
  · rw [hstart, octetOffset_length hglyphs]
  · rw [hstop, octetOffset_length (hglyphs.trans (List.append_assoc _ _ _).symm), flat_append,
      List.length_append, hflat]

/-! ## The mask octet by octet -/

/-- The octets under the mask, whether or not there is anything to mask. -/
def maskedOctets (source : List UInt8) (isTrigger : Bool) : List UInt8 :=
  (glyphs source).zipIdx.flatMap fun (g, i) =>
    maskGlyph (globals source) (header? source isTrigger) i g

theorem masked_eq (source : List UInt8) (isTrigger : Bool) :
    masked source isTrigger =
      if (globals source).isEmpty && (header? source isTrigger).isNone then none
      else some (maskedOctets source isTrigger) :=
  rfl

/-- A glyph of a word is a letter. -/
theorem exists_letter_of_mem_globals (hn : n ∈ globals source) (h : glyphs source = u ++ g :: v)
    (hstart : n.start ≤ u.length) (hstop : u.length < n.stop) :
    ∃ b, g.bytes = [b] ∧ isAscii b = true ∧ isWordChar (Char.ofNat b.toNat) = true ∧
      u.length - n.start < 6 ∧
        (flat u).length = octetOffset source n.start + (u.length - n.start) := by
  obtain ⟨u', letters, v', hglyphs, rfl, hletters, hlength, -⟩ := exists_of_mem_globals hn
  simp only at hstart hstop ⊢
  have hk : u.length - u'.length < letters.length := by omega
  have hu : u = u' ++ (letters.take (u.length - u'.length)).map asciiGlyph := by
    have htake := congrArg (List.take u.length) (h.symm.trans hglyphs)
    rw [List.take_left, List.take_append, List.take_of_length_le hstart,
      List.take_append_of_le_length (by rw [List.length_map]; omega), ← List.map_take] at htake
    exact htake
  have hg : (glyphs source)[u.length]? = some g := by
    rw [h, List.getElem?_append_right (Nat.le_refl _), Nat.sub_self]
    rfl
  rw [hglyphs, List.getElem?_append_right hstart, List.getElem?_append_left (by simpa using hk),
    List.getElem?_map, List.getElem?_eq_getElem hk] at hg
  cases hg
  obtain ⟨hascii, hword⟩ := hletters _ (List.getElem_mem hk)
  refine ⟨_, rfl, hascii, hword, by omega, ?_⟩
  rw [octetOffset_length hglyphs, hu, flat_append, flat_asciiGlyphs]
  simp only [List.length_append, List.length_map, List.length_take]
  omega

/-- What stands in place of the octets of a glyph, before the header is made blank. -/
def renamed (source : List UInt8) (k : Nat) (g : Glyph) : List UInt8 :=
  match (globals source).find? fun n => n.start ≤ k && k < n.stop with
  | some n => (publicWord.drop (k - n.start)).take 1
  | none => g.bytes

/-- In the header a glyph is made blank, its line feeds apart. -/
theorem maskGlyph_cases (source : List UInt8) (isTrigger : Bool) (k : Nat) (g : Glyph) :
    (∃ m, header? source isTrigger = some m ∧ (m.start ≤ k ∧ k < m.stop) ∧
      maskGlyph (globals source) (header? source isTrigger) k g =
        (renamed source k g).map fun b => if b == lineFeed then b else 0x20) ∨
      (∀ m ∈ header? source isTrigger, ¬ (m.start ≤ k ∧ k < m.stop)) ∧
        maskGlyph (globals source) (header? source isTrigger) k g = renamed source k g := by
  have heq : maskGlyph (globals source) (header? source isTrigger) k g =
      match header? source isTrigger with
      | some m =>
          if m.start ≤ k && k < m.stop then
            (renamed source k g).map fun b => if b == lineFeed then b else 0x20
          else renamed source k g
      | none => renamed source k g := rfl
  rw [heq]
  cases header? source isTrigger with
  | none => exact Or.inr ⟨nofun, rfl⟩
  | some m =>
      by_cases hin : m.start ≤ k ∧ k < m.stop
      · exact Or.inl ⟨m, rfl, hin, if_pos (by simpa using hin)⟩
      · refine Or.inr ⟨fun m' hm' => ?_, if_neg (by simpa using hin)⟩
        cases hm'
        exact hin

/-- A letter of `public` stands in place of a letter of the word; other glyphs stay. -/
theorem renamed_cases (h : glyphs source = u ++ g :: v) :
    (∃ n ∈ globals source, n.start ≤ u.length ∧ u.length < n.stop ∧
      ∃ b b', g.bytes = [b] ∧ isAscii b = true ∧ isWordChar (Char.ofNat b.toNat) = true ∧
        publicWord[u.length - n.start]? = some b' ∧ renamed source u.length g = [b']) ∨
      (∀ n ∈ globals source, ¬ (n.start ≤ u.length ∧ u.length < n.stop)) ∧
        renamed source u.length g = g.bytes := by
  unfold renamed
  split
  · rename_i n hfind
    have hn := List.mem_of_find?_eq_some hfind
    have hin : n.start ≤ u.length ∧ u.length < n.stop := by simpa using List.find?_some hfind
    obtain ⟨b, hb, hascii, hword, hk, -⟩ := exists_letter_of_mem_globals hn h hin.1 hin.2
    have hlength : publicWord.length = 6 := rfl
    have hget : publicWord[u.length - n.start]? = some publicWord[u.length - n.start] :=
      List.getElem?_eq_getElem (hlength ▸ hk)
    refine Or.inl ⟨n, hn, hin.1, hin.2, b, _, hb, hascii, hword, hget, ?_⟩
    rw [List.drop_eq_getElem_cons (hlength ▸ hk), List.take_succ_cons, List.take_zero]
    rfl
  · rename_i hfind
    refine Or.inr ⟨fun n hn hin => ?_, rfl⟩
    have hnot := List.find?_eq_none.1 hfind n hn
    simp [hin.1, hin.2] at hnot

theorem length_maskGlyph (isTrigger : Bool) (h : glyphs source = u ++ g :: v) :
    (maskGlyph (globals source) (header? source isTrigger) u.length g).length = g.bytes.length := by
  have hrenamed : (renamed source u.length g).length = g.bytes.length := by
    rcases renamed_cases h with ⟨n, -, -, -, b, b', hb, -, -, -, heq⟩ | ⟨-, heq⟩
    · rw [heq, hb]
      rfl
    · rw [heq]
  rcases maskGlyph_cases source isTrigger u.length g with ⟨m, -, -, heq⟩ | ⟨-, heq⟩
  · rw [heq, List.length_map, hrenamed]
  · rw [heq, hrenamed]

theorem length_flatMap_maskGlyph (isTrigger : Bool) (h : glyphs source = u ++ v) :
    (u.zipIdx.flatMap fun (g, i) =>
      maskGlyph (globals source) (header? source isTrigger) i g).length = (flat u).length := by
  induction u using List.reverseRecOn generalizing v with
  | nil => rfl
  | append_singleton u g ih =>
      have hglyphs : glyphs source = u ++ g :: v := by rw [h, List.append_assoc]; rfl
      have hbytes : (flat [g]).length = g.bytes.length := by simp [flat]
      rw [List.zipIdx_append, List.flatMap_append, List.length_append, ih hglyphs, flat_append,
        List.length_append, hbytes, ← length_maskGlyph isTrigger hglyphs]
      simp

/-- The mask of a glyph stands in the place of the glyph. -/
theorem getElem?_maskedOctets (h : glyphs source = u ++ g :: v) (hr : r < g.bytes.length) :
    (maskedOctets source isTrigger)[(flat u).length + r]? =
      (maskGlyph (globals source) (header? source isTrigger) u.length g)[r]? := by
  have hbefore := length_flatMap_maskGlyph isTrigger h
  rw [maskedOctets]
  conv_lhs => rw [h, List.zipIdx_append, List.flatMap_append]
  rw [List.getElem?_append_right (by rw [hbefore]; exact Nat.le_add_right _ _), hbefore,
    Nat.add_sub_cancel_left, List.zipIdx_cons, List.flatMap_cons,
    List.getElem?_append_left (by simpa [length_maskGlyph isTrigger h] using hr)]
  simp

theorem length_maskedOctets (source : List UInt8) (isTrigger : Bool) :
    (maskedOctets source isTrigger).length = source.length := by
  have hlength := length_flatMap_maskGlyph isTrigger (List.append_nil (glyphs source)).symm
  rw [flat_glyphs] at hlength
  exact hlength

theorem getElem?_source (h : glyphs source = u ++ g :: v) (hr : r < g.bytes.length) :
    source[(flat u).length + r]? = g.bytes[r]? := by
  conv_lhs => rw [← flat_glyphs source, h, flat_append]
  rw [List.getElem?_append_right (Nat.le_add_right _ _), Nat.add_sub_cancel_left, flat,
    List.flatMap_cons, List.getElem?_append_left hr]

/-- What the mask has in the place of an octet: a blank in the header, a letter of `public` in a
word, and the octet itself elsewhere. -/
inductive Becomes (source : List UInt8) (isTrigger : Bool) (i : Nat) (b : UInt8) : UInt8 → Prop
  | blank (m : Text.Pattern.Match) (header : header? source isTrigger = some m)
      (covers : Covers source m i) :
      Becomes source isTrigger i b (if b == lineFeed then b else 0x20)
  | letter (b' : UInt8) (n : Text.Pattern.Match) (word : n ∈ globals source)
      (covers : Covers source n i) (ascii : isAscii b = true)
      (wordChar : isWordChar (Char.ofNat b.toNat) = true)
      (letter : publicWord[i - octetOffset source n.start]? = some b')
      (noHeader : ∀ m ∈ header? source isTrigger, ¬ Covers source m i) :
      Becomes source isTrigger i b b'
  | same (noWord : ∀ n ∈ globals source, ¬ Covers source n i)
      (noHeader : ∀ m ∈ header? source isTrigger, ¬ Covers source m i) :
      Becomes source isTrigger i b b

/-- The letters of `public` are ASCII, are no line feeds and stand in words. -/
theorem publicWord_letters : ∀ b ∈ publicWord, isAscii b = true ∧ (b == lineFeed) = false ∧
    isWordChar (Char.ofNat b.toNat) = true ∧ sameLetter 'g' (Char.ofNat b.toNat) = false := by
  have hall : (publicWord.all fun b => isAscii b && (!(b == lineFeed) &&
      (isWordChar (Char.ofNat b.toNat) && !sameLetter 'g' (Char.ofNat b.toNat)))) = true := by
    decide
  intro b hb
  simpa using List.all_eq_true.1 hall b hb

theorem isWordChar_lineFeed : isWordChar (Char.ofNat lineFeed.toNat) = false := by
  decide

theorem becomes (isTrigger : Bool) (hb : source[i]? = some b) :
    ∃ b', (maskedOctets source isTrigger)[i]? = some b' ∧ Becomes source isTrigger i b b' := by
  obtain ⟨u, g, v, r, h, hr, rfl⟩ := exists_glyph (List.getElem?_eq_some_iff.1 hb).1
  rw [getElem?_source h hr] at hb
  rw [getElem?_maskedOctets h hr]
  have hcovers : ∀ m, Covers source m ((flat u).length + r) ↔
      m.start ≤ u.length ∧ u.length < m.stop := fun m => covers_iff h hr
  rcases renamed_cases h with
    ⟨n, hn, hstart, hstop, x, b', hbytes, hascii, hword, hget, hrenamed⟩ | ⟨hnone, hrenamed⟩
  · -- A letter of the word, which is one octet.
    rw [hbytes] at hb hr
    obtain rfl : r = 0 := by simpa using hr
    cases hb
    rcases maskGlyph_cases source isTrigger u.length g with ⟨m, hm, hin, heq⟩ | ⟨hout, heq⟩
    · have hfeed : (b == lineFeed) = false := by
        refine beq_false_of_ne fun heq => ?_
        rw [heq, isWordChar_lineFeed] at hword
        cases hword
      have hfeed' := (publicWord_letters b' (List.mem_of_getElem? hget)).2.1
      have hblank := Becomes.blank (b := b) m hm ((hcovers m).2 hin)
      rw [hfeed, if_neg Bool.false_ne_true] at hblank
      refine ⟨0x20, ?_, hblank⟩
      rw [heq, hrenamed, List.map_singleton, hfeed', if_neg Bool.false_ne_true]
      rfl
    · obtain ⟨-, -, -, -, -, hoffset⟩ := exists_letter_of_mem_globals hn h hstart hstop
      have hletter : publicWord[(flat u).length + 0 - octetOffset source n.start]? = some b' := by
        rw [Nat.add_zero, hoffset, Nat.add_sub_cancel_left, hget]
      refine ⟨b', by rw [heq, hrenamed]; rfl, .letter b' n hn ((hcovers n).2 ⟨hstart, hstop⟩)
        hascii hword hletter fun m hm => (hcovers m).not.2 (hout m hm)⟩
  · rcases maskGlyph_cases source isTrigger u.length g with ⟨m, hm, hin, heq⟩ | ⟨hout, heq⟩
    · refine ⟨_, ?_, .blank m hm ((hcovers m).2 hin)⟩
      rw [heq, hrenamed, List.getElem?_map, hb]
      rfl
    · refine ⟨b, by rw [heq, hrenamed, hb], .same (fun n hn => ?_) fun m hm => ?_⟩
      · exact (hcovers n).not.2 (hnone n hn)
      · exact (hcovers m).not.2 (hout m hm)

/-! ## No word is left -/

/-- Does an octet lie in a word or in the header? -/
def IsHidden (source : List UInt8) (isTrigger : Bool) (i : Nat) : Prop :=
  ∃ m, (m ∈ globals source ∨ header? source isTrigger = some m) ∧ Covers source m i

theorem exists_stretch (h : m ∈ globals source ∨ header? source isTrigger = some m) :
    ∃ before inner rest, IsStretch source m before inner rest := by
  rcases h with h | h
  · obtain ⟨u, letters, v, -, -, -, -, hstretch⟩ := exists_of_mem_globals h
    exact ⟨_, _, _, hstretch⟩
  · obtain ⟨before, inner, rest, hstretch⟩ := exists_stretch_of_header? h
    exact ⟨_, _, _, hstretch⟩

theorem IsStretch.lt_length {before inner rest : List UInt8}
    (h : IsStretch source m before inner rest) (hi : Covers source m i) : i < source.length := by
  have hlt := hi.2
  rw [h.stop] at hlt
  rw [h.source_eq, List.length_append, List.length_append]
  omega

/-- The first octet of a stretch is a letter where no word comes up to it. -/
theorem IsStretch.first {before inner rest : List UInt8}
    (h : IsStretch source m before inner rest) (hi : Covers source m i)
    (hfresh : ∀ k, i = k + 1 → ¬ Covers source m k) :
    wordBehind (source.take i).reverse = false ∧ ∃ b, source[i]? = some b ∧ isAscii b = true := by
  obtain ⟨hle, hlt⟩ := hi
  have hlength : i = before.length := by
    by_contra hne
    rw [h.start] at hle
    refine hfresh (i - 1) (by omega) ⟨?_, by omega⟩
    rw [h.start]
    omega
  obtain ⟨b, more, hinner, hascii⟩ := h.letter
  rw [hlength, h.source_eq, hinner]
  refine ⟨by rw [List.take_left]; exact h.behind, b, ?_, hascii⟩
  rw [List.getElem?_append_right (Nat.le_refl _), Nat.sub_self]
  rfl

/-- The last octet of the header is a parenthesis. -/
theorem paren_of_header? (hm : header? source isTrigger = some m) (hi : Covers source m i)
    (hnext : ¬ Covers source m (i + 1)) : source[i]? = some 0x29 := by
  obtain ⟨before, inner, rest, hstretch⟩ := exists_stretch_of_header? hm
  have hlast : i = (before ++ inner).length := by
    have hlt := hi.2
    rw [Covers, not_and, Nat.not_lt] at hnext
    have hge := hnext (Nat.le_succ_of_le hi.1)
    rw [hstretch.stop] at hlt hge
    simp only [List.length_append, List.length_singleton] at hlt hge ⊢
    omega
  rw [hlast, hstretch.source_eq, List.append_assoc, ← List.append_assoc,
    List.getElem?_append_right (Nat.le_refl _), Nat.sub_self]
  rfl

theorem IsHidden.exists_octet (h : IsHidden source isTrigger i) :
    ∃ b b', source[i]? = some b ∧ (maskedOctets source isTrigger)[i]? = some b' ∧
      Becomes source isTrigger i b b' := by
  obtain ⟨m, hm, hi⟩ := h
  obtain ⟨before, inner, rest, hstretch⟩ := exists_stretch hm
  have hb := List.getElem?_eq_getElem (hstretch.lt_length hi)
  obtain ⟨b', hb', hbecomes⟩ := becomes isTrigger hb
  exact ⟨_, b', hb, hb', hbecomes⟩

/-- Where the word is matched it stands, and it is six octets long. -/
theorem isWordAt_of_mem_globals (h : n ∈ globals source) :
    IsWordAt source (octetOffset source n.start) ∧
      octetOffset source n.stop = octetOffset source n.start + 6 := by
  obtain ⟨_, letters, _, -, -, -, hlength, hstretch⟩ := exists_of_mem_globals h
  obtain ⟨u, v, hglyphs, hglobal, rfl⟩ := mem_globals_iff.1 h
  have hstart := octetOffset_length hglyphs
  have hsource : source = flat u ++ flat v := by rw [← flat_append, ← hglyphs, flat_glyphs]
  refine ⟨?_, ?_⟩
  · rw [hstart, IsWordAt, hsource, List.take_left, List.drop_left]
    exact hglobal
  · rw [hstretch.stop, hstretch.start, hlength]

/-- Where the word stands it is matched. -/
theorem exists_mem_globals (h : IsWordAt source k) :
    ∃ n ∈ globals source, octetOffset source n.start = k := by
  obtain ⟨letters, rest, hdrop, hspells, -⟩ := h.word
  obtain ⟨hletters, hlength⟩ := isLetters_of_spells_global hspells
  cases letters with
  | nil => cases hlength
  | cons b more =>
      have hsource : source = source.take k ++ b :: (more ++ rest) := by
        rw [← List.cons_append, ← hdrop, List.take_append_drop]
      obtain ⟨u, v, huv, hu⟩ := exists_boundary_of_isAscii (hletters b List.mem_cons_self).1
        (source.take k) (more ++ rest) []
      rw [← hsource] at huv
      have hv : flat v = source.drop k := by
        have hflat := flat_glyphs source
        rw [glyphs, huv, flat_append, hu] at hflat
        exact List.append_cancel_left (hflat.trans (List.take_append_drop k source).symm)
      have hk : (flat u).length = k := by
        rw [hu, List.length_take_of_le]
        by_contra hlt
        rw [List.drop_eq_nil_of_le (by omega)] at hdrop
        cases hdrop
      rw [IsWordAt, ← hu, ← hv] at h
      exact ⟨_, mem_globals_iff.2 ⟨u, v, huv, h, rfl⟩, (octetOffset_length huv).trans hk⟩

theorem globals_eq_nil_iff : globals source = [] ↔ ∀ k, ¬ IsWordAt source k := by
  constructor
  · intro hnil k hk
    obtain ⟨n, hn, -⟩ := exists_mem_globals hk
    rw [hnil] at hn
    cases hn
  · intro hnone
    exact List.eq_nil_iff_forall_not_mem.2 fun n hn => hnone _ (isWordAt_of_mem_globals hn).1

theorem isHidden_of_isWordAt (h : IsWordAt source i) : IsHidden source isTrigger i := by
  obtain ⟨n, hn, hstart⟩ := exists_mem_globals h
  have hstop := (isWordAt_of_mem_globals hn).2
  exact ⟨n, Or.inl hn, Nat.le_of_eq hstart, by omega⟩

theorem hides (source : List UInt8) (isTrigger : Bool) :
    Hides source (maskedOctets source isTrigger) (IsHidden source isTrigger) where
  length := length_maskedOctets source isTrigger
  same := by
    intro i hi
    cases hb : source[i]? with
    | none =>
        rw [List.getElem?_eq_none_iff, length_maskedOctets]
        exact List.getElem?_eq_none_iff.1 hb
    | some b =>
        obtain ⟨b', hb', hbecomes⟩ := becomes isTrigger hb
        cases hbecomes with
        | blank m hm hcovers => exact absurd ⟨m, Or.inr hm, hcovers⟩ hi
        | letter b' n hn hcovers => exact absurd ⟨n, Or.inl hn, hcovers⟩ hi
        | same => exact hb'
  letter := by
    intro i hi
    obtain ⟨b, b', -, hb', hbecomes⟩ := hi.exists_octet
    refine ⟨b', hb', ?_⟩
    cases hbecomes with
    | blank m hm hcovers =>
        split
        · rename_i hfeed
          rw [beq_iff_eq.1 hfeed]
          decide
        · decide
    | letter b' n hn hcovers hascii hword hletter =>
        obtain ⟨hascii', -, -, hother⟩ := publicWord_letters b' (List.mem_of_getElem? hletter)
        exact ⟨hascii', hother⟩
    | same hnoWord hnoHeader =>
        obtain ⟨m, hm | hm, hcovers⟩ := hi
        · exact absurd hcovers (hnoWord m hm)
        · exact absurd hcovers (hnoHeader m hm)
  start := by
    rintro i ⟨m, hm, hcovers⟩ hfresh
    obtain ⟨before, inner, rest, hstretch⟩ := exists_stretch hm
    exact hstretch.first hcovers fun k hk hin => hfresh k hk ⟨m, hm, hin⟩
  stop := by
    intro i hi hnext
    obtain ⟨b, b', hb, hb', hbecomes⟩ := hi.exists_octet
    refine ⟨b, b', hb, hb', ?_⟩
    cases hbecomes with
    | blank m hm hcovers =>
        have hparen := paren_of_header? hm hcovers fun hin => hnext ⟨m, Or.inr hm, hin⟩
        rw [hparen] at hb
        cases hb
        decide
    | letter b' n hn hcovers hascii hword hletter =>
        obtain ⟨hascii', -, hword', -⟩ := publicWord_letters b' (List.mem_of_getElem? hletter)
        exact ⟨hascii, hascii', hword.trans hword'.symm⟩
    | same hnoWord hnoHeader =>
        obtain ⟨m, hm | hm, hcovers⟩ := hi
        · exact absurd hcovers (hnoWord m hm)
        · exact absurd hcovers (hnoHeader m hm)
  word := fun _ hi => isHidden_of_isWordAt hi

/-! ## Writing in place -/

/-- A text with some octets in place of those of a range, if the range lies in the text and is as
long as they are. -/
def overwrite? (octets text : List UInt8) (first last : Nat) : Option (List UInt8) :=
  if first ≤ last ∧ last ≤ text.length ∧ octets.length = last - first then
    some (text.take first ++ (octets ++ text.drop last))
  else
    none

/-- A text with blanks in place of all octets of a range but the line feeds, if the range lies in
the text. -/
def blankOut? (text : List UInt8) (first last : Nat) : Option (List UInt8) :=
  if first ≤ last ∧ last ≤ text.length then
    some (text.mapIdx fun i b => if first ≤ i ∧ i < last ∧ b ≠ lineFeed then 0x20 else b)
  else
    none

/-- The source with `public` written over its words one after another. -/
def rename? (source : List UInt8) : Option (List UInt8) :=
  (globals source).foldlM
    (fun text n => overwrite? publicWord text (octetOffset source n.start) (octetOffset source n.stop))
    source

/-- The source rewritten in place, which fails if a range is not as long as what is written. -/
def rewrite? (source : List UInt8) (isTrigger : Bool) : Option (Option (List UInt8)) :=
  if (globals source).isEmpty && (header? source isTrigger).isNone then
    some none
  else do
    let text ← rename? source
    match header? source isTrigger with
    | some m =>
        (blankOut? text (octetOffset source m.start) (octetOffset source m.stop)).map some
    | none => some (some text)

/-- In a word the source has a letter, and `public` has one for it. -/
theorem exists_letters_of_covers (hn : n ∈ globals source) (hi : Covers source n i) :
    (∃ b, source[i]? = some b ∧ (b == lineFeed) = false) ∧
      ∃ b', publicWord[i - octetOffset source n.start]? = some b' ∧ (b' == lineFeed) = false := by
  obtain ⟨u, letters, v, -, -, hletters, hlength, hstretch⟩ := exists_of_mem_globals hn
  rw [Covers, hstretch.start, hstretch.stop] at hi
  rw [hstretch.start]
  have hk : i - (flat u).length < letters.length := by omega
  have hsix : publicWord.length = 6 := rfl
  constructor
  · refine ⟨letters[i - (flat u).length], ?_, beq_false_of_ne fun heq => ?_⟩
    · rw [hstretch.source_eq, List.getElem?_append_right hi.1, List.getElem?_append_left hk,
        List.getElem?_eq_getElem hk]
    · have hword := (hletters _ (List.getElem_mem hk)).2
      rw [heq, isWordChar_lineFeed] at hword
      cases hword
  · have hk' : i - (flat u).length < publicWord.length := by omega
    exact ⟨_, List.getElem?_eq_getElem hk', (publicWord_letters _ (List.getElem_mem hk')).2.1⟩

/-- No two words share an octet. -/
theorem octetOffset_start_le {n n' : Text.Pattern.Match} (hn : n ∈ globals source)
    (hn' : n' ∈ globals source) (hi : Covers source n i) (hi' : Covers source n' i) :
    octetOffset source n'.start ≤ octetOffset source n.start := by
  obtain ⟨u, letters, v, -, -, hletters, -, hstretch⟩ := exists_of_mem_globals hn
  obtain ⟨u', letters', v', -, -, -, -, hstretch'⟩ := exists_of_mem_globals hn'
  rw [Covers, hstretch.start, hstretch.stop] at hi
  rw [Covers, hstretch'.start, hstretch'.stop] at hi'
  rw [hstretch.start, hstretch'.start]
  by_contra hlt
  -- Letters of the first word would stand before the second.
  have hbefore : flat u' = flat u ++ letters.take ((flat u').length - (flat u).length) := by
    have htake := congrArg (List.take (flat u').length)
      (hstretch'.source_eq.symm.trans hstretch.source_eq)
    rw [List.take_left, List.take_append, List.take_of_length_le (by omega),
      List.take_append_of_le_length (by omega)] at htake
    exact htake
  have hne : letters.take ((flat u').length - (flat u).length) ≠ [] := by
    refine List.ne_nil_of_length_pos ?_
    rw [List.length_take]
    omega
  have hbehind := hstretch'.behind
  rw [hbefore, List.reverse_append,
    wordBehind_of_isLetters (fun b hb => hletters b (List.mem_of_mem_take hb)) hne] at hbehind
  cases hbehind

theorem getElem?_overwrite? {octets text text' : List UInt8} {first last : Nat}
    (h : overwrite? octets text first last = some text') :
    text'.length = text.length ∧ ∀ i,
      text'[i]? = if first ≤ i ∧ i < last then octets[i - first]? else text[i]? := by
  unfold overwrite? at h
  split at h
  · rename_i hrange
    cases h
    refine ⟨by simp; omega, fun i => ?_⟩
    have htake : (text.take first).length = first := by
      rw [List.length_take]
      omega
    split
    · rename_i hin
      rw [List.getElem?_append_right (by omega), htake, List.getElem?_append_left (by omega)]
    · rename_i hout
      by_cases hlt : i < first
      · rw [List.getElem?_append_left (by omega), List.getElem?_take_of_lt hlt]
      · rw [List.getElem?_append_right (by omega), htake, List.getElem?_append_right (by omega),
          List.getElem?_drop]
        congr 1
        omega
  · cases h

/-- Writing over words succeeds, and changes nothing elsewhere. -/
theorem exists_foldlM_overwrite? {ns : List Text.Pattern.Match} (hns : ∀ n ∈ ns, n ∈ globals source)
    (text : List UInt8) (htext : text.length = source.length) :
    ∃ text', ns.foldlM (fun text n => overwrite? publicWord text (octetOffset source n.start)
        (octetOffset source n.stop)) text = some text' ∧ text'.length = source.length ∧
      ∀ i, (∃ n ∈ ns, Covers source n i ∧
          text'[i]? = publicWord[i - octetOffset source n.start]?) ∨
        (∀ n ∈ ns, ¬ Covers source n i) ∧ text'[i]? = text[i]? := by
  induction ns generalizing text with
  | nil => exact ⟨text, rfl, htext, fun i => Or.inr ⟨fun _ hn => absurd hn List.not_mem_nil, rfl⟩⟩
  | cons n ns ih =>
      obtain ⟨u, letters, v, -, -, -, hlength, hstretch⟩ :=
        exists_of_mem_globals (hns n List.mem_cons_self)
      have hwrite : ∃ written, overwrite? publicWord text (octetOffset source n.start)
          (octetOffset source n.stop) = some written := by
        have hsize := congrArg List.length hstretch.source_eq
        have hpublic : publicWord.length = 6 := rfl
        simp only [List.length_append] at hsize
        refine ⟨_, if_pos ?_⟩
        rw [hstretch.start, hstretch.stop]
        omega
      obtain ⟨written, hwrite⟩ := hwrite
      obtain ⟨hsame, hget⟩ := getElem?_overwrite? hwrite
      obtain ⟨text', hfold, hlength', hcases⟩ :=
        ih (fun n hn => hns n (List.mem_cons_of_mem _ hn)) written (hsame.trans htext)
      refine ⟨text', ?_, hlength', fun i => ?_⟩
      · rw [List.foldlM_cons, hwrite]
        exact hfold
      · rcases hcases i with ⟨n', hn', hcovers, heq⟩ | ⟨hnone, heq⟩
        · exact Or.inl ⟨n', List.mem_cons_of_mem _ hn', hcovers, heq⟩
        · rw [hget i] at heq
          split at heq
          · rename_i hin
            exact Or.inl ⟨n, List.mem_cons_self, hin, heq⟩
          · rename_i hout
            refine Or.inr ⟨fun n' hn' => ?_, heq⟩
            rcases List.mem_cons.1 hn' with rfl | hn'
            · exact hout
            · exact hnone n' hn'

theorem getElem?_blankOut? {text text' : List UInt8} {first last : Nat}
    (h : blankOut? text first last = some text') :
    text'.length = text.length ∧ ∀ i, text'[i]? = text[i]?.map fun b =>
      if first ≤ i ∧ i < last ∧ b ≠ lineFeed then 0x20 else b := by
  unfold blankOut? at h
  split at h
  · cases h
    exact ⟨by simp, fun i => by simp⟩
  · cases h

/-- A text of the octets that those of the source become is the mask. -/
theorem eq_maskedOctets {text : List UInt8} (hlength : text.length = source.length)
    (h : ∀ i b b', source[i]? = some b → Becomes source isTrigger i b b' → text[i]? = some b') :
    text = maskedOctets source isTrigger := by
  refine List.ext_getElem? fun i => ?_
  cases hb : source[i]? with
  | none =>
      have hle := List.getElem?_eq_none_iff.1 hb
      rw [List.getElem?_eq_none_iff.2 (hlength.trans_le hle),
        List.getElem?_eq_none_iff.2 ((length_maskedOctets source isTrigger).trans_le hle)]
  | some b =>
      obtain ⟨b', hb', hbecomes⟩ := becomes isTrigger hb
      rw [hb', h i b b' hb hbecomes]

/-- Outside the header the words are renamed as in the mask, and in it they become letters. -/
theorem exists_rename? (source : List UInt8) (isTrigger : Bool) :
    ∃ text, rename? source = some text ∧ text.length = source.length ∧
      ∀ i b b', source[i]? = some b → Becomes source isTrigger i b b' →
        ((∃ m ∈ header? source isTrigger, Covers source m i) ∧ ∃ x, text[i]? = some x ∧
          (if x == lineFeed then x else 0x20) = b') ∨
        (∀ m ∈ header? source isTrigger, ¬ Covers source m i) ∧ text[i]? = some b' := by
  obtain ⟨text, hfold, hlength, hcases⟩ :=
    exists_foldlM_overwrite? (fun _ hn => hn : ∀ n ∈ globals source, n ∈ globals source) source rfl
  refine ⟨text, hfold, hlength, fun i b b' hb hbecomes => ?_⟩
  cases hbecomes with
  | blank m hheader hcovers =>
      refine Or.inl ⟨⟨m, hheader, hcovers⟩, ?_⟩
      rcases hcases i with ⟨n, hn, hin, heq⟩ | ⟨-, heq⟩
      · obtain ⟨⟨x, hx, hfeed⟩, x', hx', hfeed'⟩ := exists_letters_of_covers hn hin
        cases hb.symm.trans hx
        refine ⟨x', heq.trans hx', ?_⟩
        rw [hfeed, hfeed', if_neg Bool.false_ne_true, if_neg Bool.false_ne_true]
      · exact ⟨b, heq.trans hb, rfl⟩
  | letter b' n hn hcovers hascii hword hletter hnoHeader =>
      refine Or.inr ⟨hnoHeader, ?_⟩
      rcases hcases i with ⟨n', hn', hin, heq⟩ | ⟨hnone, -⟩
      · have hle := octetOffset_start_le hn hn' hcovers hin
        have hge := octetOffset_start_le hn' hn hin hcovers
        rw [heq, Nat.le_antisymm hle hge, hletter]
      · exact absurd hcovers (hnone n hn)
  | same hnoWord hnoHeader =>
      refine Or.inr ⟨hnoHeader, ?_⟩
      rcases hcases i with ⟨n, hn, hin, -⟩ | ⟨-, heq⟩
      · exact absurd hin (hnoWord n hn)
      · exact heq.trans hb

/-- Written in place, the source becomes its mask. -/
theorem rewrite?_eq (source : List UInt8) (isTrigger : Bool) :
    rewrite? source isTrigger = some (masked source isTrigger) := by
  rw [rewrite?, masked_eq]
  split
  · rfl
  obtain ⟨text, hrename, hlength, hget⟩ := exists_rename? source isTrigger
  rw [hrename]
  cases hheader : header? source isTrigger with
  | none =>
      refine congrArg (fun text => some (some text)) (eq_maskedOctets hlength ?_)
      intro i b b' hb hbecomes
      rcases hget i b b' hb hbecomes with ⟨⟨m, hm, -⟩, -⟩ | ⟨-, heq⟩
      · cases hheader.symm.trans hm
      · exact heq
  | some m =>
      obtain ⟨before, inner, rest, hstretch⟩ := exists_stretch_of_header? hheader
      have hrange : octetOffset source m.start ≤ octetOffset source m.stop ∧
          octetOffset source m.stop ≤ text.length := by
        have hsize := congrArg List.length hstretch.source_eq
        simp only [List.length_append] at hsize
        rw [hstretch.start, hstretch.stop, hlength, hsize, List.length_append]
        omega
      obtain ⟨blank, hblank⟩ : ∃ blank, blankOut? text (octetOffset source m.start)
          (octetOffset source m.stop) = some blank := ⟨_, if_pos hrange⟩
      obtain ⟨hsame, hblankGet⟩ := getElem?_blankOut? hblank
      have heq : blank = maskedOctets source isTrigger := by
        refine eq_maskedOctets (hsame.trans hlength) fun i b b' hb hbecomes => ?_
        rw [hblankGet i]
        rcases hget i b b' hb hbecomes with ⟨⟨m', hm', hin⟩, x, hx, rfl⟩ | ⟨hout, hx⟩
        · cases hheader.symm.trans hm'
          have hbounds : octetOffset source m.start ≤ i ∧ i < octetOffset source m.stop := hin
          rw [hx]
          by_cases hfeed : x = lineFeed <;> simp [hbounds, hfeed]
        · have hbounds : ¬ (octetOffset source m.start ≤ i ∧ i < octetOffset source m.stop) :=
            hout m hheader
          rw [hx, Option.map_some, if_neg fun h => hbounds ⟨h.1, h.2.1⟩]
      change (blankOut? text _ _).map some = _
      rw [hblank, heq]
      rfl

/-! ## Positions -/

/-- A mask of a source: the words and the header are overwritten, everything stays in its place, and
no word is left. -/
structure IsMask (source : List UInt8) (isTrigger : Bool) (mask : List UInt8) : Prop where
  length : mask.length = source.length
  feed : ∀ i : Nat, mask[i]? = some lineFeed ↔ source[i]? = some lineFeed
  outside : ∀ i : Nat, (∀ k, IsWordAt source k → ¬ (k ≤ i ∧ i < k + 6)) →
    (∀ m ∈ header? source isTrigger, ¬ Covers source m i) → mask[i]? = source[i]?
  header : ∀ m ∈ header? source isTrigger, ∀ i : Nat, Covers source m i →
    mask[i]? ≠ some lineFeed → mask[i]? = some 0x20
  noWord : ∀ k, ¬ IsWordAt mask k
  line : ∀ i : Nat, (mask.take i).count lineFeed = (source.take i).count lineFeed

theorem lineFeed_iff_of_becomes {b' : UInt8} (h : Becomes source isTrigger i b b') :
    b' = lineFeed ↔ b = lineFeed := by
  cases h with
  | blank m hm hcovers =>
      split
      · exact Iff.rfl
      · rename_i hfeed
        exact iff_of_false (by decide) fun heq => hfeed (beq_iff_eq.2 heq)
  | letter b' n hn hcovers hascii hword hletter =>
      have hfeed := (publicWord_letters b' (List.mem_of_getElem? hletter)).2.1
      refine iff_of_false (ne_of_beq_false hfeed) fun heq => ?_
      rw [heq, isWordChar_lineFeed] at hword
      cases hword
  | same => exact Iff.rfl

theorem lineFeed_maskedOctets_iff (source : List UInt8) (isTrigger : Bool) (i : Nat) :
    (maskedOctets source isTrigger)[i]? = some lineFeed ↔ source[i]? = some lineFeed := by
  cases hb : source[i]? with
  | none =>
      have hle := List.getElem?_eq_none_iff.1 hb
      rw [List.getElem?_eq_none_iff.2 ((length_maskedOctets source isTrigger).trans_le hle)]
  | some b =>
      obtain ⟨b', hb', hbecomes⟩ := becomes isTrigger hb
      rw [hb', Option.some_inj, Option.some_inj]
      exact lineFeed_iff_of_becomes hbecomes

/-- Texts with their line feeds in the same places have the same lines. -/
theorem count_take_eq {text text' : List UInt8} {c : UInt8}
    (h : ∀ i : Nat, text'[i]? = some c ↔ text[i]? = some c) (i : Nat) :
    (text'.take i).count c = (text.take i).count c := by
  have hcount : ∀ o o' : Option UInt8, (o' = some c ↔ o = some c) →
      o'.toList.count c = o.toList.count c := by
    intro o o' hiff
    cases o <;> cases o' <;> simp_all [List.count_singleton]
  induction i with
  | zero => rfl
  | succ i ih =>
      rw [List.take_add_one, List.take_add_one, List.count_append, List.count_append, ih,
        hcount _ _ (h i)]

theorem isMask_maskedOctets (source : List UInt8) (isTrigger : Bool) :
    IsMask source isTrigger (maskedOctets source isTrigger) where
  length := length_maskedOctets source isTrigger
  feed := lineFeed_maskedOctets_iff source isTrigger
  outside := by
    intro i hnoWord hnoHeader
    refine (hides source isTrigger).same i ?_
    rintro ⟨m, hm | hm, hcovers⟩
    · obtain ⟨hword, hstop⟩ := isWordAt_of_mem_globals hm
      exact hnoWord _ hword ⟨hcovers.1, hstop ▸ hcovers.2⟩
    · exact hnoHeader m hm hcovers
  header := by
    intro m hm i hcovers hfeed
    obtain ⟨b, b', -, hb', hbecomes⟩ := IsHidden.exists_octet ⟨m, Or.inr hm, hcovers⟩
    rw [hb'] at hfeed ⊢
    cases hbecomes with
    | blank m' hm' hcovers' =>
        split
        · rename_i heq
          rw [beq_iff_eq.1 heq] at hfeed
          exact absurd rfl hfeed
        · rfl
    | letter b' n hn hcovers' hascii hword hletter hnoHeader => exact absurd hcovers (hnoHeader m hm)
    | same hnoWord hnoHeader => exact absurd hcovers (hnoHeader m hm)
  noWord := (hides source isTrigger).not_isWordAt
  line := count_take_eq (lineFeed_maskedOctets_iff source isTrigger)

/-- Rewriting a source in place never fails.  It gives the mask, which keeps all positions, or finds
that there is nothing to mask. -/
theorem rewrite?_keeps_positions (source : List UInt8) (isTrigger : Bool) :
    rewrite? source isTrigger = some (masked source isTrigger) ∧
      match masked source isTrigger with
      | some mask => IsMask source isTrigger mask
      | none => (∀ k, ¬ IsWordAt source k) ∧ header? source isTrigger = none := by
  refine ⟨rewrite?_eq source isTrigger, ?_⟩
  rw [masked_eq]
  split
  · rename_i mask hmask
    split at hmask
    · cases hmask
    · cases hmask
      exact isMask_maskedOctets source isTrigger
  · rename_i hnone
    split at hnone
    · rename_i hempty
      rw [Bool.and_eq_true, List.isEmpty_iff, Option.isNone_iff_eq_none] at hempty
      exact ⟨globals_eq_nil_iff.1 hempty.1, hempty.2⟩
    · cases hnone

/-- A trigger that holds the word. -/
def wordInTrigger : List UInt8 :=
  encode "trigger T on A (\n  a) Global".toList

/-- The header becomes blank up to its line feed, and `public` is written over the word. -/
theorem wordInTrigger_keeps_positions :
    rewrite? wordInTrigger true =
        some (some (encode "                \n     public".toList)) ∧
      IsMask wordInTrigger true (encode "                \n     public".toList) := by
  have hmasked : masked wordInTrigger true =
      some (encode "                \n     public".toList) := by decide +kernel
  obtain ⟨hrewrite, hmask⟩ := rewrite?_keeps_positions wordInTrigger true
  rw [hmasked] at hrewrite hmask
  exact ⟨hrewrite, hmask⟩

end SourceIndex.Idiom.Apex
