import SourceIndex.Proofs.Apex.Words

/-!
# Hiding words

What it takes to hide all whole words `global` of a source by overwriting octets: those that are
overwritten form stretches that begin where a word begins, at whose ends a word goes on or not as
before, and which take in every such word.
-/

namespace SourceIndex.Idiom.Apex

open SourceIndex.Text (isWordChar)
open SourceIndex.Text.Pattern (sameLetter)
open SourceIndex.Text.Utf8

/-- A target that differs from a source in some octets only. -/
structure Hides (source target : List UInt8) (hidden : Nat → Prop) : Prop where
  length : target.length = source.length
  same : ∀ i, ¬ hidden i → target[i]? = source[i]?
  /-- No overwritten octet is the first letter of the word. -/
  letter : ∀ i, hidden i → ∃ b, target[i]? = some b ∧ isAscii b = true ∧
    sameLetter 'g' (Char.ofNat b.toNat) = false
  /-- A stretch begins with a letter where no word comes up to it. -/
  start : ∀ i, hidden i → (∀ k, i = k + 1 → ¬ hidden k) →
    wordBehind (source.take i).reverse = false ∧ ∃ b, source[i]? = some b ∧ isAscii b = true
  /-- At the end of a stretch a word comes up to it in the target exactly if one does so in the
  source. -/
  stop : ∀ i, hidden i → ¬ hidden (i + 1) → ∃ b b', source[i]? = some b ∧ target[i]? = some b' ∧
    isAscii b = true ∧ isAscii b' = true ∧
      isWordChar (Char.ofNat b.toNat) = isWordChar (Char.ofNat b'.toNat)
  word : ∀ i, IsWordAt source i → hidden i

namespace Hides

variable {source target : List UInt8} {hidden : Nat → Prop} {i : Nat} {b b' : UInt8}

theorem wordBehind_append_ascii (hb : isAscii b = true) (hb' : isAscii b' = true)
    (h : isWordChar (Char.ofNat b.toNat) = isWordChar (Char.ofNat b'.toNat))
    (octets rest rest' : List UInt8) :
    wordBehind (octets ++ b :: rest) = wordBehind (octets ++ b' :: rest') := by
  rw [wordBehind, wordBehind, lastChar?_append_ascii hb, lastChar?_append_ascii hb']
  split
  · simpa using h
  · rfl

/-- In front of an octet that stays, a word comes up in the target exactly if one does so in the
source. -/
theorem wordBehind_eq (h : Hides source target hidden) (hi : ¬ hidden i) (near : List UInt8) :
    wordBehind (near ++ (target.take i).reverse) = wordBehind (near ++ (source.take i).reverse) := by
  induction i generalizing near with
  | zero => rfl
  | succ i ih =>
      by_cases hhidden : hidden i
      · obtain ⟨b, b', hb, hb', hascii, hascii', hword⟩ := h.stop i hhidden hi
        rw [List.take_add_one, List.take_add_one, hb, hb']
        simpa using wordBehind_append_ascii hascii' hascii hword.symm near _ _
      · have hsame := h.same i hhidden
        rw [List.take_add_one, List.take_add_one, hsame]
        cases hb : source[i]? with
        | none => simpa using ih hhidden near
        | some b => simpa using ih hhidden (near ++ [b])

theorem drop_of_getElem? {octets : List UInt8} (h : octets[i]? = some b) :
    octets.drop i = b :: octets.drop (i + 1) := by
  obtain ⟨hlt, rfl⟩ := List.getElem?_eq_some_iff.1 h
  exact List.drop_eq_getElem_cons hlt

/-- The character ahead that begins at or before an octet that stays is the same. -/
theorem firstChar?_eq (h : Hides source target hidden) (hi : ¬ hidden i) {near : List UInt8}
    (hne : near ≠ []) :
    firstChar? (near ++ target.drop (i + 1)) = firstChar? (near ++ source.drop (i + 1)) := by
  induction hleft : source.length - i generalizing i near with
  | zero =>
      have htarget := h.length
      rw [List.drop_eq_nil_of_le (by omega), List.drop_eq_nil_of_le (by omega)]
  | succ left ih =>
      by_cases hhidden : hidden (i + 1)
      · have hfresh : ∀ k, i + 1 = k + 1 → ¬ hidden k := fun k hk => Nat.succ.inj hk ▸ hi
        obtain ⟨-, b, hb, hascii⟩ := h.start (i + 1) hhidden hfresh
        obtain ⟨b', hb', hascii', -⟩ := h.letter (i + 1) hhidden
        rw [drop_of_getElem? hb, drop_of_getElem? hb', firstChar?_append_ascii hascii hne,
          firstChar?_append_ascii hascii' hne]
      · have hsame := h.same (i + 1) hhidden
        cases hb : source[i + 1]? with
        | none =>
            have htarget := h.length
            have hle := List.getElem?_eq_none_iff.1 hb
            rw [List.drop_eq_nil_of_le (by omega), List.drop_eq_nil_of_le (by omega)]
        | some b =>
            rw [hb] at hsame
            have hrest := ih hhidden (List.append_ne_nil_of_right_ne_nil near (List.cons_ne_nil b []))
              (by omega)
            rw [drop_of_getElem? hb, drop_of_getElem? hsame]
            simpa using hrest

/-- Letters of the word in the target stay, and so does the octet behind them. -/
theorem not_hidden_of_spells (h : Hides source target hidden) {before letters rest : List UInt8}
    (htarget : target = before ++ (letters ++ rest)) (hspells : Spells "global".toList letters) :
    ∀ k ≤ letters.length, ¬ hidden (before.length + k) := by
  obtain ⟨hletters, hlength⟩ := isLetters_of_spells_global hspells
  have hget : ∀ k < letters.length, target[before.length + k]? = letters[k]? := by
    intro k hk
    rw [htarget, List.getElem?_append_right (Nat.le_add_right _ _), Nat.add_sub_cancel_left,
      List.getElem?_append_left hk]
  intro k hk
  induction k with
  | zero =>
      intro hhidden
      obtain ⟨b, hb, -, hother⟩ := h.letter _ hhidden
      rw [hget 0 (by omega)] at hb
      have hchars : "global".toList = 'g' :: "lobal".toList := by decide
      rw [hchars] at hspells
      cases hspells with
      | cons hfirst _ =>
          cases hb
          rw [hfirst.2] at hother
          cases hother
  | succ k ih =>
      -- A stretch does not begin behind a letter.
      intro hhidden
      have hstays := ih (Nat.le_of_succ_le hk)
      have hfresh : ∀ j, before.length + (k + 1) = j + 1 → ¬ hidden j := by
        intro j hj
        have hj' : j = before.length + k := by omega
        exact hj' ▸ hstays
      have hsource : source[before.length + k]? = some letters[k] := by
        rw [← h.same _ hstays, hget k hk, List.getElem?_eq_getElem hk]
      have hbehind := (h.start _ hhidden hfresh).1
      rw [← Nat.add_assoc, List.take_add_one, hsource] at hbehind
      obtain ⟨hascii, hword⟩ := hletters _ (List.getElem_mem hk)
      simp [wordBehind_ascii hascii, hword] at hbehind

/-- A whole word in the target is one in the source. -/
theorem isWordAt_of_target (h : Hides source target hidden) {before letters rest : List UInt8}
    (htarget : target = before ++ (letters ++ rest)) (hbehind : wordBehind before.reverse = false)
    (hspells : Spells "global".toList letters) (hrest : wordAhead rest = false) :
    IsWordAt source before.length := by
  have hstays := h.not_hidden_of_spells htarget hspells
  have hdrop : target.drop before.length = letters ++ rest := by
    rw [htarget, List.drop_left]
  have hdrop' : target.drop (before.length + letters.length) = rest := by
    rw [← List.drop_drop, hdrop, List.drop_left]
  refine ⟨?_, letters, source.drop (before.length + letters.length), ?_, hspells, ?_⟩
  · have heq := h.wordBehind_eq (hstays 0 (Nat.zero_le _)) []
    rw [Nat.add_zero, List.nil_append, List.nil_append, htarget, List.take_left] at heq
    rw [← heq, hbehind]
  · refine List.ext_getElem? fun k => ?_
    rw [List.getElem?_drop]
    by_cases hk : k < letters.length
    · rw [List.getElem?_append_left hk, ← h.same _ (hstays k (Nat.le_of_lt hk)),
        ← List.getElem?_drop, hdrop, List.getElem?_append_left hk]
    · have hsum : before.length + letters.length + (k - letters.length) = before.length + k := by
        omega
      rw [List.getElem?_append_right (by omega), List.getElem?_drop, hsum]
  · have hi := hstays _ (Nat.le_refl _)
    have hsame := h.same _ hi
    rw [← hdrop'] at hrest
    cases hb : source[before.length + letters.length]? with
    | none =>
        rw [List.drop_eq_nil_of_le (List.getElem?_eq_none_iff.1 hb)]
        rfl
    | some b =>
        rw [hb] at hsame
        rw [drop_of_getElem? hsame] at hrest
        rw [drop_of_getElem? hb, ← hrest, wordAhead, wordAhead]
        have heq := h.firstChar?_eq hi (List.cons_ne_nil b [])
        rw [List.singleton_append, List.singleton_append] at heq
        rw [heq]

/-- No whole word is left. -/
theorem not_isWordAt (h : Hides source target hidden) (k : Nat) : ¬IsWordAt target k := by
  rintro ⟨hbehind, letters, rest, hdrop, hspells, hrest⟩
  have htarget : target = target.take k ++ (letters ++ rest) := by
    rw [← hdrop, List.take_append_drop]
  have hword := h.word _ (h.isWordAt_of_target htarget hbehind hspells hrest)
  exact h.not_hidden_of_spells htarget hspells 0 (Nat.zero_le _) hword

end Hides

end SourceIndex.Idiom.Apex
