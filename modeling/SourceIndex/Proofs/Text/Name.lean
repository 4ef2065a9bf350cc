import Mathlib.Data.List.Basic
import SourceIndex.Text.Name
import SourceIndex.Text.Part

/-!
# Parts of texts and qualified names

A text is put together again from the parts that it is split into, and a qualified name from its
scopes.
-/

namespace SourceIndex

/-! ## Parts of a text

The parts into which a word splits a text make up the text again, with the word between them. -/

namespace Text

namespace Chars

theorem eq_append_of_splitFirst? {word text before after : List Char}
    (h : splitFirst? word text = some (before, after)) : text = before ++ word ++ after := by
  induction text generalizing before with
  | nil =>
      rw [splitFirst?] at h
      split at h
      · rename_i hword
        cases h
        rw [List.isEmpty_iff.1 hword]
        rfl
      · cases h
  | cons c rest ih =>
      rw [splitFirst?] at h
      split at h
      · rename_i hstart
        cases h
        exact (List.isPrefixOf?_eq_some_iff_append_eq.1 hstart).symm
      · obtain ⟨⟨before', after'⟩, hrest, heq⟩ := Option.map_eq_some_iff.1 h
        cases heq
        rw [ih hrest]
        rfl

theorem eq_append_of_splitLast? {word text before after : List Char}
    (h : splitLast? word text = some (before, after)) : text = before ++ word ++ after := by
  obtain ⟨⟨after', before'⟩, hsplit, heq⟩ := Option.map_eq_some_iff.1 h
  cases heq
  have hreverse := congrArg List.reverse (eq_append_of_splitFirst? hsplit)
  simpa [List.append_assoc] using hreverse

end Chars

/-- A text is what stands before and after the last copy of a word, around the word. -/
theorem eq_append_of_splitLast? {word text before after : String}
    (h : splitLast? word text = some (before, after)) : text = before ++ word ++ after := by
  obtain ⟨⟨before', after'⟩, hsplit, heq⟩ := Option.map_eq_some_iff.1 h
  cases heq
  refine String.toList_inj.1 ?_
  rw [Chars.eq_append_of_splitLast? hsplit]
  simp

end Text

/-! ## Qualified names

Two scopes qualify a name alike exactly when they have the same text, a missing scope having
none.  A name taken apart at a separator and qualified part by part is the name qualified at once.
-/

namespace Text

theorem qualify_eq (scope : Option String) (name separator : String) :
    qualify scope name separator =
      if scope.getD "" = "" then name else scope.getD "" ++ separator ++ name := by
  cases scope with
  | none => rfl
  | some s => simp [qualify]

/-- What a scope puts before a name does not depend on the name. -/
theorem qualify_eq_append (scope : Option String) (name separator : String) :
    qualify scope name separator = qualify scope "" separator ++ name := by
  rw [qualify_eq, qualify_eq]
  split
  · exact (String.empty_append).symm
  · rw [String.append_empty]

/-- A scope with a text makes a name longer. -/
theorem qualify_ne_of_ne {text name separator : String} (h : text ≠ "") :
    text ++ separator ++ name ≠ name := by
  intro heq
  have hlength := congrArg String.length heq
  simp only [String.length_append] at hlength
  have hpos : text.length ≠ 0 := fun hzero => h (String.length_eq_zero_iff.1 hzero)
  omega

theorem qualify_inj {s t : Option String} (name separator : String) :
    qualify s name separator = qualify t name separator ↔ s.getD "" = t.getD "" := by
  rw [qualify_eq, qualify_eq]
  by_cases hs : s.getD "" = "" <;> by_cases ht : t.getD "" = ""
  · simp [hs, ht]
  · rw [if_pos hs, if_neg ht, hs]
    exact iff_of_false (qualify_ne_of_ne ht).symm (Ne.symm ht)
  · rw [if_neg hs, if_pos ht, ht]
    exact iff_of_false (qualify_ne_of_ne hs) hs
  · rw [if_neg hs, if_neg ht, String.append_assoc, String.append_assoc]
    exact String.append_left_inj _

/-- A name with a text has one as well when it is qualified. -/
theorem qualify_ne_empty {scope : Option String} {name separator : String} (h : name ≠ "") :
    qualify scope name separator ≠ "" := by
  rw [qualify_eq]
  split
  · exact h
  · intro heq
    exact h (String.append_eq_empty_iff.1 heq).2

/-- In one scope, only equal names are qualified alike. -/
theorem qualify_name_inj {scope : Option String} {a b : String} (separator : String) :
    qualify scope a separator = qualify scope b separator ↔ a = b := by
  rw [qualify_eq, qualify_eq]
  split
  · exact Iff.rfl
  · exact String.append_right_inj _

/-- A path qualified and put before a name is the path with the name qualified. -/
theorem qualify_qualify {scope : Option String} {path name separator : String} (h : path ≠ "") :
    qualify (some (qualify scope path separator)) name separator =
      qualify scope (path ++ separator ++ name) separator := by
  rw [qualify_eq, qualify_eq, qualify_eq, Option.getD_some]
  by_cases hscope : scope.getD "" = ""
  · rw [if_pos hscope, if_pos hscope, if_neg h]
  · have hne : scope.getD "" ++ separator ++ path ≠ "" := by
      intro heq
      rw [String.append_eq_empty_iff, String.append_eq_empty_iff] at heq
      exact hscope heq.1.1
    rw [if_neg hscope, if_neg hscope, if_neg hne]
    simp only [String.append_assoc]

theorem length_qualify_le {s t : Option String} (name separator : String)
    (h : (s.getD "").length ≤ (t.getD "").length) :
    (qualify s name separator).length ≤ (qualify t name separator).length := by
  rw [qualify_eq, qualify_eq]
  by_cases hs : s.getD "" = "" <;> by_cases ht : t.getD "" = ""
  · exact Nat.le_of_eq (by rw [if_pos hs, if_pos ht])
  · rw [if_pos hs, if_neg ht]
    simp only [String.length_append]
    omega
  · rw [ht] at h
    exact absurd (String.length_eq_zero_iff.1 (Nat.le_zero.1 h)) hs
  · rw [if_neg hs, if_neg ht]
    simp only [String.length_append]
    omega

theorem length_le_length_qualify (scope : Option String) (name separator : String) :
    (scope.getD "").length ≤ (qualify scope name separator).length := by
  rw [qualify_eq]
  split
  · simp [*]
  · simp only [String.length_append]
    omega

/-- A scope no longer than another one has the text of a name in the other only if all three are
empty. -/
theorem eq_qualify_iff {s t : Option String} {name separator : String} (hseparator : separator ≠ "")
    (h : (s.getD "").length ≤ (t.getD "").length) :
    s.getD "" = qualify t name separator ↔
      qualify t name separator = "" ∧ s.getD "" = t.getD "" := by
  rw [qualify_eq]
  by_cases ht : t.getD "" = ""
  · rw [ht] at h
    rw [if_pos ht, ht, String.length_eq_zero_iff.1 (Nat.le_zero.1 h), eq_comm]
    simp
  · rw [if_neg ht]
    have hlength : separator.length ≠ 0 := fun hzero => hseparator (String.length_eq_zero_iff.1 hzero)
    constructor <;> intro heq
    · have hsame := congrArg String.length heq
      simp only [String.length_append] at hsame
      omega
    · rw [String.append_eq_empty_iff, String.append_eq_empty_iff] at heq
      exact absurd heq.1.1.1 ht

end Text

end SourceIndex
