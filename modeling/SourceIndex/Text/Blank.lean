/-!
# Blanks, lines and words

The blank characters are those with the property `White_Space`. A line ends at a line feed, and
one carriage return before the line feed belongs to the end.
-/

namespace SourceIndex.Text

/-- The characters with the property `White_Space`. -/
def isBlank (c : Char) : Bool :=
  let n := c.toNat
  (0x09 ≤ n && n ≤ 0x0D) || n == 0x20 || n == 0x85 || n == 0xA0 || n == 0x1680 ||
    (0x2000 ≤ n && n ≤ 0x200A) || n == 0x2028 || n == 0x2029 || n == 0x202F || n == 0x205F ||
    n == 0x3000

namespace Chars

/-- Without the characters at the start that satisfy `p`. -/
def trimStartWhere (p : Char → Bool) (text : List Char) : List Char :=
  text.dropWhile p

/-- Without the characters at the end that satisfy `p`. -/
def trimEndWhere (p : Char → Bool) (text : List Char) : List Char :=
  (text.reverse.dropWhile p).reverse

/-- Without the blanks at the start. -/
def trimStart (text : List Char) : List Char :=
  trimStartWhere isBlank text

/-- Without the blanks at the end. -/
def trimEnd (text : List Char) : List Char :=
  trimEndWhere isBlank text

/-- Without the blanks at both ends. -/
def trim (text : List Char) : List Char :=
  trimEnd (trimStart text)

/-- What is left without the blanks at the end ends in no blank, and only blanks stand behind it. -/
theorem trimEnd_eq_iff {text start : List Char} :
    trimEnd text = start ↔ (∀ c ∈ start.getLast?, isBlank c = false) ∧
      ∃ blanks, (∀ c ∈ blanks, isBlank c = true) ∧ text = start ++ blanks := by
  constructor
  · rintro rfl
    refine ⟨fun c hc => ?_, (text.reverse.takeWhile isBlank).reverse, fun c hc => ?_, ?_⟩
    · rw [trimEnd, trimEndWhere, List.getLast?_reverse] at hc
      have hhead := List.head?_dropWhile_not isBlank text.reverse
      rw [Option.mem_def.1 hc] at hhead
      exact hhead
    · exact List.all_eq_true.1 List.all_takeWhile c (List.mem_reverse.1 hc)
    · rw [trimEnd, trimEndWhere, ← List.reverse_append, List.takeWhile_append_dropWhile,
        List.reverse_reverse]
  · rintro ⟨hlast, blanks, hblanks, rfl⟩
    have hall : ∀ c ∈ blanks.reverse, isBlank c = true :=
      fun c hc => hblanks c (List.mem_reverse.1 hc)
    rw [trimEnd, trimEndWhere, List.reverse_append, List.dropWhile_append_of_pos hall]
    cases hstart : start.reverse with
    | nil => rw [List.reverse_eq_nil_iff.1 hstart]; rfl
    | cons c rest =>
        have hc : isBlank c = false := by
          refine hlast c ?_
          rw [← List.head?_reverse, hstart]
          rfl
        rw [List.dropWhile_cons_of_neg (by rw [hc]; exact Bool.false_ne_true), ← hstart,
          List.reverse_reverse]

/-- The blanks at the end stand behind the last character that is none. -/
theorem trimEnd_append_cons {c : Char} (h : isBlank c = false) (start rest : List Char) :
    trimEnd (start ++ c :: rest) = start ++ c :: trimEnd rest := by
  obtain ⟨hlast, blanks, hblanks, hrest⟩ := trimEnd_eq_iff.1 (rfl : trimEnd rest = _)
  refine trimEnd_eq_iff.2 ⟨fun c' hc' => ?_, blanks, hblanks, ?_⟩
  · rw [List.getLast?_append, List.getLast?_cons, Option.some_or] at hc'
    obtain rfl := Option.some.inj hc'
    cases htrim : (trimEnd rest).getLast? with
    | none => exact h
    | some last => exact hlast last htrim
  · rw [List.append_assoc, List.cons_append, ← hrest]

theorem trim_append_cons {blanks : List Char} {c : Char} (hblanks : ∀ b ∈ blanks, isBlank b = true)
    (hc : isBlank c = false) (rest : List Char) :
    trim (blanks ++ c :: rest) = c :: trimEnd rest := by
  rw [trim, trimStart, trimStartWhere, List.dropWhile_append_of_pos hblanks,
    List.dropWhile_cons_of_neg (by rw [hc]; exact Bool.false_ne_true)]
  exact trimEnd_append_cons hc [] rest

/-- Blanks stand at both ends of what is left without them. -/
theorem exists_blanks_of_trim (text : List Char) :
    ∃ before behind, (∀ c ∈ before, isBlank c = true) ∧ (∀ c ∈ behind, isBlank c = true) ∧
      text = before ++ trim text ++ behind := by
  obtain ⟨-, behind, hbehind, htrim⟩ := trimEnd_eq_iff.1 (rfl : trim text = _)
  refine ⟨text.takeWhile isBlank, behind, fun c hc => ?_, hbehind, ?_⟩
  · exact List.all_eq_true.1 List.all_takeWhile c hc
  · rw [List.append_assoc, ← htrim, trimStart, trimStartWhere, List.takeWhile_append_dropWhile]

/-- A line read backwards, turned round and freed of the carriage return that ends it. -/
def closeLine : List Char → List Char
  | '\r' :: line => line.reverse
  | line => line.reverse

/-- The lines from the middle of one on, of which `line` was read, backwards. -/
def linesFrom (line : List Char) : List Char → List (List Char)
  | [] => if line.isEmpty then [] else [line.reverse]
  | '\n' :: rest => closeLine line :: linesFrom [] rest
  | c :: rest => linesFrom (c :: line) rest

/-- The lines of a text; nothing follows the last line feed. -/
def lines (text : List Char) : List (List Char) :=
  linesFrom [] text

/-- The words from the middle of one on, of which `word` was read, backwards. -/
def wordsFrom (word : List Char) : List Char → List (List Char)
  | [] => if word.isEmpty then [] else [word.reverse]
  | c :: rest =>
      if isBlank c then
        if word.isEmpty then wordsFrom [] rest else word.reverse :: wordsFrom [] rest
      else
        wordsFrom (c :: word) rest

/-- The maximal runs of characters that are not blank. -/
def words (text : List Char) : List (List Char) :=
  wordsFrom [] text

theorem wordsFrom_cons (c : Char) (word text : List Char) :
    wordsFrom (c :: word) text = ((c :: word).reverse ++ text.takeWhile fun c => !isBlank c) ::
      words (text.dropWhile fun c => !isBlank c) := by
  induction text generalizing c word with
  | nil => rw [List.takeWhile_nil, List.append_nil]; rfl
  | cons next rest ih =>
      rw [wordsFrom, List.takeWhile_cons, List.dropWhile_cons]
      cases hnext : isBlank next with
      | true =>
          rw [if_pos rfl, Bool.not_true, if_neg Bool.false_ne_true, if_neg Bool.false_ne_true,
            List.append_nil, words, wordsFrom, if_pos hnext]
          rfl
      | false =>
          rw [if_neg Bool.false_ne_true, Bool.not_false, if_pos rfl, if_pos rfl, ih,
            List.reverse_cons, List.append_assoc]
          rfl

/-- A text that starts with no blank starts with a word. -/
theorem words_cons {c : Char} (h : isBlank c = false) (rest : List Char) :
    words (c :: rest) = (c :: rest.takeWhile fun c => !isBlank c) ::
      words (rest.dropWhile fun c => !isBlank c) := by
  rw [words, wordsFrom, h, if_neg Bool.false_ne_true, wordsFrom_cons]
  rfl

/-- Blanks at the start belong to no word. -/
theorem words_append {blanks : List Char} (h : ∀ c ∈ blanks, isBlank c = true)
    (text : List Char) : words (blanks ++ text) = words text := by
  induction blanks with
  | nil => rfl
  | cons c blanks ih =>
      obtain ⟨hc, hrest⟩ := List.forall_mem_cons.1 h
      rw [List.cons_append, words, wordsFrom, if_pos hc]
      exact ih hrest

end Chars

/-- Without the blanks at the start. -/
def trimStart (text : String) : String :=
  String.ofList (Chars.trimStart text.toList)

/-- Without the blanks at the end. -/
def trimEnd (text : String) : String :=
  String.ofList (Chars.trimEnd text.toList)

/-- Without the blanks at both ends. -/
def trim (text : String) : String :=
  String.ofList (Chars.trim text.toList)

/-- Without the copies of `c` at the start. -/
def trimStartChar (c : Char) (text : String) : String :=
  String.ofList (Chars.trimStartWhere (· == c) text.toList)

/-- Without the copies of `c` at the end. -/
def trimEndChar (c : Char) (text : String) : String :=
  String.ofList (Chars.trimEndWhere (· == c) text.toList)

/-- Without the copies of `c` at both ends. -/
def trimChar (c : Char) (text : String) : String :=
  trimEndChar c (trimStartChar c text)

/-- Without the characters at both ends that satisfy `p`. -/
def trimWhere (p : Char → Bool) (text : String) : String :=
  String.ofList (Chars.trimEndWhere p (Chars.trimStartWhere p text.toList))

/-- The lines of a text. -/
def lines (text : String) : List String :=
  (Chars.lines text.toList).map String.ofList

/-- The words of a text. -/
def words (text : String) : List String :=
  (Chars.words text.toList).map String.ofList

/-- The words of a text with one space between them. -/
def squeeze (text : String) : String :=
  " ".intercalate (words text)

end SourceIndex.Text
