import Mathlib.Data.List.Forall2
import Mathlib.Data.List.TakeWhile
import SourceIndex.Idiom.FoxPro.Statement
import SourceIndex.Proofs.Lines.Standing
import SourceIndex.Proofs.Text.Glyphs
import SourceIndex.Proofs.Text.Lines

/-!
# Lines of FoxPro

The statements of a program stand on lines of their own: the numbers of their first lines grow, from
one to the number of the last logical line.

These numbers cut the source into blocks of lines that follow one another, one block for each
logical line.  A step of joining either takes the next source line into the open block or closes
that block; so every block is joined line by line, and all blocks together are the source.  Whether
a block goes on hangs on the last mark of the text joined so far.  A line that is not blank has the
last word there, and a blank line leaves it to the lines before it.

A comment behind a line starts at the first two ampersands that are not quoted.  What is quoted is
told by a scan that keeps the open quote, and by the scan nothing but ASCII characters counts.
-/

namespace SourceIndex.Idiom.FoxPro

open SourceIndex.Text

/-! ## Numbers -/

/-- Joining goes on from the line where the open one started. -/
theorem first_le_joinFrom {first current : Nat} {opened : List Char} {rest : List (List Char)}
    (h : first ≤ current) : ∀ line ∈ joinFrom first current opened rest, first ≤ line.number := by
  induction rest generalizing first current opened with
  | nil =>
      intro line hline
      cases List.mem_singleton.1 hline
      exact Nat.le_refl first
  | cons next rest ih =>
      intro line hline
      rw [joinFrom] at hline
      split at hline
      · exact ih (Nat.le_trans h (Nat.le_succ current)) line hline
      · rcases List.mem_cons.1 hline with rfl | hline
        · exact Nat.le_refl _
        · have hnext := ih (Nat.le_refl (current + 1)) line hline
          omega

theorem pairwise_joinFrom {first current : Nat} {opened : List Char} {rest : List (List Char)}
    (h : first ≤ current) :
    (joinFrom first current opened rest).Pairwise fun a b => a.number < b.number := by
  induction rest generalizing first current opened with
  | nil => exact List.pairwise_singleton _ _
  | cons next rest ih =>
      rw [joinFrom]
      split
      · exact ih (Nat.le_trans h (Nat.le_succ current))
      · -- The line that was open ends here, and the next one starts behind it.
        refine List.Pairwise.cons (fun line hline => ?_) (ih (Nat.le_refl _))
        have hnext := first_le_joinFrom (Nat.le_refl (current + 1)) line hline
        show first < line.number
        omega

theorem pairwise_logicalLines (text : List Char) :
    (logicalLines text).Pairwise fun a b => a.number < b.number := by
  unfold logicalLines
  split
  · exact List.Pairwise.nil
  · exact pairwise_joinFrom (Nat.le_refl 1)

theorem one_le_logicalLines (text : List Char) : ∀ line ∈ logicalLines text, 1 ≤ line.number := by
  unfold logicalLines
  split
  · exact fun _ hline => absurd hline List.not_mem_nil
  · exact first_le_joinFrom (Nat.le_refl 1)

/-- No line has a greater number than the last one. -/
theorem le_lastNumber {lines : List Line} (h : lines.Pairwise fun a b => a.number < b.number) :
    ∀ line ∈ lines, line.number ≤ lastNumber lines := by
  intro line hline
  have hne : lines ≠ [] := List.ne_nil_of_mem hline
  have hlast : lastNumber lines = (lines.getLast hne).number := by
    rw [lastNumber, List.getLast?_eq_getLast_of_ne_nil hne]
    rfl
  rw [hlast]
  rw [← List.dropLast_append_getLast hne] at h hline
  rcases List.mem_append.1 hline with hline | hline
  · exact Nat.le_of_lt ((List.pairwise_append.1 h).2.2 line hline _ (List.mem_singleton.2 rfl))
  · exact Nat.le_of_eq (congrArg Line.number (List.mem_singleton.1 hline))

/-- Comments leave the numbers of the lines as they are. -/
theorem map_number_cleanFrom (isOff : Bool) (lines : List Line) :
    (cleanFrom isOff lines).map Line.number = lines.map Line.number := by
  induction lines generalizing isOff with
  | nil => rfl
  | cons line lines ih =>
      simp only [cleanFrom, List.map_cons]
      rw [ih]

theorem sublist_statementLines (lines : List Line) :
    ((statementLines lines).map Line.number).Sublist (lines.map Line.number) := by
  have hsublist := (List.filter_sublist (p := fun line : Line => !line.text.isEmpty)
    (l := (cleanFrom false lines).map fun line =>
      { line with text := Text.Chars.trim line.text })).map Line.number
  rw [List.map_map] at hsublist
  rw [← map_number_cleanFrom false lines]
  exact hsublist

namespace Program

theorem map_fst_statements (bytes : List UInt8) :
    (ofBytes bytes).statements.map Prod.fst =
      (statementLines (logicalLines (Text.decodeUnknown bytes))).map Line.number := by
  simp only [ofBytes, List.map_map]
  rfl

/-- Statements stand on lines of their own, in the order of the lines. -/
theorem pairwise_statements (bytes : List UInt8) :
    (ofBytes bytes).statements.Pairwise fun a b => a.1 < b.1 := by
  have hlines := List.pairwise_map.2 (pairwise_logicalLines (Text.decodeUnknown bytes))
  have hnumbers := hlines.sublist (sublist_statementLines _)
  rw [← map_fst_statements] at hnumbers
  exact List.pairwise_map.1 hnumbers

/-- Statements stand on lines of the program. -/
theorem statement_bounds {bytes : List UInt8} {t : Nat × List Char}
    (h : t ∈ (ofBytes bytes).statements) : 1 ≤ t.1 ∧ t.1 ≤ (ofBytes bytes).lastLine := by
  have hnumber : t.1 ∈ (statementLines (logicalLines (Text.decodeUnknown bytes))).map Line.number := by
    rw [← map_fst_statements]
    exact List.mem_map_of_mem h
  obtain ⟨line, hline, heq⟩ := List.mem_map.1 ((sublist_statementLines _).subset hnumber)
  rw [← heq]
  exact ⟨one_le_logicalLines _ line hline, le_lastNumber (pairwise_logicalLines _) line hline⟩

end Program

/-! ## The last mark of a line -/

/-- The last character of a line, blanks aside. -/
def lastMark? (line : List Char) : Option Char :=
  line.reverse.find? fun c => !isBlank c

theorem lastMark?_append (line more : List Char) :
    lastMark? (line ++ more) = (lastMark? more).or (lastMark? line) := by
  rw [lastMark?, List.reverse_append, List.find?_append]
  rfl

theorem lastMark?_blank {c : Char} (h : isBlank c = true) (line : List Char) :
    lastMark? (c :: line) = lastMark? line := by
  have hblank : lastMark? [c] = none := by simp [lastMark?, h]
  rw [← List.singleton_append, lastMark?_append, hblank, Option.or_none]

/-- Blanks at the start of a line do not matter. -/
theorem lastMark?_trimStart (line : List Char) :
    lastMark? (Chars.trimStart line) = lastMark? line := by
  induction line with
  | nil => rfl
  | cons c rest ih =>
      rw [Chars.trimStart, Chars.trimStartWhere, List.dropWhile_cons]
      split
      · rename_i hblank
        rw [lastMark?_blank hblank]
        exact ih
      · rfl

theorem getLast?_trimEnd (line : List Char) : (Chars.trimEnd line).getLast? = lastMark? line := by
  rw [Chars.trimEnd, Chars.trimEndWhere, List.getLast?_reverse, lastMark?,
    List.find?_not_eq_head?_dropWhile]

/-- A line goes on exactly if its last mark is a semicolon. -/
theorem continued?_eq_none_iff {line : List Char} :
    continued? line = none ↔ lastMark? line ≠ some ';' := by
  rw [continued?, Option.map_eq_none_iff, ← getLast?_trimEnd, Ne, List.getLast?_eq_some_iff,
    Option.eq_none_iff_forall_not_mem, not_exists]
  refine forall_congr' fun start => not_congr ?_
  rw [Option.mem_def, Chars.dropSuffix?, List.isSuffixOf?_eq_some_iff_append_eq, eq_comm]

theorem lastMark?_of_continued? {line head : List Char} (h : continued? line = some head) :
    lastMark? line = some ';' := by
  by_contra hmark
  rw [continued?_eq_none_iff.2 hmark] at h
  cases h

/-! ## Joined lines -/

/-- Lines that follow one another, and the text that they make together.  Every line but the first
is joined to a text that goes on: the semicolon there gives way to one space. -/
inductive Joined : List (List Char) → List Char → Prop
  | line (text : List Char) : Joined [text] text
  | join {lines : List (List Char)} {text head : List Char} (next : List Char)
      (h : Joined lines text) (hgoesOn : continued? text = some head) :
      Joined (lines ++ [next]) (head ++ ' ' :: Chars.trimStart next)

namespace Joined

variable {lines : List (List Char)} {text : List Char}

theorem ne_nil (h : Joined lines text) : lines ≠ [] := by
  cases h with
  | line => exact List.cons_ne_nil _ _
  | join next h hgoesOn => exact List.append_ne_nil_of_right_ne_nil _ (List.cons_ne_nil _ _)

/-- The last line tells the last mark of the whole text, unless it is blank. -/
theorem lastMark?_eq (h : Joined lines text) {line : List Char} (hlast : lines.getLast? = some line)
    (hmark : lastMark? line ≠ none) : lastMark? text = lastMark? line := by
  cases h with
  | line =>
      cases hlast
      rfl
  | @join lines text head next h hgoesOn =>
      rw [List.getLast?_concat] at hlast
      obtain rfl := Option.some.inj hlast
      obtain ⟨c, hc⟩ := Option.ne_none_iff_exists'.1 hmark
      rw [lastMark?_append, lastMark?_blank rfl, lastMark?_trimStart, hc, Option.some_or]

/-- A line that another one is joined to is blank or ends in a semicolon. -/
theorem inner (h : Joined lines text) :
    ∀ line ∈ lines.dropLast, lastMark? line = none ∨ lastMark? line = some ';' := by
  induction h with
  | line => nofun
  | @join lines text head next h hgoesOn ih =>
      intro line hline
      rw [List.dropLast_concat] at hline
      obtain ⟨last, hlast⟩ := Option.ne_none_iff_exists'.1 (mt List.getLast?_eq_none_iff.1 h.ne_nil)
      rw [← List.dropLast_append_getLast? last hlast, List.mem_append, List.mem_singleton] at hline
      rcases hline with hline | rfl
      · exact ih line hline
      · refine or_iff_not_imp_left.2 fun hmark => ?_
        rw [← h.lastMark?_eq hlast hmark]
        exact lastMark?_of_continued? hgoesOn

end Joined

/-! ## Blocks -/

/-- Blocks of source lines and the logical lines that they make, from line `n` on.  The text of a
block goes on in no other block. -/
inductive Blocks : Nat → List (List (List Char)) → List Line → Prop
  | last {n : Nat} {block : List (List Char)} {text : List Char} (h : Joined block text) :
      Blocks n [block] [⟨n, text⟩]
  | cons {n : Nat} {block : List (List Char)} {text : List Char} {blocks : List (List (List Char))}
      {lines : List Line} (h : Joined block text) (hends : continued? text = none)
      (hrest : Blocks (n + block.length) blocks lines) : Blocks n (block :: blocks) (⟨n, text⟩ :: lines)

/-- Joining makes blocks of the lines of the open one and of those that are left. -/
theorem exists_blocks {first current : Nat} {taken rest : List (List Char)} {opened : List Char}
    (h : Joined taken opened) (hcurrent : current + 1 = first + taken.length) :
    ∃ blocks, Blocks first blocks (joinFrom first current opened rest) ∧
      blocks.flatten = taken ++ rest := by
  induction rest generalizing first current taken opened with
  | nil => exact ⟨[taken], .last h, by simp⟩
  | cons next rest ih =>
      rw [joinFrom]
      split
      · -- The open block takes the next line.
        rename_i head hgoesOn
        have hlength : (taken ++ [next]).length = taken.length + 1 := List.length_append
        obtain ⟨blocks, hblocks, hflatten⟩ :=
          @ih first (current + 1) (taken ++ [next]) _ (h.join next hgoesOn) (by omega)
        exact ⟨blocks, hblocks, by rw [hflatten, List.append_assoc, List.singleton_append]⟩
      · -- The open block is closed, and the next line opens another one.
        rename_i hends
        obtain ⟨blocks, hblocks, hflatten⟩ :=
          @ih (current + 1) (current + 1) [next] _ (.line next) rfl
        refine ⟨taken :: blocks, .cons h hends ?_, by rw [List.flatten_cons, hflatten]; rfl⟩
        rwa [← hcurrent]

/-- The parts of a list that start at these places, counted from one: each part ends before the next
place, and the last one goes to the end. -/
def partsAt {α : Type} (items : List α) : List Nat → List (List α)
  | [] => []
  | [n] => [items.drop (n - 1)]
  | n :: next :: places => (items.drop (n - 1)).take (next - n) :: partsAt items (next :: places)

namespace Blocks

variable {n : Nat} {blocks : List (List (List Char))} {lines : List Line}

theorem map_number (h : Blocks n blocks lines) :
    ∃ numbers, lines.map Line.number = n :: numbers := by
  cases h <;> exact ⟨_, rfl⟩

/-- The blocks are the parts of the source that start at the numbers of the lines. -/
theorem partsAt_eq (h : Blocks n blocks lines) (before : List (List Char))
    (hbefore : before.length + 1 = n) :
    partsAt (before ++ blocks.flatten) (lines.map Line.number) = blocks := by
  induction h generalizing before with
  | last h =>
      subst hbefore
      simp [partsAt]
  | @cons n block text blocks lines h hends hrest ih =>
      obtain ⟨numbers, hnumbers⟩ := hrest.map_number
      have hparts := ih (before ++ block) (by rw [List.length_append]; omega)
      subst hbefore
      rw [hnumbers, List.append_assoc] at hparts
      rw [List.map_cons, hnumbers, partsAt, List.flatten_cons, hparts]
      simp

/-- Every line starts on a line of the source. -/
theorem number_lt (h : Blocks n blocks lines) :
    ∀ line ∈ lines, line.number < n + blocks.flatten.length := by
  induction h with
  | last h =>
      have hpos := List.length_pos_iff.2 h.ne_nil
      simpa using hpos
  | @cons n block text blocks lines h hends hrest ih =>
      have hpos := List.length_pos_iff.2 h.ne_nil
      rw [List.forall_mem_cons, List.flatten_cons, List.length_append]
      refine ⟨?_, fun line hline => ?_⟩
      · show n < _
        omega
      · have hlt := ih line hline
        omega

theorem forall₂_joined (h : Blocks n blocks lines) :
    List.Forall₂ (fun block line => Joined block line.text) blocks lines := by
  induction h with
  | last h => exact .cons h .nil
  | cons h hends hrest ih => exact .cons h ih

theorem exists_joined (h : Blocks n blocks lines) : ∀ block ∈ blocks, ∃ text, Joined block text := by
  induction h with
  | last h => exact List.forall_mem_singleton.2 ⟨_, h⟩
  | cons h hends hrest ih => exact List.forall_mem_cons.2 ⟨⟨_, h⟩, ih⟩

theorem ne_nil (h : Blocks n blocks lines) : blocks ≠ [] := by
  cases h <;> exact List.cons_ne_nil _ _

/-- A block with another one behind it does not end in a semicolon. -/
theorem ends (h : Blocks n blocks lines) : ∀ block ∈ blocks.dropLast, ∀ line ∈ block.getLast?,
    lastMark? line ≠ some ';' := by
  induction h with
  | last h => nofun
  | cons h hends hrest ih =>
      intro block hblock line hline hmark
      rw [List.dropLast_cons_of_ne_nil hrest.ne_nil] at hblock
      rcases List.mem_cons.1 hblock with rfl | hblock
      · have htext := h.lastMark?_eq hline (by rw [hmark]; exact Option.some_ne_none _)
        exact continued?_eq_none_iff.1 hends (htext.trans hmark)
      · exact ih block hblock line hline hmark

end Blocks

/-- The logical lines of a text are made of blocks that are its source lines. -/
theorem exists_blocks_logicalLines (text : List Char) :
    ∃ blocks, Blocks 1 blocks (logicalLines text) ∧ blocks.flatten = sourceLines text := by
  have hlength : (sourceLines text).length = text.count '\n' + 1 := by
    rw [sourceLines, List.length_map, Chars.length_splitWhere]
  unfold logicalLines
  split
  · rename_i hnil
    rw [hnil] at hlength
    cases hlength
  · rename_i line rest hcons
    rw [hcons]
    exact exists_blocks (.line line) rfl

/-- The lines of a source as they stand there. -/
def rawLines (bytes : List UInt8) : List (List Char) :=
  sourceLines (decodeUnknown bytes)

/-- The joined lines of a source, without comments. -/
def cleanedLines (bytes : List UInt8) : List Line :=
  cleanFrom false (logicalLines (decodeUnknown bytes))

/-- The numbers of the lines on which the joined lines start. -/
def lineMap (bytes : List UInt8) : List Nat :=
  (cleanedLines bytes).map Line.number

/-- The blocks into which these numbers cut the lines of a source. -/
def rawBlocks (bytes : List UInt8) : List (List (List Char)) :=
  partsAt (rawLines bytes) (lineMap bytes)

theorem lineMap_eq (bytes : List UInt8) :
    lineMap bytes = (logicalLines (decodeUnknown bytes)).map Line.number :=
  map_number_cleanFrom false _

/-- The numbers of the cleaned lines start at one and grow, and cut the source into blocks, one for
each line.  In a block every line but the last is followed by a join.  A line that ends in a
semicolon is the last of its block only where it is the last line of the source; one that is neither
blank nor ends so is always the last.  As long as 32 bits suffice to number the lines, the numbers
fit into them. -/
theorem lineMap_cuts_source (bytes : List UInt8) :
    (lineMap bytes).head? = some 1 ∧ (lineMap bytes).Pairwise (· < ·) ∧
      (∀ n ∈ lineMap bytes, n ≤ (rawLines bytes).length) ∧
      ((rawLines bytes).length < 2 ^ 32 → ∀ n ∈ lineMap bytes, n.toUInt32.toNat = n) ∧
      (lineMap bytes).length = (cleanedLines bytes).length ∧
      (rawBlocks bytes).length = (cleanedLines bytes).length ∧
      (rawBlocks bytes).flatten = rawLines bytes ∧
      List.Forall₂ (fun block line => Joined block line.text) (rawBlocks bytes)
        (logicalLines (decodeUnknown bytes)) ∧
      (∀ block ∈ rawBlocks bytes, block ≠ [] ∧
        ∀ line ∈ block.dropLast, lastMark? line = none ∨ lastMark? line = some ';') ∧
      ∀ block ∈ (rawBlocks bytes).dropLast, ∀ line ∈ block.getLast?,
        lastMark? line ≠ some ';' := by
  obtain ⟨parts, hparts, hflatten⟩ := exists_blocks_logicalLines (decodeUnknown bytes)
  have hmap := lineMap_eq bytes
  have hblocks : rawBlocks bytes = parts := by
    have heq := hparts.partsAt_eq [] rfl
    rw [List.nil_append, hflatten] at heq
    rw [← heq, ← hmap]
    rfl
  have hjoined := hparts.forall₂_joined
  have hbound : ∀ n ∈ lineMap bytes, n ≤ (rawLines bytes).length := by
    intro n hn
    rw [hmap] at hn
    obtain ⟨line, hline, rfl⟩ := List.mem_map.1 hn
    have hlt := hparts.number_lt line hline
    rw [hflatten, Nat.add_comm] at hlt
    exact Nat.le_of_lt_succ hlt
  have hlength : (lineMap bytes).length = (cleanedLines bytes).length := List.length_map _
  rw [hblocks]
  refine ⟨?_, ?_, hbound, fun hsmall n hn => ?_, hlength, ?_, hflatten, hjoined,
    fun block hblock => ?_, hparts.ends⟩
  · obtain ⟨numbers, hnumbers⟩ := hparts.map_number
    rw [hmap, hnumbers, List.head?_cons]
  · rw [hmap]
    exact List.pairwise_map.2 (pairwise_logicalLines _)
  · exact toNat_toUInt32 (Nat.lt_of_le_of_lt (hbound n hn) hsmall)
  · rw [← hlength, hmap, List.length_map, hjoined.length_eq]
  · obtain ⟨text, htext⟩ := hparts.exists_joined block hblock
    exact ⟨htext.ne_nil, htext.inner⟩

-- A semicolon is left on the first line, so the blank line is joined to it and the next line as well.
example : (logicalLines "a;;\n\nb\nc".toList).map Line.number = [1, 4] := by
  decide +kernel

/-! ## Comments behind a line

What is quoted is told by a grammar here, and by the quote that is open in the scan.  Quotes and
ampersands are ASCII characters, so the octets of a line tell the same. -/

section Comments

variable {α : Type} [DecidableEq α] {isQuote : α → Bool} {mark : α}

/-- Text behind which no quote is open.  A quote is closed by the next mark of its own sort, and the
other sort means nothing in it. -/
inductive EndsUnquoted (isQuote : α → Bool) : List α → Prop
  | nil : EndsUnquoted isQuote []
  | plain {c : α} {rest : List α} (hc : isQuote c = false) (h : EndsUnquoted isQuote rest) :
      EndsUnquoted isQuote (c :: rest)
  | quoted {q : α} {inner rest : List α} (hq : isQuote q = true) (hinner : q ∉ inner)
      (h : EndsUnquoted isQuote rest) : EndsUnquoted isQuote (q :: (inner ++ q :: rest))

/-- A line up to a comment and from there on: two marks behind text in which nothing is left open.
-/
structure IsComment (isQuote : α → Bool) (mark : α) (line before after : List α) : Prop where
  parts : line = before ++ mark :: mark :: after
  unquoted : EndsUnquoted isQuote before

/-- The quote that is open behind a character, given the one that is open before it. -/
def quoteAfter (isQuote : α → Bool) (quote : Option α) (c : α) : Option α :=
  if quote = some c then none else if quote.isNone ∧ isQuote c = true then some c else quote

/-- The quote that is open behind a text. -/
def quoteBehind (isQuote : α → Bool) (quote : Option α) (text : List α) : Option α :=
  text.foldl (quoteAfter isQuote) quote

theorem quoteBehind_inner {q : α} {inner : List α} (h : q ∉ inner) :
    quoteBehind isQuote (some q) inner = some q := by
  induction inner with
  | nil => rfl
  | cons c inner ih =>
      obtain ⟨hne, hrest⟩ := not_or.1 (mt List.mem_cons.2 h)
      rw [quoteBehind, List.foldl_cons, quoteAfter, if_neg (by simpa using hne), if_neg (by simp)]
      exact ih hrest

theorem quoteBehind_cons_of_not {c : α} (hc : isQuote c = false) (rest : List α) :
    quoteBehind isQuote none (c :: rest) = quoteBehind isQuote none rest := by
  rw [quoteBehind, List.foldl_cons, quoteAfter, if_neg (by simp), if_neg (by simp [hc])]
  rfl

theorem quoteBehind_cons_of_isQuote {c : α} (hc : isQuote c = true) (rest : List α) :
    quoteBehind isQuote none (c :: rest) = quoteBehind isQuote (some c) rest := by
  rw [quoteBehind, List.foldl_cons, quoteAfter, if_neg (by simp), if_pos ⟨rfl, hc⟩]
  rfl

/-- The next mark of its sort closes a quote. -/
theorem quoteBehind_close {q : α} {inner : List α} (h : q ∉ inner) (rest : List α) :
    quoteBehind isQuote (some q) (inner ++ q :: rest) = quoteBehind isQuote none rest := by
  have hinner : quoteBehind isQuote (some q) inner = some q := quoteBehind_inner h
  rw [quoteBehind] at hinner
  rw [quoteBehind, List.foldl_append, hinner, List.foldl_cons, quoteAfter, if_pos rfl]
  rfl

/-- A quote that is closed in the end is closed by the next mark of its sort. -/
theorem exists_of_quoteBehind_eq_none {q : α} {text : List α}
    (h : quoteBehind isQuote (some q) text = none) :
    ∃ inner rest, text = inner ++ q :: rest ∧ q ∉ inner ∧ quoteBehind isQuote none rest = none := by
  by_cases hmem : q ∈ text
  · obtain ⟨inner, rest, rfl, hinner⟩ := List.eq_append_cons_of_mem hmem
    exact ⟨inner, rest, rfl, hinner, (quoteBehind_close hinner rest).symm.trans h⟩
  · rw [quoteBehind_inner hmem] at h
    cases h

/-- No quote is open in the scan exactly behind the texts of the grammar. -/
theorem endsUnquoted_iff {text : List α} :
    EndsUnquoted isQuote text ↔ quoteBehind isQuote none text = none := by
  constructor
  · intro h
    induction h with
    | nil => rfl
    | plain hc h ih => rw [quoteBehind_cons_of_not hc, ih]
    | quoted hq hinner h ih => rw [quoteBehind_cons_of_isQuote hq, quoteBehind_close hinner, ih]
  · intro h
    induction hlength : text.length using Nat.strong_induction_on generalizing text with
    | _ n ih =>
        cases text with
        | nil => exact .nil
        | cons c rest =>
            cases hc : isQuote c with
            | false =>
                rw [quoteBehind_cons_of_not hc] at h
                exact .plain hc (ih _ (hlength ▸ Nat.lt_succ_self _) h rfl)
            | true =>
                rw [quoteBehind_cons_of_isQuote hc] at h
                obtain ⟨inner, rest, rfl, hinner, h⟩ := exists_of_quoteBehind_eq_none h
                refine .quoted hc hinner (ih _ ?_ h rfl)
                simp only [List.length_cons, List.length_append] at hlength
                omega

theorem quoteBehind_append (quote : Option α) (text more : List α) :
    quoteBehind isQuote quote (text ++ more) =
      quoteBehind isQuote (quoteBehind isQuote quote text) more :=
  List.foldl_append

/-- What is no quote opens and closes none. -/
theorem quoteBehind_of_forall_not {quote : Option α} (hquote : ∀ q ∈ quote, isQuote q = true)
    {text : List α} (h : ∀ c ∈ text, isQuote c = false) :
    quoteBehind isQuote quote text = quote := by
  cases quote with
  | some q =>
      refine quoteBehind_inner fun hq => ?_
      exact Bool.false_ne_true ((h q hq).symm.trans (hquote q rfl))
  | none =>
      induction text with
      | nil => rfl
      | cons c rest ih =>
          obtain ⟨hc, hrest⟩ := List.forall_mem_cons.1 h
          rw [quoteBehind_cons_of_not hc, ih hrest]

end Comments

/-- The marks that open and close quotes. -/
def isQuoteMark (c : Char) : Bool :=
  c == '\'' || c == '"'

theorem quoteAfter_isQuoteMark (quote : Option Char) (c : Char) :
    quoteAfter isQuoteMark quote c =
      if quote == some c then none
      else if quote.isNone && (c == '\'' || c == '"') then some c
      else quote := by
  simp [quoteAfter, isQuoteMark]

/-- Before what the scan finds to be the comment no quote is open, and it is the first such place.
-/
theorem of_beforeComment?_eq_some {quote : Option Char} {line before : List Char}
    (h : beforeComment? quote line = some before) :
    (∃ after, line = before ++ '&' :: '&' :: after) ∧ quoteBehind isQuoteMark quote before = none ∧
      ∀ start rest, line = start ++ '&' :: '&' :: rest →
        quoteBehind isQuoteMark quote start = none → before.length ≤ start.length := by
  induction line generalizing quote before with
  | nil => cases h
  | cons c line ih =>
      rw [beforeComment?] at h
      split at h
      · rename_i hhere
        obtain rfl := Option.some.inj h
        simp only [Bool.and_eq_true, Option.isNone_iff_eq_none, beq_iff_eq] at hhere
        obtain ⟨⟨rfl, rfl⟩, hnext⟩ := hhere
        obtain ⟨after, rfl⟩ := List.head?_eq_some_iff.1 hnext
        exact ⟨⟨after, rfl⟩, rfl, fun _ _ _ _ => Nat.zero_le _⟩
      · rename_i hhere
        rw [← quoteAfter_isQuoteMark] at h
        obtain ⟨before, hbefore, rfl⟩ := Option.map_eq_some_iff.1 h
        obtain ⟨⟨after, rfl⟩, hquote, hfirst⟩ := ih hbefore
        refine ⟨⟨after, rfl⟩, hquote, fun start rest hline hstart => ?_⟩
        cases start with
        | nil =>
            obtain ⟨rfl, hrest⟩ := List.cons.inj hline
            obtain rfl : quote = none := hstart
            rw [hrest] at hhere
            exact absurd rfl hhere
        | cons c' start =>
            obtain ⟨rfl, hrest⟩ := List.cons.inj hline
            exact Nat.succ_le_succ (hfirst start rest hrest hstart)

/-- Where the scan finds no comment, a quote is open at all places that look like one. -/
theorem of_beforeComment?_eq_none {quote : Option Char} {line : List Char}
    (h : beforeComment? quote line = none) {start rest : List Char}
    (hline : line = start ++ '&' :: '&' :: rest) :
    quoteBehind isQuoteMark quote start ≠ none := by
  induction line generalizing quote start with
  | nil => exact absurd hline.symm (List.append_ne_nil_of_right_ne_nil _ (List.cons_ne_nil _ _))
  | cons c line ih =>
      rw [beforeComment?] at h
      split at h
      · cases h
      · rename_i hhere
        rw [← quoteAfter_isQuoteMark] at h
        cases start with
        | nil =>
            obtain ⟨rfl, rfl⟩ := List.cons.inj hline
            rintro rfl
            exact absurd rfl hhere
        | cons c' start =>
            obtain ⟨rfl, hrest⟩ := List.cons.inj hline
            exact ih (Option.map_eq_none_iff.1 h) hrest

/-! ### In the octets of a line -/

/-- The octets of the marks that open and close quotes. -/
def isQuoteOctet (b : UInt8) : Bool :=
  b == 0x27 || b == 0x22

/-- The octet of an ASCII character. -/
def octetOf (c : Char) : UInt8 :=
  c.toNat.toUInt8

/-- No octet of another character is one of those. -/
theorem isQuoteOctet_of_mem_encodeChar {c : Char} (hc : isQuoteMark c = false) :
    ∀ b ∈ Utf8.encodeChar c, isQuoteOctet b = false := by
  intro b hb
  rw [Bool.eq_false_iff]
  intro hquote
  obtain ⟨octets, rest, hoctets⟩ := List.append_of_mem hb
  have hencode : Utf8.encode [c] = octets ++ b :: rest := by
    rw [← hoctets]
    exact List.flatMap_singleton _ c
  have hmarks : ∀ b', isQuoteOctet b' = true → Utf8.isAscii b' = true ∧
      isQuoteMark (Char.ofNat b'.toNat) = true := by
    intro b' hb'
    simp only [isQuoteOctet, Bool.or_eq_true, beq_iff_eq] at hb'
    rcases hb' with rfl | rfl <;> decide
  obtain ⟨before, after, hone, -⟩ := Utf8.exists_of_encode_eq_append (hmarks b hquote).1 hencode
  obtain rfl : Char.ofNat b.toNat = c := by
    have hmem : Char.ofNat b.toNat ∈ [c] := by
      rw [hone]
      exact List.mem_append_right _ List.mem_cons_self
    exact List.mem_singleton.1 hmem
  rw [(hmarks b hquote).2] at hc
  cases hc

theorem isQuoteMark_of_mem_quoteAfter {quote : Option Char}
    (hquote : ∀ q ∈ quote, isQuoteMark q = true) (c : Char) :
    ∀ q ∈ quoteAfter isQuoteMark quote c, isQuoteMark q = true := by
  unfold quoteAfter
  split
  · exact nofun
  · split
    · rename_i hc
      rintro q ⟨⟩
      exact hc.2
    · exact hquote

theorem quoteBehind_encodeChar {quote : Option Char} (hquote : ∀ q ∈ quote, isQuoteMark q = true)
    (c : Char) : quoteBehind isQuoteOctet (quote.map octetOf) (Utf8.encodeChar c) =
      (quoteAfter isQuoteMark quote c).map octetOf := by
  have hmarks : ∀ c, isQuoteMark c = true → c = '\'' ∨ c = '"' := by
    intro c hc
    simpa [isQuoteMark] using hc
  cases hc : isQuoteMark c with
  | false =>
      have hchar : quoteBehind isQuoteMark quote [c] = quote :=
        quoteBehind_of_forall_not hquote (List.forall_mem_singleton.2 hc)
      change quoteAfter isQuoteMark quote c = quote at hchar
      rw [hchar]
      refine quoteBehind_of_forall_not ?_ (isQuoteOctet_of_mem_encodeChar hc)
      intro b hb
      obtain ⟨q, hq, rfl⟩ := Option.map_eq_some_iff.1 hb
      rcases hmarks q (hquote q hq) with rfl | rfl <;> decide
  | true =>
      -- One of the two marks, where nothing or one of the two is open.
      cases quote with
      | none => rcases hmarks c hc with rfl | rfl <;> decide
      | some q =>
          rcases hmarks c hc with rfl | rfl <;>
            rcases hmarks q (hquote q rfl) with rfl | rfl <;> decide

/-- The octets of a line leave the same quote open as its characters. -/
theorem quoteBehind_encode {quote : Option Char} (hquote : ∀ q ∈ quote, isQuoteMark q = true)
    (text : List Char) : quoteBehind isQuoteOctet (quote.map octetOf) (Utf8.encode text) =
      (quoteBehind isQuoteMark quote text).map octetOf := by
  induction text generalizing quote with
  | nil => rfl
  | cons c text ih =>
      have hcons : Utf8.encode (c :: text) = Utf8.encodeChar c ++ Utf8.encode text :=
        List.flatMap_cons
      rw [hcons, quoteBehind_append, quoteBehind_encodeChar hquote,
        ih (isQuoteMark_of_mem_quoteAfter hquote c)]
      rfl

theorem endsUnquoted_encode_iff {text : List Char} :
    EndsUnquoted isQuoteOctet (Utf8.encode text) ↔ EndsUnquoted isQuoteMark text := by
  have hnone : ∀ q ∈ (none : Option Char), isQuoteMark q = true := nofun
  have hencode := quoteBehind_encode hnone text
  rw [Option.map_none] at hencode
  rw [endsUnquoted_iff, endsUnquoted_iff, hencode, Option.map_eq_none_iff]

/-- The comments in the octets of a line are those in its characters, so that they stand between
whole characters. -/
theorem isComment_encode_iff {line : List Char} {octets rest : List UInt8} :
    IsComment isQuoteOctet 0x26 (Utf8.encode line) octets rest ↔
      ∃ before after, IsComment isQuoteMark '&' line before after ∧ octets = Utf8.encode before ∧
        rest = Utf8.encode after := by
  constructor
  · rintro ⟨hparts, hunquoted⟩
    obtain ⟨before, behind, rfl, rfl, hbehind⟩ :=
      Utf8.exists_of_encode_eq_append (b := 0x26) (by decide) hparts
    obtain ⟨between, after, rfl, hbetween, rfl⟩ : ∃ between after,
        behind = between ++ '&' :: after ∧ Utf8.encode between = [] ∧ Utf8.encode after = rest :=
      Utf8.exists_of_encode_eq_append (b := 0x26) (by decide) hbehind
    obtain rfl : between = [] := by
      cases between with
      | nil => rfl
      | cons c between =>
          have hnil := (List.append_eq_nil_iff.1 ((Utf8.encode_cons c between).symm.trans hbetween)).1
          exact absurd hnil (Utf8.encodeChar_ne_nil c)
    exact ⟨before, after, ⟨rfl, endsUnquoted_encode_iff.1 hunquoted⟩, rfl, rfl⟩
  · rintro ⟨before, after, ⟨rfl, hunquoted⟩, rfl, rfl⟩
    exact ⟨Utf8.encode_append _ _, endsUnquoted_encode_iff.2 hunquoted⟩

/-! ### What is left of a line -/

/-- The first comment of a line, which has no other one before it. -/
structure IsFirstComment (line before after : List Char) : Prop
    extends IsComment isQuoteMark '&' line before after where
  first : ∀ start rest, IsComment isQuoteMark '&' line start rest → before.length ≤ start.length

theorem withoutComment_of_forall_not {line : List Char}
    (h : ∀ before after, ¬ IsComment isQuoteMark '&' line before after) :
    withoutComment line = line := by
  rw [withoutComment]
  split
  · rename_i before hbefore
    obtain ⟨⟨after, hline⟩, hquote, -⟩ := of_beforeComment?_eq_some hbefore
    exact absurd ⟨hline, endsUnquoted_iff.2 hquote⟩ (h before after)
  · rfl

theorem exists_isFirstComment {line start rest : List Char}
    (h : IsComment isQuoteMark '&' line start rest) :
    ∃ before after, IsFirstComment line before after ∧
      withoutComment line = Chars.trimEnd before := by
  cases hbefore : beforeComment? none line with
  | none => exact absurd (endsUnquoted_iff.1 h.unquoted) (of_beforeComment?_eq_none hbefore h.parts)
  | some before =>
      obtain ⟨⟨after, hline⟩, hquote, hfirst⟩ := of_beforeComment?_eq_some hbefore
      refine ⟨before, after, ⟨⟨hline, endsUnquoted_iff.2 hquote⟩, fun start rest h => ?_⟩, ?_⟩
      · exact hfirst start rest h.parts (endsUnquoted_iff.1 h.unquoted)
      · rw [withoutComment, hbefore]

/-- Nothing that stands before the first comment of a line starts a comment. -/
theorem IsFirstComment.not_isComment {line before after : List Char}
    (h : IsFirstComment line before after) (start rest : List Char) :
    ¬ IsComment isQuoteMark '&' (Chars.trimEnd before) start rest := by
  intro hcomment
  obtain ⟨-, blanks, -, hbefore⟩ := Chars.trimEnd_eq_iff.1 (Eq.refl (Chars.trimEnd before))
  -- The two marks would stand in the whole line too, and before the first two.
  have hline : line = start ++ '&' :: '&' :: (rest ++ blanks ++ '&' :: '&' :: after) := by
    rw [h.parts, hbefore, hcomment.parts]
    simp
  have hle := h.first start _ ⟨hline, hcomment.unquoted⟩
  rw [hbefore, hcomment.parts] at hle
  simp only [List.length_append, List.length_cons] at hle
  omega

/-- A line without a comment stays as it is; of any other one the text before its first comment is
left, without the blanks at its end.  What is left has no comment, so that nothing is taken from it
again.  The comments in the octets of a line start between whole characters. -/
theorem withoutComment_cuts_first (line : List Char) :
    ((∀ before after, ¬ IsComment isQuoteMark '&' line before after) →
        withoutComment line = line) ∧
      (∀ start rest, IsComment isQuoteMark '&' line start rest →
        ∃ before after, IsFirstComment line before after ∧
          withoutComment line = Chars.trimEnd before) ∧
      (∀ before after, ¬ IsComment isQuoteMark '&' (withoutComment line) before after) ∧
      withoutComment (withoutComment line) = withoutComment line ∧
      ∀ octets rest, IsComment isQuoteOctet 0x26 (Utf8.encode line) octets rest ↔
        ∃ before after, IsComment isQuoteMark '&' line before after ∧
          octets = Utf8.encode before ∧ rest = Utf8.encode after := by
  have hnone : ∀ before after, ¬ IsComment isQuoteMark '&' (withoutComment line) before after := by
    by_cases h : ∃ start rest, IsComment isQuoteMark '&' line start rest
    · obtain ⟨start, rest, h⟩ := h
      obtain ⟨before, after, hfirst, hcut⟩ := exists_isFirstComment h
      rw [hcut]
      exact hfirst.not_isComment
    · simp only [not_exists] at h
      rw [withoutComment_of_forall_not h]
      exact h
  exact ⟨withoutComment_of_forall_not, fun _ _ => exists_isFirstComment, hnone,
    withoutComment_of_forall_not hnone, fun _ _ => isComment_encode_iff⟩

/-- A line with two marks in a string, and a comment with an open quote behind it. -/
def markedLine : List Char :=
  "x = \"it's && so\" && it's".toList

theorem markedLine_cut :
    IsComment isQuoteMark '&' markedLine "x = \"it's && so\" ".toList " it's".toList ∧
      (∃ before after, IsFirstComment markedLine before after ∧
        withoutComment markedLine = Chars.trimEnd before) ∧
      withoutComment markedLine = "x = \"it's && so\"".toList := by
  have hcomment : IsComment isQuoteMark '&' markedLine "x = \"it's && so\" ".toList " it's".toList :=
    ⟨by decide, endsUnquoted_iff.2 (by decide)⟩
  exact ⟨hcomment, (withoutComment_cuts_first markedLine).2.1 _ _ hcomment, by decide⟩

-- A quote that is never closed hides all that stands behind it.
example : withoutComment "y = 'a && b".toList = "y = 'a && b".toList := by
  decide

end SourceIndex.Idiom.FoxPro
