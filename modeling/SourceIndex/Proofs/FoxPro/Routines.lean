import Mathlib.Data.List.Forall2
import SourceIndex.Idiom.FoxPro.Form
import SourceIndex.Proofs.Text.Lines

/-!
# Routines of methods

The methods of a control are a text with routines in it, one behind each line that opens one.  A
routine goes on to the first line that closes it; where another one is opened before that, or the
text ends, it ends there.  What one line does is told by the line alone, so the lines of a routine
are told by those behind its first one, and no line belongs to two routines.
-/

namespace SourceIndex.Idiom.FoxPro.Procedure

variable {header line : String} {lines own behind : List String} {first stop i : Nat}
  {p : Procedure}

/-! ## Lines that open and close routines -/

/-- Does a line open a routine? -/
def opens (line : String) : Bool :=
  let upper := Text.upper (Text.trim line)
  Text.startsWith "PROCEDURE " upper || Text.startsWith "FUNCTION " upper

/-- Does a line begin with one of the two words that close a routine, in any letter case and behind
any blanks? -/
def IsCloser (line : String) : Prop :=
  ∃ word ∈ ["ENDPROC", "ENDFUNC"], word.toList <+: (Text.upper (Text.trim line)).toList

/-- Does a line neither open nor close a routine? -/
def GoesOn (line : String) : Prop :=
  opens line = false ∧ ¬IsCloser line

theorem closes_iff : closes line = true ↔ IsCloser line := by
  simp [closes, IsCloser, Text.startsWith]

theorem isSome_opened? (line : String) : (opened? line).isSome = opens line := by
  unfold opened? opens
  cases h : (Text.startsWith "PROCEDURE " (Text.upper (Text.trim line)) ||
      Text.startsWith "FUNCTION " (Text.upper (Text.trim line))) <;> simp [h]

theorem opens_eq_false_iff : opens line = false ↔ opened? line = none := by
  rw [← isSome_opened?, Option.isSome_eq_false_iff, Option.isNone_iff_eq_none]

theorem opens_of_opened? (h : opened? line = some p) : opens line = true := by
  rw [← isSome_opened?, h]
  rfl

/-- A routine begins with the line that opens it. -/
theorem code_of_opened? (h : opened? line = some p) : p.code = [line] := by
  simp only [opened?] at h
  split at h
  · obtain rfl := Option.some.inj h
    rfl
  · cases h

/-- No line both opens and closes a routine: its first letter would be two letters. -/
theorem IsCloser.opens_eq_false (h : IsCloser line) : opens line = false := by
  obtain ⟨word, hword, htext⟩ := h
  simp only [opens, Text.startsWith, Bool.eq_false_iff, ne_eq, Bool.or_eq_true,
    List.isPrefixOf_iff_prefix]
  generalize (Text.upper (Text.trim line)).toList = text at htext ⊢
  have hfirst : text.head? = some 'E' := by
    obtain ⟨rest, rfl⟩ := htext
    rcases List.mem_pair.1 hword with rfl | rfl <;> rfl
  rintro (⟨rest, rfl⟩ | ⟨rest, rfl⟩) <;> cases hfirst

/-! ## The lines of one routine -/

/-- The lines of a routine behind the one that opens it, out of all the lines behind that. -/
def ownLines : List String → List String
  | [] => []
  | line :: rest =>
      if opens line then [] else if closes line then [line] else line :: ownLines rest

/-- A line that opens a routine ends the one that is open. -/
theorem splitFrom_of_opened? (h : opened? line = some p) (current : Option Procedure)
    (rest : List String) :
    splitFrom current (line :: rest) = current.toList ++ splitFrom (some p) rest := by
  conv_lhs => unfold splitFrom
  simp only [h]

/-- Any other line is a line of the routine that is open, the last one if it closes the routine. -/
theorem splitFrom_of_not_opened (h : opened? line = none) (current : Option Procedure)
    (rest : List String) :
    splitFrom current (line :: rest) =
      if closes line then (current.map fun p => p.push line).toList ++ splitFrom none rest
      else splitFrom (current.map fun p => p.push line) rest := by
  conv_lhs => unfold splitFrom
  simp only [h]

/-- A routine that is open takes its own lines, and what stands behind it does not matter to it. -/
theorem splitFrom_some (p : Procedure) (lines : List String) :
    splitFrom (some p) lines =
      { p with code := p.code ++ ownLines lines } :: splitFrom none lines := by
  induction lines generalizing p with
  | nil =>
      rw [ownLines, List.append_nil]
      rfl
  | cons line rest ih =>
      cases hopened : opened? line with
      | some q =>
          have hopens : opens line = true := opens_of_opened? hopened
          rw [splitFrom_of_opened? hopened, splitFrom_of_opened? hopened, ownLines, if_pos hopens,
            List.append_nil]
          rfl
      | none =>
          have hopens : ¬opens line = true := Bool.eq_false_iff.1 (opens_eq_false_iff.2 hopened)
          rw [splitFrom_of_not_opened hopened, splitFrom_of_not_opened hopened, ownLines,
            if_neg hopens]
          by_cases hcloses : closes line = true
          · rw [if_pos hcloses, if_pos hcloses, if_pos hcloses]
            rfl
          · rw [if_neg hcloses, if_neg hcloses, if_neg hcloses]
            -- The rest is read with the line as the last one so far.
            have hrest := ih (p.push line)
            rw [push, List.append_assoc] at hrest
            exact hrest

/-- How the lines of a routine behind its first one end: with one that closes it, before one that
opens another, or with the text.  The lines before that go on. -/
inductive Ends : List String → List String → Prop
  | closed {own behind : List String} {line : String} (hown : ∀ l ∈ own, GoesOn l)
      (hline : IsCloser line) : Ends (own ++ [line]) behind
  | opened {own behind : List String} {line : String} (hown : ∀ l ∈ own, GoesOn l)
      (hline : opens line = true) : Ends own (line :: behind)
  | text {own : List String} (hown : ∀ l ∈ own, GoesOn l) : Ends own []

theorem Ends.cons (hline : GoesOn line) (h : Ends own behind) :
    Ends (line :: own) behind := by
  cases h with
  | closed hown hlast => exact .closed (List.forall_mem_cons.2 ⟨hline, hown⟩) hlast
  | opened hown hnext => exact .opened (List.forall_mem_cons.2 ⟨hline, hown⟩) hnext
  | text hown => exact .text (List.forall_mem_cons.2 ⟨hline, hown⟩)

/-- A routine has its own lines and no more. -/
theorem exists_ownLines (lines : List String) :
    ∃ behind, lines = ownLines lines ++ behind ∧ Ends (ownLines lines) behind := by
  have hnone : ∀ l ∈ ([] : List String), GoesOn l := List.forall_mem_nil _
  induction lines with
  | nil => exact ⟨[], rfl, .text hnone⟩
  | cons line rest ih =>
      obtain ⟨behind, hrest, hends⟩ := ih
      rw [ownLines]
      split
      · rename_i hopens
        exact ⟨line :: rest, rfl, .opened hnone hopens⟩
      · rename_i hopens
        split
        · rename_i hcloses
          exact ⟨rest, rfl, .closed hnone (closes_iff.1 hcloses)⟩
        · rename_i hcloses
          have hline : GoesOn line := ⟨Bool.eq_false_iff.2 hopens, closes_iff.not.1 hcloses⟩
          exact ⟨behind, by rw [List.cons_append, ← hrest], hends.cons hline⟩

/-- The own lines of a routine open no other one. -/
theorem Ends.opens_eq_false (h : Ends own behind) : ∀ l ∈ own, opens l = false := by
  intro l hl
  cases h with
  | closed hown hline =>
      rcases List.mem_append.1 hl with hl | hl
      · exact (hown l hl).1
      · obtain rfl := List.mem_singleton.1 hl
        exact hline.opens_eq_false
  | opened hown hline => exact (hown l hl).1
  | text hown => exact (hown l hl).1

/-! ## The routines of a text -/

/-- Where no routine is open, every line that opens one is followed by its own lines. -/
theorem splitFrom_none_cons (line : String) (rest : List String) :
    splitFrom none (line :: rest) =
      ((opened? line).map fun p => { p with code := line :: ownLines rest }).toList ++
        splitFrom none rest := by
  cases hopened : opened? line with
  | some p =>
      rw [splitFrom_of_opened? hopened, splitFrom_some, code_of_opened? hopened]
      rfl
  | none =>
      rw [splitFrom_of_not_opened hopened]
      exact ite_self _

/-- The numbers of the lines that open a routine, with the lines numbered from one on. -/
def headersFrom (number : Nat) (lines : List String) : List Nat :=
  ((lines.zipIdx number).filter fun l => opens l.1).map Prod.snd

/-- The indices of the lines that open a routine. -/
def headers (lines : List String) : List Nat :=
  headersFrom 0 lines

/-- For every line that opens a routine, its number and that of the first line behind the
routine. -/
def spansFrom (number : Nat) : List String → List (Nat × Nat)
  | [] => []
  | line :: rest =>
      if opens line then
        (number, number + 1 + (ownLines rest).length) :: spansFrom (number + 1) rest
      else
        spansFrom (number + 1) rest

/-- Does a routine stand on the lines from an index on and before another one?  It has the word and
the name of its first line, and its own lines up to where it ends. -/
structure StandsOn (lines : List String) (first stop : Nat) (p : Procedure) : Prop where
  code : p.code = (lines.drop first).take (stop - first)
  opened : ∃ header own, p.code = header :: own ∧
    opened? header = some { p with code := [header] } ∧ Ends own (lines.drop stop)
  stop_le : stop ≤ lines.length

variable {before : List String} {number : Nat} {span : Nat × Nat}

theorem map_fst_spansFrom (number : Nat) (lines : List String) :
    (spansFrom number lines).map Prod.fst = headersFrom number lines := by
  induction lines generalizing number with
  | nil => rfl
  | cons line rest ih =>
      by_cases hopens : opens line = true
      · simpa [spansFrom, headersFrom, hopens] using ih (number + 1)
      · simpa [spansFrom, headersFrom, hopens] using ih (number + 1)

/-- Lines that open no routine are passed over. -/
theorem headersFrom_append (h : ∀ l ∈ own, opens l = false) :
    headersFrom number (own ++ behind) = headersFrom (number + own.length) behind := by
  have hnone : ((own.zipIdx number).filter fun l => opens l.1) = [] := by
    apply List.filter_eq_nil_iff.2
    rintro ⟨l, i⟩ hl
    simp [h l (List.fst_mem_of_mem_zipIdx hl)]
  rw [headersFrom, List.zipIdx_append, List.filter_append, hnone, List.nil_append]
  rfl

theorem le_of_mem_headersFrom (h : i ∈ headersFrom number lines) : number ≤ i := by
  obtain ⟨⟨l, i⟩, hl, rfl⟩ := List.mem_map.1 h
  exact (List.mem_zipIdx (List.mem_filter.1 hl).1).1

/-- A routine ends before the next one begins. -/
theorem pairwise_spansFrom (number : Nat) (lines : List String) :
    (spansFrom number lines).Pairwise fun a b => a.2 ≤ b.1 := by
  induction lines generalizing number with
  | nil => exact List.Pairwise.nil
  | cons line rest ih =>
      rw [spansFrom]
      split
      · refine List.pairwise_cons.2 ⟨fun span hspan => ?_, ih (number + 1)⟩
        -- The next line that opens a routine is none of the own lines of this one.
        obtain ⟨behind, hrest, hends⟩ := exists_ownLines rest
        have hheader : span.1 ∈ headersFrom (number + 1) (ownLines rest ++ behind) := by
          rw [← hrest, ← map_fst_spansFrom]
          exact List.mem_map_of_mem hspan
        rw [headersFrom_append hends.opens_eq_false] at hheader
        exact le_of_mem_headersFrom hheader
      · exact ih (number + 1)

/-- A line that opens a routine, with its own lines behind it. -/
theorem standsOn_opened {header : String} {rest : List String} (h : opened? header = some p) :
    StandsOn (before ++ header :: rest) before.length (before.length + 1 + (ownLines rest).length)
      { p with code := header :: ownLines rest } := by
  obtain ⟨behind, hrest, hends⟩ := exists_ownLines rest
  have hstop : before.length + 1 + (ownLines rest).length =
      before.length + (header :: ownLines rest).length := by
    rw [List.length_cons]
    omega
  have hlines : before ++ header :: rest = before ++ ((header :: ownLines rest) ++ behind) := by
    rw [List.cons_append, ← hrest]
  rw [hlines, hstop]
  constructor
  · rw [List.drop_left, Nat.add_sub_cancel_left, List.take_left]
  · have hopened : opened? header = some { p with code := [header] } := by
      rw [h, ← code_of_opened? h]
    have hbehind : (before ++ ((header :: ownLines rest) ++ behind)).drop
        (before.length + (header :: ownLines rest).length) = behind := by
      rw [← List.append_assoc, ← List.length_append, List.drop_left]
    exact ⟨header, ownLines rest, rfl, hopened, by rwa [hbehind]⟩
  · simp only [List.length_append]
    omega

/-- Each routine stands on the lines of its span. -/
theorem forall₂_spansFrom (before lines : List String) :
    List.Forall₂ (fun span p => StandsOn (before ++ lines) span.1 span.2 p)
      (spansFrom before.length lines) (splitFrom none lines) := by
  induction lines generalizing before with
  | nil => exact List.Forall₂.nil
  | cons line rest ih =>
      have hrest := ih (before ++ [line])
      rw [List.append_assoc, List.singleton_append, List.length_append, List.length_singleton]
        at hrest
      -- The own lines of a routine are read again behind it, but they open no other one.
      rw [spansFrom, splitFrom_none_cons]
      cases hopened : opened? line with
      | some p =>
          rw [if_pos (opens_of_opened? hopened)]
          exact List.Forall₂.cons (standsOn_opened hopened) hrest
      | none =>
          rw [if_neg (Bool.eq_false_iff.1 (opens_eq_false_iff.2 hopened))]
          exact hrest

/-- A routine with so many routines before it and so many lines of its own does not reach behind
all the lines. -/
theorem end_le_of_mem_splitFrom (h : (p, i) ∈ (splitFrom none lines).zipIdx number) :
    i + p.code.length ≤ number + lines.length := by
  induction lines generalizing number with
  | nil => cases h
  | cons line rest ih =>
      rw [splitFrom_none_cons] at h
      rw [List.length_cons]
      cases hopened : opened? line with
      | some q =>
          rw [hopened] at h
          rcases List.mem_cons.1 h with h | h
          · obtain ⟨rfl, rfl⟩ := Prod.mk.inj h
            obtain ⟨behind, hrest, -⟩ := exists_ownLines rest
            have hlength := congrArg List.length hrest
            rw [List.length_append] at hlength
            rw [List.length_cons]
            omega
          · have hend := ih h
            omega
      | none =>
          rw [hopened] at h
          have hend := ih h
          omega

/-- A routine of the methods of a control ends no later than the methods. -/
theorem end_le_of_mem_split {methods : String} (h : (p, i) ∈ (split methods).zipIdx) :
    i + p.code.length ≤ methods.toList.count '\n' + 1 := by
  have hend := end_le_of_mem_splitFrom h
  rw [Text.splitChar, List.length_map, Text.Chars.length_splitWhere] at hend
  omega

/-- The routines of the methods of a control are those that its lines open, each once and in their
order.  A routine has the lines from the one that opens it through the first one that closes it, or
up to the next one that opens another, or to the end, and no two of them share a line. -/
theorem split_cuts_methods (methods : String) :
    ∃ spans : List (Nat × Nat),
      spans.map Prod.fst = headers (Text.splitChar '\n' methods) ∧
      List.Forall₂ (fun span p => StandsOn (Text.splitChar '\n' methods) span.1 span.2 p) spans
        (split methods) ∧
      spans.Pairwise fun a b => a.2 ≤ b.1 := by
  have hstands := forall₂_spansFrom [] (Text.splitChar '\n' methods)
  exact ⟨_, map_fst_spansFrom 0 _, hstands, pairwise_spansFrom 0 _⟩

-- Neither what stands before the first routine nor what stands behind its end belongs to one.
example :
    (split "x\nENDPROC\nPROCEDURE a\n  b\nFUNCTION c\nENDFUNC\nd\nENDPROC\nprocedure e").map
      Procedure.code = [["PROCEDURE a", "  b"], ["FUNCTION c", "ENDFUNC"], ["procedure e"]] := by
  decide +kernel

end SourceIndex.Idiom.FoxPro.Procedure
