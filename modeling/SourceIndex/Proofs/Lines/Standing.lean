import Mathlib.Algebra.Group.Nat.Defs
import Mathlib.Order.Basic
import SourceIndex.Proofs.Text.Lines
import SourceIndex.Record.Symbol

/-!
# Standing on lines

The lines of symbols and references as numbers, and symbols and references that stand on the lines
from one to a last one.  What a document says of its places stands on its lines, wherever the places
are.
-/

namespace SourceIndex

/-! ## Lines as numbers -/

theorem toNat_max (a b : UInt32) : (max a b).toNat = max a.toNat b.toNat := by
  show (if a ≤ b then b else a).toNat = _
  by_cases h : a ≤ b
  · have hle := UInt32.le_iff_toNat_le.1 h
    rw [if_pos h]
    omega
  · have hlt : ¬ a.toNat ≤ b.toNat := fun hle => h (UInt32.le_iff_toNat_le.2 hle)
    rw [if_neg h]
    omega

theorem toNat_toUInt32 {n : Nat} (h : n < 2 ^ 32) : n.toUInt32.toNat = n :=
  UInt32.toNat_ofNat_of_lt' h

namespace Symbol

variable {name : String} {kind : SymbolKind} {details : Details}

theorem toNat_lineStart {first : Nat} {last : UInt32} (hone : 1 ≤ first) (h : first < 2 ^ 32) :
    (ofDetails name kind first.toUInt32 last details).lineStart.toNat = first := by
  show (max first.toUInt32 1).toNat = first
  rw [toNat_max, toNat_toUInt32 h]
  exact Nat.max_eq_left hone

theorem toNat_lineEnd {first last : Nat} (hone : 1 ≤ first) (hfirst : first < 2 ^ 32)
    (hlast : last < 2 ^ 32) :
    (ofDetails name kind first.toUInt32 last.toUInt32 details).lineEnd.toNat = max last first := by
  show (max last.toUInt32 (max first.toUInt32 1)).toNat = max last first
  rw [toNat_max, toNat_max, toNat_toUInt32 hfirst, toNat_toUInt32 hlast]
  have hclamp : max first (1 : UInt32).toNat = first := Nat.max_eq_left hone
  rw [hclamp]

/-- Lines that are given in order are kept. -/
theorem toNat_lines_ofDetails {first last : UInt32} (hone : 1 ≤ first.toNat)
    (hle : first.toNat ≤ last.toNat) :
    (ofDetails name kind first last details).lineStart.toNat = first.toNat ∧
      (ofDetails name kind first last details).lineEnd.toNat = last.toNat := by
  have hclamp : max first.toNat (1 : UInt32).toNat = first.toNat := Nat.max_eq_left hone
  show (max first 1).toNat = first.toNat ∧ (max last (max first 1)).toNat = last.toNat
  rw [toNat_max, toNat_max, toNat_max, hclamp]
  exact ⟨rfl, Nat.max_eq_left hle⟩

/-- A symbol stands around the lines between those that are given for it. -/
theorem around_ofDetails {first last line : UInt32} (hone : 1 ≤ line) (hfirst : first ≤ line)
    (hlast : line ≤ last) :
    (ofDetails name kind first last details).lineStart ≤ line ∧
      line ≤ (ofDetails name kind first last details).lineEnd := by
  show max first 1 ≤ line ∧ line ≤ max last (max first 1)
  rw [UInt32.le_iff_toNat_le] at *
  rw [UInt32.le_iff_toNat_le, toNat_max, toNat_max, toNat_max]
  omega

end Symbol

/-! ## Standing -/

theorem toNat_toUInt32_add_one {n : Nat} (h : n + 1 < 2 ^ 32) : (n.toUInt32 + 1).toNat = n + 1 := by
  have hone : (1 : UInt32).toNat = 1 := rfl
  rw [UInt32.toNat_add, toNat_toUInt32 (by omega), hone]
  exact Nat.mod_eq_of_lt h

/-- Does a symbol stand on the first so many lines, and does it end no earlier than it starts? -/
def Symbol.StandsIn (lines : Nat) (y : Symbol) : Prop :=
  1 ≤ y.lineStart.toNat ∧ y.lineStart.toNat ≤ y.lineEnd.toNat ∧ y.lineEnd.toNat ≤ lines

/-- Does a reference stand on one of the first so many lines? -/
def Reference.StandsIn (lines : Nat) (r : Reference) : Prop :=
  1 ≤ r.line.toNat ∧ r.line.toNat ≤ lines

namespace Symbol

variable {lines : Nat} {name : String} {kind : SymbolKind} {details : Details}

/-- What else is said of a symbol does not matter. -/
theorem StandsIn.of_lines {y y' : Symbol} (h : y.StandsIn lines)
    (hfirst : y'.lineStart = y.lineStart) (hlast : y'.lineEnd = y.lineEnd) : y'.StandsIn lines := by
  rw [StandsIn, hfirst, hlast]
  exact h

/-- The lines of a new symbol are in order, so it stands where its lines are. -/
theorem standsIn_ofDetails {first last : UInt32} (hlines : 1 ≤ lines) (hfirst : first.toNat ≤ lines)
    (hlast : last.toNat ≤ lines) : (ofDetails name kind first last details).StandsIn lines := by
  have hone : (1 : UInt32).toNat = 1 := rfl
  have hstart : (ofDetails name kind first last details).lineStart.toNat = max first.toNat 1 := by
    rw [← hone, ← toNat_max]
    rfl
  have hend : (ofDetails name kind first last details).lineEnd.toNat =
      max last.toNat (max first.toNat 1) := by
    rw [← hstart, ← toNat_max]
    rfl
  rw [StandsIn, hstart, hend]
  omega

/-- The same for lines that are given as numbers. -/
theorem standsIn_of_numbers {first last : Nat} (hsmall : lines < 2 ^ 32) (hlines : 1 ≤ lines)
    (hfirst : first ≤ lines) (hlast : last ≤ lines) :
    (ofDetails name kind first.toUInt32 last.toUInt32 details).StandsIn lines := by
  apply standsIn_ofDetails hlines
  · rwa [toNat_toUInt32 (by omega)]
  · rwa [toNat_toUInt32 (by omega)]

end Symbol

/-- A use of a name on a line that is given as a number. -/
theorem Reference.standsIn_of_number {lines line : Nat} {scope : Option String} {target : String}
    {kind : ReferenceKind} {path : Option String} (hsmall : lines < 2 ^ 32) (hone : 1 ≤ line)
    (hline : line ≤ lines) :
    Reference.StandsIn lines ⟨scope, target, kind, line.toUInt32, path⟩ := by
  have hvalue : line.toUInt32.toNat = line := toNat_toUInt32 (by omega)
  exact ⟨hone.trans_eq hvalue.symm, hvalue.trans_le hline⟩

namespace Document

variable {d : Document}

/-- Number of lines of the source, one more than its line feeds. -/
def lineTotal (d : Document) : Nat :=
  d.bytes.count lineFeed + 1

/-- Do 32 bits suffice to number the lines? -/
def IsNumbered (d : Document) : Prop :=
  d.lineTotal < 2 ^ 32

theorem one_le_lineTotal (d : Document) : 1 ≤ d.lineTotal :=
  Nat.le_add_left 1 _

/-- The line of an offset counts the line feeds before it. -/
theorem toNat_lineAt (hd : d.IsNumbered) (offset : Nat) :
    (d.lineAt offset).toNat = (d.bytes.take offset).count lineFeed + 1 := by
  have hcount : (d.bytes.take offset).count lineFeed ≤ d.bytes.count lineFeed :=
    (List.take_sublist offset d.bytes).count_le lineFeed
  have hsmall : d.bytes.count lineFeed + 1 < 2 ^ 32 := hd
  exact toNat_toUInt32_add_one (by omega)

/-- Offsets stand on the lines of the source, those behind its end on the last one. -/
theorem lineAt_bounds (hd : d.IsNumbered) (offset : Nat) :
    1 ≤ (d.lineAt offset).toNat ∧ (d.lineAt offset).toNat ≤ d.lineTotal := by
  have hcount : (d.bytes.take offset).count lineFeed ≤ d.bytes.count lineFeed :=
    (List.take_sublist offset d.bytes).count_le lineFeed
  rw [toNat_lineAt hd, lineTotal]
  omega

/-- Offsets in the text stand on the lines of the source too, although octets that are no characters
were replaced. -/
theorem lineOf_bounds (hd : d.IsNumbered) (offset : Nat) :
    1 ≤ (Text.lineOf d.fullText offset).toNat ∧
      (Text.lineOf d.fullText offset).toNat ≤ d.lineTotal := by
  have hcount : (d.fullText.take offset).count '\n' ≤ d.bytes.count lineFeed := by
    rw [← Text.Utf8.count_decode]
    exact (List.take_sublist offset d.fullText).count_le '\n'
  have hsmall : d.bytes.count lineFeed + 1 < 2 ^ 32 := hd
  have hvalue : (Text.lineOf d.fullText offset).toNat = (d.fullText.take offset).count '\n' + 1 :=
    (congrArg UInt32.toNat (Text.lineOf_eq _ _)).trans (toNat_toUInt32_add_one (by omega))
  rw [hvalue, lineTotal]
  omega

/-- The last line is the one behind all octets. -/
theorem lineCount_eq_lineAt (d : Document) : d.lineCount = d.lineAt d.bytes.length := by
  rw [lineCount, Text.LineIndex.lineCount, Text.LineIndex.size_starts_ofText, fullText,
    Text.Utf8.count_decode, lineAt, List.take_length, Nat.add_comm]
  exact UInt32.ofNat_add _ _

/-- The lines of the text are no more than those of the source. -/
theorem length_lines_le (d : Document) : (Text.Chars.lines d.fullText).length ≤ d.lineTotal := by
  have hlines := Text.Chars.length_lines_le d.fullText
  rw [fullText, Text.Utf8.count_decode] at hlines
  exact hlines

variable {p : Place} {name target : String} {kind : SymbolKind} {details : Symbol.Details}
  {use : ReferenceKind} {scope : Option String}

theorem standsIn_symbol (hd : d.IsNumbered) :
    (d.symbol p name kind details).StandsIn d.lineTotal := by
  apply Symbol.standsIn_ofDetails d.one_le_lineTotal
  · exact (lineAt_bounds hd p.start).2
  · exact (lineAt_bounds hd p.stop).2

theorem standsIn_of_lines (hd : d.IsNumbered) (p : Place) {y : Symbol}
    (hfirst : y.lineStart = max (d.startLine p) 1)
    (hlast : y.lineEnd = max (d.endLine p) (max (d.startLine p) 1)) : y.StandsIn d.lineTotal := by
  have hplace : (d.symbol p y.name y.kind {}).StandsIn d.lineTotal := standsIn_symbol hd
  exact hplace.of_lines hfirst hlast

theorem standsIn_fileSymbol (hd : d.IsNumbered) :
    (d.fileSymbol name kind details).StandsIn d.lineTotal := by
  apply Symbol.standsIn_ofDetails d.one_le_lineTotal
  · exact d.one_le_lineTotal
  · rw [lineCount_eq_lineAt]
    exact (lineAt_bounds hd d.bytes.length).2

theorem standsIn_reference (hd : d.IsNumbered) :
    (d.reference use target p scope).StandsIn d.lineTotal :=
  lineAt_bounds hd p.start

theorem standsIn_reference_from {path : String} (hd : d.IsNumbered) :
    ((d.reference use target p scope).from path).StandsIn d.lineTotal :=
  lineAt_bounds hd p.start

end Document

end SourceIndex
