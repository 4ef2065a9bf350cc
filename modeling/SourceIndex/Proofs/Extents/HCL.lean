import Mathlib.Data.List.Find
import Mathlib.Data.List.Nodup
import Mathlib.Data.List.TakeWhile
import SourceIndex.Declarations.HCL
import SourceIndex.Proofs.Lines.Standing

/-!
# Blocks of HCL and their braces

A file is read in one pass, which keeps the open blocks on a stack and fills in the end of a block
on the line that balances its braces.  What the pass keeps is that the blocks on the stack lie in
one another: the depth before a block is less than the depth before any block inside it.  So where
the depth falls, the blocks that end are the first ones on the stack, and none that ends is left
behind.  The same ends are found by looking ahead from the first line of each block.

Of a `locals` block the pass keeps the depth before it only, and no stack.  So it declares the keys
of all lines in the block, also of those that stand in a map inside it.
-/

namespace SourceIndex

/-! ## Lines

The lines that are no comments keep their numbers and their order. -/

namespace Idiom.HCL

/-- Is a line one of the first so many? -/
structure Line.Fits (n : Nat) (line : Line) : Prop where
  first : 1 ≤ line.number
  last : line.number ≤ n

theorem linesOf_fit (d : Document) : ∀ line ∈ linesOf d, line.Fits d.lineTotal := by
  intro line hline
  obtain ⟨⟨text, i⟩, htext, rfl⟩ := List.mem_map.1 (List.mem_filter.1 hline).1
  have hi := List.snd_lt_of_mem_zipIdx htext
  have hlines := d.length_lines_le
  exact ⟨Nat.le_add_left 1 i, by simp only at hi ⊢; omega⟩

/-- The numbers of the lines increase. -/
theorem pairwise_linesOf (d : Document) :
    (linesOf d).Pairwise fun a b => a.number < b.number := by
  refine List.Pairwise.filter _ (List.pairwise_iff_getElem.2 fun i j hi hj hij => ?_)
  simpa using hij

section

variable {before after : List Line} {line : Line}

/-- What stands up to a line are the lines with a number up to its own. -/
theorem filter_upto (hordered : (before ++ line :: after).Pairwise fun a b => a.number < b.number) :
    (before ++ line :: after).filter (fun l => l.number ≤ line.number) = before ++ [line] := by
  obtain ⟨-, hafter, hbefore⟩ := List.pairwise_append.1 hordered
  have hupto : before.filter (fun l => l.number ≤ line.number) = before := by
    refine List.filter_eq_self.2 fun l hl => decide_eq_true_iff.2 ?_
    exact Nat.le_of_lt (hbefore l hl line List.mem_cons_self)
  have hbehind : after.filter (fun l => l.number ≤ line.number) = [] := by
    refine List.filter_eq_nil_iff.2 fun l hl hle => ?_
    exact Nat.not_le_of_lt ((List.pairwise_cons.1 hafter).1 l hl) (decide_eq_true_iff.1 hle)
  have hself : decide (line.number ≤ line.number) = true := decide_eq_true (Nat.le_refl _)
  rw [List.filter_append, hupto, List.filter_cons, if_pos hself, hbehind]

/-- What stands before a line are the lines with a smaller number. -/
theorem filter_before
    (hordered : (before ++ line :: after).Pairwise fun a b => a.number < b.number) :
    (before ++ line :: after).filter (fun l => l.number < line.number) = before := by
  obtain ⟨-, hafter, hbefore⟩ := List.pairwise_append.1 hordered
  have hfront : before.filter (fun l => l.number < line.number) = before := by
    apply List.filter_eq_self.2
    intro l hl
    simpa using hbefore l hl line List.mem_cons_self
  have hbehind : (line :: after).filter (fun l => l.number < line.number) = [] := by
    apply List.filter_eq_nil_iff.2
    intro l hl
    rcases List.mem_cons.1 hl with rfl | hl
    · simp
    · have hlt := (List.pairwise_cons.1 hafter).1 l hl
      simp only [decide_eq_true_eq]
      omega
  rw [List.filter_append, hfront, hbehind, List.append_nil]

end

/-- The number of the first of some lines, the depth before which is given, after which the depth
is no more than `margin`. -/
def closing? (margin depth : Int32) : List Line → Option Nat
  | [] => none
  | line :: rest =>
      let depth := depth + balance line.text
      if depth ≤ margin then some line.number else closing? margin depth rest

end Idiom.HCL

open Idiom.HCL

namespace Declarations.HCL

variable {line : Line} {rest lines : List Line} {depth : Int32} {locals : Option Int32}

/-! ## Looking ahead -/

/-- A block that a line opens at a depth of braces; it goes on to the line that brings the depth
back. -/
def block? (depth : Int32) (line : Line) (rest : List Line) : Option Symbol :=
  ((opening? line.text).bind declared?).map fun (name, kind, details) =>
    let last := (closing? depth depth (line :: rest)).getD line.number
    Symbol.ofDetails name kind line.number.toUInt32 last.toUInt32 details

/-- The declarations of some lines, after a depth of braces. Inside a `locals` block, `locals` is
the depth before it. -/
def symbolsFrom (depth : Int32) (locals : Option Int32) : List Line → List Symbol
  | [] => []
  | line :: rest =>
      let after := depth + balance line.text
      match locals with
      | some margin =>
          if after ≤ margin then symbolsFrom after none rest
          else (local? line).toList ++ symbolsFrom after locals rest
      | none =>
          if opensLocals line then
            symbolsFrom after (if depth < after then some depth else none) rest
          else
            (block? depth line rest).toList ++ symbolsFrom after none rest

/-- The block that a line opens ends on the line that the lines to come tell, or else on its own. -/
theorem block?_eq_endingOn (depth : Int32) (line : Line) (rest : List Line) :
    block? depth line rest = (opened? line).map fun y =>
      y.endingOn ((closing? depth depth (line :: rest)).getD line.number).toUInt32 := by
  unfold block? opened?
  rw [Option.map_map]
  rfl

/-- As far as the first line of a block tells, the block ends on it. -/
theorem endingOn_of_opened? {y : Symbol} (h : opened? line = some y) :
    y.endingOn line.number.toUInt32 = y := by
  obtain ⟨⟨name, kind, details⟩, -, rfl⟩ := Option.map_eq_some_iff.1 h
  rfl

/-- A symbol with the last line that looking ahead finds, if it finds one. -/
def endedOn (last : Option Nat) (y : Symbol) : Symbol :=
  last.elim y fun n => y.endingOn n.toUInt32

/-- The block that a line opens stays as it is on this line until its end is known. -/
theorem block?_eq_endedOn (depth : Int32) (line : Line) (rest : List Line) :
    block? depth line rest =
      (opened? line).map (endedOn (closing? depth depth (line :: rest))) := by
  rw [block?_eq_endingOn]
  apply Option.map_congr
  intro y hy
  cases closing? depth depth (line :: rest) with
  | none => exact endingOn_of_opened? hy
  | some last => rfl

/-- A block whose braces are balanced on its first line ends there. -/
theorem block?_of_le (h : depth + balance line.text ≤ depth) :
    block? depth line rest = opened? line := by
  rw [block?_eq_endingOn, closing?, if_pos h]
  refine (Option.map_congr fun y hy => ?_).trans Option.map_id_apply
  exact endingOn_of_opened? hy

/-! ## The ends that are still to come -/

/-- The declarations with the ends of the open blocks. -/
def fillIn (ends : OpenBlock → Option Nat) (opened : List OpenBlock) (symbols : List Symbol) :
    List Symbol :=
  opened.foldl (fun symbols b => symbols.modify b.index (endedOn (ends b))) symbols

section

variable {ends ends' : OpenBlock → Option Nat} {opened opened' : List OpenBlock}
  {symbols later : List Symbol}

theorem fillIn_cons (b : OpenBlock) :
    fillIn ends (b :: opened) symbols =
      fillIn ends opened (symbols.modify b.index (endedOn (ends b))) :=
  rfl

theorem fillIn_append :
    fillIn ends (opened ++ opened') symbols = fillIn ends opened' (fillIn ends opened symbols) :=
  List.foldl_append

/-- Only the ends of the blocks that are open count. -/
theorem fillIn_congr (h : ∀ b ∈ opened, ends b = ends' b) :
    fillIn ends opened symbols = fillIn ends' opened symbols := by
  induction opened generalizing symbols with
  | nil => rfl
  | cons b opened ih =>
      rw [fillIn_cons, fillIn_cons, h b List.mem_cons_self]
      exact ih fun b' hb' => h b' (List.mem_cons_of_mem b hb')

/-- Where no end comes, the declarations stay as they are. -/
theorem fillIn_eq_self (h : ∀ b ∈ opened, ends b = none) :
    fillIn ends opened symbols = symbols := by
  induction opened with
  | nil => rfl
  | cons b opened ih =>
      have hb : endedOn (ends b) = id := by rw [h b List.mem_cons_self]; rfl
      rw [fillIn_cons, hb, List.modify_id]
      exact ih fun b' hb' => h b' (List.mem_cons_of_mem b hb')

theorem length_fillIn : (fillIn ends opened symbols).length = symbols.length := by
  induction opened generalizing symbols with
  | nil => rfl
  | cons b opened ih => rw [fillIn_cons, ih, List.length_modify]

theorem modify_append_of_lt {i : Nat} {f : Symbol → Symbol} (h : i < symbols.length) :
    (symbols ++ later).modify i f = symbols.modify i f ++ later := by
  induction symbols generalizing i with
  | nil => cases h
  | cons y symbols ih =>
      cases i with
      | zero => rfl
      | succ i => simp [ih (Nat.lt_of_succ_lt_succ h)]

/-- Declarations behind those of the open blocks get no ends. -/
theorem fillIn_append_right (h : ∀ b ∈ opened, b.index < symbols.length) :
    fillIn ends opened (symbols ++ later) = fillIn ends opened symbols ++ later := by
  induction opened generalizing symbols with
  | nil => rfl
  | cons b opened ih =>
      rw [fillIn_cons, fillIn_cons, modify_append_of_lt (h b List.mem_cons_self), ih]
      intro b' hb'
      rw [List.length_modify]
      exact h b' (List.mem_cons_of_mem b hb')

/-- A block that is opened last has the last declaration. -/
theorem fillIn_opened (h : ∀ b ∈ opened, b.index < symbols.length) (margin : Int32) (y : Symbol) :
    fillIn ends (⟨margin, symbols.length⟩ :: opened) (symbols ++ [y]) =
      fillIn ends opened symbols ++ [endedOn (ends ⟨margin, symbols.length⟩) y] := by
  have hlast : ∀ f : Symbol → Symbol,
      (symbols ++ [y]).modify symbols.length f = symbols ++ [f y] := by
    intro f
    rw [List.modify_eq_take_cons_drop (by simp)]
    simp
  rw [fillIn_cons, hlast, fillIn_append_right h]

end

/-! ## What the pass keeps -/

namespace Scan

variable {s : Scan}

/-- Do the open blocks lie in one another, and has each of them a declaration? -/
structure IsStacked (s : Scan) : Prop where
  margins : s.opened.Pairwise fun inner outer => outer.margin < inner.margin
  places : ∀ b ∈ s.opened, b.index < s.symbols.length

/-- Are the braces of all open blocks still open? -/
structure IsNested (s : Scan) : Prop extends s.IsStacked where
  depths : ∀ b ∈ s.opened, b.margin < s.depth

theorem isNested_initial : ({} : Scan).IsNested :=
  ⟨⟨List.Pairwise.nil, nofun⟩, nofun⟩

/-- Among blocks that lie in one another, all are open from the first open one on. -/
theorem margin_lt_of_mem_dropWhile {opened : List OpenBlock}
    (h : opened.Pairwise fun inner outer => outer.margin < inner.margin) {b : OpenBlock}
    (hb : b ∈ opened.dropWhile fun b => decide (depth ≤ b.margin)) : b.margin < depth := by
  induction opened with
  | nil => cases hb
  | cons first opened ih =>
      obtain ⟨hfirst, hrest⟩ := List.pairwise_cons.1 h
      by_cases hle : depth ≤ first.margin
      · rw [List.dropWhile_cons_of_pos (by simpa using hle)] at hb
        exact ih hrest hb
      · rw [List.dropWhile_cons_of_neg (by simpa using hle)] at hb
        rcases List.mem_cons.1 hb with rfl | hb
        · exact Int32.not_le.1 hle
        · exact Int32.lt_trans (hfirst b hb) (Int32.not_le.1 hle)

/-- The end that the lines to come give to a block that is open. -/
def endOf (s : Scan) (lines : List Line) (b : OpenBlock) : Option Nat :=
  closing? b.margin s.depth lines

theorem symbols_close (s : Scan) (line : Line) :
    (s.close line).symbols =
      fillIn (fun _ => some line.number)
        (s.opened.takeWhile fun b => decide (s.depth ≤ b.margin)) s.symbols :=
  rfl

/-- A line ends the blocks whose braces are balanced there; all others get their ends later. -/
theorem fillIn_close (h : s.IsStacked) :
    fillIn ((s.close line).endOf rest) (s.close line).opened (s.close line).symbols =
      fillIn (fun b => if s.depth ≤ b.margin then some line.number else s.endOf rest b) s.opened
        s.symbols := by
  have hended : ∀ b ∈ s.opened.takeWhile fun b => decide (s.depth ≤ b.margin),
      some line.number = if s.depth ≤ b.margin then some line.number else s.endOf rest b := by
    intro b hb
    have hle : decide (s.depth ≤ b.margin) = true :=
      List.mem_takeWhile_imp (p := fun b : OpenBlock => decide (s.depth ≤ b.margin)) hb
    rw [if_pos (of_decide_eq_true hle)]
  have hopen : ∀ b ∈ s.opened.dropWhile fun b => decide (s.depth ≤ b.margin),
      (s.close line).endOf rest b =
        if s.depth ≤ b.margin then some line.number else s.endOf rest b := by
    intro b hb
    have hlt := margin_lt_of_mem_dropWhile h.margins hb
    rw [if_neg (Int32.not_le.2 hlt)]
    rfl
  rw [symbols_close, fillIn_congr hended]
  have hopened : (s.close line).opened = s.opened.dropWhile fun b => decide (s.depth ≤ b.margin) :=
    rfl
  rw [hopened, fillIn_congr hopen, ← fillIn_append, List.takeWhile_append_dropWhile]

theorem IsStacked.close (h : s.IsStacked) : (s.close line).IsNested := by
  have hsub : (s.close line).opened.Sublist s.opened := List.dropWhile_sublist _
  refine ⟨⟨h.margins.sublist hsub, fun b hb => ?_⟩, fun b hb => ?_⟩
  · rw [symbols_close, length_fillIn]
    exact h.places b (hsub.subset hb)
  · exact margin_lt_of_mem_dropWhile h.margins hb

/-- The depth before the `locals` block around, after one more line. -/
def localsNext (depth : Int32) (locals : Option Int32) (line : Line) : Option Int32 :=
  let after := depth + balance line.text
  match locals with
  | some margin => if after ≤ margin then none else some margin
  | none => if opensLocals line && depth < after then some depth else none

/-- What a line declares after a depth of braces, with the lines to come. -/
def declaredAt (depth : Int32) (locals : Option Int32) (line : Line) (rest : List Line) :
    Option Symbol :=
  match locals with
  | some margin => if depth + balance line.text ≤ margin then none else local? line
  | none => if opensLocals line then none else block? depth line rest

end Scan

open Scan

/-- Looking ahead goes on from line to line. -/
theorem symbolsFrom_cons :
    symbolsFrom depth locals (line :: rest) =
      (declaredAt depth locals line rest).toList ++
        symbolsFrom (depth + balance line.text) (localsNext depth locals line) rest := by
  cases locals with
  | some margin =>
      simp only [symbolsFrom, declaredAt, localsNext]
      split <;> rfl
  | none =>
      simp only [symbolsFrom, declaredAt, localsNext]
      cases opensLocals line <;> simp

namespace Scan

variable {s : Scan}

/-- A line declares behind all other declarations what looking ahead from it gives; if it leaves the
braces of a block open, the block is open and its end still to come. -/
theorem declare_cases (s : Scan) (line : Line) (rest : List Line) :
    let s' := s.declare (s.depth + balance line.text) line
    s'.locals = localsNext s.depth s.locals line ∧
      ((s'.opened = s.opened ∧
          s'.symbols = s.symbols ++ (declaredAt s.depth s.locals line rest).toList) ∨
        ∃ y, s.depth < s.depth + balance line.text ∧
          s'.opened = ⟨s.depth, s.symbols.length⟩ :: s.opened ∧ s'.symbols = s.symbols ++ [y] ∧
          declaredAt s.depth s.locals line rest =
            some (endedOn (closing? s.depth s.depth (line :: rest)) y)) := by
  unfold declare declaredAt localsNext
  cases hlocals : s.locals with
  | some margin =>
      dsimp only
      split
      · exact ⟨rfl, Or.inl ⟨rfl, (List.append_nil _).symm⟩⟩
      · exact ⟨rfl, Or.inl ⟨rfl, rfl⟩⟩
  | none =>
      dsimp only
      cases opensLocals line with
      | true => exact ⟨by simp, Or.inl ⟨rfl, (List.append_nil _).symm⟩⟩
      | false =>
          -- A block whose braces are balanced on the line has its end already.
          by_cases hopen : s.depth < s.depth + balance line.text
          · rw [block?_eq_endedOn]
            cases opened? line with
            | none => exact ⟨by simp [hlocals], Or.inl ⟨rfl, (List.append_nil _).symm⟩⟩
            | some y => exact ⟨by simp, Or.inr ⟨y, hopen, if_pos hopen, rfl, rfl⟩⟩
          · rw [block?_of_le (Int32.not_lt.1 hopen)]
            cases opened? line with
            | none => exact ⟨by simp [hlocals], Or.inl ⟨rfl, (List.append_nil _).symm⟩⟩
            | some y => exact ⟨by simp, Or.inl ⟨if_neg hopen, rfl⟩⟩

theorem IsNested.declare (h : s.IsNested) (line : Line) :
    { s.declare (s.depth + balance line.text) line with
      depth := s.depth + balance line.text }.IsStacked := by
  obtain ⟨-, ⟨hopened, hsymbols⟩ | ⟨y, -, hopened, hsymbols, -⟩⟩ := declare_cases s line []
  · constructor
    · show List.Pairwise _ (s.declare _ line).opened
      rw [hopened]
      exact h.margins
    · show ∀ b ∈ (s.declare _ line).opened, b.index < (s.declare _ line).symbols.length
      rw [hopened, hsymbols, List.length_append]
      exact fun b hb => Nat.lt_add_right _ (h.places b hb)
  · constructor
    · show List.Pairwise _ (s.declare _ line).opened
      rw [hopened]
      -- The new block is the innermost one, since the braces of all others are open before it.
      exact List.pairwise_cons.2 ⟨h.depths, h.margins⟩
    · show ∀ b ∈ (s.declare _ line).opened, b.index < (s.declare _ line).symbols.length
      rw [hopened, hsymbols, List.length_append, List.length_singleton]
      refine List.forall_mem_cons.2 ⟨Nat.lt_succ_self _, fun b hb => ?_⟩
      exact Nat.lt_succ_of_lt (h.places b hb)

theorem IsNested.next (h : s.IsNested) (line : Line) : (s.next line).IsNested :=
  (h.declare line).close

/-- One line of the pass: what the line and those behind it give to the open blocks, followed by
what it declares. -/
theorem fillIn_next (h : s.IsNested) (line : Line) (rest : List Line) :
    fillIn ((s.next line).endOf rest) (s.next line).opened (s.next line).symbols =
      fillIn (s.endOf (line :: rest)) s.opened s.symbols ++
        (declaredAt s.depth s.locals line rest).toList := by
  have hclose : fillIn ((s.next line).endOf rest) (s.next line).opened (s.next line).symbols =
      fillIn (s.endOf (line :: rest)) (s.declare (s.depth + balance line.text) line).opened
        (s.declare (s.depth + balance line.text) line).symbols :=
    fillIn_close (h.declare line)
  rw [hclose]
  obtain ⟨-, ⟨hopened, hsymbols⟩ | ⟨y, -, hopened, hsymbols, hdeclared⟩⟩ :=
    declare_cases s line rest
  · rw [hopened, hsymbols, fillIn_append_right h.places]
  · rw [hopened, hsymbols, hdeclared, fillIn_opened h.places]
    rfl

/-- The whole pass: the open blocks get the ends that the lines to come give them, and what these
declare comes behind. -/
theorem symbols_foldl_next (h : s.IsNested) (lines : List Line) :
    (lines.foldl next s).symbols =
      fillIn (s.endOf lines) s.opened s.symbols ++ symbolsFrom s.depth s.locals lines := by
  induction lines generalizing s with
  | nil =>
      have hends : ∀ b ∈ s.opened, s.endOf [] b = none := fun _ _ => rfl
      rw [fillIn_eq_self hends]
      exact (List.append_nil _).symm
  | cons line rest ih =>
      have hlocals : (s.next line).locals = localsNext s.depth s.locals line :=
        (declare_cases s line rest).1
      have hdepth : (s.next line).depth = s.depth + balance line.text := rfl
      rw [List.foldl_cons, ih (h.next line), fillIn_next h, symbolsFrom_cons, hlocals, hdepth,
        List.append_assoc]

end Scan

/-- The pass with the open blocks declares what looking ahead declares. -/
theorem blockSymbols_eq (lines : List Line) : blockSymbols lines = symbolsFrom 0 none lines :=
  symbols_foldl_next isNested_initial lines

/-! ## Depths as numbers -/

/-- By how much a line opens more braces than it closes, without any bound. -/
def excess (line : List Char) : Int :=
  (line.count '\x7b' : Int) - (line.count '\x7d' : Int)

/-- How many more braces some lines open than they close. -/
def depthOf : List Line → Int
  | [] => 0
  | line :: rest => excess line.text + depthOf rest

/-- The same number in 32 bits, which the pass counts. -/
def wordOf (lines : List Line) : Int32 :=
  .ofInt (depthOf lines)

/-- How many braces stand in some lines. -/
def braceTotal : List Line → Nat
  | [] => 0
  | line :: rest => line.text.count '\x7b' + line.text.count '\x7d' + braceTotal rest

/-- Are there so few braces that 32 bits hold the depth after each line? -/
def IsCounted (lines : List Line) : Prop :=
  braceTotal lines < 2 ^ 31

theorem depthOf_cons : depthOf (line :: rest) = excess line.text + depthOf rest :=
  rfl

theorem balance_eq (text : List Char) : balance text = .ofInt (excess text) := by
  rw [excess, Int32.ofInt_sub, Int32.ofInt_eq_ofNat, Int32.ofInt_eq_ofNat]
  rfl

theorem wordOf_cons : wordOf (line :: rest) = balance line.text + wordOf rest := by
  rw [wordOf, depthOf_cons, Int32.ofInt_add, ← balance_eq]
  rfl

theorem depthOf_concat {before : List Line} :
    depthOf (before ++ [line]) = depthOf before + excess line.text := by
  induction before with
  | nil => exact Int.add_comm _ _
  | cons first before ih => rw [List.cons_append, depthOf_cons, ih, depthOf_cons, Int.add_assoc]

theorem wordOf_concat {before : List Line} :
    wordOf (before ++ [line]) = wordOf before + balance line.text := by
  rw [wordOf, depthOf_concat, Int32.ofInt_add, ← balance_eq]
  rfl

theorem braceTotal_append (before after : List Line) :
    braceTotal (before ++ after) = braceTotal before + braceTotal after := by
  induction before with
  | nil => exact (Nat.zero_add _).symm
  | cons first before ih =>
      rw [List.cons_append, braceTotal, ih, braceTotal]
      exact (Nat.add_assoc ..).symm

theorem IsCounted.left {before after : List Line} (h : IsCounted (before ++ after)) :
    IsCounted before := by
  unfold IsCounted at h ⊢
  rw [braceTotal_append] at h
  omega

/-- No depth is further from zero than there are braces. -/
theorem natAbs_depthOf_le (lines : List Line) : (depthOf lines).natAbs ≤ braceTotal lines := by
  induction lines with
  | nil => exact Nat.le_refl 0
  | cons line rest ih =>
      rw [depthOf_cons, excess, braceTotal]
      omega

/-- Where there are few braces the pass counts the depth. -/
theorem toInt_wordOf (h : IsCounted lines) : (wordOf lines).toInt = depthOf lines := by
  have hbound := natAbs_depthOf_le lines
  unfold IsCounted at h
  exact Int32.toInt_ofInt_of_le (by omega) (by omega)

/-- So it does after one more line. -/
theorem toInt_next {before after : List Line} (h : IsCounted (before ++ line :: after)) :
    (wordOf before + balance line.text).toInt = depthOf before + excess line.text := by
  rw [List.append_cons] at h
  rw [← wordOf_concat, toInt_wordOf h.left, depthOf_concat]

/-! ## Where blocks end -/

/-- The depth of braces right before a line. -/
def depthBefore (lines : List Line) (number : Nat) : Int :=
  depthOf (lines.filter fun l => l.number < number)

/-- The depth of braces after the lines up to a line, this one included. -/
def depthThrough (lines : List Line) (number : Nat) : Int :=
  depthOf (lines.filter fun l => l.number ≤ number)

/-- The number of the first line from a given one on, after which the depth is no more than before
the given one. -/
def balancing? (lines : List Line) (first : Nat) : Option Nat :=
  (lines.find? fun l =>
    first ≤ l.number && depthThrough lines l.number ≤ depthBefore lines first).map Line.number

/-- The last line of a block: the one that balances the braces, or else the first one. -/
def lastLine (lines : List Line) (first : Nat) : Nat :=
  (balancing? lines first).getD first

section

variable {before after : List Line}

theorem depthBefore_eq
    (hordered : (before ++ line :: after).Pairwise fun a b => a.number < b.number) :
    depthBefore (before ++ line :: after) line.number = depthOf before := by
  rw [depthBefore, filter_before hordered]

theorem depthThrough_eq
    (hordered : (before ++ line :: after).Pairwise fun a b => a.number < b.number) :
    depthThrough (before ++ line :: after) line.number = depthOf before + excess line.text := by
  rw [depthThrough, filter_upto hordered, depthOf_concat]

/-- Looking ahead finds the first line after which the count over all lines is low enough. -/
theorem closing?_eq (margin : Int32) (hcounted : IsCounted (before ++ after))
    (hordered : (before ++ after).Pairwise fun a b => a.number < b.number) :
    closing? margin (wordOf before) after =
      (after.find? fun l => decide (depthThrough (before ++ after) l.number ≤ margin.toInt)).map
        Line.number := by
  induction after generalizing before with
  | nil => rfl
  | cons line rest ih =>
      rw [List.append_cons] at hcounted
      have hword : wordOf before + balance line.text ≤ margin ↔
          depthOf (before ++ [line]) ≤ margin.toInt := by
        rw [← wordOf_concat, Int32.le_iff_toInt_le, toInt_wordOf hcounted.left]
      have hrest := ih hcounted (List.append_cons before line rest ▸ hordered)
      rw [wordOf_concat, ← List.append_cons] at hrest
      rw [closing?, List.find?_cons, depthThrough_eq hordered, ← depthOf_concat]
      by_cases hle : depthOf (before ++ [line]) ≤ margin.toInt
      · rw [if_pos (hword.2 hle), decide_eq_true hle]
        rfl
      · rw [if_neg (mt hword.1 hle), decide_eq_false hle]
        exact hrest

/-- Looking ahead from a line on finds the line that balances the braces. -/
theorem closing?_eq_balancing? (hcounted : IsCounted (before ++ line :: after))
    (hordered : (before ++ line :: after).Pairwise fun a b => a.number < b.number) :
    closing? (wordOf before) (wordOf before) (line :: after) =
      balancing? (before ++ line :: after) line.number := by
  obtain ⟨-, hafter, hbefore⟩ := List.pairwise_append.1 hordered
  have hskip : before.find? (fun l => line.number ≤ l.number &&
      depthThrough (before ++ line :: after) l.number ≤
        depthBefore (before ++ line :: after) line.number) = none := by
    apply List.find?_eq_none.2
    intro l hl
    have hlt := hbefore l hl line List.mem_cons_self
    have hnot : ¬ line.number ≤ l.number := by omega
    simp [hnot]
  have hfrom : ∀ l ∈ line :: after, line.number ≤ l.number := by
    refine List.forall_mem_cons.2 ⟨Nat.le_refl _, fun l hl => ?_⟩
    exact Nat.le_of_lt ((List.pairwise_cons.1 hafter).1 l hl)
  rw [closing?_eq _ hcounted hordered, balancing?, List.find?_append, hskip, Option.none_or,
    depthBefore_eq hordered, toInt_wordOf hcounted.left]
  congr 1
  apply List.find?_congr
  intro l hl
  simp [hfrom l hl]

end

/-- A symbol is what one of the lines declares, after the lines before it. -/
theorem exists_split_of_mem_symbolsFrom {y : Symbol} (h : y ∈ symbolsFrom depth locals lines) :
    ∃ before line rest locals', lines = before ++ line :: rest ∧
      declaredAt (depth + wordOf before) locals' line rest = some y := by
  induction lines generalizing depth locals with
  | nil => cases h
  | cons line rest ih =>
      rw [symbolsFrom_cons] at h
      rcases List.mem_append.1 h with h | h
      · refine ⟨[], line, rest, locals, rfl, ?_⟩
        have hzero : depth + wordOf [] = depth := Int32.add_zero depth
        rw [hzero]
        exact Option.mem_toList.1 h
      · obtain ⟨before, line', rest', locals', rfl, hdeclared⟩ := ih h
        refine ⟨line :: before, line', rest', locals', rfl, ?_⟩
        rw [wordOf_cons, ← Int32.add_assoc]
        exact hdeclared

/-- The keys of `locals` are for nobody else to see. -/
theorem visibility_of_local? {y : Symbol} (h : local? line = some y) : y.visibility = .private := by
  obtain ⟨key, -, rfl⟩ := Option.map_eq_some_iff.1 h
  rfl

/-- Of the declarations of a line, the one that everybody may see is the block that it opens. -/
theorem block?_of_declaredAt {y : Symbol} (h : declaredAt depth locals line rest = some y)
    (hpublic : y.visibility = .public) : block? depth line rest = some y := by
  unfold declaredAt at h
  split at h
  · split at h
    · cases h
    · rw [visibility_of_local? h] at hpublic
      cases hpublic
  · split at h
    · cases h
    · exact h

/-- A block ends on one of the lines of the file, and not before its first one. -/
theorem lastLine_bounds {d : Document} (hline : line ∈ linesOf d) :
    line.number ≤ lastLine (linesOf d) line.number ∧
      lastLine (linesOf d) line.number ≤ d.lineTotal := by
  unfold lastLine balancing?
  cases hfound : (linesOf d).find? _ with
  | none => exact ⟨Nat.le_refl _, (linesOf_fit d line hline).last⟩
  | some l =>
      have hbalanced := List.find?_some hfound
      simp only [Bool.and_eq_true, decide_eq_true_eq] at hbalanced
      exact ⟨hbalanced.1, (linesOf_fit d l (List.mem_of_find?_eq_some hfound)).last⟩

/-- Every block of a file ends on the line that balances its braces: the first one, from its first
line on, after which the depth is no more than right before it.  A block whose braces are never
balanced ends on its first line. -/
theorem blocks_end_balanced {d : Document} (hcounted : IsCounted (linesOf d)) :
    ∀ y ∈ blockSymbols (linesOf d), y.visibility = .public →
      ∃ line ∈ linesOf d, ∃ z, opened? line = some z ∧
        y = z.endingOn (lastLine (linesOf d) line.number).toUInt32 ∧
        (d.IsNumbered → y.lineStart.toNat = line.number ∧
          y.lineEnd.toNat = lastLine (linesOf d) line.number) := by
  intro y hy hpublic
  rw [blockSymbols_eq] at hy
  obtain ⟨before, line, rest, locals, hlines, hdeclared⟩ := exists_split_of_mem_symbolsFrom hy
  have hordered := hlines ▸ pairwise_linesOf d
  have hcounted' : IsCounted (before ++ line :: rest) := hlines ▸ hcounted
  have hline : line ∈ linesOf d := hlines ▸ List.mem_append_right before List.mem_cons_self
  have hblock := block?_of_declaredAt hdeclared hpublic
  rw [Int32.zero_add, block?_eq_endingOn, closing?_eq_balancing? hcounted' hordered, ← hlines]
    at hblock
  obtain ⟨z, hopened, rfl⟩ := Option.map_eq_some_iff.1 hblock
  refine ⟨line, hline, z, hopened, rfl, fun hd => ?_⟩
  obtain ⟨⟨name, kind, details⟩, -, rfl⟩ := Option.map_eq_some_iff.1 hopened
  -- The numbers of the lines fit into 32 bits, and the last line is not before the first one.
  have hsmall : d.lineTotal < 2 ^ 32 := hd
  obtain ⟨hfirst, hlast⟩ := linesOf_fit d line hline
  obtain ⟨hle, hend⟩ := lastLine_bounds hline
  rw [Symbol.endingOn_ofDetails]
  constructor
  · exact Symbol.toNat_lineStart hfirst (by omega)
  · rw [Symbol.toNat_lineEnd hfirst (by omega)]
    · exact Nat.max_eq_left hle
    · show lastLine (linesOf d) line.number < 2 ^ 32
      omega

/-- Blocks in blocks, a comment with a brace, a block on one line and one that is never closed. -/
def nestedBlocks : Document :=
  { path := "main.tf"
    bytes := Text.Utf8.encode ("job \"j\" \x7b\n  group \"g\" \x7b\n  # \x7d\n    x = 1\n" ++
      "  \x7d\n  task \"t\" \x7b \x7d\n\x7d\nvariable \"v\" \x7b\n").toList
    limits := {} }

example : (blockSymbols (linesOf nestedBlocks)).map (fun y => (y.name, y.lineStart, y.lineEnd)) =
    [("j", 1, 7), ("g", 2, 5), ("t", 6, 6), ("v", 8, 8)] := by
  decide +kernel

theorem nestedBlocks_group_ends :
    IsCounted (linesOf nestedBlocks) ∧ nestedBlocks.IsNumbered ∧
      ∃ y ∈ blockSymbols (linesOf nestedBlocks),
        y.name = "g" ∧ y.visibility = .public ∧ y.lineStart.toNat = 2 ∧ y.lineEnd.toNat = 5 := by
  have hcounted : IsCounted (linesOf nestedBlocks) := by
    unfold IsCounted
    decide +kernel
  have hnumbered : nestedBlocks.IsNumbered := by
    unfold Document.IsNumbered
    decide +kernel
  have hgroup : ∃ y ∈ blockSymbols (linesOf nestedBlocks),
      y.name = "g" ∧ y.visibility = .public ∧ y.lineStart.toNat = 2 := by
    decide +kernel
  have hlast : lastLine (linesOf nestedBlocks) 2 = 5 := by
    decide +kernel
  obtain ⟨y, hy, hname, hpublic, hfirst⟩ := hgroup
  obtain ⟨line, -, z, -, -, hlines⟩ := blocks_end_balanced hcounted y hy hpublic
  obtain ⟨hstart, hend⟩ := hlines hnumbered
  have hnumber : line.number = 2 := hstart.symm.trans hfirst
  rw [hnumber, hlast] at hend
  exact ⟨hcounted, hnumbered, y, hy, hname, hpublic, hfirst, hend⟩

/-! ## Locals -/

/-- Is the `locals` block that a line opens open after all of some lines from there on? -/
def IsOpenAfter (lines upto : List Line) (opener : Line) : Prop :=
  opensLocals opener = true ∧ ∀ l ∈ upto, opener.number ≤ l.number →
    depthBefore lines opener.number < depthThrough lines l.number

instance (lines upto : List Line) (opener : Line) : Decidable (IsOpenAfter lines upto opener) :=
  inferInstanceAs (Decidable (_ ∧ _))

/-- Does a line stand in the `locals` block that another line opens, and not on its last line? -/
def Encloses (lines : List Line) (opener line : Line) : Prop :=
  opener.number < line.number ∧
    IsOpenAfter lines (lines.filter fun l => l.number ≤ line.number) opener

instance (lines : List Line) (opener line : Line) : Decidable (Encloses lines opener line) :=
  inferInstanceAs (Decidable (_ ∧ _))

/-- Does a line stand in a `locals` block? -/
def StandsInLocals (lines : List Line) (line : Line) : Prop :=
  ∃ opener ∈ lines, Encloses lines opener line

instance (lines : List Line) (line : Line) : Decidable (StandsInLocals lines line) :=
  inferInstanceAs (Decidable (∃ opener ∈ lines, _))

/-- Does a line stand directly in a `locals` block, where only the brace of the block is open? -/
def StandsDirectlyInLocals (lines : List Line) (line : Line) : Prop :=
  ∃ opener ∈ lines, Encloses lines opener line ∧
    depthBefore lines line.number = depthBefore lines opener.number + 1

instance (lines : List Line) (line : Line) : Decidable (StandsDirectlyInLocals lines line) :=
  inferInstanceAs (Decidable (∃ opener ∈ lines, _))

/-- Does the pass know after some lines of the `locals` blocks that are open?  It keeps the depth
before the outermost one. -/
structure Tracks (lines before : List Line) (locals : Option Int32) : Prop where
  sound : ∀ margin ∈ locals, margin.toInt < depthOf before ∧
    ∃ opener ∈ before, IsOpenAfter lines before opener ∧
      depthBefore lines opener.number = margin.toInt
  complete : ∀ opener ∈ before, IsOpenAfter lines before opener →
    ∃ margin ∈ locals, margin.toInt ≤ depthBefore lines opener.number

section

variable {before after : List Line}

/-- After one more line, those blocks are open that the line opens or that it leaves open. -/
theorem isOpenAfter_concat
    (hordered : (before ++ line :: after).Pairwise fun a b => a.number < b.number) (opener : Line) :
    opener ∈ before ++ [line] ∧ IsOpenAfter (before ++ line :: after) (before ++ [line]) opener ↔
      depthBefore (before ++ line :: after) opener.number < depthOf before + excess line.text ∧
        ((opener ∈ before ∧ IsOpenAfter (before ++ line :: after) before opener) ∨
          opener = line ∧ opensLocals line = true) := by
  have hbefore : ∀ l ∈ before, l.number < line.number := fun l hl =>
    (List.pairwise_append.1 hordered).2.2 l hl line List.mem_cons_self
  constructor
  · rintro ⟨hmem, hopens, hopen⟩
    have hupto : opener.number ≤ line.number := by
      rcases List.mem_append.1 hmem with h | h
      · exact Nat.le_of_lt (hbefore opener h)
      · rw [List.mem_singleton.1 h]
    have hline := hopen line (List.mem_append_right before List.mem_cons_self) hupto
    rw [depthThrough_eq hordered] at hline
    refine ⟨hline, ?_⟩
    rcases List.mem_append.1 hmem with h | h
    · exact Or.inl ⟨h, hopens, fun l hl => hopen l (List.mem_append_left _ hl)⟩
    · obtain rfl := List.mem_singleton.1 h
      exact Or.inr ⟨rfl, hopens⟩
  · rintro ⟨hline, ⟨hmem, hopens, hopen⟩ | ⟨rfl, hopens⟩⟩
    · refine ⟨List.mem_append_left _ hmem, hopens, fun l hl hle => ?_⟩
      rcases List.mem_append.1 hl with hl | hl
      · exact hopen l hl hle
      · rwa [List.mem_singleton.1 hl, depthThrough_eq hordered]
    · refine ⟨List.mem_append_right before List.mem_cons_self, hopens, fun l hl hle => ?_⟩
      rcases List.mem_append.1 hl with hl | hl
      · -- No line before the opener counts.
        have hlt := hbefore l hl
        omega
      · rwa [List.mem_singleton.1 hl, depthThrough_eq hordered]

theorem tracks_nil : Tracks lines [] none :=
  ⟨nofun, nofun⟩

/-- Outside `locals`, one line of the pass: no block is open before the line, so only the one that
the line opens itself can be open behind it. -/
theorem Tracks.next_none (hcounted : IsCounted (before ++ line :: after))
    (hordered : (before ++ line :: after).Pairwise fun a b => a.number < b.number)
    (h : Tracks (before ++ line :: after) before none) :
    Tracks (before ++ line :: after) (before ++ [line])
      (localsNext (wordOf before) none line) := by
  have hself := depthBefore_eq hordered
  have hopened := isOpenAfter_concat hordered
  have hnone : ∀ opener ∈ before, ¬ IsOpenAfter (before ++ line :: after) before opener := by
    intro opener hmem hopen
    obtain ⟨margin, hmargin, -⟩ := h.complete opener hmem hopen
    cases hmargin
  have hbefore := toInt_wordOf hcounted.left
  have hword : wordOf before < wordOf before + balance line.text ↔
      depthOf before < depthOf before + excess line.text := by
    rw [Int32.lt_iff_toInt_lt, toInt_next hcounted, hbefore]
  by_cases hopens : opensLocals line = true ∧ depthOf before < depthOf before + excess line.text
  · have hnext : localsNext (wordOf before) none line = some (wordOf before) := by
      simp [localsNext, hopens.1, hword.2 hopens.2]
    rw [hnext]
    constructor
    · rintro margin ⟨⟩
      rw [depthOf_concat, hbefore]
      have hline := (hopened line).2 ⟨hself ▸ hopens.2, Or.inr ⟨rfl, hopens.1⟩⟩
      exact ⟨hopens.2, line, hline.1, hline.2, hself⟩
    · intro opener hmem hopen
      obtain ⟨-, ⟨hearlier, hstill⟩ | ⟨rfl, -⟩⟩ := (hopened opener).1 ⟨hmem, hopen⟩
      · exact absurd hstill (hnone opener hearlier)
      · exact ⟨_, rfl, Int.le_of_eq (hbefore.trans hself.symm)⟩
  · have hnext : localsNext (wordOf before) none line = none := by
      simpa [localsNext, hword] using hopens
    rw [hnext]
    refine ⟨nofun, fun opener hmem hopen => ?_⟩
    obtain ⟨hlt, ⟨hearlier, hstill⟩ | ⟨rfl, hlocals⟩⟩ := (hopened opener).1 ⟨hmem, hopen⟩
    · exact absurd hstill (hnone opener hearlier)
    · exact absurd ⟨hlocals, hself ▸ hlt⟩ hopens

/-- Inside `locals`, one line of the pass: the block that is kept has the least depth before it, so
it is closed last. -/
theorem Tracks.next_some {margin : Int32} (hcounted : IsCounted (before ++ line :: after))
    (hordered : (before ++ line :: after).Pairwise fun a b => a.number < b.number)
    (h : Tracks (before ++ line :: after) before (some margin)) :
    Tracks (before ++ line :: after) (before ++ [line])
      (localsNext (wordOf before) (some margin) line) := by
  have hself := depthBefore_eq hordered
  have hword : wordOf before + balance line.text ≤ margin ↔
      depthOf before + excess line.text ≤ margin.toInt := by
    rw [Int32.le_iff_toInt_le, toInt_next hcounted]
  have hopened := isOpenAfter_concat hordered
  obtain ⟨hlow, first, hfirst, hopen, hdepth⟩ := h.sound margin rfl
  have hleast : ∀ opener ∈ before ++ [line],
      IsOpenAfter (before ++ line :: after) (before ++ [line]) opener →
      margin.toInt ≤ depthBefore (before ++ line :: after) opener.number := by
    intro opener hmem hstill
    obtain ⟨-, ⟨hbefore, hstill⟩ | ⟨rfl, -⟩⟩ := (hopened opener).1 ⟨hmem, hstill⟩
    · obtain ⟨margin', hmargin, hle⟩ := h.complete opener hbefore hstill
      cases hmargin
      exact hle
    · omega
  by_cases hle : depthOf before + excess line.text ≤ margin.toInt
  · have hnext : localsNext (wordOf before) (some margin) line = none := if_pos (hword.2 hle)
    rw [hnext]
    refine ⟨nofun, fun opener hmem hstill => ?_⟩
    have hlt := ((hopened opener).1 ⟨hmem, hstill⟩).1
    have hmargin := hleast opener hmem hstill
    omega
  · have hnext : localsNext (wordOf before) (some margin) line = some margin :=
      if_neg (mt hword.1 hle)
    rw [hnext]
    constructor
    · rintro _ ⟨⟩
      rw [depthOf_concat]
      have hlt : depthBefore (before ++ line :: after) first.number <
          depthOf before + excess line.text := by omega
      have hstill := (hopened first).2 ⟨hlt, Or.inl ⟨hfirst, hopen⟩⟩
      exact ⟨by omega, first, hstill.1, hstill.2, hdepth⟩
    · intro opener hmem hstill
      exact ⟨margin, rfl, hleast opener hmem hstill⟩

theorem Tracks.next (hcounted : IsCounted (before ++ line :: after))
    (hordered : (before ++ line :: after).Pairwise fun a b => a.number < b.number)
    (h : Tracks (before ++ line :: after) before locals) :
    Tracks (before ++ line :: after) (before ++ [line])
      (localsNext (wordOf before) locals line) := by
  cases locals with
  | none => exact h.next_none hcounted hordered
  | some margin => exact h.next_some hcounted hordered

/-- A line stands in a `locals` block exactly if the pass is in one and the line does not end it. -/
theorem Tracks.standsInLocals_iff (hcounted : IsCounted (before ++ line :: after))
    (hordered : (before ++ line :: after).Pairwise fun a b => a.number < b.number)
    (h : Tracks (before ++ line :: after) before locals) :
    StandsInLocals (before ++ line :: after) line ↔
      ∃ margin ∈ locals, margin < wordOf before + balance line.text := by
  have hopened := isOpenAfter_concat hordered
  have hword : ∀ margin : Int32, margin < wordOf before + balance line.text ↔
      margin.toInt < depthOf before + excess line.text := by
    intro margin
    rw [Int32.lt_iff_toInt_lt, toInt_next hcounted]
  constructor
  · rintro ⟨opener, hmem, hlt, hopen⟩
    rw [filter_upto hordered] at hopen
    have hbefore : opener ∈ before := by
      rw [← filter_before hordered]
      exact List.mem_filter.2 ⟨hmem, decide_eq_true hlt⟩
    obtain ⟨hdepth, ⟨-, hstill⟩ | ⟨rfl, -⟩⟩ :=
      (hopened opener).1 ⟨List.mem_append_left _ hbefore, hopen⟩
    · obtain ⟨margin, hmargin, hle⟩ := h.complete opener hbefore hstill
      exact ⟨margin, hmargin, (hword margin).2 (by omega)⟩
    · omega
  · rintro ⟨margin, hmargin, hlt⟩
    obtain ⟨-, opener, hbefore, hstill, hdepth⟩ := h.sound margin hmargin
    rw [hword, ← hdepth] at hlt
    have hopen := (hopened opener).2 ⟨hlt, Or.inl ⟨hbefore, hstill⟩⟩
    have hfirst := (List.pairwise_append.1 hordered).2.2 opener hbefore line List.mem_cons_self
    refine ⟨opener, List.mem_append_left _ hbefore, hfirst, ?_⟩
    rw [filter_upto hordered]
    exact hopen.2

end

/-- All blocks are for everybody to see. -/
theorem visibility_of_declared? {o : Opening} {name : String} {kind : SymbolKind}
    {details : Symbol.Details} (h : declared? o = some (name, kind, details)) :
    details.visibility = none := by
  dsimp only [declared?] at h
  split at h
  all_goals split at h
  all_goals cases h
  all_goals rfl

theorem visibility_of_block? {y : Symbol} (h : block? depth line rest = some y) :
    y.visibility = .public := by
  obtain ⟨⟨name, kind, details⟩, hdeclared, rfl⟩ := Option.map_eq_some_iff.1 h
  obtain ⟨o, -, ho⟩ := Option.bind_eq_some_iff.1 hdeclared
  show details.visibility.getD .public = .public
  rw [visibility_of_declared? ho]
  rfl

/-- What a line declares for nobody else to see is the key of a line in a `locals` block. -/
theorem filter_declaredAt (depth : Int32) (locals : Option Int32) (line : Line) (rest : List Line) :
    (declaredAt depth locals line rest).toList.filter (fun y => y.visibility == .private) =
      if ∃ margin ∈ locals, margin < depth + balance line.text then (local? line).toList
      else [] := by
  cases locals with
  | none =>
      rw [if_neg (by rintro ⟨-, ⟨⟩, -⟩)]
      apply List.filter_eq_nil_iff.2
      intro y hy hprivate
      have hdeclared : declaredAt depth none line rest = some y := Option.mem_toList.1 hy
      unfold declaredAt at hdeclared
      dsimp only at hdeclared
      split at hdeclared
      · cases hdeclared
      · rw [visibility_of_block? hdeclared] at hprivate
        cases hprivate
  | some margin =>
      unfold declaredAt
      by_cases hle : depth + balance line.text ≤ margin
      · have hnot : ¬ ∃ m ∈ some margin, m < depth + balance line.text := by
          rintro ⟨_, ⟨⟩, hlt⟩
          exact Int32.not_le.2 hlt hle
        rw [if_neg hnot]
        simp [hle]
      · have hin : ∃ m ∈ some margin, m < depth + balance line.text :=
          ⟨margin, rfl, Int32.not_le.1 hle⟩
        rw [if_pos hin]
        simp only [if_neg hle]
        apply List.filter_eq_self.2
        intro y hy
        rw [visibility_of_local? (Option.mem_toList.1 hy)]
        rfl

/-- Of the declarations of the lines behind some lines, those for nobody else to see are the keys of
the lines in `locals` blocks. -/
theorem filter_symbolsFrom {before : List Line} (hcounted : IsCounted (before ++ rest))
    (hordered : (before ++ rest).Pairwise fun a b => a.number < b.number)
    (h : Tracks (before ++ rest) before locals) :
    (symbolsFrom (wordOf before) locals rest).filter (fun y => y.visibility == .private) =
      (rest.filter fun line => decide (StandsInLocals (before ++ rest) line)).filterMap local? := by
  induction rest generalizing before locals with
  | nil => rfl
  | cons line rest ih =>
      have hstands := h.standsInLocals_iff hcounted hordered
      have hsplit : before ++ line :: rest = before ++ [line] ++ rest := List.append_cons ..
      have hrest := ih (hsplit ▸ hcounted) (hsplit ▸ hordered) (hsplit ▸ h.next hcounted hordered)
      rw [← hsplit, wordOf_concat] at hrest
      rw [symbolsFrom_cons, List.filter_append, filter_declaredAt, hrest, List.filter_cons]
      by_cases hin : StandsInLocals (before ++ line :: rest) line
      · rw [if_pos (hstands.1 hin), if_pos (decide_eq_true hin), List.filterMap_cons]
        cases local? line <;> rfl
      · have hout : ¬ decide (StandsInLocals (before ++ line :: rest) line) = true :=
          fun hdecide => hin (of_decide_eq_true hdecide)
        rw [if_neg (mt hstands.2 hin), if_neg hout, List.nil_append]

/-- The locals of a file are the keys of the lines that stand in its `locals` blocks. -/
theorem privateSymbols_eq {d : Document} (hcounted : IsCounted (linesOf d)) :
    (blockSymbols (linesOf d)).filter (fun y => y.visibility == .private) =
      ((linesOf d).filter fun line => decide (StandsInLocals (linesOf d) line)).filterMap
        local? := by
  rw [blockSymbols_eq]
  have hstart : Tracks ([] ++ linesOf d) [] none := tracks_nil
  exact filter_symbolsFrom hcounted (pairwise_linesOf d) hstart

/-- A local keeps the number of its line. -/
theorem toNat_lineStart_of_local? {d : Document} {y : Symbol} (hd : d.IsNumbered)
    (hline : line ∈ linesOf d) (h : local? line = some y) : y.lineStart.toNat = line.number := by
  obtain ⟨key, -, rfl⟩ := Option.map_eq_some_iff.1 h
  have hsmall : d.lineTotal < 2 ^ 32 := hd
  obtain ⟨hfirst, hlast⟩ := linesOf_fit d line hline
  exact Symbol.toNat_lineStart hfirst (by omega)

/-- Two lines of a file with one number are one line. -/
theorem eq_of_number_eq {d : Document} {line line' : Line} (hline : line ∈ linesOf d)
    (hline' : line' ∈ linesOf d) (h : line.number = line'.number) : line = line' := by
  have hnodup : ((linesOf d).map Line.number).Nodup :=
    List.pairwise_map.2 ((pairwise_linesOf d).imp Nat.ne_of_lt)
  exact List.inj_on_of_nodup_map hnodup hline hline' h

/-- All locals of a file stand directly in a `locals` block exactly if no line in such a block gives
a value to a key further inside, as the lines of a map do. -/
theorem locals_stand_directly_iff {d : Document} (hd : d.IsNumbered)
    (hcounted : IsCounted (linesOf d)) :
    (∀ y ∈ blockSymbols (linesOf d), y.visibility = .private →
      ∃ line ∈ linesOf d, local? line = some y ∧ StandsDirectlyInLocals (linesOf d) line) ↔
    ∀ line ∈ linesOf d, (localKey? line.text).isSome → StandsInLocals (linesOf d) line →
      StandsDirectlyInLocals (linesOf d) line := by
  have hlocals : ∀ y, y ∈ blockSymbols (linesOf d) ∧ y.visibility = .private ↔
      ∃ line ∈ linesOf d, StandsInLocals (linesOf d) line ∧ local? line = some y := by
    intro y
    have hfilter : y ∈ (blockSymbols (linesOf d)).filter (fun y => y.visibility == .private) ↔
        y ∈ blockSymbols (linesOf d) ∧ y.visibility = .private := by
      simp
    rw [← hfilter, privateSymbols_eq hcounted]
    simp [and_assoc]
  constructor
  · intro h line hline hkey hin
    obtain ⟨key, hkey⟩ := Option.isSome_iff_exists.1 hkey
    obtain ⟨y, hy⟩ : ∃ y, local? line = some y := ⟨_, congrArg _ hkey⟩
    obtain ⟨hmem, hprivate⟩ := (hlocals y).2 ⟨line, hline, hin, hy⟩
    obtain ⟨line', hline', hy', hdirect⟩ := h y hmem hprivate
    have hnumber := (toNat_lineStart_of_local? hd hline hy).symm.trans
      (toNat_lineStart_of_local? hd hline' hy')
    rwa [eq_of_number_eq hline hline' hnumber]
  · intro h y hmem hprivate
    obtain ⟨line, hline, hin, hy⟩ := (hlocals y).1 ⟨hmem, hprivate⟩
    obtain ⟨key, hkey, -⟩ := Option.map_eq_some_iff.1 hy
    exact ⟨line, hline, hy, h line hline (by rw [hkey]; rfl) hin⟩

/-- A map of a local over several lines. -/
def mapInLocals : Document :=
  { path := "main.tf"
    bytes := Text.Utf8.encode
      "locals \x7b\n  tags = \x7b\n    team = \"core\"\n  \x7d\n\x7d\n".toList
    limits := {} }

example : (blockSymbols (linesOf mapInLocals)).map (fun y => (y.qualifiedName, y.lineStart)) =
    [("local.tags", 2), ("local.team", 3)] := by
  decide +kernel

theorem mapInLocals_not_directly :
    ¬ ∀ y ∈ blockSymbols (linesOf mapInLocals), y.visibility = .private →
      ∃ line ∈ linesOf mapInLocals, local? line = some y ∧
        StandsDirectlyInLocals (linesOf mapInLocals) line := by
  decide +kernel

/-- A map of a local on one line. -/
def mapOnLine : Document :=
  { path := "main.tf"
    bytes := Text.Utf8.encode
      "locals \x7b\n  prefix = \"a\"\n  tags = \x7b team = \"core\" \x7d\n\x7d\n".toList
    limits := {} }

theorem mapOnLine_directly :
    mapOnLine.IsNumbered ∧ IsCounted (linesOf mapOnLine) ∧
      (∃ y ∈ blockSymbols (linesOf mapOnLine), y.visibility = .private) ∧
      ∀ y ∈ blockSymbols (linesOf mapOnLine), y.visibility = .private →
        ∃ line ∈ linesOf mapOnLine, local? line = some y ∧
          StandsDirectlyInLocals (linesOf mapOnLine) line := by
  have hnumbered : mapOnLine.IsNumbered := by
    unfold Document.IsNumbered
    decide +kernel
  have hcounted : IsCounted (linesOf mapOnLine) := by
    unfold IsCounted
    decide +kernel
  have hlocal : ∃ y ∈ blockSymbols (linesOf mapOnLine), y.visibility = .private := by
    decide +kernel
  have hdirectly : ∀ line ∈ linesOf mapOnLine, (localKey? line.text).isSome →
      StandsInLocals (linesOf mapOnLine) line →
      StandsDirectlyInLocals (linesOf mapOnLine) line := by
    decide +kernel
  exact ⟨hnumbered, hcounted, hlocal, (locals_stand_directly_iff hnumbered hcounted).2 hdirectly⟩

end Declarations.HCL

end SourceIndex
