import SourceIndex.Proofs.Lines.Configuration

/-!
# Where HCL uses names

Blocks nest, and the symbol of a block goes on to the line that closes its braces.  Uses count for
the block with labels that was opened last, which is forgotten nowhere.  So a use in a block counts
for it up to the first block with labels inside, and from there on for inner blocks, also behind
their ends.
-/

namespace SourceIndex

open Idiom.HCL

variable {d : Document} {lines : List Line}

namespace Declarations.HCL

/-! ## Blocks and their depths -/

/-- A block that declares, with the depth of braces before it. -/
structure Block where
  depth : Int32
  opening : Opening
  symbol : Symbol
  deriving Repr, DecidableEq

/-- The block that a line opens, if it declares. -/
def openedBlock? (depth : Int32) (line : Line) (rest : List Line) : Option Block :=
  (opening? line.text).bind fun opening =>
    (block? depth line rest).map fun symbol => ⟨depth, opening, symbol⟩

/-- The blocks among the declarations of some lines, after a depth of braces.  Inside a `locals`
block, `locals` is the depth before it. -/
def blocksFrom (depth : Int32) (locals : Option Int32) : List Line → List Block
  | [] => []
  | line :: rest =>
      let after := depth + balance line.text
      match locals with
      | some margin => blocksFrom after (if after ≤ margin then none else some margin) rest
      | none =>
          if opensLocals line then
            blocksFrom after (if depth < after then some depth else none) rest
          else
            (openedBlock? depth line rest).toList ++ blocksFrom after none rest

/-- Is it a resource, a source of data or of images, or a module? -/
def Block.IsNamed (b : Block) : Prop :=
  b.opening.keyword ∈ ["resource", "source", "data", "module"]

instance (b : Block) : Decidable b.IsNamed :=
  inferInstanceAs (Decidable (_ ∈ _))

variable {depth : Int32} {locals : Option Int32} {line : Line} {rest : List Line} {b : Block}

/-- A line opens a block that declares exactly if it has a symbol. -/
theorem openedBlock?_symbol (depth : Int32) (line : Line) (rest : List Line) :
    (openedBlock? depth line rest).map Block.symbol = block? depth line rest := by
  unfold openedBlock? block?
  cases opening? line.text with
  | none => rfl
  | some o =>
      rw [Option.bind_some, Option.bind_some, Option.map_map]
      exact congrFun Option.map_id _

/-- The symbols of the blocks are the symbols of the file that everybody may see; the others are
keys of `locals`. -/
theorem blocksFrom_symbols (depth : Int32) (locals : Option Int32) (lines : List Line) :
    (blocksFrom depth locals lines).map Block.symbol =
      (symbolsFrom depth locals lines).filter fun y => y.visibility == .public := by
  induction lines generalizing depth locals with
  | nil => rfl
  | cons line rest ih =>
      cases locals with
      | some margin =>
          have hlocal : (local? line).toList.filter (fun y => y.visibility == .public) = [] := by
            unfold local?
            cases localKey? line.text <;> rfl
          simp only [blocksFrom, symbolsFrom, ih]
          split
          · rfl
          · rw [List.filter_append, hlocal, List.nil_append]
      | none =>
          have hblock : (block? depth line rest).toList.filter (fun y => y.visibility == .public) =
              (block? depth line rest).toList := by
            refine List.filter_eq_self.2 fun y hy => beq_iff_eq.2 ?_
            exact visibility_of_block? (Option.mem_toList.1 hy)
          simp only [blocksFrom, symbolsFrom]
          split
          · exact ih _ _
          · rw [List.map_append, List.filter_append, ih, hblock, ← openedBlock?_symbol,
              Option.toList_map]

/-- So a block has a symbol of the file. -/
theorem symbol_mem_of_mem_blocksFrom (h : b ∈ blocksFrom 0 none lines) :
    b.symbol ∈ blockSymbols lines := by
  have hmem := List.mem_map_of_mem (f := Block.symbol) h
  rw [blocksFrom_symbols] at hmem
  rw [blockSymbols_eq]
  exact (List.mem_filter.1 hmem).1

/-- The depth of a block is that of the braces before it. -/
theorem exists_split_of_mem_blocksFrom (h : b ∈ blocksFrom depth locals lines) :
    ∃ before line rest, lines = before ++ line :: rest ∧
      b.depth = before.foldl (fun depth l => depth + balance l.text) depth ∧
      openedBlock? b.depth line rest = some b := by
  induction lines generalizing depth locals with
  | nil => cases h
  | cons line rest ih =>
      have hrest : ∀ {inner : Option Int32}, b ∈ blocksFrom (depth + balance line.text) inner rest →
          ∃ before line' rest', line :: rest = before ++ line' :: rest' ∧
            b.depth = before.foldl (fun depth l => depth + balance l.text) depth ∧
            openedBlock? b.depth line' rest' = some b := by
        intro inner hmem
        obtain ⟨before, line', rest', rfl, hdepth, hblock⟩ := ih hmem
        exact ⟨line :: before, line', rest', rfl, hdepth, hblock⟩
      cases locals with
      | some margin => exact hrest h
      | none =>
          simp only [blocksFrom] at h
          split at h
          · exact hrest h
          · rcases List.mem_append.1 h with h | h
            · have hopened := Option.mem_toList.1 h
              have hdepth : b.depth = depth := by
                obtain ⟨o, -, ho⟩ := Option.bind_eq_some_iff.1 hopened
                obtain ⟨y, -, rfl⟩ := Option.map_eq_some_iff.1 ho
                rfl
              exact ⟨[], line, rest, rfl, hdepth, hdepth ▸ hopened⟩
            · exact hrest h

theorem toNat_lineStart_of_openedBlock? (h : openedBlock? depth line rest = some b)
    (hfirst : 1 ≤ line.number) (hsmall : line.number < 2 ^ 32) :
    b.symbol.lineStart.toNat = line.number := by
  obtain ⟨o, -, h⟩ := Option.bind_eq_some_iff.1 h
  obtain ⟨y, hy, rfl⟩ := Option.map_eq_some_iff.1 h
  obtain ⟨⟨name, kind, details⟩, -, rfl⟩ := Option.map_eq_some_iff.1 hy
  exact Symbol.toNat_lineStart hfirst hsmall

end Declarations.HCL

namespace Uses.HCL

open Declarations.HCL

/-! ## The block that counts -/

variable {line opener : Line} {rest : List Line} {b : Block} {u : Reference}

/-- The name of the last block with labels that some lines open. -/
def lastName? (lines : List Line) : Option String :=
  (lines.filterMap fun line => blockName? line.text).getLast?

theorem lastName?_cons (line : Line) (rest : List Line) :
    lastName? (line :: rest) = (lastName? rest).or (blockName? line.text) :=
  getLast?_filterMap_cons _ line rest

theorem lastName?_append (before after : List Line) :
    lastName? (before ++ after) = (lastName? after).or (lastName? before) := by
  rw [lastName?, List.filterMap_append, List.getLast?_append]
  rfl

/-- A use counts for the last block with labels up to its line. -/
theorem exists_split_of_mem_usesFrom {block : Option String} (h : u ∈ usesFrom block lines) :
    ∃ before line after, lines = before ++ line :: after ∧ u.line = line.number.toUInt32 ∧
      u.sourceName = (lastName? (before ++ [line])).or block := by
  induction lines generalizing block with
  | nil => cases h
  | cons line rest ih =>
      rcases List.mem_append.1 h with h | h
      · obtain ⟨target, -, rfl⟩ := List.mem_map.1 h
        refine ⟨[], line, rest, rfl, rfl, ?_⟩
        rw [List.nil_append, lastName?_cons]
        rfl
      · obtain ⟨before, line', after, rfl, hline, hname⟩ := ih h
        refine ⟨line :: before, line', after, rfl, hline, ?_⟩
        rw [hname, List.cons_append, lastName?_cons, Option.or_assoc]

/-- The name by which the uses know a block is the one that its symbol is qualified by. -/
theorem blockName?_of_openedBlock? {depth : Int32} (h : openedBlock? depth line rest = some b)
    (hnamed : b.IsNamed) : blockName? line.text = some b.symbol.qualifiedName := by
  obtain ⟨⟨keyword, labels⟩, hopening, h⟩ := Option.bind_eq_some_iff.1 h
  obtain ⟨y, hy, rfl⟩ := Option.map_eq_some_iff.1 h
  rw [block?, hopening, Option.bind_some] at hy
  rw [blockName?, hopening, Option.bind_some]
  obtain ⟨⟨name, kind, details⟩, hdeclared, rfl⟩ := Option.map_eq_some_iff.1 hy
  simp only [Block.IsNamed, List.mem_cons, List.not_mem_nil, or_false] at hnamed
  show _ = some (details.qualifiedName.getD name)
  match labels with
  | [type, label] =>
      rcases hnamed with rfl | rfl | rfl | rfl
      all_goals cases hdeclared
      all_goals rfl
  | [label] =>
      rcases hnamed with rfl | rfl | rfl | rfl
      all_goals cases hdeclared
      all_goals rfl
  | [] => rcases hnamed with rfl | rfl | rfl | rfl <;> cases hdeclared
  | _ :: _ :: _ :: _ => rcases hnamed with rfl | rfl | rfl | rfl <;> cases hdeclared

/-! ## Attribution -/

/-- Does a use stand in a block, behind its first line? -/
def StandsInside (b : Block) (u : Reference) : Prop :=
  b.symbol.lineStart < u.line ∧ u.line ≤ b.symbol.lineEnd

instance (b : Block) (u : Reference) : Decidable (StandsInside b u) :=
  inferInstanceAs (Decidable (_ ∧ _))

/-- Of the lines behind one number and up to another, the name of the last block with labels. -/
def innerName? (lines : List Line) (first last : Nat) : Option String :=
  lastName? (lines.filter fun line => first < line.number && line.number ≤ last)

/-- The lines up to a number are those up to a smaller one and those in between. -/
theorem filter_upto_eq_append {first last : Nat} (hle : first ≤ last)
    (hordered : lines.Pairwise fun a b => a.number < b.number) :
    lines.filter (fun l => l.number ≤ last) =
      lines.filter (fun l => l.number ≤ first) ++
        lines.filter (fun l => first < l.number && l.number ≤ last) := by
  induction lines with
  | nil => rfl
  | cons line rest ih =>
      obtain ⟨hline, hrest⟩ := List.pairwise_cons.1 hordered
      by_cases hfirst : line.number ≤ first
      · have hlast : line.number ≤ last := Nat.le_trans hfirst hle
        have hnot : ¬ first < line.number := Nat.not_lt_of_le hfirst
        simp only [List.filter_cons, hfirst, hlast, hnot, decide_true, decide_false, if_true,
          Bool.false_and, Bool.false_eq_true, if_false, ih hrest, List.cons_append]
      · -- From here on all lines stand behind the smaller number.
        have hbehind : ∀ l ∈ line :: rest, first < l.number := by
          refine List.forall_mem_cons.2 ⟨Nat.lt_of_not_le hfirst, fun l hl => ?_⟩
          exact Nat.lt_trans (Nat.lt_of_not_le hfirst) (hline l hl)
        have hnone : (line :: rest).filter (fun l => l.number ≤ first) = [] := by
          refine List.filter_eq_nil_iff.2 fun l hl hupto => ?_
          exact Nat.not_lt_of_le (decide_eq_true_iff.1 hupto) (hbehind l hl)
        rw [hnone, List.nil_append]
        refine List.filter_congr fun l hl => ?_
        rw [decide_eq_true (hbehind l hl), Bool.true_and]

/-- Behind the first line of a block the inner blocks count, and the block itself only where there
are none. -/
theorem sourceName_of_behind (hd : d.IsNumbered) (hb : b ∈ blocksFrom 0 none (linesOf d))
    (hnamed : b.IsNamed) (hu : u ∈ usesFrom none (linesOf d))
    (hbehind : b.symbol.lineStart < u.line) :
    u.sourceName = (innerName? (linesOf d) b.symbol.lineStart.toNat u.line.toNat).or
      (some b.symbol.qualifiedName) := by
  obtain ⟨before, line, after, hline, hnumber, hname⟩ := exists_split_of_mem_usesFrom hu
  obtain ⟨earlier, opener, later, hopener, -, hopens⟩ := exists_split_of_mem_blocksFrom hb
  have hsmall : d.lineTotal < 2 ^ 32 := hd
  have hlast : u.line.toNat = line.number := by
    have hfits := linesOf_fit d line (hline ▸ List.mem_append_right before List.mem_cons_self)
    rw [hnumber, toNat_toUInt32 (Nat.lt_of_le_of_lt hfits.last hsmall)]
  have hfirst : b.symbol.lineStart.toNat = opener.number := by
    have hfits := linesOf_fit d opener (hopener ▸ List.mem_append_right earlier List.mem_cons_self)
    exact toNat_lineStart_of_openedBlock? hopens hfits.first
      (Nat.lt_of_le_of_lt hfits.last hsmall)
  have hordered := pairwise_linesOf d
  have hle : opener.number ≤ line.number := by
    have hlt := UInt32.lt_iff_toNat_lt.1 hbehind
    omega
  have huptoLine : (linesOf d).filter (fun l => l.number ≤ line.number) = before ++ [line] := by
    rw [hline] at hordered ⊢
    exact filter_upto hordered
  have huptoOpener : (linesOf d).filter (fun l => l.number ≤ opener.number) =
      earlier ++ [opener] := by
    rw [hopener] at hordered ⊢
    exact filter_upto hordered
  have hopenerName : lastName? (earlier ++ [opener]) = some b.symbol.qualifiedName := by
    rw [lastName?_append, lastName?_cons, blockName?_of_openedBlock? hopens hnamed]
    rfl
  rw [hname, hfirst, hlast, Option.or_none, ← huptoLine, filter_upto_eq_append hle hordered,
    lastName?_append, huptoOpener, hopenerName]
  rfl

/-- The block has a symbol, and a use inside the block counts for it exactly if the last block with
labels that was opened behind its first line, if there is one, has its name. -/
theorem use_inside_attributed_iff (hd : d.IsNumbered) (hb : b ∈ blocksFrom 0 none (linesOf d))
    (hnamed : b.IsNamed) (hu : u ∈ usesFrom none (linesOf d)) (hinside : StandsInside b u) :
    b.symbol ∈ blockSymbols (linesOf d) ∧
      (u.sourceName = some b.symbol.qualifiedName ↔
        ∀ name ∈ innerName? (linesOf d) b.symbol.lineStart.toNat u.line.toNat,
          name = b.symbol.qualifiedName) := by
  refine ⟨symbol_mem_of_mem_blocksFrom hb, ?_⟩
  rw [sourceName_of_behind hd hb hnamed hu hinside.1]
  cases innerName? (linesOf d) b.symbol.lineStart.toNat u.line.toNat with
  | none => exact iff_of_true rfl nofun
  | some inner =>
      rw [Option.some_or, Option.some_inj]
      exact ⟨fun heq name hname => (Option.some.inj hname).symm.trans heq, fun h => h inner rfl⟩

/-- A resource with a block of its own, and variables before and behind that one. -/
def blockInResource : Document :=
  { path := "main.tf"
    bytes := Text.Utf8.encode ("resource \"a_b\" \"c\" \x7b\n  x = var.y\n" ++
      "  provisioner \"local-exec\" \x7b\n  \x7d\n  z = var.w\n\x7d\n").toList
    limits := {} }

example : (usesFrom none (linesOf blockInResource)).map (fun u => (u.targetName, u.sourceName)) =
    [("y", some "a_b.c"), ("w", some "local-exec")] := by
  decide +kernel

theorem blockInResource_not_attributed :
    ¬ ∀ b ∈ blocksFrom 0 none (linesOf blockInResource), b.depth = 0 → b.IsNamed →
      ∀ u ∈ usesFrom none (linesOf blockInResource), StandsInside b u →
        u.sourceName = some b.symbol.qualifiedName := by
  decide +kernel

theorem blockInResource_attributed_before :
    blockInResource.IsNumbered ∧ ∃ b ∈ blocksFrom 0 none (linesOf blockInResource), b.depth = 0 ∧
      b.IsNamed ∧ ∃ u ∈ usesFrom none (linesOf blockInResource), StandsInside b u ∧
        u.sourceName = some b.symbol.qualifiedName := by
  have hnumbered : blockInResource.IsNumbered := by
    unfold Document.IsNumbered
    decide +kernel
  have huse : ∃ b ∈ blocksFrom 0 none (linesOf blockInResource), b.depth = 0 ∧ b.IsNamed ∧
      ∃ u ∈ usesFrom none (linesOf blockInResource), StandsInside b u ∧
        ∀ name ∈ innerName? (linesOf blockInResource) b.symbol.lineStart.toNat u.line.toNat,
          name = b.symbol.qualifiedName := by
    decide +kernel
  obtain ⟨b, hb, hdepth, hnamed, u, hu, hinside, hinner⟩ := huse
  exact ⟨hnumbered, b, hb, hdepth, hnamed, u, hu, hinside,
    (use_inside_attributed_iff hnumbered hb hnamed hu hinside).2.2 hinner⟩

end Uses.HCL

end SourceIndex
