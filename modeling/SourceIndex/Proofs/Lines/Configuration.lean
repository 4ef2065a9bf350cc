import SourceIndex.Declarations.YAML
import SourceIndex.Proofs.Extents.HCL
import SourceIndex.Uses.HCL
import SourceIndex.Uses.YAML

/-!
# Lines of HCL and YAML

Both are read line by line: what a line declares or uses stands on it, and a block ends on one of
the lines from its first one on.
-/

namespace SourceIndex

/-- The last of what some entries give is what those behind the first one give, or else this one. -/
theorem getLast?_filterMap_cons {α β : Type} (f : α → Option β) (a : α) (rest : List α) :
    ((a :: rest).filterMap f).getLast? = (rest.filterMap f).getLast?.or (f a) := by
  cases h : f a with
  | none => rw [List.filterMap_cons_none h, Option.or_none]
  | some b =>
      rw [List.filterMap_cons_some h, List.getLast?_cons]
      cases (rest.filterMap f).getLast? <;> rfl

/-! ## Lines of HCL

A block ends on one of the lines from its first one on. -/

section

variable {d : Document} {n : Nat}

namespace Idiom.HCL

/-- The line on which a block is closed is one of the lines. -/
theorem exists_of_closing? {margin depth : Int32} {lines : List Line} {last : Nat}
    (h : closing? margin depth lines = some last) : ∃ line ∈ lines, line.number = last := by
  induction lines generalizing depth with
  | nil => cases h
  | cons line rest ih =>
      simp only [closing?] at h
      split at h
      · cases h
        exact ⟨line, List.mem_cons_self, rfl⟩
      · obtain ⟨line', hline', heq⟩ := ih h
        exact ⟨line', List.mem_cons_of_mem line hline', heq⟩

end Idiom.HCL

open Idiom.HCL

namespace Declarations.HCL

variable {line : Line} {rest : List Line}

theorem standsIn_of_fits (hsmall : n < 2 ^ 32) (h : line.Fits n) {last : Nat} (hlast : last ≤ n)
    {name : String} {kind : SymbolKind} {details : Symbol.Details} :
    (Symbol.ofDetails name kind line.number.toUInt32 last.toUInt32 details).StandsIn n :=
  Symbol.standsIn_of_numbers hsmall (Nat.le_trans h.first h.last) h.last hlast

theorem block?_standsIn (hsmall : n < 2 ^ 32) (h : ∀ l ∈ line :: rest, l.Fits n) {depth : Int32} :
    ∀ y ∈ block? depth line rest, y.StandsIn n := by
  intro y hy
  obtain ⟨⟨name, kind, details⟩, -, rfl⟩ := Option.map_eq_some_iff.1 hy
  have hline := h line List.mem_cons_self
  refine standsIn_of_fits hsmall hline ?_
  cases hclosing : closing? depth depth (line :: rest) with
  | none => exact hline.last
  | some last =>
      obtain ⟨l, hl, rfl⟩ := exists_of_closing? hclosing
      exact (h l hl).last

theorem local?_standsIn (hsmall : n < 2 ^ 32) (h : line.Fits n) :
    ∀ y ∈ local? line, y.StandsIn n := by
  intro y hy
  obtain ⟨key, -, rfl⟩ := Option.map_eq_some_iff.1 hy
  exact standsIn_of_fits hsmall h h.last

theorem value?_standsIn (hsmall : n < 2 ^ 32) (h : line.Fits n) :
    ∀ y ∈ value? line, y.StandsIn n := by
  intro y hy
  obtain ⟨key, -, rfl⟩ := Option.map_eq_some_iff.1 hy
  exact standsIn_of_fits hsmall h h.last

theorem symbolsFrom_stand (hsmall : n < 2 ^ 32) {depth : Int32} {locals : Option Int32}
    {lines : List Line} (h : ∀ line ∈ lines, line.Fits n) :
    ∀ y ∈ symbolsFrom depth locals lines, y.StandsIn n := by
  induction lines generalizing depth locals with
  | nil => exact fun y hy => absurd hy List.not_mem_nil
  | cons line rest ih =>
      have hrest : ∀ line ∈ rest, line.Fits n := fun l hl => h l (List.mem_cons_of_mem line hl)
      simp only [symbolsFrom]
      split
      · split
        · exact ih hrest
        · refine List.forall_mem_append.2 ⟨fun y hy => ?_, ih hrest⟩
          exact local?_standsIn hsmall (h line List.mem_cons_self) y (Option.mem_toList.1 hy)
      · split
        · exact ih hrest
        · refine List.forall_mem_append.2 ⟨fun y hy => ?_, ih hrest⟩
          exact block?_standsIn hsmall h y (Option.mem_toList.1 hy)

theorem symbols_stand (hd : d.IsNumbered) : ∀ y ∈ symbols d, y.StandsIn d.lineTotal := by
  unfold symbols
  split
  · intro y hy
    obtain ⟨line, hline, hy⟩ := List.mem_filterMap.1 hy
    exact value?_standsIn hd (linesOf_fit d line hline) y hy
  · rw [blockSymbols_eq]
    exact symbolsFrom_stand hd (linesOf_fit d)

end Declarations.HCL

namespace Uses.HCL

theorem usesFrom_stand (hsmall : n < 2 ^ 32) {block : Option String} {lines : List Line}
    (h : ∀ line ∈ lines, line.Fits n) : ∀ r ∈ usesFrom block lines, r.StandsIn n := by
  induction lines generalizing block with
  | nil => nofun
  | cons line rest ih =>
      have hrest : ∀ line ∈ rest, line.Fits n := fun l hl => h l (List.mem_cons_of_mem line hl)
      obtain ⟨hfirst, hlast⟩ := h line List.mem_cons_self
      refine List.forall_mem_append.2 ⟨fun r hr => ?_, ih hrest⟩
      obtain ⟨target, -, rfl⟩ := List.mem_map.1 hr
      exact Reference.standsIn_of_number hsmall hfirst hlast

theorem references_stand (hd : d.IsNumbered) : ∀ r ∈ references d, r.StandsIn d.lineTotal := by
  unfold references
  split
  · nofun
  · exact usesFrom_stand hd (linesOf_fit d)

end Uses.HCL

end

/-! ## Lines of YAML

A line of a file knows its number and the lines after it, which together are no more than the file
has.  A block ends on the line that opens it or on one of the lines after it. -/

section

variable {d : Document} {n : Nat}

namespace Idiom.YAML

/-- Do a line and the lines after it stand on the first so many lines? -/
structure Line.Fits (n : Nat) (line : Line) : Prop where
  first : 1 ≤ line.number
  last : line.number + line.after.length ≤ n

theorem fits_of_mem_linesFrom {number : Nat} (hone : 1 ≤ number) {texts : List (List Char)}
    {line : Line} (h : line ∈ linesFrom number texts) : line.Fits (number + texts.length - 1) := by
  induction texts generalizing number with
  | nil => cases h
  | cons text after ih =>
      rw [List.length_cons]
      rcases List.mem_cons.1 h with rfl | h
      · exact ⟨hone, by simp only; omega⟩
      · obtain ⟨hfirst, hlast⟩ := ih (by omega) h
        exact ⟨hfirst, by omega⟩

theorem linesOf_fit (d : Document) : ∀ line ∈ linesOf d, line.Fits d.lineTotal := by
  intro line hline
  obtain ⟨hfirst, hlast⟩ := fits_of_mem_linesFrom (Nat.le_refl 1) hline
  have hlines := d.length_lines_le
  exact ⟨hfirst, by omega⟩

/-- A block ends no later than the lines do. -/
theorem blockEndFrom_le {margin last number : Nat} {after : List (List Char)}
    (h : last < number) : blockEndFrom margin last number after < number + after.length := by
  induction after generalizing last number with
  | nil => exact h
  | cons line after ih =>
      rw [List.length_cons, blockEndFrom]
      split
      · have hrest : blockEndFrom margin last (number + 1) after < number + 1 + after.length :=
          ih (by omega)
        omega
      · split
        · omega
        · have hrest : blockEndFrom margin number (number + 1) after < number + 1 + after.length :=
            ih (Nat.lt_succ_self number)
          omega

theorem Line.Fits.number_le {line : Line} (h : line.Fits n) : line.number ≤ n :=
  Nat.le_trans (Nat.le_add_right _ _) h.last

theorem Line.Fits.blockEnd_le {line : Line} (h : line.Fits n) (margin : Nat) :
    line.blockEnd margin ≤ n := by
  have hend : line.blockEnd margin < line.number + 1 + line.after.length :=
    blockEndFrom_le (Nat.lt_succ_self line.number)
  have hlast := h.last
  omega

theorem Line.Fits.use_standsIn {line : Line} (h : line.Fits n) (hsmall : n < 2 ^ 32)
    {kind : ReferenceKind} {scope : Option String} {target : String} :
    (line.use kind scope target).StandsIn n :=
  Reference.standsIn_of_number hsmall h.first h.number_le

/-- A symbol from a line on stands on the lines of the file, if it ends on one of them. -/
theorem Line.Fits.symbol_standsIn {line : Line} (h : line.Fits n) (hsmall : n < 2 ^ 32) {last : Nat}
    (hlast : last ≤ n) {name : String} {kind : SymbolKind} {signature : String} :
    (symbol name kind line.number last signature).StandsIn n :=
  Symbol.standsIn_of_numbers hsmall (Nat.le_trans h.first h.number_le) h.number_le hlast

/-- The parts that lines belong to do not change the lines. -/
theorem mem_of_mem_withSection {s : Section} {lines : List Line} {l : Section × Line}
    (h : l ∈ withSection s lines) : l.2 ∈ lines := by
  induction lines generalizing s with
  | nil => cases h
  | cons line rest ih =>
      rcases List.mem_cons.1 h with rfl | h
      · exact List.mem_cons_self
      · exact List.mem_cons_of_mem line (ih h)

end Idiom.YAML

open Idiom.YAML

namespace Declarations.YAML

variable {s : Section} {line : Line}

theorem gitlabLine_standsIn (h : line.Fits n) (hsmall : n < 2 ^ 32) :
    ∀ y ∈ gitlabLine s line, y.StandsIn n := by
  intro y hy
  unfold gitlabLine at hy
  split at hy
  · obtain ⟨stage, -, rfl⟩ := Option.map_eq_some_iff.1 hy
    exact h.symbol_standsIn hsmall h.number_le
  · obtain ⟨k, -, rfl⟩ := Option.map_eq_some_iff.1 hy
    exact h.symbol_standsIn hsmall (h.blockEnd_le 0)

theorem workflow?_standsIn (h : line.Fits n) (hsmall : n < 2 ^ 32) :
    ∀ y ∈ workflow? line, y.StandsIn n := by
  intro y hy
  obtain ⟨name, -, rfl⟩ := Option.map_eq_some_iff.1 hy
  exact h.symbol_standsIn hsmall h.number_le

theorem job?_standsIn (h : line.Fits n) (hsmall : n < 2 ^ 32) :
    ∀ y ∈ job? line, y.StandsIn n := by
  intro y hy
  obtain ⟨job, -, rfl⟩ := Option.map_eq_some_iff.1 hy
  exact h.symbol_standsIn hsmall (h.blockEnd_le 2)

theorem used?_standsIn (h : line.Fits n) (hsmall : n < 2 ^ 32) :
    ∀ y ∈ used? line, y.StandsIn n := by
  intro y hy
  obtain ⟨target, -, hy⟩ := Option.bind_eq_some_iff.1 hy
  dsimp only at hy
  split at hy
  · cases hy
  · -- What a workflow uses is not exported, which changes no line.
    have hstands : (symbol (Idiom.GitHub.workflowName target) .class line.number line.number
        ("uses: " ++ target)).StandsIn n := h.symbol_standsIn hsmall h.number_le
    obtain rfl := Option.some.inj hy
    exact hstands.of_lines rfl rfl

theorem githubLine_stands (h : line.Fits n) (hsmall : n < 2 ^ 32) :
    ∀ y ∈ githubLine s line, y.StandsIn n := by
  intro y hy
  rcases List.mem_append.1 hy with hy | hy
  · exact workflow?_standsIn h hsmall y (Option.mem_toList.1 hy)
  · split at hy
    · rcases Option.or_eq_some_iff.1 (Option.mem_toList.1 hy) with hy | ⟨-, hy⟩
      · exact job?_standsIn h hsmall y hy
      · exact used?_standsIn h hsmall y hy
    · cases hy

theorem plainLine_standsIn (h : line.Fits n) (hsmall : n < 2 ^ 32) :
    ∀ y ∈ plainLine line, y.StandsIn n := by
  intro y hy
  obtain ⟨k, -, rfl⟩ := Option.map_eq_some_iff.1 hy
  refine h.symbol_standsIn hsmall ?_
  split
  · exact h.blockEnd_le 0
  · exact h.number_le

theorem symbols_stand (hd : d.IsNumbered) : ∀ y ∈ symbols d, y.StandsIn d.lineTotal := by
  intro y hy
  simp only [symbols] at hy
  split at hy
  · obtain ⟨⟨s, line⟩, hline, hy⟩ := List.mem_filterMap.1 hy
    exact gitlabLine_standsIn (linesOf_fit d line (mem_of_mem_withSection hline)) hd y hy
  · obtain ⟨⟨s, line⟩, hline, hy⟩ := List.mem_flatMap.1 hy
    exact githubLine_stands (linesOf_fit d line (mem_of_mem_withSection hline)) hd y hy
  · obtain ⟨line, hline, hy⟩ := List.mem_filterMap.1 hy
    exact plainLine_standsIn (linesOf_fit d line hline) hd y hy

end Declarations.YAML

namespace Uses.YAML

variable {line : Line} {job : Option String} {list : ListField} {item : Option String}

theorem uses_stand (h : line.Fits n) (hsmall : n < 2 ^ 32) {kind : ReferenceKind}
    {targets : List String} : ∀ r ∈ targets.map (line.use kind job), r.StandsIn n := by
  intro r hr
  obtain ⟨target, -, rfl⟩ := List.mem_map.1 hr
  exact h.use_standsIn hsmall

theorem gitlabLine_stands (h : line.Fits n) (hsmall : n < 2 ^ 32) :
    ∀ r ∈ gitlabLine job list item line, r.StandsIn n := by
  simp only [gitlabLine, List.forall_mem_append]
  exact ⟨⟨uses_stand h hsmall, uses_stand h hsmall⟩, uses_stand h hsmall⟩

theorem gitlabFrom_stands (hsmall : n < 2 ^ 32) {s : Setting} {lines : List Line}
    (h : ∀ line ∈ lines, line.Fits n) : ∀ r ∈ gitlabFrom s lines, r.StandsIn n := by
  induction lines generalizing s with
  | nil => nofun
  | cons line rest ih =>
      refine List.forall_mem_append.2 ⟨?_, ih fun l hl => h l (List.mem_cons_of_mem line hl)⟩
      exact gitlabLine_stands (h line List.mem_cons_self) hsmall

theorem githubLine_stands (h : line.Fits n) (hsmall : n < 2 ^ 32) :
    ∀ r ∈ githubLine job list item line, r.StandsIn n := by
  unfold githubLine
  split
  · intro r hr
    obtain rfl := List.mem_singleton.1 hr
    exact h.use_standsIn hsmall
  · exact uses_stand h hsmall

theorem githubFrom_stands (hsmall : n < 2 ^ 32) {s : Setting} {lines : List (Section × Line)}
    (h : ∀ l ∈ lines, l.2.Fits n) : ∀ r ∈ githubFrom s lines, r.StandsIn n := by
  induction lines generalizing s with
  | nil => nofun
  | cons l rest ih =>
      have hrest : ∀ l ∈ rest, l.2.Fits n := fun l' hl => h l' (List.mem_cons_of_mem l hl)
      simp only [githubFrom]
      split
      · exact ih hrest
      · split
        · exact ih hrest
        · refine List.forall_mem_append.2 ⟨?_, ih hrest⟩
          exact githubLine_stands (h l List.mem_cons_self) hsmall

theorem references_stand (hd : d.IsNumbered) : ∀ r ∈ references d, r.StandsIn d.lineTotal := by
  simp only [references]
  split
  · exact gitlabFrom_stands hd (linesOf_fit d)
  · exact githubFrom_stands hd fun l hl => linesOf_fit d l.2 (mem_of_mem_withSection hl)
  · nofun

end Uses.YAML

end

end SourceIndex
