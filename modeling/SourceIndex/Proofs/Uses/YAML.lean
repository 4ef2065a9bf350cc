import Mathlib.Data.List.Induction
import SourceIndex.Proofs.Extents.YAML
import SourceIndex.Proofs.Text.Search

/-!
# Parts and lists of YAML

What is open behind some lines of a pipeline is told by the lines.  The part is the one that the
last heading starts, since any other line goes on with the part that it stands in.  A list is open
as long as every line behind the one that opens it says nothing or is an item of the list.  No line
that opens a list is an item, whichever list it opens, and none opens two lists.
-/

namespace SourceIndex.Idiom.YAML

open SourceIndex.Text (Pattern)
open SourceIndex.Text.Pattern (StartsWith startsWith_word startsWith_char exists_of_reads_blanks1)

section

variable {line text : List Char} {s : Section}

theorem exists_of_fits {p : Pattern Char} (h : fits p line = true) :
    ∃ read rest, line = read ++ rest ∧ p.Reads read := by
  obtain ⟨m, hm⟩ := Option.isSome_iff_exists.1 h
  obtain ⟨read, rest, hline, hread, -⟩ := Pattern.exists_read_of_matchAt? hm
  exact ⟨read, rest, hline, hread⟩

theorem startsWith_openKey {name : String} {c : Char} {rest : List Char}
    (h : name.toList = c :: rest) : (openKey name).StartsWith c :=
  ((startsWith_word h).seqs _).seqs _

/-! ## Headings -/

/-- Does a line start a part?  It says something in the first column, and is no item of a list. -/
def isHeading (line : List Char) : Bool :=
  line.head?.any (fun c => !Text.isBlank c) && !"- ".toList.isPrefixOf line && isContent line

instance (text : List Char) : Decidable (OpensStages text) :=
  inferInstanceAs (Decidable (_ = _))

/-- The part that a heading starts. -/
def partOf (heading : List Char) : Section :=
  if OpensStages heading then .stages else if fits jobsKey heading then .jobs else .top

theorem isHeading_cons {c : Char} (hblank : Text.isBlank c = false) (hcomment : c ≠ '#')
    (hitem : c ≠ '-') (rest : List Char) : isHeading (c :: rest) = true := by
  have hprefix : "- ".toList.isPrefixOf (c :: rest) = false := by
    rw [Bool.eq_false_iff, ne_eq, List.isPrefixOf_iff_prefix]
    rintro ⟨behind, hbehind⟩
    exact hitem (List.cons.inj hbehind).1.symm
  rw [isHeading, hprefix, (content_cons hblank hcomment rest).1]
  simp [hblank]

theorem OpensStages.isHeading (h : OpensStages text) : isHeading text = true := by
  obtain ⟨-, blanks, -, rfl⟩ := Text.Chars.trimEnd_eq_iff.1 h
  exact isHeading_cons (by decide) (by decide) (by decide) _

theorem isHeading_of_jobsKey (h : fits jobsKey line = true) : isHeading line = true := by
  obtain ⟨read, behind, rfl, hread⟩ := exists_of_fits h
  obtain ⟨rest, rfl⟩ := startsWith_openKey (rfl : "jobs".toList = _) _ hread
  exact isHeading_cons (by decide) (by decide) (by decide) _

/-- A heading starts its part, and any other line goes on with the part that it stands in. -/
theorem Section.next_eq (s : Section) (line : List Char) :
    s.next line = if isHeading line then partOf line else s := by
  by_cases hopens : OpensStages line
  · rw [if_pos hopens.isHeading, partOf, if_pos hopens, Section.next, if_pos (beq_iff_eq.2 hopens)]
  · rw [Section.next, if_neg (mt beq_iff_eq.1 hopens), partOf, if_neg hopens]
    by_cases hjobs : fits jobsKey line = true
    · rw [if_pos hjobs, if_pos hjobs, if_pos (isHeading_of_jobsKey hjobs)]
    · rw [if_neg hjobs, if_neg hjobs]
      rfl

/-- The part is that of the last heading. -/
theorem foldl_next_eq (s : Section) (texts : List (List Char)) :
    texts.foldl Section.next s = ((texts.filter isHeading).getLast?.map partOf).getD s := by
  induction texts using List.reverseRecOn with
  | nil => rfl
  | append_singleton before line ih =>
      rw [List.foldl_append, List.foldl_cons, List.foldl_nil, ih, Section.next_eq,
        List.filter_append]
      by_cases hheading : isHeading line = true
      · simp [hheading]
      · simp [hheading]

/-- A line belongs to the part after the lines up to it. -/
theorem eq_foldl_of_mem_withSection {part : Section} {number : Nat} {texts : List (List Char)}
    {l : Line} (h : (part, l) ∈ withSection s (linesFrom number texts)) :
    number ≤ l.number ∧ part = (texts.take (l.number + 1 - number)).foldl Section.next s := by
  induction texts generalizing s number with
  | nil => cases h
  | cons text after ih =>
      rcases List.mem_cons.1 h with h | h
      · obtain ⟨rfl, rfl⟩ := Prod.mk.inj h
        constructor
        · exact Nat.le_refl number
        · rw [Nat.add_sub_cancel_left]
          rfl
      · -- The lines up to it are the first one and those behind the first one.
        obtain ⟨hle, hpart⟩ := ih h
        have hsize : l.number + 1 - number = l.number + 1 - (number + 1) + 1 := by omega
        constructor
        · omega
        · rw [hsize, List.take_succ_cons, List.foldl_cons]
          exact hpart

end

section

variable {l s : ListField} {line : List Char} {lines : List (List Char)} {found : String}

/-! ## Lists -/

/-- The key of the line that opens a list. -/
def ListField.key? : ListField → Option String
  | closed => none
  | parents => some "extends"
  | needs => some "needs"

/-- Does a line open a list? -/
def ListField.Opens (l : ListField) (line : List Char) : Prop :=
  ∃ key ∈ l.key?, fits (.seq .blanks1 (openKey key)) line = true

/-- Does a list go on with a line?  It says nothing, or is an item of the list. -/
def ListField.Keeps (l : ListField) (line : List Char) : Prop :=
  isContent line = false ∨ (l.item? line).isSome = true

/-- Is a list open behind some lines?  Going back over the lines with which it goes on, one comes to
the line that opens it. -/
def ListField.IsOpenAfter (l : ListField) (lines : List (List Char)) : Prop :=
  ∃ before opener between, lines = before ++ opener :: between ∧ l.Opens opener ∧
    ∀ line ∈ between, l.Keeps line

/-- The list that is being read after some lines. -/
def listAfter (lines : List (List Char)) : ListField :=
  lines.foldl (fun l line => (l.next line).1) .closed

theorem head?_trim_of_fits {p : Pattern Char} {c : Char} (hp : p.StartsWith c)
    (hc : Text.isBlank c = false) (h : fits (.seq .blanks1 p) line = true) :
    (Text.Chars.trim line).head? = some c := by
  obtain ⟨read, behind, rfl, hread⟩ := exists_of_fits h
  obtain ⟨blanks, rest, rfl, hblanks⟩ := exists_of_reads_blanks1 hp hread
  rw [List.append_assoc, List.cons_append, Text.Chars.trim_append_cons hblanks hc]
  rfl

/-- A line that opens a list starts with the key of the list, blanks aside. -/
theorem ListField.Opens.head?_trim (h : l.Opens line) :
    (l = parents ∧ (Text.Chars.trim line).head? = some 'e') ∨
      (l = needs ∧ (Text.Chars.trim line).head? = some 'n') := by
  obtain ⟨key, hkey, hfits⟩ := h
  cases l with
  | closed => cases hkey
  | parents =>
      obtain rfl := Option.some.inj hkey
      have hstart := startsWith_openKey (rfl : "extends".toList = _)
      exact Or.inl ⟨rfl, head?_trim_of_fits hstart (by decide) hfits⟩
  | needs =>
      obtain rfl := Option.some.inj hkey
      have hstart := startsWith_openKey (rfl : "needs".toList = _)
      exact Or.inr ⟨rfl, head?_trim_of_fits hstart (by decide) hfits⟩

/-- A line opens one list at most. -/
theorem ListField.Opens.unique (h : l.Opens line) (h' : s.Opens line) : l = s := by
  rcases h.head?_trim with ⟨rfl, hl⟩ | ⟨rfl, hl⟩ <;>
    rcases h'.head?_trim with ⟨rfl, hs⟩ | ⟨rfl, hs⟩ <;> first | rfl | cases hl.symm.trans hs

/-- An item starts with a dash, blanks aside. -/
theorem head?_trim_of_item? (h : l.item? line = some found) :
    (Text.Chars.trim line).head? = some '-' := by
  have hitem : ∀ content, first? (item content) line = some found →
      (Text.Chars.trim line).head? = some '-' := by
    intro content hfirst
    obtain ⟨m, hm, -⟩ := Option.bind_eq_some_iff.1 hfirst
    have hfits : fits (item content) line = true := Option.isSome_iff_exists.2 ⟨m, hm⟩
    exact head?_trim_of_fits ((startsWith_char '-').seqs _) (by decide) hfits
  cases l with
  | closed => cases h
  | parents => exact hitem _ h
  | needs => exact hitem _ h

theorem isContent_of_head?_trim {c : Char} (h : (Text.Chars.trim line).head? = some c)
    (hc : c ≠ '#') : isContent line = true := by
  obtain ⟨rest, hrest⟩ := List.head?_eq_some_iff.1 h
  rw [isContent, hrest]
  exact bne_iff_ne.2 hc

/-- A line with which a list goes on opens none: what opens one says something, and starts as no
item does. -/
theorem ListField.Keeps.not_opens (h : l.Keeps line) (l' : ListField) : ¬l'.Opens line := by
  intro hopens
  obtain ⟨c, hc, hcomment, hdash⟩ : ∃ c, (Text.Chars.trim line).head? = some c ∧ c ≠ '#' ∧
      c ≠ '-' := by
    rcases hopens.head?_trim with ⟨-, hhead⟩ | ⟨-, hhead⟩ <;>
      exact ⟨_, hhead, by decide, by decide⟩
  rcases h with hblank | hitem
  · rw [isContent_of_head?_trim hc hcomment] at hblank
    cases hblank
  · obtain ⟨found, hfound⟩ := Option.isSome_iff_exists.1 hitem
    exact hdash (Option.some.inj (hc.symm.trans (head?_trim_of_item? hfound)))

/-- A line that opens a list is read as that and no more, whatever list was read before. -/
theorem ListField.next_of_opens (h : l.Opens line) (s : ListField) : s.next line = (l, none) := by
  by_cases hneeds : fits (.seq .blanks1 (openKey "needs")) line = true
  · have hl : l = needs := h.unique ⟨_, rfl, hneeds⟩
    rw [next, if_pos hneeds, hl]
  · obtain ⟨key, hkey, hfits⟩ := h
    cases l with
    | closed => cases hkey
    | needs =>
        obtain rfl := Option.some.inj hkey
        exact absurd hfits hneeds
    | parents =>
        obtain rfl := Option.some.inj hkey
        rw [next, if_neg hneeds, if_pos hfits]

/-- Any other line is an item of the list, says nothing, or closes the list. -/
theorem ListField.next_of_not_opens (h : ∀ l : ListField, ¬l.Opens line) (s : ListField) :
    s.next line =
      if isContent line = false then (s, none)
      else if (s.item? line).isSome then (s, s.item? line) else (closed, none) := by
  have hneeds : ¬fits (.seq .blanks1 (openKey "needs")) line = true :=
    fun hfits => h needs ⟨_, rfl, hfits⟩
  have hparents : ¬fits (.seq .blanks1 (openKey "extends")) line = true :=
    fun hfits => h parents ⟨_, rfl, hfits⟩
  rw [next, if_neg hneeds, if_neg hparents]
  cases isContent line <;> cases s.item? line <;> simp

/-- A list is read behind a line that opens it, and behind one with which it goes on. -/
theorem ListField.next_fst_eq_iff (hl : l ≠ closed) (s : ListField) (line : List Char) :
    (s.next line).1 = l ↔ l.Opens line ∨ (s = l ∧ l.Keeps line) := by
  by_cases hopens : ∃ l' : ListField, l'.Opens line
  · obtain ⟨l', hopens⟩ := hopens
    rw [next_of_opens hopens]
    constructor
    · rintro rfl
      exact Or.inl hopens
    · rintro (h | ⟨-, h⟩)
      · exact hopens.unique h
      · exact absurd hopens (h.not_opens l')
  · have hnone : ∀ l' : ListField, ¬l'.Opens line := fun l' h => hopens ⟨l', h⟩
    rw [next_of_not_opens hnone]
    by_cases hcontent : isContent line = false
    · rw [if_pos hcontent]
      exact ⟨fun h => Or.inr ⟨h, Or.inl hcontent⟩, fun h => (h.resolve_left (hnone l)).1⟩
    · rw [if_neg hcontent]
      by_cases hitem : (s.item? line).isSome = true
      · rw [if_pos hitem]
        constructor
        · rintro rfl
          exact Or.inr ⟨rfl, Or.inr hitem⟩
        · exact fun h => (h.resolve_left (hnone l)).1
      · rw [if_neg hitem]
        constructor
        · exact fun h => absurd h.symm hl
        · intro h
          obtain ⟨rfl, hkeeps⟩ := h.resolve_left (hnone l)
          exact absurd (hkeeps.resolve_left hcontent) hitem

/-- An item is found on a line that opens no list and is an item of the list that is being read. -/
theorem ListField.next_snd_eq_some_iff (s : ListField) (line : List Char) (found : String) :
    (s.next line).2 = some found ↔
      (∀ l : ListField, ¬l.Opens line) ∧ s.item? line = some found := by
  by_cases hopens : ∃ l : ListField, l.Opens line
  · obtain ⟨l, hopens⟩ := hopens
    rw [next_of_opens hopens]
    exact iff_of_false nofun fun h => h.1 l hopens
  · have hnone : ∀ l : ListField, ¬l.Opens line := fun l h => hopens ⟨l, h⟩
    rw [next_of_not_opens hnone]
    constructor
    · intro h
      refine ⟨hnone, ?_⟩
      split at h
      · cases h
      · split at h
        · exact h
        · cases h
    · rintro ⟨-, hitem⟩
      -- What is an item of a list says something.
      have hcontent : isContent line = true :=
        isContent_of_head?_trim (head?_trim_of_item? hitem) (by decide)
      rw [hcontent, hitem]
      rfl

theorem ListField.isOpenAfter_concat_iff (lines : List (List Char)) (line : List Char) :
    l.IsOpenAfter (lines ++ [line]) ↔ l.Opens line ∨ (l.IsOpenAfter lines ∧ l.Keeps line) := by
  constructor
  · rintro ⟨before, opener, between, hlines, hopens, hbetween⟩
    cases between using List.reverseRecOn with
    | nil =>
        obtain ⟨-, hline⟩ := List.append_inj' hlines rfl
        obtain rfl := (List.cons.inj hline).1
        exact Or.inl hopens
    | append_singleton between last =>
        rw [← List.cons_append, ← List.append_assoc] at hlines
        obtain ⟨rfl, hlast⟩ := List.append_inj' hlines rfl
        obtain rfl := (List.cons.inj hlast).1
        have hkeeps := List.forall_mem_append.1 hbetween
        exact Or.inr ⟨⟨before, opener, between, rfl, hopens, hkeeps.1⟩,
          hkeeps.2 line List.mem_cons_self⟩
  · rintro (hopens | ⟨⟨before, opener, between, rfl, hopens, hbetween⟩, hkeeps⟩)
    · exact ⟨lines, line, [], rfl, hopens, List.forall_mem_nil _⟩
    · refine ⟨before, opener, between ++ [line], by simp, hopens, ?_⟩
      exact List.forall_mem_append.2 ⟨hbetween, List.forall_mem_singleton.2 hkeeps⟩

/-- The list that is read after some lines is the one that is open behind them. -/
theorem listAfter_eq_iff (hl : l ≠ .closed) (lines : List (List Char)) :
    listAfter lines = l ↔ l.IsOpenAfter lines := by
  induction lines using List.reverseRecOn with
  | nil =>
      constructor
      · exact fun h => absurd h.symm hl
      · rintro ⟨before, opener, between, hlines, -⟩
        exact absurd hlines.symm (by simp)
  | append_singleton lines line ih =>
      rw [ListField.isOpenAfter_concat_iff, ← ih, listAfter, List.foldl_append]
      exact ListField.next_fst_eq_iff hl _ line

/-- The last heading decides the part of a line, and of what follows the lines.  An item is found on
a line exactly if the line opens no list, and going back from it over the items of a list, and over
lines that say nothing, one comes to the line that opens the list. -/
theorem lines_tell_state (texts : List (List Char)) :
    texts.foldl Section.next .top = ((texts.filter isHeading).getLast?.map partOf).getD .top ∧
    (∀ part line, (part, line) ∈ withSection .top (linesFrom 1 texts) →
      part = (((texts.take line.number).filter isHeading).getLast?.map partOf).getD .top) ∧
    ∀ before line found, ((listAfter before).next line).2 = some found ↔
      (∀ l : ListField, ¬l.Opens line) ∧
        ∃ l : ListField, l.item? line = some found ∧ l.IsOpenAfter before := by
  constructor
  · exact foldl_next_eq .top texts
  constructor
  · intro part line h
    obtain ⟨-, hpart⟩ := eq_foldl_of_mem_withSection h
    rw [Nat.add_sub_cancel] at hpart
    rw [hpart, foldl_next_eq]
  · intro before line found
    rw [ListField.next_snd_eq_some_iff]
    -- The list that gives the item is the one that is being read.
    have hopen : ∀ {l : ListField}, l.item? line = some found →
        (listAfter before = l ↔ l.IsOpenAfter before) := by
      intro l hitem
      apply listAfter_eq_iff
      rintro rfl
      cases hitem
    constructor
    · rintro ⟨hnone, hitem⟩
      exact ⟨hnone, _, hitem, (hopen hitem).1 rfl⟩
    · rintro ⟨hnone, l, hitem, hl⟩
      rw [(hopen hitem).2 hl]
      exact ⟨hnone, hitem⟩

/-- The stages, a job, and behind it the jobs of another kind of pipeline. -/
def mixedParts : List (List Char) :=
  ["stages:", "  - build", "- test", "", "# note", "job:", "jobs:", "  a:", "on: push"].map
    String.toList

/-- A list of jobs that a job needs, with an item, an empty line and a comment. -/
def openNeeds : List (List Char) :=
  ["  needs:", "    - job: compile", "", "  # other"].map String.toList

theorem mixedParts_tell_state :
    (withSection .top (linesFrom 1 mixedParts)).map Prod.fst =
      [.stages, .stages, .stages, .stages, .stages, .top, .jobs, .jobs, .top] ∧
    (Section.jobs, Line.mk 8 "  a:".toList ["on: push".toList]) ∈
      withSection .top (linesFrom 1 mixedParts) ∧
    Section.jobs = (((mixedParts.take 8).filter isHeading).getLast?.map partOf).getD .top ∧
    ((listAfter openNeeds).next "    - package".toList).2 = some "package" ∧
    ∃ l : ListField, l.item? "    - package".toList = some "package" ∧ l.IsOpenAfter openNeeds := by
  obtain ⟨-, hparts, hitems⟩ := lines_tell_state mixedParts
  have hmem : (Section.jobs, Line.mk 8 "  a:".toList ["on: push".toList]) ∈
      withSection .top (linesFrom 1 mixedParts) := by
    decide +kernel
  have hitem : ((listAfter openNeeds).next "    - package".toList).2 = some "package" := by
    decide +kernel
  exact ⟨by decide +kernel, hmem, hparts _ _ hmem, hitem, ((hitems _ _ _).1 hitem).2⟩

end

end SourceIndex.Idiom.YAML
