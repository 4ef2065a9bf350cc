import SourceIndex.Proofs.Extents.YAML

/-!
# Where GitLab pipelines use names

A job or template of a pipeline stands on the lines of its block.  Uses count for the job whose key
was read last, which is not forgotten where its block ends.  So the uses in a job count for it, but
those in a template count for the job before it, and so do those that stand in no block.
-/

namespace SourceIndex

namespace Idiom.YAML

/-! ## Reserved keys -/

/-- The key of the line that opens the stages, if it is read as a key at all. -/
theorem name_of_opensStages {text : List Char} {k : TopKey} (h : topKey? text = some k)
    (hopens : OpensStages text) : k.name = "stages" := by
  obtain ⟨-, blanks, hblanks, htext⟩ := Text.Chars.trimEnd_eq_iff.1 hopens
  have hcolon : ':' ∉ blanks := fun hmem => absurd (hblanks ':' hmem) (by decide)
  obtain ⟨-, -, name, value, hsplit, -, -, rfl⟩ := topKey?_eq_some_iff.1 h
  have hline : "stages".toList ++ ':' :: blanks = name ++ ':' :: value :=
    htext.symm.trans (splitKey?_eq_some_iff.1 hsplit).1
  obtain ⟨rfl, -, -⟩ := (List.append_cons_inj_of_notMem (by decide) hcolon).1 hline
  change String.ofList (Text.Chars.trimEnd "stages".toList) = "stages"
  decide

end Idiom.YAML

open Idiom Idiom.YAML

/-! ## Jobs and templates -/

namespace Declarations.YAML

/-- The key of a line that opens the block of a job or template. -/
def unitKey? (line : Line) : Option TopKey :=
  (topKey? line.text).filter fun k => k.isBlock && !GitLab.isReserved k.name

/-- The job or template that a line opens. -/
def unit? (line : Line) : Option Symbol :=
  (unitKey? line).map fun k =>
    symbol k.name (if GitLab.isTemplate k.name then .class else .function) line.number
      (line.blockEnd 0)
      ((if GitLab.isTemplate k.name then "template: " else "job: ") ++ k.name)

/-- Is a symbol a job or a template? -/
def IsUnit (y : Symbol) : Prop :=
  y.kind = .function ∨ y.kind = .class

instance (y : Symbol) : Decidable (IsUnit y) :=
  inferInstanceAs (Decidable (_ ∨ _))

variable {line : Line} {y : Symbol}

theorem of_unitKey? {k : TopKey} (h : unitKey? line = some k) :
    topKey? line.text = some k ∧ k.isBlock = true ∧ GitLab.isReserved k.name = false := by
  obtain ⟨hkey, hblock⟩ := Option.filter_eq_some_iff.1 h
  obtain ⟨hblock, hreserved⟩ := Bool.and_eq_true_iff.1 hblock
  exact ⟨hkey, hblock, Bool.not_eq_eq_eq_not.mp hreserved⟩

/-- A line that opens a job or a template is not one of the stages. -/
theorem next_ne_stages {k : TopKey} (h : unitKey? line = some k) (s : Section) :
    s.next line.text ≠ .stages := by
  obtain ⟨hkey, -, hreserved⟩ := of_unitKey? h
  obtain ⟨⟨c, rest, htext, hc⟩, hitem, -⟩ := topKey?_eq_some_iff.1 hkey
  obtain ⟨hcontent, -⟩ := content_of_topKey? hkey
  unfold Section.next
  split
  · rename_i htrim
    rw [name_of_opensStages hkey (beq_iff_eq.1 htrim)] at hreserved
    cases hreserved
  · split
    · nofun
    · have htop : line.text.head?.any (fun c => !Text.isBlank c) = true := by
        rw [htext, List.head?_cons, Option.any_some, isBlank_of_startsKey hc]
        rfl
      rw [htop, hitem, hcontent, if_pos (by decide)]
      nofun

/-- A line gives a job or a template exactly if it opens one, whatever part it belongs to. -/
theorem gitlabLine_eq_some_iff {s : Section} (hunit : IsUnit y) :
    gitlabLine (s.next line.text) line = some y ↔ unit? line = some y := by
  rw [gitlabLine]
  split
  · rename_i hstages
    refine iff_of_false ?_ ?_
    · intro h
      obtain ⟨stage, -, rfl⟩ := Option.map_eq_some_iff.1 h
      rcases hunit with hkind | hkind <;> cases hkind
    · intro h
      obtain ⟨k, hk, -⟩ := Option.map_eq_some_iff.1 h
      exact next_ne_stages hk s (beq_iff_eq.1 hstages)
  · exact Iff.rfl

/-- The jobs and templates of a pipeline are those that its lines open. -/
theorem mem_gitlabSymbols_iff {lines : List Line} (hunit : IsUnit y) :
    y ∈ gitlabSymbols lines ↔ ∃ line ∈ lines, unit? line = some y := by
  unfold gitlabSymbols
  generalize Section.top = s
  induction lines generalizing s with
  | nil => exact iff_of_false List.not_mem_nil nofun
  | cons line rest ih =>
      simp only [withSection, List.mem_filterMap, List.mem_cons, exists_eq_or_imp,
        gitlabLine_eq_some_iff hunit]
      rw [← ih (s.next line.text), List.mem_filterMap]

/-- Does a symbol stand around a use? -/
def StandsAround (y : Symbol) (u : Reference) : Prop :=
  y.lineStart ≤ u.line ∧ u.line ≤ y.lineEnd

instance (y : Symbol) (u : Reference) : Decidable (StandsAround y u) :=
  inferInstanceAs (Decidable (_ ∧ _))

/-- A job or template stands around the line that opens it and those of its block. -/
theorem standsAround_iff {opener line : Line} {u : Reference} (h : unit? opener = some y)
    (hfits : opener.Fits n) (hline : line.number ≤ n) (hsmall : n < 2 ^ 32)
    (hu : u.line = line.number.toUInt32) :
    StandsAround y u ↔
      opener.number ≤ line.number ∧ line.number ≤ max (opener.blockEnd 0) opener.number := by
  obtain ⟨k, -, rfl⟩ := Option.map_eq_some_iff.1 h
  have hfirst := hfits.first
  have hnumber := hfits.number_le
  have hend := hfits.blockEnd_le 0
  rw [StandsAround, hu, UInt32.le_iff_toNat_le, UInt32.le_iff_toNat_le, symbol,
    Symbol.toNat_lineStart hfirst (by omega), Symbol.toNat_lineEnd hfirst (by omega) (by omega),
    toNat_toUInt32 (by omega)]

end Declarations.YAML

namespace Uses.YAML

open Declarations.YAML

/-! ## The job that counts -/

variable {lines : List Line} {job : Option String}

/-- The job whose key stands on a line. -/
def jobKey? (line : Line) : Option String :=
  ((topKey? line.text).filter fun k =>
    !GitLab.isReserved k.name && !GitLab.isTemplate k.name).map TopKey.name

theorem gitlabJob_eq (job : Option String) (line : Line) :
    gitlabJob job line = (jobKey? line).or job :=
  rfl

theorem jobKey?_of_topKey? {line : Line} (h : topKey? line.text = none) : jobKey? line = none := by
  rw [jobKey?, h]
  rfl

/-- Lines without keys change no job. -/
theorem foldl_gitlabJob_of_none (h : ∀ line ∈ lines, jobKey? line = none) :
    lines.foldl gitlabJob job = job := by
  induction lines with
  | nil => rfl
  | cons line rest ih =>
      rw [List.foldl_cons, gitlabJob_eq, h line List.mem_cons_self, Option.none_or]
      exact ih fun l hl => h l (List.mem_cons_of_mem line hl)

/-- Without a job at the start there is one as soon as a line has its key, and ever since. -/
theorem foldl_gitlabJob_eq_none_iff :
    lines.foldl gitlabJob job = none ↔ job = none ∧ ∀ line ∈ lines, jobKey? line = none := by
  induction lines generalizing job with
  | nil => exact ⟨fun h => ⟨h, nofun⟩, fun h => h.1⟩
  | cons line rest ih =>
      rw [List.foldl_cons, ih, gitlabJob_eq, Option.or_eq_none_iff, List.forall_mem_cons]
      exact ⟨fun h => ⟨h.1.2, h.1.1, h.2⟩, fun h => ⟨⟨h.2.1, h.1⟩, h.2.2⟩⟩

/-- No template is ever a job. -/
theorem isTemplate_of_mem_foldl (hjob : ∀ name ∈ job, GitLab.isTemplate name = false) :
    ∀ name ∈ lines.foldl gitlabJob job, GitLab.isTemplate name = false := by
  induction lines generalizing job with
  | nil => exact hjob
  | cons line rest ih =>
      refine ih fun name hname => ?_
      rcases Option.or_eq_some_iff.1 hname with hname | ⟨-, hname⟩
      · obtain ⟨k, hk, rfl⟩ := Option.map_eq_some_iff.1 hname
        have hkey := (Option.filter_eq_some_iff.1 hk).2
        exact Bool.not_eq_eq_eq_not.mp (Bool.and_eq_true_iff.1 hkey).2
      · exact hjob name hname

theorem of_mem_gitlabLine {list : ListField} {item : Option String} {line : Line} {u : Reference}
    (h : u ∈ gitlabLine job list item line) :
    u.line = line.number.toUInt32 ∧ u.sourceName = job := by
  have huse : ∀ (kind : ReferenceKind) (targets : List String),
      u ∈ targets.map (line.use kind job) → u.line = line.number.toUInt32 ∧ u.sourceName = job := by
    intro kind targets hu
    obtain ⟨target, -, rfl⟩ := List.mem_map.1 hu
    exact ⟨rfl, rfl⟩
  rcases List.mem_append.1 h with h | h
  · rcases List.mem_append.1 h with h | h
    · exact huse _ _ h
    · exact huse _ _ h
  · exact huse _ _ h

/-- A use counts for the job after all lines up to its own. -/
theorem exists_split_of_mem_gitlabFrom {s : Setting} {u : Reference} (h : u ∈ gitlabFrom s lines) :
    ∃ before line after, lines = before ++ line :: after ∧ u.line = line.number.toUInt32 ∧
      u.sourceName = (before ++ [line]).foldl gitlabJob s.job := by
  induction lines generalizing s with
  | nil => cases h
  | cons line rest ih =>
      rcases List.mem_append.1 h with h | h
      · exact ⟨[], line, rest, rfl, of_mem_gitlabLine h⟩
      · obtain ⟨before, line', after, rfl, hline, hjob⟩ := ih h
        exact ⟨line :: before, line', after, rfl, hline, hjob⟩

/-! ## Attribution -/

variable {texts : List (List Char)} {before after : List Line} {line opener : Line}

/-- The lines before a line, with that line, are those with a number up to its own. -/
theorem mem_before_iff (hlines : linesFrom 1 texts = before ++ line :: after) (l : Line) :
    l ∈ before ++ [line] ↔ l ∈ linesFrom 1 texts ∧ l.number ≤ line.number := by
  have hordered : (before ++ [line] ++ after).Pairwise fun a b => a.number < b.number := by
    rw [← List.append_cons, ← hlines]
    exact pairwise_linesFrom 1 texts
  obtain ⟨hupto, -, hbehind⟩ := List.pairwise_append.1 hordered
  have hall : l ∈ linesFrom 1 texts ↔ l ∈ before ++ [line] ∨ l ∈ after := by
    rw [hlines, List.append_cons before, List.mem_append]
  rw [hall]
  constructor
  · intro hl
    refine ⟨Or.inl hl, ?_⟩
    rcases List.mem_append.1 hl with h | h
    · exact Nat.le_of_lt ((List.pairwise_append.1 hupto).2.2 l h line List.mem_cons_self)
    · exact Nat.le_of_eq (congrArg Line.number (List.mem_singleton.1 h))
  · rintro ⟨h | h, hle⟩
    · exact h
    · have hlt := hbehind line (List.mem_append_right before List.mem_cons_self) l h
      omega

/-- In the block that a line opens, the job is the one after that line. -/
theorem foldl_gitlabJob_of_block (hlines : linesFrom 1 texts = before ++ line :: after)
    (hopener : opener ∈ linesFrom 1 texts) (hstart : opener.number ≤ line.number)
    (hend : line.number ≤ max (opener.blockEnd 0) opener.number) :
    ∃ earlier : List Line,
      (before ++ [line]).foldl gitlabJob none = gitlabJob (earlier.foldl gitlabJob none) opener := by
  obtain ⟨earlier, between, hsplit⟩ :=
    List.append_of_mem ((mem_before_iff hlines opener).2 ⟨hopener, hstart⟩)
  have hordered : (earlier ++ opener :: between ++ after).Pairwise fun a b =>
      a.number < b.number := by
    rw [← hsplit, ← List.append_cons, ← hlines]
    exact pairwise_linesFrom 1 texts
  refine ⟨earlier, ?_⟩
  -- No key stands between the opener and the line, so the job does not change there.
  rw [hsplit, List.foldl_append, List.foldl_cons]
  refine foldl_gitlabJob_of_none fun k hk => jobKey?_of_topKey? ?_
  have hbehind : opener.number < k.number :=
    (List.pairwise_cons.1 (List.pairwise_append.1 (List.pairwise_append.1 hordered).1).2.1).1 k hk
  obtain ⟨hkmem, hupto⟩ := (mem_before_iff hlines k).1
    (hsplit ▸ List.mem_append_right earlier (List.mem_cons_of_mem opener hk))
  exact topKey?_of_le_blockEnd hopener hkmem hbehind (by omega)

theorem jobKey?_of_unit? {y : Symbol} (h : unit? opener = some y) :
    (y.kind = .function → jobKey? opener = some y.name) ∧
      (y.kind = .class → jobKey? opener = none ∧ GitLab.isTemplate y.name = true) := by
  obtain ⟨k, hk, rfl⟩ := Option.map_eq_some_iff.1 h
  obtain ⟨hkey, -, hreserved⟩ := of_unitKey? hk
  rw [jobKey?, hkey, Option.filter_some, hreserved]
  show ((if GitLab.isTemplate k.name then SymbolKind.class else .function) = .function → _) ∧
    ((if GitLab.isTemplate k.name then SymbolKind.class else .function) = .class →
      _ ∧ GitLab.isTemplate k.name = true)
  cases GitLab.isTemplate k.name with
  | false => exact ⟨fun _ => rfl, nofun⟩
  | true => exact ⟨nofun, fun _ => ⟨rfl, rfl⟩⟩

/-- What stands in a template never counts for it. -/
theorem sourceName_of_template {u : Reference} {y : Symbol} (hu : u ∈ gitlabFrom {} (linesFrom 1 texts))
    (hy : y ∈ gitlabSymbols (linesFrom 1 texts)) (hkind : y.kind = .class) :
    u.sourceName ≠ some y.name := by
  intro hname
  obtain ⟨before, line, after, -, -, hjob⟩ := exists_split_of_mem_gitlabFrom hu
  obtain ⟨opener, -, hopens⟩ := (mem_gitlabSymbols_iff (Or.inr hkind)).1 hy
  rw [hjob] at hname
  have hstart : ∀ name ∈ (none : Option String), GitLab.isTemplate name = false := nofun
  have hplain := isTemplate_of_mem_foldl hstart y.name hname
  rw [((jobKey?_of_unit? hopens).2 hkind).2] at hplain
  cases hplain

section Pipeline

variable {u : Reference} {y z : Symbol} (hsmall : texts.length < 2 ^ 32)
include hsmall

/-- A job or template around a line is opened by one up to there. -/
theorem exists_opener (hline : line ∈ linesFrom 1 texts) (hu : u.line = line.number.toUInt32)
    (hy : y ∈ gitlabSymbols (linesFrom 1 texts)) (hunit : IsUnit y) (haround : StandsAround y u) :
    ∃ opener ∈ linesFrom 1 texts, unit? opener = some y ∧ opener.number ≤ line.number ∧
      line.number ≤ max (opener.blockEnd 0) opener.number := by
  obtain ⟨opener, hopener, hy⟩ := (mem_gitlabSymbols_iff hunit).1 hy
  have hfits := linesFrom_fit texts opener hopener
  have hnumber := (linesFrom_fit texts line hline).number_le
  exact ⟨opener, hopener, hy, (standsAround_iff hy hfits hnumber hsmall hu).1 haround⟩

/-- Only one job or template stands around a use. -/
theorem unit_unique (hu : u ∈ gitlabFrom {} (linesFrom 1 texts))
    (hy : y ∈ gitlabSymbols (linesFrom 1 texts)) (hz : z ∈ gitlabSymbols (linesFrom 1 texts))
    (hyunit : IsUnit y) (hzunit : IsUnit z) (hyaround : StandsAround y u)
    (hzaround : StandsAround z u) : y = z := by
  obtain ⟨before, line, after, hlines, hnumber, -⟩ := exists_split_of_mem_gitlabFrom hu
  have hline : line ∈ linesFrom 1 texts := hlines ▸ List.mem_append_right before List.mem_cons_self
  obtain ⟨opener, hopener, hyopen, hstart, hend⟩ :=
    exists_opener hsmall hline hnumber hy hyunit hyaround
  obtain ⟨other, hother, hzopen, hstart', hend'⟩ :=
    exists_opener hsmall hline hnumber hz hzunit hzaround
  -- The later one of two such lines would have its key in the block of the earlier one.
  have hkey : ∀ {l : Line} {x : Symbol}, unit? l = some x → topKey? l.text ≠ none := by
    intro l x hx hnone
    obtain ⟨k, hk, -⟩ := Option.map_eq_some_iff.1 hx
    rw [(of_unitKey? hk).1] at hnone
    cases hnone
  rcases Nat.lt_trichotomy opener.number other.number with hlt | heq | hgt
  · exact absurd (topKey?_of_le_blockEnd hopener hother hlt (by omega)) (hkey hzopen)
  · rw [eq_of_number_eq hopener hother heq, hzopen] at hyopen
    exact (Option.some.inj hyopen).symm
  · exact absurd (topKey?_of_le_blockEnd hother hopener hgt (by omega)) (hkey hyopen)

/-- What stands in a job counts for it. -/
theorem sourceName_of_job (hu : u ∈ gitlabFrom {} (linesFrom 1 texts))
    (hy : y ∈ gitlabSymbols (linesFrom 1 texts)) (hkind : y.kind = .function)
    (haround : StandsAround y u) : u.sourceName = some y.name := by
  obtain ⟨before, line, after, hlines, hnumber, hjob⟩ := exists_split_of_mem_gitlabFrom hu
  have hline : line ∈ linesFrom 1 texts := hlines ▸ List.mem_append_right before List.mem_cons_self
  obtain ⟨opener, hopener, hopens, hstart, hend⟩ :=
    exists_opener hsmall hline hnumber hy (Or.inl hkind) haround
  obtain ⟨earlier, hearlier⟩ := foldl_gitlabJob_of_block hlines hopener hstart hend
  rw [hjob, hearlier, gitlabJob_eq, (jobKey?_of_unit? hopens).1 hkind]
  rfl

/-- A use counts for no job exactly if no key of a job stands up to its line. -/
theorem sourceName_eq_none_iff (hu : u ∈ gitlabFrom {} (linesFrom 1 texts)) :
    u.sourceName = none ↔
      ∀ line ∈ linesFrom 1 texts, line.number.toUInt32 ≤ u.line → jobKey? line = none := by
  obtain ⟨before, line, after, hlines, hnumber, hjob⟩ := exists_split_of_mem_gitlabFrom hu
  have hline : line ∈ linesFrom 1 texts := hlines ▸ List.mem_append_right before List.mem_cons_self
  have hbefore : ∀ l, l ∈ before ++ [line] ↔
      l ∈ linesFrom 1 texts ∧ l.number.toUInt32 ≤ u.line := by
    intro l
    rw [mem_before_iff hlines]
    refine and_congr_right fun hl => ?_
    have hlast := (linesFrom_fit texts l hl).number_le
    have hlast' := (linesFrom_fit texts line hline).number_le
    rw [hnumber, UInt32.le_iff_toNat_le, toNat_toUInt32 (by omega), toNat_toUInt32 (by omega)]
  rw [hjob, foldl_gitlabJob_eq_none_iff]
  simp only [hbefore, and_imp, true_and]

end Pipeline

/-- Does a use count for the job or template around it, and for none where there is none? -/
def IsAttributed (symbols : List Symbol) (u : Reference) : Prop :=
  (∀ y ∈ symbols, IsUnit y → StandsAround y u → u.sourceName = some y.name) ∧
    ((∀ y ∈ symbols, IsUnit y → ¬ StandsAround y u) → u.sourceName = none)

instance (symbols : List Symbol) (u : Reference) : Decidable (IsAttributed symbols u) :=
  inferInstanceAs (Decidable (_ ∧ _))

/-- A use is attributed exactly if it stands in a job, or in no block of a job or template and
behind no key of a job. -/
theorem use_attributed_iff (texts : List (List Char)) (hsmall : texts.length < 2 ^ 32) :
    ∀ u ∈ gitlabFrom {} (linesFrom 1 texts),
      IsAttributed (gitlabSymbols (linesFrom 1 texts)) u ↔
        (∃ y ∈ gitlabSymbols (linesFrom 1 texts), y.kind = .function ∧ StandsAround y u) ∨
        ((∀ y ∈ gitlabSymbols (linesFrom 1 texts), IsUnit y → ¬ StandsAround y u) ∧
          ∀ line ∈ linesFrom 1 texts, line.number.toUInt32 ≤ u.line → jobKey? line = none) := by
  intro u hu
  constructor
  · rintro ⟨hinside, houtside⟩
    by_cases hunits : ∃ y ∈ gitlabSymbols (linesFrom 1 texts), IsUnit y ∧ StandsAround y u
    · obtain ⟨y, hy, hunit, haround⟩ := hunits
      have hname := hinside y hy hunit haround
      rcases hunit with hkind | hkind
      · exact Or.inl ⟨y, hy, hkind, haround⟩
      -- A template has the name of no job, and nothing counts for anything but jobs.
      · exact absurd hname (sourceName_of_template hu hy hkind)
    · have hfree : ∀ y ∈ gitlabSymbols (linesFrom 1 texts), IsUnit y → ¬ StandsAround y u :=
        fun y hy hunit haround => hunits ⟨y, hy, hunit, haround⟩
      exact Or.inr ⟨hfree, (sourceName_eq_none_iff hsmall hu).1 (houtside hfree)⟩
  · rintro (⟨y, hy, hkind, haround⟩ | ⟨hfree, hkeys⟩)
    · have hunit : IsUnit y := Or.inl hkind
      refine ⟨fun z hz hzunit hzaround => ?_, fun hfree => absurd haround (hfree y hy hunit)⟩
      rw [unit_unique hsmall hu hz hy hzunit hunit hzaround haround]
      exact sourceName_of_job hsmall hu hy hkind haround
    · exact ⟨fun y hy hunit haround => absurd haround (hfree y hy hunit),
        fun _ => (sourceName_eq_none_iff hsmall hu).2 hkeys⟩

/-- A pipeline with a template behind a job. -/
def templateBehindJob : List (List Char) :=
  ["stages:", "  - build", "a:", "  script: x", ".t:", "  extends: .b"].map String.toList

theorem templateBehindJob_not_attributed :
    ¬ ∀ u ∈ gitlabFrom {} (linesFrom 1 templateBehindJob),
      IsAttributed (gitlabSymbols (linesFrom 1 templateBehindJob)) u := by
  decide +kernel

/-- A pipeline that takes in a part of a job before its only job. -/
def partBeforeJob : List (List Char) :=
  ["stages:", "  - build", "default: !reference [.t, image]", "a:", "  extends: .t"].map
    String.toList

theorem partBeforeJob_attributed :
    partBeforeJob.length < 2 ^ 32 ∧
      (gitlabFrom {} (linesFrom 1 partBeforeJob)).map Reference.sourceName = [none, some "a"] ∧
      ∀ u ∈ gitlabFrom {} (linesFrom 1 partBeforeJob),
        IsAttributed (gitlabSymbols (linesFrom 1 partBeforeJob)) u := by
  have hsmall : partBeforeJob.length < 2 ^ 32 := by decide
  have hscopes : ∀ u ∈ gitlabFrom {} (linesFrom 1 partBeforeJob),
      (∃ y ∈ gitlabSymbols (linesFrom 1 partBeforeJob), y.kind = .function ∧ StandsAround y u) ∨
      ((∀ y ∈ gitlabSymbols (linesFrom 1 partBeforeJob), IsUnit y → ¬ StandsAround y u) ∧
        ∀ line ∈ linesFrom 1 partBeforeJob, line.number.toUInt32 ≤ u.line →
          jobKey? line = none) := by
    decide +kernel
  exact ⟨hsmall, by decide +kernel,
    fun u hu => (use_attributed_iff partBeforeJob hsmall u hu).2 (hscopes u hu)⟩

end Uses.YAML

end SourceIndex
