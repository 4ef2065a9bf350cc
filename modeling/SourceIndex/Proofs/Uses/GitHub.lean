import SourceIndex.Proofs.Extents.YAML

/-!
# Where GitHub pipelines use names

Both passes over a pipeline read its lines one by one and know which of them are those of the jobs.
The one over uses keeps the name of the job whose key it read last, and does not forget it where the
jobs end or begin again.  So every use counts for the last job that is declared before its line.
-/

namespace SourceIndex

open Idiom Idiom.YAML

variable {s : Section} {line : Line} {before after lines : List Line}

/-- The parts of some lines do not depend on those behind them. -/
theorem Idiom.YAML.withSection_append (s : Section) (before after : List Line) :
    withSection s (before ++ after) = withSection s before ++
      withSection (before.foldl (fun s line => s.next line.text) s) after := by
  induction before generalizing s with
  | nil => rfl
  | cons line rest ih =>
      rw [List.cons_append, withSection, withSection, ih (s.next line.text)]
      rfl

namespace Declarations.YAML

/-! ## The jobs of a pipeline -/

/-- The job whose key stands on a line. -/
def githubJob? (s : Section) (line : Line) : Option String :=
  if s == .jobs then first? GitHub.jobLine line.text else none

/-- The names of the jobs among some declarations. -/
def jobNames (symbols : List Symbol) : List String :=
  (symbols.filter fun y => y.kind == .function).map Symbol.name

/-- The name of the last job among some declarations. -/
def lastJob? (symbols : List Symbol) : Option String :=
  (jobNames symbols).getLast?

theorem jobNames_append (symbols later : List Symbol) :
    jobNames (symbols ++ later) = jobNames symbols ++ jobNames later := by
  rw [jobNames, List.filter_append, List.map_append]
  rfl

theorem kind_of_used? {y : Symbol} (h : used? line = some y) : y.kind = .class := by
  obtain ⟨target, -, h⟩ := Option.bind_eq_some_iff.1 h
  dsimp only at h
  split at h
  · cases h
  · rw [← Option.some.inj h]
    rfl

/-- A line declares a job exactly if it has the key of one. -/
theorem jobNames_githubLine (s : Section) (line : Line) :
    jobNames (githubLine s line) = (githubJob? s line).toList := by
  have hworkflow : jobNames (workflow? line).toList = [] := by
    unfold workflow?
    cases ((first? GitHub.nameLine line.text).map unquote).filter _ <;> rfl
  have hused : jobNames (used? line).toList = [] := by
    cases hy : used? line with
    | none => rfl
    | some y => simp [jobNames, kind_of_used? hy]
  rw [githubLine, jobNames_append, hworkflow, List.nil_append, githubJob?]
  split
  · unfold job?
    cases first? GitHub.jobLine line.text with
    | none => exact hused
    | some job => rfl
  · rfl

/-- The jobs among the declarations of a pipeline are those whose keys stand on its lines. -/
theorem jobNames_githubSymbols (lines : List Line) :
    jobNames (githubSymbols lines) =
      (withSection .top lines).filterMap fun (s, line) => githubJob? s line := by
  unfold githubSymbols
  induction withSection .top lines with
  | nil => rfl
  | cons l rest ih =>
      obtain ⟨part, line⟩ := l
      rw [List.flatMap_cons, jobNames_append, jobNames_githubLine, ih, List.filterMap_cons]
      cases hjob : githubJob? part line <;> simp [hjob]

/-! ## Declarations before a line -/

theorem lineStart_of_githubLine {n : Nat} {y : Symbol} (hfits : line.Fits n) (hsmall : n < 2 ^ 32)
    (h : y ∈ githubLine s line) : y.lineStart.toNat = line.number := by
  have hnumber := hfits.number_le
  have hstart : ∀ (name : String) (kind : SymbolKind) (last : Nat) (signature : String),
      (symbol name kind line.number last signature).lineStart.toNat = line.number :=
    fun name kind last signature => Symbol.toNat_lineStart hfits.first (by omega)
  rcases List.mem_append.1 h with h | h
  · obtain ⟨name, -, rfl⟩ := Option.map_eq_some_iff.1 (Option.mem_toList.1 h)
    exact hstart name _ _ _
  · split at h
    · rcases Option.or_eq_some_iff.1 (Option.mem_toList.1 h) with h | ⟨-, h⟩
      · obtain ⟨job, -, rfl⟩ := Option.map_eq_some_iff.1 h
        exact hstart job _ _ _
      · obtain ⟨target, -, h⟩ := Option.bind_eq_some_iff.1 h
        dsimp only at h
        split at h
        · cases h
        · rw [← Option.some.inj h]
          exact hstart (GitHub.workflowName target) .class line.number ("uses: " ++ target)
    · cases h

/-- The declarations before a line are those of the lines before it. -/
theorem filter_githubSymbols {n : Nat} (hsmall : n < 2 ^ 32)
    (hfits : ∀ l ∈ before ++ line :: after, l.Fits n)
    (hordered : (before ++ line :: after).Pairwise fun a b => a.number < b.number) :
    (githubSymbols (before ++ line :: after)).filter
        (fun y => y.lineStart < line.number.toUInt32) =
      githubSymbols before := by
  have hline : line.number.toUInt32.toNat = line.number := by
    have hlast := (hfits line (List.mem_append_right before List.mem_cons_self)).number_le
    exact toNat_toUInt32 (by omega)
  obtain ⟨-, hafter, hbefore⟩ := List.pairwise_append.1 hordered
  unfold githubSymbols
  rw [withSection_append, List.flatMap_append, List.filter_append]
  have hfront : ((withSection .top before).flatMap fun (s, l) => githubLine s l).filter
      (fun y => y.lineStart < line.number.toUInt32) =
      (withSection .top before).flatMap fun (s, l) => githubLine s l := by
    apply List.filter_eq_self.2
    intro y hy
    obtain ⟨⟨part, l⟩, hl, hy⟩ := List.mem_flatMap.1 hy
    have hl : l ∈ before := mem_of_mem_withSection hl
    have hlt := hbefore l hl line List.mem_cons_self
    have hstart := lineStart_of_githubLine (hfits l (List.mem_append_left _ hl)) hsmall hy
    rw [decide_eq_true_eq, UInt32.lt_iff_toNat_lt, hline, hstart]
    exact hlt
  have hbehind : ∀ part, ((withSection part (line :: after)).flatMap
      fun (s, l) => githubLine s l).filter (fun y => y.lineStart < line.number.toUInt32) = [] := by
    intro part
    apply List.filter_eq_nil_iff.2
    intro y hy
    obtain ⟨⟨part', l⟩, hl, hy⟩ := List.mem_flatMap.1 hy
    have hl : l ∈ line :: after := mem_of_mem_withSection hl
    have hle : line.number ≤ l.number := by
      rcases List.mem_cons.1 hl with rfl | hl
      · exact Nat.le_refl _
      · exact Nat.le_of_lt ((List.pairwise_cons.1 hafter).1 l hl)
    have hstart := lineStart_of_githubLine (hfits l (List.mem_append_right _ hl)) hsmall hy
    rw [decide_eq_true_eq, UInt32.lt_iff_toNat_lt, hline, hstart]
    omega
  rw [hfront, hbehind, List.append_nil]

end Declarations.YAML

namespace Uses.YAML

open Declarations.YAML (githubSymbols githubJob? jobNames lastJob? jobNames_githubSymbols
  filter_githubSymbols)

/-! ## The job that counts -/

theorem of_mem_githubLine {job : Option String} {list : ListField} {item : Option String}
    {u : Reference} (h : u ∈ githubLine job list item line) :
    u.line = line.number.toUInt32 ∧ u.sourceName = job := by
  unfold githubLine at h
  split at h
  · rw [List.mem_singleton.1 h]
    exact ⟨rfl, rfl⟩
  · obtain ⟨target, -, rfl⟩ := List.mem_map.1 h
    exact ⟨rfl, rfl⟩

/-- A use counts for the last job before its line, or else for the one before all lines. -/
theorem exists_split_of_mem_githubFrom {setting : Setting} {u : Reference}
    (h : u ∈ githubFrom setting (withSection s lines)) :
    ∃ before line after, lines = before ++ line :: after ∧ u.line = line.number.toUInt32 ∧
      u.sourceName =
        ((withSection s before).filterMap fun (s, line) => githubJob? s line).getLast?.or
          setting.job := by
  induction lines generalizing s setting with
  | nil => cases h
  | cons line rest ih =>
      -- What the job is behind the line, whether the line has the key of one or not.
      have hstep : ∀ {setting' : Setting},
          setting'.job = (githubJob? (s.next line.text) line).or setting.job →
          u ∈ githubFrom setting' (withSection (s.next line.text) rest) →
          ∃ before line' after, line :: rest = before ++ line' :: after ∧
            u.line = line'.number.toUInt32 ∧ u.sourceName =
              ((withSection s before).filterMap fun (s, line) => githubJob? s line).getLast?.or
                setting.job := by
        intro setting' hjob hmem
        obtain ⟨before, line', after, rfl, hline, hname⟩ := ih hmem
        refine ⟨line :: before, line', after, rfl, hline, ?_⟩
        rw [hname, hjob, withSection, getLast?_filterMap_cons, Option.or_assoc]
      simp only [withSection, githubFrom] at h
      split at h
      · rename_i hpart
        refine hstep ?_ h
        have hnot : (s.next line.text == Section.jobs) = false := by simpa using hpart
        rw [githubJob?, hnot]
        rfl
      · rename_i hpart
        have hjobs : (s.next line.text == Section.jobs) = true := by simpa using hpart
        split at h
        · rename_i job hkey
          refine hstep ?_ h
          rw [githubJob?, hjobs, hkey]
          rfl
        · rename_i hkey
          rcases List.mem_append.1 h with h | h
          · exact ⟨[], line, rest, rfl, of_mem_githubLine h⟩
          · refine hstep ?_ h
            rw [githubJob?, hjobs, hkey]
            rfl

/-- Every use of a GitHub pipeline counts for the last job that is declared before its line, and for
none where there is no such job. -/
theorem uses_count_for_lastJob (texts : List (List Char)) :
    ∀ u ∈ githubFrom {} (withSection .top (linesFrom 1 texts)),
      (∃ before line after, linesFrom 1 texts = before ++ line :: after ∧
        u.line = line.number.toUInt32 ∧ u.sourceName = lastJob? (githubSymbols before)) ∧
      (texts.length < 2 ^ 32 → u.sourceName =
        lastJob? ((githubSymbols (linesFrom 1 texts)).filter fun y => y.lineStart < u.line)) := by
  intro u hu
  obtain ⟨before, line, after, hlines, hline, hname⟩ := exists_split_of_mem_githubFrom hu
  have hjob : u.sourceName = lastJob? (githubSymbols before) := by
    rw [hname, lastJob?, jobNames_githubSymbols, Option.or_none]
  refine ⟨⟨before, line, after, hlines, hline, hjob⟩, fun hsmall => ?_⟩
  have hfits := linesFrom_fit texts
  have hordered := pairwise_linesFrom 1 texts
  rw [hlines] at hfits hordered ⊢
  rw [hjob, hline, filter_githubSymbols hsmall hfits hordered]

/-- A pipeline with jobs in two places, and a line that needs a job before the first key of the
second place. -/
def jobsAgain : List (List Char) :=
  ["on: push", "jobs:", "  a:", "    uses: ./x.yml", "env:", "  b: 1", "jobs:", "    needs: a",
    "  c:", "    needs: [a]"].map String.toList

theorem jobsAgain_count_for_lastJob :
    jobsAgain.length < 2 ^ 32 ∧
      (githubFrom {} (withSection .top (linesFrom 1 jobsAgain))).map Reference.sourceName =
        [some "a", some "a", some "c"] ∧
      ∀ u ∈ githubFrom {} (withSection .top (linesFrom 1 jobsAgain)),
        u.sourceName = lastJob?
          ((githubSymbols (linesFrom 1 jobsAgain)).filter fun y => y.lineStart < u.line) := by
  have hsmall : jobsAgain.length < 2 ^ 32 := by decide
  exact ⟨hsmall, by decide +kernel, fun u hu => (uses_count_for_lastJob jobsAgain u hu).2 hsmall⟩

end Uses.YAML

end SourceIndex
