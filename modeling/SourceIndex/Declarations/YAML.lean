import SourceIndex.Idiom.Pipeline

/-!
# Declarations of YAML

The jobs, stages and templates of a pipeline; of any other file the keys in the first column.
-/

namespace SourceIndex.Declarations.YAML

open SourceIndex.Idiom
open SourceIndex.Idiom.YAML

/-- What one line of a GitLab pipeline declares. -/
def gitlabLine (s : Section) (line : Line) : Option Symbol :=
  if s == .stages then
    (first? GitLab.stageLine line.text).map fun stage =>
      symbol stage .constant line.number line.number ("stage: " ++ stage)
  else
    ((topKey? line.text).filter fun k => k.isBlock && !GitLab.isReserved k.name).map fun k =>
      let isTemplate := GitLab.isTemplate k.name
      symbol k.name (if isTemplate then .class else .function) line.number (line.blockEnd 0)
        ((if isTemplate then "template: " else "job: ") ++ k.name)

/-- The declarations of some lines of a GitLab pipeline. -/
def gitlabSymbols (lines : List Line) : List Symbol :=
  (withSection .top lines).filterMap fun (s, line) => gitlabLine s line

/-- The name of the workflow that a line gives. -/
def workflow? (line : Line) : Option Symbol :=
  (((first? GitHub.nameLine line.text).map unquote).filter fun name => !name.isEmpty).map
    fun name => symbol name .module line.number line.number ("workflow: " ++ name)

/-- The job that a line starts. -/
def job? (line : Line) : Option Symbol :=
  (first? GitHub.jobLine line.text).map fun job =>
    symbol job .function line.number (line.blockEnd 2) ("job: " ++ job)

/-- The workflow that a line uses. -/
def used? (line : Line) : Option Symbol := do
  let target ← GitHub.used? line.text
  let name := GitHub.workflowName target
  if name.isEmpty then none
  some { symbol name .class line.number line.number ("uses: " ++ target) with isExported := false }

/-- What one line of a GitHub pipeline declares. -/
def githubLine (s : Section) (line : Line) : List Symbol :=
  (workflow? line).toList ++
    if s == .jobs then ((job? line).or (used? line)).toList else []

/-- The declarations of some lines of a GitHub pipeline. -/
def githubSymbols (lines : List Line) : List Symbol :=
  (withSection .top lines).flatMap fun (s, line) => githubLine s line

/-- What one line of any other file declares. -/
def plainLine (line : Line) : Option Symbol :=
  (topKey? line.text).map fun k =>
    symbol k.name .variable line.number (if k.isBlock then line.blockEnd 0 else line.number)
      (k.name ++ ":")

/-- The declarations of a file. -/
def symbols (d : Document) : List Symbol :=
  let lines := linesOf d
  match Dialect.ofLines (lines.map Line.text) with
  | .gitlab => gitlabSymbols lines
  | .github => githubSymbols lines
  | .plain => lines.filterMap plainLine

end SourceIndex.Declarations.YAML
