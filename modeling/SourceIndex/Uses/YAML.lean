import SourceIndex.Idiom.Pipeline

/-!
# Uses in YAML

The jobs of a pipeline need and extend each other, and use other workflows.
-/

namespace SourceIndex.Uses.YAML

open SourceIndex.Idiom
open SourceIndex.Idiom.YAML

/-- The job around a line, and the list in it that is being read. -/
structure Setting where
  job : Option String := none
  list : ListField := .closed

/-- The job around a line of a GitLab pipeline. -/
def gitlabJob (job : Option String) (line : Line) : Option String :=
  (((topKey? line.text).filter fun k =>
    !GitLab.isReserved k.name && !GitLab.isTemplate k.name).map TopKey.name).or job

/-- What one line of a GitLab pipeline uses, with the job around it and the list that is being read
and its item. -/
def gitlabLine (job : Option String) (list : ListField) (item : Option String) (line : Line) :
    List Reference :=
  let ofItem : ReferenceKind := if list == .parents then .inherits else .call
  (GitLab.inlineParents line.text).map (line.use .inherits job) ++
    item.toList.map (line.use ofItem job) ++
    (GitLab.partOwners line.text ++ inlineNeeds line.text).map (line.use .call job)

/-- The uses of some lines of a GitLab pipeline. -/
def gitlabFrom (s : Setting) : List Line → List Reference
  | [] => []
  | line :: rest =>
      let job := gitlabJob s.job line
      let (list, item) := s.list.next line.text
      gitlabLine job list item line ++ gitlabFrom ⟨job, list⟩ rest

/-- What one line inside the jobs of a GitHub pipeline uses. -/
def githubLine (job : Option String) (list : ListField) (item : Option String) (line : Line) :
    List Reference :=
  match GitHub.used? line.text with
  | some target => [line.use .call job target]
  | none =>
      let needed := if list == .needs then item.toList else []
      (needed ++ inlineNeeds line.text).map (line.use .call job)

/-- The uses of some lines of a GitHub pipeline, each with the part it belongs to. -/
def githubFrom (s : Setting) : List (Section × Line) → List Reference
  | [] => []
  | (part, line) :: rest =>
      if part != .jobs then
        githubFrom s rest
      else
        match first? GitHub.jobLine line.text with
        | some job => githubFrom ⟨some job, .closed⟩ rest
        | none =>
            let (list, item) := s.list.next line.text
            githubLine s.job list item line ++ githubFrom { s with list } rest

/-- The uses of a file. -/
def references (d : Document) : List Reference :=
  let lines := linesOf d
  match Dialect.ofLines (lines.map Line.text) with
  | .gitlab => gitlabFrom {} lines
  | .github => githubFrom {} (withSection .top lines)
  | .plain => []

end SourceIndex.Uses.YAML
