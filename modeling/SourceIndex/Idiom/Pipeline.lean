import SourceIndex.Idiom.YAML
import SourceIndex.Text.Case

/-!
# Pipelines

Files of two hosts that list jobs. Both are YAML, and each has keys of its own.
-/

/-!
## GitHub: jobs and reused workflows
-/

namespace SourceIndex.Idiom.GitHub

open SourceIndex.Idiom.YAML
open SourceIndex.Text (Pattern)

/-- A value up to the end of the line, without the blanks around it. -/
def value : Pattern Char :=
  .seqs [.blanks, .group 1 (.plusLazy .anyInLine), .blanks, .atEnd]

/-- The line that names the workflow. -/
def nameLine : Pattern Char :=
  .seq (key "name") value

/-- The line that starts a job, two spaces in. -/
def jobLine : Pattern Char :=
  .seqs [.word "  ", .group 1 (.plus (.one fun c => c.isAlphanum || c == '_' || c == '-')),
    .blanks, .char ':']

/-- The line by which a job uses another workflow. -/
def usesLine : Pattern Char :=
  .seqs [.blanks1, key "uses", value]

/-- The workflow that a line uses. -/
def used? (line : List Char) : Option String :=
  (first? usesLine line).map unquote

/-- The name of a workflow: that of its file, without version, directories and ending. -/
def workflowName (target : String) : String :=
  let file := Text.afterLast "/" (Text.beforeFirst "@" target)
  match Text.splitLast? "." file with
  | some (stem, _) => if stem.isEmpty then file else stem
  | none => file

end SourceIndex.Idiom.GitHub

/-!
## GitLab: reserved keys, stages and heritage
-/

namespace SourceIndex.Idiom.GitLab

open SourceIndex.Idiom.YAML
open SourceIndex.Text (Pattern)

/-- The keys that are no jobs. -/
def reservedKeys : List String :=
  ["stages", "variables", "default", "workflow", "include", "image", "services", "before_script",
    "after_script", "cache", "artifacts", "retry", "timeout", "interruptible", "rules", "only",
    "except", "when", "needs", "allow_failure", "coverage", "pages", "release", "environment",
    "resource_group", "parallel", "trigger", "extends", "inherit", "tags", "script", "hooks",
    "secrets", "dast_configuration", "pages:deploy"]

/-- Is the key reserved? Letter case does not count. -/
def isReserved (key : String) : Bool :=
  reservedKeys.contains (Text.lower key)

/-- Does the key stand for a template, which no pipeline runs? -/
def isTemplate (key : String) : Bool :=
  Text.startsWith "." key

/-- The line of one stage. -/
def stageLine : Pattern Char :=
  let quote : Pattern Char := .opt (.oneOf "\"'")
  .seqs [.blanks, .char '-', .blanks1, quote,
    .group 1 (.plus (.one fun c => c.isAlphanum || c == '_' || c == '-')), quote, .blanks, .atEnd]

/-- The text of the first group of a pattern anywhere in a line. -/
def anywhere? (pattern : Pattern Char) (line : List Char) : Option String :=
  (pattern.find? line).bind fun m => m.text? 1 line

/-- The jobs that a line extends: those of a list in brackets, or else one. -/
def inlineParents (line : List Char) : List String :=
  let start : Pattern Char := .seq (key "extends") .blanks
  match anywhere? (.seq start bracketed) line with
  | some list => inlineItems list
  | none => (anywhere? (.seq start extendName) line).toList

/-- A reference to part of another job. -/
def partTag : Pattern Char :=
  .seqs [.word "!reference", .blanks1, bracketed]

/-- The jobs of which a line takes in a part. -/
def partOwners (line : List Char) : List String :=
  (partTag.findAll line).filterMap fun m =>
    (m.text? 1 line).bind fun list => (inlineItems list).head?

end SourceIndex.Idiom.GitLab
