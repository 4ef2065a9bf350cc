import SourceIndex.Backends

/-!
# Registries

A registry hands out one instance of an extractor for each language, made on first demand and kept
from then on.
-/

namespace SourceIndex

/-- An extractor that a registry has made, with its number among all that it made. -/
structure Instance where
  serial : Nat
  extractor : Extractor

/-- The limits that its extractors work under, and the instances made so far with the names they
were asked for. -/
structure Registry where
  limits : Limits := {}
  made : List (String × Instance) := []

namespace Registry

/-- The instance kept for a name. -/
def kept? (r : Registry) (language : String) : Option Instance :=
  (r.made.find? fun m => m.1 == language).map (·.2)

/-- The instance for a name, and the registry that keeps it. -/
def forLanguage (r : Registry) (language : String) : Instance × Registry :=
  match r.kept? language with
  | some i => (i, r)
  | none =>
      let i : Instance := ⟨r.made.length, Extractor.ofLanguage language⟩
      (i, { r with made := r.made ++ [(language, i)] })

/-- The instance for the language of a path, if some language claims the path. -/
def forFile (r : Registry) (path : String) : Option Instance × Registry :=
  match Language.ofPath? path with
  | some language =>
      let (i, r) := r.forLanguage language
      (some i, r)
  | none => (none, r)

end Registry

end SourceIndex
