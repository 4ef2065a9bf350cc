import SourceIndex.Declarations.Profiled
import SourceIndex.Proofs.Lines.C
import SourceIndex.Proofs.Lines.Classes
import SourceIndex.Proofs.Lines.Configuration
import SourceIndex.Proofs.Lines.ECMAScript
import SourceIndex.Proofs.Lines.FoxPro
import SourceIndex.Proofs.Lines.Markup
import SourceIndex.Proofs.Lines.Scripts
import SourceIndex.Proofs.Lines.Standing
import SourceIndex.Proofs.Lines.Systems
import SourceIndex.Proofs.Profile
import SourceIndex.Registry
import SourceIndex.Uses.Profiled

/-!
# Lines of all languages

Whatever extractor a registry hands out for a language, its symbols and references stand on the
lines of the source.  No tree has to be well-formed for that.
-/

namespace SourceIndex

/-! ## Languages that are read by a profile

Symbols and references stand on the lines of their places, if the properties and the heritage that
the profile finds do.  Those of the profile of every language do. -/

section

open Document (standsIn_symbol standsIn_reference)

variable {d : Document}

namespace Rules

theorem IsPropertyAt.standsIn (hd : d.IsNumbered) {owner : String} {q : Place} {y : Symbol}
    (h : IsPropertyAt d owner q y) : y.StandsIn d.lineTotal := by
  obtain ⟨name, signature, visibility, initial, rfl⟩ := h
  exact standsIn_symbol hd

theorem IsEdge.standsIn (hd : d.IsNumbered) {r : Reference} (h : IsEdge d r) :
    r.StandsIn d.lineTotal := by
  obtain ⟨kind, target, q, owner, -, rfl⟩ := h
  exact standsIn_reference hd

end Rules

namespace Profile

/-- Does all that a profile finds stand on the lines of the source? -/
structure Stands (profile : Profile) (d : Document) : Prop where
  properties : ∀ owner p, ∀ y ∈ profile.properties d owner p, y.StandsIn d.lineTotal
  heritage : ∀ kind owner p, ∀ r ∈ profile.heritage d kind owner p, r.StandsIn d.lineTotal
  blockHeritage : ∀ p, ∀ r ∈ profile.blockHeritage? d p, r.StandsIn d.lineTotal

theorem ofLanguage_stands (hd : d.IsNumbered) (language : String) :
    (ofLanguage language).Stands d where
  properties := by
    intro owner p y hy
    obtain ⟨q, -, hy⟩ := exists_of_mem_properties hy
    exact hy.standsIn hd
  heritage := fun _ _ _ r hr => (isEdge_of_mem_heritage r hr).standsIn hd
  blockHeritage := fun _ r hr => (isEdge_of_blockHeritage? r hr).standsIn hd

end Profile

namespace Declarations.Profiled

variable {profile : Profile}

theorem emits_childSteps (hd : d.IsNumbered) (hprofile : profile.Stands d) (s : Scope) (c : Place) :
    Step.Emits (Symbol.StandsIn d.lineTotal) (childSteps profile d s c) := by
  unfold childSteps
  split
  · refine Step.emits_emit_cons.2 ⟨standsIn_symbol hd, ?_⟩
    split
    · exact Step.emits_append.2 ⟨Step.emits_emitAll.2 (hprofile.properties _ c), by simp⟩
    · exact Step.emits_nil
  · simp

theorem symbols_stand (hd : d.IsNumbered) (hprofile : profile.Stands d) (root : Place) :
    ∀ y ∈ symbols profile d root, y.StandsIn d.lineTotal := by
  refine Rule.forall_mem_walk_of_emits (fun s p => ?_) _ root
  unfold rule
  refine Step.emits_ite_nil.2 fun _ => ?_
  exact Step.emits_flatMap.2 fun c _ => emits_childSteps hd hprofile s c

end Declarations.Profiled

namespace Uses.Profiled

variable {profile : Profile}

theorem emits_declarationSteps (hprofile : profile.Stands d) (s : Scope) (kind : SymbolKind)
    (name : String) (p : Place) :
    Step.Emits (Reference.StandsIn d.lineTotal) (declarationSteps profile d s kind name p) := by
  simp only [declarationSteps]
  refine Step.emits_append.2 ⟨Step.emits_emitAll.2 ?_, by simp⟩
  split
  · exact hprofile.heritage kind _ p
  · nofun

theorem emits_childSteps (hd : d.IsNumbered) (hprofile : profile.Stands d) (s : Scope) (c : Place) :
    Step.Emits (Reference.StandsIn d.lineTotal) (childSteps profile d s c) := by
  unfold childSteps
  split
  · refine Step.emits_append.2 ⟨Step.emits_emit?.2 fun r hr => ?_, by simp⟩
    obtain ⟨name, -, rfl⟩ := Option.map_eq_some_iff.1 hr
    exact standsIn_reference hd
  · refine Step.emits_append.2 ⟨Step.emits_emit?.2 (hprofile.blockHeritage c), ?_⟩
    split
    · exact emits_declarationSteps hprofile s _ _ c
    · simp

theorem references_stand (hd : d.IsNumbered) (hprofile : profile.Stands d) (root : Place) :
    ∀ r ∈ references profile d root, r.StandsIn d.lineTotal := by
  refine Rule.forall_mem_walk_of_emits (fun s p => ?_) _ root
  unfold rule
  refine Step.emits_ite_nil.2 fun _ => ?_
  exact Step.emits_flatMap.2 fun c _ => emits_childSteps hd hprofile s c

end Uses.Profiled

end

/-! ## Registries -/

namespace Registry

/-- A registry after it was asked for some languages. -/
def afterAsking (limits : Limits) (languages : List String) : Registry :=
  languages.foldl (fun r language => (r.forLanguage language).2) { limits }

/-- Is everything that a registry keeps the extractor of the language it is kept for? -/
def IsSound (r : Registry) : Prop :=
  ∀ m ∈ r.made, m.2.extractor = Extractor.ofLanguage m.1

/-- A registry hands out the extractor of the language, and stays sound. -/
theorem IsSound.forLanguage {r : Registry} (h : r.IsSound) (language : String) :
    (r.forLanguage language).1.extractor = Extractor.ofLanguage language ∧
      (r.forLanguage language).2.IsSound := by
  unfold Registry.forLanguage
  split
  · rename_i i hkept
    obtain ⟨m, hm, rfl⟩ := Option.map_eq_some_iff.1 hkept
    have hlanguage : m.1 = language := by simpa using List.find?_some hm
    rw [← hlanguage]
    exact ⟨h m (List.mem_of_find?_eq_some hm), h⟩
  · refine ⟨rfl, fun m hm => ?_⟩
    rcases List.mem_append.1 hm with hm | hm
    · exact h m hm
    · obtain rfl := List.mem_singleton.1 hm
      rfl

theorem isSound_afterAsking (limits : Limits) (languages : List String) :
    (afterAsking limits languages).IsSound := by
  have hfold : ∀ (languages : List String) (r : Registry), r.IsSound →
      (languages.foldl (fun r language => (r.forLanguage language).2) r).IsSound := by
    intro languages
    induction languages with
    | nil => exact fun r h => h
    | cons language rest ih => exact fun r h => ih _ (h.forLanguage language).2
  exact hfold languages _ nofun

end Registry

namespace Extractor

/-- Does all that an extractor finds in a document stand on the first so many lines? -/
structure StandsIn (e : Extractor) (d : Document) (lines : Nat) : Prop where
  symbols : ∀ parse root, ∀ y ∈ e.symbols parse d root, y.StandsIn lines
  references : ∀ parse root, ∀ r ∈ e.references parse d root, r.StandsIn lines

variable {d : Document} {language : String}

/-- What is found from a root stands where it does, and without a tree nothing is found. -/
theorem ofTree_standsIn {endings : List String} {lines : Nat}
    {symbols : Document → Place → List Symbol} {references : Document → Place → List Reference}
    {docstring : Document → Place → Option String}
    (hsymbols : ∀ root, ∀ y ∈ symbols d root, y.StandsIn lines)
    (hreferences : ∀ root, ∀ r ∈ references d root, r.StandsIn lines) :
    (ofTree language endings symbols references docstring).StandsIn d lines where
  symbols := fun _ _ => forall_mem_getD_map hsymbols
  references := fun _ _ => forall_mem_getD_map hreferences

/-! ## The extractors made for one language -/

theorem java_standsIn (hd : d.IsNumbered) : java.StandsIn d d.lineTotal :=
  ofTree_standsIn
    (Declarations.Java.symbols_stand hd Idiom.Java.dialect_keepsLines)
    (Uses.Java.references_stand hd)

theorem apex_standsIn (hd : d.IsNumbered) : apex.StandsIn d d.lineTotal :=
  ⟨Declarations.Apex.symbols_stand hd, Uses.Apex.references_stand hd⟩

theorem python_standsIn (hd : d.IsNumbered) : python.StandsIn d d.lineTotal :=
  ofTree_standsIn (Declarations.Python.symbols_stand hd) (Uses.Python.references_stand hd)

theorem javascript_standsIn (hd : d.IsNumbered) : javascript.StandsIn d d.lineTotal :=
  ofTree_standsIn
    (Declarations.ECMAScript.symbols_stand hd (Declarations.ECMAScript.javascript_stands d))
    (Uses.ECMAScript.references_stand hd)

theorem typescriptAs_standsIn (hd : d.IsNumbered) {endings : List String} :
    (typescriptAs language endings).StandsIn d d.lineTotal :=
  ofTree_standsIn
    (Declarations.ECMAScript.symbols_stand hd (Declarations.TypeScript.typescript_stands hd))
    (Uses.ECMAScript.references_stand hd)

theorem go_standsIn (hd : d.IsNumbered) : go.StandsIn d d.lineTotal :=
  ofTree_standsIn (Declarations.Go.symbols_stand hd) (Uses.Go.references_stand hd)

theorem rust_standsIn (hd : d.IsNumbered) : rust.StandsIn d d.lineTotal :=
  ofTree_standsIn (Declarations.Rust.symbols_stand hd) (Uses.Rust.references_stand hd)

theorem c_standsIn (hd : d.IsNumbered) : c.StandsIn d d.lineTotal :=
  ofTree_standsIn
    (Declarations.C.symbols_stand hd (Declarations.C.c_stands d))
    (Uses.C.references_stand hd (Uses.C.c_stands d))

theorem cpp_standsIn (hd : d.IsNumbered) : cpp.StandsIn d d.lineTotal :=
  ofTree_standsIn
    (Declarations.C.symbols_stand hd (Declarations.C.cpp_stands d))
    (Uses.C.references_stand hd (Uses.C.c_stands d))

theorem objc_standsIn (hd : d.IsNumbered) : objc.StandsIn d d.lineTotal :=
  ofTree_standsIn
    (Declarations.C.symbols_stand hd (Declarations.ObjC.dialect_stands hd))
    (Uses.C.references_stand hd (Uses.ObjC.dialect_stands hd))

theorem php_standsIn (hd : d.IsNumbered) : php.StandsIn d d.lineTotal :=
  ofTree_standsIn (Declarations.PHP.symbols_stand hd) (Uses.PHP.references_stand hd)

theorem ruby_standsIn (hd : d.IsNumbered) : ruby.StandsIn d d.lineTotal :=
  ofTree_standsIn (Declarations.Ruby.symbols_stand hd) (Uses.Ruby.references_stand hd)

theorem csharp_standsIn (hd : d.IsNumbered) : csharp.StandsIn d d.lineTotal :=
  ofTree_standsIn (Declarations.CSharp.symbols_stand hd) (Uses.CSharp.references_stand hd)

theorem aura_standsIn (hd : d.IsNumbered) : aura.StandsIn d d.lineTotal :=
  ⟨fun _ => Declarations.Aura.symbols_stand hd, fun _ _ => Uses.Aura.references_stand hd⟩

theorem visualforce_standsIn (hd : d.IsNumbered) : visualforce.StandsIn d d.lineTotal :=
  ⟨fun _ _ => Declarations.Visualforce.symbols_stand hd,
    fun _ _ => Uses.Visualforce.references_stand hd⟩

theorem metadata_standsIn (hd : d.IsNumbered) : metadata.StandsIn d d.lineTotal where
  symbols := by
    intro parse root
    simp only [metadata]
    exact Declarations.Metadata.symbols_stand hd root
  references := by
    intro parse root
    simp only [metadata]
    exact Uses.Metadata.references_stand hd root

theorem yaml_standsIn (hd : d.IsNumbered) : yaml.StandsIn d d.lineTotal :=
  ⟨fun _ _ => Declarations.YAML.symbols_stand hd, fun _ _ => Uses.YAML.references_stand hd⟩

theorem hcl_standsIn (hd : d.IsNumbered) : hcl.StandsIn d d.lineTotal :=
  ⟨fun _ _ => Declarations.HCL.symbols_stand hd, fun _ _ => Uses.HCL.references_stand hd⟩

/-- FoxPro apart, the extractors made for one language find nothing beyond the lines of the
source. -/
theorem dedicated_standsIn (hd : d.IsNumbered) :
    ∀ e ∈ dedicated, e ≠ foxpro → e.StandsIn d d.lineTotal := by
  simp only [dedicated, List.forall_mem_cons]
  exact ⟨fun _ => java_standsIn hd, fun _ => apex_standsIn hd, fun _ => python_standsIn hd,
    fun _ => javascript_standsIn hd, fun _ => typescriptAs_standsIn hd,
    fun _ => typescriptAs_standsIn hd, fun _ => go_standsIn hd, fun _ => rust_standsIn hd,
    fun _ => c_standsIn hd, fun _ => cpp_standsIn hd, fun _ => objc_standsIn hd,
    fun _ => php_standsIn hd, fun _ => ruby_standsIn hd, fun _ => csharp_standsIn hd,
    fun _ => aura_standsIn hd, fun _ => visualforce_standsIn hd, fun _ => metadata_standsIn hd,
    fun h => absurd rfl h, fun _ => yaml_standsIn hd, fun _ => hcl_standsIn hd, nofun⟩

theorem profiled_standsIn (hd : d.IsNumbered) (language : String) :
    (profiled language).StandsIn d d.lineTotal :=
  ofTree_standsIn
    (Declarations.Profiled.symbols_stand hd (Profile.ofLanguage_stands hd language))
    (Uses.Profiled.references_stand hd (Profile.ofLanguage_stands hd language))

theorem foxpro_standsIn (hd : Idiom.FoxPro.lineTotal d.bytes < 2 ^ 32)
    (hform : Idiom.FoxPro.isForm d.path = false) :
    foxpro.StandsIn d (Idiom.FoxPro.lineTotal d.bytes) where
  symbols := by
    intro parse root
    simp only [foxpro, hform, Bool.false_eq_true, if_false]
    exact Declarations.FoxPro.symbols_stand hd
  references := by
    intro parse root
    simp only [foxpro, hform, Bool.false_eq_true, if_false]
    exact Uses.FoxPro.references_stand hd

/-- An extractor that is looked up is made for the language it is looked up by. -/
theorem mem_of_dedicated? {e : Extractor} (h : dedicated? language = some e) :
    e ∈ dedicated ∧ e.language = language :=
  ⟨List.mem_of_find?_eq_some h, by simpa using List.find?_some h⟩

/-- The extractor of a language is one of those made for one language, for this or for the one whose
grammar it shares, or the one of a profile. -/
theorem ofLanguage_cases (language : String) :
    (∃ e ∈ dedicated, ofLanguage language = e ∧
      (e.language = language ∨ Language.aliasTarget? language = some e.language)) ∨
      ofLanguage language = profiled language := by
  unfold ofLanguage
  cases hown : dedicated? language with
  | some e =>
      obtain ⟨he, hlanguage⟩ := mem_of_dedicated? hown
      exact Or.inl ⟨e, he, rfl, Or.inl hlanguage⟩
  | none =>
      cases hshared : (Language.aliasTarget? language).bind dedicated? with
      | some e =>
          obtain ⟨target, htarget, hfind⟩ := Option.bind_eq_some_iff.1 hshared
          obtain ⟨he, hlanguage⟩ := mem_of_dedicated? hfind
          exact Or.inl ⟨e, he, rfl, Or.inr (hlanguage ▸ htarget)⟩
      | none => exact Or.inr rfl

/-- No language shares a grammar with FoxPro, which has none. -/
theorem aliasTarget?_ne_foxpro (language : String) :
    Language.aliasTarget? language ≠ some "foxpro" := by
  intro h
  obtain ⟨a, ha, hfoxpro⟩ := Option.map_eq_some_iff.1 h
  have hall : ∀ a ∈ Language.aliases, a.2 ≠ "foxpro" := by decide
  exact hall a (List.mem_of_find?_eq_some ha) hfoxpro

/-- Number of lines of a document as the language reads it: FoxPro counts those of the text that it
decodes, all others count line feeds among the octets. -/
def lineTotal (language : String) (d : Document) : Nat :=
  if language = "foxpro" then Idiom.FoxPro.lineTotal d.bytes else d.lineTotal

theorem ofLanguage_standsIn (hform : language = "foxpro" → Idiom.FoxPro.isForm d.path = false)
    (hsmall : lineTotal language d < 2 ^ 32) :
    (ofLanguage language).StandsIn d (lineTotal language d) := by
  by_cases hfoxpro : language = "foxpro"
  · subst hfoxpro
    exact foxpro_standsIn hsmall (hform rfl)
  · rw [lineTotal, if_neg hfoxpro] at hsmall ⊢
    rcases ofLanguage_cases language with ⟨e, he, heq, hlanguage⟩ | heq
    · rw [heq]
      refine dedicated_standsIn hsmall e he ?_
      -- Only the language itself is read as FoxPro.
      rintro rfl
      rcases hlanguage with hlanguage | htarget
      · exact hfoxpro hlanguage.symm
      · exact aliasTarget?_ne_foxpro language htarget
    · rw [heq]
      exact profiled_standsIn hsmall language

end Extractor

/-- Whatever the language, all symbols that a registry's extractor finds in a source start on one of
its lines and end on the same line or a later one, and all references stand on one of its lines.
The line of a place is counted from its offset; the row that the tree itself gives for it is the
same in a tree that is well formed.  Forms of FoxPro are left out, in any letter case of their
ending: they have no lines. -/
theorem Registry.extractor_standsIn (limits : Limits) (asked : List String) (language : String)
    (parse : Parser) (d : Document) (root : Option Place)
    (hform : language = "foxpro" → Idiom.FoxPro.isForm d.path = false)
    (hsmall : Extractor.lineTotal language d < 2 ^ 32) :
    (∀ y ∈ ((afterAsking limits asked).forLanguage language).1.extractor.symbols parse d root,
      1 ≤ y.lineStart.toNat ∧ y.lineStart.toNat ≤ y.lineEnd.toNat ∧
        y.lineEnd.toNat ≤ Extractor.lineTotal language d) ∧
    ∀ r ∈ ((afterAsking limits asked).forLanguage language).1.extractor.references parse d root,
      1 ≤ r.line.toNat ∧ r.line.toNat ≤ Extractor.lineTotal language d := by
  have hextractor := ((isSound_afterAsking limits asked).forLanguage language).1
  have hstands := Extractor.ofLanguage_standsIn hform hsmall
  rw [hextractor]
  exact ⟨hstands.symbols parse root, hstands.references parse root⟩

/-- A program of a procedure that runs another one. -/
def procedureDocument : Document where
  path := "main.prg"
  bytes := Text.Utf8.encode "PROCEDURE Main\nDO Other\nENDPROC\n".toList
  limits := {}

theorem Registry.procedureDocument_standsIn :
    let procedures := ((afterAsking {} ["java"]).forLanguage "foxpro").1.extractor
    let lines := Extractor.lineTotal "foxpro" procedureDocument
    let symbols := procedures.symbols (fun _ _ => none) procedureDocument none
    let references := procedures.references (fun _ _ => none) procedureDocument none
    Idiom.FoxPro.isForm procedureDocument.path = false ∧ lines = 4 ∧
      (symbols.map fun y => (y.lineStart, y.lineEnd)) = [(1, 3)] ∧
      (references.map fun r => r.line) = [2] ∧
      (∀ y ∈ symbols, 1 ≤ y.lineStart.toNat ∧ y.lineStart.toNat ≤ y.lineEnd.toNat ∧
        y.lineEnd.toNat ≤ lines) ∧
      ∀ r ∈ references, 1 ≤ r.line.toNat ∧ r.line.toNat ≤ lines := by
  have hform : Idiom.FoxPro.isForm procedureDocument.path = false := by decide +kernel
  have htotal : Extractor.lineTotal "foxpro" procedureDocument = 4 := by decide +kernel
  refine ⟨hform, htotal, by decide +kernel, by decide +kernel, ?_⟩
  exact extractor_standsIn {} ["java"] "foxpro" (fun _ _ => none) procedureDocument none
    (fun _ => hform) (by rw [htotal]; decide)

/-- A form of one control, whose path ends in capitals. -/
def formInCapitals : Document where
  path := "A.SCX"
  bytes :=
    [0, 0, 0, 33, 0x30, 0, 0, 0, 1, 0, 0, 0, 32, 0, 1, 0] ++ List.replicate 20 0 ++ [32]
  limits := {}

/-- The letter case of the path does not count: this is a form, whose class spans the thousand lines
of its control, though the source has only one line. -/
theorem Registry.formInCapitals_not_standsIn :
    Text.endsWith ".scx" formInCapitals.path = false ∧
      Extractor.lineTotal "foxpro" formInCapitals = 1 ∧
      ∃ y ∈ ((afterAsking {} []).forLanguage "foxpro").1.extractor.symbols (fun _ _ => none)
          formInCapitals none,
        ¬ y.lineEnd.toNat ≤ Extractor.lineTotal "foxpro" formInCapitals := by
  decide +kernel

end SourceIndex
