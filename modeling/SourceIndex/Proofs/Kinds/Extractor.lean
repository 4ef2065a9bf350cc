import SourceIndex.Extraction
import SourceIndex.Proofs.Kinds.Declared
import SourceIndex.Proofs.Kinds.Used
import SourceIndex.Proofs.Lines.Extractor
import SourceIndex.Proofs.Markup
import SourceIndex.Proofs.Record.Coding

/-!
# Records of all languages read back

No extractor gives a symbol or a reference a kind that is known only by the word of a listed kind.
So whatever is extracted from a file can be written as JSON and read back unchanged.
-/

namespace SourceIndex

namespace Extractor

/-- Are all kinds that an extractor gives read back from their words? -/
structure GivesProper (e : Extractor) : Prop where
  symbols : ∀ parse d root, ∀ y ∈ e.symbols parse d root, y.kind.IsProper
  references : ∀ parse d root, ∀ r ∈ e.references parse d root, r.kind.IsProper

/-- An extractor that gives only listed kinds. -/
theorem givesProper_of_listed {e : Extractor}
    (hsymbols : ∀ parse d root, ∀ y ∈ e.symbols parse d root, y.IsListed)
    (hreferences : ∀ parse d root, ∀ r ∈ e.references parse d root, r.IsListed) :
    e.GivesProper where
  symbols := fun parse d root y hy => SymbolKind.isProper_of_isOther (hsymbols parse d root y hy)
  references := fun parse d root r hr =>
    ReferenceKind.isProper_of_isOther (hreferences parse d root r hr)

theorem ofTree_givesProper {language : String} {endings : List String}
    {symbols : Document → Place → List Symbol} {references : Document → Place → List Reference}
    {docstring : Document → Place → Option String}
    (hsymbols : ∀ d root, ∀ y ∈ symbols d root, y.IsListed)
    (hreferences : ∀ d root, ∀ r ∈ references d root, r.IsListed) :
    (ofTree language endings symbols references docstring).GivesProper :=
  givesProper_of_listed (fun _ d _ => forall_mem_getD_map (hsymbols d))
    (fun _ d _ => forall_mem_getD_map (hreferences d))

theorem metadata_givesProper : metadata.GivesProper where
  symbols := by
    intro parse d root
    simp only [metadata]
    exact Declarations.Metadata.symbols_isProper root
  references := by
    intro parse d root
    simp only [metadata]
    intro r hr
    exact ReferenceKind.isProper_of_isOther (Uses.Metadata.references_listed root r hr)

theorem foxpro_givesProper : foxpro.GivesProper := by
  apply givesProper_of_listed
  · intro parse d root
    simp only [foxpro]
    split
    · exact Declarations.Form.symbols_listed
    · exact Declarations.FoxPro.symbols_listed
  · intro parse d root
    simp only [foxpro]
    split
    · exact Uses.Form.references_listed
    · exact Uses.FoxPro.references_listed

/-- The extractors made for one language. -/
theorem dedicated_givesProper : ∀ e ∈ dedicated, e.GivesProper := by
  simp only [dedicated, List.forall_mem_cons]
  -- One goal for each extractor, in the order of the list.
  refine ⟨?_, ?_, ?_, ?_, ?_, ?_, ?_, ?_, ?_, ?_, ?_, ?_, ?_, ?_, ?_, ?_, ?_, ?_, ?_, ?_,
    List.forall_mem_nil _⟩
  · exact ofTree_givesProper
      (fun _ => Declarations.Java.symbols_listed Idiom.Java.dialect_keepsKind)
      (fun _ => Uses.Java.references_listed)
  · exact givesProper_of_listed Declarations.Apex.symbols_listed Uses.Apex.references_listed
  · exact ofTree_givesProper (fun _ => Declarations.Python.symbols_listed)
      (fun _ => Uses.Python.references_listed)
  · exact ofTree_givesProper
      (fun _ => Declarations.ECMAScript.symbols_listed Declarations.ECMAScript.javascript_listed)
      (fun _ => Uses.ECMAScript.references_listed)
  · exact ofTree_givesProper
      (fun _ => Declarations.ECMAScript.symbols_listed Declarations.TypeScript.typescript_listed)
      (fun _ => Uses.ECMAScript.references_listed)
  · exact ofTree_givesProper
      (fun _ => Declarations.ECMAScript.symbols_listed Declarations.TypeScript.typescript_listed)
      (fun _ => Uses.ECMAScript.references_listed)
  · exact ofTree_givesProper (fun _ => Declarations.Go.symbols_listed)
      (fun _ => Uses.Go.references_listed)
  · exact ofTree_givesProper (fun _ => Declarations.Rust.symbols_listed)
      (fun _ => Uses.Rust.references_listed)
  · exact ofTree_givesProper (fun _ => Declarations.C.symbols_listed Declarations.C.c_listed)
      (fun _ => Uses.C.references_listed Uses.C.c_listed)
  · exact ofTree_givesProper (fun _ => Declarations.C.symbols_listed Declarations.C.cpp_listed)
      (fun _ => Uses.C.references_listed Uses.C.c_listed)
  · exact ofTree_givesProper
      (fun _ => Declarations.C.symbols_listed Declarations.ObjC.dialect_listed)
      (fun _ => Uses.C.references_listed Uses.ObjC.dialect_listed)
  · exact ofTree_givesProper (fun _ => Declarations.PHP.symbols_listed)
      (fun _ => Uses.PHP.references_listed)
  · exact ofTree_givesProper (fun _ => Declarations.Ruby.symbols_listed)
      (fun _ => Uses.Ruby.references_listed)
  · exact ofTree_givesProper (fun _ => Declarations.CSharp.symbols_listed)
      (fun _ => Uses.CSharp.references_listed)
  · exact givesProper_of_listed (fun _ _ => Declarations.Aura.symbols_listed)
      (fun _ _ _ => Uses.Aura.references_listed)
  · exact givesProper_of_listed (fun _ _ _ => Declarations.Visualforce.symbols_listed)
      (fun _ _ _ => Uses.Visualforce.references_listed)
  · exact metadata_givesProper
  · exact foxpro_givesProper
  · exact givesProper_of_listed (fun _ _ _ => Declarations.YAML.symbols_listed)
      (fun _ _ _ => Uses.YAML.references_listed)
  · exact givesProper_of_listed (fun _ _ _ => Declarations.HCL.symbols_listed)
      (fun _ _ _ => Uses.HCL.references_listed)

/-- The extractors that profiles give. -/
theorem profiled_givesProper (language : String) : (profiled language).GivesProper :=
  ofTree_givesProper
    (fun _ => Declarations.Profiled.symbols_listed (Profile.ofLanguage_declaresListed language))
    (fun _ => Uses.Profiled.references_listed (Profile.ofLanguage_usesListed language))

theorem ofLanguage_givesProper (language : String) : (ofLanguage language).GivesProper := by
  rcases ofLanguage_cases language with ⟨e, he, heq, -⟩ | heq
  · rw [heq]
    exact dedicated_givesProper e he
  · rw [heq]
    exact profiled_givesProper language

end Extractor

/-! ## Reading back what was extracted -/

theorem Symbol.read?_render {y : Symbol} (h : y.kind.IsProper) :
    (Json.read? (Json.render y.toJson)).bind ofJson? = some y := by
  rw [Json.read?_render y.isPlain_toJson, Option.bind_some, ofJson?_toJson h]

theorem Reference.read?_render {r : Reference} (h : r.kind.IsProper) :
    (Json.read? (Json.render r.toJson)).bind ofJson? = some r := by
  rw [Json.read?_render r.isPlain_toJson, Option.bind_some, ofJson?_toJson h]

theorem FileExtraction.read?_render {f : FileExtraction} (h : f.IsProper) :
    (Json.read? (Json.render f.toJson)).bind ofJson? = some f := by
  rw [Json.read?_render f.isPlain_toJson, Option.bind_some, ofJson?_toJson h]

namespace Extraction

open Idiom.Markup (elementNode)

/-- What is extracted from a file comes from an extractor. -/
theorem file_isProper {limits : Limits} {parse : Parser} {path : String} {bytes : List UInt8}
    {f : FileExtraction} (h : file limits parse path bytes = .ok f) : f.IsProper := by
  unfold file at h
  cases hlanguage : Language.ofPath? path with
  | none =>
      rw [hlanguage] at h
      cases h
  | some language =>
      rw [hlanguage] at h
      change Except.bind (root? parse language path bytes) _ = Except.ok f at h
      cases hroot : root? parse language path bytes with
      | error e =>
          rw [hroot] at h
          cases h
      | ok root =>
          rw [hroot] at h
          cases h
          have hproper := Extractor.ofLanguage_givesProper language
          exact ⟨hproper.symbols parse _ root, hproper.references parse _ root⟩

/-- A kind is read back from its word unless it is known only by the word of a listed kind, and no
extractor gives a symbol or a reference such a kind.  So whatever an extractor finds, and all that
is extracted from a file, is read back from its value and from the text that writes it. -/
theorem records_readBack :
    (∀ w, (SymbolKind.ofWord w).word = w) ∧ (∀ w, (ReferenceKind.ofWord w).word = w) ∧
      (∀ k, SymbolKind.ofWord k.word = k ↔ k.IsProper) ∧
      (∀ k, ReferenceKind.ofWord k.word = k ↔ k.IsProper) ∧
      (∀ e, e ∈ Extractor.dedicated ∨
          (∃ language, e = Extractor.profiled language ∨ e = Extractor.ofLanguage language) →
        ∀ parse d root,
          (∀ y ∈ e.symbols parse d root, y.kind.IsProper ∧ Symbol.ofJson? y.toJson = some y ∧
            (Json.read? (Json.render y.toJson)).bind Symbol.ofJson? = some y) ∧
          ∀ r ∈ e.references parse d root, r.kind.IsProper ∧
            Reference.ofJson? r.toJson = some r ∧
            (Json.read? (Json.render r.toJson)).bind Reference.ofJson? = some r) ∧
      ∀ limits parse path bytes f, file limits parse path bytes = .ok f →
        FileExtraction.ofJson? f.toJson = some f ∧
          (Json.read? (Json.render f.toJson)).bind FileExtraction.ofJson? = some f := by
  refine ⟨SymbolKind.word_ofWord, ReferenceKind.word_ofWord, SymbolKind.ofWord_word_iff,
    ReferenceKind.ofWord_word_iff, ?_, ?_⟩
  · intro e he parse d root
    have hproper : e.GivesProper := by
      rcases he with he | ⟨language, rfl | rfl⟩
      · exact Extractor.dedicated_givesProper e he
      · exact Extractor.profiled_givesProper language
      · exact Extractor.ofLanguage_givesProper language
    constructor
    · intro y hy
      have hkind := hproper.symbols parse d root y hy
      exact ⟨hkind, Symbol.ofJson?_toJson hkind, Symbol.read?_render hkind⟩
    · intro r hr
      have hkind := hproper.references parse d root r hr
      exact ⟨hkind, Reference.ofJson?_toJson hkind, Reference.read?_render hkind⟩
  · intro limits parse path bytes f h
    have hproper := file_isProper h
    exact ⟨FileExtraction.ofJson?_toJson hproper, FileExtraction.read?_render hproper⟩

/-- A flow with a call of a class, in a file with quotes in its name. -/
def callInFlow : Document :=
  { path := "Say \"hi\".flow-meta.xml"
    bytes := Text.Utf8.encode ("<Flow><actionCalls><actionType>apex</actionType>" ++
      "<actionName>A</actionName></actionCalls></Flow>\n").toList
    limits := {} }

def callInFlowTree : Node :=
  .mk "document" true [] 0 96
    [elementNode 4 0 95
      [elementNode 11 6 88
        [elementNode 10 19 48 [.leaf "text" [] 31 35],
          elementNode 10 48 74 [.leaf "text" [] 60 61]]]]

/-- The parser that knows the tree of this flow. -/
def parseFlow : Parser := fun grammar bytes =>
  if grammar = "html" ∧ bytes = callInFlow.bytes then some callInFlowTree else none

/-- A flow is a symbol of a kind of its own. -/
theorem flow_readBack :
    (∃ y, Extractor.metadata.symbols parseFlow callInFlow (some (.root callInFlowTree)) = [y] ∧
      y.kind = .other "flow" ∧ (Json.read? (Json.render y.toJson)).bind Symbol.ofJson? = some y) ∧
    ∃ f, file {} parseFlow callInFlow.path callInFlow.bytes = .ok f ∧
      f.symbols.map Symbol.kind = [.other "flow"] ∧
      f.references.map Reference.targetName = ["A"] ∧
      (Json.read? (Json.render f.toJson)).bind FileExtraction.ofJson? = some f := by
  constructor
  · have hmem : Extractor.metadata ∈ Extractor.dedicated := by simp [Extractor.dedicated]
    have hread := (records_readBack.2.2.2.2.1 Extractor.metadata (.inl hmem) parseFlow callInFlow
      (some (.root callInFlowTree))).1
    have hkinds : (Extractor.metadata.symbols parseFlow callInFlow
        (some (.root callInFlowTree))).map Symbol.kind = [.other "flow"] := by
      decide +kernel
    obtain ⟨y, hy, hkind⟩ := List.map_eq_singleton_iff.1 hkinds
    exact ⟨y, hy, hkind, (hread y (hy ▸ List.mem_singleton_self y)).2.2⟩
  · have hfound : (file {} parseFlow callInFlow.path callInFlow.bytes).toOption.map
        (fun f => (f.symbols.map Symbol.kind, f.references.map Reference.targetName)) =
          some ([.other "flow"], ["A"]) := by
      decide +kernel
    cases hfile : file {} parseFlow callInFlow.path callInFlow.bytes with
    | error e =>
        rw [hfile] at hfound
        cases hfound
    | ok f =>
        rw [hfile] at hfound
        obtain ⟨hsymbols, hreferences⟩ := Prod.mk.inj (Option.some.inj hfound)
        have hread := records_readBack.2.2.2.2.2 {} parseFlow _ _ f hfile
        exact ⟨f, rfl, hsymbols, hreferences, hread.2⟩

end Extraction

end SourceIndex
