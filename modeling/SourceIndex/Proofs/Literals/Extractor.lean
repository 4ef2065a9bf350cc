import SourceIndex.Backends
import SourceIndex.Proofs.Lines.Extractor
import SourceIndex.Proofs.Literals.C
import SourceIndex.Proofs.Literals.ECMAScript
import SourceIndex.Proofs.Literals.Fields
import SourceIndex.Proofs.Literals.Plain
import SourceIndex.Proofs.Literals.Profiled
import SourceIndex.Proofs.Literals.Scripts

/-!
# The limit for literals in all languages

Whatever the language, a literal that is longer than the limit allows comes from one of the places
where nobody measures.  So the literals of a file are within the limit if and only if those are that
it keeps from such places.
-/

namespace SourceIndex

/-- An extractor with the texts of the literals at a place that it keeps without measuring them. -/
structure Backend where
  extractor : Extractor
  unmeasured : Document → Place → List String := fun _ _ => []

namespace Backend

/-- C. -/
def c : Backend where
  extractor := .c
  unmeasured := Declarations.C.unmeasured

/-- The extractors made for one language. -/
def dedicated : List Backend :=
  [{ extractor := .java },
    { extractor := .apex },
    { extractor := .python, unmeasured := Declarations.Python.unmeasured },
    { extractor := .javascript, unmeasured := Declarations.ECMAScript.unmeasured },
    { extractor := .typescript, unmeasured := Declarations.TypeScript.unmeasured },
    { extractor := .tsx, unmeasured := Declarations.TypeScript.unmeasured },
    { extractor := .go },
    { extractor := .rust },
    c,
    { extractor := .cpp, unmeasured := Declarations.C.unmeasured },
    { extractor := .objc, unmeasured := Declarations.C.unmeasured },
    { extractor := .php, unmeasured := Declarations.PHP.unmeasured },
    { extractor := .ruby, unmeasured := Declarations.Ruby.unmeasured },
    { extractor := .csharp, unmeasured := Declarations.CSharp.unmeasured },
    { extractor := .aura },
    { extractor := .visualforce },
    { extractor := .metadata },
    { extractor := .foxpro },
    { extractor := .yaml },
    { extractor := .hcl }]

theorem map_extractor_dedicated : dedicated.map Backend.extractor = Extractor.dedicated :=
  rfl

/-- The extractor of a language that is read by its profile. -/
def profiled (language : String) : Backend where
  extractor := .profiled language
  unmeasured := Profile.unmeasured language

/-- The extractor of any language is one of these. -/
theorem exists_extractor_eq (language : String) :
    ∃ b : Backend, (b ∈ dedicated ∨ b = profiled language) ∧
      b.extractor = Extractor.ofLanguage language := by
  rcases Extractor.ofLanguage_cases language with ⟨e, he, heq, -⟩ | heq
  · rw [← map_extractor_dedicated] at he
    obtain ⟨b, hb, rfl⟩ := List.mem_map.1 he
    exact ⟨b, Or.inl hb, heq.symm⟩
  · exact ⟨profiled language, Or.inr rfl, heq.symm⟩

/-- Are the literals of all symbols within the limit, or such as the extractor does not measure? -/
def IsMeasured (b : Backend) (parse : Parser) (d : Document) (root : Option Place) : Prop :=
  ∀ y ∈ b.extractor.symbols parse d root,
    y.IsWithin d.limits ∨ ∃ r ∈ root, y.IsUnmeasured d (b.unmeasured d) r

variable {d : Document} {parse : Parser} {root : Option Place} {language : String}

/-- What is found from a root is measured if it is so for each root. -/
theorem isMeasured_ofTree {endings : List String} {symbols : Document → Place → List Symbol}
    {references : Document → Place → List Reference} {docstring : Document → Place → Option String}
    {unmeasured : Document → Place → List String}
    (h : ∀ r, ∀ y ∈ symbols d r, y.IsMeasured d (unmeasured d) r) :
    IsMeasured ⟨.ofTree language endings symbols references docstring, unmeasured⟩ parse d
      root := by
  cases root with
  | none => exact List.forall_mem_nil _
  | some r =>
      intro y hy
      exact (h r y hy).imp_right fun hplace => ⟨r, rfl, hplace⟩

theorem isMeasured_of_isWithin {e : Extractor} {unmeasured : Document → Place → List String}
    (h : ∀ y ∈ e.symbols parse d root, y.IsWithin d.limits) :
    IsMeasured ⟨e, unmeasured⟩ parse d root :=
  fun y hy => Or.inl (h y hy)

theorem isMeasured_of_isBare {e : Extractor} {unmeasured : Document → Place → List String}
    (h : ∀ y ∈ e.symbols parse d root, y.IsBare) : IsMeasured ⟨e, unmeasured⟩ parse d root :=
  isMeasured_of_isWithin fun y hy => Symbol.isWithin_of_isBare (h y hy)

theorem isMeasured_of_mem_dedicated : ∀ b ∈ dedicated, b.IsMeasured parse d root := by
  have hbare : ∀ {symbols : Document → Place → List Symbol},
      (∀ r, ∀ y ∈ symbols d r, y.IsBare) → ∀ y ∈ (root.map (symbols d)).getD [], y.IsBare :=
    fun h => forall_mem_getD_map h
  have hjavascript := Declarations.ECMAScript.symbols_areMeasured
    Declarations.ECMAScript.javascript_isPlain
    (Declarations.ECMAScript.javascript_staysMeasured d _)
    fun _ => Declarations.ECMAScript.literal_measures
  have htypescript := Declarations.ECMAScript.symbols_areMeasured
    Declarations.ECMAScript.typescript_isPlain
    (Declarations.TypeScript.typescript_staysMeasured d)
    (Declarations.TypeScript.measuresLiterals d)
  have hc : ∀ {dialect : Declarations.C.Dialect}, dialect.IsBare → ∀ r,
      ∀ y ∈ Declarations.C.symbols dialect d r, y.IsMeasured d (Declarations.C.unmeasured d) r :=
    Declarations.C.symbols_areMeasured
  simp only [dedicated, List.forall_mem_cons]
  refine ⟨isMeasured_of_isWithin ?java, isMeasured_of_isWithin ?apex, isMeasured_ofTree ?python,
    isMeasured_ofTree hjavascript, isMeasured_ofTree htypescript, isMeasured_ofTree htypescript,
    isMeasured_of_isBare ?go, isMeasured_of_isBare ?rust, isMeasured_ofTree (hc ?c),
    isMeasured_ofTree (hc ?cpp), isMeasured_ofTree (hc ?objc), isMeasured_ofTree ?php,
    isMeasured_ofTree ?ruby, isMeasured_ofTree ?csharp, isMeasured_of_isBare ?aura,
    isMeasured_of_isBare ?visualforce, isMeasured_of_isBare ?metadata, isMeasured_of_isBare ?foxpro,
    isMeasured_of_isBare ?yaml, isMeasured_of_isBare ?hcl, nofun⟩
  case java =>
    exact forall_mem_getD_map
      (Declarations.Java.symbols_areWithin Idiom.Java.dialect_keepsLiterals)
  case apex => exact Declarations.Apex.symbols_areWithin parse root
  case python => exact Declarations.Python.symbols_areMeasured
  case go => exact hbare Declarations.Go.symbols_areBare
  case rust => exact hbare Declarations.Rust.symbols_areBare
  case c => exact Declarations.C.c_isBare
  case cpp => exact Declarations.C.cpp_isBare
  case objc => exact Declarations.ObjC.dialect_isBare
  case php => exact Declarations.PHP.symbols_areMeasured
  case ruby => exact Declarations.Ruby.symbols_areMeasured
  case csharp => exact Declarations.CSharp.symbols_areMeasured
  case aura => exact Declarations.Aura.symbols_areBare root
  case visualforce => exact Declarations.Visualforce.symbols_areBare d
  case metadata =>
    simp only [Extractor.metadata]
    exact Declarations.Metadata.symbols_areBare root
  case foxpro =>
    simp only [Extractor.foxpro]
    split
    · exact Declarations.Form.symbols_areBare d
    · exact Declarations.FoxPro.symbols_areBare d
  case yaml => exact Declarations.YAML.symbols_areBare d
  case hcl => exact Declarations.HCL.symbols_areBare d

theorem isMeasured_profiled (language : String) : (profiled language).IsMeasured parse d root :=
  isMeasured_ofTree Declarations.Profiled.symbols_areMeasured

/-- Every language is read by one of the backends.  Whatever the backend, the limits, the source and
the tree, the literals of all symbols are within the limit if and only if those are that the
extractor does not measure. -/
theorem literals_areWithin_iff (parse : Parser) (d : Document) (root : Option Place) :
    (∀ language, ∃ b : Backend, (b ∈ dedicated ∨ b = profiled language) ∧
      b.extractor = Extractor.ofLanguage language) ∧
    ∀ b : Backend, (b ∈ dedicated ∨ ∃ language, b = profiled language) →
      ((∀ y ∈ b.extractor.symbols parse d root, ∀ v ∈ y.defaultValue,
          Text.size v ≤ d.limits.literalSize.toNat) ↔
        ∀ y ∈ b.extractor.symbols parse d root,
          (∃ r ∈ root, y.IsUnmeasured d (b.unmeasured d) r) →
            ∀ v ∈ y.defaultValue, Text.size v ≤ d.limits.literalSize.toNat) := by
  refine ⟨exists_extractor_eq, fun b hb => ?_⟩
  have hmeasured : b.IsMeasured parse d root := by
    rcases hb with hb | ⟨language, rfl⟩
    · exact isMeasured_of_mem_dedicated b hb
    · exact isMeasured_profiled language
  constructor
  · intro h y hy _
    exact h y hy
  · intro h y hy
    rcases hmeasured y hy with hwithin | hunmeasured
    · exact hwithin
    · exact h y hy hunmeasured

/-- An enumerator and a constant, under a limit for literals. -/
def twoValues (limit : UInt64) : Document where
  path := "a.c"
  bytes := Text.Utf8.encode "enum E \x7b A = 1000 \x7d;\nconst int a = 10000;\n".toList
  limits := { literalSize := limit }

/-- The tree of `twoValues`. -/
def twoValuesTree : Node :=
  .mk "translation_unit" true [] 0 42
    [.mk "enum_specifier" true [] 0 19
      [.token "enum" 0 4, .leaf "type_identifier" ["name"] 5 6,
        .mk "enumerator_list" true ["body"] 7 19
          [.token "\x7b" 7 8,
            .mk "enumerator" true [] 9 17
              [.leaf "identifier" ["name"] 9 10, .token "=" 11 12,
                .leaf "number_literal" ["value"] 13 17],
            .token "\x7d" 18 19]],
      .token ";" 19 20,
      .mk "declaration" true [] 21 41
        [.mk "type_qualifier" true [] 21 26 [.token "const" 21 26],
          .leaf "primitive_type" ["type"] 27 30,
          .mk "init_declarator" true ["declarator"] 31 40
            [.leaf "identifier" ["declarator"] 31 32, .token "=" 33 34,
              .leaf "number_literal" ["value"] 35 40],
          .token ";" 40 41]]

/-- If the value of the enumerator is as long as the limit, all literals are within the limit: that
of the constant is too long and not kept. -/
theorem twoValues_areWithin :
    let symbols := c.extractor.symbols (fun _ _ => none) (twoValues 4) (some (.root twoValuesTree))
    (symbols.map fun y => (y.qualifiedName, y.defaultValue)) =
        [("E", none), ("E::A", some "1000"), ("a", none)] ∧
      ∀ y ∈ symbols, ∀ v ∈ y.defaultValue,
        Text.size v ≤ (twoValues 4).limits.literalSize.toNat := by
  have hc : c ∈ dedicated := by simp [dedicated]
  obtain ⟨-, hiff⟩ :=
    literals_areWithin_iff (fun _ _ => none) (twoValues 4) (some (.root twoValuesTree))
  exact ⟨by decide +kernel, (hiff c (Or.inl hc)).2 (by decide +kernel)⟩

/-- Under a lower limit the value of the enumerator is too long, and kept all the same. -/
theorem twoValues_not_areWithin :
    let symbols := c.extractor.symbols (fun _ _ => none) (twoValues 3) (some (.root twoValuesTree))
    (symbols.map fun y => (y.qualifiedName, y.defaultValue)) =
        [("E", none), ("E::A", some "1000"), ("a", none)] ∧
      ¬ ∀ y ∈ symbols, ∀ v ∈ y.defaultValue,
        Text.size v ≤ (twoValues 3).limits.literalSize.toNat := by
  decide +kernel

end Backend

end SourceIndex
