import SourceIndex.Backends
import SourceIndex.Proofs.Texts

/-!
# Who reads the path

Most extractors look at the text and the tree of a document only.  The others tell from the path
what a file is: a trigger, a form, a file of values, or a part of a bundle; and some files are named
by it.
-/

namespace SourceIndex

/-- The same document under another path. -/
def Document.withPath (d : Document) (path : String) : Document :=
  { d with path }

variable (path other : String)

theorem Idiom.Apex.adjust_withPath (d : Document) :
    adjust (d.withPath path) = adjust (d.withPath other) := by
  have hsurroundings : surroundings (d.withPath path) = surroundings (d.withPath other) := rfl
  unfold adjust
  rw [hsurroundings]

namespace Declarations

/-- The change that a dialect makes to types must not depend on the path. -/
theorem Java.rule_withPath {dialect : Idiom.Java.Dialect} (d : Document)
    (hadjust : dialect.adjust (d.withPath path) = dialect.adjust (d.withPath other)) :
    Java.rule dialect (d.withPath path) = Java.rule dialect (d.withPath other) := by
  unfold rule childSteps typeSteps
  rw [hadjust]
  rfl

theorem Rust.childSteps_withPath (d : Document) :
    Rust.childSteps (d.withPath path) = Rust.childSteps (d.withPath other) := by
  have hdocumentation := Idiom.Rust.documentation_congr (d := d.withPath path)
    (e := d.withPath other) rfl
  unfold childSteps moduleSteps implSymbols macroSymbol? value? typeAlias? traitSymbols enumSymbols
    structSymbols field? requiredMethod? function?
  rw [hdocumentation]
  rfl

theorem Rust.rule_withPath (d : Document) :
    Rust.rule (d.withPath path) = Rust.rule (d.withPath other) := by
  unfold rule
  rw [childSteps_withPath path other]
  rfl

theorem PHP.rule_withPath (d : Document) :
    PHP.rule (d.withPath path) = PHP.rule (d.withPath other) := by
  have hspace := PHP.withSpace_congr (d := d.withPath path) (e := d.withPath other) rfl
  unfold rule
  rw [hspace]
  rfl

theorem Ruby.rule_withPath (d : Document) :
    Ruby.rule (d.withPath path) = Ruby.rule (d.withPath other) := by
  have hvisibility := Ruby.withVisibility_congr (d := d.withPath path) (e := d.withPath other) rfl
  unfold rule
  rw [hvisibility]
  rfl

end Declarations

theorem Uses.PHP.rule_withPath (d : Document) :
    PHP.rule (d.withPath path) = PHP.rule (d.withPath other) := by
  have hspace := PHP.withSpace_congr (d := d.withPath path) (e := d.withPath other) rfl
  funext task p
  cases task with
  | inside s =>
      rw [rule, rule, hspace]
      rfl
  | memberCall s => rfl
  | scopedCall s => rfl
  | functionCall s => rfl

namespace Extractor

/-- Does an extractor find the same in a document under both of two paths? -/
def FindsSameIn (path other : String) (e : Extractor) (parse : Parser) (d : Document)
    (root : Option Place) : Prop :=
  e.symbols parse (d.withPath path) root = e.symbols parse (d.withPath other) root ∧
    e.references parse (d.withPath path) root = e.references parse (d.withPath other) root

/-- Does it find the same in every document? -/
def FindsSame (path other : String) (e : Extractor) : Prop :=
  ∀ (parse : Parser) (d : Document) (root : Option Place), e.FindsSameIn path other parse d root

variable {path other}

theorem findsSame_ofTree {language : String} {endings : List String}
    {symbols : Document → Place → List Symbol} {references : Document → Place → List Reference}
    {docstring : Document → Place → Option String}
    (hsymbols : ∀ d : Document, symbols (d.withPath path) = symbols (d.withPath other))
    (hreferences : ∀ d : Document, references (d.withPath path) = references (d.withPath other)) :
    FindsSame path other (.ofTree language endings symbols references docstring) := by
  intro parse d root
  unfold FindsSameIn ofTree
  dsimp only
  rw [hsymbols d, hreferences d]
  exact ⟨rfl, rfl⟩

/-- The extractors made for one language that do not look at the path. -/
def pathless : List Extractor :=
  [java, python, javascript, typescript, tsx, go, rust, php, ruby, csharp, yaml]

theorem findsSame_of_mem_pathless (path other : String) :
    ∀ e ∈ pathless, e.FindsSame path other := by
  simp only [pathless, List.forall_mem_cons]
  refine ⟨findsSame_ofTree ?java ?java', findsSame_ofTree ?python ?python',
    findsSame_ofTree ?javascript ?javascript', findsSame_ofTree ?typescript ?typescript',
    findsSame_ofTree ?tsx ?tsx', findsSame_ofTree ?go ?go', findsSame_ofTree ?rust ?rust',
    findsSame_ofTree ?php ?php', findsSame_ofTree ?ruby ?ruby',
    findsSame_ofTree ?csharp ?csharp', ?yaml, nofun⟩
  case rust => exact fun d => congrArg (·.walk {}) (Declarations.Rust.rule_withPath path other d)
  case php => exact fun d => congrArg (·.walk {}) (Declarations.PHP.rule_withPath path other d)
  case ruby => exact fun d => congrArg (·.walk {}) (Declarations.Ruby.rule_withPath path other d)
  case php' =>
    exact fun d => congrArg (·.walk (.inside {})) (Uses.PHP.rule_withPath path other d)
  case yaml => exact fun _ _ _ => ⟨rfl, rfl⟩
  all_goals exact fun _ => rfl

/-- The extractors of the languages that have endings and are read by a profile do not either. -/
theorem findsSame_profiled (path other : String) :
    ∀ language ∈ ["kotlin", "swift", "html"], (profiled language).FindsSame path other := by
  simp only [List.forall_mem_cons]
  exact ⟨findsSame_ofTree (fun _ => rfl) (fun _ => rfl),
    findsSame_ofTree (fun _ => rfl) (fun _ => rfl),
    findsSame_ofTree (fun _ => rfl) (fun _ => rfl), nofun⟩

/-! ## Extractors that look at the path -/

/-- Apex asks whether a file is a trigger. -/
theorem apex_findsSame (h : Idiom.Apex.isTrigger path = Idiom.Apex.isTrigger other) :
    apex.FindsSame path other := by
  intro parse d root
  have hroot : Idiom.Apex.root? parse (d.withPath path) root =
      Idiom.Apex.root? parse (d.withPath other) root := by
    unfold Idiom.Apex.root? Document.withPath
    rw [h]
  have hsymbols : Declarations.Java.symbols Idiom.Apex.dialect (d.withPath path) =
      Declarations.Java.symbols Idiom.Apex.dialect (d.withPath other) :=
    congrArg (·.walk {})
      (Declarations.Java.rule_withPath path other d (Idiom.Apex.adjust_withPath path other d))
  constructor
  · show Declarations.Apex.symbols _ _ _ = Declarations.Apex.symbols _ _ _
    unfold Declarations.Apex.symbols
    rw [hroot, hsymbols]
    unfold Document.withPath
    rw [h]
    rfl
  · show Uses.Apex.references _ _ _ = Uses.Apex.references _ _ _
    unfold Uses.Apex.references
    rw [hroot]
    rfl

/-- FoxPro asks whether a file is a form, and names forms and scripts after the file. -/
theorem foxpro_findsSame (hform : Idiom.FoxPro.isForm path = Idiom.FoxPro.isForm other)
    (hstem : Text.fileStem path = Text.fileStem other) : foxpro.FindsSame path other := by
  intro parse d root
  unfold FindsSameIn foxpro Document.withPath
  dsimp only
  rw [hform]
  split
  · unfold Declarations.Form.symbols Uses.Form.references Document.fileStem
    rw [hstem]
    exact ⟨rfl, rfl⟩
  · unfold Declarations.FoxPro.symbols Document.fileStem
    rw [hstem]
    exact ⟨rfl, rfl⟩

/-- HCL asks whether a file holds values only. -/
theorem hcl_findsSame (h : Idiom.HCL.isValues path = Idiom.HCL.isValues other) :
    hcl.FindsSame path other := by
  intro parse d root
  unfold FindsSameIn hcl Document.withPath Declarations.HCL.symbols Uses.HCL.references
  dsimp only
  rw [h]
  exact ⟨rfl, rfl⟩

/-- What a path says of a part of a bundle: its name, and what comes behind the dot. -/
def bundlePart (path : String) : String × String :=
  (Text.splitLast? "." (Text.fileName path)).getD (Text.fileName path, "")

/-- Aura names a file by its path and tells its kind by its ending. -/
theorem aura_findsSame {name ending ending' : String} (hpath : bundlePart path = (name, ending))
    (hother : bundlePart other = (name, ending'))
    (hkind : Declarations.Aura.bundleKind ending = Declarations.Aura.bundleKind ending') :
    aura.FindsSame path other := by
  intro parse d root
  have hpath' : (d.withPath path).nameAndEnding = (name, ending) := hpath
  have hother' : (d.withPath other).nameAndEnding = (name, ending') := hother
  refine ⟨?_, rfl⟩
  show Declarations.Aura.symbols _ _ = Declarations.Aura.symbols _ _
  unfold Declarations.Aura.symbols
  rw [hpath', hother']
  dsimp only
  rw [hkind]
  rfl

/-- Visualforce does the same, and knows two kinds. -/
theorem visualforce_findsSame {name ending ending' : String}
    (hpath : bundlePart path = (name, ending)) (hother : bundlePart other = (name, ending'))
    (hkind : (ending == "page") = (ending' == "page")) : visualforce.FindsSame path other := by
  intro parse d root
  have hpath' : (d.withPath path).nameAndEnding = (name, ending) := hpath
  have hother' : (d.withPath other).nameAndEnding = (name, ending') := hother
  refine ⟨?_, rfl⟩
  show Declarations.Visualforce.symbols _ = Declarations.Visualforce.symbols _
  unfold Declarations.Visualforce.symbols
  rw [hpath', hother']
  dsimp only
  rw [hkind]
  rfl

end Extractor

end SourceIndex
