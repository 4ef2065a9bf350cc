import SourceIndex.Extraction
import SourceIndex.Proofs.Extents.HCL
import SourceIndex.Proofs.Paths.Headers
import SourceIndex.Proofs.Text.Ending

/-!
# Endings in capitals

The language of a path does not depend on the letter case of its ending, and most extractors find
the same in either case.  Some look at the path again and compare as it is written.  So files of
values, headers, and parts of bundles are not taken for what they are if their endings hold
capitals.
-/

namespace SourceIndex

open Text

variable {path other : String} {folder stem ending : List Char}

/-! ## Languages -/

namespace Language

/-- An ending with a language gives it to every path that ends so. -/
theorem ofPath?_of_extension? {p : String × String} (hp : p ∈ endings)
    (h : extension? path = some p.1) : ofPath? path = some p.2 := by
  have hfind : ∀ p ∈ endings, endings.find? (fun e => e.1 == p.1) = some p := by decide +kernel
  have hplain : endsWith metadataSuffix path = false := by
    obtain ⟨folder, stem, ending, hparts, hending⟩ := Parts.exists_of_extension? h
    refine Bool.eq_false_iff.2 fun hends => ?_
    have hword : '.' ∉ "xml".toList := by decide
    have hxml : "xml".toList = ending := hparts.eq_of_endsWith "-meta".toList hword hends
    have hnot : ∀ p ∈ endings, p.1 ≠ ".xml" := by decide
    rw [← hxml] at hending
    exact hnot p hp hending
  rw [ofPath?, hplain, if_neg Bool.false_ne_true, h, Option.bind_eq_bind, Option.bind_some,
    hfind p hp]
  rfl

/-- Does a parser give a tree of some octets under the grammar of a language, if it has one? -/
def HasTree (language : String) (parse : Parser) (bytes : List UInt8) : Prop :=
  ∀ grammar, grammarOf language = .ok grammar → (parse grammar bytes).isSome

/-- A tree that is needed is the same for all paths, and there is one if the parser gives it. -/
theorem exists_root? {p : String × String} (hp : p ∈ endings) {parse : Parser}
    {bytes : List UInt8} (htree : HasTree p.2 parse bytes) :
    ∃ root, ∀ path, Extraction.root? parse p.2 path bytes = .ok root := by
  have hgrammars : ∀ p ∈ endings, hasNoGrammar p.2 = true ∨ (grammarOf p.2).isOk = true := by
    decide +kernel
  unfold Extraction.root?
  split
  · exact ⟨none, fun _ => rfl⟩
  · rename_i hneeded
    obtain hnone | hgrammar := hgrammars p hp
    · exact absurd hnone hneeded
    · cases hof : grammarOf p.2 with
      | error e =>
          rw [hof] at hgrammar
          cases hgrammar
      | ok grammar =>
          obtain ⟨tree, hparsed⟩ := Option.isSome_iff_exists.1 (htree grammar hof)
          refine ⟨some (.root tree), fun path => ?_⟩
          simp only [bind, Except.bind, hparsed, Option.elim]

end Language

/-! ## Endings that are compared as they are written -/

namespace Extractor

/-- The endings of files of values. -/
def valueEndings : List String :=
  [".tfvars"]

/-- The endings of headers. -/
def headerEndings : List String :=
  [".h", ".hpp", ".hh", ".hxx"]

/-- The endings of the parts of a bundle, except components, and of pages. -/
def partEndings : List String :=
  [".app", ".evt", ".intf", ".design", ".page"]

/-- The endings that some extractor compares with the path as it is written. -/
def comparedEndings : List String :=
  valueEndings ++ headerEndings ++ partEndings

/-- These are in lower case. -/
theorem map_toLower_of_mem_compared (h : String.ofList ('.' :: ending) ∈ comparedEndings) :
    ending.map Char.toLower = ending := by
  have hlower : ∀ e ∈ comparedEndings, e.toList.map Char.toLower = e.toList := by decide
  have hending := hlower _ h
  rw [String.toList_ofList] at hending
  exact (List.cons.inj hending).2

end Extractor

open Extractor

namespace Text.Parts

theorem bundlePart_eq (h : Parts path folder stem ending) :
    bundlePart path = (String.ofList stem, String.ofList ending) := by
  rw [bundlePart, h.splitLast?_fileName]
  rfl

/-- Whether a file holds values is told by its ending as it is written. -/
theorem isValues_iff (h : Parts path folder stem ending) :
    Idiom.HCL.isValues path = true ↔ String.ofList ('.' :: ending) ∈ valueEndings := by
  rw [← h.any_endsWith_iff (by decide), valueEndings, List.any_cons, List.any_nil, Bool.or_false]
  rfl

/-- Whether a file is a header is told by its ending as it is written. -/
theorem isHeader_iff (h : Parts path folder stem ending) :
    Idiom.C.isHeader path = true ↔ String.ofList ('.' :: ending) ∈ headerEndings := by
  rw [← h.any_endsWith_iff (by decide)]
  rfl

end Text.Parts

/-- An ending that is none of some is none of them without its dot either. -/
theorem Text.ne_of_written_notMem {endings : List String}
    (h : String.ofList ('.' :: ending) ∉ endings) {word : String} (hword : "." ++ word ∈ endings) :
    String.ofList ending ≠ word := by
  rintro rfl
  have hdot : "." ++ String.ofList ending = String.ofList ('.' :: ending) := by
    rw [← String.toList_inj]
    simp
  exact h (hdot ▸ hword)

/-- A part of a bundle is a component unless its ending says something else. -/
theorem Declarations.Aura.bundleKind_eq_component
    (h : String.ofList ('.' :: ending) ∉ partEndings) :
    bundleKind (String.ofList ending) = .component := by
  unfold bundleKind
  split
  case h_1 heq => exact absurd heq (ne_of_written_notMem h (by decide))
  case h_2 heq => exact absurd heq (ne_of_written_notMem h (by decide))
  case h_3 heq => exact absurd heq (ne_of_written_notMem h (by decide))
  case h_4 heq => exact absurd heq (ne_of_written_notMem h (by decide))
  case h_5 => rfl

/-- Forms and triggers are told by an ending in any letter case. -/
theorem Idiom.FoxPro.isForm_withLowerEnding (path : String) :
    isForm (withLowerEnding path) = isForm path := by
  rw [isForm, isForm, lower_withLowerEnding]

theorem Idiom.Apex.isTrigger_withLowerEnding (path : String) :
    isTrigger (withLowerEnding path) = isTrigger path := by
  rw [isTrigger, isTrigger, lower_withLowerEnding]

namespace Extractor

/-- The languages of all endings, by how their extractors look at the path. -/
theorem ofLanguage_cases_of_ending {p : String × String} (hp : p ∈ Language.endings) :
    ofLanguage p.2 ∈ pathless ∨ p.2 ∈ ["kotlin", "swift", "html"] ∨ ofLanguage p.2 ∈ cFamily ∨
      p.2 = "apex" ∨ p.2 = "foxpro" ∨ p.2 = "hcl" ∨ p.2 = "aura" ∨ p.2 = "visualforce" := by
  have hpathless : ∀ e ∈ pathless, ofLanguage e.language = e := by
    simp only [pathless, List.forall_mem_cons]
    exact ⟨rfl, rfl, rfl, rfl, rfl, rfl, rfl, rfl, rfl, rfl, rfl, List.forall_mem_nil _⟩
  have hfamily : ∀ e ∈ cFamily, ofLanguage e.language = e := by
    simp only [cFamily, List.forall_mem_cons]
    exact ⟨rfl, rfl, rfl, List.forall_mem_nil _⟩
  have hlanguages : ∀ p ∈ Language.endings, p.2 ∈ pathless.map language ∨
      p.2 ∈ ["kotlin", "swift", "html"] ∨ p.2 ∈ cFamily.map language ∨
      p.2 = "apex" ∨ p.2 = "foxpro" ∨ p.2 = "hcl" ∨ p.2 = "aura" ∨ p.2 = "visualforce" := by
    decide +kernel
  refine (hlanguages p hp).imp ?_ (Or.imp_right (Or.imp_left ?_))
  · intro h
    obtain ⟨e, he, heq⟩ := List.mem_map.1 h
    rwa [← heq, hpathless e he]
  · intro h
    obtain ⟨e, he, heq⟩ := List.mem_map.1 h
    rwa [← heq, hfamily e he]

theorem ofLanguage_profiled : ∀ language ∈ ["kotlin", "swift", "html"],
    ofLanguage language = profiled language := by
  simp only [List.forall_mem_cons]
  exact ⟨rfl, rfl, rfl, List.forall_mem_nil _⟩

/-- No extractor finds anything else if the ending is none that is compared as it is written. -/
theorem findsSame_withLowerEnding {p : String × String} (hp : p ∈ Language.endings)
    (h : extension? path = some p.1) (hcompared : p.1 ∉ comparedEndings) :
    (ofLanguage p.2).FindsSame path (withLowerEnding path) := by
  have hvalues : ∀ e ∈ valueEndings, e ∈ comparedEndings := by decide
  have hheaders : ∀ e ∈ headerEndings, e ∈ comparedEndings := by decide
  have hpartEndings : ∀ e ∈ partEndings, e ∈ comparedEndings := by decide
  obtain ⟨folder, stem, ending, hparts, heq⟩ := Parts.exists_of_extension? h
  have hlower := hparts.lower
  have hending' : String.ofList ('.' :: ending.map Char.toLower) ∉ comparedEndings := by
    rwa [← heq]
  have hending : String.ofList ('.' :: ending) ∉ comparedEndings := by
    intro hmem
    rw [map_toLower_of_mem_compared hmem] at hending'
    exact hending' hmem
  rcases ofLanguage_cases_of_ending hp with h | h | h | h | h | h | h | h
  · exact findsSame_of_mem_pathless _ _ _ h
  · rw [ofLanguage_profiled _ h]
    exact findsSame_profiled _ _ _ h
  · refine findsSame_of_mem_cFamily (Bool.eq_false_iff.2 ?_) (Bool.eq_false_iff.2 ?_) _ h
    · exact mt hparts.isHeader_iff.1 (mt (hheaders _) hending)
    · exact mt hlower.isHeader_iff.1 (mt (hheaders _) hending')
  all_goals rw [h]
  · exact apex_findsSame (Idiom.Apex.isTrigger_withLowerEnding path).symm
  · refine foxpro_findsSame (Idiom.FoxPro.isForm_withLowerEnding path).symm ?_
    have hdot : ∀ p ∈ Language.endings, p.1 ≠ "." := by decide
    have hne : ending ≠ [] := by
      rintro rfl
      exact hdot p hp heq
    rw [hparts.fileStem_eq hne, hlower.fileStem_eq (mt List.map_eq_nil_iff.1 hne)]
  · refine hcl_findsSame ((Bool.eq_false_iff.2 ?_).trans (Bool.eq_false_iff.2 ?_).symm)
    · exact mt hparts.isValues_iff.1 (mt (hvalues _) hending)
    · exact mt hlower.isValues_iff.1 (mt (hvalues _) hending')
  · refine aura_findsSame hparts.bundlePart_eq hlower.bundlePart_eq ?_
    rw [Declarations.Aura.bundleKind_eq_component (mt (hpartEndings _) hending),
      Declarations.Aura.bundleKind_eq_component (mt (hpartEndings _) hending')]
  · refine visualforce_findsSame hparts.bundlePart_eq hlower.bundlePart_eq ?_
    have hpage : (String.ofList ending == "page") = false :=
      beq_eq_false_iff_ne.2 (ne_of_written_notMem (mt (hpartEndings _) hending) (by decide))
    have hpage' : (String.ofList (ending.map Char.toLower) == "page") = false :=
      beq_eq_false_iff_ne.2 (ne_of_written_notMem (mt (hpartEndings _) hending') (by decide))
    rw [hpage, hpage']

end Extractor

/-! ## Values -/

namespace Declarations.HCL

open Idiom.HCL

/-- The last character of the signature of a symbol. -/
def lastOfSignature (y : Symbol) : Option Char :=
  y.signature.bind fun signature => signature.toList.getLast?

theorem lastOfSignature_value? {line : Line} {y : Symbol} (h : value? line = some y) :
    y.visibility = .public ∧ lastOfSignature y = some '.' := by
  obtain ⟨key, -, rfl⟩ := Option.map_eq_some_iff.1 h
  refine ⟨rfl, ?_⟩
  show (key ++ " = ...").toList.getLast? = some '.'
  simp

theorem lastOfSignature_block? {depth : Int32} {line : Line} {rest : List Line} {y : Symbol}
    (h : block? depth line rest = some y) : lastOfSignature y ≠ some '.' := by
  have hquote : ∀ text : String, (text ++ "\"").toList.getLast? ≠ some '.' := by
    intro text
    have hlast : "\"".toList.getLast? = some '"' := by decide
    rw [String.toList_append, List.getLast?_append, hlast, Option.some_or]
    decide
  obtain ⟨⟨name, kind, details⟩, hdeclared, rfl⟩ := Option.map_eq_some_iff.1 h
  obtain ⟨o, -, hdeclared⟩ := Option.bind_eq_some_iff.1 hdeclared
  show (details.signature.bind fun signature => signature.toList.getLast?) ≠ some '.'
  -- A signature ends in the quote of a label or in the brace of a block without labels.
  dsimp only [declared?] at hdeclared
  split at hdeclared
  case h_1 =>
    split at hdeclared
    all_goals cases hdeclared
    all_goals exact hquote _
  case h_2 =>
    split at hdeclared
    all_goals cases hdeclared
    all_goals exact hquote _
  case h_3 =>
    split at hdeclared
    all_goals cases hdeclared
    all_goals decide

/-- What a file of blocks declares is never what a file of values would. -/
theorem not_value_of_mem_symbolsFrom {depth : Int32} {locals : Option Int32} {lines : List Line}
    {y : Symbol} (h : y ∈ symbolsFrom depth locals lines) (line : Line) : value? line ≠ some y := by
  intro hvalue
  obtain ⟨hpublic, hlast⟩ := lastOfSignature_value? hvalue
  induction lines generalizing depth locals with
  | nil => cases h
  | cons first rest ih =>
      simp only [symbolsFrom] at h
      split at h
      · split at h
        · exact ih h
        · rcases List.mem_append.1 h with h | h
          · obtain ⟨key, -, rfl⟩ := Option.map_eq_some_iff.1 (Option.mem_toList.1 h)
            cases hpublic
          · exact ih h
      · split at h
        · exact ih h
        · rcases List.mem_append.1 h with h | h
          · exact lastOfSignature_block? (Option.mem_toList.1 h) hlast
          · exact ih h

/-- Read as blocks and read as values, the same lines declare the same only if they declare
nothing. -/
theorem symbolsFrom_eq_values_iff {lines : List Line} :
    symbolsFrom 0 none lines = lines.filterMap value? ↔
      symbolsFrom 0 none lines = [] ∧ lines.filterMap value? = [] := by
  constructor
  · intro heq
    have hnil : symbolsFrom 0 none lines = [] := by
      refine List.eq_nil_iff_forall_not_mem.2 fun y hy => ?_
      obtain ⟨line, -, hvalue⟩ := List.mem_filterMap.1 (heq ▸ hy)
      exact not_value_of_mem_symbolsFrom hy line hvalue
    exact ⟨hnil, heq ▸ hnil⟩
  · rintro ⟨hblocks, hvalues⟩
    rw [hblocks, hvalues]

end Declarations.HCL

/-! ## Where letter case makes a difference -/

namespace Extractor

variable (parse : Parser) (d : Document) (root : Option Place)

/-- A file of values is taken for a file of blocks. -/
theorem hcl_findsSameIn_iff (hpath : Idiom.HCL.isValues path = false)
    (hother : Idiom.HCL.isValues other = true) :
    hcl.FindsSameIn path other parse d root ↔
      hcl.symbols parse (d.withPath path) root = [] ∧
        hcl.references parse (d.withPath path) root = [] ∧
          hcl.symbols parse (d.withPath other) root = [] := by
  have hblocks : hcl.symbols parse (d.withPath path) root =
      Declarations.HCL.symbolsFrom 0 none (Idiom.HCL.linesOf d) :=
    (if_neg (Bool.eq_false_iff.1 hpath)).trans (Declarations.HCL.blockSymbols_eq _)
  have hvalues : hcl.symbols parse (d.withPath other) root =
      (Idiom.HCL.linesOf d).filterMap Declarations.HCL.value? :=
    if_pos hother
  have hnone : hcl.references parse (d.withPath other) root = [] := if_pos hother
  rw [FindsSameIn, hblocks, hvalues, hnone, Declarations.HCL.symbolsFrom_eq_values_iff, and_assoc,
    and_congr_right_iff]
  exact fun _ => and_comm

/-- A header is taken for a file that exports nothing. -/
theorem findsSameIn_iff_of_header {e : Extractor} (he : e ∈ [c, cpp])
    (hpath : Idiom.C.isHeader path = false) (other : String) :
    e.FindsSameIn path other parse d root ↔
      ∀ y ∈ e.symbols parse (d.withPath other) root, y.isExported = true → y.kind = .module := by
  obtain ⟨hsymbols, hreferences⟩ := symbols_unexported hpath other he parse d root
  rw [FindsSameIn, hsymbols, hreferences, and_iff_left rfl]
  refine Iff.trans ?_ (forall₂_congr fun y _ => Symbol.unexported_eq_self_iff)
  exact (Eq.congr_right (List.map_id _).symm).trans List.map_inj_left

/-- A part of a bundle is taken for a component. -/
theorem not_aura_findsSameIn {name written lowered : String}
    (hpath : bundlePart path = (name, written)) (hother : bundlePart other = (name, lowered))
    (hkind : Declarations.Aura.bundleKind written ≠ Declarations.Aura.bundleKind lowered) :
    ¬ aura.FindsSameIn path other parse d root := by
  have hpath' : (d.withPath path).nameAndEnding = (name, written) := hpath
  have hother' : (d.withPath other).nameAndEnding = (name, lowered) := hother
  rintro ⟨hsymbols, -⟩
  change Declarations.Aura.symbols _ _ = Declarations.Aura.symbols _ _ at hsymbols
  unfold Declarations.Aura.symbols at hsymbols
  rw [hpath', hother'] at hsymbols
  exact hkind (congrArg Symbol.kind (List.cons.inj hsymbols).1)

/-- So is a page. -/
theorem not_visualforce_findsSameIn {name written lowered : String}
    (hpath : bundlePart path = (name, written)) (hother : bundlePart other = (name, lowered))
    (hwritten : written ≠ "page") (hlowered : lowered = "page") :
    ¬ visualforce.FindsSameIn path other parse d root := by
  have hpath' : (d.withPath path).nameAndEnding = (name, written) := hpath
  have hother' : (d.withPath other).nameAndEnding = (name, lowered) := hother
  rintro ⟨hsymbols, -⟩
  change Declarations.Visualforce.symbols _ = Declarations.Visualforce.symbols _ at hsymbols
  unfold Declarations.Visualforce.symbols at hsymbols
  rw [hpath', hother', hlowered] at hsymbols
  have hkind := congrArg Symbol.kind (List.cons.inj hsymbols).1
  change (if (written == "page") = true then SymbolKind.page else .component) = .page at hkind
  rw [beq_eq_false_iff_ne.2 hwritten] at hkind
  cases hkind

/-- Neither a part of a bundle nor a page is found to be the same. -/
theorem not_findsSameIn_of_part {ending' : List Char} {p : String × String}
    (hp : p ∈ Language.endings) (hpart : p.1 ∈ partEndings) (hpath : Parts path folder stem ending)
    (hother : Parts other folder stem ending')
    (hwritten : String.ofList ('.' :: ending) ∉ partEndings)
    (hlowered : p.1 = String.ofList ('.' :: ending')) :
    ¬ (ofLanguage p.2).FindsSameIn path other parse d root := by
  have htail : ending' = p.1.toList.tail := by
    rw [hlowered, String.toList_ofList, List.tail_cons]
  have hlanguage : ∀ p ∈ Language.endings, p.1 ∈ partEndings →
      (p.2 = "aura" ∧
        Declarations.Aura.bundleKind (String.ofList p.1.toList.tail) ≠ .component) ∨
      (p.2 = "visualforce" ∧ String.ofList p.1.toList.tail = "page") := by
    decide +kernel
  rcases hlanguage p hp hpart with ⟨hl, hkind⟩ | ⟨hl, hpage⟩
  · rw [hl]
    refine not_aura_findsSameIn parse d root hpath.bundlePart_eq hother.bundlePart_eq ?_
    rw [Declarations.Aura.bundleKind_eq_component hwritten, htail]
    exact hkind.symm
  · rw [hl]
    refine not_visualforce_findsSameIn parse d root hpath.bundlePart_eq hother.bundlePart_eq ?_ ?_
    · exact ne_of_written_notMem hwritten (by decide)
    · rw [htail, hpage]

/-- Does an ending in capitals leave the findings alone?  The first symbols, and the references, are
those found under the path as it is written, the second symbols those under its ending in lower
case. -/
structure ToleratesCapitals (ending : String) (written lowered : List Symbol)
    (references : List Reference) : Prop where
  /-- Nothing is found, neither in a file of values nor in one of blocks. -/
  values : ending ∈ valueEndings → written = [] ∧ references = [] ∧ lowered = []
  /-- The header exports nothing but namespaces. -/
  headers : ending ∈ headerEndings → ∀ y ∈ lowered, y.isExported = true → y.kind = .module
  parts : ending ∉ partEndings

/-- An extractor finds the same under a path and under its ending in lower case exactly if these are
equal, or if the ending and what is found tolerate capitals. -/
theorem findsSameIn_withLowerEnding_iff {p : String × String} (hp : p ∈ Language.endings)
    (h : extension? path = some p.1) :
    (ofLanguage p.2).FindsSameIn path (withLowerEnding path) parse d root ↔
      withLowerEnding path = path ∨
        ToleratesCapitals p.1 ((ofLanguage p.2).symbols parse (d.withPath path) root)
          ((ofLanguage p.2).symbols parse (d.withPath (withLowerEnding path)) root)
          ((ofLanguage p.2).references parse (d.withPath path) root) := by
  by_cases hsame : withLowerEnding path = path
  · rw [hsame]
    exact iff_of_true ⟨rfl, rfl⟩ (Or.inl rfl)
  rw [or_iff_right hsame]
  have hvalueOnly : ∀ e ∈ valueEndings, e ∉ headerEndings ∧ e ∉ partEndings := by decide
  have hheaderOnly : ∀ e ∈ headerEndings, e ∉ valueEndings ∧ e ∉ partEndings := by decide
  obtain ⟨folder, stem, ending, hparts, heq⟩ := Parts.exists_of_extension? h
  have hlower := hparts.lower
  -- Compared endings are in lower case, and so the ending as it is written is none of them.
  have hcapitals : String.ofList ('.' :: ending) ∉ comparedEndings := fun hmem =>
    hsame (hparts.withLowerEnding_eq_iff.2 (map_toLower_of_mem_compared hmem))
  simp only [comparedEndings, List.mem_append, not_or] at hcapitals
  obtain ⟨⟨hnoValues, hnoHeader⟩, hnoPart⟩ := hcapitals
  by_cases hvalue : p.1 ∈ valueEndings
  · have hlanguage : ∀ p ∈ Language.endings, p.1 ∈ valueEndings → p.2 = "hcl" := by decide
    have hiff := hcl_findsSameIn_iff parse d root
      (Bool.eq_false_iff.2 (mt hparts.isValues_iff.1 hnoValues))
      (hlower.isValues_iff.2 (heq ▸ hvalue))
    rw [hlanguage p hp hvalue]
    exact hiff.trans ⟨fun hnone => ⟨fun _ => hnone, fun hheader =>
      absurd hheader (hvalueOnly _ hvalue).1, (hvalueOnly _ hvalue).2⟩, fun ht => ht.values hvalue⟩
  by_cases hheader : p.1 ∈ headerEndings
  · have hlanguage : ∀ p ∈ Language.endings, p.1 ∈ headerEndings → p.2 = "c" ∨ p.2 = "cpp" := by
      decide
    have hmem : ofLanguage p.2 ∈ [c, cpp] := by
      rcases hlanguage p hp hheader with hl | hl
      · rw [hl]
        exact List.mem_cons_self
      · rw [hl]
        exact List.mem_cons_of_mem _ List.mem_cons_self
    have hiff := findsSameIn_iff_of_header parse d root hmem
      (Bool.eq_false_iff.2 (mt hparts.isHeader_iff.1 hnoHeader)) (withLowerEnding path)
    exact hiff.trans ⟨fun hnone => ⟨fun hvalue' => absurd hvalue' hvalue, fun _ => hnone,
      (hheaderOnly _ hheader).2⟩, fun ht => ht.headers hheader⟩
  by_cases hpart : p.1 ∈ partEndings
  · exact iff_of_false (not_findsSameIn_of_part parse d root hp hpart hparts hlower hnoPart heq)
      fun ht => ht.parts hpart
  · have hcompared : p.1 ∉ comparedEndings := by
      simp only [comparedEndings, List.mem_append, not_or]
      exact ⟨⟨hvalue, hheader⟩, hpart⟩
    exact iff_of_true (findsSame_withLowerEnding hp h hcompared parse d root)
      ⟨fun hmem => absurd hmem hvalue, fun hmem => absurd hmem hheader, hpart⟩

end Extractor

/-! ## Extraction -/

namespace Extraction

open Extractor

variable {limits : Limits} {parse : Parser} {bytes : List UInt8}

theorem file_eq {language : String} {root : Option Place}
    (hlanguage : Language.ofPath? path = some language)
    (hroot : root? parse language path bytes = .ok root) :
    file limits parse path bytes = .ok
      { path
        language
        symbols := (ofLanguage language).symbols parse ⟨path, bytes, limits⟩ root
        references := (ofLanguage language).references parse ⟨path, bytes, limits⟩ root
        contentHash := Digest.hexDigest bytes } := by
  rw [file, hlanguage]
  show (root? parse language path bytes >>= _) = _
  rw [hroot]
  rfl

/-- If the parser gives the tree that may be needed, every path with the ending of a language is
extracted, under its ending in lower case with the same language.  The symbols and references are
the same exactly if the path is in lower case there already, or if its ending and what is found
tolerate capitals. -/
theorem file_withLowerEnding (limits : Limits) (parse : Parser) (bytes : List UInt8)
    {lowered : String} (h : extension? path = some lowered)
    (hending : lowered ∈ Language.endings.map Prod.fst)
    (htree : ∀ language, Language.ofPath? path = some language →
      Language.HasTree language parse bytes) :
    ∃ f g, file limits parse path bytes = .ok f ∧
      file limits parse (withLowerEnding path) bytes = .ok g ∧ f.language = g.language ∧
      (f.symbols = g.symbols ∧ f.references = g.references ↔
        withLowerEnding path = path ∨
          ToleratesCapitals lowered f.symbols g.symbols f.references) := by
  obtain ⟨p, hp, rfl⟩ := List.mem_map.1 hending
  have hlanguage := Language.ofPath?_of_extension? hp h
  obtain ⟨root, hroot⟩ := Language.exists_root? hp (htree p.2 hlanguage)
  have hlower : extension? (withLowerEnding path) = some p.1 := by
    rw [extension?_withLowerEnding, h]
  refine ⟨_, _, file_eq hlanguage (hroot path),
    file_eq (Language.ofPath?_of_extension? hp hlower) (hroot _), rfl, ?_⟩
  exact findsSameIn_withLowerEnding_iff parse ⟨path, bytes, limits⟩ root hp h

/-- No tree is needed of what is read line by line. -/
theorem hasTree_hcl {language : String} (hpath : some "hcl" = some language) :
    Language.HasTree language parse bytes := by
  cases hpath
  have hnone : (Language.grammarOf "hcl").isOk = false := by decide +kernel
  intro grammar hgrammar
  rw [hgrammar] at hnone
  cases hnone

/-- A block, which stands in files of both kinds of endings. -/
def oneVariable : List UInt8 :=
  Utf8.encode "variable \"region\" \x7b\n\x7d\n".toList

theorem blocksInCapitals_agree :
    extension? "main.TF" = some ".tf" ∧ ".tf" ∈ Language.endings.map Prod.fst ∧
      (∀ language, Language.ofPath? "main.TF" = some language →
        Language.HasTree language (fun _ _ => none) oneVariable) ∧
      ∃ f g, file {} (fun _ _ => none) "main.TF" oneVariable = .ok f ∧
        file {} (fun _ _ => none) "main.tf" oneVariable = .ok g ∧
        f.symbols.map Symbol.name = ["region"] ∧ f.symbols = g.symbols ∧
        f.references = g.references := by
  have hwritten : extension? "main.TF" = some ".tf" := by decide +kernel
  have hending : ".tf" ∈ Language.endings.map Prod.fst := by decide
  have hlanguage : Language.ofPath? "main.TF" = some "hcl" := by decide +kernel
  have htree : ∀ language, Language.ofPath? "main.TF" = some language →
      Language.HasTree language (fun _ _ => none) oneVariable :=
    fun _ hpath => hasTree_hcl (hlanguage.symm.trans hpath)
  have hpath : withLowerEnding "main.TF" = "main.tf" := by decide +kernel
  have hnames : (file {} (fun _ _ => none) "main.TF" oneVariable).toOption.map
      (fun f => f.symbols.map Symbol.name) = some ["region"] := by
    decide +kernel
  obtain ⟨f, g, hf, hg, -, hiff⟩ :=
    file_withLowerEnding {} (fun _ _ => none) oneVariable hwritten hending htree
  rw [hf] at hnames
  rw [hpath] at hg
  have htolerates : ToleratesCapitals ".tf" f.symbols g.symbols f.references :=
    ⟨fun hvalue => absurd hvalue (by decide), fun hheader => absurd hheader (by decide), by decide⟩
  obtain ⟨hsymbols, hreferences⟩ := hiff.2 (Or.inr htolerates)
  exact ⟨hwritten, hending, htree, f, g, hf, hg, Option.some.inj hnames, hsymbols, hreferences⟩

/-- A value, which stands in files of values only. -/
def oneValue : List UInt8 :=
  Utf8.encode "region = \"x\"\n".toList

theorem valuesInCapitals_differ :
    ¬ ∀ (limits : Limits) (parse : Parser) (path : String) (bytes : List UInt8) (written : String),
      extension? path = some written → written ∈ Language.endings.map Prod.fst →
        (∀ language, Language.ofPath? path = some language →
          Language.HasTree language parse bytes) →
        ∃ f g, file limits parse path bytes = .ok f ∧
          file limits parse (withLowerEnding path) bytes = .ok g ∧ f.language = g.language ∧
          f.symbols = g.symbols ∧ f.references = g.references := by
  intro h
  have hlanguage : Language.ofPath? "prod.TFVARS" = some "hcl" := by decide +kernel
  obtain ⟨f, g, hf, hg, -, hsymbols, -⟩ :=
    h {} (fun _ _ => none) "prod.TFVARS" oneValue ".tfvars" (by decide +kernel) (by decide)
      fun _ hpath => hasTree_hcl (hlanguage.symm.trans hpath)
  have hnone : (file {} (fun _ _ => none) "prod.TFVARS" oneValue).toOption.map
      (fun f => f.symbols.length) = some 0 := by
    decide +kernel
  have hone : (file {} (fun _ _ => none) (withLowerEnding "prod.TFVARS") oneValue).toOption.map
      (fun g => g.symbols.length) = some 1 := by
    decide +kernel
  rw [hf] at hnone
  rw [hg] at hone
  have hlengths : some g.symbols.length = some 0 := by
    rw [← hsymbols]
    exact hnone
  exact absurd (hone.symm.trans hlengths) (by decide)

end Extraction

end SourceIndex
