import SourceIndex.Backends
import SourceIndex.Proofs.Hierarchy.C
import SourceIndex.Proofs.Hierarchy.ECMAScript
import SourceIndex.Proofs.Hierarchy.FoxPro
import SourceIndex.Proofs.Hierarchy.Java
import SourceIndex.Proofs.Hierarchy.Owner
import SourceIndex.Proofs.Hierarchy.Scripts
import SourceIndex.Proofs.Lines.Markup
import SourceIndex.Proofs.Scopes.Profiled

/-!
# Owners in all languages

The symbols of a file form a hierarchy wherever the place of a declaration tells its owner: in the
languages that are read as markup or by a profile, and in all of those before.
-/

namespace SourceIndex

/-! ## Owners of markup

The file itself is a symbol of all of its lines, and owns whatever its elements declare. -/

namespace Declarations

variable {d : Document}

/-- Symbols that all belong to the file form a hierarchy with it. -/
theorem isHierarchy_of_file (hd : d.IsNumbered) {name : String} {kind : SymbolKind}
    {details : Symbol.Details} {members : List Symbol} (hfile : details.parentName = none)
    (hmembers : ∀ y ∈ members, y.StandsIn d.lineTotal ∧
      y.parentName = some (d.fileSymbol name kind details).qualifiedName) :
    IsHierarchy (d.fileSymbol name kind details :: members) := by
  refine List.forall_mem_cons.2 ⟨Symbol.hasOwner_of_none hfile, fun y hy => ?_⟩
  obtain ⟨hstands, hparent⟩ := hmembers y hy
  intro owner howner
  rw [hparent, Option.mem_some] at howner
  exact ⟨_, List.mem_cons_self, howner, Document.fileSymbol_covers hd hstands⟩

namespace Aura

theorem parentName_of_member? {owner : String} {tag : Place} {y : Symbol}
    (h : member? d owner tag = some y) : y.parentName = some owner := by
  obtain ⟨tagName, -, h⟩ := Option.bind_eq_some_iff.1 h
  obtain ⟨kind, -, h⟩ := Option.bind_eq_some_iff.1 h
  obtain ⟨name, -, h⟩ := Option.bind_eq_some_iff.1 h
  cases h
  rfl

theorem parentName_of_member {owner : String} {root : Option Place} :
    ∀ y ∈ (root.map (Idiom.Markup.walk d fun p => (ownTag? p).bind (member? d owner))).getD [],
      y.parentName = some owner := by
  refine forall_mem_getD_map fun r => ?_
  refine Idiom.Markup.forall_mem_walk (P := fun y : Symbol => y.parentName = some owner)
    (fun p y hy => ?_) r
  obtain ⟨tag, -, hy⟩ := Option.bind_eq_some_iff.1 hy
  exact parentName_of_member? hy

/-- The members of a component belong to it, whatever the tree. -/
theorem isHierarchy_symbols (hd : d.IsNumbered) (root : Option Place) :
    IsHierarchy (symbols d root) := by
  have hstand := symbols_stand hd root
  unfold symbols at hstand ⊢
  generalize d.nameAndEnding = parts at hstand ⊢
  obtain ⟨name, ending⟩ := parts
  refine isHierarchy_of_file hd rfl fun y hy => ⟨hstand y (List.mem_cons_of_mem _ hy), ?_⟩
  have hmember := subset_firstOfEachFrom hy
  exact parentName_of_member y hmember

end Aura

namespace Metadata

open Idiom.Metadata

theorem parentName_of_part? {s : Subject} {qualified : String} {p : Place} {y : Symbol}
    (h : part? d s qualified p = some y) : y.parentName = some qualified := by
  obtain ⟨tag, -, h⟩ := Option.bind_eq_some_iff.1 h
  obtain ⟨name, -, h⟩ := Option.bind_eq_some_iff.1 h
  cases h
  rfl

theorem parentName_of_part {s : Subject} {qualified : String} {root : Option Place} :
    ∀ y ∈ (root.map (Idiom.Markup.walk d (part? d s qualified))).getD [],
      y.parentName = some qualified := by
  refine forall_mem_getD_map fun r => ?_
  exact Idiom.Markup.forall_mem_walk (P := fun y : Symbol => y.parentName = some qualified)
    (fun p y hy => parentName_of_part? hy) r

/-- The parts of a component belong to it, whatever the tree. -/
theorem isHierarchy_symbols (hd : d.IsNumbered) (root : Option Place) :
    IsHierarchy (symbols d root) := by
  have hstand := symbols_stand hd root
  unfold symbols at hstand ⊢
  generalize subject d = s at hstand ⊢
  dsimp only at hstand ⊢
  split
  · exact List.forall_mem_nil _
  · rename_i hsource
    rw [if_neg hsource] at hstand
    refine isHierarchy_of_file hd rfl fun y hy => ?_
    exact ⟨hstand y (List.mem_cons_of_mem _ hy), parentName_of_part y hy⟩

end Metadata

end Declarations

/-! ## Owners of languages that are read by a profile

A container owns its properties and the declarations in its body. -/

section

open Declarations.Profiled

variable {d : Document} {all : List Symbol} {s : Scope} {language owner : String} {p q c : Place}
  {y : Symbol}

theorem Rules.IsPropertyAt.hasOwner (h : Rules.IsPropertyAt d owner q y)
    (hq : Under d all (some owner) q) : y.HasOwner all := by
  obtain ⟨name, signature, visibility, initial, rfl⟩ := h
  exact hq.hasOwner_symbol rfl

namespace Declarations.Profiled

theorem nests_declarationSteps (h : Under d all s.name p) (kind : SymbolKind) (name : String) :
    Nests d all Scope.name (declarationSteps (.ofLanguage language) d s kind name p) := by
  refine Step.keeps_emit_cons fun hz => ⟨h.hasOwner_symbol rfl, ?_⟩
  have hinside : ∀ q ∈ p.subtree, Under d all (some (Text.qualify s.name name ".")) q :=
    fun q hq => h.enter hz Document.span_symbol hq
  split
  · refine Step.keeps_append (Step.keeps_emitAll fun _ y hy => ?_) ?_
    · obtain ⟨q, hq, hproperty⟩ := Profile.exists_of_mem_properties hy
      exact hproperty.hasOwner (hinside q hq)
    · exact Step.keeps_visit_cons (hinside _ Rules.mem_subtree_of_body?_getD) Step.keeps_nil
  · exact Step.keeps_nil

/-- The symbols of a file that name their owners have these owners among them, whatever the
language. -/
theorem isHierarchy_symbols (hd : d.IsNumbered) {root : Place} (hroot : root.IsWellFormed) :
    IsHierarchy (symbols (.ofLanguage language) d root) := by
  refine Rule.isHierarchy_walk rule_descends Scope.name hd hroot rfl fun all s p h => ?_
  refine Step.keeps_ite_nil (Step.keeps_flatMap fun c hc => ?_)
  have hchild := h.child hc
  unfold childSteps
  split
  · exact nests_declarationSteps hchild _ _
  · exact Step.keeps_visit_cons hchild Step.keeps_nil

end Declarations.Profiled

end

/-! ## Owners in all languages

The symbols of a file form a hierarchy in the languages in which the owner of a declaration is told
by the place where it stands.  Other languages are left out: a method of Go, for one, names the type
that it is declared for, wherever this type is. -/

section

/-- The lines of a program of FoxPro are no more than those of the source. -/
theorem Idiom.FoxPro.lineTotal_le (d : Document) : lineTotal d.bytes ≤ d.lineTotal :=
  Nat.succ_le_succ (Text.count_decodeUnknown_le d.bytes)

namespace Extractor

/-- The extractors made for one language of which the symbols form a hierarchy, that of FoxPro for
programs. -/
def hierarchical : List Extractor :=
  [python, javascript, typescript, tsx, java, apex, php, ruby, c, objc, aura, metadata, foxpro]

variable {d : Document} {parse : Parser} {root : Option Place} {language : String}

/-- What is found from a root forms a hierarchy, and so does nothing at all. -/
theorem isHierarchy_ofTree {endings : List String} {symbols : Document → Place → List Symbol}
    {references : Document → Place → List Reference} {docstring : Document → Place → Option String}
    (hroot : ∀ r ∈ root, r.IsWellFormed)
    (h : ∀ {r : Place}, r.IsWellFormed → IsHierarchy (symbols d r)) :
    IsHierarchy ((ofTree language endings symbols references docstring).symbols parse d root) := by
  cases root with
  | none => exact List.forall_mem_nil _
  | some r => exact h (hroot r rfl)

/-- The tree that Apex walks is that of the masked source, or else the one that is given. -/
theorem isWellFormed_apexRoot
    (hparse : ∀ grammar bytes tree, parse grammar bytes = some tree →
      (Place.root tree).IsWellFormed)
    (hroot : ∀ r ∈ root, r.IsWellFormed) :
    ∀ r ∈ Idiom.Apex.root? parse d root, r.IsWellFormed := by
  intro r hr
  obtain ⟨given, hgiven, rfl⟩ := Option.map_eq_some_iff.1 hr
  split
  · rename_i tree htree
    obtain ⟨bytes, -, htree⟩ := Option.bind_eq_some_iff.1 htree
    exact hparse _ _ tree htree
  · exact hroot given hgiven

theorem isHierarchy_of_mem_hierarchical (hd : d.IsNumbered)
    (hparse : ∀ grammar bytes tree, parse grammar bytes = some tree →
      (Place.root tree).IsWellFormed)
    (hroot : ∀ r ∈ root, r.IsWellFormed) :
    ∀ e ∈ hierarchical, (e = foxpro → Idiom.FoxPro.isForm d.path = false) →
      IsHierarchy (e.symbols parse d root) := by
  have hdecoded := Nat.lt_of_le_of_lt (Idiom.FoxPro.lineTotal_le d) hd
  have htypescript : ∀ {language endings},
      IsHierarchy ((typescriptAs language endings).symbols parse d root) :=
    isHierarchy_ofTree hroot (Declarations.ECMAScript.isHierarchy_symbols hd
      Declarations.ECMAScript.typescript_isPlain Declarations.TypeScript.typescript_nests)
  simp only [hierarchical, List.forall_mem_cons]
  refine ⟨fun _ => ?python, fun _ => ?javascript, fun _ => htypescript, fun _ => htypescript,
    fun _ => ?java, fun _ => ?apex, fun _ => ?php, fun _ => ?ruby, fun _ => ?c, fun _ => ?objc,
    fun _ => ?aura, fun _ => ?metadata, fun hform => ?foxpro, nofun⟩
  case python => exact isHierarchy_ofTree hroot (Declarations.Python.isHierarchy_symbols hd)
  case javascript =>
    exact isHierarchy_ofTree hroot (Declarations.ECMAScript.isHierarchy_symbols hd
      Declarations.ECMAScript.javascript_isPlain Declarations.ECMAScript.javascript_nests)
  case java =>
    exact isHierarchy_ofTree hroot (Declarations.Java.isHierarchy_symbols hd
      Idiom.Java.dialect_keepsLines Idiom.Java.dialect_keepsNames)
  case apex => exact Declarations.Apex.isHierarchy_symbols hd (isWellFormed_apexRoot hparse hroot)
  case php => exact isHierarchy_ofTree hroot (Declarations.PHP.isHierarchy_symbols hd)
  case ruby => exact isHierarchy_ofTree hroot (Declarations.Ruby.isHierarchy_symbols hd)
  case c =>
    exact isHierarchy_ofTree hroot
      (Declarations.C.isHierarchy_symbols hd rfl Declarations.C.c_nests)
  case objc =>
    exact isHierarchy_ofTree hroot
      (Declarations.C.isHierarchy_symbols hd rfl Declarations.ObjC.dialect_nests)
  case aura => exact Declarations.Aura.isHierarchy_symbols hd root
  case metadata =>
    simp only [metadata]
    exact Declarations.Metadata.isHierarchy_symbols hd root
  case foxpro =>
    simp only [foxpro, hform trivial, Bool.false_eq_true, if_false]
    exact Declarations.FoxPro.isHierarchy_symbols hdecoded

theorem isHierarchy_profiled (hd : d.IsNumbered) (hroot : ∀ r ∈ root, r.IsWellFormed) :
    IsHierarchy ((profiled language).symbols parse d root) :=
  isHierarchy_ofTree hroot (Declarations.Profiled.isHierarchy_symbols hd)

/-- Whatever the source, as long as its tree is well-formed, each symbol that names an owner has a
symbol of this qualified name among those of the file, and the lines of the owner contain its
own.  So it is in the languages listed above and in any language that is read by its profile; of
FoxPro it holds for programs. -/
theorem symbols_haveOwners (e : Extractor)
    (he : e ∈ hierarchical ∨ ∃ language, e = profiled language) (parse : Parser) (d : Document)
    (root : Option Place) (hprogram : e = foxpro → Idiom.FoxPro.isForm d.path = false)
    (hd : d.IsNumbered)
    (hparse : ∀ grammar bytes tree, parse grammar bytes = some tree →
      (Place.root tree).IsWellFormed)
    (hroot : ∀ r ∈ root, r.IsWellFormed) :
    ∀ y ∈ e.symbols parse d root, ∀ owner, y.parentName = some owner →
      ∃ z ∈ e.symbols parse d root, z.qualifiedName = owner ∧
        z.lineStart ≤ y.lineStart ∧ y.lineEnd ≤ z.lineEnd := by
  have hhierarchy : IsHierarchy (e.symbols parse d root) := by
    rcases he with he | ⟨language, rfl⟩
    · exact isHierarchy_of_mem_hierarchical hd hparse hroot e he hprogram
    · exact isHierarchy_profiled hd hroot
  intro y hy owner howner
  obtain ⟨z, hz, hname, hfirst, hlast⟩ := hhierarchy y hy owner howner
  exact ⟨z, hz, hname, UInt32.le_iff_toNat_le.2 hfirst, UInt32.le_iff_toNat_le.2 hlast⟩

/-- A record without a tag, which a typedef names. -/
def namedRecord : Document where
  path := "a.c"
  bytes := Text.Utf8.encode "typedef struct \x7b\n  int x;\n\x7d P;\n".toList
  limits := {}

/-- The tree of `namedRecord`. -/
def namedRecordTree : Node :=
  .mk "translation_unit" true [] 0 31
    [.mk "type_definition" true [] 0 30
      [.token "typedef" 0 7,
        .mk "struct_specifier" true ["type"] 8 27
          [.token "struct" 8 14,
            .mk "field_declaration_list" true ["body"] 15 27
              [.token "\x7b" 15 16,
                .mk "field_declaration" true [] 19 25
                  [.leaf "primitive_type" ["type"] 19 22,
                    .leaf "field_identifier" ["declarator"] 23 24, .token ";" 24 25],
                .token "\x7d" 26 27]],
        .leaf "type_identifier" ["declarator"] 28 29, .token ";" 29 30]]

/-- The field belongs to the name of the typedef, whose lines are around it. -/
theorem namedRecord_haveOwners :
    let symbols := c.symbols (fun _ _ => none) namedRecord (some (.root namedRecordTree))
    (symbols.map fun y => (y.qualifiedName, y.parentName, y.lineStart, y.lineEnd)) =
        [("P", none, 1, 3), ("P::x", some "P", 2, 2)] ∧
      ∀ y ∈ symbols, ∀ owner, y.parentName = some owner →
        ∃ z ∈ symbols, z.qualifiedName = owner ∧ z.lineStart ≤ y.lineStart ∧
          y.lineEnd ≤ z.lineEnd := by
  have hc : c ∈ hierarchical := by simp [hierarchical]
  have hd : namedRecord.lineTotal < 2 ^ 32 := by decide +kernel
  have htree : (Place.root namedRecordTree).IsWellFormed := by decide +kernel
  refine ⟨by decide +kernel, ?_⟩
  refine symbols_haveOwners c (Or.inl hc) (fun _ _ => none) namedRecord _
    (fun _ => by decide +kernel) hd nofun ?_
  intro r hr
  cases hr
  exact htree

end Extractor

end

end SourceIndex
