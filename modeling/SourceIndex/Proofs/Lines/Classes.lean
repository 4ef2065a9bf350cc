import SourceIndex.Declarations.CSharp
import SourceIndex.Declarations.Java
import SourceIndex.Proofs.Lines.Standing
import SourceIndex.Proofs.Tree.Emission
import SourceIndex.Proofs.Tree.Extent
import SourceIndex.Uses.Apex
import SourceIndex.Uses.CSharp

/-!
# Lines of Java, Apex and C#

Symbols and references stand on the lines of their places.  What Apex reads off the text stands on
the lines of the matches, and a primary constructor of C#, which has no place of its own, on the
first line of its type.
-/

namespace SourceIndex

open Document (standsIn_symbol standsIn_reference standsIn_reference_from standsIn_of_lines)
open SourceIndex.Symbol (forall_standsIn liesIn_symbol)

variable {d : Document}

/-! ## Java and Apex -/

/-- Does the change of a dialect leave the lines of a symbol as they are? -/
def Idiom.Java.Dialect.KeepsLines (dialect : Idiom.Java.Dialect) : Prop :=
  ∀ d p y, (dialect.adjust d p y).lineStart = y.lineStart ∧
    (dialect.adjust d p y).lineEnd = y.lineEnd

theorem Idiom.Java.dialect_keepsLines : Idiom.Java.dialect.KeepsLines :=
  fun _ _ _ => ⟨rfl, rfl⟩

theorem Idiom.Apex.dialect_keepsLines : Idiom.Apex.dialect.KeepsLines := by
  intro d p y
  simp only [dialect, adjust]
  repeat' split
  all_goals exact ⟨rfl, rfl⟩

namespace Declarations.Java

open Idiom.Java

variable {dialect : Dialect} {owner : Option String} {p : Place}

theorem emits_typeSteps (hd : d.IsNumbered) (hdialect : dialect.KeepsLines) (s : Scope)
    (kind : SymbolKind) (p : Place) :
    Step.Emits (Symbol.StandsIn d.lineTotal) (typeSteps dialect d s kind p) := by
  simp only [typeSteps]
  split
  · exact Step.emits_nil
  · refine Step.emits_emit_cons.2 ⟨?_, Step.emits_visit? _ _⟩
    obtain ⟨hfirst, hlast⟩ := hdialect d p _
    exact Document.standsIn_of_lines hd p hfirst hlast

theorem emits_enumSteps (hd : d.IsNumbered) (s : Scope) (p : Place) :
    Step.Emits (Symbol.StandsIn d.lineTotal) (enumSteps dialect d s p) := by
  simp only [enumSteps]
  split
  · exact Step.emits_nil
  · refine Step.emits_emit_cons.2 ⟨standsIn_symbol hd, Step.emits_flatMap.2 fun c _ => ?_⟩
    split
    · refine Step.emits_emit?.2 fun y hy => ?_
      obtain ⟨constant, -, rfl⟩ := Option.map_eq_some_iff.1 hy
      exact standsIn_symbol hd
    · simp
    · exact Step.emits_nil

theorem method?_liesIn : ∀ y ∈ method? dialect d owner p, y.LiesIn d owner p := by
  intro y hy
  obtain ⟨name, -, hy⟩ := Option.bind_eq_some_iff.1 hy
  cases hy
  exact liesIn_symbol rfl

theorem constructor?_liesIn : ∀ y ∈ constructor? dialect d owner p, y.LiesIn d owner p := by
  intro y hy
  obtain ⟨name, -, hy⟩ := Option.bind_eq_some_iff.1 hy
  cases hy
  exact liesIn_symbol rfl

theorem fields_lieIn : ∀ y ∈ fields dialect d owner p, y.LiesIn d owner p := by
  intro y hy
  obtain ⟨v, -, hy⟩ := List.mem_filterMap.1 hy
  obtain ⟨name, -, hy⟩ := Option.bind_eq_some_iff.1 hy
  cases hy
  exact liesIn_symbol rfl

theorem package?_liesIn : ∀ y ∈ package? d p, y.LiesIn d none p := by
  intro y hy
  obtain ⟨path, -, rfl⟩ := Option.map_eq_some_iff.1 hy
  exact liesIn_symbol rfl

theorem emits_childSteps (hd : d.IsNumbered) (hdialect : dialect.KeepsLines) (s : Scope)
    (c : Place) : Step.Emits (Symbol.StandsIn d.lineTotal) (childSteps dialect d s c) := by
  unfold childSteps
  split
  · exact emits_typeSteps hd hdialect s _ c
  · exact emits_typeSteps hd hdialect s _ c
  · exact emits_typeSteps hd hdialect s _ c
  · exact emits_typeSteps hd hdialect s _ c
  · exact emits_enumSteps hd s c
  · exact Step.emits_emit?.2 (forall_standsIn hd method?_liesIn)
  · exact Step.emits_emit?.2 (forall_standsIn hd constructor?_liesIn)
  · exact Step.emits_emitAll.2 (forall_standsIn hd fields_lieIn)
  · exact Step.emits_emitAll.2 (forall_standsIn hd fields_lieIn)
  · exact Step.emits_emit?.2 (forall_standsIn hd package?_liesIn)
  · exact Step.emits_nil

theorem symbols_stand (hd : d.IsNumbered) (hdialect : dialect.KeepsLines) (root : Place) :
    ∀ y ∈ symbols dialect d root, y.StandsIn d.lineTotal := by
  refine Rule.forall_mem_walk_of_emits (fun s p => ?_) _ root
  unfold rule
  refine Step.emits_ite_nil.2 fun _ => ?_
  exact Step.emits_flatMap.2 fun c _ => emits_childSteps hd hdialect s c

end Declarations.Java

namespace Declarations.Apex

theorem trigger?_standsIn (hd : d.IsNumbered) :
    ∀ y ∈ trigger? d.fullText, y.StandsIn d.lineTotal := by
  intro y hy
  obtain ⟨m, -, hy⟩ := Option.bind_eq_some_iff.1 hy
  obtain ⟨name, -, hy⟩ := Option.bind_eq_some_iff.1 hy
  obtain ⟨object, -, hy⟩ := Option.bind_eq_some_iff.1 hy
  cases hy
  have hline := (Document.lineOf_bounds hd m.start).2
  exact Symbol.standsIn_ofDetails d.one_le_lineTotal hline hline

theorem symbols_stand (hd : d.IsNumbered) (parse : Parser) (root : Option Place) :
    ∀ y ∈ symbols parse d root, y.StandsIn d.lineTotal := by
  have htrigger : ∀ y ∈ if Idiom.Apex.isTrigger d.path then (trigger? d.fullText).toList else [],
      y.StandsIn d.lineTotal := by
    intro y hy
    split at hy
    · exact trigger?_standsIn hd y (Option.mem_toList.1 hy)
    · cases hy
  simp only [symbols]
  split
  · refine List.forall_mem_append.2 ⟨htrigger, ?_⟩
    exact Java.symbols_stand hd Idiom.Apex.dialect_keepsLines _
  · exact htrigger

end Declarations.Apex

namespace Uses.Java

theorem import?_standsIn (hd : d.IsNumbered) {scope : Option String} {p : Place} :
    ∀ r ∈ import? d scope p, r.StandsIn d.lineTotal := by
  intro r hr
  obtain ⟨q, -, rfl⟩ := Option.map_eq_some_iff.1 hr
  dsimp only
  split <;> exact standsIn_reference_from hd

theorem emits_invocationSteps (hd : d.IsNumbered) (s : Scope) (p : Place) :
    Step.Emits (Reference.StandsIn d.lineTotal) (invocationSteps d s p) := by
  simp only [invocationSteps]
  split
  · exact Step.emits_nil
  · refine Step.emits_emit_cons.2 ⟨standsIn_reference hd, Step.emits_append.2 ⟨?_, by simp⟩⟩
    split
    · split <;> simp
    · exact Step.emits_nil

theorem emits_creationSteps (hd : d.IsNumbered) (s : Scope) (p : Place) :
    Step.Emits (Reference.StandsIn d.lineTotal) (creationSteps d s p) := by
  refine Step.emits_append.2 ⟨Step.emits_append.2 ⟨?_, by simp⟩, by simp⟩
  refine Step.emits_emit?.2 fun r hr => ?_
  obtain ⟨t, -, rfl⟩ := Option.map_eq_some_iff.1 hr
  exact standsIn_reference hd

theorem heritage_stands (hd : d.IsNumbered) {owner : String} {p : Place} :
    ∀ r ∈ heritage d owner p, r.StandsIn d.lineTotal := by
  have htypes : ∀ (kind : ReferenceKind) (types : List Place), ∀ r ∈ types.map fun t =>
      d.reference kind (Idiom.Java.baseTypeName d t) p (some owner), r.StandsIn d.lineTotal := by
    intro kind types r hr
    obtain ⟨t, -, rfl⟩ := List.mem_map.1 hr
    exact standsIn_reference hd
  exact List.forall_mem_append.2
    ⟨List.forall_mem_append.2 ⟨htypes _ _, htypes _ _⟩, htypes _ _⟩

theorem emits_childSteps (hd : d.IsNumbered) (s : Scope) (c : Place) :
    Step.Emits (Reference.StandsIn d.lineTotal) (childSteps d s c) := by
  unfold childSteps
  split
  · exact Step.emits_emit?.2 (import?_standsIn hd)
  · exact emits_invocationSteps hd s c
  · exact emits_creationSteps hd s c
  · simp
  · simp
  · split
    · refine Step.emits_append.2 ⟨Step.emits_emitAll.2 ?_, by simp⟩
      exact forall_mem_getD_map fun _ => heritage_stands hd
    · simp

theorem references_stand (hd : d.IsNumbered) (root : Place) :
    ∀ r ∈ references d root, r.StandsIn d.lineTotal := by
  refine Rule.forall_mem_walk_of_emits (fun task p => ?_) _ root
  cases task with
  | inside s =>
      rw [rule]
      exact Step.emits_ite_nil.2 fun _ => Step.emits_flatMap.2 fun c _ => emits_childSteps hd s c
  | invocation s => exact emits_invocationSteps hd s p

end Uses.Java

namespace Uses.Apex

/-- A use that the text shows stands on the line of a match. -/
theorem exists_offset_of_mem_found {pattern : Text.Pattern Char} {text : List Char}
    {f : UInt32 × String} (h : f ∈ found pattern text) :
    ∃ offset, f.1 = Text.lineOf text offset := by
  obtain ⟨m, -, h⟩ := List.mem_filterMap.1 h
  obtain ⟨name, -, rfl⟩ := Option.map_eq_some_iff.1 h
  exact ⟨m.start, rfl⟩

theorem textReferences_stand (hd : d.IsNumbered) :
    ∀ r ∈ textReferences d.fullText, r.StandsIn d.lineTotal := by
  have hfound : ∀ {pattern : Text.Pattern Char}, ∀ f ∈ found pattern d.fullText,
      ∀ kind target, (reference kind f.1 target).StandsIn d.lineTotal := by
    intro pattern f hf kind target
    obtain ⟨offset, hline⟩ := exists_offset_of_mem_found hf
    rw [hline]
    exact Document.lineOf_bounds hd offset
  intro r hr
  rcases List.mem_append.1 hr with hr | hr
  · rcases List.mem_append.1 hr with hr | hr
    · obtain ⟨f, hf, rfl⟩ := List.mem_map.1 hr
      exact hfound f hf _ _
    · obtain ⟨f, hf, rfl⟩ := List.mem_map.1 hr
      exact hfound f hf _ _
  · obtain ⟨f, hf, rfl⟩ := List.mem_map.1 hr
    rcases List.mem_append.1 (List.mem_of_mem_filter hf) with hf | hf
    · exact hfound f hf _ _
    · exact hfound f hf _ _

theorem references_stand (hd : d.IsNumbered) (parse : Parser) (root : Option Place) :
    ∀ r ∈ references parse d root, r.StandsIn d.lineTotal := by
  refine List.forall_mem_append.2 ⟨?_, textReferences_stand hd⟩
  exact forall_mem_getD_map (Java.references_stand hd)

end Uses.Apex

/-! ## C# -/

namespace Declarations.CSharp

open Idiom.CSharp

theorem member_standsIn (hd : d.IsNumbered) {owner : Option String} {p : Place} {name : String}
    {kind : SymbolKind} {signature : String} {visibility : Visibility} :
    (member d owner p name kind signature visibility).StandsIn d.lineTotal :=
  standsIn_symbol hd

theorem emits_functionSteps (s : Scope) (p : Place) (name : String) :
    Step.Emits (Symbol.StandsIn d.lineTotal) (functionSteps s p name) :=
  Step.emits_visit? _ _

theorem emits_namespaceSteps (hd : d.IsNumbered) (s : Scope) (p : Place) :
    Step.Emits (Symbol.StandsIn d.lineTotal) (namespaceSteps d s p) := by
  unfold namespaceSteps
  split
  · exact Step.emits_nil
  · exact Step.emits_emit_cons.2 ⟨standsIn_symbol hd, by simp⟩

theorem primaryConstructor?_standsIn (hd : d.IsNumbered) {qualified name : String}
    {visibility : Visibility} {p : Place} :
    ∀ y ∈ primaryConstructor? d qualified name visibility p, y.StandsIn d.lineTotal := by
  intro y hy
  obtain ⟨list, -, rfl⟩ := Option.map_eq_some_iff.1 hy
  have hline := (Document.lineAt_bounds hd p.start).2
  exact Symbol.standsIn_ofDetails d.one_le_lineTotal hline hline

theorem emits_typeSteps (hd : d.IsNumbered) (s : Scope) (around : Enclosure) (kind : SymbolKind)
    (keyword : String) (p : Place) :
    Step.Emits (Symbol.StandsIn d.lineTotal) (typeSteps d s around kind keyword p) := by
  simp only [typeSteps]
  split
  · exact Step.emits_nil
  · -- Whether the type is exported does not matter for its lines.
    refine Step.emits_emit_cons.2 ⟨standsIn_of_lines hd p rfl rfl, Step.emits_append.2 ⟨?_, ?_⟩⟩
    · exact Step.emits_emit?.2 (primaryConstructor?_standsIn hd)
    · exact Step.emits_visit? _ _

theorem emits_recordSteps (hd : d.IsNumbered) (s : Scope) (around : Enclosure) (p : Place) :
    Step.Emits (Symbol.StandsIn d.lineTotal) (recordSteps d s around p) := by
  unfold recordSteps
  split <;> exact emits_typeSteps hd s around _ _ p

theorem enumSymbols_stand (hd : d.IsNumbered) {owner : Option String} {around : Enclosure}
    {p : Place} : ∀ y ∈ enumSymbols d owner around p, y.StandsIn d.lineTotal := by
  intro y hy
  simp only [enumSymbols] at hy
  split at hy
  · cases hy
  · rcases List.mem_cons.1 hy with rfl | hy
    · exact member_standsIn hd
    · obtain ⟨m, -, hy⟩ := List.mem_filterMap.1 hy
      obtain ⟨constant, -, rfl⟩ := Option.map_eq_some_iff.1 hy
      exact standsIn_symbol hd

theorem emits_methodSteps (hd : d.IsNumbered) (s : Scope) (visibility : Visibility)
    (result : Option String) (p : Place) :
    Step.Emits (Symbol.StandsIn d.lineTotal) (methodSteps d s visibility result p) := by
  unfold methodSteps
  split
  · exact Step.emits_nil
  · exact Step.emits_emit_cons.2 ⟨member_standsIn hd, emits_functionSteps s p _⟩

theorem fields_stand (hd : d.IsNumbered) {owner : Option String} {around : Enclosure} {p : Place} :
    ∀ y ∈ fields d owner around p, y.StandsIn d.lineTotal := by
  intro y hy
  obtain ⟨v, -, rfl⟩ := List.mem_map.1 hy
  exact standsIn_of_lines hd p rfl rfl

theorem eventFields_stand (hd : d.IsNumbered) {owner : Option String} {around : Enclosure}
    {p : Place} : ∀ y ∈ eventFields d owner around p, y.StandsIn d.lineTotal := by
  intro y hy
  obtain ⟨v, -, rfl⟩ := List.mem_map.1 hy
  exact member_standsIn hd

theorem destructor?_standsIn (hd : d.IsNumbered) {owner : Option String} {p : Place} :
    ∀ y ∈ destructor? d owner p, y.StandsIn d.lineTotal := by
  intro y hy
  obtain ⟨name, -, rfl⟩ := Option.map_eq_some_iff.1 hy
  exact member_standsIn hd

theorem emits_constructorSteps (hd : d.IsNumbered) (s : Scope) (around : Enclosure) (p : Place) :
    Step.Emits (Symbol.StandsIn d.lineTotal) (constructorSteps d s around p) := by
  unfold constructorSteps
  split
  · exact Step.emits_nil
  · exact Step.emits_emit_cons.2 ⟨member_standsIn hd, emits_functionSteps s p _⟩

theorem emits_childSteps (hd : d.IsNumbered) (s : Scope) (around : Enclosure) (c : Place) :
    Step.Emits (Symbol.StandsIn d.lineTotal) (childSteps d s around c) := by
  unfold childSteps
  split
  · exact emits_namespaceSteps hd s c
  · exact emits_namespaceSteps hd s c
  · exact emits_typeSteps hd s around _ _ c
  · exact emits_typeSteps hd s around _ _ c
  · exact emits_typeSteps hd s around _ _ c
  · exact emits_recordSteps hd s around c
  · exact Step.emits_emitAll.2 (enumSymbols_stand hd)
  · exact emits_methodSteps hd s _ _ c
  · exact emits_methodSteps hd s _ _ c
  · exact emits_constructorSteps hd s around c
  · exact Step.emits_emit?.2 (destructor?_standsIn hd)
  · exact Step.emits_emitAll.2 (fields_stand hd)
  · exact Step.emits_emitAll.2 (eventFields_stand hd)
  · refine Step.emits_emit?.2 fun y hy => ?_
    obtain ⟨⟨name, kind, signature⟩, -, rfl⟩ := Option.map_eq_some_iff.1 hy
    exact member_standsIn hd

theorem emits_functionSearchSteps (hd : d.IsNumbered) (s : Scope) (c : Place) :
    Step.Emits (Symbol.StandsIn d.lineTotal) (functionSearchSteps d s c) := by
  unfold functionSearchSteps
  split
  · exact emits_methodSteps hd s _ _ c
  · split <;> simp

theorem emits_rule (hd : d.IsNumbered) (task : Task) (p : Place) :
    Step.Emits (Symbol.StandsIn d.lineTotal) (rule d task p) := by
  cases task with
  | inside s around =>
      rw [rule]
      refine Step.emits_ite_nil.2 fun _ => ?_
      exact Step.emits_flatMap.2 fun c _ => emits_childSteps hd _ around c.2
  | functions s =>
      rw [rule]
      refine Step.emits_ite_nil.2 fun _ => ?_
      exact Step.emits_flatMap.2 fun c _ => emits_functionSearchSteps hd s c

theorem symbols_stand (hd : d.IsNumbered) (root : Place) :
    ∀ y ∈ symbols d root, y.StandsIn d.lineTotal :=
  Rule.forall_mem_walk_of_emits (emits_rule hd) _ root

end Declarations.CSharp

namespace Uses.CSharp

open Idiom.CSharp

theorem directive?_standsIn (hd : d.IsNumbered) {scope : Option String} {p : Place} :
    ∀ r ∈ directive? d scope p, r.StandsIn d.lineTotal := by
  intro r hr
  obtain ⟨path, -, rfl⟩ := Option.map_eq_some_iff.1 hr
  exact standsIn_reference_from hd

theorem emits_invocationSteps (hd : d.IsNumbered) (s : Scope) (p : Place) :
    Step.Emits (Reference.StandsIn d.lineTotal) (invocationSteps d s p) := by
  refine Step.emits_append.2 ⟨Step.emits_emit?.2 fun r hr => ?_, by simp⟩
  obtain ⟨target, -, rfl⟩ := Option.map_eq_some_iff.1 hr
  exact standsIn_reference hd

theorem emits_creationSteps (hd : d.IsNumbered) (s : Scope) (p : Place) :
    Step.Emits (Reference.StandsIn d.lineTotal) (creationSteps d s p) := by
  refine Step.emits_append.2 ⟨Step.emits_append.2 ⟨?_, by simp⟩, by simp⟩
  refine Step.emits_emit?.2 fun r hr => ?_
  obtain ⟨type, -, rfl⟩ := Option.map_eq_some_iff.1 hr
  exact standsIn_reference hd

theorem attributes_stand (hd : d.IsNumbered) {scope : Option String} {p : Place} :
    ∀ r ∈ attributes d scope p, r.StandsIn d.lineTotal := by
  intro r hr
  obtain ⟨a, -, hr⟩ := List.mem_filterMap.1 hr
  obtain ⟨name, -, rfl⟩ := Option.map_eq_some_iff.1 hr
  exact standsIn_reference hd

theorem nullable?_standsIn (hd : d.IsNumbered) {scope : Option String} {p : Place} :
    ∀ r ∈ nullable? d scope p, r.StandsIn d.lineTotal := by
  intro r hr
  obtain ⟨c, -, rfl⟩ := Option.map_eq_some_iff.1 hr
  exact standsIn_reference hd

theorem heritage_stands (hd : d.IsNumbered) {owner : String} {p : Place} :
    ∀ r ∈ heritage d owner p, r.StandsIn d.lineTotal := by
  intro r hr
  simp only [heritage] at hr
  split at hr
  · cases hr
  · rcases List.mem_cons.1 hr with rfl | hr
    · exact standsIn_reference hd
    · obtain ⟨name, -, rfl⟩ := List.mem_map.1 hr
      exact standsIn_reference hd

theorem emits_childSteps (hd : d.IsNumbered) (s : Scope) (c : Place) :
    Step.Emits (Reference.StandsIn d.lineTotal) (childSteps d s c) := by
  simp only [childSteps]
  split
  · simp
  · simp
  · exact Step.emits_emit?.2 (directive?_standsIn hd)
  · exact emits_invocationSteps hd s c
  · exact emits_creationSteps hd s c
  · exact Step.emits_emitAll.2 (attributes_stand hd)
  · exact Step.emits_emit?.2 (nullable?_standsIn hd)
  · split
    · refine Step.emits_append.2 ⟨Step.emits_emitAll.2 ?_, by simp⟩
      exact forall_mem_getD_map fun _ => heritage_stands hd
    · split <;> simp

theorem emits_rule (hd : d.IsNumbered) (s : Scope) (p : Place) :
    Step.Emits (Reference.StandsIn d.lineTotal) (rule d s p) := by
  simp only [rule]
  exact Step.emits_ite_nil.2 fun _ => Step.emits_flatMap.2 fun c _ => emits_childSteps hd _ c.2

theorem references_stand (hd : d.IsNumbered) (root : Place) :
    ∀ r ∈ references d root, r.StandsIn d.lineTotal :=
  Rule.forall_mem_walk_of_emits (emits_rule hd) _ root

end Uses.CSharp

end SourceIndex
