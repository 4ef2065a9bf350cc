import SourceIndex.Declarations.ObjC
import SourceIndex.Proofs.Lines.Standing
import SourceIndex.Proofs.Tree.Emission
import SourceIndex.Proofs.Tree.Extent
import SourceIndex.Uses.ObjC

/-!
# Lines of C, C++ and Objective-C

Symbols and references of the family stand on the lines of their places, if those of a dialect do.
-/

namespace SourceIndex

open Document (standsIn_symbol standsIn_reference standsIn_reference_from)
open SourceIndex.Symbol (forall_standsIn liesIn_symbol)

variable {d : Document}

namespace Declarations.C

variable {dialect : Dialect}

theorem functionSymbol_standsIn (hd : d.IsNumbered) {owner : Option String}
    {access : Option Visibility} {p : Place} {type name params : String} :
    (functionSymbol dialect d owner access p type name params).StandsIn d.lineTotal :=
  standsIn_symbol hd

theorem function?_standsIn (hd : d.IsNumbered) {owner : Option String}
    {access : Option Visibility} {p : Place} :
    ∀ y ∈ function? dialect d owner access p, y.StandsIn d.lineTotal := by
  intro y hy
  obtain ⟨declarator, -, hy⟩ := Option.bind_eq_some_iff.1 hy
  obtain ⟨⟨name, params⟩, -, hy⟩ := Option.bind_eq_some_iff.1 hy
  cases hy
  exact functionSymbol_standsIn hd

theorem declared?_standsIn (hd : d.IsNumbered) {owner : Option String}
    {access : Option Visibility} {p c : Place} :
    ∀ y ∈ declared? dialect d owner access p c, y.StandsIn d.lineTotal := by
  intro y hy
  simp only [declared?] at hy
  split at hy
  · obtain ⟨⟨name, params⟩, -, rfl⟩ := Option.map_eq_some_iff.1 hy
    exact functionSymbol_standsIn hd
  · split at hy
    · obtain ⟨name, -, rfl⟩ := Option.map_eq_some_iff.1 hy
      exact standsIn_symbol hd
    · cases hy

theorem declaration_stands (hd : d.IsNumbered) {owner : Option String}
    {access : Option Visibility} {p : Place} :
    ∀ y ∈ declaration dialect d owner access p, y.StandsIn d.lineTotal := by
  intro y hy
  obtain ⟨c, -, hy⟩ := List.mem_filterMap.1 hy
  exact declared?_standsIn hd y hy

theorem field?_standsIn (hd : d.IsNumbered) {owner : String} {access : Visibility} {p c : Place} :
    ∀ y ∈ field? dialect d owner access p c, y.StandsIn d.lineTotal := by
  intro y hy
  simp only [field?] at hy
  split at hy
  · obtain ⟨⟨name, params⟩, -, rfl⟩ := Option.map_eq_some_iff.1 hy
    exact functionSymbol_standsIn hd
  · split at hy
    · obtain ⟨name, -, rfl⟩ := Option.map_eq_some_iff.1 hy
      exact standsIn_symbol hd
    · cases hy

theorem emits_recordSteps (hd : d.IsNumbered) (s : Scope) (p : Place) :
    Step.Emits (Symbol.StandsIn d.lineTotal) (recordSteps d s p) := by
  unfold recordSteps
  split
  · exact Step.emits_nil
  · exact Step.emits_emit_cons.2 ⟨standsIn_symbol hd, Step.emits_visit? _ _⟩

theorem enumerators_lieIn {owner : String} {p : Place} :
    ∀ y ∈ enumerators d owner p, y.LiesIn d (some owner) p := by
  intro y hy
  unfold enumerators at hy
  split at hy
  · cases hy
  · rename_i body hbody
    obtain ⟨e, he, hy⟩ := List.mem_filterMap.1 hy
    obtain ⟨name, -, rfl⟩ := Option.map_eq_some_iff.1 hy
    have hinside := (List.mem_filter.1 he).1
    exact ((liesIn_symbol rfl).ofChild hinside).ofChild (Place.mem_children_of_field? hbody)

theorem enumSymbols_stand (hd : d.IsNumbered) {owner : Option String} {p : Place} :
    ∀ y ∈ enumSymbols d owner p, y.StandsIn d.lineTotal := by
  intro y hy
  unfold enumSymbols at hy
  split at hy
  · cases hy
  · rcases List.mem_cons.1 hy with rfl | hy
    · exact standsIn_symbol hd
    · exact forall_standsIn hd enumerators_lieIn y hy

theorem emits_typedefBodySteps (hd : d.IsNumbered) (s : Scope) (name : String) (t : Place) :
    Step.Emits (Symbol.StandsIn d.lineTotal) (typedefBodySteps d s name t) := by
  simp only [typedefBodySteps]
  split
  · split
    · exact emits_recordSteps hd s.deeper t
    · simp
  · split
    · exact emits_recordSteps hd s.deeper t
    · simp
  · split
    · exact Step.emits_emitAll.2 (enumSymbols_stand hd)
    · exact Step.emits_emitAll.2 (forall_standsIn hd enumerators_lieIn)
  · exact Step.emits_nil

theorem emits_typedefSteps (hd : d.IsNumbered) (s : Scope) (p : Place) :
    Step.Emits (Symbol.StandsIn d.lineTotal) (typedefSteps d s p) := by
  simp only [typedefSteps]
  split
  · exact Step.emits_nil
  · refine Step.emits_emit_cons.2 ⟨standsIn_symbol hd, ?_⟩
    refine Step.emits_getD.2 ⟨?_, fun _ => Step.emits_nil⟩
    intro steps hsteps
    obtain ⟨t, -, rfl⟩ := Option.map_eq_some_iff.1 hsteps
    exact emits_typedefBodySteps hd s _ t

theorem emits_namespaceSteps (hd : d.IsNumbered) (s : Scope) (p : Place) :
    Step.Emits (Symbol.StandsIn d.lineTotal) (namespaceSteps d s p) := by
  refine Step.emits_append.2 ⟨Step.emits_emit?.2 fun y hy => ?_, Step.emits_visit? _ _⟩
  obtain ⟨name, -, rfl⟩ := Option.map_eq_some_iff.1 hy
  exact standsIn_symbol hd

theorem emits_childSteps (hd : d.IsNumbered) (s : Scope) (c : Place) :
    Step.Emits (Symbol.StandsIn d.lineTotal) (childSteps dialect d s c) := by
  unfold childSteps
  split
  · exact Step.emits_emit?.2 (function?_standsIn hd)
  · exact Step.emits_emitAll.2 (declaration_stands hd)
  · exact emits_recordSteps hd s c
  · exact emits_recordSteps hd s c
  · exact emits_recordSteps hd s c
  · exact Step.emits_emitAll.2 (enumSymbols_stand hd)
  · exact emits_typedefSteps hd s c
  · exact emits_namespaceSteps hd s c
  · split <;> simp

theorem emits_memberSteps (hd : d.IsNumbered) (s : Scope) (access : Visibility) (m : Place) :
    Step.Emits (Symbol.StandsIn d.lineTotal) (memberSteps dialect d s access m) := by
  simp only [memberSteps]
  split
  · refine Step.emits_emitAll.2 fun y hy => ?_
    obtain ⟨c, -, hy⟩ := List.mem_filterMap.1 hy
    exact field?_standsIn hd y hy
  · split
    · exact Step.emits_emit?.2 (function?_standsIn hd)
    · exact Step.emits_nil
  · split
    · exact Step.emits_emitAll.2 (declaration_stands hd)
    · exact Step.emits_nil
  · simp
  · exact emits_recordSteps hd s.deeper m
  · exact emits_recordSteps hd s.deeper m
  · exact emits_recordSteps hd s.deeper m
  · exact Step.emits_emitAll.2 (enumSymbols_stand hd)
  · exact Step.emits_nil

/-- Do the further declarations of a dialect stand on the lines of the source? -/
def Dialect.Stands (dialect : Dialect) (d : Document) : Prop :=
  ∀ p ys, dialect.extra d p = some ys → ∀ y ∈ ys, y.StandsIn d.lineTotal

theorem emits_rule (hd : d.IsNumbered) (hdialect : dialect.Stands d) (task : Task) (p : Place) :
    Step.Emits (Symbol.StandsIn d.lineTotal) (rule dialect d task p) := by
  cases task with
  | inside s =>
      rw [rule]
      refine Step.emits_ite_nil.2 fun _ => Step.emits_flatMap.2 fun c _ => ?_
      refine Step.emits_getD.2 ⟨fun steps hsteps => ?_, fun _ => emits_childSteps hd s c⟩
      obtain ⟨ys, hys, rfl⟩ := Option.map_eq_some_iff.1 hsteps
      exact Step.emits_emitAll.2 (hdialect c ys hys)
  | members s access =>
      rw [rule]
      refine Step.emits_ite_nil.2 fun _ => ?_
      exact Step.emits_flatMap.2 fun m _ => emits_memberSteps hd s m.1 m.2

theorem symbols_stand (hd : d.IsNumbered) (hdialect : dialect.Stands d) (root : Place) :
    ∀ y ∈ symbols dialect d root, y.StandsIn d.lineTotal :=
  Rule.forall_mem_walk_of_emits (emits_rule hd hdialect) _ root

theorem c_stands (d : Document) : c.Stands d :=
  nofun

theorem cpp_stands (d : Document) : cpp.Stands d :=
  nofun

end Declarations.C

namespace Declarations.ObjC

variable {owner : String} {p : Place}

theorem method?_liesIn {declared : Bool} :
    ∀ y ∈ method? d owner declared p, y.LiesIn d (some owner) p := by
  intro y hy
  obtain ⟨selector, -, hy⟩ := Option.bind_eq_some_iff.1 hy
  cases hy
  exact liesIn_symbol rfl

/-- Names are declared inside the place. -/
theorem mem_subtree_of_mem_declaredNames {named : Place × String} (h : named ∈ declaredNames d p) :
    named.1 ∈ p.subtree := by
  obtain ⟨declaration, hdeclaration, h⟩ := List.mem_flatMap.1 h
  obtain ⟨c, -, h⟩ := List.mem_filterMap.1 h
  obtain ⟨name, -, rfl⟩ := Option.map_eq_some_iff.1 h
  exact Place.mem_subtree_of_child (List.mem_filter.1 hdeclaration).1

theorem properties_lieIn : ∀ y ∈ properties d owner p, y.LiesIn d (some owner) p := by
  intro y hy
  obtain ⟨⟨declaration, name⟩, -, rfl⟩ := List.mem_map.1 hy
  exact liesIn_symbol rfl

theorem instanceVariables_lieIn :
    ∀ y ∈ instanceVariables d owner p, y.LiesIn d (some owner) p := by
  intro y hy
  obtain ⟨named, hnamed, rfl⟩ := List.mem_map.1 hy
  obtain ⟨v, hv, hnamed⟩ := List.mem_flatMap.1 hnamed
  have hinside := mem_subtree_of_mem_declaredNames hnamed
  exact ((liesIn_symbol rfl).above hinside).ofChild (List.mem_filter.1 hv).1

theorem interfaceSymbols_stand (hd : d.IsNumbered) :
    ∀ y ∈ interfaceSymbols d p, y.StandsIn d.lineTotal := by
  intro y hy
  simp only [interfaceSymbols] at hy
  split at hy
  · cases hy
  · rcases List.mem_cons.1 hy with rfl | hy
    · exact standsIn_symbol hd
    · obtain ⟨c, -, hy⟩ := List.mem_flatMap.1 hy
      split at hy
      · exact forall_standsIn hd method?_liesIn y (Option.mem_toList.1 hy)
      · exact forall_standsIn hd properties_lieIn y hy
      · exact forall_standsIn hd instanceVariables_lieIn y hy
      · cases hy

theorem implementationSymbols_stand (hd : d.IsNumbered) :
    ∀ y ∈ implementationSymbols d p, y.StandsIn d.lineTotal := by
  intro y hy
  unfold implementationSymbols at hy
  split at hy
  · cases hy
  · rcases List.mem_cons.1 hy with rfl | hy
    · exact standsIn_symbol hd
    · obtain ⟨c, -, hy⟩ := List.mem_flatMap.1 hy
      split at hy
      · obtain ⟨m, -, hy⟩ := List.mem_filterMap.1 hy
        exact forall_standsIn hd method?_liesIn y hy
      · exact forall_standsIn hd method?_liesIn y (Option.mem_toList.1 hy)
      · exact forall_standsIn hd instanceVariables_lieIn y hy
      · cases hy

theorem protocolSymbols_stand (hd : d.IsNumbered) :
    ∀ y ∈ protocolSymbols d p, y.StandsIn d.lineTotal := by
  intro y hy
  unfold protocolSymbols at hy
  split at hy
  · cases hy
  · rcases List.mem_cons.1 hy with rfl | hy
    · exact standsIn_symbol hd
    · obtain ⟨m, -, hy⟩ := List.mem_filterMap.1 hy
      exact forall_standsIn hd method?_liesIn y hy

theorem dialect_stands (hd : d.IsNumbered) : dialect.Stands d := by
  intro p ys hys
  simp only [dialect] at hys
  split at hys
  · cases hys
    exact interfaceSymbols_stand hd
  · cases hys
    exact implementationSymbols_stand hd
  · cases hys
    exact protocolSymbols_stand hd
  · cases hys

end Declarations.ObjC

namespace Uses.C

theorem include?_standsIn (hd : d.IsNumbered) {scope : Option String} {p : Place} :
    ∀ r ∈ include? d scope p, r.StandsIn d.lineTotal := by
  intro r hr
  obtain ⟨q, -, rfl⟩ := Option.map_eq_some_iff.1 hr
  exact standsIn_reference_from hd

theorem emits_callSteps (hd : d.IsNumbered) (s : Scope) (p : Place) :
    Step.Emits (Reference.StandsIn d.lineTotal) (callSteps d s p) := by
  unfold callSteps
  split
  · exact Step.emits_nil
  · exact Step.emits_emit_cons.2 ⟨standsIn_reference hd, Step.emits_visit? _ _⟩

theorem emits_creationSteps (hd : d.IsNumbered) (s : Scope) (p : Place) :
    Step.Emits (Reference.StandsIn d.lineTotal) (creationSteps d s p) := by
  refine Step.emits_append.2 ⟨Step.emits_emit?.2 fun r hr => ?_, Step.emits_visit? _ _⟩
  obtain ⟨type, -, rfl⟩ := Option.map_eq_some_iff.1 hr
  exact standsIn_reference hd

theorem bases_stand (hd : d.IsNumbered) {owner : String} {p : Place} :
    ∀ r ∈ bases d owner p, r.StandsIn d.lineTotal := by
  intro r hr
  unfold bases at hr
  split at hr
  · cases hr
  · obtain ⟨c, -, rfl⟩ := List.mem_map.1 hr
    exact standsIn_reference hd

theorem emits_childSteps (hd : d.IsNumbered) (s : Scope) (c : Place) :
    Step.Emits (Reference.StandsIn d.lineTotal) (childSteps d s c) := by
  have hbases : ∀ r ∈ ((namedScope d s c).map fun owner => bases d owner c).getD [],
      r.StandsIn d.lineTotal := forall_mem_getD_map fun _ => bases_stand hd
  unfold childSteps
  split
  · exact Step.emits_emit?.2 (include?_standsIn hd)
  · exact emits_callSteps hd s c
  · exact emits_creationSteps hd s c
  · simp
  · simp
  · exact Step.emits_append.2 ⟨Step.emits_emitAll.2 hbases, by simp⟩
  · exact Step.emits_append.2 ⟨Step.emits_emitAll.2 hbases, by simp⟩
  · simp

/-- Do the further uses of a dialect stand on the lines of the source? -/
def Dialect.Stands (dialect : Dialect) (d : Document) : Prop :=
  ∀ s p steps, dialect d s p = some steps → Step.Emits (Reference.StandsIn d.lineTotal) steps

theorem references_stand (hd : d.IsNumbered) {dialect : Dialect} (hdialect : dialect.Stands d)
    (root : Place) : ∀ r ∈ references d dialect root, r.StandsIn d.lineTotal := by
  refine Rule.forall_mem_walk_of_emits (fun s p => ?_) _ root
  unfold rule
  refine Step.emits_ite_nil.2 fun _ => Step.emits_flatMap.2 fun c _ => ?_
  exact Step.emits_getD.2 ⟨hdialect s c, fun _ => emits_childSteps hd s c⟩

theorem c_stands (d : Document) : Dialect.Stands c d :=
  nofun

end Uses.C

namespace Uses.ObjC

theorem moduleImport?_standsIn (hd : d.IsNumbered) {scope : Option String} {p : Place} :
    ∀ r ∈ moduleImport? d scope p, r.StandsIn d.lineTotal := by
  intro r hr
  obtain ⟨first, -, rfl⟩ := Option.map_eq_some_iff.1 hr
  exact standsIn_reference_from hd

theorem heritage_stands (hd : d.IsNumbered) {owner : String} {p : Place} :
    ∀ r ∈ heritage d owner p, r.StandsIn d.lineTotal := by
  intro r hr
  rcases List.mem_append.1 hr with hr | hr
  · obtain ⟨t, -, rfl⟩ := Option.map_eq_some_iff.1 (Option.mem_toList.1 hr)
    exact standsIn_reference hd
  · obtain ⟨t, -, rfl⟩ := List.mem_map.1 hr
    exact standsIn_reference hd

theorem dialect_stands (hd : d.IsNumbered) : C.Dialect.Stands dialect d := by
  intro s p steps hsteps
  simp only [dialect] at hsteps
  split at hsteps <;> cases hsteps
  · refine Step.emits_append.2 ⟨Step.emits_emit?.2 fun r hr => ?_, by simp⟩
    obtain ⟨m, -, rfl⟩ := Option.map_eq_some_iff.1 hr
    exact standsIn_reference hd
  · exact Step.emits_emit?.2 (moduleImport?_standsIn hd)
  · exact Step.emits_emit?.2 (C.include?_standsIn hd)
  · unfold interfaceSteps
    split
    · exact Step.emits_nil
    · exact Step.emits_append.2 ⟨Step.emits_emitAll.2 (heritage_stands hd), by simp⟩
  · simp
  · simp

end Uses.ObjC

end SourceIndex
