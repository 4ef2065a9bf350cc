import SourceIndex.Declarations.TypeScript
import SourceIndex.Proofs.Lines.Standing
import SourceIndex.Proofs.Tree.Emission
import SourceIndex.Proofs.Tree.Extent
import SourceIndex.Uses.ECMAScript

/-!
# Lines of JavaScript and TypeScript

Symbols and references of ECMAScript stand on the lines of their places, if those of a dialect do.
-/

namespace SourceIndex

open Document (standsIn_symbol standsIn_reference standsIn_reference_from)
open SourceIndex.Symbol (forall_standsIn)

variable {d : Document}

namespace Declarations.ECMAScript

variable {s : Setting} {owner : String} {scope : Option String} {p : Place}

theorem symbolIn_liesIn {name : String} {kind : SymbolKind} {details : Symbol.Details} :
    (symbolIn d scope p name kind details).LiesIn d scope p :=
  Symbol.liesIn_symbol rfl

theorem symbolIn_standsIn (hd : d.IsNumbered) {name : String} {kind : SymbolKind}
    {details : Symbol.Details} : (symbolIn d scope p name kind details).StandsIn d.lineTotal :=
  standsIn_symbol hd

theorem function?_liesIn : ∀ y ∈ function? d s p, y.LiesIn d s.name p := by
  intro y hy
  obtain ⟨name, -, hy⟩ := Option.bind_eq_some_iff.1 hy
  cases hy
  exact symbolIn_liesIn

theorem method?_liesIn : ∀ y ∈ method? d owner p, y.LiesIn d (some owner) p := by
  intro y hy
  obtain ⟨name, -, hy⟩ := Option.bind_eq_some_iff.1 hy
  cases hy
  exact symbolIn_liesIn

theorem field?_liesIn : ∀ y ∈ field? d owner p, y.LiesIn d (some owner) p := by
  intro y hy
  obtain ⟨name, -, hy⟩ := Option.bind_eq_some_iff.1 hy
  cases hy
  exact symbolIn_liesIn

theorem members_lieIn {t : Scope} : ∀ y ∈ members d t owner p, y.LiesIn d (some owner) p := by
  intro y hy
  unfold members at hy
  split at hy
  · cases hy
  · obtain ⟨m, hm, hy⟩ := List.mem_filterMap.1 hy
    split at hy
    · exact (method?_liesIn y hy).ofChild hm
    · exact (method?_liesIn y hy).ofChild hm
    · exact (method?_liesIn y hy).ofChild hm
    · exact (field?_liesIn y hy).ofChild hm
    · exact (field?_liesIn y hy).ofChild hm
    · exact (field?_liesIn y hy).ofChild hm
    · cases hy

theorem membersOf_lieIn {t : Scope} : ∀ y ∈ membersOf d t owner p, y.LiesIn d (some owner) p := by
  unfold membersOf
  cases hbody : p.field? "body" with
  | none => exact List.forall_mem_nil _
  | some body => exact fun y hy => (members_lieIn y hy).ofChild (Place.mem_children_of_field? hbody)

theorem classSymbols_stand (hd : d.IsNumbered) :
    ∀ y ∈ classSymbols d s p, y.StandsIn d.lineTotal := by
  intro y hy
  simp only [classSymbols] at hy
  split at hy
  · cases hy
  · rcases List.mem_cons.1 hy with rfl | hy
    · exact symbolIn_standsIn hd
    · exact forall_standsIn hd membersOf_lieIn y hy

theorem variableSymbols_stand (hd : d.IsNumbered) {declaration : Place} {keyword : String} :
    ∀ y ∈ variableSymbols d s declaration keyword p, y.StandsIn d.lineTotal := by
  have hplain : ∀ name, ∀ y ∈ [plainVariable d s declaration keyword name p],
      y.StandsIn d.lineTotal := by
    intro name y hy
    obtain rfl := List.mem_singleton.1 hy
    exact symbolIn_standsIn hd
  intro y hy
  simp only [variableSymbols] at hy
  split at hy
  · cases hy
  · split at hy
    · exact hplain _ y hy
    · split at hy
      · obtain rfl := List.mem_singleton.1 hy
        exact symbolIn_standsIn hd
      · obtain rfl := List.mem_singleton.1 hy
        exact symbolIn_standsIn hd
      · obtain rfl := List.mem_singleton.1 hy
        exact symbolIn_standsIn hd
      · obtain rfl := List.mem_singleton.1 hy
        exact symbolIn_standsIn hd
      · rcases List.mem_cons.1 hy with rfl | hy
        · exact symbolIn_standsIn hd
        · exact forall_standsIn hd membersOf_lieIn y hy
      · exact hplain _ y hy

theorem exportSymbol?_liesIn : ∀ y ∈ exportSymbol? d scope p, y.LiesIn d scope p := by
  intro y hy
  obtain ⟨assignment, hassignment, hy⟩ := Option.bind_eq_some_iff.1 hy
  obtain ⟨left, -, hy⟩ := Option.bind_eq_some_iff.1 hy
  obtain ⟨right, -, hy⟩ := Option.bind_eq_some_iff.1 hy
  dsimp only at hy
  split at hy
  · cases hy
  · obtain ⟨name, -, hy⟩ := Option.bind_eq_some_iff.1 hy
    cases hy
    exact symbolIn_liesIn.ofChild (Place.mem_children_of_childOf? hassignment)

theorem emits_childSteps (hd : d.IsNumbered) (s : Setting) (c : Place) :
    Step.Emits (Symbol.StandsIn d.lineTotal) (childSteps d s c) := by
  unfold childSteps
  split
  · exact Step.emits_emit?.2 (forall_standsIn hd function?_liesIn)
  · exact Step.emits_emit?.2 (forall_standsIn hd function?_liesIn)
  · exact Step.emits_emitAll.2 (classSymbols_stand hd)
  · exact Step.emits_emitAll.2 (classSymbols_stand hd)
  · exact Step.emits_emitAll.2 (classSymbols_stand hd)
  · exact Step.emits_emitAll.2 (List.forall_mem_flatMap.2 fun _ _ => variableSymbols_stand hd)
  · exact Step.emits_emitAll.2 (List.forall_mem_flatMap.2 fun _ _ => variableSymbols_stand hd)
  · simp
  · exact Step.emits_emit?.2 (forall_standsIn hd exportSymbol?_liesIn)
  · simp

/-- Do the further declarations of a dialect stand on the lines of the source? -/
def Dialect.Stands (dialect : Dialect) (d : Document) : Prop :=
  ∀ s p steps, dialect d s p = some steps → Step.Emits (Symbol.StandsIn d.lineTotal) steps

theorem symbols_stand (hd : d.IsNumbered) {dialect : Dialect} (hdialect : dialect.Stands d)
    (root : Place) : ∀ y ∈ symbols d dialect root, y.StandsIn d.lineTotal := by
  refine Rule.forall_mem_walk_of_emits (fun s p => ?_) _ root
  unfold rule
  refine Step.emits_ite_nil.2 fun _ => Step.emits_flatMap.2 fun c _ => ?_
  exact Step.emits_getD.2 ⟨hdialect s c, fun _ => emits_childSteps hd s c⟩

theorem javascript_stands (d : Document) : Dialect.Stands javascript d :=
  nofun

end Declarations.ECMAScript

namespace Declarations.TypeScript

open Declarations.ECMAScript (Setting symbolIn_liesIn symbolIn_standsIn)

variable {s : Setting} {owner : String} {p : Place}

theorem interfaceMember?_liesIn :
    ∀ y ∈ interfaceMember? d owner p, y.LiesIn d (some owner) p := by
  intro y hy
  obtain ⟨name, -, hy⟩ := Option.bind_eq_some_iff.1 hy
  split at hy
  · cases hy
    exact symbolIn_liesIn
  · cases hy
    exact symbolIn_liesIn
  · cases hy

theorem interfaceSymbols_stand (hd : d.IsNumbered) :
    ∀ y ∈ interfaceSymbols d s p, y.StandsIn d.lineTotal := by
  intro y hy
  simp only [interfaceSymbols] at hy
  split at hy
  · cases hy
  · rcases List.mem_cons.1 hy with rfl | hy
    · exact symbolIn_standsIn hd
    · obtain ⟨m, -, hy⟩ := List.mem_filterMap.1 hy
      exact forall_standsIn hd interfaceMember?_liesIn y hy

theorem typeAlias?_liesIn : ∀ y ∈ typeAlias? d s p, y.LiesIn d s.name p := by
  intro y hy
  obtain ⟨name, -, hy⟩ := Option.bind_eq_some_iff.1 hy
  cases hy
  exact symbolIn_liesIn

theorem enumMember?_liesIn : ∀ y ∈ enumMember? d owner p, y.LiesIn d (some owner) p := by
  intro y hy
  unfold enumMember? at hy
  split at hy
  · cases hy
    exact symbolIn_liesIn
  · obtain ⟨n, -, rfl⟩ := Option.map_eq_some_iff.1 hy
    exact symbolIn_liesIn
  · cases hy

theorem enumSymbols_stand (hd : d.IsNumbered) :
    ∀ y ∈ enumSymbols d s p, y.StandsIn d.lineTotal := by
  intro y hy
  simp only [enumSymbols] at hy
  split at hy
  · cases hy
  · rcases List.mem_cons.1 hy with rfl | hy
    · exact symbolIn_standsIn hd
    · obtain ⟨m, -, hy⟩ := List.mem_filterMap.1 hy
      exact forall_standsIn hd enumMember?_liesIn y hy

theorem emits_namespaceSteps (hd : d.IsNumbered) (s : Setting) (p : Place) :
    Step.Emits (Symbol.StandsIn d.lineTotal) (namespaceSteps d s p) := by
  simp only [namespaceSteps]
  split
  · exact Step.emits_nil
  · exact Step.emits_emit_cons.2 ⟨symbolIn_standsIn hd, Step.emits_visit? _ _⟩

theorem typescript_stands (hd : d.IsNumbered) : ECMAScript.Dialect.Stands typescript d := by
  intro s p steps hsteps
  unfold typescript at hsteps
  split at hsteps
  · cases hsteps
    exact Step.emits_emitAll.2 (interfaceSymbols_stand hd)
  · cases hsteps
    exact Step.emits_emit?.2 (forall_standsIn hd typeAlias?_liesIn)
  · cases hsteps
    exact Step.emits_emitAll.2 (enumSymbols_stand hd)
  · cases hsteps
    exact emits_namespaceSteps hd s p
  · cases hsteps
    exact emits_namespaceSteps hd s p
  · obtain ⟨q, -, rfl⟩ := Option.map_eq_some_iff.1 hsteps
    exact emits_namespaceSteps hd s q
  · cases hsteps

end Declarations.TypeScript

namespace Uses.ECMAScript

theorem imports_stand (hd : d.IsNumbered) {scope : Option String} {p : Place} :
    ∀ r ∈ imports d scope p, r.StandsIn d.lineTotal := by
  intro r hr
  simp only [imports] at hr
  split at hr
  · cases hr
  · split at hr
    · obtain rfl := List.mem_singleton.1 hr
      exact standsIn_reference_from hd
    · obtain ⟨⟨name, q⟩, -, rfl⟩ := List.mem_map.1 hr
      exact standsIn_reference_from hd

theorem emits_calleeSteps (s : Scope) (f : Place) :
    Step.Emits (Reference.StandsIn d.lineTotal) (calleeSteps s f) := by
  unfold calleeSteps
  repeat' split
  all_goals simp

theorem emits_callSteps (hd : d.IsNumbered) (s : Scope) (p : Place) :
    Step.Emits (Reference.StandsIn d.lineTotal) (callSteps d s p) := by
  unfold callSteps
  split
  · exact Step.emits_nil
  · split
    · exact Step.emits_emit_cons.2 ⟨standsIn_reference_from hd, Step.emits_nil⟩
    · refine Step.emits_emit_cons.2 ⟨standsIn_reference hd, ?_⟩
      exact Step.emits_append.2 ⟨emits_calleeSteps s _, Step.emits_visit? _ _⟩

theorem emits_creationSteps (hd : d.IsNumbered) (s : Scope) (p : Place) :
    Step.Emits (Reference.StandsIn d.lineTotal) (creationSteps d s p) := by
  refine Step.emits_append.2 ⟨Step.emits_emit?.2 fun r hr => ?_, Step.emits_visit? _ _⟩
  obtain ⟨c, -, rfl⟩ := Option.map_eq_some_iff.1 hr
  exact standsIn_reference hd

theorem heritageReferences_stand (hd : d.IsNumbered) {kind : ReferenceKind} {owner : String}
    {places : List Place} :
    ∀ r ∈ places.map (heritageReference d kind owner), r.StandsIn d.lineTotal := by
  intro r hr
  obtain ⟨p, -, rfl⟩ := List.mem_map.1 hr
  exact standsIn_reference hd

theorem classHeritage_stands (hd : d.IsNumbered) {owner : String} {p : Place} :
    ∀ r ∈ classHeritage d owner p, r.StandsIn d.lineTotal := by
  intro r hr
  unfold classHeritage at hr
  split at hr
  · cases hr
  · split at hr
    · obtain ⟨c, -, hr⟩ := List.mem_flatMap.1 hr
      split at hr
      · exact heritageReferences_stand hd r hr
      · exact heritageReferences_stand hd r hr
      · cases hr
    · exact heritageReferences_stand hd r hr

theorem interfaceHeritage_stands (hd : d.IsNumbered) {owner : String} {p : Place} :
    ∀ r ∈ interfaceHeritage d owner p, r.StandsIn d.lineTotal := by
  intro r hr
  unfold interfaceHeritage at hr
  split at hr
  · cases hr
  · exact heritageReferences_stand hd r hr

theorem emits_childSteps (hd : d.IsNumbered) (s : Scope) (c : Place) :
    Step.Emits (Reference.StandsIn d.lineTotal) (childSteps d s c) := by
  have hscope : Step.Emits (Reference.StandsIn d.lineTotal) [scopeStep d s c] := by
    simp [scopeStep]
  unfold childSteps
  split
  · exact Step.emits_emitAll.2 (imports_stand hd)
  · exact emits_callSteps hd s c
  · exact emits_creationSteps hd s c
  · exact hscope
  · exact hscope
  · exact hscope
  · refine Step.emits_append.2 ⟨Step.emits_emitAll.2 ?_, hscope⟩
    exact forall_mem_getD_map fun _ => classHeritage_stands hd
  · refine Step.emits_append.2 ⟨Step.emits_emitAll.2 ?_, hscope⟩
    exact forall_mem_getD_map fun _ => classHeritage_stands hd
  · refine Step.emits_append.2 ⟨Step.emits_emitAll.2 ?_, hscope⟩
    exact forall_mem_getD_map fun _ => classHeritage_stands hd
  · refine Step.emits_append.2 ⟨Step.emits_emitAll.2 ?_, hscope⟩
    exact forall_mem_getD_map fun _ => interfaceHeritage_stands hd
  · split
    · exact hscope
    · simp
  · simp

theorem references_stand (hd : d.IsNumbered) (root : Place) :
    ∀ r ∈ references d root, r.StandsIn d.lineTotal := by
  refine Rule.forall_mem_walk_of_emits (fun task p => ?_) _ root
  cases task with
  | inside s =>
      rw [rule]
      exact Step.emits_ite_nil.2 fun _ => Step.emits_flatMap.2 fun c _ => emits_childSteps hd s c
  | call s => exact emits_callSteps hd s p

end Uses.ECMAScript

end SourceIndex
