import SourceIndex.Declarations.PHP
import SourceIndex.Declarations.Python
import SourceIndex.Declarations.Ruby
import SourceIndex.Proofs.Lines.Standing
import SourceIndex.Proofs.Tree.Emission
import SourceIndex.Proofs.Tree.Extent
import SourceIndex.Uses.PHP
import SourceIndex.Uses.Python
import SourceIndex.Uses.Ruby

/-!
# Lines of PHP, Python and Ruby

Symbols and references of the three languages stand on the lines of their places.
-/

namespace SourceIndex

/-! ## Lines of PHP

Symbols and references of PHP stand on the lines of their places. -/

section

open Document (standsIn_symbol standsIn_reference standsIn_reference_from)
open SourceIndex.Symbol (forall_standsIn liesIn_symbol)

variable {d : Document}

namespace Declarations.PHP

variable {s : Setting} {owner : String} {scope : Option String} {p : Place}

theorem promotedProperties_lieIn :
    ∀ y ∈ promotedProperties d owner p, y.LiesIn d (some owner) p := by
  intro y hy
  obtain ⟨parameters, hparameters, hy⟩ := List.mem_flatMap.1 hy
  obtain ⟨m, hm, hparameters⟩ := List.mem_filterMap.1 hparameters
  obtain ⟨parameter, hparameter, hy⟩ := List.mem_filterMap.1 hy
  obtain ⟨modifier, -, hy⟩ := Option.bind_eq_some_iff.1 hy
  obtain ⟨sigil, -, hy⟩ := Option.bind_eq_some_iff.1 hy
  cases hy
  -- The parameter stands in the parameters of a method in the body.
  have hmethod := (List.mem_filter.1 (List.mem_filter.1 hm).1).1
  have hlist := Place.mem_children_of_field? hparameters
  have hinside := (List.mem_filter.1 hparameter).1
  exact (((liesIn_symbol rfl).ofChild hinside).ofChild hlist).ofChild hmethod

theorem emits_typeSteps (hd : d.IsNumbered) (s : Setting) (kind : SymbolKind) (keyword : String)
    (p : Place) : Step.Emits (Symbol.StandsIn d.lineTotal) (typeSteps d s kind keyword p) := by
  simp only [typeSteps]
  split
  · exact Step.emits_nil
  · refine Step.emits_emit_cons.2 ⟨standsIn_symbol hd, Step.emits_append.2 ⟨by simp, ?_⟩⟩
    exact Step.emits_emitAll.2 (forall_mem_getD_map fun _ =>
      forall_standsIn hd promotedProperties_lieIn)

theorem enumCase?_liesIn : ∀ y ∈ enumCase? d owner p, y.LiesIn d (some owner) p := by
  intro y hy
  obtain ⟨name, -, rfl⟩ := Option.map_eq_some_iff.1 hy
  exact liesIn_symbol rfl

theorem emits_enumSteps (hd : d.IsNumbered) (s : Setting) (p : Place) :
    Step.Emits (Symbol.StandsIn d.lineTotal) (enumSteps d s p) := by
  simp only [enumSteps]
  split
  · exact Step.emits_nil
  · refine Step.emits_emit_cons.2 ⟨standsIn_symbol hd, Step.emits_append.2 ⟨?_, by simp⟩⟩
    refine Step.emits_emitAll.2 fun y hy => ?_
    obtain ⟨c, -, hy⟩ := List.mem_filterMap.1 hy
    exact forall_standsIn hd enumCase?_liesIn y hy

theorem function?_liesIn : ∀ y ∈ function? d s p, y.LiesIn d s.owner p := by
  intro y hy
  obtain ⟨name, -, rfl⟩ := Option.map_eq_some_iff.1 hy
  exact liesIn_symbol rfl

theorem method?_liesIn : ∀ y ∈ method? d s p, y.LiesIn d s.owner p := by
  intro y hy
  obtain ⟨name, -, rfl⟩ := Option.map_eq_some_iff.1 hy
  exact liesIn_symbol rfl

theorem properties_lieIn : ∀ y ∈ properties d scope p, y.LiesIn d scope p := by
  intro y hy
  obtain ⟨element, -, hy⟩ := List.mem_filterMap.1 hy
  obtain ⟨raw, -, hy⟩ := Option.bind_eq_some_iff.1 hy
  cases hy
  exact liesIn_symbol rfl

theorem constants_lieIn : ∀ y ∈ constants d s p, y.LiesIn d s.owner p := by
  intro y hy
  obtain ⟨element, -, hy⟩ := List.mem_filterMap.1 hy
  obtain ⟨nameNode, -, hy⟩ := Option.bind_eq_some_iff.1 hy
  cases hy
  exact liesIn_symbol rfl

theorem emits_namespaceSteps (hd : d.IsNumbered) (s : Setting) (p : Place) :
    Step.Emits (Symbol.StandsIn d.lineTotal) (namespaceSteps d s p) := by
  unfold namespaceSteps
  split
  · exact Step.emits_nil
  · exact Step.emits_emit_cons.2 ⟨standsIn_symbol hd, Step.emits_visit? _ _⟩

theorem emits_childSteps (hd : d.IsNumbered) (s : Setting) (c : Place) :
    Step.Emits (Symbol.StandsIn d.lineTotal) (childSteps d s c) := by
  unfold childSteps
  split
  · exact emits_namespaceSteps hd s c
  · exact emits_typeSteps hd s _ _ c
  · exact emits_typeSteps hd s _ _ c
  · exact emits_typeSteps hd s _ _ c
  · exact emits_enumSteps hd s c
  · exact Step.emits_emit?.2 (forall_standsIn hd function?_liesIn)
  · exact Step.emits_emit?.2 (forall_standsIn hd method?_liesIn)
  · exact Step.emits_emitAll.2 (forall_standsIn hd properties_lieIn)
  · exact Step.emits_emitAll.2 (forall_standsIn hd constants_lieIn)
  · simp
  · simp
  · exact Step.emits_nil

theorem symbols_stand (hd : d.IsNumbered) (root : Place) :
    ∀ y ∈ symbols d root, y.StandsIn d.lineTotal := by
  refine Rule.forall_mem_walk_of_emits (fun s p => ?_) _ root
  unfold rule
  exact Step.emits_ite_nil.2 fun _ => Step.emits_flatMap.2 fun c _ => emits_childSteps hd _ c.2

end Declarations.PHP

namespace Uses.PHP

theorem imports_stand (hd : d.IsNumbered) {scope : Option String} {p : Place} :
    ∀ r ∈ imports d scope p, r.StandsIn d.lineTotal := by
  intro r hr
  obtain ⟨i, -, rfl⟩ := List.mem_map.1 hr
  exact standsIn_reference_from hd

theorem traits_stand (hd : d.IsNumbered) {scope : Option String} {p : Place} :
    ∀ r ∈ traits d scope p, r.StandsIn d.lineTotal := by
  intro r hr
  obtain ⟨c, -, rfl⟩ := List.mem_map.1 hr
  exact standsIn_reference hd

theorem emits_argumentSteps (s : Scope) (p : Place) :
    Step.Emits (Reference.StandsIn d.lineTotal) (argumentSteps s p) :=
  Step.emits_visit? _ _

theorem emits_memberCallSteps (hd : d.IsNumbered) (s : Scope) (p : Place) :
    Step.Emits (Reference.StandsIn d.lineTotal) (memberCallSteps d s p) := by
  simp only [memberCallSteps]
  split
  · exact Step.emits_nil
  · refine Step.emits_emit_cons.2 ⟨standsIn_reference hd, Step.emits_append.2 ⟨?_, ?_⟩⟩
    · simp [Step.Emits]
    · exact emits_argumentSteps s p

theorem emits_scopedCallSteps (hd : d.IsNumbered) (s : Scope) (p : Place) :
    Step.Emits (Reference.StandsIn d.lineTotal) (scopedCallSteps d s p) := by
  simp only [scopedCallSteps]
  split
  · exact Step.emits_nil
  · exact Step.emits_emit_cons.2 ⟨standsIn_reference hd, emits_argumentSteps s p⟩

theorem emits_functionCallSteps (hd : d.IsNumbered) (s : Scope) (p : Place) :
    Step.Emits (Reference.StandsIn d.lineTotal) (functionCallSteps d s p) := by
  simp only [functionCallSteps]
  split
  · exact Step.emits_nil
  · refine Step.emits_append.2 ⟨?_, emits_argumentSteps s p⟩
    split
    · exact Step.emits_nil
    · exact Step.emits_emit_cons.2 ⟨standsIn_reference hd, Step.emits_nil⟩

theorem emits_creationSteps (hd : d.IsNumbered) (s : Scope) (p : Place) :
    Step.Emits (Reference.StandsIn d.lineTotal) (creationSteps d s p) := by
  refine Step.emits_append.2 ⟨Step.emits_emit?.2 fun r hr => ?_, emits_argumentSteps s p⟩
  obtain ⟨c, -, rfl⟩ := Option.map_eq_some_iff.1 hr
  exact standsIn_reference hd

theorem heritage_stands (hd : d.IsNumbered) {owner : String} {p : Place} :
    ∀ r ∈ heritage d owner p, r.StandsIn d.lineTotal := by
  intro r hr
  obtain ⟨c, -, hr⟩ := List.mem_flatMap.1 hr
  dsimp only at hr
  split at hr
  · obtain ⟨name, -, rfl⟩ := List.mem_map.1 hr
    exact standsIn_reference hd
  · obtain ⟨name, -, rfl⟩ := List.mem_map.1 hr
    exact standsIn_reference hd
  · cases hr

theorem emits_childSteps (hd : d.IsNumbered) (s : Scope) (c : Place) :
    Step.Emits (Reference.StandsIn d.lineTotal) (childSteps d s c) := by
  simp only [childSteps]
  split
  · exact Step.emits_emitAll.2 (imports_stand hd)
  · exact Step.emits_emitAll.2 (traits_stand hd)
  · exact emits_memberCallSteps hd s c
  · exact emits_memberCallSteps hd s c
  · exact emits_memberCallSteps hd s c
  · exact emits_scopedCallSteps hd s c
  · exact emits_creationSteps hd s c
  · exact emits_functionCallSteps hd s c
  · simp
  · simp
  · simp
  · split
    · refine Step.emits_append.2 ⟨Step.emits_emitAll.2 ?_, by simp⟩
      exact forall_mem_getD_map fun _ => heritage_stands hd
    · simp

theorem references_stand (hd : d.IsNumbered) (root : Place) :
    ∀ r ∈ references d root, r.StandsIn d.lineTotal := by
  refine Rule.forall_mem_walk_of_emits (fun task p => ?_) _ root
  cases task with
  | inside s =>
      rw [rule]
      exact Step.emits_ite_nil.2 fun _ => Step.emits_flatMap.2 fun c _ => emits_childSteps hd _ c.2
  | memberCall s => exact emits_memberCallSteps hd s p
  | scopedCall s => exact emits_scopedCallSteps hd s p
  | functionCall s => exact emits_functionCallSteps hd s p

end Uses.PHP

end

/-! ## Lines of Python

Symbols and references of Python stand on the lines of their places.  A definition with decorators
starts with the first of them. -/

section

open Document (standsIn_symbol standsIn_reference standsIn_reference_from)
open SourceIndex.Symbol (forall_standsIn liesIn_symbol)

variable {d : Document}

namespace Declarations.Python

/-- The symbol of what was found. -/
def Found.symbolOf : Found → Symbol
  | .declared y => y
  | .attribute y => y

/-- Settling which attributes count hands out nothing new. -/
theorem exists_of_mem_settleFrom {seen : List (Option String × String)} {found : List Found}
    {y : Symbol} (h : y ∈ settleFrom seen found) : ∃ f ∈ found, f.symbolOf = y := by
  -- What the rest hands out was found in the rest.
  have hrest : ∀ (f : Found) (rest : List Found), (∃ f' ∈ rest, f'.symbolOf = y) →
      ∃ f' ∈ f :: rest, f'.symbolOf = y :=
    fun f rest ⟨f', hf', heq⟩ => ⟨f', List.mem_cons_of_mem f hf', heq⟩
  induction found generalizing seen with
  | nil => cases h
  | cons f rest ih =>
      rcases f with s | s
      · rcases List.mem_cons.1 h with rfl | h
        · exact ⟨_, List.mem_cons_self, rfl⟩
        · exact hrest _ _ (ih h)
      · rw [settleFrom] at h
        split at h
        · exact hrest _ _ (ih h)
        · rcases List.mem_cons.1 h with rfl | h
          · exact ⟨_, List.mem_cons_self, rfl⟩
          · exact hrest _ _ (ih h)

/-- Does the symbol of what was found stand on the first so many lines? -/
def Found.StandsIn (lines : Nat) (f : Found) : Prop :=
  f.symbolOf.StandsIn lines

theorem definition_standsIn (hd : d.IsNumbered) {outer p : Place} {name : String}
    {kind : SymbolKind} {details : Symbol.Details} :
    (Symbol.ofDetails name kind (d.startLine outer) (d.endLine p) details).StandsIn
      d.lineTotal := by
  apply Symbol.standsIn_ofDetails d.one_le_lineTotal
  · exact (Document.lineAt_bounds hd outer.start).2
  · exact (Document.lineAt_bounds hd p.stop).2

theorem initAttributes_lieIn {init : Place} {owner : String} :
    ∀ y ∈ initAttributes d init owner, y.LiesIn d (some owner) init := by
  intro y hy
  unfold initAttributes at hy
  split at hy
  · cases hy
  · rename_i body hbody
    obtain ⟨p, hp, hy⟩ := List.mem_filterMap.1 hy
    split at hy
    · obtain ⟨name, -, rfl⟩ := Option.map_eq_some_iff.1 hy
      have hinside := Place.mem_subtree_of_mem_descendants hp
      exact ((liesIn_symbol rfl).above hinside).ofChild (Place.mem_children_of_field? hbody)
    · cases hy

theorem emits_functionSteps (hd : d.IsNumbered) (exports : Option (List String)) (s : Scope)
    (outer p : Place) :
    Step.Emits (Found.StandsIn d.lineTotal) (functionSteps d exports s outer p) := by
  simp only [functionSteps]
  split
  · exact Step.emits_nil
  · refine Step.emits_emit_cons.2 ⟨definition_standsIn hd, ?_⟩
    intro f hf
    obtain ⟨y, hy, hf⟩ := List.mem_map.1 hf
    cases hf
    split at hy
    · split at hy
      · exact forall_standsIn hd initAttributes_lieIn y hy
      · cases hy
    · cases hy

theorem emits_classSteps (hd : d.IsNumbered) (exports : Option (List String)) (s : Scope)
    (outer p : Place) :
    Step.Emits (Found.StandsIn d.lineTotal) (classSteps d exports s outer p) := by
  simp only [classSteps]
  split
  · exact Step.emits_nil
  · exact Step.emits_emit_cons.2 ⟨definition_standsIn hd, Step.emits_visit? _ _⟩

theorem emits_definitionSteps (hd : d.IsNumbered) (exports : Option (List String)) (s : Scope)
    (outer p : Place) :
    Step.Emits (Found.StandsIn d.lineTotal) (definitionSteps d exports s outer p) := by
  unfold definitionSteps
  split
  · exact emits_functionSteps hd exports s outer p
  · exact emits_classSteps hd exports s outer p
  · exact Step.emits_nil

theorem mem_subtree_of_mem_assignmentsOf {p q : Place} (h : q ∈ assignmentsOf p) : q ∈ p.subtree := by
  unfold assignmentsOf at h
  split at h
  · obtain rfl := List.mem_singleton.1 h
    exact Place.self_mem_subtree q
  · exact Place.mem_subtree_of_child (List.mem_filter.1 h).1
  · cases h

theorem assignment?_liesIn {exports : Option (List String)} {owner : Option String} {p : Place} :
    ∀ y ∈ assignment? d exports owner p, y.LiesIn d owner p := by
  intro y hy
  obtain ⟨left, -, hy⟩ := Option.bind_eq_some_iff.1 hy
  dsimp only at hy
  split at hy
  · cases hy
  · split at hy
    · cases hy
      exact liesIn_symbol rfl
    · cases hy
      exact liesIn_symbol rfl

theorem emits_childSteps (hd : d.IsNumbered) (exports : Option (List String)) (s : Scope)
    (c : Place) : Step.Emits (Found.StandsIn d.lineTotal) (childSteps d exports s c) := by
  have hassignments : Step.Emits (Found.StandsIn d.lineTotal)
      (((assignmentsOf c).filterMap (assignment? d exports s.name)).map fun a =>
        (Step.emit (.declared a) : Step Scope Found)) := by
    intro f hf
    obtain ⟨y, hy, hf⟩ := List.mem_map.1 hf
    cases hf
    obtain ⟨p, -, hy⟩ := List.mem_filterMap.1 hy
    exact forall_standsIn hd assignment?_liesIn y hy
  unfold childSteps
  split
  · exact emits_definitionSteps hd exports s c c
  · exact emits_definitionSteps hd exports s c c
  · refine Step.emits_getD.2 ⟨fun steps hsteps => ?_, fun _ => Step.emits_nil⟩
    obtain ⟨p, -, rfl⟩ := Option.map_eq_some_iff.1 hsteps
    exact emits_definitionSteps hd exports s c p
  · exact hassignments
  · exact hassignments
  · exact Step.emits_nil

theorem symbols_stand (hd : d.IsNumbered) (root : Place) :
    ∀ y ∈ symbols d root, y.StandsIn d.lineTotal := by
  intro y hy
  obtain ⟨f, hf, rfl⟩ := exists_of_mem_settleFrom hy
  have hrule : ∀ s p, Step.Emits (Found.StandsIn d.lineTotal) (rule d (exportList d root) s p) := by
    intro s p
    unfold rule
    exact Step.emits_ite_nil.2 fun _ => Step.emits_flatMap.2 fun c _ => emits_childSteps hd _ s c
  exact Rule.forall_mem_walk_of_emits hrule _ root f hf

end Declarations.Python

namespace Uses.Python

theorem imports_stand (hd : d.IsNumbered) {scope : Option String} {p : Place} :
    ∀ r ∈ imports d scope p, r.StandsIn d.lineTotal := by
  intro r hr
  obtain ⟨c, -, hr⟩ := List.mem_filterMap.1 hr
  obtain ⟨module, -, rfl⟩ := Option.map_eq_some_iff.1 hr
  exact standsIn_reference_from hd

theorem importsFrom_stand (hd : d.IsNumbered) {scope : Option String} {p : Place} :
    ∀ r ∈ importsFrom d scope p, r.StandsIn d.lineTotal := by
  intro r hr
  obtain ⟨c, -, hr⟩ := List.mem_filterMap.1 hr
  dsimp only at hr
  split at hr
  · cases hr
  · obtain ⟨name, -, rfl⟩ := Option.map_eq_some_iff.1 hr
    exact standsIn_reference_from hd

theorem emits_callSteps (hd : d.IsNumbered) (s : Scope) (p : Place) :
    Step.Emits (Reference.StandsIn d.lineTotal) (callSteps d s p) := by
  unfold callSteps
  split
  · exact Step.emits_nil
  · exact Step.emits_emit_cons.2 ⟨standsIn_reference hd, Step.emits_visit? _ _⟩

theorem emits_namedOrCalled? (hd : d.IsNumbered) (s : Scope) (p : Place) :
    ∀ steps ∈ namedOrCalled? d s p, Step.Emits (Reference.StandsIn d.lineTotal) steps := by
  intro steps hsteps
  unfold namedOrCalled? at hsteps
  split at hsteps
  · cases hsteps
    exact Step.emits_emit_cons.2 ⟨standsIn_reference hd, Step.emits_nil⟩
  · cases hsteps
    exact Step.emits_emit_cons.2 ⟨standsIn_reference hd, Step.emits_nil⟩
  · cases hsteps
    exact emits_callSteps hd s p
  · cases hsteps

theorem emits_decoratorSteps (hd : d.IsNumbered) (s : Scope) (p : Place) :
    Step.Emits (Reference.StandsIn d.lineTotal) (decoratorSteps d s p) := by
  refine Step.emits_flatMap.2 fun decorator _ => Step.emits_flatMap.2 fun c _ => ?_
  exact Step.emits_getD.2 ⟨emits_namedOrCalled? hd s c, fun _ => Step.emits_nil⟩

theorem bases_stand (hd : d.IsNumbered) {owner : Option String} {p : Place} :
    ∀ r ∈ bases d owner p, r.StandsIn d.lineTotal := by
  intro r hr
  obtain ⟨c, -, hr⟩ := List.mem_filterMap.1 hr
  obtain ⟨-, hr⟩ := Option.ite_none_left_eq_some.1 hr
  cases hr
  exact standsIn_reference hd

theorem emits_definitionSteps (hd : d.IsNumbered) (s : Scope) (p : Place) :
    Step.Emits (Reference.StandsIn d.lineTotal) (definitionSteps d s p) := by
  simp only [definitionSteps]
  refine Step.emits_append.2 ⟨?_, by simp⟩
  split
  · exact Step.emits_visitAll _ _
  · exact Step.emits_emitAll.2 (bases_stand hd)

theorem emits_raiseSteps (hd : d.IsNumbered) (s : Scope) (p : Place) :
    Step.Emits (Reference.StandsIn d.lineTotal) (raiseSteps d s p) := by
  unfold raiseSteps
  split
  · exact Step.emits_nil
  · refine Step.emits_append.2 ⟨?_, Step.emits_flatMap.2 fun c _ => ?_⟩
    · exact Step.emits_getD.2 ⟨emits_namedOrCalled? hd s _, fun _ => by simp⟩
    · split
      · exact emits_callSteps hd s c
      · simp

theorem emits_exceptSteps (s : Scope) (p : Place) :
    Step.Emits (Reference.StandsIn d.lineTotal) (exceptSteps s p) := by
  intro r hr
  obtain ⟨c, -, hr⟩ := List.mem_map.1 hr
  split at hr <;> cases hr

theorem emits_childSteps (hd : d.IsNumbered) (s : Scope) (c : Place) :
    Step.Emits (Reference.StandsIn d.lineTotal) (childSteps d s c) := by
  unfold childSteps
  split
  · exact Step.emits_emitAll.2 (imports_stand hd)
  · exact Step.emits_emitAll.2 (importsFrom_stand hd)
  · exact emits_callSteps hd s c
  · refine Step.emits_append.2 ⟨emits_decoratorSteps hd s c, ?_⟩
    refine Step.emits_getD.2 ⟨fun steps hsteps => ?_, fun _ => Step.emits_nil⟩
    obtain ⟨p, -, rfl⟩ := Option.map_eq_some_iff.1 hsteps
    exact emits_definitionSteps hd s p
  · exact emits_definitionSteps hd s c
  · exact emits_definitionSteps hd s c
  · exact emits_raiseSteps hd s c
  · exact emits_exceptSteps s c
  · simp
  · simp

theorem emits_typeHintSteps (hd : d.IsNumbered) (s : Scope) (p : Place) :
    Step.Emits (Reference.StandsIn d.lineTotal) (typeHintSteps d s p) := by
  simp only [typeHintSteps]
  split
  · split
    · exact Step.emits_nil
    · exact Step.emits_emit_cons.2 ⟨standsIn_reference hd, Step.emits_nil⟩
  · exact Step.emits_emit_cons.2 ⟨standsIn_reference hd, Step.emits_nil⟩
  · intro r hr
    obtain ⟨name, -, hr⟩ := List.mem_map.1 hr
    cases hr
    exact standsIn_reference hd
  · exact Step.emits_visitAll _ _

theorem emits_caughtSteps (hd : d.IsNumbered) (s : Scope) (p : Place) :
    Step.Emits (Reference.StandsIn d.lineTotal) (caughtSteps d s p) := by
  unfold caughtSteps
  split
  · exact Step.emits_emit_cons.2 ⟨standsIn_reference hd, Step.emits_nil⟩
  · exact Step.emits_emit_cons.2 ⟨standsIn_reference hd, Step.emits_nil⟩
  all_goals simp

theorem emits_rule (hd : d.IsNumbered) (task : Task) (p : Place) :
    Step.Emits (Reference.StandsIn d.lineTotal) (rule d task p) := by
  cases task with
  | inside s =>
      rw [rule]
      exact Step.emits_ite_nil.2 fun _ => Step.emits_flatMap.2 fun c _ => emits_childSteps hd s c
  | typeHint s =>
      rw [rule]
      refine Step.emits_ite_nil.2 fun _ => ?_
      exact emits_typeHintSteps hd s p
  | caught s =>
      rw [rule]
      refine Step.emits_ite_nil.2 fun _ => ?_
      exact emits_caughtSteps hd s p

theorem references_stand (hd : d.IsNumbered) (root : Place) :
    ∀ r ∈ references d root, r.StandsIn d.lineTotal :=
  Rule.forall_mem_walk_of_emits (emits_rule hd) _ root

end Uses.Python

end

/-! ## Lines of Ruby

Symbols and references of Ruby stand on the lines of their places. -/

section

open Document (standsIn_symbol standsIn_reference standsIn_reference_from)
open SourceIndex.Symbol (forall_standsIn liesIn_symbol)

variable {d : Document} {owner : Option String} {p : Place}

namespace Declarations.Ruby

theorem emits_namespaceSteps (hd : d.IsNumbered) (s : Scope) (kind : SymbolKind) (p : Place) :
    Step.Emits (Symbol.StandsIn d.lineTotal) (namespaceSteps d s kind p) := by
  simp only [namespaceSteps]
  split
  · exact Step.emits_nil
  · exact Step.emits_emit_cons.2 ⟨standsIn_symbol hd, by simp⟩

theorem method?_liesIn {visibility : Visibility} :
    ∀ y ∈ method? d owner visibility p, y.LiesIn d owner p := by
  intro y hy
  obtain ⟨name, -, rfl⟩ := Option.map_eq_some_iff.1 hy
  exact liesIn_symbol rfl

theorem singletonMethod?_liesIn : ∀ y ∈ singletonMethod? d owner p, y.LiesIn d owner p := by
  intro y hy
  obtain ⟨name, -, rfl⟩ := Option.map_eq_some_iff.1 hy
  exact liesIn_symbol rfl

theorem constant?_liesIn : ∀ y ∈ constant? d owner p, y.LiesIn d owner p := by
  intro y hy
  obtain ⟨left, -, rfl⟩ := Option.map_eq_some_iff.1 hy
  exact liesIn_symbol rfl

theorem accessors_lieIn : ∀ y ∈ accessors d owner p, y.LiesIn d owner p := by
  intro y hy
  unfold accessors at hy
  split at hy
  · split at hy
    · obtain ⟨c, -, rfl⟩ := List.mem_map.1 hy
      exact liesIn_symbol rfl
    · cases hy
  · cases hy

theorem emits_statementSteps (hd : d.IsNumbered) (s : Scope) (visibility : Visibility) (c : Place) :
    Step.Emits (Symbol.StandsIn d.lineTotal) (statementSteps d s visibility c) := by
  unfold statementSteps
  split
  · exact emits_namespaceSteps hd s _ c
  · exact emits_namespaceSteps hd s _ c
  · exact Step.emits_emit?.2 (forall_standsIn hd method?_liesIn)
  · exact Step.emits_emit?.2 (forall_standsIn hd singletonMethod?_liesIn)
  · exact Step.emits_emit?.2 (forall_standsIn hd constant?_liesIn)
  · exact Step.emits_emitAll.2 (forall_standsIn hd accessors_lieIn)
  · exact Step.emits_nil

theorem symbols_stand (hd : d.IsNumbered) (root : Place) :
    ∀ y ∈ symbols d root, y.StandsIn d.lineTotal := by
  refine Rule.forall_mem_walk_of_emits (fun s p => ?_) _ root
  exact Step.emits_flatMap.2 fun statement _ => emits_statementSteps hd _ _ _

end Declarations.Ruby

namespace Uses.Ruby

theorem emits_namespaceSteps (hd : d.IsNumbered) (s : Scope) (p : Place) :
    Step.Emits (Reference.StandsIn d.lineTotal) (namespaceSteps d s p) := by
  refine Step.emits_append.2 ⟨Step.emits_emit?.2 fun r hr => ?_, by simp⟩
  obtain ⟨owner, -, hr⟩ := Option.bind_eq_some_iff.1 hr
  obtain ⟨base, -, hr⟩ := Option.bind_eq_some_iff.1 hr
  cases hr
  exact standsIn_reference hd

theorem emits_placeSteps (hd : d.IsNumbered) (s : Scope) (p : Place) :
    Step.Emits (Reference.StandsIn d.lineTotal) (placeSteps d s p) := by
  have hconstant : ∀ r ∈ (constantName? d p).map fun name => d.reference .reference name p s.name,
      r.StandsIn d.lineTotal := by
    intro r hr
    obtain ⟨name, -, rfl⟩ := Option.map_eq_some_iff.1 hr
    exact standsIn_reference hd
  unfold placeSteps
  split
  · simp
  · exact Step.emits_emit?.2 hconstant
  · exact Step.emits_emit?.2 hconstant
  · exact emits_namespaceSteps hd s p
  · exact emits_namespaceSteps hd s p
  all_goals simp

theorem required?_standsIn (hd : d.IsNumbered) {scope : Option String} {p arguments : Place} :
    ∀ r ∈ required? d scope p arguments, r.StandsIn d.lineTotal := by
  intro r hr
  obtain ⟨string, -, hr⟩ := Option.bind_eq_some_iff.1 hr
  obtain ⟨content, -, hr⟩ := Option.bind_eq_some_iff.1 hr
  cases hr
  exact standsIn_reference_from hd

theorem mixins_stand (hd : d.IsNumbered) {scope : Option String} {p arguments : Place} :
    ∀ r ∈ mixins d scope p arguments, r.StandsIn d.lineTotal := by
  intro r hr
  obtain ⟨name, -, rfl⟩ := List.mem_map.1 hr
  exact standsIn_reference hd

theorem imports?_stand (hd : d.IsNumbered) {scope : Option String} {p : Place} {method : String} :
    ∀ rs ∈ imports? d scope p method, ∀ r ∈ rs, r.StandsIn d.lineTotal := by
  have hrequired : ∀ r ∈ ((p.field? "arguments").bind (required? d scope p)).toList,
      r.StandsIn d.lineTotal := by
    intro r hr
    obtain ⟨arguments, -, hr⟩ := Option.bind_eq_some_iff.1 (Option.mem_toList.1 hr)
    exact required?_standsIn hd r hr
  have hmixins : ∀ r ∈ ((p.field? "arguments").map (mixins d scope p)).getD [],
      r.StandsIn d.lineTotal := forall_mem_getD_map fun _ => mixins_stand hd
  intro rs hrs
  simp only [imports?] at hrs
  split at hrs
  · cases hrs
  · split at hrs <;> cases hrs
    · exact hrequired
    · exact hrequired
    · exact hmixins
    · exact hmixins
    · exact hmixins

theorem emits_callSteps (hd : d.IsNumbered) (s : Scope) (p : Place) :
    Step.Emits (Reference.StandsIn d.lineTotal) (callSteps d s p) := by
  unfold callSteps
  split
  · exact Step.emits_nil
  · split
    · rename_i imported himported
      exact Step.emits_emitAll.2 (imports?_stand hd imported himported)
    · refine Step.emits_emit_cons.2 ⟨standsIn_reference hd, ?_⟩
      refine Step.emits_append.2 ⟨Step.emits_append.2 ⟨?_, by simp⟩, by simp⟩
      refine Step.emits_getD.2 ⟨fun steps hsteps => ?_, fun _ => Step.emits_nil⟩
      obtain ⟨receiver, -, rfl⟩ := Option.map_eq_some_iff.1 hsteps
      exact emits_placeSteps hd s.deeper receiver

theorem emits_rule (hd : d.IsNumbered) (task : Task) (p : Place) :
    Step.Emits (Reference.StandsIn d.lineTotal) (rule d task p) := by
  cases task with
  | inside s =>
      rw [rule]
      exact Step.emits_ite_nil.2 fun _ => Step.emits_flatMap.2 fun c _ => emits_placeSteps hd s c
  | definition s =>
      rw [rule]
      refine Step.emits_ite_nil.2 fun _ => ?_
      exact Step.emits_flatMap.2 fun c _ => emits_placeSteps hd s.deeper c
  | call s => exact emits_callSteps hd s p

theorem references_stand (hd : d.IsNumbered) (root : Place) :
    ∀ r ∈ references d root, r.StandsIn d.lineTotal :=
  Rule.forall_mem_walk_of_emits (emits_rule hd) _ root

end Uses.Ruby

end

end SourceIndex
