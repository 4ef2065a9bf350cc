import SourceIndex.Declarations.Rust
import SourceIndex.Proofs.Declarations.Go
import SourceIndex.Proofs.Lines.Standing
import SourceIndex.Proofs.Tree.Emission
import SourceIndex.Uses.Go
import SourceIndex.Uses.Rust

/-!
# Lines of Go and Rust

Symbols and references of Go and Rust stand on the lines of their places.
-/

namespace SourceIndex

open Document (standsIn_symbol standsIn_reference standsIn_reference_from)

variable {d : Document}

/-! ## Go -/

namespace Declarations.Go

theorem symbols_stand (hd : d.IsNumbered) (root : Place) :
    ∀ y ∈ symbols d root, y.StandsIn d.lineTotal := by
  intro y hy
  obtain ⟨p, name, kind, details, rfl, -⟩ := symbols_declared root y hy
  exact standsIn_symbol hd

end Declarations.Go

namespace Uses.Go

theorem emits_importSteps (hd : d.IsNumbered) (scope : Option String) (p : Place) :
    Step.Emits (Reference.StandsIn d.lineTotal) (importSteps d scope p) := by
  refine Step.emits_flatMap.2 fun c _ => ?_
  split
  · refine Step.emits_emit?.2 fun r hr => ?_
    obtain ⟨path, -, rfl⟩ := Option.map_eq_some_iff.1 hr
    exact standsIn_reference_from hd
  · simp
  · refine Step.emits_emit_cons.2 ⟨?_, Step.emits_nil⟩
    exact standsIn_reference_from hd
  · simp

theorem emits_childSteps (hd : d.IsNumbered) (s : Scope) (c : Place) :
    Step.Emits (Reference.StandsIn d.lineTotal) (childSteps d s c) := by
  unfold childSteps
  split
  · exact emits_importSteps hd s.name c
  · unfold callSteps
    split <;> simp [standsIn_reference hd]
  all_goals simp

theorem emits_rule (hd : d.IsNumbered) (task : Task) (p : Place) :
    Step.Emits (Reference.StandsIn d.lineTotal) (rule d task p) := by
  cases task with
  | inside s =>
      rw [rule]
      exact Step.emits_ite_nil.2 fun _ => Step.emits_flatMap.2 fun c _ => emits_childSteps hd s c
  | imports scope => exact emits_importSteps hd scope p

theorem embedded_stand (hd : d.IsNumbered) (owner : String) (type : Place) :
    ∀ r ∈ embedded d owner type, r.StandsIn d.lineTotal := by
  intro r hr
  unfold embedded at hr
  split at hr
  · obtain ⟨f, -, hr⟩ := List.mem_filterMap.1 hr
    obtain ⟨t, -, rfl⟩ := Option.map_eq_some_iff.1 hr
    exact standsIn_reference hd
  · obtain ⟨e, -, rfl⟩ := List.mem_map.1 hr
    exact standsIn_reference hd
  · cases hr

theorem references_stand (hd : d.IsNumbered) (root : Place) :
    ∀ r ∈ references d root, r.StandsIn d.lineTotal := by
  intro r hr
  rcases List.mem_append.1 hr with hr | hr
  · exact Rule.forall_mem_walk_of_emits (emits_rule hd) _ root r hr
  · obtain ⟨declaration, -, hr⟩ := List.mem_flatMap.1 hr
    obtain ⟨spec, -, hr⟩ := List.mem_flatMap.1 hr
    split at hr
    · exact embedded_stand hd _ _ r hr
    · cases hr

end Uses.Go

/-! ## Rust -/

namespace Declarations.Rust

theorem function?_standsIn (hd : d.IsNumbered) {owner : Option String} {kind : SymbolKind}
    {p : Place} : ∀ y ∈ function? d owner kind p, y.StandsIn d.lineTotal := by
  intro y hy
  obtain ⟨name, -, hy⟩ := Option.bind_eq_some_iff.1 hy
  cases hy
  exact standsIn_symbol hd

theorem requiredMethod?_standsIn (hd : d.IsNumbered) {owner : String} {p : Place} :
    ∀ y ∈ requiredMethod? d owner p, y.StandsIn d.lineTotal := by
  intro y hy
  obtain ⟨name, -, hy⟩ := Option.bind_eq_some_iff.1 hy
  cases hy
  exact standsIn_symbol hd

theorem field?_standsIn (hd : d.IsNumbered) {owner : String} {p : Place} :
    ∀ y ∈ field? d owner p, y.StandsIn d.lineTotal := by
  intro y hy
  obtain ⟨name, -, hy⟩ := Option.bind_eq_some_iff.1 hy
  cases hy
  exact standsIn_symbol hd

theorem structSymbols_stand (hd : d.IsNumbered) {owner : Option String} {p : Place} :
    ∀ y ∈ structSymbols d owner p, y.StandsIn d.lineTotal := by
  intro y hy
  simp only [structSymbols] at hy
  split at hy
  · cases hy
  · rcases List.mem_cons.1 hy with rfl | hy
    · exact standsIn_symbol hd
    · obtain ⟨c, -, hy⟩ := List.mem_filterMap.1 hy
      exact field?_standsIn hd y hy

theorem enumSymbols_stand (hd : d.IsNumbered) {owner : Option String} {p : Place} :
    ∀ y ∈ enumSymbols d owner p, y.StandsIn d.lineTotal := by
  intro y hy
  simp only [enumSymbols] at hy
  split at hy
  · cases hy
  · rcases List.mem_cons.1 hy with rfl | hy
    · exact standsIn_symbol hd
    · obtain ⟨c, -, hy⟩ := List.mem_filterMap.1 hy
      obtain ⟨variant, -, rfl⟩ := Option.map_eq_some_iff.1 hy
      exact standsIn_symbol hd

theorem traitSymbols_stand (hd : d.IsNumbered) {owner : Option String} {p : Place} :
    ∀ y ∈ traitSymbols d owner p, y.StandsIn d.lineTotal := by
  intro y hy
  simp only [traitSymbols] at hy
  split at hy
  · cases hy
  · rcases List.mem_cons.1 hy with rfl | hy
    · exact standsIn_symbol hd
    · obtain ⟨c, -, hy⟩ := List.mem_filterMap.1 hy
      split at hy
      · exact function?_standsIn hd y hy
      · exact requiredMethod?_standsIn hd y hy
      · cases hy

theorem typeAlias?_standsIn (hd : d.IsNumbered) {owner : Option String} {p : Place} :
    ∀ y ∈ typeAlias? d owner p, y.StandsIn d.lineTotal := by
  intro y hy
  obtain ⟨name, -, hy⟩ := Option.bind_eq_some_iff.1 hy
  cases hy
  exact standsIn_symbol hd

theorem value?_standsIn (hd : d.IsNumbered) {owner : Option String} {keyword : String}
    {kind : SymbolKind} {p : Place} :
    ∀ y ∈ value? d owner keyword kind p, y.StandsIn d.lineTotal := by
  intro y hy
  obtain ⟨name, -, hy⟩ := Option.bind_eq_some_iff.1 hy
  cases hy
  exact standsIn_symbol hd

theorem macroSymbol?_standsIn (hd : d.IsNumbered) {owner : Option String} {p : Place} :
    ∀ y ∈ macroSymbol? d owner p, y.StandsIn d.lineTotal := by
  intro y hy
  obtain ⟨name, -, hy⟩ := Option.bind_eq_some_iff.1 hy
  cases hy
  exact standsIn_symbol hd

theorem implSymbols_stand (hd : d.IsNumbered) {p : Place} :
    ∀ y ∈ implSymbols d p, y.StandsIn d.lineTotal := by
  intro y hy
  unfold implSymbols at hy
  split at hy
  · cases hy
  · obtain ⟨c, -, hy⟩ := List.mem_filterMap.1 hy
    split at hy
    · exact function?_standsIn hd y hy
    · exact typeAlias?_standsIn hd y hy
    · exact value?_standsIn hd y hy
    · cases hy

theorem emits_moduleSteps (hd : d.IsNumbered) (s : Scope) (p : Place) :
    Step.Emits (Symbol.StandsIn d.lineTotal) (moduleSteps d s p) := by
  simp only [moduleSteps]
  split
  · exact Step.emits_nil
  · exact Step.emits_emit_cons.2 ⟨standsIn_symbol hd, Step.emits_visit? _ _⟩

theorem emits_childSteps (hd : d.IsNumbered) (s : Scope) (c : Place) :
    Step.Emits (Symbol.StandsIn d.lineTotal) (childSteps d s c) := by
  unfold childSteps
  split
  · exact Step.emits_emit?.2 (function?_standsIn hd)
  · exact Step.emits_emitAll.2 (structSymbols_stand hd)
  · exact Step.emits_emitAll.2 (structSymbols_stand hd)
  · exact Step.emits_emitAll.2 (enumSymbols_stand hd)
  · exact Step.emits_emitAll.2 (traitSymbols_stand hd)
  · exact Step.emits_emitAll.2 (implSymbols_stand hd)
  · exact emits_moduleSteps hd s c
  · exact Step.emits_emit?.2 (typeAlias?_standsIn hd)
  · exact Step.emits_emit?.2 (value?_standsIn hd)
  · exact Step.emits_emit?.2 (value?_standsIn hd)
  · exact Step.emits_emit?.2 (macroSymbol?_standsIn hd)
  · exact Step.emits_nil

theorem symbols_stand (hd : d.IsNumbered) (root : Place) :
    ∀ y ∈ symbols d root, y.StandsIn d.lineTotal := by
  refine Rule.forall_mem_walk_of_emits (fun s p => ?_) _ root
  unfold rule
  exact Step.emits_ite_nil.2 fun _ => Step.emits_flatMap.2 fun c _ => emits_childSteps hd s c

end Declarations.Rust

namespace Uses.Rust

theorem imports_stand (hd : d.IsNumbered) {scope : Option String} {p : Place} :
    ∀ r ∈ imports d scope p, r.StandsIn d.lineTotal := by
  intro r hr
  obtain ⟨⟨path, name⟩, -, rfl⟩ := List.mem_map.1 hr
  exact standsIn_reference_from hd

theorem emits_receiverSteps (s : Scope) (f : Place) :
    Step.Emits (Reference.StandsIn d.lineTotal) (receiverSteps s f) := by
  unfold receiverSteps
  split
  · split <;> simp
  · exact Step.emits_nil

theorem emits_callSteps (hd : d.IsNumbered) (s : Scope) (p : Place) :
    Step.Emits (Reference.StandsIn d.lineTotal) (callSteps d s p) := by
  unfold callSteps
  split
  · exact Step.emits_nil
  · refine Step.emits_emit_cons.2 ⟨standsIn_reference hd, ?_⟩
    exact Step.emits_append.2 ⟨emits_receiverSteps s _, Step.emits_visit? _ _⟩

theorem macroCall?_standsIn (hd : d.IsNumbered) {scope : Option String} {p : Place} :
    ∀ r ∈ macroCall? d scope p, r.StandsIn d.lineTotal := by
  intro r hr
  obtain ⟨m, -, rfl⟩ := Option.map_eq_some_iff.1 hr
  exact standsIn_reference hd

theorem implemented?_standsIn (hd : d.IsNumbered) {p : Place} :
    ∀ r ∈ implemented? d p, r.StandsIn d.lineTotal := by
  intro r hr
  obtain ⟨type, -, hr⟩ := Option.bind_eq_some_iff.1 hr
  obtain ⟨traitNode, -, hr⟩ := Option.bind_eq_some_iff.1 hr
  cases hr
  exact standsIn_reference hd

theorem supertraits_stand (hd : d.IsNumbered) {p : Place} :
    ∀ r ∈ supertraits d p, r.StandsIn d.lineTotal := by
  intro r hr
  unfold supertraits at hr
  split at hr
  · obtain ⟨c, -, rfl⟩ := List.mem_map.1 hr
    exact standsIn_reference hd
  · cases hr

theorem derives_stand (hd : d.IsNumbered) {p : Place} :
    ∀ r ∈ derives d p, r.StandsIn d.lineTotal := by
  intro r hr
  unfold derives at hr
  split at hr
  · obtain ⟨t, -, rfl⟩ := List.mem_map.1 hr
    exact standsIn_reference hd
  · cases hr

theorem emits_childSteps (hd : d.IsNumbered) (s : Scope) (c : Place) :
    Step.Emits (Reference.StandsIn d.lineTotal) (childSteps d s c) := by
  have hderives : Step.Emits (Reference.StandsIn d.lineTotal)
      (Step.emitAll (derives d c) ++ [.visit (Task.inside s.deeper) c]) :=
    Step.emits_append.2 ⟨Step.emits_emitAll.2 (derives_stand hd), by simp⟩
  unfold childSteps
  split
  · exact Step.emits_emitAll.2 (imports_stand hd)
  · exact emits_callSteps hd s c
  · exact Step.emits_emit?.2 (macroCall?_standsIn hd)
  · simp
  · exact Step.emits_append.2 ⟨Step.emits_emit?.2 (implemented?_standsIn hd), by simp⟩
  · exact Step.emits_append.2 ⟨Step.emits_emitAll.2 (supertraits_stand hd), by simp⟩
  · exact hderives
  · exact hderives
  · exact hderives
  · simp

theorem references_stand (hd : d.IsNumbered) (root : Place) :
    ∀ r ∈ references d root, r.StandsIn d.lineTotal := by
  refine Rule.forall_mem_walk_of_emits (fun task p => ?_) _ root
  cases task with
  | inside s =>
      rw [rule]
      exact Step.emits_ite_nil.2 fun _ => Step.emits_flatMap.2 fun c _ => emits_childSteps hd s c
  | call s => exact emits_callSteps hd s p

end Uses.Rust

end SourceIndex
