import SourceIndex.Backends
import SourceIndex.Proofs.Lines.Markup
import SourceIndex.Proofs.Profile
import SourceIndex.Proofs.Record.Kind

/-!
# Kinds of uses

Every use of a name has one of the listed kinds, whatever its language: none is known by its word
alone.
-/

namespace SourceIndex

/-- Is the kind of a reference one of the listed kinds? -/
def Reference.IsListed (r : Reference) : Prop :=
  r.kind.isOther = false

/-- A choice between two listed kinds. -/
theorem ReferenceKind.isOther_ite {c : Prop} [Decidable c] {k k' : ReferenceKind}
    (h : k.isOther = false) (h' : k'.isOther = false) : (if c then k else k').isOther = false := by
  split
  · exact h
  · exact h'

variable {d : Document}

namespace Uses.Java

variable {s : Scope} {scope : Option String} {owner : String} {p : Place}

theorem import?_listed : ∀ r ∈ import? d scope p, r.IsListed := by
  refine forall_mem_map fun q => ?_
  dsimp only
  split <;> rfl

theorem invocationSteps_listed : Step.Emits Reference.IsListed (invocationSteps d s p) := by
  simp only [invocationSteps]
  split
  · exact Step.emits_nil
  · refine Step.emits_emit_cons.2 ⟨rfl, Step.emits_append.2 ⟨?_, Step.emits_visit? _ _⟩⟩
    split
    · split <;> exact Step.emits_visit_cons.2 Step.emits_nil
    · exact Step.emits_nil

theorem creationSteps_listed : Step.Emits Reference.IsListed (creationSteps d s p) := by
  refine Step.emits_append.2 ⟨Step.emits_append.2 ⟨?_, ?_⟩, ?_⟩
  · exact Step.emits_emit?.2 (forall_mem_map fun _ => rfl)
  · exact Step.emits_visit? _ _
  · exact Step.emits_visit? _ _

theorem heritage_listed : ∀ r ∈ heritage d owner p, r.IsListed := by
  simp only [heritage, List.forall_mem_append, List.forall_mem_map]
  exact ⟨⟨fun _ _ => rfl, fun _ _ => rfl⟩, fun _ _ => rfl⟩

theorem childSteps_listed : Step.Emits Reference.IsListed (childSteps d s p) := by
  unfold childSteps
  split
  · exact Step.emits_emit?.2 import?_listed
  · exact invocationSteps_listed
  · exact creationSteps_listed
  · exact Step.emits_visit_cons.2 Step.emits_nil
  · exact Step.emits_visit_cons.2 Step.emits_nil
  · split
    · refine Step.emits_append.2 ⟨?_, Step.emits_visit_cons.2 Step.emits_nil⟩
      exact Step.emits_emitAll.2 (forall_mem_getD_map fun _ => heritage_listed)
    · exact Step.emits_visit_cons.2 Step.emits_nil

theorem references_listed (root : Place) : ∀ r ∈ references d root, r.IsListed := by
  refine Rule.forall_mem_walk_of_emits (fun task p => ?_) _ root
  cases task with
  | inside s =>
      rw [rule]
      exact Step.emits_ite_nil.2 fun _ => Step.emits_flatMap.2 fun _ _ => childSteps_listed
  | invocation s => exact invocationSteps_listed

end Uses.Java

namespace Uses.Apex

theorem textReferences_listed {text : List Char} : ∀ r ∈ textReferences text, r.IsListed := by
  simp only [textReferences, List.forall_mem_append, List.forall_mem_map]
  exact ⟨⟨fun _ _ => rfl, fun _ _ => rfl⟩, fun _ _ => rfl⟩

theorem references_listed (parse : Parser) (d : Document) (root : Option Place) :
    ∀ r ∈ references parse d root, r.IsListed :=
  List.forall_mem_append.2
    ⟨forall_mem_getD_map fun _ => Java.references_listed _, textReferences_listed⟩

end Uses.Apex

namespace Uses.Python

variable {s : Scope} {scope : Option String} {p : Place}

theorem imports_listed : ∀ r ∈ imports d scope p, r.IsListed :=
  forall_mem_filterMap fun _ => forall_mem_map fun _ => rfl

theorem importsFrom_listed : ∀ r ∈ importsFrom d scope p, r.IsListed := by
  refine forall_mem_filterMap fun c => ?_
  dsimp only
  split
  · exact forall_mem_none
  · exact forall_mem_map fun _ => rfl

theorem callSteps_listed : Step.Emits Reference.IsListed (callSteps d s p) := by
  unfold callSteps
  split
  · exact Step.emits_nil
  · exact Step.emits_emit_cons.2 ⟨rfl, Step.emits_visit? _ _⟩

theorem namedOrCalled?_listed :
    ∀ steps ∈ namedOrCalled? d s p, Step.Emits Reference.IsListed steps := by
  have hnamed : Step.Emits (τ := Task) Reference.IsListed
      [.emit (d.reference .call (d.text p) p s.name)] :=
    Step.emits_emit_cons.2 ⟨rfl, Step.emits_nil⟩
  intro steps hsteps
  unfold namedOrCalled? at hsteps
  split at hsteps
  · cases hsteps
    exact hnamed
  · cases hsteps
    exact hnamed
  · cases hsteps
    exact callSteps_listed
  · cases hsteps

theorem decoratorSteps_listed : Step.Emits Reference.IsListed (decoratorSteps d s p) := by
  refine Step.emits_flatMap.2 fun _ _ => Step.emits_flatMap.2 fun _ _ => ?_
  exact Step.emits_getD.2 ⟨namedOrCalled?_listed, fun _ => Step.emits_nil⟩

theorem bases_listed {owner : Option String} : ∀ r ∈ bases d owner p, r.IsListed := by
  refine forall_mem_filterMap fun c r hr => ?_
  obtain ⟨-, hr⟩ := Option.ite_none_left_eq_some.1 hr
  cases hr
  rfl

theorem definitionSteps_listed : Step.Emits Reference.IsListed (definitionSteps d s p) := by
  refine Step.emits_append.2 ⟨?_, Step.emits_visit_cons.2 Step.emits_nil⟩
  split
  · exact Step.emits_visitAll _ _
  · exact Step.emits_emitAll.2 bases_listed

theorem raiseSteps_listed : Step.Emits Reference.IsListed (raiseSteps d s p) := by
  unfold raiseSteps
  split
  · exact Step.emits_nil
  · refine Step.emits_append.2 ⟨Step.emits_getD.2 ⟨namedOrCalled?_listed, fun _ => ?_⟩, ?_⟩
    · exact Step.emits_visit_cons.2 Step.emits_nil
    · refine Step.emits_flatMap.2 fun c _ => ?_
      split
      · exact callSteps_listed
      · exact Step.emits_visit_cons.2 Step.emits_nil

theorem exceptSteps_listed : Step.Emits Reference.IsListed (exceptSteps s p) := by
  intro r hr
  obtain ⟨c, -, hr⟩ := List.mem_map.1 hr
  split at hr <;> cases hr

theorem childSteps_listed : Step.Emits Reference.IsListed (childSteps d s p) := by
  unfold childSteps
  split
  · exact Step.emits_emitAll.2 imports_listed
  · exact Step.emits_emitAll.2 importsFrom_listed
  · exact callSteps_listed
  · refine Step.emits_append.2 ⟨decoratorSteps_listed, Step.emits_getD.2 ⟨?_, fun _ => ?_⟩⟩
    · exact forall_mem_map fun _ => definitionSteps_listed
    · exact Step.emits_nil
  · exact definitionSteps_listed
  · exact definitionSteps_listed
  · exact raiseSteps_listed
  · exact exceptSteps_listed
  · exact Step.emits_append.2 ⟨Step.emits_visit? _ _, Step.emits_visit_cons.2 Step.emits_nil⟩
  · exact Step.emits_visit_cons.2 Step.emits_nil

theorem typeHintSteps_listed : Step.Emits Reference.IsListed (typeHintSteps d s p) := by
  have htype : ∀ name, Step.Emits (τ := Task) Reference.IsListed
      [.emit (d.reference .typeRef name p s.name)] :=
    fun _ => Step.emits_emit_cons.2 ⟨rfl, Step.emits_nil⟩
  simp only [typeHintSteps]
  split
  · split
    · exact Step.emits_nil
    · exact htype _
  · exact htype _
  · intro r hr
    obtain ⟨name, -, hr⟩ := List.mem_map.1 hr
    cases hr
    rfl
  · exact Step.emits_visitAll _ _

theorem caughtSteps_listed : Step.Emits Reference.IsListed (caughtSteps d s p) := by
  unfold caughtSteps
  split
  · exact Step.emits_emit_cons.2 ⟨rfl, Step.emits_nil⟩
  · exact Step.emits_emit_cons.2 ⟨rfl, Step.emits_nil⟩
  · exact Step.emits_visitAll _ _
  · exact Step.emits_visitAll _ _
  · exact Step.emits_visitAll _ _
  · exact Step.emits_visitAll _ _
  · exact Step.emits_nil

theorem references_listed (root : Place) : ∀ r ∈ references d root, r.IsListed := by
  refine Rule.forall_mem_walk_of_emits (fun task p => ?_) _ root
  cases task with
  | inside s =>
      rw [rule]
      exact Step.emits_ite_nil.2 fun _ => Step.emits_flatMap.2 fun _ _ => childSteps_listed
  | typeHint s =>
      rw [rule]
      exact Step.emits_ite_nil.2 fun _ => typeHintSteps_listed
  | caught s =>
      rw [rule]
      exact Step.emits_ite_nil.2 fun _ => caughtSteps_listed

end Uses.Python

namespace Uses.ECMAScript

variable {s : Scope} {scope : Option String} {owner : String} {p : Place}

theorem imports_listed : ∀ r ∈ imports d scope p, r.IsListed := by
  unfold imports
  split
  · exact List.forall_mem_nil _
  · dsimp only
    split
    · exact List.forall_mem_singleton.2 rfl
    · exact List.forall_mem_map.2 fun _ _ => rfl

theorem calleeSteps_listed : Step.Emits Reference.IsListed (calleeSteps s p) := by
  unfold calleeSteps
  split
  · split
    · split <;> exact Step.emits_visit_cons.2 Step.emits_nil
    · exact Step.emits_nil
  · exact Step.emits_nil
  · exact Step.emits_visit_cons.2 Step.emits_nil

theorem callSteps_listed : Step.Emits Reference.IsListed (callSteps d s p) := by
  unfold callSteps
  split
  · exact Step.emits_nil
  · split
    · exact Step.emits_emit_cons.2 ⟨rfl, Step.emits_nil⟩
    · refine Step.emits_emit_cons.2 ⟨rfl, Step.emits_append.2 ⟨calleeSteps_listed, ?_⟩⟩
      exact Step.emits_visit? _ _

theorem creationSteps_listed : Step.Emits Reference.IsListed (creationSteps d s p) :=
  Step.emits_append.2
    ⟨Step.emits_emit?.2 (forall_mem_map fun _ => rfl), Step.emits_visit? _ _⟩

theorem classHeritage_listed : ∀ r ∈ classHeritage d owner p, r.IsListed := by
  unfold classHeritage
  split
  · exact List.forall_mem_nil _
  · split
    · refine List.forall_mem_flatMap.2 fun c _ => ?_
      split
      · exact List.forall_mem_map.2 fun _ _ => rfl
      · exact List.forall_mem_map.2 fun _ _ => rfl
      · exact List.forall_mem_nil _
    · exact List.forall_mem_map.2 fun _ _ => rfl

theorem interfaceHeritage_listed : ∀ r ∈ interfaceHeritage d owner p, r.IsListed := by
  unfold interfaceHeritage
  split
  · exact List.forall_mem_nil _
  · exact List.forall_mem_map.2 fun _ _ => rfl

theorem scopeStep_listed : Step.Emits Reference.IsListed [scopeStep d s p] :=
  Step.emits_visit_cons.2 Step.emits_nil

theorem childSteps_listed : Step.Emits Reference.IsListed (childSteps d s p) := by
  have hclass : Step.Emits (τ := Task) Reference.IsListed
      (Step.emitAll (((namedScope d s p).map fun owner => classHeritage d owner p).getD [])) :=
    Step.emits_emitAll.2 (forall_mem_getD_map fun _ => classHeritage_listed)
  unfold childSteps
  split
  · exact Step.emits_emitAll.2 imports_listed
  · exact callSteps_listed
  · exact creationSteps_listed
  · exact scopeStep_listed
  · exact scopeStep_listed
  · exact scopeStep_listed
  · exact Step.emits_append.2 ⟨hclass, scopeStep_listed⟩
  · exact Step.emits_append.2 ⟨hclass, scopeStep_listed⟩
  · exact Step.emits_append.2 ⟨hclass, scopeStep_listed⟩
  · refine Step.emits_append.2 ⟨Step.emits_emitAll.2 ?_, scopeStep_listed⟩
    exact forall_mem_getD_map fun _ => interfaceHeritage_listed
  · split
    · exact scopeStep_listed
    · exact Step.emits_visit_cons.2 Step.emits_nil
  · exact Step.emits_visit_cons.2 Step.emits_nil

theorem references_listed (root : Place) : ∀ r ∈ references d root, r.IsListed := by
  refine Rule.forall_mem_walk_of_emits (fun task p => ?_) _ root
  cases task with
  | inside s =>
      rw [rule]
      exact Step.emits_ite_nil.2 fun _ => Step.emits_flatMap.2 fun _ _ => childSteps_listed
  | call s => exact callSteps_listed

end Uses.ECMAScript

namespace Uses.Go

variable {s : Scope} {scope : Option String} {p : Place}

theorem importSteps_listed : Step.Emits Reference.IsListed (importSteps d scope p) := by
  refine Step.emits_flatMap.2 fun c _ => ?_
  split
  · exact Step.emits_emit?.2 (forall_mem_map fun _ => rfl)
  · exact Step.emits_visit_cons.2 Step.emits_nil
  · exact Step.emits_emit_cons.2 ⟨rfl, Step.emits_nil⟩
  · exact Step.emits_nil

theorem callSteps_listed : Step.Emits Reference.IsListed (callSteps d s p) := by
  unfold callSteps
  split
  · exact Step.emits_nil
  · exact Step.emits_emit_cons.2 ⟨rfl, Step.emits_visit? _ _⟩

theorem childSteps_listed : Step.Emits Reference.IsListed (childSteps d s p) := by
  unfold childSteps
  split
  · exact importSteps_listed
  · exact callSteps_listed
  · exact Step.emits_visit_cons.2 Step.emits_nil
  · exact Step.emits_visit_cons.2 Step.emits_nil
  · exact Step.emits_visit_cons.2 Step.emits_nil

theorem embedded_listed {owner : String} : ∀ r ∈ embedded d owner p, r.IsListed := by
  unfold embedded
  split
  · exact forall_mem_filterMap fun _ => forall_mem_map fun _ => rfl
  · exact List.forall_mem_map.2 fun _ _ => rfl
  · exact List.forall_mem_nil _

theorem embeddings_listed (root : Place) : ∀ r ∈ embeddings d root, r.IsListed := by
  refine List.forall_mem_flatMap.2 fun _ _ => List.forall_mem_flatMap.2 fun _ _ => ?_
  split
  · exact embedded_listed
  · exact List.forall_mem_nil _

theorem references_listed (root : Place) : ∀ r ∈ references d root, r.IsListed := by
  refine List.forall_mem_append.2 ⟨?_, embeddings_listed root⟩
  refine Rule.forall_mem_walk_of_emits (fun task p => ?_) _ root
  cases task with
  | inside s =>
      rw [rule]
      exact Step.emits_ite_nil.2 fun _ => Step.emits_flatMap.2 fun _ _ => childSteps_listed
  | imports scope => exact importSteps_listed

end Uses.Go

namespace Uses.Rust

variable {s : Scope} {scope : Option String} {p : Place}

theorem receiverSteps_listed : Step.Emits Reference.IsListed (receiverSteps s p) := by
  unfold receiverSteps
  split
  · split <;> exact Step.emits_visit_cons.2 Step.emits_nil
  · exact Step.emits_nil

theorem callSteps_listed : Step.Emits Reference.IsListed (callSteps d s p) := by
  unfold callSteps
  split
  · exact Step.emits_nil
  · refine Step.emits_emit_cons.2 ⟨rfl, Step.emits_append.2 ⟨receiverSteps_listed, ?_⟩⟩
    exact Step.emits_visit? _ _

theorem implemented?_listed : ∀ r ∈ implemented? d p, r.IsListed := by
  intro r hr
  obtain ⟨type, -, hr⟩ := Option.bind_eq_some_iff.1 hr
  obtain ⟨traitNode, -, hr⟩ := Option.bind_eq_some_iff.1 hr
  cases hr
  rfl

theorem supertraits_listed : ∀ r ∈ supertraits d p, r.IsListed := by
  unfold supertraits
  split
  · exact List.forall_mem_map.2 fun _ _ => rfl
  · exact List.forall_mem_nil _

theorem derives_listed : ∀ r ∈ derives d p, r.IsListed := by
  unfold derives
  split
  · exact List.forall_mem_map.2 fun _ _ => rfl
  · exact List.forall_mem_nil _

theorem childSteps_listed : Step.Emits Reference.IsListed (childSteps d s p) := by
  have hderives : Step.Emits (τ := Task) Reference.IsListed
      (Step.emitAll (derives d p) ++ [.visit (.inside s.deeper) p]) :=
    Step.emits_append.2
      ⟨Step.emits_emitAll.2 derives_listed, Step.emits_visit_cons.2 Step.emits_nil⟩
  unfold childSteps
  split
  · exact Step.emits_emitAll.2 (List.forall_mem_map.2 fun _ _ => rfl)
  · exact callSteps_listed
  · exact Step.emits_emit?.2 (forall_mem_map fun _ => rfl)
  · exact Step.emits_visit_cons.2 Step.emits_nil
  · refine Step.emits_append.2 ⟨Step.emits_emit?.2 implemented?_listed, ?_⟩
    exact Step.emits_visit_cons.2 Step.emits_nil
  · refine Step.emits_append.2 ⟨Step.emits_emitAll.2 supertraits_listed, ?_⟩
    exact Step.emits_visit_cons.2 Step.emits_nil
  · exact hderives
  · exact hderives
  · exact hderives
  · exact Step.emits_visit_cons.2 Step.emits_nil

theorem references_listed (root : Place) : ∀ r ∈ references d root, r.IsListed := by
  refine Rule.forall_mem_walk_of_emits (fun task p => ?_) _ root
  cases task with
  | inside s =>
      rw [rule]
      exact Step.emits_ite_nil.2 fun _ => Step.emits_flatMap.2 fun _ _ => childSteps_listed
  | call s => exact callSteps_listed

end Uses.Rust

namespace Uses.C

/-- Are the further uses of a dialect of listed kinds? -/
def IsListed (dialect : Dialect) : Prop :=
  ∀ d s p, ∀ steps ∈ dialect d s p, Step.Emits Reference.IsListed steps

variable {s : Scope} {scope : Option String} {p : Place}

theorem include?_listed : ∀ r ∈ include? d scope p, r.IsListed :=
  forall_mem_map fun _ => rfl

theorem callSteps_listed : Step.Emits Reference.IsListed (callSteps d s p) := by
  unfold callSteps
  split
  · exact Step.emits_nil
  · exact Step.emits_emit_cons.2 ⟨rfl, Step.emits_visit? _ _⟩

theorem bases_listed {owner : String} : ∀ r ∈ bases d owner p, r.IsListed := by
  unfold bases
  split
  · exact List.forall_mem_nil _
  · exact List.forall_mem_map.2 fun _ _ => rfl

theorem childSteps_listed : Step.Emits Reference.IsListed (childSteps d s p) := by
  have hrecord : Step.Emits Reference.IsListed
      (Step.emitAll (((namedScope d s p).map fun owner => bases d owner p).getD []) ++
        [.visit (s.enter? (namedScope d s p)) p]) :=
    Step.emits_append.2
      ⟨Step.emits_emitAll.2 (forall_mem_getD_map fun _ => bases_listed),
        Step.emits_visit_cons.2 Step.emits_nil⟩
  unfold childSteps
  split
  · exact Step.emits_emit?.2 include?_listed
  · exact callSteps_listed
  · refine Step.emits_append.2 ⟨Step.emits_emit?.2 (forall_mem_map fun _ => rfl), ?_⟩
    exact Step.emits_visit? _ _
  · exact Step.emits_visit_cons.2 Step.emits_nil
  · exact Step.emits_visit_cons.2 Step.emits_nil
  · exact hrecord
  · exact hrecord
  · exact Step.emits_visit_cons.2 Step.emits_nil

theorem references_listed {dialect : Dialect} (hdialect : IsListed dialect) (root : Place) :
    ∀ r ∈ references d dialect root, r.IsListed := by
  refine Rule.forall_mem_walk_of_emits (fun s p => ?_) _ root
  unfold rule
  refine Step.emits_ite_nil.2 fun _ => Step.emits_flatMap.2 fun c _ => ?_
  exact Step.emits_getD.2 ⟨hdialect d s c, fun _ => childSteps_listed⟩

theorem c_listed : IsListed c :=
  fun _ _ _ => forall_mem_none

end Uses.C

namespace Uses.ObjC

variable {s : Scope} {owner : String} {p : Place}

theorem heritage_listed : ∀ r ∈ heritage d owner p, r.IsListed :=
  List.forall_mem_append.2
    ⟨forall_mem_toList (forall_mem_map fun _ => rfl), List.forall_mem_map.2 fun _ _ => rfl⟩

theorem interfaceSteps_listed : Step.Emits Reference.IsListed (interfaceSteps d s p) := by
  unfold interfaceSteps
  split
  · exact Step.emits_nil
  · refine Step.emits_append.2 ⟨Step.emits_emitAll.2 heritage_listed, ?_⟩
    exact Step.emits_visit_cons.2 Step.emits_nil

theorem dialect_listed : C.IsListed dialect := by
  intro d s p steps hsteps
  unfold dialect at hsteps
  split at hsteps
  · cases hsteps
    refine Step.emits_append.2 ⟨Step.emits_emit?.2 (forall_mem_map fun _ => rfl), ?_⟩
    exact Step.emits_visit_cons.2 Step.emits_nil
  · cases hsteps
    exact Step.emits_emit?.2 (forall_mem_map fun _ => rfl)
  · cases hsteps
    exact Step.emits_emit?.2 C.include?_listed
  · cases hsteps
    exact interfaceSteps_listed
  · cases hsteps
    exact Step.emits_visit_cons.2 Step.emits_nil
  · cases hsteps
    exact Step.emits_visit_cons.2 Step.emits_nil
  · cases hsteps

end Uses.ObjC

namespace Uses.PHP

variable {s : Scope} {scope : Option String} {owner : String} {p : Place}

theorem imports_listed : ∀ r ∈ imports d scope p, r.IsListed :=
  List.forall_mem_map.2 fun _ _ => rfl

theorem traits_listed : ∀ r ∈ traits d scope p, r.IsListed :=
  List.forall_mem_map.2 fun _ _ => rfl

theorem argumentSteps_listed : Step.Emits Reference.IsListed (argumentSteps s p) :=
  Step.emits_visit? _ _

theorem memberCallSteps_listed : Step.Emits Reference.IsListed (memberCallSteps d s p) := by
  simp only [memberCallSteps]
  split
  · exact Step.emits_nil
  · refine Step.emits_emit_cons.2 ⟨rfl, Step.emits_append.2 ⟨?_, argumentSteps_listed⟩⟩
    intro r hr
    obtain ⟨o, -, hr⟩ := List.mem_map.1 hr
    cases hr

theorem scopedCallSteps_listed : Step.Emits Reference.IsListed (scopedCallSteps d s p) := by
  simp only [scopedCallSteps]
  split
  · exact Step.emits_nil
  · exact Step.emits_emit_cons.2 ⟨rfl, argumentSteps_listed⟩

theorem functionCallSteps_listed : Step.Emits Reference.IsListed (functionCallSteps d s p) := by
  simp only [functionCallSteps]
  split
  · exact Step.emits_nil
  · refine Step.emits_append.2 ⟨?_, argumentSteps_listed⟩
    split
    · exact Step.emits_nil
    · exact Step.emits_emit_cons.2 ⟨rfl, Step.emits_nil⟩

theorem creationSteps_listed : Step.Emits Reference.IsListed (creationSteps d s p) :=
  Step.emits_append.2
    ⟨Step.emits_emit?.2 (forall_mem_map fun _ => rfl), argumentSteps_listed⟩

theorem heritage_listed : ∀ r ∈ heritage d owner p, r.IsListed := by
  refine List.forall_mem_flatMap.2 fun c _ => ?_
  dsimp only
  split
  · exact List.forall_mem_map.2 fun _ _ => rfl
  · exact List.forall_mem_map.2 fun _ _ => rfl
  · exact List.forall_mem_nil _

theorem childSteps_listed : Step.Emits Reference.IsListed (childSteps d s p) := by
  simp only [childSteps]
  split
  · exact Step.emits_emitAll.2 imports_listed
  · exact Step.emits_emitAll.2 traits_listed
  · exact memberCallSteps_listed
  · exact memberCallSteps_listed
  · exact memberCallSteps_listed
  · exact scopedCallSteps_listed
  · exact creationSteps_listed
  · exact functionCallSteps_listed
  · exact Step.emits_visit? _ _
  · exact Step.emits_visit_cons.2 Step.emits_nil
  · exact Step.emits_visit_cons.2 Step.emits_nil
  · split
    · refine Step.emits_append.2 ⟨?_, Step.emits_visit_cons.2 Step.emits_nil⟩
      exact Step.emits_emitAll.2 (forall_mem_getD_map fun _ => heritage_listed)
    · exact Step.emits_visit_cons.2 Step.emits_nil

theorem references_listed (root : Place) : ∀ r ∈ references d root, r.IsListed := by
  refine Rule.forall_mem_walk_of_emits (fun task p => ?_) _ root
  cases task with
  | inside s =>
      rw [rule]
      exact Step.emits_ite_nil.2 fun _ => Step.emits_flatMap.2 fun _ _ => childSteps_listed
  | memberCall s => exact memberCallSteps_listed
  | scopedCall s => exact scopedCallSteps_listed
  | functionCall s => exact functionCallSteps_listed

end Uses.PHP

namespace Uses.Ruby

variable {s : Scope} {scope : Option String} {p : Place}

theorem namespaceSteps_listed : Step.Emits Reference.IsListed (namespaceSteps d s p) := by
  refine Step.emits_append.2 ⟨?_, Step.emits_visit_cons.2 Step.emits_nil⟩
  refine Step.emits_emit?.2 fun r hr => ?_
  obtain ⟨owner, -, hr⟩ := Option.bind_eq_some_iff.1 hr
  obtain ⟨base, -, hr⟩ := Option.bind_eq_some_iff.1 hr
  cases hr
  rfl

theorem placeSteps_listed : Step.Emits Reference.IsListed (placeSteps d s p) := by
  unfold placeSteps
  split
  · exact Step.emits_visit_cons.2 Step.emits_nil
  · exact Step.emits_emit?.2 (forall_mem_map fun _ => rfl)
  · exact Step.emits_emit?.2 (forall_mem_map fun _ => rfl)
  · exact namespaceSteps_listed
  · exact namespaceSteps_listed
  · exact Step.emits_visit_cons.2 Step.emits_nil
  · exact Step.emits_visit_cons.2 Step.emits_nil
  · exact Step.emits_visit_cons.2 Step.emits_nil

theorem required?_listed {arguments : Place} : ∀ r ∈ required? d scope p arguments, r.IsListed := by
  intro r hr
  obtain ⟨string, -, hr⟩ := Option.bind_eq_some_iff.1 hr
  obtain ⟨content, -, hr⟩ := Option.bind_eq_some_iff.1 hr
  cases hr
  rfl

theorem imports?_listed {method : String} {imported : List Reference}
    (h : imports? d scope p method = some imported) : ∀ r ∈ imported, r.IsListed := by
  have hrequired : ∀ r ∈ ((p.field? "arguments").bind (required? d scope p)).toList,
      r.IsListed := by
    refine forall_mem_toList fun r hr => ?_
    obtain ⟨arguments, -, hr⟩ := Option.bind_eq_some_iff.1 hr
    exact required?_listed r hr
  have hmixins : ∀ r ∈ ((p.field? "arguments").map (mixins d scope p)).getD [], r.IsListed :=
    forall_mem_getD_map fun _ => List.forall_mem_map.2 fun _ _ => rfl
  simp only [imports?] at h
  split at h
  · cases h
  · split at h
    · exact Option.some.inj h ▸ hrequired
    · exact Option.some.inj h ▸ hrequired
    · exact Option.some.inj h ▸ hmixins
    · exact Option.some.inj h ▸ hmixins
    · exact Option.some.inj h ▸ hmixins
    · cases h

theorem callSteps_listed : Step.Emits Reference.IsListed (callSteps d s p) := by
  unfold callSteps
  split
  · exact Step.emits_nil
  · split
    · exact Step.emits_emitAll.2 (imports?_listed ‹_›)
    · refine Step.emits_emit_cons.2 ⟨rfl, Step.emits_append.2 ⟨Step.emits_append.2 ⟨?_, ?_⟩, ?_⟩⟩
      · exact Step.emits_getD.2 ⟨forall_mem_map fun _ => placeSteps_listed, fun _ => Step.emits_nil⟩
      · exact Step.emits_visit? _ _
      · exact Step.emits_visit? _ _

theorem references_listed (root : Place) : ∀ r ∈ references d root, r.IsListed := by
  refine Rule.forall_mem_walk_of_emits (fun task p => ?_) _ root
  cases task with
  | inside s =>
      rw [rule]
      exact Step.emits_ite_nil.2 fun _ => Step.emits_flatMap.2 fun _ _ => placeSteps_listed
  | definition s =>
      rw [rule]
      exact Step.emits_ite_nil.2 fun _ => Step.emits_flatMap.2 fun _ _ => placeSteps_listed
  | call s => exact callSteps_listed

end Uses.Ruby

namespace Uses.CSharp

variable {s : Scope} {scope : Option String} {owner : String} {p : Place}

theorem directive?_listed : ∀ r ∈ directive? d scope p, r.IsListed :=
  forall_mem_map fun _ => rfl

theorem invocationSteps_listed : Step.Emits Reference.IsListed (invocationSteps d s p) :=
  Step.emits_append.2
    ⟨Step.emits_emit?.2 (forall_mem_map fun _ => rfl), Step.emits_visit_cons.2 Step.emits_nil⟩

theorem creationSteps_listed : Step.Emits Reference.IsListed (creationSteps d s p) := by
  refine Step.emits_append.2 ⟨Step.emits_append.2 ⟨?_, ?_⟩, ?_⟩
  · exact Step.emits_emit?.2 (forall_mem_map fun _ => rfl)
  · exact Step.emits_visit? _ _
  · exact Step.emits_visit? _ _

theorem attributes_listed : ∀ r ∈ attributes d scope p, r.IsListed :=
  forall_mem_filterMap fun _ => forall_mem_map fun _ => rfl

theorem heritage_listed : ∀ r ∈ heritage d owner p, r.IsListed := by
  simp only [heritage]
  split
  · exact List.forall_mem_nil _
  · refine List.forall_mem_cons.2 ⟨ReferenceKind.isOther_ite rfl rfl, ?_⟩
    exact List.forall_mem_map.2 fun _ _ => rfl

theorem childSteps_listed : Step.Emits Reference.IsListed (childSteps d s p) := by
  simp only [childSteps]
  split
  · exact Step.emits_visit_cons.2 Step.emits_nil
  · exact Step.emits_visit_cons.2 Step.emits_nil
  · exact Step.emits_emit?.2 directive?_listed
  · exact invocationSteps_listed
  · exact creationSteps_listed
  · exact Step.emits_emitAll.2 attributes_listed
  · exact Step.emits_emit?.2 (forall_mem_map fun _ => rfl)
  · split
    · refine Step.emits_append.2 ⟨?_, Step.emits_visit_cons.2 Step.emits_nil⟩
      exact Step.emits_emitAll.2 (forall_mem_getD_map fun _ => heritage_listed)
    · split <;> exact Step.emits_visit_cons.2 Step.emits_nil

theorem references_listed (root : Place) : ∀ r ∈ references d root, r.IsListed := by
  refine Rule.forall_mem_walk_of_emits (fun s p => ?_) _ root
  unfold rule
  exact Step.emits_ite_nil.2 fun _ => Step.emits_flatMap.2 fun _ _ => childSteps_listed

end Uses.CSharp

/-! ## Languages with a profile -/

theorem Rules.IsEdge.isListed {r : Reference} (h : Rules.IsEdge d r) : r.IsListed := by
  have hkinds : ∀ kind ∈ Rules.edgeKinds, kind.isOther = false := by decide
  exact hkinds r.kind h.kind_mem

namespace Profile

/-- Does a profile give all uses that it finds listed kinds? -/
structure UsesListed (profile : Profile) : Prop where
  heritage : ∀ d kind owner p, ∀ r ∈ profile.heritage d kind owner p, r.IsListed
  blockHeritage : ∀ d p, ∀ r ∈ profile.blockHeritage? d p, r.IsListed

theorem ofLanguage_usesListed (language : String) : (ofLanguage language).UsesListed where
  heritage := fun _ _ _ _ r hr => (isEdge_of_mem_heritage r hr).isListed
  blockHeritage := fun _ _ r hr => (isEdge_of_blockHeritage? r hr).isListed

end Profile

namespace Uses.Profiled

variable {profile : Profile} {s : Scope} {p : Place}

theorem declarationSteps_listed (h : profile.UsesListed) {kind : SymbolKind} {name : String} :
    Step.Emits Reference.IsListed (declarationSteps profile d s kind name p) := by
  refine Step.emits_append.2 ⟨Step.emits_emitAll.2 ?_, Step.emits_visit_cons.2 Step.emits_nil⟩
  split
  · exact h.heritage d kind _ p
  · exact List.forall_mem_nil _

theorem childSteps_listed (h : profile.UsesListed) :
    Step.Emits Reference.IsListed (childSteps profile d s p) := by
  unfold childSteps
  split
  · exact Step.emits_append.2
      ⟨Step.emits_emit?.2 (forall_mem_map fun _ => rfl), Step.emits_visit_cons.2 Step.emits_nil⟩
  · refine Step.emits_append.2 ⟨Step.emits_emit?.2 (h.blockHeritage d p), ?_⟩
    split
    · exact declarationSteps_listed h
    · exact Step.emits_visit_cons.2 Step.emits_nil

theorem references_listed (h : profile.UsesListed) (root : Place) :
    ∀ r ∈ references profile d root, r.IsListed := by
  refine Rule.forall_mem_walk_of_emits (fun s p => ?_) _ root
  unfold rule
  exact Step.emits_ite_nil.2 fun _ => Step.emits_flatMap.2 fun _ _ => childSteps_listed h

end Uses.Profiled

/-! ## Markup -/

theorem Uses.Aura.references_listed : ∀ r ∈ references d, r.IsListed := by
  simp only [references, List.forall_mem_append, List.forall_mem_map]
  exact ⟨⟨⟨⟨fun _ _ => rfl, fun _ _ => rfl⟩, fun _ _ => rfl⟩, fun _ _ => rfl⟩, fun _ _ => rfl⟩

theorem Uses.Visualforce.references_listed : ∀ r ∈ references d, r.IsListed := by
  simp only [references, List.forall_mem_append, List.forall_mem_map]
  exact ⟨⟨⟨fun _ _ => rfl, fun _ _ => rfl⟩, fun _ _ => rfl⟩, fun _ _ => rfl⟩

namespace Uses.Metadata

theorem component?_listed {p : Place} : ∀ r ∈ component? d p, r.IsListed := by
  intro r hr
  obtain ⟨tag, -, hr⟩ := Option.bind_eq_some_iff.1 hr
  obtain ⟨text, -, hr⟩ := Option.bind_eq_some_iff.1 hr
  split at hr
  · cases hr
    rfl
  · cases hr

theorem actionUse?_listed {f : Idiom.Markup.Find} : ∀ r ∈ actionUse? f, r.IsListed := by
  intro r hr
  obtain ⟨type, -, hr⟩ := Option.bind_eq_some_iff.1 hr
  obtain ⟨m, -, hr⟩ := Option.bind_eq_some_iff.1 hr
  obtain ⟨name, -, hr⟩ := Option.bind_eq_some_iff.1 hr
  cases hr
  rfl

theorem references_listed (root : Option Place) : ∀ r ∈ references d root, r.IsListed := by
  simp only [references, List.forall_mem_append]
  refine ⟨⟨forall_mem_getD_map fun r => ?_, ?_⟩, ?_⟩
  · exact Idiom.Markup.forall_mem_walk (fun _ => component?_listed) r
  · exact List.forall_mem_flatMap.2 fun _ _ => List.forall_mem_map.2 fun _ _ => rfl
  · exact forall_mem_filterMap fun _ => actionUse?_listed

end Uses.Metadata

/-! ## Languages that are read line by line -/

namespace Uses.FoxPro

open Idiom.FoxPro

variable {line : UInt32} {scope : Option String} {text : List Char}

theorem run?_listed : ∀ r ∈ run? line scope text, r.IsListed := by
  refine forall_mem_or (forall_mem_or ?_ ?_) ?_
  · exact forall_mem_map fun _ => rfl
  · exact forall_mem_map fun _ => rfl
  · exact forall_mem_map fun _ => rfl

theorem import?_listed : ∀ r ∈ import? line scope text, r.IsListed :=
  forall_mem_map fun _ => rfl

theorem creations_listed : ∀ r ∈ creations line scope text, r.IsListed := by
  refine List.forall_mem_append.2 ⟨?_, ?_⟩
  · exact forall_mem_filterMap fun _ => forall_mem_map fun _ => rfl
  · refine forall_mem_filterMap fun m r hr => ?_
    obtain ⟨name, -, hr⟩ := Option.bind_eq_some_iff.1 hr
    obtain ⟨library, -, hr⟩ := Option.bind_eq_some_iff.1 hr
    cases hr
    rfl

theorem statementUses_listed : ∀ r ∈ statementUses line scope text, r.IsListed := by
  unfold statementUses
  split
  · rename_i r hr
    exact List.forall_mem_singleton.2 (forall_mem_or run?_listed import?_listed r hr)
  · refine List.forall_mem_append.2 ⟨creations_listed, ?_⟩
    split
    · exact List.forall_mem_singleton.2 rfl
    · exact List.forall_mem_map.2 fun _ _ => rfl

theorem usesFrom_listed {s : Surroundings} {statements : List (Nat × List Char)} :
    ∀ r ∈ usesFrom s statements, r.IsListed := by
  induction statements generalizing s with
  | nil => exact List.forall_mem_nil _
  | cons statement rest ih =>
      simp only [usesFrom]
      split
      · refine List.forall_mem_append.2 ⟨?_, ih⟩
        split
        · exact List.forall_mem_nil _
        · exact List.forall_mem_singleton.2 rfl
      · exact ih
      · exact ih
      · exact ih
      · exact List.forall_mem_append.2 ⟨statementUses_listed, ih⟩

theorem references_listed : ∀ r ∈ references d, r.IsListed :=
  usesFrom_listed

end Uses.FoxPro

namespace Uses.Form

open Idiom.FoxPro

theorem controlUses_listed {form : String} {c : Control} :
    ∀ r ∈ controlUses form c, r.IsListed := by
  refine List.forall_mem_append.2 ⟨?_, List.forall_mem_flatMap.2 fun _ _ => ?_⟩
  · simp only [library]
    split
    · exact List.forall_mem_nil _
    · exact List.forall_mem_singleton.2 rfl
  · refine List.forall_mem_flatMap.2 fun _ _ => ?_
    dsimp only
    split
    · exact List.forall_mem_nil _
    · exact FoxPro.statementUses_listed

theorem references_listed : ∀ r ∈ references d, r.IsListed := by
  unfold references referencesOf
  split
  · exact List.forall_mem_nil _
  · exact List.forall_mem_flatMap.2 fun _ _ => controlUses_listed

end Uses.Form

namespace Uses.YAML

open Idiom.YAML

variable {job : Option String} {list : ListField} {item : Option String} {line : Line}

theorem gitlabLine_listed : ∀ r ∈ gitlabLine job list item line, r.IsListed := by
  simp only [gitlabLine, List.forall_mem_append, List.forall_mem_map]
  refine ⟨⟨fun _ _ => rfl, fun _ _ => ReferenceKind.isOther_ite rfl rfl⟩, ?_⟩
  exact ⟨fun _ _ => rfl, fun _ _ => rfl⟩

theorem gitlabFrom_listed {s : Setting} {lines : List Line} :
    ∀ r ∈ gitlabFrom s lines, r.IsListed := by
  induction lines generalizing s with
  | nil => exact List.forall_mem_nil _
  | cons line rest ih => exact List.forall_mem_append.2 ⟨gitlabLine_listed, ih⟩

theorem githubLine_listed : ∀ r ∈ githubLine job list item line, r.IsListed := by
  unfold githubLine
  split
  · exact List.forall_mem_singleton.2 rfl
  · exact List.forall_mem_map.2 fun _ _ => rfl

theorem githubFrom_listed {s : Setting} {lines : List (Section × Line)} :
    ∀ r ∈ githubFrom s lines, r.IsListed := by
  induction lines generalizing s with
  | nil => exact List.forall_mem_nil _
  | cons l rest ih =>
      simp only [githubFrom]
      split
      · exact ih
      · split
        · exact ih
        · exact List.forall_mem_append.2 ⟨githubLine_listed, ih⟩

theorem references_listed : ∀ r ∈ references d, r.IsListed := by
  simp only [references]
  split
  · exact gitlabFrom_listed
  · exact githubFrom_listed
  · exact List.forall_mem_nil _

end Uses.YAML

namespace Uses.HCL

open Idiom.HCL

theorem usesFrom_listed {block : Option String} {lines : List Line} :
    ∀ r ∈ usesFrom block lines, r.IsListed := by
  induction lines generalizing block with
  | nil => exact List.forall_mem_nil _
  | cons line rest ih =>
      exact List.forall_mem_append.2 ⟨List.forall_mem_map.2 fun _ _ => rfl, ih⟩

theorem references_listed : ∀ r ∈ references d, r.IsListed := by
  unfold references
  split
  · exact List.forall_mem_nil _
  · exact usesFrom_listed

end Uses.HCL

end SourceIndex
