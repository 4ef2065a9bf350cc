import SourceIndex.Proofs.Scopes.Python
import SourceIndex.Proofs.Tree.Emission

/-!
# How deep uses in Python are looked for

The walk through a Python file stops at a depth, whatever it looks for.  A step of depth takes it
four levels down at most, past a decorator and the call in it, and the annotations of a decorated
definition stand five levels below the place that the walk comes from.  Nothing else of a file is
looked at.
-/

namespace SourceIndex.Idiom.Python

theorem stringContent_truncate (d : Document) {levels : Nat} {p : Place} (h : p.level < levels) :
    stringContent d (p.truncate levels) = stringContent d p := by
  rw [stringContent, Place.childOf?_truncate h, d.text_truncate, stringContent]
  cases p.childOf? "string_content" with
  | none => rfl
  | some c => simp only [Option.map_some, d.text_truncate]

end SourceIndex.Idiom.Python

namespace SourceIndex.Uses.Python

open SourceIndex.Idiom.Python
open Step (GoOn)

variable (d : Document) {levels : Nat} {s : Scope} {p c : Place}

/-- The last level that a task can have come to. -/
def Task.reach : Task → Nat
  | inside s | caught s => 4 * s.depth
  | typeHint s => 4 * s.depth + 5

/-- Is a place one that a task can have come to? -/
def Task.Reaches (task : Task) (p : Place) : Prop :=
  p.level ≤ task.reach

theorem reaches_inside : (Task.inside s).Reaches p ↔ p.level ≤ 4 * s.depth :=
  Iff.rfl

theorem reaches_caught : (Task.caught s).Reaches p ↔ p.level ≤ 4 * s.depth :=
  Iff.rfl

theorem reaches_typeHint : (Task.typeHint s).Reaches p ↔ p.level ≤ 4 * s.depth + 5 :=
  Iff.rfl

/-- The depth of the scope one step deeper. -/
theorem depth_deeper : s.deeper.depth = s.depth + 1 :=
  rfl

/-! ## How far the rule goes down -/

theorem goOn_callSteps (h : p.level ≤ 4 * s.depth + 3) :
    GoOn Task.Reaches (callSteps d s p) := by
  unfold callSteps
  split
  · exact Step.goOn_nil
  · rw [Step.goOn_emit_cons, Step.goOn_visit?]
    intro q hq
    have hlevel := Place.level_of_field? hq
    rw [reaches_inside, depth_deeper]
    omega

theorem goOn_namedOrCalled? (h : p.level ≤ 4 * s.depth + 3) :
    ∀ steps ∈ namedOrCalled? d s p, GoOn Task.Reaches steps := by
  intro steps hsteps
  unfold namedOrCalled? at hsteps
  split at hsteps
  · cases hsteps
    exact Step.goOn_emit_cons.2 Step.goOn_nil
  · cases hsteps
    exact Step.goOn_emit_cons.2 Step.goOn_nil
  · cases hsteps
    exact goOn_callSteps d h
  · cases hsteps

theorem goOn_decoratorSteps (h : c.level ≤ 4 * s.depth + 1) :
    GoOn Task.Reaches (decoratorSteps d s c) := by
  rw [decoratorSteps, Step.goOn_flatMap]
  intro decorator hdecorator
  rw [Step.goOn_flatMap]
  intro o ho
  have hlevel := Place.level_of_mem_children (List.mem_filter.1 hdecorator).1
  have hlevel' := Place.level_of_mem_children ho
  rw [Step.goOn_getD]
  exact ⟨goOn_namedOrCalled? d (by omega), fun _ => Step.goOn_nil⟩

/-- The annotations of a definition are types of its parameters, or its own. -/
theorem goOn_definitionSteps (h : p.level ≤ 4 * s.depth + 2) :
    GoOn Task.Reaches (definitionSteps d s p) := by
  have hbody : p.level ≤ 4 * (s.depth + 1) := by omega
  rw [definitionSteps, Step.goOn_append]
  refine ⟨?_, Step.goOn_visit_cons.2 ⟨hbody, Step.goOn_nil⟩⟩
  split
  · rw [Step.goOn_visitAll]
    intro q hq
    show q.level ≤ 4 * s.depth + 5
    rcases List.mem_append.1 hq with hq | hq
    · obtain ⟨c, hc, hq⟩ := List.mem_filterMap.1 hq
      have hlevel := Place.level_of_field? hq
      cases hparams : p.field? "parameters" with
      | none =>
          rw [hparams] at hc
          cases hc
      | some params =>
          rw [hparams] at hc
          have hparams := Place.level_of_field? hparams
          have hc := Place.level_of_mem_children hc
          omega
    · have hlevel := Place.level_of_field? (Option.mem_toList.1 hq)
      omega
  · exact Step.goOn_emitAll

theorem goOn_raiseSteps (h : c.level ≤ 4 * s.depth + 1) :
    GoOn Task.Reaches (raiseSteps d s c) := by
  have hchild : ∀ o ∈ c.namedChildren, o.level ≤ 4 * s.depth + 2 := by
    intro o ho
    have hlevel := Place.level_of_mem_children (List.mem_filter.1 ho).1
    omega
  have hinside : ∀ o ∈ c.namedChildren,
      GoOn Task.Reaches [(.visit (.inside s.deeper) o : Step Task Reference)] := by
    intro o ho
    have hlevel := hchild o ho
    rw [Step.goOn_visit_cons, reaches_inside, depth_deeper]
    exact ⟨by omega, Step.goOn_nil⟩
  unfold raiseSteps
  split
  · exact Step.goOn_nil
  · rename_i first rest hnamed
    rw [hnamed] at hchild hinside
    have hfirst := hchild first List.mem_cons_self
    rw [Step.goOn_append, Step.goOn_getD, Step.goOn_flatMap]
    refine ⟨⟨goOn_namedOrCalled? d (by omega), fun _ => hinside first List.mem_cons_self⟩, ?_⟩
    intro o ho
    have hlevel := hchild o (List.mem_cons_of_mem _ ho)
    split
    · exact goOn_callSteps d (by omega)
    · exact hinside o (List.mem_cons_of_mem _ ho)

theorem goOn_exceptSteps (h : c.level ≤ 4 * s.depth + 1) :
    GoOn Task.Reaches (exceptSteps s c) := by
  intro task q hq
  obtain ⟨o, ho, hq⟩ := List.mem_map.1 hq
  have hlevel := Place.level_of_mem_children (List.mem_filter.1 (List.mem_filter.1 ho).1).1
  have hdeeper : o.level ≤ 4 * (s.depth + 1) := by omega
  split at hq
  · cases hq
    exact hdeeper
  · cases hq
    exact hdeeper

/-- From a child the walk goes on to places at most three levels further down for a step of depth.
-/
theorem goOn_childSteps (h : c.level ≤ 4 * s.depth + 1) :
    GoOn Task.Reaches (childSteps d s c) := by
  have hinside : GoOn Task.Reaches [(.visit (.inside s.deeper) c : Step Task Reference)] := by
    rw [Step.goOn_visit_cons, reaches_inside, depth_deeper]
    exact ⟨by omega, Step.goOn_nil⟩
  unfold childSteps
  split
  · exact Step.goOn_emitAll
  · exact Step.goOn_emitAll
  · exact goOn_callSteps d (by omega)
  · rw [Step.goOn_append, Step.goOn_getD]
    refine ⟨goOn_decoratorSteps d h, fun steps hsteps => ?_, fun _ => Step.goOn_nil⟩
    obtain ⟨definition, hdefinition, rfl⟩ := Option.map_eq_some_iff.1 hsteps
    have hlevel := Place.level_of_field? hdefinition
    exact goOn_definitionSteps d (by omega)
  · exact goOn_definitionSteps d (by omega)
  · exact goOn_definitionSteps d (by omega)
  · exact goOn_raiseSteps d h
  · exact goOn_exceptSteps h
  · rw [Step.goOn_append, Step.goOn_visit?]
    refine ⟨fun q hq => ?_, hinside⟩
    have hlevel := Place.level_of_field? hq
    rw [reaches_typeHint]
    omega
  · exact hinside

/-- What a task reaches, the tasks that it leads to reach in their turn. -/
theorem reaches_of_visit {task task' : Task} {q : Place} (hp : task.Reaches p)
    (h : Step.visit task' q ∈ rule d task p) : task'.Reaches q := by
  cases task with
  | inside s =>
      rw [reaches_inside] at hp
      rw [rule] at h
      split at h
      · cases h
      · obtain ⟨c, hc, h⟩ := List.mem_flatMap.1 h
        have hlevel := Place.level_of_mem_children hc
        exact goOn_childSteps d (by omega) task' q h
  | typeHint s =>
      obtain ⟨rfl, hq⟩ := visit_typeHint d h
      have hlevel := Place.level_of_mem_children hq
      rw [reaches_typeHint] at hp ⊢
      rw [depth_deeper]
      omega
  | caught s =>
      obtain ⟨rfl, hq⟩ := visit_caught d h
      have hlevel := Place.level_of_mem_children hq
      rw [reaches_caught] at hp ⊢
      rw [depth_deeper]
      omega

/-! ## Steps in the truncated tree -/

theorem importedName?_truncate (h : p.level < levels) :
    importedName? d (p.truncate levels) = importedName? d p := by
  simp only [importedName?, Place.kind_truncate, d.text_truncate, d.fieldText_truncate h]

theorem imports_truncate (scope : Option String) (h : p.level + 1 < levels) :
    imports d scope (p.truncate levels) = imports d scope p := by
  rw [imports, Place.children_truncate (by omega), List.filterMap_map, imports]
  refine List.filterMap_congr fun c hc => ?_
  have hlevel := Place.level_of_mem_children hc
  have hc : c.level < levels := by omega
  simp only [Function.comp_apply, importedName?_truncate d hc, d.reference_truncate]

theorem importsFrom_truncate (scope : Option String) (h : p.level + 1 < levels) :
    importsFrom d scope (p.truncate levels) = importsFrom d scope p := by
  have hp : p.level < levels := by omega
  simp only [importsFrom, Place.field?_truncate hp, Place.children_truncate hp,
    List.filterMap_map, Option.map_map]
  refine List.filterMap_congr fun c hc => ?_
  have hlevel := Place.level_of_mem_children hc
  have hc : c.level < levels := by omega
  simp only [Function.comp_def, importedName?_truncate d hc, d.reference_truncate,
    Place.index_truncate, Place.kind_truncate, d.text_truncate]

theorem callSteps_truncate (h : p.level < levels) :
    callSteps d s (p.truncate levels) = (callSteps d s p).map (Step.truncate levels) := by
  unfold callSteps
  simp only [Place.field?_truncate h]
  cases p.field? "function" with
  | none => rfl
  | some f =>
      simp only [Option.map_some, List.map_cons, Step.truncate, Step.map_truncate_visit?,
        d.text_truncate, d.reference_truncate]

theorem namedOrCalled?_truncate (h : p.level < levels) :
    namedOrCalled? d s (p.truncate levels) =
      (namedOrCalled? d s p).map (List.map (Step.truncate levels)) := by
  unfold namedOrCalled?
  rw [Place.kind_truncate]
  split
  · simp only [Option.map_some, List.map_cons, List.map_nil, Step.truncate, d.text_truncate,
      d.reference_truncate]
  · simp only [Option.map_some, List.map_cons, List.map_nil, Step.truncate, d.text_truncate,
      d.reference_truncate]
  · rw [callSteps_truncate d h, Option.map_some]
  · rfl

theorem decoratorSteps_truncate (h : p.level + 2 < levels) :
    decoratorSteps d s (p.truncate levels) =
      (decoratorSteps d s p).map (Step.truncate levels) := by
  rw [decoratorSteps, Place.childrenOf_truncate (by omega), List.flatMap_map, decoratorSteps,
    List.map_flatMap]
  refine List.flatMap_congr fun decorator hdecorator => ?_
  have hlevel := Place.level_of_mem_children (List.mem_filter.1 hdecorator).1
  rw [Place.children_truncate (by omega), List.flatMap_map, List.map_flatMap]
  refine List.flatMap_congr fun o ho => ?_
  have hlevel' := Place.level_of_mem_children ho
  rw [namedOrCalled?_truncate d (by omega)]
  cases namedOrCalled? d s o <;> rfl

theorem bases_truncate (owner : Option String) (h : p.level + 1 < levels) :
    bases d owner (p.truncate levels) = bases d owner p := by
  simp only [bases, Place.fieldChildren_truncate h, List.filterMap_map, Function.comp_def,
    Place.kind_truncate, d.text_truncate, d.reference_truncate]

theorem innerName_truncate (h : p.level < levels) :
    innerName d s (p.truncate levels) = innerName d s p := by
  rw [innerName, d.fieldText_truncate h, innerName]

theorem definitionSteps_truncate (h : p.level + 2 < levels) :
    definitionSteps d s (p.truncate levels) =
      (definitionSteps d s p).map (Step.truncate levels) := by
  have hparams : ∀ c ∈ ((p.field? "parameters").map Place.children).getD [],
      (c.truncate levels).field? "type" = (c.field? "type").map (Place.truncate levels) := by
    intro c hc
    cases hparams : p.field? "parameters" with
    | none =>
        rw [hparams] at hc
        cases hc
    | some params =>
        rw [hparams] at hc
        have hlevel := Place.level_of_field? hparams
        have hlevel' := Place.level_of_mem_children hc
        exact Place.field?_truncate (by omega) "type"
  have hannotations :
      ((((p.truncate levels).field? "parameters").map Place.children).getD []).filterMap
          (fun c => c.field? "type") =
        ((((p.field? "parameters").map Place.children).getD []).filterMap
          (fun c => c.field? "type")).map (Place.truncate levels) := by
    rw [Place.fieldChildren_truncate (by omega), List.filterMap_map, List.map_filterMap]
    exact List.filterMap_congr hparams
  have hp : p.level < levels := by omega
  have hp' : p.level + 1 < levels := by omega
  simp only [definitionSteps, hannotations, innerName_truncate d hp, bases_truncate d _ hp',
    Place.kind_truncate, List.map_append, List.map_cons, List.map_nil, Step.truncate]
  split
  · rw [Step.map_truncate_visitAll, List.map_append, Place.field?_truncate hp]
    cases p.field? "return_type" <;> rfl
  · rw [Step.map_truncate_emitAll]

theorem raiseSteps_truncate (h : p.level + 1 < levels) :
    raiseSteps d s (p.truncate levels) = (raiseSteps d s p).map (Step.truncate levels) := by
  have hchild : ∀ o ∈ p.namedChildren, o.level < levels := by
    intro o ho
    have hlevel := Place.level_of_mem_children (List.mem_filter.1 ho).1
    omega
  unfold raiseSteps
  rw [Place.namedChildren_truncate (by omega)]
  cases hnamed : p.namedChildren with
  | nil => rfl
  | cons first rest =>
      rw [hnamed] at hchild
      simp only [List.map_cons, List.map_append, List.flatMap_map, List.map_flatMap]
      rw [namedOrCalled?_truncate d (hchild first List.mem_cons_self)]
      refine congrArg₂ (· ++ ·) ?_ (List.flatMap_congr fun o ho => ?_)
      · cases namedOrCalled? d s first <;> rfl
      · rw [Place.kind_truncate]
        split
        · exact callSteps_truncate d (hchild o (List.mem_cons_of_mem _ ho))
        · rfl

theorem exceptSteps_truncate (h : p.level < levels) :
    exceptSteps s (p.truncate levels) = (exceptSteps s p).map (Step.truncate levels) := by
  simp only [exceptSteps, Place.namedChildren_truncate h, Place.field?_truncate h,
    Option.map_map, List.filter_map, List.map_map, Function.comp_def, Place.index_truncate,
    Place.kind_truncate]
  refine List.map_congr_left fun c _ => ?_
  split <;> rfl

/-- What a child uses is read off the three levels from there on. -/
theorem childSteps_truncate (h : c.level + 3 < levels) :
    childSteps d s (c.truncate levels) = (childSteps d s c).map (Step.truncate levels) := by
  unfold childSteps
  rw [Place.kind_truncate]
  split
  · rw [imports_truncate d _ (by omega), Step.map_truncate_emitAll]
  · rw [importsFrom_truncate d _ (by omega), Step.map_truncate_emitAll]
  · exact callSteps_truncate d (by omega)
  · rw [decoratorSteps_truncate d (by omega), Place.field?_truncate (by omega), List.map_append]
    refine congrArg _ ?_
    cases hdefinition : c.field? "definition" with
    | none => rfl
    | some definition =>
        have hlevel := Place.level_of_field? hdefinition
        exact definitionSteps_truncate d (by omega)
  · exact definitionSteps_truncate d (by omega)
  · exact definitionSteps_truncate d (by omega)
  · exact raiseSteps_truncate d (by omega)
  · exact exceptSteps_truncate (by omega)
  · rw [Place.field?_truncate (by omega), List.map_append, Step.map_truncate_visit?]
    rfl
  · rfl

theorem typeHintSteps_truncate (h : p.level < levels) :
    typeHintSteps d s (p.truncate levels) = (typeHintSteps d s p).map (Step.truncate levels) := by
  unfold typeHintSteps
  simp only [Place.kind_truncate, d.text_truncate, d.reference_truncate,
    stringContent_truncate d h, Place.children_truncate h]
  split
  · split <;> rfl
  · rfl
  · rw [List.map_map]
    rfl
  · rw [Step.map_truncate_visitAll]

theorem caughtSteps_truncate (h : p.level < levels) :
    caughtSteps d s (p.truncate levels) = (caughtSteps d s p).map (Step.truncate levels) := by
  unfold caughtSteps
  simp only [Place.kind_truncate, d.text_truncate, d.reference_truncate,
    Place.namedChildren_truncate h]
  split
  · rfl
  · rfl
  · rw [Step.map_truncate_visitAll, List.map_take]
  · rw [Step.map_truncate_visitAll]
  · rw [Step.map_truncate_visitAll]
  · rw [Step.map_truncate_visitAll]
  · rfl

/-- Where the walk is not too deep, its steps are the same in the truncated tree. -/
theorem rule_truncate {task : Task} (hp : task.Reaches p) :
    rule d task (p.truncate d.keptLevels) =
      (rule d task p).map (Step.truncate d.keptLevels) := by
  -- Four levels for a step of depth, and eight more: a child reads three levels below itself.
  have hkept : ∀ depth, ¬ d.tooDeep depth = true → 4 * depth + 8 ≤ d.keptLevels := by
    intro depth hdepth
    rw [Document.tooDeep, decide_eq_true_eq] at hdepth
    rw [Document.keptLevels]
    omega
  cases task with
  | inside s =>
      rw [reaches_inside] at hp
      rw [rule, rule]
      split
      · rfl
      · rename_i hdepth
        have hlevels := hkept s.depth hdepth
        rw [Place.children_truncate (by omega), List.flatMap_map, List.map_flatMap]
        refine List.flatMap_congr fun c hc => childSteps_truncate d ?_
        have hlevel := Place.level_of_mem_children hc
        omega
  | typeHint s =>
      rw [reaches_typeHint] at hp
      rw [rule, rule]
      split
      · rfl
      · rename_i hdepth
        have hlevels := hkept s.depth hdepth
        exact typeHintSteps_truncate d (by omega)
  | caught s =>
      rw [reaches_caught] at hp
      rw [rule, rule]
      split
      · rfl
      · rename_i hdepth
        have hlevels := hkept s.depth hdepth
        exact caughtSteps_truncate d (by omega)

/-- The uses of a file come from the levels that the limit allows. -/
theorem walk_truncate (tree : Node) :
    references d (.root (tree.truncate d.keptLevels)) = references d (.root tree) := by
  have hstart : (Task.inside {}).Reaches (.root tree) := Nat.zero_le _
  exact Rule.walk_truncate (rule_descends d) (reaches_of_visit d) (rule_truncate d) hstart

end SourceIndex.Uses.Python
