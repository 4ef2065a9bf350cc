import Mathlib.Data.Option.Defs
import SourceIndex.Proofs.Tree.TruncatedWalk
import SourceIndex.Uses.Ruby

/-!
# How deep uses in Ruby are looked for

The walk through a Ruby file stops at a depth, but not inside a call whose receiver is a call again.
Everything else is found in the truncated tree as well.
-/

namespace SourceIndex.Uses.Ruby

open SourceIndex.Idiom.Ruby

variable (d : Document) {levels : Nat} {s : Scope} {p : Place}

/-- The last level that a task can have come to.  A definition and a call count as deep as what is
around them. -/
def Task.reach : Task → Nat
  -- Two levels for a step of depth would do; three are what the kept levels allow for.
  | inside s => 3 * s.depth
  | definition s | call s => 3 * s.depth + 1

/-! ## Where the rule goes on to -/

theorem visit_placeSteps {task : Task} {c q : Place} (h : Step.visit task q ∈ placeSteps d s c) :
    q = c ∧ 3 * s.depth + 1 ≤ task.reach := by
  unfold placeSteps at h
  split at h
  · cases List.mem_singleton.1 h
    exact ⟨rfl, Nat.le_refl _⟩
  · exact absurd h (Step.visit_notMem_emit? _)
  · exact absurd h (Step.visit_notMem_emit? _)
  · rcases List.mem_append.1 h with h | h
    · exact absurd h (Step.visit_notMem_emit? _)
    · cases List.mem_singleton.1 h
      exact ⟨rfl, Nat.le_refl _⟩
  · rcases List.mem_append.1 h with h | h
    · exact absurd h (Step.visit_notMem_emit? _)
    · cases List.mem_singleton.1 h
      exact ⟨rfl, Nat.le_refl _⟩
  · cases List.mem_singleton.1 h
    exact ⟨rfl, Nat.le_refl _⟩
  · cases List.mem_singleton.1 h
    exact ⟨rfl, Nat.le_refl _⟩
  · cases List.mem_singleton.1 h
    refine ⟨rfl, ?_⟩
    simp only [Task.reach, Scope.deeper]
    omega

theorem visit_callSteps {task : Task} {q : Place} (h : Step.visit task q ∈ callSteps d s p) :
    p.Below 1 q ∧ 3 * s.depth + 2 ≤ task.reach := by
  have hinside : ∀ name, Step.visit task q ∈
      (Step.visit? (.inside s.deeper) (p.field? name) : List (Step Task Reference)) →
      p.Below 1 q ∧ 3 * s.depth + 2 ≤ task.reach := by
    intro name hmem
    obtain ⟨hbelow, rfl⟩ := Step.below_of_mem_visit? hmem
    refine ⟨hbelow, ?_⟩
    simp only [Task.reach, Scope.deeper]
    omega
  unfold callSteps at h
  split at h
  · cases h
  · split at h
    · exact absurd h (Step.visit_notMem_emitAll _)
    · rcases List.mem_cons.1 h with h | h
      · cases h
      · rcases List.mem_append.1 h with h | h
        · rcases List.mem_append.1 h with h | h
          · cases hr : p.field? "receiver" with
            | none =>
                rw [hr] at h
                cases h
            | some r =>
                rw [hr] at h
                obtain ⟨rfl, hreach⟩ := visit_placeSteps d h
                refine ⟨Place.below_of_field? hr, ?_⟩
                simp only [Scope.deeper] at hreach
                omega
          · exact hinside _ h
        · exact hinside _ h

/-- Every step goes down one level, and the task reaches as much further. -/
theorem visit_rule {task task' : Task} {q : Place} (h : Step.visit task' q ∈ rule d task p) :
    p.Below 1 q ∧ task.reach + 1 ≤ task'.reach := by
  cases task with
  | inside s =>
      rw [rule] at h
      split at h
      · cases h
      · obtain ⟨c, hc, h⟩ := List.mem_flatMap.1 h
        obtain ⟨rfl, hreach⟩ := visit_placeSteps d h
        exact ⟨Place.below_of_mem_children hc, hreach⟩
  | definition s =>
      rw [rule] at h
      split at h
      · cases h
      · obtain ⟨c, hc, h⟩ := List.mem_flatMap.1 h
        obtain ⟨rfl, hreach⟩ := visit_placeSteps d h
        refine ⟨Place.below_of_mem_children (List.mem_filter.1 hc).1, ?_⟩
        simp only [Scope.deeper] at hreach
        show 3 * s.depth + 1 + 1 ≤ task'.reach
        omega
  | call s => exact visit_callSteps d h

theorem rule_of_children (task : Task) (h : p.children = []) : rule d task p = [] := by
  cases task with
  | inside s => rw [rule, h, List.flatMap_nil, ite_self]
  | definition s => rw [rule, definitionParts, h, List.filter_nil, List.flatMap_nil, ite_self]
  | call s => rw [rule, callSteps, d.fieldText_eq_none h]

/-! ## Steps in the truncated tree -/

theorem constantName?_truncate (h : p.level < levels) :
    constantName? d (p.truncate levels) = constantName? d p := by
  rw [constantName?, Place.kind_truncate, d.text_truncate, d.fieldText_truncate h, constantName?]

theorem superclass_truncate (h : p.level + 1 < levels) :
    superclass d (p.truncate levels) = superclass d p := by
  have hp : p.level < levels := by omega
  rw [superclass, superclass, Place.field?_truncate hp]
  cases hc : p.field? "superclass" with
  | none => rfl
  | some c =>
      have hlevel := Place.level_of_field? hc
      rw [Option.map_some, Option.bind_some, Option.bind_some, Place.childOfAny?_truncate (by omega),
        d.text?_map_truncate]

theorem namespaceSteps_truncate (h : p.level + 1 < levels) :
    namespaceSteps d s (p.truncate levels) = (namespaceSteps d s p).map (Step.truncate levels) := by
  have hp : p.level < levels := by omega
  simp only [namespaceSteps, namedScope, d.fieldText_truncate hp, superclass_truncate d h,
    d.reference_truncate, List.map_append, Step.map_truncate_emit?, List.map_cons, List.map_nil,
    Step.truncate]

theorem placeSteps_truncate (h : p.level + 1 < levels) :
    placeSteps d s (p.truncate levels) = (placeSteps d s p).map (Step.truncate levels) := by
  have hp : p.level < levels := by omega
  unfold placeSteps
  simp only [Place.kind_truncate, constantName?_truncate d hp, d.reference_truncate,
    namespaceSteps_truncate d h, namedScope, d.fieldText_truncate hp]
  split
  · rfl
  · rw [Step.map_truncate_emit?]
  · rw [Step.map_truncate_emit?]
  · rfl
  · rfl
  · rfl
  · rfl
  · rfl

theorem definitionParts_truncate (h : p.level < levels) :
    definitionParts (p.truncate levels) = (definitionParts p).map (Place.truncate levels) := by
  simp only [definitionParts, Place.field?_truncate h, Place.children_truncate h, List.filter_map,
    Option.toList_map, List.map_append, List.map_map, Function.comp_def, Place.index_truncate]

theorem required?_truncate (scope : Option String) {arguments : Place}
    (h : arguments.level + 1 < levels) :
    required? d scope (p.truncate levels) (arguments.truncate levels) =
      required? d scope p arguments := by
  unfold required?
  rw [Place.childOf?_truncate (by omega)]
  cases hstring : arguments.childOf? "string" with
  | none => rfl
  | some literal =>
      have hlevel := Place.level_of_childOf? hstring
      simp only [Option.map_some, Option.bind_eq_bind, Option.bind_some,
        Place.childOf?_truncate (show literal.level < levels by omega), Option.bind_map,
        Function.comp_def, d.text_truncate, d.reference_truncate]

theorem mixins_truncate (scope : Option String) {arguments : Place}
    (h : arguments.level + 1 < levels) :
    mixins d scope (p.truncate levels) (arguments.truncate levels) = mixins d scope p arguments := by
  have hnames : (arguments.truncate levels).children.filterMap (constantName? d) =
      arguments.children.filterMap (constantName? d) := by
    rw [Place.children_truncate (by omega), List.filterMap_map]
    refine List.filterMap_congr fun c hc => constantName?_truncate d ?_
    rw [Place.level_of_mem_children hc]
    exact h
  simp only [mixins, hnames, d.reference_truncate]

theorem imports?_truncate (scope : Option String) (method : String) (h : p.level + 2 < levels) :
    imports? d scope (p.truncate levels) method = imports? d scope p method := by
  have hp : p.level < levels := by omega
  unfold imports?
  simp only [Place.field?_truncate hp, Option.isSome_map]
  cases harguments : p.field? "arguments" with
  | none => rfl
  | some arguments =>
      have hlevel := Place.level_of_field? harguments
      have harguments' : arguments.level + 1 < levels := by omega
      simp only [Option.map_some, Option.bind_some, required?_truncate d scope harguments',
        mixins_truncate d scope harguments']

theorem callTarget_truncate (method : String) (h : p.level < levels) :
    callTarget d (p.truncate levels) method = callTarget d p method := by
  simp only [callTarget, Place.field?_truncate h, Option.filter_map, Option.map_map,
    Function.comp_def, Place.isOneOf_truncate, d.text_truncate]

theorem callSteps_truncate (h : p.level + 2 < levels) :
    callSteps d s (p.truncate levels) = (callSteps d s p).map (Step.truncate levels) := by
  have hp : p.level < levels := by omega
  have hreceiver : ((((p.field? "receiver").map (Place.truncate levels)).map
      (placeSteps d s.deeper)).getD []) =
      (((p.field? "receiver").map (placeSteps d s.deeper)).getD []).map (Step.truncate levels) := by
    cases hr : p.field? "receiver" with
    | none => rfl
    | some r =>
        have hlevel := Place.level_of_field? hr
        exact placeSteps_truncate d (by omega)
  unfold callSteps
  rw [d.fieldText_truncate hp]
  cases d.fieldText p "method" with
  | none => rfl
  | some method =>
      simp only [imports?_truncate d s.name method h]
      cases imports? d s.name p method with
      | some imported => exact (Step.map_truncate_emitAll levels imported).symm
      | none =>
          simp only [Place.field?_truncate hp, hreceiver, callTarget_truncate d method hp,
            d.reference_truncate, List.map_cons, List.map_append, Step.map_truncate_visit?,
            Step.truncate]

/-! ## Deep calls -/

theorem walk_definition_of_tooDeep (h : d.tooDeep s.depth = true) (p : Place) :
    (rule d).walk (.definition s) p = [] := by
  refine Rule.walk_eq_nil ?_
  rw [rule, if_pos h]

/-- A name is the same in the truncated tree, unless it is lost. -/
theorem constantName?_truncate_or (levels : Nat) (p : Place) :
    constantName? d (p.truncate levels) = none ∨
      constantName? d (p.truncate levels) = constantName? d p := by
  by_cases hp : p.level < levels
  · exact Or.inr (constantName?_truncate d hp)
  · rw [constantName?, Place.kind_truncate, d.text_truncate,
      d.fieldText_eq_none (Place.children_truncate_of_le (Nat.le_of_not_lt hp)), constantName?]
    split
    · exact Or.inr rfl
    · exact Or.inl rfl
    · exact Or.inl rfl

theorem length_names_truncate_le (levels : Nat) (places : List Place) :
    ((places.map (Place.truncate levels)).filterMap (constantName? d)).length ≤
      (places.filterMap (constantName? d)).length := by
  induction places with
  | nil => exact Nat.le_refl _
  | cons p places ih =>
      rw [List.map_cons, List.filterMap_cons, List.filterMap_cons]
      rcases constantName?_truncate_or d levels p with hnone | hsame
      · rw [hnone]
        cases constantName? d p with
        | none => exact ih
        | some name => exact Nat.le_succ_of_le ih
      · rw [hsame]
        cases constantName? d p with
        | none => exact ih
        | some name => exact Nat.succ_le_succ ih

/-- At most one more item is no more than one item. -/
theorem fades_emit? {item' item : Option Reference} (h : item'.isSome → item.isSome) :
    Rule.Fades (rule d) levels (Step.emit? item') (Step.emit? item) := by
  refine .emitAll ?_
  cases item' with
  | none => exact Nat.zero_le _
  | some r' =>
      obtain ⟨r, rfl⟩ := Option.isSome_iff_exists.1 (h rfl)
      exact Nat.le_refl _

theorem isSome_superclass_of_truncate (h : (superclass d (p.truncate levels)).isSome) :
    (superclass d p).isSome := by
  by_cases hfar : p.level + 1 < levels
  · rw [superclass_truncate d hfar] at h
    exact h
  · rw [superclass, Document.text?, Option.isSome_map] at h
    cases hc : (p.truncate levels).field? "superclass" with
    | none =>
        rw [hc] at h
        cases h
    | some c =>
        have hempty := Place.children_of_mem_children_truncate (Place.mem_children_of_field? hc)
          (Nat.le_of_not_lt hfar)
        rw [hc, Option.bind_some, Place.childOfAny?_eq_none hempty] at h
        cases h

theorem isSome_namedScope_of_truncate {separator : String}
    (h : (namedScope d s (p.truncate levels) separator).isSome) :
    (namedScope d s p separator).isSome := by
  by_cases hp : p.level < levels
  · rw [namedScope, d.fieldText_truncate hp] at h
    exact h
  · rw [namedScope, d.fieldText_eq_none (Place.children_truncate_of_le (Nat.le_of_not_lt hp))] at h
    cases h

/-- In a deep definition nothing is found, whatever it is called. -/
theorem definition_fades {s' : Scope} (hdeep : d.tooDeep s.depth = true)
    (hdeep' : d.tooDeep s'.depth = true) :
    Rule.Fades (rule d) levels [.visit (.definition s') (p.truncate levels)]
      [.visit (.definition s) p] :=
  .vain _ _ (walk_definition_of_tooDeep d hdeep' _)
    (.gone _ _ (walk_definition_of_tooDeep d hdeep _) .nil)

theorem namespaceSteps_fades (hdeep : d.tooDeep s.depth = true) :
    Rule.Fades (rule d) levels (namespaceSteps d s (p.truncate levels)) (namespaceSteps d s p) := by
  refine .append (fades_emit? d fun hinherited => ?_) (definition_fades d hdeep hdeep)
  -- A superclass is reported only with the name of the class, and either may be lost.
  cases howner' : namedScope d s (p.truncate levels) "::" with
  | none =>
      rw [howner'] at hinherited
      cases hinherited
  | some owner' =>
      cases hbase' : superclass d (p.truncate levels) with
      | none =>
          rw [howner', hbase'] at hinherited
          cases hinherited
      | some base' =>
          obtain ⟨owner, howner⟩ := Option.isSome_iff_exists.1
            (isSome_namedScope_of_truncate d (Option.isSome_of_eq_some howner'))
          obtain ⟨base, hbase⟩ := Option.isSome_iff_exists.1
            (isSome_superclass_of_truncate d (Option.isSome_of_eq_some hbase'))
          rw [howner, hbase]
          rfl

theorem constantSteps_fades :
    Rule.Fades (rule d) levels
      (Step.emit? ((constantName? d (p.truncate levels)).map fun name =>
        d.reference .reference name (p.truncate levels) s.name))
      (Step.emit? ((constantName? d p).map fun name => d.reference .reference name p s.name)) := by
  refine fades_emit? d fun hname => ?_
  rw [Option.isSome_map] at hname ⊢
  rcases constantName?_truncate_or d levels p with hnone | hsame
  · rw [hnone] at hname
    cases hname
  · rw [← hsame]
    exact hname

/-- A deep place may lose names, but nothing new is found at it. -/
theorem placeSteps_fades (hdeep : d.tooDeep s.depth = true) :
    Rule.Fades (rule d) levels (placeSteps d s (p.truncate levels)) (placeSteps d s p) := by
  unfold placeSteps
  rw [Place.kind_truncate]
  split
  · exact .visit _ p .nil
  · exact constantSteps_fades d
  · exact constantSteps_fades d
  · exact namespaceSteps_fades d hdeep
  · exact namespaceSteps_fades d hdeep
  · exact definition_fades d hdeep hdeep
  · exact definition_fades d hdeep hdeep
  · exact .visit _ p .nil

theorem length_required?_truncate_le (scope : Option String) (arguments : Place) :
    (required? d scope (p.truncate levels) (arguments.truncate levels)).toList.length ≤
      (required? d scope p arguments).toList.length := by
  by_cases hfar : arguments.level + 1 < levels
  · rw [required?_truncate d scope hfar]
  · -- The string may still be there, but not its content.
    have hnone : required? d scope (p.truncate levels) (arguments.truncate levels) = none := by
      unfold required?
      cases hstring : (arguments.truncate levels).childOf? "string" with
      | none => rfl
      | some literal =>
          have hempty := Place.children_of_mem_children_truncate
            (List.mem_of_find?_eq_some hstring) (Nat.le_of_not_lt hfar)
          rw [Option.bind_eq_bind, Option.bind_some, Place.childOf?_eq_none hempty]
          rfl
    rw [hnone]
    exact Nat.zero_le _

theorem length_mixins_truncate_le (scope : Option String) (arguments : Place) :
    (mixins d scope (p.truncate levels) (arguments.truncate levels)).length ≤
      (mixins d scope p arguments).length := by
  rw [mixins, mixins, List.length_map, List.length_map]
  by_cases hfar : arguments.level < levels
  · rw [Place.children_truncate hfar]
    exact length_names_truncate_le d levels arguments.children
  · rw [Place.children_truncate_of_le (Nat.le_of_not_lt hfar)]
    exact Nat.zero_le _

/-- A call that imports something still does so in the truncated tree, and not more. -/
theorem rel_imports? (scope : Option String) (method : String) (h : p.level < levels) :
    Option.Rel (fun imported' imported => imported'.length ≤ imported.length)
      (imports? d scope (p.truncate levels) method) (imports? d scope p method) := by
  have hrequired : (((p.field? "arguments").map (Place.truncate levels)).bind
      (required? d scope (p.truncate levels))).toList.length ≤
      ((p.field? "arguments").bind (required? d scope p)).toList.length := by
    cases p.field? "arguments" with
    | none => exact Nat.le_refl _
    | some arguments => exact length_required?_truncate_le d scope arguments
  have hmixed : (((((p.field? "arguments").map (Place.truncate levels)).map
      (mixins d scope (p.truncate levels))).getD []).length) ≤
      (((p.field? "arguments").map (mixins d scope p)).getD []).length := by
    cases p.field? "arguments" with
    | none => exact Nat.le_refl _
    | some arguments => exact length_mixins_truncate_le d scope arguments
  unfold imports?
  simp only [Place.field?_truncate h, Option.isSome_map]
  split
  · exact .none
  · split
    · exact .some hrequired
    · exact .some hrequired
    · exact .some hmixed
    · exact .some hmixed
    · exact .some hmixed
    · exact .none

/-- A deep call is still called, but may lose what is in its receiver. -/
theorem callSteps_fades (hdeep : d.tooDeep s.deeper.depth = true) :
    Rule.Fades (rule d) levels (callSteps d s (p.truncate levels)) (callSteps d s p) := by
  by_cases hp : p.level < levels
  · -- The name of the method is still there, so the call stays one and becomes no import.
    have hreceiver : Rule.Fades (rule d) levels
        ((((p.field? "receiver").map (Place.truncate levels)).map
          (placeSteps d s.deeper)).getD [])
        (((p.field? "receiver").map (placeSteps d s.deeper)).getD []) := by
      cases p.field? "receiver" with
      | none => exact .nil
      | some r => exact placeSteps_fades d hdeep
    have hinside : ∀ field, Rule.Fades (rule d) levels
        (Step.visit? (.inside s.deeper) ((p.field? field).map (Place.truncate levels)))
        (Step.visit? (.inside s.deeper) (p.field? field)) := by
      intro field
      rw [← Step.map_truncate_visit?]
      exact .truncate _
    unfold callSteps
    rw [d.fieldText_truncate hp]
    cases d.fieldText p "method" with
    | none => exact .nil
    | some method =>
        have himported := rel_imports? d s.name method hp
        simp only [Place.field?_truncate hp]
        -- The two calls go the same way: both import something, or both are calls.
        generalize imports? d s.name (p.truncate levels) method = imported' at himported ⊢
        generalize imports? d s.name p method = imported at himported ⊢
        cases himported with
        | some hle => exact .emitAll hle
        | none => exact .emit _ _ ((hreceiver.append (hinside _)).append (hinside _))
  · have hlast := Nat.le_of_not_lt hp
    rw [callSteps, d.fieldText_eq_none (Place.children_truncate_of_le hlast)]
    refine .of_nil fun task q hq => ?_
    have hlower := (visit_callSteps d hq).1.lt_level
    exact Rule.walk_eq_nil (rule_of_children d task (Place.children_truncate_of_le (by omega)))

/-! ## Truncated files -/

/-- May a walk lose something at a place when the tree is truncated?  That can only happen in a deep
call. -/
def isExposed (levels : Nat) : Task × Place → Bool
  | (.call _, p) => levels < p.level + 3
  | _ => false

/-- Within its limit the walk takes the same steps in the truncated tree. -/
theorem rule_truncate {task : Task} (hp : p.level ≤ task.reach)
    (h : isExposed d.keptLevels (task, p) = false) :
    rule d task (p.truncate d.keptLevels) = (rule d task p).map (Step.truncate d.keptLevels) := by
  cases task with
  | inside s =>
      rw [rule, rule]
      split
      · rfl
      · rename_i hdepth
        have hp' : p.level ≤ 3 * s.depth + 1 := Nat.le_succ_of_le hp
        rw [Place.children_truncate (d.lt_keptLevels hp' hdepth), List.flatMap_map,
          List.map_flatMap]
        refine List.flatMap_congr fun c hc => placeSteps_truncate d ?_
        have hlevel := d.level_add_lt_keptLevels hp' hdepth hc
        omega
  | definition s =>
      rw [rule, rule]
      split
      · rfl
      · rename_i hdepth
        rw [definitionParts_truncate (d.lt_keptLevels hp hdepth), List.flatMap_map,
          List.map_flatMap]
        refine List.flatMap_congr fun c hc => placeSteps_truncate d ?_
        have hlevel := d.level_add_lt_keptLevels hp hdepth (List.mem_filter.1 hc).1
        omega
  | call s =>
      refine callSteps_truncate d ?_
      simp only [isExposed, decide_eq_false_iff_not] at h
      omega

theorem fadesOn : Rule.FadesOn (rule d) d.keptLevels fun task p => p.level ≤ task.reach := by
  refine .of_reach Task.reach 1 (visit_rule d) fun {task p} hp => ?_
  cases hexposed : isExposed d.keptLevels (task, p) with
  | false =>
      rw [rule_truncate d hp hexposed]
      exact .truncate _
  | true =>
      cases task with
      | inside s => cases hexposed
      | definition s => cases hexposed
      | call s =>
          have hreach : p.level ≤ 3 * s.deeper.depth + 1 :=
            Nat.le_trans hp (Nat.add_le_add_right (Nat.mul_le_mul_left 3 (Nat.le_succ _)) 1)
          exact callSteps_fades d
            (d.tooDeep_of_keptLevels hreach (of_decide_eq_true hexposed))

/-- A place that is not exposed hands out the same in the truncated tree. -/
theorem handsOut_truncate {task : Task} (hp : p.level ≤ task.reach)
    (h : isExposed d.keptLevels (task, p) = false) :
    (rule d).handsOut task (p.truncate d.keptLevels) = (rule d).handsOut task p :=
  Rule.handsOut_truncate (rule_truncate d hp h)

/-- The uses of a file stay the same when its tree is truncated, exactly when they do so at every
exposed place to which the walk comes. -/
theorem walk_truncate_iff (tree : Node) :
    references d (.root (tree.truncate d.keptLevels)) = references d (.root tree) ↔
      ∀ v ∈ (rule d).visits (.inside {}) (.root tree), isExposed d.keptLevels v = true →
        (rule d).handsOut v.1 (v.2.truncate d.keptLevels) = (rule d).handsOut v.1 v.2 := by
  have hstart : (Place.root tree).level ≤ (Task.inside {}).reach := Nat.zero_le _
  exact (fadesOn d).walk_eq_iff_of_exposed (isExposed d.keptLevels) (handsOut_truncate d) hstart

end SourceIndex.Uses.Ruby
