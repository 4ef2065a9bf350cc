import Mathlib.Algebra.Order.BigOperators.Group.List
import Mathlib.Algebra.Order.Group.Nat
import SourceIndex.Proofs.Tree.TruncatedWalk
import SourceIndex.Uses.PHP

/-!
# How deep uses in PHP are looked for

The walk through a PHP file stops at a depth, but not inside a call of a method whose object is a
call again, and not inside the clauses that list what a type builds on.  Everything else is found in
the truncated tree as well.
-/

namespace SourceIndex.Idiom.PHP

variable {levels : Nat}

theorem namesRule_descends : namesRule.Descends := by
  intro task task' p q h
  obtain ⟨c, hc, h⟩ := List.mem_map.1 h
  split at h
  · cases h
  · cases h
    exact Place.height_lt_of_mem_children hc

theorem namesRule_of_children {task : Unit} {p : Place} (h : p.children = []) :
    namesRule task p = [] := by
  rw [namesRule, h, List.map_nil]

/-- In the truncated tree a clause lists at most as many names. -/
theorem length_clauseNames_truncate (d : Document) (clause : Place) :
    (clauseNames d (clause.truncate levels)).length ≤ (clauseNames d clause).length := by
  -- The walk through a clause has no limit, so all places are equal to it.
  have hfades : Rule.FadesOn namesRule levels fun _ _ => True := by
    refine ⟨namesRule_descends, fun _ _ => trivial, fun {task p} _ => ?_⟩
    by_cases hp : p.level < levels
    · rw [namesRule, namesRule, Place.children_truncate hp, List.map_map, List.map_eq_flatMap,
        List.map_eq_flatMap]
      refine Rule.Fades.flatMap fun c _ => ?_
      simp only [Function.comp_def, Place.isOneOf_truncate]
      split
      · exact .emit _ _ .nil
      · exact .visit () c .nil
    · refine Rule.Fades.of_children_eq_nil (fun _ _ => namesRule_of_children) (by omega) ?_
      intro task' q hq
      obtain ⟨c, hc, hq⟩ := List.mem_map.1 hq
      have hlevel := Place.level_of_mem_children hc
      split at hq
      · cases hq
      · cases hq
        omega
  rw [clauseNames, clauseNames, List.length_map, List.length_map]
  exact hfades.length_le trivial

end SourceIndex.Idiom.PHP

namespace SourceIndex.Uses.PHP

open SourceIndex.Idiom.PHP

variable (d : Document) {levels : Nat} {s : Scope} {p : Place}

/-- The depth that a task has come to. -/
def Task.depth : Task → Nat
  | inside s | memberCall s | scopedCall s | functionCall s => s.depth

/-- The last level that a task can have come to. -/
def Task.reach (task : Task) : Nat :=
  3 * task.depth + 1

/-! ## Where the rule goes on to -/

theorem visit_argumentSteps {task : Task} {q : Place} (h : Step.visit task q ∈ argumentSteps s p) :
    p.Below 1 q ∧ task.depth = s.depth + 1 := by
  obtain ⟨hbelow, rfl⟩ := Step.below_of_mem_visit? h
  exact ⟨hbelow, rfl⟩

theorem visit_memberCallSteps {task : Task} {q : Place}
    (h : Step.visit task q ∈ memberCallSteps d s p) :
    p.Below 1 q ∧ task.depth = s.depth + 1 := by
  unfold memberCallSteps at h
  split at h
  · cases h
  · rcases List.mem_cons.1 h with h | h
    · cases h
    · rcases List.mem_append.1 h with h | h
      · obtain ⟨o, ho, heq⟩ := List.mem_map.1 h
        cases heq
        refine ⟨Place.below_of_field? (Option.mem_toList.1 ho), ?_⟩
        dsimp only
        split <;> rfl
      · exact visit_argumentSteps h

theorem visit_scopedCallSteps {task : Task} {q : Place}
    (h : Step.visit task q ∈ scopedCallSteps d s p) :
    p.Below 1 q ∧ task.depth = s.depth + 1 := by
  unfold scopedCallSteps at h
  split at h
  · cases h
  · rcases List.mem_cons.1 h with h | h
    · cases h
    · exact visit_argumentSteps h

theorem visit_functionCallSteps {task : Task} {q : Place}
    (h : Step.visit task q ∈ functionCallSteps d s p) :
    p.Below 1 q ∧ task.depth = s.depth + 1 := by
  unfold functionCallSteps at h
  split at h
  · cases h
  · rcases List.mem_append.1 h with h | h
    · split at h
      · cases h
      · cases List.mem_singleton.1 h
    · exact visit_argumentSteps h

theorem visit_childSteps {task : Task} {c q : Place}
    (h : Step.visit task q ∈ childSteps d s c) :
    (q = c ∨ c.Below 1 q) ∧ task.depth = s.depth + 1 := by
  have hcall : c.Below 1 q ∧ task.depth = s.depth + 1 →
      (q = c ∨ c.Below 1 q) ∧ task.depth = s.depth + 1 := fun h => ⟨Or.inr h.1, h.2⟩
  simp only [childSteps] at h
  split at h
  · exact absurd h (Step.visit_notMem_emitAll _)
  · exact absurd h (Step.visit_notMem_emitAll _)
  · exact hcall (visit_memberCallSteps d h)
  · exact hcall (visit_memberCallSteps d h)
  · exact hcall (visit_memberCallSteps d h)
  · exact hcall (visit_scopedCallSteps d h)
  · rcases List.mem_append.1 h with h | h
    · exact absurd h (Step.visit_notMem_emitAll _)
    · exact hcall (visit_argumentSteps h)
  · exact hcall (visit_functionCallSteps d h)
  · obtain ⟨hbelow, rfl⟩ := Step.below_of_mem_visit? h
    exact hcall ⟨hbelow, rfl⟩
  · cases List.mem_singleton.1 h
    exact ⟨Or.inl rfl, rfl⟩
  · cases List.mem_singleton.1 h
    exact ⟨Or.inl rfl, rfl⟩
  · split at h
    · rcases List.mem_append.1 h with h | h
      · exact absurd h (Step.visit_notMem_emitAll _)
      · cases List.mem_singleton.1 h
        exact ⟨Or.inl rfl, rfl⟩
    · cases List.mem_singleton.1 h
      exact ⟨Or.inl rfl, rfl⟩

theorem mem_withSpace {space : Option String} {places : List Place} {v : Option String × Place}
    (h : v ∈ withSpace d space places) : v.2 ∈ places := by
  induction places generalizing space with
  | nil => cases h
  | cons c rest ih =>
      rcases List.mem_cons.1 h with rfl | h
      · exact List.mem_cons_self
      · exact List.mem_cons_of_mem _ (ih h)

/-- Every step goes down, two levels at most, and counts as one step of depth. -/
theorem visit_rule {task task' : Task} {q : Place} (h : Step.visit task' q ∈ rule d task p) :
    p.Below 2 q ∧ task'.depth = task.depth + 1 := by
  cases task with
  | inside s =>
      rw [rule] at h
      split at h
      · cases h
      · obtain ⟨⟨space, c⟩, hc, h⟩ := List.mem_flatMap.1 h
        have hchild := Place.below_of_mem_children (mem_withSpace d hc)
        obtain ⟨rfl | hbelow, hdepth⟩ := visit_childSteps d h
        · exact ⟨hchild.mono (by omega), hdepth⟩
        · exact ⟨hchild.trans hbelow, hdepth⟩
  | memberCall s =>
      obtain ⟨hbelow, hdepth⟩ := visit_memberCallSteps d h
      exact ⟨hbelow.mono (by omega), hdepth⟩
  | scopedCall s =>
      obtain ⟨hbelow, hdepth⟩ := visit_scopedCallSteps d h
      exact ⟨hbelow.mono (by omega), hdepth⟩
  | functionCall s =>
      obtain ⟨hbelow, hdepth⟩ := visit_functionCallSteps d h
      exact ⟨hbelow.mono (by omega), hdepth⟩

theorem rule_of_children (task : Task) (h : p.children = []) : rule d task p = [] := by
  cases task with
  | inside s => rw [rule, h, withSpace, List.flatMap_nil, ite_self]
  | memberCall s => rw [rule, memberCallSteps, d.fieldText_eq_none h]
  | scopedCall s => rw [rule, scopedCallSteps, d.fieldText_eq_none h]
  | functionCall s => rw [rule, functionCallSteps, d.fieldText_eq_none h]

/-! ## Steps in the truncated tree -/

theorem argumentSteps_truncate (h : p.level < levels) :
    argumentSteps s (p.truncate levels) = (argumentSteps s p).map (Step.truncate levels) := by
  rw [argumentSteps, argumentSteps, Place.field?_truncate h, Step.map_truncate_visit?]

theorem memberCallSteps_truncate (h : p.level < levels) :
    memberCallSteps d s (p.truncate levels) =
      (memberCallSteps d s p).map (Step.truncate levels) := by
  unfold memberCallSteps
  rw [d.fieldText_truncate h]
  cases d.fieldText p "name" with
  | none => rfl
  | some name =>
      simp only [argumentSteps_truncate h, d.reference_truncate, List.map_cons, List.map_append,
        Step.truncate, Place.field?_truncate h]
      cases p.field? "object" with
      | none => rfl
      | some o =>
          simp only [Option.map_some, Option.toList_some, List.map_cons, List.map_nil,
            Place.kind_truncate, Step.truncate]

theorem scopedCallSteps_truncate (h : p.level < levels) :
    scopedCallSteps d s (p.truncate levels) =
      (scopedCallSteps d s p).map (Step.truncate levels) := by
  unfold scopedCallSteps
  rw [d.fieldText_truncate h, d.fieldText_truncate h]
  cases d.fieldText p "name" with
  | none => rfl
  | some name =>
      simp only [argumentSteps_truncate h, d.reference_truncate, List.map_cons, Step.truncate]

theorem functionCallSteps_truncate (h : p.level < levels) :
    functionCallSteps d s (p.truncate levels) =
      (functionCallSteps d s p).map (Step.truncate levels) := by
  unfold functionCallSteps
  rw [d.fieldText_truncate h]
  cases d.fieldText p "function" with
  | none => rfl
  | some function =>
      simp only [argumentSteps_truncate h, d.reference_truncate, List.map_append]
      split <;> rfl

theorem creationSteps_truncate (h : p.level < levels) :
    creationSteps d s (p.truncate levels) = (creationSteps d s p).map (Step.truncate levels) := by
  simp only [creationSteps, argumentSteps_truncate h, Place.childOfAny?_truncate h,
    List.map_append, Step.map_truncate_emit?, Option.map_map, Function.comp_def, d.text_truncate,
    d.reference_truncate]

theorem importOf?_truncate (h : p.level + 1 < levels) :
    importOf? d (p.truncate levels) = importOf? d p := by
  have hp : p.level < levels := Nat.lt_of_succ_lt h
  simp only [importOf?, Place.childOfAny?_truncate hp, Place.childOf?_truncate hp,
    d.fieldText_truncate hp, Option.bind_eq_bind, Option.bind_map, Function.comp_def,
    d.text_truncate]
  cases halias : p.childOf? "namespace_aliasing_clause" with
  | none => rfl
  | some a =>
      have ha : a.level < levels := by
        rw [Place.level_of_childOf? halias]
        exact h
      simp only [Option.map_some, Place.childOf?_truncate ha, d.text?_map_truncate]

/-- Clauses that bring in the same do so in the truncated tree. -/
theorem filterMap_importOf?_truncate {clauses : List Place}
    (h : ∀ c ∈ clauses, c.level + 1 < levels) :
    (clauses.map (Place.truncate levels)).filterMap (importOf? d) =
      clauses.filterMap (importOf? d) := by
  rw [List.filterMap_map]
  exact List.filterMap_congr fun c hc => importOf?_truncate d (h c hc)

theorem importsOfGroup_truncate {group : Place} (h : p.level < levels)
    (hgroup : group.level + 2 < levels) :
    importsOfGroup d (p.truncate levels) (group.truncate levels) = importsOfGroup d p group := by
  have hgroup' : group.level < levels := by omega
  have hclauses : ∀ c ∈ group.children.filter fun c =>
      c.isOneOf ["namespace_use_clause", "namespace_use_group_clause"], c.level + 1 < levels := by
    intro c hc
    rw [Place.level_of_mem_children (List.mem_filter.1 hc).1]
    omega
  simp only [importsOfGroup, Place.childOfAny?_truncate h,
    Place.children_truncate hgroup', List.filter_map, Function.comp_def,
    Place.isOneOf_truncate, Option.map_map, d.text_truncate,
    filterMap_importOf?_truncate d hclauses]

theorem imports_truncate (scope : Option String) (h : p.level + 3 < levels) :
    imports d scope (p.truncate levels) = imports d scope p := by
  have hp : p.level < levels := by omega
  simp only [imports, Place.children_truncate hp, List.flatMap_map, Place.kind_truncate,
    d.reference_truncate]
  refine congrArg (List.map _) (List.flatMap_congr fun c hc => ?_)
  have hlevel := Place.level_of_mem_children hc
  rw [importOf?_truncate d (by omega), importsOfGroup_truncate d hp (by omega)]

theorem traits_truncate (scope : Option String) (h : p.level < levels) :
    traits d scope (p.truncate levels) = traits d scope p := by
  simp only [traits, Place.children_truncate h, List.filter_map, List.map_map, Function.comp_def,
    Place.isOneOf_truncate, d.text_truncate, d.reference_truncate]

/-- What a child uses is the same in the truncated tree, if the child declares no type. -/
theorem childSteps_truncate {c : Place} (h : c.level + 3 < levels)
    (hkind : typeKinds.contains c.kind = false) :
    childSteps d s (c.truncate levels) = (childSteps d s c).map (Step.truncate levels) := by
  have hc : c.level < levels := by omega
  unfold childSteps
  simp only [Place.kind_truncate, d.fieldText_truncate hc]
  split
  · rw [imports_truncate d _ h, Step.map_truncate_emitAll]
  · rw [traits_truncate d _ hc, Step.map_truncate_emitAll]
  · exact memberCallSteps_truncate d hc
  · exact memberCallSteps_truncate d hc
  · exact memberCallSteps_truncate d hc
  · exact scopedCallSteps_truncate d hc
  · exact creationSteps_truncate d hc
  · exact functionCallSteps_truncate d hc
  · rw [Place.field?_truncate hc, Step.map_truncate_visit?]
  · rfl
  · rfl
  · rw [hkind]
    rfl

theorem length_heritage_truncate (owner : String) (h : p.level < levels) :
    (heritage d owner (p.truncate levels)).length ≤ (heritage d owner p).length := by
  simp only [heritage, Place.children_truncate h, List.flatMap_map, Place.kind_truncate,
    List.length_flatMap]
  refine List.sum_le_sum fun c hc => ?_
  split
  · simp only [List.length_map]
    exact length_clauseNames_truncate d c
  · simp only [List.length_map]
    exact length_clauseNames_truncate d c
  · exact Nat.le_refl _

/-- A type uses its heritage, and then what stands in it. -/
theorem childSteps_of_typeKinds {c : Place} (hkind : typeKinds.contains c.kind = true) :
    childSteps d s c =
      Step.emitAll ((((d.fieldText c "name").map fun name =>
        Text.qualify s.name name separator).map fun owner => heritage d owner c).getD []) ++
        [.visit (.inside (s.enter? ((d.fieldText c "name").map fun name =>
          Text.qualify s.name name separator))) c] := by
  simp only [childSteps]
  split <;> rename_i heq <;> first | rw [if_pos hkind] | (rw [heq] at hkind; cases hkind)

/-- What a child uses fades: only the heritage of a type can be lost. -/
theorem childSteps_fades {c : Place} (h : c.level + 3 < levels) :
    Rule.Fades (rule d) levels (childSteps d s (c.truncate levels)) (childSteps d s c) := by
  cases hkind : typeKinds.contains c.kind with
  | false =>
      rw [childSteps_truncate d h hkind]
      exact .truncate _
  | true =>
      have hc : c.level < levels := by omega
      have hkind' : typeKinds.contains (c.truncate levels).kind = true := by
        rw [Place.kind_truncate, hkind]
      rw [childSteps_of_typeKinds d hkind, childSteps_of_typeKinds d hkind', d.fieldText_truncate hc]
      refine (Rule.Fades.emitAll ?_).append (.visit _ c .nil)
      cases d.fieldText c "name" with
      | none => exact Nat.le_refl _
      | some name => exact length_heritage_truncate d _ hc

/-- Siblings have the same namespaces in the truncated tree. -/
theorem withSpace_truncate {places : List Place} (h : ∀ c ∈ places, c.level < levels)
    (space : Option String) :
    withSpace d space (places.map (Place.truncate levels)) =
      (withSpace d space places).map fun v => (v.1, v.2.truncate levels) := by
  induction places generalizing space with
  | nil => rfl
  | cons c rest ih =>
      have hc := h c List.mem_cons_self
      rw [List.map_cons, withSpace, withSpace, List.map_cons, Place.kind_truncate,
        Place.field?_truncate hc, Option.isNone_map, d.fieldText_truncate hc,
        ih fun c' hc' => h c' (List.mem_cons_of_mem _ hc')]

/-- May a walk lose something at a place when the tree is truncated?  That can only happen in a deep
call, or in the heritage of a type. -/
def isExposed (levels : Nat) : Task × Place → Bool
  | (.inside _, p) => p.children.any fun c => typeKinds.contains c.kind
  | (_, p) => levels < p.level + 3

/-- The steps of calls are those of the whole tree above the last level. -/
theorem rule_truncate_of_call {task : Task} (hcall : ∀ s, task ≠ .inside s) (h : p.level < levels) :
    rule d task (p.truncate levels) = (rule d task p).map (Step.truncate levels) := by
  cases task with
  | inside s => exact absurd rfl (hcall s)
  | memberCall s => exact memberCallSteps_truncate d h
  | scopedCall s => exact scopedCallSteps_truncate d h
  | functionCall s => exact functionCallSteps_truncate d h

/-- The steps of calls fade, because on the last level there is nothing to call. -/
theorem fades_of_call {task : Task} (hcall : ∀ s, task ≠ .inside s) :
    Rule.Fades (rule d) levels (rule d task (p.truncate levels)) (rule d task p) := by
  by_cases hlevel : p.level < levels
  · rw [rule_truncate_of_call d hcall hlevel]
    exact .truncate _
  · -- Without children a call has no name, and neither has any below it.
    have hempty := fun (task : Task) {p : Place} => rule_of_children d (p := p) task
    refine Rule.Fades.of_children_eq_nil hempty (by omega) fun task' q hq => ?_
    have hlower := (visit_rule d hq).1.lt_level
    omega

theorem fadesOn : Rule.FadesOn (rule d) d.keptLevels fun task p => p.level ≤ task.reach := by
  refine .of_reach Task.reach 2 (fun h => ?_) fun {task p} hp => ?_
  · obtain ⟨hbelow, hdepth⟩ := visit_rule d h
    refine ⟨hbelow, ?_⟩
    simp only [Task.reach, hdepth]
    omega
  · cases task with
    | inside s =>
        rw [rule, rule]
        split
        · exact .nil
        · rename_i hdepth
          have hchildren : ∀ c ∈ p.children, c.level + 3 < d.keptLevels := by
            intro c hc
            have hlevel := d.level_add_lt_keptLevels hp hdepth hc
            omega
          rw [Place.children_truncate (d.lt_keptLevels hp hdepth),
            withSpace_truncate d fun c hc => Nat.lt_of_le_of_lt (Nat.le_add_right _ 3)
              (hchildren c hc), List.flatMap_map]
          exact Rule.Fades.flatMap fun v hv => childSteps_fades d (hchildren _ (mem_withSpace d hv))
    | memberCall s => exact fades_of_call d fun _ => Task.noConfusion
    | scopedCall s => exact fades_of_call d fun _ => Task.noConfusion
    | functionCall s => exact fades_of_call d fun _ => Task.noConfusion

/-- A place that is not exposed hands out the same in the truncated tree. -/
theorem handsOut_truncate {task : Task} (hp : p.level ≤ task.reach)
    (h : isExposed d.keptLevels (task, p) = false) :
    (rule d).handsOut task (p.truncate d.keptLevels) = (rule d).handsOut task p := by
  refine Rule.handsOut_truncate ?_
  by_cases hinside : ∃ s, task = .inside s
  · obtain ⟨s, rfl⟩ := hinside
    rw [rule, rule]
    split
    · rfl
    · rename_i hdepth
      have hchildren : ∀ c ∈ p.children, c.level + 3 < d.keptLevels := by
        intro c hc
        have hlevel := d.level_add_lt_keptLevels hp hdepth hc
        omega
      rw [Place.children_truncate (d.lt_keptLevels hp hdepth),
        withSpace_truncate d fun c hc => Nat.lt_of_le_of_lt (Nat.le_add_right _ 3)
          (hchildren c hc), List.flatMap_map, List.map_flatMap]
      refine List.flatMap_congr fun v hv => ?_
      have hv' := mem_withSpace d hv
      exact childSteps_truncate d (hchildren _ hv') (Bool.eq_false_iff.2 (List.any_eq_false.1 h _ hv'))
  · -- The three kinds of calls are exposed under the same condition.
    have hcall : ∀ s, task ≠ .inside s := fun s heq => hinside ⟨s, heq⟩
    refine rule_truncate_of_call d hcall ?_
    cases task with
    | inside s => exact absurd rfl (hcall s)
    | _ =>
        simp only [isExposed, decide_eq_false_iff_not] at h
        omega

/-- The uses of a file stay the same when its tree is truncated, exactly when they do so at every
exposed place to which the walk comes. -/
theorem walk_truncate_iff (tree : Node) :
    references d (.root (tree.truncate d.keptLevels)) = references d (.root tree) ↔
      ∀ v ∈ (rule d).visits (.inside {}) (.root tree), isExposed d.keptLevels v = true →
        (rule d).handsOut v.1 (v.2.truncate d.keptLevels) = (rule d).handsOut v.1 v.2 := by
  have hstart : (Place.root tree).level ≤ (Task.inside {}).reach := Nat.zero_le _
  exact (fadesOn d).walk_eq_iff_of_exposed (isExposed d.keptLevels) (handsOut_truncate d) hstart

end SourceIndex.Uses.PHP
