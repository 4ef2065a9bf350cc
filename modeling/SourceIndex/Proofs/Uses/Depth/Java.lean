import SourceIndex.Proofs.Tree.TruncatedWalk
import SourceIndex.Uses.Java

/-!
# How deep uses in Java are looked for

The walk through a Java file stops at a depth, but not inside an invocation whose receiver is an
invocation again, and not inside the lists of a heritage clause.  Everything else is found in the
truncated tree as well.
-/

namespace SourceIndex.Idiom.Java

variable {levels : Nat}

theorem heritageRule_descends : heritageRule.Descends := by
  intro task task' p q h
  obtain ⟨c, hc, h⟩ := List.mem_flatMap.1 h
  split at h
  · cases List.mem_singleton.1 h
    exact Place.height_lt_of_mem_children hc
  · cases List.mem_singleton.1 h
  · cases List.mem_singleton.1 h
  · cases List.mem_singleton.1 h
  · cases h

theorem heritageRule_of_children {task : Unit} {p : Place} (h : p.children = []) :
    heritageRule task p = [] := by
  rw [heritageRule, h, List.flatMap_nil]

/-- In the truncated tree a heritage clause lists at most as many types. -/
theorem length_heritageTypes_truncate (clause : Place) :
    (heritageTypes (clause.truncate levels)).length ≤ (heritageTypes clause).length := by
  -- The walk through a clause has no limit, so all places are equal to it.
  have hfades : Rule.FadesOn heritageRule levels fun _ _ => True := by
    refine ⟨heritageRule_descends, fun _ _ => trivial, fun {task p} _ => ?_⟩
    by_cases hp : p.level < levels
    · rw [heritageRule, heritageRule, Place.children_truncate hp, List.flatMap_map]
      refine Rule.Fades.flatMap fun c _ => ?_
      rw [Place.kind_truncate]
      split
      · exact .visit () c .nil
      · exact .emit _ _ .nil
      · exact .emit _ _ .nil
      · exact .emit _ _ .nil
      · exact .nil
    · refine Rule.Fades.of_children_eq_nil (fun _ _ => heritageRule_of_children) (by omega) ?_
      intro task' q hq
      obtain ⟨c, hc, hq⟩ := List.mem_flatMap.1 hq
      have hlevel := Place.level_of_mem_children hc
      split at hq
      · cases List.mem_singleton.1 hq
        omega
      · cases List.mem_singleton.1 hq
      · cases List.mem_singleton.1 hq
      · cases List.mem_singleton.1 hq
      · cases hq
  exact hfades.length_le trivial

theorem baseTypeName_truncate (d : Document) (levels : Nat) (p : Place) :
    baseTypeName d (p.truncate levels) = baseTypeName d p := by
  rw [baseTypeName, Document.text_truncate, baseTypeName]

end SourceIndex.Idiom.Java

namespace SourceIndex.Uses.Java

open SourceIndex.Idiom.Java

variable (d : Document) {levels : Nat} {s : Scope} {p : Place}

/-- The depth that a task has come to. -/
def Task.depth : Task → Nat
  | inside s | invocation s => s.depth

/-- The last level that a task can have come to. -/
def Task.reach (task : Task) : Nat :=
  3 * task.depth + 1

/-! ## Where the rule goes on to -/

theorem visit_invocationSteps {task : Task} {q : Place}
    (h : Step.visit task q ∈ invocationSteps d s p) :
    p.Below 1 q ∧ task.depth = s.depth + 1 := by
  unfold invocationSteps at h
  split at h
  · cases h
  · rcases List.mem_cons.1 h with h | h
    · cases h
    · rcases List.mem_append.1 h with h | h
      · split at h
        · rename_i o ho
          split at h
          · cases List.mem_singleton.1 h
            exact ⟨Place.below_of_field? ho, rfl⟩
          · cases List.mem_singleton.1 h
            exact ⟨Place.below_of_field? ho, rfl⟩
        · cases h
      · obtain ⟨hbelow, rfl⟩ := Step.below_of_mem_visit? h
        exact ⟨hbelow, rfl⟩

theorem visit_childSteps {task : Task} {c q : Place}
    (h : Step.visit task q ∈ childSteps d s c) :
    (q = c ∨ c.Below 1 q) ∧ task.depth = s.depth + 1 := by
  unfold childSteps at h
  split at h
  · exact absurd h (Step.visit_notMem_emit? _)
  · obtain ⟨hbelow, hdepth⟩ := visit_invocationSteps d h
    exact ⟨Or.inr hbelow, hdepth⟩
  · simp only [creationSteps, List.mem_append] at h
    rcases h with (h | h) | h
    · exact absurd h (Step.visit_notMem_emit? _)
    · obtain ⟨hbelow, rfl⟩ := Step.below_of_mem_visit? h
      exact ⟨Or.inr hbelow, rfl⟩
    · obtain ⟨rfl, hq⟩ := Step.mem_visit?.1 h
      exact ⟨Or.inr (Place.below_of_mem_children (List.mem_of_find?_eq_some hq)), rfl⟩
  · cases List.mem_singleton.1 h
    exact ⟨Or.inl rfl, rfl⟩
  · cases List.mem_singleton.1 h
    exact ⟨Or.inl rfl, rfl⟩
  · split at h
    · rcases List.mem_append.1 h with h | h
      · exact absurd h (Step.visit_notMem_emitAll _)
      · cases List.mem_singleton.1 h
        exact ⟨Or.inl rfl, rfl⟩
    · cases List.mem_singleton.1 h
      exact ⟨Or.inl rfl, rfl⟩

/-- Every step goes down, two levels at most, and counts as one step of depth. -/
theorem visit_rule {task task' : Task} {q : Place} (h : Step.visit task' q ∈ rule d task p) :
    p.Below 2 q ∧ task'.depth = task.depth + 1 := by
  cases task with
  | inside s =>
      rw [rule] at h
      split at h
      · cases h
      · obtain ⟨c, hc, h⟩ := List.mem_flatMap.1 h
        have hchild := Place.below_of_mem_children hc
        obtain ⟨rfl | hbelow, hdepth⟩ := visit_childSteps d h
        · exact ⟨hchild.mono (by omega), hdepth⟩
        · exact ⟨hchild.trans hbelow, hdepth⟩
  | invocation s =>
      obtain ⟨hbelow, hdepth⟩ := visit_invocationSteps d h
      exact ⟨hbelow.mono (by omega), hdepth⟩

theorem rule_of_children (task : Task) (h : p.children = []) : rule d task p = [] := by
  cases task with
  | inside s => rw [rule, h, List.flatMap_nil, ite_self]
  | invocation s => rw [rule, invocationSteps, d.fieldText_eq_none h]

/-! ## Steps in the truncated tree -/

theorem namedScope_truncate (h : p.level < levels) :
    namedScope d s (p.truncate levels) = namedScope d s p := by
  rw [namedScope, d.fieldText_truncate h, namedScope]

theorem import?_truncate (scope : Option String) (h : p.level < levels) :
    Java.import? d scope (p.truncate levels) = Java.import? d scope p := by
  simp only [import?, Place.childOfAny?_truncate h, Place.hasChild_truncate h, Option.map_map,
    Function.comp_def, d.text_truncate, d.reference_truncate]

theorem invocationSteps_truncate (h : p.level < levels) :
    invocationSteps d s (p.truncate levels) =
      (invocationSteps d s p).map (Step.truncate levels) := by
  unfold invocationSteps
  rw [d.fieldText_truncate h]
  cases d.fieldText p "name" with
  | none => rfl
  | some name =>
      simp only [Place.field?_truncate h, List.map_cons, List.map_append,
        Step.map_truncate_visit?, Step.truncate, d.reference_truncate, Option.map_map,
        Function.comp_def, d.text_truncate]
      cases p.field? "object" with
      | none => rfl
      | some o =>
          simp only [Option.map_some, Place.kind_truncate]
          split <;> rfl

theorem creationSteps_truncate (h : p.level < levels) :
    creationSteps d s (p.truncate levels) = (creationSteps d s p).map (Step.truncate levels) := by
  simp only [creationSteps, List.map_append, Step.map_truncate_emit?, Step.map_truncate_visit?,
    Place.field?_truncate h, Place.childOf?_truncate h, Option.map_map, Function.comp_def,
    baseTypeName_truncate, d.reference_truncate]

/-- What a child uses is the same in the truncated tree, if the child declares no type. -/
theorem childSteps_truncate {c : Place} (h : c.level < levels)
    (hkind : typeKinds.contains c.kind = false) :
    childSteps d s (c.truncate levels) = (childSteps d s c).map (Step.truncate levels) := by
  unfold childSteps
  rw [Place.kind_truncate]
  split
  · rw [import?_truncate d _ h, Step.map_truncate_emit?]
  · exact invocationSteps_truncate d h
  · exact creationSteps_truncate d h
  · rw [namedScope_truncate d h]
    rfl
  · rw [namedScope_truncate d h]
    rfl
  · rw [hkind]
    rfl

theorem length_heritage_truncate (owner : String) (h : p.level < levels) :
    (heritage d owner (p.truncate levels)).length ≤ (heritage d owner p).length := by
  have htypes : ∀ clause : Option Place,
      (((clause.map (Place.truncate levels)).map heritageTypes).getD []).length ≤
        ((clause.map heritageTypes).getD []).length := by
    intro clause
    cases clause with
    | none => exact Nat.le_refl _
    | some clause => exact length_heritageTypes_truncate clause
  -- The three clauses stand where they stood, and none of them lists more than before.
  have hsuperclass := htypes (p.field? "superclass")
  have hinterfaces := htypes (p.field? "interfaces")
  have hextends := htypes (p.childOf? "extends_interfaces")
  simp only [heritage, Place.field?_truncate h, Place.childOf?_truncate h, List.length_append,
    List.length_map, List.length_take]
  omega

/-- A type uses its heritage, and then what stands in it. -/
theorem childSteps_of_typeKinds {c : Place} (hkind : typeKinds.contains c.kind = true) :
    childSteps d s c =
      Step.emitAll (((namedScope d s c).map fun owner => heritage d owner c).getD []) ++
        [.visit (.inside (s.enter? (namedScope d s c))) c] := by
  unfold childSteps
  split <;> rename_i heq
  · rw [heq] at hkind
    cases hkind
  · rw [heq] at hkind
    cases hkind
  · rw [heq] at hkind
    cases hkind
  · rw [heq] at hkind
    cases hkind
  · rw [heq] at hkind
    cases hkind
  · rw [if_pos hkind]

/-- What a child uses fades: only the heritage of a type can be lost. -/
theorem childSteps_fades {c : Place} (h : c.level < levels) :
    Rule.Fades (rule d) levels (childSteps d s (c.truncate levels)) (childSteps d s c) := by
  cases hkind : typeKinds.contains c.kind with
  | false =>
      rw [childSteps_truncate d h hkind]
      exact .truncate _
  | true =>
      have hkind' : typeKinds.contains (c.truncate levels).kind = true := by
        rw [Place.kind_truncate, hkind]
      rw [childSteps_of_typeKinds d hkind, childSteps_of_typeKinds d hkind', namedScope_truncate d h]
      refine (Rule.Fades.emitAll ?_).append (.visit _ c .nil)
      cases namedScope d s c with
      | none => exact Nat.le_refl _
      | some owner => exact length_heritage_truncate d owner h

/-- May a walk lose something at a place when the tree is truncated?  That can only happen in a deep
invocation, or in the heritage of a type. -/
def isExposed (levels : Nat) : Task × Place → Bool
  | (.inside _, p) => p.children.any fun c => typeKinds.contains c.kind
  | (.invocation _, p) => levels < p.level + 3

theorem fadesOn : Rule.FadesOn (rule d) d.keptLevels fun task p => p.level ≤ task.reach := by
  refine .of_reach Task.reach 2 (fun h => ?_) fun {task p} hp => ?_
  · obtain ⟨hbelow, hdepth⟩ := visit_rule d h
    refine ⟨hbelow, ?_⟩
    simp only [Task.reach, hdepth]
    omega
  · cases task with
    | inside s =>
        rw [rule, rule]
        split
        · exact .nil
        · rename_i hdepth
          rw [Place.children_truncate (d.lt_keptLevels hp hdepth), List.flatMap_map]
          refine Rule.Fades.flatMap fun c hc => childSteps_fades d ?_
          have hlevel := d.level_add_lt_keptLevels hp hdepth hc
          omega
    | invocation s =>
        by_cases hlevel : p.level < d.keptLevels
        · rw [rule, rule, invocationSteps_truncate d hlevel]
          exact .truncate _
        · -- Without children an invocation has no name, and neither has any below it.
          have hempty := fun (task : Task) {p : Place} => rule_of_children d (p := p) task
          refine Rule.Fades.of_children_eq_nil hempty (by omega) fun task' q hq => ?_
          have hlower := (visit_rule d hq).1.lt_level
          omega

/-- A place that is not exposed hands out the same in the truncated tree. -/
theorem handsOut_truncate {task : Task} (hp : p.level ≤ task.reach)
    (h : isExposed d.keptLevels (task, p) = false) :
    (rule d).handsOut task (p.truncate d.keptLevels) = (rule d).handsOut task p := by
  cases task with
  | inside s =>
      refine Rule.handsOut_truncate ?_
      rw [rule, rule]
      split
      · rfl
      · rename_i hdepth
        rw [Place.children_truncate (d.lt_keptLevels hp hdepth), List.flatMap_map,
          List.map_flatMap]
        refine List.flatMap_congr fun c hc => childSteps_truncate d ?_ ?_
        · have hlevel := d.level_add_lt_keptLevels hp hdepth hc
          omega
        · exact Bool.eq_false_iff.2 (List.any_eq_false.1 h c hc)
  | invocation s =>
      refine Rule.handsOut_truncate (invocationSteps_truncate d ?_)
      simp only [isExposed, decide_eq_false_iff_not] at h
      omega

/-- The uses of a file stay the same when its tree is truncated, exactly when they do so at every
exposed place to which the walk comes. -/
theorem walk_truncate_iff (tree : Node) :
    references d (.root (tree.truncate d.keptLevels)) = references d (.root tree) ↔
      ∀ v ∈ (rule d).visits (.inside {}) (.root tree), isExposed d.keptLevels v = true →
        (rule d).handsOut v.1 (v.2.truncate d.keptLevels) = (rule d).handsOut v.1 v.2 := by
  have hstart : (Place.root tree).level ≤ (Task.inside {}).reach := Nat.zero_le _
  exact (fadesOn d).walk_eq_iff_of_exposed (isExposed d.keptLevels) (handsOut_truncate d) hstart

end SourceIndex.Uses.Java
