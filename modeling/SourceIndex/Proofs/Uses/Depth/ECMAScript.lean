import SourceIndex.Proofs.Tree.TruncatedWalk
import SourceIndex.Uses.ECMAScript

/-!
# How deep uses in ECMAScript are looked for

The walk through a JavaScript or TypeScript file stops at a depth, but not inside a call of a method
whose object is a call again.  Everything else is found in the truncated tree as well.
-/

namespace SourceIndex.Uses.ECMAScript

variable (d : Document) {levels : Nat} {s : Scope} {p : Place}

/-- The depth that a task has come to. -/
def Task.depth : Task → Nat
  | inside s | call s => s.depth

/-- The last level that a task can have come to. -/
def Task.reach (task : Task) : Nat :=
  3 * task.depth + 1

/-! ## Where the rule goes on to -/

theorem visit_calleeSteps {task : Task} {f q : Place} (h : Step.visit task q ∈ calleeSteps s f) :
    (q = f ∨ f.Below 1 q) ∧ task.depth = s.depth + 1 := by
  unfold calleeSteps at h
  split at h
  · split at h
    · rename_i o ho
      split at h
      · cases List.mem_singleton.1 h
        exact ⟨Or.inr (Place.below_of_field? ho), rfl⟩
      · cases List.mem_singleton.1 h
        exact ⟨Or.inr (Place.below_of_field? ho), rfl⟩
    · cases h
  · cases h
  · cases List.mem_singleton.1 h
    exact ⟨Or.inl rfl, rfl⟩

theorem visit_callSteps {task : Task} {q : Place} (h : Step.visit task q ∈ callSteps d s p) :
    p.Below 2 q ∧ task.depth = s.depth + 1 := by
  unfold callSteps at h
  split at h
  · cases h
  · rename_i f hf
    have hbelow := Place.below_of_field? hf
    split at h
    · cases List.mem_singleton.1 h
    · rcases List.mem_cons.1 h with h | h
      · cases h
      · rcases List.mem_append.1 h with h | h
        · obtain ⟨rfl | hcallee, hdepth⟩ := visit_calleeSteps h
          · exact ⟨hbelow.mono (by omega), hdepth⟩
          · exact ⟨hbelow.trans hcallee, hdepth⟩
        · obtain ⟨hbelow, rfl⟩ := Step.below_of_mem_visit? h
          exact ⟨hbelow.mono (by omega), rfl⟩

theorem visit_childSteps {task : Task} {c q : Place} (h : Step.visit task q ∈ childSteps d s c) :
    (q = c ∨ c.Below 2 q) ∧ task.depth = s.depth + 1 := by
  have hscope : Step.visit task q = scopeStep d s c →
      (q = c ∨ c.Below 2 q) ∧ task.depth = s.depth + 1 := by
    intro heq
    cases heq
    exact ⟨Or.inl rfl, rfl⟩
  unfold childSteps at h
  split at h
  · exact absurd h (Step.visit_notMem_emitAll _)
  · obtain ⟨hbelow, hdepth⟩ := visit_callSteps d h
    exact ⟨Or.inr hbelow, hdepth⟩
  · rcases List.mem_append.1 h with h | h
    · exact absurd h (Step.visit_notMem_emitAll _)
    · obtain ⟨hbelow, rfl⟩ := Step.below_of_mem_visit? h
      exact ⟨Or.inr (hbelow.mono (by omega)), rfl⟩
  · exact hscope (List.mem_singleton.1 h)
  · exact hscope (List.mem_singleton.1 h)
  · exact hscope (List.mem_singleton.1 h)
  · rcases List.mem_append.1 h with h | h
    · exact absurd h (Step.visit_notMem_emitAll _)
    · exact hscope (List.mem_singleton.1 h)
  · rcases List.mem_append.1 h with h | h
    · exact absurd h (Step.visit_notMem_emitAll _)
    · exact hscope (List.mem_singleton.1 h)
  · rcases List.mem_append.1 h with h | h
    · exact absurd h (Step.visit_notMem_emitAll _)
    · exact hscope (List.mem_singleton.1 h)
  · rcases List.mem_append.1 h with h | h
    · exact absurd h (Step.visit_notMem_emitAll _)
    · exact hscope (List.mem_singleton.1 h)
  · split at h
    · exact hscope (List.mem_singleton.1 h)
    · cases List.mem_singleton.1 h
      exact ⟨Or.inl rfl, rfl⟩
  · cases List.mem_singleton.1 h
    exact ⟨Or.inl rfl, rfl⟩

/-- Every step goes down, three levels at most, and counts as one step of depth. -/
theorem visit_rule {task task' : Task} {q : Place} (h : Step.visit task' q ∈ rule d task p) :
    p.Below 3 q ∧ task'.depth = task.depth + 1 := by
  cases task with
  | inside s =>
      rw [rule] at h
      split at h
      · cases h
      · obtain ⟨c, hc, h⟩ := List.mem_flatMap.1 h
        have hchild := Place.below_of_mem_children hc
        obtain ⟨rfl | hbelow, hdepth⟩ := visit_childSteps d h
        · exact ⟨hchild.mono (by omega), hdepth⟩
        · exact ⟨hchild.trans hbelow, hdepth⟩
  | call s =>
      obtain ⟨hbelow, hdepth⟩ := visit_callSteps d h
      exact ⟨hbelow.mono (by omega), hdepth⟩

theorem rule_of_children (task : Task) (h : p.children = []) : rule d task p = [] := by
  cases task with
  | inside s => rw [rule, h, List.flatMap_nil, ite_self]
  | call s => rw [rule, callSteps, Place.field?_eq_none h]

/-! ## Steps in the truncated tree -/

theorem importedNames_truncate (h : p.level + 3 < levels) :
    importedNames d (p.truncate levels) =
      (importedNames d p).map fun (name, q) => (name, q.truncate levels) := by
  have hp : p.level < levels := by omega
  unfold importedNames
  rw [Place.childOf?_truncate hp]
  cases hclause : p.childOf? "import_clause" with
  | none => rfl
  | some clause =>
      have hclauseLevel := Place.level_of_childOf? hclause
      have hclause' : clause.level < levels := by omega
      simp only [Option.map_some, Place.children_truncate hclause', List.flatMap_map,
        List.map_flatMap, Place.kind_truncate, d.text_truncate]
      refine List.flatMap_congr fun part hpart => ?_
      have hpartLevel := Place.level_of_mem_children hpart
      have hpart' : part.level < levels := by omega
      split
      · rfl
      · rfl
      · rw [Place.childrenOf_truncate hpart', List.filterMap_map, List.map_filterMap]
        refine List.filterMap_congr fun spec hspec => ?_
        have hspecLevel := Place.level_of_mem_children (List.mem_filter.1 hspec).1
        have hspec' : spec.level < levels := by omega
        simp only [Function.comp_def, d.fieldText_truncate hspec', Option.map_map]
      · rfl

theorem imports_truncate (scope : Option String) (h : p.level + 3 < levels) :
    imports d scope (p.truncate levels) = imports d scope p := by
  have hp : p.level < levels := by omega
  unfold imports
  rw [Place.field?_truncate hp]
  cases p.field? "source" with
  | none => rfl
  | some source =>
      simp only [Option.map_some, d.text_truncate, importedNames_truncate d h]
      cases importedNames d p with
      | nil => simp only [List.map_nil, d.reference_truncate]
      | cons name names =>
          simp only [List.map_cons, List.map_map, Function.comp_def, d.reference_truncate]

theorem required?_truncate (h : p.level + 1 < levels) :
    required? d (p.truncate levels) = required? d p := by
  have hp : p.level < levels := by omega
  have hfirst : ∀ a, p.field? "arguments" = some a →
      firstString? d (a.truncate levels) = firstString? d a := by
    intro a ha
    have ha' : a.level < levels := by
      rw [Place.level_of_field? ha]
      exact h
    simp only [firstString?, Place.namedChildren_truncate ha', List.head?_map, Option.filter_map,
      Option.map_map, Function.comp_def, Place.isOneOf_truncate, d.text_truncate]
  simp only [required?, Place.field?_truncate hp, Option.bind_eq_bind, Option.bind_map,
    Function.comp_def, Place.kind_truncate, d.text_truncate]
  cases ha : p.field? "arguments" with
  | none => rfl
  | some a => simp only [Option.bind_some, hfirst a ha]

theorem calleeName_truncate (h : p.level < levels) :
    calleeName d (p.truncate levels) = calleeName d p := by
  rw [calleeName, Place.kind_truncate, d.fieldText_truncate h, d.text_truncate, calleeName]

theorem calleeSteps_truncate (h : p.level < levels) :
    calleeSteps s (p.truncate levels) = (calleeSteps s p).map (Step.truncate levels) := by
  unfold calleeSteps
  rw [Place.kind_truncate, Place.field?_truncate h]
  split
  · cases p.field? "object" with
    | none => rfl
    | some o =>
        simp only [Option.map_some, Place.kind_truncate]
        split <;> rfl
  · rfl
  · rfl

theorem callSteps_truncate (h : p.level + 1 < levels) :
    callSteps d s (p.truncate levels) = (callSteps d s p).map (Step.truncate levels) := by
  have hp : p.level < levels := by omega
  unfold callSteps
  rw [Place.field?_truncate hp, required?_truncate d h, Place.field?_truncate hp]
  cases hf : p.field? "function" with
  | none => rfl
  | some f =>
      have hf' : f.level < levels := by
        rw [Place.level_of_field? hf]
        exact h
      simp only [Option.map_some]
      split
      · simp only [d.reference_truncate, List.map_cons, List.map_nil, Step.truncate]
      · simp only [d.reference_truncate, calleeName_truncate d hf', calleeSteps_truncate hf',
          List.map_cons, List.map_append, Step.map_truncate_visit?, Step.truncate]

theorem creationSteps_truncate (h : p.level < levels) :
    creationSteps d s (p.truncate levels) = (creationSteps d s p).map (Step.truncate levels) := by
  simp only [creationSteps, List.map_append, Step.map_truncate_emit?, Step.map_truncate_visit?,
    Place.field?_truncate h, Option.map_map, Function.comp_def, d.text_truncate,
    d.reference_truncate]

theorem heritageReference_truncate (kind : ReferenceKind) (owner : String) (h : p.level < levels) :
    heritageReference d kind owner (p.truncate levels) = heritageReference d kind owner p := by
  have hbase : d.text (((p.field? "name").map (Place.truncate levels)).getD (p.truncate levels)) =
      d.text ((p.field? "name").getD p) := by
    cases p.field? "name" <;> exact d.text_truncate levels _
  rw [heritageReference, d.reference_truncate, typeName, Place.kind_truncate,
    Place.field?_truncate h, heritageReference, typeName]
  split
  · rw [hbase]
  · rw [d.text_truncate]

/-- The types of a clause build the same references in the truncated tree. -/
theorem map_clauseTypes_truncate (kind : ReferenceKind) (owner : String)
    (h : p.level + 1 < levels) :
    (clauseTypes (p.truncate levels)).map (heritageReference d kind owner) =
      (clauseTypes p).map (heritageReference d kind owner) := by
  have hp : p.level < levels := by omega
  simp only [clauseTypes, Place.namedChildren_truncate hp, List.filter_map, List.map_map,
    Function.comp_def, Place.isOneOf_truncate]
  refine List.map_congr_left fun t ht => heritageReference_truncate d kind owner ?_
  rw [Place.level_of_mem_children (List.mem_filter.1 (List.mem_filter.1 ht).1).1]
  exact h

theorem classHeritage_truncate (owner : String) (h : p.level + 3 < levels) :
    classHeritage d owner (p.truncate levels) = classHeritage d owner p := by
  have hp : p.level < levels := by omega
  unfold classHeritage
  rw [Place.childOf?_truncate hp]
  cases hheritage : p.childOf? "class_heritage" with
  | none => rfl
  | some heritage =>
      have hlevel := Place.level_of_childOf? hheritage
      have hheritage' : heritage.level < levels := by omega
      simp only [Option.map_some, Place.children_truncate hheritage', List.any_map,
        Function.comp_def, Place.isOneOf_truncate, List.flatMap_map, Place.kind_truncate,
        Place.namedChildren_truncate hheritage']
      split
      · refine List.flatMap_congr fun c hc => ?_
        have hcLevel := Place.level_of_mem_children hc
        split
        · exact map_clauseTypes_truncate d _ _ (by omega)
        · exact map_clauseTypes_truncate d _ _ (by omega)
        · rfl
      · rw [← List.map_take, List.map_map]
        refine List.map_congr_left fun c hc => heritageReference_truncate d _ _ ?_
        rw [Place.level_of_mem_children (List.mem_filter.1 (List.mem_of_mem_take hc)).1]
        omega

theorem interfaceHeritage_truncate (owner : String) (h : p.level + 2 < levels) :
    interfaceHeritage d owner (p.truncate levels) = interfaceHeritage d owner p := by
  have hp : p.level < levels := by omega
  unfold interfaceHeritage
  rw [Place.childOf?_truncate hp]
  cases hclause : p.childOf? "extends_type_clause" with
  | none => rfl
  | some clause =>
      have hlevel := Place.level_of_childOf? hclause
      exact map_clauseTypes_truncate d _ _ (by omega)

theorem namedScope_truncate (h : p.level < levels) :
    namedScope d s (p.truncate levels) = namedScope d s p := by
  rw [namedScope, d.fieldText_truncate h, namedScope]

theorem scopeStep_truncate (h : p.level < levels) :
    scopeStep d s (p.truncate levels) = (scopeStep d s p).truncate levels := by
  rw [scopeStep, namedScope_truncate d h, scopeStep, Step.truncate]

/-- What a child uses is the same in the truncated tree. -/
theorem childSteps_truncate {c : Place} (h : c.level + 3 < levels) :
    childSteps d s (c.truncate levels) = (childSteps d s c).map (Step.truncate levels) := by
  have hc : c.level < levels := by omega
  have hclass : ∀ owner, classHeritage d owner (c.truncate levels) = classHeritage d owner c :=
    fun owner => classHeritage_truncate d owner h
  have hinterface : ∀ owner,
      interfaceHeritage d owner (c.truncate levels) = interfaceHeritage d owner c :=
    fun owner => interfaceHeritage_truncate d owner (by omega)
  have hbinds : bindsFunction (c.truncate levels) = bindsFunction c := by
    simp only [bindsFunction, Place.field?_truncate hc, Option.any_map, Place.isOneOf_truncate]
  have hcall : callSteps d s (c.truncate levels) = (callSteps d s c).map (Step.truncate levels) :=
    callSteps_truncate d (by omega)
  unfold childSteps
  rw [Place.kind_truncate]
  simp only [scopeStep_truncate d hc, namedScope_truncate d hc, hclass, hinterface, hbinds,
    imports_truncate d _ h, creationSteps_truncate d hc, hcall]
  split
  · rw [Step.map_truncate_emitAll]
  · rfl
  · rfl
  · rfl
  · rfl
  · rfl
  · rw [List.map_append, Step.map_truncate_emitAll]
    rfl
  · rw [List.map_append, Step.map_truncate_emitAll]
    rfl
  · rw [List.map_append, Step.map_truncate_emitAll]
    rfl
  · rw [List.map_append, Step.map_truncate_emitAll]
    rfl
  · split <;> rfl
  · rfl

/-! ## Deep calls -/

theorem walk_inside_of_tooDeep (h : d.tooDeep s.depth = true) (p : Place) :
    (rule d).walk (.inside s) p = [] := by
  refine Rule.walk_eq_nil ?_
  rw [rule, if_pos h]

theorem required?_of_children (h : ∀ a, p.field? "arguments" = some a → a.children = []) :
    required? d p = none := by
  have hfirst : ((p.field? "arguments").bind fun a => firstString? d a) = none := by
    refine Option.bind_eq_none_iff.2 fun a ha => ?_
    rw [firstString?, Place.namedChildren, h a ha]
    rfl
  simp only [required?, Option.bind_eq_bind, Option.bind_eq_none_iff]
  intro f _
  split
  · rfl
  · exact hfirst

/-- If nothing stands in what is called, only the walk inside it is left. -/
theorem mem_calleeSteps_of_children {f : Place} {step : Step Task Reference} (h : f.children = [])
    (hstep : step ∈ calleeSteps s f) : step = .visit (.inside s.deeper) f := by
  unfold calleeSteps at hstep
  rw [Place.field?_eq_none h] at hstep
  split at hstep
  · cases hstep
  · cases hstep
  · exact List.mem_singleton.1 hstep

/-- A deep call may become another use, but nothing new is found in it. -/
theorem callSteps_fades (hdeep : d.tooDeep s.deeper.depth = true) :
    Rule.Fades (rule d) levels (callSteps d s (p.truncate levels)) (callSteps d s p) := by
  by_cases hfar : p.level + 1 < levels
  · rw [callSteps_truncate d hfar]
    exact .truncate _
  -- Every place that the call leads to has lost its children, so nothing is found there.
  have hgone : ∀ task q, Step.visit task q ∈ callSteps d s p →
      (rule d).walk task (q.truncate levels) = [] := by
    intro task q hq
    have hlower := (visit_callSteps d hq).1.lt_level
    exact Rule.walk_eq_nil (rule_of_children d task (Place.children_truncate_of_le (by omega)))
  by_cases hp : p.level < levels
  · -- What is called stands on the last level, so nothing in it is left.
    have hlast : ∀ {name q}, p.field? name = some q → (q.truncate levels).children = [] := by
      intro name q hq
      have hlevel := Place.level_of_field? hq
      exact Place.children_truncate_of_le (by omega)
    -- Without its argument a call that requires a module is an ordinary call.
    have hrequired : required? d (p.truncate levels) = none := by
      refine required?_of_children d fun a ha => ?_
      rw [Place.field?_truncate hp] at ha
      obtain ⟨a', ha', rfl⟩ := Option.map_eq_some_iff.1 ha
      exact hlast ha'
    unfold callSteps at hgone ⊢
    rw [hrequired, Place.field?_truncate hp, Place.field?_truncate hp]
    cases hf : p.field? "function" with
    | none => exact .nil
    | some f =>
        rw [hf] at hgone
        have hvain : ∀ step ∈ calleeSteps s (f.truncate levels) ++ Step.visit? (.inside s.deeper)
            ((p.field? "arguments").map (Place.truncate levels)),
            ∃ task q, step = Step.visit task q ∧ (rule d).walk task q = [] := by
          intro step hstep
          rcases List.mem_append.1 hstep with hstep | hstep
          · exact ⟨_, _, mem_calleeSteps_of_children (hlast hf) hstep,
              walk_inside_of_tooDeep d hdeep _⟩
          · obtain ⟨a, _, rfl⟩ := List.mem_map.1 hstep
            exact ⟨_, _, rfl, walk_inside_of_tooDeep d hdeep _⟩
        simp only [Option.map_some]
        cases hpath : required? d p with
        | some path => exact .emit _ _ (.of_vain hvain .nil)
        | none =>
            simp only [hpath] at hgone
            exact .emit _ _ (.of_vain hvain (.of_nil fun task q hq =>
              hgone task q (List.mem_cons_of_mem _ hq)))
  · rw [callSteps, Place.field?_eq_none (Place.children_truncate_of_le (by omega))]
    exact .of_nil hgone

/-! ## Truncated files -/

/-- May a walk lose something at a place when the tree is truncated?  That can only happen in a deep
call. -/
def isExposed (levels : Nat) : Task × Place → Bool
  | (.inside _, _) => false
  | (.call _, p) => levels < p.level + 3

/-- Within its limit the walk takes the same steps in the truncated tree. -/
theorem rule_inside_truncate (hp : p.level ≤ (Task.inside s).reach) :
    rule d (.inside s) (p.truncate d.keptLevels) =
      (rule d (.inside s) p).map (Step.truncate d.keptLevels) := by
  rw [rule, rule]
  split
  · rfl
  · rename_i hdepth
    rw [Place.children_truncate (d.lt_keptLevels hp hdepth), List.flatMap_map, List.map_flatMap]
    refine List.flatMap_congr fun c hc => childSteps_truncate d ?_
    have hlevel := d.level_add_lt_keptLevels hp hdepth hc
    omega

theorem fadesOn : Rule.FadesOn (rule d) d.keptLevels fun task p => p.level ≤ task.reach := by
  refine .of_reach Task.reach 3 (fun h => ?_) fun {task p} hp => ?_
  · obtain ⟨hbelow, hdepth⟩ := visit_rule d h
    refine ⟨hbelow, ?_⟩
    simp only [Task.reach, hdepth]
    omega
  · cases task with
    | inside s =>
        rw [rule_inside_truncate d hp]
        exact .truncate _
    | call s =>
        by_cases hlevel : p.level + 1 < d.keptLevels
        · rw [rule, rule, callSteps_truncate d hlevel]
          exact .truncate _
        · have hreach : p.level ≤ 3 * s.deeper.depth + 1 :=
            Nat.le_trans hp (Nat.add_le_add_right (Nat.mul_le_mul_left 3 (Nat.le_succ _)) 1)
          exact callSteps_fades d (d.tooDeep_of_keptLevels hreach (by omega))

/-- A place that is not exposed hands out the same in the truncated tree. -/
theorem handsOut_truncate {task : Task} (hp : p.level ≤ task.reach)
    (h : isExposed d.keptLevels (task, p) = false) :
    (rule d).handsOut task (p.truncate d.keptLevels) = (rule d).handsOut task p := by
  cases task with
  | inside s => exact Rule.handsOut_truncate (rule_inside_truncate d hp)
  | call s =>
      refine Rule.handsOut_truncate (callSteps_truncate d ?_)
      simp only [isExposed, decide_eq_false_iff_not] at h
      omega

/-- The uses of a file stay the same when its tree is truncated, exactly when they do so at every
exposed place to which the walk comes. -/
theorem walk_truncate_iff (tree : Node) :
    references d (.root (tree.truncate d.keptLevels)) = references d (.root tree) ↔
      ∀ v ∈ (rule d).visits (.inside {}) (.root tree), isExposed d.keptLevels v = true →
        (rule d).handsOut v.1 (v.2.truncate d.keptLevels) = (rule d).handsOut v.1 v.2 := by
  have hstart : (Place.root tree).level ≤ (Task.inside {}).reach := Nat.zero_le _
  exact (fadesOn d).walk_eq_iff_of_exposed (isExposed d.keptLevels) (handsOut_truncate d) hstart

end SourceIndex.Uses.ECMAScript
