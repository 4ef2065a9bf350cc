import SourceIndex.Proofs.Tree.TruncatedWalk
import SourceIndex.Uses.Rust

/-!
# How deep uses in Rust are looked for

The walk through a Rust file stops at a depth, and so does the one through a use declaration, but
not inside a call of a method whose receiver is a call again.  Everything else is found in the
truncated tree as well.
-/

namespace SourceIndex.Uses.Rust

open SourceIndex.Idiom.Rust

variable (d : Document) {levels : Nat} {s : Scope} {p : Place}

/-- The depth that a task has come to. -/
def Task.depth : Task → Nat
  | inside s | call s => s.depth

/-- The last level that a task can have come to. -/
def Task.reach (task : Task) : Nat :=
  3 * task.depth + 1

/-! ## Where the rules go on to -/

theorem visit_useRule {b b' : Branch} {q : Place} (h : Step.visit b' q ∈ useRule d b p) :
    q ∈ p.children ∧ b'.depth = b.depth + 1 := by
  unfold useRule at h
  split at h
  · cases h
  · split at h
    · cases List.mem_singleton.1 h
    · cases List.mem_singleton.1 h
    · cases List.mem_singleton.1 h
    · cases List.mem_singleton.1 h
    · cases List.mem_singleton.1 h
    · obtain ⟨r, _, heq⟩ := List.mem_map.1 h
      cases heq
    · cases List.mem_singleton.1 h
    · obtain ⟨c, hc, heq⟩ := List.mem_map.1 h
      cases heq
      exact ⟨hc, rfl⟩
    · obtain ⟨c, hc, heq⟩ := List.mem_map.1 h
      cases heq
      exact ⟨Place.mem_children_of_field? (Option.mem_toList.1 hc), rfl⟩
    · cases h

theorem visit_receiverSteps {task : Task} {f q : Place}
    (h : Step.visit task q ∈ receiverSteps s f) : f.Below 1 q ∧ task.depth = s.depth + 1 := by
  unfold receiverSteps at h
  split at h
  · rename_i v hv
    split at hv
    · split at h
      · cases List.mem_singleton.1 h
        exact ⟨Place.below_of_field? hv, rfl⟩
      · cases List.mem_singleton.1 h
        exact ⟨Place.below_of_field? hv, rfl⟩
    · cases hv
  · cases h

theorem visit_callSteps {task : Task} {q : Place} (h : Step.visit task q ∈ callSteps d s p) :
    p.Below 2 q ∧ task.depth = s.depth + 1 := by
  unfold callSteps at h
  split at h
  · cases h
  · rename_i f hf
    rcases List.mem_cons.1 h with h | h
    · cases h
    · rcases List.mem_append.1 h with h | h
      · obtain ⟨hbelow, hdepth⟩ := visit_receiverSteps h
        exact ⟨(Place.below_of_field? hf).trans hbelow, hdepth⟩
      · obtain ⟨hbelow, rfl⟩ := Step.below_of_mem_visit? h
        exact ⟨hbelow.mono (by omega), rfl⟩

theorem visit_childSteps {task : Task} {c q : Place} (h : Step.visit task q ∈ childSteps d s c) :
    (q = c ∨ c.Below 2 q) ∧ task.depth = s.depth + 1 := by
  have hinside : ∀ s' : Scope, s'.depth = s.depth + 1 → Step.visit task q ∈
      ([.visit (.inside s') c] : List (Step Task Reference)) →
      (q = c ∨ c.Below 2 q) ∧ task.depth = s.depth + 1 := by
    intro s' hdepth hmem
    cases List.mem_singleton.1 hmem
    exact ⟨Or.inl rfl, hdepth⟩
  have hbehind : ∀ (items : List Reference) (s' : Scope), s'.depth = s.depth + 1 →
      Step.visit task q ∈ Step.emitAll items ++ [.visit (.inside s') c] →
      (q = c ∨ c.Below 2 q) ∧ task.depth = s.depth + 1 := by
    intro items s' hdepth hmem
    rcases List.mem_append.1 hmem with hmem | hmem
    · exact absurd hmem (Step.visit_notMem_emitAll _)
    · exact hinside s' hdepth hmem
  unfold childSteps at h
  split at h
  · exact absurd h (Step.visit_notMem_emitAll _)
  · obtain ⟨hbelow, hdepth⟩ := visit_callSteps d h
    exact ⟨Or.inr hbelow, hdepth⟩
  · exact absurd h (Step.visit_notMem_emitAll _)
  · exact hinside _ rfl h
  · exact hbehind _ _ rfl h
  · exact hbehind _ _ rfl h
  · exact hbehind _ _ rfl h
  · exact hbehind _ _ rfl h
  · exact hbehind _ _ rfl h
  · exact hinside _ rfl h

/-- Every step goes down, three levels at most, and counts as one step of depth. -/
theorem visit_rule {task task' : Task} {q : Place} (h : Step.visit task' q ∈ rule d task p) :
    p.Below 3 q ∧ task'.depth = task.depth + 1 := by
  cases task with
  | inside s =>
      rw [rule] at h
      split at h
      · cases h
      · obtain ⟨c, hc, h⟩ := List.mem_flatMap.1 h
        have hchild := Place.below_of_mem_children hc
        obtain ⟨rfl | hbelow, hdepth⟩ := visit_childSteps d h
        · exact ⟨hchild.mono (by omega), hdepth⟩
        · exact ⟨hchild.trans hbelow, hdepth⟩
  | call s =>
      obtain ⟨hbelow, hdepth⟩ := visit_callSteps d h
      exact ⟨hbelow.mono (by omega), hdepth⟩

theorem rule_of_children (task : Task) (h : p.children = []) : rule d task p = [] := by
  cases task with
  | inside s => rw [rule, h, List.flatMap_nil, ite_self]
  | call s => rw [rule, callSteps, Place.field?_eq_none h]

/-! ## Steps in the truncated tree -/

/-- A walk through a use declaration keeps to its own limit. -/
theorem walk_useRule_truncate {c : Place}
    (h : c.level + d.limits.walkDepth.toNat < levels) :
    (useRule d).walk {} (c.truncate levels) = (useRule d).walk {} c := by
  have hdown : (useRule d).Descends := fun h =>
    Place.height_lt_of_mem_children (visit_useRule d h).1
  -- A branch is one level and one step of depth below the one before.
  refine Rule.walk_truncate (P := fun b q => q.level ≤ c.level + b.depth) hdown ?_ ?_
    (Nat.le_refl _)
  · intro b b' q q' hq hvisit
    obtain ⟨hchild, hdepth⟩ := visit_useRule d hvisit
    have hlevel := Place.level_of_mem_children hchild
    omega
  · intro b q hq
    unfold useRule
    split
    · rfl
    · rename_i hdepth
      rw [Document.tooDeep, decide_eq_true_eq] at hdepth
      have hq' : q.level < levels := by omega
      simp only [Place.kind_truncate, d.text_truncate, d.fieldText_truncate hq',
        Place.children_truncate hq', Place.field?_truncate hq']
      split
      · rfl
      · rfl
      · rfl
      · rfl
      · rfl
      · rw [Step.map_truncate_emit?]
      · rfl
      · rw [Step.map_truncate_visitAll]
      · rw [Step.map_truncate_visit?]
      · rfl

theorem imports_truncate (scope : Option String)
    (h : p.level + d.limits.walkDepth.toNat + 1 < levels) :
    imports d scope (p.truncate levels) = imports d scope p := by
  have huses : ((p.truncate levels).children.flatMap fun c => (useRule d).walk {} c) =
      p.children.flatMap fun c => (useRule d).walk {} c := by
    rw [Place.children_truncate (by omega), List.flatMap_map]
    refine List.flatMap_congr fun c hc => walk_useRule_truncate d ?_
    rw [Place.level_of_mem_children hc]
    omega
  simp only [imports, huses, d.reference_truncate]

theorem typeName_truncate (h : p.level < levels) :
    typeName d (p.truncate levels) = typeName d p := by
  have hbase : d.text (((p.field? "type").map (Place.truncate levels)).getD (p.truncate levels)) =
      d.text ((p.field? "type").getD p) := by
    cases p.field? "type" <;> exact d.text_truncate levels _
  rw [typeName, Place.kind_truncate, Place.field?_truncate h, typeName]
  split
  · rw [hbase]
  · rw [d.text_truncate]

theorem calleeName_truncate (h : p.level < levels) :
    calleeName d (p.truncate levels) = calleeName d p := by
  rw [calleeName, Place.kind_truncate, d.fieldText_truncate h, d.text_truncate, calleeName]

theorem receiverSteps_truncate (h : p.level < levels) :
    receiverSteps s (p.truncate levels) = (receiverSteps s p).map (Step.truncate levels) := by
  unfold receiverSteps
  rw [Place.kind_truncate, Place.field?_truncate h]
  cases p.kind == "field_expression" with
  | false => rfl
  | true =>
      cases p.field? "value" with
      | none => rfl
      | some v =>
          simp only [Option.map_some, if_true, Place.kind_truncate]
          split <;> rfl

theorem callSteps_truncate (h : p.level + 1 < levels) :
    callSteps d s (p.truncate levels) = (callSteps d s p).map (Step.truncate levels) := by
  have hp : p.level < levels := by omega
  unfold callSteps
  rw [Place.field?_truncate hp, Place.field?_truncate hp]
  cases hf : p.field? "function" with
  | none => rfl
  | some f =>
      have hf' : f.level < levels := by
        rw [Place.level_of_field? hf]
        exact h
      simp only [Option.map_some, d.reference_truncate, calleeName_truncate d hf',
        receiverSteps_truncate hf', List.map_cons, List.map_append, Step.map_truncate_visit?,
        Step.truncate]

theorem macroCall?_truncate (scope : Option String) (h : p.level < levels) :
    macroCall? d scope (p.truncate levels) = macroCall? d scope p := by
  simp only [macroCall?, Place.field?_truncate h, Place.childOfAny?_truncate h, ← Option.map_or,
    Option.map_map, Function.comp_def, d.text_truncate, d.reference_truncate]

theorem implemented?_truncate (h : p.level + 1 < levels) :
    implemented? d (p.truncate levels) = implemented? d p := by
  have hp : p.level < levels := by omega
  simp only [implemented?, d.fieldText_truncate hp, Place.field?_truncate hp,
    Option.bind_eq_bind, Option.bind_map, Function.comp_def, d.reference_truncate]
  cases htrait : p.field? "trait" with
  | none => rfl
  | some t =>
      have ht : t.level < levels := by
        rw [Place.level_of_field? htrait]
        exact h
      simp only [Option.bind_some, typeName_truncate d ht]

theorem supertraits_truncate (h : p.level + 2 < levels) :
    supertraits d (p.truncate levels) = supertraits d p := by
  have hp : p.level < levels := by omega
  unfold supertraits
  rw [d.fieldText_truncate hp, Place.field?_truncate hp]
  cases hbounds : p.field? "bounds" with
  | none => rfl
  | some bounds =>
      have hlevel := Place.level_of_field? hbounds
      cases d.fieldText p "name" with
      | none => rfl
      | some name =>
          have hbounds' : bounds.level < levels := by omega
          simp only [Option.map_some, Place.children_truncate hbounds', List.filter_map,
            List.map_map, Function.comp_def, Place.isOneOf_truncate, d.reference_truncate]
          refine List.map_congr_left fun c hc => ?_
          have hc' := Place.level_of_mem_children (List.mem_filter.1 hc).1
          rw [typeName_truncate d (by omega)]

theorem attributesAbove_truncate (levels : Nat) (p : Place) :
    attributesAbove (p.truncate levels) = (attributesAbove p).map (Place.truncate levels) := by
  simp only [attributesAbove, Place.siblingsBefore_truncate, List.takeWhile_map, List.filter_map,
    List.map_reverse, Function.comp_def, Place.isOneOf_truncate, Place.kind_truncate]

theorem derivedTraits_truncate {attributes : List Place}
    (h : ∀ a ∈ attributes, a.level + 2 < levels) :
    derivedTraits d (attributes.map (Place.truncate levels)) = derivedTraits d attributes := by
  unfold derivedTraits
  rw [List.flatMap_map]
  refine List.flatMap_congr fun a ha => ?_
  have ha' := h a ha
  rw [Place.childOf?_truncate (by omega)]
  cases hinner : a.childOf? "attribute" with
  | none => rfl
  | some inner =>
      have hlevel := Place.level_of_childOf? hinner
      have hinner' : inner.level < levels := by omega
      simp only [Option.map_some, Place.childOfAny?_truncate hinner',
        Place.childOf?_truncate hinner', Option.map_map, Function.comp_def, d.text_truncate]
      cases htokens : inner.childOf? "token_tree" with
      | none => rfl
      | some tokens =>
          have htokens' : tokens.level < levels := by
            rw [Place.level_of_childOf? htokens]
            omega
          simp only [Option.map_some, Place.childrenOf_truncate htokens', List.map_map,
            Function.comp_def, d.text_truncate]

theorem derives_truncate (h : p.level + 2 < levels) :
    derives d (p.truncate levels) = derives d p := by
  have habove : derivedTraits d (attributesAbove (p.truncate levels)) =
      derivedTraits d (attributesAbove p) := by
    rw [attributesAbove_truncate]
    refine derivedTraits_truncate d fun a ha => ?_
    have hmem := (List.mem_filter.1 (List.mem_reverse.1 ha)).1
    rw [Place.level_of_mem_siblingsBefore ((List.takeWhile_sublist _).subset hmem)]
    exact h
  have hp : p.level < levels := by omega
  simp only [derives, d.fieldText_truncate hp, habove, d.reference_truncate]

/-- What a child uses is the same in the truncated tree. -/
theorem childSteps_truncate {c : Place} (h : c.level + d.limits.walkDepth.toNat + 2 < levels) :
    childSteps d s (c.truncate levels) = (childSteps d s c).map (Step.truncate levels) := by
  have hc : c.level < levels := by omega
  have hcall : callSteps d s (c.truncate levels) = (callSteps d s c).map (Step.truncate levels) :=
    callSteps_truncate d (by omega)
  unfold childSteps
  rw [Place.kind_truncate, d.fieldText_truncate hc, d.fieldText_truncate hc,
    imports_truncate d _ (by omega), macroCall?_truncate d _ hc, implemented?_truncate d (by omega),
    supertraits_truncate d (by omega), derives_truncate d (by omega), hcall]
  split
  · rw [Step.map_truncate_emitAll]
  · rfl
  · rw [Step.map_truncate_emit?]
  · rfl
  · rw [List.map_append, Step.map_truncate_emit?]
    rfl
  · rw [List.map_append, Step.map_truncate_emitAll]
    rfl
  · rw [List.map_append, Step.map_truncate_emitAll]
    rfl
  · rw [List.map_append, Step.map_truncate_emitAll]
    rfl
  · rw [List.map_append, Step.map_truncate_emitAll]
    rfl
  · rfl

/-! ## Deep calls -/

theorem walk_inside_of_tooDeep (h : d.tooDeep s.depth = true) (p : Place) :
    (rule d).walk (.inside s) p = [] := by
  refine Rule.walk_eq_nil ?_
  rw [rule, if_pos h]

/-- A deep call may get another name, but nothing new is found in it. -/
theorem callSteps_fades (hdeep : d.tooDeep s.deeper.depth = true) :
    Rule.Fades (rule d) levels (callSteps d s (p.truncate levels)) (callSteps d s p) := by
  by_cases hfar : p.level + 1 < levels
  · rw [callSteps_truncate d hfar]
    exact .truncate _
  -- Every place that the call leads to has lost its children, so nothing is found there.
  have hgone : ∀ task q, Step.visit task q ∈ callSteps d s p →
      (rule d).walk task (q.truncate levels) = [] := by
    intro task q hq
    have hlower := (visit_callSteps d hq).1.lt_level
    exact Rule.walk_eq_nil (rule_of_children d task (Place.children_truncate_of_le (by omega)))
  by_cases hp : p.level < levels
  · -- What is called stands on the last level, so nothing in it is left.
    unfold callSteps at hgone ⊢
    rw [Place.field?_truncate hp, Place.field?_truncate hp]
    cases hf : p.field? "function" with
    | none => exact .nil
    | some f =>
        rw [hf] at hgone
        have hlevel := Place.level_of_field? hf
        -- Nothing is left of a receiver, and the walk inside the arguments is too deep to find
        -- more.
        have hreceiver : receiverSteps s (f.truncate levels) = [] := by
          rw [receiverSteps, Place.field?_eq_none (Place.children_truncate_of_le (by omega)),
            ite_self]
        have hvain : ∀ step ∈ (Step.visit? (.inside s.deeper)
            ((p.field? "arguments").map (Place.truncate levels)) : List (Step Task Reference)),
            ∃ task q, step = Step.visit task q ∧ (rule d).walk task q = [] := by
          intro step hstep
          obtain ⟨a, _, rfl⟩ := List.mem_map.1 hstep
          exact ⟨_, _, rfl, walk_inside_of_tooDeep d hdeep _⟩
        simp only [Option.map_some, hreceiver, List.nil_append]
        exact .emit _ _ (.of_vain hvain (.of_nil fun task q hq =>
          hgone task q (List.mem_cons_of_mem _ hq)))
  · rw [callSteps, Place.field?_eq_none (Place.children_truncate_of_le (by omega))]
    exact .of_nil hgone

/-! ## Truncated files -/

/-- May a walk lose something at a place when the tree is truncated?  That can only happen in a deep
call. -/
def isExposed (levels : Nat) : Task × Place → Bool
  | (.inside _, _) => false
  | (.call _, p) => levels < p.level + 3

/-- Within its limit the walk takes the same steps in the truncated tree. -/
theorem rule_inside_truncate (hp : p.level ≤ (Task.inside s).reach) :
    rule d (.inside s) (p.truncate d.keptLevels) =
      (rule d (.inside s) p).map (Step.truncate d.keptLevels) := by
  rw [rule, rule]
  split
  · rfl
  · rename_i hdepth
    rw [Place.children_truncate (d.lt_keptLevels hp hdepth), List.flatMap_map, List.map_flatMap]
    refine List.flatMap_congr fun c hc => childSteps_truncate d ?_
    have hlevel := d.level_add_lt_keptLevels hp hdepth hc
    omega

theorem fadesOn : Rule.FadesOn (rule d) d.keptLevels fun task p => p.level ≤ task.reach := by
  refine .of_reach Task.reach 3 (fun h => ?_) fun {task p} hp => ?_
  · obtain ⟨hbelow, hdepth⟩ := visit_rule d h
    refine ⟨hbelow, ?_⟩
    simp only [Task.reach, hdepth]
    omega
  · cases task with
    | inside s =>
        rw [rule_inside_truncate d hp]
        exact .truncate _
    | call s =>
        by_cases hlevel : p.level + 1 < d.keptLevels
        · rw [rule, rule, callSteps_truncate d hlevel]
          exact .truncate _
        · have hreach : p.level ≤ 3 * s.deeper.depth + 1 :=
            Nat.le_trans hp (Nat.add_le_add_right (Nat.mul_le_mul_left 3 (Nat.le_succ _)) 1)
          exact callSteps_fades d (d.tooDeep_of_keptLevels hreach (by omega))

/-- A place that is not exposed hands out the same in the truncated tree. -/
theorem handsOut_truncate {task : Task} (hp : p.level ≤ task.reach)
    (h : isExposed d.keptLevels (task, p) = false) :
    (rule d).handsOut task (p.truncate d.keptLevels) = (rule d).handsOut task p := by
  cases task with
  | inside s => exact Rule.handsOut_truncate (rule_inside_truncate d hp)
  | call s =>
      refine Rule.handsOut_truncate (callSteps_truncate d ?_)
      simp only [isExposed, decide_eq_false_iff_not] at h
      omega

/-- The uses of a file stay the same when its tree is truncated, exactly when they do so at every
exposed place to which the walk comes. -/
theorem walk_truncate_iff (tree : Node) :
    references d (.root (tree.truncate d.keptLevels)) = references d (.root tree) ↔
      ∀ v ∈ (rule d).visits (.inside {}) (.root tree), isExposed d.keptLevels v = true →
        (rule d).handsOut v.1 (v.2.truncate d.keptLevels) = (rule d).handsOut v.1 v.2 := by
  have hstart : (Place.root tree).level ≤ (Task.inside {}).reach := Nat.zero_le _
  exact (fadesOn d).walk_eq_iff_of_exposed (isExposed d.keptLevels) (handsOut_truncate d) hstart

end SourceIndex.Uses.Rust
