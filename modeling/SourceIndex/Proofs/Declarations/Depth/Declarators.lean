import SourceIndex.Idiom.C
import SourceIndex.Proofs.Tree.TruncatedWalk

/-!
# Declarators in truncated trees

A declarator in C may wrap another one any number of times, and its name is looked for in the
innermost. When the tree is truncated, a name may be lost or another one found in its place, but
none comes anew. Where the whole declarator is kept, it says the same.
-/

namespace SourceIndex

namespace Place

variable {levels : Nat} {p c : Place}

/-- Is all that stands below the place kept in the truncated tree? -/
def IsKept (levels : Nat) (p : Place) : Prop :=
  p.level + p.node.height ≤ levels

instance : Decidable (p.IsKept levels) :=
  inferInstanceAs (Decidable (_ ≤ _))

theorem IsKept.child (h : p.IsKept levels) (hc : c ∈ p.children) : c.IsKept levels := by
  have hlevel := level_of_mem_children hc
  have hheight := height_lt_of_mem_children hc
  unfold IsKept at h ⊢
  omega

/-- A place that is kept stands above the last level, or nothing stands below it at all. -/
theorem IsKept.lt_or (h : p.IsKept levels) :
    p.level < levels ∨ p.children = [] ∧ (p.truncate levels).children = [] := by
  by_cases hp : p.level < levels
  · exact Or.inl hp
  · unfold IsKept at h
    have hheight : p.node.height = 0 := by omega
    exact Or.inr ⟨children_eq_nil hheight, children_truncate_of_le (Nat.le_of_not_lt hp)⟩

theorem IsKept.children_truncate (h : p.IsKept levels) :
    (p.truncate levels).children = p.children.map (truncate levels) := by
  rcases h.lt_or with hp | ⟨hnone, hnone'⟩
  · exact Place.children_truncate hp
  · rw [hnone, hnone', List.map_nil]

theorem IsKept.namedChildren_truncate (h : p.IsKept levels) :
    (p.truncate levels).namedChildren = p.namedChildren.map (truncate levels) := by
  rcases h.lt_or with hp | ⟨hnone, hnone'⟩
  · exact Place.namedChildren_truncate hp
  · rw [namedChildren, namedChildren, hnone, hnone']
    rfl

theorem IsKept.field?_truncate (h : p.IsKept levels) (name : String) :
    (p.truncate levels).field? name = (p.field? name).map (truncate levels) := by
  rcases h.lt_or with hp | ⟨hnone, hnone'⟩
  · exact Place.field?_truncate hp name
  · rw [field?_eq_none hnone, field?_eq_none hnone']
    rfl

theorem IsKept.childOfAny?_truncate (h : p.IsKept levels) (kinds : List String) :
    (p.truncate levels).childOfAny? kinds = (p.childOfAny? kinds).map (truncate levels) := by
  rcases h.lt_or with hp | ⟨hnone, hnone'⟩
  · exact Place.childOfAny?_truncate hp kinds
  · rw [childOfAny?_eq_none hnone, childOfAny?_eq_none hnone']
    rfl

theorem IsKept.descendants_truncate (h : p.IsKept levels) (depth : Nat) :
    (p.truncate levels).descendants depth = (p.descendants depth).map (truncate levels) := by
  induction depth generalizing p with
  | zero => rfl
  | succ depth ih =>
      rw [descendants, h.children_truncate, List.flatMap_map, descendants, List.map_flatMap]
      refine List.flatMap_congr fun c hc => ?_
      rw [ih (h.child hc), List.map_cons]

/-- In the truncated tree there is nothing new below a place. -/
theorem exists_of_mem_descendants_truncate {depth : Nat} {q' : Place}
    (h : q' ∈ (p.truncate levels).descendants depth) :
    ∃ q ∈ p.descendants depth, q' = q.truncate levels := by
  induction depth generalizing p with
  | zero => cases h
  | succ depth ih =>
      obtain ⟨c', hc', h⟩ := List.mem_flatMap.1 h
      obtain ⟨c, hc, rfl⟩ := exists_of_mem_children_truncate hc'
      rcases List.mem_cons.1 h with rfl | h
      · exact ⟨c, List.mem_flatMap.2 ⟨c, hc, List.mem_cons_self⟩, rfl⟩
      · obtain ⟨q, hq, rfl⟩ := ih h
        exact ⟨q, List.mem_flatMap.2 ⟨c, hc, List.mem_cons_of_mem _ hq⟩, rfl⟩

section Follow

variable {next : Place → Option Place}

/-- A way that goes down is bounded by the height. -/
theorem follow_eq (hdown : ∀ {p q}, next p = some q → q ∈ p.children) {m n : Nat}
    (hm : p.node.height ≤ m) (hn : p.node.height ≤ n) : follow next m p = follow next n p := by
  induction m generalizing n p with
  | zero =>
      cases n with
      | zero => rfl
      | succ n =>
          rw [follow, follow]
          cases hnext : next p with
          | none => rfl
          | some q =>
              have hheight := height_lt_of_mem_children (hdown hnext)
              omega
  | succ m ih =>
      cases n with
      | zero =>
          rw [follow, follow]
          cases hnext : next p with
          | none => rfl
          | some q =>
              have hheight := height_lt_of_mem_children (hdown hnext)
              omega
      | succ n =>
          rw [follow, follow]
          cases hnext : next p with
          | none => rfl
          | some q =>
              have hheight := height_lt_of_mem_children (hdown hnext)
              exact ih (by omega) (by omega)

/-- The last place on a way is that on the way from the next place, if there is one. -/
theorem lastOn_eq (hdown : ∀ {p q}, next p = some q → q ∈ p.children) (p : Place) :
    p.lastOn next = ((next p).map (lastOn next)).getD p := by
  rw [lastOn, follow_eq hdown (Nat.le_refl _) (Nat.le_succ _), follow]
  cases hnext : next p with
  | none => rfl
  | some q =>
      have hheight := height_lt_of_mem_children (hdown hnext)
      exact follow_eq hdown (by omega) (Nat.le_refl _)

end Follow

end Place

/-- A rule that is cut off or moved finds no more in the truncated tree than in the whole one. -/
theorem Rule.length_walk_truncate_le {τ α : Type} {rule : Rule τ α} {levels : Nat}
    (hdown : rule.Descends)
    (h : ∀ task p, rule task (p.truncate levels) = [] ∨
      rule task (p.truncate levels) = (rule task p).map (Step.truncate levels))
    (task : τ) (p : Place) :
    (rule.walk task (p.truncate levels)).length ≤ (rule.walk task p).length := by
  induction hheight : p.node.height using Nat.strong_induction_on generalizing task p with
  | _ height ih =>
      rcases h task p with hnone | hmoved
      · rw [walk_eq_nil hnone]
        exact Nat.zero_le _
      · rw [walk_eq hdown, walk_eq hdown, hmoved]
        refine (Fades.truncate (rule task p)).length_items_le fun task' q hq => ?_
        exact ih _ (hheight ▸ hdown hq) task' q rfl

namespace Idiom.C

variable (d : Document) {levels : Nat} {p : Place}

/-! ## The name of a declarator -/

theorem mem_children_of_visit_nameRule {task task' : Unit} {q : Place}
    (h : Step.visit task' q ∈ nameRule d task p) : q ∈ p.children := by
  unfold nameRule at h
  split at h
  · cases List.mem_singleton.1 h
  · split at h
    · split at h
      · rename_i inner hinner
        cases List.mem_singleton.1 h
        exact Place.mem_children_of_field? hinner
      · obtain ⟨c, hc, h⟩ := List.mem_map.1 h
        cases h
        exact (List.mem_filter.1 hc).1
    · cases h

theorem nameRule_descends : (nameRule d).Descends :=
  fun h => Place.height_lt_of_mem_children (mem_children_of_visit_nameRule d h)

theorem nameRule_truncate (task : Unit)
    (hfield : (p.truncate levels).field? "declarator" =
      (p.field? "declarator").map (Place.truncate levels))
    (hnamed : (p.truncate levels).namedChildren = p.namedChildren.map (Place.truncate levels)) :
    nameRule d task (p.truncate levels) = (nameRule d task p).map (Step.truncate levels) := by
  unfold nameRule
  simp only [Place.isOneOf_truncate, hfield, hnamed, d.text_truncate]
  split
  · rfl
  · split
    · cases p.field? "declarator" with
      | none => exact (Step.map_truncate_visitAll levels () p.namedChildren).symm
      | some inner => rfl
    · rfl

/-- On the last level a declarator wraps nothing, but a name is one. -/
theorem nameRule_truncate_or (task : Unit) (p : Place) :
    nameRule d task (p.truncate levels) = [] ∨
      nameRule d task (p.truncate levels) = (nameRule d task p).map (Step.truncate levels) := by
  by_cases hp : p.level < levels
  · exact Or.inr (nameRule_truncate d task (Place.field?_truncate hp _)
      (Place.namedChildren_truncate hp))
  · have hempty := Place.children_truncate_of_le (Nat.le_of_not_lt hp)
    unfold nameRule
    rw [Place.isOneOf_truncate, Place.isOneOf_truncate, Place.field?_eq_none hempty,
      Place.namedChildren, hempty, d.text_truncate]
    split
    · exact Or.inr rfl
    · refine Or.inl ?_
      split <;> rfl

theorem isSome_declaratorName_iff :
    (declaratorName d p).isSome ↔ 0 < ((nameRule d).walk () p).length := by
  rw [declaratorName, List.isSome_head?, List.length_pos_iff]

/-- A declarator has a name in the truncated tree only if it has one. -/
theorem isSome_declaratorName_of_truncate (h : (declaratorName d (p.truncate levels)).isSome) :
    (declaratorName d p).isSome := by
  have hdown : (nameRule d).Descends := nameRule_descends d
  have hle : ((nameRule d).walk () (p.truncate levels)).length ≤ ((nameRule d).walk () p).length :=
    @Rule.length_walk_truncate_le _ _ (nameRule d) levels hdown (nameRule_truncate_or d) () p
  rw [isSome_declaratorName_iff] at h ⊢
  exact Nat.lt_of_lt_of_le h hle

/-- A declarator that is kept has the same name. -/
theorem declaratorName_truncate (h : p.IsKept levels) :
    declaratorName d (p.truncate levels) = declaratorName d p := by
  have hdown : (nameRule d).Descends := nameRule_descends d
  have hstep : ∀ {task task' : Unit} {p q : Place}, p.IsKept levels →
      Step.visit task' q ∈ nameRule d task p → q.IsKept levels :=
    fun hp hq => hp.child (mem_children_of_visit_nameRule d hq)
  have hmoved : ∀ {task : Unit} {p : Place}, p.IsKept levels →
      nameRule d task (p.truncate levels) = (nameRule d task p).map (Step.truncate levels) :=
    fun hp => nameRule_truncate d _ (hp.field?_truncate _) hp.namedChildren_truncate
  have hsame : (nameRule d).walk () (p.truncate levels) = (nameRule d).walk () p :=
    @Rule.walk_truncate _ _ (nameRule d) levels (fun _ p => p.IsKept levels) hdown hstep hmoved
      _ _ h
  rw [declaratorName, hsame, declaratorName]

/-! ## The function that a declarator declares -/

theorem mem_children_of_visit_functionRule {task task' : Unit} {q : Place}
    (h : Step.visit task' q ∈ functionRule task p) : q ∈ p.children := by
  unfold functionRule at h
  split at h
  · cases List.mem_singleton.1 h
  · split at h
    · obtain ⟨c, hc, h⟩ := List.mem_map.1 h
      cases h
      exact hc
    · cases h

theorem functionRule_descends : functionRule.Descends :=
  fun h => Place.height_lt_of_mem_children (mem_children_of_visit_functionRule h)

theorem functionRule_truncate (task : Unit)
    (h : (p.truncate levels).children = p.children.map (Place.truncate levels)) :
    functionRule task (p.truncate levels) = (functionRule task p).map (Step.truncate levels) := by
  unfold functionRule
  simp only [Place.kind_truncate, Place.isOneOf_truncate, h]
  split
  · rfl
  · split
    · exact (Step.map_truncate_visitAll levels () p.children).symm
    · rfl

theorem functionRule_truncate_or (task : Unit) (p : Place) :
    functionRule task (p.truncate levels) = [] ∨
      functionRule task (p.truncate levels) = (functionRule task p).map (Step.truncate levels) := by
  by_cases hp : p.level < levels
  · exact Or.inr (functionRule_truncate task (Place.children_truncate hp))
  · unfold functionRule
    rw [Place.kind_truncate, Place.isOneOf_truncate,
      Place.children_truncate_of_le (Nat.le_of_not_lt hp)]
    split
    · exact Or.inr rfl
    · refine Or.inl ?_
      split <;> rfl

theorem declaresFunction_iff : declaresFunction p = true ↔ 0 < (functionRule.walk () p).length := by
  rw [declaresFunction, Bool.not_eq_true', List.isEmpty_eq_false_iff, List.length_pos_iff]

theorem declaresFunction_of_truncate (h : declaresFunction (p.truncate levels) = true) :
    declaresFunction p = true := by
  have hdown : functionRule.Descends := functionRule_descends
  have hle : (functionRule.walk () (p.truncate levels)).length ≤ (functionRule.walk () p).length :=
    @Rule.length_walk_truncate_le _ _ functionRule levels hdown functionRule_truncate_or () p
  rw [declaresFunction_iff] at h ⊢
  exact Nat.lt_of_lt_of_le h hle

theorem declaresFunction_truncate (h : p.IsKept levels) :
    declaresFunction (p.truncate levels) = declaresFunction p := by
  have hdown : functionRule.Descends := functionRule_descends
  have hstep : ∀ {task task' : Unit} {p q : Place}, p.IsKept levels →
      Step.visit task' q ∈ functionRule task p → q.IsKept levels :=
    fun hp hq => hp.child (mem_children_of_visit_functionRule hq)
  have hmoved : ∀ {task : Unit} {p : Place}, p.IsKept levels →
      functionRule task (p.truncate levels) = (functionRule task p).map (Step.truncate levels) :=
    fun hp => functionRule_truncate _ hp.children_truncate
  have hsame : functionRule.walk () (p.truncate levels) = functionRule.walk () p :=
    @Rule.walk_truncate _ _ functionRule levels (fun _ p => p.IsKept levels) hdown hstep hmoved
      _ _ h
  rw [declaresFunction, hsame, declaresFunction]

/-- The next declarator on the way to that of a function. -/
def pointee? (p : Place) : Option Place :=
  if p.isOneOf pointerKinds then p.childOfAny? ("function_declarator" :: pointerKinds) else none

theorem mem_children_of_pointee? {q : Place} (h : pointee? p = some q) : q ∈ p.children := by
  unfold pointee? at h
  split at h
  · exact Place.mem_children_of_childOfAny? h
  · cases h

theorem functionDeclarator?_eq (p : Place) : functionDeclarator? p =
    if p.kind == "function_declarator" then some p else (pointee? p).bind functionDeclarator? := by
  have hinner : ∀ q : Place, functionDeclarator? q =
      if (q.lastOn pointee?).kind == "function_declarator" then some (q.lastOn pointee?)
      else none :=
    fun q => rfl
  rw [hinner, Place.lastOn_eq mem_children_of_pointee?]
  cases hnext : pointee? p with
  | none => rfl
  | some q =>
      have hpointer : p.isOneOf pointerKinds = true := by
        unfold pointee? at hnext
        split at hnext
        · assumption
        · cases hnext
      have hkind : (p.kind == "function_declarator") = false := by
        simp only [Place.isOneOf, pointerKinds, List.contains_eq_mem, List.mem_cons,
          List.not_mem_nil, or_false, decide_eq_true_eq] at hpointer
        rcases hpointer with hpointer | hpointer <;> rw [hpointer] <;> rfl
      rw [hkind, Option.map_some, Option.getD_some, Option.bind_some, hinner]
      rfl

/-- In the truncated tree a way to the declarator of a function leads to the same one. -/
theorem functionDeclarator?_of_truncate {f' : Place}
    (h : functionDeclarator? (p.truncate levels) = some f') :
    ∃ f, functionDeclarator? p = some f ∧ f' = f.truncate levels := by
  induction hheight : p.node.height using Nat.strong_induction_on generalizing p with
  | _ height ih =>
      rw [functionDeclarator?_eq, Place.kind_truncate] at h
      rw [functionDeclarator?_eq]
      split at h
      · rename_i hkind
        cases h
        exact ⟨p, by rw [if_pos hkind], rfl⟩
      · rename_i hkind
        rw [if_neg hkind]
        by_cases hp : p.level < levels
        · have hpointee :
              pointee? (p.truncate levels) = (pointee? p).map (Place.truncate levels) := by
            rw [pointee?, Place.isOneOf_truncate, Place.childOfAny?_truncate hp, pointee?]
            split <;> rfl
          rw [hpointee] at h
          cases hnext : pointee? p with
          | none =>
              rw [hnext] at h
              cases h
          | some q =>
              rw [hnext] at h
              have hlt := Place.height_lt_of_mem_children (mem_children_of_pointee? hnext)
              exact ih _ (hheight ▸ hlt) h rfl
        · have hnone : pointee? (p.truncate levels) = none := by
            rw [pointee?, Place.childOfAny?_eq_none
              (Place.children_truncate_of_le (Nat.le_of_not_lt hp)), ite_self]
          rw [hnone] at h
          cases h

/-- The parts of a function are the same in the truncated tree, or lost. -/
theorem functionParts_truncate_or (levels : Nat) (p : Place) :
    functionParts d (p.truncate levels) = none ∨
      functionParts d (p.truncate levels) = functionParts d p := by
  cases hf' : functionDeclarator? (p.truncate levels) with
  | none =>
      rw [functionParts, hf']
      exact Or.inl rfl
  | some f' =>
      obtain ⟨f, hf, rfl⟩ := functionDeclarator?_of_truncate hf'
      rw [functionParts, functionParts, hf, hf']
      by_cases hlevel : f.level < levels
      · refine Or.inr ?_
        simp only [Option.bind_eq_bind, Option.bind_some, d.fieldText_truncate hlevel,
          Place.field?_truncate hlevel, d.paramsText_map_truncate]
      · refine Or.inl ?_
        have hempty := Place.children_truncate_of_le (Nat.le_of_not_lt hlevel)
        simp only [Option.bind_eq_bind, Option.bind_some, d.fieldText_eq_none hempty,
          Option.bind_none]

theorem functionDeclarator?_isKept (h : p.IsKept levels) {f : Place}
    (hf : functionDeclarator? p = some f) : f.IsKept levels := by
  induction hheight : p.node.height using Nat.strong_induction_on generalizing p with
  | _ height ih =>
      rw [functionDeclarator?_eq] at hf
      split at hf
      · cases hf
        exact h
      · obtain ⟨q, hnext, hf⟩ := Option.bind_eq_some_iff.1 hf
        have hq := mem_children_of_pointee? hnext
        exact ih _ (hheight ▸ Place.height_lt_of_mem_children hq) (h.child hq) hf rfl

theorem functionDeclarator?_truncate (h : p.IsKept levels) :
    functionDeclarator? (p.truncate levels) =
      (functionDeclarator? p).map (Place.truncate levels) := by
  induction hheight : p.node.height using Nat.strong_induction_on generalizing p with
  | _ height ih =>
      have hpointee : pointee? (p.truncate levels) = (pointee? p).map (Place.truncate levels) := by
        rw [pointee?, Place.isOneOf_truncate, h.childOfAny?_truncate, pointee?]
        split <;> rfl
      rw [functionDeclarator?_eq, Place.kind_truncate, hpointee, functionDeclarator?_eq p]
      split
      · rfl
      · cases hnext : pointee? p with
        | none => rfl
        | some q =>
            have hq := mem_children_of_pointee? hnext
            exact ih _ (hheight ▸ Place.height_lt_of_mem_children hq) (h.child hq) rfl

/-- A declarator that is kept declares the same function. -/
theorem functionParts_truncate (h : p.IsKept levels) :
    functionParts d (p.truncate levels) = functionParts d p := by
  rw [functionParts, functionDeclarator?_truncate h, functionParts]
  cases hf : functionDeclarator? p with
  | none => rfl
  | some f =>
      have hfield := fun name => (functionDeclarator?_isKept h hf).field?_truncate name
      simp only [Option.map_some, Option.bind_eq_bind, Option.bind_some, Document.fieldText, hfield,
        Option.map_map, Function.comp_def, d.text_truncate, d.paramsText_map_truncate]

end Idiom.C

end SourceIndex
