import SourceIndex.Declarations.Python
import SourceIndex.Proofs.Lines.Scripts
import SourceIndex.Proofs.Text.Name
import SourceIndex.Proofs.Tree.Scoped
import SourceIndex.Uses.Python

/-!
# Scopes in Python

The declarations of a file are looked for from class body to class body, and the uses
everywhere.  Both walks pass over a decorated definition and take up what is decorated, in the scope
around it.  Where the name around it is missing in one walk, it is empty in the other.  So the uses
in a class or function with a name, in its bases and annotations as in its body, are attributed to
the qualified name of its symbol.
-/

namespace SourceIndex

namespace Uses.Python

variable (d : Document) {s t : Scope} {p c q r b : Place} {task : Task} {tree : Node}

/-- The kinds of places of which the walk for uses looks at some parts only. -/
def closedKinds : List String :=
  ["call", "raise_statement", "except_clause"]

/-- The kinds of places that are definitions, or decorate one. -/
def definitionKinds : List String :=
  ["decorated_definition", "function_definition", "class_definition"]

/-- The kinds of places that the walk for uses does not look at in the usual way. -/
def dispatchedKinds : List String :=
  ["import_statement", "import_from_statement", "assignment"] ++ (closedKinds ++ definitionKinds)

/-- The definition that a place is or decorates. -/
def definition? (c : Place) : Option Place :=
  match c.kind with
  | "function_definition" | "class_definition" => some c
  | "decorated_definition" => c.field? "definition"
  | _ => none

/-- The scope for which a task looks at a place. -/
def Task.scope : Task → Scope
  | inside s | typeHint s | caught s => s

/-- The scope of the use that a step hands out, or the one in which it takes the walk to a place. -/
def scopeOf : Step Task Reference → Option String
  | .emit use => use.sourceName
  | .visit task _ => task.scope.name

/-- Does the walk for uses take up a definition in a scope?  From a place that it looks at, it takes
up the definitions that the children are or decorate. -/
def TakesUp (root : Place) (s : Scope) (q : Place) : Prop :=
  ∃ p, (Task.inside s, p) ∈ (rule d).visits (.inside {}) root ∧ d.tooDeep s.depth = false ∧
    ∃ c ∈ p.children, definition? c = some q

/-! ## Where the walk goes -/

theorem mem_children_of_visit_callSteps (h : Step.visit task q ∈ callSteps d s p) :
    q ∈ p.children := by
  unfold callSteps at h
  split at h
  · cases h
  · rcases List.mem_cons.1 h with h | h
    · cases h
    · exact Place.mem_children_of_field? (Step.mem_visit?.1 h).2

/-- What is called without a call leads nowhere. -/
theorem visit_namedOrCalled? {steps : List (Step Task Reference)}
    (hsteps : namedOrCalled? d s c = some steps) (h : Step.visit task q ∈ steps) :
    c.kind = "call" ∧ q ∈ c.children := by
  unfold namedOrCalled? at hsteps
  split at hsteps
  case h_1 | h_2 =>
    cases hsteps
    cases List.mem_singleton.1 h
  case h_3 hc =>
    cases hsteps
    exact ⟨hc, mem_children_of_visit_callSteps d h⟩
  case h_4 => cases hsteps

/-- The arguments of decorators are arguments of calls. -/
theorem exists_call_of_visit_decoratorSteps (h : Step.visit task q ∈ decoratorSteps d s c) :
    ∃ o ∈ c.subtree, o.kind = "call" ∧ q ∈ o.children := by
  obtain ⟨decorator, hdecorator, h⟩ := List.mem_flatMap.1 h
  obtain ⟨o, ho, h⟩ := List.mem_flatMap.1 h
  cases hsteps : namedOrCalled? d s o with
  | none =>
      rw [hsteps] at h
      cases h
  | some steps =>
      rw [hsteps] at h
      obtain ⟨hkind, hq⟩ := visit_namedOrCalled? d hsteps h
      have hdecorator := Place.mem_subtree_of_child (List.mem_filter.1 hdecorator).1
      exact ⟨o, Place.mem_subtree_of_mem_children hdecorator ho, hkind, hq⟩

theorem visit_inside_definitionSteps :
    Step.visit (.inside t) q ∈ definitionSteps d s p ↔
      q = p ∧ t = ⟨innerName d s p, s.depth + 1⟩ := by
  have hheader : ∀ (places : List Place),
      Step.visit (.inside t) q ∉ (Step.visitAll (.typeHint ⟨innerName d s p, s.depth⟩) places :
        List (Step Task Reference)) := by
    intro places h
    obtain ⟨a, -, h⟩ := List.mem_map.1 h
    cases h
  simp only [definitionSteps, List.mem_append, List.mem_singleton, Step.visit.injEq,
    Task.inside.injEq]
  constructor
  · rintro (h | ⟨rfl, rfl⟩)
    · split at h
      · exact absurd h (hheader _)
      · exact absurd h (Step.visit_notMem_emitAll _)
    · exact ⟨rfl, rfl⟩
  · rintro ⟨rfl, rfl⟩
    exact Or.inr ⟨rfl, rfl⟩

theorem visit_raiseSteps (h : Step.visit task q ∈ raiseSteps d s c) :
    ∃ o ∈ c.subtree, o.kind ∈ ["call", c.kind] ∧ q ∈ o.children := by
  have hnamed : ∀ o ∈ c.namedChildren, o ∈ c.children :=
    fun o ho => (List.mem_filter.1 ho).1
  -- An expression leads into itself, which is a child here, and a call into its arguments.
  have hself : ∀ o ∈ c.namedChildren, ∃ o' ∈ c.subtree, o'.kind ∈ ["call", c.kind] ∧
      o ∈ o'.children := fun o ho =>
    ⟨c, Place.self_mem_subtree c, List.mem_cons_of_mem _ (List.mem_singleton.2 rfl), hnamed o ho⟩
  have hcall : ∀ o ∈ c.namedChildren, o.kind = "call" → q ∈ o.children →
      ∃ o' ∈ c.subtree, o'.kind ∈ ["call", c.kind] ∧ q ∈ o'.children := fun o ho hkind hq =>
    ⟨o, Place.mem_subtree_of_child (hnamed o ho), hkind ▸ List.mem_cons_self, hq⟩
  unfold raiseSteps at h
  split at h
  case h_1 => cases h
  case h_2 head rest hchildren =>
    rw [hchildren] at hself hcall
    rcases List.mem_append.1 h with h | h
    · cases hsteps : namedOrCalled? d s head with
      | none =>
          rw [hsteps] at h
          cases List.mem_singleton.1 h
          exact hself q List.mem_cons_self
      | some steps =>
          rw [hsteps] at h
          obtain ⟨hkind, hq⟩ := visit_namedOrCalled? d hsteps h
          exact hcall head List.mem_cons_self hkind hq
    · obtain ⟨o, ho, h⟩ := List.mem_flatMap.1 h
      split at h
      · rename_i hkind
        exact hcall o (List.mem_cons_of_mem _ ho) (eq_of_beq hkind)
          (mem_children_of_visit_callSteps d h)
      · cases List.mem_singleton.1 h
        exact hself q (List.mem_cons_of_mem _ ho)

theorem mem_children_of_visit_exceptSteps (h : Step.visit task q ∈ exceptSteps s c) :
    q ∈ c.children := by
  obtain ⟨o, ho, h⟩ := List.mem_map.1 h
  have ho := (List.mem_filter.1 (List.mem_filter.1 ho).1).1
  split at h <;> cases h <;> exact ho

/-- The places inside which the walk looks for uses, on account of a child of a place that it looks
at, with the scope there. -/
inductive Leads (s : Scope) (c : Place) : Scope → Place → Prop
  /-- The child itself. -/
  | child (hkind : c.kind ∉ definitionKinds) : Leads s c s.deeper c
  /-- The definition that the child is or decorates. -/
  | definition {q : Place} (hq : definition? c = some q) :
      Leads s c ⟨innerName d s q, s.depth + 1⟩ q
  /-- A part of a call, or of what is raised or caught. -/
  | part {o q : Place} {t : Scope} (ho : o ∈ c.subtree) (hkind : o.kind ∈ closedKinds)
      (hq : q ∈ o.children) : Leads s c t q

theorem leads_of_visit_childSteps (h : Step.visit (.inside t) q ∈ childSteps d s c) :
    Leads d s c t q := by
  have hself := Place.self_mem_subtree c
  unfold childSteps at h
  split at h
  case h_1 | h_2 => exact absurd h (Step.visit_notMem_emitAll _)
  case h_3 hc =>
    exact .part hself (by simp [closedKinds, hc]) (mem_children_of_visit_callSteps d h)
  case h_4 hc =>
    rcases List.mem_append.1 h with h | h
    · obtain ⟨o, ho, hkind, hq⟩ := exists_call_of_visit_decoratorSteps d h
      exact .part ho (by simp [closedKinds, hkind]) hq
    · cases hdefinition : c.field? "definition" with
      | none =>
          rw [hdefinition] at h
          cases h
      | some definition =>
          rw [hdefinition] at h
          obtain ⟨rfl, rfl⟩ := (visit_inside_definitionSteps d).1 h
          exact .definition (by simp [definition?, hc, hdefinition])
  case h_5 hc | h_6 hc =>
    obtain ⟨rfl, rfl⟩ := (visit_inside_definitionSteps d).1 h
    exact .definition (by simp [definition?, hc])
  case h_7 hc =>
    obtain ⟨o, ho, hkind, hq⟩ := visit_raiseSteps d h
    have hclosed : ["call", "raise_statement"] ⊆ closedKinds := by decide
    exact .part ho (hclosed (hc ▸ hkind)) hq
  case h_8 hc =>
    exact .part hself (by simp [closedKinds, hc]) (mem_children_of_visit_exceptSteps h)
  case h_9 hc =>
    rcases List.mem_append.1 h with h | h
    · cases (Step.mem_visit?.1 h).1
    · cases List.mem_singleton.1 h
      exact .child (by simp [definitionKinds, hc])
  case h_10 hdecorated hfunction hclass _ _ _ =>
    cases List.mem_singleton.1 h
    refine .child ?_
    simp only [definitionKinds, List.mem_cons, List.not_mem_nil, or_false, not_or]
    exact ⟨hdecorated, hfunction, hclass⟩

theorem visit_childSteps_of_definition? (hq : definition? c = some q) :
    Step.visit (.inside ⟨innerName d s q, s.depth + 1⟩) q ∈ childSteps d s c := by
  have hsteps := (visit_inside_definitionSteps d (s := s) (p := q)).2 ⟨rfl, rfl⟩
  unfold definition? at hq
  unfold childSteps
  split at hq
  case h_1 hc | h_2 hc =>
    cases hq
    simp only [hc]
    exact hsteps
  case h_3 hc =>
    simp only [hc, hq]
    exact List.mem_append_right _ hsteps
  case h_4 => cases hq

theorem visit_childSteps_of_notMem (hkind : c.kind ∉ dispatchedKinds) :
    Step.visit (.inside s.deeper) c ∈ childSteps d s c := by
  unfold childSteps
  split
  case h_10 => exact List.mem_singleton.2 rfl
  all_goals simp [dispatchedKinds, closedKinds, definitionKinds, *] at hkind

theorem rule_inside : rule d (.inside s) p =
    if d.tooDeep s.depth then [] else p.children.flatMap (childSteps d s) :=
  rfl

/-- An annotation leads to its parts. -/
theorem visit_typeHint (h : Step.visit task q ∈ rule d (.typeHint s) p) :
    task = .typeHint s.deeper ∧ q ∈ p.children := by
  simp only [rule, typeHintSteps] at h
  repeat' split at h
  all_goals simp [Step.visitAll] at h
  exact ⟨h.2.symm, h.1⟩

/-- What is caught leads to its parts. -/
theorem visit_caught (h : Step.visit task q ∈ rule d (.caught s) p) :
    task = .caught s.deeper ∧ q ∈ p.children := by
  have hnamed : ∀ {places : List Place}, places ⊆ p.children →
      Step.visit task q ∈ (Step.visitAll (.caught s.deeper) places : List (Step Task Reference)) →
      task = .caught s.deeper ∧ q ∈ p.children := by
    intro places hplaces h
    obtain ⟨c, hc, h⟩ := List.mem_map.1 h
    cases h
    exact ⟨rfl, hplaces hc⟩
  have hchildren : p.namedChildren ⊆ p.children := List.filter_subset_self _
  simp only [rule, caughtSteps] at h
  repeat' split at h
  case h_3 => exact hnamed (fun c hc => hchildren (List.mem_of_mem_take hc)) h
  case h_4 | h_5 | h_6 => exact hnamed hchildren h
  all_goals simp at h

/-- The walk looks inside a place only from a place inside which it looks. -/
theorem exists_of_visit_inside (h : Step.visit (.inside t) q ∈ rule d task p) :
    ∃ s, task = .inside s ∧ d.tooDeep s.depth = false ∧
      ∃ c ∈ p.children, Leads d s c t q := by
  cases task with
  | inside s =>
      rw [rule_inside] at h
      split at h
      · cases h
      · rename_i hdepth
        obtain ⟨c, hc, h⟩ := List.mem_flatMap.1 h
        exact ⟨s, rfl, by simpa using hdepth, c, hc, leads_of_visit_childSteps d h⟩
  | typeHint s =>
      cases (visit_typeHint d h).1
  | caught s =>
      cases (visit_caught d h).1

theorem mem_subtree_of_visit_definitionSteps (h : Step.visit task q ∈ definitionSteps d s p) :
    q ∈ p.subtree := by
  have hself := Place.self_mem_subtree p
  rcases List.mem_append.1 h with h | h
  · split at h
    · obtain ⟨a, ha, h⟩ := List.mem_map.1 h
      cases h
      rcases List.mem_append.1 ha with ha | ha
      · obtain ⟨c, hc, hq⟩ := List.mem_filterMap.1 ha
        cases hparameters : p.field? "parameters" with
        | none =>
            rw [hparameters] at hc
            cases hc
        | some parameters =>
            rw [hparameters] at hc
            have hparameters := Place.mem_children_of_field? hparameters
            exact Place.mem_subtree_of_mem_children (Place.mem_subtree_of_mem_children
              (Place.mem_subtree_of_mem_children hself hparameters) hc)
              (Place.mem_children_of_field? hq)
      · exact Place.mem_subtree_of_mem_children hself
          (Place.mem_children_of_field? (Option.mem_toList.1 ha))
    · exact absurd h (Step.visit_notMem_emitAll _)
  · cases List.mem_singleton.1 h
    exact hself

theorem mem_subtree_of_definition? (h : definition? c = some q) : q ∈ c.subtree := by
  unfold definition? at h
  split at h
  case h_1 | h_2 =>
    cases h
    exact Place.self_mem_subtree c
  case h_3 =>
    exact Place.mem_subtree_of_child (Place.mem_children_of_field? h)
  case h_4 => cases h

theorem mem_subtree_of_visit_childSteps (h : Step.visit task q ∈ childSteps d s c) :
    q ∈ c.subtree := by
  have hself := Place.self_mem_subtree c
  unfold childSteps at h
  split at h
  case h_1 | h_2 => exact absurd h (Step.visit_notMem_emitAll _)
  case h_3 =>
    exact Place.mem_subtree_of_mem_children hself (mem_children_of_visit_callSteps d h)
  case h_4 =>
    rcases List.mem_append.1 h with h | h
    · obtain ⟨o, ho, -, hq⟩ := exists_call_of_visit_decoratorSteps d h
      exact Place.mem_subtree_of_mem_children ho hq
    · cases hdefinition : c.field? "definition" with
      | none =>
          rw [hdefinition] at h
          cases h
      | some definition =>
          rw [hdefinition] at h
          exact Place.mem_subtree_trans (Place.mem_subtree_of_field? hself hdefinition)
            (mem_subtree_of_visit_definitionSteps d h)
  case h_5 | h_6 => exact mem_subtree_of_visit_definitionSteps d h
  case h_7 =>
    obtain ⟨o, ho, -, hq⟩ := visit_raiseSteps d h
    exact Place.mem_subtree_of_mem_children ho hq
  case h_8 =>
    exact Place.mem_subtree_of_mem_children hself (mem_children_of_visit_exceptSteps h)
  case h_9 =>
    rcases List.mem_append.1 h with h | h
    · exact Place.mem_subtree_of_mem_children hself
        (Place.mem_children_of_field? (Step.mem_visit?.1 h).2)
    · cases List.mem_singleton.1 h
      exact hself
  case h_10 =>
    cases List.mem_singleton.1 h
    exact hself

theorem rule_descends : (rule d).Descends := by
  intro task task' p q h
  cases task with
  | inside s =>
      rw [rule_inside] at h
      split at h
      · cases h
      · obtain ⟨c, hc, h⟩ := List.mem_flatMap.1 h
        exact Nat.lt_of_le_of_lt
          (Place.height_le_of_mem_subtree (mem_subtree_of_visit_childSteps d h))
          (Place.height_lt_of_mem_children hc)
  | typeHint s => exact Place.height_lt_of_mem_children (visit_typeHint d h).2
  | caught s => exact Place.height_lt_of_mem_children (visit_caught d h).2

/-! ## How it comes to a place -/

variable {d}

/-- Unless it starts there, the walk comes to look inside a place from one inside which it looks. -/
theorem exists_of_mem_visits (hq : q ∈ p.children)
    (h : (Task.inside t, q) ∈ (rule d).visits (.inside {}) (.root tree)) :
    ∃ s r, (Task.inside s, r) ∈ (rule d).visits (.inside {}) (.root tree) ∧
      d.tooDeep s.depth = false ∧ ∃ c ∈ r.children, Leads d s c t q := by
  rcases Rule.eq_or_exists_visit (rule_descends d) h with heq | ⟨⟨task, r⟩, hr, hstep⟩
  · cases heq
    have hlevel := Place.level_of_mem_children hq
    simp [Place.level] at hlevel
  · obtain ⟨s, rfl, hdepth, c, hc, hleads⟩ := exists_of_visit_inside d hstep
    exact ⟨s, r, hr, hdepth, c, hc, hleads⟩

/-- A place on a way that avoids the closed kinds, and no decorated definition unless it is the
root. -/
structure IsUsual (p : Place) : Prop where
  avoids : p.avoids closedKinds = true
  notDecorated : ∀ r : Place, p ∈ r.children → p.kind ≠ "decorated_definition"

theorem isUsual_root : IsUsual (.root tree) where
  avoids := rfl
  notDecorated := by
    intro r hr
    have hlevel := Place.level_of_mem_children hr
    simp [Place.level] at hlevel

theorem IsUsual.child (hp : IsUsual p) (hc : c ∈ p.children)
    (hkind : c.kind ∉ "decorated_definition" :: closedKinds) : IsUsual c := by
  rw [List.mem_cons, not_or] at hkind
  exact ⟨(Place.avoids_of_mem_children hc).2 ⟨hp.avoids, hkind.2⟩, fun _ _ => hkind.1⟩

/-- The definitions that the children are or decorate are usual places, too. -/
theorem IsUsual.definition (hp : IsUsual p) (hc : c ∈ p.children) (hq : definition? c = some q)
    (hkind : q.kind ∈ ["function_definition", "class_definition"]) : IsUsual q := by
  have hopen : q.kind ∉ "decorated_definition" :: closedKinds := by
    have hapart : ∀ k ∈ ["function_definition", "class_definition"],
        k ∉ "decorated_definition" :: closedKinds := by decide
    exact hapart _ hkind
  unfold definition? at hq
  split at hq
  case h_1 | h_2 =>
    cases hq
    exact hp.child hc hopen
  case h_3 hdecorated =>
    rw [List.mem_cons, not_or] at hopen
    have hclosed : c.kind ∉ closedKinds := by rw [hdecorated]; decide
    have hcAvoids := (Place.avoids_of_mem_children hc).2 ⟨hp.avoids, hclosed⟩
    exact ⟨(Place.avoids_of_mem_children (Place.mem_children_of_field? hq)).2 ⟨hcAvoids, hopen.2⟩,
      fun _ _ => hopen.1⟩
  case h_4 => cases hq

/-- The way to a part of a closed place does not avoid these. -/
theorem not_avoids_of_part {o : Place} (hc : c ∈ r.children) (ho : o ∈ c.subtree)
    (hkind : o.kind ∈ closedKinds) (hq : q ∈ o.children) : ¬ q.avoids closedKinds = true := by
  intro havoids
  have havoids := ((Place.avoids_of_mem_children hq).1 havoids).1
  -- The place is no root, since it stands below a child.
  cases o with
  | root n =>
      have hle := Place.level_le_of_mem_subtree ho
      have hlevel := Place.level_of_mem_children hc
      simp only [Place.level] at hle
      omega
  | child o ns n =>
      rw [Place.avoids, Bool.and_eq_true, Bool.not_eq_true', ← Bool.not_eq_true,
        List.contains_iff_mem] at havoids
      exact havoids.2 hkind

/-- What a place is or decorates is the place or a child of it. -/
theorem definition?_cases (h : definition? c = some q) :
    q = c ∧ c.kind ∈ ["function_definition", "class_definition"] ∨
      q ∈ c.children ∧ c.kind = "decorated_definition" := by
  unfold definition? at h
  split at h
  case h_1 hc | h_2 hc =>
    cases h
    exact Or.inl ⟨rfl, by simp [hc]⟩
  case h_3 hc => exact Or.inr ⟨Place.mem_children_of_field? h, hc⟩
  case h_4 => cases h

/-- The walk passes over the decorated definitions below a usual place. -/
theorem notMem_visits_of_decorated (hp : IsUsual p) (hc : c ∈ p.children)
    (hkind : c.kind = "decorated_definition") :
    (Task.inside t, c) ∉ (rule d).visits (.inside {}) (.root tree) := by
  intro h
  have havoids : c.avoids closedKinds = true :=
    (Place.avoids_of_mem_children hc).2 ⟨hp.avoids, by rw [hkind]; decide⟩
  obtain ⟨s, r, -, -, o, ho, hleads⟩ := exists_of_mem_visits hc h
  cases hleads with
  | child hplain => exact hplain (hkind ▸ List.mem_cons_self)
  | definition hq =>
      obtain ⟨rfl, hne⟩ | ⟨hco, hdecorated⟩ := definition?_cases hq
      · simp [hkind] at hne
      · cases Place.parent_unique hc hco
        exact hp.notDecorated r ho hdecorated
  | part ho' hclosed hq => exact not_avoids_of_part ho ho' hclosed hq havoids

/-- From a usual place the walk takes up the definitions that the children are or decorate, and no
other place leads to these. -/
theorem takesUp_iff (hp : IsUsual p) (hc : c ∈ p.children) (hq : definition? c = some q)
    (hkind : q.kind ∈ ["function_definition", "class_definition"]) :
    TakesUp d (.root tree) s q ↔
      (Task.inside s, p) ∈ (rule d).visits (.inside {}) (.root tree) ∧ d.tooDeep s.depth = false := by
  have hne : q.kind ≠ "decorated_definition" := by
    intro heq
    simp [heq] at hkind
  constructor
  · rintro ⟨r, hr, hdepth, o, ho, hqo⟩
    suffices hrp : r = p from ⟨hrp ▸ hr, hdepth⟩
    obtain ⟨rfl, -⟩ | ⟨hqc, hdecorated⟩ := definition?_cases hq <;>
      obtain ⟨rfl, -⟩ | ⟨hqo, hdecorated'⟩ := definition?_cases hqo
    · exact Place.parent_unique hc ho
    · cases Place.parent_unique hc hqo
      exact absurd hdecorated' (hp.notDecorated r ho)
    · cases Place.parent_unique hqc ho
      exact absurd hr (notMem_visits_of_decorated hp hc hdecorated)
    · cases Place.parent_unique hqc hqo
      exact Place.parent_unique hc ho
  · rintro ⟨hvisit, hdepth⟩
    exact ⟨p, hvisit, hdepth, c, hc, hq⟩

/-- The walk looks inside a definition exactly if it takes it up, in the scope that its name makes.
-/
theorem mem_visits_definition_iff (hq : IsUsual q) (hp : q ∈ p.children)
    (hkind : q.kind ∈ ["function_definition", "class_definition"]) :
    (Task.inside t, q) ∈ (rule d).visits (.inside {}) (.root tree) ↔
      ∃ s, TakesUp d (.root tree) s q ∧ t = ⟨innerName d s q, s.depth + 1⟩ := by
  constructor
  · intro h
    obtain ⟨s, r, hr, hdepth, c, hc, hleads⟩ := exists_of_mem_visits hp h
    cases hleads with
    | child hplain => exact absurd (List.mem_cons_of_mem _ hkind) hplain
    | definition hqc => exact ⟨s, ⟨r, hr, hdepth, c, hc, hqc⟩, rfl⟩
    | part ho hclosed hqo => exact absurd hq.avoids (not_avoids_of_part hc ho hclosed hqo)
  · rintro ⟨s, ⟨r, hr, hdepth, c, hc, hqc⟩, rfl⟩
    refine Rule.mem_visits_of_visit (rule_descends d) hr ?_
    rw [rule_inside, if_neg (by simp [hdepth])]
    exact List.mem_flatMap.2 ⟨c, hc, visit_childSteps_of_definition? d hqc⟩

/-- The walk looks inside a child that is not dispatched on exactly if it looks inside the place. -/
theorem mem_visits_child_iff (hp : IsUsual p) (hb : b ∈ p.children)
    (hkind : b.kind ∉ dispatchedKinds) :
    (Task.inside t, b) ∈ (rule d).visits (.inside {}) (.root tree) ↔
      ∃ s, (Task.inside s, p) ∈ (rule d).visits (.inside {}) (.root tree) ∧
        d.tooDeep s.depth = false ∧ t = s.deeper := by
  constructor
  · intro h
    have hclosed : b.kind ∉ closedKinds := fun hmem =>
      hkind (List.mem_append_right _ (List.mem_append_left _ hmem))
    have hdefinition : b.kind ∉ definitionKinds := fun hmem =>
      hkind (List.mem_append_right _ (List.mem_append_right _ hmem))
    have havoids := (Place.avoids_of_mem_children hb).2 ⟨hp.avoids, hclosed⟩
    obtain ⟨s, r, hr, hdepth, c, hc, hleads⟩ := exists_of_mem_visits hb h
    cases hleads with
    | child _ =>
        cases Place.parent_unique hb hc
        exact ⟨s, hr, hdepth, rfl⟩
    | definition hq =>
        obtain ⟨rfl, hmem⟩ | ⟨hbc, hdecorated⟩ := definition?_cases hq
        · exact absurd (List.mem_cons_of_mem _ hmem) hdefinition
        · cases Place.parent_unique hb hbc
          exact absurd hdecorated (hp.notDecorated r hc)
    | part ho hmem hq => exact absurd havoids (not_avoids_of_part hc ho hmem hq)
  · rintro ⟨s, hs, hdepth, rfl⟩
    refine Rule.mem_visits_of_visit (rule_descends d) hs ?_
    rw [rule_inside, if_neg (by simp [hdepth])]
    exact List.mem_flatMap.2 ⟨b, hb, visit_childSteps_of_notMem d hkind⟩

/-! ## The scope that it carries -/

/-- Scopes with the same text around a definition make scopes with the same text inside it. -/
theorem innerName_of_named {name : String} (hname : d.fieldText q "name" = some name)
    {above : Option String} (habove : s.name.getD "" = above.getD "") :
    innerName d s q =
      if Text.qualify above name "." = "" then none else some (Text.qualify above name ".") := by
  simp [innerName, hname, (Text.qualify_inj name ".").2 habove]

variable (d)

/-- Into a definition the walk carries one scope and no other, with its bases and annotations and
into its body.  It takes up the definition and looks inside the body, unless that is too deep. -/
structure CarriesOnly (root q : Place) (scope : Option String) : Prop where
  definition : ∀ s, TakesUp d root s q → ∀ step ∈ definitionSteps d s q, scopeOf step = scope
  body : ∀ b ∈ q.field? "body", ∀ scope', (rule d).Carries .inside root b scope' → scope' = scope
  takenUp : q.level ≤ d.limits.walkDepth.toNat + 1 → ∃ s, TakesUp d root s q
  entered : ∀ b ∈ q.field? "body", b.level ≤ d.limits.walkDepth.toNat + 1 →
    (rule d).Carries .inside root b scope

variable {d}

theorem scopeOf_of_mem_definitionSteps {step : Step Task Reference}
    (h : step ∈ definitionSteps d s q) : scopeOf step = innerName d s q := by
  rcases List.mem_append.1 h with h | h
  · split at h
    · obtain ⟨a, -, rfl⟩ := List.mem_map.1 h
      rfl
    · obtain ⟨use, huse, rfl⟩ := List.mem_map.1 h
      obtain ⟨c, -, huse⟩ := List.mem_filterMap.1 huse
      obtain ⟨-, huse⟩ := Option.ite_none_left_eq_some.1 huse
      cases huse
      rfl
  · cases List.mem_singleton.1 h
    rfl

end Uses.Python

namespace Declarations.Python

open SourceIndex.Uses.Python (closedKinds definitionKinds dispatchedKinds definition?
  definition?_cases mem_subtree_of_definition? IsUsual isUsual_root TakesUp takesUp_iff innerName
  innerName_of_named mem_visits_definition_iff mem_visits_child_iff CarriesOnly
  scopeOf_of_mem_definitionSteps)

variable (d : Document)

/-- What the walk takes up at a place: its children. -/
def entries (s : Scope) (p : Place) : List (Scope × Place) :=
  if d.tooDeep s.depth then [] else p.children.map fun c => (s, c)

/-- The definition and the symbol that the walk finds first for a child. -/
def definitionOf? (c : Place) : Found → Option (Place × Symbol)
  | .declared y => (definition? c).map fun q => (q, y)
  | .attribute _ => none

/-- The definitions of a file that the walk finds, each with its symbol. -/
def scopes (root : Place) : List (Place × Symbol) :=
  ((rule d (exportList d root)).firsts (entries d) (childSteps d (exportList d root))
    definitionKinds {} root).filterMap fun f => definitionOf? f.1 f.2

/-- The body of a definition is a place that the walk for uses looks at in the usual way. -/
def IsRegular (tree : Node) : Prop :=
  ∀ p ∈ (Place.root tree).subtree, p.kind ∈ ["function_definition", "class_definition"] →
    ∀ b ∈ p.field? "body", b.kind ∉ dispatchedKinds

variable {d} {exports : Option (List String)} {s s' : Scope} {p c q b : Place} {tree : Node}
  {y : Symbol} {found : Found} {f : Place × Symbol}

theorem mem_entries {t : Scope} : (t, c) ∈ entries d s p ↔
    ¬ d.tooDeep s.depth = true ∧ t = s ∧ c ∈ p.children := by
  unfold entries
  split
  · simp [*]
  · simp [*, eq_comm, and_comm]

theorem rule_eq_entries : rule d exports s p =
    (entries d s p).flatMap fun e => childSteps d exports e.1 e.2 := by
  rw [rule, entries]
  split
  · rfl
  · rw [List.flatMap_map]

/-! ## The walk through the bodies of classes -/

theorem visit_definitionSteps {outer : Place}
    (h : Step.visit s' b ∈ definitionSteps d exports s outer q) :
    q.kind = "class_definition" ∧ ∃ name, d.fieldText q "name" = some name ∧
      s' = s.enter (Text.qualify s.name name ".") ∧ q.field? "body" = some b := by
  unfold definitionSteps at h
  split at h
  case h_1 =>
    unfold functionSteps at h
    split at h
    · cases h
    · rcases List.mem_cons.1 h with h | h
      · cases h
      · obtain ⟨a, -, h⟩ := List.mem_map.1 h
        cases h
  case h_2 hkind =>
    unfold classSteps at h
    split at h
    · cases h
    · rename_i name hname
      rcases List.mem_cons.1 h with h | h
      · cases h
      · obtain ⟨rfl, hb⟩ := Step.mem_visit?.1 h
        exact ⟨hkind, name, hname, rfl, hb⟩
  case h_3 => cases h

/-- The walk goes from a class with a name into its body. -/
theorem visit_childSteps (h : Step.visit s' b ∈ childSteps d exports s c) :
    ∃ q name, definition? c = some q ∧ q.kind = "class_definition" ∧
      d.fieldText q "name" = some name ∧ s' = s.enter (Text.qualify s.name name ".") ∧
        q.field? "body" = some b := by
  unfold childSteps at h
  split at h
  case h_1 hc | h_2 hc =>
    obtain ⟨hkind, name, hname, hs, hb⟩ := visit_definitionSteps h
    exact ⟨c, name, by simp [definition?, hc], hkind, hname, hs, hb⟩
  case h_3 hc =>
    cases hq : c.field? "definition" with
    | none =>
        rw [hq] at h
        cases h
    | some q =>
        rw [hq] at h
        obtain ⟨hkind, name, hname, hs, hb⟩ := visit_definitionSteps h
        exact ⟨q, name, by simp [definition?, hc, hq], hkind, hname, hs, hb⟩
  case h_4 | h_5 =>
    obtain ⟨a, -, h⟩ := List.mem_map.1 h
    cases h
  case h_6 => cases h

theorem visit_rule (h : Step.visit s' b ∈ rule d exports s p) :
    ∃ c ∈ p.children, Step.visit s' b ∈ childSteps d exports s c := by
  rw [rule_eq_entries] at h
  obtain ⟨⟨t, c⟩, he, hstep⟩ := List.mem_flatMap.1 h
  obtain ⟨-, rfl, hc⟩ := mem_entries.1 he
  exact ⟨c, hc, hstep⟩

theorem rule_descends : (rule d exports).Descends := by
  intro s s' p b h
  obtain ⟨c, hc, h⟩ := visit_rule h
  obtain ⟨q, -, hq, -, -, -, hb⟩ := visit_childSteps h
  have hbq := Place.height_lt_of_mem_children (Place.mem_children_of_field? hb)
  have hqc := Place.height_le_of_mem_subtree (mem_subtree_of_definition? hq)
  have hcp := Place.height_lt_of_mem_children hc
  omega

/-- A place to which the walk comes.  The walk for uses looks inside it as well, in a scope with the
same text, unless the place is too deep. -/
structure IsOpen (d : Document) (tree : Node) (s : Scope) (p : Place) : Prop where
  ofTree : p ∈ (Place.root tree).subtree
  usual : IsUsual p
  agrees : ∀ t, (Uses.Python.Task.inside t, p) ∈
    (Uses.Python.rule d).visits (.inside {}) (.root tree) → t.name.getD "" = s.name.getD ""
  reached : p.level ≤ d.limits.walkDepth.toNat + 1 → ∃ t, t.depth ≤ p.level ∧
    (Uses.Python.Task.inside t, p) ∈ (Uses.Python.rule d).visits (.inside {}) (.root tree)

/-- A definition that a child of such a place is or decorates is taken up in such a scope only. -/
theorem IsOpen.agrees_definition (hp : IsOpen d tree s p) (hc : c ∈ p.children)
    (hq : definition? c = some q) (hkind : q.kind ∈ ["function_definition", "class_definition"])
    {t : Scope} (ht : TakesUp d (.root tree) t q) : t.name.getD "" = s.name.getD "" :=
  hp.agrees t ((takesUp_iff hp.usual hc hq hkind).1 ht).1

theorem IsOpen.takenUp (hp : IsOpen d tree s p) (hc : c ∈ p.children)
    (hq : definition? c = some q) (hkind : q.kind ∈ ["function_definition", "class_definition"])
    (hlevel : q.level ≤ d.limits.walkDepth.toNat + 1) :
    ∃ t, t.depth + 1 ≤ q.level ∧ TakesUp d (.root tree) t q := by
  have hcLevel := Place.level_of_mem_children hc
  have hqLevel := Place.level_le_of_mem_subtree (mem_subtree_of_definition? hq)
  obtain ⟨t, ht, hvisit⟩ := hp.reached (by omega)
  refine ⟨t, by omega, (takesUp_iff hp.usual hc hq hkind).2 ⟨hvisit, ?_⟩⟩
  rw [Document.tooDeep, decide_eq_false_iff_not]
  omega

/-- The walk for uses looks inside the body of a definition exactly if it takes the definition up,
and it does so in the scope that the name of the definition makes. -/
theorem IsOpen.mem_visits_body_iff (hp : IsOpen d tree s p) (h : IsRegular tree)
    (hc : c ∈ p.children) (hq : definition? c = some q)
    (hkind : q.kind ∈ ["function_definition", "class_definition"]) (hb : q.field? "body" = some b)
    {u : Scope} :
    (Uses.Python.Task.inside u, b) ∈ (Uses.Python.rule d).visits (.inside {}) (.root tree) ↔
      ∃ t, TakesUp d (.root tree) t q ∧ d.tooDeep (t.depth + 1) = false ∧
        u = ⟨innerName d t q, t.depth + 2⟩ := by
  have husual := hp.usual.definition hc hq hkind
  have hcTree := Place.mem_subtree_of_mem_children hp.ofTree hc
  have hqTree := Place.mem_subtree_trans hcTree (mem_subtree_of_definition? hq)
  obtain ⟨r, hr⟩ : ∃ r : Place, q ∈ r.children := by
    obtain ⟨rfl, -⟩ | ⟨hqc, -⟩ := definition?_cases hq
    · exact ⟨p, hc⟩
    · exact ⟨c, hqc⟩
  rw [mem_visits_child_iff husual (Place.mem_children_of_field? hb) (h q hqTree hkind b hb)]
  constructor
  · rintro ⟨v, hv, hdepth, rfl⟩
    obtain ⟨t, ht, rfl⟩ := (mem_visits_definition_iff husual hr hkind).1 hv
    exact ⟨t, ht, hdepth, rfl⟩
  · rintro ⟨t, ht, hdepth, rfl⟩
    exact ⟨_, (mem_visits_definition_iff husual hr hkind).2 ⟨t, ht, rfl⟩, hdepth, rfl⟩

theorem IsOpen.visit (hp : IsOpen d tree s p) (h : IsRegular tree) (hc : c ∈ p.children)
    (hstep : Step.visit s' b ∈ childSteps d exports s c) : IsOpen d tree s' b := by
  obtain ⟨q, name, hq, hclass, hname, rfl, hb⟩ := visit_childSteps hstep
  have hkind : q.kind ∈ ["function_definition", "class_definition"] := by simp [hclass]
  have hbq := Place.mem_children_of_field? hb
  have hqTree := Place.mem_subtree_trans (Place.mem_subtree_of_mem_children hp.ofTree hc)
    (mem_subtree_of_definition? hq)
  have hplain : b.kind ∉ "decorated_definition" :: closedKinds := by
    have hsubset : "decorated_definition" :: closedKinds ⊆ dispatchedKinds := by decide
    exact fun hmem => h q hqTree hkind b hb (hsubset hmem)
  refine ⟨Place.mem_subtree_of_mem_children hqTree hbq,
    (hp.usual.definition hc hq hkind).child hbq hplain, fun u hu => ?_, fun hlevel => ?_⟩
  · obtain ⟨t, ht, -, rfl⟩ := (hp.mem_visits_body_iff h hc hq hkind hb).1 hu
    have hinner := innerName_of_named hname (hp.agrees_definition hc hq hkind ht)
    -- Where the name in the scope is empty, the walk for uses has no name.
    simp only [hinner, Scope.enter, Option.getD_some]
    split <;> simp [*]
  · have hbLevel := Place.level_of_mem_children hbq
    obtain ⟨t, htLevel, ht⟩ := hp.takenUp hc hq hkind (by omega)
    refine ⟨⟨innerName d t q, t.depth + 2⟩, ?_,
      (hp.mem_visits_body_iff h hc hq hkind hb).2 ⟨t, ht, ?_, rfl⟩⟩
    · show t.depth + 2 ≤ b.level
      omega
    · rw [Document.tooDeep, decide_eq_false_iff_not]
      omega

theorem isOpen_of_mem_visits (h : IsRegular tree) {v : Scope × Place}
    (hv : v ∈ (rule d exports).visits {} (.root tree)) : IsOpen d tree v.1 v.2 := by
  refine Rule.forall_mem_visits rule_descends (P := IsOpen d tree) ?_ ?_ v hv
  · intro s s' p b hp hstep
    obtain ⟨c, hc, hstep⟩ := visit_rule hstep
    exact hp.visit h hc hstep
  · refine ⟨Place.self_mem_subtree _, isUsual_root, fun t ht => ?_, fun _ => ?_⟩
    · cases Rule.eq_of_mem_visits_self (Uses.Python.rule_descends d) ht
      rfl
    · exact ⟨{}, Nat.le_refl _, Rule.self_mem_visits (Uses.Python.rule_descends d) _ _⟩

/-! ## The symbols of definitions -/

/-- The kinds of the symbols of definitions. -/
def symbolKinds : List SymbolKind :=
  [.class, .function, .method]

/-- What was found is the declaration of a class, a function or a method. -/
def Found.IsDefinition (found : Found) : Prop :=
  ∃ y, found = .declared y ∧ y.kind ∈ symbolKinds

/-- Of a definition the walk finds a symbol first that has its name, in the scope around it. -/
theorem exists_of_first?_definitionSteps {outer : Place}
    (h : Step.first? (definitionSteps d exports s outer q) = some found) :
    q.kind ∈ ["function_definition", "class_definition"] ∧
      ∃ y, found = .declared y ∧ y.kind ∈ symbolKinds ∧ d.fieldText q "name" = some y.name ∧
        y.qualifiedName = Text.qualify s.name y.name "." := by
  unfold definitionSteps at h
  split at h
  case h_1 hkind =>
    unfold functionSteps at h
    split at h
    · cases h
    · rename_i name hname
      cases h
      refine ⟨by simp [hkind], _, rfl, ?_, hname, rfl⟩
      show (if s.name.isSome then SymbolKind.method else .function) ∈ symbolKinds
      split <;> decide
  case h_2 hkind =>
    unfold classSteps at h
    split at h
    · cases h
    · rename_i name hname
      cases h
      exact ⟨by simp [hkind], _, rfl, List.mem_cons_self, hname, rfl⟩
  case h_3 => cases h

/-- The attributes of `self` are properties. -/
theorem kind_of_mem_initAttributes {owner : String} (h : y ∈ initAttributes d q owner) :
    y.kind = .property := by
  unfold initAttributes at h
  split at h
  · cases h
  · obtain ⟨a, -, h⟩ := List.mem_filterMap.1 h
    split at h
    · obtain ⟨name, -, rfl⟩ := Option.map_eq_some_iff.1 h
      rw [property, Document.symbol_kind]
    · cases h

/-- Declared are definitions only. -/
theorem emit_mem_definitionSteps {outer : Place} :
    Step.emit found ∈ definitionSteps d exports s outer q ∧ found.IsDefinition ↔
      Step.first? (definitionSteps d exports s outer q) = some found := by
  constructor
  · rintro ⟨h, y, rfl, -⟩
    unfold definitionSteps at h ⊢
    split at h
    case h_1 =>
      unfold functionSteps at h ⊢
      split at h
      · cases h
      · rcases List.mem_cons.1 h with h | h
        · cases h
          rfl
        · obtain ⟨a, -, h⟩ := List.mem_map.1 h
          cases h
    case h_2 =>
      unfold classSteps at h ⊢
      split at h
      · cases h
      · rcases List.mem_cons.1 h with h | h
        · cases h
          rfl
        · exact absurd h (Step.emit_notMem_visit? _ _)
    case h_3 => cases h
  · intro h
    obtain ⟨-, y, rfl, hy, -⟩ := exists_of_first?_definitionSteps h
    exact ⟨Step.emit_mem_of_first? h, y, rfl, hy⟩

/-- A child that is or decorates a definition is taken for that definition. -/
theorem childSteps_of_mem_definitionKinds (hkind : c.kind ∈ definitionKinds) :
    childSteps d exports s c = ((definition? c).map (definitionSteps d exports s c)).getD [] := by
  unfold childSteps definition?
  split
  case h_1 hc | h_2 hc | h_3 hc => simp [hc]
  case h_4 hc | h_5 hc => simp [definitionKinds, hc] at hkind
  case h_6 hfunction hclass hdecorated _ _ =>
    simp only [definitionKinds, List.mem_cons, List.not_mem_nil, or_false] at hkind
    rcases hkind with hkind | hkind | hkind
    · exact absurd hkind hdecorated
    · exact absurd hkind hfunction
    · exact absurd hkind hclass

theorem exists_of_first?_childSteps (hkind : c.kind ∈ definitionKinds)
    (h : Step.first? (childSteps d exports s c) = some found) :
    ∃ q, definition? c = some q ∧ q.kind ∈ ["function_definition", "class_definition"] ∧
      ∃ y, found = .declared y ∧ d.fieldText q "name" = some y.name ∧
        y.qualifiedName = Text.qualify s.name y.name "." := by
  rw [childSteps_of_mem_definitionKinds hkind] at h
  cases hq : definition? c with
  | none =>
      rw [hq] at h
      cases h
  | some q =>
      rw [hq] at h
      obtain ⟨hq', y, hfound, -, hname, hqualified⟩ := exists_of_first?_definitionSteps h
      exact ⟨q, rfl, hq', y, hfound, hname, hqualified⟩

/-- An assignment is no definition. -/
theorem kind_of_assignment? {owner : Option String} (h : assignment? d exports owner p = some y) :
    y.kind ∉ symbolKinds := by
  obtain ⟨left, -, h⟩ := Option.bind_eq_some_iff.1 h
  dsimp only at h
  split at h
  · cases h
  · split at h
    · cases h
      rw [property, Document.symbol_kind]
      decide
    · cases h
      rw [Document.symbol_kind]
      split <;> decide

/-- The steps for a place find a definition exactly if the place is one or decorates one, and then
they find it first. -/
theorem emit_mem_childSteps :
    Step.emit found ∈ childSteps d exports s c ∧ found.IsDefinition ↔
      c.kind ∈ definitionKinds ∧ Step.first? (childSteps d exports s c) = some found := by
  by_cases hkind : c.kind ∈ definitionKinds
  · rw [childSteps_of_mem_definitionKinds hkind]
    cases definition? c with
    | none => simp [Step.first?]
    | some q =>
        rw [Option.map_some, Option.getD_some, emit_mem_definitionSteps]
        exact (and_iff_right hkind).symm
  · refine iff_of_false ?_ fun h => hkind h.1
    rintro ⟨h, y, rfl, hy⟩
    unfold childSteps at h
    split at h
    case h_1 hc | h_2 hc | h_3 hc => simp [definitionKinds, hc] at hkind
    case h_4 | h_5 =>
      obtain ⟨a, ha, h⟩ := List.mem_map.1 h
      cases h
      obtain ⟨o, -, ha⟩ := List.mem_filterMap.1 ha
      exact kind_of_assignment? ha hy
    case h_6 => cases h

/-- What is declared is settled. -/
theorem mem_settleFrom_of_declared {seen : List (Option String × String)} {all : List Found}
    (h : .declared y ∈ all) : y ∈ settleFrom seen all := by
  induction all generalizing seen with
  | nil => cases h
  | cons head rest ih =>
      rcases List.mem_cons.1 h with rfl | hrest
      · exact List.mem_cons_self
      · rcases head with z | z
        · exact List.mem_cons_of_mem _ (ih hrest)
        · rw [settleFrom]
          split
          · exact ih hrest
          · exact List.mem_cons_of_mem _ (ih hrest)

/-- All attributes are properties. -/
theorem kind_of_emit_attribute (h : Step.emit (.attribute y) ∈ childSteps d exports s c) :
    y.kind = .property := by
  by_cases hkind : c.kind ∈ definitionKinds
  · rw [childSteps_of_mem_definitionKinds hkind] at h
    cases hq : definition? c with
    | none =>
        rw [hq] at h
        cases h
    | some q =>
        rw [hq, Option.map_some, Option.getD_some] at h
        unfold definitionSteps at h
        split at h
        case h_1 =>
          unfold functionSteps at h
          split at h
          · cases h
          · rcases List.mem_cons.1 h with h | h
            · cases h
            · obtain ⟨a, ha, h⟩ := List.mem_map.1 h
              cases h
              split at ha
              · split at ha
                · exact kind_of_mem_initAttributes ha
                · cases ha
              · cases ha
        case h_2 =>
          unfold classSteps at h
          split at h
          · cases h
          · rcases List.mem_cons.1 h with h | h
            · cases h
            · exact absurd h (Step.emit_notMem_visit? _ _)
        case h_3 => cases h
  · unfold childSteps at h
    split at h
    case h_1 hc | h_2 hc | h_3 hc => simp [definitionKinds, hc] at hkind
    case h_4 | h_5 =>
      obtain ⟨a, -, h⟩ := List.mem_map.1 h
      cases h
    case h_6 => cases h

theorem kind_of_attribute_mem_walk (h : Found.attribute y ∈ (rule d exports).walk s p) :
    y.kind = .property := by
  obtain ⟨v, -, hemit⟩ := (Rule.mem_walk_iff rule_descends).1 h
  rw [rule_eq_entries] at hemit
  obtain ⟨e, -, hemit⟩ := List.mem_flatMap.1 hemit
  exact kind_of_emit_attribute hemit

/-- The definitions that the walk finds have just the symbols of a file that are of these kinds. -/
theorem exists_mem_scopes_iff {root : Place} :
    (∃ q, (q, y) ∈ scopes d root) ↔ y ∈ symbols d root ∧ y.kind ∈ symbolKinds := by
  -- What is settled is declared, since attributes are of another kind.
  have hsettled : y ∈ symbols d root ∧ y.kind ∈ symbolKinds ↔
      .declared y ∈ (rule d (exportList d root)).walk {} root ∧ y.kind ∈ symbolKinds := by
    refine and_congr_left fun hy => ⟨fun h => ?_, mem_settleFrom_of_declared⟩
    obtain ⟨found, hfound, rfl⟩ := exists_of_mem_settleFrom h
    rcases found with z | z
    · exact hfound
    · have hproperty : SymbolKind.property ∉ symbolKinds := by decide
      exact absurd (kind_of_attribute_mem_walk hfound ▸ hy) hproperty
  have hfirsts : (∃ c, (c, .declared y) ∈ (rule d (exportList d root)).firsts (entries d)
      (childSteps d (exportList d root)) definitionKinds {} root) ↔
      .declared y ∈ (rule d (exportList d root)).walk {} root ∧ (Found.declared y).IsDefinition :=
    Rule.exists_mem_firsts_iff rule_descends (fun _ _ => rule_eq_entries)
      fun _ _ => emit_mem_childSteps
  have hdeclared : (Found.declared y).IsDefinition ↔ y.kind ∈ symbolKinds := by
    simp [Found.IsDefinition]
  rw [hsettled, ← hdeclared, ← hfirsts]
  constructor
  · rintro ⟨q, hq⟩
    obtain ⟨⟨c, found⟩, hmem, hq⟩ := List.mem_filterMap.1 hq
    rcases found with z | z
    · obtain ⟨q', -, hq⟩ := Option.map_eq_some_iff.1 hq
      cases hq
      exact ⟨c, hmem⟩
    · cases hq
  · rintro ⟨c, hc⟩
    obtain ⟨-, -, t, -, hkind, hfirst⟩ := Rule.mem_firsts.1 hc
    obtain ⟨q, hq, -⟩ := exists_of_first?_childSteps hkind hfirst
    exact ⟨q, List.mem_filterMap.2 ⟨_, hc, by rw [definitionOf?, hq, Option.map_some]⟩⟩

variable (d)

/-- The scopes have just the symbols of classes, functions and methods.  Into such a definition the
walk for uses carries the qualified name of its symbol and nothing else. -/
theorem scopes_bear_names (h : IsRegular tree) :
    (∀ y, (∃ q, (q, y) ∈ scopes d (.root tree)) ↔
      y ∈ symbols d (.root tree) ∧ y.kind ∈ symbolKinds) ∧
    ∀ f ∈ scopes d (.root tree), f.2.name ≠ "" →
      CarriesOnly d (.root tree) f.1 (some f.2.qualifiedName) := by
  refine ⟨fun _ => exists_mem_scopes_iff, ?_⟩
  intro f hf hne
  obtain ⟨⟨c, found⟩, hfirst, hf⟩ := List.mem_filterMap.1 hf
  obtain ⟨⟨s, p⟩, hv, t, he, hdefinition, hfirst⟩ := Rule.mem_firsts.1 hfirst
  obtain ⟨-, rfl, hc⟩ := mem_entries.1 he
  obtain ⟨q, hq, hkind, y, rfl, hname, hqualified⟩ :=
    exists_of_first?_childSteps hdefinition hfirst
  rw [definitionOf?, hq, Option.map_some] at hf
  cases hf
  have hp := isOpen_of_mem_visits h hv
  have hinner : ∀ u, TakesUp d (.root tree) u q → innerName d u q = some y.qualifiedName := by
    intro u hu
    rw [innerName_of_named hname (hp.agrees_definition hc hq hkind hu), hqualified,
      if_neg (Text.qualify_ne_empty hne)]
  refine ⟨fun u hu step hstep => ?_, ?_, fun hlevel => ?_, ?_⟩
  · rw [scopeOf_of_mem_definitionSteps hstep, hinner u hu]
  · rintro b hb scope ⟨u, rfl, hu⟩
    obtain ⟨t, ht, -, rfl⟩ := (hp.mem_visits_body_iff h hc hq hkind hb).1 hu
    exact hinner t ht
  · obtain ⟨t, -, ht⟩ := hp.takenUp hc hq hkind hlevel
    exact ⟨t, ht⟩
  · intro b hb hlevel
    have hbLevel : b.level = q.level + 1 :=
      Place.level_of_mem_children (Place.mem_children_of_field? hb)
    obtain ⟨t, htLevel, ht⟩ := hp.takenUp hc hq hkind (by omega)
    have hdepth : d.tooDeep (t.depth + 1) = false := by
      rw [Document.tooDeep, decide_eq_false_iff_not]
      omega
    exact ⟨_, hinner t ht, (hp.mem_visits_body_iff h hc hq hkind hb).2 ⟨t, ht, hdepth, rfl⟩⟩

/-- A method with an annotation, in a decorated class with a base. -/
def decoratedClass : Document :=
  { path := "a.py"
    bytes := Text.Utf8.encode "@d\nclass A(B):\n  def m(self, x: T):\n    f()\n".toList
    limits := {} }

/-- The tree of `decoratedClass`. -/
def decoratedClassTree : Node :=
  .mk "module" true [] 0 44
    [.mk "decorated_definition" true [] 0 43
      [.mk "decorator" true [] 0 2 [.token "@" 0 1, .leaf "identifier" [] 1 2],
        .mk "class_definition" true ["definition"] 3 43
          [.token "class" 3 8, .leaf "identifier" ["name"] 9 10,
            .mk "argument_list" true ["superclasses"] 10 13
              [.token "(" 10 11, .leaf "identifier" [] 11 12, .token ")" 12 13],
            .token ":" 13 14,
            .mk "block" true ["body"] 17 43
              [.mk "function_definition" true [] 17 43
                [.token "def" 17 20, .leaf "identifier" ["name"] 21 22,
                  .mk "parameters" true ["parameters"] 22 34
                    [.token "(" 22 23, .leaf "identifier" [] 23 27, .token "," 27 28,
                      .mk "typed_parameter" true [] 29 33
                        [.leaf "identifier" [] 29 30, .token ":" 30 31,
                          .mk "type" true ["type"] 32 33 [.leaf "identifier" [] 32 33]],
                      .token ")" 33 34],
                  .token ":" 34 35,
                  .mk "block" true ["body"] 40 43
                    [.mk "expression_statement" true [] 40 43
                      [.mk "call" true [] 40 43
                        [.leaf "identifier" ["function"] 40 41,
                          .mk "argument_list" true ["arguments"] 41 43
                            [.token "(" 41 42, .token ")" 42 43]]]]]]]]]

theorem decoratedClass_scopes :
    IsRegular decoratedClassTree ∧ ∀ name ∈ ["A", "A.m"],
      ∃ f ∈ scopes decoratedClass (.root decoratedClassTree), f.2.qualifiedName = name ∧
        f.2.name ≠ "" ∧
          CarriesOnly decoratedClass (.root decoratedClassTree) f.1 (some name) := by
  have hregular : IsRegular decoratedClassTree := by
    unfold IsRegular
    decide +kernel
  have hnames : ∀ name ∈ ["A", "A.m"],
      ∃ f ∈ scopes decoratedClass (.root decoratedClassTree), f.2.qualifiedName = name ∧
        f.2.name ≠ "" := by
    decide +kernel
  refine ⟨hregular, fun name hname => ?_⟩
  obtain ⟨f, hf, rfl, hne⟩ := hnames name hname
  obtain ⟨-, hscopes⟩ := scopes_bear_names decoratedClass hregular
  exact ⟨f, hf, rfl, hne, hscopes f hf hne⟩

end Declarations.Python

end SourceIndex
