import SourceIndex.Declarations.Ruby
import SourceIndex.Proofs.Tree.Scoped
import SourceIndex.Proofs.Uses.Depth.Ruby

/-!
# Scopes in Ruby

The declarations of a file are looked for from body to body, and the uses everywhere.  Both walks
qualify a module, a class or a method by the modules and classes around it, with the separator that
its kind asks for, and both go on in a body as in what stands around it, whatever a body is wrapped
in.  So the uses in a module, a class or a method are attributed to the qualified name of its
symbol.
-/

namespace SourceIndex

namespace Uses.Ruby

variable (d : Document) {s : Scope} {p c q : Place} {task task' : Task} {tree : Node}

/-- The kinds of places of which the walk for uses looks at some parts only, or at none. -/
def closedKinds : List String :=
  ["call", "constant", "scope_resolution"]

/-- The kinds of declarations that are scopes for the uses in them. -/
def scopeKinds : List String :=
  ["module", "class", "method", "singleton_method"]

/-- The kinds of places that the walk for uses does not look at in the usual way. -/
def dispatchedKinds : List String :=
  closedKinds ++ scopeKinds

/-- What stands between the name of a declaration and that of the scope around it. -/
def separator (kind : String) : String :=
  if kind = "method" then "#" else if kind = "singleton_method" then "." else "::"

/-- The scope in a place, given that in the place around it. -/
def ownScope (above : Option String) (p : Place) : Option String :=
  if scopeKinds.contains p.kind then
    (namedScope d ⟨above, 0⟩ p (separator p.kind)).or above
  else
    above

/-! ## Where the walk goes -/

/-- The task with which the walk enters a child, in the scope around it. -/
def entryTask (s : Scope) (c : Place) : Task :=
  if scopeKinds.contains c.kind then
    .definition ⟨ownScope d s.name c, s.depth⟩
  else
    .inside ⟨ownScope d s.name c, s.depth + 1⟩

/-- A child of no closed kind leads into itself and nowhere else. -/
theorem visit_placeSteps_iff (hkind : c.kind ∉ closedKinds) :
    Step.visit task q ∈ placeSteps d s c ↔ q = c ∧ task = entryTask d s c := by
  have hnamed : ∀ separator, namedScope d ⟨s.name, 0⟩ c separator = namedScope d s c separator :=
    fun _ => rfl
  unfold placeSteps
  split
  case h_1 hc | h_2 hc | h_3 hc => simp [closedKinds, hc] at hkind
  case h_4 hc | h_5 hc =>
    simp [namespaceSteps, Step.visit_notMem_emit?, entryTask, ownScope, scopeKinds, separator, hc,
      hnamed, and_comm]
  case h_6 hc | h_7 hc =>
    simp [entryTask, ownScope, scopeKinds, separator, hc, hnamed, and_comm]
  case h_8 hmodule hclass hmethod hsingleton =>
    have hscope : c.kind ∉ scopeKinds := by
      simp only [scopeKinds, List.mem_cons, List.not_mem_nil, or_false, not_or]
      exact ⟨hmodule, hclass, hmethod, hsingleton⟩
    simp [entryTask, ownScope, hscope, Scope.deeper, and_comm]

theorem mem_children_of_visit_callSteps (h : Step.visit task q ∈ callSteps d s p) :
    q ∈ p.children := by
  unfold callSteps at h
  split at h
  · cases h
  split at h
  · exact absurd h (Step.visit_notMem_emitAll _)
  rcases List.mem_cons.1 h with h | h
  · cases h
  rcases List.mem_append.1 h with h | h
  · rcases List.mem_append.1 h with h | h
    · cases hr : p.field? "receiver" with
      | none =>
          rw [hr] at h
          cases h
      | some r =>
          rw [hr] at h
          obtain ⟨rfl, -⟩ := visit_placeSteps d h
          exact Place.mem_children_of_field? hr
    · exact Place.mem_children_of_field? (Step.mem_visit?.1 h).2
  · exact Place.mem_children_of_field? (Step.mem_visit?.1 h).2

theorem rule_inside : rule d (.inside s) p =
    if d.tooDeep s.depth then [] else p.children.flatMap (placeSteps d s) :=
  rfl

theorem rule_definition : rule d (.definition s) p =
    if d.tooDeep s.depth then [] else (definitionParts p).flatMap (placeSteps d s.deeper) :=
  rfl

/-- A step goes down to a child. -/
theorem mem_children_of_visit_rule (h : Step.visit task' q ∈ rule d task p) : q ∈ p.children := by
  cases task with
  | inside s =>
      rw [rule_inside] at h
      split at h
      · cases h
      · obtain ⟨c, hc, h⟩ := List.mem_flatMap.1 h
        obtain ⟨rfl, -⟩ := visit_placeSteps d h
        exact hc
  | definition s =>
      rw [rule_definition] at h
      split at h
      · cases h
      · obtain ⟨c, hc, h⟩ := List.mem_flatMap.1 h
        obtain ⟨rfl, -⟩ := visit_placeSteps d h
        exact (List.mem_filter.1 hc).1
  | call s => exact mem_children_of_visit_callSteps d h

theorem rule_descends : (rule d).Descends :=
  fun h => (visit_rule d h).1.height

/-! ## The scope that it carries -/

/-- Is a place a definition below the root? -/
def isDefinition (p : Place) : Bool :=
  p.parent?.isSome && scopeKinds.contains p.kind

/-- The task with which the walk comes to a place, as the way to the place tells it. -/
def taskAt (p : Place) : Task :=
  if isDefinition p then
    .definition ⟨p.scopeBy (ownScope d), p.level - 1⟩
  else
    .inside ⟨p.scopeBy (ownScope d), p.level⟩

/-- Does the walk carry a scope into the contents of a definition? -/
def Carries (root p : Place) (scope : Option String) : Prop :=
  ∃ s : Scope, s.name = scope ∧ (Task.definition s, p) ∈ (rule d).visits (.inside {}) root

/-- The positions of the name and the superclass of a definition. -/
def header (p : Place) : List Nat :=
  ((p.field? "name").toList ++ (p.field? "superclass").toList).map Place.index

/-- Is no place on the way from the root down to a place the name or the superclass of a definition?
-/
def isInParts : Place → Bool
  | .root _ => true
  | .child q ns _ => isInParts q && !(isDefinition q && (header q).contains ns.length)

variable {d}

theorem taskAt_of_mem_children (hc : c ∈ p.children) :
    taskAt d c = entryTask d ⟨p.scopeBy (ownScope d), p.level⟩ c := by
  rw [taskAt, isDefinition, Place.parent?_of_mem_children hc, Place.level_of_mem_children hc,
    Place.scopeBy_of_mem_children hc]
  rfl

/-- The walk comes from a place to its children in one scope and at one depth. -/
theorem visit_rule_taskAt (h : Step.visit task q ∈ rule d (taskAt d p) p) :
    Step.visit task q ∈ placeSteps d ⟨p.scopeBy (ownScope d), p.level⟩ q := by
  rw [taskAt] at h
  split at h
  · rename_i hdefinition
    have hlevel : p.level - 1 + 1 = p.level := by
      cases p with
      | root n => cases hdefinition
      | child q ns n => rfl
    rw [rule_definition] at h
    split at h
    · cases h
    · obtain ⟨c, -, h⟩ := List.mem_flatMap.1 h
      obtain ⟨rfl, -⟩ := visit_placeSteps d h
      rw [Scope.deeper, hlevel] at h
      exact h
  · rw [rule_inside] at h
    split at h
    · cases h
    · obtain ⟨c, -, h⟩ := List.mem_flatMap.1 h
      obtain ⟨rfl, -⟩ := visit_placeSteps d h
      exact h

/-- At every place on a way that avoids the closed kinds, the task is the one that the way tells. -/
theorem task_of_mem_visits {v : Task × Place}
    (hv : v ∈ (rule d).visits (.inside {}) (.root tree)) (havoids : v.2.avoids closedKinds = true) :
    v.1 = taskAt d v.2 := by
  refine Rule.forall_mem_visits (rule_descends d)
    (P := fun task p => p.avoids closedKinds = true → task = taskAt d p) ?_ (fun _ => rfl) v hv
    havoids
  intro task task' p q hp hstep hq
  have hqp := mem_children_of_visit_rule d hstep
  obtain ⟨hpAvoids, hkind⟩ := (Place.avoids_of_mem_children hqp).1 hq
  rw [hp hpAvoids] at hstep
  rw [((visit_placeSteps_iff d hkind).1 (visit_rule_taskAt hstep)).2, taskAt_of_mem_children hqp]

/-- The walk comes to every place on such a way that is not too deep, past names and superclasses.
-/
theorem mem_visits_taskAt (hp : p ∈ (Place.root tree).subtree) (havoids : p.avoids closedKinds = true)
    (hparts : isInParts p = true) (hlevel : p.level ≤ d.limits.walkDepth.toNat + 1) :
    (taskAt d p, p) ∈ (rule d).visits (.inside {}) (.root tree) := by
  refine Place.forall_mem_subtree (P := fun p => p.avoids closedKinds = true → isInParts p = true →
    p.level ≤ d.limits.walkDepth.toNat + 1 →
    (taskAt d p, p) ∈ (rule d).visits (.inside {}) (.root tree)) (fun p c hc hP => ?_)
    (fun _ _ _ => Rule.self_mem_visits (rule_descends d) _ _) p hp havoids hparts hlevel
  intro havoids hparts hlevel
  obtain ⟨hpAvoids, hkind⟩ := (Place.avoids_of_mem_children hc).1 havoids
  have hcLevel := Place.level_of_mem_children hc
  obtain ⟨hpParts, hheader⟩ : isInParts p = true ∧
      (isDefinition p && (header p).contains c.index) = false := by
    obtain ⟨ns, n, rfl⟩ := Place.exists_of_mem_children hc
    rw [isInParts, Bool.and_eq_true, Bool.not_eq_true'] at hparts
    exact hparts
  have hentry : Step.visit (taskAt d c) c ∈ placeSteps d ⟨p.scopeBy (ownScope d), p.level⟩ c :=
    (visit_placeSteps_iff d hkind).2 ⟨rfl, taskAt_of_mem_children hc⟩
  refine Rule.mem_visits_of_visit (rule_descends d) (hP hpAvoids hpParts (by omega)) ?_
  have hdepth : ∀ n ≤ p.level, ¬ d.tooDeep n = true := by
    intro n hn
    rw [Document.tooDeep, decide_eq_true_eq]
    omega
  show Step.visit (taskAt d c) c ∈ rule d (taskAt d p) p
  -- A definition leaves its name and its superclass out, any other place leaves out nothing.
  by_cases hdefinition : isDefinition p = true
  · have hpart : c ∈ definitionParts p := by
      rw [hdefinition, Bool.true_and] at hheader
      exact List.mem_filter.2 ⟨hc, by rw [← header, hheader]; rfl⟩
    have hpLevel : p.level - 1 + 1 = p.level := by
      cases p with
      | root n => cases hdefinition
      | child q ns n => rfl
    rw [taskAt.eq_def d p, if_pos hdefinition, rule_definition, if_neg (hdepth _ (Nat.sub_le _ _))]
    exact List.mem_flatMap.2 ⟨c, hpart, by rw [Scope.deeper, hpLevel]; exact hentry⟩
  · rw [taskAt.eq_def d p, if_neg hdefinition, rule_inside, if_neg (hdepth _ (Nat.le_refl _))]
    exact List.mem_flatMap.2 ⟨c, hc, hentry⟩

/-- Into such a definition the walk carries one scope and no other, and it comes to the definition
unless that is too deep or stands in a name or a superclass. -/
theorem carries_definition (hp : p ∈ (Place.root tree).subtree)
    (havoids : p.avoids closedKinds = true) (hdefinition : isDefinition p = true) :
    (∀ scope, Carries d (.root tree) p scope → scope = p.scopeBy (ownScope d)) ∧
      (p.level ≤ d.limits.walkDepth.toNat + 1 → isInParts p = true →
        Carries d (.root tree) p (p.scopeBy (ownScope d))) := by
  have htask : taskAt d p = .definition ⟨p.scopeBy (ownScope d), p.level - 1⟩ := by
    rw [taskAt, if_pos hdefinition]
  refine ⟨?_, fun hlevel hparts => ?_⟩
  · rintro scope ⟨s, rfl, hs⟩
    have heq := task_of_mem_visits hs havoids
    rw [htask] at heq
    cases heq
    rfl
  · have hvisit := mem_visits_taskAt (d := d) hp havoids hparts hlevel
    rw [htask] at hvisit
    exact ⟨_, rfl, hvisit⟩

end Uses.Ruby

namespace Declarations.Ruby

open SourceIndex.Uses.Ruby (closedKinds scopeKinds dispatchedKinds separator namedScope ownScope
  isDefinition isInParts Carries carries_definition)

variable (d : Document)

/-- What the walk takes up at a place: the statements there, each with the visibility and the scope
that hold for it. -/
def entries (s : Scope) (p : Place) : List ((Visibility × Scope) × Place) :=
  (withVisibility d .public ((statementRule d).walk s.depth p)).map fun (visibility, depth, c) =>
    ((visibility, { s with depth }), c)

/-- The steps for a statement, in the setting that holds for it. -/
def entrySteps (t : Visibility × Scope) (c : Place) : List (Step Scope Symbol) :=
  statementSteps d t.2 t.1 c

/-- The declarations of a file that are scopes for the uses in them, each with its symbol. -/
def scopes (root : Place) : List (Place × Symbol) :=
  (rule d).heads (entries d) (entrySteps d) (fun c => scopeKinds.contains c.kind) {} root

/-- What the grammar promises of a tree: the body of a module or a class holds its statements, so it
is a place that the walk for uses looks at in the usual way, and no scope. -/
def IsRegular (tree : Node) : Prop :=
  ∀ p ∈ (Place.root tree).subtree, p.kind ∈ ["module", "class"] →
    ∀ b ∈ p.field? "body", b.kind ∉ dispatchedKinds

variable {d} {s s' : Scope} {visibility : Visibility} {p c q b : Place} {tree : Node} {y : Symbol}
  {f : Place × Symbol}

theorem rule_eq_entries : rule d s p =
    (entries d s p).flatMap fun e => entrySteps d e.1 e.2 := by
  rw [rule, entries, List.flatMap_map]
  rfl

/-! ## The statements of a body -/

theorem mem_of_mem_withVisibility {visibility : Visibility} {statements : List (Nat × Place)}
    {v : Visibility × Nat × Place} (h : v ∈ withVisibility d visibility statements) :
    v.2 ∈ statements := by
  induction statements generalizing visibility with
  | nil => cases h
  | cons statement rest ih =>
      rcases List.mem_cons.1 h with rfl | h
      · exact List.mem_cons_self
      · exact List.mem_cons_of_mem _ (ih h)

/-- Statements belong to the body itself, or to places that belong to the body. -/
theorem visit_statementRule {n n' : Nat} (h : Step.visit n' q ∈ statementRule d n p) :
    q ∈ p.children ∧ q.kind ∈ transparentKinds := by
  unfold statementRule at h
  split at h
  · cases h
  · obtain ⟨c, hc, h⟩ := List.mem_map.1 h
    split at h
    · rename_i hkind
      cases h
      exact ⟨hc, List.contains_iff_mem.1 hkind⟩
    · cases h

theorem emit_statementRule {n : Nat} {statement : Nat × Place}
    (h : Step.emit statement ∈ statementRule d n p) : statement.2 ∈ p.children := by
  unfold statementRule at h
  split at h
  · cases h
  · obtain ⟨c, hc, h⟩ := List.mem_map.1 h
    split at h
    · cases h
    · cases h
      exact hc

theorem statementRule_descends : (statementRule d).Descends :=
  fun h => Place.height_lt_of_mem_children (visit_statementRule h).1

/-- What holds of a body, and of whatever belongs to it in place of it, holds around its statements.
-/
theorem exists_of_mem_entries {P : Place → Prop} (hp : P p)
    (hstep : ∀ {p c}, P p → c ∈ p.children → c.kind ∈ transparentKinds → P c)
    {t : Visibility × Scope} (h : (t, c) ∈ entries d s p) :
    t.2.name = s.name ∧ ∃ q, P q ∧ c ∈ q.children := by
  obtain ⟨⟨visibility, depth, c⟩, hmem, heq⟩ := List.mem_map.1 h
  cases heq
  obtain ⟨v, hv, hemit⟩ := (Rule.mem_walk_iff statementRule_descends).1
    (mem_of_mem_withVisibility hmem)
  refine ⟨rfl, v.2, ?_, emit_statementRule hemit⟩
  exact Rule.forall_mem_visits statementRule_descends (P := fun _ q => P q)
    (fun hq hvisit => hstep hq (visit_statementRule hvisit).1 (visit_statementRule hvisit).2) hp v hv

/-! ## The walk through the bodies of modules and classes -/

/-- The walk goes from a module or class with a name into its body, or else into itself. -/
theorem visit_statementSteps (h : Step.visit s' b ∈ statementSteps d s visibility c) :
    c.kind ∈ ["module", "class"] ∧ ∃ name, d.fieldText c "name" = some name ∧
      s' = s.enter (Text.qualify s.name name "::") ∧ b = (c.field? "body").getD c := by
  have hnamespace : ∀ kind, Step.visit s' b ∈ namespaceSteps d s kind c →
      ∃ name, d.fieldText c "name" = some name ∧
        s' = s.enter (Text.qualify s.name name "::") ∧ b = (c.field? "body").getD c := by
    intro kind h
    unfold namespaceSteps at h
    split at h
    · cases h
    · rename_i name hname
      rcases List.mem_cons.1 h with h | h
      · cases h
      · cases List.mem_singleton.1 h
        exact ⟨name, hname, rfl, rfl⟩
  unfold statementSteps at h
  split at h
  case h_1 hc | h_2 hc => exact ⟨by simp [hc], hnamespace _ h⟩
  case h_3 | h_4 | h_5 => exact absurd h (Step.visit_notMem_emit? _)
  case h_6 => exact absurd h (Step.visit_notMem_emitAll _)
  case h_7 => cases h

theorem rule_descends : (rule d).Descends := by
  intro s s' p b h
  rw [rule_eq_entries] at h
  obtain ⟨⟨t, c⟩, he, h⟩ := List.mem_flatMap.1 h
  obtain ⟨-, q, hq, hc⟩ := exists_of_mem_entries
    (P := fun q => q.node.height ≤ p.node.height) (Nat.le_refl _)
    (fun hq hc _ => Nat.le_trans (Nat.le_of_lt (Place.height_lt_of_mem_children hc)) hq) he
  obtain ⟨-, name, -, -, rfl⟩ := visit_statementSteps h
  have hlt := Place.height_lt_of_mem_children hc
  cases hb : c.field? "body" with
  | none =>
      show c.node.height < p.node.height
      omega
  | some b =>
      have hbody := Place.height_lt_of_mem_children (Place.mem_children_of_field? hb)
      show b.node.height < p.node.height
      omega

/-- Scopes are places of the tree, whatever that is like. -/
theorem mem_subtree_of_mem_scopes (hf : f ∈ scopes d (.root tree)) :
    f.1 ∈ (Place.root tree).subtree := by
  have haround : ∀ {s : Scope} {p : Place} {e : (Visibility × Scope) × Place},
      p ∈ (Place.root tree).subtree → e ∈ entries d s p →
        ∃ q ∈ (Place.root tree).subtree, e.2 ∈ q.children := fun hp he =>
    (exists_of_mem_entries (P := fun q => q ∈ (Place.root tree).subtree) hp
      (fun hq hc _ => Place.mem_subtree_of_mem_children hq hc) he).2
  obtain ⟨v, hv, t, he, -⟩ := Rule.mem_heads.1 hf
  have hplace : v.2 ∈ (Place.root tree).subtree := by
    refine Rule.forall_mem_visits rule_descends (P := fun _ p => p ∈ (Place.root tree).subtree) ?_
      (Place.self_mem_subtree _) v hv
    intro s s' p b hp hstep
    rw [rule_eq_entries] at hstep
    obtain ⟨⟨t, c⟩, he, hstep⟩ := List.mem_flatMap.1 hstep
    obtain ⟨q, hq, hc⟩ := haround hp he
    obtain ⟨-, name, -, -, rfl⟩ := visit_statementSteps hstep
    have hplace := Place.mem_subtree_of_mem_children hq hc
    cases hb : c.field? "body" with
    | none => exact hplace
    | some b =>
        exact Place.mem_subtree_of_mem_children hplace (Place.mem_children_of_field? hb)
  obtain ⟨q, hq, hc⟩ := haround hplace he
  exact Place.mem_subtree_of_mem_children hq hc

/-- A place in whose scope the walk for uses looks at what stands there. -/
structure IsOpen (d : Document) (tree : Node) (s : Scope) (p : Place) : Prop where
  ofTree : p ∈ (Place.root tree).subtree
  avoids : p.avoids closedKinds = true
  scope : s.name = p.scopeBy (ownScope d)

/-- A place of another kind than those of scopes is looked at in the scope around it. -/
theorem IsOpen.child (hp : IsOpen d tree s p) (hc : c ∈ p.children)
    (hkind : c.kind ∉ dispatchedKinds) {s' : Scope} (hs : s'.name = s.name) :
    IsOpen d tree s' c := by
  rw [dispatchedKinds, List.mem_append, not_or] at hkind
  refine ⟨Place.mem_subtree_of_mem_children hp.ofTree hc,
    (Place.avoids_of_mem_children hc).2 ⟨hp.avoids, hkind.1⟩, ?_⟩
  rw [hs, hp.scope, Place.scopeBy_of_mem_children hc, ownScope, if_neg]
  rw [List.contains_iff_mem]
  exact hkind.2

/-- A declaration with a name is looked at in the scope that its name makes. -/
theorem IsOpen.named (hp : IsOpen d tree s p) (hc : c ∈ p.children) (hkind : c.kind ∈ scopeKinds)
    {name : String} (hname : d.fieldText c "name" = some name) {s' : Scope}
    (hs : s'.name = some (Text.qualify s.name name (separator c.kind))) :
    IsOpen d tree s' c := by
  have hopen : c.kind ∉ closedKinds := by
    have hapart : ∀ k ∈ scopeKinds, k ∉ closedKinds := by decide
    exact hapart _ hkind
  refine ⟨Place.mem_subtree_of_mem_children hp.ofTree hc,
    (Place.avoids_of_mem_children hc).2 ⟨hp.avoids, hopen⟩, ?_⟩
  rw [hs, hp.scope, Place.scopeBy_of_mem_children hc, ownScope,
    if_pos (List.contains_iff_mem.2 hkind), namedScope, hname]
  rfl

/-- What stands around a statement is such a place, too. -/
theorem IsOpen.around (hp : IsOpen d tree s p) {t : Visibility × Scope}
    (he : (t, c) ∈ entries d s p) :
    ∃ q, IsOpen d tree t.2 q ∧ c ∈ q.children := by
  have hapart : ∀ k ∈ transparentKinds, k ∉ dispatchedKinds := by decide
  obtain ⟨hname, q, hq, hc⟩ := exists_of_mem_entries (P := fun q => IsOpen d tree s q) hp
    (fun hq hc hkind => hq.child hc (hapart _ hkind) rfl) he
  exact ⟨q, ⟨hq.ofTree, hq.avoids, hname.trans hq.scope⟩, hc⟩

theorem isOpen_of_mem_visits (h : IsRegular tree) {v : Scope × Place}
    (hv : v ∈ (rule d).visits {} (.root tree)) : IsOpen d tree v.1 v.2 := by
  refine Rule.forall_mem_visits rule_descends (P := IsOpen d tree) ?_
    ⟨Place.self_mem_subtree _, rfl, rfl⟩ v hv
  intro s s' p b hp hstep
  rw [rule_eq_entries] at hstep
  obtain ⟨⟨t, c⟩, he, hstep⟩ := List.mem_flatMap.1 hstep
  obtain ⟨q, hq, hc⟩ := hp.around he
  obtain ⟨hkind, name, hname, rfl, rfl⟩ := visit_statementSteps hstep
  have hscope : c.kind ∈ scopeKinds := by
    have hsubset : ["module", "class"] ⊆ scopeKinds := by decide
    exact hsubset hkind
  have hseparator : separator c.kind = "::" := by
    have hboth : ∀ k ∈ ["module", "class"], separator k = "::" := by decide
    exact hboth _ hkind
  have hnamed : IsOpen d tree (t.2.enter (Text.qualify t.2.name name "::")) c :=
    hq.named hc hscope hname (by rw [hseparator]; rfl)
  cases hb : c.field? "body" with
  | none => exact hnamed
  | some b =>
      exact hnamed.child (Place.mem_children_of_field? hb) (h c hnamed.ofTree hkind b hb) rfl

/-! ## The symbols of scopes -/

/-- The kinds of the symbols of scopes. -/
def symbolKinds : List SymbolKind :=
  [.module, .class, .function, .method, .constructor]

/-- A symbol of a scope has the name of the declaration behind that of the scope around it. -/
theorem exists_name (hkind : c.kind ∈ scopeKinds)
    (hy : Step.first? (statementSteps d s visibility c) = some y) :
    d.fieldText c "name" = some y.name ∧ y.parentName = s.name ∧
      y.qualifiedName = Text.qualify s.name y.name (separator c.kind) := by
  have hnamespace : ∀ kind, Step.first? (namespaceSteps d s kind c) = some y →
      d.fieldText c "name" = some y.name ∧ y.parentName = s.name ∧
        y.qualifiedName = Text.qualify s.name y.name "::" := by
    intro kind hy
    unfold namespaceSteps at hy
    split at hy
    · cases hy
    · rename_i name hname
      cases hy
      exact ⟨hname, rfl, rfl⟩
  unfold statementSteps at hy
  split at hy
  case h_1 hc | h_2 hc =>
    rw [hc]
    exact hnamespace _ hy
  case h_3 hc | h_4 hc =>
    rw [Step.first?_emit?] at hy
    obtain ⟨name, hname, rfl⟩ := Option.map_eq_some_iff.1 hy
    rw [hc]
    exact ⟨hname, rfl, rfl⟩
  case h_5 hc | h_6 hc => simp [scopeKinds, hc] at hkind
  case h_7 => cases hy

/-- The steps for a statement hand out a symbol of such a kind exactly if the statement is a scope,
and then they hand it out first. -/
theorem emit_mem_statementSteps :
    Step.emit y ∈ statementSteps d s visibility c ∧ y.kind ∈ symbolKinds ↔
      c.kind ∈ scopeKinds ∧ Step.first? (statementSteps d s visibility c) = some y := by
  have hnamespace : ∀ kind ∈ symbolKinds,
      (Step.emit y ∈ namespaceSteps d s kind c ∧ y.kind ∈ symbolKinds ↔
        Step.first? (namespaceSteps d s kind c) = some y) := by
    intro kind hkind
    unfold namespaceSteps
    cases d.fieldText c "name" with
    | none => simp [Step.first?]
    | some name =>
        simp only [List.mem_cons, Step.emit.injEq, reduceCtorEq, List.not_mem_nil, or_false,
          Step.first?, Option.some.injEq]
        refine ⟨fun h => h.1.symm, ?_⟩
        rintro rfl
        exact ⟨rfl, hkind⟩
  unfold statementSteps
  split
  case h_1 hc | h_2 hc =>
    rw [hnamespace _ (by decide), hc]
    simp [scopeKinds]
  case h_3 hc =>
    rw [Step.emit_mem_emit?, Step.first?_emit?, hc]
    refine and_comm.trans (and_congr_left fun h => ?_)
    obtain ⟨name, -, rfl⟩ := Option.map_eq_some_iff.1 h
    refine iff_of_true ?_ (by decide)
    rw [Document.symbol_kind]
    repeat' split
    all_goals simp [symbolKinds]
  case h_4 hc =>
    rw [Step.emit_mem_emit?, Step.first?_emit?, hc]
    refine and_comm.trans (and_congr_left fun h => ?_)
    obtain ⟨name, -, rfl⟩ := Option.map_eq_some_iff.1 h
    rw [Document.symbol_kind]
    decide
  -- Constants and properties have symbols of other kinds.
  case h_5 hc =>
    rw [Step.emit_mem_emit?, hc]
    refine iff_of_false (fun h => ?_) fun h => absurd h.1 (by decide)
    obtain ⟨left, -, rfl⟩ := Option.map_eq_some_iff.1 h.1
    exact absurd h.2 (by rw [Document.symbol_kind]; decide)
  case h_6 hc =>
    rw [Step.emit_mem_emitAll, hc]
    refine iff_of_false (fun h => ?_) fun h => absurd h.1 (by decide)
    obtain ⟨h, hkind⟩ := h
    unfold accessors at h
    split at h
    · split at h
      · obtain ⟨a, -, rfl⟩ := List.mem_map.1 h
        exact absurd hkind (by rw [Document.symbol_kind]; decide)
      · cases h
    · cases h
  case h_7 => simp [Step.first?]

/-- The scopes have just the symbols of a file that are of these kinds. -/
theorem exists_mem_scopes_iff {root : Place} :
    (∃ c, (c, y) ∈ scopes d root) ↔ y ∈ symbols d root ∧ y.kind ∈ symbolKinds :=
  Rule.exists_mem_heads_iff (P := fun y => y.kind ∈ symbolKinds) rule_descends
    (fun _ _ => rule_eq_entries) fun t c => by
      rw [List.contains_iff_mem]
      exact emit_mem_statementSteps

variable (d)

/-- The scopes have just the symbols of modules, classes and methods.  In a tree as the grammar
makes it, such a symbol has its name behind that of its owner.  Into the contents of the declaration
the walk for uses carries this qualified name and nothing else, and it comes there unless that is
too deep or stands in the name or the superclass of another declaration. -/
theorem scopes_follow_names (h : IsRegular tree) :
    (∀ y, (∃ c, (c, y) ∈ scopes d (.root tree)) ↔
      y ∈ symbols d (.root tree) ∧ y.kind ∈ symbolKinds) ∧
    ∀ f ∈ scopes d (.root tree),
      f.2.qualifiedName = Text.qualify f.2.parentName f.2.name (separator f.1.kind) ∧
      (∀ scope, Carries d (.root tree) f.1 scope → scope = some f.2.qualifiedName) ∧
      (f.1.level ≤ d.limits.walkDepth.toNat + 1 → isInParts f.1 = true →
        Carries d (.root tree) f.1 (some f.2.qualifiedName)) := by
  refine ⟨fun _ => exists_mem_scopes_iff, ?_⟩
  rintro ⟨c, y⟩ hf
  obtain ⟨⟨s, p⟩, hv, t, he, hkind, hy⟩ := Rule.mem_heads.1 hf
  rw [List.contains_iff_mem] at hkind
  obtain ⟨q, hq, hc⟩ := (isOpen_of_mem_visits h hv).around he
  obtain ⟨hname, hparent, hqualified⟩ := exists_name hkind hy
  have hnamed : IsOpen d tree (t.2.enter y.qualifiedName) c :=
    hq.named hc hkind hname (congrArg some hqualified)
  have hdefinition : isDefinition c = true := by
    rw [isDefinition, Place.parent?_of_mem_children hc, Option.isSome_some, Bool.true_and,
      List.contains_iff_mem]
    exact hkind
  have hcarries := carries_definition (d := d) hnamed.ofTree hnamed.avoids hdefinition
  rw [← hnamed.scope] at hcarries
  exact ⟨by rw [hparent]; exact hqualified, hcarries⟩

/-- A class with methods of both sorts, in a module. -/
def classInModule : Document :=
  { path := "a.rb"
    bytes := Text.Utf8.encode
      "module A\n  class B\n    def m\n      f()\n    end\n    def self.n\n    end\n  end\nend\n".toList
    limits := {} }

/-- The tree of `classInModule`. -/
def classInModuleTree : Node :=
  .mk "program" true [] 0 80
    [.mk "module" true [] 0 79
      [.token "module" 0 6, .leaf "constant" ["name"] 7 8,
        .mk "body_statement" true ["body"] 11 75
          [.mk "class" true [] 11 75
            [.token "class" 11 16, .leaf "constant" ["name"] 17 18,
              .mk "body_statement" true ["body"] 23 69
                [.mk "method" true [] 23 46
                  [.token "def" 23 26, .leaf "identifier" ["name"] 27 28,
                    .mk "body_statement" true ["body"] 35 38
                      [.mk "call" true [] 35 38
                        [.leaf "identifier" ["method"] 35 36,
                          .mk "argument_list" true ["arguments"] 36 38
                            [.token "(" 36 37, .token ")" 37 38]]],
                    .token "end" 43 46],
                  .mk "singleton_method" true [] 51 69
                    [.token "def" 51 54, .leaf "self" ["object"] 55 59, .token "." 59 60,
                      .leaf "identifier" ["name"] 60 61, .token "end" 66 69]],
              .token "end" 72 75]],
        .token "end" 76 79]]

theorem classInModule_scopes :
    IsRegular classInModuleTree ∧ ∀ name ∈ ["A", "A::B", "A::B#m", "A::B.n"],
      ∃ f ∈ scopes classInModule (.root classInModuleTree), f.2.qualifiedName = name ∧
        Carries classInModule (.root classInModuleTree) f.1 (some name) := by
  have hregular : IsRegular classInModuleTree := by
    unfold IsRegular
    decide +kernel
  have hnames : ∀ name ∈ ["A", "A::B", "A::B#m", "A::B.n"],
      ∃ f ∈ scopes classInModule (.root classInModuleTree), f.2.qualifiedName = name ∧
        f.1.level ≤ classInModule.limits.walkDepth.toNat + 1 ∧ isInParts f.1 = true := by
    decide +kernel
  refine ⟨hregular, fun name hname => ?_⟩
  obtain ⟨f, hf, rfl, hlevel, hparts⟩ := hnames name hname
  exact ⟨f, hf, rfl, ((scopes_follow_names classInModule hregular).2 f hf).2.2 hlevel hparts⟩

/-- The same source with a limit that the method of the class is too deep for. -/
def shallowClass : Document :=
  { classInModule with limits := { walkDepth := 2 } }

/-- A tree that no grammar makes: the class is itself the body of the module. -/
def classAsBodyTree : Node :=
  .mk "program" true [] 0 80
    [.mk "module" true [] 0 79
      [.token "module" 0 6, .leaf "constant" ["name"] 7 8,
        .mk "class" true ["body"] 11 75
          [.token "class" 11 16, .leaf "constant" ["name"] 17 18,
            .mk "body_statement" true ["body"] 23 69
              [.mk "method" true [] 23 46
                [.token "def" 23 26, .leaf "identifier" ["name"] 27 28, .token "end" 43 46]],
            .token "end" 72 75],
        .token "end" 76 79]]

/-- Without a condition on depths and trees the scopes need not follow the names.  A method has its
symbol where the walk for uses does not come any more, and the class that is a body counts for that
walk only. -/
theorem scopes_not_follow_names :
    (¬ ∀ f ∈ scopes shallowClass (.root classInModuleTree),
      Carries shallowClass (.root classInModuleTree) f.1 (some f.2.qualifiedName)) ∧
    ¬ ∀ f ∈ scopes classInModule (.root classAsBodyTree), ∀ scope,
      Carries classInModule (.root classAsBodyTree) f.1 scope →
        scope = some f.2.qualifiedName := by
  constructor
  · intro h
    have hdeep : ∃ f ∈ scopes shallowClass (.root classInModuleTree), f.1.level = 5 := by
      decide +kernel
    have hreached : ∀ v ∈ (Uses.Ruby.rule shallowClass).visits (.inside {})
        (.root classInModuleTree), v.2.level < 5 := by
      decide +kernel
    obtain ⟨f, hf, hlevel⟩ := hdeep
    obtain ⟨s, -, hvisit⟩ := h f hf
    exact Nat.ne_of_lt (hreached _ hvisit) hlevel
  · intro h
    have hmethod : ∃ f ∈ scopes classInModule (.root classAsBodyTree),
        f.2.qualifiedName = "A#m" ∧ f.1.avoids closedKinds = true ∧ isDefinition f.1 = true ∧
          f.1.scopeBy (ownScope classInModule) = some "A::B#m" ∧
          f.1.level ≤ classInModule.limits.walkDepth.toNat + 1 ∧ isInParts f.1 = true := by
      decide +kernel
    obtain ⟨f, hf, hname, havoids, hdefinition, hscope, hlevel, hparts⟩ := hmethod
    have hcarries := (carries_definition (d := classInModule) (mem_subtree_of_mem_scopes hf) havoids
      hdefinition).2 hlevel hparts
    rw [hscope] at hcarries
    have heq := h f hf _ hcarries
    rw [hname] at heq
    exact absurd heq (by decide)

end Declarations.Ruby

end SourceIndex
