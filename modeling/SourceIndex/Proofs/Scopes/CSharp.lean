import SourceIndex.Declarations.CSharp
import SourceIndex.Proofs.Text.Name
import SourceIndex.Proofs.Tree.Scoped
import SourceIndex.Uses.CSharp

/-!
# Scopes in C#

The declarations of a file are looked for in namespaces and types, and functions in the bodies of
methods, constructors and other functions.  A file-wide namespace holds for the siblings after
it.  The walk for uses qualifies by the same declarations.  So the uses in a declaration are
attributed to the qualified name of its symbol, except in a destructor: its symbol has a mark before
the name, which the walk for uses leaves out.
-/

namespace SourceIndex

namespace Uses.CSharp

open SourceIndex.Idiom.CSharp

variable (d : Document) {s : Scope} {p c q : Place} {tree : Node} {above : Option String}

/-- The kinds of places of which the walk for uses looks at some parts only. -/
def closedKinds : List String :=
  ["using_directive", "object_creation_expression", "attribute_list", "nullable_type"]

/-- The kinds of namespaces. -/
def spaceKinds : List String :=
  ["namespace_declaration", "file_scoped_namespace_declaration"]

/-- The kinds of types and of what can be called, which are scopes for the uses in them. -/
def scopeKinds : List String :=
  typeKinds ++ callableKinds

/-! ## Where the walk goes -/

/-- The namespace that holds after a sibling, in the scope above. -/
def spaceAfter (above space : Option String) (p : Place) : Option String :=
  if p.kind == "file_scoped_namespace_declaration" then spaceName d (space.or above) p else space

theorem withFileSpace_eq (above space : Option String) (places : List Place) :
    withFileSpace (fun space => spaceName d (space.or above)) space places =
      Place.carryOver (spaceAfter d above) space places := by
  induction places generalizing space with
  | nil => rfl
  | cons c rest ih => exact congrArg ((space, c) :: ·) (ih _)

/-- The scope for a place after the file-wide namespaces before it, given the scope above. -/
def scopeBefore (above : Option String) (p : Place) : Option String :=
  (p.carriedTo (spaceAfter d above) none).or above

/-- The scope that the walk carries into a place, given the scope for the place. -/
def scopeFrom (above : Option String) (p : Place) : Option String :=
  if spaceKinds.contains p.kind then
    (spaceName d above p).or above
  else if scopeKinds.contains p.kind then
    ((d.fieldText p "name").map fun name => Text.qualify above name ".").or above
  else
    above

/-- The scope in a place, given that in the place around it. -/
def ownScope (above : Option String) (p : Place) : Option String :=
  scopeFrom d (scopeBefore d above p) p

/-- What the walk does with a child in the scope of its parent. -/
def siblingSteps (s : Scope) (c : Place) : List (Step Scope Reference) :=
  childSteps d { s with name := scopeBefore d s.name c } c

theorem rule_eq : rule d s p =
    if d.tooDeep s.depth then [] else p.children.flatMap (siblingSteps d s) := by
  simp only [rule, withFileSpace_eq]
  rw [Place.carryOver_children, List.flatMap_map]
  rfl

/-- Behind its own uses, a child of no closed kind leads into itself and nowhere else. -/
theorem visit_childSteps_iff (hkind : c.kind ∉ closedKinds) {s' : Scope} :
    Step.visit s' q ∈ childSteps d s c ↔ q = c ∧ s' = ⟨scopeFrom d s.name c, s.depth + 1⟩ := by
  unfold childSteps
  split
  case h_1 hc | h_2 hc =>
    simp [scopeFrom, spaceKinds, hc, Scope.enter?, and_comm]
  case h_3 hc | h_5 hc | h_6 hc | h_7 hc => simp [closedKinds, hc] at hkind
  case h_4 hc =>
    simp [invocationSteps, scopeFrom, spaceKinds, scopeKinds, typeKinds, callableKinds, hc,
      Step.visit_notMem_emit?, Scope.deeper, and_comm]
  case h_8 hfile hspace _ _ _ _ _ =>
    have hnone : ¬ spaceKinds.contains c.kind = true := by
      rw [List.contains_iff_mem, spaceKinds, List.mem_pair]
      rintro (hc | hc)
      · exact hspace hc
      · exact hfile hc
    rw [scopeFrom, if_neg hnone]
    split
    case isTrue htype =>
      have hscope : scopeKinds.contains c.kind = true :=
        List.contains_iff_mem.2 (List.mem_append_left _ (List.contains_iff_mem.1 htype))
      rw [if_pos hscope]
      simp only [List.mem_append, Step.visit_notMem_emitAll, false_or, List.mem_singleton,
        Step.visit.injEq]
      rw [and_comm]
      rfl
    case isFalse htype =>
      split
      case isTrue hcallable =>
        have hscope : scopeKinds.contains c.kind = true :=
          List.contains_iff_mem.2 (List.mem_append_right _ (List.contains_iff_mem.1 hcallable))
        rw [if_pos hscope, List.mem_singleton, Step.visit.injEq, and_comm]
        rfl
      case isFalse hcallable =>
        have hscope : ¬ scopeKinds.contains c.kind = true := by
          rw [List.contains_iff_mem, scopeKinds, List.mem_append, not_or]
          exact ⟨fun hc => htype (List.contains_iff_mem.2 hc),
            fun hc => hcallable (List.contains_iff_mem.2 hc)⟩
        rw [if_neg hscope, List.mem_singleton, Step.visit.injEq, and_comm]
        rfl

/-- Of a child of a closed kind, the walk only looks at arguments and initializers of creations. -/
theorem visit_childSteps_of_closed (hkind : c.kind ∈ closedKinds) {s' : Scope}
    (h : Step.visit s' q ∈ childSteps d s c) :
    c.kind = "object_creation_expression" ∧ q ∈ c.children ∧
      q.kind ∈ ["argument_list", "initializer_expression"] ∧ s' = s.deeper := by
  simp only [closedKinds, List.mem_cons, List.not_mem_nil, or_false] at hkind
  rcases hkind with hkind | hkind | hkind | hkind <;> simp only [childSteps, hkind] at h
  · exact absurd h (Step.visit_notMem_emit? _)
  · have hpart : ∀ kind, Step.visit s' q ∈
        (Step.visit? s.deeper (c.childOf? kind) : List (Step Scope Reference)) →
        q ∈ c.children ∧ q.kind = kind ∧ s' = s.deeper := by
      intro kind h
      obtain ⟨rfl, hq⟩ := Step.mem_visit?.1 h
      exact ⟨List.mem_of_find?_eq_some hq, by simpa using List.find?_some hq, rfl⟩
    rcases List.mem_append.1 h with h | h
    · rcases List.mem_append.1 h with h | h
      · exact absurd h (Step.visit_notMem_emit? _)
      · obtain ⟨hq, hqKind, hs⟩ := hpart _ h
        exact ⟨hkind, hq, by simp [hqKind], hs⟩
    · obtain ⟨hq, hqKind, hs⟩ := hpart _ h
      exact ⟨hkind, hq, by simp [hqKind], hs⟩
  · exact absurd h (Step.visit_notMem_emitAll _)
  · exact absurd h (Step.visit_notMem_emit? _)

theorem isScoped : Rule.IsScoped (rule d) d id (siblingSteps d) (ownScope d) closedKinds where
  inside_inj := id
  rule_inside := fun _ _ => rule_eq d
  leads := by
    intro s task c q h
    by_cases hkind : c.kind ∈ closedKinds
    · obtain ⟨-, hq, -⟩ := visit_childSteps_of_closed d hkind h
      exact ⟨Place.mem_subtree_of_child hq, fun hc => absurd hkind hc⟩
    · obtain ⟨rfl, hs⟩ := (visit_childSteps_iff d hkind).1 h
      exact ⟨Place.self_mem_subtree q, fun _ => ⟨rfl, hs⟩⟩
  enters := fun hkind => (visit_childSteps_iff d hkind).2 ⟨rfl, rfl⟩
  others := fun {task} _ _ _ _ => Or.inl ⟨task, rfl⟩

/-! ## The scope that it carries -/

/-- What the grammar promises of a tree: no file-wide namespace is part of a creation or of what has
a body, the body of a declaration is no declaration, and of declarations that are scopes only
functions stand in the body of what can be called. -/
structure IsGrammatical (tree : Node) : Prop where
  spaces : ∀ p ∈ (Place.root tree).subtree,
    p.kind = "object_creation_expression" ∨ (p.field? "body").isSome = true →
      ∀ c ∈ p.children, c.kind ≠ "file_scoped_namespace_declaration"
  bodies : ∀ p ∈ (Place.root tree).subtree, p.kind ∈ spaceKinds ++ scopeKinds →
    ∀ b ∈ p.field? "body", b.kind ∉ spaceKinds ++ scopeKinds
  functions : ∀ p ∈ (Place.root tree).subtree, p.kind ∈ callableKinds → ∀ b ∈ p.field? "body",
    ∀ q ∈ b.subtree, q.kind ∈ spaceKinds ++ scopeKinds → q.kind = "local_function_statement"

variable {d}

/-- Among siblings without a file-wide namespace, the scope is the one above. -/
theorem scopeBefore_of_forall (h : ∀ b ∈ p.children, b.kind ≠ "file_scoped_namespace_declaration")
    (hc : c ∈ p.children) : scopeBefore d above c = above := by
  have hnone : c.carriedTo (spaceAfter d above) none = none :=
    Place.carriedTo_of_forall (fun b hb space => by simp [spaceAfter, h b hb]) hc
  rw [scopeBefore, hnone, Option.none_or]

theorem scopeFrom_of_notMem (h : p.kind ∉ spaceKinds ++ scopeKinds) : scopeFrom d above p = above := by
  rw [List.mem_append, not_or] at h
  rw [scopeFrom, if_neg (fun hc => h.1 (List.contains_iff_mem.1 hc)),
    if_neg (fun hc => h.2 (List.contains_iff_mem.1 hc))]

theorem scopeFrom_of_named {name : String} (h : p.kind ∈ scopeKinds)
    (hname : d.fieldText p "name" = some name) :
    scopeFrom d above p = some (Text.qualify above name ".") := by
  have hspace : ¬ spaceKinds.contains p.kind = true := by
    have hapart : ∀ k ∈ scopeKinds, ¬ spaceKinds.contains k = true := by decide
    exact hapart _ h
  rw [scopeFrom, if_neg hspace, if_pos (List.contains_iff_mem.2 h), hname]
  rfl

/-- The walk carries the scope that the way tells into every place that it comes to. -/
theorem scope_of_mem_visits (h : IsGrammatical tree) {v : Scope × Place}
    (hv : v ∈ (rule d).visits {} (.root tree)) :
    v.2 ∈ (Place.root tree).subtree ∧ v.1.name = v.2.scopeBy (ownScope d) := by
  refine Rule.forall_mem_visits (isScoped d).descends
    (P := fun s p => p ∈ (Place.root tree).subtree ∧ s.name = p.scopeBy (ownScope d)) ?_
    ⟨Place.self_mem_subtree _, rfl⟩ v hv
  rintro s s' p q ⟨hpTree, hp⟩ hstep
  obtain ⟨-, c, hc, hstep⟩ := (isScoped d).exists_of_visit hstep
  have hcTree := Place.mem_subtree_of_mem_children hpTree hc
  have hcScope : c.scopeBy (ownScope d) = ownScope d (p.scopeBy (ownScope d)) c :=
    Place.scopeBy_of_mem_children hc
  by_cases hkind : c.kind ∈ closedKinds
  -- From a creation the walk goes to its arguments, past a place, and neither changes the scope.
  · obtain ⟨hcreation, hq, hqKind, rfl⟩ := visit_childSteps_of_closed d hkind hstep
    have hplain : c.kind ∉ spaceKinds ++ scopeKinds := by
      rw [hcreation]
      decide
    have hqPlain : q.kind ∉ spaceKinds ++ scopeKinds := by
      have hapart : ∀ k ∈ ["argument_list", "initializer_expression"],
          k ∉ spaceKinds ++ scopeKinds := by decide
      exact hapart _ hqKind
    refine ⟨Place.mem_subtree_of_mem_children hcTree hq, ?_⟩
    rw [Place.scopeBy_of_mem_children hq, ownScope,
      scopeBefore_of_forall (h.spaces c hcTree (Or.inl hcreation)) hq, scopeFrom_of_notMem hqPlain,
      hcScope, ownScope, scopeFrom_of_notMem hplain, ← hp]
    rfl
  · obtain ⟨rfl, rfl⟩ := (visit_childSteps_iff d hkind).1 hstep
    exact ⟨hcTree, by rw [hcScope, ownScope, hp]⟩

end Uses.CSharp

namespace Declarations.CSharp

open SourceIndex.Idiom.CSharp
open SourceIndex.Uses.CSharp (typeKinds callableKinds closedKinds spaceKinds scopeKinds spaceAfter
  spaceName scopeBefore scopeFrom ownScope withFileSpace_eq isScoped IsGrammatical
  scopeBefore_of_forall scopeFrom_of_notMem scopeFrom_of_named scope_of_mem_visits)

variable (d : Document)

/-- The scope of a task. -/
def Task.scope : Task → Scope
  | inside s _ | functions s => s

/-- The task for a child, after the file-wide namespaces before it. -/
def Task.after (d : Document) (c : Place) : Task → Task
  | inside s around => inside { s with name := scopeBefore d s.name c } around
  | functions s => functions s

/-- What the walk takes up at a place: its children, each with the task for it. -/
def entries (t : Task) (p : Place) : List (Task × Place) :=
  if d.tooDeep t.scope.depth then [] else p.children.map fun c => (t.after d c, c)

/-- What the walk does with what it takes up. -/
def entrySteps : Task → Place → List (Step Task Symbol)
  | .inside s around, c => childSteps d s around c
  | .functions s, c => functionSearchSteps d s c

/-- The declarations of a file that are scopes for the uses in them, each with its symbol. -/
def scopes (root : Place) : List (Place × Symbol) :=
  (rule d).firsts (entries d) (entrySteps d) scopeKinds (.inside {} .space) root

variable {t t' : Task} {s : Scope} {around : Enclosure} {p c q : Place} {tree : Node} {y : Symbol}

theorem mem_entries : (t', c) ∈ entries d t p ↔
    ¬ d.tooDeep t.scope.depth = true ∧ c ∈ p.children ∧ t' = t.after d c := by
  unfold entries
  split
  · simp [*]
  · simp [*, and_comm, eq_comm]

theorem rule_eq_entries : rule d t p = (entries d t p).flatMap fun e => entrySteps d e.1 e.2 := by
  by_cases hdepth : d.tooDeep t.scope.depth = true
  · rw [entries, if_pos hdepth]
    cases t <;> exact if_pos hdepth
  · rw [entries, if_neg hdepth, List.flatMap_map]
    cases t with
    | inside s around =>
        have heq := withFileSpace_eq d s.name none p.children
        rw [Place.carryOver_children] at heq
        refine (if_neg hdepth).trans ((congrArg (List.flatMap _) heq).trans ?_)
        rw [List.flatMap_map]
        rfl
    | functions s => exact if_neg hdepth

/-! ## The walk through namespaces, types and functions -/

/-- What the walk goes on to from what it takes up. -/
inductive Leads (d : Document) : Task → Place → Task → Place → Prop
  | space {s : Scope} {around : Enclosure} {c : Place} {name : String} (kind : c.kind ∈ spaceKinds)
      (named : namespaceName d c = some name) :
      Leads d (.inside s around) c (.inside (s.enter (Text.qualify s.name name ".")) .space)
        ((c.field? "body").getD c)
  | type {s : Scope} {around inner : Enclosure} {c b : Place} {name : String}
      (kind : c.kind ∈ typeKinds) (named : d.fieldText c "name" = some name)
      (body : c.field? "body" = some b) :
      Leads d (.inside s around) c (.inside (s.enter (Text.qualify s.name name ".")) inner) b
  | callable {t : Task} {c b : Place} {name : String} (kind : c.kind ∈ callableKinds)
      (named : d.fieldText c "name" = some name) (body : c.field? "body" = some b) :
      Leads d t c (.functions (t.scope.enter (Text.qualify t.scope.name name "."))) b
  | search {s : Scope} {c : Place} (kind : c.kind ≠ "local_function_statement") :
      Leads d (.functions s) c (.functions s.deeper) c

theorem leads_of_visit_functionSteps {name : String} (hkind : c.kind ∈ callableKinds)
    (hname : d.fieldText c "name" = some name)
    (h : Step.visit t' q ∈ functionSteps t.scope c name) : Leads d t c t' q := by
  obtain ⟨rfl, hq⟩ := Step.mem_visit?.1 h
  exact .callable hkind hname hq

theorem leads_of_visit_methodSteps {visibility : Visibility} {result : Option String}
    (hkind : c.kind ∈ callableKinds)
    (h : Step.visit t' q ∈ methodSteps d t.scope visibility result c) : Leads d t c t' q := by
  unfold methodSteps at h
  split at h
  · cases h
  · rename_i name hname
    rcases List.mem_cons.1 h with h | h
    · cases h
    · exact leads_of_visit_functionSteps d hkind hname h

theorem leads_of_visit_typeSteps {kind : SymbolKind} {keyword : String} (hkind : c.kind ∈ typeKinds)
    (h : Step.visit t' q ∈ typeSteps d s around kind keyword c) :
    Leads d (.inside s around) c t' q := by
  unfold typeSteps at h
  split at h
  · cases h
  rename_i name hname
  rcases List.mem_cons.1 h with h | h
  · cases h
  rcases List.mem_append.1 h with h | h
  · exact absurd h (Step.visit_notMem_emit? _)
  · obtain ⟨rfl, hq⟩ := Step.mem_visit?.1 h
    exact .type hkind hname hq

theorem leads_of_visit_namespaceSteps (hkind : c.kind ∈ spaceKinds)
    (h : Step.visit t' q ∈ namespaceSteps d s c) : Leads d (.inside s around) c t' q := by
  unfold namespaceSteps at h
  split at h
  · cases h
  · rename_i name hname
    rcases List.mem_cons.1 h with h | h
    · cases h
    · cases List.mem_singleton.1 h
      exact .space hkind hname

theorem leads_of_visit_childSteps (h : Step.visit t' q ∈ childSteps d s around c) :
    Leads d (.inside s around) c t' q := by
  unfold childSteps at h
  split at h
  case h_1 hc | h_2 hc => exact leads_of_visit_namespaceSteps d (by simp [spaceKinds, hc]) h
  case h_3 hc | h_4 hc | h_5 hc =>
    exact leads_of_visit_typeSteps d (by simp [typeKinds, hc]) h
  case h_6 hc =>
    unfold recordSteps at h
    split at h <;> exact leads_of_visit_typeSteps d (by simp [typeKinds, hc]) h
  case h_8 hc | h_9 hc =>
    exact leads_of_visit_methodSteps d (t := .inside s around) (by simp [callableKinds, hc]) h
  case h_10 hc =>
    unfold constructorSteps at h
    split at h
    · cases h
    · rename_i name hname
      rcases List.mem_cons.1 h with h | h
      · cases h
      · exact leads_of_visit_functionSteps d (t := .inside s around) (by simp [callableKinds, hc])
          hname h
  case h_7 | h_12 | h_13 => exact absurd h (Step.visit_notMem_emitAll _)
  case h_11 | h_14 => exact absurd h (Step.visit_notMem_emit? _)

theorem leads_of_visit_entrySteps (h : Step.visit t' q ∈ entrySteps d t c) : Leads d t c t' q := by
  cases t with
  | inside s around => exact leads_of_visit_childSteps d h
  | functions s =>
      rw [entrySteps, functionSearchSteps] at h
      split at h
      · rename_i hkind
        exact leads_of_visit_methodSteps d (t := .functions s)
          (by simp [callableKinds, beq_iff_eq.1 hkind]) h
      · rename_i hkind
        split at h
        · cases List.mem_singleton.1 h
          exact .search fun hc => hkind (beq_iff_eq.2 hc)
        · cases h

theorem exists_child_of_visit_rule (h : Step.visit t' q ∈ rule d t p) :
    ∃ c ∈ p.children, Leads d (t.after d c) c t' q := by
  rw [rule_eq_entries] at h
  obtain ⟨⟨t'', c⟩, he, hstep⟩ := List.mem_flatMap.1 h
  obtain ⟨-, hc, rfl⟩ := (mem_entries d).1 he
  exact ⟨c, hc, leads_of_visit_entrySteps d hstep⟩

/-- The walk goes from a child into the child itself or into its body. -/
theorem Leads.self_or_body (h : Leads d t c t' q) : q = c ∨ c.field? "body" = some q := by
  cases h with
  | space =>
      cases hb : c.field? "body" with
      | none => exact Or.inl rfl
      | some b => exact Or.inr rfl
  | type _ _ body => exact Or.inr body
  | callable _ _ body => exact Or.inr body
  | search => exact Or.inl rfl

theorem rule_descends : (rule d).Descends := by
  intro t t' p q h
  obtain ⟨c, hc, hleads⟩ := exists_child_of_visit_rule d h
  have hlt := Place.height_lt_of_mem_children hc
  rcases hleads.self_or_body with rfl | hq
  · exact hlt
  · exact Nat.lt_trans (Place.height_lt_of_mem_children (Place.mem_children_of_field? hq)) hlt

/-- A place to which the walk comes, in the scope in which the walk for uses looks at it.  Where
functions are looked for, nothing else in the place is a scope. -/
structure IsOpen (tree : Node) (t : Task) (p : Place) : Prop where
  ofTree : p ∈ (Place.root tree).subtree
  scope : t.scope.name = p.scopeBy (ownScope d)
  plain : ∀ s, t = .functions s → ∀ q ∈ p.subtree, q.kind ∈ spaceKinds ++ scopeKinds →
    q.kind = "local_function_statement"

variable {d}

/-- The task for a child has the scope in which the walk for uses looks at the child. -/
theorem IsOpen.after (hp : IsOpen d tree t p) (hc : c ∈ p.children) :
    c.scopeBy (ownScope d) = scopeFrom d (t.after d c).scope.name c := by
  rw [Place.scopeBy_of_mem_children hc, ownScope, ← hp.scope]
  cases t with
  | inside s around => rfl
  | functions s =>
      have hnone : ∀ b ∈ p.children, b.kind ≠ "file_scoped_namespace_declaration" := by
        intro b hb hkind
        have hlocal := hp.plain s rfl b (Place.mem_subtree_of_child hb) (by rw [hkind]; decide)
        rw [hkind] at hlocal
        exact absurd hlocal (by decide)
      rw [scopeBefore_of_forall hnone hc]
      rfl

/-- The body of a declaration is looked at in the scope of the declaration. -/
theorem scopeBy_of_body (h : IsGrammatical tree) (hc : c ∈ (Place.root tree).subtree)
    (hkind : c.kind ∈ spaceKinds ++ scopeKinds) (hq : c.field? "body" = some q) :
    q.scopeBy (ownScope d) = c.scopeBy (ownScope d) := by
  have hqc := Place.mem_children_of_field? hq
  rw [Place.scopeBy_of_mem_children hqc, ownScope,
    scopeBefore_of_forall (h.spaces c hc (Or.inr (by rw [hq]; rfl))) hqc,
    scopeFrom_of_notMem (h.bodies c hc hkind q hq)]

theorem IsOpen.leads (h : IsGrammatical tree) (hp : IsOpen d tree t p) (hc : c ∈ p.children)
    (hleads : Leads d (t.after d c) c t' q) : IsOpen d tree t' q := by
  have hcTree := Place.mem_subtree_of_mem_children hp.ofTree hc
  have hcScope := hp.after hc
  have hqTree : q ∈ (Place.root tree).subtree := by
    rcases hleads.self_or_body with rfl | hq
    · exact hcTree
    · exact Place.mem_subtree_of_field? hcTree hq
  -- What leads on is the task for the child, which keeps the kind of the task that the walk has.
  generalize ht : t.after d c = t'' at hleads hcScope
  cases hleads with
  | @space s around _ name kind named =>
      have hscope : c.scopeBy (ownScope d) = some (Text.qualify s.name name ".") := by
        rw [hcScope, scopeFrom, if_pos (List.contains_iff_mem.2 kind), spaceName, named]
        rfl
      refine ⟨hqTree, ?_, fun _ hsearch => by cases hsearch⟩
      cases hb : c.field? "body" with
      | none => exact hscope.symm
      | some b =>
          rw [Option.getD_some, scopeBy_of_body h hcTree (List.mem_append_left _ kind) hb, hscope]
          rfl
  | type kind named body =>
      have hkind : c.kind ∈ scopeKinds := List.mem_append_left _ kind
      refine ⟨hqTree, ?_, fun _ hsearch => by cases hsearch⟩
      rw [scopeBy_of_body h hcTree (List.mem_append_right _ hkind) body, hcScope,
        scopeFrom_of_named hkind named]
      rfl
  | callable kind named body =>
      have hkind : c.kind ∈ scopeKinds := List.mem_append_right _ kind
      refine ⟨hqTree, ?_, fun _ _ => h.functions c hcTree kind q body⟩
      rw [scopeBy_of_body h hcTree (List.mem_append_right _ hkind) body, hcScope,
        scopeFrom_of_named hkind named]
      rfl
  | @search s _ kind =>
      obtain ⟨s, rfl⟩ : ∃ s, t = .functions s := by
        cases t with
        | inside => cases ht
        | functions s => exact ⟨s, rfl⟩
      cases ht
      have hcp := Place.mem_subtree_of_child hc
      have hplain : c.kind ∉ spaceKinds ++ scopeKinds := fun hscope =>
        kind (hp.plain s rfl c hcp hscope)
      refine ⟨hqTree, ?_, fun _ _ r hr => hp.plain s rfl r (Place.mem_subtree_trans hcp hr)⟩
      rw [hcScope, scopeFrom_of_notMem hplain]
      rfl

theorem isOpen_of_mem_visits (h : IsGrammatical tree) {v : Task × Place}
    (hv : v ∈ (rule d).visits (.inside {} .space) (.root tree)) : IsOpen d tree v.1 v.2 := by
  refine Rule.forall_mem_visits (rule_descends d) ?_
    ⟨Place.self_mem_subtree _, rfl, fun _ hsearch => by cases hsearch⟩ v hv
  intro t t' p q hp hstep
  obtain ⟨c, hc, hleads⟩ := exists_child_of_visit_rule d hstep
  exact hp.leads h hc hleads

/-! ## The symbols of scopes -/

/-- The name of the symbol of a declaration that is a scope. -/
def symbolName (p : Place) (name : String) : String :=
  if p.kind = "destructor_declaration" then "~" ++ name else name

theorem symbolName_eq_iff {name : String} :
    symbolName p name = name ↔ p.kind ≠ "destructor_declaration" := by
  unfold symbolName
  split
  · rename_i hkind
    refine iff_of_false (fun heq => ?_) fun hne => hne hkind
    have hlength := congrArg String.length heq
    simp only [String.length_append] at hlength
    have hmark : "~".length = 1 := rfl
    omega
  · rename_i hkind
    exact iff_of_true rfl hkind

theorem exists_name_of_typeSteps {kind : SymbolKind} {keyword : String} (hkind : c.kind ∈ typeKinds)
    (hy : Step.first? (typeSteps d s around kind keyword c) = some y) :
    ∃ name, d.fieldText c "name" = some name ∧
      y.qualifiedName = Text.qualify s.name (symbolName c name) "." := by
  have hname : ∀ name, symbolName c name = name := fun name => symbolName_eq_iff.2 <| by
    have hapart : ∀ k ∈ typeKinds, k ≠ "destructor_declaration" := by decide
    exact hapart _ hkind
  unfold typeSteps at hy
  split at hy
  · cases hy
  · rename_i name hfield
    cases hy
    exact ⟨name, hfield, by rw [hname]; rfl⟩

theorem exists_name_of_methodSteps {visibility : Visibility} {result : Option String}
    (hkind : c.kind ∈ ["method_declaration", "local_function_statement"])
    (hy : Step.first? (methodSteps d s visibility result c) = some y) :
    ∃ name, d.fieldText c "name" = some name ∧
      y.qualifiedName = Text.qualify s.name (symbolName c name) "." := by
  have hname : ∀ name, symbolName c name = name := fun name => symbolName_eq_iff.2 <| by
    have hapart : ∀ k ∈ ["method_declaration", "local_function_statement"],
        k ≠ "destructor_declaration" := by decide
    exact hapart _ hkind
  unfold methodSteps at hy
  split at hy
  · cases hy
  · rename_i name hfield
    cases hy
    exact ⟨name, hfield, by rw [hname]; rfl⟩

/-- A symbol of a scope has the name of the declaration in the scope of its task, behind a mark if
the declaration is a destructor. -/
theorem exists_name (hkind : c.kind ∈ scopeKinds)
    (hy : Step.first? (entrySteps d t c) = some y) : ∃ name, d.fieldText c "name" = some name ∧
      y.qualifiedName = Text.qualify t.scope.name (symbolName c name) "." := by
  cases t with
  | functions s =>
      rw [entrySteps, functionSearchSteps] at hy
      split at hy
      · rename_i hlocal
        exact exists_name_of_methodSteps (by simp [beq_iff_eq.1 hlocal]) hy
      · split at hy <;> cases hy
  | inside s around =>
      rw [entrySteps] at hy
      unfold childSteps at hy
      split at hy
      case h_3 hc | h_4 hc | h_5 hc => exact exists_name_of_typeSteps (by simp [typeKinds, hc]) hy
      case h_6 hc =>
        unfold recordSteps at hy
        split at hy <;> exact exists_name_of_typeSteps (by simp [typeKinds, hc]) hy
      case h_7 hc =>
        unfold enumSymbols at hy
        split at hy
        · cases hy
        · rename_i name hname
          cases hy
          exact ⟨name, hname, by simp [symbolName, hc, member, Task.scope]⟩
      case h_8 hc | h_9 hc => exact exists_name_of_methodSteps (by simp [hc]) hy
      case h_10 hc =>
        unfold constructorSteps at hy
        split at hy
        · cases hy
        · rename_i name hname
          cases hy
          exact ⟨name, hname, by simp [symbolName, hc, member, Task.scope]⟩
      case h_11 hc =>
        rw [Step.first?_emit?] at hy
        obtain ⟨name, hname, rfl⟩ := Option.map_eq_some_iff.1 hy
        exact ⟨name, hname, by simp [symbolName, hc, member, Task.scope]⟩
      case h_14 => simp_all [scopeKinds, typeKinds, callableKinds]
      all_goals simp [scopeKinds, typeKinds, callableKinds, *] at hkind

/-- The kinds of the symbols of scopes. -/
def symbolKinds : List SymbolKind :=
  [.class, .interface, .struct, .enum, .method, .constructor]

/-- Does a symbol stand for the parameters after the name of a type, or for a member without a body
of statements, as operators are? -/
def IsUnscoped (d : Document) (y : Symbol) : Prop :=
  (∃ qualified name visibility p, primaryConstructor? d qualified name visibility p = some y) ∨
    ∃ owner p name kind signature visibility, plainMember? d p = some (name, kind, signature) ∧
      y = member d owner p name kind signature visibility

theorem first?_or_of_typeSteps {kind : SymbolKind} {keyword : String}
    (h : Step.emit y ∈ typeSteps d s around kind keyword c) :
    Step.first? (typeSteps d s around kind keyword c) = some y ∨ IsUnscoped d y := by
  unfold typeSteps at h ⊢
  split
  · simp_all
  · rename_i name hname
    simp only [hname, List.mem_cons, Step.emit.injEq, List.mem_append, Step.emit_mem_emit?,
      Step.emit_notMem_visit?, or_false] at h
    rcases h with rfl | h
    · exact Or.inl rfl
    · exact Or.inr (Or.inl ⟨_, _, _, c, h⟩)

theorem first?_of_methodSteps {visibility : Visibility} {result : Option String}
    (h : Step.emit y ∈ methodSteps d s visibility result c) :
    Step.first? (methodSteps d s visibility result c) = some y := by
  unfold methodSteps at h ⊢
  split
  · simp_all
  · rename_i name hname
    simp only [hname, functionSteps, List.mem_cons, Step.emit.injEq, Step.emit_notMem_visit?,
      or_false] at h
    exact congrArg some h.symm

theorem first?_or_of_recordSteps (h : Step.emit y ∈ recordSteps d s around c) :
    Step.first? (recordSteps d s around c) = some y ∨ IsUnscoped d y := by
  unfold recordSteps at h ⊢
  split at h
  · rw [if_pos ‹_›]
    exact first?_or_of_typeSteps h
  · rw [if_neg ‹_›]
    exact first?_or_of_typeSteps h

theorem first?_of_enumSymbols {owner : Option String}
    (h : Step.emit y ∈ (Step.emitAll (enumSymbols d owner around c) : List (Step Task Symbol)))
    (hkind : y.kind ∈ symbolKinds) :
    Step.first? (Step.emitAll (enumSymbols d owner around c) : List (Step Task Symbol)) = some y := by
  have h := Step.emit_mem_emitAll.1 h
  unfold enumSymbols at h ⊢
  split
  · simp_all
  · rename_i name hname
    simp only [hname] at h
    rcases List.mem_cons.1 h with rfl | h
    · rfl
    · obtain ⟨m, -, h⟩ := List.mem_filterMap.1 h
      obtain ⟨constant, -, rfl⟩ := Option.map_eq_some_iff.1 h
      simp [symbolKinds] at hkind

theorem first?_of_constructorSteps (h : Step.emit y ∈ constructorSteps d s around c) :
    Step.first? (constructorSteps d s around c) = some y := by
  unfold constructorSteps at h ⊢
  split
  · simp_all
  · rename_i name hname
    simp only [hname, functionSteps, List.mem_cons, Step.emit.injEq, Step.emit_notMem_visit?,
      or_false] at h
    exact congrArg some h.symm

theorem first?_or_of_childSteps (h : Step.emit y ∈ childSteps d s around c)
    (hkind : y.kind ∈ symbolKinds) :
    c.kind ∈ scopeKinds ∧ Step.first? (childSteps d s around c) = some y ∨ IsUnscoped d y := by
  unfold childSteps
  unfold childSteps at h
  split at h
  case h_1 | h_2 =>
    unfold namespaceSteps at h
    split at h
    · cases h
    · simp only [List.mem_cons, Step.emit.injEq, reduceCtorEq, List.not_mem_nil, or_false] at h
      cases h
      simp [symbolKinds] at hkind
  case h_3 hc | h_4 hc | h_5 hc =>
    exact (first?_or_of_typeSteps h).imp_left fun hy => ⟨by rw [hc]; decide, hy⟩
  case h_6 hc =>
    exact (first?_or_of_recordSteps h).imp_left fun hy => ⟨by rw [hc]; decide, hy⟩
  case h_7 hc => exact Or.inl ⟨by rw [hc]; decide, first?_of_enumSymbols h hkind⟩
  case h_8 hc | h_9 hc => exact Or.inl ⟨by rw [hc]; decide, first?_of_methodSteps h⟩
  case h_10 hc => exact Or.inl ⟨by rw [hc]; decide, first?_of_constructorSteps h⟩
  case h_11 hc =>
    refine Or.inl ⟨by rw [hc]; decide, ?_⟩
    rw [Step.first?_emit?]
    exact Step.emit_mem_emit?.1 h
  case h_12 =>
    obtain ⟨v, -, rfl⟩ := List.mem_map.1 (Step.emit_mem_emitAll.1 h)
    simp only [member, Document.symbol_kind] at hkind
    split at hkind <;> simp [symbolKinds] at hkind
  case h_13 =>
    obtain ⟨v, -, rfl⟩ := List.mem_map.1 (Step.emit_mem_emitAll.1 h)
    simp [member, symbolKinds] at hkind
  case h_14 =>
    obtain ⟨⟨name, kind, signature⟩, hmember, rfl⟩ :=
      Option.map_eq_some_iff.1 (Step.emit_mem_emit?.1 h)
    exact Or.inr (Or.inr ⟨_, c, name, kind, signature, _, hmember, rfl⟩)

theorem first?_or_of_entrySteps (h : Step.emit y ∈ entrySteps d t c) (hkind : y.kind ∈ symbolKinds) :
    c.kind ∈ scopeKinds ∧ Step.first? (entrySteps d t c) = some y ∨ IsUnscoped d y := by
  cases t with
  | inside s around => exact first?_or_of_childSteps h hkind
  | functions s =>
      rw [entrySteps, functionSearchSteps] at h ⊢
      split at h
      · rename_i hlocal
        refine Or.inl ⟨by rw [beq_iff_eq.1 hlocal]; decide, ?_⟩
        rw [if_pos hlocal]
        exact first?_of_methodSteps h
      · split at h <;> simp at h

/-- Every symbol of a type, a method or a constructor is that of a scope, or stands for something
that has no body of statements. -/
theorem mem_scopes_or_isUnscoped {root : Place} (hy : y ∈ symbols d root)
    (hkind : y.kind ∈ symbolKinds) : (∃ c, (c, y) ∈ scopes d root) ∨ IsUnscoped d y :=
  Rule.mem_firsts_or (rule_descends d) (fun _ _ => rule_eq_entries d)
    (fun _ _ h => first?_or_of_entrySteps h hkind) hy

theorem mem_symbols_of_mem_scopes {root : Place} {f : Place × Symbol} (hf : f ∈ scopes d root) :
    f.2 ∈ symbols d root :=
  Rule.mem_walk_of_mem_firsts (rule_descends d) (fun _ _ => rule_eq_entries d) hf

/-! ## Agreement -/

/-- The scope in a declaration with a symbol has the name of the symbol, less the mark of a
destructor. -/
theorem scopeBy_eq_iff (h : IsGrammatical tree) {f : Place × Symbol}
    (hf : f ∈ scopes d (.root tree)) : f.1 ∈ (Place.root tree).subtree ∧
      (f.1.scopeBy (ownScope d) = some f.2.qualifiedName ↔ f.1.kind ≠ "destructor_declaration") := by
  obtain ⟨⟨t, p⟩, hv, t', he, hkind, hy⟩ := Rule.mem_firsts.1 hf
  obtain ⟨-, hc, rfl⟩ := (mem_entries d).1 he
  obtain ⟨name, hname, hqualified⟩ := exists_name hkind hy
  have hp := isOpen_of_mem_visits h hv
  refine ⟨Place.mem_subtree_of_mem_children hp.ofTree hc, ?_⟩
  rw [hp.after hc, scopeFrom_of_named hkind hname, hqualified, Option.some_inj,
    Text.qualify_name_inj, eq_comm]
  exact symbolName_eq_iff

variable (d)

/-- The walk for uses comes to every declaration with a symbol that does not stand in a place of
which it looks at some parts only, if the declaration is not too deep. -/
theorem exists_carries (h : IsGrammatical tree) {f : Place × Symbol}
    (hf : f ∈ scopes d (.root tree)) (havoids : f.1.avoids closedKinds = true)
    (hlevel : f.1.level ≤ d.limits.walkDepth.toNat + 1) :
    (Uses.CSharp.rule d).Carries id (.root tree) f.1 (f.1.scopeBy (ownScope d)) :=
  ((isScoped d).carries_iff (scopeBy_eq_iff h hf).1 havoids).2 ⟨hlevel, rfl⟩

/-- The scopes have the symbols of types, methods and constructors, those of what has no body apart.
The uses in such a declaration are attributed to the qualified name of its symbol exactly if the
declaration is no destructor. -/
theorem scope_qualified_iff_not_destructor (h : IsGrammatical tree) :
    (∀ f ∈ scopes d (.root tree), f.2 ∈ symbols d (.root tree)) ∧
    (∀ y ∈ symbols d (.root tree), y.kind ∈ symbolKinds →
      (∃ c, (c, y) ∈ scopes d (.root tree)) ∨ IsUnscoped d y) ∧
    ∀ f ∈ scopes d (.root tree), ∀ scope,
      (Uses.CSharp.rule d).Carries id (.root tree) f.1 scope →
        (scope = some f.2.qualifiedName ↔ f.1.kind ≠ "destructor_declaration") := by
  refine ⟨fun _ => mem_symbols_of_mem_scopes, fun _ => mem_scopes_or_isUnscoped, ?_⟩
  rintro f hf scope ⟨s, rfl, hs⟩
  have hscope : s.name = f.1.scopeBy (ownScope d) := (scope_of_mem_visits h hs).2
  rw [hscope]
  exact (scopeBy_eq_iff h hf).2

/-- The tree of `g();`, from an offset on. -/
def callAt (n : Nat) : Node :=
  .mk "expression_statement" true [] n (n + 4)
    [.mk "invocation_expression" true [] n (n + 3)
      [.leaf "identifier" ["function"] n (n + 1),
        .mk "argument_list" true ["arguments"] (n + 1) (n + 3)
          [.token "(" (n + 1) (n + 2), .token ")" (n + 2) (n + 3)]],
      .token ";" (n + 3) (n + 4)]

/-- A class with a destructor. -/
def classWithDestructor : Document :=
  { path := "a.cs"
    bytes := Text.Utf8.encode "class A \x7b ~A() \x7b g(); \x7d \x7d\n".toList
    limits := {} }

/-- The tree of `classWithDestructor`. -/
def classWithDestructorTree : Node :=
  .mk "compilation_unit" true [] 0 26
    [.mk "class_declaration" true [] 0 25
      [.token "class" 0 5, .leaf "identifier" ["name"] 6 7,
        .mk "declaration_list" true ["body"] 8 25
          [.token "\x7b" 8 9,
            .mk "destructor_declaration" true [] 10 23
              [.token "~" 10 11, .leaf "identifier" ["name"] 11 12,
                .mk "parameter_list" true ["parameters"] 12 14
                  [.token "(" 12 13, .token ")" 13 14],
                .mk "block" true ["body"] 15 23
                  [.token "\x7b" 15 16, callAt 17, .token "\x7d" 22 23]],
            .token "\x7d" 24 25]]]

theorem destructor_scope_ne :
    IsGrammatical classWithDestructorTree ∧
      ∃ f ∈ scopes classWithDestructor (.root classWithDestructorTree), ∃ scope,
        (Uses.CSharp.rule classWithDestructor).Carries id (.root classWithDestructorTree) f.1
          scope ∧ scope ≠ some f.2.qualifiedName := by
  have hgrammar : IsGrammatical classWithDestructorTree :=
    ⟨by decide +kernel, by decide +kernel, by decide +kernel⟩
  have hdestructor : ∃ f ∈ scopes classWithDestructor (.root classWithDestructorTree),
      f.1.avoids closedKinds = true ∧
        f.1.level ≤ classWithDestructor.limits.walkDepth.toNat + 1 ∧
          f.1.kind = "destructor_declaration" := by
    decide +kernel
  obtain ⟨f, hf, havoids, hlevel, hkind⟩ := hdestructor
  refine ⟨hgrammar, f, hf, _, exists_carries _ hgrammar hf havoids hlevel, fun heq => ?_⟩
  exact (scopeBy_eq_iff hgrammar hf).2.1 heq hkind

/-- A function in a method. -/
def functionInMethod : Document :=
  { path := "a.cs"
    bytes := Text.Utf8.encode
      "class A \x7b void M() \x7b void f() \x7b g(); \x7d \x7d \x7d\n".toList
    limits := {} }

/-- The tree of `functionInMethod`. -/
def functionInMethodTree : Node :=
  .mk "compilation_unit" true [] 0 43
    [.mk "class_declaration" true [] 0 42
      [.token "class" 0 5, .leaf "identifier" ["name"] 6 7,
        .mk "declaration_list" true ["body"] 8 42
          [.token "\x7b" 8 9,
            .mk "method_declaration" true [] 10 40
              [.leaf "predefined_type" ["returns"] 10 14, .leaf "identifier" ["name"] 15 16,
                .mk "parameter_list" true ["parameters"] 16 18
                  [.token "(" 16 17, .token ")" 17 18],
                .mk "block" true ["body"] 19 40
                  [.token "\x7b" 19 20,
                    .mk "local_function_statement" true [] 21 38
                      [.leaf "predefined_type" ["type"] 21 25, .leaf "identifier" ["name"] 26 27,
                        .mk "parameter_list" true ["parameters"] 27 29
                          [.token "(" 27 28, .token ")" 28 29],
                        .mk "block" true ["body"] 30 38
                          [.token "\x7b" 30 31, callAt 32, .token "\x7d" 37 38]],
                    .token "\x7d" 39 40]],
            .token "\x7d" 41 42]]]

theorem functionInMethod_scope_eq :
    IsGrammatical functionInMethodTree ∧
      ∃ f ∈ scopes functionInMethod (.root functionInMethodTree), ∃ scope,
        (Uses.CSharp.rule functionInMethod).Carries id (.root functionInMethodTree) f.1 scope ∧
          scope = some f.2.qualifiedName ∧ f.2.qualifiedName = "A.M.f" := by
  have hgrammar : IsGrammatical functionInMethodTree :=
    ⟨by decide +kernel, by decide +kernel, by decide +kernel⟩
  have hfunction : ∃ f ∈ scopes functionInMethod (.root functionInMethodTree),
      f.1.avoids closedKinds = true ∧ f.1.level ≤ functionInMethod.limits.walkDepth.toNat + 1 ∧
        f.1.kind ≠ "destructor_declaration" ∧ f.2.qualifiedName = "A.M.f" := by
    decide +kernel
  obtain ⟨f, hf, havoids, hlevel, hkind, hname⟩ := hfunction
  have hcarries := exists_carries functionInMethod hgrammar hf havoids hlevel
  refine ⟨hgrammar, f, hf, _, hcarries, ?_, hname⟩
  obtain ⟨-, -, hiff⟩ := scope_qualified_iff_not_destructor functionInMethod hgrammar
  exact (hiff f hf _ hcarries).2 hkind

end Declarations.CSharp

end SourceIndex
