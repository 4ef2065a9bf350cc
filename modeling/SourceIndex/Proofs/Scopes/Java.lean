import SourceIndex.Declarations.Java
import SourceIndex.Proofs.Tree.Scoped
import SourceIndex.Uses.Java

/-!
# Scopes in Java and Apex

The declarations of a file are looked for from type body to type body, and the uses
everywhere.  Both walks qualify a type, a method or a constructor by the types around it.  So the
uses in a declaration are attributed to the qualified name of its symbol, in Apex as in Java.
-/

namespace SourceIndex

namespace Uses.Java

open SourceIndex.Idiom.Java

variable (d : Document) {s : Scope} {p c q : Place} {task : Task}

/-- The kinds of places of which the walk for uses looks at some parts only. -/
def closedKinds : List String :=
  ["import_declaration", "method_invocation", "object_creation_expression"]

/-- The kinds of declarations that are scopes for the uses in them. -/
def scopeKinds : List String :=
  "method_declaration" :: "constructor_declaration" :: typeKinds

theorem notMem_closedKinds {kind : String} (h : kind ∈ scopeKinds) : kind ∉ closedKinds := by
  have hapart : ∀ k ∈ scopeKinds, k ∉ closedKinds := by decide
  exact hapart kind h

/-- The scope in a place, given that in the place around it. -/
def ownScope (above : Option String) (p : Place) : Option String :=
  if scopeKinds.contains p.kind then (namedScope d ⟨above, 0⟩ p).or above else above

theorem mem_children_of_visit_invocationSteps (h : Step.visit task q ∈ invocationSteps d s p) :
    q ∈ p.children := by
  unfold invocationSteps at h
  split at h
  · cases h
  rcases List.mem_cons.1 h with h | h
  · cases h
  rcases List.mem_append.1 h with h | h
  · split at h
    · rename_i o ho
      split at h <;> cases List.mem_singleton.1 h <;> exact Place.mem_children_of_field? ho
    · cases h
  · exact Place.mem_children_of_field? (Step.mem_visit?.1 h).2

theorem mem_children_of_visit_creationSteps (h : Step.visit task q ∈ creationSteps d s p) :
    q ∈ p.children := by
  unfold creationSteps at h
  rcases List.mem_append.1 h with h | h
  · rcases List.mem_append.1 h with h | h
    · exact absurd h (Step.visit_notMem_emit? _)
    · exact Place.mem_children_of_field? (Step.mem_visit?.1 h).2
  · exact List.mem_of_find?_eq_some (Step.mem_visit?.1 h).2

/-- Behind its own uses, a child of no closed kind leads into itself and nowhere else. -/
theorem visit_childSteps_iff (hkind : c.kind ∉ closedKinds) :
    Step.visit task q ∈ childSteps d s c ↔
      q = c ∧ task = .inside ⟨ownScope d s.name c, s.depth + 1⟩ := by
  unfold childSteps
  split
  case h_1 hc | h_2 hc | h_3 hc => simp [closedKinds, hc] at hkind
  case h_4 hc | h_5 hc =>
    have hown : ownScope d s.name c = (namedScope d s c).or s.name := by
      simp [ownScope, scopeKinds, hc, namedScope]
    rw [hown, List.mem_singleton, Step.visit.injEq, and_comm]
    rfl
  case h_6 hmethod hconstructor =>
    split
    case isTrue htype =>
      have hown : ownScope d s.name c = (namedScope d s c).or s.name := by
        simp only [ownScope, scopeKinds, List.contains_cons, htype, Bool.or_true, if_true, namedScope]
      rw [hown]
      simp only [List.mem_append, Step.visit_notMem_emitAll, false_or, List.mem_singleton,
        Step.visit.injEq]
      rw [and_comm]
      rfl
    case isFalse htype =>
      have hown : ownScope d s.name c = s.name := by
        rw [ownScope, if_neg]
        rw [List.contains_iff_mem, scopeKinds, List.mem_cons, List.mem_cons]
        rintro (hc | hc | hc)
        · exact hmethod hc
        · exact hconstructor hc
        · exact htype (List.contains_iff_mem.2 hc)
      rw [hown, List.mem_singleton, Step.visit.injEq, and_comm]
      rfl

/-- A child leads into itself or to a child of its own. -/
theorem mem_subtree_of_visit_childSteps (h : Step.visit task q ∈ childSteps d s c) :
    q ∈ c.subtree := by
  have hchild : q ∈ c.children → q ∈ c.subtree := Place.mem_subtree_of_child
  by_cases hkind : c.kind ∈ closedKinds
  · simp only [closedKinds, List.mem_cons, List.not_mem_nil, or_false] at hkind
    rcases hkind with hkind | hkind | hkind <;> simp only [childSteps, hkind] at h
    · exact absurd h (Step.visit_notMem_emit? _)
    · exact hchild (mem_children_of_visit_invocationSteps d h)
    · exact hchild (mem_children_of_visit_creationSteps d h)
  · obtain ⟨rfl, -⟩ := (visit_childSteps_iff d hkind).1 h
    exact Place.self_mem_subtree q

theorem isScoped :
    Rule.IsScoped (rule d) d Task.inside (childSteps d) (ownScope d) closedKinds where
  inside_inj := Task.inside.inj
  rule_inside := fun _ _ => rfl
  leads := fun h => ⟨mem_subtree_of_visit_childSteps d h,
    fun hkind => (visit_childSteps_iff d hkind).1 h⟩
  enters := fun hkind => (visit_childSteps_iff d hkind).2 ⟨rfl, rfl⟩
  others := by
    intro task task' p q h
    cases task with
    | inside s => exact Or.inl ⟨s, rfl⟩
    | invocation s =>
        exact Or.inr ⟨q, mem_children_of_visit_invocationSteps d h, Place.self_mem_subtree q⟩

end Uses.Java

namespace Declarations.Java

open SourceIndex.Idiom.Java
open SourceIndex.Uses.Java (closedKinds scopeKinds typeKinds notMem_closedKinds ownScope namedScope
  isScoped)

variable (dialect : Dialect) (d : Document)

/-- What the walk takes up at a place: its children. -/
def entries (s : Scope) (p : Place) : List (Scope × Place) :=
  if d.tooDeep s.depth then [] else p.children.map fun c => (s, c)

/-- The declarations of a file that are scopes for the uses in them, each with its symbol. -/
def scopes (root : Place) : List (Place × Symbol) :=
  (rule dialect d).firsts (entries d) (childSteps dialect d) scopeKinds {} root

/-- The body of a type is a place that the walk for uses looks at in the usual way, and no scope. -/
def IsRegular (tree : Node) : Prop :=
  ∀ p ∈ (Place.root tree).subtree, p.kind ∈ typeKinds →
    ∀ b ∈ p.field? "body", b.kind ∉ closedKinds ++ scopeKinds

variable {dialect} {s : Scope} {p c q : Place} {tree : Node} {y : Symbol} {f : Place × Symbol}

theorem mem_entries {t : Scope} : (t, c) ∈ entries d s p ↔
    ¬ d.tooDeep s.depth = true ∧ t = s ∧ c ∈ p.children := by
  unfold entries
  split
  · simp [*]
  · simp [*, eq_comm, and_comm]

theorem rule_eq_entries : rule dialect d s p =
    (entries d s p).flatMap fun e => childSteps dialect d e.1 e.2 := by
  rw [rule, entries]
  split
  · rfl
  · rw [List.flatMap_map]

/-! ## The walk through the bodies of types -/

theorem visit_enumSteps {s' : Scope} (h : Step.visit s' q ∈ enumSteps dialect d s c) :
    ∃ name b, d.fieldText c "name" = some name ∧ s' = s.enter (Text.qualify s.name name ".") ∧
      c.field? "body" = some b ∧ q ∈ b.children ∧ q.kind = "enum_body_declarations" := by
  unfold enumSteps at h
  split at h
  · cases h
  rename_i name hname
  rcases List.mem_cons.1 h with h | h
  · cases h
  obtain ⟨m, hm, h⟩ := List.mem_flatMap.1 h
  split at h
  · exact absurd h (Step.visit_notMem_emit? _)
  · rename_i hkind
    cases List.mem_singleton.1 h
    cases hb : c.field? "body" with
    | none =>
        rw [hb] at hm
        cases hm
    | some b =>
        rw [hb] at hm
        exact ⟨name, b, hname, rfl, rfl, hm, hkind⟩
  · cases h

theorem visit_typeSteps {kind : SymbolKind} {s' : Scope}
    (h : Step.visit s' q ∈ typeSteps dialect d s kind c) :
    ∃ name, d.fieldText c "name" = some name ∧ s' = s.enter (Text.qualify s.name name ".") ∧
      c.field? "body" = some q := by
  unfold typeSteps at h
  split at h
  · cases h
  rename_i name hname
  rcases List.mem_cons.1 h with h | h
  · cases h
  · obtain ⟨rfl, hq⟩ := Step.mem_visit?.1 h
    exact ⟨name, hname, rfl, hq⟩

/-- The walk goes from a type with a name into its body, in an enum past the constants. -/
theorem visit_childSteps {s' : Scope} (h : Step.visit s' q ∈ childSteps dialect d s c) :
    c.kind ∈ typeKinds ∧ ∃ name b, d.fieldText c "name" = some name ∧
      s' = s.enter (Text.qualify s.name name ".") ∧ c.field? "body" = some b ∧
        (q = b ∨ q ∈ b.children ∧ q.kind = "enum_body_declarations") := by
  unfold childSteps at h
  split at h
  case h_1 hc | h_2 hc | h_3 hc | h_4 hc =>
    obtain ⟨name, hname, hs, hq⟩ := visit_typeSteps d h
    exact ⟨by simp [typeKinds, hc], name, q, hname, hs, hq, Or.inl rfl⟩
  case h_5 hc =>
    obtain ⟨name, b, hname, hs, hb, hq⟩ := visit_enumSteps d h
    exact ⟨by simp [typeKinds, hc], name, b, hname, hs, hb, Or.inr hq⟩
  case h_6 | h_7 | h_10 => exact absurd h (Step.visit_notMem_emit? _)
  case h_8 | h_9 => exact absurd h (Step.visit_notMem_emitAll _)
  case h_11 => cases h

theorem visit_rule {s' : Scope} (h : Step.visit s' q ∈ rule dialect d s p) :
    ∃ c ∈ p.children, Step.visit s' q ∈ childSteps dialect d s c := by
  rw [rule_eq_entries] at h
  obtain ⟨⟨t, c⟩, he, hstep⟩ := List.mem_flatMap.1 h
  obtain ⟨-, rfl, hc⟩ := (mem_entries d).1 he
  exact ⟨c, hc, hstep⟩

theorem rule_descends : (rule dialect d).Descends := by
  intro s s' p q h
  obtain ⟨c, hc, h⟩ := visit_rule d h
  obtain ⟨-, name, b, -, -, hb, hq⟩ := visit_childSteps d h
  have hbc := Place.height_lt_of_mem_children (Place.mem_children_of_field? hb)
  have hcp := Place.height_lt_of_mem_children hc
  rcases hq with rfl | ⟨hq, -⟩
  · exact Nat.lt_trans hbc hcp
  · exact Nat.lt_trans (Nat.lt_trans (Place.height_lt_of_mem_children hq) hbc) hcp

/-- A place to which the walk comes, in the scope in which the walk for uses looks at it. -/
structure IsOpen (tree : Node) (s : Scope) (p : Place) : Prop where
  ofTree : p ∈ (Place.root tree).subtree
  avoids : p.avoids closedKinds = true
  scope : s.name = p.scopeBy (ownScope d)

/-- A place of another kind than those of scopes is looked at in the scope around it. -/
theorem IsOpen.child (hp : IsOpen d tree s p) (hc : c ∈ p.children)
    (hkind : c.kind ∉ closedKinds ++ scopeKinds) {s' : Scope} (hs : s'.name = s.name) :
    IsOpen d tree s' c := by
  rw [List.mem_append, not_or] at hkind
  refine ⟨Place.mem_subtree_of_mem_children hp.ofTree hc,
    (Place.avoids_of_mem_children hc).2 ⟨hp.avoids, hkind.1⟩, ?_⟩
  rw [hs, hp.scope, Place.scopeBy_of_mem_children hc, ownScope, if_neg]
  rw [List.contains_iff_mem]
  exact hkind.2

/-- In a declaration with a name, the scope is the name behind the scope around it. -/
theorem scope_of_named {above : Option String} {name : String} (hkind : c.kind ∈ scopeKinds)
    (hname : d.fieldText c "name" = some name) :
    ownScope d above c = some (Text.qualify above name ".") := by
  rw [ownScope, if_pos (List.contains_iff_mem.2 hkind), namedScope, hname]
  rfl

theorem IsOpen.type (hp : IsOpen d tree s p) (hc : c ∈ p.children) {name : String}
    (hkind : c.kind ∈ typeKinds) (hname : d.fieldText c "name" = some name) :
    IsOpen d tree (s.enter (Text.qualify s.name name ".")) c := by
  have hscope : c.kind ∈ scopeKinds := List.mem_cons_of_mem _ (List.mem_cons_of_mem _ hkind)
  refine ⟨Place.mem_subtree_of_mem_children hp.ofTree hc,
    (Place.avoids_of_mem_children hc).2 ⟨hp.avoids, notMem_closedKinds hscope⟩, ?_⟩
  rw [Place.scopeBy_of_mem_children hc, scope_of_named d hscope hname, ← hp.scope]
  rfl

theorem isOpen_of_mem_visits (h : IsRegular tree) {v : Scope × Place}
    (hv : v ∈ (rule dialect d).visits {} (.root tree)) : IsOpen d tree v.1 v.2 := by
  refine Rule.forall_mem_visits (rule_descends d) ?_ ⟨Place.self_mem_subtree _, rfl, rfl⟩ v hv
  intro s s' p q hp hstep
  obtain ⟨c, hc, hstep⟩ := visit_rule d hstep
  obtain ⟨hkind, name, b, hname, rfl, hb, hq⟩ := visit_childSteps d hstep
  have htype := hp.type d hc hkind hname
  -- The members of an enum stand one place deeper than those of other types, in the same scope.
  have hbody := htype.child d (Place.mem_children_of_field? hb) (h c htype.ofTree hkind b hb) rfl
  rcases hq with rfl | ⟨hq, hmembers⟩
  · exact hbody
  · exact hbody.child d hq (by rw [hmembers]; decide) rfl

/-! ## The symbols of scopes -/

/-- The kinds of the symbols of scopes. -/
def symbolKinds : List SymbolKind :=
  [.class, .interface, .enum, .method, .constructor]

/-- The change that a dialect makes keeps the name and the kind of a symbol. -/
theorem adjust_keeps (hdialect : dialect ∈ [Idiom.Java.dialect, Idiom.Apex.dialect]) :
    (dialect.adjust d p y).qualifiedName = y.qualifiedName ∧
      (dialect.adjust d p y).kind = y.kind := by
  rcases List.mem_pair.1 hdialect with rfl | rfl
  · exact ⟨rfl, rfl⟩
  · simp only [Idiom.Apex.dialect, Idiom.Apex.adjust]
    repeat' split
    all_goals exact ⟨rfl, rfl⟩

theorem emit_mem_typeSteps {kind : SymbolKind}
    (hdialect : dialect ∈ [Idiom.Java.dialect, Idiom.Apex.dialect]) (hkind : kind ∈ symbolKinds) :
    Step.emit y ∈ typeSteps dialect d s kind c ∧ y.kind ∈ symbolKinds ↔
      Step.first? (typeSteps dialect d s kind c) = some y := by
  unfold typeSteps
  cases d.fieldText c "name" with
  | none => simp [Step.first?]
  | some name =>
      simp only [List.mem_cons, Step.emit.injEq, Step.emit_notMem_visit?, or_false, Step.first?,
        Option.some.injEq]
      refine ⟨fun h => h.1.symm, fun h => ⟨h.symm, ?_⟩⟩
      rw [← h, (adjust_keeps d hdialect).2]
      exact hkind

theorem emit_mem_enumSteps :
    Step.emit y ∈ enumSteps dialect d s c ∧ y.kind ∈ symbolKinds ↔
      Step.first? (enumSteps dialect d s c) = some y := by
  unfold enumSteps
  cases d.fieldText c "name" with
  | none => simp [Step.first?]
  | some name =>
      simp only [List.mem_cons, Step.emit.injEq, Step.first?, Option.some.injEq]
      constructor
      · rintro ⟨rfl | h, hkind⟩
        · rfl
        · obtain ⟨m, -, h⟩ := List.mem_flatMap.1 h
          split at h
          · obtain ⟨constant, -, rfl⟩ := Option.map_eq_some_iff.1 (Step.emit_mem_emit?.1 h)
            simp [symbolKinds] at hkind
          · simp at h
          · cases h
      · rintro rfl
        exact ⟨Or.inl rfl, by simp [symbolKinds]⟩

/-- The steps for a place hand out a symbol of such a kind exactly if the place is a scope, and then
they hand it out first. -/
theorem emit_mem_childSteps (hdialect : dialect ∈ [Idiom.Java.dialect, Idiom.Apex.dialect]) :
    Step.emit y ∈ childSteps dialect d s c ∧ y.kind ∈ symbolKinds ↔
      c.kind ∈ scopeKinds ∧ Step.first? (childSteps dialect d s c) = some y := by
  unfold childSteps
  split
  case h_1 hc | h_2 hc | h_3 hc | h_4 hc =>
    rw [emit_mem_typeSteps d hdialect (by decide), hc]
    simp [scopeKinds, typeKinds]
  case h_5 hc =>
    rw [emit_mem_enumSteps d, hc]
    simp [scopeKinds, typeKinds]
  case h_6 hc | h_7 hc =>
    rw [Step.emit_mem_emit?, Step.first?_emit?, hc]
    refine and_comm.trans (and_congr_left fun h => ?_)
    obtain ⟨name, -, hy⟩ := Option.bind_eq_some_iff.1 h
    cases hy
    simp [symbolKinds, scopeKinds]
  -- Fields and constants have symbols of other kinds.
  case h_8 hc | h_9 hc =>
    rw [Step.emit_mem_emitAll, hc]
    refine iff_of_false (fun h => ?_) fun h => absurd h.1 (by decide)
    obtain ⟨h, hkind⟩ := h
    obtain ⟨v, -, h⟩ := List.mem_filterMap.1 h
    obtain ⟨name, -, hy⟩ := Option.bind_eq_some_iff.1 h
    cases hy
    rw [Document.symbol_kind] at hkind
    split at hkind <;> simp [symbolKinds] at hkind
  case h_10 hc =>
    rw [Step.emit_mem_emit?, hc]
    refine iff_of_false (fun h => ?_) fun h => absurd h.1 (by decide)
    obtain ⟨h, hkind⟩ := h
    obtain ⟨q, -, rfl⟩ := Option.map_eq_some_iff.1 h
    simp [symbolKinds] at hkind
  case h_11 =>
    simp [Step.first?]

/-- The scopes have just the symbols of a file that are of these kinds. -/
theorem exists_mem_scopes_iff (hdialect : dialect ∈ [Idiom.Java.dialect, Idiom.Apex.dialect])
    {root : Place} :
    (∃ c, (c, y) ∈ scopes dialect d root) ↔ y ∈ symbols dialect d root ∧ y.kind ∈ symbolKinds :=
  Rule.exists_mem_firsts_iff (P := fun y => y.kind ∈ symbolKinds) (rule_descends d)
    (fun _ _ => rule_eq_entries d) fun _ _ => emit_mem_childSteps d hdialect

/-- A symbol of a scope has the name of the declaration behind that of the scope around it. -/
theorem exists_name (hdialect : dialect ∈ [Idiom.Java.dialect, Idiom.Apex.dialect])
    (hkind : c.kind ∈ scopeKinds) (hy : Step.first? (childSteps dialect d s c) = some y) :
    ∃ name, d.fieldText c "name" = some name ∧
      y.qualifiedName = Text.qualify s.name name "." := by
  have htype : ∀ kind, Step.first? (typeSteps dialect d s kind c) = some y →
      ∃ name, d.fieldText c "name" = some name ∧
        y.qualifiedName = Text.qualify s.name name "." := by
    intro kind hy
    unfold typeSteps at hy
    split at hy
    · cases hy
    · rename_i name hname
      cases hy
      exact ⟨name, hname, (adjust_keeps d hdialect).1⟩
  unfold childSteps at hy
  split at hy
  case h_1 | h_2 | h_3 | h_4 => exact htype _ hy
  case h_5 =>
    unfold enumSteps at hy
    split at hy
    · cases hy
    · rename_i name hname
      cases hy
      exact ⟨name, hname, rfl⟩
  case h_6 =>
    rw [Step.first?_emit?] at hy
    obtain ⟨name, hname, hy⟩ := Option.bind_eq_some_iff.1 hy
    cases hy
    exact ⟨name, hname, rfl⟩
  case h_7 =>
    rw [Step.first?_emit?] at hy
    obtain ⟨name, hname, hy⟩ := Option.bind_eq_some_iff.1 hy
    cases hy
    exact ⟨name, hname, rfl⟩
  case h_8 hc | h_9 hc | h_10 hc => simp [scopeKinds, typeKinds, hc] at hkind
  case h_11 => cases hy

/-- The scopes have just the symbols of types, methods and constructors.  The walk for uses comes to
every such declaration that is not too deep, and carries the qualified name of its symbol into it,
and nothing else. -/
theorem scopes_match_names (hdialect : dialect ∈ [Idiom.Java.dialect, Idiom.Apex.dialect])
    (h : IsRegular tree) :
    (∀ y, (∃ c, (c, y) ∈ scopes dialect d (.root tree)) ↔
      y ∈ symbols dialect d (.root tree) ∧ y.kind ∈ symbolKinds) ∧
    ∀ f ∈ scopes dialect d (.root tree), ∀ scope,
      (Uses.Java.rule d).Carries .inside (.root tree) f.1 scope ↔
        f.1.level ≤ d.limits.walkDepth.toNat + 1 ∧ scope = some f.2.qualifiedName := by
  refine ⟨fun _ => exists_mem_scopes_iff d hdialect, ?_⟩
  intro f hf scope
  obtain ⟨⟨s, p⟩, hv, t, he, hkind, hy⟩ := Rule.mem_firsts.1 hf
  obtain ⟨-, rfl, hc⟩ := (mem_entries d).1 he
  obtain ⟨name, hname, hqualified⟩ := exists_name d hdialect hkind hy
  have hp := isOpen_of_mem_visits d h hv
  have hscope : f.1.scopeBy (ownScope d) = some f.2.qualifiedName := by
    rw [Place.scopeBy_of_mem_children hc, scope_of_named d hkind hname, ← hp.scope, hqualified]
  rw [(isScoped d).carries_iff (Place.mem_subtree_of_mem_children hp.ofTree hc)
    ((Place.avoids_of_mem_children hc).2 ⟨hp.avoids, notMem_closedKinds hkind⟩), hscope]

/-- An enum with a method in a class. -/
def methodOfEnum : Document :=
  { path := "A.java"
    bytes := Text.Utf8.encode
      "class A \x7b enum B \x7b X; void m() \x7b g(); \x7d \x7d \x7d\n".toList
    limits := {} }

/-- The tree of `methodOfEnum`. -/
def methodOfEnumTree : Node :=
  .mk "program" true [] 0 44
    [.mk "class_declaration" true [] 0 43
      [.token "class" 0 5, .leaf "identifier" ["name"] 6 7,
        .mk "class_body" true ["body"] 8 43
          [.token "\x7b" 8 9,
            .mk "enum_declaration" true [] 10 41
              [.token "enum" 10 14, .leaf "identifier" ["name"] 15 16,
                .mk "enum_body" true ["body"] 17 41
                  [.token "\x7b" 17 18,
                    .mk "enum_constant" true [] 19 20 [.leaf "identifier" ["name"] 19 20],
                    .mk "enum_body_declarations" true [] 20 39
                      [.token ";" 20 21,
                        .mk "method_declaration" true [] 22 39
                          [.leaf "void_type" ["type"] 22 26, .leaf "identifier" ["name"] 27 28,
                            .mk "formal_parameters" true ["parameters"] 28 30
                              [.token "(" 28 29, .token ")" 29 30],
                            .mk "block" true ["body"] 31 39
                              [.token "\x7b" 31 32,
                                .mk "expression_statement" true [] 33 37
                                  [.mk "method_invocation" true [] 33 36
                                    [.leaf "identifier" ["name"] 33 34,
                                      .mk "argument_list" true ["arguments"] 34 36
                                        [.token "(" 34 35, .token ")" 35 36]],
                                    .token ";" 36 37],
                                .token "\x7d" 38 39]]],
                    .token "\x7d" 40 41]],
            .token "\x7d" 42 43]]]

theorem methodOfEnum_scope :
    Idiom.Java.dialect ∈ [Idiom.Java.dialect, Idiom.Apex.dialect] ∧ IsRegular methodOfEnumTree ∧
      ∃ f ∈ scopes Idiom.Java.dialect methodOfEnum (.root methodOfEnumTree),
        (Uses.Java.rule methodOfEnum).Carries .inside (.root methodOfEnumTree) f.1
          (some "A.B.m") := by
  have hregular : IsRegular methodOfEnumTree := by
    unfold IsRegular
    decide +kernel
  have hscope : ∃ f ∈ scopes Idiom.Java.dialect methodOfEnum (.root methodOfEnumTree),
      f.1.level ≤ methodOfEnum.limits.walkDepth.toNat + 1 ∧ f.2.qualifiedName = "A.B.m" := by
    decide +kernel
  obtain ⟨f, hf, hlevel, hqualified⟩ := hscope
  obtain ⟨-, hscopes⟩ := scopes_match_names methodOfEnum List.mem_cons_self hregular
  refine ⟨List.mem_cons_self, hregular, f, hf, ?_⟩
  exact (hscopes f hf _).2 ⟨hlevel, congrArg some hqualified.symm⟩

end Declarations.Java

end SourceIndex
