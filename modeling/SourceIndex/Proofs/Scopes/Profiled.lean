import SourceIndex.Declarations.Profiled
import SourceIndex.Proofs.Profile
import SourceIndex.Proofs.Tree.Scoped
import SourceIndex.Uses.Profiled

/-!
# Scopes in languages that are read by a profile

The walk for declarations goes from a container to its body and does not look into functions, and
the walk for uses looks everywhere.  Both ask the profile what a place declares and how that is
named, and qualify it by the declarations around it.  So the uses in a declaration are attributed to
the qualified name of its symbol, whatever the language.
-/

namespace SourceIndex

namespace Profile

/-- The kind and the name of the declaration that a place is. -/
def declaration? (profile : Profile) (d : Document) (p : Place) : Option (SymbolKind × String) :=
  match profile.kind? p, profile.name? d p with
  | some kind, some name => some (kind, name)
  | _, _ => none

end Profile

namespace Uses.Profiled

variable (profile : Profile) (d : Document) {s t : Scope} {c q : Place}

/-- The document with the limit for languages that are read by a profile in place of the usual one.
-/
def profiledLimits (d : Document) : Document :=
  { d with limits := { d.limits with walkDepth := d.limits.genericDepth } }

/-- The scope in a place, given that in the place around it. -/
def ownScope (above : Option String) (p : Place) : Option String :=
  match profile.declaration? d p with
  | some (_, name) => some (Text.qualify above name ".")
  | none => above

/-- A child leads into itself and nowhere else. -/
theorem visit_childSteps_iff
    (hcalls : ∀ p : Place, p.isOneOf Vocabulary.calls = true → profile.kind? p = none) :
    Step.visit t q ∈ childSteps profile d s c ↔
      q = c ∧ t = ⟨ownScope profile d s.name c, s.depth + 1⟩ := by
  unfold childSteps ownScope Profile.declaration?
  split
  · rename_i hcall
    rw [hcalls c hcall]
    simp [Scope.deeper, and_comm, Step.visit_notMem_emit?]
  · cases profile.kind? c <;> cases profile.name? d c <;>
      simp [declarationSteps, Scope.deeper, Scope.enter, and_comm, Step.visit_notMem_emit?,
        Step.visit_notMem_emitAll]

theorem isScoped
    (hcalls : ∀ p : Place, p.isOneOf Vocabulary.calls = true → profile.kind? p = none) :
    Rule.IsScoped (rule profile d) (profiledLimits d) id (childSteps profile d)
      (ownScope profile d) [] where
  inside_inj := id
  rule_inside := fun s p => by
    rw [rule, Document.tooDeep]
    simp [profiledLimits]
  leads := fun h => by
    obtain ⟨rfl, rfl⟩ := (visit_childSteps_iff profile d hcalls).1 h
    exact ⟨Place.self_mem_subtree _, fun _ => ⟨rfl, rfl⟩⟩
  enters := fun _ => (visit_childSteps_iff profile d hcalls).2 ⟨rfl, rfl⟩
  others := fun {task _ _ _} _ => Or.inl ⟨task, rfl⟩

end Uses.Profiled

namespace Declarations.Profiled

open SourceIndex.Uses.Profiled (ownScope isScoped profiledLimits)

variable (profile : Profile) (d : Document)

/-- What the walk takes up at a place: its children. -/
def entries (s : Scope) (p : Place) : List (Scope × Place) :=
  if s.depth > d.limits.genericDepth.toNat then [] else p.children.map fun c => (s, c)

/-- The declarations of a file, each with its symbol. -/
def declarations (root : Place) : List (Place × Symbol) :=
  (rule profile d).heads (entries d) (childSteps profile d) (fun _ => true) {} root

/-- The body of a container is no declaration itself. -/
def IsRegular (tree : Node) : Prop :=
  ∀ p ∈ (Place.root tree).subtree, (profile.kind? p).any SymbolKind.isContainer = true →
    ∀ b ∈ Rules.body? p, profile.declaration? d b = none

variable {profile d} {s s' : Scope} {p c q b : Place} {tree : Node} {y : Symbol}

theorem mem_entries {t : Scope} : (t, c) ∈ entries d s p ↔
    ¬ s.depth > d.limits.genericDepth.toNat ∧ t = s ∧ c ∈ p.children := by
  unfold entries
  split
  · simp [*]
  · simp [*, eq_comm, and_comm]

theorem rule_eq_entries : rule profile d s p =
    (entries d s p).flatMap fun e => childSteps profile d e.1 e.2 := by
  rw [rule, entries]
  split
  · rfl
  · rw [List.flatMap_map]

/-! ## The walk through the bodies of containers -/

theorem childSteps_eq : childSteps profile d s c =
    match profile.declaration? d c with
    | some (kind, name) => declarationSteps profile d s kind name c
    | none => [.visit s.deeper c] := by
  unfold childSteps Profile.declaration?
  cases profile.kind? c <;> cases profile.name? d c <;> rfl

theorem kind?_of_declaration? {kind : SymbolKind} {name : String}
    (h : profile.declaration? d c = some (kind, name)) : profile.kind? c = some kind := by
  unfold Profile.declaration? at h
  split at h
  · cases h
    assumption
  · cases h

/-- The walk goes from a child that declares nothing into the child, and from a container into its
body, or else into the container. -/
theorem visit_childSteps (h : Step.visit s' b ∈ childSteps profile d s c) :
    (profile.declaration? d c = none ∧ s' = s.deeper ∧ b = c) ∨
      ∃ kind name, profile.declaration? d c = some (kind, name) ∧ kind.isContainer = true ∧
        s' = s.enter (Text.qualify s.name name ".") ∧ b = (Rules.body? c).getD c := by
  rw [childSteps_eq] at h
  split at h
  · rename_i kind name hdeclared
    refine Or.inr ⟨kind, name, hdeclared, ?_⟩
    unfold declarationSteps at h
    rcases List.mem_cons.1 h with h | h
    · cases h
    split at h
    · rename_i hkind
      rcases List.mem_append.1 h with h | h
      · exact absurd h (Step.visit_notMem_emitAll _)
      · cases List.mem_singleton.1 h
        exact ⟨hkind, rfl, rfl⟩
    · cases h
  · rename_i hdeclared
    cases List.mem_singleton.1 h
    exact Or.inl ⟨hdeclared, rfl, rfl⟩

theorem visit_rule (h : Step.visit s' b ∈ rule profile d s p) :
    ∃ c ∈ p.children, Step.visit s' b ∈ childSteps profile d s c := by
  rw [rule_eq_entries] at h
  obtain ⟨⟨t, c⟩, he, hstep⟩ := List.mem_flatMap.1 h
  obtain ⟨-, rfl, hc⟩ := mem_entries.1 he
  exact ⟨c, hc, hstep⟩

theorem mem_subtree_of_visit_childSteps (h : Step.visit s' b ∈ childSteps profile d s c) :
    b ∈ c.subtree := by
  obtain ⟨-, -, rfl⟩ | ⟨kind, name, -, -, -, rfl⟩ := visit_childSteps h
  · exact Place.self_mem_subtree b
  · cases hb : Rules.body? c with
    | none => exact Place.self_mem_subtree c
    | some b => exact Place.mem_subtree_of_child (Rules.mem_children_of_body? hb)

theorem rule_descends : (rule profile d).Descends := by
  intro s s' p b h
  obtain ⟨c, hc, h⟩ := visit_rule h
  exact Nat.lt_of_le_of_lt (Place.height_le_of_mem_subtree (mem_subtree_of_visit_childSteps h))
    (Place.height_lt_of_mem_children hc)

/-- A place to which the walk comes, in the scope in which the walk for uses looks at it. -/
structure IsOpen (profile : Profile) (d : Document) (tree : Node) (s : Scope) (p : Place) : Prop where
  ofTree : p ∈ (Place.root tree).subtree
  scope : s.name = p.scopeBy (ownScope profile d)

theorem IsOpen.child (hp : IsOpen profile d tree s p) (hc : c ∈ p.children) {s' : Scope}
    (hs : s'.name = ownScope profile d s.name c) : IsOpen profile d tree s' c := by
  refine ⟨Place.mem_subtree_of_mem_children hp.ofTree hc, ?_⟩
  rw [hs, hp.scope, Place.scopeBy_of_mem_children hc]

theorem isOpen_of_mem_visits (h : IsRegular profile d tree) {v : Scope × Place}
    (hv : v ∈ (rule profile d).visits {} (.root tree)) : IsOpen profile d tree v.1 v.2 := by
  refine Rule.forall_mem_visits rule_descends (P := IsOpen profile d tree) ?_
    ⟨Place.self_mem_subtree _, rfl⟩ v hv
  intro s s' p b hp hstep
  obtain ⟨c, hc, hstep⟩ := visit_rule hstep
  obtain ⟨hnone, rfl, rfl⟩ | ⟨kind, name, hsome, hkind, rfl, rfl⟩ := visit_childSteps hstep
  · exact hp.child hc (by rw [ownScope, hnone]; rfl)
  · have hcontainer : IsOpen profile d tree (s.enter (Text.qualify s.name name ".")) c :=
      hp.child hc (by rw [ownScope, hsome]; rfl)
    -- The walk for uses passes through the body of the container, which opens no scope of its own.
    cases hb : Rules.body? c with
    | none => exact hcontainer
    | some b =>
        have hplain := h c hcontainer.ofTree (by rw [kind?_of_declaration? hsome]; exact hkind) b hb
        exact hcontainer.child (Rules.mem_children_of_body? hb) (by rw [ownScope, hplain])

/-! ## The symbols of declarations -/

/-- A symbol of a declaration has its name behind that of the scope around it. -/
theorem exists_of_first?_childSteps (hy : Step.first? (childSteps profile d s c) = some y) :
    ∃ kind, profile.declaration? d c = some (kind, y.name) ∧
      y.qualifiedName = Text.qualify s.name y.name "." := by
  rw [childSteps_eq] at hy
  split at hy
  · rename_i kind name hdeclared
    cases hy
    exact ⟨kind, hdeclared, rfl⟩
  · cases hy

/-- The steps for a place hand out a symbol that is no property exactly if they hand it out first.
-/
theorem emit_mem_childSteps {language : String} :
    Step.emit y ∈ childSteps (.ofLanguage language) d s c ∧ y.kind ≠ .property ↔
      Step.first? (childSteps (.ofLanguage language) d s c) = some y := by
  rw [childSteps_eq]
  split
  · rename_i kind name hdeclared
    have hkind : kind ≠ .property := Profile.kind?_ne_property (kind?_of_declaration? hdeclared)
    unfold declarationSteps
    simp only [List.mem_cons, Step.emit.injEq, Step.first?, Option.some.injEq]
    constructor
    -- Behind its own symbol a container hands out properties only.
    · rintro ⟨rfl | h, hy⟩
      · rfl
      · split at h
        · rcases List.mem_append.1 h with h | h
          · obtain ⟨q, -, hq⟩ := Profile.exists_of_mem_properties (Step.emit_mem_emitAll.1 h)
            exact absurd hq.kind hy
          · cases List.mem_singleton.1 h
        · cases h
    · rintro rfl
      exact ⟨Or.inl rfl, hkind⟩
  · simp [Step.first?]

/-- The declarations have just the symbols of a file that are no properties. -/
theorem exists_mem_declarations_iff {language : String} {root : Place} :
    (∃ c, (c, y) ∈ declarations (.ofLanguage language) d root) ↔
      y ∈ symbols (.ofLanguage language) d root ∧ y.kind ≠ .property :=
  Rule.exists_mem_heads_iff (P := fun y => y.kind ≠ .property) rule_descends
    (fun _ _ => rule_eq_entries) fun t c => by
      rw [emit_mem_childSteps]
      exact (and_iff_right rfl).symm

variable (d)

/-- Whatever the language, the declarations have just the symbols that are no properties.  The walk
for uses comes to every declaration that is not too deep, and carries the qualified name of its
symbol into it, and nothing else. -/
theorem declarations_keep_names (language : String)
    (h : IsRegular (.ofLanguage language) d tree) :
    (∀ y, (∃ c, (c, y) ∈ declarations (.ofLanguage language) d (.root tree)) ↔
      y ∈ symbols (.ofLanguage language) d (.root tree) ∧ y.kind ≠ .property) ∧
    ∀ f ∈ declarations (.ofLanguage language) d (.root tree), ∀ scope,
      (Uses.Profiled.rule (.ofLanguage language) d).Carries id (.root tree) f.1 scope ↔
        f.1.level ≤ d.limits.genericDepth.toNat + 1 ∧ scope = some f.2.qualifiedName := by
  refine ⟨fun _ => exists_mem_declarations_iff, ?_⟩
  rintro ⟨c, y⟩ hf scope
  obtain ⟨⟨s, p⟩, hv, t, he, -, hy⟩ := Rule.mem_heads.1 hf
  obtain ⟨-, rfl, hc⟩ := mem_entries.1 he
  obtain ⟨kind, hdeclared, hqualified⟩ := exists_of_first?_childSteps hy
  have hp := isOpen_of_mem_visits h hv
  have hscope : c.scopeBy (ownScope (.ofLanguage language) d) = some y.qualifiedName := by
    rw [Place.scopeBy_of_mem_children hc, ← hp.scope, ownScope, hdeclared, hqualified]
  rw [(isScoped _ d fun _ => Profile.kind?_of_calls language).carries_iff
    (Place.mem_subtree_of_mem_children hp.ofTree hc) (Place.avoids_nil c), hscope]
  rfl

/-- A function in a class. -/
def functionOfClass : Document :=
  { path := "a.kt"
    bytes := Text.Utf8.encode "class A \x7b fun f() \x7b g() \x7d \x7d\n".toList
    limits := {} }

/-- The tree of `functionOfClass`. -/
def functionOfClassTree : Node :=
  .mk "source_file" true [] 0 28
    [.mk "class_declaration" true [] 0 27
      [.token "class" 0 5, .leaf "type_identifier" [] 6 7,
        .mk "class_body" true [] 8 27
          [.token "\x7b" 8 9,
            .mk "function_declaration" true [] 10 25
              [.token "fun" 10 13, .leaf "simple_identifier" [] 14 15,
                .mk "function_value_parameters" true [] 15 17 [.token "(" 15 16, .token ")" 16 17],
                .mk "function_body" true [] 18 25
                  [.token "\x7b" 18 19,
                    .mk "statements" true [] 20 23
                      [.mk "call_expression" true [] 20 23
                        [.leaf "simple_identifier" [] 20 21,
                          .mk "call_suffix" true [] 21 23
                            [.mk "value_arguments" true [] 21 23
                              [.token "(" 21 22, .token ")" 22 23]]]],
                    .token "\x7d" 24 25]],
            .token "\x7d" 26 27]]]

theorem functionOfClass_scopes :
    IsRegular (.ofLanguage "kotlin") functionOfClass functionOfClassTree ∧
      ∀ name ∈ ["A", "A.f"],
        ∃ f ∈ declarations (.ofLanguage "kotlin") functionOfClass (.root functionOfClassTree),
          f.2.qualifiedName = name ∧ (Uses.Profiled.rule (.ofLanguage "kotlin") functionOfClass).Carries
            id (.root functionOfClassTree) f.1 (some name) := by
  have hregular : IsRegular (.ofLanguage "kotlin") functionOfClass functionOfClassTree := by
    unfold IsRegular
    decide +kernel
  have hnames : ∀ name ∈ ["A", "A.f"],
      ∃ f ∈ declarations (.ofLanguage "kotlin") functionOfClass (.root functionOfClassTree),
        f.2.qualifiedName = name ∧
          f.1.level ≤ functionOfClass.limits.genericDepth.toNat + 1 := by
    decide +kernel
  refine ⟨hregular, fun name hname => ?_⟩
  obtain ⟨f, hf, rfl, hlevel⟩ := hnames name hname
  refine ⟨f, hf, rfl, ?_⟩
  obtain ⟨-, hscopes⟩ := declarations_keep_names functionOfClass "kotlin" hregular
  exact (hscopes f hf _).2 ⟨hlevel, rfl⟩

end Declarations.Profiled

end SourceIndex
