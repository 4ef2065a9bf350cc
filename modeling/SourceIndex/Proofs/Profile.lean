import SourceIndex.Profile.Languages
import SourceIndex.Proofs.Tree.Emission

/-!
# What profiles find

Whatever the language, a profile takes no call for a declaration, the properties of a container
stand at places inside it, and what types inherit from and adopt are edges from one type to another.
-/

namespace SourceIndex

namespace Rules

variable {d : Document} {rules : Rules} {owner : String} {p q b : Place} {y : Symbol}

theorem mem_children_of_body? (h : body? p = some b) : b ∈ p.children := by
  rcases Option.or_eq_some_iff.1 h with h | ⟨-, h⟩
  · exact Place.mem_children_of_field? h
  · exact Place.mem_children_of_childOfAny? h

theorem mem_subtree_of_body?_getD : (body? p).getD p ∈ p.subtree := by
  cases hb : body? p with
  | none => exact Place.self_mem_subtree p
  | some b => exact Place.mem_subtree_of_child (mem_children_of_body? hb)

/-- Is a symbol one of a property of a class, which stands at a place? -/
def IsPropertyAt (d : Document) (owner : String) (q : Place) (y : Symbol) : Prop :=
  ∃ name signature visibility initial,
    y = Rules.property d owner q name signature visibility initial

theorem IsPropertyAt.kind (h : IsPropertyAt d owner q y) : y.kind = .property := by
  obtain ⟨name, signature, visibility, initial, rfl⟩ := h
  rfl

theorem mem_subtree_of_unwrap? {kind : String} (h : unwrap? kind p = some q) : q ∈ p.subtree := by
  unfold unwrap? at h
  split at h
  · cases h
    exact Place.self_mem_subtree p
  · split at h
    · exact Place.mem_subtree_of_child (Place.mem_children_of_childOf? h)
    · cases h

theorem exists_of_property? {rule : PropertyRule} (h : property? d rule owner p = some y) :
    ∃ q ∈ p.subtree, IsPropertyAt d owner q y := by
  obtain ⟨q, hq, h⟩ := Option.bind_eq_some_iff.1 h
  obtain ⟨name, -, h⟩ := Option.bind_eq_some_iff.1 h
  refine ⟨q, mem_subtree_of_unwrap? hq, ?_⟩
  cases h
  split <;> exact ⟨_, _, _, _, rfl⟩

theorem exists_of_mem_properties (h : y ∈ rules.properties d owner b) :
    ∃ q ∈ b.subtree, IsPropertyAt d owner q y := by
  unfold properties at h
  split at h
  · obtain ⟨c, hc, h⟩ := List.mem_filterMap.1 h
    obtain ⟨q, hq, hy⟩ := exists_of_property? h
    exact ⟨q, Place.mem_subtree_trans (Place.mem_subtree_of_child hc) hq, hy⟩
  · cases h

/-- The kinds of references from a type to what it inherits from or adopts. -/
def edgeKinds : List ReferenceKind :=
  [.inherits, .implements, .usesTrait]

/-- Is a reference one from a type to what it inherits from or adopts? -/
def IsEdge (d : Document) (r : Reference) : Prop :=
  ∃ kind target q owner, kind ∈ edgeKinds ∧ r = d.reference kind target q (some owner)

theorem IsEdge.kind_mem {r : Reference} (h : IsEdge d r) : r.kind ∈ edgeKinds := by
  obtain ⟨kind, target, q, owner, hkind, rfl⟩ := h
  exact hkind

theorem isEdge_of_edge? {kind : ReferenceKind} {target : String} (hkind : kind ∈ edgeKinds) :
    ∀ r ∈ edge? d kind p owner target, IsEdge d r := by
  simp only [edge?]
  split
  · exact forall_mem_none
  · rintro _ ⟨⟩
    exact ⟨kind, _, p, owner, hkind, rfl⟩

theorem isEdge_of_mem_inherited {rule : Superclasses} :
    ∀ r ∈ inherited d rule owner p, IsEdge d r :=
  forall_mem_filterMap fun _ => isEdge_of_edge? (by decide)

theorem isEdge_of_mem_adopted {rule : Adoption} : ∀ r ∈ adopted d rule owner p, IsEdge d r := by
  cases rule with
  | statement kind name =>
      refine forall_mem_filterMap fun s r hr => ?_
      obtain ⟨target, -, hr⟩ := Option.bind_eq_some_iff.1 hr
      exact isEdge_of_edge? (by decide) r hr
  | clause kind name => exact forall_mem_filterMap fun _ => isEdge_of_edge? (by decide)
  | block kind traitField typeField => exact List.forall_mem_nil _

theorem isEdge_of_mem_heritage : ∀ r ∈ rules.heritage d owner p, IsEdge d r := by
  refine List.forall_mem_append.2 ⟨?_, ?_⟩
  · exact forall_mem_getD_map fun _ => isEdge_of_mem_inherited
  · exact forall_mem_getD_map fun _ => isEdge_of_mem_adopted

theorem isEdge_of_blockHeritage? : ∀ r ∈ rules.blockHeritage? d p, IsEdge d r := by
  unfold blockHeritage?
  split
  · split
    · intro r hr
      obtain ⟨target, -, hr⟩ := Option.bind_eq_some_iff.1 hr
      obtain ⟨owner, -, hr⟩ := Option.bind_eq_some_iff.1 hr
      exact isEdge_of_edge? (by decide) r hr
    · exact forall_mem_none
  · exact forall_mem_none

end Rules

namespace Profile

variable {d : Document} {language owner : String} {p q : Place} {y : Symbol}

/-! ## Properties -/

namespace Kotlin

theorem isPropertyAt_of_parameterProperty? (h : parameterProperty? d owner p = some y) :
    Rules.IsPropertyAt d owner p y := by
  obtain ⟨word, -, h⟩ := Option.bind_eq_some_iff.1 h
  obtain ⟨nameNode, -, h⟩ := Option.bind_eq_some_iff.1 h
  dsimp only at h
  split at h
  · cases h
    exact ⟨_, _, _, _, rfl⟩
  · cases h

theorem exists_of_mem_properties (h : y ∈ properties d owner p) :
    ∃ q ∈ p.subtree, Rules.IsPropertyAt d owner q y := by
  rcases List.mem_append.1 h with h | h
  · cases hb : Rules.body? p with
    | none =>
        rw [hb] at h
        cases h
    | some b =>
        rw [hb, Option.map_some, Option.getD_some] at h
        obtain ⟨q, hq, hy⟩ := Rules.exists_of_mem_properties h
        exact ⟨q, Place.mem_subtree_trans
          (Place.mem_subtree_of_child (Rules.mem_children_of_body? hb)) hq, hy⟩
  -- The parameters stand in the primary constructor, which is a child.
  · obtain ⟨q, hq, h⟩ := List.mem_filterMap.1 h
    refine ⟨q, ?_, isPropertyAt_of_parameterProperty? h⟩
    have hq := (List.mem_filter.1 hq).1
    split at hq
    · cases hconstructor : p.childOf? "primary_constructor" with
      | none =>
          rw [hconstructor] at hq
          cases hq
      | some constructor =>
          rw [hconstructor] at hq
          exact Place.mem_subtree_trans
            (Place.mem_subtree_of_child (Place.mem_children_of_childOf? hconstructor))
            (Place.mem_subtree_of_mem_descendants hq)
    · cases hq

end Kotlin

namespace Swift

theorem exists_of_mem_properties (h : y ∈ properties d owner p) :
    ∃ q ∈ p.subtree, Rules.IsPropertyAt d owner q y := by
  obtain ⟨q, hq, h⟩ := List.mem_filterMap.1 h
  refine ⟨q, ?_, ?_⟩
  · exact Place.mem_subtree_of_mem_children Rules.mem_subtree_of_body?_getD
      (List.mem_filter.1 hq).1
  · obtain ⟨name, -, rfl⟩ := Option.map_eq_some_iff.1 h
    exact ⟨_, _, _, _, rfl⟩

end Swift

/-- The properties of a container stand at places inside it. -/
theorem exists_of_mem_properties (h : y ∈ (ofLanguage language).properties d owner p) :
    ∃ q ∈ p.subtree, Rules.IsPropertyAt d owner q y := by
  unfold ofLanguage at h
  split at h
  · exact Kotlin.exists_of_mem_properties h
  · exact Swift.exists_of_mem_properties h
  · obtain ⟨q, hq, hy⟩ := Rules.exists_of_mem_properties h
    exact ⟨q, Place.mem_subtree_trans Rules.mem_subtree_of_body?_getD hq, hy⟩

/-! ## What types inherit from and adopt -/

theorem Kotlin.isEdge_of_mem_heritage {kind : SymbolKind} :
    ∀ r ∈ Kotlin.heritage d kind owner p, Rules.IsEdge d r := by
  unfold Kotlin.heritage
  split
  · refine forall_mem_filterMap fun spec r hr => ?_
    obtain ⟨target, -, hr⟩ := Option.bind_eq_some_iff.1 hr
    exact Rules.isEdge_of_edge? (by split <;> decide) r hr
  · exact Rules.isEdge_of_mem_heritage

theorem Swift.isEdge_of_mem_heritage {kind : SymbolKind} :
    ∀ r ∈ Swift.heritage d kind owner p, Rules.IsEdge d r := by
  refine forall_mem_filterMap fun spec r hr => ?_
  obtain ⟨target, -, hr⟩ := Option.bind_eq_some_iff.1 hr
  exact Rules.isEdge_of_edge? (by split <;> decide) r hr

theorem isEdge_of_mem_heritage {kind : SymbolKind} :
    ∀ r ∈ (ofLanguage language).heritage d kind owner p, Rules.IsEdge d r := by
  unfold ofLanguage
  split
  · exact Kotlin.isEdge_of_mem_heritage
  · exact Swift.isEdge_of_mem_heritage
  · exact Rules.isEdge_of_mem_heritage

theorem isEdge_of_blockHeritage? :
    ∀ r ∈ (ofLanguage language).blockHeritage? d p, Rules.IsEdge d r := by
  unfold ofLanguage
  split
  · exact forall_mem_none
  · exact forall_mem_none
  · exact Rules.isEdge_of_blockHeritage?

/-! ## Kinds -/

/-- No kind of calls is one of declarations. -/
theorem kind?_of_calls (language : String) (hp : p.isOneOf Vocabulary.calls = true) :
    (ofLanguage language).kind? p = none := by
  have hkind : p.kind ∈ Vocabulary.calls := List.contains_iff_mem.1 hp
  simp only [Vocabulary.calls, List.mem_cons, List.not_mem_nil, or_false] at hkind
  have hvocabulary : Vocabulary.declared? p.kind = none := by
    rcases hkind with hkind | hkind | hkind <;> rw [hkind] <;> decide
  have hprofile : (ofLanguage language).declared? p = none := by
    unfold ofLanguage
    split
    · rcases hkind with hkind | hkind | hkind <;> simp [kotlin, Kotlin.declared?, hkind]
    · rcases hkind with hkind | hkind | hkind <;> simp [swift, Swift.declared?, hkind]
    · rfl
  rw [kind?, hprofile, hvocabulary]
  rfl

/-- No declaration is a property by its kind. -/
theorem kind?_ne_property {kind : SymbolKind}
    (h : (ofLanguage language).kind? p = some kind) : kind ≠ .property := by
  have hvocabulary : Vocabulary.declared? p.kind = some kind → kind ≠ .property := by
    unfold Vocabulary.declared?
    repeat' split
    all_goals
      rintro h rfl
      cases h
  have hkotlin : Kotlin.declared? p = some kind → kind ≠ .property := by
    unfold Kotlin.declared?
    repeat' split
    all_goals
      rintro h rfl
      cases h
  have hswift : Swift.declared? p = some kind → kind ≠ .property := by
    unfold Swift.declared?
    repeat' split
    all_goals
      rintro h rfl
      cases h
  rcases Option.or_eq_some_iff.1 h with h | ⟨-, h⟩
  · unfold ofLanguage at h
    split at h
    · exact hkotlin h
    · exact hswift h
    · cases h
  · exact hvocabulary h

end Profile

end SourceIndex
