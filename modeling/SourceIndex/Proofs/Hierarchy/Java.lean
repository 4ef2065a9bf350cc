import SourceIndex.Declarations.Java
import SourceIndex.Proofs.Hierarchy.Owner
import SourceIndex.Proofs.Lines.Classes
import SourceIndex.Proofs.Scopes.Java

/-!
# Owners of Java and Apex

A type owns what its body declares, and an enum its constants.  Apex changes the symbols of types,
but neither what they are called nor where they stand, and its triggers belong to nothing.
-/

namespace SourceIndex

/-- Does the change of a dialect leave the names of a symbol and of its owner as they are? -/
def Idiom.Java.Dialect.KeepsNames (dialect : Idiom.Java.Dialect) : Prop :=
  ∀ d p y, (dialect.adjust d p y).qualifiedName = y.qualifiedName ∧
    (dialect.adjust d p y).parentName = y.parentName

theorem Idiom.Java.dialect_keepsNames : Idiom.Java.dialect.KeepsNames :=
  fun _ _ _ => ⟨rfl, rfl⟩

theorem Idiom.Apex.dialect_keepsNames : Idiom.Apex.dialect.KeepsNames := by
  intro d p y
  simp only [dialect, adjust]
  repeat' split
  all_goals exact ⟨rfl, rfl⟩

variable {d : Document} {all : List Symbol} {s : Scope} {owner : Option String}
  {p q c : Place} {y : Symbol}

namespace Declarations.Java

open Idiom.Java

variable {dialect : Dialect}

theorem span_adjust (hlines : dialect.KeepsLines) : (dialect.adjust d p y).span = y.span := by
  obtain ⟨hfirst, hlast⟩ := hlines d p y
  rw [Symbol.span, hfirst, hlast, Symbol.span]

/-- A changed symbol has the owner of the one that was changed. -/
theorem adjust_hasOwner (hlines : dialect.KeepsLines) (hnames : dialect.KeepsNames)
    (hy : y.HasOwner all) : (dialect.adjust d p y).HasOwner all := by
  rw [Symbol.HasOwner, span_adjust hlines, (hnames d p y).2]
  exact hy

/-- A changed symbol owns what the one that was changed would own. -/
theorem under_adjust (hlines : dialect.KeepsLines) (hnames : dialect.KeepsNames)
    (h : Under d all owner p) (hz : dialect.adjust d p y ∈ all) (hspan : y.span = d.span p)
    (hq : q ∈ p.subtree) : Under d all (some y.qualifiedName) q := by
  rw [← (hnames d p y).1]
  exact h.enter hz ((span_adjust hlines).trans hspan) hq

theorem nests_typeSteps (hlines : dialect.KeepsLines) (hnames : dialect.KeepsNames)
    (h : Under d all s.name p) (kind : SymbolKind) :
    Nests d all Scope.name (typeSteps dialect d s kind p) := by
  simp only [typeSteps]
  split
  · exact Step.keeps_nil
  · refine Step.keeps_emit_cons fun hz =>
      ⟨adjust_hasOwner hlines hnames (h.hasOwner_symbol rfl), ?_⟩
    refine Step.keeps_visit? fun body hbody => ?_
    exact under_adjust hlines hnames h hz Document.span_symbol
      (Place.mem_subtree_of_child (Place.mem_children_of_field? hbody))

theorem nests_enumSteps (h : Under d all s.name p) :
    Nests d all Scope.name (enumSteps dialect d s p) := by
  simp only [enumSteps]
  split
  · exact Step.keeps_nil
  · refine Step.keeps_emit_cons fun hz => ⟨h.hasOwner_symbol rfl, ?_⟩
    refine Step.keeps_flatMap fun c hc => ?_
    have hinside := h.enter hz Document.span_symbol (Place.mem_subtree_of_mem_fieldChildren hc)
    split
    · refine Step.keeps_emit? fun y hy => ?_
      obtain ⟨constant, -, rfl⟩ := Option.map_eq_some_iff.1 hy
      exact hinside.hasOwner_symbol rfl
    · exact Step.keeps_visit_cons hinside Step.keeps_nil
    · exact Step.keeps_nil

theorem nests_childSteps (hlines : dialect.KeepsLines) (hnames : dialect.KeepsNames)
    (h : Under d all s.name c) : Nests d all Scope.name (childSteps dialect d s c) := by
  unfold childSteps
  split
  · exact nests_typeSteps hlines hnames h _
  · exact nests_typeSteps hlines hnames h _
  · exact nests_typeSteps hlines hnames h _
  · exact nests_typeSteps hlines hnames h _
  · exact nests_enumSteps h
  · exact Step.keeps_emit? (h.forall_hasOwner method?_liesIn)
  · exact Step.keeps_emit? (h.forall_hasOwner constructor?_liesIn)
  · exact Step.keeps_emitAll fun _ => h.forall_hasOwner fields_lieIn
  · exact Step.keeps_emitAll fun _ => h.forall_hasOwner fields_lieIn
  · exact Step.keeps_emit? (h.unowned.forall_hasOwner package?_liesIn)
  · exact Step.keeps_nil

/-- The symbols of a file that name their owners have these owners among them. -/
theorem isHierarchy_symbols (hd : d.IsNumbered) (hlines : dialect.KeepsLines)
    (hnames : dialect.KeepsNames) {root : Place} (hroot : root.IsWellFormed) :
    IsHierarchy (symbols dialect d root) := by
  refine Rule.isHierarchy_walk (rule_descends d) Scope.name hd hroot rfl fun all s p h => ?_
  exact Step.keeps_ite_nil
    (Step.keeps_flatMap fun c hc => nests_childSteps hlines hnames (h.child hc))

end Declarations.Java

namespace Declarations.Apex

theorem trigger?_hasOwner : ∀ y ∈ trigger? d.fullText, y.HasOwner all := by
  intro y hy
  obtain ⟨m, -, hy⟩ := Option.bind_eq_some_iff.1 hy
  obtain ⟨name, -, hy⟩ := Option.bind_eq_some_iff.1 hy
  obtain ⟨object, -, hy⟩ := Option.bind_eq_some_iff.1 hy
  cases hy
  exact Symbol.hasOwner_of_none rfl

/-- The symbols of a file in Apex that name their owners have these owners among them, if the tree
to walk is well-formed. -/
theorem isHierarchy_symbols (hd : d.IsNumbered) {parse : Parser} {root : Option Place}
    (hroot : ∀ r ∈ Idiom.Apex.root? parse d root, r.IsWellFormed) :
    IsHierarchy (symbols parse d root) := by
  have htrigger : ∀ {all}, ∀ y ∈ if Idiom.Apex.isTrigger d.path then (trigger? d.fullText).toList
      else [], y.HasOwner all := by
    intro all y hy
    split at hy
    · exact trigger?_hasOwner y (Option.mem_toList.1 hy)
    · cases hy
  simp only [symbols]
  split
  · rename_i r hr
    refine List.forall_mem_append.2 ⟨htrigger, fun y hy => ?_⟩
    have hjava := Java.isHierarchy_symbols hd Idiom.Apex.dialect_keepsLines
      Idiom.Apex.dialect_keepsNames (hroot r hr)
    exact (hjava y hy).of_subset (List.subset_append_right _ _)
  · exact htrigger

end Declarations.Apex

end SourceIndex
