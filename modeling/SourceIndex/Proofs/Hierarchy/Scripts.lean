import SourceIndex.Proofs.Hierarchy.Owner
import SourceIndex.Proofs.Lines.Scripts
import SourceIndex.Proofs.Scopes.PHP
import SourceIndex.Proofs.Scopes.Python
import SourceIndex.Proofs.Scopes.Ruby

/-!
# Owners of PHP, Python and Ruby

What the body of a class declares belongs to the class.
-/

namespace SourceIndex

/-! ## Owners of PHP

A type owns the members in its body and the properties that its constructors promote, and an enum
its cases.  A namespace owns nothing: it only qualifies. -/

namespace Declarations.PHP

variable {d : Document} {all : List Symbol} {s : Setting} {scope : Option String} {p q c : Place}

theorem symbol_hasOwner (h : Under d all s.owner p) {name signature : String} {kind : SymbolKind} :
    (symbol d s p name kind signature).HasOwner all :=
  h.hasOwner_symbol rfl

/-- A type owns what is inside its place. -/
theorem under_symbol (h : Under d all scope p) {name signature : String} {kind : SymbolKind}
    (hz : symbol d s p name kind signature ∈ all) (hq : q ∈ p.subtree) :
    Under d all (some (s.qualify name)) q :=
  h.enter hz Document.span_symbol hq

theorem nests_typeSteps (h : Under d all s.owner p) (kind : SymbolKind) (keyword : String) :
    Nests d all Setting.owner (typeSteps d s kind keyword p) := by
  simp only [typeSteps]
  split
  · exact Step.keeps_nil
  · refine Step.keeps_emit_cons fun hz => ⟨symbol_hasOwner h, ?_⟩
    have hbody : ∀ body ∈ p.field? "body", Under d all (some (s.qualify _)) body :=
      fun body hbody =>
        under_symbol h hz (Place.mem_subtree_of_child (Place.mem_children_of_field? hbody))
    refine Step.keeps_append (Step.keeps_visit? hbody) (Step.keeps_emitAll fun _ => ?_)
    cases hfield : p.field? "body" with
    | none => exact List.forall_mem_nil _
    | some body => exact (hbody body hfield).forall_hasOwner promotedProperties_lieIn

theorem nests_enumSteps (h : Under d all s.owner p) :
    Nests d all Setting.owner (enumSteps d s p) := by
  simp only [enumSteps]
  split
  · exact Step.keeps_nil
  · refine Step.keeps_emit_cons fun hz => ⟨symbol_hasOwner h, ?_⟩
    have hbody : ∀ body ∈ p.field? "body", Under d all (some (s.qualify _)) body :=
      fun body hbody =>
        under_symbol h hz (Place.mem_subtree_of_child (Place.mem_children_of_field? hbody))
    refine Step.keeps_append (Step.keeps_emitAll fun _ y hy => ?_) (Step.keeps_visit? hbody)
    obtain ⟨c, hc, hy⟩ := List.mem_filterMap.1 hy
    cases hfield : p.field? "body" with
    | none =>
        rw [hfield] at hc
        cases hc
    | some body =>
        rw [hfield] at hc
        have hcase := (hbody body hfield).child (List.mem_filter.1 hc).1
        exact hcase.forall_hasOwner enumCase?_liesIn y hy

theorem nests_namespaceSteps (h : Under d all s.owner p) :
    Nests d all Setting.owner (namespaceSteps d s p) := by
  unfold namespaceSteps
  split
  · exact Step.keeps_nil
  · refine Step.keeps_emit_cons fun _ => ⟨Symbol.hasOwner_of_none rfl, ?_⟩
    refine Step.keeps_visit? fun body hbody => ?_
    exact (h.child (Place.mem_children_of_field? hbody)).unowned

theorem nests_childSteps (h : Under d all s.owner c) :
    Nests d all Setting.owner (childSteps d s c) := by
  unfold childSteps
  split
  · exact nests_namespaceSteps h
  · exact nests_typeSteps h _ _
  · exact nests_typeSteps h _ _
  · exact nests_typeSteps h _ _
  · exact nests_enumSteps h
  · exact Step.keeps_emit? (h.forall_hasOwner function?_liesIn)
  · exact Step.keeps_emit? (h.forall_hasOwner method?_liesIn)
  · exact Step.keeps_emitAll fun _ => h.forall_hasOwner properties_lieIn
  · exact Step.keeps_emitAll fun _ => h.forall_hasOwner constants_lieIn
  · exact Step.keeps_visit_cons h Step.keeps_nil
  · exact Step.keeps_visit_cons h Step.keeps_nil
  · exact Step.keeps_nil

/-- The symbols of a file in PHP that name their owners have these owners among them. -/
theorem isHierarchy_symbols (hd : d.IsNumbered) {root : Place} (hroot : root.IsWellFormed) :
    IsHierarchy (symbols d root) := by
  refine Rule.isHierarchy_walk (rule_descends d) Setting.owner hd hroot rfl fun all s p h => ?_
  rw [rule_eq_entries]
  refine Step.keeps_flatMap fun e he => ?_
  obtain ⟨-, hc, howner⟩ := (mem_entries d).1 he
  refine nests_childSteps ?_
  rw [howner]
  exact h.child hc

end Declarations.PHP

/-! ## Owners of Python

A class owns what its body declares, and the attributes that its constructor assigns.  A definition
starts with its decorators, and so does what it owns. -/

namespace Declarations.Python

variable {d : Document} {exports : Option (List String)} {all : List Symbol} {s : Scope}
  {outer p q c : Place}

/-- Is a find certain to be among all symbols?  An attribute may be dropped. -/
def Found.IsKept (all : List Symbol) : Found → Prop
  | .declared y => y ∈ all
  | .attribute _ => True

/-- Has the symbol of what was found its owner? -/
def Found.HasOwner (all : List Symbol) (f : Found) : Prop :=
  f.symbolOf.HasOwner all

/-- Steps that keep owners, of a walk of which attributes may be dropped later. -/
abbrev NestsFound (d : Document) (all : List Symbol) (steps : List (Step Scope Found)) : Prop :=
  Step.Keeps (Found.IsKept all) (Found.HasOwner all) (fun s p => Under d all s.name p) steps

theorem hasOwner_definition (h : Under d all s.name outer) (hp : p ∈ outer.subtree) {name : String}
    {kind : SymbolKind} {details : Symbol.Details} (hparent : details.parentName = s.name) :
    (Symbol.ofDetails name kind (d.startLine outer) (d.endLine p) details).HasOwner all := by
  refine h.hasOwner hparent ?_
  rw [Symbol.span_ofDetails]
  exact Document.span_covers_spanFrom h.numbered h.wellFormed hp

theorem nests_functionSteps (h : Under d all s.name outer) (hp : p ∈ outer.subtree) :
    NestsFound d all (functionSteps d exports s outer p) := by
  unfold functionSteps
  split
  · exact Step.keeps_nil
  · refine Step.keeps_emit_cons fun _ => ⟨hasOwner_definition h hp rfl, fun _ => ?_⟩
    refine List.forall_mem_map.2 fun y hy => ?_
    -- Only the constructor of a class declares attributes.
    split at hy
    · rename_i owner hname
      split at hy
      · exact (hname ▸ h.below hp).forall_hasOwner initAttributes_lieIn y hy
      · cases hy
    · cases hy

theorem nests_classSteps (h : Under d all s.name outer) (hp : p ∈ outer.subtree) :
    NestsFound d all (classSteps d exports s outer p) := by
  unfold classSteps
  split
  · exact Step.keeps_nil
  · refine Step.keeps_emit_cons fun hz => ⟨hasOwner_definition h hp rfl, ?_⟩
    refine Step.keeps_visit? fun body hbody => ?_
    have hbody := Place.mem_subtree_of_child (Place.mem_children_of_field? hbody)
    refine (h.below (Place.mem_subtree_trans hp hbody)).of_covers hz ?_
    rw [Symbol.span_ofDetails]
    exact Document.spanFrom_covers_span h.numbered h.wellFormed hp hbody

theorem nests_definitionSteps (h : Under d all s.name outer) (hp : p ∈ outer.subtree) :
    NestsFound d all (definitionSteps d exports s outer p) := by
  unfold definitionSteps
  split
  · exact nests_functionSteps h hp
  · exact nests_classSteps h hp
  · exact Step.keeps_nil

theorem nests_childSteps (h : Under d all s.name c) :
    NestsFound d all (childSteps d exports s c) := by
  have hassignments : NestsFound d all
      (((assignmentsOf c).filterMap (assignment? d exports s.name)).map fun a =>
        .emit (.declared a)) := by
    intro _
    refine List.forall_mem_map.2 fun y hy => ?_
    obtain ⟨p, hp, hy⟩ := List.mem_filterMap.1 hy
    have hinside := h.below (mem_subtree_of_mem_assignmentsOf hp)
    exact hinside.forall_hasOwner assignment?_liesIn y hy
  have hself := Place.self_mem_subtree c
  unfold childSteps
  split
  · exact nests_definitionSteps h hself
  · exact nests_definitionSteps h hself
  · cases hdefinition : c.field? "definition" with
    | none => exact Step.keeps_nil
    | some p =>
        have hp := Place.mem_subtree_of_child (Place.mem_children_of_field? hdefinition)
        exact nests_definitionSteps h hp
  · exact hassignments
  · exact hassignments
  · exact Step.keeps_nil

/-- The symbols of a file in Python that name their owners have these owners among them. -/
theorem isHierarchy_symbols (hd : d.IsNumbered) {root : Place} (hroot : root.IsWellFormed) :
    IsHierarchy (symbols d root) := by
  have hwalk : ∀ found ∈ (rule d (exportList d root)).walk {} root,
      found.HasOwner (symbols d root) := by
    refine Rule.forall_mem_walk_of_keeps rule_descends (E := Found.IsKept (symbols d root))
      (Q := fun s p => Under d (symbols d root) s.name p) (fun found hfound => ?_)
      (fun s p h => ?_) (Under.of_root hd hroot)
    · rcases found with y | y
      · exact mem_settleFrom_of_declared hfound
      · trivial
    · exact Step.keeps_ite_nil (Step.keeps_flatMap fun c hc => nests_childSteps (h.child hc))
  intro y hy
  obtain ⟨found, hfound, rfl⟩ := exists_of_mem_settleFrom hy
  exact hwalk found hfound

end Declarations.Python

/-! ## Owners of Ruby

A module or class owns what its body declares. -/

namespace Declarations.Ruby

variable {d : Document} {all : List Symbol} {s : Scope} {p c : Place}

theorem nests_namespaceSteps (h : Under d all s.name p) (kind : SymbolKind) :
    Nests d all Scope.name (namespaceSteps d s kind p) := by
  unfold namespaceSteps
  split
  · exact Step.keeps_nil
  · refine Step.keeps_emit_cons fun hz => ⟨h.hasOwner_symbol rfl, ?_⟩
    refine Step.keeps_visit_cons ?_ Step.keeps_nil
    exact h.enter hz Document.span_symbol (Place.mem_subtree_of_field?_getD p)

theorem nests_statementSteps (h : Under d all s.name c) (visibility : Visibility) :
    Nests d all Scope.name (statementSteps d s visibility c) := by
  unfold statementSteps
  split
  · exact nests_namespaceSteps h _
  · exact nests_namespaceSteps h _
  · exact Step.keeps_emit? (h.forall_hasOwner method?_liesIn)
  · exact Step.keeps_emit? (h.forall_hasOwner singletonMethod?_liesIn)
  · exact Step.keeps_emit? (h.forall_hasOwner constant?_liesIn)
  · exact Step.keeps_emitAll fun _ => h.forall_hasOwner accessors_lieIn
  · exact Step.keeps_nil

/-- The symbols of a file in Ruby that name their owners have these owners among them. -/
theorem isHierarchy_symbols (hd : d.IsNumbered) {root : Place} (hroot : root.IsWellFormed) :
    IsHierarchy (symbols d root) := by
  refine Rule.isHierarchy_walk rule_descends Scope.name hd hroot rfl fun all s p h => ?_
  rw [rule_eq_entries]
  refine Step.keeps_flatMap fun e he => ?_
  obtain ⟨hscope, q, hq, hc⟩ := exists_of_mem_entries h (fun hq hc _ => hq.child hc) he
  refine nests_statementSteps ?_ e.1.1
  rw [hscope]
  exact hq.child hc

end Declarations.Ruby

end SourceIndex
