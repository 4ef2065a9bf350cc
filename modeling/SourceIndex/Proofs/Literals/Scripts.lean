import SourceIndex.Proofs.Lines.Scripts
import SourceIndex.Proofs.Literals.Limit
import SourceIndex.Proofs.Scopes.PHP
import SourceIndex.Proofs.Scopes.Python
import SourceIndex.Proofs.Scopes.Ruby

/-!
# Literals of PHP, Python and Ruby

Of the three languages only Python measures what it keeps, and only in part.
-/

namespace SourceIndex

/-! ## Literals of PHP

Nothing is measured in PHP: properties, constants and the cases of an enum keep what they start
with, whatever it is. -/

namespace Declarations.PHP

variable {d : Document} {root p c : Place} {s : Setting}

/-- What one property of a declaration starts with. -/
def propertyValue? (d : Document) (element : Place) : Option String :=
  (d.fieldText element "default_value").or
    (d.text? ((element.childOf? "property_initializer").bind fun i => i.namedChildren.head?))

/-- What one constant of a declaration stands for. -/
def constantValue? (d : Document) (element : Place) : Option String :=
  (element.childOf? "name").bind fun name =>
    d.text? (element.namedChildren.filter fun c => c.index != name.index).getLast?

/-- What cases of enums, properties and constants start with is not measured. -/
def unmeasured (d : Document) (p : Place) : List String :=
  match p.kind with
  | "enum_case" => (d.fieldText p "value").toList
  | "property_element" => (propertyValue? d p).toList
  | "const_element" => (constantValue? d p).toList
  | _ => []

theorem enumCase?_isMeasured (hp : p ∈ root.subtree) (hkind : p.kind = "enum_case")
    {owner : String} : ∀ y ∈ enumCase? d owner p, y.IsMeasured d (unmeasured d) root := by
  intro y hy
  obtain ⟨name, -, rfl⟩ := Option.map_eq_some_iff.1 hy
  refine Symbol.isMeasured_symbol hp ?_
  exact Document.measures_of_unmeasured (Place.self_mem_subtree p)
    (by simp only [unmeasured, hkind])

theorem properties_areMeasured (hp : p ∈ root.subtree) {owner : Option String} :
    ∀ y ∈ properties d owner p, y.IsMeasured d (unmeasured d) root := by
  intro y hy
  obtain ⟨element, helement, hy⟩ := List.mem_filterMap.1 hy
  obtain ⟨raw, -, hy⟩ := Option.bind_eq_some_iff.1 hy
  cases hy
  obtain ⟨hinside, hkind⟩ := List.mem_filter.1 helement
  refine Symbol.isMeasured_symbol hp ?_
  exact Document.measures_of_unmeasured (Place.mem_subtree_of_child hinside)
    (by simp only [unmeasured, beq_iff_eq.1 hkind, propertyValue?])

theorem constants_areMeasured (hp : p ∈ root.subtree) :
    ∀ y ∈ constants d s p, y.IsMeasured d (unmeasured d) root := by
  intro y hy
  obtain ⟨element, helement, hy⟩ := List.mem_filterMap.1 hy
  obtain ⟨name, hname, hy⟩ := Option.bind_eq_some_iff.1 hy
  cases hy
  obtain ⟨hinside, hkind⟩ := List.mem_filter.1 helement
  refine Symbol.isMeasured_symbol hp ?_
  refine Document.measures_of_unmeasured (Place.mem_subtree_of_child hinside) ?_
  simp only [unmeasured, beq_iff_eq.1 hkind, constantValue?, hname, Option.bind_some]

theorem promotedProperties_areBare {owner : String} :
    ∀ y ∈ promotedProperties d owner p, y.IsBare := by
  intro y hy
  obtain ⟨parameters, -, hy⟩ := List.mem_flatMap.1 hy
  obtain ⟨parameter, -, hy⟩ := List.mem_filterMap.1 hy
  obtain ⟨modifier, -, hy⟩ := Option.bind_eq_some_iff.1 hy
  obtain ⟨sigil, -, hy⟩ := Option.bind_eq_some_iff.1 hy
  cases hy
  rfl

theorem staysMeasured_typeSteps (hp : p ∈ root.subtree) {kind : SymbolKind} {keyword : String} :
    StaysMeasured d (unmeasured d) root (typeSteps d s kind keyword p) := by
  simp only [typeSteps]
  split
  · exact Step.keeps_nil
  · refine Step.keeps_emit_cons fun _ => ⟨Symbol.isMeasured_of_isBare rfl, ?_⟩
    refine Step.keeps_append (Step.keeps_visit? fun b hb => ?_) (Step.keeps_emitAll fun _ => ?_)
    · exact Place.mem_subtree_of_field? hp hb
    · exact forall_mem_getD_map fun body y hy =>
        Symbol.isMeasured_of_isBare (promotedProperties_areBare y hy)

theorem staysMeasured_enumSteps (hp : p ∈ root.subtree) :
    StaysMeasured d (unmeasured d) root (enumSteps d s p) := by
  simp only [enumSteps]
  split
  · exact Step.keeps_nil
  · refine Step.keeps_emit_cons fun _ => ⟨Symbol.isMeasured_of_isBare rfl, ?_⟩
    have hbody : ∀ b ∈ p.field? "body", b ∈ root.subtree :=
      fun b hb => Place.mem_subtree_of_field? hp hb
    refine Step.keeps_append (Step.keeps_emitAll fun _ y hy => ?_) (Step.keeps_visit? hbody)
    obtain ⟨c, hc, hy⟩ := List.mem_filterMap.1 hy
    cases hfield : p.field? "body" with
    | none =>
        rw [hfield] at hc
        cases hc
    | some body =>
        rw [hfield] at hc
        obtain ⟨hc, hkind⟩ := List.mem_filter.1 hc
        have hinside := Place.mem_subtree_of_mem_children (hbody body hfield) hc
        exact enumCase?_isMeasured hinside (beq_iff_eq.1 hkind) y hy

theorem staysMeasured_namespaceSteps (hp : p ∈ root.subtree) :
    StaysMeasured d (unmeasured d) root (namespaceSteps d s p) := by
  unfold namespaceSteps
  split
  · exact Step.keeps_nil
  · refine Step.keeps_emit_cons fun _ => ⟨Symbol.isMeasured_of_isBare rfl, ?_⟩
    exact Step.keeps_visit? fun body hbody => Place.mem_subtree_of_field? hp hbody

theorem staysMeasured_childSteps (hc : c ∈ root.subtree) :
    StaysMeasured d (unmeasured d) root (childSteps d s c) := by
  unfold childSteps
  split
  · exact staysMeasured_namespaceSteps hc
  · exact staysMeasured_typeSteps hc
  · exact staysMeasured_typeSteps hc
  · exact staysMeasured_typeSteps hc
  · exact staysMeasured_enumSteps hc
  · refine Step.keeps_emit? fun y hy => ?_
    obtain ⟨name, -, rfl⟩ := Option.map_eq_some_iff.1 hy
    exact Symbol.isMeasured_of_isBare rfl
  · refine Step.keeps_emit? fun y hy => ?_
    obtain ⟨name, -, rfl⟩ := Option.map_eq_some_iff.1 hy
    exact Symbol.isMeasured_of_isBare rfl
  · exact Step.keeps_emitAll fun _ => properties_areMeasured hc
  · exact Step.keeps_emitAll fun _ => constants_areMeasured hc
  · exact Step.keeps_visit_cons hc Step.keeps_nil
  · exact Step.keeps_visit_cons hc Step.keeps_nil
  · exact Step.keeps_nil

/-- The literals of a file are those that nobody measures. -/
theorem symbols_areMeasured (root : Place) :
    ∀ y ∈ symbols d root, y.IsMeasured d (unmeasured d) root := by
  refine Rule.forall_isMeasured (rule_descends d) (fun s p hp => ?_) _
  rw [rule_eq_entries]
  refine Step.keeps_flatMap fun e he => ?_
  obtain ⟨-, hc, -⟩ := (mem_entries d).1 he
  exact staysMeasured_childSteps (Place.mem_subtree_of_mem_children hp hc)

end Declarations.PHP

/-! ## Literals of Python

The plain literals of properties are measured.  Numbers after signs are kept whatever their length,
and lists, tuples and dictionaries by a limit of their own. -/

namespace Declarations.Python

variable {d : Document} {exports : Option (List String)} {root outer p c : Place}
  {owner : Option String} {s : Scope}

/-- Numbers after signs, lists, tuples and dictionaries are not measured. -/
def unmeasured (d : Document) (p : Place) : List String :=
  if p.isOneOf ["unary_operator", "list", "tuple", "dictionary"] then (literal d p).toList else []

theorem literal_measures : d.Measures (unmeasured d) p (literal d p) := by
  by_cases hkind : p.isOneOf ["unary_operator", "list", "tuple", "dictionary"] = true
  · exact Document.measures_of_unmeasured (Place.self_mem_subtree p) (if_pos hkind)
  -- All other literals are kept for their size.
  · intro v hv
    left
    unfold literal at hv
    dsimp only at hv
    split at hv
    case h_8 hp | h_9 hp | h_10 hp | h_11 hp =>
      exact absurd (by simp [Place.isOneOf, hp]) hkind
    case h_12 => cases hv
    all_goals
      split at hv
      · cases hv
        assumption
      · cases hv

theorem property_isMeasured (hp : p ∈ root.subtree) {owner name : String} :
    (property d owner p name).IsMeasured d (unmeasured d) root := by
  refine Symbol.isMeasured_symbol hp ?_
  cases hright : p.field? "right" with
  | none => exact Document.measures_none
  | some right =>
      exact literal_measures.above
        (Place.mem_subtree_of_child (Place.mem_children_of_field? hright))

theorem initAttributes_areMeasured (hp : p ∈ root.subtree) {owner : String} :
    ∀ y ∈ initAttributes d p owner, y.IsMeasured d (unmeasured d) root := by
  intro y hy
  unfold initAttributes at hy
  split at hy
  · cases hy
  · rename_i body hbody
    obtain ⟨q, hq, hy⟩ := List.mem_filterMap.1 hy
    split at hy
    · obtain ⟨name, -, rfl⟩ := Option.map_eq_some_iff.1 hy
      have hbody := Place.mem_subtree_of_field? hp hbody
      exact property_isMeasured
        (Place.mem_subtree_trans hbody (Place.mem_subtree_of_mem_descendants hq))
    · cases hy

theorem assignment?_isMeasured (hp : p ∈ root.subtree) :
    ∀ y ∈ assignment? d exports owner p, y.IsMeasured d (unmeasured d) root := by
  intro y hy
  obtain ⟨left, -, hy⟩ := Option.bind_eq_some_iff.1 hy
  dsimp only at hy
  split at hy
  · cases hy
  · split at hy
    · cases hy
      exact property_isMeasured hp
    · cases hy
      exact Symbol.isMeasured_of_isBare rfl

/-- Steps that measure the literals of what they find, whether it counts or not. -/
abbrev StaysMeasured (d : Document) (root : Place) (steps : List (Step Scope Found)) : Prop :=
  Step.Keeps (fun _ => True) (fun found => found.symbolOf.IsMeasured d (unmeasured d) root)
    (fun _ q => q ∈ root.subtree) steps

theorem staysMeasured_functionSteps (hp : p ∈ root.subtree) :
    StaysMeasured d root (functionSteps d exports s outer p) := by
  unfold functionSteps
  split
  · exact Step.keeps_nil
  · refine Step.keeps_emit_cons fun _ => ⟨Symbol.isMeasured_of_isBare rfl, fun _ => ?_⟩
    refine List.forall_mem_map.2 fun y hy => ?_
    -- Only the constructor of a class declares attributes.
    split at hy
    · split at hy
      · exact initAttributes_areMeasured hp y hy
      · cases hy
    · cases hy

theorem staysMeasured_classSteps (hp : p ∈ root.subtree) :
    StaysMeasured d root (classSteps d exports s outer p) := by
  unfold classSteps
  split
  · exact Step.keeps_nil
  · refine Step.keeps_emit_cons fun _ => ⟨Symbol.isMeasured_of_isBare rfl, ?_⟩
    exact Step.keeps_visit? fun body hbody => Place.mem_subtree_of_field? hp hbody

theorem staysMeasured_definitionSteps (hp : p ∈ root.subtree) :
    StaysMeasured d root (definitionSteps d exports s outer p) := by
  unfold definitionSteps
  split
  · exact staysMeasured_functionSteps hp
  · exact staysMeasured_classSteps hp
  · exact Step.keeps_nil

theorem staysMeasured_childSteps (hc : c ∈ root.subtree) :
    StaysMeasured d root (childSteps d exports s c) := by
  have hassignments : StaysMeasured d root
      (((assignmentsOf c).filterMap (assignment? d exports s.name)).map fun a =>
        .emit (.declared a)) := by
    intro _
    refine List.forall_mem_map.2 fun y hy => ?_
    obtain ⟨p, hp, hy⟩ := List.mem_filterMap.1 hy
    have hinside := Place.mem_subtree_trans hc (mem_subtree_of_mem_assignmentsOf hp)
    exact assignment?_isMeasured hinside y hy
  unfold childSteps
  split
  · exact staysMeasured_definitionSteps hc
  · exact staysMeasured_definitionSteps hc
  · cases hdefinition : c.field? "definition" with
    | none => exact Step.keeps_nil
    | some p =>
        exact staysMeasured_definitionSteps (Place.mem_subtree_of_field? hc hdefinition)
  · exact hassignments
  · exact hassignments
  · exact Step.keeps_nil

/-- The literals of a file are measured, except for those that nobody measures. -/
theorem symbols_areMeasured (root : Place) :
    ∀ y ∈ symbols d root, y.IsMeasured d (unmeasured d) root := by
  intro y hy
  obtain ⟨found, hfound, rfl⟩ := exists_of_mem_settleFrom hy
  have hrule : ∀ s p, p ∈ root.subtree → StaysMeasured d root (rule d (exportList d root) s p) := by
    intro s p hp
    refine Step.keeps_ite_nil (Step.keeps_flatMap fun c hc => ?_)
    exact staysMeasured_childSteps (Place.mem_subtree_of_mem_children hp hc)
  exact Rule.forall_mem_walk_of_keeps rule_descends (fun _ _ => trivial) hrule
    (Place.self_mem_subtree root) found hfound

end Declarations.Python

/-! ## Literals of Ruby

Of the value of a constant the first 60 characters are kept, whatever the limit is. -/

namespace Declarations.Ruby

variable {d : Document} {root p c : Place} {owner : Option String} {s : Scope}

/-- The beginnings of what is assigned are not measured. -/
def unmeasured (d : Document) (p : Place) : List String :=
  if p.kind == "assignment" then ((d.fieldText p "right").map (Text.take 60)).toList else []

theorem constant?_isMeasured (hp : p ∈ root.subtree) (hkind : p.kind = "assignment") :
    ∀ y ∈ constant? d owner p, y.IsMeasured d (unmeasured d) root := by
  intro y hy
  obtain ⟨left, -, rfl⟩ := Option.map_eq_some_iff.1 hy
  refine Symbol.isMeasured_symbol hp ?_
  exact Document.measures_of_unmeasured (Place.self_mem_subtree p) (if_pos (beq_iff_eq.2 hkind))

theorem accessors_areBare : ∀ y ∈ accessors d owner p, y.IsBare := by
  intro y hy
  unfold accessors at hy
  split at hy
  · split at hy
    · obtain ⟨c, -, rfl⟩ := List.mem_map.1 hy
      rfl
    · cases hy
  · cases hy

theorem staysMeasured_namespaceSteps (hp : p ∈ root.subtree) {kind : SymbolKind} :
    StaysMeasured d (unmeasured d) root (namespaceSteps d s kind p) := by
  unfold namespaceSteps
  split
  · exact Step.keeps_nil
  · refine Step.keeps_emit_cons fun _ => ⟨Symbol.isMeasured_of_isBare rfl, ?_⟩
    exact Step.keeps_visit_cons
      (Place.mem_subtree_trans hp (Place.mem_subtree_of_field?_getD p)) Step.keeps_nil

theorem staysMeasured_statementSteps (hc : c ∈ root.subtree) {visibility : Visibility} :
    StaysMeasured d (unmeasured d) root (statementSteps d s visibility c) := by
  unfold statementSteps
  split
  · exact staysMeasured_namespaceSteps hc
  · exact staysMeasured_namespaceSteps hc
  · refine Step.keeps_emit? fun y hy => ?_
    obtain ⟨name, -, rfl⟩ := Option.map_eq_some_iff.1 hy
    exact Symbol.isMeasured_of_isBare rfl
  · refine Step.keeps_emit? fun y hy => ?_
    obtain ⟨name, -, rfl⟩ := Option.map_eq_some_iff.1 hy
    exact Symbol.isMeasured_of_isBare rfl
  · exact Step.keeps_emit? (constant?_isMeasured hc ‹_›)
  · exact Step.keeps_emitAll fun _ y hy => Symbol.isMeasured_of_isBare (accessors_areBare y hy)
  · exact Step.keeps_nil

/-- The literals of a file are those that nobody measures. -/
theorem symbols_areMeasured (root : Place) :
    ∀ y ∈ symbols d root, y.IsMeasured d (unmeasured d) root := by
  refine Rule.forall_isMeasured rule_descends (fun s p hp => ?_) _
  rw [rule_eq_entries]
  refine Step.keeps_flatMap fun e he => ?_
  obtain ⟨-, q, hq, hc⟩ := exists_of_mem_entries (P := fun q => q ∈ root.subtree) hp
    (fun hq hc _ => Place.mem_subtree_of_mem_children hq hc) he
  exact staysMeasured_statementSteps (Place.mem_subtree_of_mem_children hq hc)

end Declarations.Ruby

end SourceIndex
