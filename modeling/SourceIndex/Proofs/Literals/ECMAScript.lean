import SourceIndex.Proofs.Literals.Limit
import SourceIndex.Proofs.Scopes.ECMAScript

/-!
# Literals of JavaScript and TypeScript

The plain literals of fields and variables are measured.  Numbers after signs are kept whatever
their length, and so are the values that TypeScript gives to the members of an enum.
-/

namespace SourceIndex.Declarations

variable {d : Document} {root p c : Place} {kept : Place → List String}

namespace ECMAScript

variable {s : Setting} {owner : String} {scope : Option String}

/-- Numbers after signs are not measured. -/
def unmeasured (d : Document) (p : Place) : List String :=
  if p.kind == "unary_expression" then (literal d p).toList else []

theorem literal_measures : d.Measures (unmeasured d) p (literal d p) := by
  by_cases hkind : p.kind = "unary_expression"
  · exact Document.measures_of_unmeasured (Place.self_mem_subtree p)
      (if_pos (beq_iff_eq.2 hkind))
  -- All other literals are kept for their size.
  · intro v hv
    left
    unfold literal at hv
    dsimp only at hv
    split at hv
    case h_8 hp => exact absurd hp hkind
    case h_9 => cases hv
    all_goals
      split at hv
      · cases hv
        assumption
      · cases hv

/-- Is what is kept of a literal within the limit, or one of those texts that nobody measures? -/
def MeasuresLiterals (d : Document) (kept : Place → List String) : Prop :=
  ∀ p, d.Measures kept p (literal d p)

/-- The value of a field or a variable. -/
theorem value_measures (hliteral : MeasuresLiterals d kept) (p : Place) :
    d.Measures kept p ((p.field? "value").bind (literal d)) := by
  cases hvalue : p.field? "value" with
  | none => exact Document.measures_none
  | some value =>
      exact (hliteral value).above
        (Place.mem_subtree_of_child (Place.mem_children_of_field? hvalue))

theorem function?_isBare : ∀ y ∈ function? d s p, y.IsBare :=
  forall_mem_bind_some fun _ => rfl

theorem method?_isBare : ∀ y ∈ method? d owner p, y.IsBare :=
  forall_mem_bind_some fun _ => rfl

theorem exportSymbol?_isBare : ∀ y ∈ exportSymbol? d scope p, y.IsBare := by
  intro y hy
  obtain ⟨assignment, -, hy⟩ := Option.bind_eq_some_iff.1 hy
  obtain ⟨left, -, hy⟩ := Option.bind_eq_some_iff.1 hy
  obtain ⟨right, -, hy⟩ := Option.bind_eq_some_iff.1 hy
  dsimp only at hy
  split at hy
  · cases hy
  · obtain ⟨name, -, hy⟩ := Option.bind_eq_some_iff.1 hy
    cases hy
    rfl

theorem field?_isMeasured (hliteral : MeasuresLiterals d kept) (hp : p ∈ root.subtree) :
    ∀ y ∈ field? d owner p, y.IsMeasured d kept root := by
  intro y hy
  obtain ⟨name, -, hy⟩ := Option.bind_eq_some_iff.1 hy
  cases hy
  exact Symbol.isMeasured_symbol hp (value_measures hliteral p)

theorem membersOf_areMeasured (hliteral : MeasuresLiterals d kept) (hp : p ∈ root.subtree)
    {s : Scope} : ∀ y ∈ membersOf d s owner p, y.IsMeasured d kept root := by
  unfold membersOf
  cases hbody : p.field? "body" with
  | none => exact List.forall_mem_nil _
  | some body =>
      have hbody := Place.mem_subtree_of_field? hp hbody
      intro y hy
      rw [Option.map_some, Option.getD_some, members] at hy
      split at hy
      · cases hy
      · obtain ⟨m, hm, hy⟩ := List.mem_filterMap.1 hy
        have hm := Place.mem_subtree_of_mem_children hbody hm
        split at hy
        case h_7 => cases hy
        case h_1 | h_2 | h_3 => exact Symbol.isMeasured_of_isBare (method?_isBare y hy)
        all_goals exact field?_isMeasured hliteral hm y hy

theorem classSymbols_areMeasured (hliteral : MeasuresLiterals d kept)
    (hp : p ∈ root.subtree) : ∀ y ∈ classSymbols d s p, y.IsMeasured d kept root := by
  simp only [classSymbols]
  split
  · exact List.forall_mem_nil _
  · exact List.forall_mem_cons.2
      ⟨Symbol.isMeasured_of_isBare rfl, membersOf_areMeasured hliteral hp⟩

theorem variableSymbols_areMeasured (hliteral : MeasuresLiterals d kept)
    (hp : p ∈ root.subtree) {declaration : Place} {keyword : String} :
    ∀ y ∈ variableSymbols d s declaration keyword p, y.IsMeasured d kept root := by
  have hplain : ∀ {name}, ∀ y ∈ [plainVariable d s declaration keyword name p],
      y.IsMeasured d kept root := by
    intro name
    exact List.forall_mem_singleton.2 (Symbol.isMeasured_symbol hp (value_measures hliteral p))
  simp only [variableSymbols]
  split
  · exact List.forall_mem_nil _
  · split
    · exact hplain
    · rename_i value hvalue
      split
      case h_6 => exact hplain
      case h_5 =>
        have hvalue := Place.mem_subtree_of_field? hp hvalue
        exact List.forall_mem_cons.2
          ⟨Symbol.isMeasured_of_isBare rfl, membersOf_areMeasured hliteral hvalue⟩
      all_goals exact List.forall_mem_singleton.2 (Symbol.isMeasured_of_isBare rfl)

theorem declarators_areMeasured (hliteral : MeasuresLiterals d kept) (hp : p ∈ root.subtree) :
    ∀ y ∈ declarators d s p, y.IsMeasured d kept root := by
  refine List.forall_mem_flatMap.2 fun v hv => ?_
  exact variableSymbols_areMeasured hliteral
    (Place.mem_subtree_of_mem_children hp (List.mem_filter.1 hv).1)

theorem staysMeasured_childSteps (hliteral : MeasuresLiterals d kept)
    (hc : c ∈ root.subtree) : StaysMeasured d kept root (childSteps d s c) := by
  unfold childSteps
  split
  · exact Step.keeps_emit? fun y hy => Symbol.isMeasured_of_isBare (function?_isBare y hy)
  · exact Step.keeps_emit? fun y hy => Symbol.isMeasured_of_isBare (function?_isBare y hy)
  · exact Step.keeps_emitAll fun _ => classSymbols_areMeasured hliteral hc
  · exact Step.keeps_emitAll fun _ => classSymbols_areMeasured hliteral hc
  · exact Step.keeps_emitAll fun _ => classSymbols_areMeasured hliteral hc
  · exact Step.keeps_emitAll fun _ => declarators_areMeasured hliteral hc
  · exact Step.keeps_emitAll fun _ => declarators_areMeasured hliteral hc
  · exact Step.keeps_visit_cons hc Step.keeps_nil
  · exact Step.keeps_emit? fun y hy => Symbol.isMeasured_of_isBare (exportSymbol?_isBare y hy)
  · exact Step.keeps_visit_cons hc Step.keeps_nil

/-- Does a dialect measure the literals of its further declarations, or leave them unmeasured? -/
def Dialect.StaysMeasured (dialect : Dialect) (d : Document) (kept : Place → List String) : Prop :=
  ∀ {root s p steps}, dialect d s p = some steps → p ∈ root.subtree →
    SourceIndex.StaysMeasured d kept root steps

/-- The literals of a file are measured, except for those that nobody measures. -/
theorem symbols_areMeasured {dialect : Dialect} (hplain : dialect.IsPlain)
    (hdialect : dialect.StaysMeasured d kept) (hliteral : MeasuresLiterals d kept)
    (root : Place) : ∀ y ∈ symbols d dialect root, y.IsMeasured d kept root := by
  refine Rule.forall_isMeasured (rule_descends d hplain) (fun s p hp => ?_) _
  refine Step.keeps_ite_nil (Step.keeps_flatMap fun c hc => ?_)
  have hc := Place.mem_subtree_of_mem_children hp hc
  cases hsteps : dialect d s c with
  | some steps => exact hdialect hsteps hc
  | none => exact staysMeasured_childSteps hliteral hc

theorem javascript_staysMeasured (d : Document) (kept : Place → List String) :
    Dialect.StaysMeasured javascript d kept :=
  nofun

end ECMAScript

namespace TypeScript

open ECMAScript (Setting)

variable {s : Setting} {owner : String}

/-- Values of the members of enums are not measured, nor is what JavaScript does not measure. -/
def unmeasured (d : Document) (p : Place) : List String :=
  if p.kind == "enum_assignment" then (d.fieldText p "value").toList
  else ECMAScript.unmeasured d p

theorem measuresLiterals (d : Document) :
    ECMAScript.MeasuresLiterals d (unmeasured d) := by
  intro p v hv
  rcases ECMAScript.literal_measures v hv with hsize | ⟨q, hq, hv⟩
  · exact Or.inl hsize
  -- A number after a sign is no member of an enum, so TypeScript does not measure it either.
  · refine Or.inr ⟨q, hq, ?_⟩
    have hkind : ¬ (q.kind == "enum_assignment") = true := by
      intro hkind
      have hother : ¬ (q.kind == "unary_expression") = true := by
        rw [beq_iff_eq.1 hkind]
        decide
      rw [ECMAScript.unmeasured, if_neg hother] at hv
      cases hv
    rw [unmeasured, if_neg hkind]
    exact hv

theorem interfaceMember?_isBare : ∀ y ∈ interfaceMember? d owner p, y.IsBare := by
  intro y hy
  obtain ⟨name, -, hy⟩ := Option.bind_eq_some_iff.1 hy
  split at hy
  · cases hy
    rfl
  · cases hy
    rfl
  · cases hy

theorem interfaceSymbols_areBare : ∀ y ∈ interfaceSymbols d s p, y.IsBare := by
  simp only [interfaceSymbols]
  split
  · exact List.forall_mem_nil _
  · refine List.forall_mem_cons.2 ⟨rfl, fun y hy => ?_⟩
    obtain ⟨m, -, hy⟩ := List.mem_filterMap.1 hy
    exact interfaceMember?_isBare y hy

theorem typeAlias?_isBare : ∀ y ∈ typeAlias? d s p, y.IsBare :=
  forall_mem_bind_some fun _ => rfl

theorem enumMember?_isMeasured (hp : p ∈ root.subtree) :
    ∀ y ∈ enumMember? d owner p, y.IsMeasured d (unmeasured d) root := by
  intro y hy
  unfold enumMember? at hy
  split at hy
  case h_1 =>
    cases hy
    exact Symbol.isMeasured_of_isBare rfl
  case h_2 hkind =>
    obtain ⟨name, -, rfl⟩ := Option.map_eq_some_iff.1 hy
    refine Symbol.isMeasured_symbol hp ?_
    exact Document.measures_of_unmeasured (Place.self_mem_subtree p)
      (if_pos (beq_iff_eq.2 hkind))
  case h_3 => cases hy

theorem enumSymbols_areMeasured (hp : p ∈ root.subtree) :
    ∀ y ∈ enumSymbols d s p, y.IsMeasured d (unmeasured d) root := by
  simp only [enumSymbols]
  split
  · exact List.forall_mem_nil _
  · refine List.forall_mem_cons.2 ⟨Symbol.isMeasured_of_isBare rfl, fun y hy => ?_⟩
    obtain ⟨m, hm, hy⟩ := List.mem_filterMap.1 hy
    exact enumMember?_isMeasured
      (Place.mem_subtree_trans hp (Place.mem_subtree_of_mem_fieldChildren hm)) y hy

theorem staysMeasured_namespaceSteps (hp : p ∈ root.subtree) :
    StaysMeasured d (unmeasured d) root (namespaceSteps d s p) := by
  unfold namespaceSteps
  split
  · exact Step.keeps_nil
  · refine Step.keeps_emit_cons fun _ => ⟨Symbol.isMeasured_of_isBare rfl, ?_⟩
    exact Step.keeps_visit? fun body hbody => Place.mem_subtree_of_field? hp hbody

theorem typescript_staysMeasured (d : Document) :
    ECMAScript.Dialect.StaysMeasured typescript d (unmeasured d) := by
  intro root s p steps hsteps hp
  unfold typescript at hsteps
  split at hsteps
  · cases hsteps
    exact Step.keeps_emitAll fun _ y hy =>
      Symbol.isMeasured_of_isBare (interfaceSymbols_areBare y hy)
  · cases hsteps
    exact Step.keeps_emit? fun y hy => Symbol.isMeasured_of_isBare (typeAlias?_isBare y hy)
  · cases hsteps
    exact Step.keeps_emitAll fun _ => enumSymbols_areMeasured hp
  · cases hsteps
    exact staysMeasured_namespaceSteps hp
  · cases hsteps
    exact staysMeasured_namespaceSteps hp
  -- The statement itself declares nothing, but a namespace in it does.
  · obtain ⟨m, hm, rfl⟩ := Option.map_eq_some_iff.1 hsteps
    exact staysMeasured_namespaceSteps
      (Place.mem_subtree_of_mem_children hp (Place.mem_children_of_childOf? hm))
  · cases hsteps

end TypeScript

end SourceIndex.Declarations
