import SourceIndex.Declarations.Java
import SourceIndex.Proofs.Literals.Limit
import SourceIndex.Proofs.Scopes.CSharp

/-!
# Literals of Java, Apex and C#

Fields keep the literals that they start with: measured in Java and Apex, and as they are in C#.
-/

namespace SourceIndex

/-! ## Literals of Java and Apex

Only fields keep literals, and the literal of a field is measured.  Apex changes the symbols of
types, but not what they keep. -/

section

variable {d : Document} {s : Scope} {owner : Option String} {p c : Place}

/-- Does the change of a dialect leave the literals of symbols as they are? -/
def Idiom.Java.Dialect.KeepsLiterals (dialect : Idiom.Java.Dialect) : Prop :=
  ∀ d p y, (dialect.adjust d p y).defaultValue = y.defaultValue

theorem Idiom.Java.dialect_keepsLiterals : Idiom.Java.dialect.KeepsLiterals :=
  fun _ _ _ => rfl

theorem Idiom.Apex.dialect_keepsLiterals : Idiom.Apex.dialect.KeepsLiterals := by
  intro d p y
  simp only [dialect, adjust]
  repeat' split
  all_goals rfl

namespace Declarations.Java

variable {dialect : Idiom.Java.Dialect}

theorem method?_isWithin : ∀ y ∈ method? dialect d owner p, y.IsWithin d.limits :=
  forall_mem_bind_some fun _ => Symbol.isWithin_of_isBare rfl

theorem constructor?_isWithin : ∀ y ∈ constructor? dialect d owner p, y.IsWithin d.limits :=
  forall_mem_bind_some fun _ => Symbol.isWithin_of_isBare rfl

theorem package?_isWithin : ∀ y ∈ package? d p, y.IsWithin d.limits := by
  intro y hy
  obtain ⟨path, -, rfl⟩ := Option.map_eq_some_iff.1 hy
  exact Symbol.isWithin_of_isBare rfl

/-- The literal that a field starts with is measured. -/
theorem fields_areWithin : ∀ y ∈ fields dialect d owner p, y.IsWithin d.limits := by
  intro y hy
  obtain ⟨v, -, hy⟩ := List.mem_filterMap.1 hy
  obtain ⟨name, -, hy⟩ := Option.bind_eq_some_iff.1 hy
  cases hy
  exact Symbol.isWithin_of_filter rfl

theorem typeSteps_areWithin (hdialect : dialect.KeepsLiterals) {kind : SymbolKind} :
    Step.Emits (Symbol.IsWithin d.limits) (typeSteps dialect d s kind p) := by
  simp only [typeSteps]
  split
  · exact Step.emits_nil
  · have hbare : ∀ y : Symbol, y.IsBare → (dialect.adjust d p y).IsBare :=
      fun y h => (hdialect d p y).trans h
    exact Step.emits_emit_cons.2 ⟨Symbol.isWithin_of_isBare (hbare _ rfl), Step.emits_visit? _ _⟩

theorem enumSteps_areWithin : Step.Emits (Symbol.IsWithin d.limits) (enumSteps dialect d s p) := by
  simp only [enumSteps]
  split
  · exact Step.emits_nil
  · refine Step.emits_emit_cons.2 ⟨Symbol.isWithin_of_isBare rfl, ?_⟩
    refine Step.emits_flatMap.2 fun c _ => ?_
    split
    · refine Step.emits_emit?.2 fun y hy => ?_
      obtain ⟨constant, -, rfl⟩ := Option.map_eq_some_iff.1 hy
      exact Symbol.isWithin_of_isBare rfl
    · simp
    · exact Step.emits_nil

theorem childSteps_areWithin (hdialect : dialect.KeepsLiterals) :
    Step.Emits (Symbol.IsWithin d.limits) (childSteps dialect d s c) := by
  unfold childSteps
  split
  · exact typeSteps_areWithin hdialect
  · exact typeSteps_areWithin hdialect
  · exact typeSteps_areWithin hdialect
  · exact typeSteps_areWithin hdialect
  · exact enumSteps_areWithin
  · exact Step.emits_emit?.2 method?_isWithin
  · exact Step.emits_emit?.2 constructor?_isWithin
  · exact Step.emits_emitAll.2 fields_areWithin
  · exact Step.emits_emitAll.2 fields_areWithin
  · exact Step.emits_emit?.2 package?_isWithin
  · exact Step.emits_nil

theorem symbols_areWithin (hdialect : dialect.KeepsLiterals) (root : Place) :
    ∀ y ∈ symbols dialect d root, y.IsWithin d.limits := by
  refine Rule.forall_mem_walk_of_emits (fun s p => ?_) _ root
  exact Step.emits_ite_nil.2 fun _ => Step.emits_flatMap.2 fun c _ => childSteps_areWithin hdialect

end Declarations.Java

namespace Declarations.Apex

theorem trigger?_isWithin : ∀ y ∈ trigger? d.fullText, y.IsWithin d.limits := by
  intro y hy
  obtain ⟨m, -, hy⟩ := Option.bind_eq_some_iff.1 hy
  obtain ⟨name, -, hy⟩ := Option.bind_eq_some_iff.1 hy
  obtain ⟨object, -, hy⟩ := Option.bind_eq_some_iff.1 hy
  cases hy
  exact Symbol.isWithin_of_isBare rfl

theorem symbols_areWithin (parse : Parser) (root : Option Place) :
    ∀ y ∈ symbols parse d root, y.IsWithin d.limits := by
  have htrigger : ∀ y ∈ if Idiom.Apex.isTrigger d.path then (trigger? d.fullText).toList else [],
      y.IsWithin d.limits := by
    intro y hy
    split at hy
    · exact trigger?_isWithin y (Option.mem_toList.1 hy)
    · cases hy
  simp only [symbols]
  split
  · exact List.forall_mem_append.2
      ⟨htrigger, Java.symbols_areWithin Idiom.Apex.dialect_keepsLiterals _⟩
  · exact htrigger

end Declarations.Apex

end

/-! ## Literals of C#

Nothing is measured in C#: fields and constants keep the literals that they start with, and the
members of an enum their values. -/

namespace Declarations.CSharp

variable {d : Document} {root p c : Place} {owner : Option String} {s : Scope}
  {around : Idiom.CSharp.Enclosure}

/-- What the members of enums and the variables of declarations start with is not measured. -/
def unmeasured (d : Document) (p : Place) : List String :=
  match p.kind with
  | "enum_member_declaration" => (d.fieldText p "value").toList
  | "variable_declarator" => (initialLiteral d p).toList
  | _ => []

/-- Variables are declared inside the place of their declaration. -/
theorem declarator_place {v : Declarator} (h : v ∈ declarators d p) :
    v.place ∈ p.subtree ∧ v.place.kind = "variable_declarator" := by
  obtain ⟨declaration, hdeclaration, h⟩ := List.mem_flatMap.1 h
  obtain ⟨q, hq, h⟩ := List.mem_filterMap.1 h
  obtain ⟨name, -, rfl⟩ := Option.map_eq_some_iff.1 h
  obtain ⟨hq, hkind⟩ := List.mem_filter.1 hq
  refine ⟨?_, beq_iff_eq.1 hkind⟩
  exact Place.mem_subtree_of_mem_children
    (Place.mem_subtree_of_child (List.mem_filter.1 hdeclaration).1) hq

/-- A field keeps its literal, which nobody measures. -/
theorem fields_areMeasured (hp : p ∈ root.subtree) :
    ∀ y ∈ fields d owner around p, y.IsMeasured d (unmeasured d) root := by
  intro y hy
  obtain ⟨v, hv, rfl⟩ := List.mem_map.1 hy
  obtain ⟨hinside, hkind⟩ := declarator_place hv
  refine Symbol.isMeasured_withLiteral hp Document.span_symbol ?_
  exact Document.measures_of_unmeasured hinside (by simp only [unmeasured, hkind])

theorem eventFields_areBare : ∀ y ∈ eventFields d owner around p, y.IsBare := by
  intro y hy
  obtain ⟨v, -, rfl⟩ := List.mem_map.1 hy
  rfl

/-- A member of an enum keeps its value, which nobody measures. -/
theorem enumSymbols_areMeasured (hp : p ∈ root.subtree) :
    ∀ y ∈ enumSymbols d owner around p, y.IsMeasured d (unmeasured d) root := by
  simp only [enumSymbols]
  split
  · exact List.forall_mem_nil _
  · refine List.forall_mem_cons.2 ⟨Symbol.isMeasured_of_isBare rfl, fun y hy => ?_⟩
    obtain ⟨m, hm, hy⟩ := List.mem_filterMap.1 hy
    obtain ⟨name, -, rfl⟩ := Option.map_eq_some_iff.1 hy
    cases hfield : p.field? "body" with
    | none =>
        rw [hfield] at hm
        cases hm
    | some body =>
        rw [hfield] at hm
        obtain ⟨hm, hkind⟩ := List.mem_filter.1 hm
        have hbody := Place.mem_subtree_of_field? hp hfield
        refine Symbol.isMeasured_symbol (Place.mem_subtree_of_mem_children hbody hm) ?_
        exact Document.measures_of_unmeasured (Place.self_mem_subtree m)
          (by simp only [unmeasured, beq_iff_eq.1 hkind])

theorem staysMeasured_functionSteps (hp : p ∈ root.subtree) {name : String} :
    StaysMeasured d (unmeasured d) root (functionSteps s p name) := by
  exact Step.keeps_visit? fun body hbody => Place.mem_subtree_of_field? hp hbody

theorem staysMeasured_namespaceSteps (hp : p ∈ root.subtree) :
    StaysMeasured d (unmeasured d) root (namespaceSteps d s p) := by
  unfold namespaceSteps
  split
  · exact Step.keeps_nil
  · refine Step.keeps_emit_cons fun _ => ⟨Symbol.isMeasured_of_isBare rfl, ?_⟩
    exact Step.keeps_visit_cons
      (Place.mem_subtree_trans hp (Place.mem_subtree_of_field?_getD p)) Step.keeps_nil

theorem staysMeasured_typeSteps (hp : p ∈ root.subtree) {kind : SymbolKind} {keyword : String} :
    StaysMeasured d (unmeasured d) root (typeSteps d s around kind keyword p) := by
  unfold typeSteps
  split
  · exact Step.keeps_nil
  · refine Step.keeps_emit_cons fun _ => ⟨Symbol.isMeasured_of_isBare rfl, ?_⟩
    refine Step.keeps_append (Step.keeps_emit? fun y hy => ?_) (Step.keeps_visit? fun b hb => ?_)
    · obtain ⟨list, -, rfl⟩ := Option.map_eq_some_iff.1 hy
      exact Symbol.isMeasured_of_isBare rfl
    · exact Place.mem_subtree_of_field? hp hb

theorem staysMeasured_methodSteps (hp : p ∈ root.subtree) {visibility : Visibility}
    {result : Option String} :
    StaysMeasured d (unmeasured d) root (methodSteps d s visibility result p) := by
  unfold methodSteps
  split
  · exact Step.keeps_nil
  · exact Step.keeps_emit_cons fun _ =>
      ⟨Symbol.isMeasured_of_isBare rfl, staysMeasured_functionSteps hp⟩

theorem staysMeasured_constructorSteps (hp : p ∈ root.subtree) :
    StaysMeasured d (unmeasured d) root (constructorSteps d s around p) := by
  unfold constructorSteps
  split
  · exact Step.keeps_nil
  · exact Step.keeps_emit_cons fun _ =>
      ⟨Symbol.isMeasured_of_isBare rfl, staysMeasured_functionSteps hp⟩

theorem staysMeasured_childSteps (hc : c ∈ root.subtree) :
    StaysMeasured d (unmeasured d) root (childSteps d s around c) := by
  have hbare : ∀ {o : Option Symbol}, (∀ y ∈ o, y.IsBare) →
      StaysMeasured d (unmeasured d) root (Step.emit? o : List (Step Task Symbol)) :=
    fun h => Step.keeps_emit? fun y hy => Symbol.isMeasured_of_isBare (h y hy)
  unfold childSteps
  split
  · exact staysMeasured_namespaceSteps hc
  · exact staysMeasured_namespaceSteps hc
  · exact staysMeasured_typeSteps hc
  · exact staysMeasured_typeSteps hc
  · exact staysMeasured_typeSteps hc
  · unfold recordSteps
    split
    · exact staysMeasured_typeSteps hc
    · exact staysMeasured_typeSteps hc
  · exact Step.keeps_emitAll fun _ => enumSymbols_areMeasured hc
  · exact staysMeasured_methodSteps hc
  · exact staysMeasured_methodSteps hc
  · exact staysMeasured_constructorSteps hc
  · refine hbare fun y hy => ?_
    obtain ⟨name, -, rfl⟩ := Option.map_eq_some_iff.1 hy
    rfl
  · exact Step.keeps_emitAll fun _ => fields_areMeasured hc
  · exact Step.keeps_emitAll fun _ y hy => Symbol.isMeasured_of_isBare (eventFields_areBare y hy)
  · refine hbare fun y hy => ?_
    obtain ⟨⟨name, kind, signature⟩, -, rfl⟩ := Option.map_eq_some_iff.1 hy
    rfl

theorem staysMeasured_functionSearchSteps (hc : c ∈ root.subtree) :
    StaysMeasured d (unmeasured d) root (functionSearchSteps d s c) := by
  unfold functionSearchSteps
  split
  · exact staysMeasured_methodSteps hc
  · split
    · exact Step.keeps_visit_cons hc Step.keeps_nil
    · exact Step.keeps_nil

/-- The literals of a file are those that nobody measures. -/
theorem symbols_areMeasured (root : Place) :
    ∀ y ∈ symbols d root, y.IsMeasured d (unmeasured d) root := by
  refine Rule.forall_isMeasured (rule_descends d) (fun task p hp => ?_) _
  rw [rule_eq_entries]
  refine Step.keeps_flatMap fun e he => ?_
  obtain ⟨task', c⟩ := e
  obtain ⟨-, hc, rfl⟩ := (mem_entries d).1 he
  have hc := Place.mem_subtree_of_mem_children hp hc
  cases task with
  | inside s around => exact staysMeasured_childSteps hc
  | functions s => exact staysMeasured_functionSearchSteps hc

end Declarations.CSharp

end SourceIndex
