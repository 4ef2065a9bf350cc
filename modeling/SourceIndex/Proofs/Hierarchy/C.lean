import SourceIndex.Proofs.Hierarchy.Owner
import SourceIndex.Proofs.Lines.C
import SourceIndex.Proofs.Scopes.C

/-!
# Owners of C and Objective-C

A record owns its members and an enum its enumerators, under the tag or under the name that a
typedef gives to a type without one.  C++ is left out: a function that it defines outside its class
names that class as its owner, wherever the class is.
-/

namespace SourceIndex.Declarations

variable {d : Document} {all : List Symbol} {owner name : String} {scope : Option String}
  {p q c : Place}

namespace C

variable {dialect : Dialect} {s : Scope} {kind : SymbolKind} {details : Symbol.Details}
  {access : Option Visibility}

/-- The owner in the name of which a task looks at a place: members have one. -/
def Task.ownerName : Task → Option String
  | inside s => s.name
  | members s _ => some (s.name.getD "")

theorem symbolIn_hasOwner (h : Under d all scope p) :
    (symbolIn d scope p name kind details).HasOwner all :=
  h.hasOwner_symbol rfl

/-- A declaration owns what is inside its place. -/
theorem under_symbolIn (h : Under d all scope p)
    (hz : symbolIn d scope p name kind details ∈ all) (hq : q ∈ p.subtree) :
    Under d all (some (Text.qualify scope name "::")) q :=
  h.enter hz Document.span_symbol hq

/-! ## Functions, variables and fields -/

/-- Without C++ a function belongs to what encloses it. -/
theorem functionOwner_eq (hcpp : dialect.cpp = false) :
    functionOwner dialect scope name = (scope, name) := by
  unfold functionOwner
  split <;> simp [hcpp]

theorem functionSymbol_hasOwner (hcpp : dialect.cpp = false) (h : Under d all scope p)
    {type params : String} :
    (functionSymbol dialect d scope access p type name params).HasOwner all := by
  unfold functionSymbol
  rw [functionOwner_eq hcpp]
  exact symbolIn_hasOwner h

theorem function?_hasOwner (hcpp : dialect.cpp = false) (h : Under d all scope p) :
    ∀ y ∈ function? dialect d scope access p, y.HasOwner all := by
  intro y hy
  obtain ⟨declarator, -, hy⟩ := Option.bind_eq_some_iff.1 hy
  obtain ⟨⟨name, params⟩, -, hy⟩ := Option.bind_eq_some_iff.1 hy
  cases hy
  exact functionSymbol_hasOwner hcpp h

theorem declared?_hasOwner (hcpp : dialect.cpp = false) (h : Under d all scope p) :
    ∀ y ∈ declared? dialect d scope access p c, y.HasOwner all := by
  intro y hy
  simp only [declared?] at hy
  split at hy
  · obtain ⟨⟨name, params⟩, -, rfl⟩ := Option.map_eq_some_iff.1 hy
    exact functionSymbol_hasOwner hcpp h
  · split at hy
    · obtain ⟨name, -, rfl⟩ := Option.map_eq_some_iff.1 hy
      exact symbolIn_hasOwner h
    · cases hy

theorem declaration_haveOwner (hcpp : dialect.cpp = false) (h : Under d all scope p) :
    ∀ y ∈ declaration dialect d scope access p, y.HasOwner all := by
  intro y hy
  obtain ⟨c, -, hy⟩ := List.mem_filterMap.1 hy
  exact declared?_hasOwner hcpp h y hy

theorem field?_hasOwner (hcpp : dialect.cpp = false) (h : Under d all (some owner) p)
    {access : Visibility} : ∀ y ∈ field? dialect d owner access p c, y.HasOwner all := by
  intro y hy
  simp only [field?] at hy
  split at hy
  · obtain ⟨⟨name, params⟩, -, rfl⟩ := Option.map_eq_some_iff.1 hy
    exact functionSymbol_hasOwner hcpp h
  · split at hy
    · obtain ⟨name, -, rfl⟩ := Option.map_eq_some_iff.1 hy
      exact symbolIn_hasOwner h
    · cases hy

/-! ## Records, enums and typedefs -/

theorem nests_recordSteps (h : Under d all s.name p) :
    Nests d all Task.ownerName (recordSteps d s p) := by
  unfold recordSteps
  split
  · exact Step.keeps_nil
  · refine Step.keeps_emit_cons fun hz => ⟨symbolIn_hasOwner h, ?_⟩
    refine Step.keeps_visit? fun body hbody => ?_
    exact under_symbolIn h hz (Place.mem_subtree_of_child (Place.mem_children_of_field? hbody))

theorem enumSymbols_haveOwner (h : Under d all scope p) :
    (∀ y ∈ enumSymbols d scope p, y ∈ all) → ∀ y ∈ enumSymbols d scope p, y.HasOwner all := by
  unfold enumSymbols
  split
  · exact fun _ => List.forall_mem_nil _
  · intro hall
    obtain ⟨hz, -⟩ := List.forall_mem_cons.1 hall
    have hinside := under_symbolIn h hz (Place.self_mem_subtree p)
    exact List.forall_mem_cons.2 ⟨symbolIn_hasOwner h, hinside.forall_hasOwner enumerators_lieIn⟩

/-- What the type of a typedef declares belongs to what encloses the typedef if the type has a tag,
and else to the name that is defined. -/
theorem nests_typedefBodySteps (h : Under d all s.name p)
    (hinner : Under d all (some (Text.qualify s.name name "::")) p) :
    Nests d all Task.ownerName (typedefBodySteps d s name p) := by
  have hrecord : ∀ body ∈ p.field? "body", Nests d all Task.ownerName
      (if (p.field? "name").isSome = true then recordSteps d s.deeper p else
        [.visit (.members (s.enter (Text.qualify s.name name "::")) .public) body]) := by
    intro body hbody
    split
    · exact nests_recordSteps h
    · exact Step.keeps_visit_cons (hinner.child (Place.mem_children_of_field? hbody))
        Step.keeps_nil
  simp only [typedefBodySteps]
  split
  · exact hrecord _ ‹_›
  · exact hrecord _ ‹_›
  · split
    · exact Step.keeps_emitAll (enumSymbols_haveOwner h)
    · exact Step.keeps_emitAll fun _ => hinner.forall_hasOwner enumerators_lieIn
  · exact Step.keeps_nil

theorem nests_typedefSteps (h : Under d all s.name p) :
    Nests d all Task.ownerName (typedefSteps d s p) := by
  simp only [typedefSteps]
  split
  · exact Step.keeps_nil
  · refine Step.keeps_emit_cons fun hz => ⟨symbolIn_hasOwner h, ?_⟩
    cases htype : p.field? "type" with
    | none => exact Step.keeps_nil
    | some t =>
        have ht := Place.mem_children_of_field? htype
        exact nests_typedefBodySteps (h.child ht)
          (under_symbolIn h hz (Place.mem_subtree_of_child ht))

theorem nests_namespaceSteps (h : Under d all s.name p) :
    Nests d all Task.ownerName (namespaceSteps d s p) := by
  simp only [namespaceSteps]
  cases d.fieldText p "name" with
  | none =>
      refine Step.keeps_append Step.keeps_nil (Step.keeps_visit? fun body hbody => ?_)
      exact h.child (Place.mem_children_of_field? hbody)
  | some name =>
      refine Step.keeps_emit_cons fun hz => ⟨symbolIn_hasOwner h, ?_⟩
      refine Step.keeps_visit? fun body hbody => ?_
      exact under_symbolIn h hz (Place.mem_subtree_of_child (Place.mem_children_of_field? hbody))

theorem nests_childSteps (hcpp : dialect.cpp = false) (h : Under d all s.name c) :
    Nests d all Task.ownerName (childSteps dialect d s c) := by
  unfold childSteps
  split
  · exact Step.keeps_emit? (function?_hasOwner hcpp h)
  · exact Step.keeps_emitAll fun _ => declaration_haveOwner hcpp h
  · exact nests_recordSteps h
  · exact nests_recordSteps h
  · exact nests_recordSteps h
  · exact Step.keeps_emitAll (enumSymbols_haveOwner h)
  · exact nests_typedefSteps h
  · exact nests_namespaceSteps h
  · split
    · exact Step.keeps_visit_cons h Step.keeps_nil
    · exact Step.keeps_nil

/-- Members are looked at in the name of their record, which is also the name that the scope has, if
it has one. -/
theorem under_of_members (h : Under d all (some (s.name.getD "")) p) : Under d all s.name p := by
  cases hname : s.name with
  | none => exact h.unowned
  | some name =>
      rw [hname] at h
      exact h

theorem nests_memberSteps (hcpp : dialect.cpp = false) {access : Visibility}
    (h : Under d all (some (s.name.getD "")) c) :
    Nests d all Task.ownerName (memberSteps dialect d s access c) := by
  have hscope := under_of_members h
  -- Only C++ has functions and declarations among the members.
  simp only [memberSteps, hcpp, Bool.false_eq_true, if_false]
  split
  · refine Step.keeps_emitAll fun _ y hy => ?_
    obtain ⟨declarator, -, hy⟩ := List.mem_filterMap.1 hy
    exact field?_hasOwner hcpp h y hy
  · exact Step.keeps_nil
  · exact Step.keeps_nil
  · exact Step.keeps_visit_cons h Step.keeps_nil
  · exact nests_recordSteps hscope
  · exact nests_recordSteps hscope
  · exact nests_recordSteps hscope
  · exact Step.keeps_emitAll (enumSymbols_haveOwner hscope)
  · exact Step.keeps_nil

/-- Do the further declarations of a dialect have their owners among them? -/
def Dialect.Nests (dialect : Dialect) : Prop :=
  ∀ {d all p ys}, dialect.extra d p = some ys → Under d all none p → (∀ y ∈ ys, y ∈ all) →
    ∀ y ∈ ys, y.HasOwner all

/-- The symbols of a file that name their owners have these owners among them. -/
theorem isHierarchy_symbols (hd : d.IsNumbered) (hcpp : dialect.cpp = false)
    (hdialect : dialect.Nests) {root : Place} (hroot : root.IsWellFormed) :
    IsHierarchy (symbols dialect d root) := by
  refine Rule.isHierarchy_walk rule_descends Task.ownerName hd hroot rfl fun all task p h => ?_
  cases task with
  | inside s =>
      rw [rule]
      refine Step.keeps_ite_nil (Step.keeps_flatMap fun c hc => ?_)
      cases hextra : dialect.extra d c with
      | none => exact nests_childSteps hcpp (h.child hc)
      | some ys => exact Step.keeps_emitAll (hdialect hextra (h.child hc).unowned)
  | members s access =>
      rw [rule]
      refine Step.keeps_ite_nil (Step.keeps_flatMap fun v hv => ?_)
      exact nests_memberSteps hcpp (h.child (mem_withAccess hv))

theorem c_nests : C.c.Nests :=
  nofun

end C

namespace ObjC

theorem interfaceSymbols_haveOwner (h : Under d all none p) :
    (∀ y ∈ interfaceSymbols d p, y ∈ all) → ∀ y ∈ interfaceSymbols d p, y.HasOwner all := by
  simp only [interfaceSymbols]
  split
  · exact fun _ => List.forall_mem_nil _
  · intro hall
    obtain ⟨hz, -⟩ := List.forall_mem_cons.1 hall
    refine List.forall_mem_cons.2 ⟨h.hasOwner_symbol rfl, List.forall_mem_flatMap.2 fun c hc => ?_⟩
    have hinside := h.enter hz Document.span_symbol (Place.mem_subtree_of_child hc)
    split
    · exact fun y hy => hinside.forall_hasOwner method?_liesIn y (Option.mem_toList.1 hy)
    · exact hinside.forall_hasOwner properties_lieIn
    · exact hinside.forall_hasOwner instanceVariables_lieIn
    · exact List.forall_mem_nil _

theorem implementationSymbols_haveOwner (h : Under d all none p) :
    (∀ y ∈ implementationSymbols d p, y ∈ all) →
      ∀ y ∈ implementationSymbols d p, y.HasOwner all := by
  unfold implementationSymbols
  split
  · exact fun _ => List.forall_mem_nil _
  · intro hall
    obtain ⟨hz, -⟩ := List.forall_mem_cons.1 hall
    refine List.forall_mem_cons.2 ⟨h.hasOwner_symbol rfl, List.forall_mem_flatMap.2 fun c hc => ?_⟩
    have hinside := h.enter hz Document.span_symbol (Place.mem_subtree_of_child hc)
    split
    · intro y hy
      obtain ⟨m, hm, hy⟩ := List.mem_filterMap.1 hy
      exact (hinside.child (List.mem_filter.1 hm).1).forall_hasOwner method?_liesIn y hy
    · exact fun y hy => hinside.forall_hasOwner method?_liesIn y (Option.mem_toList.1 hy)
    · exact hinside.forall_hasOwner instanceVariables_lieIn
    · exact List.forall_mem_nil _

theorem protocolSymbols_haveOwner (h : Under d all none p) :
    (∀ y ∈ protocolSymbols d p, y ∈ all) → ∀ y ∈ protocolSymbols d p, y.HasOwner all := by
  unfold protocolSymbols
  split
  · exact fun _ => List.forall_mem_nil _
  · intro hall
    obtain ⟨hz, -⟩ := List.forall_mem_cons.1 hall
    refine List.forall_mem_cons.2 ⟨h.hasOwner_symbol rfl, fun y hy => ?_⟩
    obtain ⟨m, hm, hy⟩ := List.mem_filterMap.1 hy
    have hinside := h.enter hz Document.span_symbol
      (Place.mem_subtree_of_child (List.mem_filter.1 hm).1)
    exact hinside.forall_hasOwner method?_liesIn y hy

theorem dialect_nests : dialect.Nests := by
  intro d all p ys hys h
  simp only [dialect] at hys
  split at hys
  · cases hys
    exact interfaceSymbols_haveOwner h
  · cases hys
    exact implementationSymbols_haveOwner h
  · cases hys
    exact protocolSymbols_haveOwner h
  · cases hys

end ObjC

end SourceIndex.Declarations
