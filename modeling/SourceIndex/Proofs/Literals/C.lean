import SourceIndex.Declarations.ObjC
import SourceIndex.Proofs.Literals.Limit
import SourceIndex.Proofs.Scopes.C

/-!
# Literals of C, C++ and Objective-C

The literal that a variable starts with is measured.  The value of an enumerator is not: it is kept
as it stands, whatever expression it is.
-/

namespace SourceIndex.Declarations

variable {d : Document} {root p c : Place} {owner : Option String} {s : Scope}

namespace C

/-- The values of enumerators are not measured. -/
def unmeasured (d : Document) (p : Place) : List String :=
  if p.kind == "enumerator" then (d.fieldText p "value").toList else []

variable {dialect : Dialect} {access : Option Visibility}

theorem function?_isMeasured :
    ∀ y ∈ function? dialect d owner access p, y.IsMeasured d (unmeasured d) root := by
  intro y hy
  obtain ⟨declarator, -, hy⟩ := Option.bind_eq_some_iff.1 hy
  obtain ⟨⟨name, params⟩, -, hy⟩ := Option.bind_eq_some_iff.1 hy
  cases hy
  exact Symbol.isMeasured_of_isBare rfl

theorem declaration_areMeasured (hp : p ∈ root.subtree) :
    ∀ y ∈ declaration dialect d owner access p, y.IsMeasured d (unmeasured d) root := by
  intro y hy
  obtain ⟨c, -, hy⟩ := List.mem_filterMap.1 hy
  simp only [declared?] at hy
  split at hy
  · obtain ⟨⟨name, params⟩, -, rfl⟩ := Option.map_eq_some_iff.1 hy
    exact Symbol.isMeasured_of_isBare rfl
  · split at hy
    · obtain ⟨name, -, rfl⟩ := Option.map_eq_some_iff.1 hy
      exact Symbol.isMeasured_symbol hp Document.measures_filter
    · cases hy

theorem field?_isMeasured {owner : String} {access : Visibility} :
    ∀ y ∈ field? dialect d owner access p c, y.IsMeasured d (unmeasured d) root := by
  intro y hy
  simp only [field?] at hy
  split at hy
  · obtain ⟨⟨name, params⟩, -, rfl⟩ := Option.map_eq_some_iff.1 hy
    exact Symbol.isMeasured_of_isBare rfl
  · split at hy
    · obtain ⟨name, -, rfl⟩ := Option.map_eq_some_iff.1 hy
      exact Symbol.isMeasured_of_isBare rfl
    · cases hy

/-- An enumerator keeps its value, which nobody measures. -/
theorem enumerators_areMeasured (hp : p ∈ root.subtree) {qualified : String} :
    ∀ y ∈ enumerators d qualified p, y.IsMeasured d (unmeasured d) root := by
  intro y hy
  unfold enumerators at hy
  split at hy
  · cases hy
  · rename_i body hbody
    obtain ⟨e, he, hy⟩ := List.mem_filterMap.1 hy
    obtain ⟨name, -, rfl⟩ := Option.map_eq_some_iff.1 hy
    obtain ⟨he, hkind⟩ := List.mem_filter.1 he
    have hinside :=
      Place.mem_subtree_of_mem_children (Place.mem_subtree_of_field? hp hbody) he
    refine Symbol.isMeasured_symbol hinside ?_
    exact Document.measures_of_unmeasured (Place.self_mem_subtree e) (if_pos hkind)

theorem enumSymbols_areMeasured (hp : p ∈ root.subtree) :
    ∀ y ∈ enumSymbols d owner p, y.IsMeasured d (unmeasured d) root := by
  unfold enumSymbols
  split
  · exact List.forall_mem_nil _
  · exact List.forall_mem_cons.2 ⟨Symbol.isMeasured_of_isBare rfl, enumerators_areMeasured hp⟩

theorem staysMeasured_recordSteps (hp : p ∈ root.subtree) :
    StaysMeasured d (unmeasured d) root (recordSteps d s p) := by
  unfold recordSteps
  split
  · exact Step.keeps_nil
  · refine Step.keeps_emit_cons fun _ => ⟨Symbol.isMeasured_of_isBare rfl, ?_⟩
    exact Step.keeps_visit? fun body hbody => Place.mem_subtree_of_field? hp hbody

theorem staysMeasured_typedefBodySteps (hp : p ∈ root.subtree) {name : String} :
    StaysMeasured d (unmeasured d) root (typedefBodySteps d s name p) := by
  -- A record without a name is visited under the name of the typedef.
  have hrecord : ∀ body ∈ p.field? "body", StaysMeasured d (unmeasured d) root
      (if (p.field? "name").isSome = true then recordSteps d s.deeper p else
        [.visit (.members (s.enter (Text.qualify s.name name "::")) .public) body]) := by
    intro body hbody
    split
    · exact staysMeasured_recordSteps hp
    · exact Step.keeps_visit_cons (Place.mem_subtree_of_field? hp hbody) Step.keeps_nil
  simp only [typedefBodySteps]
  split
  · exact hrecord _ ‹_›
  · exact hrecord _ ‹_›
  · split
    · exact Step.keeps_emitAll fun _ => enumSymbols_areMeasured hp
    · exact Step.keeps_emitAll fun _ => enumerators_areMeasured hp
  · exact Step.keeps_nil

theorem staysMeasured_typedefSteps (hp : p ∈ root.subtree) :
    StaysMeasured d (unmeasured d) root (typedefSteps d s p) := by
  simp only [typedefSteps]
  split
  · exact Step.keeps_nil
  · refine Step.keeps_emit_cons fun _ => ⟨Symbol.isMeasured_of_isBare rfl, ?_⟩
    cases htype : p.field? "type" with
    | none => exact Step.keeps_nil
    | some t =>
        exact staysMeasured_typedefBodySteps (Place.mem_subtree_of_field? hp htype)

theorem staysMeasured_namespaceSteps (hp : p ∈ root.subtree) :
    StaysMeasured d (unmeasured d) root (namespaceSteps d s p) := by
  refine Step.keeps_append (Step.keeps_emit? fun y hy => ?_) (Step.keeps_visit? fun b hb => ?_)
  · obtain ⟨name, -, rfl⟩ := Option.map_eq_some_iff.1 hy
    exact Symbol.isMeasured_of_isBare rfl
  · exact Place.mem_subtree_of_field? hp hb

theorem staysMeasured_childSteps (hc : c ∈ root.subtree) :
    StaysMeasured d (unmeasured d) root (childSteps dialect d s c) := by
  unfold childSteps
  split
  · exact Step.keeps_emit? function?_isMeasured
  · exact Step.keeps_emitAll fun _ => declaration_areMeasured hc
  · exact staysMeasured_recordSteps hc
  · exact staysMeasured_recordSteps hc
  · exact staysMeasured_recordSteps hc
  · exact Step.keeps_emitAll fun _ => enumSymbols_areMeasured hc
  · exact staysMeasured_typedefSteps hc
  · exact staysMeasured_namespaceSteps hc
  · split
    · exact Step.keeps_visit_cons hc Step.keeps_nil
    · exact Step.keeps_nil

theorem staysMeasured_memberSteps (hc : c ∈ root.subtree) {access : Visibility} :
    StaysMeasured d (unmeasured d) root (memberSteps dialect d s access c) := by
  simp only [memberSteps]
  split
  · refine Step.keeps_emitAll fun _ y hy => ?_
    obtain ⟨declarator, -, hy⟩ := List.mem_filterMap.1 hy
    exact field?_isMeasured y hy
  · split
    · exact Step.keeps_emit? function?_isMeasured
    · exact Step.keeps_nil
  · split
    · exact Step.keeps_emitAll fun _ => declaration_areMeasured hc
    · exact Step.keeps_nil
  · exact Step.keeps_visit_cons hc Step.keeps_nil
  · exact staysMeasured_recordSteps hc
  · exact staysMeasured_recordSteps hc
  · exact staysMeasured_recordSteps hc
  · exact Step.keeps_emitAll fun _ => enumSymbols_areMeasured hc
  · exact Step.keeps_nil

/-- Have the further declarations of a dialect no literals? -/
def Dialect.IsBare (dialect : Dialect) : Prop :=
  ∀ {d p ys}, dialect.extra d p = some ys → ∀ y ∈ ys, y.IsBare

/-- The literals of a file are measured, except for the values of enumerators. -/
theorem symbols_areMeasured (hdialect : dialect.IsBare) (root : Place) :
    ∀ y ∈ symbols dialect d root, y.IsMeasured d (unmeasured d) root := by
  refine Rule.forall_isMeasured rule_descends (fun task p hp => ?_) _
  cases task with
  | inside s =>
      rw [rule]
      refine Step.keeps_ite_nil (Step.keeps_flatMap fun c hc => ?_)
      cases hextra : dialect.extra d c with
      | none => exact staysMeasured_childSteps (Place.mem_subtree_of_mem_children hp hc)
      | some ys =>
          exact Step.keeps_emitAll fun _ y hy => Symbol.isMeasured_of_isBare (hdialect hextra y hy)
  | members s access =>
      rw [rule]
      refine Step.keeps_ite_nil (Step.keeps_flatMap fun v hv => ?_)
      exact staysMeasured_memberSteps (Place.mem_subtree_of_mem_children hp (mem_withAccess hv))

theorem c_isBare : Dialect.IsBare C.c :=
  nofun

theorem cpp_isBare : Dialect.IsBare C.cpp :=
  nofun

end C

namespace ObjC

theorem method?_isBare {owner : String} {declared : Bool} :
    ∀ y ∈ method? d owner declared p, y.IsBare :=
  forall_mem_bind_some fun _ => rfl

theorem instanceVariables_areBare {owner : String} :
    ∀ y ∈ instanceVariables d owner p, y.IsBare := by
  intro y hy
  obtain ⟨named, -, rfl⟩ := List.mem_map.1 hy
  rfl

theorem interfaceSymbols_areBare : ∀ y ∈ interfaceSymbols d p, y.IsBare := by
  simp only [interfaceSymbols]
  split
  · exact List.forall_mem_nil _
  · refine List.forall_mem_cons.2 ⟨rfl, List.forall_mem_flatMap.2 fun c _ => ?_⟩
    split
    · exact fun y hy => method?_isBare y (Option.mem_toList.1 hy)
    · intro y hy
      obtain ⟨named, -, rfl⟩ := List.mem_map.1 hy
      rfl
    · exact instanceVariables_areBare
    · exact List.forall_mem_nil _

theorem implementationSymbols_areBare : ∀ y ∈ implementationSymbols d p, y.IsBare := by
  unfold implementationSymbols
  split
  · exact List.forall_mem_nil _
  · refine List.forall_mem_cons.2 ⟨rfl, List.forall_mem_flatMap.2 fun c _ => ?_⟩
    split
    · intro y hy
      obtain ⟨m, -, hy⟩ := List.mem_filterMap.1 hy
      exact method?_isBare y hy
    · exact fun y hy => method?_isBare y (Option.mem_toList.1 hy)
    · exact instanceVariables_areBare
    · exact List.forall_mem_nil _

theorem protocolSymbols_areBare : ∀ y ∈ protocolSymbols d p, y.IsBare := by
  unfold protocolSymbols
  split
  · exact List.forall_mem_nil _
  · refine List.forall_mem_cons.2 ⟨rfl, fun y hy => ?_⟩
    obtain ⟨m, -, hy⟩ := List.mem_filterMap.1 hy
    exact method?_isBare y hy

theorem dialect_isBare : dialect.IsBare := by
  intro d p ys hys
  simp only [dialect] at hys
  split at hys
  · cases hys
    exact interfaceSymbols_areBare
  · cases hys
    exact implementationSymbols_areBare
  · cases hys
    exact protocolSymbols_areBare
  · cases hys

end ObjC

end SourceIndex.Declarations
