import SourceIndex.Proofs.Hierarchy.Owner
import SourceIndex.Proofs.Lines.ECMAScript
import SourceIndex.Proofs.Scopes.ECMAScript

/-!
# Owners of JavaScript and TypeScript

A class owns its members, also one that a variable is bound to; an interface or an enum owns its
own, and a namespace what its body declares.  A dialect may add declarations that keep owners.
-/

namespace SourceIndex.Declarations

variable {d : Document} {all : List Symbol} {p q : Place}

namespace ECMAScript

variable {s : Setting} {name : String} {scope : Option String} {kind : SymbolKind}
  {details : Symbol.Details}

/-- The scope that a walk carries, as a name. -/
def Setting.ownerName (s : Setting) : Option String :=
  s.name

theorem symbolIn_hasOwner (h : Under d all scope p) :
    (symbolIn d scope p name kind details).HasOwner all :=
  h.hasOwner_symbol rfl

/-- A declaration owns what is inside its place. -/
theorem under_symbolIn (h : Under d all scope p)
    (hz : symbolIn d scope p name kind details ∈ all) (hq : q ∈ p.subtree) :
    Under d all (some (Text.qualify scope name ".")) q :=
  h.enter hz Document.span_symbol hq

theorem classSymbols_haveOwner (h : Under d all s.name p) :
    (∀ y ∈ classSymbols d s p, y ∈ all) → ∀ y ∈ classSymbols d s p, y.HasOwner all := by
  simp only [classSymbols]
  split
  · exact fun _ => List.forall_mem_nil _
  · intro hall
    obtain ⟨hz, -⟩ := List.forall_mem_cons.1 hall
    have hinside := under_symbolIn h hz (Place.self_mem_subtree p)
    exact List.forall_mem_cons.2 ⟨symbolIn_hasOwner h, hinside.forall_hasOwner membersOf_lieIn⟩

/-- A variable that is bound to a class owns the members of this class. -/
theorem variableSymbols_haveOwner {declaration : Place} {keyword : String}
    (h : Under d all s.name p) :
    (∀ y ∈ variableSymbols d s declaration keyword p, y ∈ all) →
      ∀ y ∈ variableSymbols d s declaration keyword p, y.HasOwner all := by
  have hone : ∀ {name kind details}, ∀ y ∈ [symbolIn d s.name p name kind details],
      y.HasOwner all := by
    intro name kind details
    exact List.forall_mem_singleton.2 (symbolIn_hasOwner h)
  simp only [variableSymbols]
  split
  · exact fun _ => List.forall_mem_nil _
  · split
    · exact fun _ => hone
    · rename_i value hvalue
      split
      -- Of the values that a variable may have, only a class has members.
      case h_5 =>
        intro hall
        obtain ⟨hz, -⟩ := List.forall_mem_cons.1 hall
        have hinside := under_symbolIn h hz
          (Place.mem_subtree_of_child (Place.mem_children_of_field? hvalue))
        exact List.forall_mem_cons.2 ⟨symbolIn_hasOwner h, hinside.forall_hasOwner membersOf_lieIn⟩
      all_goals exact fun _ => hone

theorem declarators_haveOwner (h : Under d all s.name p) (hall : ∀ y ∈ declarators d s p, y ∈ all) :
    ∀ y ∈ declarators d s p, y.HasOwner all := by
  refine List.forall_mem_flatMap.2 fun v hv => ?_
  refine variableSymbols_haveOwner (h.child (List.mem_filter.1 hv).1) ?_
  exact List.forall_mem_flatMap.1 hall v hv

theorem nests_childSteps (h : Under d all s.name p) :
    Nests d all Setting.ownerName (childSteps d s p) := by
  unfold childSteps
  split
  · exact Step.keeps_emit? (h.forall_hasOwner function?_liesIn)
  · exact Step.keeps_emit? (h.forall_hasOwner function?_liesIn)
  · exact Step.keeps_emitAll (classSymbols_haveOwner h)
  · exact Step.keeps_emitAll (classSymbols_haveOwner h)
  · exact Step.keeps_emitAll (classSymbols_haveOwner h)
  · exact Step.keeps_emitAll (declarators_haveOwner h)
  · exact Step.keeps_emitAll (declarators_haveOwner h)
  · exact Step.keeps_visit_cons h Step.keeps_nil
  · exact Step.keeps_emit? (h.forall_hasOwner exportSymbol?_liesIn)
  · exact Step.keeps_visit_cons h Step.keeps_nil

/-- Do the further declarations of a dialect keep owners? -/
def Dialect.Nests (dialect : Dialect) : Prop :=
  ∀ {d all s p steps}, dialect d s p = some steps → Under d all s.name p →
    SourceIndex.Nests d all Setting.ownerName steps

/-- The symbols of a file that name their owners have these owners among them. -/
theorem isHierarchy_symbols (hd : d.IsNumbered) {dialect : Dialect} (hplain : dialect.IsPlain)
    (hdialect : dialect.Nests) {root : Place} (hroot : root.IsWellFormed) :
    IsHierarchy (symbols d dialect root) := by
  refine Rule.isHierarchy_walk (rule_descends d hplain) Setting.ownerName hd hroot rfl
    fun all s p h => ?_
  refine Step.keeps_ite_nil (Step.keeps_flatMap fun c hc => ?_)
  cases hsteps : dialect d s c with
  | some steps => exact hdialect hsteps (h.child hc)
  | none => exact nests_childSteps (h.child hc)

theorem javascript_nests : Dialect.Nests javascript :=
  nofun

end ECMAScript

namespace TypeScript

open ECMAScript (Setting symbolIn_hasOwner under_symbolIn)

variable {s : Setting}

theorem interfaceSymbols_haveOwner (h : Under d all s.name p) :
    (∀ y ∈ interfaceSymbols d s p, y ∈ all) → ∀ y ∈ interfaceSymbols d s p, y.HasOwner all := by
  simp only [interfaceSymbols]
  split
  · exact fun _ => List.forall_mem_nil _
  · intro hall
    obtain ⟨hz, -⟩ := List.forall_mem_cons.1 hall
    refine List.forall_mem_cons.2 ⟨symbolIn_hasOwner h, fun y hy => ?_⟩
    obtain ⟨m, hm, hy⟩ := List.mem_filterMap.1 hy
    have hinside := under_symbolIn h hz (Place.mem_subtree_of_mem_fieldChildren hm)
    exact hinside.forall_hasOwner interfaceMember?_liesIn y hy

theorem enumSymbols_haveOwner (h : Under d all s.name p) :
    (∀ y ∈ enumSymbols d s p, y ∈ all) → ∀ y ∈ enumSymbols d s p, y.HasOwner all := by
  simp only [enumSymbols]
  split
  · exact fun _ => List.forall_mem_nil _
  · intro hall
    obtain ⟨hz, -⟩ := List.forall_mem_cons.1 hall
    refine List.forall_mem_cons.2 ⟨symbolIn_hasOwner h, fun y hy => ?_⟩
    obtain ⟨m, hm, hy⟩ := List.mem_filterMap.1 hy
    have hinside := under_symbolIn h hz (Place.mem_subtree_of_mem_fieldChildren hm)
    exact hinside.forall_hasOwner enumMember?_liesIn y hy

theorem nests_namespaceSteps (h : Under d all s.name p) :
    Nests d all Setting.ownerName (namespaceSteps d s p) := by
  unfold namespaceSteps
  split
  · exact Step.keeps_nil
  · refine Step.keeps_emit_cons fun hz => ⟨symbolIn_hasOwner h, ?_⟩
    refine Step.keeps_visit? fun body hbody => ?_
    exact under_symbolIn h hz (Place.mem_subtree_of_child (Place.mem_children_of_field? hbody))

theorem typescript_nests : ECMAScript.Dialect.Nests typescript := by
  intro d all s p steps hsteps h
  unfold typescript at hsteps
  split at hsteps
  · cases hsteps
    exact Step.keeps_emitAll (interfaceSymbols_haveOwner h)
  · cases hsteps
    exact Step.keeps_emit? (h.forall_hasOwner typeAlias?_liesIn)
  · cases hsteps
    exact Step.keeps_emitAll (enumSymbols_haveOwner h)
  · cases hsteps
    exact nests_namespaceSteps h
  · cases hsteps
    exact nests_namespaceSteps h
  -- The statement itself declares nothing, but a namespace in it does.
  · obtain ⟨m, hm, rfl⟩ := Option.map_eq_some_iff.1 hsteps
    exact nests_namespaceSteps (h.child (Place.mem_children_of_childOf? hm))
  · cases hsteps

end TypeScript

end SourceIndex.Declarations
