import SourceIndex.Declarations.Rust
import SourceIndex.Proofs.Text.Name
import SourceIndex.Proofs.Tree.Emission
import SourceIndex.Proofs.Uses.Depth.Rust

/-!
# Scopes in Rust

The declarations of a file qualify a function by the modules around it, by its trait, or by the type
and the trait of its implementation.  The uses in the function are attributed to a scope that only
implementations and functions form, an implementation by its type.  So both give a function the same
name where no module or trait with a name is around and no trait is implemented, and nowhere else.
-/

namespace SourceIndex

namespace Declarations.Rust

open SourceIndex.Idiom.Rust

variable (d : Document)

/-- The functions among some items, with the symbols that an owner gives them. -/
def functionsAmong (owner : Option String) (kind : SymbolKind) (items : List Place) :
    List (Place × Symbol) :=
  (items.filter fun c => c.kind == "function_item").filterMap fun c =>
    (function? d owner kind c).map fun y => (c, y)

/-- The functions that one child declares: itself, or those in its body. -/
def childFunctions (s : Scope) (c : Place) : List (Place × Symbol) :=
  match c.kind with
  | "function_item" => functionsAmong d s.name .function [c]
  | "trait_item" =>
      ((d.fieldText c "name").map fun name =>
        functionsAmong d (some (Text.qualify s.name name "::")) .method (bodyChildren c)).getD []
  | "impl_item" =>
      ((implOwner? d c).map fun owner => functionsAmong d (some owner) .method
        (bodyChildren c)).getD []
  | _ => []

/-- The functions of a file for which there are symbols, with their symbols. -/
def functions (root : Place) : List (Place × Symbol) :=
  ((rule d).visits {} root).flatMap fun (s, p) =>
    if d.tooDeep s.depth then [] else p.children.flatMap (childFunctions d s)

/-- What the grammar promises of a tree: the body of a module, a trait or an implementation is a
list of declarations. -/
def IsGrammatical (tree : Node) : Prop :=
  ∀ p ∈ (Place.root tree).subtree, p.isOneOf ["mod_item", "trait_item", "impl_item"] = true →
    ∀ b ∈ p.field? "body", b.kind = "declaration_list"

/-- Does a place stand in an implementation that implements no trait? -/
def isInInherent (p : Place) : Bool :=
  (p.parent?.bind Place.parent?).any fun i => i.kind == "impl_item" && (i.field? "trait").isNone

end Declarations.Rust

namespace Uses.Rust

variable (d : Document) {s : Scope} {p c q : Place} {tree : Node}

/-- The scope that a place forms in the scope above it. -/
def ownScope (above : Option String) (p : Place) : Option String :=
  match p.kind with
  | "function_item" => ((d.fieldText p "name").map fun name => Text.qualify above name "::").or above
  | "impl_item" => (d.fieldText p "type").or above
  | _ => above

/-- The scope of what stands in a place. -/
def scopeInside : Place → Option String
  | .root _ => none
  | .child q ns n => ownScope d (scopeInside q) (.child q ns n)

/-- Does the walk carry a scope into a place? -/
def Carries (root p : Place) (scope : Option String) : Prop :=
  ∃ s : Scope, s.name = scope ∧ (Task.inside s, p) ∈ (rule d).visits (.inside {}) root

/-- The kinds of items that hold other items, and of their bodies. -/
def itemKinds : List String :=
  ["mod_item", "trait_item", "impl_item", "declaration_list", "function_item"]

/-! ## The walk through items -/

theorem rule_descends : (rule d).Descends :=
  fun h => (visit_rule d h).1.height

theorem scopeInside_of_mem_children (hc : c ∈ p.children) :
    scopeInside d c = ownScope d (scopeInside d p) c := by
  obtain ⟨ns, n, rfl⟩ := Place.exists_of_mem_children hc
  rfl

/-- The walk goes into an item, and nowhere else from it. -/
theorem visit_childSteps_iff (hkind : c.kind ∈ itemKinds) {task : Task} :
    Step.visit task q ∈ childSteps d s c ↔
      task = .inside { name := ownScope d s.name c, depth := s.depth + 1 } ∧ q = c := by
  simp only [itemKinds, List.mem_cons, List.not_mem_nil, or_false] at hkind
  rcases hkind with hkind | hkind | hkind | hkind | hkind <;>
    simp [childSteps, hkind, ownScope, Scope.deeper, Scope.enter?, Step.emitAll, Step.emit?]

/-- What the walk goes on to from a call stands in the call. -/
theorem isAlong_of_visit_callSteps {kinds : List String} {task : Task}
    (h : Step.visit task q ∈ callSteps d s p) (hq : q.isAlong kinds = true) :
    p.isAlong kinds = true := by
  unfold callSteps at h
  split at h
  · cases h
  · rename_i f hf
    rcases List.mem_cons.1 h with h | h
    · cases h
    · rcases List.mem_append.1 h with h | h
      · -- The receiver is a child of what is called, which is a child of the call.
        have hvalue : q ∈ f.children := by
          unfold receiverSteps at h
          split at h
          · rename_i v hv
            split at hv
            · have hv := Place.mem_children_of_field? hv
              split at h <;> cases List.mem_singleton.1 h <;> exact hv
            · cases hv
          · cases h
        have hfAlong := (Place.mem_of_isAlong hvalue hq).1
        exact (Place.mem_of_isAlong (Place.mem_children_of_field? hf) hfAlong).1
      · obtain ⟨-, ha⟩ := Step.mem_visit?.1 h
        exact (Place.mem_of_isAlong (Place.mem_children_of_field? ha) hq).1

theorem isAlong_of_visit_childSteps {kinds : List String} {task : Task}
    (h : Step.visit task q ∈ childSteps d s c) (hq : q.isAlong kinds = true) :
    c.isAlong kinds = true := by
  -- Behind everything but a call, the walk goes on to the child itself.
  have hinside : ∀ (items : List Reference) (s' : Scope),
      Step.visit task q ∈ Step.emitAll items ++ [.visit (.inside s') c] →
      c.isAlong kinds = true := by
    intro items s' hmem
    rcases List.mem_append.1 hmem with hmem | hmem
    · exact absurd hmem (Step.visit_notMem_emitAll _)
    · cases List.mem_singleton.1 hmem
      exact hq
  unfold childSteps at h
  split at h
  · exact absurd h (Step.visit_notMem_emitAll _)
  · exact isAlong_of_visit_callSteps d h hq
  · exact absurd h (Step.visit_notMem_emit? _)
  · exact hinside [] _ h
  · exact hinside _ _ h
  · exact hinside _ _ h
  · exact hinside _ _ h
  · exact hinside _ _ h
  · exact hinside _ _ h
  · exact hinside [] _ h

/-- On the way through items the walk carries the scope that they form, as far as it goes down. -/
theorem mem_visits_iff (hp : p ∈ (Place.root tree).subtree) (halong : p.isAlong itemKinds = true)
    {task : Task} :
    (task, p) ∈ (rule d).visits (.inside {}) (.root tree) ↔
      p.level ≤ d.limits.walkDepth.toNat + 1 ∧
        task = .inside { name := scopeInside d p, depth := p.level } := by
  constructor
  · intro hvisit
    -- No other task leads to such a place, since a call is no item.
    refine Rule.forall_mem_visits (rule_descends d) (P := fun task p => p.isAlong itemKinds = true →
      p.level ≤ d.limits.walkDepth.toNat + 1 ∧
        task = .inside { name := scopeInside d p, depth := p.level }) ?_ ?_ _ hvisit halong
    · intro task task' p q hP hstep hq
      cases task with
      | call s =>
          obtain ⟨-, heq⟩ := hP (isAlong_of_visit_callSteps d hstep hq)
          cases heq
      | inside s =>
          rw [rule] at hstep
          split at hstep
          · cases hstep
          · rename_i hdepth
            obtain ⟨c, hc, hstep⟩ := List.mem_flatMap.1 hstep
            have hcAlong := isAlong_of_visit_childSteps d hstep hq
            obtain ⟨hpAlong, hkind⟩ := Place.mem_of_isAlong hc hcAlong
            obtain ⟨rfl, rfl⟩ := (visit_childSteps_iff d hkind).1 hstep
            obtain ⟨-, heq⟩ := hP hpAlong
            cases heq
            rw [Document.tooDeep, decide_eq_true_eq] at hdepth
            rw [Place.level_of_mem_children hc, scopeInside_of_mem_children d hc]
            exact ⟨by simp only at hdepth; omega, rfl⟩
    · exact fun _ => ⟨Nat.zero_le _, rfl⟩
  · rintro ⟨hlevel, rfl⟩
    refine Place.forall_mem_subtree (P := fun p => p.isAlong itemKinds = true →
      p.level ≤ d.limits.walkDepth.toNat + 1 →
      (Task.inside { name := scopeInside d p, depth := p.level }, p) ∈
        (rule d).visits (.inside {}) (.root tree)) ?_ ?_ p hp halong hlevel
    · intro p c hc hP hcAlong hlevel
      obtain ⟨hpAlong, hkind⟩ := Place.mem_of_isAlong hc hcAlong
      rw [Place.level_of_mem_children hc] at hlevel ⊢
      rw [scopeInside_of_mem_children d hc]
      refine Rule.mem_visits_of_visit (rule_descends d) (hP hpAlong (by omega)) ?_
      have hdepth : ¬ d.tooDeep p.level = true := by
        rw [Document.tooDeep, decide_eq_true_eq]
        omega
      rw [rule, if_neg hdepth]
      exact List.mem_flatMap.2 ⟨c, hc, (visit_childSteps_iff d hkind).2 ⟨rfl, rfl⟩⟩
    · exact fun _ _ => Rule.self_mem_visits (rule_descends d) _ _

end Uses.Rust

namespace Declarations.Rust

open SourceIndex.Uses.Rust (itemKinds scopeInside mem_visits_iff scopeInside_of_mem_children ownScope)

variable (d : Document) {s : Scope} {p c q : Place} {tree : Node}

/-! ## The walk through modules -/

theorem visit_childSteps {s' : Scope} (h : Step.visit s' q ∈ childSteps d s c) :
    c.kind = "mod_item" ∧ c.field? "body" = some q := by
  unfold childSteps at h
  split at h
  case h_7 hkind =>
    unfold moduleSteps at h
    split at h
    · cases h
    · rcases List.mem_cons.1 h with h | h
      · cases h
      · exact ⟨hkind, (Step.mem_visit?.1 h).2⟩
  all_goals first
    | exact absurd h (Step.visit_notMem_emitAll _)
    | exact absurd h (Step.visit_notMem_emit? _)
    | cases h

theorem visit_rule {s' : Scope} (h : Step.visit s' q ∈ rule d s p) :
    ∃ c ∈ p.children, c.kind = "mod_item" ∧ c.field? "body" = some q := by
  rw [rule] at h
  split at h
  · cases h
  · obtain ⟨c, hc, h⟩ := List.mem_flatMap.1 h
    exact ⟨c, hc, visit_childSteps d h⟩

theorem rule_descends : (rule d).Descends := by
  intro s s' p q h
  obtain ⟨c, hc, -, hq⟩ := visit_rule d h
  have hlt := Place.height_lt_of_mem_children (Place.mem_children_of_field? hq)
  exact Nat.lt_trans hlt (Place.height_lt_of_mem_children hc)

/-- The kinds of modules and their bodies. -/
def moduleKinds : List String :=
  ["mod_item", "declaration_list"]

theorem moduleKinds_subset : moduleKinds ⊆ itemKinds := by
  decide

/-- A place to which the walk comes: the root, or the body of a module in such a place. -/
structure IsOpen (tree : Node) (p : Place) : Prop where
  ofTree : p ∈ (Place.root tree).subtree
  along : p.isAlong moduleKinds = true
  ofParent : ∀ c ∈ p.parent?, c.kind = "mod_item"

theorem isOpen_of_mem_visits (h : IsGrammatical tree) {v : Scope × Place}
    (hv : v ∈ (rule d).visits {} (.root tree)) : IsOpen tree v.2 := by
  refine Rule.forall_mem_visits (rule_descends d) (P := fun _ p => IsOpen tree p) ?_ ?_ v hv
  · intro s s' p q hp hstep
    obtain ⟨c, hc, hkind, hq⟩ := visit_rule d hstep
    have hqc := Place.mem_children_of_field? hq
    have hcTree := Place.mem_subtree_of_mem_children hp.ofTree hc
    have hbody := h c hcTree (by rw [Place.isOneOf, hkind]; decide) q hq
    refine ⟨Place.mem_subtree_of_mem_children hcTree hqc, ?_, ?_⟩
    · rw [Place.isAlong_of_mem_children hqc, Place.isAlong_of_mem_children hc, hp.along, hkind, hbody]
      decide
    · rw [Place.parent?_of_mem_children hqc]
      intro c' hc'
      cases hc'
      exact hkind
  · refine ⟨Place.self_mem_subtree _, rfl, fun c hc => ?_⟩
    cases hc

/-- Modules form no scope for uses. -/
theorem scopeInside_of_isAlong (h : p.isAlong moduleKinds = true) : scopeInside d p = none := by
  induction p with
  | root n => rfl
  | child q ns n ih =>
      rw [Place.isAlong, Bool.and_eq_true, List.contains_iff_mem] at h
      have hown : ownScope d none (.child q ns n) = none := by
        have hkind : n.kind = "mod_item" ∨ n.kind = "declaration_list" := by
          simpa [moduleKinds] using h.2
        rcases hkind with hkind | hkind <;> simp [ownScope, Place.kind, Place.node, hkind]
      rw [scopeInside, ih h.1, hown]

/-! ## Functions -/

variable {f : Place × Symbol} {owner : Option String} {kind : SymbolKind}

theorem mem_functionsAmong {items : List Place} :
    f ∈ functionsAmong d owner kind items ↔
      f.1 ∈ items ∧ f.1.kind = "function_item" ∧ function? d owner kind f.1 = some f.2 := by
  obtain ⟨p, y⟩ := f
  simp only [functionsAmong, List.mem_filterMap, List.mem_filter, beq_iff_eq, Option.map_eq_some_iff,
    Prod.mk.injEq]
  constructor
  · rintro ⟨c, ⟨hc, hkind⟩, y', hy, rfl, rfl⟩
    exact ⟨hc, hkind, hy⟩
  · rintro ⟨hc, hkind, hy⟩
    exact ⟨p, ⟨hc, hkind⟩, y, hy, rfl, rfl⟩

theorem function?_eq_some {y : Symbol} (h : function? d owner kind p = some y) :
    ∃ name, d.fieldText p "name" = some name ∧
      y.qualifiedName = Text.qualify owner name "::" ∧ y.parentName = owner := by
  obtain ⟨name, hname, hy⟩ := Option.bind_eq_some_iff.1 h
  cases hy
  exact ⟨name, hname, rfl, rfl⟩

/-- The members of an implementation belong to its type exactly if it implements no trait. -/
theorem implOwner?_eq_some {o : String} (h : implOwner? d c = some o) :
    ∃ type, d.fieldText c "type" = some type ∧
      (o = type ↔ o = "" ∨ (c.field? "trait").isNone = true) := by
  obtain ⟨type, htype, rfl⟩ := Option.map_eq_some_iff.1 h
  refine ⟨type, htype, ?_⟩
  cases htrait : c.field? "trait" with
  | none => simp [Document.fieldText, htrait]
  | some t =>
      -- The marks between type and trait make the owner longer than the type.
      have hlength : type ++ "::" ++ d.text t ≠ type := by
        intro heq
        have hlength := congrArg String.length heq
        simp only [String.length_append] at hlength
        have hmarks : "::".length = 2 := rfl
        omega
      have hne : type ++ "::" ++ d.text t ≠ "" := by
        intro heq
        have hlength := congrArg String.length heq
        simp only [String.length_append, String.length_empty] at hlength
        have hmarks : "::".length = 2 := rfl
        omega
      simp [Document.fieldText, htrait, hlength, hne]

/-- A function with its symbol stands right in a place that the walk for uses goes through. -/
structure StandsIn (tree : Node) (f : Place × Symbol) (q : Place) : Prop where
  ofTree : q ∈ (Place.root tree).subtree
  child : f.1 ∈ q.children
  along : q.isAlong itemKinds = true
  item : f.1.kind = "function_item"
  symbol : ∃ kind, function? d f.2.parentName kind f.1 = some f.2

theorem StandsIn.of_mem_functionsAmong {items : List Place} (hq : q ∈ (Place.root tree).subtree)
    (halong : q.isAlong itemKinds = true) (hitems : items ⊆ q.children)
    (hf : f ∈ functionsAmong d owner kind items) : StandsIn d tree f q ∧ f.2.parentName = owner := by
  obtain ⟨hmem, hkind, hfunction⟩ := (mem_functionsAmong d).1 hf
  obtain ⟨name, -, -, hparent⟩ := function?_eq_some d hfunction
  exact ⟨⟨hq, hitems hmem, halong, hkind, kind, hparent ▸ hfunction⟩, hparent⟩

/-- The functions of a trait or an implementation stand in its body, where the scope is its own. -/
theorem exists_body (h : IsGrammatical tree) (hq : IsOpen tree q) (hc : c ∈ q.children)
    (hkind : c.kind ∈ ["trait_item", "impl_item"])
    (hf : f ∈ functionsAmong d owner kind (bodyChildren c)) :
    ∃ b, (StandsIn d tree f b ∧ f.2.parentName = owner) ∧ scopeInside d b = ownScope d none c ∧
      isInInherent f.1 = (c.kind == "impl_item" && (c.field? "trait").isNone) := by
  cases hb : c.field? "body" with
  | none =>
      rw [bodyChildren, hb] at hf
      cases hf
  | some b =>
      rw [bodyChildren, hb] at hf
      have hcTree := Place.mem_subtree_of_mem_children hq.ofTree hc
      have hbc := Place.mem_children_of_field? hb
      have hbody : b.kind = "declaration_list" := by
        refine h c hcTree ?_ b hb
        rw [Place.isOneOf, List.contains_iff_mem]
        exact List.mem_cons_of_mem _ hkind
      have hmore : ["trait_item", "impl_item"] ⊆ itemKinds := by decide
      have hbAlong : b.isAlong itemKinds = true := by
        rw [Place.isAlong_of_mem_children hbc, Place.isAlong_of_mem_children hc,
          Place.isAlong_mono moduleKinds_subset hq.along, List.contains_iff_mem.2 (hmore hkind), hbody]
        decide
      have hstands := StandsIn.of_mem_functionsAmong d (Place.mem_subtree_of_mem_children hcTree hbc)
        hbAlong (List.Subset.refl _) hf
      refine ⟨b, hstands, ?_, ?_⟩
      · rw [scopeInside_of_mem_children d hbc, scopeInside_of_mem_children d hc,
          scopeInside_of_isAlong d hq.along]
        simp [ownScope, hbody]
      · rw [isInInherent, Place.parent?_of_mem_children hstands.1.child, Option.bind_some,
          Place.parent?_of_mem_children hbc, Option.any_some]

/-- What stands right in the file or in a module stands in no implementation. -/
theorem IsOpen.isInInherent (hq : IsOpen tree q) (hc : c ∈ q.children) : isInInherent c = false := by
  rw [Rust.isInInherent, Place.parent?_of_mem_children hc, Option.bind_some]
  cases hm : q.parent? with
  | none => rfl
  | some m =>
      rw [Option.any_some, hq.ofParent m hm]
      rfl

/-- Every function of a file has its symbol among those of the file. -/
theorem mem_symbols_of_mem_functions {root : Place} (hf : f ∈ functions d root) :
    f.2 ∈ symbols d root := by
  obtain ⟨⟨s, q⟩, hv, hf⟩ := List.mem_flatMap.1 hf
  refine (Rule.mem_walk_iff (rule_descends d)).2 ⟨_, hv, ?_⟩
  simp only at hf
  split at hf
  · cases hf
  · rename_i hdepth
    obtain ⟨c, hc, hf⟩ := List.mem_flatMap.1 hf
    rw [rule, if_neg hdepth]
    refine List.mem_flatMap.2 ⟨c, hc, ?_⟩
    unfold childFunctions at hf
    split at hf
    case h_1 hkind =>
      obtain ⟨hmem, -, hfunction⟩ := (mem_functionsAmong d).1 hf
      obtain rfl := List.mem_singleton.1 hmem
      simp [childSteps, hkind, hfunction]
    case h_2 hkind =>
      cases hname : d.fieldText c "name" with
      | none => simp [hname] at hf
      | some name =>
          rw [hname] at hf
          obtain ⟨hmem, hitem, hfunction⟩ := (mem_functionsAmong d).1 hf
          simp only [childSteps, hkind, Step.emit_mem_emitAll, traitSymbols, hname]
          exact List.mem_cons_of_mem _ (List.mem_filterMap.2 ⟨f.1, hmem, by simp [hitem, hfunction]⟩)
    case h_3 hkind =>
      cases ho : implOwner? d c with
      | none => simp [ho] at hf
      | some o =>
          rw [ho] at hf
          obtain ⟨hmem, hitem, hfunction⟩ := (mem_functionsAmong d).1 hf
          simp only [childSteps, hkind, Step.emit_mem_emitAll, implSymbols, ho]
          exact List.mem_filterMap.2 ⟨f.1, hmem, by simp [hitem, hfunction]⟩
    case h_4 => cases hf

/-- Types have symbols of their own kinds and of fields. -/
theorem kind_of_mem_structSymbols {y : Symbol} (h : y ∈ structSymbols d owner c) :
    y.kind = .struct ∨ y.kind = .field := by
  unfold structSymbols at h
  split at h
  · cases h
  · rcases List.mem_cons.1 h with rfl | h
    · exact Or.inl rfl
    · obtain ⟨m, -, hm⟩ := List.mem_filterMap.1 h
      obtain ⟨name, -, hy⟩ := Option.bind_eq_some_iff.1 hm
      cases hy
      exact Or.inr rfl

theorem kind_of_mem_enumSymbols {y : Symbol} (h : y ∈ enumSymbols d owner c) :
    y.kind = .enum ∨ y.kind = .field := by
  unfold enumSymbols at h
  split at h
  · cases h
  · rcases List.mem_cons.1 h with rfl | h
    · exact Or.inl rfl
    · obtain ⟨m, -, hm⟩ := List.mem_filterMap.1 h
      obtain ⟨name, -, rfl⟩ := Option.map_eq_some_iff.1 hm
      exact Or.inr rfl

theorem kind_of_typeAlias? {y : Symbol} (h : typeAlias? d owner c = some y) :
    y.kind = .typeAlias := by
  obtain ⟨name, -, hy⟩ := Option.bind_eq_some_iff.1 h
  cases hy
  rfl

theorem kind_of_value? {word : String} {y : Symbol} (h : value? d owner word kind c = some y) :
    y.kind = kind := by
  obtain ⟨name, -, hy⟩ := Option.bind_eq_some_iff.1 h
  cases hy
  rfl

/-- A symbol of a function or method that a child gives is that of a function of the child, of a
macro, or of a method that a trait asks for. -/
theorem exists_of_emit_childSteps {y : Symbol} (h : Step.emit y ∈ childSteps d s c)
    (hkind : y.kind = .function ∨ y.kind = .method) :
    (∃ p, (p, y) ∈ childFunctions d s c) ∨ (∃ o p, macroSymbol? d o p = some y) ∨
      ∃ o p, requiredMethod? d o p = some y := by
  unfold childSteps at h
  split at h
  case h_1 hc =>
    refine Or.inl ⟨c, ?_⟩
    simp only [childFunctions, hc, mem_functionsAmong, List.mem_singleton, true_and]
    exact Step.emit_mem_emit?.1 h
  case h_2 =>
    rcases kind_of_mem_structSymbols d (Step.emit_mem_emitAll.1 h) with hy | hy <;> simp [hy] at hkind
  case h_3 =>
    rcases kind_of_mem_structSymbols d (Step.emit_mem_emitAll.1 h) with hy | hy <;> simp [hy] at hkind
  case h_4 =>
    rcases kind_of_mem_enumSymbols d (Step.emit_mem_emitAll.1 h) with hy | hy <;> simp [hy] at hkind
  case h_5 hc =>
    have h := Step.emit_mem_emitAll.1 h
    unfold traitSymbols at h
    split at h
    · cases h
    · rename_i name hname
      rcases List.mem_cons.1 h with rfl | h
      · rcases hkind with hy | hy <;> cases hy
      · obtain ⟨m, hm, hy⟩ := List.mem_filterMap.1 h
        split at hy
        · rename_i hitem
          refine Or.inl ⟨m, ?_⟩
          simp [childFunctions, hc, hname, mem_functionsAmong, hm, hitem, hy]
        · exact Or.inr (Or.inr ⟨_, _, hy⟩)
        · cases hy
  case h_6 hc =>
    have h := Step.emit_mem_emitAll.1 h
    unfold implSymbols at h
    split at h
    · cases h
    · rename_i o ho
      obtain ⟨m, hm, hy⟩ := List.mem_filterMap.1 h
      split at hy
      · rename_i hitem
        refine Or.inl ⟨m, ?_⟩
        simp [childFunctions, hc, ho, mem_functionsAmong, hm, hitem, hy]
      · simp [kind_of_typeAlias? d hy] at hkind
      · simp [kind_of_value? d hy] at hkind
      · cases hy
  case h_7 =>
    unfold moduleSteps at h
    split at h
    · cases h
    · rcases List.mem_cons.1 h with h | h
      · cases h
        rcases hkind with hy | hy <;> cases hy
      · exact absurd h (Step.emit_notMem_visit? _ _)
  case h_8 => simp [kind_of_typeAlias? d (Step.emit_mem_emit?.1 h)] at hkind
  case h_9 => simp [kind_of_value? d (Step.emit_mem_emit?.1 h)] at hkind
  case h_10 => simp [kind_of_value? d (Step.emit_mem_emit?.1 h)] at hkind
  case h_11 => exact Or.inr (Or.inl ⟨_, _, Step.emit_mem_emit?.1 h⟩)
  case h_12 => cases h

/-- Every symbol of a function or method is that of a function of the file, of a macro, or of a
method that a trait asks for. -/
theorem exists_of_mem_symbols {root : Place} {y : Symbol} (hy : y ∈ symbols d root)
    (hkind : y.kind = .function ∨ y.kind = .method) :
    (∃ p, (p, y) ∈ functions d root) ∨ (∃ o p, macroSymbol? d o p = some y) ∨
      ∃ o p, requiredMethod? d o p = some y := by
  obtain ⟨⟨s, q⟩, hv, hemit⟩ := (Rule.mem_walk_iff (rule_descends d)).1 hy
  rw [rule] at hemit
  split at hemit
  · cases hemit
  · rename_i hdepth
    obtain ⟨c, hc, hemit⟩ := List.mem_flatMap.1 hemit
    refine (exists_of_emit_childSteps d hemit hkind).imp_left ?_
    rintro ⟨p, hp⟩
    refine ⟨p, List.mem_flatMap.2 ⟨_, hv, ?_⟩⟩
    simp only [if_neg hdepth]
    exact List.mem_flatMap.2 ⟨c, hc, hp⟩

/-- The owner of a function has the text of the scope in which the function stands exactly if it has
none, or is the type of an implementation of no trait. -/
theorem exists_surroundings (h : IsGrammatical tree) (hf : f ∈ functions d (.root tree)) :
    ∃ q, StandsIn d tree f q ∧
      (f.2.parentName.getD "" = (scopeInside d q).getD "" ↔
        f.2.parentName.getD "" = "" ∨ isInInherent f.1 = true) := by
  obtain ⟨⟨s, q⟩, hv, hf⟩ := List.mem_flatMap.1 hf
  have hq := isOpen_of_mem_visits d h hv
  simp only at hf
  split at hf
  · cases hf
  obtain ⟨c, hc, hf⟩ := List.mem_flatMap.1 hf
  unfold childFunctions at hf
  split at hf
  case h_1 =>
    obtain ⟨hstands, -⟩ := StandsIn.of_mem_functionsAmong d hq.ofTree
      (Place.isAlong_mono moduleKinds_subset hq.along) (by simpa using hc) hf
    have hfree := hq.isInInherent hstands.child
    refine ⟨q, hstands, ?_⟩
    simp [scopeInside_of_isAlong d hq.along, hfree]
  case h_2 hkind =>
    cases hname : d.fieldText c "name" with
    | none =>
        rw [hname] at hf
        cases hf
    | some name =>
        rw [hname] at hf
        obtain ⟨b, ⟨hstands, -⟩, hscope, hfree⟩ := exists_body d h hq hc (by simp [hkind]) hf
        refine ⟨b, hstands, ?_⟩
        simp [hscope, hfree, hkind, ownScope]
  case h_3 hkind =>
    cases ho : implOwner? d c with
    | none =>
        rw [ho] at hf
        cases hf
    | some o =>
        rw [ho] at hf
        obtain ⟨type, htype, howner⟩ := implOwner?_eq_some d ho
        obtain ⟨b, ⟨hstands, hparent⟩, hscope, hinherent⟩ :=
          exists_body d h hq hc (by simp [hkind]) hf
        refine ⟨b, hstands, ?_⟩
        have hown : ownScope d none c = some type := by simp [ownScope, hkind, htype]
        rw [hparent, hscope, hown, hinherent, hkind]
        simpa using howner
  case h_4 => cases hf

/-- The walk for uses carries one scope into a function, if it comes down to it. -/
theorem StandsIn.carries_iff (h : StandsIn d tree f q) {scope : Option String} :
    Uses.Rust.Carries d (.root tree) f.1 scope ↔
      f.1.level ≤ d.limits.walkDepth.toNat + 1 ∧ scope = scopeInside d f.1 := by
  have hfTree := Place.mem_subtree_of_mem_children h.ofTree h.child
  have hfAlong : f.1.isAlong itemKinds = true := by
    rw [Place.isAlong_of_mem_children h.child, h.along, h.item]
    decide
  constructor
  · rintro ⟨s, rfl, hs⟩
    obtain ⟨hlevel, heq⟩ := (mem_visits_iff d hfTree hfAlong).1 hs
    cases heq
    exact ⟨hlevel, rfl⟩
  · rintro ⟨hlevel, rfl⟩
    exact ⟨_, rfl, (mem_visits_iff d hfTree hfAlong).2 ⟨hlevel, rfl⟩⟩

/-- The functions have the symbols of functions and methods, those of macros and of the methods that
a trait asks for apart.  The uses in all of them are attributed to the qualified names of their
symbols exactly when every function that the walk for uses can come to has an owner without a text,
or stands in an implementation that implements no trait. -/
theorem scopes_agree_iff (h : IsGrammatical tree) :
    (∀ f ∈ functions d (.root tree), f.2 ∈ symbols d (.root tree)) ∧
    (∀ y ∈ symbols d (.root tree), y.kind = .function ∨ y.kind = .method →
      (∃ p, (p, y) ∈ functions d (.root tree)) ∨ (∃ o p, macroSymbol? d o p = some y) ∨
        ∃ o p, requiredMethod? d o p = some y) ∧
    ((∀ f ∈ functions d (.root tree), ∀ scope,
        Uses.Rust.Carries d (.root tree) f.1 scope → scope = some f.2.qualifiedName) ↔
      ∀ f ∈ functions d (.root tree), f.1.level ≤ d.limits.walkDepth.toNat + 1 →
        f.2.parentName.getD "" = "" ∨ isInInherent f.1 = true) := by
  refine ⟨fun _ => mem_symbols_of_mem_functions d, fun _ => exists_of_mem_symbols d, ?_⟩
  refine forall_congr' fun f => forall_congr' fun hf => ?_
  obtain ⟨q, hstands, howner⟩ := exists_surroundings d h hf
  obtain ⟨kind, hfunction⟩ := hstands.symbol
  obtain ⟨name, hname, hqualified, -⟩ := function?_eq_some d hfunction
  have hscope : scopeInside d f.1 = some (Text.qualify (scopeInside d q) name "::") := by
    rw [scopeInside_of_mem_children d hstands.child]
    simp [ownScope, hstands.item, hname]
  rw [← howner, ← Text.qualify_inj name "::", ← hqualified]
  simp only [hstands.carries_iff, hscope]
  constructor
  · intro hall hlevel
    exact (Option.some.inj (hall _ ⟨hlevel, rfl⟩)).symm
  · rintro himp scope ⟨hlevel, rfl⟩
    rw [himp hlevel]

/-- The tree of `fn f() { g(); }` from an offset on. -/
def callerAt (n : Nat) : Node :=
  .mk "function_item" true [] n (n + 15)
    [.token "fn" n (n + 2), .leaf "identifier" ["name"] (n + 3) (n + 4),
      .mk "parameters" true ["parameters"] (n + 4) (n + 6)
        [.token "(" (n + 4) (n + 5), .token ")" (n + 5) (n + 6)],
      .mk "block" true ["body"] (n + 7) (n + 15)
        [.token "\x7b" (n + 7) (n + 8),
          .mk "expression_statement" true [] (n + 9) (n + 13)
            [.mk "call_expression" true [] (n + 9) (n + 12)
                [.leaf "identifier" ["function"] (n + 9) (n + 10),
                  .mk "arguments" true ["arguments"] (n + 10) (n + 12)
                    [.token "(" (n + 10) (n + 11), .token ")" (n + 11) (n + 12)]],
              .token ";" (n + 12) (n + 13)],
          .token "\x7d" (n + 14) (n + 15)]]

/-- A function in a module. -/
def functionInModule : Document :=
  { path := "a.rs"
    bytes := Text.Utf8.encode "mod m \x7b fn f() \x7b g(); \x7d \x7d\n".toList
    limits := {} }

/-- The tree of `functionInModule`. -/
def functionInModuleTree : Node :=
  .mk "source_file" true [] 0 26
    [.mk "mod_item" true [] 0 25
      [.token "mod" 0 3, .leaf "identifier" ["name"] 4 5,
        .mk "declaration_list" true ["body"] 6 25
          [.token "\x7b" 6 7, callerAt 8, .token "\x7d" 24 25]]]

theorem functionInModule_scope_ne :
    IsGrammatical functionInModuleTree ∧
      ∃ f ∈ functions functionInModule (.root functionInModuleTree), ∃ scope,
        Uses.Rust.Carries functionInModule (.root functionInModuleTree) f.1 scope ∧
          scope ≠ some f.2.qualifiedName := by
  have hgrammar : IsGrammatical functionInModuleTree := by
    unfold IsGrammatical
    decide +kernel
  have hne : ∃ f ∈ functions functionInModule (.root functionInModuleTree),
      f.1.level ≤ functionInModule.limits.walkDepth.toNat + 1 ∧
        scopeInside functionInModule f.1 ≠ some f.2.qualifiedName := by
    decide +kernel
  obtain ⟨f, hf, hlevel, hne⟩ := hne
  obtain ⟨q, hstands, -⟩ := exists_surroundings functionInModule hgrammar hf
  exact ⟨hgrammar, f, hf, _, hstands.carries_iff.2 ⟨hlevel, rfl⟩, hne⟩

/-- A function in an implementation of no trait. -/
def functionInImplementation : Document :=
  { path := "a.rs"
    bytes := Text.Utf8.encode "impl S \x7b fn f() \x7b g(); \x7d \x7d\n".toList
    limits := {} }

/-- The tree of `functionInImplementation`. -/
def functionInImplementationTree : Node :=
  .mk "source_file" true [] 0 27
    [.mk "impl_item" true [] 0 26
      [.token "impl" 0 4, .leaf "type_identifier" ["type"] 5 6,
        .mk "declaration_list" true ["body"] 7 26
          [.token "\x7b" 7 8, callerAt 9, .token "\x7d" 25 26]]]

theorem functionInImplementation_scope_eq :
    IsGrammatical functionInImplementationTree ∧
      ∀ f ∈ functions functionInImplementation (.root functionInImplementationTree), ∀ scope,
        Uses.Rust.Carries functionInImplementation (.root functionInImplementationTree) f.1 scope →
          scope = some f.2.qualifiedName := by
  have hgrammar : IsGrammatical functionInImplementationTree := by
    unfold IsGrammatical
    decide +kernel
  obtain ⟨-, -, hiff⟩ := scopes_agree_iff functionInImplementation hgrammar
  exact ⟨hgrammar, hiff.2 (by decide +kernel)⟩

end Declarations.Rust

end SourceIndex
