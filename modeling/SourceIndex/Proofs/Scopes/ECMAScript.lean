import SourceIndex.Declarations.TypeScript
import SourceIndex.Proofs.Text.Name
import SourceIndex.Proofs.Tree.Emission
import SourceIndex.Proofs.Uses.Depth.ECMAScript

/-!
# Scopes in ECMAScript

The declarations of a file qualify a function or class by the namespaces around it, and a method by
its class or by the variable that the class is bound to.  The uses inside are attributed to a scope
that functions, classes, interfaces and methods form, of objects as well.  Both give a declaration
the same name exactly where the scope around it has the text of what the declaration belongs to.
-/

namespace SourceIndex

namespace Uses.ECMAScript

variable (d : Document) {s : Scope} {p c q : Place} {tree : Node} {scope : Option String}

/-- Does the walk for uses make the declaration at a place a scope? -/
def opensScope (p : Place) : Bool :=
  p.isOneOf ["function_declaration", "generator_function_declaration", "method_definition",
    "class_declaration", "abstract_class_declaration", "class"] ||
    p.kind == "variable_declarator" && bindsFunction p

/-- What the walk does with a place, in a scope. -/
inductive Entry where
  /-- It looks at the children one by one. -/
  | inside (scope : Option String)
  /-- It looks into what is called and into the arguments. -/
  | call (scope : Option String)
  /-- It looks into the object of the member that is called. -/
  | callee (scope : Option String)
  /-- It looks into the arguments. -/
  | creation (scope : Option String)
  deriving DecidableEq

/-- What the walk does with a child of a place, if it comes to it. -/
def Entry.into (c : Place) : Entry → Entry
  | inside scope =>
      match c.kind with
      | "call_expression" => call scope
      | "new_expression" => creation scope
      | "interface_declaration" => inside ((namedScope d ⟨scope, 0⟩ c).or scope)
      | _ => inside (if opensScope c then (namedScope d ⟨scope, 0⟩ c).or scope else scope)
  | call scope => if c.kind = "member_expression" then callee scope else inside scope
  | callee scope => if c.kind = "call_expression" then call scope else inside scope
  | creation scope => inside scope

/-- What the walk does with a place, if it comes to it. -/
def entry : Place → Entry
  | .root _ => .inside none
  | .child q ns n => (entry q).into d (.child q ns n)

/-- What the walk does with the place around a place. -/
def entryAround (p : Place) : Entry :=
  (p.parent?.map (entry d)).getD (.inside none)

/-- Does the walk carry a scope into a place? -/
def Carries (root p : Place) (scope : Option String) : Prop :=
  ∃ s : Scope, s.name = scope ∧ (Task.inside s, p) ∈ (rule d).visits (.inside {}) root

/-- What the grammar promises of a tree: the arguments of a call are no member expression. -/
def IsGrammatical (tree : Node) : Prop :=
  ∀ p ∈ (Place.root tree).subtree, p.kind = "call_expression" →
    ∀ a ∈ p.field? "arguments", a.kind ≠ "member_expression"

theorem rule_descends : (rule d).Descends :=
  fun h => (visit_rule d h).1.height

theorem entry_of_mem_children (hc : c ∈ p.children) : entry d c = (entry d p).into d c := by
  obtain ⟨ns, n, rfl⟩ := Place.exists_of_mem_children hc
  rfl

/-- A task that fits what the walk does with a place. -/
def Entry.Fits : Entry → Task → Prop
  | inside scope, .inside s | call scope, .call s => s.name = scope
  | _, _ => False

theorem Entry.Fits.inside_eq {e : Entry} (h : e.Fits (.inside s)) : e = .inside s.name := by
  cases e <;> cases h
  rfl

theorem Entry.Fits.call_eq {e : Entry} (h : e.Fits (.call s)) : e = .call s.name := by
  cases e <;> cases h
  rfl

/-- The walk takes nothing but calls for calls. -/
theorem kind_of_entry_eq_call (h : entry d p = .call scope) : p.kind = "call_expression" := by
  cases p with
  | root n => cases h
  | child q ns n =>
      rw [entry] at h
      cases hq : entry d q <;> rw [hq] at h <;> simp only [Entry.into] at h
      · split at h
        · assumption
        all_goals cases h
      · split at h <;> cases h
      · split at h
        · assumption
        · cases h
      · cases h

/-- A declaration that opens a scope puts its name behind the scope around it. -/
theorem entry_of_opensScope (hc : c ∈ p.children) (hopens : opensScope c = true)
    (hp : entry d p = .inside scope) :
    entry d c = .inside ((namedScope d ⟨scope, 0⟩ c).or scope) := by
  have hkind : c.kind ≠ "call_expression" ∧ c.kind ≠ "new_expression" := by
    constructor <;> intro hkind <;> simp [opensScope, Place.isOneOf, hkind] at hopens
  rw [entry_of_mem_children d hc, hp, Entry.into]
  split
  · exact absurd ‹_› hkind.1
  · exact absurd ‹_› hkind.2
  · rfl
  · rw [if_pos hopens]

/-- A place of the tree, with a task that fits what the walk does there. -/
structure Arrives (root : Place) (task : Task) (p : Place) : Prop where
  ofTree : p ∈ root.subtree
  fits : (entry d p).Fits task

/-- From a call the walk goes on in the same scope. -/
theorem arrives_of_visit_callSteps (h : IsGrammatical tree) (hp : Arrives d (.root tree) (.call s) p)
    {task : Task} (hstep : Step.visit task q ∈ callSteps d s p) :
    Arrives d (.root tree) task q := by
  have hentry := hp.fits.call_eq
  unfold callSteps at hstep
  split at hstep
  · cases hstep
  rename_i f hf
  have hfp := Place.mem_children_of_field? hf
  have hfTree := Place.mem_subtree_of_mem_children hp.ofTree hfp
  have hfEntry := entry_of_mem_children d hfp
  rw [hentry, Entry.into] at hfEntry
  split at hstep
  · cases List.mem_singleton.1 hstep
  rcases List.mem_cons.1 hstep with hstep | hstep
  · cases hstep
  rcases List.mem_append.1 hstep with hstep | hstep
  · unfold calleeSteps at hstep
    split at hstep
    · rename_i hmember
      rw [if_pos hmember] at hfEntry
      split at hstep
      · rename_i o ho
        have hof := Place.mem_children_of_field? ho
        have hoTree := Place.mem_subtree_of_mem_children hfTree hof
        have hoEntry := entry_of_mem_children d hof
        rw [hfEntry, Entry.into] at hoEntry
        split at hstep
        · rename_i hcall
          cases List.mem_singleton.1 hstep
          rw [if_pos (beq_iff_eq.1 hcall)] at hoEntry
          exact ⟨hoTree, by rw [hoEntry]; rfl⟩
        · rename_i hcall
          cases List.mem_singleton.1 hstep
          rw [if_neg (fun heq => hcall (beq_iff_eq.2 heq))] at hoEntry
          exact ⟨hoTree, by rw [hoEntry]; rfl⟩
      · cases hstep
    · cases hstep
    · rename_i hmember _
      cases List.mem_singleton.1 hstep
      rw [if_neg hmember] at hfEntry
      exact ⟨hfTree, by rw [hfEntry]; rfl⟩
  · obtain ⟨rfl, ha⟩ := Step.mem_visit?.1 hstep
    have hap := Place.mem_children_of_field? ha
    have haEntry := entry_of_mem_children d hap
    rw [hentry, Entry.into, if_neg (h p hp.ofTree (kind_of_entry_eq_call d hentry) q ha)] at haEntry
    exact ⟨Place.mem_subtree_of_mem_children hp.ofTree hap, by rw [haEntry]; rfl⟩

/-- The kinds of places into which the walk does not look as it does elsewhere. -/
def specialKinds : List String :=
  ["import_statement", "call_expression", "new_expression"]

/-- Where it looks at children one by one, the walk goes into every child of another kind, and
nowhere else from there. -/
theorem visit_childSteps_iff (hc : c ∈ p.children) (hkind : c.kind ∉ specialKinds)
    (hp : entry d p = .inside s.name) :
    ∃ inner, entry d c = .inside inner ∧ ∀ task q, Step.visit task q ∈ childSteps d s c ↔
      task = .inside ⟨inner, s.depth + 1⟩ ∧ q = c := by
  have hopen : opensScope c = true → ∃ inner, entry d c = .inside inner ∧
      ∀ task q, Step.visit task q = scopeStep d s c ↔
        task = .inside ⟨inner, s.depth + 1⟩ ∧ q = c := by
    intro hopens
    refine ⟨_, entry_of_opensScope d hc hopens hp, fun task q => ?_⟩
    rw [scopeStep, Step.visit.injEq]
    rfl
  have hentry := entry_of_mem_children d hc
  rw [hp, Entry.into] at hentry
  unfold childSteps
  split
  case h_1 hc | h_2 hc | h_3 hc => simp [specialKinds, hc] at hkind
  case h_4 | h_5 | h_6 =>
    simpa only [List.mem_singleton] using hopen (by simp [opensScope, Place.isOneOf, *])
  case h_7 | h_8 | h_9 =>
    simpa only [List.mem_append, Step.visit_notMem_emitAll, false_or, List.mem_singleton] using
      hopen (by simp [opensScope, Place.isOneOf, *])
  case h_10 hinterface =>
    simp only [hinterface] at hentry
    refine ⟨_, hentry, fun task q => ?_⟩
    simp only [List.mem_append, Step.visit_notMem_emitAll, false_or, List.mem_singleton, scopeStep,
      Step.visit.injEq]
    rfl
  case h_11 hvariable =>
    cases hbinds : bindsFunction c with
    | true =>
        simpa only [if_true, List.mem_singleton] using
          hopen (by simp [opensScope, hvariable, hbinds])
    | false =>
        have hopens : opensScope c = false := by
          simp [opensScope, Place.isOneOf, hvariable, hbinds]
        simp only [hvariable, hopens, Bool.false_eq_true, if_false] at hentry
        exact ⟨_, hentry, by simp [Scope.deeper]⟩
  case h_12 =>
    have hopens : ¬ opensScope c = true := by
      simp only [opensScope, Place.isOneOf, Bool.or_eq_true, List.contains_iff_mem, List.mem_cons]
      grind
    split at hentry
    · contradiction
    · contradiction
    · contradiction
    · rw [if_neg hopens] at hentry
      exact ⟨_, hentry, by simp [Scope.deeper]⟩

/-- Where the walk looks at children one by one, it goes on from each in its scope. -/
theorem arrives_of_visit_childSteps (h : IsGrammatical tree)
    (hp : Arrives d (.root tree) (.inside s) p) (hc : c ∈ p.children) {task : Task}
    (hstep : Step.visit task q ∈ childSteps d s c) : Arrives d (.root tree) task q := by
  have hentry := hp.fits.inside_eq
  have hcTree := Place.mem_subtree_of_mem_children hp.ofTree hc
  by_cases hkind : c.kind ∈ specialKinds
  · have hcEntry := entry_of_mem_children d hc
    rw [hentry, Entry.into] at hcEntry
    simp only [specialKinds, List.mem_cons, List.not_mem_nil, or_false] at hkind
    rcases hkind with hkind | hkind | hkind <;> simp only [childSteps, hkind] at hstep hcEntry
    · exact absurd hstep (Step.visit_notMem_emitAll _)
    · exact arrives_of_visit_callSteps d h ⟨hcTree, by rw [hcEntry]; rfl⟩ hstep
    · rcases List.mem_append.1 hstep with hstep | hstep
      · exact absurd hstep (Step.visit_notMem_emit? _)
      · obtain ⟨rfl, ha⟩ := Step.mem_visit?.1 hstep
        have hac := Place.mem_children_of_field? ha
        have haEntry := entry_of_mem_children d hac
        rw [hcEntry, Entry.into] at haEntry
        exact ⟨Place.mem_subtree_of_mem_children hcTree hac, by rw [haEntry]; rfl⟩
  · obtain ⟨inner, hcEntry, hvisit⟩ := visit_childSteps_iff d hc hkind hentry
    obtain ⟨rfl, rfl⟩ := (hvisit task q).1 hstep
    exact ⟨hcTree, by rw [hcEntry]; rfl⟩

/-- At every place the walk does what the way from the root to the place says. -/
theorem arrives_of_mem_visits (h : IsGrammatical tree) {v : Task × Place}
    (hv : v ∈ (rule d).visits (.inside {}) (.root tree)) : Arrives d (.root tree) v.1 v.2 := by
  refine Rule.forall_mem_visits (rule_descends d) ?_ ?_ v hv
  · intro task task' p q hp hstep
    cases task with
    | call s => exact arrives_of_visit_callSteps d h hp hstep
    | inside s =>
        rw [rule] at hstep
        split at hstep
        · cases hstep
        obtain ⟨c, hc, hstep⟩ := List.mem_flatMap.1 hstep
        exact arrives_of_visit_childSteps d h hp hc hstep
  · exact ⟨Place.self_mem_subtree _, rfl⟩

/-- The walk carries a scope into a place only where the way to the place says so. -/
theorem entry_of_carries (h : IsGrammatical tree) (hcarries : Carries d (.root tree) p scope) :
    entry d p = .inside scope := by
  obtain ⟨s, rfl, hs⟩ := hcarries
  exact (arrives_of_mem_visits d h hs).fits.inside_eq

/-- Does the walk look at children one by one all the way down to a place? -/
def isDirect : Place → Bool
  | .root _ => true
  | .child q _ n => isDirect q && !specialKinds.contains n.kind

/-- The walk comes to all such places, as far as it goes down. -/
theorem exists_carries_of_isDirect (hp : p ∈ (Place.root tree).subtree) (hdirect : isDirect p = true)
    (hlevel : p.level ≤ d.limits.walkDepth.toNat + 1) :
    ∃ scope, Carries d (.root tree) p scope := by
  suffices hvisit : ∃ scope, entry d p = .inside scope ∧
      (Task.inside ⟨scope, p.level⟩, p) ∈ (rule d).visits (.inside {}) (.root tree) by
    obtain ⟨scope, -, hvisit⟩ := hvisit
    exact ⟨scope, _, rfl, hvisit⟩
  refine Place.forall_mem_subtree (P := fun p => isDirect p = true →
    p.level ≤ d.limits.walkDepth.toNat + 1 → ∃ scope, entry d p = .inside scope ∧
      (Task.inside ⟨scope, p.level⟩, p) ∈ (rule d).visits (.inside {}) (.root tree)) ?_ ?_
    p hp hdirect hlevel
  · intro p c hc hP hdirect hlevel
    have hlevelChild := Place.level_of_mem_children hc
    obtain ⟨hpDirect, hkind⟩ : isDirect p = true ∧ c.kind ∉ specialKinds := by
      obtain ⟨ns, n, rfl⟩ := Place.exists_of_mem_children hc
      simpa [isDirect, Place.kind, Place.node] using hdirect
    obtain ⟨scope, hentry, hvisit⟩ := hP hpDirect (by omega)
    have hdepth : ¬ d.tooDeep p.level = true := by
      rw [Document.tooDeep, decide_eq_true_eq]
      omega
    obtain ⟨inner, hcEntry, hstep⟩ :=
      visit_childSteps_iff d (s := ⟨scope, p.level⟩) hc hkind hentry
    refine ⟨inner, hcEntry, Rule.mem_visits_of_visit (rule_descends d) hvisit ?_⟩
    rw [rule, if_neg hdepth, hlevelChild]
    exact List.mem_flatMap.2 ⟨c, hc, (hstep _ _).2 ⟨rfl, rfl⟩⟩
  · exact fun _ _ => ⟨none, rfl, Rule.self_mem_visits (rule_descends d) _ _⟩

end Uses.ECMAScript

namespace Declarations.ECMAScript

open SourceIndex.Uses.ECMAScript (opensScope bindsFunction entryAround Carries IsGrammatical
  namedScope entry_of_opensScope entry_of_carries isDirect exists_carries_of_isDirect)

variable (d : Document)

/-- The methods in the body of a class, with the symbols that an owner gives them. -/
def methodsOf (s : Scope) (owner : String) (p : Place) : List (Place × Symbol) :=
  if d.tooDeep s.depth then
    []
  else
    (((p.field? "body").map fun body => body.childrenOf "method_definition").getD []).filterMap
      fun m => (method? d owner m).map fun y => (m, y)

/-- The scopes among what one variable declares: a function, or the methods of a class. -/
def variableOpeners (s : Setting) (declaration : Place) (keyword : String) (v : Place) :
    List (Place × Symbol) :=
  if bindsFunction v then
    (variableSymbols d s declaration keyword v).map fun y => (v, y)
  else
    match (v.field? "name").filter fun n => n.kind == "identifier", v.field? "value" with
    | some n, some value =>
        if value.kind == "class" then
          methodsOf d { depth := 1 } (Text.qualify s.name (d.text n) ".") value
        else
          []
    | _, _ => []

/-- The scopes among what one child declares, with their symbols. -/
def childOpeners (s : Setting) (c : Place) : List (Place × Symbol) :=
  match c.kind with
  | "function_declaration" | "generator_function_declaration" =>
      ((function? d s c).map fun y => (c, y)).toList
  | "class_declaration" | "abstract_class_declaration" | "class" =>
      match d.fieldText c "name" with
      | none => []
      | some name =>
          ((classSymbols d s c).take 1).map (fun y => (c, y)) ++
            methodsOf d s.deeper (Text.qualify s.name name ".") c
  | "lexical_declaration" | "variable_declaration" =>
      (c.childrenOf "variable_declarator").flatMap
        (variableOpeners d s c ((c.children.head?.map d.text).getD "var"))
  | _ => []

/-- The declarations of a file that the walk for uses makes scopes, with their symbols. -/
def openers (dialect : Dialect) (root : Place) : List (Place × Symbol) :=
  ((rule d dialect).visits {} root).flatMap fun (s, p) =>
    if d.tooDeep s.depth then []
    else (p.children.filter fun c => (dialect d s c).isNone).flatMap (childOpeners d s)

variable {s : Setting} {p c q : Place} {tree : Node} {dialect : Dialect} {f : Place × Symbol}

/-- A named declaration below a place that opens a scope, with a symbol that has the name behind its
owner. -/
structure IsOpener (r : Place) (f : Place × Symbol) : Prop where
  child : ∃ q ∈ r.subtree, f.1 ∈ q.children
  opens : opensScope f.1 = true
  named : ∃ name, d.fieldText f.1 "name" = some name ∧
    f.2.qualifiedName = Text.qualify f.2.parentName name "."

theorem IsOpener.of_mem_subtree {r : Place} (h : IsOpener d p f) (hp : p ∈ r.subtree) :
    IsOpener d r f := by
  obtain ⟨q, hq, hf⟩ := h.child
  exact ⟨⟨q, Place.mem_subtree_trans hp hq, hf⟩, h.opens, h.named⟩

theorem isOpener_of_mem_methodsOf {s : Scope} {owner : String} (h : f ∈ methodsOf d s owner p) :
    IsOpener d p f := by
  unfold methodsOf at h
  split at h
  · cases h
  obtain ⟨m, hm, h⟩ := List.mem_filterMap.1 h
  obtain ⟨y, hy, rfl⟩ := Option.map_eq_some_iff.1 h
  obtain ⟨name, hname, hsome⟩ := Option.bind_eq_some_iff.1 hy
  cases hsome
  cases hb : p.field? "body" with
  | none =>
      rw [hb] at hm
      cases hm
  | some b =>
      rw [hb] at hm
      obtain ⟨hmb, hkind⟩ := List.mem_filter.1 hm
      have hbp := Place.mem_children_of_field? hb
      exact ⟨⟨b, Place.mem_subtree_of_child hbp, hmb⟩,
        by simp [opensScope, Place.isOneOf, beq_iff_eq.1 hkind], name, hname, rfl⟩

/-- A variable that is bound to a function is a symbol with its name. -/
theorem exists_name_of_mem_variableSymbols {declaration : Place} {keyword : String} {y : Symbol}
    (hbinds : bindsFunction c = true) (hy : y ∈ variableSymbols d s declaration keyword c) :
    ∃ name, d.fieldText c "name" = some name ∧
      y.qualifiedName = Text.qualify y.parentName name "." := by
  unfold variableSymbols at hy
  split at hy
  · cases hy
  rename_i n hn
  have hname : d.fieldText c "name" = some (d.text n) := by
    rw [Document.fieldText, (Option.filter_eq_some_iff.1 hn).1, Option.map_some]
  obtain ⟨value, hvalue, hkind⟩ := (Option.any_eq_true _ _).1 hbinds
  simp only [Place.isOneOf, List.contains_iff_mem, List.mem_cons, List.not_mem_nil, or_false] at hkind
  rw [hvalue] at hy
  rcases hkind with hkind | hkind | hkind <;> simp only [hkind] at hy <;>
    cases List.mem_singleton.1 hy <;> exact ⟨_, hname, rfl⟩

theorem isOpener_of_mem_variableOpeners {declaration : Place} {keyword : String}
    (hv : c ∈ p.childrenOf "variable_declarator")
    (h : f ∈ variableOpeners d s declaration keyword c) : IsOpener d p f := by
  obtain ⟨hc, hkind⟩ := List.mem_filter.1 hv
  have hcTree := Place.mem_subtree_of_child hc
  unfold variableOpeners at h
  split at h
  · rename_i hbinds
    obtain ⟨y, hy, rfl⟩ := List.mem_map.1 h
    exact ⟨⟨p, Place.self_mem_subtree p, hc⟩, by simp [opensScope, beq_iff_eq.1 hkind, hbinds],
      exists_name_of_mem_variableSymbols d hbinds hy⟩
  split at h
  · rename_i n value hn hvalue
    split at h
    · have hvalueTree := Place.mem_subtree_of_field? hcTree hvalue
      exact (isOpener_of_mem_methodsOf d h).of_mem_subtree d hvalueTree
    · cases h
  · cases h

theorem isOpener_of_mem_childOpeners (hc : c ∈ p.children) (h : f ∈ childOpeners d s c) :
    IsOpener d p f := by
  have hcTree := Place.mem_subtree_of_child hc
  unfold childOpeners at h
  split at h
  case h_1 | h_2 =>
    obtain ⟨y, hy, rfl⟩ := Option.map_eq_some_iff.1 (Option.mem_toList.1 h)
    obtain ⟨name, hname, hsome⟩ := Option.bind_eq_some_iff.1 hy
    cases hsome
    exact ⟨⟨p, Place.self_mem_subtree p, hc⟩, by simp [opensScope, Place.isOneOf, *], name, hname, rfl⟩
  case h_3 | h_4 | h_5 =>
    split at h
    · cases h
    rename_i name hname
    rcases List.mem_append.1 h with h | h
    · obtain ⟨y, hy, rfl⟩ := List.mem_map.1 h
      simp only [classSymbols, hname, List.take_succ_cons, List.take_zero, List.mem_singleton] at hy
      subst hy
      exact ⟨⟨p, Place.self_mem_subtree p, hc⟩, by simp [opensScope, Place.isOneOf, *], name, hname,
        rfl⟩
    · exact (isOpener_of_mem_methodsOf d h).of_mem_subtree d hcTree
  case h_6 | h_7 =>
    obtain ⟨v, hv, h⟩ := List.mem_flatMap.1 h
    exact (isOpener_of_mem_variableOpeners d hv h).of_mem_subtree d hcTree
  case h_8 => cases h

/-! ## Which symbols these are -/

/-- The kinds of symbols of functions and classes. -/
def scopeKinds : List SymbolKind :=
  [.function, .method, .constructor, .class]

/-- A symbol of a place that the walk for uses makes no scope. -/
def IsUnscoped (y : Symbol) : Prop :=
  ∃ p name kind details, opensScope p = false ∧ y = d.symbol p name kind details

/-- What a dialect adds: it goes on downwards, and adds no functions and classes that are scopes. -/
structure Dialect.IsPlain (dialect : Dialect) : Prop where
  descends : ∀ {d s c steps s' q}, dialect d s c = some steps → Step.visit s' q ∈ steps →
    q ∈ c.subtree
  unscoped : ∀ {d s c steps y}, dialect d s c = some steps → Step.emit y ∈ steps →
    y.kind ∈ scopeKinds → IsUnscoped d y

theorem javascript_isPlain : Dialect.IsPlain javascript where
  descends := nofun
  unscoped := nofun

/-- A namespace leads to its body, and is a symbol of its own kind. -/
theorem visit_namespaceSteps {s' : Setting}
    (h : Step.visit s' q ∈ TypeScript.namespaceSteps d s p) : q ∈ p.subtree := by
  unfold TypeScript.namespaceSteps at h
  split at h
  · cases h
  · rcases List.mem_cons.1 h with h | h
    · cases h
    · have hq := Place.mem_children_of_field? (Step.mem_visit?.1 h).2
      exact Place.mem_subtree_of_child hq

theorem emit_namespaceSteps {y : Symbol} (h : Step.emit y ∈ TypeScript.namespaceSteps d s p) :
    y.kind = .module := by
  unfold TypeScript.namespaceSteps at h
  split at h
  · cases h
  · rcases List.mem_cons.1 h with h | h
    · cases h
      rfl
    · exact absurd h (Step.emit_notMem_visit? _ _)

/-- The only functions that an interface adds are the methods that it asks for. -/
theorem isUnscoped_of_mem_interfaceSymbols {y : Symbol}
    (h : y ∈ TypeScript.interfaceSymbols d s p) (hkind : y.kind ∈ scopeKinds) : IsUnscoped d y := by
  unfold TypeScript.interfaceSymbols at h
  split at h
  · cases h
  rcases List.mem_cons.1 h with rfl | h
  · simp [scopeKinds, symbolIn, Document.symbol, Symbol.ofDetails] at hkind
  obtain ⟨m, -, h⟩ := List.mem_filterMap.1 h
  obtain ⟨name, -, h⟩ := Option.bind_eq_some_iff.1 h
  split at h
  · rename_i hm
    cases h
    exact ⟨m, _, _, _, by simp [opensScope, Place.isOneOf, hm], rfl⟩
  · cases h
    simp [scopeKinds, symbolIn, Document.symbol, Symbol.ofDetails] at hkind
  · cases h

theorem kind_of_mem_enumSymbols {y : Symbol} (h : y ∈ TypeScript.enumSymbols d s p) :
    y.kind = .enum ∨ y.kind = .field := by
  unfold TypeScript.enumSymbols at h
  split at h
  · cases h
  rcases List.mem_cons.1 h with rfl | h
  · exact Or.inl rfl
  obtain ⟨m, -, h⟩ := List.mem_filterMap.1 h
  unfold TypeScript.enumMember? at h
  split at h
  · cases h
    exact Or.inr rfl
  · obtain ⟨n, -, rfl⟩ := Option.map_eq_some_iff.1 h
    exact Or.inr rfl
  · cases h

theorem typescript_isPlain : Dialect.IsPlain TypeScript.typescript where
  descends := by
    intro d s c steps s' q hsteps hstep
    unfold TypeScript.typescript at hsteps
    split at hsteps
    case h_1 | h_2 | h_3 =>
      cases hsteps
      exact absurd hstep (Step.visit_notMem_emitAll _)
    case h_4 | h_5 =>
      cases hsteps
      exact visit_namespaceSteps d hstep
    case h_6 =>
      obtain ⟨m, hm, rfl⟩ := Option.map_eq_some_iff.1 hsteps
      have hmTree := Place.mem_subtree_of_child (List.mem_of_find?_eq_some hm)
      exact Place.mem_subtree_trans hmTree (visit_namespaceSteps d hstep)
    case h_7 => cases hsteps
  unscoped := by
    intro d s c steps y hsteps hstep hkind
    unfold TypeScript.typescript at hsteps
    split at hsteps
    case h_1 =>
      cases hsteps
      exact isUnscoped_of_mem_interfaceSymbols d (Step.emit_mem_emitAll.1 hstep) hkind
    case h_2 =>
      cases hsteps
      obtain ⟨name, -, hy⟩ := Option.bind_eq_some_iff.1 (Step.emit_mem_emit?.1 hstep)
      cases hy
      simp [scopeKinds, symbolIn, Document.symbol, Symbol.ofDetails] at hkind
    case h_3 =>
      cases hsteps
      rcases kind_of_mem_enumSymbols d (Step.emit_mem_emitAll.1 hstep) with hy | hy <;>
        simp [scopeKinds, hy] at hkind
    case h_4 | h_5 =>
      cases hsteps
      simp [scopeKinds, emit_namespaceSteps d hstep] at hkind
    case h_6 =>
      obtain ⟨m, -, rfl⟩ := Option.map_eq_some_iff.1 hsteps
      simp [scopeKinds, emit_namespaceSteps d hstep] at hkind
    case h_7 => cases hsteps

theorem visit_childSteps {s' : Setting} (h : Step.visit s' q ∈ childSteps d s c) : q = c := by
  unfold childSteps at h
  split at h
  case h_8 | h_10 =>
    cases List.mem_singleton.1 h
    rfl
  case h_1 | h_2 | h_9 => exact absurd h (Step.visit_notMem_emit? _)
  all_goals exact absurd h (Step.visit_notMem_emitAll _)

/-- The walk goes into a child, or to a place below it. -/
theorem visit_rule (hdialect : dialect.IsPlain) {s' : Setting}
    (h : Step.visit s' q ∈ rule d dialect s p) : ∃ c ∈ p.children, q ∈ c.subtree := by
  rw [rule] at h
  split at h
  · cases h
  obtain ⟨c, hc, h⟩ := List.mem_flatMap.1 h
  refine ⟨c, hc, ?_⟩
  cases hsteps : dialect d s c with
  | some steps =>
      rw [hsteps] at h
      exact hdialect.descends hsteps h
  | none =>
      rw [hsteps] at h
      rw [visit_childSteps d h]
      exact Place.self_mem_subtree c

theorem rule_descends (hdialect : dialect.IsPlain) : (rule d dialect).Descends := by
  intro s s' p q h
  obtain ⟨c, hc, hq⟩ := visit_rule d hdialect h
  exact Nat.lt_of_le_of_lt (Place.height_le_of_mem_subtree hq) (Place.height_lt_of_mem_children hc)

theorem isOpener_of_mem_openers (hdialect : dialect.IsPlain) {root : Place}
    (h : f ∈ openers d dialect root) : IsOpener d root f := by
  obtain ⟨⟨s, p⟩, hv, h⟩ := List.mem_flatMap.1 h
  have hp : p ∈ root.subtree := by
    refine Rule.forall_mem_visits (rule_descends d hdialect) (P := fun _ p => p ∈ root.subtree) ?_
      (Place.self_mem_subtree root) _ hv
    intro s s' p q hp hstep
    obtain ⟨c, hc, hq⟩ := visit_rule d hdialect hstep
    exact Place.mem_subtree_trans (Place.mem_subtree_of_mem_children hp hc) hq
  simp only at h
  split at h
  · cases h
  · obtain ⟨c, hc, h⟩ := List.mem_flatMap.1 h
    exact (isOpener_of_mem_childOpeners d (List.mem_filter.1 hc).1 h).of_mem_subtree d hp

theorem mem_membersOf_of_mem_methodsOf {s : Scope} {owner : String} (h : f ∈ methodsOf d s owner p) :
    f.2 ∈ membersOf d s owner p := by
  unfold methodsOf at h
  split at h
  · cases h
  rename_i hdepth
  obtain ⟨m, hm, h⟩ := List.mem_filterMap.1 h
  obtain ⟨y, hy, rfl⟩ := Option.map_eq_some_iff.1 h
  cases hb : p.field? "body" with
  | none =>
      rw [hb] at hm
      cases hm
  | some b =>
      rw [hb] at hm
      obtain ⟨hmb, hkind⟩ := List.mem_filter.1 hm
      rw [membersOf, hb, Option.map_some, Option.getD_some, members, if_neg hdepth]
      exact List.mem_filterMap.2 ⟨m, hmb, by simp [beq_iff_eq.1 hkind, hy]⟩

/-- The methods of a class are scopes or only asked for. -/
theorem mem_methodsOf_or_isUnscoped {s : Scope} {owner : String} {y : Symbol}
    (h : y ∈ membersOf d s owner p) (hkind : y.kind ∈ scopeKinds) :
    (∃ m, (m, y) ∈ methodsOf d s owner p) ∨ IsUnscoped d y := by
  unfold membersOf members at h
  cases hb : p.field? "body" with
  | none =>
      rw [hb] at h
      cases h
  | some b =>
      simp only [hb, Option.map_some, Option.getD_some] at h
      split at h
      · cases h
      rename_i hdepth
      obtain ⟨m, hm, h⟩ := List.mem_filterMap.1 h
      have hunscoped : ∀ k, m.kind = k → k ∈ ["method_signature", "abstract_method_signature"] →
          method? d owner m = some y → IsUnscoped d y := by
        intro k hmk hk hy
        obtain ⟨name, -, hsome⟩ := Option.bind_eq_some_iff.1 hy
        cases hsome
        refine ⟨m, _, _, _, ?_, rfl⟩
        rcases List.mem_pair.1 hk with rfl | rfl <;> simp [opensScope, Place.isOneOf, hmk]
      split at h
      case h_1 hmk =>
        refine Or.inl ⟨m, ?_⟩
        rw [methodsOf, if_neg hdepth, hb]
        exact List.mem_filterMap.2 ⟨m, List.mem_filter.2 ⟨hm, beq_iff_eq.2 hmk⟩, by simp [h]⟩
      case h_2 hmk => exact Or.inr (hunscoped _ hmk (by simp) h)
      case h_3 hmk => exact Or.inr (hunscoped _ hmk (by simp) h)
      case h_7 => cases h
      all_goals
        obtain ⟨name, -, hsome⟩ := Option.bind_eq_some_iff.1 h
        cases hsome
        simp [scopeKinds, symbolIn, Document.symbol, Symbol.ofDetails] at hkind

section Variables

variable {declaration : Place} {keyword : String}

theorem mem_variableSymbols_of_mem_variableOpeners
    (h : f ∈ variableOpeners d s declaration keyword c) :
    f.2 ∈ variableSymbols d s declaration keyword c := by
  unfold variableOpeners at h
  split at h
  · obtain ⟨y, hy, rfl⟩ := List.mem_map.1 h
    exact hy
  split at h
  · rename_i n value hn hvalue
    split at h
    · rename_i hclass
      simp only [variableSymbols, hn, hvalue, beq_iff_eq.1 hclass]
      exact List.mem_cons_of_mem _ (mem_membersOf_of_mem_methodsOf d h)
    · cases h
  · cases h

/-- What a variable declares is a scope, or a method, or stands for the variable itself. -/
theorem mem_variableOpeners_or_isUnscoped {y : Symbol} (hc : c.kind = "variable_declarator")
    (h : y ∈ variableSymbols d s declaration keyword c) (hkind : y.kind ∈ scopeKinds) :
    (∃ p, (p, y) ∈ variableOpeners d s declaration keyword c) ∨ IsUnscoped d y := by
  cases hbinds : bindsFunction c with
  | true =>
      refine Or.inl ⟨c, ?_⟩
      rw [variableOpeners, hbinds, if_pos rfl]
      exact List.mem_map_of_mem h
  | false =>
      have hopens : opensScope c = false := by simp [opensScope, Place.isOneOf, hc, hbinds]
      unfold variableSymbols at h
      split at h
      · cases h
      rename_i n hn
      simp only at h
      split at h
      · cases List.mem_singleton.1 h
        exact Or.inr ⟨c, _, _, _, hopens, rfl⟩
      rename_i value hvalue
      split at h
      case h_5 hclass =>
        rcases List.mem_cons.1 h with rfl | h
        · exact Or.inr ⟨c, _, _, _, hopens, rfl⟩
        · refine (mem_methodsOf_or_isUnscoped d h hkind).imp_left ?_
          rintro ⟨m, hm⟩
          exact ⟨m, by simpa [variableOpeners, hbinds, hn, hvalue, hclass] using hm⟩
      all_goals
        cases List.mem_singleton.1 h
        exact Or.inr ⟨c, _, _, _, hopens, rfl⟩

end Variables

theorem emit_mem_childSteps_of_mem_childOpeners (h : f ∈ childOpeners d s c) :
    Step.emit f.2 ∈ childSteps d s c := by
  unfold childOpeners at h
  split at h
  case h_1 hkind | h_2 hkind =>
    obtain ⟨y, hy, rfl⟩ := Option.map_eq_some_iff.1 (Option.mem_toList.1 h)
    simp [childSteps, hkind, hy]
  case h_3 hkind | h_4 hkind | h_5 hkind =>
    split at h
    · cases h
    rename_i name hname
    simp only [childSteps, hkind, Step.emit_mem_emitAll]
    rcases List.mem_append.1 h with h | h
    · obtain ⟨y, hy, rfl⟩ := List.mem_map.1 h
      exact List.mem_of_mem_take hy
    · simp only [classSymbols, hname]
      exact List.mem_cons_of_mem _ (mem_membersOf_of_mem_methodsOf d h)
  case h_6 hkind | h_7 hkind =>
    obtain ⟨v, hv, h⟩ := List.mem_flatMap.1 h
    simp only [childSteps, hkind, Step.emit_mem_emitAll, declarators]
    exact List.mem_flatMap.2 ⟨v, hv, mem_variableSymbols_of_mem_variableOpeners d h⟩
  case h_8 => cases h

/-- Every declaration that is a scope has its symbol among those of the file. -/
theorem mem_symbols_of_mem_openers (hdialect : dialect.IsPlain) {root : Place}
    (hf : f ∈ openers d dialect root) : f.2 ∈ symbols d dialect root := by
  obtain ⟨⟨s, p⟩, hv, hf⟩ := List.mem_flatMap.1 hf
  refine (Rule.mem_walk_iff (rule_descends d hdialect)).2 ⟨_, hv, ?_⟩
  simp only at hf
  split at hf
  · cases hf
  rename_i hdepth
  obtain ⟨c, hc, hf⟩ := List.mem_flatMap.1 hf
  obtain ⟨hcp, hnone⟩ := List.mem_filter.1 hc
  rw [rule, if_neg hdepth]
  refine List.mem_flatMap.2 ⟨c, hcp, ?_⟩
  rw [Option.isNone_iff_eq_none.1 hnone, Option.getD_none]
  exact emit_mem_childSteps_of_mem_childOpeners d hf

/-- What a module exports by assignment stands for the assignment. -/
theorem isUnscoped_of_exportSymbol? {owner : Option String} {y : Symbol}
    (h : exportSymbol? d owner p = some y) : IsUnscoped d y := by
  obtain ⟨a, ha, h⟩ := Option.bind_eq_some_iff.1 h
  obtain ⟨left, -, h⟩ := Option.bind_eq_some_iff.1 h
  obtain ⟨right, -, h⟩ := Option.bind_eq_some_iff.1 h
  have hkind : a.kind = "assignment_expression" := by
    simpa using List.find?_some ha
  by_cases hleft : (left.kind != "member_expression") = true
  · simp only [hleft, if_true] at h
    cases h
  · simp only [hleft, Bool.false_eq_true, if_false] at h
    obtain ⟨name, -, h⟩ := Option.bind_eq_some_iff.1 h
    cases h
    exact ⟨a, _, _, _, by simp [opensScope, Place.isOneOf, hkind], rfl⟩

theorem mem_childOpeners_or_isUnscoped {y : Symbol} (h : Step.emit y ∈ childSteps d s c)
    (hkind : y.kind ∈ scopeKinds) : (∃ p, (p, y) ∈ childOpeners d s c) ∨ IsUnscoped d y := by
  unfold childSteps at h
  split at h
  case h_1 hc | h_2 hc =>
    refine Or.inl ⟨c, ?_⟩
    simp [childOpeners, hc, Step.emit_mem_emit?.1 h]
  case h_3 hc | h_4 hc | h_5 hc =>
    have h := Step.emit_mem_emitAll.1 h
    cases hname : d.fieldText c "name" with
    | none =>
        rw [classSymbols, hname] at h
        cases h
    | some name =>
        simp only [childOpeners, hc, hname]
        simp only [classSymbols, hname] at h
        rcases List.mem_cons.1 h with rfl | h
        · refine Or.inl ⟨c, List.mem_append_left _ (List.mem_map.2 ⟨_, ?_, rfl⟩)⟩
          simp [classSymbols, hname]
        · refine (mem_methodsOf_or_isUnscoped d h hkind).imp_left ?_
          rintro ⟨m, hm⟩
          exact ⟨m, List.mem_append_right _ hm⟩
  case h_6 hc | h_7 hc =>
    obtain ⟨v, hv, h⟩ := List.mem_flatMap.1 (Step.emit_mem_emitAll.1 h)
    have hvKind := beq_iff_eq.1 (List.mem_filter.1 hv).2
    refine (mem_variableOpeners_or_isUnscoped d hvKind h hkind).imp_left ?_
    rintro ⟨p, hp⟩
    simp only [childOpeners, hc]
    exact ⟨p, List.mem_flatMap.2 ⟨v, hv, hp⟩⟩
  case h_9 => exact Or.inr (isUnscoped_of_exportSymbol? d (Step.emit_mem_emit?.1 h))
  case h_8 | h_10 => exact absurd h (by simp)

/-- Every symbol of a function or class is that of a declaration that is a scope, or stands for a
place that the walk for uses makes no scope. -/
theorem mem_openers_or_isUnscoped (hdialect : dialect.IsPlain) {root : Place} {y : Symbol}
    (hy : y ∈ symbols d dialect root) (hkind : y.kind ∈ scopeKinds) :
    (∃ p, (p, y) ∈ openers d dialect root) ∨ IsUnscoped d y := by
  obtain ⟨⟨s, p⟩, hv, hemit⟩ := (Rule.mem_walk_iff (rule_descends d hdialect)).1 hy
  rw [rule] at hemit
  split at hemit
  · cases hemit
  rename_i hdepth
  obtain ⟨c, hc, hemit⟩ := List.mem_flatMap.1 hemit
  cases hsteps : dialect d s c with
  | some steps =>
      rw [hsteps] at hemit
      exact Or.inr (hdialect.unscoped hsteps hemit hkind)
  | none =>
      rw [hsteps] at hemit
      refine (mem_childOpeners_or_isUnscoped d hemit hkind).imp_left ?_
      rintro ⟨q, hq⟩
      refine ⟨q, List.mem_flatMap.2 ⟨_, hv, ?_⟩⟩
      simp only [if_neg hdepth]
      exact List.mem_flatMap.2 ⟨c, List.mem_filter.2 ⟨hc, by simp [hsteps]⟩, hq⟩

/-! ## Agreement -/

/-- In a scope that the walk for uses carries to it, a declaration opens the scope of its name. -/
theorem IsOpener.scope_eq (hf : IsOpener d (.root tree) f) (h : IsGrammatical tree)
    {above scope : Option String} (habove : entryAround d f.1 = .inside above)
    (hcarries : Carries d (.root tree) f.1 scope) :
    scope = some f.2.qualifiedName ↔ above.getD "" = f.2.parentName.getD "" := by
  obtain ⟨q, -, hq⟩ := hf.child
  obtain ⟨name, hname, hqualified⟩ := hf.named
  rw [entryAround, Place.parent?_of_mem_children hq] at habove
  have hentry := entry_of_carries d h hcarries
  rw [entry_of_opensScope d hq hf.opens habove] at hentry
  cases hentry
  rw [namedScope, hname, Option.map_some, Option.some_or, Option.some_inj, hqualified,
    Text.qualify_inj]

/-- The declarations that are scopes have the symbols of functions and classes, those of the places
that the walk for uses makes no scope apart.  The uses in all of them are attributed to the
qualified names of their symbols exactly when the scope around each of them that the walk comes to
has the text of what the declaration belongs to. -/
theorem scopes_qualified_iff (hdialect : dialect.IsPlain) (h : IsGrammatical tree) :
    (∀ f ∈ openers d dialect (.root tree), f.2 ∈ symbols d dialect (.root tree)) ∧
    (∀ y ∈ symbols d dialect (.root tree), y.kind ∈ scopeKinds →
      (∃ p, (p, y) ∈ openers d dialect (.root tree)) ∨ IsUnscoped d y) ∧
    ((∀ f ∈ openers d dialect (.root tree), ∀ above, entryAround d f.1 = .inside above →
        ∀ scope, Carries d (.root tree) f.1 scope → scope = some f.2.qualifiedName) ↔
      ∀ f ∈ openers d dialect (.root tree), ∀ above, entryAround d f.1 = .inside above →
        (∃ scope, Carries d (.root tree) f.1 scope) →
          above.getD "" = f.2.parentName.getD "") := by
  refine ⟨fun _ => mem_symbols_of_mem_openers d hdialect,
    fun _ => mem_openers_or_isUnscoped d hdialect, ?_⟩
  refine forall_congr' fun f => forall_congr' fun hf => forall_congr' fun above =>
    forall_congr' fun habove => ?_
  have hopener := isOpener_of_mem_openers d hdialect hf
  constructor
  · rintro hall ⟨scope, hscope⟩
    exact (hopener.scope_eq d h habove hscope).1 (hall scope hscope)
  · intro himp scope hscope
    exact (hopener.scope_eq d h habove hscope).2 (himp ⟨scope, hscope⟩)

/-- The tree of `m() { g(); }` in the body of a class, from an offset on. -/
def methodAt (n : Nat) : Node :=
  .mk "method_definition" true ["member"] n (n + 12)
    [.leaf "property_identifier" ["name"] n (n + 1),
      .mk "formal_parameters" true ["parameters"] (n + 1) (n + 3)
        [.token "(" (n + 1) (n + 2), .token ")" (n + 2) (n + 3)],
      .mk "statement_block" true ["body"] (n + 4) (n + 12)
        [.token "\x7b" (n + 4) (n + 5),
          .mk "expression_statement" true [] (n + 6) (n + 10)
            [.mk "call_expression" true [] (n + 6) (n + 9)
                [.leaf "identifier" ["function"] (n + 6) (n + 7),
                  .mk "arguments" true ["arguments"] (n + 7) (n + 9)
                    [.token "(" (n + 7) (n + 8), .token ")" (n + 8) (n + 9)]],
              .token ";" (n + 9) (n + 10)],
          .token "\x7d" (n + 11) (n + 12)]]

/-- A class without a name of its own in a variable. -/
def classInVariable : Document :=
  { path := "a.js"
    bytes := Text.Utf8.encode "const A = class \x7b m() \x7b g(); \x7d \x7d;\n".toList
    limits := {} }

/-- The tree of `classInVariable`. -/
def classInVariableTree : Node :=
  .mk "program" true [] 0 34
    [.mk "lexical_declaration" true [] 0 33
      [.mk "const" false ["kind"] 0 5 [],
        .mk "variable_declarator" true [] 6 32
          [.leaf "identifier" ["name"] 6 7, .token "=" 8 9,
            .mk "class" true ["value"] 10 32
              [.token "class" 10 15,
                .mk "class_body" true ["body"] 16 32
                  [.token "\x7b" 16 17, methodAt 18, .token "\x7d" 31 32]]],
        .token ";" 32 33]]

theorem classInVariable_scope_ne :
    IsGrammatical classInVariableTree ∧
      ∃ f ∈ openers classInVariable javascript (.root classInVariableTree), ∃ above,
        entryAround classInVariable f.1 = .inside above ∧
          ∃ scope, Carries classInVariable (.root classInVariableTree) f.1 scope ∧
            scope ≠ some f.2.qualifiedName := by
  have hgrammar : IsGrammatical classInVariableTree := by
    unfold IsGrammatical
    decide +kernel
  have hne : ∃ f ∈ openers classInVariable javascript (.root classInVariableTree),
      isDirect f.1 = true ∧ f.1.level ≤ classInVariable.limits.walkDepth.toNat + 1 ∧
        entryAround classInVariable f.1 = .inside none ∧ f.2.parentName = some "A" := by
    decide +kernel
  obtain ⟨f, hf, hdirect, hlevel, habove, howner⟩ := hne
  have hopener := isOpener_of_mem_openers classInVariable javascript_isPlain hf
  obtain ⟨q, hq, hfq⟩ := hopener.child
  obtain ⟨scope, hcarries⟩ := exists_carries_of_isDirect classInVariable
    (Place.mem_subtree_of_mem_children hq hfq) hdirect hlevel
  refine ⟨hgrammar, f, hf, none, habove, scope, hcarries, fun heq => ?_⟩
  have hsame := (hopener.scope_eq classInVariable hgrammar habove hcarries).1 heq
  rw [howner] at hsame
  exact absurd hsame (by decide)

/-- A class with a name in a variable of the same name. -/
def namedClassInVariable : Document :=
  { path := "a.js"
    bytes := Text.Utf8.encode "const A = class A \x7b m() \x7b g(); \x7d \x7d;\n".toList
    limits := {} }

/-- The tree of `namedClassInVariable`. -/
def namedClassInVariableTree : Node :=
  .mk "program" true [] 0 36
    [.mk "lexical_declaration" true [] 0 35
      [.mk "const" false ["kind"] 0 5 [],
        .mk "variable_declarator" true [] 6 34
          [.leaf "identifier" ["name"] 6 7, .token "=" 8 9,
            .mk "class" true ["value"] 10 34
              [.token "class" 10 15, .leaf "identifier" ["name"] 16 17,
                .mk "class_body" true ["body"] 18 34
                  [.token "\x7b" 18 19, methodAt 20, .token "\x7d" 33 34]]],
        .token ";" 34 35]]

theorem namedClassInVariable_scope_eq :
    Dialect.IsPlain javascript ∧ IsGrammatical namedClassInVariableTree ∧
      ∀ f ∈ openers namedClassInVariable javascript (.root namedClassInVariableTree), ∀ above,
        entryAround namedClassInVariable f.1 = .inside above → ∀ scope,
          Carries namedClassInVariable (.root namedClassInVariableTree) f.1 scope →
            scope = some f.2.qualifiedName := by
  have hgrammar : IsGrammatical namedClassInVariableTree := by
    unfold IsGrammatical
    decide +kernel
  have howner : ∀ f ∈ openers namedClassInVariable javascript (.root namedClassInVariableTree),
      entryAround namedClassInVariable f.1 = .inside (some "A") ∧ f.2.parentName = some "A" := by
    decide +kernel
  refine ⟨javascript_isPlain, hgrammar, ?_⟩
  refine (scopes_qualified_iff namedClassInVariable javascript_isPlain hgrammar).2.2.2 ?_
  intro f hf above habove _
  obtain ⟨hentry, hparent⟩ := howner f hf
  rw [hentry] at habove
  cases habove
  rw [hparent]

end Declarations.ECMAScript

end SourceIndex
