import SourceIndex.Proofs.Scopes.Python
import SourceIndex.Proofs.Uses.Account

/-!
# Calls in Python

A walk over a Python file looks at every place of it but for some that stand in imports, in calls,
in decorators and in what is raised or caught.  Behind a call it goes on in the arguments alone.  A
decorator, and the first thing that is raised, counts as a call if it is a name or an attribute, and
is looked at as one if it is written as a call.  So the walk reports all calls, each once, exactly
where none stands in another one elsewhere than in the arguments, in a decorator that is not itself
a call, in an attribute that is raised, or in what is caught.
-/

namespace SourceIndex.Uses.Python.Calls

open Place (isChosen)

variable (d : Document) {tree : Node} {s : Scope} {p c : Place}

/-- Does a step lead into an annotation? -/
def isAnnotation (_ c : Place) : Bool :=
  c.node.fields.any fun field => ["type", "return_type"].contains field

/-- Is a place a call of something, and neither in an import nor in an annotation? -/
def isCall (p : Place) : Bool :=
  p.kind == "call" && (p.field? "function").isSome &&
    !p.isBelow ["import_statement", "import_from_statement", "future_import_statement"] &&
    !p.passes isAnnotation

/-- How the walk for uses looks at what may be a name that is called without being written as a
call. -/
def lookAtName (otherwise : Look) (p : Place) : Look :=
  match p.kind with
  | "identifier" | "attribute" => .name
  | "call" => .whole
  | _ => otherwise

/-- How the walk for uses looks at a child of a place at which it looks as a whole. -/
def lookIn (p c : Place) : Look :=
  match p.kind with
  | "import_statement" | "import_from_statement" => .never
  | "call" =>
      if (p.field? "function").isNone then .never
      else if p.isField "arguments" c then .inside else .never
  | "decorated_definition" =>
      if p.isField "definition" c then .inside
      else if c.kind == "decorator" then .operand else .never
  | "raise_statement" =>
      if !c.isNamed then .never
      else if isChosen p.namedChildren.head? c then lookAtName .inside c
      else if c.kind == "call" then .whole else .inside
  | "except_clause" =>
      if !c.isNamed || p.isField "alias" c then .never
      else if c.kind == "block" then .inside else .never
  | _ => .whole

/-- The kinds of places of which the walk for uses looks at some parts only. -/
def partialKinds : List String :=
  ["import_statement", "import_from_statement", "call", "decorated_definition", "raise_statement",
    "except_clause"]

/-- What the walk for uses looks at, and the calls that it reports. -/
def sight : Sight Reference where
  whole := lookIn
  operand := fun _ c => lookAtName .never c
  report p := if p.kind == "call" then (d.callReference p).toList else []
  named p := if p.kind == "call" then [] else [d.reference .call (d.text p) p none]

/-- What a task is after: the uses in the children, or types. -/
def aim : Task → Aim
  | .inside s => .children s
  | .typeHint _ | .caught _ => .other

/-- How the walk for calls is accounted for. -/
abbrev ledger (tree : Node) : Ledger Task Reference Reference :=
  (sight d).ledger [.call] tree aim

/-- What the grammar promises of a tree: what is decorated is no decorator. -/
def IsGrammatical (tree : Node) : Prop :=
  ∀ p ∈ (Place.root tree).subtree, p.kind = "decorated_definition" →
    ∀ q ∈ p.field? "definition", q.kind ≠ "decorator"

section

variable {d}

/-! ## What the steps for a call account for -/

theorem report_of_kind (hkind : p.kind ≠ "call") : (sight d).report p = [] := by
  simp only [sight, beq_iff_eq, hkind, if_false]

theorem balances_callSteps (hp : (sight d).IsMet tree s p) (hkind : p.kind = "call") :
    (ledger d tree).Balances (callSteps d s p) ((sight d).reports p) := by
  have hlook : ∀ c, (sight d).whole p c = if (p.field? "function").isNone then .never
      else if p.isField "arguments" c then .inside else .never := by
    intro c
    simp only [sight, lookIn, hkind]
  have hreport : (sight d).report p = (d.callReference p).toList := by
    simp only [sight, hkind, beq_self_eq_true, if_true]
  exact Sight.balances_textCall hp rfl hlook hreport rfl rfl

/-- What may be a name or a call accounts for what is in sight there, if it does so where it is
neither. -/
theorem balances_namedOrCalled {otherwise : Look} {steps : List (Step Task Reference)}
    (hp : p ∈ (Place.root tree).subtree) (hdepth : s.depth < p.level)
    (hlook : (sight d).look p = lookAtName otherwise p)
    (hother : (sight d).look p = otherwise →
      (ledger d tree).Balances steps ((sight d).reports p)) :
    (ledger d tree).Balances ((namedOrCalled? d s p).getD steps) ((sight d).reports p) := by
  have hname : p.kind ≠ "call" → (sight d).look p = .name →
      (ledger d tree).Balances [.emit (d.reference .call (d.text p) p s.name)]
        ((sight d).reports p) := by
    intro hkind hlook
    have hnamed : (sight d).named p = (ledger d tree).entry
        (d.reference .call (d.text p) p s.name) := by
      show (sight d).named p = Reference.ofKinds [.call] [_]
      rw [Reference.ofKinds_singleton rfl, Reference.unscoped_reference]
      simp only [sight, beq_iff_eq, hkind, if_false]
    rw [Sight.reports_of_name hlook, hnamed]
    exact Ledger.balances_emit _
  unfold lookAtName at hlook
  unfold namedOrCalled?
  split
  case h_1 hkind | h_2 hkind =>
    simp only [hkind] at hlook
    exact hname (by rw [hkind]; decide) hlook
  case h_3 hkind =>
    simp only [hkind] at hlook
    exact balances_callSteps ⟨hp, hdepth, hlook⟩ hkind
  case h_4 =>
    simp only at hlook
    exact hother hlook

/-! ## What the steps for a definition account for -/

theorem bases_notCall {owner : Option String} : ∀ r ∈ bases d owner p,
    [ReferenceKind.call].contains r.kind = false := by
  refine forall_mem_filterMap fun c r hr => ?_
  obtain ⟨-, hr⟩ := Option.ite_none_left_eq_some.1 hr
  cases hr
  rfl

/-- A definition accounts for what is in sight in it. -/
theorem balances_definitionSteps (hp : (sight d).IsOpen tree s.deeper p) :
    (ledger d tree).Balances (definitionSteps d s p) (p.children.flatMap (sight d).reports) := by
  have hinside : (ledger d tree).Balances [.visit (.inside ⟨innerName d s p, s.depth + 1⟩) p]
      (p.children.flatMap (sight d).reports) :=
    Sight.balances_children rfl ⟨hp.ofTree, hp.depth, hp.children⟩
  refine hinside.prepend ?_
  split
  · exact Sight.balances_aside rfl _
  · exact Sight.balances_others bases_notCall

/-- A decorator accounts for what is in sight there. -/
theorem balances_decorator (hp : p ∈ (Place.root tree).subtree) (hdepth : s.depth < p.level)
    (hlook : (sight d).look p = .operand) :
    (ledger d tree).Balances (p.children.flatMap fun c => (namedOrCalled? d s c).getD [])
      ((sight d).reports p) := by
  rw [Sight.reports_of_operand hlook]
  refine Ledger.balances_flatMap fun c hc => ?_
  have hbelow : s.depth < c.level := by
    rw [Place.level_of_mem_children hc]
    exact Nat.lt_succ_of_lt hdepth
  refine balances_namedOrCalled (Place.mem_subtree_of_mem_children hp hc) hbelow
    (Sight.look_of_operand hc hlook) fun hnever => ?_
  rw [Sight.reports_of_never hnever]
  exact Ledger.balances_nil

/-- How the walk looks at the parts of a definition with decorators. -/
theorem lookIn_decorated (hkind : p.kind = "decorated_definition") (c : Place) :
    lookIn p c = if p.isField "definition" c then .inside
      else if c.kind == "decorator" then .operand else .never := by
  simp only [lookIn, hkind]

/-- Of a definition with decorators the walk looks at these and at the definition itself. -/
theorem perm_reports_decorated (h : IsGrammatical tree) (hp : (sight d).IsMet tree s p)
    (hkind : p.kind = "decorated_definition") :
    ((sight d).reports p).Perm ((p.childrenOf "decorator").flatMap (sight d).reports ++
      (p.field? "definition").toList.flatMap (sight d).reports) := by
  have hreport : (sight d).report p = [] := report_of_kind (by rw [hkind]; decide)
  have hnodup : (p.childrenOf "decorator" ++ (p.field? "definition").toList).Nodup := by
    refine List.nodup_append.2
      ⟨p.nodup_children.filter _, by cases p.field? "definition" <;> simp, ?_⟩
    rintro c hc q hq rfl
    exact h p hp.ofTree hkind c (Option.mem_toList.1 hq) (beq_iff_eq.1 (List.mem_filter.1 hc).2)
  rw [← List.flatMap_append, ← List.nil_append (List.flatMap _ _), ← hreport]
  refine Sight.perm_reports hp.look hnodup (fun c hc => ?_) fun c hc hnot => ?_
  · rcases List.mem_append.1 hc with hc | hc
    · exact (List.mem_filter.1 hc).1
    · exact Place.mem_children_of_field? (Option.mem_toList.1 hc)
  · rw [List.mem_append, Option.mem_toList, not_or] at hnot
    have hdecorator : (c.kind == "decorator") = false := by
      rw [Bool.eq_false_iff]
      exact fun hkind => hnot.1 (List.mem_filter.2 ⟨hc, hkind⟩)
    show lookIn p c = .never
    rw [lookIn_decorated hkind, Place.isField_eq_false hc hnot.2, hdecorator]
    rfl

/-- The decorators of a definition, and then the definition, account for what is in sight there. -/
theorem balances_decorated (h : IsGrammatical tree) (hp : (sight d).IsMet tree s p)
    (hkind : p.kind = "decorated_definition") :
    (ledger d tree).Balances
      (decoratorSteps d s p ++ ((p.field? "definition").map (definitionSteps d s)).getD [])
      ((sight d).reports p) := by
  refine Ledger.Balances.trans (Ledger.Balances.append ?_ ?_)
    (perm_reports_decorated h hp hkind).symm
  · -- What is decorated is no decorator, so the walk looks at a decorator for its operand.
    refine Ledger.balances_flatMap fun q hq => ?_
    obtain ⟨hchild, hdecorator⟩ := List.mem_filter.1 hq
    have hnot : p.field? "definition" ≠ some q :=
      fun hdefinition => h p hp.ofTree hkind q hdefinition (beq_iff_eq.1 hdecorator)
    have hlook : (sight d).look q = .operand := by
      rw [Sight.look_of_whole hchild hp.look]
      show lookIn p q = .operand
      rw [lookIn_decorated hkind, Place.isField_eq_false hchild hnot, hdecorator]
      rfl
    exact balances_decorator (Place.mem_subtree_of_mem_children hp.ofTree hchild)
      (Nat.lt_of_succ_lt (hp.depth_child hchild)) hlook
  · cases hq : p.field? "definition" with
    | none => exact Ledger.balances_nil
    | some q =>
        have hchild := Place.mem_children_of_field? hq
        have hlook : (sight d).look q = .inside := by
          rw [Sight.look_of_whole hchild hp.look]
          show lookIn p q = .inside
          rw [lookIn_decorated hkind, Place.isField_of_field? hq, if_pos rfl]
        rw [Option.toList_some, List.flatMap_singleton, Sight.reports_of_inside hlook]
        exact balances_definitionSteps (hp.isOpen_child hchild (Nat.le_refl _) hlook)

/-! ## What the steps for exceptions account for -/

/-- How the walk looks at the parts of a statement that raises something. -/
theorem lookIn_raise (hkind : p.kind = "raise_statement") (c : Place) :
    lookIn p c = if !c.isNamed then .never
      else if isChosen p.namedChildren.head? c then lookAtName .inside c
      else if c.kind == "call" then .whole else .inside := by
  simp only [lookIn, hkind]

theorem perm_reports_raise (hp : (sight d).IsMet tree s p) (hkind : p.kind = "raise_statement") :
    ((sight d).reports p).Perm (p.namedChildren.flatMap (sight d).reports) := by
  have hreport : (sight d).report p = [] := report_of_kind (by rw [hkind]; decide)
  rw [← List.nil_append (List.flatMap _ _), ← hreport]
  refine Sight.perm_reports hp.look (p.nodup_children.filter _)
    (fun c hc => (List.mem_filter.1 hc).1) fun c hc hnot => ?_
  have hnamed : c.isNamed = false := by
    rw [Bool.eq_false_iff]
    exact fun hnamed => hnot (List.mem_filter.2 ⟨hc, hnamed⟩)
  show lookIn p c = .never
  rw [lookIn_raise hkind, hnamed]
  rfl

theorem look_raise (hp : (sight d).IsMet tree s p) (hkind : p.kind = "raise_statement")
    (hc : c ∈ p.namedChildren) :
    (sight d).look c = if isChosen p.namedChildren.head? c then lookAtName .inside c
      else if c.kind == "call" then .whole else .inside := by
  obtain ⟨hc, hnamed⟩ := List.mem_filter.1 hc
  rw [Sight.look_of_whole hc hp.look]
  show lookIn p c = _
  rw [lookIn_raise hkind, hnamed]
  rfl

/-- A part of a statement that raises something, where the walk looks at its inside alone. -/
theorem balances_raisedInside (hp : (sight d).IsMet tree s p) (hc : c ∈ p.namedChildren)
    (hlook : (sight d).look c = .inside) :
    (ledger d tree).Balances [.visit (.inside s.deeper) c] ((sight d).reports c) := by
  have hchild := (List.mem_filter.1 hc).1
  exact Sight.balances_inside rfl (Place.mem_subtree_of_mem_children hp.ofTree hchild)
    (Nat.le_of_lt (hp.depth_child hchild)) hlook

/-- What is raised accounts for what is in sight there. -/
theorem balances_raised {first : Place} {rest : List Place} (hp : (sight d).IsMet tree s p)
    (hkind : p.kind = "raise_statement") (hnamed : p.namedChildren = first :: rest) :
    (ledger d tree).Balances ((namedOrCalled? d s first).getD [.visit (.inside s.deeper) first])
      ((sight d).reports first) := by
  have hmem : first ∈ p.namedChildren := hnamed ▸ List.mem_cons_self
  have hchild := (List.mem_filter.1 hmem).1
  have hlook := look_raise hp hkind hmem
  rw [hnamed, List.head?_cons, Place.isChosen_some_self, if_pos rfl] at hlook
  exact balances_namedOrCalled (Place.mem_subtree_of_mem_children hp.ofTree hchild)
    (Nat.lt_of_succ_lt (hp.depth_child hchild)) hlook (balances_raisedInside hp hmem)

/-- What something is raised from accounts for what is in sight there. -/
theorem balances_raisedFrom {first : Place} {rest : List Place} (hp : (sight d).IsMet tree s p)
    (hkind : p.kind = "raise_statement") (hnamed : p.namedChildren = first :: rest)
    (hc : c ∈ rest) :
    (ledger d tree).Balances
      (if c.kind == "call" then callSteps d s c else [.visit (.inside s.deeper) c])
      ((sight d).reports c) := by
  have hmem : c ∈ p.namedChildren := hnamed ▸ List.mem_cons_of_mem _ hc
  have hchild := (List.mem_filter.1 hmem).1
  have hfirst : first ∈ p.children := by
    have hmem : first ∈ p.namedChildren := hnamed ▸ List.mem_cons_self
    exact (List.mem_filter.1 hmem).1
  have hnodup : p.namedChildren.Nodup := p.nodup_children.filter _
  rw [hnamed] at hnodup
  -- Only what is raised may be a name that counts as a call, and this is another child.
  have hnot : isChosen (some first) c = false := by
    refine Place.isChosen_eq_false (fun a ha => Option.mem_some.1 ha ▸ hfirst) hchild ?_
    rintro ⟨rfl⟩
    exact (List.nodup_cons.1 hnodup).1 hc
  have hlook := look_raise hp hkind hmem
  rw [hnamed, List.head?_cons, hnot, if_neg Bool.false_ne_true] at hlook
  split
  case isTrue hcall =>
    rw [if_pos hcall] at hlook
    have htree := Place.mem_subtree_of_mem_children hp.ofTree hchild
    exact balances_callSteps ⟨htree, Nat.lt_of_succ_lt (hp.depth_child hchild), hlook⟩
      (beq_iff_eq.1 hcall)
  case isFalse hcall =>
    rw [if_neg hcall] at hlook
    exact balances_raisedInside hp hmem hlook

/-- What is raised, and what it is raised from, account for what is in sight there. -/
theorem balances_raiseSteps (hp : (sight d).IsMet tree s p) (hkind : p.kind = "raise_statement") :
    (ledger d tree).Balances (raiseSteps d s p) ((sight d).reports p) := by
  refine Ledger.Balances.trans ?_ (perm_reports_raise hp hkind).symm
  unfold raiseSteps
  cases hnamed : p.namedChildren with
  | nil => exact Ledger.balances_nil
  | cons first rest =>
      rw [List.flatMap_cons]
      exact Ledger.Balances.append (balances_raised hp hkind hnamed)
        (Ledger.balances_flatMap fun c hc => balances_raisedFrom hp hkind hnamed hc)

/-- How the walk looks at the parts of a handler. -/
theorem lookIn_except (hkind : p.kind = "except_clause") (c : Place) :
    lookIn p c = if !c.isNamed || p.isField "alias" c then .never
      else if c.kind == "block" then .inside else .never := by
  simp only [lookIn, hkind]

/-- The parts of a handler without the name that it gives to what it catches. -/
theorem mem_handlerParts : c ∈ p.namedChildren.filter (fun c =>
      (p.field? "alias").map Place.index != some c.index) ↔
    c ∈ p.children ∧ c.isNamed = true ∧ p.isField "alias" c = false := by
  rw [List.mem_filter, Place.namedChildren, List.mem_filter, Place.isField_eq_index, and_assoc,
    bne, Bool.not_eq_true']

theorem perm_reports_except (hp : (sight d).IsMet tree s p) (hkind : p.kind = "except_clause") :
    ((sight d).reports p).Perm ((p.namedChildren.filter fun c =>
      (p.field? "alias").map Place.index != some c.index).flatMap (sight d).reports) := by
  have hreport : (sight d).report p = [] := report_of_kind (by rw [hkind]; decide)
  rw [← List.nil_append (List.flatMap _ _), ← hreport]
  refine Sight.perm_reports hp.look ((p.nodup_children.filter _).filter _)
    (fun c hc => (mem_handlerParts.1 hc).1) fun c hc hnot => ?_
  show lookIn p c = .never
  rw [lookIn_except hkind]
  refine if_pos ?_
  rw [mem_handlerParts, not_and, not_and] at hnot
  cases hnamed : c.isNamed with
  | false => rfl
  | true => exact Bool.not_eq_false _ ▸ hnot hc hnamed

/-- What is caught, and then the handler, account for what is in sight there. -/
theorem balances_exceptSteps (hp : (sight d).IsMet tree s p) (hkind : p.kind = "except_clause") :
    (ledger d tree).Balances (exceptSteps s p) ((sight d).reports p) := by
  refine Ledger.Balances.trans ?_ (perm_reports_except hp hkind).symm
  rw [exceptSteps, List.map_eq_flatMap]
  refine Ledger.balances_flatMap fun c hc => ?_
  obtain ⟨hchild, hnamed, halias⟩ := mem_handlerParts.1 hc
  have hlook : (sight d).look c = if c.kind == "block" then .inside else .never := by
    rw [Sight.look_of_whole hchild hp.look]
    show lookIn p c = _
    rw [lookIn_except hkind, hnamed, halias]
    rfl
  split
  case isTrue hblock =>
    rw [if_pos hblock] at hlook
    exact Sight.balances_inside rfl (Place.mem_subtree_of_mem_children hp.ofTree hchild)
      (Nat.le_of_lt (hp.depth_child hchild)) hlook
  case isFalse hblock =>
    rw [if_neg hblock] at hlook
    rw [Sight.reports_of_never hlook]
    exact Sight.balances_aside rfl [c]

/-! ## What all steps account for -/

/-- A place at which the walk looks as a whole, and all of whose children it looks at. -/
theorem whole_through (hkind : p.kind ∉ partialKinds) (c : Place) : lookIn p c = .whole := by
  simp only [partialKinds, List.mem_cons, List.not_mem_nil, or_false, not_or] at hkind
  obtain ⟨himport, himportFrom, hcall, hdecorated, hraise, hexcept⟩ := hkind
  simp only [lookIn]

theorem balances_through (hp : (sight d).IsMet tree s p) (hkind : p.kind ∉ partialKinds) :
    (ledger d tree).Balances [.visit (.inside s.deeper) p] ((sight d).reports p) := by
  have hreport : (sight d).report p = [] := by
    refine report_of_kind fun hcall => hkind ?_
    rw [hcall]
    decide
  exact Sight.balances_through hp hreport (fun c _ => whole_through hkind c) rfl rfl

/-- A definition without decorators. -/
theorem balances_definition (hp : (sight d).IsMet tree s p) (hkind : p.kind ∉ partialKinds) :
    (ledger d tree).Balances (definitionSteps d s p) ((sight d).reports p) := by
  have hreport : (sight d).report p = [] := by
    refine report_of_kind fun hcall => hkind ?_
    rw [hcall]
    decide
  rw [Sight.reports_of_whole hp.look, hreport, List.nil_append]
  exact balances_definitionSteps (hp.isOpen rfl fun c _ => whole_through hkind c)

theorem imports_notCall {scope : Option String} : ∀ r ∈ imports d scope p,
    [ReferenceKind.call].contains r.kind = false :=
  forall_mem_filterMap fun _ => forall_mem_map fun _ => rfl

theorem importsFrom_notCall {scope : Option String} : ∀ r ∈ importsFrom d scope p,
    [ReferenceKind.call].contains r.kind = false := by
  refine forall_mem_filterMap fun c => ?_
  dsimp only
  split
  · exact forall_mem_none
  · exact forall_mem_map fun _ => rfl

/-- An import accounts for nothing, as nothing is in sight in it. -/
theorem balances_import (hp : (sight d).IsMet tree s p)
    (hkind : p.kind ∈ ["import_statement", "import_from_statement"]) {uses : List Reference}
    (h : ∀ r ∈ uses, [ReferenceKind.call].contains r.kind = false) :
    (ledger d tree).Balances (Step.emitAll uses) ((sight d).reports p) := by
  refine Sight.balances_closed hp (fun c => ?_) ?_
  · rcases List.mem_pair.1 hkind with hkind | hkind <;> simp only [sight, lookIn, hkind]
  · rw [Reference.ofKinds_eq_nil h]
    refine report_of_kind fun hcall => ?_
    rw [hcall] at hkind
    exact absurd hkind (by decide)

theorem balances_childSteps (h : IsGrammatical tree) (hp : (sight d).IsMet tree s p) :
    (ledger d tree).Balances (childSteps d s p) ((sight d).reports p) := by
  unfold childSteps
  split
  case h_1 hkind => exact balances_import hp (by rw [hkind]; decide) imports_notCall
  case h_2 hkind => exact balances_import hp (by rw [hkind]; decide) importsFrom_notCall
  case h_3 hkind => exact balances_callSteps hp hkind
  case h_4 hkind => exact balances_decorated h hp hkind
  case h_5 hkind | h_6 hkind => exact balances_definition hp (by rw [hkind]; decide)
  case h_7 hkind => exact balances_raiseSteps hp hkind
  case h_8 hkind => exact balances_exceptSteps hp hkind
  case h_9 hkind =>
    exact (balances_through hp (by rw [hkind]; decide)).prepend (Sight.balances_aside rfl _)
  case h_10 himport himportFrom hcall hdecorated _ _ hraise hexcept _ =>
    refine balances_through hp ?_
    simp only [partialKinds, List.mem_cons, List.not_mem_nil, or_false, not_or]
    exact ⟨himport, himportFrom, hcall, hdecorated, hraise, hexcept⟩

/-- Names of types are no calls. -/
theorem balances_types (p : Place) (names : List String) (scope : Option String) :
    (ledger d tree).Balances (names.map fun name => .emit (d.reference .typeRef name p scope))
      [] := by
  have htypes : (ledger d tree).Balances
      (Step.emitAll (names.map fun name => d.reference .typeRef name p scope)) [] :=
    Sight.balances_others (List.forall_mem_map.2 fun _ _ => rfl)
  rwa [Step.emitAll, List.map_map] at htypes

theorem balances_typeHintSteps : (ledger d tree).Balances (typeHintSteps d s p) [] := by
  unfold typeHintSteps
  split
  case h_1 =>
    dsimp only
    split
    · exact Ledger.balances_nil
    · exact balances_types p [d.text p] s.name
  case h_2 => exact balances_types p [d.text p] s.name
  case h_3 => exact balances_types p _ s.name
  case h_4 => exact Sight.balances_aside rfl _

theorem balances_caughtSteps : (ledger d tree).Balances (caughtSteps d s p) [] := by
  unfold caughtSteps
  split
  case h_1 | h_2 => exact balances_types p [d.text p] s.name
  case h_3 | h_4 | h_5 | h_6 => exact Sight.balances_aside rfl _
  case h_7 => exact Ledger.balances_nil

theorem balances_rule (h : IsGrammatical tree) (hheight : tree.height ≤ d.limits.walkDepth.toNat)
    (task : Task) (p : Place) (hp : (ledger d tree).isOpen task p) :
    (ledger d tree).Balances (rule d task p) ((ledger d tree).due task p) := by
  cases task with
  | inside s => exact Sight.balances_steps hheight hp fun c hc => balances_childSteps h hc
  | typeHint s =>
      rw [rule]
      split
      · exact Ledger.balances_nil
      · exact balances_typeHintSteps
  | caught s =>
      rw [rule]
      split
      · exact Ledger.balances_nil
      · exact balances_caughtSteps

/-- The walk reports the calls in sight, each once. -/
theorem perm_references (h : IsGrammatical tree)
    (hheight : tree.height ≤ d.limits.walkDepth.toNat) :
    (Reference.ofKinds [.call] (references d (.root tree))).Perm
      ((sight d).reports (.root tree)) :=
  Sight.perm_walk (rule_descends d) rfl (balances_rule h hheight)

end

end SourceIndex.Uses.Python.Calls
