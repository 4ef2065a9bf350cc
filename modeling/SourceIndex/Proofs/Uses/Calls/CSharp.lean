import SourceIndex.Proofs.Scopes.CSharp
import SourceIndex.Proofs.Uses.Account

/-!
# Calls in C#

A walk over a C# file looks at every place of it but for those in directives, lists of attributes
and nullable types, and those in the creation of an object that stand neither in its arguments nor
in its initializer.  An invocation is reported and then looked into like any other place, so that
the calls in its receiver and in its arguments are reported, too.  The attributes of a list count as
calls.  So the walk reports all calls and attributes that it can come to, each once.
-/

namespace SourceIndex.Uses.CSharp.Calls

open SourceIndex.Idiom.CSharp
open Place (isChosen areApart)

variable (d : Document) {tree : Node} {s s' : Scope} {p c : Place} {above : Option String}

/-! ## Calls that a walk can come to -/

/-- The kinds of places that hold no calls of their own. -/
def deadKinds : List String :=
  ["using_directive", "attribute_list", "nullable_type"]

/-- The kinds of the parts of a creation in which there may be calls. -/
def partKinds : List String :=
  ["argument_list", "initializer_expression"]

/-- Is a child of a creation its list of arguments or its initializer? -/
def isPart (p c : Place) : Bool :=
  isChosen (p.childOf? "argument_list") c || isChosen (p.childOf? "initializer_expression") c

/-- Does a step lead into a directive, a list of attributes or a nullable type, or from a creation
elsewhere than into its arguments and its initializer?  The file itself is none of these. -/
def isShut (p c : Place) : Bool :=
  decide (0 < p.level) &&
    (p.isOneOf deadKinds || p.kind == "object_creation_expression" && !isPart p c)

/-- Can a walk come to a place of a file? -/
def isInReach (p : Place) : Bool :=
  decide (0 < p.level) && !p.passes isShut

/-- What a call calls: a name or a member that is invoked, or a type of which an object is created.
-/
def callee? (p : Place) : Option Place :=
  match p.kind with
  | "invocation_expression" =>
      ((p.field? "function").or (p.namedChildren.find? fun c => c.kind != "argument_list")).filter
        fun f => f.isOneOf ["identifier", "generic_name", "member_access_expression"]
  | "object_creation_expression" =>
      ((p.field? "type").or (p.childOfAny? typeNameKinds)).filter fun t => t.isOneOf typeNameKinds
  | _ => none

/-- The name of what is called: that of a member without what it is a member of, and that of a
generic type or method without its arguments.  A qualified type goes by its whole name. -/
def calleeName (f : Place) : String :=
  if f.kind == "member_access_expression" then
    ((f.field? "name").map (typeName d)).getD (d.text f)
  else
    typeName d f

/-- The use that a call is, without the scope that it stands in. -/
def callReference (p : Place) : Option Reference :=
  (callee? p).map fun f => d.reference .call (calleeName d f) p none

/-- The calls of a tree that a walk can come to. -/
def callsIn (tree : Node) : List Place :=
  (Place.root tree).subtree.filter fun p => (callee? p).isSome && isInReach p

/-- The lists of attributes of a tree that a walk can come to. -/
def attributeListsIn (tree : Node) : List Place :=
  (Place.root tree).subtree.filter fun p => p.kind == "attribute_list" && isInReach p

/-! ## What the walk looks at -/

/-- How the walk for uses looks at a child of a place at which it looks as a whole. -/
def lookIn (p c : Place) : Look :=
  match p.kind with
  | "using_directive" | "attribute_list" | "nullable_type" => .never
  | "object_creation_expression" => if isPart p c then .inside else .never
  | _ => .whole

/-- The attributes of a list, and none of any other place. -/
def attributesOf (p : Place) : List Reference :=
  if p.kind == "attribute_list" then attributes d none p else []

/-- What the walk for uses looks at, and the calls and attributes that it reports. -/
def sight : Sight Reference where
  whole := lookIn
  report p := (callReference d p).toList ++ attributesOf d p

/-- How the walk for calls is accounted for. -/
abbrev ledger (tree : Node) : Ledger Scope Reference Reference :=
  (sight d).ledger [.call] tree .children

section

variable {d}

/-! ## What the steps for a call account for -/

/-- The name of what an invocation calls is that of its callee. -/
theorem invoked?_eq (hkind : p.kind = "invocation_expression") :
    invoked? d p = (callee? p).map (calleeName d) := by
  rw [invoked?, callee?, hkind]
  cases (p.field? "function").or (p.namedChildren.find? fun c => c.kind != "argument_list") with
  | none => rfl
  | some f =>
      simp only [Option.bind_some, Option.filter_some]
      split
      case h_1 hf => simp [calleeName, Place.isOneOf, hf]
      case h_2 hf | h_3 hf => simp [calleeName, Place.isOneOf, hf]
      case h_4 hmember hidentifier hgeneric =>
        have hkinds :
            ¬ f.isOneOf ["identifier", "generic_name", "member_access_expression"] = true := by
          rw [Place.isOneOf, List.contains_iff_mem]
          simp only [List.mem_cons, List.not_mem_nil, or_false, not_or]
          exact ⟨hidentifier, hgeneric, hmember⟩
        rw [if_neg hkinds, Option.map_none]

theorem report_of_invocation (hkind : p.kind = "invocation_expression") :
    (sight d).report p = Reference.ofKinds [.call]
      ((invoked? d p).map fun target => d.reference .call target p above).toList := by
  rw [Reference.ofKinds_map (by intro t; rfl), invoked?_eq hkind, Option.map_map]
  simp [sight, attributesOf, hkind, callReference, Function.comp_def]

theorem balances_invocationSteps (hp : (sight d).IsMet tree s p)
    (hkind : p.kind = "invocation_expression") :
    (ledger d tree).Balances (invocationSteps d s p) ((sight d).reports p) := by
  have hwhole : ∀ c ∈ p.children, lookIn p c = .whole := by
    intro c _
    simp [lookIn, hkind]
  exact Sight.balances_open hp (report_of_invocation hkind) hwhole rfl rfl

theorem callee?_of_creation (hkind : p.kind = "object_creation_expression") :
    callee? p = ((p.field? "type").or (p.childOfAny? typeNameKinds)).filter fun t =>
      t.isOneOf typeNameKinds := by
  simp only [callee?, hkind]

/-- What is created goes by the name of its type. -/
theorem calleeName_of_creation {t : Place} (hkind : p.kind = "object_creation_expression")
    (ht : callee? p = some t) : calleeName d t = typeName d t := by
  rw [callee?_of_creation hkind] at ht
  have hname := (Option.filter_eq_some_iff.1 ht).2
  have hmember : t.kind ≠ "member_access_expression" := by
    intro hmember
    rw [Place.isOneOf, hmember] at hname
    exact absurd hname (by decide)
  rw [calleeName, beq_eq_false_iff_ne.2 hmember]
  rfl

theorem report_of_creation (hkind : p.kind = "object_creation_expression") :
    (sight d).report p = Reference.ofKinds [.call]
      ((callee? p).map fun t => d.reference .call (typeName d t) p above).toList := by
  rw [Reference.ofKinds_map (by intro t; rfl)]
  simp only [sight, attributesOf, hkind, callReference]
  cases ht : callee? p with
  | none => rfl
  | some t =>
      rw [Option.map_some, Option.map_some, calleeName_of_creation hkind ht]
      rfl

/-- The arguments and the initializer of a creation are different children. -/
theorem areApart_parts (p : Place) :
    areApart (p.childOf? "argument_list") (p.childOf? "initializer_expression") = true := by
  cases ha : p.childOf? "argument_list" with
  | none => rfl
  | some a =>
      cases hb : p.childOf? "initializer_expression" with
      | none => rfl
      | some b =>
          have hakind : a.kind = "argument_list" := by simpa using List.find?_some ha
          have hbkind : b.kind = "initializer_expression" := by simpa using List.find?_some hb
          have hindex : b.index ≠ a.index := by
            intro hindex
            have heq := Place.eq_of_index_eq (Place.mem_children_of_childOf? hb)
              (Place.mem_children_of_childOf? ha) hindex
            rw [heq, hakind] at hbkind
            exact absurd hbkind (by decide)
          simpa [areApart, isChosen] using hindex

theorem balances_creationSteps (hp : (sight d).IsMet tree s p)
    (hkind : p.kind = "object_creation_expression") :
    (ledger d tree).Balances (creationSteps d s p) ((sight d).reports p) := by
  have hlook : ∀ c, lookIn p c = if isPart p c then .inside else .never := by
    intro c
    simp only [lookIn, hkind]
  have harguments : ∀ a ∈ p.childOf? "argument_list", lookIn p a = .inside := by
    intro a ha
    rw [hlook, isPart, Option.mem_def.1 ha, Place.isChosen_some_self]
    rfl
  have hinitializer : ∀ a ∈ p.childOf? "initializer_expression", lookIn p a = .inside := by
    intro a ha
    rw [hlook, isPart, Option.mem_def.1 ha, Place.isChosen_some_self, Bool.or_true]
    rfl
  have hperm := Sight.perm_reports_of_two hp.look (fun _ => Place.mem_children_of_childOf?)
    (fun _ => Place.mem_children_of_childOf?) (areApart_parts p) fun c hone hother => by
      show lookIn p c = .never
      rw [hlook, isPart, hone, hother]
      rfl
  refine Ledger.Balances.trans ?_ hperm.symm
  rw [report_of_creation hkind, callee?_of_creation hkind, ← List.append_assoc, creationSteps]
  refine Ledger.Balances.append (Ledger.Balances.append (Sight.balances_use? _) ?_) ?_
  · exact Sight.balances_part hp (fun _ => Place.mem_children_of_childOf?) harguments rfl rfl
  · exact Sight.balances_part hp (fun _ => Place.mem_children_of_childOf?) hinitializer rfl rfl

/-! ## What all steps account for -/

theorem attributes_unscoped (d : Document) (scope : Option String) (p : Place) :
    Reference.ofKinds [.call] (attributes d scope p) = attributes d none p := by
  have hcalls : ∀ r ∈ attributes d scope p, [ReferenceKind.call].contains r.kind = true :=
    forall_mem_filterMap fun _ => forall_mem_map fun _ => rfl
  rw [Reference.ofKinds_eq_map hcalls, attributes, List.map_filterMap, attributes]
  refine List.filterMap_congr fun a _ => ?_
  rw [Option.map_map]
  rfl

theorem balances_attributes (hp : (sight d).IsMet tree s p) (hkind : p.kind = "attribute_list") :
    (ledger d tree).Balances (Step.emitAll (attributes d s.name p)) ((sight d).reports p) := by
  refine Sight.balances_closed hp (fun c => ?_) ?_
  · simp only [sight, lookIn, hkind]
  · rw [attributes_unscoped]
    simp [sight, attributesOf, callReference, callee?, hkind]

/-- A directive or a nullable type accounts for nothing, as nothing is in sight in it. -/
theorem balances_dead {use : Option Reference} (hp : (sight d).IsMet tree s p)
    (hkind : p.kind = "using_directive" ∨ p.kind = "nullable_type")
    (huse : ∀ r ∈ use, [ReferenceKind.call].contains r.kind = false) :
    (ledger d tree).Balances (Step.emit? use) ((sight d).reports p) := by
  refine Sight.balances_closed hp (fun c => ?_) ?_
  · rcases hkind with hkind | hkind <;> simp only [sight, lookIn, hkind]
  · rw [Reference.ofKinds_eq_nil (forall_mem_toList huse)]
    rcases hkind with hkind | hkind <;>
      simp [sight, attributesOf, callReference, callee?, hkind]

/-- A place that is no call, and of which the walk looks at all children as a whole, accounts for
what is in sight in it, next to uses of other kinds. -/
theorem balances_through (hp : (sight d).IsMet tree s p)
    (hkind : p.kind ∉ "invocation_expression" :: closedKinds) {uses : List Reference}
    (h : ∀ r ∈ uses, [ReferenceKind.call].contains r.kind = false)
    (hdepth : s'.depth = s.depth + 1) :
    (ledger d tree).Balances (Step.emitAll uses ++ [.visit s' p]) ((sight d).reports p) := by
  simp only [closedKinds, List.mem_cons, List.not_mem_nil, or_false, not_or] at hkind
  obtain ⟨hinvocation, hdirective, hcreation, hattributes, hnullable⟩ := hkind
  have hreport : (sight d).report p = Reference.ofKinds [.call] uses := by
    rw [Reference.ofKinds_eq_nil h]
    simp [sight, attributesOf, callReference, callee?, hattributes]
  have hwhole : ∀ c ∈ p.children, lookIn p c = .whole := by
    intro c _
    rw [lookIn]
    split
    · exact absurd ‹_› hdirective
    · exact absurd ‹_› hattributes
    · exact absurd ‹_› hnullable
    · exact absurd ‹_› hcreation
    · rfl
  exact Sight.balances_open hp hreport hwhole rfl hdepth

theorem heritage_notCall {owner : String} : ∀ r ∈ heritage d owner p,
    [ReferenceKind.call].contains r.kind = false := by
  simp only [heritage]
  split
  · nofun
  · refine List.forall_mem_cons.2 ⟨?_, List.forall_mem_map.2 fun _ _ => rfl⟩
    split <;> rfl

theorem balances_childSteps (hp : (sight d).IsMet tree s p) :
    (ledger d tree).Balances (childSteps d s p) ((sight d).reports p) := by
  have hnone : ∀ r ∈ ([] : List Reference), [ReferenceKind.call].contains r.kind = false := nofun
  simp only [childSteps]
  split
  case h_1 hkind | h_2 hkind => exact balances_through hp (by rw [hkind]; decide) hnone rfl
  case h_3 hkind => exact balances_dead hp (Or.inl hkind) (forall_mem_map fun _ => rfl)
  case h_4 hkind => exact balances_invocationSteps hp hkind
  case h_5 hkind => exact balances_creationSteps hp hkind
  case h_6 hkind => exact balances_attributes hp hkind
  case h_7 hkind => exact balances_dead hp (Or.inr hkind) (forall_mem_map fun _ => rfl)
  case h_8 _ _ hdirective hinvocation hcreation hattributes hnullable =>
    have hkind : p.kind ∉ "invocation_expression" :: closedKinds := by
      simp only [closedKinds, List.mem_cons, List.not_mem_nil, or_false, not_or]
      exact ⟨hinvocation, hdirective, hcreation, hattributes, hnullable⟩
    split
    · exact balances_through hp hkind (forall_mem_getD_map fun _ => heritage_notCall) rfl
    · split <;> exact balances_through hp hkind hnone rfl

/-- The walk reports the calls and attributes in sight, each once. -/
theorem perm_references (hheight : tree.height ≤ d.limits.walkDepth.toNat) :
    (Reference.ofKinds [.call] (references d (.root tree))).Perm
      ((sight d).reports (.root tree)) := by
  refine Sight.perm_walk (isScoped d).descends rfl fun s p hp => ?_
  rw [rule_eq]
  refine Sight.balances_steps hheight hp fun c hc => ?_
  -- A file-wide namespace before the child changes the scope, and no depth.
  have hc' : (sight d).IsMet tree { s with name := scopeBefore d s.name c } c :=
    ⟨hc.ofTree, hc.depth, hc.look⟩
  exact balances_childSteps hc'

/-! ## What is in sight -/

theorem kind_of_isChosen {kind : String} (hc : c ∈ p.children)
    (h : isChosen (p.childOf? kind) c = true) : c.kind = kind := by
  obtain ⟨a, ha, hindex⟩ := (Option.any_eq_true _ _).1 h
  rw [← Place.eq_of_index_eq (Place.mem_children_of_childOf? ha) hc (beq_iff_eq.1 hindex)]
  simpa using List.find?_some ha

theorem kind_of_isPart (hc : c ∈ p.children) (h : isPart p c = true) : c.kind ∈ partKinds := by
  rcases Bool.or_eq_true_iff.1 h with h | h
  · rw [kind_of_isChosen hc h]
    decide
  · rw [kind_of_isChosen hc h]
    decide

/-- At a child of a place at which the walk looks as a whole, it does not look at all if the step is
shut, and else as a whole, or at a part of a creation inside. -/
theorem lookIn_eq (hlevel : 0 < p.level) (hc : c ∈ p.children) :
    isShut p c = true ∧ lookIn p c = .never ∨
      isShut p c = false ∧ (lookIn p c = .whole ∨ lookIn p c = .inside ∧ c.kind ∈ partKinds) := by
  have hshut : isShut p c =
      (p.isOneOf deadKinds || p.kind == "object_creation_expression" && !isPart p c) := by
    rw [isShut, decide_eq_true hlevel, Bool.true_and]
  rw [hshut, lookIn]
  split
  case h_1 hkind | h_2 hkind | h_3 hkind =>
    refine Or.inl ⟨?_, rfl⟩
    rw [Place.isOneOf, hkind]
    rfl
  case h_4 hkind =>
    have hdead : p.isOneOf deadKinds = false := by
      rw [Place.isOneOf, hkind]
      decide
    rw [hdead, hkind]
    cases hpart : isPart p c with
    | false => exact Or.inl ⟨rfl, rfl⟩
    | true => exact Or.inr ⟨rfl, Or.inr ⟨rfl, kind_of_isPart hc hpart⟩⟩
  case h_5 hdirective hattributes hnullable hcreation =>
    have hdead : p.isOneOf deadKinds = false := by
      rw [Place.isOneOf, Bool.eq_false_iff, Ne, List.contains_iff_mem]
      simp only [deadKinds, List.mem_cons, List.not_mem_nil, or_false, not_or]
      exact ⟨hdirective, hattributes, hnullable⟩
    rw [hdead, beq_eq_false_iff_ne.2 hcreation]
    exact Or.inr ⟨rfl, Or.inl rfl⟩

/-- How a walk comes to a place of a file: not at all, or to look at it as a whole, or to look at
what stands in it. -/
inductive Arrival (d : Document) (p : Place) : Prop where
  | shut (hshut : p.passes isShut = true) (hlook : (sight d).look p = .never)
  | whole (hopen : p.passes isShut = false) (hlevel : 0 < p.level)
      (hlook : (sight d).look p = .whole)
  | inside (hopen : p.passes isShut = false) (hpart : p.level = 0 ∨ p.kind ∈ partKinds)
      (hlook : (sight d).look p = .inside)

theorem passes_of_mem_children (hc : c ∈ p.children) :
    c.passes isShut = (p.passes isShut || isShut p c) := by
  obtain ⟨ns, n, rfl⟩ := Place.exists_of_mem_children hc
  rfl

theorem isShut_of_inside (hpart : p.level = 0 ∨ p.kind ∈ partKinds) : isShut p c = false := by
  rcases hpart with hlevel | hkind
  · simp [isShut, hlevel]
  · simp only [partKinds, List.mem_cons, List.not_mem_nil, or_false] at hkind
    rcases hkind with hkind | hkind <;> simp [isShut, Place.isOneOf, deadKinds, hkind]

theorem Arrival.child (hp : Arrival d p) (hc : c ∈ p.children) : Arrival d c := by
  have hlevel : 0 < c.level := by
    rw [Place.level_of_mem_children hc]
    exact Nat.succ_pos _
  cases hp with
  | shut hshut hlook =>
      refine .shut ?_ (Sight.look_of_never hc hlook)
      rw [passes_of_mem_children hc, hshut, Bool.true_or]
  | inside hopen hpart hlook =>
      refine .whole ?_ hlevel (Sight.look_of_inside hc hlook)
      rw [passes_of_mem_children hc, hopen, isShut_of_inside hpart, Bool.or_false]
  | whole hopen hplevel hlook =>
      have hpasses : c.passes isShut = isShut p c := by
        rw [passes_of_mem_children hc, hopen, Bool.false_or]
      have hlookc := Sight.look_of_whole hc hlook
      rcases lookIn_eq hplevel hc with ⟨hshut, hnever⟩ | ⟨hnot, hwhole | ⟨hinside, hkind⟩⟩
      · exact .shut (hpasses.trans hshut) (hlookc.trans hnever)
      · exact .whole (hpasses.trans hnot) hlevel (hlookc.trans hwhole)
      · exact .inside (hpasses.trans hnot) (Or.inr hkind) (hlookc.trans hinside)

theorem arrival (hp : p ∈ (Place.root tree).subtree) : Arrival d p :=
  Place.forall_mem_subtree (fun _ _ hc hq => Arrival.child hq hc)
    (.inside rfl (Or.inl rfl) rfl) p hp

/-- Nothing is reported of the parts of a creation themselves. -/
theorem report_of_part (hkind : p.kind ∈ partKinds) : (sight d).report p = [] := by
  simp only [partKinds, List.mem_cons, List.not_mem_nil, or_false] at hkind
  rcases hkind with hkind | hkind <;> simp [sight, attributesOf, callReference, callee?, hkind]

/-- What is reported at a place of a file is what there is to report, if the place is in reach. -/
theorem reportAt_eq (hp : p ∈ (Place.root tree).subtree) :
    (sight d).reportAt p = if isInReach p then (sight d).report p else [] := by
  rw [Sight.reportAt]
  cases arrival (d := d) hp with
  | shut hshut hlook => simp [hlook, isInReach, hshut]
  | whole hopen hlevel hlook => simp [hlook, isInReach, hopen, hlevel]
  | inside hopen hpart hlook =>
      rcases hpart with hlevel | hkind
      · simp [hlook, isInReach, hlevel]
      · simp [hlook, report_of_part hkind]

/-! ## Which calls are reported -/

theorem filterMap_callsIn (d : Document) (tree : Node) :
    (callsIn tree).filterMap (callReference d) = (Place.root tree).subtree.flatMap fun p =>
      if isInReach p then (callReference d p).toList else [] := by
  rw [callsIn, List.filterMap_filter, List.filterMap_eq_flatMap_toList]
  refine List.flatMap_congr fun p _ => ?_
  cases hcallee : callee? p <;> cases isInReach p <;> simp [callReference, hcallee]

theorem flatMap_attributeListsIn (d : Document) (tree : Node) :
    (attributeListsIn tree).flatMap (attributes d none) =
      (Place.root tree).subtree.flatMap fun p => if isInReach p then attributesOf d p else [] := by
  rw [attributeListsIn, ← List.filterMap_eq_filter, List.filterMap_eq_flatMap_toList,
    List.flatMap_assoc]
  refine List.flatMap_congr fun p _ => ?_
  by_cases hkind : p.kind = "attribute_list" <;> cases hreach : isInReach p <;>
    simp [Option.guard, attributesOf, hkind, hreach]

/-- Of a file that is not too deep, the calls and the attributes that a walk can come to are
reported, each once, and nothing else is reported as a call. -/
theorem references_calls_and_attributes (hheight : tree.height ≤ d.limits.walkDepth.toNat) :
    (Reference.ofKinds [.call] (references d (.root tree))).Perm
      ((callsIn tree).filterMap (callReference d) ++
        (attributeListsIn tree).flatMap (attributes d none)) := by
  have hreports : (sight d).reports (.root tree) = (Place.root tree).subtree.flatMap fun p =>
      (if isInReach p then (callReference d p).toList else []) ++
        if isInReach p then attributesOf d p else [] := by
    rw [Sight.reports]
    refine List.flatMap_congr fun p hp => ?_
    rw [reportAt_eq hp]
    split <;> rfl
  refine (perm_references hheight).trans ?_
  rw [hreports, filterMap_callsIn, flatMap_attributeListsIn]
  exact (List.flatMap_append_perm _ _ _).symm

end

/-! ## Calls in a method -/

/-- A C# file with one class, in whose one method stands a call as a statement. -/
def fileWith (call : Node) (stop : Nat) : Node :=
  .mk "compilation_unit" true [] 0 (stop + 6)
    [.mk "class_declaration" true [] 0 (stop + 5)
      [.token "class" 0 5, .leaf "identifier" ["name"] 6 7,
        .mk "declaration_list" true ["body"] 8 (stop + 5)
          [.token "\x7b" 8 9,
            .mk "method_declaration" true [] 10 (stop + 3)
              [.leaf "predefined_type" ["returns"] 10 14, .leaf "identifier" ["name"] 15 16,
                .mk "parameter_list" true ["parameters"] 16 18
                  [.token "(" 16 17, .token ")" 17 18],
                .mk "block" true ["body"] 19 (stop + 3)
                  [.token "\x7b" 19 20,
                    .mk "expression_statement" true [] 21 (stop + 1)
                      [call, .token ";" stop (stop + 1)],
                    .token "\x7d" (stop + 2) (stop + 3)]],
            .token "\x7d" (stop + 4) (stop + 5)]]]

/-- A list of arguments. -/
def argumentsOf (arguments : List Node) (start stop : Nat) : Node :=
  .mk "argument_list" true ["arguments"] start stop
    (.token "(" start (start + 1) ::
      arguments.map (fun a => .mk "argument" true [] a.start a.stop [a]) ++
        [.token ")" (stop - 1) stop])

/-- The invocation of something without arguments. -/
def invocationOf (function : Node) (fields : List String) (start stop : Nat) : Node :=
  .mk "invocation_expression" true fields start stop [function, argumentsOf [] (stop - 2) stop]

/-- An invocation on what another one gives.  In its arguments an object is created, with calls in
the arguments and in the initializer. -/
def chainedCalls : Document :=
  { path := "a.cs"
    bytes := Text.Utf8.encode
      "class A \x7b void f() \x7b k.l(d<int>()).m(new B(n()) \x7b E = h() \x7d); \x7d \x7d\n".toList
    limits := {} }

/-- The tree of `chainedCalls`. -/
def chainedCallsTree : Node :=
  fileWith
    (.mk "invocation_expression" true [] 21 60
      [.mk "member_access_expression" true ["function"] 21 36
          [.mk "invocation_expression" true ["expression"] 21 34
              [.mk "member_access_expression" true ["function"] 21 24
                  [.leaf "identifier" ["expression"] 21 22, .token "." 22 23,
                    .leaf "identifier" ["name"] 23 24],
                argumentsOf
                  [invocationOf
                    (.mk "generic_name" true ["function"] 25 31
                      [.leaf "identifier" [] 25 26,
                        .mk "type_argument_list" true [] 26 31
                          [.token "<" 26 27, .leaf "predefined_type" [] 27 30,
                            .token ">" 30 31]])
                    [] 25 33]
                  24 34],
            .token "." 34 35, .leaf "identifier" ["name"] 35 36],
        argumentsOf
          [.mk "object_creation_expression" true [] 37 59
            [.token "new" 37 40, .leaf "identifier" ["type"] 41 42,
              argumentsOf [invocationOf (.leaf "identifier" ["function"] 43 44) [] 43 46] 42 47,
              .mk "initializer_expression" true ["initializer"] 48 59
                [.token "\x7b" 48 49,
                  .mk "assignment_expression" true [] 50 57
                    [.leaf "identifier" ["left"] 50 51,
                      .mk "=" false ["operator"] 52 53 [],
                      invocationOf (.leaf "identifier" ["function"] 54 55) ["right"] 54 57],
                  .token "\x7d" 58 59]]]
          36 60])
    60

theorem chainedCalls_reported :
    chainedCallsTree.height ≤ chainedCalls.limits.walkDepth.toNat ∧
      ((Reference.ofKinds [.call] (references chainedCalls (.root chainedCallsTree))).map
        (·.targetName)).Perm ["m", "l", "d", "B", "n", "h"] := by
  have hheight : chainedCallsTree.height ≤ chainedCalls.limits.walkDepth.toNat := by
    decide +kernel
  have hnames : ((callsIn chainedCallsTree).filterMap (callReference chainedCalls) ++
      (attributeListsIn chainedCallsTree).flatMap (attributes chainedCalls none)).map
        (·.targetName) = ["m", "l", "d", "B", "n", "h"] := by
    decide +kernel
  refine ⟨hheight, ?_⟩
  rw [← hnames]
  exact (references_calls_and_attributes hheight).map _

/-- The use that a call would be if a qualified type went by its last name alone. -/
def shortReference (d : Document) (p : Place) : Option Reference :=
  (callee? p).map fun f => d.reference .call (Text.afterLast "." (calleeName d f)) p none

/-- The creation of an object of a type in a namespace. -/
def qualifiedCreation : Document :=
  { path := "a.cs"
    bytes := Text.Utf8.encode "class A \x7b void f() \x7b new ns.J(); \x7d \x7d\n".toList
    limits := {} }

/-- The tree of `qualifiedCreation`. -/
def qualifiedCreationTree : Node :=
  fileWith
    (.mk "object_creation_expression" true [] 21 31
      [.token "new" 21 24,
        .mk "qualified_name" true ["type"] 25 29
          [.leaf "identifier" ["qualifier"] 25 27, .token "." 27 28,
            .leaf "identifier" ["name"] 28 29],
        argumentsOf [] 29 31])
    31

theorem qualifiedCreation_not_short :
    qualifiedCreationTree.height ≤ qualifiedCreation.limits.walkDepth.toNat ∧
      ¬ (Reference.ofKinds [.call]
          (references qualifiedCreation (.root qualifiedCreationTree))).Perm
        ((callsIn qualifiedCreationTree).filterMap (shortReference qualifiedCreation) ++
          (attributeListsIn qualifiedCreationTree).flatMap (attributes qualifiedCreation none)) := by
  refine ⟨by decide +kernel, ?_⟩
  decide +kernel

end SourceIndex.Uses.CSharp.Calls
