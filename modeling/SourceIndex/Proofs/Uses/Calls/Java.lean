import SourceIndex.Proofs.Scopes.Java
import SourceIndex.Proofs.Uses.Account

/-!
# Calls in Java

A walk over a Java file looks at every place of it but for some that stand in calls.  Behind an
invocation it goes on in the receiver and in the arguments, behind the creation of an object in the
arguments and in the class body.  A receiver that is an invocation is looked at as such, and of any
other receiver only what stands in it.  So the walk reports all calls, each once, exactly where no
object is created as a receiver and no call stands in one of the other parts of a call.
-/

namespace SourceIndex.Uses.Java.Calls

open SourceIndex.Idiom.Java
open Place (isChosen areApart)

variable (d : Document) {tree : Node} {s : Scope} {p c : Place}

/-- Is a place a call outside of imports: an invocation with a name, or the creation of an object of
a type? -/
def isCall (p : Place) : Bool :=
  (p.kind == "method_invocation" && (p.field? "name").isSome ||
      p.kind == "object_creation_expression" && (p.field? "type").isSome) &&
    !p.isBelow ["import_declaration"]

/-- The calls of a tree. -/
def callsIn (tree : Node) : List Place :=
  (Place.root tree).subtree.filter isCall

/-- The use that a call is, without the scope that it stands in. -/
def callReference (p : Place) : Option Reference :=
  match p.kind with
  | "method_invocation" =>
      (d.fieldText p "name").map fun name =>
        let target := ((p.field? "object").map fun o => d.text o ++ "." ++ name).getD name
        d.reference .call target p none
  | "object_creation_expression" =>
      (p.field? "type").map fun t => d.reference .call (baseTypeName d t) p none
  | _ => none

/-- How the walk for uses looks at a child of a place at which it looks as a whole. -/
def lookIn (p c : Place) : Look :=
  match p.kind with
  | "import_declaration" => .never
  | "method_invocation" =>
      if (p.field? "name").isNone then .never
      else if p.isField "object" c then
        if c.kind == "method_invocation" then .whole else .inside
      else if p.isField "arguments" c then .inside
      else .never
  | "object_creation_expression" =>
      if p.isField "arguments" c || isChosen (p.childOf? "class_body") c then .inside else .never
  | _ => .whole

/-- What the walk for uses looks at, and the calls that it reports. -/
def sight : Sight Reference where
  whole := lookIn
  report p := (callReference d p).toList

/-- What the grammar promises of a tree: an import is neither the whole file nor a part of a call,
and no child of a call is two of its parts at once. -/
structure IsGrammatical (tree : Node) : Prop where
  root : tree.kind ≠ "import_declaration"
  imports : ∀ p ∈ (Place.root tree).subtree,
    p.isOneOf ["method_invocation", "object_creation_expression"] = true →
      ∀ c ∈ p.children, c.kind ≠ "import_declaration"
  invocations : Place.AreApart tree "method_invocation" "object" "arguments"
  creations : ∀ p ∈ (Place.root tree).subtree, p.kind = "object_creation_expression" →
    areApart (p.field? "arguments") (p.childOf? "class_body") = true

/-- What a task is after: the uses in the children, or the invocation that a place is. -/
def aim : Task → Aim
  | .inside s => .children s
  | .invocation s => .whole s "method_invocation"

/-- How the walk for calls is accounted for. -/
abbrev ledger (tree : Node) : Ledger Task Reference Reference :=
  (sight d).ledger [.call] tree aim

section

variable {d}

/-! ## What the steps for a call account for -/

/-- Of an invocation with a name the walk looks at the receiver and at the arguments. -/
theorem looksAtFields_invocation (h : IsGrammatical tree) (hp : (sight d).IsMet tree s p)
    (hkind : p.kind = "method_invocation") (hname : (p.field? "name").isNone = false) :
    (sight d).LooksAtFields p "object" "arguments"
      fun c => if c.kind == "method_invocation" then .whole else .inside where
  apart := h.invocations p hp.ofTree hkind
  whole := by
    intro c
    simp only [sight, lookIn, hkind, hname, Bool.false_eq_true, if_false]

theorem balances_invocationSteps (h : IsGrammatical tree) (hp : (sight d).IsMet tree s p)
    (hkind : p.kind = "method_invocation") :
    (ledger d tree).Balances (invocationSteps d s p) ((sight d).reports p) := by
  rw [invocationSteps]
  cases hname : d.fieldText p "name" with
  | none =>
      have hnone : (p.field? "name").isNone = true := by
        rw [Option.isNone_iff_eq_none]
        exact Option.map_eq_none_iff.1 hname
      have hnever : ∀ c ∈ p.children, lookIn p c = .never := by
        intro c _
        simp only [lookIn, hkind, hnone, if_true]
      rw [Sight.reports_of_closed hp.look hnever]
      simp only [sight, callReference, hkind, hname]
      exact Ledger.balances_nil
  | some name =>
      have hsome : (p.field? "name").isNone = false := by
        obtain ⟨q, hq, -⟩ := Option.map_eq_some_iff.1 hname
        rw [hq, Option.isNone_some]
      have hfields := looksAtFields_invocation h hp hkind hsome
      have hreport : (sight d).report p = Reference.ofKinds [.call] [d.reference .call
          (((p.field? "object").map fun o => d.text o ++ "." ++ name).getD name) p s.name] := by
        rw [Reference.ofKinds_singleton rfl, Reference.unscoped_reference]
        simp only [sight, callReference, hkind, hname]
        rfl
      refine hfields.balances hp hreport ?_ rfl rfl
      cases ho : p.field? "object" with
      | none => exact Ledger.balances_nil
      | some o =>
          have hchild := Place.mem_children_of_field? ho
          rw [Option.toList_some, List.flatMap_singleton]
          exact Sight.balances_receiver rfl rfl (Place.mem_subtree_of_field? hp.ofTree ho)
            (hp.depth_child hchild)
            ((Sight.look_of_whole hchild hp.look).trans (hfields.whole_field ho))

theorem balances_creationSteps (h : IsGrammatical tree) (hp : (sight d).IsMet tree s p)
    (hkind : p.kind = "object_creation_expression") :
    (ledger d tree).Balances (creationSteps d s p) ((sight d).reports p) := by
  have hlook : ∀ c, lookIn p c =
      if p.isField "arguments" c || isChosen (p.childOf? "class_body") c then .inside
      else .never := by
    intro c
    simp only [lookIn, hkind]
  have harguments : ∀ a ∈ p.field? "arguments", lookIn p a = .inside := by
    intro a ha
    rw [hlook, Place.isField_of_field? ha]
    rfl
  have hbody : ∀ b ∈ p.childOf? "class_body", lookIn p b = .inside := by
    intro b hb
    rw [hlook, Option.mem_def.1 hb, Place.isChosen_some_self, Bool.or_true]
    rfl
  have hperm := Sight.perm_reports_of_two hp.look (fun _ => Place.mem_children_of_field?)
    (fun _ => Place.mem_children_of_childOf?) (h.creations p hp.ofTree hkind)
    fun c harguments hbody => by
      rw [← Place.isField] at harguments
      show lookIn p c = .never
      rw [hlook, harguments, hbody]
      rfl
  refine Ledger.Balances.trans ?_ hperm.symm
  have hreport : (sight d).report p = Reference.ofKinds [.call]
      (((p.field? "type").map fun t =>
        d.reference .call (baseTypeName d t) p s.name).toList) := by
    rw [Reference.ofKinds_map (by intro t; rfl)]
    simp only [sight, callReference, hkind, Reference.unscoped_reference]
  rw [hreport, ← List.append_assoc, creationSteps]
  refine Ledger.Balances.append (Ledger.Balances.append (Sight.balances_use? _) ?_) ?_
  · exact Sight.balances_part hp (fun _ => Place.mem_children_of_field?) harguments rfl rfl
  · exact Sight.balances_part hp (fun _ => Place.mem_children_of_childOf?) hbody rfl rfl

/-! ## What all steps account for -/

/-- A place at which the walk looks as a whole, and which is neither a call nor an import, accounts
for what is in sight in it. -/
theorem balances_through (hp : (sight d).IsMet tree s p) (hkind : p.kind ∉ closedKinds)
    {s' : Scope} (hdepth : s'.depth = s.depth + 1) :
    (ledger d tree).Balances [.visit (.inside s') p] ((sight d).reports p) := by
  simp only [closedKinds, List.mem_cons, List.not_mem_nil, or_false, not_or] at hkind
  obtain ⟨himport, hinvocation, hcreation⟩ := hkind
  have hreport : (sight d).report p = [] := by
    simp only [sight, callReference, Option.toList_none]
  have hwhole : ∀ c ∈ p.children, lookIn p c = .whole := by
    intro c _
    rw [lookIn]
    split
    · exact absurd ‹_› himport
    · exact absurd ‹_› hinvocation
    · exact absurd ‹_› hcreation
    · rfl
  exact Sight.balances_through hp hreport hwhole rfl hdepth

theorem import?_notCall {scope : Option String} : ∀ r ∈ (import? d scope p).toList,
    [ReferenceKind.call].contains r.kind = false := by
  refine forall_mem_toList (forall_mem_map fun q => ?_)
  dsimp only
  split <;> rfl

theorem heritage_notCall {owner : String} : ∀ r ∈ heritage d owner p,
    [ReferenceKind.call].contains r.kind = false := by
  simp only [heritage, List.forall_mem_append, List.forall_mem_map]
  exact ⟨⟨fun _ _ => rfl, fun _ _ => rfl⟩, fun _ _ => rfl⟩

/-- An import accounts for nothing, as nothing is in sight in it. -/
theorem balances_import (hp : (sight d).IsMet tree s p) (hkind : p.kind = "import_declaration") :
    (ledger d tree).Balances (Step.emit? (import? d s.name p)) ((sight d).reports p) := by
  refine Sight.balances_closed hp (fun c => ?_) ?_
  · simp only [sight, lookIn, hkind]
  · rw [Reference.ofKinds_eq_nil import?_notCall]
    simp only [sight, callReference, hkind]
    rfl

theorem balances_childSteps (h : IsGrammatical tree) (hp : (sight d).IsMet tree s p) :
    (ledger d tree).Balances (childSteps d s p) ((sight d).reports p) := by
  unfold childSteps
  split
  case h_1 hkind => exact balances_import hp hkind
  case h_2 hkind => exact balances_invocationSteps h hp hkind
  case h_3 hkind => exact balances_creationSteps h hp hkind
  case h_4 hkind | h_5 hkind => exact balances_through hp (by rw [hkind]; decide) rfl
  case h_6 himport hinvocation hcreation _ _ =>
    have hkind : p.kind ∉ closedKinds := by
      simp only [closedKinds, List.mem_cons, List.not_mem_nil, or_false, not_or]
      exact ⟨himport, hinvocation, hcreation⟩
    split
    case isTrue =>
      refine (balances_through hp hkind rfl).prepend (Sight.balances_others ?_)
      exact forall_mem_getD_map fun _ => heritage_notCall
    case isFalse => exact balances_through hp hkind rfl

theorem balances_rule (h : IsGrammatical tree) (hheight : tree.height ≤ d.limits.walkDepth.toNat)
    (task : Task) (p : Place) (hp : (ledger d tree).isOpen task p) :
    (ledger d tree).Balances (rule d task p) ((ledger d tree).due task p) := by
  cases task with
  | inside s => exact Sight.balances_steps hheight hp fun c hc => balances_childSteps h hc
  | invocation s => exact balances_invocationSteps h hp.1 hp.2

/-- The walk reports the calls in sight, each once. -/
theorem perm_references (h : IsGrammatical tree)
    (hheight : tree.height ≤ d.limits.walkDepth.toNat) :
    (Reference.ofKinds [.call] (references d (.root tree))).Perm
      ((sight d).reports (.root tree)) :=
  Sight.perm_walk (isScoped d).descends rfl (balances_rule h hheight)

/-! ## What is in sight -/

/-- The walk looks at an import as a whole, or not at all. -/
theorem look_import (h : IsGrammatical tree) (hp : p ∈ (Place.root tree).subtree)
    (hkind : p.kind = "import_declaration") :
    (sight d).look p = .whole ∨ (sight d).look p = .never := by
  refine (Place.forall_mem_subtree (P := fun p => p ∈ (Place.root tree).subtree ∧
    (p.kind = "import_declaration" → (sight d).look p = .whole ∨ (sight d).look p = .never))
    (fun q c hc hq => ⟨Place.mem_subtree_of_mem_children hq.1 hc, fun hkind => ?_⟩)
    ⟨Place.self_mem_subtree _, fun hkind => absurd hkind h.root⟩ p hp).2 hkind
  -- An import is no part of a call, so where the walk comes to it, it does so as to any child.
  cases hlook : (sight d).look q with
  | never => exact Or.inr (Sight.look_of_never hc hlook)
  | name => exact Or.inr (Sight.look_of_name hc hlook)
  | inside => exact Or.inl (Sight.look_of_inside hc hlook)
  | operand => exact Or.inr (Sight.look_of_operand hc hlook)
  | whole =>
      have hcalls : q.isOneOf ["method_invocation", "object_creation_expression"] = false :=
        Bool.eq_false_iff.2 fun hcall => h.imports q hq.1 hcall c hc hkind
      rw [Place.isOneOf, ← Bool.not_eq_true, List.contains_iff_mem, List.mem_pair, not_or] at hcalls
      rw [Sight.look_of_whole hc hlook]
      show lookIn q c = .whole ∨ lookIn q c = .never
      rw [lookIn]
      split
      · exact Or.inr rfl
      · exact absurd ‹_› hcalls.1
      · exact absurd ‹_› hcalls.2
      · exact Or.inl rfl

/-- The walk passes over what stands in an import. -/
theorem look_of_isBelow (h : IsGrammatical tree) (hp : p ∈ (Place.root tree).subtree)
    (hbelow : p.isBelow ["import_declaration"] = true) : (sight d).look p = .never := by
  refine Sight.look_of_isBelow (fun q hq hkind c hc => ?_) hp hbelow
  rw [List.mem_singleton] at hkind
  rcases look_import h hq hkind with hlook | hlook
  · rw [Sight.look_of_whole hc hlook]
    show lookIn q c = .never
    simp only [lookIn, hkind]
  · exact Sight.look_of_never hc hlook

theorem isSome_callReference (p : Place) : (callReference d p).isSome =
    (p.kind == "method_invocation" && (p.field? "name").isSome ||
      p.kind == "object_creation_expression" && (p.field? "type").isSome) := by
  rw [callReference]
  split
  case h_1 hkind => simp [hkind, Document.fieldText]
  case h_2 hkind => simp [hkind]
  case h_3 hinvocation hcreation =>
    rw [beq_eq_false_iff_ne.2 hinvocation, beq_eq_false_iff_ne.2 hcreation]
    rfl

/-- Nothing but calls is reported as a call. -/
theorem rest_eq_nil (h : IsGrammatical tree) : (sight d).rest isCall tree = [] := by
  refine Sight.rest_eq_nil (sight d) (fun _ => rfl) fun p hp hlook hcall => ?_
  have hbelow : p.isBelow ["import_declaration"] = false := by
    rw [Bool.eq_false_iff]
    intro hbelow
    rw [look_of_isBelow h hp hbelow] at hlook
    cases hlook
  rw [isCall, hbelow, Bool.not_false, Bool.and_true, ← isSome_callReference (d := d)] at hcall
  exact Option.toList_eq_nil_iff.2 (Option.not_isSome_iff_eq_none.1 (Bool.eq_false_iff.1 hcall))

/-! ## Which calls are reported -/

/-- The calls of a file are reported, each once, exactly if the walk looks at each of them as a
whole. -/
theorem references_invocations_iff (h : IsGrammatical tree)
    (hheight : tree.height ≤ d.limits.walkDepth.toNat) :
    (Reference.ofKinds [.call] (references d (.root tree))).Perm
        ((callsIn tree).filterMap (callReference d)) ↔
      ∀ p ∈ callsIn tree, (sight d).look p = .whole := by
  have hdue : ∀ p, isCall p = true → (callReference d p).isSome = true := by
    intro p hcall
    rw [isCall, ← isSome_callReference (d := d), Bool.and_eq_true] at hcall
    exact hcall.1
  rw [(perm_references h hheight).congr_left, ← List.append_nil (List.filterMap _ _),
    ← rest_eq_nil h, callsIn]
  exact Sight.perm_reports_iff (sight d) hdue (fun _ _ => rfl) fun _ _ => rfl

end

/-- A Java file with one class, in whose one method stands a call as a statement. -/
def fileWith (call : Node) (stop : Nat) : Node :=
  .mk "program" true [] 0 (stop + 6)
    [.mk "class_declaration" true [] 0 (stop + 5)
      [.token "class" 0 5, .leaf "identifier" ["name"] 6 7,
        .mk "class_body" true ["body"] 8 (stop + 5)
          [.token "\x7b" 8 9,
            .mk "method_declaration" true [] 10 (stop + 3)
              [.leaf "void_type" ["type"] 10 14, .leaf "identifier" ["name"] 15 16,
                .mk "formal_parameters" true ["parameters"] 16 18
                  [.token "(" 16 17, .token ")" 17 18],
                .mk "block" true ["body"] 19 (stop + 3)
                  [.token "\x7b" 19 20,
                    .mk "expression_statement" true [] 21 (stop + 1)
                      [call, .token ";" stop (stop + 1)],
                    .token "\x7d" (stop + 2) (stop + 3)]],
            .token "\x7d" (stop + 4) (stop + 5)]]]

/-- An invocation on an object that is created for it. -/
def invocationOnCreation : Document :=
  { path := "A.java"
    bytes := Text.Utf8.encode "class A \x7b void f() \x7b new Builder().build(); \x7d \x7d\n".toList
    limits := {} }

/-- The tree of `invocationOnCreation`. -/
def invocationOnCreationTree : Node :=
  fileWith
    (.mk "method_invocation" true [] 21 42
      [.mk "object_creation_expression" true ["object"] 21 34
          [.token "new" 21 24, .leaf "type_identifier" ["type"] 25 32,
            .mk "argument_list" true ["arguments"] 32 34 [.token "(" 32 33, .token ")" 33 34]],
        .token "." 34 35, .leaf "identifier" ["name"] 35 40,
        .mk "argument_list" true ["arguments"] 40 42 [.token "(" 40 41, .token ")" 41 42]])
    42

theorem isGrammatical_invocationOnCreationTree : IsGrammatical invocationOnCreationTree :=
  ⟨by decide, by decide +kernel, by decide +kernel, by decide +kernel⟩

theorem invocationOnCreation_not_reported :
    IsGrammatical invocationOnCreationTree ∧
      invocationOnCreationTree.height ≤ invocationOnCreation.limits.walkDepth.toNat ∧
      ¬ (Reference.ofKinds [.call]
          (references invocationOnCreation (.root invocationOnCreationTree))).Perm
        ((callsIn invocationOnCreationTree).filterMap (callReference invocationOnCreation)) := by
  refine ⟨isGrammatical_invocationOnCreationTree, by decide +kernel, ?_⟩
  decide +kernel

/-- An invocation on what another one gives, which has the creation of an object as argument. -/
def invocationOnInvocation : Document :=
  { path := "A.java"
    bytes := Text.Utf8.encode "class A \x7b void f() \x7b g(new B()).h(); \x7d \x7d\n".toList
    limits := {} }

/-- The tree of `invocationOnInvocation`. -/
def invocationOnInvocationTree : Node :=
  fileWith
    (.mk "method_invocation" true [] 21 35
      [.mk "method_invocation" true ["object"] 21 31
          [.leaf "identifier" ["name"] 21 22,
            .mk "argument_list" true ["arguments"] 22 31
              [.token "(" 22 23,
                .mk "object_creation_expression" true [] 23 30
                  [.token "new" 23 26, .leaf "type_identifier" ["type"] 27 28,
                    .mk "argument_list" true ["arguments"] 28 30
                      [.token "(" 28 29, .token ")" 29 30]],
                .token ")" 30 31]],
        .token "." 31 32, .leaf "identifier" ["name"] 32 33,
        .mk "argument_list" true ["arguments"] 33 35 [.token "(" 33 34, .token ")" 34 35]])
    35

theorem invocationOnInvocation_reported :
    (Reference.ofKinds [.call]
        (references invocationOnInvocation (.root invocationOnInvocationTree))).Perm
      ((callsIn invocationOnInvocationTree).filterMap (callReference invocationOnInvocation)) := by
  have h : IsGrammatical invocationOnInvocationTree :=
    ⟨by decide, by decide +kernel, by decide +kernel, by decide +kernel⟩
  have hheight :
      invocationOnInvocationTree.height ≤ invocationOnInvocation.limits.walkDepth.toNat := by
    decide +kernel
  exact (references_invocations_iff h hheight).2 (by decide +kernel)

end SourceIndex.Uses.Java.Calls
