import SourceIndex.Proofs.Uses.Account
import SourceIndex.Proofs.Uses.Depth.Rust

/-!
# Calls in Rust

A walk over a Rust file looks at every place of it but for some that stand in use declarations, in
macros and in calls.  Behind a call it goes on in the arguments and, if a field of a value is
called, in the value.  A value that is a call is looked at as such, and of any other value only what
stands in it.  So the walk reports all calls and macros, each once, exactly where none of them is
itself called, where no field of a macro is called, and where none stands in one of the other parts.
-/

namespace SourceIndex.Uses.Rust.Calls

variable (d : Document) {tree : Node} {s : Scope} {p f c : Place} {task : Task}

/-- The name of the macro that a place invokes. -/
def macroName? (p : Place) : Option Place :=
  (p.field? "macro").or (p.childOfAny? ["identifier", "scoped_identifier"])

/-- Does a step lead into the arguments of a macro? -/
def isMacroArguments (p c : Place) : Bool :=
  p.kind == "macro_invocation" && c.kind == "token_tree"

/-- Is a place a call of something or a macro with a name, and neither in a use declaration nor in
the arguments of another macro? -/
def isCall (p : Place) : Bool :=
  (p.kind == "call_expression" && (p.field? "function").isSome ||
      p.kind == "macro_invocation" && (macroName? p).isSome) &&
    !p.isBelow ["use_declaration"] && !p.passes isMacroArguments

/-- The calls and macros of a tree. -/
def callsIn (tree : Node) : List Place :=
  (Place.root tree).subtree.filter isCall

/-- The use that a call or macro is, without the scope that it stands in. -/
def callReference (p : Place) : Option Reference :=
  match p.kind with
  | "call_expression" =>
      (p.field? "function").map fun f => d.reference .call (calleeName d f) f none
  | "macro_invocation" => macroCall? d none p
  | _ => none

/-- How the walk for uses looks at a child of a place at which it looks as a whole. -/
def lookIn (p c : Place) : Look :=
  match p.kind with
  | "use_declaration" | "macro_invocation" => .never
  | "call_expression" =>
      if (p.field? "function").isNone then .never
      else if p.isField "function" c then
        if c.kind == "field_expression" then .operand else .never
      else if p.isField "arguments" c then .inside
      else .never
  | _ => .whole

/-- How the walk for uses looks at a child of a field expression that is called. -/
def lookInField (p c : Place) : Look :=
  if p.isField "value" c then if c.kind == "call_expression" then .whole else .inside
  else .never

/-- What the walk for uses looks at, and the calls and macros that it reports. -/
def sight : Sight Reference where
  whole := lookIn
  operand := lookInField
  report p := (callReference d p).toList

/-- What a task is after: the uses in the children, or the call that a place is. -/
def aim : Task → Aim
  | .inside s => .children s
  | .call s => .whole s "call_expression"

/-- How the walk for calls and macros is accounted for. -/
abbrev ledger (tree : Node) : Ledger Task Reference Reference :=
  (sight d).ledger [.call] tree aim

section

variable {d}

/-! ## What the steps for a call account for -/

theorem balances_receiverSteps (hf : f ∈ (Place.root tree).subtree)
    (hdepth : s.deeper.depth ≤ f.level)
    (hlook : (sight d).look f = if f.kind == "field_expression" then .operand else .never) :
    (ledger d tree).Balances (receiverSteps s f) ((sight d).reports f) := by
  unfold receiverSteps
  cases hkind : f.kind == "field_expression" with
  | false =>
      rw [hkind] at hlook
      rw [Sight.reports_of_never hlook]
      exact Ledger.balances_nil
  | true =>
      rw [hkind] at hlook
      exact Sight.balances_operand hf hdepth hlook (fun _ => rfl) rfl rfl

/-- Of a call the walk looks at what is called and at the arguments. -/
theorem looksAtFields_call (h : Place.AreApart tree "call_expression" "function" "arguments")
    (hp : (sight d).IsMet tree s p) (hkind : p.kind = "call_expression")
    (hf : p.field? "function" = some f) :
    (sight d).LooksAtFields p "function" "arguments"
      fun c => if c.kind == "field_expression" then .operand else .never where
  apart := h p hp.ofTree hkind
  whole := by
    intro c
    simp only [sight, lookIn, hkind, hf, Option.isNone_some, Bool.false_eq_true, if_false]

theorem balances_callSteps (h : Place.AreApart tree "call_expression" "function" "arguments")
    (hp : (sight d).IsMet tree s p) (hkind : p.kind = "call_expression") :
    (ledger d tree).Balances (callSteps d s p) ((sight d).reports p) := by
  unfold callSteps
  split
  case h_1 hf =>
    have hnever : ∀ c ∈ p.children, lookIn p c = .never := by
      intro c _
      simp only [lookIn, hkind, hf, Option.isNone_none, if_true]
    have hreport : (sight d).report p = [] := by
      simp only [sight, callReference, hkind, hf, Option.map_none, Option.toList_none]
    rw [Sight.reports_of_closed hp.look hnever, hreport]
    exact Ledger.balances_nil
  case h_2 f hf =>
    have hfields := looksAtFields_call h hp hkind hf
    have hchild := Place.mem_children_of_field? hf
    have hdepth : s.deeper.depth ≤ f.level := Nat.le_of_lt (hp.depth_child hchild)
    have hreport : (sight d).report p =
        Reference.ofKinds [.call] [d.reference .call (calleeName d f) f s.name] := by
      rw [Reference.ofKinds_singleton rfl, Reference.unscoped_reference]
      simp only [sight, callReference, hkind, hf]
      rfl
    refine hfields.balances hp hreport ?_ rfl rfl
    rw [hf, Option.toList_some, List.flatMap_singleton]
    exact balances_receiverSteps (Place.mem_subtree_of_mem_children hp.ofTree hchild) hdepth
      ((Sight.look_of_whole hchild hp.look).trans (hfields.whole_field hf))

/-! ## What all steps account for -/

theorem balances_macro (hp : (sight d).IsMet tree s p) (hkind : p.kind = "macro_invocation") :
    (ledger d tree).Balances (Step.emit? (macroCall? d s.name p)) ((sight d).reports p) := by
  refine Sight.balances_closed hp (fun c => ?_) ?_
  · simp only [sight, lookIn, hkind]
  · rw [macroCall?, Reference.ofKinds_map (by intro m; rfl)]
    simp only [sight, callReference, hkind, Reference.unscoped_reference]
    rfl

theorem imports_notCall {scope : Option String} : ∀ r ∈ imports d scope p,
    [ReferenceKind.call].contains r.kind = false :=
  List.forall_mem_map.2 fun _ _ => rfl

/-- A use declaration accounts for nothing, as nothing is in sight in it. -/
theorem balances_imports (hp : (sight d).IsMet tree s p) (hkind : p.kind = "use_declaration") :
    (ledger d tree).Balances (Step.emitAll (imports d s.name p)) ((sight d).reports p) := by
  refine Sight.balances_closed hp (fun c => ?_) ?_
  · simp only [sight, lookIn, hkind]
  · rw [Reference.ofKinds_eq_nil imports_notCall]
    simp only [sight, callReference, hkind]
    rfl

/-- A place at which the walk looks as a whole, and which is neither a call nor a macro nor a use
declaration, accounts for what is in sight in it. -/
theorem balances_through (hp : (sight d).IsMet tree s p)
    (hkind : p.kind ∉ ["use_declaration", "macro_invocation", "call_expression"])
    {s' : Scope} (hdepth : s'.depth = s.depth + 1) :
    (ledger d tree).Balances [.visit (.inside s') p] ((sight d).reports p) := by
  simp only [List.mem_cons, List.not_mem_nil, or_false, not_or] at hkind
  obtain ⟨huse, hmacro, hcall⟩ := hkind
  have hreport : (sight d).report p = [] := by
    simp only [sight, callReference, Option.toList_none]
  have hwhole : ∀ c ∈ p.children, lookIn p c = .whole := by
    intro c _
    rw [lookIn]
    split
    · exact absurd ‹_› huse
    · exact absurd ‹_› hmacro
    · exact absurd ‹_› hcall
    · rfl
  exact Sight.balances_through hp hreport hwhole rfl hdepth

/-- A declaration with uses of other kinds accounts for what is in sight in it. -/
theorem balances_declaration (hp : (sight d).IsMet tree s p)
    (hkind : p.kind ∉ ["use_declaration", "macro_invocation", "call_expression"])
    {uses : List Reference} (h : ∀ r ∈ uses, [ReferenceKind.call].contains r.kind = false)
    {s' : Scope} (hdepth : s'.depth = s.depth + 1) :
    (ledger d tree).Balances (Step.emitAll uses ++ [.visit (.inside s') p])
      ((sight d).reports p) :=
  (balances_through hp hkind hdepth).prepend (Sight.balances_others h)

theorem implemented?_notCall : ∀ r ∈ (implemented? d p).toList,
    [ReferenceKind.call].contains r.kind = false := by
  refine forall_mem_toList fun r hr => ?_
  obtain ⟨type, -, hr⟩ := Option.bind_eq_some_iff.1 hr
  obtain ⟨traitNode, -, hr⟩ := Option.bind_eq_some_iff.1 hr
  cases hr
  rfl

theorem supertraits_notCall : ∀ r ∈ supertraits d p,
    [ReferenceKind.call].contains r.kind = false := by
  unfold supertraits
  split
  · exact List.forall_mem_map.2 fun _ _ => rfl
  · nofun

theorem derives_notCall : ∀ r ∈ derives d p, [ReferenceKind.call].contains r.kind = false := by
  unfold derives
  split
  · exact List.forall_mem_map.2 fun _ _ => rfl
  · nofun

theorem balances_childSteps (h : Place.AreApart tree "call_expression" "function" "arguments")
    (hp : (sight d).IsMet tree s p) :
    (ledger d tree).Balances (childSteps d s p) ((sight d).reports p) := by
  unfold childSteps
  split
  case h_1 hkind => exact balances_imports hp hkind
  case h_2 hkind => exact balances_callSteps h hp hkind
  case h_3 hkind => exact balances_macro hp hkind
  case h_4 hkind => exact balances_through hp (by rw [hkind]; decide) rfl
  case h_5 hkind =>
    exact balances_declaration hp (by rw [hkind]; decide) implemented?_notCall rfl
  case h_6 hkind => exact balances_declaration hp (by rw [hkind]; decide) supertraits_notCall rfl
  case h_7 hkind | h_8 hkind | h_9 hkind =>
    exact balances_declaration hp (by rw [hkind]; decide) derives_notCall rfl
  case h_10 huse hcall hmacro _ _ _ _ _ _ =>
    refine balances_through hp ?_ rfl
    simp only [List.mem_cons, List.not_mem_nil, or_false, not_or]
    exact ⟨huse, hmacro, hcall⟩

theorem balances_rule (h : Place.AreApart tree "call_expression" "function" "arguments")
    (hheight : tree.height ≤ d.limits.walkDepth.toNat) (task : Task) (p : Place)
    (hp : (ledger d tree).isOpen task p) :
    (ledger d tree).Balances (rule d task p) ((ledger d tree).due task p) := by
  cases task with
  | inside s => exact Sight.balances_steps hheight hp fun c hc => balances_childSteps h hc
  | call s => exact balances_callSteps h hp.1 hp.2

/-- The walk reports the calls and macros in sight, each once. -/
theorem perm_references (h : Place.AreApart tree "call_expression" "function" "arguments")
    (hheight : tree.height ≤ d.limits.walkDepth.toNat) :
    (Reference.ofKinds [.call] (references d (.root tree))).Perm
      ((sight d).reports (.root tree)) :=
  Sight.perm_walk (fun hstep => (visit_rule d hstep).1.height) rfl (balances_rule h hheight)

/-! ## Which calls are reported -/

theorem isSome_callReference (p : Place) : (callReference d p).isSome =
    (p.kind == "call_expression" && (p.field? "function").isSome ||
      p.kind == "macro_invocation" && (macroName? p).isSome) := by
  rw [callReference]
  split
  case h_1 hkind => simp [hkind]
  case h_2 hkind => simp [hkind, macroCall?, macroName?]
  case h_3 hcall hmacro =>
    rw [beq_eq_false_iff_ne.2 hcall, beq_eq_false_iff_ne.2 hmacro]
    rfl

/-- The calls and macros of a file are reported, each once, next to what else is in sight, exactly
if the walk looks at each of them as a whole. -/
theorem references_callsAndMacros_iff
    (h : Place.AreApart tree "call_expression" "function" "arguments")
    (hheight : tree.height ≤ d.limits.walkDepth.toNat) :
    (Reference.ofKinds [.call] (references d (.root tree))).Perm
        ((callsIn tree).filterMap (callReference d) ++ (sight d).rest isCall tree) ↔
      ∀ p ∈ callsIn tree, (sight d).look p = .whole := by
  have hdue : ∀ p, isCall p = true → (callReference d p).isSome = true := by
    intro p hcall
    simp only [isCall, Bool.and_eq_true] at hcall
    rw [isSome_callReference]
    exact hcall.1.1
  rw [(perm_references h hheight).congr_left]
  exact Sight.perm_reports_iff (sight d) hdue (fun _ _ => rfl) fun _ _ => rfl

end

/-- A Rust file with one function, in which a call stands as a statement. -/
def fileWith (call : Node) (stop : Nat) : Node :=
  .mk "source_file" true [] 0 (stop + 4)
    [.mk "function_item" true [] 0 (stop + 3)
      [.token "fn" 0 2, .leaf "identifier" ["name"] 3 4,
        .mk "parameters" true ["parameters"] 4 6 [.token "(" 4 5, .token ")" 5 6],
        .mk "block" true ["body"] 7 (stop + 3)
          [.token "\x7b" 7 8,
            .mk "expression_statement" true [] 9 (stop + 1)
              [call, .token ";" stop (stop + 1)],
            .token "\x7d" (stop + 2) (stop + 3)]]]

/-- A call of a method of what a macro gives. -/
def methodOfMacro : Document :=
  { path := "a.rs"
    bytes := Text.Utf8.encode "fn f() \x7b vec![1].iter(); \x7d\n".toList
    limits := {} }

/-- The tree of `methodOfMacro`. -/
def methodOfMacroTree : Node :=
  fileWith
    (.mk "call_expression" true [] 9 23
      [.mk "field_expression" true ["function"] 9 21
          [.mk "macro_invocation" true ["value"] 9 16
              [.leaf "identifier" ["macro"] 9 12, .token "!" 12 13,
                .mk "token_tree" true [] 13 16
                  [.token "[" 13 14, .leaf "integer_literal" [] 14 15, .token "]" 15 16]],
            .token "." 16 17, .leaf "field_identifier" ["field"] 17 21],
        .mk "arguments" true ["arguments"] 21 23 [.token "(" 21 22, .token ")" 22 23]])
    23

theorem methodOfMacro_not_reported :
    Place.AreApart methodOfMacroTree "call_expression" "function" "arguments" ∧
      methodOfMacroTree.height ≤ methodOfMacro.limits.walkDepth.toNat ∧
      ¬ (Reference.ofKinds [.call] (references methodOfMacro (.root methodOfMacroTree))).Perm
        ((callsIn methodOfMacroTree).filterMap (callReference methodOfMacro) ++
          (sight methodOfMacro).rest isCall methodOfMacroTree) := by
  refine ⟨by decide +kernel, by decide +kernel, ?_⟩
  decide +kernel

/-- A call of a method of what another call gives, which has a macro as argument. -/
def methodOfCall : Document :=
  { path := "a.rs"
    bytes := Text.Utf8.encode "fn f() \x7b a(b!()).c(); \x7d\n".toList
    limits := {} }

/-- The tree of `methodOfCall`. -/
def methodOfCallTree : Node :=
  fileWith
    (.mk "call_expression" true [] 9 20
      [.mk "field_expression" true ["function"] 9 18
          [.mk "call_expression" true ["value"] 9 16
              [.leaf "identifier" ["function"] 9 10,
                .mk "arguments" true ["arguments"] 10 16
                  [.token "(" 10 11,
                    .mk "macro_invocation" true [] 11 15
                      [.leaf "identifier" ["macro"] 11 12, .token "!" 12 13,
                        .mk "token_tree" true [] 13 15 [.token "(" 13 14, .token ")" 14 15]],
                    .token ")" 15 16]],
            .token "." 16 17, .leaf "field_identifier" ["field"] 17 18],
        .mk "arguments" true ["arguments"] 18 20 [.token "(" 18 19, .token ")" 19 20]])
    20

theorem methodOfCall_reported :
    (Reference.ofKinds [.call] (references methodOfCall (.root methodOfCallTree))).Perm
      ((callsIn methodOfCallTree).filterMap (callReference methodOfCall) ++
        (sight methodOfCall).rest isCall methodOfCallTree) := by
  have hapart : Place.AreApart methodOfCallTree "call_expression" "function" "arguments" := by
    decide +kernel
  have hheight : methodOfCallTree.height ≤ methodOfCall.limits.walkDepth.toNat := by
    decide +kernel
  exact (references_callsAndMacros_iff hapart hheight).2 (by decide +kernel)

end SourceIndex.Uses.Rust.Calls
