import SourceIndex.Proofs.Uses.Account
import SourceIndex.Proofs.Uses.Depth.ECMAScript

/-!
# Calls in ECMAScript

A walk over a file of JavaScript or TypeScript looks at every place of it but for some that stand in
imports, in calls and in the creation of objects.  Behind a call it goes on in the arguments and in
what is called, behind the creation of an object in the arguments alone.  Of what is called only the
inside is looked at, and of a member that is called the object, which is looked at as a whole if it
is a call.  So the walk reports all calls and creations, each once, exactly where none of them is
itself called, where no object is created to call a member of it, and where none stands in one of
the other parts.
-/

namespace SourceIndex.Uses.ECMAScript.Calls

variable (d : Document) {tree : Node} {s : Scope} {p f c : Place} {task : Task}

/-- Does a step lead into the arguments of a call that requires a module? -/
def isRequired (p c : Place) : Bool :=
  p.kind == "call_expression" && (required? d p).isSome && p.isField "arguments" c

/-- Is a place a call of something outside of imports, or the creation of an object, and not a part
of what a call requires? -/
def isCall (p : Place) : Bool :=
  (p.kind == "call_expression" && (p.field? "function").isSome && !p.isBelow ["import_statement"] ||
      p.kind == "new_expression" && (p.field? "constructor").isSome) &&
    !p.passes (isRequired d)

/-- The calls and creations of a tree. -/
def callsIn (tree : Node) : List Place :=
  (Place.root tree).subtree.filter (isCall d)

/-- The use that a call or creation is, without the scope that it stands in: the import of a module
if the call requires one. -/
def callReference (p : Place) : Option Reference :=
  match p.kind with
  | "call_expression" =>
      match required? d p with
      | some path => some ((d.reference .imports (moduleName path) p none).from path)
      | none => (p.field? "function").map fun f => d.reference .call (calleeName d f) f none
  | "new_expression" =>
      (p.field? "constructor").map fun c =>
        d.reference .call (Text.afterLast "." (d.text c)) c none
  | _ => none

/-- How the walk for uses looks at what is called. -/
def lookAtCallee (f : Place) : Look :=
  match f.kind with
  | "member_expression" => .operand
  | "identifier" => .never
  | _ => .inside

/-- How the walk for uses looks at a child of a place at which it looks as a whole. -/
def lookIn (p c : Place) : Look :=
  match p.kind with
  | "import_statement" => .never
  | "call_expression" =>
      if (p.field? "function").isNone || (required? d p).isSome then .never
      else if p.isField "function" c then lookAtCallee c
      else if p.isField "arguments" c then .inside
      else .never
  | "new_expression" => if p.isField "arguments" c then .inside else .never
  | _ => .whole

/-- How the walk for uses looks at a child of a member that is called. -/
def lookInMember (p c : Place) : Look :=
  if p.isField "object" c then if c.kind == "call_expression" then .whole else .inside
  else .never

/-- What the walk for uses looks at, and the calls, creations and imports that it reports. -/
def sight : Sight Reference where
  whole := lookIn d
  operand := lookInMember
  report p := if p.kind == "import_statement" then imports d none p else (callReference d p).toList

/-- What a task is after: the uses in the children, or the call that a place is. -/
def aim : Task → Aim
  | .inside s => .children s
  | .call s => .whole s "call_expression"

/-- How the walk for calls, creations and imports is accounted for. -/
abbrev ledger (tree : Node) : Ledger Task Reference Reference :=
  (sight d).ledger [.call, .imports] tree aim

section

variable {d}

/-! ## What the steps for a call account for -/

theorem balances_calleeSteps (hf : f ∈ (Place.root tree).subtree)
    (hdepth : s.deeper.depth ≤ f.level) (hlook : (sight d).look f = lookAtCallee f) :
    (ledger d tree).Balances (calleeSteps s f) ((sight d).reports f) := by
  unfold calleeSteps
  split
  case h_1 hkind =>
    have hoperand : (sight d).look f = .operand := by
      rw [hlook, lookAtCallee]
      simp only [hkind]
    exact Sight.balances_operand hf hdepth hoperand (fun _ => rfl) rfl rfl
  case h_2 hkind =>
    have hnever : (sight d).look f = .never := by
      rw [hlook, lookAtCallee]
      simp only [hkind]
    rw [Sight.reports_of_never hnever]
    exact Ledger.balances_nil
  case h_3 hmember hidentifier =>
    have hinside : (sight d).look f = .inside := by
      rw [hlook, lookAtCallee]
      split
      · exact absurd ‹_› hmember
      · exact absurd ‹_› hidentifier
      · rfl
    exact Sight.balances_inside rfl hf hdepth hinside

theorem required?_of_field? (h : p.field? "function" = none) : required? d p = none := by
  rw [required?, h]
  rfl

/-- A call that is none, or the import that it makes, accounts for itself alone. -/
theorem reports_of_closedCall (hp : (sight d).IsMet tree s p) (hkind : p.kind = "call_expression")
    (hclosed : (p.field? "function").isNone = true ∨ (required? d p).isSome = true) :
    (sight d).reports p = (callReference d p).toList := by
  have hnever : ∀ c ∈ p.children, lookIn d p c = .never := by
    intro c _
    simp only [lookIn, hkind, Bool.or_eq_true, hclosed, if_true]
  rw [Sight.reports_of_closed hp.look hnever]
  simp only [sight, hkind]
  rfl

/-- Of a call that requires no module the walk looks at what is called and at the arguments. -/
theorem looksAtFields_call (h : Place.AreApart tree "call_expression" "function" "arguments")
    (hp : (sight d).IsMet tree s p) (hkind : p.kind = "call_expression")
    (hf : p.field? "function" = some f) (hrequired : required? d p = none) :
    (sight d).LooksAtFields p "function" "arguments" lookAtCallee where
  apart := h p hp.ofTree hkind
  whole := by
    intro c
    simp only [sight, lookIn, hkind, hf, hrequired, Option.isNone_some, Option.isSome_none,
      Bool.or_self, Bool.false_eq_true, if_false]

theorem balances_callSteps (h : Place.AreApart tree "call_expression" "function" "arguments")
    (hp : (sight d).IsMet tree s p) (hkind : p.kind = "call_expression") :
    (ledger d tree).Balances (callSteps d s p) ((sight d).reports p) := by
  unfold callSteps
  split
  case h_1 hf =>
    have hreference : callReference d p = none := by
      simp only [callReference, hkind, required?_of_field? hf, hf, Option.map_none]
    rw [reports_of_closedCall hp hkind (Or.inl (hf ▸ rfl)), hreference]
    exact Ledger.balances_nil
  case h_2 f hf =>
    split
    case h_1 path hpath =>
      have hreference : callReference d p =
          some ((d.reference .imports (moduleName path) p none).from path) := by
        simp only [callReference, hkind, hpath]
      rw [reports_of_closedCall hp hkind (Or.inr (hpath ▸ rfl)), hreference]
      exact Ledger.balances_emit _
    case h_2 hrequired =>
      have hfields := looksAtFields_call h hp hkind hf hrequired
      have hchild := Place.mem_children_of_field? hf
      have hdepth : s.deeper.depth ≤ f.level := Nat.le_of_lt (hp.depth_child hchild)
      have hreport : (sight d).report p = Reference.ofKinds [.call, .imports]
          [d.reference .call (calleeName d f) f s.name] := by
        rw [Reference.ofKinds_singleton rfl, Reference.unscoped_reference]
        simp only [sight, callReference, hkind, hrequired, hf]
        rfl
      refine hfields.balances hp hreport ?_ rfl rfl
      rw [hf, Option.toList_some, List.flatMap_singleton]
      exact balances_calleeSteps (Place.mem_subtree_of_mem_children hp.ofTree hchild) hdepth
        ((Sight.look_of_whole hchild hp.look).trans (hfields.whole_field hf))

theorem balances_creationSteps (hp : (sight d).IsMet tree s p) (hkind : p.kind = "new_expression") :
    (ledger d tree).Balances (creationSteps d s p) ((sight d).reports p) := by
  have hlook : ∀ c, (sight d).whole p c = if p.isField "arguments" c then .inside else .never := by
    intro c
    simp only [sight, lookIn, hkind]
  have hreport : (sight d).report p = Reference.ofKinds [.call, .imports]
      (((p.field? "constructor").map fun c =>
        d.reference .call (Text.afterLast "." (d.text c)) c s.name).toList) := by
    rw [Reference.ofKinds_map (by intro c; rfl)]
    simp only [sight, hkind, callReference, Reference.unscoped_reference]
    rfl
  exact Sight.balances_field hp hlook hreport rfl rfl

/-! ## What all steps account for -/

/-- The scope of an import is all that it takes from where it stands. -/
theorem ofKinds_imports {scope : Option String} :
    Reference.ofKinds [.call, .imports] (imports d scope p) = imports d none p := by
  unfold imports
  split
  · rfl
  · dsimp only
    split
    · rw [Reference.ofKinds_singleton rfl, Reference.unscoped_from, Reference.unscoped_reference]
    · rw [Reference.ofKinds_eq_map (List.forall_mem_map.2 fun _ _ => rfl), List.map_map]
      simp only [Function.comp_def, Reference.unscoped_from, Reference.unscoped_reference]

theorem balances_imports (hp : (sight d).IsMet tree s p) (hkind : p.kind = "import_statement") :
    (ledger d tree).Balances (Step.emitAll (imports d s.name p)) ((sight d).reports p) := by
  refine Sight.balances_closed hp (fun c => ?_) ?_
  · simp only [sight, lookIn, hkind]
  · rw [ofKinds_imports]
    simp only [sight, hkind, beq_self_eq_true, if_true]

/-- A place at which the walk looks as a whole, and which is neither a call nor a creation nor an
import, accounts for what is in sight in it. -/
theorem balances_through (hp : (sight d).IsMet tree s p)
    (hkind : p.kind ∉ ["import_statement", "call_expression", "new_expression"])
    {s' : Scope} (hdepth : s'.depth = s.depth + 1) :
    (ledger d tree).Balances [.visit (.inside s') p] ((sight d).reports p) := by
  simp only [List.mem_cons, List.not_mem_nil, or_false, not_or] at hkind
  obtain ⟨himport, hcall, hcreation⟩ := hkind
  have hreport : (sight d).report p = [] := by
    simp only [sight, beq_iff_eq, himport, if_false, callReference, Option.toList_none]
  have hwhole : ∀ c ∈ p.children, lookIn d p c = .whole := by
    intro c _
    rw [lookIn]
    split
    · exact absurd ‹_› himport
    · exact absurd ‹_› hcall
    · exact absurd ‹_› hcreation
    · rfl
  exact Sight.balances_through hp hreport hwhole rfl hdepth

theorem classHeritage_notCall {owner : String} : ∀ r ∈ classHeritage d owner p,
    [ReferenceKind.call, .imports].contains r.kind = false := by
  unfold classHeritage
  split
  · nofun
  · split
    · refine List.forall_mem_flatMap.2 fun c _ => ?_
      split
      · exact List.forall_mem_map.2 fun _ _ => rfl
      · exact List.forall_mem_map.2 fun _ _ => rfl
      · nofun
    · exact List.forall_mem_map.2 fun _ _ => rfl

theorem interfaceHeritage_notCall {owner : String} : ∀ r ∈ interfaceHeritage d owner p,
    [ReferenceKind.call, .imports].contains r.kind = false := by
  unfold interfaceHeritage
  split
  · nofun
  · exact List.forall_mem_map.2 fun _ _ => rfl

/-- A declaration with a heritage accounts for what is in sight in it. -/
theorem balances_heritage (hp : (sight d).IsMet tree s p)
    (hkind : p.kind ∉ ["import_statement", "call_expression", "new_expression"])
    {heritage : List Reference}
    (h : ∀ r ∈ heritage, [ReferenceKind.call, .imports].contains r.kind = false) :
    (ledger d tree).Balances (Step.emitAll heritage ++ [scopeStep d s p])
      ((sight d).reports p) :=
  (balances_through hp hkind rfl).prepend (Sight.balances_others h)

theorem balances_childSteps (h : Place.AreApart tree "call_expression" "function" "arguments")
    (hp : (sight d).IsMet tree s p) :
    (ledger d tree).Balances (childSteps d s p) ((sight d).reports p) := by
  unfold childSteps
  split
  case h_1 hkind => exact balances_imports hp hkind
  case h_2 hkind => exact balances_callSteps h hp hkind
  case h_3 hkind => exact balances_creationSteps hp hkind
  case h_4 hkind | h_5 hkind | h_6 hkind =>
    exact balances_through hp (by rw [hkind]; decide) rfl
  case h_7 hkind | h_8 hkind | h_9 hkind =>
    exact balances_heritage hp (by rw [hkind]; decide)
      (forall_mem_getD_map fun _ => classHeritage_notCall)
  case h_10 hkind =>
    exact balances_heritage hp (by rw [hkind]; decide)
      (forall_mem_getD_map fun _ => interfaceHeritage_notCall)
  case h_11 hkind =>
    split <;> exact balances_through hp (by rw [hkind]; decide) rfl
  case h_12 himport hcall hcreation _ _ _ _ _ _ _ _ =>
    refine balances_through hp ?_ rfl
    simp only [List.mem_cons, List.not_mem_nil, or_false, not_or]
    exact ⟨himport, hcall, hcreation⟩

theorem balances_rule (h : Place.AreApart tree "call_expression" "function" "arguments")
    (hheight : tree.height ≤ d.limits.walkDepth.toNat) (task : Task) (p : Place)
    (hp : (ledger d tree).isOpen task p) :
    (ledger d tree).Balances (rule d task p) ((ledger d tree).due task p) := by
  cases task with
  | inside s => exact Sight.balances_steps hheight hp fun c hc => balances_childSteps h hc
  | call s => exact balances_callSteps h hp.1 hp.2

/-- The walk reports the calls, creations and imports in sight, each once. -/
theorem perm_references (h : Place.AreApart tree "call_expression" "function" "arguments")
    (hheight : tree.height ≤ d.limits.walkDepth.toNat) :
    (Reference.ofKinds [.call, .imports] (references d (.root tree))).Perm
      ((sight d).reports (.root tree)) :=
  Sight.perm_walk (fun hstep => (visit_rule d hstep).1.height) rfl (balances_rule h hheight)

/-! ## Which calls are reported -/

theorem isSome_callReference (p : Place) : (callReference d p).isSome =
    (p.kind == "call_expression" && (p.field? "function").isSome ||
      p.kind == "new_expression" && (p.field? "constructor").isSome) := by
  rw [callReference]
  split
  case h_1 hkind =>
    rw [hkind]
    cases hrequired : required? d p with
    | none => simp
    | some path =>
        cases hf : p.field? "function" with
        | none =>
            rw [required?_of_field? hf] at hrequired
            cases hrequired
        | some f => rfl
  case h_2 hkind => simp [hkind]
  case h_3 hcall hcreation =>
    rw [beq_eq_false_iff_ne.2 hcall, beq_eq_false_iff_ne.2 hcreation]
    rfl

/-- The calls and creations of a file are reported, each once, next to what else is in sight,
exactly if the walk looks at each of them as a whole. -/
theorem references_callsAndCreations_iff
    (h : Place.AreApart tree "call_expression" "function" "arguments")
    (hheight : tree.height ≤ d.limits.walkDepth.toNat) :
    (Reference.ofKinds [.call, .imports] (references d (.root tree))).Perm
        ((callsIn d tree).filterMap (callReference d) ++ (sight d).rest (isCall d) tree) ↔
      ∀ p ∈ callsIn d tree, (sight d).look p = .whole := by
  have hdue : ∀ p, isCall d p = true → (callReference d p).isSome = true := by
    intro p hcall
    simp only [isCall, Bool.and_eq_true, Bool.or_eq_true] at hcall
    simp only [isSome_callReference, Bool.or_eq_true, Bool.and_eq_true]
    exact hcall.1.imp And.left id
  have hreport : ∀ p, isCall d p = true → (sight d).report p = (callReference d p).toList := by
    intro p hcall
    have himport : p.kind ≠ "import_statement" := by
      intro hkind
      simp [isCall, hkind] at hcall
    simp only [sight, beq_iff_eq, himport, if_false]
  rw [(perm_references h hheight).congr_left]
  exact Sight.perm_reports_iff (sight d) hdue hreport fun _ _ => rfl

end

/-- A call of a member of an object that is created for it. -/
def memberOfCreation : Document :=
  { path := "a.js"
    bytes := Text.Utf8.encode "new A().run();\n".toList
    limits := {} }

/-- The tree of `memberOfCreation`. -/
def memberOfCreationTree : Node :=
  .mk "program" true [] 0 15
    [.mk "expression_statement" true [] 0 14
      [.mk "call_expression" true [] 0 13
          [.mk "member_expression" true ["function"] 0 11
              [.mk "new_expression" true ["object"] 0 7
                  [.token "new" 0 3, .leaf "identifier" ["constructor"] 4 5,
                    .mk "arguments" true ["arguments"] 5 7 [.token "(" 5 6, .token ")" 6 7]],
                .token "." 7 8, .leaf "property_identifier" ["property"] 8 11],
            .mk "arguments" true ["arguments"] 11 13 [.token "(" 11 12, .token ")" 12 13]],
        .token ";" 13 14]]

theorem memberOfCreation_not_reported :
    Place.AreApart memberOfCreationTree "call_expression" "function" "arguments" ∧
      memberOfCreationTree.height ≤ memberOfCreation.limits.walkDepth.toNat ∧
      ¬ (Reference.ofKinds [.call, .imports]
          (references memberOfCreation (.root memberOfCreationTree))).Perm
        ((callsIn memberOfCreation memberOfCreationTree).filterMap
            (callReference memberOfCreation) ++
          (sight memberOfCreation).rest (isCall memberOfCreation) memberOfCreationTree) := by
  refine ⟨by decide +kernel, by decide +kernel, ?_⟩
  decide +kernel

/-- A call of a member of what another call gives, which has a module and an object as arguments. -/
def memberOfCall : Document :=
  { path := "a.js"
    bytes := Text.Utf8.encode "a(require(\"b\"), new C()).d();\n".toList
    limits := {} }

/-- The tree of `memberOfCall`. -/
def memberOfCallTree : Node :=
  .mk "program" true [] 0 30
    [.mk "expression_statement" true [] 0 29
      [.mk "call_expression" true [] 0 28
          [.mk "member_expression" true ["function"] 0 26
              [.mk "call_expression" true ["object"] 0 24
                  [.leaf "identifier" ["function"] 0 1,
                    .mk "arguments" true ["arguments"] 1 24
                      [.token "(" 1 2,
                        .mk "call_expression" true [] 2 14
                          [.leaf "identifier" ["function"] 2 9,
                            .mk "arguments" true ["arguments"] 9 14
                              [.token "(" 9 10,
                                .mk "string" true [] 10 13
                                  [.token "\"" 10 11, .leaf "string_fragment" [] 11 12,
                                    .token "\"" 12 13],
                                .token ")" 13 14]],
                        .token "," 14 15,
                        .mk "new_expression" true [] 16 23
                          [.token "new" 16 19, .leaf "identifier" ["constructor"] 20 21,
                            .mk "arguments" true ["arguments"] 21 23
                              [.token "(" 21 22, .token ")" 22 23]],
                        .token ")" 23 24]],
                .token "." 24 25, .leaf "property_identifier" ["property"] 25 26],
            .mk "arguments" true ["arguments"] 26 28 [.token "(" 26 27, .token ")" 27 28]],
        .token ";" 28 29]]

theorem memberOfCall_reported :
    (Reference.ofKinds [.call, .imports] (references memberOfCall (.root memberOfCallTree))).Perm
      ((callsIn memberOfCall memberOfCallTree).filterMap (callReference memberOfCall) ++
        (sight memberOfCall).rest (isCall memberOfCall) memberOfCallTree) := by
  have hapart : Place.AreApart memberOfCallTree "call_expression" "function" "arguments" := by
    decide +kernel
  have hheight : memberOfCallTree.height ≤ memberOfCall.limits.walkDepth.toNat := by decide +kernel
  exact (references_callsAndCreations_iff hapart hheight).2 (by decide +kernel)

end SourceIndex.Uses.ECMAScript.Calls
