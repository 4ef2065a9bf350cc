import SourceIndex.Backends
import SourceIndex.Proofs.Scopes.ECMAScript
import SourceIndex.Proofs.Uses.DepthCap

/-!
# How deep declarations in TypeScript are looked for

The walk through a TypeScript file stops at a depth, which it counts anew in the body of each
namespace. A namespace inside another one is therefore walked wherever it stands.  Outside of
namespaces the declarations of a file come from the levels that the limit allows.
-/

namespace SourceIndex

namespace Idiom.ECMAScript

variable (d : Document) {levels : Nat} {p : Place}

/-- What stands before a place documents it in the truncated tree too. -/
theorem documentation_truncate (levels : Nat) (p : Place) :
    documentation d (p.truncate levels) = documentation d p := by
  have hanchor : ((p.truncate levels).parent?.filter fun q => q.kind == "export_statement").getD
        (p.truncate levels) =
      ((p.parent?.filter fun q => q.kind == "export_statement").getD p).truncate levels := by
    rw [Place.parent?_truncate, Option.filter_map]
    simp only [Function.comp_def, Place.kind_truncate]
    cases p.parent?.filter fun q => q.kind == "export_statement" <;> rfl
  rw [documentation, hanchor, Place.siblingsBefore_truncate, List.find?_map, documentation]
  simp only [Function.comp_def, Place.kind_truncate, Option.bind_eq_bind, Option.bind_map,
    d.text_truncate]

theorem decorators_truncate (h : p.level < levels) :
    decorators d (p.truncate levels) = decorators d p := by
  simp only [decorators, Place.siblingsBefore_truncate, List.filter_map, List.takeWhile_map,
    ← List.map_reverse, Place.childrenOf_truncate h, ← List.map_append, List.map_map,
    Function.comp_def, Place.isNamed_truncate, Place.kind_truncate, d.text_truncate]

theorem withDecorators_truncate (h : p.level < levels) (signature : String) :
    withDecorators d (p.truncate levels) signature = withDecorators d p signature := by
  rw [withDecorators, decorators_truncate d h, withDecorators]

theorem returnType_truncate (h : p.level < levels) :
    returnType d (p.truncate levels) = returnType d p := by
  rw [returnType, d.fieldText_truncate h, returnType]

theorem declaredType_truncate (h : p.level < levels) :
    declaredType d (p.truncate levels) = declaredType d p := by
  rw [declaredType, d.fieldText_truncate h, declaredType]

theorem withTypeParameters_truncate (h : p.level < levels) (name : String) :
    withTypeParameters d (p.truncate levels) name = withTypeParameters d p name := by
  rw [withTypeParameters, d.fieldText_truncate h, withTypeParameters]

theorem parameters_truncate (h : p.level < levels) (field : String) :
    parameters d ((p.truncate levels).field? field) = parameters d (p.field? field) := by
  rw [parameters, Place.field?_truncate h, d.paramsText_map_truncate, parameters]

end Idiom.ECMAScript

namespace Declarations.ECMAScript

open SourceIndex.Idiom.ECMAScript

variable (d : Document) {levels : Nat} {s : Setting} {p c : Place}

/-! ## Declarations in the truncated tree -/

@[simp] theorem symbolIn_truncate (levels : Nat) (owner : Option String) (p : Place) (name : String)
    (kind : SymbolKind) (details : Symbol.Details) :
    symbolIn d owner (p.truncate levels) name kind details =
      symbolIn d owner p name kind details := by
  rw [symbolIn, d.symbol_truncate, symbolIn]

theorem asyncMark_truncate (h : p.level < levels) :
    asyncMark (p.truncate levels) = asyncMark p := by
  rw [asyncMark, Place.hasToken_truncate h, asyncMark]

theorem literal_truncate (levels : Nat) (p : Place) :
    literal d (p.truncate levels) = literal d p := by
  rw [literal, d.text_truncate, Place.kind_truncate, literal]

theorem bind_literal_truncate (h : p.level < levels) (field : String) :
    ((p.truncate levels).field? field).bind (literal d) = (p.field? field).bind (literal d) := by
  rw [Place.field?_truncate h, Option.bind_map]
  simp only [Function.comp_def, literal_truncate]

theorem memberVisibility_truncate (h : p.level < levels) (name : String) :
    memberVisibility d (p.truncate levels) name = memberVisibility d p name := by
  simp only [memberVisibility, Place.childOf?_truncate h, Option.bind_map, Function.comp_def,
    d.text_truncate]

theorem function?_truncate (h : p.level < levels) :
    function? d s (p.truncate levels) = function? d s p := by
  simp only [function?, d.fieldText_truncate h, asyncMark_truncate h, Place.kind_truncate,
    withTypeParameters_truncate d h, parameters_truncate d h, returnType_truncate d h,
    withDecorators_truncate d h, documentation_truncate, symbolIn_truncate]

theorem function?_truncate_or (levels : Nat) (p : Place) :
    function? d s (p.truncate levels) = none ∨
      function? d s (p.truncate levels) = function? d s p := by
  by_cases hp : p.level < levels
  · exact Or.inr (function?_truncate d hp)
  · have hempty := Place.children_truncate_of_le (Nat.le_of_not_lt hp)
    rw [function?, d.fieldText_eq_none hempty]
    exact Or.inl rfl

theorem method?_truncate (owner : String) (h : p.level < levels) :
    method? d owner (p.truncate levels) = method? d owner p := by
  have htokens : (p.truncate levels).hasToken = p.hasToken :=
    funext fun kind => Place.hasToken_truncate h kind
  simp only [method?, d.fieldText_truncate h, htokens, withTypeParameters_truncate d h,
    parameters_truncate d h, returnType_truncate d h, withDecorators_truncate d h,
    documentation_truncate, memberVisibility_truncate d h, symbolIn_truncate]

theorem field?_truncate (owner : String) (h : p.level < levels) :
    field? d owner (p.truncate levels) = field? d owner p := by
  simp only [field?, d.fieldText_truncate h, declaredType_truncate d h, documentation_truncate,
    memberVisibility_truncate d h, bind_literal_truncate d h, symbolIn_truncate]

/-- What one member of a class declares. -/
def member? (owner : String) (m : Place) : Option Symbol :=
  match m.kind with
  | "method_definition" | "method_signature" | "abstract_method_signature" => method? d owner m
  | "public_field_definition" | "field_definition" | "property_signature" => field? d owner m
  | _ => none

theorem members_eq (s : Scope) (owner : String) (body : Place) :
    members d s owner body =
      if d.tooDeep s.depth then [] else body.children.filterMap (member? d owner) :=
  rfl

theorem member?_truncate (owner : String) (h : p.level < levels) :
    member? d owner (p.truncate levels) = member? d owner p := by
  simp only [member?, Place.kind_truncate, method?_truncate d owner h, field?_truncate d owner h]

/-- Without children a member has no name. -/
theorem member?_of_children (owner : String) (h : p.children = []) : member? d owner p = none := by
  unfold member?
  split
  · rw [method?, d.fieldText_eq_none h]
    rfl
  · rw [method?, d.fieldText_eq_none h]
    rfl
  · rw [method?, d.fieldText_eq_none h]
    rfl
  · rw [field?, d.fieldText_eq_none h, d.fieldText_eq_none h]
    rfl
  · rw [field?, d.fieldText_eq_none h, d.fieldText_eq_none h]
    rfl
  · rw [field?, d.fieldText_eq_none h, d.fieldText_eq_none h]
    rfl
  · rfl

theorem member?_truncate_or (owner : String) (levels : Nat) (p : Place) :
    member? d owner (p.truncate levels) = none ∨
      member? d owner (p.truncate levels) = member? d owner p := by
  by_cases hp : p.level < levels
  · exact Or.inr (member?_truncate d owner hp)
  · exact Or.inl (member?_of_children d owner (Place.children_truncate_of_le (Nat.le_of_not_lt hp)))

variable {rule : Rule Setting Symbol}

/-- The members of a class fade with the levels that are cut off. -/
theorem membersOf_fades (s : Scope) (owner : String) (p : Place) :
    Rule.Fades rule levels (Step.emitAll (membersOf d s owner (p.truncate levels)))
      (Step.emitAll (membersOf d s owner p)) := by
  by_cases hp : p.level < levels
  · rw [membersOf, Place.field?_truncate hp, membersOf]
    cases p.field? "body" with
    | none => exact .nil
    | some body =>
        show Rule.Fades rule levels (Step.emitAll (members d s owner (body.truncate levels)))
          (Step.emitAll (members d s owner body))
        rw [members_eq, members_eq]
        split
        · exact .nil
        · exact .emitAll_filterMap_children (fun m => member?_truncate_or d owner levels m) body
  · rw [membersOf, Place.field?_eq_none (Place.children_truncate_of_le (Nat.le_of_not_lt hp))]
    exact .nil_emitAll _

theorem membersOf_truncate (s : Scope) (owner : String) (h : p.level + 2 < levels) :
    membersOf d s owner (p.truncate levels) = membersOf d s owner p := by
  rw [membersOf, Place.field?_truncate (by omega), membersOf]
  cases hbody : p.field? "body" with
  | none => rfl
  | some body =>
      have hlevel := Place.level_of_field? hbody
      show members d s owner (body.truncate levels) = members d s owner body
      rw [members_eq, Place.children_truncate (by omega), List.filterMap_map, members_eq]
      split
      · rfl
      · refine List.filterMap_congr fun m hm => ?_
        have hlevel' := Place.level_of_mem_children hm
        exact member?_truncate d owner (by omega)

/-- A class is the same in the truncated tree, but for its members. -/
theorem classSymbols_fades (p : Place) :
    Rule.Fades rule levels (Step.emitAll (classSymbols d s (p.truncate levels)))
      (Step.emitAll (classSymbols d s p)) := by
  refine .emitAll_of_children (fun p hp => ?_) fun h => ?_
  · rw [classSymbols, d.fieldText_eq_none hp]
  unfold classSymbols
  rw [d.fieldText_truncate h]
  split
  · exact .nil
  · exact .emit _ _ (membersOf_fades d _ _ p)

theorem classSymbols_truncate (h : p.level + 2 < levels) :
    classSymbols d s (p.truncate levels) = classSymbols d s p := by
  have hp : p.level < levels := by omega
  simp only [classSymbols, d.fieldText_truncate hp, Place.kind_truncate, Place.childOf?_truncate hp,
    Option.map_map, Function.comp_def, d.text_truncate, withTypeParameters_truncate d hp,
    withDecorators_truncate d hp, documentation_truncate, symbolIn_truncate,
    membersOf_truncate d _ _ h]

theorem plainVariable_truncate (declaration : Place) (keyword name : String)
    (h : p.level < levels) :
    plainVariable d s (declaration.truncate levels) keyword name (p.truncate levels) =
      plainVariable d s declaration keyword name p := by
  simp only [plainVariable, declaredType_truncate d h, documentation_truncate,
    bind_literal_truncate d h, symbolIn_truncate]

/-- The name of a variable that is one. -/
theorem variableName_truncate (h : p.level < levels) :
    ((p.truncate levels).field? "name").filter (fun n => n.kind == "identifier") =
      ((p.field? "name").filter fun n => n.kind == "identifier").map (Place.truncate levels) := by
  rw [Place.field?_truncate h, Option.filter_map]
  simp only [Function.comp_def, Place.kind_truncate]

/-- A variable that is bound to a class loses members, and one that is bound to a function may lose
what its signature says of them. -/
theorem variableSymbols_fades (declaration : Place) (keyword : String) (p : Place) :
    Rule.Fades rule levels
      (Step.emitAll
        (variableSymbols d s (declaration.truncate levels) keyword (p.truncate levels)))
      (Step.emitAll (variableSymbols d s declaration keyword p)) := by
  by_cases hp : p.level < levels
  · unfold variableSymbols
    rw [variableName_truncate hp, Place.field?_truncate hp]
    cases (p.field? "name").filter fun n => n.kind == "identifier" with
    | none => exact .nil
    | some nameNode =>
        cases p.field? "value" with
        | none => exact .emit _ _ .nil
        | some value =>
            simp only [Option.map_some, Place.kind_truncate, d.text_truncate]
            split
            · exact .emit _ _ .nil
            · exact .emit _ _ .nil
            · exact .emit _ _ .nil
            · exact .emit _ _ .nil
            · exact .emit _ _ (membersOf_fades d _ _ value)
            · exact .emit _ _ .nil
  · have hnone := Place.field?_eq_none (Place.children_truncate_of_le (Nat.le_of_not_lt hp)) "name"
    unfold variableSymbols
    rw [hnone]
    exact .nil_emitAll _

theorem variableSymbols_truncate (declaration : Place) (keyword : String)
    (h : p.level + 3 < levels) :
    variableSymbols d s (declaration.truncate levels) keyword (p.truncate levels) =
      variableSymbols d s declaration keyword p := by
  have hp : p.level < levels := by omega
  unfold variableSymbols
  rw [variableName_truncate hp, Place.field?_truncate hp]
  cases (p.field? "name").filter fun n => n.kind == "identifier" with
  | none => rfl
  | some nameNode =>
      simp only [Option.map_some, d.text_truncate, documentation_truncate, symbolIn_truncate,
        plainVariable_truncate d declaration keyword _ hp]
      cases hvalue : p.field? "value" with
      | none => rfl
      | some value =>
          have hlevel := Place.level_of_field? hvalue
          have hvalue : value.level < levels := by omega
          have hmembers : value.level + 2 < levels := by omega
          simp only [Option.map_some, Place.kind_truncate, asyncMark_truncate hvalue,
            Place.field?_truncate hvalue, ← Option.map_or,
            returnType_truncate d hvalue, membersOf_truncate d _ _ hmembers]
          simp only [parameters, d.paramsText_map_truncate]

theorem declarators_fades (p : Place) :
    Rule.Fades rule levels (Step.emitAll (declarators d s (p.truncate levels)))
      (Step.emitAll (declarators d s p)) := by
  refine .emitAll_of_children (fun p hp => ?_) fun h => ?_
  · rw [declarators, Place.childrenOf, hp]
    rfl
  have hkeyword : (p.truncate levels).children.head?.map d.text = p.children.head?.map d.text := by
    rw [Place.children_truncate h, List.head?_map, Option.map_map]
    simp only [Function.comp_def, d.text_truncate]
  rw [declarators, hkeyword, Place.childrenOf_truncate h, List.flatMap_map, declarators,
    Step.emitAll_flatMap, Step.emitAll_flatMap]
  exact .flatMap fun v _ => variableSymbols_fades d p _ v

theorem declarators_truncate (h : p.level + 4 < levels) :
    declarators d s (p.truncate levels) = declarators d s p := by
  have hp : p.level < levels := by omega
  have hkeyword : (p.truncate levels).children.head?.map d.text = p.children.head?.map d.text := by
    rw [Place.children_truncate hp, List.head?_map, Option.map_map]
    simp only [Function.comp_def, d.text_truncate]
  rw [declarators, hkeyword, Place.childrenOf_truncate hp, List.flatMap_map, declarators]
  refine List.flatMap_congr fun v hv => variableSymbols_truncate d p _ ?_
  have hlevel := Place.level_of_mem_children (List.mem_filter.1 hv).1
  omega

theorem exportSymbol?_truncate (owner : Option String) (h : p.level + 1 < levels) :
    exportSymbol? d owner (p.truncate levels) = exportSymbol? d owner p := by
  have hp : p.level < levels := by omega
  simp only [exportSymbol?, Place.childOf?_truncate hp, Option.bind_eq_bind]
  cases hassignment : p.childOf? "assignment_expression" with
  | none => rfl
  | some assignment =>
      have hlevel := Place.level_of_childOf? hassignment
      have hassignment : assignment.level < levels := by omega
      simp only [Option.map_some, Option.bind_some, Place.field?_truncate hassignment,
        Option.bind_map, Function.comp_def, Place.kind_truncate, d.text_truncate,
        d.signature_truncate, documentation_truncate, symbolIn_truncate]

/-- An assignment exports the same in the truncated tree, or nothing. -/
theorem exportSymbol?_truncate_or (owner : Option String) (levels : Nat) (p : Place) :
    exportSymbol? d owner (p.truncate levels) = none ∨
      exportSymbol? d owner (p.truncate levels) = exportSymbol? d owner p := by
  by_cases hp : p.level + 1 < levels
  · exact Or.inr (exportSymbol?_truncate d owner hp)
  · refine Or.inl ?_
    rw [exportSymbol?]
    cases hassignment : (p.truncate levels).childOf? "assignment_expression" with
    | none => rfl
    | some assignment =>
        have hempty := Place.children_of_mem_children_truncate
          (Place.mem_children_of_childOf? hassignment) (Nat.le_of_not_lt hp)
        simp only [Option.bind_eq_bind, Option.bind_some, Place.field?_eq_none hempty,
          Option.bind_none]

end Declarations.ECMAScript

namespace Declarations.TypeScript

open SourceIndex.Idiom.ECMAScript
open SourceIndex.Declarations.ECMAScript

variable (d : Document) {levels : Nat} {s : Setting} {p c : Place} {rule : Rule Setting Symbol}

theorem interfaceMember?_truncate (owner : String) (h : p.level < levels) :
    interfaceMember? d owner (p.truncate levels) = interfaceMember? d owner p := by
  simp only [interfaceMember?, d.fieldText_truncate h, Place.kind_truncate,
    parameters_truncate d h, returnType_truncate d h, declaredType_truncate d h,
    symbolIn_truncate]

theorem interfaceMember?_truncate_or (owner : String) (levels : Nat) (p : Place) :
    interfaceMember? d owner (p.truncate levels) = none ∨
      interfaceMember? d owner (p.truncate levels) = interfaceMember? d owner p := by
  by_cases hp : p.level < levels
  · exact Or.inr (interfaceMember?_truncate d owner hp)
  · have hempty := Place.children_truncate_of_le (Nat.le_of_not_lt hp)
    rw [interfaceMember?, d.fieldText_eq_none hempty]
    exact Or.inl rfl

theorem enumMember?_truncate (owner : String) (h : p.level < levels) :
    enumMember? d owner (p.truncate levels) = enumMember? d owner p := by
  simp only [enumMember?, Place.kind_truncate, Place.namedChildren_truncate h, List.head?_map,
    Option.map_map, Function.comp_def, d.text_truncate, d.fieldText_truncate h,
    symbolIn_truncate]

theorem enumMember?_truncate_or (owner : String) (levels : Nat) (p : Place) :
    enumMember? d owner (p.truncate levels) = none ∨
      enumMember? d owner (p.truncate levels) = enumMember? d owner p := by
  by_cases hp : p.level < levels
  · exact Or.inr (enumMember?_truncate d owner hp)
  · have hempty := Place.children_truncate_of_le (Nat.le_of_not_lt hp)
    unfold enumMember?
    rw [Place.kind_truncate]
    split
    · exact Or.inr (by rw [d.text_truncate, symbolIn_truncate])
    · rw [Place.namedChildren, hempty]
      exact Or.inl rfl
    · exact Or.inl rfl

/-- What stands in the body of a declaration fades with the levels that are cut off. -/
theorem bodyChildren_fades {f : Place → Option Symbol}
    (h : ∀ c, f (c.truncate levels) = none ∨ f (c.truncate levels) = f c) (hp : p.level < levels) :
    Rule.Fades rule levels (Step.emitAll ((bodyChildren (p.truncate levels)).filterMap f))
      (Step.emitAll ((bodyChildren p).filterMap f)) := by
  rw [bodyChildren, Place.field?_truncate hp, bodyChildren]
  cases p.field? "body" with
  | none => exact .nil
  | some body => exact .emitAll_filterMap_children h body

/-- Two levels above the last one everything in the body is there. -/
theorem filterMap_bodyChildren_truncate {f : Place → Option Symbol}
    (h : ∀ c : Place, c.level < levels → f (c.truncate levels) = f c) (hp : p.level + 2 < levels) :
    (bodyChildren (p.truncate levels)).filterMap f = (bodyChildren p).filterMap f := by
  rw [bodyChildren, Place.fieldChildren_truncate (by omega), List.filterMap_map, bodyChildren]
  refine List.filterMap_congr fun c hc => ?_
  cases hbody : p.field? "body" with
  | none =>
      rw [hbody] at hc
      cases hc
  | some body =>
      rw [hbody] at hc
      have hlevel := Place.level_of_field? hbody
      have hlevel' := Place.level_of_mem_children hc
      exact h c (by omega)

theorem interfaceSymbols_fades (c : Place) :
    Rule.Fades rule levels (Step.emitAll (interfaceSymbols d s (c.truncate levels)))
      (Step.emitAll (interfaceSymbols d s c)) := by
  refine .emitAll_of_children (fun c hc => ?_) fun h => ?_
  · rw [interfaceSymbols, d.fieldText_eq_none hc]
  unfold interfaceSymbols
  rw [d.fieldText_truncate h]
  split
  · exact .nil
  · exact .emit _ _ (bodyChildren_fades (interfaceMember?_truncate_or d _ levels) h)

theorem interfaceSymbols_truncate (h : c.level + 2 < levels) :
    interfaceSymbols d s (c.truncate levels) = interfaceSymbols d s c := by
  have hc : c.level < levels := by omega
  have hmembers := fun owner =>
    filterMap_bodyChildren_truncate (fun _ => interfaceMember?_truncate d owner) h
  simp only [interfaceSymbols, d.fieldText_truncate hc, Place.childOf?_truncate hc, Option.map_map,
    Function.comp_def, d.text_truncate, withTypeParameters_truncate d hc, documentation_truncate,
    symbolIn_truncate, hmembers]

theorem typeAlias?_truncate (h : c.level < levels) :
    typeAlias? d s (c.truncate levels) = typeAlias? d s c := by
  simp only [typeAlias?, d.fieldText_truncate h, withTypeParameters_truncate d h,
    documentation_truncate, symbolIn_truncate]

theorem typeAlias?_truncate_or (levels : Nat) (c : Place) :
    typeAlias? d s (c.truncate levels) = none ∨
      typeAlias? d s (c.truncate levels) = typeAlias? d s c := by
  by_cases hc : c.level < levels
  · exact Or.inr (typeAlias?_truncate d hc)
  · have hempty := Place.children_truncate_of_le (Nat.le_of_not_lt hc)
    rw [typeAlias?, d.fieldText_eq_none hempty]
    exact Or.inl rfl

theorem enumSymbols_fades (c : Place) :
    Rule.Fades rule levels (Step.emitAll (enumSymbols d s (c.truncate levels)))
      (Step.emitAll (enumSymbols d s c)) := by
  refine .emitAll_of_children (fun c hc => ?_) fun h => ?_
  · rw [enumSymbols, d.fieldText_eq_none hc]
  unfold enumSymbols
  rw [d.fieldText_truncate h]
  split
  · exact .nil
  · exact .emit _ _ (bodyChildren_fades (enumMember?_truncate_or d _ levels) h)

theorem enumSymbols_truncate (h : c.level + 2 < levels) :
    enumSymbols d s (c.truncate levels) = enumSymbols d s c := by
  have hc : c.level < levels := by omega
  have hmembers := fun owner =>
    filterMap_bodyChildren_truncate (fun _ => enumMember?_truncate d owner) h
  simp only [enumSymbols, d.fieldText_truncate hc, Place.hasToken_truncate hc,
    documentation_truncate, symbolIn_truncate, hmembers]

/-- A namespace leads to its body in the truncated tree too. -/
theorem namespaceSteps_truncate (h : c.level < levels) :
    namespaceSteps d s (c.truncate levels) = (namespaceSteps d s c).map (Step.truncate levels) := by
  unfold namespaceSteps
  rw [d.fieldText_truncate h]
  cases d.fieldText c "name" with
  | none => rfl
  | some name =>
      simp only [Place.kind_truncate, documentation_truncate, symbolIn_truncate, List.map_cons,
        Step.truncate, Step.map_truncate_visit?, Place.field?_truncate h]

/-! ## Steps in the truncated tree -/

/-- What one child declares: in TypeScript, or else in every dialect. -/
def steps (s : Setting) (c : Place) : List (Step Setting Symbol) :=
  (typescript d s c).getD (childSteps d s c)

theorem rule_typescript : ECMAScript.rule d typescript s p =
    if d.tooDeep s.depth then [] else p.children.flatMap (steps d s) :=
  rfl

theorem rule_of_children (s : Setting) (h : p.children = []) :
    ECMAScript.rule d typescript s p = [] := by
  rw [rule_typescript, h, List.flatMap_nil, ite_self]

/-- The kinds of namespaces. -/
def namespaceKinds : List String :=
  ["internal_module", "module"]

/-- A namespace leads to its body alone. -/
theorem visit_namespaceSteps {s' : Setting} {q : Place}
    (h : Step.visit s' q ∈ namespaceSteps d s c) : c.field? "body" = some q := by
  unfold namespaceSteps at h
  split at h
  · cases h
  · rcases List.mem_cons.1 h with h | h
    · cases h
    · exact (Step.mem_visit?.1 h).2

theorem visit_childSteps {s' : Setting} {q : Place} (h : Step.visit s' q ∈ childSteps d s c) :
    q = c ∧ s'.depth = s.depth + 1 := by
  unfold childSteps at h
  split at h
  case h_8 | h_10 =>
    cases List.mem_singleton.1 h
    exact ⟨rfl, rfl⟩
  case h_1 | h_2 | h_9 => exact absurd h (Step.visit_notMem_emit? _)
  all_goals exact absurd h (Step.visit_notMem_emitAll _)

/-- A child leads into itself, one step deeper, or to the body of a namespace. -/
theorem visit_steps {s' : Setting} {q : Place} (h : Step.visit s' q ∈ steps d s c) :
    (q = c ∧ s'.depth = s.depth + 1) ∨
      ∃ m, (m = c ∨ m ∈ c.children) ∧ m.kind ∈ namespaceKinds ∧ m.field? "body" = some q := by
  cases hsteps : typescript d s c with
  | none =>
      rw [steps, hsteps] at h
      exact Or.inl (visit_childSteps d h)
  | some more =>
      rw [steps, hsteps, Option.getD_some] at h
      unfold typescript at hsteps
      split at hsteps
      case h_1 | h_2 | h_3 =>
        cases hsteps
        exact absurd h (Step.visit_notMem_emitAll _)
      case h_4 hkind | h_5 hkind =>
        cases hsteps
        exact Or.inr ⟨c, Or.inl rfl, by simp [namespaceKinds, hkind], visit_namespaceSteps d h⟩
      case h_6 =>
        obtain ⟨m, hm, rfl⟩ := Option.map_eq_some_iff.1 hsteps
        have hkind : m.kind = "internal_module" := by simpa using List.find?_some hm
        exact Or.inr ⟨m, Or.inr (Place.mem_children_of_childOf? hm),
          by simp [namespaceKinds, hkind], visit_namespaceSteps d h⟩
      case h_7 => cases hsteps

/-- What is declared in every dialect fades. -/
theorem childSteps_fades (c : Place) :
    Rule.Fades (ECMAScript.rule d typescript) levels (childSteps d s (c.truncate levels))
      (childSteps d s c) := by
  unfold childSteps
  rw [Place.kind_truncate]
  split
  · exact .emit?_of_or (function?_truncate_or d levels c)
  · exact .emit?_of_or (function?_truncate_or d levels c)
  · exact classSymbols_fades d c
  · exact classSymbols_fades d c
  · exact classSymbols_fades d c
  · exact declarators_fades d c
  · exact declarators_fades d c
  · exact .visit _ _ .nil
  · exact .emit?_of_or (exportSymbol?_truncate_or d s.name levels c)
  · exact .visit _ _ .nil

theorem namespaceSteps_of_children (s : Setting) (h : c.children = []) :
    namespaceSteps d s c = [] := by
  rw [namespaceSteps, d.fieldText_eq_none h]

/-- A namespace is lost with all that it leads to, or moved. -/
theorem namespaceSteps_fades (s : Setting) (c : Place) :
    Rule.Fades (ECMAScript.rule d typescript) levels (namespaceSteps d s (c.truncate levels))
      (namespaceSteps d s c) := by
  by_cases hc : c.level < levels
  · rw [namespaceSteps_truncate d hc]
    exact .truncate _
  · rw [namespaceSteps_of_children d s (Place.children_truncate_of_le (Nat.le_of_not_lt hc))]
    refine .of_nil fun s' q hq => Rule.walk_eq_nil (rule_of_children d s' ?_)
    have hlevel := Place.level_of_field? (visit_namespaceSteps d hq)
    exact Place.children_truncate_of_le (by omega)

/-- What a child declares fades: the namespaces on the last level are lost, and with them their
bodies. -/
theorem steps_fades (c : Place) : Rule.Fades (ECMAScript.rule d typescript) levels
    (steps d s (c.truncate levels)) (steps d s c) := by
  unfold steps typescript
  rw [Place.kind_truncate]
  split
  · exact interfaceSymbols_fades d c
  · exact .emit?_of_or (typeAlias?_truncate_or d levels c)
  · exact enumSymbols_fades d c
  · exact namespaceSteps_fades d s c
  · exact namespaceSteps_fades d s c
  · rename_i hkind
    by_cases hc : c.level < levels
    · rw [Place.childOf?_truncate hc]
      cases c.childOf? "internal_module" with
      | none => exact childSteps_fades d c
      | some m => exact namespaceSteps_fades d s m
    · -- On the last level the statement is empty, and no namespace that it holds is found.
      have hempty := Place.children_truncate_of_le (Nat.le_of_not_lt hc)
      have hbare : childSteps d s (c.truncate levels) = [] := by
        unfold childSteps
        rw [Place.kind_truncate, hkind]
        show Step.emit? (exportSymbol? d s.name (c.truncate levels)) = []
        rw [exportSymbol?, Place.childOf?_eq_none hempty]
        rfl
      rw [Place.childOf?_eq_none hempty]
      show Rule.Fades _ levels (childSteps d s (c.truncate levels)) _
      rw [hbare]
      cases hm : c.childOf? "internal_module" with
      | none =>
          have hfades : Rule.Fades (ECMAScript.rule d typescript) levels
              (childSteps d s (c.truncate levels)) (childSteps d s c) := childSteps_fades d c
          rw [hbare] at hfades
          exact hfades
      | some m =>
          have hlevel := Place.level_of_childOf? hm
          have hfades : Rule.Fades (ECMAScript.rule d typescript) levels
              (namespaceSteps d s (m.truncate levels)) (namespaceSteps d s m) :=
            namespaceSteps_fades d s m
          rw [namespaceSteps_of_children d s (Place.children_truncate_of_le (by omega))] at hfades
          exact hfades
  · exact childSteps_fades d c

theorem childSteps_truncate (h : c.level + 4 < levels) :
    childSteps d s (c.truncate levels) = (childSteps d s c).map (Step.truncate levels) := by
  have hc : c.level < levels := by omega
  unfold childSteps
  rw [Place.kind_truncate]
  split
  · rw [function?_truncate d hc, Step.map_truncate_emit?]
  · rw [function?_truncate d hc, Step.map_truncate_emit?]
  · rw [classSymbols_truncate d (by omega), Step.map_truncate_emitAll]
  · rw [classSymbols_truncate d (by omega), Step.map_truncate_emitAll]
  · rw [classSymbols_truncate d (by omega), Step.map_truncate_emitAll]
  · rw [declarators_truncate d h, Step.map_truncate_emitAll]
  · rw [declarators_truncate d h, Step.map_truncate_emitAll]
  · rfl
  · rw [exportSymbol?_truncate d _ (by omega), Step.map_truncate_emit?]
  · rfl

theorem typescript_truncate (h : c.level + 4 < levels) :
    typescript d s (c.truncate levels) =
      (typescript d s c).map (List.map (Step.truncate levels)) := by
  have hc : c.level < levels := by omega
  unfold typescript
  rw [Place.kind_truncate]
  split
  · rw [interfaceSymbols_truncate d (by omega), Option.map_some, Step.map_truncate_emitAll]
  · rw [typeAlias?_truncate d hc, Option.map_some, Step.map_truncate_emit?]
  · rw [enumSymbols_truncate d (by omega), Option.map_some, Step.map_truncate_emitAll]
  · rw [namespaceSteps_truncate d hc, Option.map_some]
  · rw [namespaceSteps_truncate d hc, Option.map_some]
  · rw [Place.childOf?_truncate hc]
    cases hm : c.childOf? "internal_module" with
    | none => rfl
    | some m =>
        have hlevel := Place.level_of_childOf? hm
        have hm : m.level < levels := by omega
        simp only [Option.map_some, namespaceSteps_truncate d hm]
  · rfl

/-- Far enough above the last level a child declares the same in the truncated tree. -/
theorem steps_truncate (h : c.level + 4 < levels) :
    steps d s (c.truncate levels) = (steps d s c).map (Step.truncate levels) := by
  rw [steps, typescript_truncate d h, childSteps_truncate d h, steps]
  cases typescript d s c <;> rfl

/-- A place that the walk comes to stands below a namespace, or not below the depth. -/
def Reaches (s : Setting) (p : Place) : Prop :=
  p.isBelow namespaceKinds = true ∨ p.level ≤ s.depth

theorem isBelow_of_mem_children {q : Place} (h : q ∈ p.children) (kinds : List String) :
    q.isBelow kinds = (p.isOneOf kinds || p.isBelow kinds) := by
  rw [Place.isBelow, Place.ancestors_of_mem_children h, List.any_cons, Place.isBelow]

theorem reaches_of_visit {s s' : Setting} {p q : Place} (hp : Reaches s p)
    (h : Step.visit s' q ∈ ECMAScript.rule d typescript s p) : Reaches s' q := by
  rw [rule_typescript] at h
  split at h
  · cases h
  · obtain ⟨c, hc, h⟩ := List.mem_flatMap.1 h
    have hlevel := Place.level_of_mem_children hc
    rcases visit_steps d h with ⟨rfl, hdepth⟩ | ⟨m, -, hkind, hq⟩
    · rcases hp with hbelow | hshallow
      · refine Or.inl ?_
        rw [isBelow_of_mem_children hc, hbelow, Bool.or_true]
      · refine Or.inr ?_
        omega
    · refine Or.inl ?_
      rw [isBelow_of_mem_children (Place.mem_children_of_field? hq), Place.isOneOf,
        List.contains_iff_mem.2 hkind, Bool.true_or]

/-- May a walk lose something at a place when the tree is truncated?  That can only happen in a
namespace, near the last level or below it. -/
def isExposed (levels : Nat) : Setting × Place → Bool
  | (_, p) => p.isBelow namespaceKinds && decide (levels < p.level + 6)

theorem fadesOn :
    Rule.FadesOn (ECMAScript.rule d typescript) d.keptLevels Reaches where
  descends := rule_descends d typescript_isPlain
  step := reaches_of_visit d
  fades := by
    intro s p _
    by_cases hp : p.level < d.keptLevels
    · rw [rule_typescript, rule_typescript]
      split
      · exact .nil
      · rw [Place.children_truncate hp, List.flatMap_map]
        exact .flatMap fun c _ => steps_fades d c
    · -- On the last level nothing is left to walk, and everything that is lost stands below it.
      refine .of_children_eq_nil (fun s _ => rule_of_children d s) (Nat.le_of_not_lt hp) ?_
      intro s' q hq
      obtain ⟨c, hc, hbelow⟩ := visit_rule d typescript_isPlain hq
      have hlevel := Place.level_of_mem_children hc
      have hlevel' := Place.level_le_of_mem_subtree hbelow
      omega

/-- A place that is not exposed hands out the same in the truncated tree. -/
theorem handsOut_truncate (hp : Reaches s p) (h : isExposed d.keptLevels (s, p) = false) :
    (ECMAScript.rule d typescript).handsOut s (p.truncate d.keptLevels) =
      (ECMAScript.rule d typescript).handsOut s p := by
  refine Rule.handsOut_truncate ?_
  rw [rule_typescript, rule_typescript]
  split
  · rfl
  · rename_i hdepth
    -- The level is known inside a namespace, where the place is not exposed; elsewhere the depth,
    -- which is within the limit here, bounds it.
    have hroom : p.level + 5 < d.keptLevels := by
      rcases hp with hbelow | hshallow
      · rw [isExposed, hbelow, Bool.true_and, decide_eq_false_iff_not] at h
        omega
      · have hreach : p.level ≤ 3 * s.depth + 1 := by omega
        have hkept := d.add_le_keptLevels hreach hdepth
        omega
    rw [Place.children_truncate (by omega), List.flatMap_map, List.map_flatMap]
    refine List.flatMap_congr fun c hc => steps_truncate d ?_
    have hlevel := Place.level_of_mem_children hc
    omega

/-- At every exposed place to which the walk comes it hands out the same when the tree is truncated
to the kept levels. -/
def LosesNothing (tree : Node) : Prop :=
  ∀ v ∈ (ECMAScript.rule d typescript).visits {} (.root tree),
    isExposed d.keptLevels v = true →
      (ECMAScript.rule d typescript).handsOut v.1 (v.2.truncate d.keptLevels) =
        (ECMAScript.rule d typescript).handsOut v.1 v.2

/-- The symbols of a file are the same without the nodes below the kept levels, exactly when the
walk loses nothing in the namespaces that reach there. -/
theorem namespaced_symbols_truncate_iff (language : String) (endings : List String) (parse : Parser)
    (tree : Node) :
    (Extractor.typescriptAs language endings).symbols (parse.truncate d.keptLevels) d
        (some (.root (tree.truncate d.keptLevels))) =
      (Extractor.typescriptAs language endings).symbols parse d (some (.root tree)) ↔
      LosesNothing d tree := by
  have hstart : Reaches {} (.root tree) := Or.inr (Nat.zero_le _)
  exact (fadesOn d).walk_eq_iff_of_exposed (isExposed d.keptLevels) (handsOut_truncate d) hstart

/-- Some namespaces, each but the first alone in the one before, from `start` to `stop`. -/
def nestedSpaces (start stop : Nat) : Nat → List Node
  | 0 => []
  | count + 1 =>
      let body : Node := .mk "statement_block" true ["body"] (start + 11) stop
        ([.mk "\x7b" false [] (start + 11) (start + 12) []] ++
          nestedSpaces (start + 12) (stop - 1) count ++
          [.mk "\x7d" false [] (stop - 1) stop []])
      [.mk "expression_statement" true [] start stop
        [.mk "internal_module" true [] start stop
          [.mk "namespace" false [] start (start + 9) [],
            .mk "identifier" true ["name"] (start + 10) (start + 11) [], body]]]

/-- A file with five namespaces, each in the one before, to be walked one level deep. -/
def nested : Document :=
  { path := "a.ts"
    bytes := Text.Utf8.encode
      "namespace A\x7bnamespace B\x7bnamespace C\x7bnamespace D\x7bnamespace E\x7b\x7d\x7d\x7d\x7d\x7d\n".toList
    limits := { walkDepth := 1 } }

/-- The tree of `nested`. -/
def nestedTree : Node :=
  .mk "program" true [] 0 66 (nestedSpaces 0 65 5)

/-- The innermost namespace is found below the levels that the limit allows. -/
theorem nested_symbols_truncate_ne :
    Extractor.typescript.symbols (Parser.truncate nested.keptLevels fun _ _ => none) nested
        (some (.root (nestedTree.truncate nested.keptLevels))) ≠
      Extractor.typescript.symbols (fun _ _ => none) nested (some (.root nestedTree)) := by
  decide +kernel

end Declarations.TypeScript

end SourceIndex
