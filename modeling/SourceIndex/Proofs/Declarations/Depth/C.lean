import SourceIndex.Backends
import SourceIndex.Proofs.Declarations.Depth.Declarators
import SourceIndex.Proofs.Scopes.C
import SourceIndex.Proofs.Tree.Emission
import SourceIndex.Proofs.Uses.DepthCap

/-!
# How deep declarations in C are looked for

The walk through a file of the C family stops at a depth, but a declarator is followed to its end,
through any number of pointers.  Everything else is found in the truncated tree as well.
-/

namespace SourceIndex

namespace Idiom.C

variable (d : Document) {levels : Nat} {p : Place}

theorem isStatic_truncate (h : p.level < levels) :
    isStatic d (p.truncate levels) = isStatic d p := by
  rw [isStatic, Place.childrenOf_truncate h, List.any_map, isStatic]
  simp only [Function.comp_def, d.text_truncate]

theorem isConst_truncate (h : p.level < levels) : isConst d (p.truncate levels) = isConst d p := by
  rw [isConst, Place.childrenOf_truncate h, List.any_map, isConst]
  simp only [Function.comp_def, d.text_truncate]

theorem documentation_truncate (levels : Nat) (p : Place) :
    documentation d (p.truncate levels) = documentation d p := by
  rw [documentation, d.precedingComments_truncate, documentation]

end Idiom.C

namespace Declarations.C

open SourceIndex.Idiom.C

variable (dialect : Dialect) (d : Document) {levels : Nat} {s : Scope} {p c : Place}
  {owner : Option String} {access : Option Visibility}

/-! ## Functions and variables in the truncated tree -/

@[simp] theorem symbolIn_truncate (levels : Nat) (owner : Option String) (p : Place) (name : String)
    (kind : SymbolKind) (details : Symbol.Details) :
    symbolIn d owner (p.truncate levels) name kind details =
      symbolIn d owner p name kind details := by
  rw [symbolIn, d.symbol_truncate, symbolIn]

theorem functionSymbol_truncate (h : p.level < levels) (type name params : String) :
    functionSymbol dialect d owner access (p.truncate levels) type name params =
      functionSymbol dialect d owner access p type name params := by
  simp only [functionSymbol, linkage, isStatic_truncate d h, documentation_truncate,
    symbolIn_truncate]

theorem typeText_truncate (h : p.level < levels) :
    typeText d (p.truncate levels) = typeText d p := by
  rw [typeText, d.fieldText_truncate h, typeText]

theorem function?_eq_bind (owner : Option String) (access : Option Visibility) (p : Place) :
    function? dialect d owner access p = (p.field? "declarator").bind fun f =>
      (functionParts d f).map fun parts =>
        functionSymbol dialect d owner access p (typeText d p) parts.1 parts.2 := by
  rw [function?]
  cases p.field? "declarator" with
  | none => rfl
  | some f =>
      rw [Option.bind_eq_bind, Option.bind_some, Option.bind_some, Option.map_eq_bind]
      rfl

/-- A function is defined in the truncated tree too, or its declarator is cut off. -/
theorem function?_truncate_or (h : p.level < levels) :
    function? dialect d owner access (p.truncate levels) = none ∨
      function? dialect d owner access (p.truncate levels) =
        function? dialect d owner access p := by
  rw [function?_eq_bind, function?_eq_bind, Place.field?_truncate h, typeText_truncate d h]
  simp only [functionSymbol_truncate dialect d h]
  cases p.field? "declarator" with
  | none => exact Or.inl rfl
  | some f =>
      rw [Option.map_some, Option.bind_some, Option.bind_some]
      rcases functionParts_truncate_or d levels f with hnone | hsame
      · rw [hnone]
        exact Or.inl (Option.map_none _)
      · rw [hsame]
        exact Or.inr rfl

theorem function?_truncate (h : p.level < levels)
    (hkept : ∀ f ∈ p.field? "declarator", f.IsKept levels) :
    function? dialect d owner access (p.truncate levels) = function? dialect d owner access p := by
  rw [function?_eq_bind, function?_eq_bind, Place.field?_truncate h, typeText_truncate d h]
  simp only [functionSymbol_truncate dialect d h]
  cases hf : p.field? "declarator" with
  | none => rfl
  | some f => rw [Option.map_some, Option.bind_some, Option.bind_some,
      functionParts_truncate d (hkept f hf)]

/-- Does a declarator that holds that of a function declare one?  The declarator of a function has
one of its own, and no other declarator stands before it. -/
def TellsFunction (c : Place) : Prop :=
  declaresFunction c = true →
    ((functionDeclarator? c).bind fun f => f.field? "declarator").isSome = true

instance : Decidable (TellsFunction c) :=
  inferInstanceAs (Decidable (_ → _))

theorem TellsFunction.isSome (h : TellsFunction c) (hfunction : declaresFunction c = true) :
    (functionParts d c).isSome = true := by
  have hfield := h hfunction
  rw [functionParts]
  cases hf : functionDeclarator? c with
  | none =>
      rw [hf] at hfield
      cases hfield
  | some f =>
      rw [hf, Option.bind_some] at hfield
      obtain ⟨q, hq⟩ := Option.isSome_iff_exists.1 hfield
      simp only [Option.bind_eq_bind, Option.bind_some, Document.fieldText, hq, Option.map_some]
      rfl

/-- Nothing is declared in the truncated tree that is not declared at all. -/
theorem isSome_declared?_of_truncate (h : p.level < levels) (hc : TellsFunction c)
    (hsome : (declared? dialect d owner access (p.truncate levels) (c.truncate levels)).isSome) :
    (declared? dialect d owner access p c).isSome := by
  unfold declared? at hsome ⊢
  simp only [typeText_truncate d h, Place.isOneOf_truncate] at hsome ⊢
  by_cases hfunction : declaresFunction c = true
  · rw [if_pos hfunction, Option.isSome_map]
    exact hc.isSome d hfunction
  · have hfunction' : ¬ declaresFunction (c.truncate levels) = true :=
      fun h' => hfunction (declaresFunction_of_truncate h')
    rw [if_neg hfunction'] at hsome
    rw [if_neg hfunction]
    split at hsome
    · rename_i hkind
      rw [if_pos hkind]
      rw [Option.isSome_map] at hsome ⊢
      obtain ⟨name', hname'⟩ := Option.isSome_iff_exists.1 hsome
      obtain ⟨hname', htype⟩ := Option.filter_eq_some_iff.1 hname'
      obtain ⟨name, hname⟩ := Option.isSome_iff_exists.1
        (isSome_declaratorName_of_truncate d (Option.isSome_of_eq_some hname'))
      rw [hname, Option.filter_some, if_pos htype]
      rfl
    · cases hsome

/-- A declarator that is kept declares the same. -/
theorem declared?_truncate (h : p.level < levels) (hc : c.IsKept levels) :
    declared? dialect d owner access (p.truncate levels) (c.truncate levels) =
      declared? dialect d owner access p c := by
  have hliteral : initialLiteral d (c.truncate levels) = initialLiteral d c := by
    simp only [initialLiteral, hc.field?_truncate, Option.filter_map, Option.map_map,
      Function.comp_def, Place.isOneOf_truncate, d.text_truncate]
  simp only [declared?, typeText_truncate d h, declaresFunction_truncate hc,
    functionParts_truncate d hc, functionSymbol_truncate dialect d h, Place.isOneOf_truncate,
    declaratorName_truncate d hc, linkage, isStatic_truncate d h, isConst_truncate d h, hliteral,
    symbolIn_truncate]

theorem declaration_truncate (h : p.level < levels) (hkept : ∀ c ∈ p.children, c.IsKept levels) :
    declaration dialect d owner access (p.truncate levels) =
      declaration dialect d owner access p := by
  rw [declaration, Place.children_truncate h, List.filterMap_map, declaration]
  exact List.filterMap_congr fun c hc => declared?_truncate dialect d h (hkept c hc)

theorem declaration_fades {rule : Rule Task Symbol} (h : p.level < levels)
    (htells : ∀ c ∈ p.children, TellsFunction c) :
    Rule.Fades rule levels (Step.emitAll (declaration dialect d owner access (p.truncate levels)))
      (Step.emitAll (declaration dialect d owner access p)) := by
  rw [declaration, Place.children_truncate h, List.filterMap_map, declaration,
    Step.emitAll_filterMap, Step.emitAll_filterMap]
  exact .flatMap fun c hc =>
    .emit?_of_isSome (isSome_declared?_of_truncate dialect d h (htells c hc))

theorem isSome_field?_of_truncate {owner : String} {access : Visibility} (hc : TellsFunction c)
    (hsome : (field? dialect d owner access (p.truncate levels) (c.truncate levels)).isSome) :
    (field? dialect d owner access p c).isSome := by
  unfold field? at hsome ⊢
  simp only [Place.isOneOf_truncate] at hsome ⊢
  by_cases hfunction : declaresFunction c = true
  · rw [if_pos hfunction, Option.isSome_map]
    exact hc.isSome d hfunction
  · have hfunction' : ¬ declaresFunction (c.truncate levels) = true :=
      fun h' => hfunction (declaresFunction_of_truncate h')
    rw [if_neg hfunction'] at hsome
    rw [if_neg hfunction]
    split at hsome
    · rename_i hkind
      rw [if_pos hkind]
      rw [Option.isSome_map] at hsome ⊢
      exact isSome_declaratorName_of_truncate d hsome
    · cases hsome

theorem field?_truncate {owner : String} {access : Visibility} (h : p.level < levels)
    (hc : c.IsKept levels) :
    field? dialect d owner access (p.truncate levels) (c.truncate levels) =
      field? dialect d owner access p c := by
  simp only [field?, typeText_truncate d h, declaresFunction_truncate hc,
    functionParts_truncate d hc, functionSymbol_truncate dialect d h, Place.isOneOf_truncate,
    declaratorName_truncate d hc, symbolIn_truncate]

theorem fields_truncate {owner : String} {access : Visibility} (h : p.level < levels)
    (hkept : ∀ c ∈ p.children, c.IsKept levels) :
    (p.truncate levels).children.filterMap (field? dialect d owner access (p.truncate levels)) =
      p.children.filterMap (field? dialect d owner access p) := by
  rw [Place.children_truncate h, List.filterMap_map]
  exact List.filterMap_congr fun c hc => field?_truncate dialect d h (hkept c hc)

theorem fields_fades {rule : Rule Task Symbol} {owner : String} {access : Visibility}
    (h : p.level < levels) (htells : ∀ c ∈ p.children, TellsFunction c) :
    Rule.Fades rule levels
      (Step.emitAll ((p.truncate levels).children.filterMap
        (field? dialect d owner access (p.truncate levels))))
      (Step.emitAll (p.children.filterMap (field? dialect d owner access p))) := by
  rw [Place.children_truncate h, List.filterMap_map, Step.emitAll_filterMap,
    Step.emitAll_filterMap]
  exact .flatMap fun c hc => .emit?_of_isSome (isSome_field?_of_truncate dialect d (htells c hc))

/-! ## Types in the truncated tree -/

/-- A record leads to its body in the truncated tree too. -/
theorem recordSteps_truncate (h : p.level < levels) :
    recordSteps d s (p.truncate levels) = (recordSteps d s p).map (Step.truncate levels) := by
  unfold recordSteps
  rw [d.fieldText_truncate h]
  cases d.fieldText p "name" with
  | none => rfl
  | some name =>
      simp only [Place.kind_truncate, Place.childOf?_truncate h, Option.map_map, Function.comp_def,
        d.text_truncate, documentation_truncate, symbolIn_truncate, Place.field?_truncate h,
        List.map_cons, Step.truncate, Step.map_truncate_visit?]

theorem enumerators_truncate (qualified : String) (h : p.level + 2 < levels) :
    enumerators d qualified (p.truncate levels) = enumerators d qualified p := by
  rw [enumerators, Place.field?_truncate (by omega), enumerators]
  cases hbody : p.field? "body" with
  | none => rfl
  | some body =>
      have hlevel := Place.level_of_field? hbody
      simp only [Option.map_some]
      rw [Place.childrenOf_truncate (by omega), List.filterMap_map]
      refine List.filterMap_congr fun e he => ?_
      have hlevel' := Place.level_of_mem_children (List.mem_filter.1 he).1
      have he : e.level < levels := by omega
      simp only [Function.comp_apply, d.fieldText_truncate he, symbolIn_truncate]

theorem enumSymbols_truncate (h : p.level + 2 < levels) :
    enumSymbols d owner (p.truncate levels) = enumSymbols d owner p := by
  have hp : p.level < levels := by omega
  simp only [enumSymbols, d.fieldText_truncate hp, documentation_truncate, symbolIn_truncate,
    enumerators_truncate d _ h]

theorem typedefType_truncate {type : Option Place} (h : ∀ t ∈ type, t.level < levels) :
    typedefType d (type.map (Place.truncate levels)) = typedefType d type := by
  cases type with
  | none => rfl
  | some t =>
      have ht := h t rfl
      simp only [typedefType, Option.map_some, Place.field?_truncate ht, Option.isSome_map,
        Place.kind_truncate, d.fieldText_truncate ht, d.text_truncate]

/-- The type identifiers among the children are those of the whole tree. -/
theorem lastTypeIdentifier_truncate (h : p.level < levels) :
    ((p.truncate levels).childrenOf "type_identifier").getLast?.map d.text =
      (p.childrenOf "type_identifier").getLast?.map d.text := by
  rw [Place.childrenOf_truncate h, List.getLast?_map, Option.map_map]
  simp only [Function.comp_def, d.text_truncate]

theorem isSome_typedefName_of_truncate (h : p.level < levels)
    (hsome : (typedefName d (p.truncate levels)).isSome) : (typedefName d p).isSome := by
  rw [typedefName, Option.isSome_or, Place.field?_truncate h, lastTypeIdentifier_truncate d h,
    Bool.or_eq_true] at hsome
  rw [typedefName, Option.isSome_or, Bool.or_eq_true]
  refine hsome.imp_left fun hname => ?_
  cases hf : p.field? "declarator" with
  | none =>
      rw [hf] at hname
      cases hname
  | some f =>
      rw [hf] at hname
      exact isSome_declaratorName_of_truncate d hname

theorem typedefName_truncate (h : p.level < levels)
    (hkept : ∀ f ∈ p.field? "declarator", f.IsKept levels) :
    typedefName d (p.truncate levels) = typedefName d p := by
  rw [typedefName, Place.field?_truncate h, lastTypeIdentifier_truncate d h, typedefName]
  cases hf : p.field? "declarator" with
  | none => rfl
  | some f => rw [Option.map_some, Option.bind_some, Option.bind_some,
      declaratorName_truncate d (hkept f hf)]

/-- What a type with a body declares in a typedef. -/
def bodySteps (s : Scope) (name : String) (t body : Place) : List (Step Task Symbol) :=
  if t.isOneOf ["struct_specifier", "union_specifier"] then
    if (t.field? "name").isSome then
      recordSteps d s.deeper t
    else
      [.visit (.members (s.enter (Text.qualify s.name name "::")) .public) body]
  else if t.kind == "enum_specifier" then
    if (t.field? "name").isSome then Step.emitAll (enumSymbols d s.name t)
    else Step.emitAll (enumerators d (Text.qualify s.name name "::") t)
  else
    []

theorem typedefBodySteps_eq_getD (s : Scope) (name : String) (t : Place) :
    typedefBodySteps d s name t = ((t.field? "body").map (bodySteps d s name t)).getD [] := by
  cases hbody : t.field? "body" with
  | none => simp only [typedefBodySteps, hbody, Option.map_none, Option.getD_none]
  | some body =>
      simp only [typedefBodySteps, hbody, Option.map_some, Option.getD_some, bodySteps]
      split
      · rename_i heq hkind
        cases heq
        simp [Place.isOneOf, hkind]
      · rename_i heq hkind
        cases heq
        simp [Place.isOneOf, hkind]
      · rename_i hkind
        simp [Place.isOneOf, hkind]
      · rename_i hstruct hunion henum
        have hstruct : t.kind ≠ "struct_specifier" := fun hkind => hstruct body rfl hkind
        have hunion : t.kind ≠ "union_specifier" := fun hkind => hunion body rfl hkind
        have henum : t.kind ≠ "enum_specifier" := fun hkind => henum body rfl hkind
        simp [Place.isOneOf, hstruct, hunion, henum]

/-- The type of a typedef declares the same under the same name. -/
theorem typedefBodySteps_truncate (name : String) (h : p.level + 2 < levels) :
    typedefBodySteps d s name (p.truncate levels) =
      (typedefBodySteps d s name p).map (Step.truncate levels) := by
  have hp : p.level < levels := by omega
  rw [typedefBodySteps_eq_getD, typedefBodySteps_eq_getD, Place.field?_truncate hp]
  cases p.field? "body" with
  | none => rfl
  | some body =>
      simp only [Option.map_some, Option.getD_some, bodySteps, Place.isOneOf_truncate,
        Place.field?_truncate hp, Option.isSome_map, Place.kind_truncate,
        recordSteps_truncate d hp, enumSymbols_truncate d h, enumerators_truncate d _ h]
      split
      · split <;> rfl
      · split
        · split
          · rw [Step.map_truncate_emitAll]
          · rw [Step.map_truncate_emitAll]
        · rfl

theorem namespaceSteps_truncate (h : p.level < levels) :
    namespaceSteps d s (p.truncate levels) = (namespaceSteps d s p).map (Step.truncate levels) := by
  simp only [namespaceSteps, d.fieldText_truncate h, Place.field?_truncate h, symbolIn_truncate,
    List.map_append, Step.map_truncate_emit?, Step.map_truncate_visit?]

/-! ## The name that a record without a tag takes -/

section Renamed

variable {walk : Task → Place → List Symbol}

theorem length_items_emitAll (items : List Symbol) :
    ((Step.emitAll items).flatMap (Step.items walk)).length = items.length := by
  induction items with
  | nil => rfl
  | cons item items ih => exact congrArg (· + 1) ih

theorem length_items_emit? (item : Option Symbol) :
    ((Step.emit? item).flatMap (Step.items walk)).length = item.toList.length :=
  length_items_emitAll item.toList

/-- A record has as many members under any name of the scope around it. -/
theorem length_items_recordSteps {depth : Nat} (name name' : Option String)
    (h : ∀ q ∈ p.children, ∀ (n n' : Option String) (depth : Nat) (access : Visibility),
      (walk (.members ⟨n, depth⟩ access) q).length =
        (walk (.members ⟨n', depth⟩ access) q).length) :
    ((recordSteps d ⟨name, depth⟩ p).flatMap (Step.items walk)).length =
      ((recordSteps d ⟨name', depth⟩ p).flatMap (Step.items walk)).length := by
  unfold recordSteps
  cases d.fieldText p "name" with
  | none => rfl
  | some tag =>
      cases hbody : p.field? "body" with
      | none => rfl
      | some body =>
          have hlength := h body (Place.mem_children_of_field? hbody)
          simp only [List.flatMap_cons, Step.items, Step.visit?, Option.toList_some, List.map_cons,
            List.map_nil, List.flatMap_nil, List.append_nil, List.length_append,
            List.length_singleton, Scope.enter]
          rw [hlength]

theorem length_filterMap_congr {f g : Place → Option Symbol}
    (h : ∀ p, (f p).isSome = (g p).isSome) (places : List Place) :
    (places.filterMap f).length = (places.filterMap g).length := by
  rw [List.length_filterMap_eq_countP, List.length_filterMap_eq_countP]
  simp only [h]

theorem length_enumerators (qualified qualified' : String) (p : Place) :
    (enumerators d qualified p).length = (enumerators d qualified' p).length := by
  unfold enumerators
  cases p.field? "body" with
  | none => rfl
  | some body =>
      refine length_filterMap_congr (fun e => ?_) _
      rw [Option.isSome_map, Option.isSome_map]

theorem length_enumSymbols (owner owner' : Option String) (p : Place) :
    (enumSymbols d owner p).length = (enumSymbols d owner' p).length := by
  unfold enumSymbols
  cases d.fieldText p "name" with
  | none => rfl
  | some name => exact congrArg (· + 1) (length_enumerators d _ _ p)

theorem isSome_function? (owner owner' : Option String) (p : Place) :
    (function? dialect d owner access p).isSome = (function? dialect d owner' access p).isSome := by
  rw [function?_eq_bind, function?_eq_bind]
  cases p.field? "declarator" with
  | none => rfl
  | some f => rw [Option.bind_some, Option.bind_some, Option.isSome_map, Option.isSome_map]

theorem isSome_declared? (owner owner' : Option String) (p c : Place) :
    (declared? dialect d owner access p c).isSome =
      (declared? dialect d owner' access p c).isSome := by
  unfold declared?
  split
  · rw [Option.isSome_map, Option.isSome_map]
  · split
    · rw [Option.isSome_map, Option.isSome_map]
    · rfl

theorem isSome_field? (owner owner' : String) (access : Visibility) (p c : Place) :
    (field? dialect d owner access p c).isSome = (field? dialect d owner' access p c).isSome := by
  unfold field?
  split
  · rw [Option.isSome_map, Option.isSome_map]
  · split
    · rw [Option.isSome_map, Option.isSome_map]
    · rfl

theorem length_toList_congr {item item' : Option Symbol} (h : item.isSome = item'.isSome) :
    item.toList.length = item'.toList.length := by
  cases item <;> cases item' <;> simp_all

/-- A member declares as much under any name of its record. -/
theorem length_items_memberSteps {depth : Nat} {access : Visibility} {m : Place}
    (name name' : Option String)
    (h : ∀ q ∈ m :: m.children, ∀ (n n' : Option String) (depth : Nat) (access : Visibility),
      (walk (.members ⟨n, depth⟩ access) q).length =
        (walk (.members ⟨n', depth⟩ access) q).length) :
    ((memberSteps dialect d ⟨name, depth⟩ access m).flatMap (Step.items walk)).length =
      ((memberSteps dialect d ⟨name', depth⟩ access m).flatMap (Step.items walk)).length := by
  have hrecord : ((recordSteps d ⟨name, depth + 1⟩ m).flatMap (Step.items walk)).length =
      ((recordSteps d ⟨name', depth + 1⟩ m).flatMap (Step.items walk)).length :=
    length_items_recordSteps d name name' fun q hq => h q (List.mem_cons_of_mem _ hq)
  unfold memberSteps
  split
  · rw [length_items_emitAll, length_items_emitAll]
    exact length_filterMap_congr (fun c => isSome_field? dialect d _ _ access m c) _
  · split
    · rw [length_items_emit?, length_items_emit?]
      exact length_toList_congr (isSome_function? dialect d _ _ m)
    · rfl
  · split
    · rw [length_items_emitAll, length_items_emitAll]
      exact length_filterMap_congr (fun c => isSome_declared? dialect d _ _ m c) _
    · rfl
  · simp only [List.flatMap_cons, Step.items, List.flatMap_nil, List.append_nil]
    exact h m List.mem_cons_self name name' (depth + 1) access
  · exact hrecord
  · exact hrecord
  · exact hrecord
  · rw [length_items_emitAll, length_items_emitAll]
    exact length_enumSymbols d _ _ m
  · rfl

end Renamed

/-- A record has as many members under any name. -/
theorem length_walk_members (name name' : Option String) (depth : Nat) (access : Visibility)
    (p : Place) :
    ((rule dialect d).walk (.members ⟨name, depth⟩ access) p).length =
      ((rule dialect d).walk (.members ⟨name', depth⟩ access) p).length := by
  have hdown : (rule dialect d).Descends := rule_descends
  -- A step may go on at a member itself or at one of its children, so the induction is on heights.
  induction hheight : p.node.height using Nat.strong_induction_on
    generalizing p name name' depth access with
  | _ height ih =>
      rw [Rule.walk_eq hdown, Rule.walk_eq hdown, rule, rule]
      split
      · rfl
      · rw [List.flatMap_assoc, List.flatMap_assoc, List.length_flatMap, List.length_flatMap]
        refine congrArg List.sum (List.map_congr_left fun v hv => ?_)
        have hm := Place.height_lt_of_mem_children (mem_withAccess hv)
        refine length_items_memberSteps dialect d name name' fun q hq n n' depth access => ?_
        refine ih q.node.height ?_ n n' depth access q rfl
        rcases List.mem_cons.1 hq with rfl | hq
        · omega
        · have hq := Place.height_lt_of_mem_children hq
          omega

/-! ## Typedefs in the truncated tree -/

/-- The symbol of a typedef of a name. -/
def typedefSymbol (owner : Option String) (p : Place) (name : String) : Symbol :=
  symbolIn d owner p name .typeAlias
    { signature := some
        (Text.replace "  " " " ("typedef " ++ typedefType d (p.field? "type") ++ " " ++ name))
      docstring := documentation d p
      isExported := some (exports d) }

/-- A typedef of a name, and then what its type declares. -/
def typedefAs (s : Scope) (p : Place) (name : String) : List (Step Task Symbol) :=
  .emit (typedefSymbol d s.name p name) ::
    ((p.field? "type").map (typedefBodySteps d s name)).getD []

theorem typedefSteps_eq_getD (s : Scope) (p : Place) :
    typedefSteps d s p = ((typedefName d p).map (typedefAs d s p)).getD [] := by
  unfold typedefSteps
  cases typedefName d p <;> rfl

theorem typedefAs_truncate (name : String) (h : p.level + 3 < levels) :
    typedefAs d s (p.truncate levels) name = (typedefAs d s p name).map (Step.truncate levels) := by
  have hp : p.level < levels := by omega
  have hlevel : ∀ t ∈ p.field? "type", t.level = p.level + 1 := fun t ht => Place.level_of_field? ht
  have htype : typedefType d ((p.field? "type").map (Place.truncate levels)) =
      typedefType d (p.field? "type") :=
    typedefType_truncate d fun t ht => by
      have ht := hlevel t ht
      omega
  simp only [typedefAs, typedefSymbol, Place.field?_truncate hp, htype, documentation_truncate,
    symbolIn_truncate, List.map_cons, Step.truncate]
  refine congrArg _ ?_
  cases ht : p.field? "type" with
  | none => rfl
  | some t =>
      have ht := hlevel t ht
      exact typedefBodySteps_truncate d name (by omega)

theorem typedefSteps_truncate (h : p.level + 3 < levels)
    (hkept : ∀ f ∈ p.field? "declarator", f.IsKept levels) :
    typedefSteps d s (p.truncate levels) = (typedefSteps d s p).map (Step.truncate levels) := by
  rw [typedefSteps_eq_getD, typedefSteps_eq_getD, typedefName_truncate d (by omega) hkept]
  cases typedefName d p with
  | none => rfl
  | some name => exact typedefAs_truncate d name h

/-- Under another name a typedef is another symbol, and a type without a tag hands its members that
name. -/
theorem typedefAs_fades {name name' : String} (h : name' ≠ name) :
    Rule.Fades (rule dialect d) levels ((typedefAs d s p name').map (Step.truncate levels))
      (typedefAs d s p name) := by
  have hsymbol : typedefSymbol d s.name p name' ≠ typedefSymbol d s.name p name :=
    fun heq => h (congrArg Symbol.name heq)
  unfold typedefAs
  rw [List.map_cons]
  cases p.field? "type" with
  | none => exact .emit _ _ .nil
  | some t =>
      rw [Option.map_some, Option.map_some, Option.getD_some, Option.getD_some,
        typedefBodySteps_eq_getD, typedefBodySteps_eq_getD]
      cases t.field? "body" with
      | none => exact .emit _ _ .nil
      | some body =>
          rw [Option.map_some, Option.map_some, Option.getD_some, Option.getD_some]
          unfold bodySteps
          split
          · split
            · exact .emit _ _ (.truncate _)
            · exact .renamed hsymbol (length_walk_members dialect d _ _ _ _ _) .nil
          · split
            · split
              · exact .emit _ _ (.truncate _)
              · rw [Step.map_truncate_emitAll]
                exact .emit _ _ (.emitAll (Nat.le_of_eq (length_enumerators d _ _ t)))
            · exact .emit _ _ .nil

/-- A typedef whose declarator is cut off is lost with all that its type declares, or takes another
name. -/
theorem typedefSteps_fades (h : p.level + 3 < levels) :
    Rule.Fades (rule dialect d) levels (typedefSteps d s (p.truncate levels))
      (typedefSteps d s p) := by
  rw [typedefSteps_eq_getD, typedefSteps_eq_getD]
  cases hname' : typedefName d (p.truncate levels) with
  | none =>
      cases typedefName d p with
      | none => exact .nil
      | some name =>
          have hcut : Rule.Fades (rule dialect d) levels [] (typedefAs d s p name ++ []) :=
            .cut _ _ .nil
          rw [List.append_nil] at hcut
          exact hcut
  | some name' =>
      have hsome := isSome_typedefName_of_truncate d (p := p) (by omega)
        (Option.isSome_of_eq_some hname')
      obtain ⟨name, hname⟩ := Option.isSome_iff_exists.1 hsome
      rw [hname, Option.map_some, Option.map_some, Option.getD_some, Option.getD_some,
        typedefAs_truncate d name' h]
      -- The declarator may say another name where its innermost part is cut off.
      by_cases heq : name' = name
      · rw [heq]
        exact .truncate _
      · exact typedefAs_fades dialect d heq

/-! ## Steps in the truncated tree -/

/-- The declarators that a child is read by. -/
def declarators (c : Place) : List Place :=
  match c.kind with
  | "function_definition" | "type_definition" => (c.field? "declarator").toList
  | "declaration" | "field_declaration" => c.children
  | "class_interface" | "class_implementation" | "protocol_declaration" => [c]
  | _ => []

/-- Declarations of a dialect that fade, and are kept with the place that holds them. -/
structure Dialect.Fades (dialect : Dialect) : Prop where
  isSome : ∀ (d : Document) (levels : Nat) (c : Place),
    (dialect.extra d (c.truncate levels)).isSome = (dialect.extra d c).isSome
  fades : ∀ (d : Document) {levels : Nat} {c : Place}, c.level + 5 < levels →
    ∀ ys' ∈ dialect.extra d (c.truncate levels), ∀ ys ∈ dialect.extra d c, ys'.length ≤ ys.length
  kept : ∀ (d : Document) {levels : Nat} {c : Place}, c.level + 5 < levels →
    (∀ q ∈ declarators c, q.IsKept levels) →
    dialect.extra d (c.truncate levels) = dialect.extra d c

theorem childSteps_truncate (h : c.level + 3 < levels)
    (hkept : ∀ q ∈ declarators c, q.IsKept levels) :
    childSteps dialect d s (c.truncate levels) =
      (childSteps dialect d s c).map (Step.truncate levels) := by
  have hc : c.level < levels := by omega
  unfold declarators at hkept
  unfold childSteps
  rw [Place.kind_truncate]
  split
  case h_1 hkind =>
    simp only [hkind, Option.mem_toList] at hkept
    rw [function?_truncate dialect d hc hkept, Step.map_truncate_emit?]
  case h_2 hkind =>
    simp only [hkind] at hkept
    rw [declaration_truncate dialect d hc hkept, Step.map_truncate_emitAll]
  case h_3 | h_4 | h_5 => exact recordSteps_truncate d hc
  case h_6 => rw [enumSymbols_truncate d (by omega), Step.map_truncate_emitAll]
  case h_7 hkind =>
    simp only [hkind, Option.mem_toList] at hkept
    exact typedefSteps_truncate d h hkept
  case h_8 => exact namespaceSteps_truncate d hc
  case h_9 => split <;> rfl

/-- What a child declares fades: only what declarators declare may change or be lost. -/
theorem childSteps_fades (h : c.level + 3 < levels) (htells : ∀ q ∈ c.children, TellsFunction q) :
    Rule.Fades (rule dialect d) levels (childSteps dialect d s (c.truncate levels))
      (childSteps dialect d s c) := by
  have hc : c.level < levels := by omega
  unfold childSteps
  rw [Place.kind_truncate]
  split
  case h_1 => exact .emit?_of_or (function?_truncate_or dialect d hc)
  case h_2 => exact declaration_fades dialect d hc htells
  case h_3 | h_4 | h_5 =>
    rw [recordSteps_truncate d hc]
    exact .truncate _
  case h_6 =>
    rw [enumSymbols_truncate d (by omega)]
    exact .emitAll (Nat.le_refl _)
  case h_7 => exact typedefSteps_fades dialect d h
  case h_8 =>
    rw [namespaceSteps_truncate d hc]
    exact .truncate _
  case h_9 =>
    split
    · exact .visit _ _ .nil
    · exact .nil

theorem memberSteps_truncate {access : Visibility} (h : c.level + 2 < levels)
    (hkept : ∀ q ∈ declarators c, q.IsKept levels) :
    memberSteps dialect d s access (c.truncate levels) =
      (memberSteps dialect d s access c).map (Step.truncate levels) := by
  have hc : c.level < levels := by omega
  unfold declarators at hkept
  unfold memberSteps
  rw [Place.kind_truncate]
  split
  case h_1 hkind =>
    simp only [hkind] at hkept
    dsimp only
    rw [fields_truncate dialect d hc hkept, Step.map_truncate_emitAll]
  case h_2 hkind =>
    simp only [hkind, Option.mem_toList] at hkept
    split
    · rw [function?_truncate dialect d hc hkept, Step.map_truncate_emit?]
    · rfl
  case h_3 hkind =>
    simp only [hkind] at hkept
    split
    · rw [declaration_truncate dialect d hc hkept, Step.map_truncate_emitAll]
    · rfl
  case h_4 => rfl
  case h_5 | h_6 | h_7 => exact recordSteps_truncate d hc
  case h_8 => rw [enumSymbols_truncate d h, Step.map_truncate_emitAll]
  case h_9 => rfl

theorem memberSteps_fades {access : Visibility} (h : c.level + 2 < levels)
    (htells : ∀ q ∈ c.children, TellsFunction q) :
    Rule.Fades (rule dialect d) levels (memberSteps dialect d s access (c.truncate levels))
      (memberSteps dialect d s access c) := by
  have hc : c.level < levels := by omega
  unfold memberSteps
  rw [Place.kind_truncate]
  split
  case h_1 => exact fields_fades dialect d hc htells
  case h_2 =>
    split
    · exact .emit?_of_or (function?_truncate_or dialect d hc)
    · exact .nil
  case h_3 =>
    split
    · exact declaration_fades dialect d hc htells
    · exact .nil
  case h_4 => exact .visit _ _ .nil
  case h_5 | h_6 | h_7 =>
    rw [recordSteps_truncate d hc]
    exact .truncate _
  case h_8 =>
    rw [enumSymbols_truncate d h]
    exact .emitAll (Nat.le_refl _)
  case h_9 => exact .nil

/-- The members of a body have the same access in the truncated tree. -/
theorem withAccess_truncate (access : Visibility) (places : List Place) :
    withAccess d access (places.map (Place.truncate levels)) =
      (withAccess d access places).map fun v => (v.1, v.2.truncate levels) := by
  induction places generalizing access with
  | nil => rfl
  | cons m rest ih =>
      simp only [List.map_cons, withAccess, Place.kind_truncate, d.text_truncate, ih]

/-! ## How far the rule goes down -/

/-- A place of the tree that a task can have come to. -/
def Reaches (tree : Node) (task : Task) (p : Place) : Prop :=
  p ∈ (Place.root tree).subtree ∧ p.level ≤ 3 * task.scope.depth

section Reach

variable {tree : Node} (hc : c ∈ (Place.root tree).subtree)
include hc

theorem goOn_recordSteps (h : c.level ≤ 3 * s.depth + 2) :
    Step.GoOn (Reaches tree) (recordSteps d s c) := by
  unfold recordSteps
  split
  · exact Step.goOn_nil
  · rw [Step.goOn_emit_cons, Step.goOn_visit?]
    intro q hq
    have hlevel := Place.level_of_field? hq
    refine ⟨Place.mem_subtree_of_field? hc hq, ?_⟩
    show q.level ≤ 3 * (s.depth + 1)
    omega

theorem goOn_typedefSteps (h : c.level ≤ 3 * s.depth + 1) :
    Step.GoOn (Reaches tree) (typedefSteps d s c) := by
  rw [typedefSteps_eq_getD, Step.goOn_getD]
  refine ⟨fun steps hsteps => ?_, fun _ => Step.goOn_nil⟩
  obtain ⟨name, -, rfl⟩ := Option.map_eq_some_iff.1 hsteps
  rw [typedefAs, Step.goOn_emit_cons, Step.goOn_getD]
  refine ⟨fun steps hsteps => ?_, fun _ => Step.goOn_nil⟩
  obtain ⟨t, ht, rfl⟩ := Option.map_eq_some_iff.1 hsteps
  have htTree := Place.mem_subtree_of_field? hc ht
  have htLevel := Place.level_of_field? ht
  rw [typedefBodySteps_eq_getD, Step.goOn_getD]
  refine ⟨fun steps hsteps => ?_, fun _ => Step.goOn_nil⟩
  obtain ⟨body, hbody, rfl⟩ := Option.map_eq_some_iff.1 hsteps
  have hlevel := Place.level_of_field? hbody
  unfold bodySteps
  split
  · split
    · refine goOn_recordSteps d htTree ?_
      show t.level ≤ 3 * (s.depth + 1) + 2
      omega
    · rw [Step.goOn_visit_cons]
      refine ⟨⟨Place.mem_subtree_of_field? htTree hbody, ?_⟩, Step.goOn_nil⟩
      show body.level ≤ 3 * (s.depth + 1)
      omega
  · split
    · split
      · exact Step.goOn_emitAll
      · exact Step.goOn_emitAll
    · exact Step.goOn_nil

theorem goOn_childSteps (h : c.level ≤ 3 * s.depth + 1) :
    Step.GoOn (Reaches tree) (childSteps dialect d s c) := by
  unfold childSteps
  split
  case h_1 => exact Step.goOn_emit?
  case h_2 | h_6 => exact Step.goOn_emitAll
  case h_3 | h_4 | h_5 => exact goOn_recordSteps d hc (by omega)
  case h_7 => exact goOn_typedefSteps d hc h
  case h_8 =>
    rw [namespaceSteps, Step.goOn_append, Step.goOn_visit?]
    refine ⟨Step.goOn_emit?, fun q hq => ⟨Place.mem_subtree_of_field? hc hq, ?_⟩⟩
    have hlevel := Place.level_of_field? hq
    show q.level ≤ 3 * (s.depth + 1)
    omega
  case h_9 =>
    split
    · rw [Step.goOn_visit_cons]
      refine ⟨⟨hc, ?_⟩, Step.goOn_nil⟩
      show c.level ≤ 3 * (s.depth + 1)
      omega
    · exact Step.goOn_nil

theorem goOn_memberSteps {access : Visibility} (h : c.level ≤ 3 * s.depth + 1) :
    Step.GoOn (Reaches tree) (memberSteps dialect d s access c) := by
  unfold memberSteps
  split
  case h_1 | h_8 => exact Step.goOn_emitAll
  case h_2 =>
    split
    · exact Step.goOn_emit?
    · exact Step.goOn_nil
  case h_3 =>
    split
    · exact Step.goOn_emitAll
    · exact Step.goOn_nil
  case h_4 =>
    rw [Step.goOn_visit_cons]
    refine ⟨⟨hc, ?_⟩, Step.goOn_nil⟩
    show c.level ≤ 3 * (s.depth + 1)
    omega
  case h_5 | h_6 | h_7 =>
    refine goOn_recordSteps d hc ?_
    show c.level ≤ 3 * (s.depth + 1) + 2
    omega
  case h_9 => exact Step.goOn_nil

end Reach

/-- What a task reaches, the tasks that it leads to reach in their turn. -/
theorem reaches_of_visit {tree : Node} {task task' : Task} {p q : Place} (hp : Reaches tree task p)
    (h : Step.visit task' q ∈ rule dialect d task p) : Reaches tree task' q := by
  obtain ⟨hpTree, hpLevel⟩ := hp
  cases task with
  | inside s =>
      rw [rule] at h
      split at h
      · cases h
      · obtain ⟨c, hc, h⟩ := List.mem_flatMap.1 h
        have hlevel := Place.level_of_mem_children hc
        have hcTree := Place.mem_subtree_of_mem_children hpTree hc
        have hcLevel : c.level ≤ 3 * s.depth + 1 := by
          change p.level ≤ 3 * s.depth at hpLevel
          omega
        cases hextra : dialect.extra d c with
        | none =>
            rw [hextra] at h
            exact goOn_childSteps dialect d hcTree hcLevel task' q h
        | some ys =>
            rw [hextra] at h
            exact absurd h (Step.visit_notMem_emitAll ys)
  | members s access =>
      rw [rule] at h
      split at h
      · cases h
      · obtain ⟨v, hv, h⟩ := List.mem_flatMap.1 h
        have hm := mem_withAccess hv
        have hlevel := Place.level_of_mem_children hm
        have hmTree := Place.mem_subtree_of_mem_children hpTree hm
        have hmLevel : v.2.level ≤ 3 * s.depth + 1 := by
          change p.level ≤ 3 * s.depth at hpLevel
          omega
        exact goOn_memberSteps dialect d hmTree hmLevel task' q h

/-! ## The walk over the truncated tree -/

/-- May a walk lose something at a place when the tree is truncated?  That can only happen where a
declarator of a child reaches below the last level. -/
def isExposed (levels : Nat) : Task × Place → Bool
  | (_, p) => p.children.any fun c => (declarators c).any fun q => !decide (q.IsKept levels)

theorem isKept_of_not_isExposed {task : Task} (h : isExposed levels (task, p) = false)
    (hc : c ∈ p.children) : ∀ q ∈ declarators c, q.IsKept levels := by
  intro q hq
  have hnone := List.any_eq_false.1 (Bool.not_eq_true _ ▸ List.any_eq_false.1 h c hc) q hq
  simpa using hnone

/-- What the grammar promises of a tree: a declarator that holds that of a function declares it. -/
def TellsFunctions (tree : Node) : Prop :=
  ∀ q ∈ (Place.root tree).subtree, TellsFunction q

instance (tree : Node) : Decidable (TellsFunctions tree) :=
  inferInstanceAs (Decidable (∀ q ∈ _, _))

theorem lt_keptLevels {depth : Nat} (hp : p.level ≤ 3 * depth)
    (hdepth : ¬ d.tooDeep depth = true) : p.level < d.keptLevels := by
  have hreach : p.level ≤ 3 * depth + 1 := Nat.le_succ_of_le hp
  exact d.lt_keptLevels hreach hdepth

/-- A walk that is not too deep finds what stands up to six levels below a place in the truncated
tree. -/
theorem add_lt_keptLevels {depth : Nat} (hp : p.level ≤ 3 * depth)
    (hdepth : ¬ d.tooDeep depth = true) (hc : c ∈ p.children) : c.level + 5 < d.keptLevels := by
  have hreach : p.level ≤ 3 * depth + 1 := by omega
  have hlevel := d.level_add_lt_keptLevels hreach hdepth hc
  omega

variable {dialect}

theorem fadesOn (hdialect : dialect.Fades) {tree : Node} (htells : TellsFunctions tree) :
    Rule.FadesOn (rule dialect d) d.keptLevels (Reaches tree) where
  descends := rule_descends
  step := reaches_of_visit dialect d
  fades := by
    rintro task p ⟨hpTree, hpLevel⟩
    have htells : ∀ c ∈ p.children, ∀ q ∈ c.children, TellsFunction q := fun c hc q hq =>
      htells q (Place.mem_subtree_of_mem_children (Place.mem_subtree_of_mem_children hpTree hc) hq)
    cases task with
    | inside s =>
        rw [rule, rule]
        split
        · exact .nil
        · rename_i hdepth
          have hroom : ∀ c ∈ p.children, c.level + 5 < d.keptLevels :=
            fun c hc => add_lt_keptLevels d hpLevel hdepth hc
          have hp := lt_keptLevels d hpLevel hdepth
          rw [Place.children_truncate hp, List.flatMap_map]
          refine .flatMap fun c hc => ?_
          -- A child that the dialect reads is left to it in both trees.
          have hsome := hdialect.isSome d d.keptLevels c
          have hfades := hdialect.fades d (hroom c hc)
          cases hextra : dialect.extra d c with
          | none =>
              rw [hextra, Option.isSome_none, Option.isSome_eq_false_iff,
                Option.isNone_iff_eq_none] at hsome
              rw [hsome]
              have hlevel := hroom c hc
              exact childSteps_fades dialect d (by omega) (htells c hc)
          | some ys =>
              rw [hextra, Option.isSome_some, Option.isSome_iff_exists] at hsome
              obtain ⟨ys', hextra'⟩ := hsome
              rw [hextra']
              exact .emitAll (hfades ys' hextra' ys hextra)
    | members s access =>
        rw [rule, rule]
        split
        · exact .nil
        · rename_i hdepth
          have hp := lt_keptLevels d hpLevel hdepth
          rw [Place.children_truncate hp, withAccess_truncate, List.flatMap_map]
          refine .flatMap fun v hv => ?_
          have hm := mem_withAccess hv
          have hlevel := add_lt_keptLevels d hpLevel hdepth hm
          exact memberSteps_fades dialect d (by omega) (htells v.2 hm)

/-- A place that is not exposed asks for the same in the truncated tree. -/
theorem rule_truncate (hdialect : dialect.Fades) {tree : Node} {task : Task}
    (hp : Reaches tree task p) (h : isExposed d.keptLevels (task, p) = false) :
    rule dialect d task (p.truncate d.keptLevels) =
      (rule dialect d task p).map (Step.truncate d.keptLevels) := by
  obtain ⟨-, hpLevel⟩ := hp
  cases task with
  | inside s =>
      rw [rule, rule]
      split
      · rfl
      · rename_i hdepth
        have hp := lt_keptLevels d hpLevel hdepth
        rw [Place.children_truncate hp, List.flatMap_map, List.map_flatMap]
        refine List.flatMap_congr fun c hc => ?_
        have hlevel := add_lt_keptLevels d hpLevel hdepth hc
        have hkept := isKept_of_not_isExposed h hc
        rw [hdialect.kept d hlevel hkept, childSteps_truncate dialect d (by omega) hkept]
        cases dialect.extra d c with
        | none => rfl
        | some ys => exact (Step.map_truncate_emitAll _ ys).symm
  | members s access =>
      rw [rule, rule]
      split
      · rfl
      · rename_i hdepth
        have hp := lt_keptLevels d hpLevel hdepth
        rw [Place.children_truncate hp, withAccess_truncate, List.flatMap_map, List.map_flatMap]
        refine List.flatMap_congr fun v hv => ?_
        have hm := mem_withAccess hv
        have hlevel := add_lt_keptLevels d hpLevel hdepth hm
        exact memberSteps_truncate dialect d (by omega) (isKept_of_not_isExposed h hm)

/-- At every exposed place to which the walk comes it hands out the same when the tree is truncated
to the kept levels. -/
def LosesNothing (dialect : Dialect) (d : Document) (tree : Node) : Prop :=
  ∀ v ∈ (rule dialect d).visits (.inside {}) (.root tree), isExposed d.keptLevels v = true →
    (rule dialect d).handsOut v.1 (v.2.truncate d.keptLevels) = (rule dialect d).handsOut v.1 v.2

/-- The symbols of a file are the same in the truncated tree, exactly when every exposed place hands
out the same. -/
theorem walk_truncate_iff (hdialect : dialect.Fades) {tree : Node} (htells : TellsFunctions tree) :
    symbols dialect d (.root (tree.truncate d.keptLevels)) = symbols dialect d (.root tree) ↔
      LosesNothing dialect d tree := by
  have hstart : Reaches tree (.inside {}) (.root tree) :=
    ⟨Place.self_mem_subtree _, Nat.zero_le _⟩
  exact (fadesOn d hdialect htells).walk_eq_iff_of_exposed (isExposed d.keptLevels)
    (fun hp h => Rule.handsOut_truncate (rule_truncate d hdialect hp h)) hstart

end Declarations.C

end SourceIndex
