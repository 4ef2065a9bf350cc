import SourceIndex.Proofs.Declarations.Depth.C

/-!
# How deep declarations in Objective-C are looked for

Classes, protocols and methods are read off the levels nearby.  The name of a property or an
instance variable is looked for in its declarator, or else among the names up to eight levels below.
With that, what the limit cuts off is known for all languages of the family.
-/

namespace SourceIndex

namespace Idiom.ObjC

variable (d : Document) {levels : Nat} {p : Place}

theorem categoryName_truncate (h : p.level < levels) :
    categoryName d (p.truncate levels) = categoryName d p := by
  simp only [categoryName, Place.children_truncate h, List.takeWhile_map, List.dropWhile_map,
    List.find?_map, Option.map_map, Function.comp_def, Place.kind_truncate, d.text_truncate]

theorem className_truncate (h : p.level + 1 < levels) :
    className d (p.truncate levels) = className d p := by
  rw [className, d.childText_truncate h, categoryName_truncate d (by omega), className]

theorem superclassName_truncate (h : p.level < levels) :
    superclassName d (p.truncate levels) = superclassName d p := by
  simp only [superclassName, Place.hasChild_truncate h, d.fieldText_truncate h,
    Place.children_truncate h, List.dropWhile_map, List.find?_map, Option.map_map,
    Function.comp_def, Place.kind_truncate, Place.isOneOf_truncate, d.text_truncate]

theorem protocolNames_truncate (h : p.level + 1 < levels) :
    protocolNames d (p.truncate levels) = protocolNames d p := by
  rw [protocolNames, Place.childOfAny?_truncate (by omega), protocolNames]
  cases hlist : p.childOfAny? ["parameterized_arguments", "protocol_qualifiers"] with
  | none => rfl
  | some list =>
      have hlevel := Place.level_of_mem_children (Place.mem_children_of_childOfAny? hlist)
      simp only [Option.map_some]
      rw [Place.children_truncate (by omega), List.filter_map, List.map_map]
      simp only [Function.comp_def, Place.isOneOf_truncate, d.text_truncate]

/-- A selector is spelled by kinds and texts, which the children keep. -/
theorem selectorFrom_truncate (parts : List String) (places : List Place) :
    selectorFrom d parts (places.map (Place.truncate levels)) = selectorFrom d parts places := by
  induction hlength : places.length using Nat.strong_induction_on generalizing parts places with
  | _ length ih =>
      cases places with
      | nil => rfl
      | cons c rest =>
          rw [List.length_cons] at hlength
          have hrest := fun parts => ih rest.length (by omega) parts rest rfl
          rw [List.map_cons, selectorFrom_cons, selectorFrom_cons, Place.kind_truncate,
            d.text_truncate, List.head?_map, Option.any_map, hrest, hrest]
          simp only [Place.kind_truncate]
          cases rest with
          | nil => rfl
          | cons n rest' =>
              rw [List.length_cons] at hlength
              have hrest' := fun parts => ih rest'.length (by omega) parts rest' rfl
              rw [List.map_cons] at hrest
              simp only [List.map_cons, Place.kind_truncate, d.text_truncate, hrest', hrest]

theorem selector_truncate (h : p.level < levels) :
    selector d (p.truncate levels) = selector d p := by
  rw [selector, Place.children_truncate h, selectorFrom_truncate, selector]

end Idiom.ObjC

namespace Declarations.ObjC

open SourceIndex.Idiom.ObjC
open SourceIndex.Idiom.C (declaratorName)

variable (d : Document) {levels : Nat} {p : Place}

theorem returnType_truncate (h : p.level + 1 < levels) :
    returnType d (p.truncate levels) = returnType d p := by
  rw [returnType, Place.childOf?_truncate (by omega), returnType]
  cases htype : p.childOf? "method_type" with
  | none => rfl
  | some t =>
      have hlevel := Place.level_of_childOf? htype
      rw [Option.map_some, Option.bind_some, Option.bind_some, Place.childOf?_truncate (by omega),
        Option.map_map]
      simp only [Function.comp_def, d.text_truncate]

theorem method?_truncate (owner : String) (declared : Bool) (h : p.level + 1 < levels) :
    method? d owner declared (p.truncate levels) = method? d owner declared p := by
  have hp : p.level < levels := by omega
  simp only [method?, selector_truncate d hp, Place.children_truncate hp, List.any_map,
    Function.comp_def, d.text_truncate, returnType_truncate d h, d.symbol_truncate]

/-! ## Names that are looked for in declarators -/

theorem isSome_firstName_of_truncate (h : (firstName d (p.truncate levels)).isSome) :
    (firstName d p).isSome := by
  rw [firstName, Option.isSome_or, Bool.or_eq_true] at h ⊢
  refine h.imp (Idiom.C.isSome_declaratorName_of_truncate d) fun hname => ?_
  rw [Option.isSome_map] at hname ⊢
  obtain ⟨q', hq'⟩ := Option.isSome_iff_exists.1 hname
  obtain ⟨q, hq, rfl⟩ := Place.exists_of_mem_descendants_truncate (List.mem_of_find?_eq_some hq')
  rw [Place.descendantOfAny?, List.find?_isSome]
  have hkind := List.find?_some hq'
  rw [Place.isOneOf_truncate] at hkind
  exact ⟨q, hq, hkind⟩

theorem firstName_truncate (h : p.IsKept levels) :
    firstName d (p.truncate levels) = firstName d p := by
  rw [firstName, Idiom.C.declaratorName_truncate d h, Place.descendantOfAny?,
    h.descendants_truncate, List.find?_map, Option.map_map, firstName, Place.descendantOfAny?]
  simp only [Function.comp_def, Place.isOneOf_truncate, d.text_truncate]

theorem length_flatMap_le {α β : Type} {f f' : α → List β} {xs : List α}
    (h : ∀ x ∈ xs, (f' x).length ≤ (f x).length) :
    (xs.flatMap f').length ≤ (xs.flatMap f).length := by
  induction xs with
  | nil => exact Nat.le_refl _
  | cons x xs ih =>
      have hfirst := h x List.mem_cons_self
      have hrest := ih fun y hy => h y (List.mem_cons_of_mem _ hy)
      rw [List.flatMap_cons, List.flatMap_cons, List.length_append, List.length_append]
      omega

theorem length_declaredNames_truncate_le (h : p.level + 1 < levels) :
    (declaredNames d (p.truncate levels)).length ≤ (declaredNames d p).length := by
  rw [declaredNames, Place.childrenOf_truncate (by omega), List.flatMap_map, declaredNames]
  refine length_flatMap_le fun declaration hdeclaration => ?_
  have hlevel := Place.level_of_mem_children (List.mem_filter.1 hdeclaration).1
  rw [Place.childrenOf_truncate (by omega), List.filterMap_map, List.length_filterMap_eq_countP,
    List.length_filterMap_eq_countP]
  refine List.countP_mono_left fun c _ hsome => ?_
  rw [Function.comp_apply, Option.isSome_map] at hsome
  rw [Option.isSome_map]
  exact isSome_firstName_of_truncate d hsome

theorem declaredNames_truncate (h : p.level + 1 < levels) (hkept : p.IsKept levels) :
    declaredNames d (p.truncate levels) =
      (declaredNames d p).map fun v => (v.1.truncate levels, v.2) := by
  rw [declaredNames, Place.childrenOf_truncate (by omega), List.flatMap_map, declaredNames,
    List.map_flatMap]
  refine List.flatMap_congr fun declaration hdeclaration => ?_
  have hdeclaration := (List.mem_filter.1 hdeclaration).1
  have hlevel := Place.level_of_mem_children hdeclaration
  rw [Place.childrenOf_truncate (by omega), List.filterMap_map, List.map_filterMap]
  refine List.filterMap_congr fun c hc => ?_
  have hc := (hkept.child hdeclaration).child (List.mem_filter.1 hc).1
  rw [Function.comp_apply, firstName_truncate d hc, Option.map_map]
  rfl

theorem properties_truncate (owner : String) (h : p.level + 1 < levels) (hkept : p.IsKept levels) :
    properties d owner (p.truncate levels) = properties d owner p := by
  simp only [properties, declaredNames_truncate d h hkept, d.text_truncate, d.symbol_truncate,
    List.map_map, Function.comp_def]

theorem length_properties_truncate_le (owner : String) (h : p.level + 1 < levels) :
    (properties d owner (p.truncate levels)).length ≤ (properties d owner p).length := by
  simp only [properties, List.length_map]
  exact length_declaredNames_truncate_le d h

theorem instanceVariables_truncate (owner : String) (h : p.level + 2 < levels)
    (hkept : p.IsKept levels) :
    instanceVariables d owner (p.truncate levels) = instanceVariables d owner p := by
  rw [instanceVariables, Place.childrenOf_truncate (by omega), List.flatMap_map, List.map_flatMap,
    instanceVariables, List.map_flatMap]
  refine List.flatMap_congr fun c hc => ?_
  have hc := (List.mem_filter.1 hc).1
  have hlevel := Place.level_of_mem_children hc
  rw [declaredNames_truncate d (by omega) (hkept.child hc), List.map_map]
  simp only [Function.comp_def, d.symbol_truncate]

theorem length_instanceVariables_truncate_le (owner : String) (h : p.level + 2 < levels) :
    (instanceVariables d owner (p.truncate levels)).length ≤
      (instanceVariables d owner p).length := by
  rw [instanceVariables, Place.childrenOf_truncate (by omega), List.flatMap_map, List.length_map,
    instanceVariables, List.length_map]
  refine length_flatMap_le fun c hc => length_declaredNames_truncate_le d ?_
  have hlevel := Place.level_of_mem_children (List.mem_filter.1 hc).1
  omega

/-! ## Classes and protocols -/

/-- What one child of an interface declares. -/
def interfaceMember (name : String) (c : Place) : List Symbol :=
  match c.kind with
  | "method_declaration" => (method? d name true c).toList
  | "property_declaration" => properties d name c
  | "instance_variables" => instanceVariables d name c
  | _ => []

/-- What one child of an implementation declares. -/
def implementationMember (name : String) (c : Place) : List Symbol :=
  match c.kind with
  | "implementation_definition" =>
      (c.childrenOf "method_definition").filterMap (method? d name false)
  | "method_definition" => (method? d name false c).toList
  | "instance_variables" => instanceVariables d name c
  | _ => []

theorem interfaceMember_truncate (name : String) (h : p.level + 3 < levels)
    (hkept : p.IsKept levels) :
    interfaceMember d name (p.truncate levels) = interfaceMember d name p := by
  unfold interfaceMember
  rw [Place.kind_truncate, method?_truncate d name true (by omega),
    properties_truncate d name (by omega) hkept,
    instanceVariables_truncate d name (by omega) hkept]

theorem length_interfaceMember_truncate_le (name : String) (h : p.level + 3 < levels) :
    (interfaceMember d name (p.truncate levels)).length ≤ (interfaceMember d name p).length := by
  unfold interfaceMember
  rw [Place.kind_truncate]
  split
  · rw [method?_truncate d name true (by omega)]
  · exact length_properties_truncate_le d name (by omega)
  · exact length_instanceVariables_truncate_le d name (by omega)
  · exact Nat.le_refl _

theorem methods_truncate (kind owner : String) (declared : Bool) (h : p.level + 2 < levels) :
    ((p.truncate levels).childrenOf kind).filterMap (method? d owner declared) =
      (p.childrenOf kind).filterMap (method? d owner declared) := by
  rw [Place.childrenOf_truncate (by omega), List.filterMap_map]
  refine List.filterMap_congr fun m hm => ?_
  have hlevel := Place.level_of_mem_children (List.mem_filter.1 hm).1
  exact method?_truncate d owner declared (by omega)

theorem implementationMember_truncate (name : String) (h : p.level + 3 < levels)
    (hkept : p.IsKept levels) :
    implementationMember d name (p.truncate levels) = implementationMember d name p := by
  unfold implementationMember
  rw [Place.kind_truncate, methods_truncate d _ name false (by omega),
    method?_truncate d name false (by omega), instanceVariables_truncate d name (by omega) hkept]

theorem length_implementationMember_truncate_le (name : String) (h : p.level + 3 < levels) :
    (implementationMember d name (p.truncate levels)).length ≤
      (implementationMember d name p).length := by
  unfold implementationMember
  rw [Place.kind_truncate]
  split
  · rw [methods_truncate d _ name false (by omega)]
  · rw [method?_truncate d name false (by omega)]
  · exact length_instanceVariables_truncate_le d name (by omega)
  · exact Nat.le_refl _

/-- The symbol of an interface. -/
def interfaceSymbol (p : Place) (name : String) : Symbol :=
  let base := ((superclassName d p).map (" : " ++ ·)).getD ""
  let protocols := protocolNames d p
  let adopted := if protocols.isEmpty then "" else " <" ++ ", ".intercalate protocols ++ ">"
  d.symbol p name .class
    { signature := some ("@interface " ++ name ++ base ++ adopted)
      docstring := Idiom.C.documentation d p }

/-- The symbol of an implementation. -/
def implementationSymbol (p : Place) (name : String) : Symbol :=
  d.symbol p name .class
    { signature := some ("@implementation " ++ name), isExported := some false }

theorem interfaceSymbols_eq (p : Place) :
    interfaceSymbols d p = ((className d p).map fun name =>
      interfaceSymbol d p name :: p.children.flatMap (interfaceMember d name)).getD [] := by
  unfold interfaceSymbols
  cases className d p <;> rfl

theorem implementationSymbols_eq (p : Place) :
    implementationSymbols d p = ((className d p).map fun name =>
      implementationSymbol d p name ::
        p.children.flatMap (implementationMember d name)).getD [] := by
  unfold implementationSymbols
  cases className d p <;> rfl

theorem interfaceSymbol_truncate (name : String) (h : p.level + 1 < levels) :
    interfaceSymbol d (p.truncate levels) name = interfaceSymbol d p name := by
  have hp : p.level < levels := by omega
  simp only [interfaceSymbol, superclassName_truncate d hp, protocolNames_truncate d h,
    Idiom.C.documentation_truncate, d.symbol_truncate]

theorem protocolSymbols_truncate (h : p.level + 2 < levels) :
    protocolSymbols d (p.truncate levels) = protocolSymbols d p := by
  have hname : ((p.truncate levels).childOf? "identifier").map d.text =
      (p.childOf? "identifier").map d.text := by
    rw [Place.childOf?_truncate (by omega), Option.map_map]
    simp only [Function.comp_def, d.text_truncate]
  simp only [protocolSymbols, hname, d.symbol_truncate, Idiom.C.documentation_truncate,
    methods_truncate d _ _ true h]

/-- A class is the same in the truncated tree if all that stands in it is kept. -/
theorem interfaceSymbols_truncate (h : p.level + 4 < levels) (hkept : p.IsKept levels) :
    interfaceSymbols d (p.truncate levels) = interfaceSymbols d p := by
  rw [interfaceSymbols_eq, interfaceSymbols_eq, className_truncate d (by omega)]
  cases className d p with
  | none => rfl
  | some name =>
      rw [Option.map_some, Option.map_some, Option.getD_some, Option.getD_some,
        interfaceSymbol_truncate d name (by omega), Place.children_truncate (by omega),
        List.flatMap_map]
      refine congrArg _ (List.flatMap_congr fun c hc => ?_)
      have hlevel := Place.level_of_mem_children hc
      exact interfaceMember_truncate d name (by omega) (hkept.child hc)

theorem length_interfaceSymbols_truncate_le (h : p.level + 4 < levels) :
    (interfaceSymbols d (p.truncate levels)).length ≤ (interfaceSymbols d p).length := by
  rw [interfaceSymbols_eq, interfaceSymbols_eq, className_truncate d (by omega)]
  cases className d p with
  | none => exact Nat.le_refl _
  | some name =>
      rw [Option.map_some, Option.map_some, Option.getD_some, Option.getD_some,
        Place.children_truncate (by omega), List.flatMap_map]
      refine Nat.succ_le_succ (length_flatMap_le fun c hc => ?_)
      have hlevel := Place.level_of_mem_children hc
      exact length_interfaceMember_truncate_le d name (by omega)

theorem implementationSymbols_truncate (h : p.level + 4 < levels) (hkept : p.IsKept levels) :
    implementationSymbols d (p.truncate levels) = implementationSymbols d p := by
  rw [implementationSymbols_eq, implementationSymbols_eq, className_truncate d (by omega)]
  cases className d p with
  | none => rfl
  | some name =>
      rw [Option.map_some, Option.map_some, Option.getD_some, Option.getD_some,
        implementationSymbol, d.symbol_truncate, Place.children_truncate (by omega),
        List.flatMap_map]
      refine congrArg _ (List.flatMap_congr fun c hc => ?_)
      have hlevel := Place.level_of_mem_children hc
      exact implementationMember_truncate d name (by omega) (hkept.child hc)

theorem length_implementationSymbols_truncate_le (h : p.level + 4 < levels) :
    (implementationSymbols d (p.truncate levels)).length ≤ (implementationSymbols d p).length := by
  rw [implementationSymbols_eq, implementationSymbols_eq, className_truncate d (by omega)]
  cases className d p with
  | none => exact Nat.le_refl _
  | some name =>
      rw [Option.map_some, Option.map_some, Option.getD_some, Option.getD_some,
        Place.children_truncate (by omega), List.flatMap_map]
      refine Nat.succ_le_succ (length_flatMap_le fun c hc => ?_)
      have hlevel := Place.level_of_mem_children hc
      exact length_implementationMember_truncate_le d name (by omega)

/-- The declarations of Objective-C fade. -/
theorem dialect_fades : dialect.Fades where
  isSome := by
    intro d levels c
    simp only [dialect, Place.kind_truncate]
    split <;> rfl
  fades := by
    intro d levels c h ys' hys' ys hys
    simp only [dialect, Place.kind_truncate] at hys' hys
    split at hys <;> rename_i hkind <;> simp only [hkind] at hys'
    · cases hys'
      cases hys
      exact length_interfaceSymbols_truncate_le d (by omega)
    · cases hys'
      cases hys
      exact length_implementationSymbols_truncate_le d (by omega)
    · cases hys'
      cases hys
      rw [protocolSymbols_truncate d (by omega)]
    · cases hys
  kept := by
    intro d levels c h hkept
    simp only [dialect, Place.kind_truncate]
    unfold C.declarators at hkept
    split <;> rename_i hkind
    · simp only [hkind, List.mem_singleton, forall_eq] at hkept
      rw [interfaceSymbols_truncate d (by omega) hkept]
    · simp only [hkind, List.mem_singleton, forall_eq] at hkept
      rw [implementationSymbols_truncate d (by omega) hkept]
    · rw [protocolSymbols_truncate d (by omega)]
    · rfl

end Declarations.ObjC

/-! ## The languages of the family

The limit on the depth of a walk bounds what is looked at for the declarations of a file in C, C++
or Objective-C, but for declarators: each is followed down to the name that it declares, or to the
function. So the symbols of a file come from the levels that the limit allows only if no declarator
that reaches below them says something else when it is cut off there. -/

namespace Declarations.C

/-- The languages of the C family. -/
inductive Language where
  | c | cpp | objc
  deriving Repr, DecidableEq, Inhabited

namespace Language

/-- The extractor of a language. -/
def extractor : Language → Extractor
  | c => .c
  | cpp => .cpp
  | objc => .objc

/-- The rules of a language. -/
def dialect : Language → Dialect
  | c => C.c
  | cpp => C.cpp
  | objc => ObjC.dialect

theorem dialect_fades (language : Language) : language.dialect.Fades := by
  cases language with
  | objc => exact ObjC.dialect_fades
  | _ => exact ⟨fun _ _ _ => rfl, nofun, fun _ _ _ _ _ => rfl⟩

variable (language : Language) (parse : Parser) (d : Document) (tree : Node)

theorem symbols_eq : language.extractor.symbols parse d (some (.root tree)) =
    symbols language.dialect d (.root tree) := by
  cases language <;> rfl

/-- The symbols of a file are the same without the nodes below the kept levels, exactly when the
walk loses nothing where a declarator reaches below them. -/
theorem declared_symbols_truncate_iff (htells : TellsFunctions tree) :
    language.extractor.symbols (parse.truncate d.keptLevels) d
        (some (.root (tree.truncate d.keptLevels))) =
      language.extractor.symbols parse d (some (.root tree)) ↔
      LosesNothing language.dialect d tree := by
  rw [symbols_eq, symbols_eq]
  exact walk_truncate_iff d language.dialect_fades htells

end Language

/-- So many pointers to a variable of one letter, which ends at `stop`. -/
def pointersTo (stop : Nat) : Nat → Node
  | 0 => .mk "identifier" true ["declarator"] (stop - 1) stop []
  | count + 1 =>
      .mk "pointer_declarator" true ["declarator"] (stop - (count + 2)) stop
        [.mk "*" false [] (stop - (count + 2)) (stop - (count + 1)) [], pointersTo stop count]

/-- A file with one variable, to which seven pointers lead, of which no depth is to be walked. -/
def pointed : Document :=
  { path := "a.c"
    bytes := Text.Utf8.encode "int *******x;\n".toList
    limits := { walkDepth := 0 } }

/-- The tree of `pointed`. -/
def pointedTree : Node :=
  .mk "translation_unit" true [] 0 14
    [.mk "declaration" true [] 0 13
      [.mk "primitive_type" true ["type"] 0 3 [], pointersTo 12 7, .mk ";" false [] 12 13 []]]

/-- The theorem holds of a tree in which something is lost. -/
theorem pointed_symbols_truncate_iff :
    TellsFunctions pointedTree ∧
      (Language.c.extractor.symbols (Parser.truncate pointed.keptLevels fun _ _ => none) pointed
          (some (.root (pointedTree.truncate pointed.keptLevels))) =
        Language.c.extractor.symbols (fun _ _ => none) pointed (some (.root pointedTree)) ↔
        LosesNothing Language.c.dialect pointed pointedTree) :=
  have htells : TellsFunctions pointedTree := by decide +kernel
  ⟨htells, Language.c.declared_symbols_truncate_iff _ pointed pointedTree htells⟩

/-- The variable is found below the levels that the limit allows. -/
theorem pointed_symbols_truncate_ne :
    Language.c.extractor.symbols (Parser.truncate pointed.keptLevels fun _ _ => none) pointed
        (some (.root (pointedTree.truncate pointed.keptLevels))) ≠
      Language.c.extractor.symbols (fun _ _ => none) pointed (some (.root pointedTree)) := by
  decide +kernel

end Declarations.C

end SourceIndex
