import SourceIndex.Backends
import SourceIndex.Proofs.Literals.Fields
import SourceIndex.Proofs.Scopes.Profiled
import SourceIndex.Proofs.Tree.Preorder

/-!
# Literals that variables start with

In C#, Kotlin and Swift a field or property keeps the first literal that stands below its
declaration, a few levels down at most.  The search makes no difference between the initializer, a
part of it, and what stands before it.  So a variable keeps the literal that it starts with where
that is the first one in reach; but where it starts with something else, it keeps whatever literal
is in reach.
-/

namespace SourceIndex

/-! ## Initializers -/

/-- What a variable starts with: what stands behind the equals sign of its declaration, if no other
variable comes before the sign.  Comments do not count. -/
def Place.initializer? (p : Place) : Option Place :=
  match (p.children.filter fun c => !c.isOneOf Vocabulary.comments).dropWhile fun c =>
      !c.isOneOf ["=", ","] with
  | sign :: initial :: _ => if sign.kind == "=" then some initial else none
  | _ => none

/-- Is a place a literal? -/
def Place.isLiteral (p : Place) : Bool :=
  Text.endsWith "_literal" p.kind || p.isOneOf Vocabulary.literals

/-- What stands between the first and the last part of a literal, which are its quotes. -/
def Document.quoted? (d : Document) (p : Place) : Option String :=
  match p.children.head?, p.children.getLast? with
  | some opening, some closing => some (Text.trim (d.slice opening.stop closing.start))
  | _, _ => none

/-- The texts of a literal: as it is written, without blanks around it, and without its quotes. -/
def Document.literalTexts (d : Document) (p : Place) : List String :=
  [d.text p, Text.trim (d.text p), Text.unquote (d.text p)] ++ (d.quoted? p).toList

/-- Does the variable of a declaration start with a literal of the text? -/
def Place.StartsWith (d : Document) (p : Place) (v : String) : Prop :=
  ∃ i ∈ p.initializer?, i.isLiteral = true ∧ v ∈ d.literalTexts i

instance (d : Document) (p : Place) (v : String) : Decidable (p.StartsWith d v) :=
  inferInstanceAs (Decidable (∃ i ∈ p.initializer?, _))

/-! ## What walks find at what they take up -/

namespace Rule

variable {τ σ α β : Type} {rule : Rule τ α} {entries : τ → Place → List (σ × Place)}
  {steps : σ → Place → List (Step τ α)} {find : σ → Place → List (Place × α)} {task : τ}
  {root : Place}

/-- What can be found at the places that a walk takes up. -/
def gather (rule : Rule τ α) (entries : τ → Place → List (σ × Place)) (find : σ → Place → List β)
    (task : τ) (root : Place) : List β :=
  (rule.visits task root).flatMap fun v => (entries v.1 v.2).flatMap fun e => find e.1 e.2

theorem exists_of_mem_gather {b : β} {find : σ → Place → List β}
    (h : b ∈ rule.gather entries find task root) : ∃ t c, b ∈ find t c := by
  obtain ⟨v, -, h⟩ := List.mem_flatMap.1 h
  obtain ⟨e, -, h⟩ := List.mem_flatMap.1 h
  exact ⟨e.1, e.2, h⟩

/-- What is found, the walk hands out if the steps do. -/
theorem mem_walk_of_mem_gather (h : rule.Descends)
    (hrule : ∀ task p, rule task p = (entries task p).flatMap fun e => steps e.1 e.2)
    (hsteps : ∀ t c, ∀ f ∈ find t c, Step.emit f.2 ∈ steps t c) {f : Place × α}
    (hf : f ∈ rule.gather entries find task root) : f.2 ∈ rule.walk task root := by
  obtain ⟨v, hv, hf⟩ := List.mem_flatMap.1 hf
  obtain ⟨e, he, hf⟩ := List.mem_flatMap.1 hf
  refine (mem_walk_iff h).2 ⟨v, hv, ?_⟩
  rw [hrule]
  exact List.mem_flatMap.2 ⟨e, he, hsteps _ _ f hf⟩

/-- What the walk hands out is found, or has a property that the rest of the steps have. -/
theorem mem_gather_or (h : rule.Descends) {P : α → Prop}
    (hrule : ∀ task p, rule task p = (entries task p).flatMap fun e => steps e.1 e.2)
    (hsteps : ∀ t c, Step.Emits (fun item => P item ∨ ∃ p, (p, item) ∈ find t c) (steps t c))
    {item : α} (hitem : item ∈ rule.walk task root) :
    P item ∨ ∃ p, (p, item) ∈ rule.gather entries find task root := by
  obtain ⟨v, hv, hemit⟩ := (mem_walk_iff h).1 hitem
  rw [hrule] at hemit
  obtain ⟨e, he, hemit⟩ := List.mem_flatMap.1 hemit
  refine (hsteps e.1 e.2 item hemit).imp_right fun ⟨p, hp⟩ => ⟨p, ?_⟩
  exact List.mem_flatMap.2 ⟨v, hv, List.mem_flatMap.2 ⟨e, he, hp⟩⟩

end Rule

variable {d : Document} {root p c i : Place} {s : Scope} {y : Symbol} {f : Place × Symbol}

/-- Is a symbol one that keeps no literal of a variable?  The members of enums are constants. -/
def Symbol.IsFixed (y : Symbol) : Prop :=
  y.IsBare ∨ y.kind = .constant

/-! ## The fields of C# -/

namespace Declarations.CSharp

open SourceIndex.Idiom.CSharp

variable {t : Task} {around : Enclosure} {owner : Option String}

/-- The variables that a place declares, each with its symbol. -/
def variablesAt (d : Document) : Task → Place → List (Place × Symbol)
  | .inside s around, c =>
      if c.kind = "field_declaration" then
        ((declarators d c).map Declarator.place).zip (fields d s.name around c)
      else
        []
  | .functions _, _ => []

/-- The variables of a file, each with its symbol. -/
def variableSymbols (d : Document) (root : Place) : List (Place × Symbol) :=
  (rule d).gather (entries d) (variablesAt d) (.inside {} .space) root

theorem exists_mem_zip_fields (h : y ∈ fields d owner around c) :
    ∃ p, (p, y) ∈ ((declarators d c).map Declarator.place).zip (fields d owner around c) := by
  obtain ⟨v, hv, rfl⟩ := List.mem_map.1 h
  refine ⟨v.place, ?_⟩
  rw [fields, List.zip_map']
  exact List.mem_map.2 ⟨v, hv, rfl⟩

theorem emit_mem_of_mem_variablesAt (h : f ∈ variablesAt d t c) :
    Step.emit f.2 ∈ entrySteps d t c := by
  cases t with
  | functions s => cases h
  | inside s around =>
      rw [variablesAt] at h
      split at h
      · rename_i hkind
        simp only [entrySteps, childSteps, hkind]
        exact Step.emit_mem_emitAll.2 (List.of_mem_zip h).2
      · cases h

/-- The literal of a variable is looked for in its own declarator. -/
theorem declarator_of_mem_variablesAt (h : f ∈ variablesAt d t c) :
    f.1.kind = "variable_declarator" ∧ f.2.defaultValue = initialLiteral d f.1 := by
  cases t with
  | functions s => cases h
  | inside s around =>
      rw [variablesAt] at h
      split at h
      · rw [fields, List.zip_map'] at h
        obtain ⟨v, hv, rfl⟩ := List.mem_map.1 h
        exact ⟨(declarator_place hv).2, rfl⟩
      · cases h

theorem typeSteps_areBare {kind : SymbolKind} {keyword : String} :
    Step.Emits Symbol.IsBare (typeSteps d s around kind keyword c) := by
  unfold typeSteps
  split
  · exact Step.emits_nil
  · refine Step.emits_emit_cons.2 ⟨rfl, Step.emits_append.2 ⟨?_, Step.emits_visit? _ _⟩⟩
    exact Step.emits_emit?.2 (forall_mem_map fun _ => rfl)

theorem methodSteps_areBare {visibility : Visibility} {result : Option String} :
    Step.Emits Symbol.IsBare (methodSteps d s visibility result c) := by
  unfold methodSteps
  split
  · exact Step.emits_nil
  · exact Step.emits_emit_cons.2 ⟨rfl, Step.emits_visit? _ _⟩

/-- Members of an enum keep their values, and are constants. -/
theorem enumSymbols_areFixed : ∀ y ∈ enumSymbols d owner around c, y.IsFixed := by
  unfold enumSymbols
  split
  · exact List.forall_mem_nil _
  · refine List.forall_mem_cons.2 ⟨Or.inl rfl, forall_mem_filterMap fun m => ?_⟩
    exact forall_mem_map fun _ => Or.inr rfl

/-- Only fields keep literals of variables. -/
theorem entrySteps_emit (t : Task) (c : Place) : Step.Emits
    (fun y => y.IsFixed ∨ ∃ p, (p, y) ∈ variablesAt d t c) (entrySteps d t c) := by
  have hbare : ∀ {steps : List (Step Task Symbol)}, Step.Emits Symbol.IsBare steps →
      Step.Emits (fun y => y.IsFixed ∨ ∃ p, (p, y) ∈ variablesAt d t c) steps :=
    fun h y hy => Or.inl (Or.inl (h y hy))
  cases t with
  | functions s =>
      refine hbare ?_
      simp only [entrySteps, functionSearchSteps]
      split
      · exact methodSteps_areBare
      · split
        · simp
        · exact Step.emits_nil
  | inside s around =>
      simp only [entrySteps]
      unfold childSteps
      split
      -- Variables come from fields, constants from enums, and the rest keeps no literals at all.
      case h_12 hkind =>
        refine Step.emits_emitAll.2 fun y hy => Or.inr ?_
        rw [variablesAt, if_pos hkind]
        exact exists_mem_zip_fields hy
      case h_7 => exact Step.emits_emitAll.2 fun y hy => Or.inl (enumSymbols_areFixed y hy)
      all_goals refine hbare ?_
      case h_1 | h_2 =>
        unfold namespaceSteps
        split
        · exact Step.emits_nil
        · exact Step.emits_emit_cons.2 ⟨rfl, by simp⟩
      case h_3 | h_4 | h_5 => exact typeSteps_areBare
      case h_6 =>
        unfold recordSteps
        split <;> exact typeSteps_areBare
      case h_8 | h_9 => exact methodSteps_areBare
      case h_10 =>
        unfold constructorSteps
        split
        · exact Step.emits_nil
        · exact Step.emits_emit_cons.2 ⟨rfl, Step.emits_visit? _ _⟩
      case h_11 => exact Step.emits_emit?.2 (forall_mem_map fun _ => rfl)
      case h_13 => exact Step.emits_emitAll.2 eventFields_areBare
      case h_14 => exact Step.emits_emit?.2 (forall_mem_map fun _ => rfl)

end Declarations.CSharp

/-! ## The properties of Kotlin and Swift -/

namespace Profile

variable {owner : String}

/-- The properties in the body of a class of Kotlin, each with its declaration. -/
def Kotlin.declaredProperties (d : Document) (owner : String) (p : Place) : List (Place × Symbol) :=
  (((Rules.body? p).map Place.children).getD []).filterMap fun c =>
    (Rules.unwrap? "property_declaration" c).bind fun q =>
      (Rules.property? d ⟨"property_declaration", .field "variable_declaration"⟩ owner c).map (q, ·)

/-- The properties in the body of a type of Swift, each with its declaration. -/
def Swift.declaredProperties (d : Document) (owner : String) (p : Place) : List (Place × Symbol) :=
  (((Rules.body? p).getD p).childrenOf "property_declaration").filterMap fun q =>
    (Swift.property? d owner q).map (q, ·)

theorem Kotlin.property_of_mem_declaredProperties (h : f ∈ Kotlin.declaredProperties d owner p) :
    f.2 ∈ Kotlin.properties d owner p ∧ f.2.defaultValue = Rules.literalBelow? d 3 f.1 := by
  obtain ⟨c, hc, h⟩ := List.mem_filterMap.1 h
  obtain ⟨q, hq, h⟩ := Option.bind_eq_some_iff.1 h
  obtain ⟨y, hy, rfl⟩ := Option.map_eq_some_iff.1 h
  constructor
  · refine List.mem_append_left _ ?_
    cases hb : Rules.body? p with
    | none =>
        rw [hb] at hc
        cases hc
    | some b =>
        rw [hb] at hc
        exact List.mem_filterMap.2 ⟨c, hc, hy⟩
  · obtain ⟨q', hq', hy⟩ := Option.bind_eq_some_iff.1 hy
    obtain rfl : q' = q := Option.some.inj (hq'.symm.trans hq)
    obtain ⟨name, -, hy⟩ := Option.bind_eq_some_iff.1 hy
    cases hy
    rfl

/-- Parameters of the constructor keep no literals. -/
theorem Kotlin.isBare_or_exists_mem (h : y ∈ Kotlin.properties d owner p) :
    y.IsBare ∨ ∃ q, (q, y) ∈ Kotlin.declaredProperties d owner p := by
  rcases List.mem_append.1 h with h | h
  · right
    cases hb : Rules.body? p with
    | none =>
        rw [hb] at h
        cases h
    | some b =>
        rw [hb] at h
        obtain ⟨c, hc, hy⟩ := List.mem_filterMap.1 h
        obtain ⟨q, hq, -⟩ := Option.bind_eq_some_iff.1 hy
        refine ⟨q, List.mem_filterMap.2 ⟨c, ?_, ?_⟩⟩
        · rw [hb]
          exact hc
        · exact Option.bind_eq_some_iff.2 ⟨q, hq, Option.map_eq_some_iff.2 ⟨y, hy, rfl⟩⟩
  · left
    obtain ⟨q, -, h⟩ := List.mem_filterMap.1 h
    obtain ⟨word, -, h⟩ := Option.bind_eq_some_iff.1 h
    obtain ⟨nameNode, -, h⟩ := Option.bind_eq_some_iff.1 h
    dsimp only at h
    split at h
    · cases h
      rfl
    · cases h

theorem Swift.property_of_mem_declaredProperties (h : f ∈ Swift.declaredProperties d owner p) :
    f.2 ∈ Swift.properties d owner p ∧ f.2.defaultValue = Swift.initialLiteral d f.1 := by
  obtain ⟨q, hq, h⟩ := List.mem_filterMap.1 h
  obtain ⟨y, hy, rfl⟩ := Option.map_eq_some_iff.1 h
  refine ⟨List.mem_filterMap.2 ⟨q, hq, hy⟩, ?_⟩
  obtain ⟨name, -, rfl⟩ := Option.map_eq_some_iff.1 hy
  rfl

theorem Swift.exists_mem_declaredProperties (h : y ∈ Swift.properties d owner p) :
    ∃ q, (q, y) ∈ Swift.declaredProperties d owner p := by
  obtain ⟨q, hq, hy⟩ := List.mem_filterMap.1 h
  exact ⟨q, List.mem_filterMap.2 ⟨q, hq, Option.map_eq_some_iff.2 ⟨y, hy, rfl⟩⟩⟩

end Profile

namespace Declarations.Profiled

variable {profile : Profile} {declared : String → Place → List (Place × Symbol)}

/-- The properties of the container that a place declares. -/
def propertiesAt (profile : Profile) (d : Document)
    (declared : String → Place → List (Place × Symbol)) (s : Scope) (c : Place) :
    List (Place × Symbol) :=
  match profile.declaration? d c with
  | some (kind, name) =>
      if kind.isContainer then declared (Text.qualify s.name name ".") c else []
  | none => []

/-- The properties of a file, each with its symbol. -/
def propertySymbols (profile : Profile) (d : Document)
    (declared : String → Place → List (Place × Symbol)) (root : Place) : List (Place × Symbol) :=
  (rule profile d).gather (entries d) (propertiesAt profile d declared) {} root

theorem exists_of_mem_propertiesAt (h : f ∈ propertiesAt profile d declared s c) :
    ∃ kind name, profile.declaration? d c = some (kind, name) ∧ kind.isContainer = true ∧
      f ∈ declared (Text.qualify s.name name ".") c := by
  unfold propertiesAt at h
  split at h
  · rename_i kind name hdeclared
    split at h
    · rename_i hkind
      exact ⟨kind, name, hdeclared, hkind, h⟩
    · cases h
  · cases h

theorem emit_mem_of_mem_propertiesAt
    (hdeclared : ∀ owner p, ∀ f ∈ declared owner p, f.2 ∈ profile.properties d owner p)
    (h : f ∈ propertiesAt profile d declared s c) : Step.emit f.2 ∈ childSteps profile d s c := by
  obtain ⟨kind, name, hdeclaration, hkind, hf⟩ := exists_of_mem_propertiesAt h
  simp only [childSteps_eq, hdeclaration, declarationSteps, hkind, if_true]
  refine List.mem_cons_of_mem _ (List.mem_append_left _ ?_)
  exact Step.emit_mem_emitAll.2 (hdeclared _ _ f hf)

/-- Only properties keep literals. -/
theorem childSteps_emit
    (hdeclared : ∀ owner p, ∀ y ∈ profile.properties d owner p,
      y.IsBare ∨ ∃ q, (q, y) ∈ declared owner p) (s : Scope) (c : Place) :
    Step.Emits (fun y => y.IsFixed ∨ ∃ q, (q, y) ∈ propertiesAt profile d declared s c)
      (childSteps profile d s c) := by
  rw [childSteps_eq]
  split
  · rename_i kind name hdeclaration
    refine Step.emits_emit_cons.2 ⟨Or.inl (Or.inl rfl), ?_⟩
    split
    · rename_i hkind
      refine Step.emits_append.2 ⟨Step.emits_emitAll.2 fun y hy => ?_, by simp⟩
      refine (hdeclared _ _ y hy).imp Or.inl fun ⟨q, hq⟩ => ⟨q, ?_⟩
      simp only [propertiesAt, hdeclaration, hkind, if_true]
      exact hq
    · exact Step.emits_nil
  · simp

end Declarations.Profiled

/-! ## The literals in reach -/

/-- The languages that search the declaration of a variable for a literal. -/
inductive SearchedLanguage where
  | csharp | kotlin | swift
  deriving Repr, DecidableEq, Inhabited

namespace SearchedLanguage

/-- The extractor of a language. -/
def extractor : SearchedLanguage → Extractor
  | csharp => .csharp
  | kotlin => .profiled "kotlin"
  | swift => .profiled "swift"

/-- The number of levels below a declaration that are searched. -/
def levels : SearchedLanguage → Nat
  | csharp | swift => 2
  | kotlin => 3

/-- What the search takes from a place. -/
def literal? (d : Document) (q : Place) : SearchedLanguage → Option String
  | csharp => if Text.endsWith "_literal" q.kind then some (d.text q) else none
  | kotlin => Rules.literal? d q
  | swift => (Rules.literal? d q).map Text.unquote

/-- The strings that are searched for where there is no literal. -/
def strings (d : Document) (p : Place) : SearchedLanguage → List String
  | csharp | kotlin => []
  | swift => (p.descendants d.limits.genericDepth.toNat).filterMap (Profile.Swift.stringText? d)

/-- The places that are searched, in the order of the source. -/
def reach (language : SearchedLanguage) (p : Place) : List Place :=
  p :: p.descendants language.levels

/-- The literals that the search can find, the one that it finds first. -/
def literals (language : SearchedLanguage) (d : Document) (p : Place) : List String :=
  (language.reach p).filterMap (fun q => language.literal? d q) ++ language.strings d p

/-- The variables of a file, each with its symbol. -/
def variableSymbols (d : Document) (root : Place) : SearchedLanguage → List (Place × Symbol)
  | csharp => Declarations.CSharp.variableSymbols d root
  | kotlin =>
      Declarations.Profiled.propertySymbols .kotlin d (Profile.Kotlin.declaredProperties d) root
  | swift =>
      Declarations.Profiled.propertySymbols .swift d (Profile.Swift.declaredProperties d) root

variable {language : SearchedLanguage} {parse : Parser}

theorem mem_symbols_of_mem_variableSymbols (hf : f ∈ language.variableSymbols d root) :
    f.2 ∈ language.extractor.symbols parse d (some root) := by
  cases language with
  | csharp =>
      exact Rule.mem_walk_of_mem_gather (Declarations.CSharp.rule_descends d)
        (fun _ _ => Declarations.CSharp.rule_eq_entries d)
        (fun _ _ _ => Declarations.CSharp.emit_mem_of_mem_variablesAt) hf
  | kotlin =>
      refine Rule.mem_walk_of_mem_gather Declarations.Profiled.rule_descends
        (fun _ _ => Declarations.Profiled.rule_eq_entries)
        (fun _ _ _ => Declarations.Profiled.emit_mem_of_mem_propertiesAt ?_) hf
      exact fun _ _ _ h => (Profile.Kotlin.property_of_mem_declaredProperties h).1
  | swift =>
      refine Rule.mem_walk_of_mem_gather Declarations.Profiled.rule_descends
        (fun _ _ => Declarations.Profiled.rule_eq_entries)
        (fun _ _ _ => Declarations.Profiled.emit_mem_of_mem_propertiesAt ?_) hf
      exact fun _ _ _ h => (Profile.Swift.property_of_mem_declaredProperties h).1

/-- A symbol that keeps a literal, constants aside, is one of a variable. -/
theorem isFixed_or_exists_mem (hy : y ∈ language.extractor.symbols parse d (some root)) :
    y.IsFixed ∨ ∃ p, (p, y) ∈ language.variableSymbols d root := by
  cases language with
  | csharp =>
      exact Rule.mem_gather_or (Declarations.CSharp.rule_descends d)
        (fun _ _ => Declarations.CSharp.rule_eq_entries d) Declarations.CSharp.entrySteps_emit hy
  | kotlin =>
      exact Rule.mem_gather_or Declarations.Profiled.rule_descends
        (fun _ _ => Declarations.Profiled.rule_eq_entries)
        (Declarations.Profiled.childSteps_emit
          fun _ _ _ => Profile.Kotlin.isBare_or_exists_mem) hy
  | swift =>
      exact Rule.mem_gather_or Declarations.Profiled.rule_descends
        (fun _ _ => Declarations.Profiled.rule_eq_entries)
        (Declarations.Profiled.childSteps_emit
          fun _ _ _ h => Or.inr (Profile.Swift.exists_mem_declaredProperties h)) hy

/-- A variable keeps the first of the literals that the search can find. -/
theorem defaultValue_eq (hf : f ∈ language.variableSymbols d root) :
    f.2.defaultValue = (language.literals d f.1).head? := by
  rw [literals, List.head?_append, List.head?_filterMap]
  cases language with
  | csharp =>
      obtain ⟨t, c, hf⟩ := Rule.exists_of_mem_gather hf
      obtain ⟨hkind, hinitial⟩ := Declarations.CSharp.declarator_of_mem_variablesAt hf
      -- The search starts below the declarator, which is no literal itself.
      have hself : literal? d f.1 csharp = none := by
        rw [literal?, hkind]
        rfl
      rw [hinitial, reach, List.findSome?_cons_of_isNone (by rw [hself]; rfl), strings,
        List.head?_nil, Option.or_none, Declarations.CSharp.initialLiteral, Document.text?,
        List.find?_eq_findSome?_guard, List.map_findSome?]
      refine congrArg (fun take => List.findSome? take _) (funext fun q => ?_)
      simp only [Function.comp, Option.guard, literal?]
      split <;> rfl
  | kotlin =>
      obtain ⟨s, c, hf⟩ := Rule.exists_of_mem_gather hf
      obtain ⟨kind, name, -, -, hf⟩ := Declarations.Profiled.exists_of_mem_propertiesAt hf
      rw [(Profile.Kotlin.property_of_mem_declaredProperties hf).2, strings, List.head?_nil,
        Option.or_none]
      rfl
  | swift =>
      obtain ⟨s, c, hf⟩ := Rule.exists_of_mem_gather hf
      obtain ⟨kind, name, -, -, hf⟩ := Declarations.Profiled.exists_of_mem_propertiesAt hf
      rw [(Profile.Swift.property_of_mem_declaredProperties hf).2, Profile.Swift.initialLiteral,
        Rules.literalBelow?, List.map_findSome?, strings, List.head?_filterMap]
      rfl

/-! ## Initializers among the literals -/

/-- Every field or property with a literal is one of a variable.  And what a variable keeps is the
literal that it starts with, exactly if there is no literal in reach of the search, or the first one
there has the text of the literal that the variable starts with. -/
theorem default_initial_iff (language : SearchedLanguage) (parse : Parser) (d : Document)
    (root : Place) :
    (∀ y ∈ language.extractor.symbols parse d (some root), y.kind ∈ [.field, .property] →
      ∀ v ∈ y.defaultValue, ∃ p, (p, y) ∈ language.variableSymbols d root) ∧
      ∀ f ∈ language.variableSymbols d root,
        f.2 ∈ language.extractor.symbols parse d (some root) ∧
          ((∀ v ∈ f.2.defaultValue, f.1.StartsWith d v) ↔
            language.literals d f.1 = [] ∨
              ∃ v ∈ (language.literals d f.1).head?, f.1.StartsWith d v) := by
  constructor
  · intro y hy hkind v hv
    rcases isFixed_or_exists_mem hy with (hbare | hconstant) | hvariable
    · cases hbare.symm.trans hv
    · rw [hconstant] at hkind
      exact absurd hkind (by decide)
    · exact hvariable
  · intro f hf
    refine ⟨mem_symbols_of_mem_variableSymbols hf, ?_⟩
    rw [defaultValue_eq hf]
    cases language.literals d f.1 with
    | nil => simp
    | cons v rest => simp

/-- A property that starts with a number. -/
def numberInProperty : Document :=
  { path := "a.swift"
    bytes := Text.Utf8.encode "class A \x7b let x = 1 \x7d\n".toList
    limits := {} }

/-- The tree of `numberInProperty`. -/
def numberInPropertyTree : Node :=
  .mk "source_file" true [] 0 22
    [.mk "class_declaration" true [] 0 21
      [.token "class" 0 5, .leaf "type_identifier" ["name"] 6 7,
        .mk "class_body" true ["body"] 8 21
          [.token "\x7b" 8 9,
            .mk "property_declaration" true [] 10 19
              [.mk "value_binding_pattern" true [] 10 13 [.token "let" 10 13],
                .mk "pattern" true ["name"] 14 15
                  [.leaf "simple_identifier" ["bound_identifier"] 14 15],
                .token "=" 16 17, .leaf "integer_literal" ["value"] 18 19],
            .token "\x7d" 20 21]]]

theorem numberInProperty_initial :
    ∃ f ∈ swift.variableSymbols numberInProperty (.root numberInPropertyTree),
      f.2.qualifiedName = "A.x" ∧ f.2.defaultValue = some "1" ∧
        f.1.StartsWith numberInProperty "1" := by
  have hfound : ∃ f ∈ swift.variableSymbols numberInProperty (.root numberInPropertyTree),
      f.2.qualifiedName = "A.x" ∧ f.2.defaultValue = some "1" ∧
        ∃ v ∈ (swift.literals numberInProperty f.1).head?, f.1.StartsWith numberInProperty v := by
    decide +kernel
  obtain ⟨f, hf, hname, hvalue, hinitial⟩ := hfound
  refine ⟨f, hf, hname, hvalue, ?_⟩
  have hiff := (default_initial_iff swift (fun _ _ => none) numberInProperty
    (.root numberInPropertyTree)).2 f hf
  exact hiff.2.2 (Or.inr hinitial) "1" hvalue

/-- A property that starts with a number behind a sign. -/
def signedNumber : Document :=
  { path := "a.swift"
    bytes := Text.Utf8.encode "class A \x7b let x = -1 \x7d\n".toList
    limits := {} }

/-- The tree of `signedNumber`. -/
def signedNumberTree : Node :=
  .mk "source_file" true [] 0 23
    [.mk "class_declaration" true [] 0 22
      [.token "class" 0 5, .leaf "type_identifier" ["name"] 6 7,
        .mk "class_body" true ["body"] 8 22
          [.token "\x7b" 8 9,
            .mk "property_declaration" true [] 10 20
              [.mk "value_binding_pattern" true [] 10 13 [.token "let" 10 13],
                .mk "pattern" true ["name"] 14 15
                  [.leaf "simple_identifier" ["bound_identifier"] 14 15],
                .token "=" 16 17,
                .mk "prefix_expression" true ["value"] 18 20
                  [.token "-" 18 19, .leaf "integer_literal" ["target"] 19 20]],
            .token "\x7d" 21 22]]]

/-- The number is kept without its sign. -/
theorem signedNumber_not_initial :
    ∃ f ∈ swift.variableSymbols signedNumber (.root signedNumberTree),
      f.2 ∈ swift.extractor.symbols (fun _ _ => none) signedNumber (some (.root signedNumberTree)) ∧
        f.2.kind = .property ∧ f.2.defaultValue = some "1" ∧ ¬ f.1.StartsWith signedNumber "1" := by
  decide +kernel

end SearchedLanguage

end SourceIndex
