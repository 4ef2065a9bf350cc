import SourceIndex.Backends
import SourceIndex.Proofs.Declarations.Go
import SourceIndex.Proofs.Extents.HCL
import SourceIndex.Proofs.Lines.Markup
import SourceIndex.Proofs.Lines.Scripts
import SourceIndex.Proofs.Profile
import SourceIndex.Proofs.Record.Kind

/-!
# Kinds of declarations

Every declaration has one of the listed kinds, whatever its language.  Only metadata files declare
components of kinds of their own, and none of these has the word of a listed kind.
-/

namespace SourceIndex

/-- Is the kind of a symbol one of the listed kinds? -/
def Symbol.IsListed (y : Symbol) : Prop :=
  y.kind.isOther = false

/-- A choice between two listed kinds. -/
theorem SymbolKind.isOther_ite {c : Prop} [Decidable c] {k k' : SymbolKind}
    (h : k.isOther = false) (h' : k'.isOther = false) : (if c then k else k').isOther = false := by
  split
  · exact h
  · exact h'

variable {d : Document}

/-- Does the change of a dialect leave the kind of a symbol as it is? -/
def Idiom.Java.Dialect.KeepsKind (dialect : Idiom.Java.Dialect) : Prop :=
  ∀ d p y, (dialect.adjust d p y).kind = y.kind

theorem Idiom.Java.dialect_keepsKind : Idiom.Java.dialect.KeepsKind :=
  fun _ _ _ => rfl

theorem Idiom.Apex.dialect_keepsKind : Idiom.Apex.dialect.KeepsKind := by
  intro d p y
  simp only [dialect, adjust]
  repeat' split
  all_goals rfl

namespace Declarations.Java

open Idiom.Java

variable {dialect : Dialect} {owner : Option String} {p : Place}

theorem typeSteps_listed (hdialect : dialect.KeepsKind) {s : Scope} {kind : SymbolKind}
    (hkind : kind.isOther = false) :
    Step.Emits Symbol.IsListed (typeSteps dialect d s kind p) := by
  simp only [typeSteps]
  split
  · exact Step.emits_nil
  · refine Step.emits_emit_cons.2 ⟨?_, Step.emits_visit? _ _⟩
    rw [Symbol.IsListed, hdialect]
    exact hkind

theorem enumSteps_listed {s : Scope} : Step.Emits Symbol.IsListed (enumSteps dialect d s p) := by
  simp only [enumSteps]
  split
  · exact Step.emits_nil
  · refine Step.emits_emit_cons.2 ⟨rfl, Step.emits_flatMap.2 fun c _ => ?_⟩
    split
    · exact Step.emits_emit?.2 (forall_mem_map fun _ => rfl)
    · exact Step.emits_visit_cons.2 Step.emits_nil
    · exact Step.emits_nil

theorem method?_listed : ∀ y ∈ method? dialect d owner p, y.IsListed :=
  forall_mem_bind_some fun _ => rfl

theorem constructor?_listed : ∀ y ∈ constructor? dialect d owner p, y.IsListed :=
  forall_mem_bind_some fun _ => rfl

theorem fields_listed : ∀ y ∈ fields dialect d owner p, y.IsListed := by
  exact forall_mem_filterMap fun _ => forall_mem_bind_some fun _ => SymbolKind.isOther_ite rfl rfl

theorem package?_listed : ∀ y ∈ package? d p, y.IsListed :=
  forall_mem_map fun _ => rfl

theorem childSteps_listed (hdialect : dialect.KeepsKind) (s : Scope) (c : Place) :
    Step.Emits Symbol.IsListed (childSteps dialect d s c) := by
  unfold childSteps
  split
  · exact typeSteps_listed hdialect rfl
  · exact typeSteps_listed hdialect rfl
  · exact typeSteps_listed hdialect rfl
  · exact typeSteps_listed hdialect rfl
  · exact enumSteps_listed
  · exact Step.emits_emit?.2 method?_listed
  · exact Step.emits_emit?.2 constructor?_listed
  · exact Step.emits_emitAll.2 fields_listed
  · exact Step.emits_emitAll.2 fields_listed
  · exact Step.emits_emit?.2 package?_listed
  · exact Step.emits_nil

theorem symbols_listed (hdialect : dialect.KeepsKind) (root : Place) :
    ∀ y ∈ symbols dialect d root, y.IsListed := by
  refine Rule.forall_mem_walk_of_emits (fun s p => ?_) _ root
  unfold rule
  refine Step.emits_ite_nil.2 fun _ => ?_
  exact Step.emits_flatMap.2 fun c _ => childSteps_listed hdialect s c

end Declarations.Java

namespace Declarations.Apex

theorem trigger?_listed {text : List Char} : ∀ y ∈ trigger? text, y.IsListed := by
  intro y hy
  obtain ⟨m, -, hy⟩ := Option.bind_eq_some_iff.1 hy
  obtain ⟨name, -, hy⟩ := Option.bind_eq_some_iff.1 hy
  obtain ⟨object, -, hy⟩ := Option.bind_eq_some_iff.1 hy
  cases hy
  rfl

theorem symbols_listed (parse : Parser) (d : Document) (root : Option Place) :
    ∀ y ∈ symbols parse d root, y.IsListed := by
  have htrigger : ∀ y ∈ if Idiom.Apex.isTrigger d.path then (trigger? d.fullText).toList else [],
      y.IsListed := by
    intro y hy
    split at hy
    · exact trigger?_listed y (Option.mem_toList.1 hy)
    · cases hy
  simp only [symbols]
  split
  · exact List.forall_mem_append.2
      ⟨htrigger, Java.symbols_listed Idiom.Apex.dialect_keepsKind _⟩
  · exact htrigger

end Declarations.Apex

namespace Declarations.Python

variable {exports : Option (List String)} {s : Scope} {outer p : Place}

/-- Is the symbol of what was found of a listed kind? -/
def Found.IsListed (f : Found) : Prop :=
  f.symbolOf.IsListed

theorem initAttributes_listed {owner : String} : ∀ y ∈ initAttributes d p owner, y.IsListed := by
  unfold initAttributes
  split
  · exact List.forall_mem_nil _
  · refine forall_mem_filterMap fun _ => ?_
    split
    · exact forall_mem_map fun _ => rfl
    · exact forall_mem_none

theorem functionSteps_listed :
    Step.Emits Found.IsListed (functionSteps d exports s outer p) := by
  simp only [functionSteps]
  split
  · exact Step.emits_nil
  · refine Step.emits_emit_cons.2 ⟨SymbolKind.isOther_ite rfl rfl, ?_⟩
    intro f hf
    obtain ⟨y, hy, hf⟩ := List.mem_map.1 hf
    cases hf
    split at hy
    · split at hy
      · exact initAttributes_listed y hy
      · cases hy
    · cases hy

theorem classSteps_listed : Step.Emits Found.IsListed (classSteps d exports s outer p) := by
  simp only [classSteps]
  split
  · exact Step.emits_nil
  · exact Step.emits_emit_cons.2 ⟨rfl, Step.emits_visit? _ _⟩

theorem definitionSteps_listed :
    Step.Emits Found.IsListed (definitionSteps d exports s outer p) := by
  unfold definitionSteps
  split
  · exact functionSteps_listed
  · exact classSteps_listed
  · exact Step.emits_nil

theorem assignment?_listed {owner : Option String} :
    ∀ y ∈ assignment? d exports owner p, y.IsListed := by
  intro y hy
  obtain ⟨left, -, hy⟩ := Option.bind_eq_some_iff.1 hy
  dsimp only at hy
  split at hy
  · cases hy
  · split at hy
    · cases hy
      rfl
    · cases hy
      exact SymbolKind.isOther_ite rfl rfl

theorem childSteps_listed : Step.Emits Found.IsListed (childSteps d exports s p) := by
  have hassignments : Step.Emits Found.IsListed
      (((assignmentsOf p).filterMap (assignment? d exports s.name)).map fun a =>
        (Step.emit (.declared a) : Step Scope Found)) := by
    intro f hf
    obtain ⟨y, hy, hf⟩ := List.mem_map.1 hf
    cases hf
    exact forall_mem_filterMap (fun _ => assignment?_listed) y hy
  unfold childSteps
  split
  · exact definitionSteps_listed
  · exact definitionSteps_listed
  · refine Step.emits_getD.2 ⟨fun steps hsteps => ?_, fun _ => Step.emits_nil⟩
    obtain ⟨p, -, rfl⟩ := Option.map_eq_some_iff.1 hsteps
    exact definitionSteps_listed
  · exact hassignments
  · exact hassignments
  · exact Step.emits_nil

theorem symbols_listed (root : Place) : ∀ y ∈ symbols d root, y.IsListed := by
  intro y hy
  obtain ⟨f, hf, rfl⟩ := exists_of_mem_settleFrom hy
  refine Rule.forall_mem_walk_of_emits (P := Found.IsListed) (fun s p => ?_) _ root f hf
  unfold rule
  exact Step.emits_ite_nil.2 fun _ => Step.emits_flatMap.2 fun _ _ => childSteps_listed

end Declarations.Python

namespace Declarations.ECMAScript

variable {s : Setting} {owner : String} {p : Place}

/-- Are the further declarations of a dialect of listed kinds? -/
def IsListed (dialect : Dialect) : Prop :=
  ∀ d s p, ∀ steps ∈ dialect d s p, Step.Emits Symbol.IsListed steps

theorem function?_listed : ∀ y ∈ function? d s p, y.IsListed :=
  forall_mem_bind_some fun _ => rfl

theorem members_listed {s : Scope} {body : Place} : ∀ y ∈ members d s owner body, y.IsListed := by
  unfold members
  split
  · exact List.forall_mem_nil _
  · refine forall_mem_filterMap fun _ => ?_
    split
    · exact forall_mem_bind_some fun _ => SymbolKind.isOther_ite rfl rfl
    · exact forall_mem_bind_some fun _ => SymbolKind.isOther_ite rfl rfl
    · exact forall_mem_bind_some fun _ => SymbolKind.isOther_ite rfl rfl
    · exact forall_mem_bind_some fun _ => rfl
    · exact forall_mem_bind_some fun _ => rfl
    · exact forall_mem_bind_some fun _ => rfl
    · exact forall_mem_none

theorem membersOf_listed {s : Scope} : ∀ y ∈ membersOf d s owner p, y.IsListed :=
  forall_mem_getD_map fun _ => members_listed

theorem classSymbols_listed : ∀ y ∈ classSymbols d s p, y.IsListed := by
  simp only [classSymbols]
  split
  · exact List.forall_mem_nil _
  · exact List.forall_mem_cons.2 ⟨rfl, membersOf_listed⟩

theorem plainVariable_listed {declaration : Place} {keyword name : String} :
    (plainVariable d s declaration keyword name p).IsListed :=
  SymbolKind.isOther_ite rfl rfl

theorem variableSymbols_listed {declaration : Place} {keyword : String} :
    ∀ y ∈ variableSymbols d s declaration keyword p, y.IsListed := by
  have hplain : ∀ name, ∀ y ∈ [plainVariable d s declaration keyword name p], y.IsListed :=
    fun _ => List.forall_mem_singleton.2 plainVariable_listed
  simp only [variableSymbols]
  split
  · exact List.forall_mem_nil _
  · split
    · exact hplain _
    · split
      · exact List.forall_mem_singleton.2 rfl
      · exact List.forall_mem_singleton.2 rfl
      · exact List.forall_mem_singleton.2 rfl
      · exact List.forall_mem_singleton.2 rfl
      · exact List.forall_mem_cons.2 ⟨rfl, membersOf_listed⟩
      · exact hplain _

theorem exportSymbol?_listed {owner : Option String} :
    ∀ y ∈ exportSymbol? d owner p, y.IsListed := by
  intro y hy
  obtain ⟨assignment, -, hy⟩ := Option.bind_eq_some_iff.1 hy
  obtain ⟨left, -, hy⟩ := Option.bind_eq_some_iff.1 hy
  obtain ⟨right, -, hy⟩ := Option.bind_eq_some_iff.1 hy
  dsimp only at hy
  split at hy
  · cases hy
  · obtain ⟨name, -, hy⟩ := Option.bind_eq_some_iff.1 hy
    cases hy
    show SymbolKind.isOther _ = false
    simp only [symbolIn, Document.symbol, Symbol.ofDetails]
    split <;> rfl

theorem childSteps_listed : Step.Emits Symbol.IsListed (childSteps d s p) := by
  have hvariables : Step.Emits (τ := Setting) Symbol.IsListed (Step.emitAll (declarators d s p)) :=
    Step.emits_emitAll.2 (List.forall_mem_flatMap.2 fun _ _ => variableSymbols_listed)
  unfold childSteps
  split
  · exact Step.emits_emit?.2 function?_listed
  · exact Step.emits_emit?.2 function?_listed
  · exact Step.emits_emitAll.2 classSymbols_listed
  · exact Step.emits_emitAll.2 classSymbols_listed
  · exact Step.emits_emitAll.2 classSymbols_listed
  · exact hvariables
  · exact hvariables
  · exact Step.emits_visit_cons.2 Step.emits_nil
  · exact Step.emits_emit?.2 exportSymbol?_listed
  · exact Step.emits_visit_cons.2 Step.emits_nil

theorem symbols_listed {dialect : Dialect} (hdialect : IsListed dialect) (root : Place) :
    ∀ y ∈ symbols d dialect root, y.IsListed := by
  refine Rule.forall_mem_walk_of_emits (fun s p => ?_) _ root
  unfold rule
  refine Step.emits_ite_nil.2 fun _ => Step.emits_flatMap.2 fun c _ => ?_
  exact Step.emits_getD.2 ⟨hdialect d s c, fun _ => childSteps_listed⟩

theorem javascript_listed : IsListed javascript :=
  fun _ _ _ => forall_mem_none

end Declarations.ECMAScript

namespace Declarations.TypeScript

open ECMAScript (Setting)

variable {s : Setting} {p : Place}

theorem interfaceMember?_listed {owner : String} :
    ∀ y ∈ interfaceMember? d owner p, y.IsListed := by
  intro y hy
  obtain ⟨name, -, hy⟩ := Option.bind_eq_some_iff.1 hy
  split at hy
  · cases hy
    rfl
  · cases hy
    rfl
  · cases hy

theorem interfaceSymbols_listed : ∀ y ∈ interfaceSymbols d s p, y.IsListed := by
  simp only [interfaceSymbols]
  split
  · exact List.forall_mem_nil _
  · exact List.forall_mem_cons.2 ⟨rfl, forall_mem_filterMap fun _ => interfaceMember?_listed⟩

theorem typeAlias?_listed : ∀ y ∈ typeAlias? d s p, y.IsListed :=
  forall_mem_bind_some fun _ => rfl

theorem enumMember?_listed {owner : String} : ∀ y ∈ enumMember? d owner p, y.IsListed := by
  unfold enumMember?
  split
  · rintro _ ⟨⟩
    rfl
  · exact forall_mem_map fun _ => rfl
  · exact forall_mem_none

theorem enumSymbols_listed : ∀ y ∈ enumSymbols d s p, y.IsListed := by
  simp only [enumSymbols]
  split
  · exact List.forall_mem_nil _
  · exact List.forall_mem_cons.2 ⟨rfl, forall_mem_filterMap fun _ => enumMember?_listed⟩

theorem namespaceSteps_listed : Step.Emits Symbol.IsListed (namespaceSteps d s p) := by
  simp only [namespaceSteps]
  split
  · exact Step.emits_nil
  · exact Step.emits_emit_cons.2 ⟨rfl, Step.emits_visit? _ _⟩

theorem typescript_listed : ECMAScript.IsListed typescript := by
  intro d s p steps hsteps
  unfold typescript at hsteps
  split at hsteps
  · cases hsteps
    exact Step.emits_emitAll.2 interfaceSymbols_listed
  · cases hsteps
    exact Step.emits_emit?.2 typeAlias?_listed
  · cases hsteps
    exact Step.emits_emitAll.2 enumSymbols_listed
  · cases hsteps
    exact namespaceSteps_listed
  · cases hsteps
    exact namespaceSteps_listed
  · obtain ⟨space, -, rfl⟩ := Option.map_eq_some_iff.1 hsteps
    exact namespaceSteps_listed
  · cases hsteps

end Declarations.TypeScript

namespace Declarations.Go

theorem symbols_listed (root : Place) : ∀ y ∈ symbols d root, y.IsListed := by
  intro y hy
  obtain ⟨p, name, kind, details, rfl, hlisted, -⟩ := symbols_declared root y hy
  exact hlisted

end Declarations.Go

namespace Declarations.Rust

variable {owner : Option String} {p : Place}

theorem function?_listed {kind : SymbolKind} (hkind : kind.isOther = false) :
    ∀ y ∈ function? d owner kind p, y.IsListed :=
  forall_mem_bind_some fun _ => hkind

theorem value?_listed {keyword : String} {kind : SymbolKind} (hkind : kind.isOther = false) :
    ∀ y ∈ value? d owner keyword kind p, y.IsListed :=
  forall_mem_bind_some fun _ => hkind

theorem typeAlias?_listed : ∀ y ∈ typeAlias? d owner p, y.IsListed :=
  forall_mem_bind_some fun _ => rfl

theorem structSymbols_listed : ∀ y ∈ structSymbols d owner p, y.IsListed := by
  simp only [structSymbols]
  split
  · exact List.forall_mem_nil _
  · refine List.forall_mem_cons.2 ⟨rfl, forall_mem_filterMap fun _ => ?_⟩
    exact forall_mem_bind_some fun _ => rfl

theorem enumSymbols_listed : ∀ y ∈ enumSymbols d owner p, y.IsListed := by
  simp only [enumSymbols]
  split
  · exact List.forall_mem_nil _
  · exact List.forall_mem_cons.2 ⟨rfl, forall_mem_filterMap fun _ => forall_mem_map fun _ => rfl⟩

theorem traitSymbols_listed : ∀ y ∈ traitSymbols d owner p, y.IsListed := by
  simp only [traitSymbols]
  split
  · exact List.forall_mem_nil _
  · refine List.forall_mem_cons.2 ⟨rfl, forall_mem_filterMap fun _ => ?_⟩
    split
    · exact function?_listed rfl
    · exact forall_mem_bind_some fun _ => rfl
    · exact forall_mem_none

theorem implSymbols_listed : ∀ y ∈ implSymbols d p, y.IsListed := by
  unfold implSymbols
  split
  · exact List.forall_mem_nil _
  · refine forall_mem_filterMap fun _ => ?_
    split
    · exact function?_listed rfl
    · exact typeAlias?_listed
    · exact value?_listed rfl
    · exact forall_mem_none

theorem moduleSteps_listed {s : Scope} : Step.Emits Symbol.IsListed (moduleSteps d s p) := by
  simp only [moduleSteps]
  split
  · exact Step.emits_nil
  · exact Step.emits_emit_cons.2 ⟨rfl, Step.emits_visit? _ _⟩

theorem childSteps_listed {s : Scope} : Step.Emits Symbol.IsListed (childSteps d s p) := by
  unfold childSteps
  split
  · exact Step.emits_emit?.2 (function?_listed rfl)
  · exact Step.emits_emitAll.2 structSymbols_listed
  · exact Step.emits_emitAll.2 structSymbols_listed
  · exact Step.emits_emitAll.2 enumSymbols_listed
  · exact Step.emits_emitAll.2 traitSymbols_listed
  · exact Step.emits_emitAll.2 implSymbols_listed
  · exact moduleSteps_listed
  · exact Step.emits_emit?.2 typeAlias?_listed
  · exact Step.emits_emit?.2 (value?_listed rfl)
  · exact Step.emits_emit?.2 (value?_listed rfl)
  · exact Step.emits_emit?.2 (forall_mem_bind_some fun _ => rfl)
  · exact Step.emits_nil

theorem symbols_listed (root : Place) : ∀ y ∈ symbols d root, y.IsListed := by
  refine Rule.forall_mem_walk_of_emits (fun s p => ?_) _ root
  unfold rule
  exact Step.emits_ite_nil.2 fun _ => Step.emits_flatMap.2 fun _ _ => childSteps_listed

end Declarations.Rust

namespace Declarations.C

/-- Are the further declarations of a dialect of listed kinds? -/
def Dialect.IsListed (dialect : Dialect) : Prop :=
  ∀ d p, ∀ symbols ∈ dialect.extra d p, ∀ y ∈ symbols, y.IsListed

variable {dialect : Dialect} {owner : Option String} {access : Option Visibility} {s : Scope}
  {p c : Place}

theorem functionSymbol_listed {type name params : String} :
    (functionSymbol dialect d owner access p type name params).IsListed :=
  SymbolKind.isOther_ite rfl rfl

theorem function?_listed : ∀ y ∈ function? dialect d owner access p, y.IsListed := by
  intro y hy
  obtain ⟨declarator, -, hy⟩ := Option.bind_eq_some_iff.1 hy
  obtain ⟨⟨name, params⟩, -, hy⟩ := Option.bind_eq_some_iff.1 hy
  cases hy
  exact functionSymbol_listed

theorem declared?_listed : ∀ y ∈ declared? dialect d owner access p c, y.IsListed := by
  simp only [declared?]
  split
  · exact forall_mem_map fun _ => functionSymbol_listed
  · split
    · exact forall_mem_map fun _ => SymbolKind.isOther_ite rfl rfl
    · exact forall_mem_none

theorem declaration_listed : ∀ y ∈ declaration dialect d owner access p, y.IsListed :=
  forall_mem_filterMap fun _ => declared?_listed

theorem field?_listed {owner : String} {access : Visibility} :
    ∀ y ∈ field? dialect d owner access p c, y.IsListed := by
  simp only [field?]
  split
  · exact forall_mem_map fun _ => functionSymbol_listed
  · split
    · exact forall_mem_map fun _ => rfl
    · exact forall_mem_none

theorem recordSteps_listed : Step.Emits Symbol.IsListed (recordSteps d s p) := by
  simp only [recordSteps]
  split
  · exact Step.emits_nil
  · exact Step.emits_emit_cons.2 ⟨SymbolKind.isOther_ite rfl rfl, Step.emits_visit? _ _⟩

theorem enumerators_listed {qualified : String} : ∀ y ∈ enumerators d qualified p, y.IsListed := by
  unfold enumerators
  split
  · exact List.forall_mem_nil _
  · exact forall_mem_filterMap fun _ => forall_mem_map fun _ => rfl

theorem enumSymbols_listed : ∀ y ∈ enumSymbols d owner p, y.IsListed := by
  unfold enumSymbols
  split
  · exact List.forall_mem_nil _
  · exact List.forall_mem_cons.2 ⟨rfl, enumerators_listed⟩

theorem typedefBodySteps_listed {name : String} :
    Step.Emits Symbol.IsListed (typedefBodySteps d s name p) := by
  have hrecord : ∀ body, Step.Emits Symbol.IsListed
      (if (p.field? "name").isSome then recordSteps d s.deeper p
        else [.visit (.members (s.enter (Text.qualify s.name name "::")) .public) body]) := by
    intro body
    split
    · exact recordSteps_listed
    · exact Step.emits_visit_cons.2 Step.emits_nil
  simp only [typedefBodySteps]
  split
  · exact hrecord _
  · exact hrecord _
  · split
    · exact Step.emits_emitAll.2 enumSymbols_listed
    · exact Step.emits_emitAll.2 enumerators_listed
  · exact Step.emits_nil

theorem typedefSteps_listed : Step.Emits Symbol.IsListed (typedefSteps d s p) := by
  simp only [typedefSteps]
  split
  · exact Step.emits_nil
  · refine Step.emits_emit_cons.2 ⟨rfl, Step.emits_getD.2 ⟨fun steps hsteps => ?_, fun _ => ?_⟩⟩
    · obtain ⟨t, -, rfl⟩ := Option.map_eq_some_iff.1 hsteps
      exact typedefBodySteps_listed
    · exact Step.emits_nil

theorem namespaceSteps_listed : Step.Emits Symbol.IsListed (namespaceSteps d s p) :=
  Step.emits_append.2
    ⟨Step.emits_emit?.2 (forall_mem_map fun _ => rfl), Step.emits_visit? _ _⟩

theorem childSteps_listed : Step.Emits Symbol.IsListed (childSteps dialect d s p) := by
  unfold childSteps
  split
  · exact Step.emits_emit?.2 function?_listed
  · exact Step.emits_emitAll.2 declaration_listed
  · exact recordSteps_listed
  · exact recordSteps_listed
  · exact recordSteps_listed
  · exact Step.emits_emitAll.2 enumSymbols_listed
  · exact typedefSteps_listed
  · exact namespaceSteps_listed
  · split
    · exact Step.emits_visit_cons.2 Step.emits_nil
    · exact Step.emits_nil

theorem memberSteps_listed {access : Visibility} :
    Step.Emits Symbol.IsListed (memberSteps dialect d s access p) := by
  simp only [memberSteps]
  split
  · exact Step.emits_emitAll.2 (forall_mem_filterMap fun _ => field?_listed)
  · split
    · exact Step.emits_emit?.2 function?_listed
    · exact Step.emits_nil
  · split
    · exact Step.emits_emitAll.2 declaration_listed
    · exact Step.emits_nil
  · exact Step.emits_visit_cons.2 Step.emits_nil
  · exact recordSteps_listed
  · exact recordSteps_listed
  · exact recordSteps_listed
  · exact Step.emits_emitAll.2 enumSymbols_listed
  · exact Step.emits_nil

theorem symbols_listed (hdialect : dialect.IsListed) (root : Place) :
    ∀ y ∈ symbols dialect d root, y.IsListed := by
  refine Rule.forall_mem_walk_of_emits (fun task p => ?_) _ root
  cases task with
  | inside s =>
      rw [rule]
      refine Step.emits_ite_nil.2 fun _ => Step.emits_flatMap.2 fun c _ => ?_
      refine Step.emits_getD.2 ⟨fun steps hsteps => ?_, fun _ => childSteps_listed⟩
      obtain ⟨symbols, hsymbols, rfl⟩ := Option.map_eq_some_iff.1 hsteps
      exact Step.emits_emitAll.2 (hdialect d c symbols hsymbols)
  | members s access =>
      rw [rule]
      exact Step.emits_ite_nil.2 fun _ => Step.emits_flatMap.2 fun _ _ => memberSteps_listed

theorem c_listed : Declarations.C.c.IsListed :=
  fun _ _ => forall_mem_none

theorem cpp_listed : cpp.IsListed :=
  fun _ _ => forall_mem_none

end Declarations.C

namespace Declarations.ObjC

variable {owner : String} {declared : Bool} {p : Place}

theorem method?_listed : ∀ y ∈ method? d owner declared p, y.IsListed :=
  forall_mem_bind_some fun _ => rfl

theorem properties_listed : ∀ y ∈ properties d owner p, y.IsListed :=
  List.forall_mem_map.2 fun _ _ => rfl

theorem instanceVariables_listed : ∀ y ∈ instanceVariables d owner p, y.IsListed :=
  List.forall_mem_map.2 fun _ _ => rfl

theorem interfaceSymbols_listed : ∀ y ∈ interfaceSymbols d p, y.IsListed := by
  simp only [interfaceSymbols]
  split
  · exact List.forall_mem_nil _
  · refine List.forall_mem_cons.2 ⟨rfl, List.forall_mem_flatMap.2 fun _ _ => ?_⟩
    split
    · exact forall_mem_toList method?_listed
    · exact properties_listed
    · exact instanceVariables_listed
    · exact List.forall_mem_nil _

theorem implementationSymbols_listed : ∀ y ∈ implementationSymbols d p, y.IsListed := by
  simp only [implementationSymbols]
  split
  · exact List.forall_mem_nil _
  · refine List.forall_mem_cons.2 ⟨rfl, List.forall_mem_flatMap.2 fun _ _ => ?_⟩
    split
    · exact forall_mem_filterMap fun _ => method?_listed
    · exact forall_mem_toList method?_listed
    · exact instanceVariables_listed
    · exact List.forall_mem_nil _

theorem protocolSymbols_listed : ∀ y ∈ protocolSymbols d p, y.IsListed := by
  simp only [protocolSymbols]
  split
  · exact List.forall_mem_nil _
  · exact List.forall_mem_cons.2 ⟨rfl, forall_mem_filterMap fun _ => method?_listed⟩

theorem dialect_listed : dialect.IsListed := by
  intro d p symbols hsymbols
  simp only [dialect] at hsymbols
  split at hsymbols
  · cases hsymbols
    exact interfaceSymbols_listed
  · cases hsymbols
    exact implementationSymbols_listed
  · cases hsymbols
    exact protocolSymbols_listed
  · cases hsymbols

end Declarations.ObjC

namespace Declarations.CSharp

open Idiom.CSharp (Enclosure)

variable {s : Scope} {around : Enclosure} {owner : Option String} {p : Place}

theorem functionSteps_listed {name : String} :
    Step.Emits Symbol.IsListed (functionSteps s p name) :=
  Step.emits_visit? _ _

theorem namespaceSteps_listed : Step.Emits Symbol.IsListed (namespaceSteps d s p) := by
  simp only [namespaceSteps]
  split
  · exact Step.emits_nil
  · exact Step.emits_emit_cons.2 ⟨rfl, Step.emits_visit_cons.2 Step.emits_nil⟩

theorem typeSteps_listed {kind : SymbolKind} {keyword : String} (hkind : kind.isOther = false) :
    Step.Emits Symbol.IsListed (typeSteps d s around kind keyword p) := by
  simp only [typeSteps]
  split
  · exact Step.emits_nil
  · refine Step.emits_emit_cons.2 ⟨hkind, Step.emits_append.2 ⟨?_, Step.emits_visit? _ _⟩⟩
    exact Step.emits_emit?.2 (forall_mem_map fun _ => rfl)

theorem recordSteps_listed : Step.Emits Symbol.IsListed (recordSteps d s around p) := by
  unfold recordSteps
  split
  · exact typeSteps_listed rfl
  · exact typeSteps_listed rfl

theorem enumSymbols_listed : ∀ y ∈ enumSymbols d owner around p, y.IsListed := by
  simp only [enumSymbols]
  split
  · exact List.forall_mem_nil _
  · exact List.forall_mem_cons.2 ⟨rfl, forall_mem_filterMap fun _ => forall_mem_map fun _ => rfl⟩

theorem methodSteps_listed {visibility : Visibility} {result : Option String} :
    Step.Emits Symbol.IsListed (methodSteps d s visibility result p) := by
  simp only [methodSteps]
  split
  · exact Step.emits_nil
  · exact Step.emits_emit_cons.2 ⟨rfl, functionSteps_listed⟩

theorem fields_listed : ∀ y ∈ fields d owner around p, y.IsListed :=
  List.forall_mem_map.2 fun _ _ => SymbolKind.isOther_ite rfl rfl

theorem eventFields_listed : ∀ y ∈ eventFields d owner around p, y.IsListed :=
  List.forall_mem_map.2 fun _ _ => rfl

/-- What has neither declarations nor functions inside is of a listed kind. -/
theorem plainMember?_isOther : ∀ m ∈ plainMember? d p, m.2.1.isOther = false := by
  unfold plainMember?
  split
  · exact forall_mem_map fun _ => rfl
  · rintro _ ⟨⟩
    rfl
  · exact forall_mem_map fun _ => rfl
  · exact forall_mem_map fun _ => rfl
  · exact forall_mem_map fun _ => rfl
  · exact forall_mem_map fun _ => rfl
  · exact forall_mem_none

theorem constructorSteps_listed : Step.Emits Symbol.IsListed (constructorSteps d s around p) := by
  unfold constructorSteps
  split
  · exact Step.emits_nil
  · exact Step.emits_emit_cons.2 ⟨rfl, functionSteps_listed⟩

theorem childSteps_listed : Step.Emits Symbol.IsListed (childSteps d s around p) := by
  unfold childSteps
  split
  · exact namespaceSteps_listed
  · exact namespaceSteps_listed
  · exact typeSteps_listed rfl
  · exact typeSteps_listed rfl
  · exact typeSteps_listed rfl
  · exact recordSteps_listed
  · exact Step.emits_emitAll.2 enumSymbols_listed
  · exact methodSteps_listed
  · exact methodSteps_listed
  · exact constructorSteps_listed
  · exact Step.emits_emit?.2 (forall_mem_map fun _ => rfl)
  · exact Step.emits_emitAll.2 fields_listed
  · exact Step.emits_emitAll.2 eventFields_listed
  · refine Step.emits_emit?.2 fun y hy => ?_
    obtain ⟨m, hm, rfl⟩ := Option.map_eq_some_iff.1 hy
    exact plainMember?_isOther m hm

theorem functionSearchSteps_listed : Step.Emits Symbol.IsListed (functionSearchSteps d s p) := by
  unfold functionSearchSteps
  split
  · exact methodSteps_listed
  · split
    · exact Step.emits_visit_cons.2 Step.emits_nil
    · exact Step.emits_nil

theorem symbols_listed (root : Place) : ∀ y ∈ symbols d root, y.IsListed := by
  refine Rule.forall_mem_walk_of_emits (fun task p => ?_) _ root
  cases task with
  | inside s around =>
      rw [rule]
      exact Step.emits_ite_nil.2 fun _ => Step.emits_flatMap.2 fun _ _ => childSteps_listed
  | functions s =>
      rw [rule]
      exact Step.emits_ite_nil.2 fun _ => Step.emits_flatMap.2 fun _ _ => functionSearchSteps_listed

end Declarations.CSharp

namespace Declarations.PHP

variable {s : Setting} {p : Place}

theorem promotedProperties_listed {owner : String} :
    ∀ y ∈ promotedProperties d owner p, y.IsListed := by
  refine List.forall_mem_flatMap.2 fun _ _ => forall_mem_filterMap fun _ y hy => ?_
  obtain ⟨modifier, -, hy⟩ := Option.bind_eq_some_iff.1 hy
  obtain ⟨sigil, -, hy⟩ := Option.bind_eq_some_iff.1 hy
  cases hy
  rfl

theorem typeSteps_listed {kind : SymbolKind} {keyword : String} (hkind : kind.isOther = false) :
    Step.Emits Symbol.IsListed (typeSteps d s kind keyword p) := by
  simp only [typeSteps]
  split
  · exact Step.emits_nil
  · refine Step.emits_emit_cons.2 ⟨hkind, Step.emits_append.2 ⟨Step.emits_visit? _ _, ?_⟩⟩
    exact Step.emits_emitAll.2 (forall_mem_getD_map fun _ => promotedProperties_listed)

theorem enumSteps_listed : Step.Emits Symbol.IsListed (enumSteps d s p) := by
  simp only [enumSteps]
  split
  · exact Step.emits_nil
  · refine Step.emits_emit_cons.2 ⟨rfl, Step.emits_append.2 ⟨?_, Step.emits_visit? _ _⟩⟩
    exact Step.emits_emitAll.2 (forall_mem_filterMap fun _ => forall_mem_map fun _ => rfl)

theorem properties_listed {owner : Option String} : ∀ y ∈ properties d owner p, y.IsListed :=
  forall_mem_filterMap fun _ => forall_mem_bind_some fun _ => rfl

theorem constants_listed : ∀ y ∈ constants d s p, y.IsListed :=
  forall_mem_filterMap fun _ => forall_mem_bind_some fun _ => rfl

theorem namespaceSteps_listed : Step.Emits Symbol.IsListed (namespaceSteps d s p) := by
  unfold namespaceSteps
  split
  · exact Step.emits_nil
  · exact Step.emits_emit_cons.2 ⟨rfl, Step.emits_visit? _ _⟩

theorem childSteps_listed : Step.Emits Symbol.IsListed (childSteps d s p) := by
  unfold childSteps
  split
  · exact namespaceSteps_listed
  · exact typeSteps_listed rfl
  · exact typeSteps_listed rfl
  · exact typeSteps_listed rfl
  · exact enumSteps_listed
  · exact Step.emits_emit?.2 (forall_mem_map fun _ => rfl)
  · exact Step.emits_emit?.2 (forall_mem_map fun _ => SymbolKind.isOther_ite rfl rfl)
  · exact Step.emits_emitAll.2 properties_listed
  · exact Step.emits_emitAll.2 constants_listed
  · exact Step.emits_visit_cons.2 Step.emits_nil
  · exact Step.emits_visit_cons.2 Step.emits_nil
  · exact Step.emits_nil

theorem symbols_listed (root : Place) : ∀ y ∈ symbols d root, y.IsListed := by
  refine Rule.forall_mem_walk_of_emits (fun s p => ?_) _ root
  unfold rule
  exact Step.emits_ite_nil.2 fun _ => Step.emits_flatMap.2 fun _ _ => childSteps_listed

end Declarations.PHP

namespace Declarations.Ruby

variable {s : Scope} {owner : Option String} {visibility : Visibility} {p : Place}

theorem namespaceSteps_listed {kind : SymbolKind} (hkind : kind.isOther = false) :
    Step.Emits Symbol.IsListed (namespaceSteps d s kind p) := by
  simp only [namespaceSteps]
  split
  · exact Step.emits_nil
  · exact Step.emits_emit_cons.2 ⟨hkind, Step.emits_visit_cons.2 Step.emits_nil⟩

theorem method?_listed : ∀ y ∈ method? d owner visibility p, y.IsListed := by
  refine forall_mem_map fun name => ?_
  by_cases howner : owner.isNone
  · simp only [howner, if_true]
    rfl
  · by_cases hname : name == "initialize"
    · simp only [howner, hname, if_true]
      rfl
    · simp only [howner, hname]
      rfl

theorem accessors_listed : ∀ y ∈ accessors d owner p, y.IsListed := by
  unfold accessors
  split
  · split
    · exact List.forall_mem_map.2 fun _ _ => rfl
    · exact List.forall_mem_nil _
  · exact List.forall_mem_nil _

theorem statementSteps_listed : Step.Emits Symbol.IsListed (statementSteps d s visibility p) := by
  unfold statementSteps
  split
  · exact namespaceSteps_listed rfl
  · exact namespaceSteps_listed rfl
  · exact Step.emits_emit?.2 method?_listed
  · exact Step.emits_emit?.2 (forall_mem_map fun _ => rfl)
  · exact Step.emits_emit?.2 (forall_mem_map fun _ => rfl)
  · exact Step.emits_emitAll.2 accessors_listed
  · exact Step.emits_nil

theorem symbols_listed (root : Place) : ∀ y ∈ symbols d root, y.IsListed := by
  refine Rule.forall_mem_walk_of_emits (fun s p => ?_) _ root
  exact Step.emits_flatMap.2 fun _ _ => statementSteps_listed

end Declarations.Ruby

/-! ## Languages with a profile -/

namespace Profile

/-- Does a profile give all that it declares listed kinds? -/
structure DeclaresListed (profile : Profile) : Prop where
  declared : ∀ p, ∀ kind ∈ profile.declared? p, kind.isOther = false
  properties : ∀ d owner p, ∀ y ∈ profile.properties d owner p, y.IsListed

end Profile

theorem Vocabulary.declared?_isOther {kind : String} :
    ∀ k ∈ declared? kind, k.isOther = false := by
  unfold declared?
  repeat' split
  all_goals first | exact forall_mem_none | (rintro _ ⟨⟩; rfl)

namespace Profile

variable {profile : Profile}

theorem kind?_isOther (h : profile.DeclaresListed) (p : Place) :
    ∀ kind ∈ profile.kind? p, kind.isOther = false :=
  forall_mem_or (h.declared p) Vocabulary.declared?_isOther

theorem ofLanguage_declaresListed (language : String) : (ofLanguage language).DeclaresListed where
  declared := by
    intro p
    unfold ofLanguage
    split
    · show ∀ kind ∈ Kotlin.declared? p, kind.isOther = false
      unfold Kotlin.declared?
      repeat' split
      all_goals first | exact forall_mem_none | (rintro _ ⟨⟩; rfl)
    · show ∀ kind ∈ Swift.declared? p, kind.isOther = false
      unfold Swift.declared?
      repeat' split
      all_goals first | exact forall_mem_none | (rintro _ ⟨⟩; rfl)
    · exact forall_mem_none
  properties := by
    intro d owner p y hy
    obtain ⟨q, -, hy⟩ := exists_of_mem_properties hy
    rw [Symbol.IsListed, hy.kind]
    rfl

end Profile

namespace Declarations.Profiled

theorem symbols_listed {profile : Profile} (h : profile.DeclaresListed) (root : Place) :
    ∀ y ∈ symbols profile d root, y.IsListed := by
  refine Rule.forall_mem_walk_of_emits (fun s p => ?_) _ root
  unfold rule
  refine Step.emits_ite_nil.2 fun _ => Step.emits_flatMap.2 fun c _ => ?_
  unfold childSteps
  split
  · rename_i kind name hkind hname
    refine Step.emits_emit_cons.2 ⟨Profile.kind?_isOther h c kind hkind, ?_⟩
    split
    · refine Step.emits_append.2 ⟨Step.emits_emitAll.2 (h.properties d _ c), ?_⟩
      exact Step.emits_visit_cons.2 Step.emits_nil
    · exact Step.emits_nil
  · exact Step.emits_visit_cons.2 Step.emits_nil

end Declarations.Profiled

/-! ## Markup -/

namespace Declarations.Aura

theorem bundleKind_isOther (ending : String) : (bundleKind ending).isOther = false := by
  unfold bundleKind
  split <;> rfl

theorem memberKind?_isOther {tag : String} : ∀ kind ∈ memberKind? tag, kind.isOther = false := by
  unfold memberKind?
  split
  · rintro _ ⟨⟩
    rfl
  · rintro _ ⟨⟩
    rfl
  · rintro _ ⟨⟩
    rfl
  · exact forall_mem_none

theorem symbols_listed (root : Option Place) : ∀ y ∈ symbols d root, y.IsListed := by
  have hmember : ∀ owner tag, ∀ y ∈ member? d owner tag, y.IsListed := by
    intro owner tag y hy
    obtain ⟨tagName, -, hy⟩ := Option.bind_eq_some_iff.1 hy
    obtain ⟨kind, hkind, hy⟩ := Option.bind_eq_some_iff.1 hy
    obtain ⟨name, -, hy⟩ := Option.bind_eq_some_iff.1 hy
    cases hy
    exact memberKind?_isOther kind hkind
  unfold symbols
  generalize d.nameAndEnding = parts
  obtain ⟨name, ending⟩ := parts
  refine List.forall_mem_cons.2 ⟨bundleKind_isOther ending, fun y hy => ?_⟩
  refine forall_mem_getD_map (fun r => ?_) y (subset_firstOfEachFrom hy)
  refine Idiom.Markup.forall_mem_walk (fun p y hy => ?_) r
  obtain ⟨tag, -, hy⟩ := Option.bind_eq_some_iff.1 hy
  exact hmember name tag y hy

end Declarations.Aura

theorem Declarations.Visualforce.symbols_listed : ∀ y ∈ symbols d, y.IsListed := by
  unfold symbols
  generalize d.nameAndEnding = parts
  exact List.forall_mem_singleton.2 (SymbolKind.isOther_ite rfl rfl)

/-! ## Languages that are read line by line -/

namespace Declarations.FoxPro

open Idiom.FoxPro

theorem endRoutine_listed {m : Machine} {last : Nat} : ∀ y ∈ m.endRoutine last, y.IsListed :=
  List.forall_mem_map.2 fun _ _ => SymbolKind.isOther_ite rfl rfl

theorem endAll_listed {m : Machine} {last : Nat} : ∀ y ∈ m.endAll last, y.IsListed :=
  List.forall_mem_append.2 ⟨endRoutine_listed, List.forall_mem_map.2 fun _ _ => rfl⟩

theorem emit_listed {m : Machine} {s : Statement} {line : Nat} :
    ∀ y ∈ m.emit s line, y.IsListed := by
  cases s with
  | classClose => exact endAll_listed
  | routineClose => exact endRoutine_listed
  | classOpen name base => exact endAll_listed
  | routineOpen keyword name => exact endRoutine_listed
  | constant name value => exact List.forall_mem_singleton.2 rfl
  | assignment name value =>
      refine forall_mem_toList ?_
      unfold Machine.property?
      split
      · exact forall_mem_map fun _ => rfl
      · exact forall_mem_none
  | other => exact List.forall_mem_nil _

theorem symbolsFrom_listed {last : Nat} {m : Machine} {statements : List (Nat × Statement)} :
    ∀ y ∈ m.symbolsFrom last statements, y.IsListed := by
  induction statements generalizing m with
  | nil => exact endAll_listed
  | cons statement rest ih => exact List.forall_mem_append.2 ⟨emit_listed, ih⟩

theorem symbols_listed : ∀ y ∈ symbols d, y.IsListed := by
  refine List.forall_mem_append.2 ⟨symbolsFrom_listed, ?_⟩
  split
  · exact List.forall_mem_singleton.2 rfl
  · exact List.forall_mem_nil _

end Declarations.FoxPro

theorem Declarations.Form.symbols_listed : ∀ y ∈ symbols d, y.IsListed := by
  unfold symbols symbolsOf
  split
  · exact List.forall_mem_nil _
  · refine List.forall_mem_cons.2 ⟨rfl, List.forall_mem_flatMap.2 fun _ _ => ?_⟩
    exact List.forall_mem_map.2 fun _ _ => rfl

namespace Declarations.YAML

open Idiom.YAML

variable {s : Section} {line : Line}

theorem gitlabLine_listed : ∀ y ∈ gitlabLine s line, y.IsListed := by
  unfold gitlabLine
  split
  · exact forall_mem_map fun _ => rfl
  · exact forall_mem_map fun _ => SymbolKind.isOther_ite rfl rfl

theorem used?_listed : ∀ y ∈ used? line, y.IsListed := by
  intro y hy
  obtain ⟨target, -, hy⟩ := Option.bind_eq_some_iff.1 hy
  dsimp only at hy
  split at hy
  · cases hy
  · rw [← Option.some.inj hy]
    rfl

theorem githubLine_listed : ∀ y ∈ githubLine s line, y.IsListed := by
  refine List.forall_mem_append.2 ⟨forall_mem_toList (forall_mem_map fun _ => rfl), ?_⟩
  split
  · exact forall_mem_toList (forall_mem_or (forall_mem_map fun _ => rfl) used?_listed)
  · exact List.forall_mem_nil _

theorem symbols_listed : ∀ y ∈ symbols d, y.IsListed := by
  simp only [symbols]
  split
  · exact forall_mem_filterMap fun _ => gitlabLine_listed
  · exact List.forall_mem_flatMap.2 fun _ _ => githubLine_listed
  · exact forall_mem_filterMap fun _ => forall_mem_map fun _ => rfl

end Declarations.YAML

namespace Declarations.HCL

open Idiom.HCL

/-- A block declares a listed kind. -/
theorem declared?_isOther {o : Opening} : ∀ b ∈ declared? o, b.2.1.isOther = false := by
  unfold declared?
  dsimp only
  repeat' split
  all_goals first | exact forall_mem_none | (rintro _ ⟨⟩; rfl)

theorem block?_listed {depth : Int32} {line : Line} {rest : List Line} :
    ∀ y ∈ block? depth line rest, y.IsListed := by
  intro y hy
  obtain ⟨b, hb, rfl⟩ := Option.map_eq_some_iff.1 hy
  obtain ⟨o, -, hb⟩ := Option.bind_eq_some_iff.1 hb
  exact declared?_isOther b hb

theorem symbolsFrom_listed {depth : Int32} {locals : Option Int32} {lines : List Line} :
    ∀ y ∈ symbolsFrom depth locals lines, y.IsListed := by
  induction lines generalizing depth locals with
  | nil => exact List.forall_mem_nil _
  | cons line rest ih =>
      simp only [symbolsFrom]
      split
      · split
        · exact ih
        · exact List.forall_mem_append.2 ⟨forall_mem_toList (forall_mem_map fun _ => rfl), ih⟩
      · split
        · exact ih
        · exact List.forall_mem_append.2 ⟨forall_mem_toList block?_listed, ih⟩

theorem symbols_listed : ∀ y ∈ symbols d, y.IsListed := by
  unfold symbols
  split
  · exact forall_mem_filterMap fun _ => forall_mem_map fun _ => rfl
  · rw [blockSymbols_eq]
    exact symbolsFrom_listed

end Declarations.HCL

/-! ## Metadata -/

namespace Declarations.Metadata

open Idiom.Metadata

/-- The kinds that components have of their own are none of the listed ones. -/
theorem kind?_isProper {key : String} : ∀ kind ∈ kind? key, kind.IsProper := by
  unfold kind?
  split
  all_goals
    first
    | exact forall_mem_none
    | rintro _ ⟨⟩
  all_goals
    first
    | exact SymbolKind.isProper_of_isOther rfl
    | exact SymbolKind.isProper_other (by decide)

theorem componentKind_isProper {s : Subject} {root : Option Place} :
    (componentKind d s root).IsProper := by
  unfold componentKind
  dsimp only
  cases hkind : Option.or _ _ with
  | none => exact SymbolKind.isProper_other (by decide)
  | some kind =>
      rcases Option.or_eq_some_iff.1 hkind with hkind | ⟨-, hkind⟩
      · obtain ⟨key, -, hkind⟩ := Option.bind_eq_some_iff.1 hkind
        exact kind?_isProper kind hkind
      · exact kind?_isProper kind hkind

theorem part?_listed {s : Subject} {qualified : String} {p : Place} :
    ∀ y ∈ part? d s qualified p, y.IsListed := by
  intro y hy
  obtain ⟨tag, -, hy⟩ := Option.bind_eq_some_iff.1 hy
  obtain ⟨name, -, hy⟩ := Option.bind_eq_some_iff.1 hy
  cases hy
  exact SymbolKind.isOther_ite rfl rfl

theorem symbols_isProper (root : Option Place) : ∀ y ∈ symbols d root, y.kind.IsProper := by
  simp only [symbols]
  split
  · exact List.forall_mem_nil _
  · refine List.forall_mem_cons.2 ⟨componentKind_isProper, ?_⟩
    refine forall_mem_getD_map fun r => Idiom.Markup.forall_mem_walk (fun p y hy => ?_) r
    exact SymbolKind.isProper_of_isOther (part?_listed y hy)

end Declarations.Metadata

end SourceIndex
