import SourceIndex.Proofs.Paths.Readers
import SourceIndex.Proofs.Tree.Descent

/-!
# Headers of C

Whether a file is a header says whether it exports what it declares, and nothing else.  A file that
is none declares what a header would, without exporting it; namespaces count as exported in both.
-/

namespace SourceIndex

namespace Step

variable {τ α β : Type} (f : α → β)

/-- The same step, with a change to what it hands out. -/
def mapItem : Step τ α → Step τ β
  | .emit item => .emit (f item)
  | .visit task place => .visit task place

theorem map_emitAll (items : List α) :
    (emitAll items : List (Step τ α)).map (mapItem f) = emitAll (items.map f) := by
  rw [emitAll, emitAll, List.map_map, List.map_map]
  rfl

theorem map_emit? (item : Option α) :
    (emit? item : List (Step τ α)).map (mapItem f) = emit? (item.map f) := by
  cases item <;> rfl

theorem map_visit? (task : τ) (place : Option Place) :
    (visit? task place : List (Step τ α)).map (mapItem f) = visit? task place := by
  cases place <;> rfl

end Step

/-- A rule that hands out changed items makes a walk with changed items. -/
theorem Rule.walk_map {τ α β : Type} {rule : Rule τ β} {other : Rule τ α} {f : α → β}
    (h : ∀ task p, rule task p = (other task p).map (Step.mapItem f)) (task : τ) (p : Place) :
    rule.walk task p = (other.walk task p).map f := by
  have hrun : ∀ levels task p, rule.run levels task p = (other.run levels task p).map f := by
    intro levels
    induction levels with
    | zero => exact fun _ _ => rfl
    | succ levels ih =>
        intro task p
        rw [run_succ, run_succ, h, List.flatMap_map, List.map_flatMap]
        refine List.flatMap_congr fun step _ => ?_
        cases step with
        | emit item => rfl
        | visit task' q => exact ih task' q
  exact hrun _ task p

/-- The symbol as a file that exports nothing has it; namespaces are exported by every file. -/
def Symbol.unexported (y : Symbol) : Symbol :=
  if y.kind = .module then y else { y with isExported := false }

theorem Symbol.unexported_eq_self_iff {y : Symbol} :
    y.unexported = y ↔ (y.isExported = true → y.kind = .module) := by
  unfold unexported
  split
  · rename_i hkind
    exact iff_of_true rfl fun _ => hkind
  · rename_i hkind
    constructor
    · intro heq hexported
      rw [← heq] at hexported
      cases hexported
    · intro himp
      have hnot : y.isExported = false := Bool.eq_false_iff.2 (mt himp hkind)
      rw [← hnot]

namespace Declarations.C

variable {dialect : Dialect} {d : Document} (hd : exports d = false) (path : String)

theorem symbolIn_unexported (owner : Option String) (p : Place) (name : String) {kind : SymbolKind}
    (hkind : kind ≠ .module) (details : Symbol.Details) :
    (symbolIn (d.withPath path) owner p name kind details).unexported =
      symbolIn d owner p name kind { details with isExported := some false } := by
  exact if_neg hkind

include hd

/-- What is said of the access does not depend on the path. -/
theorem linkage_eq (p : Place) (access : Option Visibility) :
    linkage d p access = ((linkage (d.withPath path) p access).1, false) := by
  have hstatic : Idiom.C.isStatic (d.withPath path) p = Idiom.C.isStatic d p := rfl
  unfold linkage
  rw [hstatic, hd]
  cases access with
  | some v => rfl
  | none => cases Idiom.C.isStatic d p <;> rfl

theorem functionSymbol_eq (owner : Option String) (access : Option Visibility) (p : Place)
    (type name params : String) :
    functionSymbol dialect d owner access p type name params =
      (functionSymbol dialect (d.withPath path) owner access p type name params).unexported := by
  unfold functionSymbol
  dsimp only
  rw [symbolIn_unexported path, linkage_eq hd path]
  · rfl
  · split <;> nofun

theorem function?_eq (owner : Option String) (access : Option Visibility) (p : Place) :
    function? dialect d owner access p =
      (function? dialect (d.withPath path) owner access p).map Symbol.unexported := by
  unfold function?
  cases p.field? "declarator" with
  | none => rfl
  | some f =>
      have hparts : Idiom.C.functionParts (d.withPath path) f = Idiom.C.functionParts d f := rfl
      rw [Option.bind_eq_bind, Option.bind_some, Option.bind_some, hparts]
      cases Idiom.C.functionParts d f with
      | none => rfl
      | some parts => exact congrArg some (functionSymbol_eq hd path owner access p _ _ _)

theorem declared?_eq (owner : Option String) (access : Option Visibility) (p c : Place) :
    declared? dialect d owner access p c =
      (declared? dialect (d.withPath path) owner access p c).map Symbol.unexported := by
  have hparts : Idiom.C.functionParts (d.withPath path) c = Idiom.C.functionParts d c := rfl
  have hname : Idiom.C.declaratorName (d.withPath path) c = Idiom.C.declaratorName d c := rfl
  have htype : typeText (d.withPath path) p = typeText d p := rfl
  have hconst : Idiom.C.isConst (d.withPath path) p = Idiom.C.isConst d p := rfl
  unfold declared?
  dsimp only
  rw [hparts, hname, htype, hconst]
  split
  · cases Idiom.C.functionParts d c with
    | none => rfl
    | some parts => exact congrArg some (functionSymbol_eq hd path owner access p _ _ _)
  · split
    · rw [Option.map_map]
      refine congrArg (Option.map · _) (funext fun name => ?_)
      dsimp only [Function.comp]
      rw [symbolIn_unexported path, linkage_eq hd path]
      · rfl
      · split <;> nofun
    · rfl

theorem declaration_eq (owner : Option String) (access : Option Visibility) (p : Place) :
    declaration dialect d owner access p =
      (declaration dialect (d.withPath path) owner access p).map Symbol.unexported := by
  rw [declaration, declaration, List.map_filterMap]
  exact List.filterMap_congr fun c _ => declared?_eq hd path owner access p c

theorem field?_eq (owner : String) (access : Visibility) (p c : Place) :
    field? dialect d owner access p c =
      (field? dialect (d.withPath path) owner access p c).map Symbol.unexported := by
  have hparts : Idiom.C.functionParts (d.withPath path) c = Idiom.C.functionParts d c := rfl
  have hname : Idiom.C.declaratorName (d.withPath path) c = Idiom.C.declaratorName d c := rfl
  have htype : typeText (d.withPath path) p = typeText d p := rfl
  unfold field?
  dsimp only
  rw [hparts, hname, htype]
  split
  · cases Idiom.C.functionParts d c with
    | none => rfl
    | some parts =>
        exact congrArg some (functionSymbol_eq hd path (some owner) (some access) p _ _ _)
  · split
    · rw [Option.map_map]
      refine congrArg (Option.map · _) (funext fun name => ?_)
      dsimp only [Function.comp]
      rw [symbolIn_unexported path, hd]
      · rfl
      · nofun
    · rfl

theorem recordSteps_eq (s : Scope) (p : Place) :
    recordSteps d s p =
      (recordSteps (d.withPath path) s p).map (Step.mapItem Symbol.unexported) := by
  have hname : (d.withPath path).fieldText p "name" = d.fieldText p "name" := rfl
  unfold recordSteps
  rw [hname]
  cases d.fieldText p "name" with
  | none => rfl
  | some name =>
      dsimp only
      rw [List.map_cons, Step.map_visit?, Step.mapItem, symbolIn_unexported path, hd]
      · rfl
      · split <;> nofun

theorem enumerators_eq (qualified : String) (p : Place) :
    enumerators d qualified p =
      (enumerators (d.withPath path) qualified p).map Symbol.unexported := by
  unfold enumerators
  cases p.field? "body" with
  | none => rfl
  | some body =>
      dsimp only
      rw [List.map_filterMap]
      refine List.filterMap_congr fun e _ => ?_
      rw [Option.map_map]
      refine congrArg (Option.map · _) (funext fun name => ?_)
      dsimp only [Function.comp]
      rw [symbolIn_unexported path, hd]
      · rfl
      · nofun

theorem enumSymbols_eq (owner : Option String) (p : Place) :
    enumSymbols d owner p = (enumSymbols (d.withPath path) owner p).map Symbol.unexported := by
  have hname : (d.withPath path).fieldText p "name" = d.fieldText p "name" := rfl
  unfold enumSymbols
  rw [hname]
  cases d.fieldText p "name" with
  | none => rfl
  | some name =>
      dsimp only
      rw [List.map_cons, ← enumerators_eq hd path, symbolIn_unexported path, hd]
      · rfl
      · nofun

theorem typedefBodySteps_eq (s : Scope) (name : String) (t : Place) :
    typedefBodySteps d s name t =
      (typedefBodySteps (d.withPath path) s name t).map (Step.mapItem Symbol.unexported) := by
  unfold typedefBodySteps
  dsimp only
  split
  · split
    · exact recordSteps_eq hd path s.deeper t
    · rfl
  · split
    · exact recordSteps_eq hd path s.deeper t
    · rfl
  · split
    · rw [enumSymbols_eq hd path, Step.map_emitAll]
    · rw [enumerators_eq hd path, Step.map_emitAll]
  · rfl

theorem typedefSteps_eq (s : Scope) (p : Place) :
    typedefSteps d s p =
      (typedefSteps (d.withPath path) s p).map (Step.mapItem Symbol.unexported) := by
  have hname : typedefName (d.withPath path) p = typedefName d p := rfl
  unfold typedefSteps
  rw [hname]
  cases typedefName d p with
  | none => rfl
  | some name =>
      have hbody : ((p.field? "type").map (typedefBodySteps d s name)).getD [] =
          (((p.field? "type").map (typedefBodySteps (d.withPath path) s name)).getD []).map
            (Step.mapItem Symbol.unexported) := by
        cases p.field? "type" with
        | none => rfl
        | some t => exact typedefBodySteps_eq hd path s name t
      dsimp only
      rw [List.map_cons, ← hbody, Step.mapItem, symbolIn_unexported path, hd]
      · rfl
      · nofun

omit hd in
/-- Namespaces are exported whatever the file is. -/
theorem namespaceSteps_eq (s : Scope) (p : Place) :
    namespaceSteps d s p =
      (namespaceSteps (d.withPath path) s p).map (Step.mapItem Symbol.unexported) := by
  have hname : (d.withPath path).fieldText p "name" = d.fieldText p "name" := rfl
  unfold namespaceSteps
  dsimp only
  rw [hname, List.map_append, Step.map_visit?, Step.map_emit?, Option.map_map]
  rfl

/-- What a child declares in a file that is no header. -/
theorem childSteps_eq (s : Scope) (c : Place) :
    childSteps dialect d s c =
      (childSteps dialect (d.withPath path) s c).map (Step.mapItem Symbol.unexported) := by
  unfold childSteps
  split
  case h_1 => rw [function?_eq hd path, Step.map_emit?]
  case h_2 => rw [declaration_eq hd path, Step.map_emitAll]
  case h_3 => exact recordSteps_eq hd path s c
  case h_4 => exact recordSteps_eq hd path s c
  case h_5 => exact recordSteps_eq hd path s c
  case h_6 => rw [enumSymbols_eq hd path, Step.map_emitAll]
  case h_7 => exact typedefSteps_eq hd path s c
  case h_8 => exact namespaceSteps_eq path s c
  case h_9 => split <;> rfl

/-- What a member declares in a file that is no header. -/
theorem memberSteps_eq (s : Scope) (access : Visibility) (m : Place) :
    memberSteps dialect d s access m =
      (memberSteps dialect (d.withPath path) s access m).map (Step.mapItem Symbol.unexported) := by
  unfold memberSteps
  dsimp only
  split
  case h_1 =>
    rw [Step.map_emitAll, List.map_filterMap]
    refine congrArg Step.emitAll (List.filterMap_congr fun c _ => ?_)
    exact field?_eq hd path _ access m c
  case h_2 =>
    split
    · rw [function?_eq hd path, Step.map_emit?]
    · rfl
  case h_3 =>
    split
    · rw [declaration_eq hd path, Step.map_emitAll]
    · rfl
  case h_4 => rfl
  case h_5 => exact recordSteps_eq hd path s.deeper m
  case h_6 => exact recordSteps_eq hd path s.deeper m
  case h_7 => exact recordSteps_eq hd path s.deeper m
  case h_8 => rw [enumSymbols_eq hd path, Step.map_emitAll]
  case h_9 => rfl

/-- A file that is no header declares what it would under any path, but exports only namespaces. -/
theorem symbols_eq (hextra : dialect.extra = fun _ _ => none) (root : Place) :
    symbols dialect d root = (symbols dialect (d.withPath path) root).map Symbol.unexported := by
  refine Rule.walk_map (fun task p => ?_) (Task.inside {}) root
  have hdeep : (d.withPath path).tooDeep = d.tooDeep := rfl
  have haccess : withAccess (d.withPath path) = withAccess d := withAccess_congr rfl
  cases task with
  | inside s =>
      dsimp only [rule]
      rw [hdeep, hextra]
      split
      · rfl
      · rw [List.map_flatMap]
        exact List.flatMap_congr fun c _ => childSteps_eq hd path s c
  | members s access =>
      dsimp only [rule]
      rw [hdeep, haccess]
      split
      · rfl
      · rw [List.map_flatMap]
        exact List.flatMap_congr fun m _ => memberSteps_eq hd path s m.1 m.2

omit hd in
/-- Files that are no headers declare the same, if what the dialect adds does. -/
theorem rule_withPath {path other : String} (hpath : exports (d.withPath path) = false)
    (hother : exports (d.withPath other) = false)
    (hextra : dialect.extra (d.withPath path) = dialect.extra (d.withPath other)) :
    rule dialect (d.withPath path) = rule dialect (d.withPath other) := by
  have hchildren : childSteps dialect (d.withPath path) =
      childSteps dialect (d.withPath other) := by
    funext s c
    exact (childSteps_eq hpath other s c).trans (childSteps_eq hother other s c).symm
  have hmembers : memberSteps dialect (d.withPath path) =
      memberSteps dialect (d.withPath other) := by
    funext s access m
    exact (memberSteps_eq hpath other s access m).trans
      (memberSteps_eq hother other s access m).symm
  have haccess : withAccess (d.withPath path) = withAccess (d.withPath other) :=
    withAccess_congr rfl
  funext task p
  cases task with
  | inside s =>
      dsimp only [rule]
      rw [hextra, hchildren]
      rfl
  | members s access =>
      dsimp only [rule]
      rw [haccess, hmembers]
      rfl

end Declarations.C

/-- What Objective-C adds to the declarations does not depend on the path. -/
theorem Declarations.ObjC.extra_withPath (d : Document) (path other : String) :
    dialect.extra (d.withPath path) = dialect.extra (d.withPath other) := by
  have hselector := Idiom.ObjC.selector_congr (d := d.withPath path) (e := d.withPath other) rfl
  dsimp only [dialect]
  unfold interfaceSymbols implementationSymbols protocolSymbols method?
  rw [hselector]
  rfl

/-- Nor does what it adds to the uses. -/
theorem Uses.ObjC.dialect_withPath (d : Document) (path other : String) :
    dialect (d.withPath path) = dialect (d.withPath other) := by
  have hselector := Idiom.ObjC.selector_congr (d := d.withPath path) (e := d.withPath other) rfl
  unfold dialect
  rw [hselector]
  rfl

theorem Uses.C.rule_withPath {dialect : Dialect} {d : Document} {path other : String}
    (hdialect : dialect (d.withPath path) = dialect (d.withPath other)) :
    rule (d.withPath path) dialect = rule (d.withPath other) dialect := by
  unfold rule
  rw [hdialect]
  rfl

namespace Extractor

variable {path other : String}

/-- The extractors of the family of C. -/
def cFamily : List Extractor :=
  [c, cpp, objc]

theorem findsSame_of_mem_cFamily (hpath : Idiom.C.isHeader path = false)
    (hother : Idiom.C.isHeader other = false) : ∀ e ∈ cFamily, e.FindsSame path other := by
  have hsymbols : ∀ {dialect : Declarations.C.Dialect} {d : Document},
      dialect.extra (d.withPath path) = dialect.extra (d.withPath other) →
      Declarations.C.symbols dialect (d.withPath path) =
        Declarations.C.symbols dialect (d.withPath other) :=
    fun hextra => congrArg (fun rule : Rule Declarations.C.Task Symbol => rule.walk (.inside {}))
      (Declarations.C.rule_withPath hpath hother hextra)
  simp only [cFamily, List.forall_mem_cons]
  refine ⟨findsSame_ofTree (fun _ => hsymbols rfl) ?c,
    findsSame_ofTree (fun _ => hsymbols rfl) ?cpp,
    findsSame_ofTree (fun d => hsymbols (Declarations.ObjC.extra_withPath d path other)) ?objc,
    nofun⟩
  case c => exact fun _ => rfl
  case cpp => exact fun _ => rfl
  case objc =>
    exact fun d => congrArg (·.walk {})
      (Uses.C.rule_withPath (Uses.ObjC.dialect_withPath d path other))

/-- A file of C or C++ that is no header finds what it finds under any path, but exports less. -/
theorem symbols_unexported (hpath : Idiom.C.isHeader path = false) (other : String) {e : Extractor}
    (he : e ∈ [c, cpp]) (parse : Parser) (d : Document) (root : Option Place) :
    e.symbols parse (d.withPath path) root =
        (e.symbols parse (d.withPath other) root).map Symbol.unexported ∧
      e.references parse (d.withPath path) root = e.references parse (d.withPath other) root := by
  simp only [List.mem_cons, List.not_mem_nil, or_false] at he
  rcases he with rfl | rfl
  all_goals
    refine ⟨?_, rfl⟩
    cases root with
    | none => rfl
    | some r => exact Declarations.C.symbols_eq (d := d.withPath path) hpath other rfl r

end Extractor

end SourceIndex
