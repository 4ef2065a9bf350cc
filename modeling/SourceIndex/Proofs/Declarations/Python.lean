import Mathlib.Data.List.Forall2
import Mathlib.Data.List.Nodup
import Mathlib.Order.WellFounded
import SourceIndex.Proofs.Scopes.Python
import SourceIndex.Proofs.Tree.Preorder

/-!
# Exports and attributes of Python

A module tells by its first assignment to `__all__` which of its names it exports.  Without one, the
names count that do not begin with an underscore.  The walk hands the list of exports down to every
declaration unchanged, so the declarations of a module are exported as the list is read.  It is read
off a list only: a tuple is taken for an empty one.  The blanks around a listed name are dropped.

The constructor of a class declares the attributes that it assigns to `self`, each by the first such
assignment, unless the class has a property of that name by then.  What is settled before a
constructor decides which of its attributes are new; what comes after it changes nothing.  An
assignment counts for the definition that is nearest around it.  The way up from a place in the body
leads to the constructor, so nothing nearer stands between them exactly if the constructor is the
nearest.
-/

namespace SourceIndex.Declarations.Python

open SourceIndex.Idiom.Python
open SourceIndex.Uses.Python (definition? definition?_cases definitionKinds)

/-! ## Exports -/

section Exports

variable (d : Document)

/-- What a module assigns first to `__all__`. -/
def exportValue? (root : Place) : Option Place :=
  (root.children.flatMap assignmentsOf).findSome? fun a => do
    let left ← a.field? "left"
    let right ← a.field? "right"
    if d.text left == "__all__" then some right else none

/-- A string that stands for its own text: without a letter before its quotes, and without
escapes. -/
structure IsPlainString (p : Place) (value : String) : Prop where
  kind : p.kind = "string"
  quoted : ∃ quote ∈ quotes, d.text p = quote ++ value ++ quote
  unescaped : '\\' ∉ value.toList
  /-- Between the quotes stands the value, unless it is empty. -/
  content : (p.childOf? "string_content").map d.text = if value = "" then none else some value

instance (p : Place) (value : String) : Decidable (IsPlainString d p value) :=
  decidable_of_iff
    (p.kind = "string" ∧ (∃ quote ∈ quotes, d.text p = quote ++ value ++ quote) ∧
      '\\' ∉ value.toList ∧
      (p.childOf? "string_content").map d.text = if value = "" then none else some value)
    ⟨fun ⟨h, h', h'', h'''⟩ => ⟨h, h', h'', h'''⟩,
      fun h => ⟨h.kind, h.quoted, h.unescaped, h.content⟩⟩

/-- The marks in and around a sequence, and the comments there. -/
def sequenceMarks : List String :=
  ["[", "]", "(", ")", ",", "comment"]

/-- A list or a tuple of plain strings. -/
structure IsPlainSequence (p : Place) (values : List String) : Prop where
  kind : p.kind ∈ ["list", "tuple"]
  items : List.Forall₂ (IsPlainString d) (p.children.filter fun c => !c.isOneOf sequenceMarks)
    values

instance (p : Place) (values : List String) : Decidable (IsPlainSequence d p values) :=
  decidable_of_iff (p.kind ∈ ["list", "tuple"] ∧ List.Forall₂ (IsPlainString d)
      (p.children.filter fun c => !c.isOneOf sequenceMarks) values)
    ⟨fun ⟨h, h'⟩ => ⟨h, h'⟩, fun h => ⟨h.kind, h.items⟩⟩

/-- Is a name read off a sequence exactly if it stands there?  Off a list the strings are read
without the blanks around them, and no empty ones; off a tuple nothing is read. -/
def IsReadAsListed (p : Place) (values : List String) (name : String) : Prop :=
  if p.kind = "list" then name ∈ values ↔ name ≠ "" ∧ name ∈ values.map Text.trim
  else name ∉ values

instance (p : Place) (values : List String) (name : String) :
    Decidable (IsReadAsListed p values name) :=
  inferInstanceAs (Decidable (if p.kind = "list" then
    (name ∈ values ↔ name ≠ "" ∧ name ∈ values.map Text.trim) else name ∉ values))

variable {d} {root outer p right : Place} {exports : Option (List String)} {s : Scope} {y : Symbol}
  {values : List String}

/-! ### What is read -/

theorem exportList_eq (root : Place) :
    exportList d root = (exportValue? d root).map (listedNames d) := by
  rw [exportList, exportValue?, List.map_findSome?]
  congr 1
  funext a
  rw [Function.comp_apply]
  cases a.field? "left" with
  | none => rfl
  | some left =>
      cases a.field? "right" with
      | none => rfl
      | some right =>
          show (if _ then _ else _) = Option.map _ (if _ then _ else _)
          split <;> rfl

theorem stringContent_eq {value : String} (h : IsPlainString d p value) :
    stringContent d p = Text.trim value := by
  have hcontent := h.content
  unfold stringContent
  cases hc : p.childOf? "string_content" with
  | some c =>
      rw [hc, Option.map_some] at hcontent
      split at hcontent
      · cases hcontent
      · rw [← Option.some.inj hcontent]
  | none =>
      rw [hc, Option.map_none] at hcontent
      split at hcontent
      · -- An empty string is nothing but its quotes.
        rename_i hempty
        subst hempty
        obtain ⟨quote, hquote, htext⟩ := h.quoted
        have hread : ∀ quote ∈ quotes,
            ((quotes.findSome? fun q => between? q (quote ++ "" ++ quote)).map Text.trim).getD
              (quote ++ "" ++ quote) = Text.trim "" := by
          decide +kernel
        rw [htext]
        exact hread quote hquote
      · cases hcontent

theorem listedNames_eq (h : IsPlainSequence d right values) (hkind : right.kind = "list") :
    listedNames d right = (values.map Text.trim).filter fun name => !name.isEmpty := by
  have hstrings := ((List.forall₂_and_left _ _).1 (h.items.imp fun _ _ hc => ⟨hc.kind, hc⟩)).1
  -- What is no mark is a string here, and a string is no mark.
  have hitems : right.childrenOf "string" =
      right.children.filter fun c => !c.isOneOf sequenceMarks := by
    refine List.filter_congr fun c hc => ?_
    cases hmark : c.isOneOf sequenceMarks with
    | true =>
        have hkinds : ∀ k ∈ sequenceMarks, (k == "string") = !true := by decide
        exact hkinds _ (List.contains_iff_mem.1 hmark)
    | false =>
        have hmem : c ∈ right.children.filter fun c => !c.isOneOf sequenceMarks :=
          List.mem_filter.2 ⟨hc, by rw [hmark]; rfl⟩
        exact beq_iff_eq.2 (hstrings c hmem)
  have hcontents : (right.childrenOf "string").map (stringContent d) = values.map Text.trim := by
    rw [hitems, ← List.forall₂_eq_eq_eq, List.forall₂_map_left_iff, List.forall₂_map_right_iff]
    exact h.items.imp fun _ _ => stringContent_eq
  rw [listedNames, hkind, hcontents]
  rfl

theorem listedNames_eq_nil (hkind : right.kind ≠ "list") : listedNames d right = [] :=
  if_neg (by simpa using hkind)

/-! ### What is exported -/

/-- Is the symbol of what was found exported as the list tells, if it belongs to the module? -/
def Found.IsExportedBy (exports : Option (List String)) (f : Found) : Prop :=
  f.symbolOf.parentName = none → f.symbolOf.isExported = isExported exports f.symbolOf.name

/-- What belongs to a class does not belong to the module. -/
theorem isExportedBy_of_liesIn {f : Found} {owner : String}
    (h : f.symbolOf.LiesIn d (some owner) p) : f.IsExportedBy exports := by
  obtain ⟨q, -, -, hparent⟩ := h
  intro hmodule
  rw [hmodule] at hparent
  cases hparent

theorem functionSteps_exported :
    Step.Emits (Found.IsExportedBy exports) (functionSteps d exports s outer p) := by
  simp only [functionSteps]
  split
  · exact Step.emits_nil
  · refine Step.emits_emit_cons.2 ⟨fun _ => rfl, ?_⟩
    intro f hf
    obtain ⟨y, hy, hf⟩ := List.mem_map.1 hf
    cases hf
    split at hy
    · split at hy
      · exact isExportedBy_of_liesIn (initAttributes_lieIn y hy)
      · cases hy
    · cases hy

theorem definitionSteps_exported :
    Step.Emits (Found.IsExportedBy exports) (definitionSteps d exports s outer p) := by
  unfold definitionSteps
  split
  · exact functionSteps_exported
  · simp only [classSteps]
    split
    · exact Step.emits_nil
    · exact Step.emits_emit_cons.2 ⟨fun _ => rfl, Step.emits_visit? _ _⟩
  · exact Step.emits_nil

theorem assignment?_exported {owner : Option String} :
    ∀ y ∈ assignment? d exports owner p, (Found.declared y).IsExportedBy exports := by
  intro y hy
  cases owner with
  | some owner => exact isExportedBy_of_liesIn (assignment?_liesIn y hy)
  | none =>
      obtain ⟨left, -, hy⟩ := Option.bind_eq_some_iff.1 hy
      dsimp only at hy
      split at hy
      · cases hy
      · cases hy
        exact fun _ => rfl

theorem childSteps_exported :
    Step.Emits (Found.IsExportedBy exports) (childSteps d exports s p) := by
  have hassignments : Step.Emits (Found.IsExportedBy exports)
      (((assignmentsOf p).filterMap (assignment? d exports s.name)).map fun a =>
        (Step.emit (.declared a) : Step Scope Found)) := by
    intro f hf
    obtain ⟨y, hy, hf⟩ := List.mem_map.1 hf
    cases hf
    obtain ⟨a, -, hy⟩ := List.mem_filterMap.1 hy
    exact assignment?_exported y hy
  unfold childSteps
  split
  · exact definitionSteps_exported
  · exact definitionSteps_exported
  · refine Step.emits_getD.2 ⟨fun steps hsteps => ?_, fun _ => Step.emits_nil⟩
    obtain ⟨p, -, rfl⟩ := Option.map_eq_some_iff.1 hsteps
    exact definitionSteps_exported
  · exact hassignments
  · exact hassignments
  · exact Step.emits_nil

/-- The declarations of a module are exported as its list of exports tells. -/
theorem isExported_of_mem_symbols (hy : y ∈ symbols d root) (hmodule : y.parentName = none) :
    y.isExported = isExported (exportList d root) y.name := by
  obtain ⟨f, hf, rfl⟩ := exists_of_mem_settleFrom hy
  refine Rule.forall_mem_walk_of_emits (P := Found.IsExportedBy (exportList d root))
    (fun s p => ?_) _ root f hf hmodule
  unfold rule
  exact Step.emits_ite_nil.2 fun _ => Step.emits_flatMap.2 fun _ _ => childSteps_exported

/-- The declarations of a module without `__all__` are exported unless their names begin with an
underscore.  With `__all__` those are exported that are read off the value, and off a value that is
no list nothing is read.  Where the value is a list or a tuple of plain strings, this is what it
says of a name exactly if the name is read as it is listed. -/
theorem exported_as_listed_iff (hy : y ∈ symbols d root) (hmodule : y.parentName = none) :
    (exportValue? d root = none → (y.isExported = true ↔ Text.startsWith "_" y.name = false)) ∧
    ∀ right, exportValue? d root = some right →
      (right.kind ≠ "list" → y.isExported = false) ∧
      ∀ values, IsPlainSequence d right values →
        ((y.isExported = true ↔ y.name ∈ values) ↔ IsReadAsListed right values y.name) := by
  rw [isExported_of_mem_symbols hy hmodule, exportList_eq]
  refine ⟨fun hnone => ?_, fun right hright => ?_⟩
  · rw [hnone, Option.map_none]
    simp [isExported]
  · rw [hright, Option.map_some, isExported]
    refine ⟨fun hkind => by rw [listedNames_eq_nil hkind]; rfl, fun values hvalues => ?_⟩
    unfold IsReadAsListed
    split
    · rename_i hkind
      have hread : (listedNames d right).contains y.name = true ↔
          y.name ≠ "" ∧ y.name ∈ values.map Text.trim := by
        rw [listedNames_eq hvalues hkind, List.contains_iff_mem, List.mem_filter, and_comm]
        simp
      rw [hread]
      exact iff_comm
    · rename_i hkind
      rw [listedNames_eq_nil hkind]
      simp

/-- A function, and a sequence with its name, which is a list or a tuple. -/
def exportTree (kind opening closing : String) : Node :=
  .mk "module" true [] 0 35
    [.mk "expression_statement" true [] 0 20
      [.mk "assignment" true [] 0 20
        [.leaf "identifier" ["left"] 0 7, .token "=" 8 9,
          .mk kind true ["right"] 10 20
            [.token opening 10 11, stringNode 11, .token "," 14 15, stringNode 16,
              .token closing 19 20]]],
      .mk "function_definition" true [] 21 34
        [.token "def" 21 24, .leaf "identifier" ["name"] 25 26,
          .mk "parameters" true ["parameters"] 26 28 [.token "(" 26 27, .token ")" 27 28],
          .token ":" 28 29,
          .mk "block" true ["body"] 30 34
            [.mk "pass_statement" true [] 30 34 [.token "pass" 30 34]]]]
where
  /-- A string of one character. -/
  stringNode (start : Nat) : Node :=
    .mk "string" true [] start (start + 3)
      [.leaf "string_start" [] start (start + 1),
        .leaf "string_content" [] (start + 1) (start + 2),
        .leaf "string_end" [] (start + 2) (start + 3)]

/-- A module that exports its function by a list. -/
def listExports : Document :=
  { path := "a.py"
    bytes := Text.Utf8.encode "__all__ = [\"a\", \"b\"]\ndef a(): pass\n".toList
    limits := {} }

theorem listExports_exported :
    ∃ y ∈ symbols listExports (.root (exportTree "list" "[" "]")), y.parentName = none ∧
      ∃ right ∈ exportValue? listExports (.root (exportTree "list" "[" "]")),
        IsPlainSequence listExports right ["a", "b"] ∧ IsReadAsListed right ["a", "b"] y.name ∧
          (y.isExported = true ↔ y.name ∈ ["a", "b"]) := by
  have hlist : ∃ y ∈ symbols listExports (.root (exportTree "list" "[" "]")),
      y.parentName = none ∧ ∃ right ∈ exportValue? listExports (.root (exportTree "list" "[" "]")),
        IsPlainSequence listExports right ["a", "b"] ∧ IsReadAsListed right ["a", "b"] y.name := by
    decide +kernel
  obtain ⟨y, hy, hmodule, right, hright, hvalues, hread⟩ := hlist
  exact ⟨y, hy, hmodule, right, hright, hvalues, hread,
    (((exported_as_listed_iff hy hmodule).2 right hright).2 _ hvalues).2 hread⟩

/-- A module that exports its function by a tuple. -/
def tupleExports : Document :=
  { path := "a.py"
    bytes := Text.Utf8.encode "__all__ = (\"a\", \"b\")\ndef a(): pass\n".toList
    limits := {} }

/-- The function is listed in a tuple, and not exported. -/
theorem tupleExports_not_exported :
    ∃ y ∈ symbols tupleExports (.root (exportTree "tuple" "(" ")")), y.parentName = none ∧
      ∃ right ∈ exportValue? tupleExports (.root (exportTree "tuple" "(" ")")),
        IsPlainSequence tupleExports right ["a", "b"] ∧ y.name ∈ ["a", "b"] ∧
          y.isExported = false := by
  decide +kernel

end Exports

/-! ## Attributes -/

section Attributes

/-! ### Settling -/

/-- Is a property of this owner and name among some symbols? -/
def IsRecorded (all : List Symbol) (owner : Option String) (name : String) : Prop :=
  ∃ y ∈ all, y.kind = .property ∧ y.parentName = owner ∧ y.name = name

/-- The owner and the name of a symbol. -/
def ownedName (y : Symbol) : Option String × String :=
  (y.parentName, y.name)

theorem isRecorded_cons {y : Symbol} {all : List Symbol} {owner : Option String} {name : String} :
    IsRecorded (y :: all) owner name ↔
      (y.kind = .property ∧ ownedName y = (owner, name)) ∨ IsRecorded all owner name := by
  simp only [IsRecorded, List.exists_mem_cons_iff, ownedName, Prod.mk.injEq]

/-- A symbol that is recorded if it is a property, and then what is settled behind it. -/
theorem recorded_cons {y : Symbol} {seen seen' : List (Option String × String)} {all : List Symbol}
    (hseen : ∀ key, key ∈ seen' ↔ key ∈ seen ∨ y.kind = .property ∧ ownedName y = key)
    (owner : Option String) (name : String) :
    (owner, name) ∈ seen' ∨ IsRecorded all owner name ↔
      (owner, name) ∈ seen ∨ IsRecorded (y :: all) owner name := by
  rw [hseen, isRecorded_cons, or_assoc]

/-- What is settled first decides on the rest by the properties that it records. -/
theorem exists_settleFrom_append {earlier : List Found}
    (h : ∀ y, Found.attribute y ∈ earlier → y.kind = .property)
    (seen : List (Option String × String)) :
    ∃ seen', (∀ later, settleFrom seen (earlier ++ later) =
        settleFrom seen earlier ++ settleFrom seen' later) ∧
      ∀ owner name, (owner, name) ∈ seen' ↔
        (owner, name) ∈ seen ∨ IsRecorded (settleFrom seen earlier) owner name := by
  induction earlier generalizing seen with
  | nil => exact ⟨seen, fun _ => rfl, by simp [settleFrom, IsRecorded]⟩
  | cons found earlier ih =>
      have ih := ih fun y hy => h y (List.mem_cons_of_mem _ hy)
      rcases found with y | y
      · simp only [List.cons_append, settleFrom]
        obtain ⟨seen', happend, hseen'⟩ :=
          ih (if y.kind == .property then (y.parentName, y.name) :: seen else seen)
        refine ⟨seen', fun later => by rw [happend], fun owner name => ?_⟩
        rw [hseen']
        refine recorded_cons (fun key => ?_) owner name
        split
        · rename_i hkind
          rw [List.mem_cons, or_comm, eq_comm, and_iff_right (eq_of_beq hkind), ownedName]
        · rename_i hkind
          have hother : ¬ (y.kind = .property ∧ ownedName y = key) := fun hy => hkind (by simp [hy.1])
          rw [or_iff_left hother]
      · simp only [List.cons_append, settleFrom]
        split
        · -- The class has such a property, so nothing is recorded.
          exact ih seen
        · obtain ⟨seen', happend, hseen'⟩ := ih ((y.parentName, y.name) :: seen)
          refine ⟨seen', fun later => by rw [happend, List.cons_append], fun owner name => ?_⟩
          rw [hseen']
          refine recorded_cons (fun key => ?_) owner name
          rw [List.mem_cons, or_comm, eq_comm, and_iff_right (h y List.mem_cons_self), ownedName]

/-- Of some attributes those are settled that are the first of their name and not recorded. -/
theorem mem_settleFrom_attributes_iff {seen : List (Option String × String)}
    {attributes : List Symbol} {z : Symbol} :
    z ∈ settleFrom seen (attributes.map .attribute) ↔ ownedName z ∉ seen ∧
      attributes.find? (fun y => ownedName y == ownedName z) = some z := by
  induction attributes generalizing seen with
  | nil => simp [settleFrom]
  | cons y attributes ih =>
      rw [List.map_cons, settleFrom, List.find?_cons]
      cases hkey : ownedName y == ownedName z with
      | true =>
          -- The attribute has the name, so it is the first one.
          have hkey : (y.parentName, y.name) = ownedName z := eq_of_beq hkey
          rw [hkey, Option.some.injEq]
          split
          · rename_i hseen
            rw [ih]
            simp only [List.contains_iff_mem] at hseen
            simp [hseen]
          · rename_i hseen
            rw [List.contains_iff_mem] at hseen
            rw [List.mem_cons, ih, eq_comm]
            simp [hseen]
      | false =>
          have hkey : ownedName z ≠ (y.parentName, y.name) := fun heq => by
            rw [heq] at hkey
            simp [ownedName] at hkey
          split
          · exact ih
          · have hne : z ≠ y := fun heq => hkey (by rw [heq, ownedName])
            rw [List.mem_cons, or_iff_right hne, ih, List.mem_cons, not_or, and_iff_right hkey]

/-- No two of the attributes that are settled have one owner and one name. -/
theorem nodup_settleFrom_attributes {seen : List (Option String × String)}
    {attributes : List Symbol} :
    ((settleFrom seen (attributes.map .attribute)).map ownedName).Nodup := by
  induction attributes generalizing seen with
  | nil => exact List.nodup_nil
  | cons y attributes ih =>
      rw [List.map_cons, settleFrom]
      split
      · exact ih
      · refine List.nodup_cons.2 ⟨fun hmem => ?_, ih⟩
        obtain ⟨z, hz, heq⟩ := List.mem_map.1 hmem
        refine (mem_settleFrom_attributes_iff.1 hz).1 ?_
        rw [heq]
        exact List.mem_cons_self

/-! ### Assignments of a constructor -/

/-- The definitions with a `self` of their own, or with none. -/
def definers : List String :=
  ["function_definition", "class_definition", "lambda"]

variable (d : Document)

/-- An assignment to an attribute of `self` in the body of a definition, as far down as a walk goes,
and no nearer definition is around it. -/
structure Assigns (init p : Place) (name : String) : Prop where
  inBody : ∃ body ∈ init.field? "body", p ∈ body.subtree ∧ body.level < p.level ∧
    p.level ≤ body.level + d.limits.walkDepth.toNat
  kind : p.kind = "assignment"
  nearest : p.ancestors.find? (·.isOneOf definers) = some init
  target : ∃ left ∈ p.field? "left", left.kind = "attribute" ∧
    (∃ object ∈ left.field? "object", d.text object = "self") ∧
      d.fieldText left "attribute" = some name

/-- The first of the assignments to an attribute. -/
structure AssignsFirst (init p : Place) (name : String) : Prop where
  assigns : Assigns d init p name
  first : ∀ q, Assigns d init q name → p.number ≤ q.number

/-- The definition of a constructor, bare or decorated, to which the walk comes in the body of a
class of this qualified name. -/
structure IsConstructor (root : Place) (owner : String) (outer init : Place) : Prop where
  reached : ∃ v ∈ (rule d (exportList d root)).visits {} root, v.1.name = some owner ∧
    d.tooDeep v.1.depth = false ∧ outer ∈ v.2.children
  definition : definition? outer = some init
  kind : init.kind = "function_definition"
  named : d.fieldText init "name" = some "__init__"

/-- The attribute that a place in the body of a constructor declares. -/
def attribute? (init : Place) (owner : String) (p : Place) : Option Symbol :=
  if p.kind == "assignment" && !isInInnerDefinition init p then
    (selfAttribute? d p).map (property d owner p)
  else
    none

variable {d} {root outer init body p q : Place} {owner name : String} {y z : Symbol}

/-- Nothing stands between a place and a definition around it exactly if that is the nearest. -/
theorem isInInnerDefinition_eq_false_iff (hp : p ∈ init.subtree) (hlevel : init.level < p.level)
    (hinit : init.isOneOf definers = true) :
    isInInnerDefinition init p = false ↔ p.ancestors.find? (·.isOneOf definers) = some init := by
  rcases Place.ancestors_of_mem_subtree hp with rfl | ⟨-, between, hancestors, hbetween⟩
  · exact absurd hlevel (Nat.lt_irrefl _)
  have htake : (p.ancestors.takeWhile fun q => q.level != init.level) = between := by
    rw [hancestors, List.takeWhile_append_of_pos (by simpa using hbetween),
      List.takeWhile_cons_of_neg (by simp), List.append_nil]
  have hany : isInInnerDefinition init p = false ↔
      between.find? (·.isOneOf definers) = none := by
    rw [isInInnerDefinition, htake, List.any_eq_false, List.find?_eq_none]
    rfl
  have hfirst : (init :: init.ancestors).find? (·.isOneOf definers) = some init :=
    List.find?_cons_of_pos hinit
  rw [hany, hancestors, List.find?_append, hfirst]
  cases hfind : between.find? (·.isOneOf definers) with
  | none => simp
  | some r =>
      have hr := hbetween r (List.mem_of_find?_eq_some hfind)
      refine iff_of_false nofun fun heq => hr ?_
      rw [Option.some_or, Option.some.injEq] at heq
      rw [heq]

theorem selfAttribute?_eq_some_iff : selfAttribute? d p = some name ↔
    ∃ left ∈ p.field? "left", left.kind = "attribute" ∧
      (∃ object ∈ left.field? "object", d.text object = "self") ∧
        d.fieldText left "attribute" = some name := by
  refine Option.bind_eq_some_iff.trans ?_
  refine exists_congr fun left => and_congr_right fun _ => ?_
  have hobject : (∃ object ∈ left.field? "object", d.text object = "self") ↔
      (left.field? "object").map d.text = some "self" :=
    Option.map_eq_some_iff.symm
  rw [hobject]
  by_cases hkind : left.kind = "attribute"
  · by_cases hself : (left.field? "object").map d.text = some "self"
    · simp [hkind, hself]
    · simp [hkind, hself]
  · simp [hkind]

theorem initAttributes_eq (hbody : init.field? "body" = some body) :
    initAttributes d init owner =
      (body.descendants d.limits.walkDepth.toNat).filterMap (attribute? d init owner) := by
  rw [initAttributes, hbody]
  rfl

/-- Of what stands below the body of a definition, the assignments to attributes of `self` declare
attributes. -/
theorem attribute?_eq_some_iff (hbody : init.field? "body" = some body)
    (hinit : init.isOneOf definers = true)
    (hp : p ∈ body.descendants d.limits.walkDepth.toNat) :
    attribute? d init owner p = some z ↔
      ∃ name, Assigns d init p name ∧ z = property d owner p name := by
  obtain ⟨hsubtree, hlevel, hdepth⟩ := Place.mem_descendants_iff.1 hp
  have hchild := Place.mem_children_of_field? hbody
  have hbodyLevel := Place.level_of_mem_children hchild
  have hinner := isInInnerDefinition_eq_false_iff
    (Place.mem_subtree_trans (Place.mem_subtree_of_child hchild) hsubtree) (by omega) hinit
  rw [attribute?, Option.ite_none_right_eq_some, Bool.and_eq_true, beq_iff_eq, Bool.not_eq_true',
    hinner, Option.map_eq_some_iff]
  constructor
  · rintro ⟨⟨hkind, hnearest⟩, name, hname, rfl⟩
    exact ⟨name, ⟨⟨body, hbody, hsubtree, hlevel, hdepth⟩, hkind, hnearest,
      selfAttribute?_eq_some_iff.1 hname⟩, rfl⟩
  · rintro ⟨name, h, rfl⟩
    exact ⟨⟨h.kind, h.nearest⟩, name, selfAttribute?_eq_some_iff.2 h.target, rfl⟩

theorem any_attribute?_iff (hbody : init.field? "body" = some body)
    (hinit : init.isOneOf definers = true)
    (hp : p ∈ body.descendants d.limits.walkDepth.toNat) :
    (attribute? d init owner p).any (fun y => ownedName y == (some owner, name)) = true ↔
      Assigns d init p name := by
  rw [Option.any_eq_true]
  constructor
  · rintro ⟨y, hy, hname⟩
    obtain ⟨name', h, rfl⟩ := (attribute?_eq_some_iff hbody hinit hp).1 hy
    obtain rfl : name' = name := congrArg Prod.snd (eq_of_beq hname)
    exact h
  · intro h
    exact ⟨_, (attribute?_eq_some_iff hbody hinit hp).2 ⟨name, h, rfl⟩, beq_self_eq_true _⟩

/-- The first attribute of a name is declared by the first assignment. -/
theorem find?_initAttributes_iff (hinit : init.isOneOf definers = true) :
    (initAttributes d init owner).find? (fun y => ownedName y == (some owner, name)) = some z ↔
      ∃ p, AssignsFirst d init p name ∧ z = property d owner p name := by
  cases hbody : init.field? "body" with
  | none =>
      rw [initAttributes, hbody]
      refine iff_of_false nofun ?_
      rintro ⟨p, ⟨⟨⟨body, hbody', -⟩, -⟩, -⟩, -⟩
      rw [hbody] at hbody'
      cases hbody'
  | some body =>
      have hmem : ∀ q, Assigns d init q name → q ∈ body.descendants d.limits.walkDepth.toNat := by
        rintro q ⟨⟨body', hbody', hq⟩, -⟩
        rw [hbody] at hbody'
        cases hbody'
        exact Place.mem_descendants_iff.2 hq
      rw [initAttributes_eq hbody, List.find?_filterMap, Option.bind_eq_some_iff]
      refine exists_congr fun p => ?_
      rw [find?_eq_some_iff_of_pairwise (Place.pairwise_number_descendants _ _)]
      constructor
      · rintro ⟨⟨hp, hany, hfirst⟩, hz⟩
        have hassigns := (any_attribute?_iff hbody hinit hp).1 hany
        refine ⟨⟨hassigns, fun q hq => ?_⟩, ?_⟩
        · exact hfirst q (hmem q hq) ((any_attribute?_iff hbody hinit (hmem q hq)).2 hq)
        · rw [hz, Option.any_some] at hany
          obtain ⟨name', h, rfl⟩ := (attribute?_eq_some_iff hbody hinit hp).1 hz
          obtain rfl : name' = name := congrArg Prod.snd (eq_of_beq hany)
          rfl
      · rintro ⟨⟨hassigns, hfirst⟩, rfl⟩
        have hp := hmem p hassigns
        refine ⟨⟨hp, (any_attribute?_iff hbody hinit hp).2 hassigns, fun q hq hany => ?_⟩, ?_⟩
        · exact hfirst q ((any_attribute?_iff hbody hinit hq).1 hany)
        · exact (attribute?_eq_some_iff hbody hinit hp).2 ⟨name, hassigns, rfl⟩

/-! ### What a constructor adds -/

theorem exists_assignsFirst (h : Assigns d init q name) : ∃ p, AssignsFirst d init p name := by
  obtain ⟨p, hp, hfirst⟩ :=
    (measure Place.number).wf.has_min {p | Assigns d init p name} ⟨q, h⟩
  exact ⟨p, hp, fun r hr => Nat.le_of_not_lt (hfirst r hr)⟩

variable (d) in
/-- What a constructor adds to the symbols before it: the attributes to which it assigns, each by
its first assignment, unless its class has a property of that name. -/
structure AddsAttributes (init : Place) (owner : String) (before added : List Symbol) : Prop where
  mem_iff : ∀ z, z ∈ added ↔ ∃ p name, AssignsFirst d init p name ∧
    z = property d owner p name ∧ ¬ IsRecorded before (some owner) name
  new : ∀ z ∈ added, z.kind = .property ∧ z.parentName = some owner ∧
    ¬ IsRecorded before (some owner) z.name
  distinct : (added.map Symbol.name).Nodup
  complete : ∀ p name, Assigns d init p name → IsRecorded before (some owner) name ∨
    ∃ q, AssignsFirst d init q name ∧ property d owner q name ∈ added

theorem addsAttributes_settleFrom {seen : List (Option String × String)} {before : List Symbol}
    (hinit : init.isOneOf definers = true)
    (hseen : ∀ owner name, (owner, name) ∈ seen ↔ IsRecorded before owner name) :
    AddsAttributes d init owner before
      (settleFrom seen ((initAttributes d init owner).map .attribute)) := by
  have howner : ∀ z ∈ settleFrom seen ((initAttributes d init owner).map .attribute),
      z.parentName = some owner := by
    intro z hz
    have hfound := (mem_settleFrom_attributes_iff.1 hz).2
    obtain ⟨-, -, -, howner⟩ := initAttributes_lieIn z (List.mem_of_find?_eq_some hfound)
    exact howner
  have hmem : ∀ z, z ∈ settleFrom seen ((initAttributes d init owner).map .attribute) ↔
      ∃ p name, AssignsFirst d init p name ∧ z = property d owner p name ∧
        ¬ IsRecorded before (some owner) name := by
    intro z
    constructor
    · intro hz
      obtain ⟨hnew, hfound⟩ := mem_settleFrom_attributes_iff.1 hz
      rw [ownedName, howner z hz] at hnew hfound
      obtain ⟨p, hp, heq⟩ := (find?_initAttributes_iff hinit).1 hfound
      exact ⟨p, z.name, hp, heq, fun h => hnew ((hseen _ _).2 h)⟩
    · rintro ⟨p, name, hp, rfl, hnew⟩
      refine mem_settleFrom_attributes_iff.2 ⟨fun h => hnew ((hseen _ _).1 h), ?_⟩
      exact (find?_initAttributes_iff hinit).2 ⟨p, hp, rfl⟩
  refine ⟨hmem, fun z hz => ?_, ?_, fun p name hp => ?_⟩
  · obtain ⟨p, name, -, rfl, hnew⟩ := (hmem z).1 hz
    exact ⟨rfl, rfl, hnew⟩
  · -- All have one owner, so that their names are different as well.
    refine List.Nodup.of_map (fun name => (some owner, name)) ?_
    rw [List.map_map]
    have howned : ∀ z ∈ settleFrom seen ((initAttributes d init owner).map .attribute),
        (some owner, z.name) = ownedName z := by
      intro z hz
      rw [ownedName, howner z hz]
    rw [Function.comp_def, List.map_congr_left howned]
    exact nodup_settleFrom_attributes
  · by_cases hnew : IsRecorded before (some owner) name
    · exact Or.inl hnew
    · obtain ⟨q, hq⟩ := exists_assignsFirst hp
      exact Or.inr ⟨q, hq, (hmem _).2 ⟨q, name, hq, rfl, hnew⟩⟩

/-- Of a constructor the walk finds its declaration, and then its attributes. -/
theorem childSteps_of_isConstructor {s : Scope} (exports : Option (List String))
    (h : IsConstructor d root owner outer init) (hs : s.name = some owner) :
    ∃ y, (y.name = "__init__" ∧ y.kind = .method ∧ y.parentName = some owner) ∧
      childSteps d exports s outer =
        (.declared y :: (initAttributes d init owner).map .attribute).map .emit := by
  have hkind : outer.kind ∈ definitionKinds := by
    obtain ⟨-, hkind⟩ | ⟨-, hkind⟩ := definition?_cases h.definition
    · exact List.mem_cons_of_mem _ hkind
    · rw [hkind]
      exact List.mem_cons_self
  rw [childSteps_of_mem_definitionKinds hkind, h.definition, Option.map_some, Option.getD_some]
  simp only [definitionSteps, h.kind, functionSteps, h.named, hs, Option.isSome_some,
    beq_self_eq_true, if_true, List.map_cons, List.map_map]
  exact ⟨_, ⟨rfl, rfl, rfl⟩, rfl⟩

theorem infix_walk_of_isConstructor (h : IsConstructor d root owner outer init) :
    ∃ y, (y.name = "__init__" ∧ y.kind = .method ∧ y.parentName = some owner) ∧
      .declared y :: (initAttributes d init owner).map .attribute <:+:
        (rule d (exportList d root)).walk {} root := by
  obtain ⟨⟨s, p⟩, hv, hs, hdepth, houter⟩ := h.reached
  obtain ⟨y, hy, hsteps⟩ := childSteps_of_isConstructor (exportList d root) h hs
  refine ⟨y, hy, List.IsInfix.trans ?_ (Rule.walk_infix_of_mem_visits rule_descends hv)⟩
  have hpiece := infix_flatMap houter fun c => (childSteps d (exportList d root) s c).flatMap
    (Step.items (rule d (exportList d root)).walk)
  rw [hsteps, Step.flatMap_items_emit] at hpiece
  rw [Rule.walk_eq rule_descends, rule, hdepth, if_neg Bool.false_ne_true, List.flatMap_assoc]
  exact hpiece

/-- A constructor adds, after its own symbol, the attributes that it assigns to `self`: each once,
by the first assignment, and only those that its class does not have among the symbols before.
After it the class has every attribute that it assigns. -/
theorem init_adds_attributes (h : IsConstructor d root owner outer init) :
    ∃ earlier y later, (rule d (exportList d root)).walk {} root =
        earlier ++ .declared y :: (initAttributes d init owner).map .attribute ++ later ∧
      (y.name = "__init__" ∧ y.kind = .method ∧ y.parentName = some owner) ∧
      ∃ added rest, symbols d root = settleFrom [] earlier ++ y :: added ++ rest ∧
        AddsAttributes d init owner (settleFrom [] earlier) added := by
  obtain ⟨y, hy, earlier, later, hwalk⟩ := infix_walk_of_isConstructor h
  refine ⟨earlier, y, later, hwalk.symm, hy, ?_⟩
  have hproperties : ∀ z, Found.attribute z ∈
      earlier ++ .declared y :: (initAttributes d init owner).map .attribute ++ later →
      z.kind = .property := by
    intro z hz
    rw [hwalk] at hz
    exact kind_of_attribute_mem_walk hz
  -- What is settled first decides which of the attributes are new, and they on what comes after.
  obtain ⟨seen, hearlier, hseen⟩ := exists_settleFrom_append
    (fun z (hz : .attribute z ∈ earlier) => hproperties z (by simp [hz])) []
  obtain ⟨seen', hattributes, -⟩ := exists_settleFrom_append
    (fun z (hz : .attribute z ∈ (initAttributes d init owner).map Found.attribute) =>
      hproperties z (List.mem_append_left _ (List.mem_append_right _
        (List.mem_cons_of_mem _ hz)))) seen
  refine ⟨settleFrom seen ((initAttributes d init owner).map .attribute), settleFrom seen' later,
    ?_, addsAttributes_settleFrom ?_ fun owner name => ?_⟩
  · have hmethod : (y.kind == .property) = false := by
      rw [hy.2.1]
      rfl
    rw [symbols, ← hwalk, List.append_assoc, hearlier, List.cons_append, settleFrom, hmethod,
      if_neg Bool.false_ne_true, hattributes, List.append_assoc, List.cons_append]
  · rw [Place.isOneOf, h.kind]
    rfl
  · rw [hseen]
    simp

/-- A class with a property, and a constructor that assigns to it and to another attribute. -/
def attributedClass : Document :=
  { path := "a.py"
    bytes := Text.Utf8.encode
      "class A:\n  x = 1\n  def __init__(self):\n    self.x = 2\n    self.y = 3\n".toList
    limits := {} }

/-- The tree of `attributedClass`. -/
def attributedClassTree : Node :=
  .mk "module" true [] 0 69
    [.mk "class_definition" true [] 0 68
      [.token "class" 0 5, .leaf "identifier" ["name"] 6 7, .token ":" 7 8,
        .mk "block" true ["body"] 11 68
          [assignment 11 (.leaf "identifier" ["left"] 11 12) 16,
            .mk "function_definition" true [] 19 68
              [.token "def" 19 22, .leaf "identifier" ["name"] 23 31,
                .mk "parameters" true ["parameters"] 31 37
                  [.token "(" 31 32, .leaf "identifier" [] 32 36, .token ")" 36 37],
                .token ":" 37 38,
                .mk "block" true ["body"] 43 68
                  [assignment 43 (ofSelf 43) 53, assignment 58 (ofSelf 58) 68]]]]]
where
  /-- An assignment of a digit. -/
  assignment (start : Nat) (left : Node) (stop : Nat) : Node :=
    .mk "expression_statement" true [] start stop
      [.mk "assignment" true [] start stop
        [left, .token "=" (stop - 3) (stop - 2), .leaf "integer" ["right"] (stop - 1) stop]]
  /-- An attribute of `self` with a name of one letter. -/
  ofSelf (start : Nat) : Node :=
    .mk "attribute" true ["left"] start (start + 6)
      [.leaf "identifier" ["object"] start (start + 4), .token "." (start + 4) (start + 5),
        .leaf "identifier" ["attribute"] (start + 5) (start + 6)]

-- The class has `x` before its constructor, so that only `y` is new.
example : (symbols attributedClass (.root attributedClassTree)).map (fun y => (y.name, y.lineStart)) =
    [("A", 1), ("x", 2), ("__init__", 3), ("y", 5)] := by
  decide +kernel

theorem attributedClass_adds_attributes :
    ∃ outer init, IsConstructor attributedClass (.root attributedClassTree) "A" outer init ∧
      ∃ earlier y later, (rule attributedClass (exportList attributedClass
          (.root attributedClassTree))).walk {} (.root attributedClassTree) =
        earlier ++ .declared y :: (initAttributes attributedClass init "A").map .attribute ++ later ∧
      (y.name = "__init__" ∧ y.kind = .method ∧ y.parentName = some "A") ∧
      ∃ added rest, symbols attributedClass (.root attributedClassTree) =
          settleFrom [] earlier ++ y :: added ++ rest ∧
        AddsAttributes attributedClass init "A" (settleFrom [] earlier) added := by
  have hinit : ∃ v ∈ (rule attributedClass (exportList attributedClass
      (.root attributedClassTree))).visits {} (.root attributedClassTree),
      ∃ outer ∈ v.2.children, ∃ init ∈ (definition? outer).toList, v.1.name = some "A" ∧
        attributedClass.tooDeep v.1.depth = false ∧ init.kind = "function_definition" ∧
        attributedClass.fieldText init "name" = some "__init__" := by
    decide +kernel
  obtain ⟨v, hv, outer, houter, init, hdefinition, hs, hdepth, hkind, hname⟩ := hinit
  have hinit : IsConstructor attributedClass (.root attributedClassTree) "A" outer init :=
    ⟨⟨v, hv, hs, hdepth, houter⟩, Option.mem_toList.1 hdefinition, hkind, hname⟩
  exact ⟨outer, init, hinit, init_adds_attributes hinit⟩

end Attributes

end SourceIndex.Declarations.Python
