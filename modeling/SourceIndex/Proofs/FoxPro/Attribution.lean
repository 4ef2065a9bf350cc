import SourceIndex.Proofs.FoxPro.Lines
import SourceIndex.Proofs.FoxPro.Symbols
import SourceIndex.Proofs.Text.Pattern
import SourceIndex.Uses.FoxPro

/-!
# Where FoxPro programs use names

Uses and declarations of a program are found by two walks over its statements that keep apart what
is open.  They agree on the class and the routine around a statement, except in one situation: a
class that is opened ends the routine before it as a declaration, while the uses inside the class
still count for that routine.  The statements in this situation are the only ones whose uses stand
in no symbol.
-/

namespace SourceIndex.Uses.FoxPro

open SourceIndex.Idiom.FoxPro
open SourceIndex.Declarations.FoxPro (Machine Opened opensUnit symbol_stands_around)
open SourceIndex.Declarations.FoxPro.Machine (symbolsFrom)

/-- Does a symbol with the name of its scope stand around a use, if the use has a scope? -/
def IsAttributed (symbols : List Symbol) (u : Reference) : Prop :=
  ∀ name, u.sourceName = some name →
    ∃ y ∈ symbols, y.qualifiedName = name ∧ y.lineStart ≤ u.line ∧ u.line ≤ y.lineEnd

/-- A statement in a class, with a routine that was opened before the class and not closed. -/
structure Stray where
  line : Nat
  text : List Char
  className : String
  routine : String
  deriving Repr, DecidableEq

/-- The uses of a stray statement, all of which count for the routine as if it were a method. -/
def Stray.uses (t : Stray) : List Reference :=
  statementUses t.line.toUInt32 (some (t.className ++ "." ++ t.routine)) t.text

/-- Does a statement give a value to a property with the name of the routine? -/
def Stray.IsAssignment (t : Stray) : Prop :=
  ∃ value, Statement.ofLine t.text = .assignment t.routine value

/-- The stray statements of some lines, where `routine` is open, and `inside` are a class and the
routine that was open when the class was opened, as long as no routine follows. -/
def straysFrom (routine : Option String) (inside : Option (String × String)) :
    List (Nat × List Char) → List Stray
  | [] => []
  | (line, text) :: rest =>
      match Statement.ofLine text with
      | .classOpen name _ => straysFrom routine (routine.map fun r => (name, r)) rest
      | .classClose | .routineClose => straysFrom none none rest
      | .routineOpen _ name => straysFrom (some name) none rest
      | _ => (inside.toList.map fun (c, r) => ⟨line, text, c, r⟩) ++ straysFrom routine inside rest

/-- The stray statements of a program. -/
def strays (program : Program) : List Stray :=
  straysFrom none none program.statements

/-! ## Uses, one statement after another -/

/-- The surroundings behind a statement. -/
def Surroundings.next (s : Surroundings) : Statement → Surroundings
  | .classOpen name _ => { s with className := some name }
  | .classClose => {}
  | .routineOpen _ name => { s with routine := some name }
  | .routineClose => { s with routine := none }
  | _ => s

/-- The uses of one line. -/
def lineUses (s : Surroundings) (line : Nat) (text : List Char) : List Reference :=
  match Statement.ofLine text with
  | .classOpen name base =>
      if Builtin.isClass base then []
      else [{ sourceName := some name, targetName := base, kind := .inherits, line := line.toUInt32 }]
  | .classClose | .routineOpen _ _ | .routineClose => []
  | _ => statementUses line.toUInt32 s.qualified text

theorem usesFrom_cons (s : Surroundings) (line : Nat) (text : List Char)
    (rest : List (Nat × List Char)) :
    usesFrom s ((line, text) :: rest) =
      lineUses s line text ++ usesFrom (s.next (Statement.ofLine text)) rest := by
  rw [usesFrom, lineUses]
  cases Statement.ofLine text <;> rfl

theorem lineUses_of_isPlain {s : Surroundings} {line : Nat} {text : List Char}
    (h : (Statement.ofLine text).isPlain = true) :
    lineUses s line text = statementUses line.toUInt32 s.qualified text := by
  unfold lineUses
  generalize Statement.ofLine text = statement at h ⊢
  cases statement with
  | classOpen name base => cases h
  | classClose => cases h
  | routineOpen keyword name => cases h
  | routineClose => cases h
  | _ => rfl

/-- Whatever a statement uses, it uses on its line and for the scope around it. -/
theorem scope_of_mem_statementUses {line : UInt32} {scope : Option String} {text : List Char}
    {u : Reference} (h : u ∈ statementUses line scope text) :
    u.sourceName = scope ∧ u.line = line := by
  have hcalls : ∀ v ∈ calls line scope text, v.sourceName = scope ∧ v.line = line := by
    intro v hv
    obtain ⟨target, _, rfl⟩ := List.mem_map.1 hv
    exact ⟨rfl, rfl⟩
  have hcreations : ∀ v ∈ creations line scope text, v.sourceName = scope ∧ v.line = line := by
    intro v hv
    rcases List.mem_append.1 hv with hv | hv
    · obtain ⟨m, _, hm⟩ := List.mem_filterMap.1 hv
      obtain ⟨target, _, rfl⟩ := Option.map_eq_some_iff.1 hm
      exact ⟨rfl, rfl⟩
    · obtain ⟨m, _, hm⟩ := List.mem_filterMap.1 hv
      simp only [Option.bind_eq_bind, Option.bind_eq_some_iff, Option.some.injEq] at hm
      obtain ⟨target, _, library, _, rfl⟩ := hm
      exact ⟨rfl, rfl⟩
  have hrun : ∀ v, run? line scope text = some v → v.sourceName = scope ∧ v.line = line := by
    intro v hv
    simp only [run?, Option.or_eq_some_iff, Option.map_eq_some_iff] at hv
    rcases hv with (⟨_, _, rfl⟩ | ⟨_, _, _, rfl⟩) | ⟨_, _, _, rfl⟩ <;> exact ⟨rfl, rfl⟩
  have himport : ∀ v, import? line scope text = some v → v.sourceName = scope ∧ v.line = line := by
    intro v hv
    obtain ⟨path, _, rfl⟩ := Option.map_eq_some_iff.1 hv
    exact ⟨rfl, rfl⟩
  unfold statementUses at h
  split at h
  · rename_i v hv
    obtain rfl := List.mem_singleton.1 h
    rcases Option.or_eq_some_iff.1 hv with hv | ⟨_, hv⟩
    · exact hrun _ hv
    · exact himport _ hv
  · rcases List.mem_append.1 h with h | h
    · exact hcreations _ h
    · split at h
      · obtain rfl := List.mem_singleton.1 h
        exact ⟨rfl, rfl⟩
      · exact hcalls _ h

theorem line_of_mem_lineUses {s : Surroundings} {line : Nat} {text : List Char} {u : Reference}
    (h : u ∈ lineUses s line text) : u.line = line.toUInt32 := by
  unfold lineUses at h
  split at h
  · split at h
    · cases h
    · rw [List.mem_singleton.1 h]
  · cases h
  · cases h
  · cases h
  · exact (scope_of_mem_statementUses h).2

theorem line_of_mem_usesFrom {s : Surroundings} {statements : List (Nat × List Char)}
    {u : Reference} (h : u ∈ usesFrom s statements) : ∃ t ∈ statements, u.line = t.1.toUInt32 := by
  induction statements generalizing s with
  | nil => cases h
  | cons t rest ih =>
      rw [usesFrom_cons] at h
      rcases List.mem_append.1 h with h | h
      · exact ⟨t, List.mem_cons_self, line_of_mem_lineUses h⟩
      · obtain ⟨t', ht', hline⟩ := ih h
        exact ⟨t', List.mem_cons_of_mem _ ht', hline⟩

/-! ## Names of constants -/

theorem bodies_wordAnyCase (text : String) (number : Nat) :
    (Text.Pattern.wordAnyCase text).bodies number = [] := by
  have hseqs : ∀ chars : List Char, (Text.Pattern.seqs (chars.map fun c =>
      Text.Pattern.one (Text.Pattern.sameLetter c))).bodies number = [] := by
    intro chars
    induction chars with
    | nil => rfl
    | cons c rest ih =>
        cases rest with
        | nil => rfl
        | cons c' rest => exact ih
  exact hseqs text.toList

/-- The first group of the line that defines a constant is its name. -/
theorem bodies_constantLine : Statement.constantLine.bodies 1 = [Statement.name] := by
  show (Text.Pattern.wordAnyCase "#DEFINE").bodies 1 ++ [Statement.name] = [Statement.name]
  rw [bodies_wordAnyCase, List.nil_append]

/-- The name of a constant has no dot, so it is no qualified name. -/
theorem dot_notMem_of_constant {text : List Char} {name value : String}
    (h : Statement.ofLine text = .constant name value) : '.' ∉ name.toList := by
  -- No other form of a line gives a constant, so the name is what its pattern has read.
  have hgroups : ∃ v, Statement.groups? Statement.constantLine text = some (name, v) := by
    have hassignment : ∀ statement, Statement.assignment? text = some statement →
        statement ≠ .constant name value := by
      intro statement hsome
      simp only [Statement.assignment?, Option.bind_eq_bind, Option.bind_eq_some_iff] at hsome
      obtain ⟨⟨name', value'⟩, _, hif⟩ := hsome
      split at hif
      · cases hif
      · cases hif
        exact nofun
    unfold Statement.ofLine at h
    split at h
    · cases h
    · split at h
      · cases h
      · cases hdeclaration : Statement.declaration? text with
        | none =>
            rw [hdeclaration] at h
            cases h
        | some statement =>
            rw [hdeclaration, Option.getD_some] at h
            subst h
            simp only [Statement.declaration?, Option.or_eq_some_iff, Option.map_eq_some_iff]
              at hdeclaration
            rcases hdeclaration with (⟨_, _, h⟩ | ⟨_, _, _, h⟩) | ⟨_, ⟨g, hg, h⟩ | ⟨_, h⟩⟩
            · cases h
            · cases h
            · cases h
              exact ⟨g.2, hg⟩
            · exact absurd rfl (hassignment _ h)
  obtain ⟨v, hgroups⟩ := hgroups
  simp only [Statement.groups?, Option.bind_eq_bind, Option.bind_eq_some_iff, Option.some.injEq,
    Prod.mk.injEq] at hgroups
  obtain ⟨m, hmatch, found, htext, _, _, rfl, _⟩ := hgroups
  obtain ⟨body, hbody, hreads⟩ := Text.Pattern.reads_of_text? hmatch htext
  rw [bodies_constantLine, List.mem_singleton] at hbody
  subst hbody
  intro hdot
  have hword := hreads.all_of_plus '.' hdot
  revert hword
  decide

/-! ## Both walks side by side -/

/-- What the uses know as open is what the declarations know as open, but for a routine in a class
that was opened later. -/
structure Agrees (s : Surroundings) (m : Machine) (inside : Option (String × String)) : Prop where
  ofClass : s.className = m.classOpen.map Opened.name
  ofRoutine : inside = none → s.routine = m.routineOpen.map Opened.name
  ofStray : ∀ c r, inside = some (c, r) →
    s.className = some c ∧ s.routine = some r ∧ m.routineOpen = none ∧ m.phase = .inClass

theorem agrees_initial : Agrees {} {} none :=
  ⟨rfl, fun _ => rfl, nofun⟩

/-- The class and the routine of stray statements behind a statement. -/
def insideNext (routine : Option String) (inside : Option (String × String)) :
    Statement → Option (String × String)
  | .classOpen name _ => routine.map fun r => (name, r)
  | .classClose | .routineOpen _ _ | .routineClose => none
  | _ => inside

/-- A line as stray statement, if it is one. -/
def lineStrays (inside : Option (String × String)) (line : Nat) (text : List Char) : List Stray :=
  if (Statement.ofLine text).isPlain then
    inside.toList.map fun (c, r) => ⟨line, text, c, r⟩
  else
    []

theorem straysFrom_cons (s : Surroundings) (inside : Option (String × String)) (line : Nat)
    (text : List Char) (rest : List (Nat × List Char)) :
    straysFrom s.routine inside ((line, text) :: rest) =
      lineStrays inside line text ++
        straysFrom (s.next (Statement.ofLine text)).routine
          (insideNext s.routine inside (Statement.ofLine text)) rest := by
  rw [straysFrom, lineStrays]
  cases Statement.ofLine text <;> rfl

/-- Every statement keeps the two walks together. -/
theorem Agrees.step {s : Surroundings} {m : Machine} {inside : Option (String × String)}
    (h : Agrees s m inside) (statement : Statement) (line : Nat) :
    Agrees (s.next statement) (m.step statement line)
      (insideNext s.routine inside statement) := by
  cases statement with
  | classOpen name base =>
      refine ⟨rfl, fun hnone => Option.map_eq_none_iff.1 hnone, fun c r hsome => ?_⟩
      obtain ⟨r', hr', heq⟩ := Option.map_eq_some_iff.1 hsome
      cases heq
      exact ⟨rfl, hr', rfl, by cases m.phase <;> rfl⟩
  | classClose => exact ⟨rfl, fun _ => rfl, nofun⟩
  | routineOpen keyword name => exact ⟨h.ofClass, fun _ => rfl, nofun⟩
  | routineClose => exact ⟨h.ofClass, fun _ => rfl, nofun⟩
  | _ =>
      rw [Machine.step_of_isPlain rfl]
      exact h

variable {s : Surroundings} {m : Machine} {inside : Option (String × String)} {line last : Nat}
  {rest : List (Nat × Statement)}

/-- Outside of stray statements, what is open around a line becomes a symbol around the line. -/
theorem exists_symbol_around (hagrees : Agrees s m none) (hstarts : m.StartsBefore line)
    (hrest : ∀ t ∈ rest, line < t.1 ∧ t.1 ≤ last) (hline : line ≤ last) (hsmall : last < 2 ^ 32)
    {name : String} (hname : s.qualified = some name) :
    ∃ y ∈ symbolsFrom last m rest, y.qualifiedName = name ∧
      y.lineStart ≤ line.toUInt32 ∧ line.toUInt32 ≤ y.lineEnd := by
  have hclass := hagrees.ofClass
  have hroutine := hagrees.ofRoutine rfl
  -- The innermost of what is open has the qualified name: the routine, or else the class.
  cases hopen : m.routineOpen with
  | some r =>
      obtain ⟨stop, hfrom, hto, hsubset⟩ :=
        Machine.exists_endRoutine (m := m) hrest hline
      have hstart := hstarts.ofRoutine r hopen
      rw [Machine.endRoutine, hopen] at hsubset
      refine ⟨_, hsubset List.mem_cons_self, ?_, symbol_stands_around hstart.1
        hstart.2.le hfrom (by omega)⟩
      rw [hopen] at hroutine
      rw [Surroundings.qualified, hclass, hroutine] at hname
      cases hclassOpen : m.classOpen with
      | none =>
          rw [hclassOpen] at hname
          exact Option.some.inj hname
      | some c =>
          rw [hclassOpen] at hname
          exact Option.some.inj hname
  | none =>
      rw [hopen] at hroutine
      rw [Surroundings.qualified, hclass, hroutine] at hname
      cases hclassOpen : m.classOpen with
      | none =>
          rw [hclassOpen] at hname
          cases hname
      | some c =>
          obtain ⟨stop, hfrom, hto, hsubset⟩ :=
            Machine.exists_endClass (m := m) hrest hline
          have hstart := hstarts.ofClass c hclassOpen
          rw [hclassOpen] at hname
          rw [Machine.endClass, hclassOpen] at hsubset
          exact ⟨_, hsubset List.mem_cons_self, Option.some.inj hname,
            symbol_stands_around hstart.1 hstart.2.le hfrom (by omega)⟩

/-- Among stray statements an assignment declares a property of the class. -/
theorem property?_of_stray {c r : String} (hagrees : Agrees s m (some (c, r)))
    (name value : String) :
    m.property? name value line =
      some (Declarations.FoxPro.symbol name .property line line
        { qualifiedName := some (c ++ "." ++ name)
          signature := some (name ++ " = " ++ Text.take 40 value)
          parentName := some c }) := by
  obtain ⟨hclass, -, hroutine, hphase⟩ := hagrees.ofStray c r rfl
  rw [hagrees.ofClass] at hclass
  obtain ⟨opened, hopened, rfl⟩ := Option.map_eq_some_iff.1 hclass
  simp only [Machine.property?, hphase, hroutine, hopened, Option.isNone_none, beq_self_eq_true,
    Bool.and_self, if_true, Option.map_some]

/-- A stray statement declares the qualified name only if it is the property of that name. -/
theorem assignment_of_mem_emit {text : List Char} {c r : String} {y : Symbol}
    (hagrees : Agrees s m (some (c, r))) (hplain : (Statement.ofLine text).isPlain = true)
    (hy : y ∈ m.emit (Statement.ofLine text) line) (hname : y.qualifiedName = c ++ "." ++ r) :
    ∃ value, Statement.ofLine text = .assignment r value := by
  generalize hstatement : Statement.ofLine text = statement at hy hplain
  cases statement with
  | constant name value =>
      -- A constant keeps its own name, in which there is no dot.
      obtain rfl := List.mem_singleton.1 hy
      have hdot := dot_notMem_of_constant hstatement
      change name = c ++ "." ++ r at hname
      rw [hname, String.toList_append, String.toList_append] at hdot
      exact absurd (List.mem_append_left _ (List.mem_append_right _ (List.mem_singleton.2 rfl)))
        hdot
  | assignment name value =>
      rw [Machine.emit, property?_of_stray hagrees, Option.toList_some] at hy
      obtain rfl := List.mem_singleton.1 hy
      have hlist := congrArg String.toList hname
      change (c ++ "." ++ name).toList = (c ++ "." ++ r).toList at hlist
      simp only [String.toList_append] at hlist
      have hsame : name = r := String.toList_inj.1 (List.append_cancel_left hlist)
      exact ⟨value, by rw [hsame]⟩
  | other => cases hy
  | _ => cases hplain

/-- All that is open around a stray statement is its class, which has another name. -/
theorem ne_of_mem_endAll_stray {c r : String} {y : Symbol} {stop : Nat}
    (hagrees : Agrees s m (some (c, r))) (hy : y ∈ m.endAll stop) :
    y.qualifiedName ≠ c ++ "." ++ r := by
  obtain ⟨hclass, -, hroutine, -⟩ := hagrees.ofStray c r rfl
  rw [hagrees.ofClass] at hclass
  obtain ⟨opened, hopened, rfl⟩ := Option.map_eq_some_iff.1 hclass
  rw [Machine.endAll, Machine.endRoutine, Machine.endClass, hroutine, hopened] at hy
  obtain rfl := List.mem_singleton.1 hy
  intro hname
  have hlength := congrArg (fun name => name.toList.length) hname
  simp only [String.toList_append, List.length_append] at hlength
  change opened.name.toList.length = opened.name.toList.length + 1 + _ at hlength
  omega

/-- A qualified name of a stray statement is a symbol around its line only if the statement itself
is the property of that name. -/
theorem exists_symbol_around_iff {text : List Char} {c r : String}
    (hagrees : Agrees s m (some (c, r)))
    (hplain : (Statement.ofLine text).isPlain = true) (hone : 1 ≤ line)
    (hrest : ∀ t ∈ rest, line < t.1 ∧ t.1 ≤ last) (hline : line ≤ last) (hsmall : last < 2 ^ 32) :
    (∃ y ∈ symbolsFrom last m ((line, Statement.ofLine text) :: rest),
      y.qualifiedName = c ++ "." ++ r ∧ y.lineStart ≤ line.toUInt32 ∧ line.toUInt32 ≤ y.lineEnd) ↔
      ∃ value, Statement.ofLine text = .assignment r value := by
  constructor
  · rintro ⟨y, hy, hname, hstart, -⟩
    rw [Machine.symbolsFrom_cons, Machine.step_of_isPlain hplain] at hy
    rcases List.mem_append.1 hy with hy | hy
    · exact assignment_of_mem_emit hagrees hplain hy hname
    · rcases Machine.mem_symbolsFrom hsmall hrest hy with ⟨stop, hend⟩ | hbehind
      · exact absurd hname (ne_of_mem_endAll_stray hagrees hend)
      · rw [UInt32.le_iff_toNat_le, toNat_toUInt32 (by omega)] at hstart
        omega
  · rintro ⟨value, hstatement⟩
    rw [hstatement, Machine.symbolsFrom_cons, Machine.emit, property?_of_stray hagrees]
    exact ⟨_, List.mem_append_left _ (List.mem_singleton.2 rfl), rfl,
      symbol_stands_around hone (le_refl line) (le_refl line) (by omega)⟩

/-- Where the walks agree on the routine too, all that a statement uses stands in a symbol. -/
theorem statementUses_attributed {text : List Char} (hagrees : Agrees s m none)
    (hplain : (Statement.ofLine text).isPlain = true) (hstarts : m.StartsBefore line)
    (hrest : ∀ t ∈ rest, line < t.1 ∧ t.1 ≤ last) (hline : line ≤ last) (hsmall : last < 2 ^ 32) :
    ∀ u ∈ statementUses line.toUInt32 s.qualified text,
      IsAttributed (symbolsFrom last m ((line, Statement.ofLine text) :: rest)) u := by
  intro u hu name hname
  obtain ⟨hscope, hon⟩ := scope_of_mem_statementUses hu
  rw [hscope] at hname
  obtain ⟨y, hy, hy'⟩ := exists_symbol_around hagrees hstarts hrest hline hsmall hname
  rw [Machine.symbolsFrom_cons, Machine.step_of_isPlain hplain, hon]
  exact ⟨y, List.mem_append_right _ hy, hy'⟩

/-- The uses of a stray statement stand in symbols if there are none, or if the statement declares
the property that they count for. -/
theorem statementUses_attributed_iff_of_stray {text : List Char} {c r : String}
    (hagrees : Agrees s m (some (c, r))) (hplain : (Statement.ofLine text).isPlain = true)
    (hone : 1 ≤ line) (hrest : ∀ t ∈ rest, line < t.1 ∧ t.1 ≤ last) (hline : line ≤ last)
    (hsmall : last < 2 ^ 32) :
    (∀ u ∈ statementUses line.toUInt32 s.qualified text,
      IsAttributed (symbolsFrom last m ((line, Statement.ofLine text) :: rest)) u) ↔
      (Stray.mk line text c r).uses = [] ∨ (Stray.mk line text c r).IsAssignment := by
  have hqualified : s.qualified = some (c ++ "." ++ r) := by
    obtain ⟨hclass, hroutine, -⟩ := hagrees.ofStray c r rfl
    rw [Surroundings.qualified, hclass, hroutine]
  have haround := exists_symbol_around_iff hagrees hplain hone hrest hline hsmall
  rw [hqualified, Stray.uses, Stray.IsAssignment, ← haround]
  constructor
  · intro h
    cases hlist : statementUses line.toUInt32 (some (c ++ "." ++ r)) text with
    | nil => exact Or.inl rfl
    | cons u us =>
        have hmem : u ∈ statementUses line.toUInt32 (some (c ++ "." ++ r)) text := by
          rw [hlist]
          exact List.mem_cons_self
        obtain ⟨hscope, hon⟩ := scope_of_mem_statementUses hmem
        have hattributed := h u hmem _ hscope
        rw [hon] at hattributed
        exact Or.inr hattributed
  · rintro (hnil | hsymbol) u hu name hname
    · rw [hnil] at hu
      cases hu
    · obtain ⟨hscope, hon⟩ := scope_of_mem_statementUses hu
      rw [hscope] at hname
      obtain rfl := Option.some.inj hname
      rw [hon]
      exact hsymbol

/-- All that is used where something is opened or closed is the base of a class, which counts for
the class itself. -/
theorem lineUses_attributed_of_not_isPlain {text : List Char}
    (hplain : ¬ (Statement.ofLine text).isPlain = true) (hone : 1 ≤ line)
    (hrest : ∀ t ∈ rest, line < t.1 ∧ t.1 ≤ last) (hline : line ≤ last) (hsmall : last < 2 ^ 32) :
    ∀ u ∈ lineUses s line text,
      IsAttributed (symbolsFrom last m ((line, Statement.ofLine text) :: rest)) u := by
  intro u hu name hname
  unfold lineUses at hu
  generalize Statement.ofLine text = statement at hu hplain
  cases statement with
  | classOpen className base =>
      simp only at hu
      split at hu
      · cases hu
      · obtain rfl := List.mem_singleton.1 hu
        obtain rfl := Option.some.inj hname
        obtain ⟨stop, hfrom, hto, hsubset⟩ :=
          Machine.exists_endClass (m := m.step (.classOpen className base) line) hrest hline
        rw [Machine.symbolsFrom_cons]
        exact ⟨_, List.mem_append_right _ (hsubset List.mem_cons_self), rfl,
          symbol_stands_around hone (le_refl line) hfrom (by omega)⟩
  | classClose => cases hu
  | routineOpen keyword name => cases hu
  | routineClose => cases hu
  | _ => exact absurd rfl hplain

/-- The uses of a line stand in symbols unless the line is a stray statement. -/
theorem lineUses_attributed_iff {text : List Char} (hagrees : Agrees s m inside)
    (hstarts : m.StartsBefore line) (hone : 1 ≤ line)
    (hrest : ∀ t ∈ rest, line < t.1 ∧ t.1 ≤ last) (hline : line ≤ last) (hsmall : last < 2 ^ 32) :
    (∀ u ∈ lineUses s line text,
      IsAttributed (symbolsFrom last m ((line, Statement.ofLine text) :: rest)) u) ↔
      ∀ t ∈ lineStrays inside line text, t.uses = [] ∨ t.IsAssignment := by
  by_cases hplain : (Statement.ofLine text).isPlain = true
  · rw [lineUses_of_isPlain hplain, lineStrays, if_pos hplain]
    cases inside with
    | none =>
        have hall := statementUses_attributed hagrees hplain hstarts hrest hline hsmall
        exact ⟨fun _ t ht => absurd ht List.not_mem_nil, fun _ => hall⟩
    | some pair =>
        obtain ⟨c, r⟩ := pair
        rw [statementUses_attributed_iff_of_stray hagrees hplain hone hrest hline hsmall]
        simp only [Option.toList_some, List.map_cons, List.map_nil, List.mem_singleton, forall_eq]
  · rw [lineStrays, if_neg hplain]
    have hall := lineUses_attributed_of_not_isPlain (s := s) (m := m) hplain hone hrest hline hsmall
    exact ⟨fun _ t ht => absurd ht List.not_mem_nil, fun _ => hall⟩

/-- What a line completes stands around no use on a later line. -/
theorem attributed_append_iff {emitted later : List Symbol} {u : Reference}
    (hemitted : ∀ y ∈ emitted, y.lineEnd < u.line) :
    IsAttributed (emitted ++ later) u ↔ IsAttributed later u := by
  constructor
  · intro h name hname
    obtain ⟨y, hy, hyname, hstart, hend⟩ := h name hname
    rcases List.mem_append.1 hy with hy | hy
    · exact absurd hend (UInt32.not_le.2 (hemitted y hy))
    · exact ⟨y, hy, hyname, hstart, hend⟩
  · intro h name hname
    obtain ⟨y, hy, hy'⟩ := h name hname
    exact ⟨y, List.mem_append_right _ hy, hy'⟩

/-- The statements of some lines. -/
def parsed (statements : List (Nat × List Char)) : List (Nat × Statement) :=
  statements.map fun (line, text) => (line, Statement.ofLine text)

/-- From any line on, the uses that stand in no symbol are those of stray statements. -/
theorem usesFrom_attributed_iff {statements : List (Nat × List Char)} (hagrees : Agrees s m inside)
    (hstarts : ∀ t ∈ statements, m.StartsBefore t.1)
    (hordered : statements.Pairwise fun a b => a.1 < b.1)
    (hbounds : ∀ t ∈ statements, 1 ≤ t.1 ∧ t.1 ≤ last) (hsmall : last < 2 ^ 32) :
    (∀ u ∈ usesFrom s statements, IsAttributed (symbolsFrom last m (parsed statements)) u) ↔
      ∀ t ∈ straysFrom s.routine inside statements, t.uses = [] ∨ t.IsAssignment := by
  induction statements generalizing s m inside with
  | nil => exact ⟨fun _ t ht => absurd ht List.not_mem_nil, fun _ u hu => absurd hu List.not_mem_nil⟩
  | cons t rest ih =>
      obtain ⟨here, text⟩ := t
      obtain ⟨hfirst, hordered⟩ := List.pairwise_cons.1 hordered
      have hhere : 1 ≤ here ∧ here ≤ last := hbounds _ List.mem_cons_self
      have hstart : m.StartsBefore here := hstarts _ List.mem_cons_self
      have hboundsRest : ∀ t ∈ rest, 1 ≤ t.1 ∧ t.1 ≤ last :=
        fun t ht => hbounds t (List.mem_cons_of_mem _ ht)
      have hlines : ∀ t ∈ parsed rest, here < t.1 ∧ t.1 ≤ last := by
        intro t ht
        obtain ⟨t', ht', rfl⟩ := List.mem_map.1 ht
        exact ⟨hfirst t' ht', (hboundsRest t' ht').2⟩
      have hlineIff : (∀ u ∈ lineUses s here text,
          IsAttributed (symbolsFrom last m (parsed ((here, text) :: rest))) u) ↔
          ∀ t ∈ lineStrays inside here text, t.uses = [] ∨ t.IsAssignment :=
        lineUses_attributed_iff hagrees hstart hhere.1 hlines hhere.2 hsmall
      have hrestIff := ih (hagrees.step (Statement.ofLine text) here)
        (fun t ht => (hstart.step hhere.1 _).mono (hfirst t ht)) hordered hboundsRest
      -- For the uses behind the line, the symbols that it completes make no difference.
      have hbehind : ∀ u ∈ usesFrom (s.next (Statement.ofLine text)) rest,
          (IsAttributed (symbolsFrom last m (parsed ((here, text) :: rest))) u ↔
            IsAttributed (symbolsFrom last (m.step (Statement.ofLine text) here) (parsed rest)) u) := by
        intro u hu
        obtain ⟨t, ht, hon⟩ := line_of_mem_usesFrom hu
        refine attributed_append_iff fun y hy => ?_
        have hend := Machine.lineEnd_le_of_mem_emit hstart hhere.1 (by omega) hy
        have hlater : here < t.1 := hfirst t ht
        have hto := (hboundsRest t ht).2
        rw [hon, UInt32.lt_iff_toNat_lt, toNat_toUInt32 (by omega)]
        omega
      rw [usesFrom_cons, straysFrom_cons]
      simp only [List.mem_append, or_imp, forall_and]
      rw [← hrestIff, ← hlineIff]
      refine and_congr Iff.rfl ?_
      exact forall_congr' fun u => forall_congr' fun hu => hbehind u hu

/-- Without classes and routines no statement is stray. -/
theorem straysFrom_eq_nil {statements : List (Nat × List Char)}
    (h : ∀ t ∈ parsed statements, opensUnit t.2 = false) : straysFrom none none statements = [] := by
  induction statements with
  | nil => rfl
  | cons t rest ih =>
      have hhere : opensUnit (Statement.ofLine t.2) = false := h _ List.mem_cons_self
      have hrest := ih fun t ht => h t (List.mem_cons_of_mem _ ht)
      rw [straysFrom]
      generalize Statement.ofLine t.2 = statement at hhere ⊢
      cases statement with
      | classOpen name base => cases hhere
      | routineOpen keyword name => cases hhere
      | _ => exact hrest

/-- The uses of a program stand in symbols exactly when no stray statement uses anything, apart from
those that give a value to a property with the name of the routine. -/
theorem references_attributed_iff (d : Document)
    (hsmall : (Program.ofBytes d.bytes).lastLine < 2 ^ 32) :
    (∀ u ∈ references d, IsAttributed (Declarations.FoxPro.symbols d) u) ↔
      ∀ t ∈ strays (Program.ofBytes d.bytes), t.uses = [] ∨ t.IsAssignment := by
  have hiff := usesFrom_attributed_iff (s := {}) agrees_initial
    (fun t _ => Machine.startsBefore_initial t.1) (Program.pairwise_statements d.bytes)
    (fun _ => Program.statement_bounds) hsmall
  change _ ↔ ∀ t ∈ strays (Program.ofBytes d.bytes), t.uses = [] ∨ t.IsAssignment at hiff
  rw [← hiff]
  unfold Declarations.FoxPro.symbols
  show (∀ u ∈ references d, IsAttributed (symbolsFrom _ {} (parsed _) ++ _) u) ↔ _
  split
  · -- The whole program is one function, and so there are no strays on either side.
    rename_i hscript
    have hopens : ∀ t ∈ parsed (Program.ofBytes d.bytes).statements, opensUnit t.2 = false := by
      have hany := (Bool.and_eq_true_iff.1 hscript).2
      simp only [Bool.not_eq_true', List.any_eq_false] at hany
      exact fun t ht => Bool.eq_false_iff.2 (hany t ht)
    have hall := hiff.2 fun t ht => by
      rw [strays, straysFrom_eq_nil hopens] at ht
      cases ht
    refine iff_of_true (fun u hu name hname => ?_) hall
    obtain ⟨y, hy, hy'⟩ := hall u hu name hname
    exact ⟨y, List.mem_append_left _ hy, hy'⟩
  · rw [List.append_nil]
    rfl

/-- A program whose class is opened in a routine that is not closed. -/
def classInRoutine : Document :=
  { path := "a.prg"
    bytes := Text.Utf8.encode
      "PROCEDURE Main\nDEFINE CLASS Foo AS Custom\nDO x\nENDDEFINE\n".toList
    limits := {} }

theorem classInRoutine_not_attributed :
    ¬ ∀ u ∈ references classInRoutine,
      IsAttributed (Declarations.FoxPro.symbols classInRoutine) u := by
  have huse : ∃ u ∈ references classInRoutine, u.sourceName = some "Foo.Main" := by decide +kernel
  have hnames : ∀ y ∈ Declarations.FoxPro.symbols classInRoutine, y.qualifiedName ≠ "Foo.Main" := by
    decide +kernel
  intro h
  obtain ⟨u, hu, hname⟩ := huse
  obtain ⟨y, hy, hqualified, -⟩ := h u hu _ hname
  exact hnames y hy hqualified

example : strays (Program.ofBytes classInRoutine.bytes) = [⟨3, "DO x".toList, "Foo", "Main"⟩] := by
  decide +kernel

/-- The same program with the routine closed before the class. -/
def classBehindRoutine : Document :=
  { path := "a.prg"
    bytes := Text.Utf8.encode
      "PROCEDURE Main\nENDPROC\nDEFINE CLASS Foo AS Custom\nDO x\nENDDEFINE\n".toList
    limits := {} }

theorem classBehindRoutine_attributed :
    (Program.ofBytes classBehindRoutine.bytes).lastLine < 2 ^ 32 ∧
      ∀ u ∈ references classBehindRoutine,
        IsAttributed (Declarations.FoxPro.symbols classBehindRoutine) u := by
  have hsmall : (Program.ofBytes classBehindRoutine.bytes).lastLine < 2 ^ 32 := by decide +kernel
  have hstrays : strays (Program.ofBytes classBehindRoutine.bytes) = [] := by decide +kernel
  refine ⟨hsmall, (references_attributed_iff classBehindRoutine hsmall).2 fun t ht => ?_⟩
  rw [hstrays] at ht
  cases ht

end SourceIndex.Uses.FoxPro
