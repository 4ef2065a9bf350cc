import SourceIndex.Proofs.Hierarchy.FoxPro

/-!
# Classes and routines of FoxPro programs

Each statement that opens a class or a routine gives one symbol, which starts on the line of the
statement, and the symbols come in the order of the statements.  A routine is a method of the class
that is open before its statement, if one is.  A program in which nothing is opened is one routine.

Of any two of these symbols the earlier one ends before the later one starts, unless it is a method
of it: then it lies inside its class.
-/

namespace SourceIndex.Declarations.FoxPro

open Idiom.FoxPro

/-- What the statement that opens a class or a routine tells of it, and where it stands. -/
structure Opening where
  line : Nat
  name : String
  kind : SymbolKind
  /-- The class to which a method belongs. -/
  owner : Option String
  deriving Repr, DecidableEq

/-- What a symbol tells of the statement that opened it. -/
def Opening.ofSymbol (y : Symbol) : Opening :=
  ⟨y.lineStart.toNat, y.name, y.kind, y.parentName⟩

/-- Is the symbol a class? -/
def isClass (y : Symbol) : Bool :=
  y.kind == .class

/-- Is the symbol a routine? -/
def isRoutine (y : Symbol) : Bool :=
  y.kind == .function || y.kind == .method

/-- The statements of a program, each with the number of its first line. -/
def statementsOf (d : Document) : List (Nat × Statement) :=
  (Program.ofBytes d.bytes).statements.map fun (line, text) => (line, Statement.ofLine text)

/-- The class that is open behind a statement, where the statement opens or closes one. -/
def classChange? : Statement → Option (Option String)
  | .classOpen name _ => some (some name)
  | .classClose => some none
  | _ => none

/-- The class that is open behind some statements: the last one that they open, unless they close it
again. -/
def classAfter (statements : List (Nat × Statement)) : Option String :=
  (statements.filterMap fun t => classChange? t.2).getLast?.join

/-- The opening of a class. -/
def classOpening (line : Nat) (name : String) : Opening :=
  ⟨line, name, .class, none⟩

/-- The opening of a routine, where the class is open that is given. -/
def routineOpening (owner : Option String) (line : Nat) (name : String) : Opening :=
  ⟨line, name, if owner.isSome then .method else .function, owner⟩

/-- The classes that some statements open. -/
def classOpenings (statements : List (Nat × Statement)) : List Opening :=
  statements.filterMap fun t =>
    match t.2 with
    | .classOpen name _ => some (classOpening t.1 name)
    | _ => none

/-- The routines that some statements open, where other statements stand before them. -/
def routineOpenings (before : List (Nat × Statement)) : List (Nat × Statement) → List Opening
  | [] => []
  | t :: rest =>
      (match t.2 with
        | .routineOpen _ name => [routineOpening (classAfter before) t.1 name]
        | _ => []) ++ routineOpenings (before ++ [t]) rest

/-- Does a program say something, but open neither a class nor a routine? -/
def IsScript (d : Document) : Prop :=
  statementsOf d ≠ [] ∧ ∀ t ∈ statementsOf d, opensUnit t.2 = false

instance (d : Document) : Decidable (IsScript d) :=
  inferInstanceAs (Decidable (_ ∧ _))

/-- Is a symbol a method of a class, on lines of the class? -/
structure IsMethodIn (y z : Symbol) : Prop where
  method : y.kind = .method
  owner : z.kind = .class
  parent : y.parentName = some z.qualifiedName
  first : z.lineStart ≤ y.lineStart
  last : y.lineEnd ≤ z.lineEnd

/-- Does one symbol end before another one starts, or lie inside it as a method of the class? -/
def EndsBeforeOrInside (y z : Symbol) : Prop :=
  y.lineEnd < z.lineStart ∨ IsMethodIn y z

/-! ## Symbols of what is open -/

section Kinds

variable {name : String} {kind : SymbolKind} {first last : Nat} {details : Symbol.Details}

theorem ofSymbol_symbol (hone : 1 ≤ first) (hfirst : first < 2 ^ 32) :
    Opening.ofSymbol (symbol name kind first last details) =
      ⟨first, name, kind, details.parentName⟩ :=
  congrArg (Opening.mk · name kind details.parentName) (Symbol.toNat_lineStart hone hfirst)

end Kinds

namespace Machine

variable {m : Machine} {s : Statement} {line last stop : Nat} {before : List (Nat × Statement)}
  {statements : List (Nat × Statement)}

/-- The opening of the class that is open. -/
def classOpened (m : Machine) : List Opening :=
  m.classOpen.toList.map fun c => classOpening c.start c.name

/-- The opening of the routine that is open. -/
def routineOpened (m : Machine) : List Opening :=
  m.routineOpen.toList.map fun r => routineOpening (m.classOpen.map Opened.name) r.start r.name

theorem kind_of_mem_endClass {y : Symbol} (h : y ∈ m.endClass stop) : y.kind = .class := by
  obtain ⟨c, -, rfl⟩ := List.mem_map.1 h
  rfl

theorem kind_of_mem_endRoutine {y : Symbol} (h : y ∈ m.endRoutine stop) :
    y.kind = if m.classOpen.isSome then .method else .function := by
  obtain ⟨r, -, rfl⟩ := List.mem_map.1 h
  cases m.classOpen <;> rfl

@[simp] theorem filter_isClass_endClass : (m.endClass stop).filter isClass = m.endClass stop := by
  refine List.filter_eq_self.2 fun y hy => ?_
  rw [isClass, kind_of_mem_endClass hy]
  rfl

@[simp] theorem filter_isRoutine_endClass : (m.endClass stop).filter isRoutine = [] := by
  refine List.filter_eq_nil_iff.2 fun y hy => ?_
  rw [isRoutine, kind_of_mem_endClass hy]
  decide

@[simp] theorem filter_isClass_endRoutine : (m.endRoutine stop).filter isClass = [] := by
  refine List.filter_eq_nil_iff.2 fun y hy => ?_
  rw [isClass, kind_of_mem_endRoutine hy]
  split <;> decide

@[simp] theorem filter_isRoutine_endRoutine :
    (m.endRoutine stop).filter isRoutine = m.endRoutine stop := by
  refine List.filter_eq_self.2 fun y hy => ?_
  rw [isRoutine, kind_of_mem_endRoutine hy]
  split <;> rfl

theorem filter_isClass_endAll : (m.endAll stop).filter isClass = m.endClass stop := by
  simp [endAll]

theorem filter_isRoutine_endAll : (m.endAll stop).filter isRoutine = m.endRoutine stop := by
  simp [endAll]

/-- A statement that opens and closes nothing completes neither a class nor a routine. -/
theorem isUnit_of_mem_emit {y : Symbol} (hs : s.isPlain = true) (h : y ∈ m.emit s line) :
    isClass y = false ∧ isRoutine y = false := by
  cases s with
  | constant name value =>
      obtain rfl := List.mem_singleton.1 h
      exact ⟨rfl, rfl⟩
  | assignment name value =>
      simp only [emit, property?, Option.mem_toList] at h
      split at h
      · obtain ⟨c, -, rfl⟩ := Option.map_eq_some_iff.1 h
        exact ⟨rfl, rfl⟩
      · cases h
  | other => cases h
  | _ => cases hs

theorem filter_isClass_emit_of_isPlain (hs : s.isPlain = true) :
    (m.emit s line).filter isClass = [] :=
  List.filter_eq_nil_iff.2 fun _ hy => Bool.eq_false_iff.1 (isUnit_of_mem_emit hs hy).1

theorem filter_isRoutine_emit_of_isPlain (hs : s.isPlain = true) :
    (m.emit s line).filter isRoutine = [] :=
  List.filter_eq_nil_iff.2 fun _ hy => Bool.eq_false_iff.1 (isUnit_of_mem_emit hs hy).2

/-! ## One symbol for each opening -/

theorem map_ofSymbol_endClass (hstarts : m.StartsBefore (last + 1)) (hsmall : last < 2 ^ 32) :
    (m.endClass stop).map Opening.ofSymbol = m.classOpened := by
  rw [endClass, classOpened, List.map_map]
  refine List.map_congr_left fun c hc => ?_
  obtain ⟨hone, hstart⟩ := hstarts.ofClass c (Option.mem_toList.1 hc)
  exact ofSymbol_symbol hone (by omega)

theorem map_ofSymbol_endRoutine (hstarts : m.StartsBefore (last + 1)) (hsmall : last < 2 ^ 32) :
    (m.endRoutine stop).map Opening.ofSymbol = m.routineOpened := by
  rw [endRoutine, routineOpened, List.map_map]
  refine List.map_congr_left fun r hr => ?_
  obtain ⟨hone, hstart⟩ := hstarts.ofRoutine r (Option.mem_toList.1 hr)
  exact ofSymbol_symbol hone (by omega)

/-- The classes of a program are the one that is open and those that the statements open, in this
order. -/
theorem classes_symbolsFrom (hstarts : m.StartsBefore (last + 1))
    (hbounds : ∀ t ∈ statements, 1 ≤ t.1 ∧ t.1 ≤ last) (hsmall : last < 2 ^ 32) :
    ((symbolsFrom last m statements).filter isClass).map Opening.ofSymbol =
      m.classOpened ++ classOpenings statements := by
  induction statements generalizing m with
  | nil =>
      rw [symbolsFrom, filter_isClass_endAll, map_ofSymbol_endClass hstarts hsmall]
      exact (List.append_nil _).symm
  | cons t rest ih =>
      obtain ⟨line, s⟩ := t
      obtain ⟨hone, hline⟩ := hbounds _ List.mem_cons_self
      have hstep := hstarts.step_of_lt hone (Nat.lt_succ_of_le hline) s
      have hrest := ih hstep fun t ht => hbounds t (List.mem_cons_of_mem _ ht)
      rw [symbolsFrom_cons, List.filter_append, List.map_append, hrest]
      -- The open class is completed where a class is opened or closed, and open over all the rest.
      cases s with
      | classOpen name base =>
          rw [emit, filter_isClass_endAll, map_ofSymbol_endClass hstarts hsmall]
          rfl
      | classClose =>
          rw [emit, filter_isClass_endAll, map_ofSymbol_endClass hstarts hsmall]
          rfl
      | routineOpen keyword name =>
          rw [emit, filter_isClass_endRoutine]
          rfl
      | routineClose =>
          rw [emit, filter_isClass_endRoutine]
          rfl
      | _ =>
          rw [filter_isClass_emit_of_isPlain rfl, step_of_isPlain rfl]
          rfl

theorem classAfter_concat (t : Nat × Statement) :
    classAfter (before ++ [t]) = (classChange? t.2).getD (classAfter before) := by
  rw [classAfter, List.filterMap_append]
  cases h : classChange? t.2 with
  | none => simp [h, classAfter]
  | some c => simp [h]

theorem classOpen_step : (m.step s line).classOpen.map Opened.name =
    (classChange? s).getD (m.classOpen.map Opened.name) := by
  cases s <;> rfl

/-- The routines of a program are the one that is open and those that the statements open, in this
order.  What is open as a class is told by the statements before. -/
theorem routines_symbolsFrom (hclass : m.classOpen.map Opened.name = classAfter before)
    (hstarts : m.StartsBefore (last + 1)) (hbounds : ∀ t ∈ statements, 1 ≤ t.1 ∧ t.1 ≤ last)
    (hsmall : last < 2 ^ 32) :
    ((symbolsFrom last m statements).filter isRoutine).map Opening.ofSymbol =
      m.routineOpened ++ routineOpenings before statements := by
  induction statements generalizing m before with
  | nil =>
      rw [symbolsFrom, filter_isRoutine_endAll, map_ofSymbol_endRoutine hstarts hsmall]
      exact (List.append_nil _).symm
  | cons t rest ih =>
      obtain ⟨line, s⟩ := t
      obtain ⟨hone, hline⟩ := hbounds _ List.mem_cons_self
      have hstep := hstarts.step_of_lt hone (Nat.lt_succ_of_le hline) s
      have hnext : (m.step s line).classOpen.map Opened.name = classAfter (before ++ [(line, s)]) := by
        rw [classOpen_step, hclass, classAfter_concat]
      have hrest := ih hnext hstep fun t ht => hbounds t (List.mem_cons_of_mem _ ht)
      rw [symbolsFrom_cons, List.filter_append, List.map_append, hrest, routineOpenings]
      -- Classes and routines both complete the open routine, while the class of it is still open.
      cases s with
      | classOpen name base =>
          rw [emit, filter_isRoutine_endAll, map_ofSymbol_endRoutine hstarts hsmall]
          rfl
      | classClose =>
          rw [emit, filter_isRoutine_endAll, map_ofSymbol_endRoutine hstarts hsmall]
          rfl
      | routineOpen keyword name =>
          rw [emit, filter_isRoutine_endRoutine, map_ofSymbol_endRoutine hstarts hsmall, ← hclass]
          rfl
      | routineClose =>
          rw [emit, filter_isRoutine_endRoutine, map_ofSymbol_endRoutine hstarts hsmall]
          rfl
      | _ =>
          rw [filter_isRoutine_emit_of_isPlain rfl, step_of_isPlain rfl]
          rfl

/-! ## Lines of classes and routines -/

/-- What is open starts no later than it ends, so it ends on the line where it is said to end. -/
theorem lineEnd_of_mem_endAll {y : Symbol} (hstarts : m.StartsBefore (stop + 1))
    (hsmall : stop < 2 ^ 32) (h : y ∈ m.endAll stop) : y.lineEnd.toNat = stop := by
  rcases List.mem_append.1 h with h | h
  · obtain ⟨r, hr, rfl⟩ := List.mem_map.1 h
    obtain ⟨hone, hstart⟩ := hstarts.ofRoutine r (Option.mem_toList.1 hr)
    rw [symbol, Symbol.toNat_lineEnd hone (by omega) hsmall]
    omega
  · obtain ⟨c, hc, rfl⟩ := List.mem_map.1 h
    obtain ⟨hone, hstart⟩ := hstarts.ofClass c (Option.mem_toList.1 hc)
    rw [symbol, Symbol.toNat_lineEnd hone (by omega) hsmall]
    omega

/-- A routine that ends no later than the class around it is a method in it. -/
theorem isMethodIn_of_mem {y z : Symbol} {stop' : Nat} (hnested : m.IsNested)
    (hstarts : m.StartsBefore (stop + 1)) (hstop : stop ≤ stop') (hsmall : stop' < 2 ^ 32)
    (hy : y ∈ m.endRoutine stop) (hz : z ∈ m.endClass stop') : IsMethodIn y z := by
  have hend : y.lineEnd.toNat = stop :=
    lineEnd_of_mem_endAll hstarts (by omega) (List.mem_append_left _ hy)
  have howner : z.lineEnd.toNat = stop' :=
    lineEnd_of_mem_endAll (hstarts.mono (by omega)) hsmall (List.mem_append_right _ hz)
  obtain ⟨c, hc, rfl⟩ := List.mem_map.1 hz
  have hc := Option.mem_toList.1 hc
  have hmethod : y.kind = .method := by
    rw [kind_of_mem_endRoutine hy, Option.mem_def.1 hc]
    rfl
  obtain ⟨r, hr, rfl⟩ := List.mem_map.1 hy
  have hr := Option.mem_toList.1 hr
  obtain ⟨hone, hstart⟩ := hstarts.ofRoutine r hr
  -- A routine is completed with its class at the latest, so the open one was opened in the class.
  have hinside := hnested c hc r hr
  refine ⟨hmethod, rfl, ?_, UInt32.le_iff_toNat_le.2 ?_, UInt32.le_iff_toNat_le.2 ?_⟩
  · exact congrArg (Option.map Opened.name) (Option.mem_def.1 hc)
  · rw [symbol, symbol, Symbol.toNat_lineStart (hstarts.ofClass c hc).1 (by omega),
      Symbol.toNat_lineStart hone (by omega)]
    exact hinside
  · rw [hend, howner]
    exact hstop

/-- The classes and routines that a statement completes end right before its line or on it. -/
theorem exists_end_of_mem_emit {y : Symbol} (hunit : isClass y || isRoutine y)
    (h : y ∈ m.emit s line) : ∃ stop, line - 1 ≤ stop ∧ stop ≤ line ∧ y ∈ m.endAll stop := by
  cases s with
  | classOpen name base => exact ⟨line - 1, Nat.le_refl _, Nat.sub_le line 1, h⟩
  | classClose => exact ⟨line, Nat.sub_le line 1, Nat.le_refl line, h⟩
  | routineOpen keyword name =>
      exact ⟨line - 1, Nat.le_refl _, Nat.sub_le line 1, List.mem_append_left _ h⟩
  | routineClose => exact ⟨line, Nat.sub_le line 1, Nat.le_refl line, List.mem_append_left _ h⟩
  | _ =>
      obtain ⟨hclass, hroutine⟩ := isUnit_of_mem_emit rfl h
      rw [hclass, hroutine] at hunit
      cases hunit

/-- A class or routine of the statements behind a line starts behind it too, or is open on the line
and ends there or later. -/
theorem exists_end_of_mem_symbolsFrom {z : Symbol} (hunit : isClass z || isRoutine z)
    (hlines : ∀ t ∈ statements, line < t.1 ∧ t.1 ≤ last) (hline : line ≤ last)
    (hsmall : last < 2 ^ 32) (h : z ∈ symbolsFrom last m statements) :
    (∃ stop, line ≤ stop ∧ stop ≤ last ∧ z ∈ m.endAll stop) ∨ line < z.lineStart.toNat := by
  induction statements generalizing m with
  | nil => exact Or.inl ⟨last, hline, Nat.le_refl last, h⟩
  | cons t rest ih =>
      obtain ⟨here, s⟩ := t
      have hhere : line < here ∧ here ≤ last := hlines _ List.mem_cons_self
      rw [symbolsFrom_cons] at h
      rcases List.mem_append.1 h with h | h
      · obtain ⟨stop, hfrom, hto, hend⟩ := exists_end_of_mem_emit hunit h
        exact Or.inl ⟨stop, by omega, by omega, hend⟩
      · rcases ih (fun t ht => hlines t (List.mem_cons_of_mem _ ht)) h with
          ⟨stop, hfrom, hto, hend⟩ | hstart
        · rcases mem_endAll_step (by omega) (by omega) hend with hend | hstart
          · exact Or.inl ⟨stop, hfrom, hto, hend⟩
          · exact Or.inr (by omega)
        · exact Or.inr hstart

/-- What a statement completes ends before everything that is opened by it or behind it, and what is
still open behind it is the class of what it completes. -/
theorem endsBeforeOrInside_step {y z : Symbol} (hnested : m.IsNested)
    (hstarts : m.StartsBefore line) (hone : 1 ≤ line) (hline : line ≤ last) (hsmall : last < 2 ^ 32)
    (hlines : ∀ t ∈ statements, line < t.1 ∧ t.1 ≤ last)
    (hyunit : isClass y || isRoutine y) (hzunit : isClass z || isRoutine z)
    (hy : y ∈ m.emit s line) (hz : z ∈ symbolsFrom last (m.step s line) statements) :
    EndsBeforeOrInside y z := by
  have hnow : m.StartsBefore (line + 1) := hstarts.mono (Nat.le_succ line)
  have hbefore : m.StartsBefore (line - 1 + 1) := by
    rwa [Nat.sub_add_cancel hone]
  have hlineSmall : line < 2 ^ 32 := Nat.lt_of_le_of_lt hline hsmall
  have hapart : y.lineEnd.toNat < z.lineStart.toNat → EndsBeforeOrInside y z :=
    fun h => Or.inl (UInt32.lt_iff_toNat_lt.2 h)
  -- What the statement opens starts on its line, and what it completes ends before the line.
  have hopened : y ∈ m.endAll (line - 1) → z.lineStart.toNat = line → EndsBeforeOrInside y z := by
    intro hends hstart
    refine hapart ?_
    rw [lineEnd_of_mem_endAll hbefore (by omega) hends, hstart]
    exact Nat.sub_lt hone Nat.one_pos
  rcases exists_end_of_mem_symbolsFrom hzunit hlines hline hsmall hz with
    ⟨stop, hfrom, hto, hend⟩ | hstart
  · -- What is open behind the statement is opened by it, or is the class that was open before.
    cases s with
    | classOpen name base =>
        obtain rfl := List.mem_singleton.1 hend
        exact hopened hy (Symbol.toNat_lineStart hone hlineSmall)
    | classClose => cases hend
    | routineOpen keyword name =>
        rcases List.mem_append.1 hend with hend | hend
        · obtain rfl := List.mem_singleton.1 hend
          exact hopened (List.mem_append_left _ hy) (Symbol.toNat_lineStart hone hlineSmall)
        · exact Or.inr (isMethodIn_of_mem hnested hbefore (by omega) (by omega) hy hend)
    | routineClose => exact Or.inr (isMethodIn_of_mem hnested hnow hfrom (by omega) hy hend)
    | _ =>
        obtain ⟨hclass, hroutine⟩ := isUnit_of_mem_emit rfl hy
        rw [hclass, hroutine] at hyunit
        cases hyunit
  · refine hapart (Nat.lt_of_le_of_lt ?_ hstart)
    exact lineEnd_le_of_mem_emit hstarts hone (by omega) hy

/-- A routine that ends together with the class is a method in it. -/
theorem pairwise_endAll (hnested : m.IsNested) (hstarts : m.StartsBefore (stop + 1))
    (hsmall : stop < 2 ^ 32) : (m.endAll stop).Pairwise EndsBeforeOrInside := by
  have hone : ∀ {α : Type} (o : Option α) (f : α → Symbol),
      (o.toList.map f).Pairwise EndsBeforeOrInside := by
    intro α o f
    cases o with
    | none => exact List.Pairwise.nil
    | some a => exact List.pairwise_singleton _ _
  refine List.pairwise_append.2 ⟨hone _ _, hone _ _, fun y hy z hz => ?_⟩
  exact Or.inr (isMethodIn_of_mem hnested hstarts (Nat.le_refl stop) hsmall hy hz)

theorem pairwise_emit (hnested : m.IsNested) (hstarts : m.StartsBefore line) (hone : 1 ≤ line)
    (hsmall : line < 2 ^ 32) : (m.emit s line).Pairwise fun y z =>
      (isClass y || isRoutine y) → (isClass z || isRoutine z) → EndsBeforeOrInside y z := by
  have hnow : m.StartsBefore (line + 1) := hstarts.mono (Nat.le_succ line)
  have hbefore : m.StartsBefore (line - 1 + 1) := by
    rwa [Nat.sub_add_cancel hone]
  have hall : ∀ {symbols : List Symbol}, symbols.Pairwise EndsBeforeOrInside →
      symbols.Pairwise fun y z =>
        (isClass y || isRoutine y) → (isClass z || isRoutine z) → EndsBeforeOrInside y z :=
    fun h => h.imp fun h _ _ => h
  cases s with
  | classOpen name base => exact hall (pairwise_endAll hnested hbefore (by omega))
  | classClose => exact hall (pairwise_endAll hnested hnow hsmall)
  | routineOpen keyword name =>
      exact hall ((pairwise_endAll hnested hbefore (by omega)).sublist (List.sublist_append_left _ _))
  | routineClose =>
      exact hall ((pairwise_endAll hnested hnow hsmall).sublist (List.sublist_append_left _ _))
  | constant name value => exact List.pairwise_singleton _ _
  | assignment name value =>
      rw [emit]
      cases m.property? name value line with
      | none => exact List.Pairwise.nil
      | some y => exact List.pairwise_singleton _ _
  | other => exact List.Pairwise.nil

/-- Of two classes or routines that statements complete, the earlier one ends before the later one
starts, or is a method in it. -/
theorem pairwise_symbolsFrom (hnested : m.IsNested)
    (hstarts : ∀ t ∈ statements, m.StartsBefore t.1) (hlast : m.StartsBefore (last + 1))
    (hordered : statements.Pairwise fun a b => a.1 < b.1)
    (hbounds : ∀ t ∈ statements, 1 ≤ t.1 ∧ t.1 ≤ last) (hsmall : last < 2 ^ 32) :
    (symbolsFrom last m statements).Pairwise fun y z =>
      (isClass y || isRoutine y) → (isClass z || isRoutine z) → EndsBeforeOrInside y z := by
  induction statements generalizing m with
  | nil => exact (pairwise_endAll hnested hlast hsmall).imp fun h _ _ => h
  | cons t rest ih =>
      obtain ⟨line, s⟩ := t
      obtain ⟨hone, hline⟩ := hbounds _ List.mem_cons_self
      have hstart := hstarts _ List.mem_cons_self
      obtain ⟨hbehind, hordered⟩ := List.pairwise_cons.1 hordered
      have hrest := fun t ht => hbounds t (List.mem_cons_of_mem _ ht)
      have hstep := hstart.step hone s
      refine List.pairwise_append.2 ⟨pairwise_emit hnested hstart hone (by omega), ?_, ?_⟩
      · exact ih (hnested.step hstart s) (fun t ht => hstep.mono (hbehind t ht))
          (hstep.mono (Nat.succ_le_succ hline)) hordered hrest
      · intro y hy z hz hyunit hzunit
        exact endsBeforeOrInside_step hnested hstart hone hline hsmall
          (fun t ht => ⟨hbehind t ht, (hrest t ht).2⟩) hyunit hzunit hy hz

end Machine

/-! ## The whole program -/

section Program

variable {d : Document}

/-- The opening of the routine that a script is. -/
def scriptOpenings (d : Document) : List Opening :=
  if IsScript d then [routineOpening none 1 d.fileStem] else []

/-- The routine that a script is. -/
def script (d : Document) : Symbol :=
  symbol d.fileStem .function 1 (Program.ofBytes d.bytes).lastLine
    { signature := some ("DO " ++ d.fileStem) }

theorem symbols_eq (d : Document) :
    symbols d = Machine.symbolsFrom (Program.ofBytes d.bytes).lastLine {} (statementsOf d) ++
      if IsScript d then [script d] else [] := by
  have hscript :
      ((!(statementsOf d).isEmpty && !(statementsOf d).any fun s => opensUnit s.2) = true) ↔
        IsScript d := by
    simp [IsScript]
  unfold symbols
  exact congrArg _ (if_congr hscript rfl rfl)

theorem classOpenings_eq_nil {statements : List (Nat × Statement)}
    (h : ∀ t ∈ statements, opensUnit t.2 = false) : classOpenings statements = [] := by
  refine List.filterMap_eq_nil_iff.2 fun t ht => ?_
  have hopens := h t ht
  split
  · rename_i hclass
    rw [hclass] at hopens
    cases hopens
  · rfl

theorem routineOpenings_eq_nil {before statements : List (Nat × Statement)}
    (h : ∀ t ∈ statements, opensUnit t.2 = false) : routineOpenings before statements = [] := by
  induction statements generalizing before with
  | nil => rfl
  | cons t rest ih =>
      have hopens := h t List.mem_cons_self
      rw [routineOpenings, ih fun t ht => h t (List.mem_cons_of_mem _ ht), List.append_nil]
      split
      · rename_i hroutine
        rw [hroutine] at hopens
        cases hopens
      · rfl

theorem statementsOf_bounds :
    ∀ t ∈ statementsOf d, 1 ≤ t.1 ∧ t.1 ≤ (Program.ofBytes d.bytes).lastLine := by
  intro t ht
  obtain ⟨⟨line, text⟩, hline, rfl⟩ := List.mem_map.1 ht
  exact Program.statement_bounds hline

/-- The classes and routines of a program are those that its statements open, each on the line of
its statement, and a routine belongs to the class that is open there; a program that opens none is
one routine from the first to the last line.  Of two of them the earlier one ends before the later
one starts, or it is a method inside it. -/
theorem units_match_openings (d : Document) (hsmall : (Program.ofBytes d.bytes).lastLine < 2 ^ 32) :
    ((symbols d).filter isClass).map Opening.ofSymbol = classOpenings (statementsOf d) ∧
      ((symbols d).filter isRoutine).map Opening.ofSymbol =
        routineOpenings [] (statementsOf d) ++ scriptOpenings d ∧
      (IsScript d → ∀ y ∈ (symbols d).filter isRoutine,
        y.lineEnd.toNat = (Program.ofBytes d.bytes).lastLine) ∧
      ((symbols d).filter fun y => isClass y || isRoutine y).Pairwise EndsBeforeOrInside := by
  have hone := (Program.lastLine_le d.bytes).1
  have hclasses := Machine.classes_symbolsFrom (m := {}) (Machine.startsBefore_initial _)
    (statementsOf_bounds (d := d)) hsmall
  have hclass : (Machine.classOpen {}).map Opened.name = classAfter [] := rfl
  have hroutines := Machine.routines_symbolsFrom hclass (Machine.startsBefore_initial _)
    (statementsOf_bounds (d := d)) hsmall
  have hpairs := Machine.pairwise_symbolsFrom Machine.isNested_initial
    (fun t _ => Machine.startsBefore_initial t.1) (Machine.startsBefore_initial _)
    (List.pairwise_map.2 (Program.pairwise_statements d.bytes)) (statementsOf_bounds (d := d)) hsmall
  rw [symbols_eq, scriptOpenings]
  split
  · -- Nothing is opened, so that the symbol of the whole program is the only one of its kind.
    rename_i hscript
    have hstart : Opening.ofSymbol (script d) = routineOpening none 1 d.fileStem :=
      ofSymbol_symbol (Nat.le_refl 1) (by decide)
    rw [classOpenings_eq_nil hscript.2] at hclasses ⊢
    rw [routineOpenings_eq_nil hscript.2] at hroutines ⊢
    have hnoClass := List.map_eq_nil_iff.1 hclasses
    have hnoRoutine := List.map_eq_nil_iff.1 hroutines
    have hnot : isClass (script d) = false := rfl
    have his : isRoutine (script d) = true := rfl
    have hlast : (script d).lineEnd.toNat = (Program.ofBytes d.bytes).lastLine := by
      rw [script, symbol, Symbol.toNat_lineEnd (Nat.le_refl 1) (by decide) hsmall]
      exact Nat.max_eq_left hone
    have hnoUnit :
        (Machine.symbolsFrom (Program.ofBytes d.bytes).lastLine {} (statementsOf d)).filter
          (fun y => isClass y || isRoutine y) = [] := by
      refine List.filter_eq_nil_iff.2 fun y hy => ?_
      rw [Bool.or_eq_true, not_or]
      exact ⟨List.filter_eq_nil_iff.1 hnoClass y hy, List.filter_eq_nil_iff.1 hnoRoutine y hy⟩
    simp only [List.filter_append, List.filter_singleton, hnoClass, hnoRoutine, hnoUnit, hnot, his,
      Bool.false_or, List.nil_append]
    exact ⟨rfl, congrArg (fun o => [o]) hstart, fun _ => List.forall_mem_singleton.2 hlast,
      List.pairwise_singleton _ _⟩
  · rename_i hscript
    rw [List.append_nil, List.append_nil]
    exact ⟨hclasses, hroutines, fun h => absurd h hscript, List.pairwise_filter.2 hpairs⟩

/-- Two classes, of which the first is closed as little as its last method, and a routine. -/
def unclosedClass : Document where
  path := "a.prg"
  bytes := Text.Utf8.encode
    ("DEFINE CLASS A AS Custom\nPROCEDURE P\nENDPROC\nFUNCTION Q\n" ++
      "DEFINE CLASS B ;\nAS A\nENDDEFINE\nPROCEDURE R\n").toList
  limits := {}

theorem unclosedClass_units :
    (Program.ofBytes unclosedClass.bytes).lastLine < 2 ^ 32 ∧ ¬ IsScript unclosedClass ∧
      classOpenings (statementsOf unclosedClass) =
        [⟨1, "A", .class, none⟩, ⟨5, "B", .class, none⟩] ∧
      routineOpenings [] (statementsOf unclosedClass) =
        [⟨2, "P", .method, some "A"⟩, ⟨4, "Q", .method, some "A"⟩, ⟨8, "R", .function, none⟩] ∧
      ((symbols unclosedClass).filter isClass).map Opening.ofSymbol =
        classOpenings (statementsOf unclosedClass) ∧
      ((symbols unclosedClass).filter isRoutine).map Opening.ofSymbol =
        routineOpenings [] (statementsOf unclosedClass) ++ scriptOpenings unclosedClass ∧
      (IsScript unclosedClass → ∀ y ∈ (symbols unclosedClass).filter isRoutine,
        y.lineEnd.toNat = (Program.ofBytes unclosedClass.bytes).lastLine) ∧
      ((symbols unclosedClass).filter fun y => isClass y || isRoutine y).Pairwise
        EndsBeforeOrInside := by
  have hsmall : (Program.ofBytes unclosedClass.bytes).lastLine < 2 ^ 32 := by decide +kernel
  exact ⟨hsmall, by decide +kernel, by decide +kernel, by decide +kernel,
    units_match_openings unclosedClass hsmall⟩

end Program

end SourceIndex.Declarations.FoxPro
