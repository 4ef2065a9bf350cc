import Mathlib.Data.List.Basic
import Mathlib.Data.Nat.Basic
import SourceIndex.Declarations.FoxPro
import SourceIndex.Proofs.Lines.Standing

/-!
# Symbols of FoxPro programs

What is open at some line is closed at that line or behind it, and becomes a symbol that reaches as
far.  No other symbol stands around the line, apart from what the statement on it declares itself.

Whether a class and a routine are open is also told by the phase, which has its own table of steps.
-/

namespace SourceIndex.Idiom.FoxPro.Statement

/-- Does a statement neither open nor close anything? -/
def isPlain : Statement → Bool
  | .constant _ _ | .assignment _ _ | .other => true
  | _ => false

end SourceIndex.Idiom.FoxPro.Statement

namespace SourceIndex.Declarations.FoxPro

/-- A symbol stands around all lines from its first to its last one. -/
theorem symbol_stands_around {name : String} {kind : SymbolKind} {details : Symbol.Details}
    {first line last : Nat} (hone : 1 ≤ first) (hfirst : first ≤ line) (hlast : line ≤ last)
    (hsmall : last < 2 ^ 32) :
    (symbol name kind first last details).lineStart ≤ line.toUInt32 ∧
      line.toUInt32 ≤ (symbol name kind first last details).lineEnd := by
  rw [UInt32.le_iff_toNat_le, UInt32.le_iff_toNat_le, symbol,
    Symbol.toNat_lineStart hone (by omega), Symbol.toNat_lineEnd hone (by omega) hsmall,
    toNat_toUInt32 (by omega)]
  omega

namespace Machine

open SourceIndex.Idiom.FoxPro

variable {m : Machine} {s : Statement} {line last : Nat} {statements : List (Nat × Statement)}

/-- A statement that opens and closes nothing leaves the machine as it is. -/
theorem step_of_isPlain (h : s.isPlain = true) : m.step s line = m := by
  -- The phase is set anew by a statement, to what it was in the case of a plain one.
  obtain ⟨phase, classOpen, routineOpen⟩ := m
  cases s with
  | classOpen name base => cases h
  | classClose => cases h
  | routineOpen keyword name => cases h
  | routineClose => cases h
  | _ => cases phase <;> rfl

theorem symbolsFrom_cons :
    symbolsFrom last m ((line, s) :: statements) =
      m.emit s line ++ symbolsFrom last (m.step s line) statements := rfl

/-- Everything that is open was opened before a line. -/
structure StartsBefore (m : Machine) (line : Nat) : Prop where
  ofRoutine : ∀ r, m.routineOpen = some r → 1 ≤ r.start ∧ r.start < line
  ofClass : ∀ c, m.classOpen = some c → 1 ≤ c.start ∧ c.start < line

theorem startsBefore_initial (line : Nat) : StartsBefore {} line :=
  ⟨nofun, nofun⟩

theorem StartsBefore.mono {line' : Nat} (h : m.StartsBefore line) (hle : line ≤ line') :
    m.StartsBefore line' := by
  refine ⟨fun r hr => ?_, fun c hc => ?_⟩
  · exact ⟨(h.ofRoutine r hr).1, (h.ofRoutine r hr).2.trans_le hle⟩
  · exact ⟨(h.ofClass c hc).1, (h.ofClass c hc).2.trans_le hle⟩

/-- What a statement opens starts on its line. -/
theorem StartsBefore.step (h : m.StartsBefore line) (hline : 1 ≤ line) (s : Statement) :
    (m.step s line).StartsBefore (line + 1) := by
  have hkept := h.mono (Nat.le_succ line)
  cases s with
  | classOpen name base =>
      refine ⟨nofun, fun c hc => ?_⟩
      cases hc
      exact ⟨hline, Nat.lt_succ_self line⟩
  | classClose => exact ⟨nofun, nofun⟩
  | routineOpen keyword name =>
      refine ⟨fun r hr => ?_, hkept.ofClass⟩
      cases hr
      exact ⟨hline, Nat.lt_succ_self line⟩
  | routineClose => exact ⟨nofun, hkept.ofClass⟩
  | _ =>
      rw [step_of_isPlain rfl]
      exact hkept

/-! ## What is open becomes a symbol -/

/-- The open routine ends somewhere from a line on which all statements to come are behind. -/
theorem exists_endRoutine (hlines : ∀ t ∈ statements, line < t.1 ∧ t.1 ≤ last)
    (hline : line ≤ last) :
    ∃ stop, line ≤ stop ∧ stop ≤ last ∧ m.endRoutine stop ⊆ symbolsFrom last m statements := by
  induction statements with
  | nil => exact ⟨last, hline, le_refl last, List.subset_append_left _ _⟩
  | cons t rest ih =>
      obtain ⟨here, s⟩ := t
      have hhere : line < here ∧ here ≤ last := hlines _ List.mem_cons_self
      rw [symbolsFrom_cons]
      cases s with
      | classOpen name base =>
          refine ⟨here - 1, by omega, by omega, ?_⟩
          exact List.subset_append_of_subset_left _ (List.subset_append_left _ _)
      | classClose =>
          refine ⟨here, hhere.1.le, hhere.2, ?_⟩
          exact List.subset_append_of_subset_left _ (List.subset_append_left _ _)
      | routineOpen keyword name =>
          exact ⟨here - 1, by omega, by omega, List.subset_append_left _ _⟩
      | routineClose => exact ⟨here, hhere.1.le, hhere.2, List.subset_append_left _ _⟩
      | _ =>
          obtain ⟨stop, hfrom, hto, hsubset⟩ := ih fun t ht => hlines t (List.mem_cons_of_mem _ ht)
          rw [step_of_isPlain rfl]
          exact ⟨stop, hfrom, hto, List.subset_append_of_subset_right _ hsubset⟩

/-- The open class ends somewhere from a line on which all statements to come are behind. -/
theorem exists_endClass (hlines : ∀ t ∈ statements, line < t.1 ∧ t.1 ≤ last)
    (hline : line ≤ last) :
    ∃ stop, line ≤ stop ∧ stop ≤ last ∧ m.endClass stop ⊆ symbolsFrom last m statements := by
  induction statements generalizing m with
  | nil => exact ⟨last, hline, le_refl last, List.subset_append_right _ _⟩
  | cons t rest ih =>
      obtain ⟨here, s⟩ := t
      have hhere : line < here ∧ here ≤ last := hlines _ List.mem_cons_self
      -- Routines come and go inside the class, which the end of the class does not see.
      have hrest : ∀ m' : Machine, m'.classOpen = m.classOpen → ∃ stop, line ≤ stop ∧ stop ≤ last ∧
          m.endClass stop ⊆ m.emit s here ++ symbolsFrom last m' rest := by
        intro m' hsame
        obtain ⟨stop, hfrom, hto, hsubset⟩ :=
          ih (m := m') fun t ht => hlines t (List.mem_cons_of_mem _ ht)
        refine ⟨stop, hfrom, hto, List.subset_append_of_subset_right _ ?_⟩
        rw [endClass, hsame] at hsubset
        exact hsubset
      rw [symbolsFrom_cons]
      cases s with
      | classOpen name base =>
          refine ⟨here - 1, by omega, by omega, ?_⟩
          exact List.subset_append_of_subset_left _ (List.subset_append_right _ _)
      | classClose =>
          refine ⟨here, hhere.1.le, hhere.2, ?_⟩
          exact List.subset_append_of_subset_left _ (List.subset_append_right _ _)
      | routineOpen keyword name => exact hrest _ rfl
      | routineClose => exact hrest _ rfl
      | _ =>
          rw [step_of_isPlain rfl]
          exact hrest _ rfl

/-! ## No other symbol reaches a line -/

/-- What is open ends no later than it is closed. -/
theorem lineEnd_le_of_mem_endAll {y : Symbol} {stop : Nat} (hstarts : m.StartsBefore line)
    (hstop : stop ≤ line) (hsmall : line < 2 ^ 32) (h : y ∈ m.endAll stop) :
    y.lineEnd.toNat ≤ line := by
  rcases List.mem_append.1 h with h | h
  · obtain ⟨r, hr, rfl⟩ := List.mem_map.1 h
    have hstart := hstarts.ofRoutine r (Option.mem_toList.1 hr)
    rw [symbol, Symbol.toNat_lineEnd hstart.1 (by omega) (by omega)]
    omega
  · obtain ⟨c, hc, rfl⟩ := List.mem_map.1 h
    have hstart := hstarts.ofClass c (Option.mem_toList.1 hc)
    rw [symbol, Symbol.toNat_lineEnd hstart.1 (by omega) (by omega)]
    omega

/-- A statement either completes what is open, or declares a symbol of its own line. -/
theorem mem_emit {y : Symbol} (hline : 1 ≤ line) (hsmall : line < 2 ^ 32) (h : y ∈ m.emit s line) :
    (∃ stop ≤ line, y ∈ m.endAll stop) ∨ y.lineStart.toNat = line ∧ y.lineEnd.toNat = line := by
  cases s with
  | classOpen name base => exact Or.inl ⟨line - 1, Nat.sub_le line 1, h⟩
  | classClose => exact Or.inl ⟨line, le_refl line, h⟩
  | routineOpen keyword name =>
      exact Or.inl ⟨line - 1, Nat.sub_le line 1, List.mem_append_left _ h⟩
  | routineClose => exact Or.inl ⟨line, le_refl line, List.mem_append_left _ h⟩
  | constant name value =>
      obtain rfl := List.mem_singleton.1 h
      refine Or.inr ⟨Symbol.toNat_lineStart hline hsmall, ?_⟩
      rw [constant, symbol, Symbol.toNat_lineEnd hline hsmall hsmall, Nat.max_self]
  | assignment name value =>
      simp only [emit, property?, Option.mem_toList] at h
      split at h
      · obtain ⟨c, _, rfl⟩ := Option.map_eq_some_iff.1 h
        refine Or.inr ⟨Symbol.toNat_lineStart hline hsmall, ?_⟩
        rw [symbol, Symbol.toNat_lineEnd hline hsmall hsmall, Nat.max_self]
      · cases h
  | other => cases h

/-- A statement completes nothing that reaches behind its line. -/
theorem lineEnd_le_of_mem_emit {y : Symbol} (hstarts : m.StartsBefore line) (hline : 1 ≤ line)
    (hsmall : line < 2 ^ 32) (h : y ∈ m.emit s line) : y.lineEnd.toNat ≤ line := by
  rcases mem_emit hline hsmall h with ⟨stop, hstop, hend⟩ | ⟨_, hend⟩
  · exact lineEnd_le_of_mem_endAll hstarts hstop hsmall hend
  · rw [hend]

/-- What is open after a statement was open before it, or starts on its line. -/
theorem mem_endAll_step {y : Symbol} {stop : Nat} (hline : 1 ≤ line) (hsmall : line < 2 ^ 32)
    (h : y ∈ (m.step s line).endAll stop) :
    y ∈ m.endAll stop ∨ y.lineStart.toNat = line := by
  cases s with
  | classOpen name base =>
      obtain rfl := List.mem_singleton.1 h
      exact Or.inr (Symbol.toNat_lineStart hline hsmall)
  | classClose => cases h
  | routineOpen keyword name =>
      rcases List.mem_append.1 h with h | h
      · obtain rfl := List.mem_singleton.1 h
        exact Or.inr (Symbol.toNat_lineStart hline hsmall)
      · exact Or.inl (List.mem_append_right _ h)
  | routineClose => exact Or.inl (List.mem_append_right _ h)
  | _ =>
      rw [step_of_isPlain rfl] at h
      exact Or.inl h

/-- The symbols of the statements behind a line start behind it too, apart from those of what is
open. -/
theorem mem_symbolsFrom {y : Symbol} (hlast : last < 2 ^ 32)
    (hlines : ∀ t ∈ statements, line < t.1 ∧ t.1 ≤ last) (h : y ∈ symbolsFrom last m statements) :
    (∃ stop, y ∈ m.endAll stop) ∨ line < y.lineStart.toNat := by
  induction statements generalizing m with
  | nil => exact Or.inl ⟨last, h⟩
  | cons t rest ih =>
      obtain ⟨here, s⟩ := t
      have hhere : line < here ∧ here ≤ last := hlines _ List.mem_cons_self
      have hone : 1 ≤ here := by omega
      have hsmall : here < 2 ^ 32 := by omega
      rw [symbolsFrom_cons] at h
      rcases List.mem_append.1 h with h | h
      · rcases mem_emit hone hsmall h with ⟨stop, _, hend⟩ | ⟨hstart, _⟩
        · exact Or.inl ⟨stop, hend⟩
        · exact Or.inr (by omega)
      · rcases ih (fun t ht => hlines t (List.mem_cons_of_mem _ ht)) h with ⟨stop, hend⟩ | hstart
        · rcases mem_endAll_step hone hsmall hend with hend | hstart
          · exact Or.inl ⟨stop, hend⟩
          · exact Or.inr (by omega)
        · exact Or.inr hstart

/-! ## Phases

A statement sets the phase by the phase before it alone, and opens and closes classes and routines
without a look at the phase.  Still the two never come apart, in whatever order classes and routines
are opened and closed. -/

/-- The phase that goes with a class and a routine that are open. -/
def phaseOf (classOpen routineOpen : Option Opened) : Phase :=
  match classOpen, routineOpen with
  | none, _ => .topLevel
  | some _, none => .inClass
  | some _, some _ => .inMethod

/-- A statement leaves the phase together with what is open. -/
theorem phase_step (h : m.phase = phaseOf m.classOpen m.routineOpen) (s : Statement) (line : Nat) :
    (m.step s line).phase = phaseOf (m.step s line).classOpen (m.step s line).routineOpen := by
  obtain ⟨phase, classOpen, routineOpen⟩ := m
  obtain rfl : phase = phaseOf classOpen routineOpen := h
  cases s with
  | classOpen name base => cases classOpen <;> cases routineOpen <;> rfl
  | classClose => cases classOpen <;> cases routineOpen <;> rfl
  | routineOpen keyword name =>
      -- Outside all classes the phase takes no notice of the routine.
      cases classOpen <;> cases routineOpen <;> rfl
  | routineClose => cases classOpen <;> cases routineOpen <;> rfl
  | _ =>
      rw [step_of_isPlain rfl]

/-- The program after some statements, each with its line. -/
def after (m : Machine) (statements : List (Nat × Statement)) : Machine :=
  statements.foldl (fun m t => m.step t.2 t.1) m

theorem phase_after (h : m.phase = phaseOf m.classOpen m.routineOpen)
    (statements : List (Nat × Statement)) :
    (m.after statements).phase =
      phaseOf (m.after statements).classOpen (m.after statements).routineOpen := by
  induction statements generalizing m with
  | nil => exact h
  | cons t rest ih => exact ih (phase_step h t.2 t.1)

/-- Does the phase tell what is open, and so where a property may stand? -/
structure TellsOpen (m : Machine) : Prop where
  topLevel : m.phase = .topLevel ↔ m.classOpen = none
  inClass : m.phase = .inClass ↔ m.classOpen.isSome ∧ m.routineOpen = none
  inMethod : m.phase = .inMethod ↔ m.classOpen.isSome ∧ m.routineOpen.isSome
  property : ∀ name value line,
    (m.property? name value line).isSome ↔ m.classOpen.isSome ∧ m.routineOpen = none

theorem tellsOpen_of_phase (h : m.phase = phaseOf m.classOpen m.routineOpen) : m.TellsOpen := by
  obtain ⟨phase, classOpen, routineOpen⟩ := m
  obtain rfl : phase = phaseOf classOpen routineOpen := h
  cases classOpen <;> cases routineOpen <;> constructor <;> simp [phaseOf, property?]

/-- After any statements on any lines, the phase is the top level if no class is open, in a class if
a class but no routine is open, and in a method if both are open. -/
theorem phase_tells_open (statements : List (Nat × Statement)) :
    (after {} statements).TellsOpen :=
  tellsOpen_of_phase (phase_after rfl statements)

end Machine

end SourceIndex.Declarations.FoxPro
