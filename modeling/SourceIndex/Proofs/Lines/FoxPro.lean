import SourceIndex.Proofs.FoxPro.Attribution
import SourceIndex.Proofs.FoxPro.Lines
import SourceIndex.Proofs.FoxPro.Symbols
import SourceIndex.Proofs.Lines.Standing

/-!
# Lines of FoxPro programs

A program has a source line more than its text has line feeds, and joining lines makes them fewer.
So statements, and all that they complete and use, stand on the lines of the text.
-/

namespace SourceIndex

namespace Idiom.FoxPro

/-- Number of lines of a program, one more than the line feeds of its text. -/
def lineTotal (bytes : List UInt8) : Nat :=
  (Text.decodeUnknown bytes).count '\n' + 1

/-- Joining goes no further than the lines. -/
theorem joinFrom_le {first current : Nat} {opened : List Char} {rest : List (List Char)}
    (h : first ≤ current) :
    ∀ line ∈ joinFrom first current opened rest, line.number ≤ current + rest.length := by
  induction rest generalizing first current opened with
  | nil =>
      intro line hline
      obtain rfl := List.mem_singleton.1 hline
      exact h
  | cons next rest ih =>
      intro line hline
      rw [List.length_cons]
      rw [joinFrom] at hline
      split at hline
      · have hnext := ih (Nat.le_trans h (Nat.le_succ current)) line hline
        omega
      · rcases List.mem_cons.1 hline with rfl | hline
        · exact Nat.le_trans h (Nat.le_add_right _ _)
        · have hnext := ih (Nat.le_refl (current + 1)) line hline
          omega

theorem logicalLines_le (text : List Char) :
    ∀ line ∈ logicalLines text, line.number ≤ text.count '\n' + 1 := by
  have hlength : (sourceLines text).length = text.count '\n' + 1 := by
    rw [sourceLines, List.length_map, Text.Chars.length_splitWhere]
  intro line hline
  unfold logicalLines at hline
  split at hline
  · cases hline
  · rename_i first rest hlines
    have hle := joinFrom_le (Nat.le_refl 1) line hline
    rw [hlines, List.length_cons] at hlength
    omega

theorem Program.lastLine_le (bytes : List UInt8) :
    1 ≤ (ofBytes bytes).lastLine ∧ (ofBytes bytes).lastLine ≤ lineTotal bytes := by
  show 1 ≤ lastNumber _ ∧ lastNumber _ ≤ _
  unfold lastNumber
  cases hlast : (logicalLines (Text.decodeUnknown bytes)).getLast? with
  | none => exact ⟨Nat.le_refl 1, Nat.le_add_left 1 _⟩
  | some line =>
      have hline := List.mem_of_getLast? hlast
      exact ⟨one_le_logicalLines _ line hline, logicalLines_le _ line hline⟩

end Idiom.FoxPro

namespace Declarations.FoxPro

open Idiom.FoxPro

theorem symbol_standsIn {n first last : Nat} (hsmall : n < 2 ^ 32) (hone : 1 ≤ first)
    (hfirst : first ≤ n) (hlast : last ≤ n) {name : String} {kind : SymbolKind}
    {details : Symbol.Details} : (symbol name kind first last details).StandsIn n :=
  Symbol.standsIn_of_numbers hsmall (Nat.le_trans hone hfirst) hfirst hlast

namespace Machine

variable {m : Machine} {s : Statement} {line last : Nat}

/-- What is open still started before a line after a statement further up. -/
theorem StartsBefore.step_of_lt (h : m.StartsBefore last) (hone : 1 ≤ line) (hline : line < last)
    (s : Statement) : (m.step s line).StartsBefore last := by
  cases s with
  | classOpen name base =>
      refine ⟨nofun, fun c hc => ?_⟩
      cases hc
      exact ⟨hone, hline⟩
  | classClose => exact ⟨nofun, nofun⟩
  | routineOpen keyword name =>
      refine ⟨fun r hr => ?_, h.ofClass⟩
      cases hr
      exact ⟨hone, hline⟩
  | routineClose => exact ⟨nofun, h.ofClass⟩
  | _ =>
      rw [step_of_isPlain rfl]
      exact h

theorem endAll_stands (hsmall : last < 2 ^ 32) (h : m.StartsBefore (last + 1)) {stop : Nat}
    (hstop : stop ≤ last) : ∀ y ∈ m.endAll stop, y.StandsIn last := by
  intro y hy
  rcases List.mem_append.1 hy with hy | hy
  · obtain ⟨r, hr, rfl⟩ := List.mem_map.1 hy
    obtain ⟨hone, hstart⟩ := h.ofRoutine r (Option.mem_toList.1 hr)
    exact symbol_standsIn hsmall hone (Nat.le_of_lt_succ hstart) hstop
  · obtain ⟨c, hc, rfl⟩ := List.mem_map.1 hy
    obtain ⟨hone, hstart⟩ := h.ofClass c (Option.mem_toList.1 hc)
    exact symbol_standsIn hsmall hone (Nat.le_of_lt_succ hstart) hstop

theorem emit_stands (hsmall : last < 2 ^ 32) (h : m.StartsBefore (last + 1)) (hone : 1 ≤ line)
    (hline : line ≤ last) : ∀ y ∈ m.emit s line, y.StandsIn last := by
  intro y hy
  rcases mem_emit hone (Nat.lt_of_le_of_lt hline hsmall) hy with
    ⟨stop, hstop, hend⟩ | ⟨hfirst, hlast⟩
  · exact endAll_stands hsmall h (Nat.le_trans hstop hline) y hend
  · rw [Symbol.StandsIn, hfirst, hlast]
    exact ⟨hone, Nat.le_refl line, hline⟩

theorem symbolsFrom_stand (hsmall : last < 2 ^ 32) (h : m.StartsBefore (last + 1))
    {statements : List (Nat × Statement)} (hlines : ∀ t ∈ statements, 1 ≤ t.1 ∧ t.1 ≤ last) :
    ∀ y ∈ symbolsFrom last m statements, y.StandsIn last := by
  induction statements generalizing m with
  | nil => exact endAll_stands hsmall h (Nat.le_refl last)
  | cons t rest ih =>
      obtain ⟨hone, hline⟩ := hlines t List.mem_cons_self
      refine List.forall_mem_append.2 ⟨emit_stands hsmall h hone hline, ?_⟩
      have hstep := h.step_of_lt hone (Nat.lt_succ_of_le hline) t.2
      exact ih hstep fun t' ht' => hlines t' (List.mem_cons_of_mem t ht')

end Machine

theorem symbols_stand {d : Document} (hd : lineTotal d.bytes < 2 ^ 32) :
    ∀ y ∈ symbols d, y.StandsIn (lineTotal d.bytes) := by
  obtain ⟨hone, hlast⟩ := Program.lastLine_le d.bytes
  have hwiden : ∀ y : Symbol, y.StandsIn (Program.ofBytes d.bytes).lastLine →
      y.StandsIn (lineTotal d.bytes) := fun y h => ⟨h.1, h.2.1, Nat.le_trans h.2.2 hlast⟩
  refine List.forall_mem_append.2 ⟨fun y hy => hwiden y ?_, fun y hy => ?_⟩
  · refine Machine.symbolsFrom_stand (Nat.lt_of_le_of_lt hlast hd)
      (Machine.startsBefore_initial _) (fun t ht => ?_) y hy
    obtain ⟨⟨line, text⟩, hline, rfl⟩ := List.mem_map.1 ht
    exact Program.statement_bounds hline
  · -- A program that declares nothing is one symbol of all its lines.
    split at hy
    · obtain rfl := List.mem_singleton.1 hy
      exact symbol_standsIn hd (Nat.le_refl 1) (Nat.le_trans hone hlast) hlast
    · cases hy

end Declarations.FoxPro

namespace Uses.FoxPro

open Idiom.FoxPro

theorem references_stand {d : Document} (hd : lineTotal d.bytes < 2 ^ 32) :
    ∀ r ∈ references d, r.StandsIn (lineTotal d.bytes) := by
  intro r hr
  obtain ⟨t, ht, hline⟩ := line_of_mem_usesFrom hr
  obtain ⟨hone, hlast⟩ := Program.statement_bounds ht
  have hle := Nat.le_trans hlast (Program.lastLine_le d.bytes).2
  have hvalue : r.line.toNat = t.1 := by
    rw [hline, toNat_toUInt32 (by omega)]
  rw [Reference.StandsIn, hvalue]
  exact ⟨hone, hle⟩

end Uses.FoxPro

end SourceIndex
