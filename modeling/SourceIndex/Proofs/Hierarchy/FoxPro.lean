import SourceIndex.Proofs.Hierarchy.Owner
import SourceIndex.Proofs.Lines.FoxPro

/-!
# Owners of FoxPro programs

A method belongs to the class that is open when it ends, and a property to the one that is open on
its line.  The class was opened before them and ends no earlier: where it is closed, where the next
one begins, or with the program.
-/

namespace SourceIndex.Declarations.FoxPro

open Idiom.FoxPro

theorem span_symbol {name : String} {kind : SymbolKind} {first last : Nat}
    {details : Symbol.Details} (hone : 1 ≤ first) (hfirst : first < 2 ^ 32) (hlast : last < 2 ^ 32) :
    (symbol name kind first last details).span = ⟨first, max last first⟩ :=
  congrArg₂ Span.mk (Symbol.toNat_lineStart hone hfirst) (Symbol.toNat_lineEnd hone hfirst hlast)

namespace Machine

variable {m : Machine} {s : Statement} {all : List Symbol} {line last stop : Nat}
  {statements : List (Nat × Statement)}

/-- A routine that is open in a class was opened in it. -/
def IsNested (m : Machine) : Prop :=
  ∀ c ∈ m.classOpen, ∀ r ∈ m.routineOpen, c.start ≤ r.start

theorem isNested_initial : IsNested {} :=
  nofun

theorem IsNested.step (h : m.IsNested) (hstarts : m.StartsBefore line) (s : Statement) :
    (m.step s line).IsNested := by
  cases s with
  | classOpen name base => exact fun _ _ _ => nofun
  | classClose => exact nofun
  | routineOpen keyword name =>
      intro c hc r hr
      cases hr
      exact (hstarts.ofClass c hc).2.le
  | routineClose => exact fun _ _ _ => nofun
  | _ =>
      rw [step_of_isPlain rfl]
      exact h

/-- Is the open class, if there is one, among some symbols, as one that reaches at least to a line?
-/
def ClassReaches (m : Machine) (all : List Symbol) (line : Nat) : Prop :=
  ∀ c ∈ m.classOpen, ∃ z ∈ all, z.qualifiedName = c.name ∧ z.span.first = c.start ∧
    line ≤ z.span.last

theorem classReaches_of_endClass (hstarts : m.StartsBefore (stop + 1)) (hsmall : stop < 2 ^ 32)
    (h : m.endClass stop ⊆ all) : m.ClassReaches all stop := by
  intro c hc
  obtain ⟨hone, hstart⟩ := hstarts.ofClass c hc
  refine ⟨_, h (List.mem_map.2 ⟨c, Option.mem_toList.2 hc, rfl⟩), rfl, ?_⟩
  rw [span_symbol hone (by omega) hsmall]
  exact ⟨rfl, Nat.le_max_left _ _⟩

theorem ClassReaches.mono {more : List Symbol} (h : m.ClassReaches all line) (hsubset : all ⊆ more)
    (hstop : stop ≤ line) : m.ClassReaches more stop := by
  intro c hc
  obtain ⟨z, hz, hname, hfirst, hlast⟩ := h c hc
  exact ⟨z, hsubset hz, hname, hfirst, Nat.le_trans hstop hlast⟩

/-- The class that is open behind a line reaches to this line. -/
theorem classReaches_symbolsFrom (hstarts : m.StartsBefore (line + 1)) (hsmall : last < 2 ^ 32)
    (hlines : ∀ t ∈ statements, line < t.1 ∧ t.1 ≤ last) (hline : line ≤ last) :
    m.ClassReaches (symbolsFrom last m statements) line := by
  obtain ⟨stop, hfrom, hto, hsubset⟩ := exists_endClass (m := m) hlines hline
  have hends := classReaches_of_endClass (hstarts.mono (by omega)) (by omega) hsubset
  exact hends.mono (List.Subset.refl _) hfrom

/-- A routine that ends before the class does belongs to the class. -/
theorem endRoutine_haveOwner (hnested : m.IsNested) (hstarts : m.StartsBefore (stop + 1))
    (hsmall : stop < 2 ^ 32) (h : m.ClassReaches all stop) :
    ∀ y ∈ m.endRoutine stop, y.HasOwner all := by
  intro y hy
  obtain ⟨r, hr, rfl⟩ := List.mem_map.1 hy
  have hr := Option.mem_toList.1 hr
  obtain ⟨hone, hstart⟩ := hstarts.ofRoutine r hr
  intro owner howner
  obtain ⟨c, hc, rfl⟩ := Option.map_eq_some_iff.1 (Option.mem_def.1 howner)
  obtain ⟨z, hz, hname, hfirst, hlast⟩ := h c hc
  refine ⟨z, hz, hname, ?_⟩
  rw [span_symbol hone (by omega) hsmall]
  have hinside := hnested c hc r hr
  simp only [Span.Covers]
  omega

theorem endClass_haveOwner : ∀ y ∈ m.endClass stop, y.HasOwner all := by
  intro y hy
  obtain ⟨c, -, rfl⟩ := List.mem_map.1 hy
  exact Symbol.hasOwner_of_none rfl

/-- What ends together with the class belongs to it. -/
theorem endAll_haveOwner (hnested : m.IsNested) (hstarts : m.StartsBefore (stop + 1))
    (hsmall : stop < 2 ^ 32) (h : m.endAll stop ⊆ all) : ∀ y ∈ m.endAll stop, y.HasOwner all := by
  have hreaches : m.ClassReaches all stop :=
    classReaches_of_endClass hstarts hsmall (List.append_subset.1 h).2
  exact List.forall_mem_append.2
    ⟨endRoutine_haveOwner hnested hstarts hsmall hreaches, endClass_haveOwner⟩

theorem property?_hasOwner {name value : String} (hstarts : m.StartsBefore line) (hone : 1 ≤ line)
    (hsmall : line < 2 ^ 32) (h : m.ClassReaches all line) :
    ∀ y ∈ m.property? name value line, y.HasOwner all := by
  intro y hy
  unfold property? at hy
  split at hy
  · obtain ⟨c, hc, rfl⟩ := Option.map_eq_some_iff.1 hy
    intro owner howner
    obtain ⟨z, hz, hname, hfirst, hlast⟩ := h c hc
    refine ⟨z, hz, hname.trans (Option.some_inj.1 howner), ?_⟩
    have hstart := (hstarts.ofClass c hc).2
    rw [span_symbol hone hsmall hsmall]
    simp only [Span.Covers]
    omega
  · cases hy

/-- What a statement completes belongs to the class that is open there.  The class ends with the
statement, or it is still open and ends later on. -/
theorem emit_haveOwner (hnested : m.IsNested) (hstarts : m.StartsBefore line) (hone : 1 ≤ line)
    (hlines : ∀ t ∈ statements, line < t.1 ∧ t.1 ≤ last) (hline : line ≤ last)
    (hsmall : last < 2 ^ 32) :
    ∀ y ∈ m.emit s line, y.HasOwner (symbolsFrom last m ((line, s) :: statements)) := by
  have hnow : m.StartsBefore (line + 1) := hstarts.mono (Nat.le_succ line)
  have hbefore : m.StartsBefore (line - 1 + 1) := by
    rwa [Nat.sub_add_cancel hone]
  -- A class that the statement leaves open is among the symbols that later statements complete.
  have hlater : ∀ s : Statement, (m.step s line).classOpen = m.classOpen →
      ∀ stop ≤ line, m.ClassReaches
        (m.emit s line ++ symbolsFrom last (m.step s line) statements) stop := by
    intro s hsame stop hstop
    have hreaches := classReaches_symbolsFrom (hstarts.step hone s) hsmall hlines hline
    rw [ClassReaches, hsame] at hreaches
    exact ClassReaches.mono hreaches (List.subset_append_right _ _) hstop
  rw [symbolsFrom_cons]
  cases s with
  | classOpen name base =>
      exact endAll_haveOwner hnested hbefore (by omega) (List.subset_append_left _ _)
  | classClose => exact endAll_haveOwner hnested hnow (by omega) (List.subset_append_left _ _)
  | routineOpen keyword name =>
      exact endRoutine_haveOwner hnested hbefore (by omega) (hlater _ rfl _ (Nat.sub_le line 1))
  | routineClose =>
      exact endRoutine_haveOwner hnested hnow (by omega) (hlater _ rfl _ (Nat.le_refl line))
  | constant name value => exact List.forall_mem_singleton.2 (Symbol.hasOwner_of_none rfl)
  | assignment name value =>
      intro y hy
      exact property?_hasOwner hstarts hone (by omega) (hlater _ rfl _ (Nat.le_refl line)) y
        (Option.mem_toList.1 hy)
  | other => exact List.forall_mem_nil _

/-- What the statements of a program complete forms a hierarchy, whatever is open before them. -/
theorem isHierarchy_symbolsFrom (hnested : m.IsNested)
    (hstarts : ∀ t ∈ statements, m.StartsBefore t.1) (hlast : m.StartsBefore (last + 1))
    (hordered : statements.Pairwise fun a b => a.1 < b.1)
    (hbounds : ∀ t ∈ statements, 1 ≤ t.1 ∧ t.1 ≤ last) (hsmall : last < 2 ^ 32) :
    IsHierarchy (symbolsFrom last m statements) := by
  induction statements generalizing m with
  | nil => exact endAll_haveOwner hnested hlast hsmall (List.Subset.refl _)
  | cons t rest ih =>
      obtain ⟨line, s⟩ := t
      obtain ⟨hone, hline⟩ := hbounds _ List.mem_cons_self
      have hstart := hstarts _ List.mem_cons_self
      obtain ⟨hbehind, hordered⟩ := List.pairwise_cons.1 hordered
      have hrest := fun t ht => hbounds t (List.mem_cons_of_mem _ ht)
      refine List.forall_mem_append.2 ⟨emit_haveOwner hnested hstart hone
        (fun t ht => ⟨hbehind t ht, (hrest t ht).2⟩) hline hsmall, fun y hy => ?_⟩
      have hstep := hstart.step hone s
      have hlater := ih (hnested.step hstart s) (fun t ht => hstep.mono (hbehind t ht))
        (hstep.mono (Nat.succ_le_succ hline)) hordered hrest
      exact (hlater y hy).of_subset (List.subset_append_right _ _)

end Machine

/-- The symbols of a program that name their owners have these owners among them. -/
theorem isHierarchy_symbols {d : Document} (hd : lineTotal d.bytes < 2 ^ 32) :
    IsHierarchy (symbols d) := by
  have hsmall := Nat.lt_of_le_of_lt (Program.lastLine_le d.bytes).2 hd
  refine List.forall_mem_append.2 ⟨fun y hy => ?_, fun y hy => ?_⟩
  · have hstatements := Machine.isHierarchy_symbolsFrom Machine.isNested_initial
      (fun t _ => Machine.startsBefore_initial t.1) (Machine.startsBefore_initial _)
      (List.pairwise_map.2 (Program.pairwise_statements d.bytes)) (fun t ht => ?_) hsmall y hy
    · exact hstatements.of_subset (List.subset_append_left _ _)
    · obtain ⟨⟨line, text⟩, hline, rfl⟩ := List.mem_map.1 ht
      exact Program.statement_bounds hline
  -- A program that declares nothing is one function, which belongs to nothing.
  · split at hy
    · obtain rfl := List.mem_singleton.1 hy
      exact Symbol.hasOwner_of_none rfl
    · cases hy

end SourceIndex.Declarations.FoxPro
