import Mathlib.Data.List.Basic
import SourceIndex.Text.Pattern

/-!
# What patterns read

The texts that a pattern may read, whatever stands around them and whichever way the order of
choices prefers.  A match reads such a text, and what it tells of a group was read by the body of
that group.
-/

namespace SourceIndex.Text.Pattern

variable {σ : Type}

/-- May a pattern read some symbols? -/
inductive Reads : Pattern σ → List σ → Prop where
  | empty : Reads .empty []
  | one {accepts : σ → Bool} {c : σ} (h : accepts c = true) : Reads (.one accepts) [c]
  | seq {a b : Pattern σ} {u v : List σ} (first : Reads a u) (second : Reads b v) :
      Reads (.seq a b) (u ++ v)
  | first {a b : Pattern σ} {u : List σ} (h : Reads a u) : Reads (.alt a b) u
  | second {a b : Pattern σ} {u : List σ} (h : Reads b u) : Reads (.alt a b) u
  | done {greedy : Bool} {a : Pattern σ} : Reads (.many greedy a) []
  | round {greedy : Bool} {a : Pattern σ} {u v : List σ} (first : Reads a u)
      (rest : Reads (.many greedy a) v) : Reads (.many greedy a) (u ++ v)
  | group {number : Nat} {a : Pattern σ} {u : List σ} (h : Reads a u) : Reads (.group number a) u
  | atStart : Reads .atStart []
  | atEnd : Reads .atEnd []
  | edge {behind ahead : σ → Bool} : Reads (.edge behind ahead) []

/-- The bodies of the groups of a number in a pattern. -/
def bodies (number : Nat) : Pattern σ → List (Pattern σ)
  | seq a b | alt a b => bodies number a ++ bodies number b
  | many _ a => bodies number a
  | group n a => (if n = number then [a] else []) ++ bodies number a
  | empty | one _ | atStart | atEnd | edge _ _ => []

/-- The symbols of a span. -/
def part (text : List σ) (span : Nat × Nat) : List σ :=
  (text.drop span.1).take (span.2 - span.1)

/-- The way of a pattern from one place of a text to another: what it reads there, and the groups
that it closes. -/
structure Passes (p : Pattern σ) (s s' : Progress σ) (read : List σ)
    (found : List (Nat × Nat × Nat)) : Prop where
  ahead : s.ahead = read ++ s'.ahead
  behind : s'.behind = read.reverse ++ s.behind
  groups : s'.groups = found ++ s.groups
  reads : Reads p read
  bodies : ∀ g ∈ found, ∃ body ∈ p.bodies g.1, Reads body (part (s.behind.reverse ++ s.ahead) g.2)

namespace Passes

variable {p a b : Pattern σ} {s s' s'' : Progress σ} {read read' : List σ}
  {found found' : List (Nat × Nat × Nat)}

/-- A pattern that reads nothing stays where it is. -/
theorem stay (h : Reads p []) : Passes p s s [] [] :=
  { ahead := rfl
    behind := rfl
    groups := rfl
    reads := h
    bodies := fun _ hg => absurd hg List.not_mem_nil }

theorem text_eq (h : Passes p s s' read found) :
    s'.behind.reverse ++ s'.ahead = s.behind.reverse ++ s.ahead := by
  rw [h.ahead, h.behind, List.reverse_append, List.reverse_reverse, List.append_assoc]

/-- Two ways one after the other are a way of any pattern that may read both parts and has the
groups of both. -/
theorem append {q : Pattern σ} (first : Passes a s s' read found)
    (second : Passes b s' s'' read' found') (hreads : Reads q (read ++ read'))
    (hbodies : ∀ n, ∀ body, body ∈ a.bodies n ∨ body ∈ b.bodies n → body ∈ q.bodies n) :
    Passes q s s'' (read ++ read') (found' ++ found) := by
  refine ⟨?_, ?_, ?_, hreads, ?_⟩
  · rw [first.ahead, second.ahead, List.append_assoc]
  · rw [second.behind, first.behind, List.reverse_append, List.append_assoc]
  · rw [second.groups, first.groups, List.append_assoc]
  · intro g hg
    rcases List.mem_append.1 hg with hg | hg
    · obtain ⟨body, hbody, hread⟩ := second.bodies g hg
      rw [first.text_eq] at hread
      exact ⟨body, hbodies _ _ (Or.inr hbody), hread⟩
    · obtain ⟨body, hbody, hread⟩ := first.bodies g hg
      exact ⟨body, hbodies _ _ (Or.inl hbody), hread⟩

/-- A way of one pattern is a way of another one that may read the same and has its groups. -/
theorem widen {q : Pattern σ} (h : Passes p s s' read found) (hreads : Reads q read)
    (hbodies : ∀ n, ∀ body ∈ p.bodies n, body ∈ q.bodies n) : Passes q s s' read found := by
  refine ⟨h.ahead, h.behind, h.groups, hreads, fun g hg => ?_⟩
  obtain ⟨body, hbody, hread⟩ := h.bodies g hg
  exact ⟨body, hbodies _ _ hbody, hread⟩

/-- A group closes with the part that its body has read. -/
theorem close {number : Nat} (h : Passes a s s' read found) :
    Passes (.group number a) s { s' with groups := (number, s.offset, s'.offset) :: s'.groups } read
      ((number, s.offset, s'.offset) :: found) := by
  refine ⟨h.ahead, h.behind, ?_, .group h.reads, ?_⟩
  · rw [h.groups, List.cons_append]
  · intro g hg
    rcases List.mem_cons.1 hg with rfl | hg
    · refine ⟨a, ?_, ?_⟩
      · simp only [Pattern.bodies, if_true, List.singleton_append, List.mem_cons, true_or]
      · have hoffset : s'.offset - s.offset = read.length := by
          simp only [Progress.offset, h.behind, List.length_append, List.length_reverse]
          omega
        have hpart : part (s.behind.reverse ++ s.ahead) (s.offset, s'.offset) = read := by
          rw [part, hoffset, h.ahead]
          rw [List.drop_left' (by rw [List.length_reverse, Progress.offset]), List.take_left]
        rw [hpart]
        exact h.reads
    · obtain ⟨body, hbody, hread⟩ := h.bodies g hg
      exact ⟨body, List.mem_append_right _ hbody, hread⟩

end Passes

/-- Every round of a repetition is a way of its body. -/
theorem passes_of_rounds {β : Type} {a : Pattern σ} {greedy : Bool} {r : β}
    (ha : ∀ {s : Progress σ} {next : Progress σ → Option β}, a.run s next = some r →
      ∃ s' read found, Passes a s s' read found ∧ next s' = some r)
    {n : Nat} {s : Progress σ} {next : Progress σ → Option β}
    (h : rounds a.run greedy n s next = some r) :
    ∃ s' read found, Passes (.many greedy a) s s' read found ∧ next s' = some r := by
  induction n generalizing s with
  | zero => exact ⟨s, [], [], Passes.stay .done, h⟩
  | succ n ih =>
      -- Another round is followed by a repetition of one round less.
      have hagain : (a.run s fun s' =>
          if s'.ahead.length < s.ahead.length then rounds a.run greedy n s' next else none) = some r →
          ∃ s' read found, Passes (.many greedy a) s s' read found ∧ next s' = some r := by
        intro hrun
        obtain ⟨s', read, found, hpasses, hnext⟩ := ha hrun
        split at hnext
        · obtain ⟨s'', read', found', hrest, hend⟩ := ih hnext
          exact ⟨s'', _, _, hpasses.append hrest (.round hpasses.reads hrest.reads)
            fun _ _ hbody => hbody.elim id id, hend⟩
        · cases hnext
      unfold rounds at h
      cases greedy with
      | true =>
          simp only [if_true] at h
          split at h
          · cases h
            exact hagain ‹_›
          · exact ⟨s, [], [], Passes.stay .done, h⟩
      | false =>
          simp only [Bool.false_eq_true, if_false] at h
          split at h
          · cases h
            exact ⟨s, [], [], Passes.stay .done, ‹_›⟩
          · exact hagain h

/-- A pattern that goes on to a result has passed some text before. -/
theorem passes_of_run {β : Type} {p : Pattern σ} {s : Progress σ}
    {next : Progress σ → Option β} {r : β} (h : p.run s next = some r) :
    ∃ s' read found, Passes p s s' read found ∧ next s' = some r := by
  -- A pattern is given what comes next as a function, so the induction is over all of them.
  induction p generalizing s next with
  | empty => exact ⟨s, [], [], Passes.stay .empty, h⟩
  | one accepts =>
      unfold run at h
      split at h
      · rename_i c rest hahead
        split at h
        · rename_i haccepts
          exact ⟨{ s with behind := c :: s.behind, ahead := rest }, [c], [],
            ⟨hahead, rfl, rfl, .one haccepts, fun _ hg => absurd hg List.not_mem_nil⟩, h⟩
        · cases h
      · cases h
  | seq a b iha ihb =>
      obtain ⟨s', read, found, hfirst, hrun⟩ := iha h
      obtain ⟨s'', read', found', hsecond, hnext⟩ := ihb hrun
      exact ⟨s'', _, _, hfirst.append hsecond (.seq hfirst.reads hsecond.reads)
        fun _ _ hbody => List.mem_append.2 hbody, hnext⟩
  | alt a b iha ihb =>
      unfold run at h
      split at h
      · cases h
        obtain ⟨s', read, found, hpasses, hnext⟩ := iha ‹_›
        exact ⟨s', read, found, hpasses.widen (.first hpasses.reads)
          fun _ _ hbody => List.mem_append_left _ hbody, hnext⟩
      · obtain ⟨s', read, found, hpasses, hnext⟩ := ihb h
        exact ⟨s', read, found, hpasses.widen (.second hpasses.reads)
          fun _ _ hbody => List.mem_append_right _ hbody, hnext⟩
  | many greedy a ih => exact passes_of_rounds ih h
  | group number a ih =>
      obtain ⟨s', read, found, hpasses, hnext⟩ := ih h
      exact ⟨_, read, _, hpasses.close, hnext⟩
  | atStart =>
      unfold run at h
      split at h
      · exact ⟨s, [], [], Passes.stay .atStart, h⟩
      · cases h
  | atEnd =>
      unfold run at h
      split at h
      · exact ⟨s, [], [], Passes.stay .atEnd, h⟩
      · cases h
  | edge behind ahead =>
      unfold run at h
      split at h
      · exact ⟨s, [], [], Passes.stay .edge, h⟩
      · cases h

/-- What a match at the start of a text tells of a group was read by the body of the group. -/
theorem reads_of_text? {p : Pattern Char} {text : List Char} {m : Match} {number : Nat}
    {found : String} (hmatch : p.matchAt? [] text = some m)
    (htext : m.text? number text = some found) :
    ∃ body ∈ p.bodies number, Reads body found.toList := by
  obtain ⟨s', read, spans, hpasses, hend⟩ := passes_of_run hmatch
  cases hend
  unfold Match.text? at htext
  obtain ⟨g, hfind, rfl⟩ := Option.map_eq_some_iff.1 htext
  have hnumber : g.1 = number := by
    simpa only [beq_iff_eq] using List.find?_some hfind
  have hmem : g ∈ spans := by
    have hg := List.mem_of_find?_eq_some hfind
    rw [hpasses.groups] at hg
    simpa only [List.append_nil] using hg
  obtain ⟨body, hbody, hread⟩ := hpasses.bodies g hmem
  rw [hnumber] at hbody
  refine ⟨body, hbody, ?_⟩
  rw [String.toList_ofList]
  exact hread

/-- A repetition of symbols of one class reads nothing else. -/
theorem Reads.all_of_many {greedy : Bool} {accepts : σ → Bool} {read : List σ}
    (h : Reads (.many greedy (.one accepts)) read) : ∀ c ∈ read, accepts c = true := by
  generalize hp : Pattern.many greedy (.one accepts) = p at h
  induction h with
  | done => exact fun _ hc => absurd hc List.not_mem_nil
  | round first _ _ ih =>
      cases hp
      cases first with
      | one haccepts =>
          intro c hc
          rcases List.mem_cons.1 hc with rfl | hc
          · exact haccepts
          · exact ih rfl c hc
  | _ => cases hp

theorem Reads.all_of_plus {accepts : σ → Bool} {read : List σ}
    (h : Reads (.plus (.one accepts)) read) : ∀ c ∈ read, accepts c = true := by
  cases h with
  | seq first second =>
      cases first with
      | one haccepts =>
          intro c hc
          rcases List.mem_cons.1 hc with rfl | hc
          · exact haccepts
          · exact second.all_of_many c hc

theorem reads_many_one_iff {greedy : Bool} {accepts : σ → Bool} {read : List σ} :
    Reads (.many greedy (.one accepts)) read ↔ ∀ c ∈ read, accepts c = true := by
  refine ⟨Reads.all_of_many, fun h => ?_⟩
  induction read with
  | nil => exact .done
  | cons c read ih =>
      obtain ⟨hc, hread⟩ := List.forall_mem_cons.1 h
      exact .round (.one hc) (ih hread)

theorem reads_plus_one_iff {accepts : σ → Bool} {read : List σ} :
    Reads (.plus (.one accepts)) read ↔ read ≠ [] ∧ ∀ c ∈ read, accepts c = true := by
  constructor
  · intro h
    refine ⟨?_, h.all_of_plus⟩
    cases h with
    | seq first second =>
        cases first with
        | one => exact List.cons_ne_nil _ _
  · rintro ⟨hne, h⟩
    cases read with
    | nil => exact absurd rfl hne
    | cons c read =>
        obtain ⟨hc, hread⟩ := List.forall_mem_cons.1 h
        exact .seq (.one hc) (reads_many_one_iff.2 hread)

theorem reads_group_iff {number : Nat} {a : Pattern σ} {read : List σ} :
    Reads (.group number a) read ↔ Reads a read := by
  constructor
  · intro h
    cases h with
    | group h => exact h
  · exact .group

end SourceIndex.Text.Pattern
