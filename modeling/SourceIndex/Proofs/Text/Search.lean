import SourceIndex.Proofs.Text.Pattern

/-!
# Searching with patterns

A search finds matches of its pattern only.  If no match can start inside another one, the search
for all matches misses none.  Some patterns tell the character that their matches start with.
-/

namespace SourceIndex.Text.Pattern

variable {σ : Type} {p : Pattern σ} {behind ahead : List σ} {c : σ} {m : Match}

/-- A match stands at a place or further ahead. -/
def Occurs (p : Pattern σ) (behind ahead : List σ) (m : Match) : Prop :=
  ∃ u v, ahead = u ++ v ∧ p.matchAt? (u.reverse ++ behind) v = some m

theorem Occurs.here (h : p.matchAt? behind ahead = some m) : Occurs p behind ahead m :=
  ⟨[], ahead, rfl, h⟩

theorem occurs_cons_iff :
    Occurs p behind (c :: ahead) m ↔
      p.matchAt? behind (c :: ahead) = some m ∨ Occurs p (c :: behind) ahead m := by
  constructor
  · rintro ⟨u, v, heq, hm⟩
    cases u with
    | nil =>
        obtain rfl : c :: ahead = v := heq
        exact Or.inl hm
    | cons c' u =>
        obtain ⟨rfl, rfl⟩ := List.cons.inj heq
        rw [List.reverse_cons, List.append_assoc, List.singleton_append] at hm
        exact Or.inr ⟨u, v, rfl, hm⟩
  · rintro (hm | ⟨u, v, rfl, hm⟩)
    · exact .here hm
    · refine ⟨c :: u, v, rfl, ?_⟩
      rwa [List.reverse_cons, List.append_assoc, List.singleton_append]

/-- A match starts where it is tried, and spans what its pattern reads from there. -/
theorem exists_read_of_matchAt? (h : p.matchAt? behind ahead = some m) :
    ∃ read rest, ahead = read ++ rest ∧ Reads p read ∧ m.start = behind.length ∧
      m.stop = behind.length + read.length := by
  obtain ⟨s', read, found, hpasses, hend⟩ := passes_of_run h
  cases hend
  refine ⟨read, s'.ahead, hpasses.ahead, hpasses.reads, rfl, ?_⟩
  simp only [Progress.offset, hpasses.behind, List.length_append, List.length_reverse]
  omega

/-! ## The leftmost match -/

theorem occurs_of_findFrom? (h : p.findFrom? behind ahead = some m) : Occurs p behind ahead m := by
  induction ahead generalizing behind with
  | nil => exact .here h
  | cons c rest ih =>
      rw [findFrom?] at h
      split at h
      · rename_i m' hm
        cases h
        exact .here hm
      · exact occurs_cons_iff.2 (Or.inr (ih h))

/-! ## All matches -/

theorem occurs_of_mem_findAllFrom {skip : Nat} (h : m ∈ p.findAllFrom behind skip ahead) :
    Occurs p behind ahead m := by
  induction ahead generalizing behind skip with
  | nil =>
      cases skip with
      | zero => exact .here (Option.mem_toList.1 h)
      | succ skip => cases h
  | cons c rest ih =>
      rw [occurs_cons_iff]
      cases skip with
      | succ skip => exact Or.inr (ih h)
      | zero =>
          rw [findAllFrom] at h
          split at h
          · rename_i m' hm
            rcases List.mem_cons.1 h with rfl | h
            · exact Or.inl hm
            · exact Or.inr (ih h)
          · exact Or.inr (ih h)

/-- No match in the text starts inside another one. -/
def IsApart (p : Pattern σ) (text : List σ) : Prop :=
  ∀ {a u v m m'}, text = a ++ (u ++ v) → p.matchAt? a.reverse (u ++ v) = some m →
    p.matchAt? (a ++ u).reverse v = some m' → u ≠ [] → m.stop ≤ m'.start

/-- The search for all matches misses none behind the symbols that it skips. -/
theorem mem_findAllFrom {text : List σ} (h : p.IsApart text) {a u v : List σ} {skip : Nat}
    (htext : text = a ++ (u ++ v)) (hskip : skip ≤ u.length)
    (hm : p.matchAt? (a ++ u).reverse v = some m) :
    m ∈ p.findAllFrom a.reverse skip (u ++ v) := by
  induction u generalizing a skip with
  | nil =>
      obtain rfl : skip = 0 := Nat.le_zero.1 hskip
      rw [List.append_nil] at hm
      rw [List.nil_append]
      cases v with
      | nil =>
          rw [findAllFrom, hm]
          exact List.mem_cons_self
      | cons c rest =>
          rw [findAllFrom, hm]
          exact List.mem_cons_self
  | cons c u ih =>
      have happend : a ++ c :: u = (a ++ [c]) ++ u := by
        rw [List.append_assoc, List.singleton_append]
      have htext' : text = (a ++ [c]) ++ (u ++ v) := by
        rw [htext, List.append_assoc, List.singleton_append, List.cons_append]
      have hrest : ∀ {skip}, skip ≤ u.length → m ∈ p.findAllFrom (c :: a.reverse) skip (u ++ v) := by
        intro skip hle
        have hmem := ih htext' hle (by rwa [← happend])
        rwa [List.reverse_append, List.reverse_singleton, List.singleton_append] at hmem
      cases skip with
      | succ skip => exact hrest (Nat.le_of_succ_le_succ hskip)
      | zero =>
          rw [List.cons_append, findAllFrom]
          split
          · rename_i m' hm'
            refine List.mem_cons_of_mem _ (hrest ?_)
            have hle := h htext hm' hm (List.cons_ne_nil c u)
            obtain ⟨-, -, -, -, hstart', -⟩ := exists_read_of_matchAt? hm'
            obtain ⟨-, -, -, -, hstart, -⟩ := exists_read_of_matchAt? hm
            simp only [List.length_append, List.length_reverse, List.length_cons] at hstart hstart'
            omega
          · exact hrest (Nat.zero_le _)

/-- The search for all matches finds all of them, and nothing else. -/
theorem mem_findAll_iff {text : List σ} (h : p.IsApart text) :
    m ∈ p.findAll text ↔ ∃ u v, text = u ++ v ∧ p.matchAt? u.reverse v = some m := by
  constructor
  · intro hmem
    obtain ⟨u, v, rfl, hm⟩ := occurs_of_mem_findAllFrom hmem
    rw [List.append_nil] at hm
    exact ⟨u, v, rfl, hm⟩
  · rintro ⟨u, v, rfl, hm⟩
    exact mem_findAllFrom (a := []) h rfl (Nat.zero_le _) hm

/-! ## Patterns one after the other -/

theorem run_seqs_cons {β : Type} (ps : List (Pattern σ)) (s : Progress σ)
    (next : Progress σ → Option β) :
    (seqs (p :: ps)).run s next = p.run s fun s' => (seqs ps).run s' next := by
  cases ps <;> rfl

theorem through_seqs {τ : Type} (shown lookedBack : τ → Option σ) (ps : List (Pattern σ)) :
    (seqs ps).through shown lookedBack = seqs (ps.map fun p => p.through shown lookedBack) := by
  induction ps with
  | nil => rfl
  | cons p ps ih =>
      cases ps with
      | nil => rfl
      | cons q ps => exact congrArg (seq _) ih

/-- Symbols one after the other are read exactly where they stand. -/
theorem run_ones_eq_some_iff {β : Type} {r : β} (classes : List (σ → Bool)) {s : Progress σ}
    {next : Progress σ → Option β} :
    (seqs (classes.map one)).run s next = some r ↔
      ∃ read rest, s.ahead = read ++ rest ∧ List.Forall₂ (fun f c => f c = true) classes read ∧
        next ⟨read.reverse ++ s.behind, rest, s.groups⟩ = some r := by
  induction classes generalizing s with
  | nil =>
      constructor
      · exact fun h => ⟨[], s.ahead, rfl, .nil, h⟩
      · rintro ⟨read, rest, hahead, hall, h⟩
        cases hall
        rw [List.nil_append] at hahead
        rw [← hahead] at h
        exact h
  | cons f classes ih =>
      rw [List.map_cons, run_seqs_cons, run]
      constructor
      · intro h
        split at h
        · rename_i c rest hahead
          split at h
          · rename_i hc
            obtain ⟨read, rest', hrest, hall, h⟩ := ih.1 h
            refine ⟨c :: read, rest', ?_, .cons hc hall, ?_⟩
            · rw [hahead, show rest = read ++ rest' from hrest, List.cons_append]
            · rw [List.reverse_cons, List.append_assoc]
              exact h
          · cases h
        · cases h
      · rintro ⟨read, rest, hahead, hall, h⟩
        cases hall with
        | cons hc hall =>
            rw [hahead]
            simp only [List.cons_append, hc, if_true]
            refine ih.2 ⟨_, rest, rfl, hall, ?_⟩
            rw [List.reverse_cons, List.append_assoc] at h
            exact h

/-- The way of a list of patterns begins with the way of the first and ends with that of the
others. -/
theorem Reads.of_seqs_cons {ps : List (Pattern σ)} {read : List σ}
    (h : Reads (seqs (p :: ps)) read) :
    ∃ u v, read = u ++ v ∧ Reads p u ∧ Reads (seqs ps) v := by
  cases ps with
  | nil => exact ⟨read, [], (List.append_nil _).symm, h, .empty⟩
  | cons q ps =>
      cases h with
      | seq first second => exact ⟨_, _, rfl, first, second⟩

theorem reads_seqs_cons_iff {ps : List (Pattern σ)} {read : List σ} :
    Reads (seqs (p :: ps)) read ↔ ∃ u v, read = u ++ v ∧ Reads p u ∧ Reads (seqs ps) v := by
  refine ⟨Reads.of_seqs_cons, ?_⟩
  rintro ⟨u, v, rfl, hp, hps⟩
  cases ps with
  | nil =>
      cases hps
      rw [List.append_nil]
      exact hp
  | cons q ps => exact .seq hp hps

theorem Reads.of_seqs_concat {ps : List (Pattern σ)} {read : List σ}
    (h : Reads (seqs (ps ++ [p])) read) :
    ∃ u v, read = u ++ v ∧ Reads (seqs ps) u ∧ Reads p v := by
  induction ps generalizing read with
  | nil => exact ⟨[], read, rfl, .empty, h⟩
  | cons q ps ih =>
      obtain ⟨u, v, rfl, hq, hrest⟩ := h.of_seqs_cons
      obtain ⟨v, w, rfl, hps, hp⟩ := ih hrest
      exact ⟨u ++ v, w, (List.append_assoc _ _ _).symm, reads_seqs_cons_iff.2 ⟨u, v, rfl, hq, hps⟩, hp⟩

/-- Symbols one after the other are read one by one. -/
theorem reads_ones_iff (classes : List (σ → Bool)) {read : List σ} :
    Reads (seqs (classes.map one)) read ↔
      List.Forall₂ (fun f c => f c = true) classes read := by
  induction classes generalizing read with
  | nil =>
      constructor
      · intro h
        cases h
        exact .nil
      · intro h
        cases h
        exact .empty
  | cons f classes ih =>
      rw [List.map_cons, reads_seqs_cons_iff]
      constructor
      · rintro ⟨u, v, rfl, hu, hv⟩
        cases hu with
        | one hc => exact .cons hc (ih.1 hv)
      · intro h
        cases h with
        | cons hc hall => exact ⟨[_], _, rfl, .one hc, ih.2 hall⟩

/-! ## Patterns that do not look around -/

/-- Does a match of a pattern depend on what stands around the symbols that it reads? -/
def looksAround : Pattern σ → Bool
  | empty | one _ => false
  | seq a b | alt a b => a.looksAround || b.looksAround
  | many _ a | group _ a => a.looksAround
  | atStart | atEnd | edge _ _ => true

theorem looksAround_seqs (ps : List (Pattern σ)) :
    (seqs ps).looksAround = ps.any looksAround := by
  induction ps with
  | nil => rfl
  | cons p ps ih =>
      cases ps with
      | nil => exact (Bool.or_false _).symm
      | cons q ps => exact congrArg (p.looksAround || ·) ih

/-- Does a pattern go on behind whatever it may read? -/
def Complete (p : Pattern σ) (β : Type) : Prop :=
  ∀ {read rest : List σ} {s : Progress σ} {next : Progress σ → Option β}, Reads p read →
    s.ahead = read ++ rest →
      (∀ groups, (next ⟨read.reverse ++ s.behind, rest, groups⟩).isSome = true) →
        (p.run s next).isSome = true

section

variable {β : Type} {body : Progress σ → (Progress σ → Option β) → Option β} {greedy : Bool}
  {n : Nat} {s : Progress σ} {next : Progress σ → Option β}

/-- A repetition may stop. -/
theorem isSome_rounds_of_next (h : (next s).isSome = true) :
    (rounds body greedy n s next).isSome = true := by
  cases n with
  | zero => exact h
  | succ n =>
      unfold rounds
      cases greedy with
      | true =>
          simp only [if_true]
          split
          · rfl
          · exact h
      | false =>
          simp only [Bool.false_eq_true, if_false]
          split
          · rfl
          · rename_i hnone
            rw [hnone] at h
            cases h

/-- A repetition may take another round that goes ahead. -/
theorem isSome_rounds_succ
    (h : (body s fun s' => if s'.ahead.length < s.ahead.length then rounds body greedy n s' next
      else none).isSome = true) : (rounds body greedy (n + 1) s next).isSome = true := by
  unfold rounds
  cases greedy with
  | true =>
      simp only [if_true]
      split
      · rfl
      · rename_i hnone
        rw [hnone] at h
        cases h
  | false =>
      simp only [Bool.false_eq_true, if_false]
      split
      · rfl
      · exact h

/-- A repetition goes on behind what it may read, given a round for each symbol of it. -/
theorem Complete.rounds {a : Pattern σ} (ha : a.Complete β) {read rest : List σ}
    (h : Reads (.many greedy a) read) (hn : read.length ≤ n) (hahead : s.ahead = read ++ rest)
    (hnext : ∀ groups, (next ⟨read.reverse ++ s.behind, rest, groups⟩).isSome = true) :
    (rounds a.run greedy n s next).isSome = true := by
  generalize hp : Pattern.many greedy a = p at h
  induction h generalizing s n with
  | done =>
      refine isSome_rounds_of_next ?_
      have hstop := hnext s.groups
      rw [List.reverse_nil, List.nil_append, show rest = s.ahead from hahead.symm] at hstop
      exact hstop
  | @round _ _ u v first _ _ ih =>
      cases hp
      rw [List.append_assoc] at hahead
      rw [List.reverse_append, List.append_assoc] at hnext
      cases u with
      | nil => exact ih hn hahead hnext rfl
      | cons c u =>
          cases n with
          | zero => simp at hn
          | succ n =>
              refine isSome_rounds_succ (ha first hahead fun groups => ?_)
              have hlt : (v ++ rest).length < s.ahead.length := by
                simp only [hahead, List.length_append, List.length_cons]
                omega
              rw [if_pos hlt]
              refine ih ?_ rfl hnext rfl
              rw [List.length_append, List.length_cons] at hn
              omega
  | _ => cases hp

end

/-- A pattern that does not look around goes on behind whatever it may read. -/
theorem complete_of_looksAround {β : Type} (h : p.looksAround = false) : p.Complete β := by
  -- What comes next is a function here as well, so the induction is over all of them.
  induction p with
  | empty =>
      intro read rest s next hread hahead hnext
      cases hread
      have hstop := hnext s.groups
      rw [List.reverse_nil, List.nil_append, show rest = s.ahead from hahead.symm] at hstop
      exact hstop
  | one accepts =>
      intro read rest s next hread hahead hnext
      cases hread with
      | one haccepts =>
          rw [run, hahead]
          simp only [List.cons_append, List.nil_append, haccepts, if_true]
          exact hnext s.groups
  | seq a b iha ihb =>
      intro read rest s next hread hahead hnext
      rw [looksAround, Bool.or_eq_false_iff] at h
      cases hread with
      | seq first second =>
          rw [List.append_assoc] at hahead
          rw [List.reverse_append, List.append_assoc] at hnext
          exact iha h.1 first hahead fun groups => ihb h.2 second rfl hnext
  | alt a b iha ihb =>
      intro read rest s next hread hahead hnext
      rw [looksAround, Bool.or_eq_false_iff] at h
      rw [run]
      split
      · rfl
      · rename_i hnone
        cases hread with
        | first hread =>
            have hsome := iha h.1 hread hahead hnext
            rw [hnone] at hsome
            cases hsome
        | second hread => exact ihb h.2 hread hahead hnext
  | many greedy a ih =>
      intro read rest s next hread hahead hnext
      refine Complete.rounds (ih h) hread ?_ hahead hnext
      rw [hahead, List.length_append]
      exact Nat.le_add_right _ _
  | group number a ih =>
      intro read rest s next hread hahead hnext
      cases hread with
      | group hread => exact ih h hread hahead fun groups => hnext _
  | atStart | atEnd | edge => cases h

theorem isSome_findFrom?_iff :
    (p.findFrom? behind ahead).isSome = true ↔
      ∃ u v, ahead = u ++ v ∧ (p.matchAt? (u.reverse ++ behind) v).isSome = true := by
  constructor
  · intro h
    obtain ⟨m, hm⟩ := Option.isSome_iff_exists.1 h
    obtain ⟨u, v, heq, hmatch⟩ := occurs_of_findFrom? hm
    exact ⟨u, v, heq, Option.isSome_iff_exists.2 ⟨m, hmatch⟩⟩
  · rintro ⟨u, v, rfl, h⟩
    induction u generalizing behind with
    | nil =>
        cases v with
        | nil => exact h
        | cons c v =>
            rw [List.nil_append, findFrom?]
            split
            · rfl
            · rename_i hnone
              rw [List.reverse_nil, List.nil_append, hnone] at h
              cases h
    | cons c u ih =>
        rw [List.cons_append, findFrom?]
        split
        · rfl
        · rw [List.reverse_cons, List.append_assoc] at h
          exact ih h

/-- A pattern that does not look around is found exactly if the text holds what it may read. -/
theorem isSome_find?_iff {text : List σ} (h : p.looksAround = false) :
    (p.find? text).isSome = true ↔
      ∃ before read after, text = before ++ (read ++ after) ∧ Reads p read := by
  rw [find?, isSome_findFrom?_iff]
  constructor
  · rintro ⟨before, v, rfl, hmatch⟩
    obtain ⟨m, hm⟩ := Option.isSome_iff_exists.1 hmatch
    obtain ⟨read, after, rfl, hread, -⟩ := exists_read_of_matchAt? hm
    exact ⟨before, read, after, rfl, hread⟩
  · rintro ⟨before, read, after, rfl, hread⟩
    exact ⟨before, _, rfl, complete_of_looksAround h hread rfl fun _ => rfl⟩

/-! ## Groups that take part -/

theorem run_seqs_append {β : Type} (ps qs : List (Pattern σ)) (s : Progress σ)
    (next : Progress σ → Option β) :
    (seqs (ps ++ qs)).run s next = (seqs ps).run s fun s' => (seqs qs).run s' next := by
  induction ps generalizing s with
  | nil => rfl
  | cons p ps ih =>
      rw [List.cons_append, run_seqs_cons, run_seqs_cons]
      exact congrArg _ (funext fun s' => ih s')

/-- A group that stands among patterns one after the other takes part in their matches. -/
theorem isSome_text?_of_group (ps qs : List (Pattern Char)) {number : Nat} {body : Pattern Char}
    {behind ahead text : List Char}
    (h : (seqs (ps ++ .group number body :: qs)).matchAt? behind ahead = some m) :
    (m.text? number text).isSome = true := by
  rw [matchAt?, run_seqs_append] at h
  obtain ⟨s₁, _, _, -, h⟩ := passes_of_run h
  rw [run_seqs_cons, run] at h
  obtain ⟨s₂, _, _, -, h⟩ := passes_of_run h
  obtain ⟨s₃, _, _, hpasses, h⟩ := passes_of_run h
  cases h
  have hmem : (number, s₁.offset, s₂.offset) ∈ s₃.groups := by
    rw [hpasses.groups]
    exact List.mem_append_right _ List.mem_cons_self
  rw [Match.text?, Option.isSome_map, List.find?_isSome]
  exact ⟨_, hmem, beq_self_eq_true number⟩

/-! ## First characters -/

/-- Does every text that a pattern reads start with a character? -/
def StartsWith (p : Pattern Char) (c : Char) : Prop :=
  ∀ read, Reads p read → ∃ rest, read = c :: rest

theorem startsWith_char (c : Char) : (char c).StartsWith c := by
  intro read h
  cases h with
  | one hc => exact ⟨[], congrArg (fun c => [c]) (beq_iff_eq.1 hc)⟩

theorem StartsWith.seqs {p : Pattern Char} {c : Char} (h : p.StartsWith c)
    (ps : List (Pattern Char)) : (seqs (p :: ps)).StartsWith c := by
  intro read hread
  obtain ⟨u, v, rfl, hu, -⟩ := hread.of_seqs_cons
  obtain ⟨rest, rfl⟩ := h u hu
  exact ⟨rest ++ v, rfl⟩

theorem startsWith_word {name : String} {c : Char} {rest : List Char}
    (h : name.toList = c :: rest) : (word name).StartsWith c := by
  rw [word, h, List.map_cons]
  exact (startsWith_char c).seqs _

/-- Blanks, and behind them what starts with another character. -/
theorem exists_of_reads_blanks1 {p : Pattern Char} {c : Char} {read : List Char}
    (hp : p.StartsWith c) (h : Reads (.seq .blanks1 p) read) :
    ∃ blanks rest, read = blanks ++ c :: rest ∧ ∀ b ∈ blanks, isBlank b = true := by
  cases h with
  | seq first second =>
      obtain ⟨rest, rfl⟩ := hp _ second
      exact ⟨_, rest, rfl, first.all_of_plus⟩

end SourceIndex.Text.Pattern
