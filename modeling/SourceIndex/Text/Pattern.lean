import SourceIndex.Text.Blank
import SourceIndex.Text.Word

/-!
# Patterns

Patterns over texts, with ordered choice and with repetitions that prefer more or fewer rounds. A
match is the first that the order of choices finds at the leftmost place that has one. Patterns
are over any kind of symbol, since a text may be read as characters or as octets of which some
are no character.
-/

namespace SourceIndex.Text

/-- A pattern over symbols. -/
inductive Pattern (σ : Type) where
  | empty
  /-- One symbol of a class. -/
  | one (accepts : σ → Bool)
  | seq (first second : Pattern σ)
  /-- The first pattern, or else the second. -/
  | alt (first second : Pattern σ)
  /-- Any number of rounds, as many as possible if `greedy`, else as few as possible. -/
  | many (greedy : Bool) (body : Pattern σ)
  /-- A part of the match that is told apart by its number. -/
  | group (number : Nat) (body : Pattern σ)
  /-- The start of the text. -/
  | atStart
  /-- The end of the text. -/
  | atEnd
  /-- A place with a symbol of the first class behind or one of the second class ahead, but not
  both. -/
  | edge (behind ahead : σ → Bool)

namespace Pattern

variable {σ : Type}

/-- How far a match has come: the symbols behind it, the nearest first, those ahead, and the spans
of the groups that are closed. -/
structure Progress (σ : Type) where
  behind : List σ
  ahead : List σ
  groups : List (Nat × Nat × Nat) := []

/-- Number of symbols behind. -/
def Progress.offset (s : Progress σ) : Nat :=
  s.behind.length

/-- Is the symbol behind in the first class or the one ahead in the second, but not both? -/
def Progress.isEdge (s : Progress σ) (behind ahead : σ → Bool) : Bool :=
  (s.behind.head?.any behind) != (s.ahead.head?.any ahead)

/-- At most so many rounds of a body, each of which has to go ahead. -/
def rounds {β : Type} (body : Progress σ → (Progress σ → Option β) → Option β) (greedy : Bool) :
    Nat → Progress σ → (Progress σ → Option β) → Option β
  | 0, s, next => next s
  | n + 1, s, next =>
      let again := fun (_ : Unit) => body s fun s' =>
        if s'.ahead.length < s.ahead.length then rounds body greedy n s' next else none
      if greedy then
        match again () with
        | some r => some r
        | none => next s
      else
        match next s with
        | some r => some r
        | none => again ()

/-- The first way, in the order of choices, to match a pattern and go on with `next`. -/
def run {β : Type} : Pattern σ → Progress σ → (Progress σ → Option β) → Option β
  | empty, s, next => next s
  | one accepts, s, next =>
      match s.ahead with
      | c :: rest =>
          if accepts c then next { s with behind := c :: s.behind, ahead := rest } else none
      | [] => none
  | seq a b, s, next => run a s fun s' => run b s' next
  | alt a b, s, next =>
      match run a s next with
      | some r => some r
      | none => run b s next
  | many greedy a, s, next => rounds (run a) greedy s.ahead.length s next
  | group n a, s, next =>
      run a s fun s' => next { s' with groups := (n, s.offset, s'.offset) :: s'.groups }
  | atStart, s, next => if s.behind.isEmpty then next s else none
  | atEnd, s, next => if s.ahead.isEmpty then next s else none
  | edge behind ahead, s, next => if s.isEdge behind ahead then next s else none

/-- A match: its span and the spans of its groups. -/
structure Match where
  start : Nat
  stop : Nat
  groups : List (Nat × Nat × Nat)
  deriving Repr, DecidableEq

/-- The match that starts just here. -/
def matchAt? (p : Pattern σ) (behind ahead : List σ) : Option Match :=
  p.run ⟨behind, ahead, []⟩ fun s => some ⟨behind.length, s.offset, s.groups⟩

/-- The leftmost match that does not start behind. -/
def findFrom? (p : Pattern σ) (behind : List σ) : List σ → Option Match
  | [] => p.matchAt? behind []
  | c :: rest =>
      match p.matchAt? behind (c :: rest) with
      | some m => some m
      | none => findFrom? p (c :: behind) rest

/-- The leftmost match. -/
def find? (p : Pattern σ) (text : List σ) : Option Match :=
  p.findFrom? [] text

/-- The matches from a place on, none of which overlaps the one before; `skip` symbols of the last
match are still to be passed. -/
def findAllFrom (p : Pattern σ) (behind : List σ) : Nat → List σ → List Match
  | 0, [] => (p.matchAt? behind []).toList
  | _ + 1, [] => []
  | skip + 1, c :: rest => findAllFrom p (c :: behind) skip rest
  | 0, c :: rest =>
      match p.matchAt? behind (c :: rest) with
      | some m => m :: findAllFrom p (c :: behind) (m.stop - m.start - 1) rest
      | none => findAllFrom p (c :: behind) 0 rest

/-- All matches from left to right, none of which overlaps another. -/
def findAll (p : Pattern σ) (text : List σ) : List Match :=
  p.findAllFrom [] 0 text

/-- A text from an offset on, with `other` in place of each of some matches, which follow each
other. -/
def substitute (other : List σ) (offset : Nat) : List Match → List σ → List σ
  | [], text => text
  | m :: rest, text =>
      text.take (m.start - offset) ++ other ++
        substitute other m.stop rest (text.drop (m.stop - offset))

/-- A text with `other` in place of every match. -/
def replaceAll (p : Pattern σ) (other text : List σ) : List σ :=
  substitute other 0 (p.findAll text) text

/-- The symbols of a match. -/
def Match.span (m : Match) (text : List σ) : List σ :=
  (text.drop m.start).take (m.stop - m.start)

/-- The text of a group of a match, if the group took part in it. -/
def Match.text? (m : Match) (number : Nat) (text : List Char) : Option String :=
  (m.groups.find? fun g => g.1 == number).map fun (_, start, stop) =>
    String.ofList ((text.drop start).take (stop - start))

/-- The patterns of a list, one after the other. -/
def seqs : List (Pattern σ) → Pattern σ
  | [] => empty
  | [p] => p
  | p :: ps => seq p (seqs ps)

/-- The first pattern of a list that goes on to a match. -/
def alts : List (Pattern σ) → Pattern σ
  | [] => one fun _ => false
  | [p] => p
  | p :: ps => alt p (alts ps)

/-- Any number of rounds, the more the better. -/
def star (p : Pattern σ) : Pattern σ :=
  many true p

/-- One round or more, the more the better. -/
def plus (p : Pattern σ) : Pattern σ :=
  seq p (many true p)

/-- One round or more, the fewer the better. -/
def plusLazy (p : Pattern σ) : Pattern σ :=
  seq p (many false p)

/-- The pattern, or else nothing. -/
def opt (p : Pattern σ) : Pattern σ :=
  alt p empty

/-- The same pattern over other symbols, each of which may show a symbol to what reads it, and one
to what looks back at it; where none is shown, no class holds. -/
def through {τ : Type} (shown lookedBack : τ → Option σ) : Pattern σ → Pattern τ
  | empty => empty
  | one accepts => one fun c => (shown c).any accepts
  | seq a b => seq (through shown lookedBack a) (through shown lookedBack b)
  | alt a b => alt (through shown lookedBack a) (through shown lookedBack b)
  | many greedy a => many greedy (through shown lookedBack a)
  | group n a => group n (through shown lookedBack a)
  | atStart => atStart
  | atEnd => atEnd
  | edge behind ahead =>
      edge (fun c => (lookedBack c).any behind) (fun c => (shown c).any ahead)

/-- One given character. -/
def char (c : Char) : Pattern Char :=
  one (· == c)

/-- The characters of a word. -/
def word (text : String) : Pattern Char :=
  seqs (text.toList.map char)

/-- Do two characters differ in nothing but case? Beyond ASCII only the long s and the sign for
kelvin are the same letter as an ASCII one. -/
def sameLetter (a b : Char) : Bool :=
  fold a == fold b
where
  fold (c : Char) : Char :=
    match c with
    | '\u017F' => 's'
    | '\u212A' => 'k'
    | c => c.toLower

/-- The characters of an ASCII word in either case. -/
def wordAnyCase (text : String) : Pattern Char :=
  seqs (text.toList.map fun c => one (sameLetter c))

/-- One of some characters. -/
def oneOf (chars : String) : Pattern Char :=
  one fun c => chars.toList.contains c

/-- None of some characters. -/
def noneOf (chars : String) : Pattern Char :=
  one fun c => !chars.toList.contains c

/-- A blank character. -/
def blank : Pattern Char :=
  one isBlank

/-- Any number of blanks. -/
def blanks : Pattern Char :=
  star blank

/-- One blank or more. -/
def blanks1 : Pattern Char :=
  plus blank

/-- A character that may stand in a word. -/
def wordChar : Pattern Char :=
  one isWordChar

/-- A place where a word starts or ends. -/
def wordEdge : Pattern Char :=
  edge isWordChar isWordChar

/-- Any character but a line feed. -/
def anyInLine : Pattern Char :=
  one (· != '\n')

/-- A letter from `A` to `Z`. -/
def capital : Pattern Char :=
  one Char.isUpper

/-- A letter from `A` to `Z` in either case. -/
def letterAnyCase : Pattern Char :=
  one fun c => c.isAlpha || c == '\u017F' || c == '\u212A'

end Pattern

end SourceIndex.Text
