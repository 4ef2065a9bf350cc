import SourceIndex.Text.Utf8

/-!
# Lines of a text

A place in a text is told by the octets before it. The offsets at which the lines start are listed
once, and a search by halves tells where an offset stands among them.
-/

namespace SourceIndex.Text

/-- Where a number stands among numbers in order. -/
inductive Slot where
  /-- It is the number with an index. -/
  | taken (index : Nat)
  /-- It is none of them; those from an index on are greater. -/
  | free (index : Nat)
  deriving Repr, DecidableEq

/-- The search for a number among those from the index `low` on and before the index `high`. -/
def searchBetween (numbers : Array Nat) (n low high : Nat) (h : high ≤ numbers.size) : Slot :=
  if hlow : low < high then
    let middle := low + (high - low) / 2
    have hmiddle : middle < numbers.size := by omega
    if numbers[middle] = n then .taken middle
    else if numbers[middle] < n then searchBetween numbers n (middle + 1) high h
    else searchBetween numbers n low middle (Nat.le_of_lt hmiddle)
  else
    .free low
termination_by high - low

/-- The search for a number among numbers in order. -/
def search (numbers : Array Nat) (n : Nat) : Slot :=
  searchBetween numbers n 0 numbers.size (Nat.le_refl _)

/-- The offsets right behind the line feeds of a text that starts at an offset. -/
def startsFrom (offset : Nat) : List Char → List Nat
  | [] => []
  | c :: rest =>
      if c = '\n' then (offset + 1) :: startsFrom (offset + c.utf8Size) rest
      else startsFrom (offset + c.utf8Size) rest

theorem lt_of_mem_startsFrom {offset start : Nat} {text : List Char}
    (h : start ∈ startsFrom offset text) : offset < start := by
  induction text generalizing offset with
  | nil => cases h
  | cons c rest ih =>
      have hsize := c.utf8Size_pos
      rw [startsFrom] at h
      split at h
      · rcases List.mem_cons.1 h with rfl | h
        · exact Nat.lt_add_one offset
        · have hrest := ih h
          omega
      · have hrest := ih h
        omega

theorem pairwise_startsFrom (offset : Nat) (text : List Char) :
    (startsFrom offset text).Pairwise (· < ·) := by
  induction text generalizing offset with
  | nil => exact List.Pairwise.nil
  | cons c rest ih =>
      rw [startsFrom]
      split
      · rename_i hc
        subst hc
        exact List.pairwise_cons.2 ⟨fun start h => lt_of_mem_startsFrom h, ih (offset + 1)⟩
      · exact ih (offset + c.utf8Size)

/-- The offsets at which the lines of a text start. -/
structure LineIndex where
  starts : Array Nat
  ordered : starts.toList.Pairwise (· < ·)

namespace LineIndex

/-- The index of a text. A line starts with the text, and one behind every line feed. -/
def ofText (text : List Char) : LineIndex where
  starts := (0 :: startsFrom 0 text).toArray
  ordered := List.pairwise_cons.2
    ⟨fun _ h => lt_of_mem_startsFrom h, pairwise_startsFrom 0 text⟩

variable (index : LineIndex)

/-- The number of the line of an offset, counted from one. -/
def number (offset : Nat) : Nat :=
  match search index.starts offset with
  | .taken i => i + 1
  | .free i => i

/-- The line of an offset, counted from one. -/
def lineAt (offset : Nat) : UInt32 :=
  (index.number offset).toUInt32

/-- Number of lines of the text, one more than its line feeds. -/
def lineCount : UInt32 :=
  index.starts.size.toUInt32

end LineIndex

/-- The line of a place in a text, counted from one. -/
def lineOf (text : List Char) (offset : Nat) : UInt32 :=
  (LineIndex.ofText text).lineAt (Utf8.size (text.take offset))

end SourceIndex.Text
