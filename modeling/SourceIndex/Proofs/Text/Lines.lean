import Mathlib.Tactic.SplitIfs
import SourceIndex.Document
import SourceIndex.Proofs.Text.Utf8
import SourceIndex.Text.CodePage
import SourceIndex.Text.Part
import SourceIndex.Text.Pattern

/-!
# Numbers of lines

Decoding keeps the number of line feeds, whatever the octets are, and a text has at most one line
more than line feeds.  Octets of which the encoding is not known are read so that they yield no line
feeds of their own.  The search for an offset among those at which lines start finds the line by
which the line feeds before the offset are counted.
-/

namespace SourceIndex.Text

/-! ## Decoding -/

namespace Utf8

variable {p : Pending} {b : UInt8}

/-- What is still open is no ASCII character: it ends with an octet from 128 on, and its bits are
not those of a small number. -/
structure Pending.IsHigh (p : Pending) : Prop where
  low : 0x80 ≤ p.low.toNat
  bits : p.bits = 0 → 0x90 ≤ p.low.toNat

theorem Pending.isHigh_of_bits {more bits : Nat} {high : UInt8} (h : bits ≠ 0) :
    Pending.IsHigh ⟨more, bits, 0x80, high⟩ :=
  ⟨Nat.le_refl _, fun hzero => absurd hzero h⟩

theorem count_ofNat {n : Nat} (h : n ≠ 10) : [Char.ofNat n].count '\n' = 0 := by
  refine List.count_eq_zero_of_not_mem fun hmem => ?_
  have hvalue : 10 = (Char.ofNat n).toNat := congrArg Char.toNat (List.mem_singleton.1 hmem)
  by_cases hvalid : n.isValidChar
  · rw [Char.ofNat, dif_pos hvalid] at hvalue
    exact h hvalue.symm
  · rw [Char.ofNat, dif_neg hvalid] at hvalue
    cases hvalue

theorem replacement_ne_lineFeed : replacement ≠ '\n' := by
  decide

/-- A line feed is a character by itself, and no other octet starts or ends one. -/
theorem count_start (b : UInt8) :
    (start b).1.count '\n' = (if b = lineFeed then 1 else 0) ∧ ∀ p ∈ (start b).2, p.IsHigh := by
  by_cases hfeed : b = lineFeed
  · subst hfeed
    exact ⟨rfl, nofun⟩
  have hb : b.toNat ≠ 10 := fun heq => hfeed (UInt8.toNat_inj.1 heq)
  have hlast := UInt8.toNat_lt b
  rw [if_neg hfeed]
  simp only [start]
  repeat' split
  all_goals
    refine ⟨?_, fun p hp => ?_⟩
    · first
        | rfl
        | exact count_ofNat hb
    · cases hp <;> first
        | exact Pending.isHigh_of_bits (by omega)
        | exact ⟨Nat.le_of_ble_eq_true rfl, fun _ => Nat.le_of_ble_eq_true rfl⟩

theorem count_step {state : Option Pending} (h : ∀ p ∈ state, p.IsHigh) (b : UInt8) :
    (step state b).1.count '\n' = (if b = lineFeed then 1 else 0) ∧
      ∀ p ∈ (step state b).2, p.IsHigh := by
  cases state with
  | none => exact count_start b
  | some p =>
      obtain ⟨hlow, hbits⟩ := h p rfl
      simp only [step]
      split
      · rename_i hrange
        have hb := UInt8.le_iff_toNat_le.1 hrange.1
        have hfeed : b ≠ lineFeed := by
          rintro rfl
          have hten : lineFeed.toNat = 10 := rfl
          omega
        -- The bits read now are those of no small number.
        have hvalue : p.bits * 0x40 + (b.toNat - 0x80) ≥ 0x10 := by
          by_cases hzero : p.bits = 0
          · have := hbits hzero
            omega
          · omega
        rw [if_neg hfeed]
        split
        · refine ⟨count_ofNat ?_, fun q hq => ?_⟩
          · omega
          · cases hq
        · refine ⟨rfl, fun q hq => ?_⟩
          cases hq
          exact Pending.isHigh_of_bits (by omega)
      · obtain ⟨hcount, hnext⟩ := count_start b
        refine ⟨?_, hnext⟩
        rw [List.count_cons_of_ne replacement_ne_lineFeed]
        exact hcount

theorem count_decodeFrom {state : Option Pending} (h : ∀ p ∈ state, p.IsHigh)
    (bytes : List UInt8) : (decodeFrom state bytes).count '\n' = bytes.count lineFeed := by
  induction bytes generalizing state with
  | nil => cases state <;> rfl
  | cons b rest ih =>
      obtain ⟨hcount, hnext⟩ := count_step h b
      have hunfold : decodeFrom state (b :: rest) =
          (step state b).1 ++ decodeFrom (step state b).2 rest := by
        cases state <;> rfl
      rw [hunfold, List.count_append, hcount, ih hnext, List.count_cons, Nat.add_comm]
      simp

/-- Decoding keeps the number of line feeds. -/
theorem count_decode (bytes : List UInt8) : (decode bytes).count '\n' = bytes.count lineFeed :=
  count_decodeFrom (fun _ hp => by cases hp) bytes

/-- The octets of a text have its line feeds. -/
theorem count_encode (text : List Char) : (encode text).count lineFeed = text.count '\n' := by
  rw [← count_decode, decode_encode]

/-- Only a line feed has the octet of one. -/
theorem count_encodeChar {c : Char} (h : c ≠ '\n') : (encodeChar c).count lineFeed = 0 := by
  have hcount := count_encode [c]
  rw [encode_cons, List.count_append, List.count_cons_of_ne h] at hcount
  exact Nat.eq_zero_of_add_eq_zero_right hcount

end Utf8

/-! ## Unknown encodings -/

namespace Utf16

open Utf8 (count_ofNat replacement_ne_lineFeed)

theorem count_replacement : [Utf8.replacement].count '\n' = 0 :=
  List.count_eq_zero.2 fun h => Utf8.replacement_ne_lineFeed (List.mem_singleton.1 h).symm

theorem count_step_le (opened : Option Nat) (unit : Nat) :
    (step opened unit).1.count '\n' ≤ if unit = 10 then 1 else 0 := by
  have hunit : [Char.ofNat unit].count '\n' ≤ if unit = 10 then 1 else 0 := by
    split
    · exact List.count_le_length
    · rename_i hne
      exact Nat.le_of_eq (count_ofNat hne)
  have hreplacement := count_replacement
  cases opened with
  | none =>
      simp only [step]
      split_ifs <;> simp_all
  | some high =>
      -- A pair is no character of so small a number.
      have hpair : [pair high unit].count '\n' = 0 := count_ofNat (by omega)
      have hmore : [Utf8.replacement, Char.ofNat unit].count '\n' = [Char.ofNat unit].count '\n' :=
        List.count_cons_of_ne replacement_ne_lineFeed
      simp only [step]
      split_ifs <;> simp_all

/-- Every line feed of the text is a unit with the octet of a line feed in it. -/
theorem count_decodeFrom_le {unit : UInt8 → UInt8 → Nat}
    (h : ∀ a b, unit a b = 10 → a = lineFeed ∨ b = lineFeed) (opened : Option Nat)
    (bytes : List UInt8) :
    (decodeFrom unit opened bytes).count '\n' ≤ bytes.count lineFeed := by
  fun_induction decodeFrom unit opened bytes with
  | case1 opened a b rest text next hstep ih =>
      have htext : text.count '\n' ≤ [a, b].count lineFeed := by
        have hcount := count_step_le opened (unit a b)
        rw [hstep] at hcount
        refine Nat.le_trans hcount ?_
        split
        · rename_i hten
          rcases h a b hten with rfl | rfl <;> simp
        · exact Nat.zero_le _
      rw [List.count_append, show a :: b :: rest = [a, b] ++ rest from rfl, List.count_append]
      omega
  | case2 opened b => exact Nat.le_trans (Nat.le_of_eq count_replacement) (Nat.zero_le _)
  | case3 opened hopened => exact Nat.le_of_eq count_replacement
  | case4 opened hopened => exact Nat.le_refl 0

end Utf16

namespace CodePage

/-- Only the octet of a line feed stands for one. -/
theorem eq_lineFeed_of_char {page : CodePage} (hpage : page ∈ pages) {b : UInt8}
    (h : page.char b = '\n') : b = lineFeed := by
  refine Decidable.byContradiction fun hne => ?_
  have hb : b.toNat ≠ 10 := fun heq => hne (UInt8.toNat_inj.1 heq)
  have hupper : page.upper.getD (b.toNat - 0x80) 0xFFFD ≠ 10 := by
    have hall : ∀ page ∈ pages, ∀ v ∈ page.upper, v ≠ 10 := by decide +kernel
    rw [List.getD_eq_getElem?_getD]
    cases hv : page.upper[b.toNat - 0x80]? with
    | none => decide
    | some v => exact hall page hpage v (List.mem_of_getElem? hv)
  have hcount : [page.char b].count '\n' = 0 := by
    rw [char]
    split
    · exact Utf8.count_ofNat hb
    · exact Utf8.count_ofNat hupper
  rw [h] at hcount
  cases hcount

theorem choose_mem_pages (bytes : List UInt8) : choose bytes ∈ pages := by
  simp only [choose]
  generalize hfound : pages.find? _ = found
  cases found with
  | none => exact List.mem_cons_self
  | some page => exact List.mem_of_find?_eq_some hfound

theorem count_decode_le {page : CodePage} (hpage : page ∈ pages) (bytes : List UInt8) :
    (page.decode bytes).count '\n' ≤ bytes.count lineFeed := by
  rw [decode, List.count, List.countP_map, List.count]
  refine List.countP_mono_left fun b _ hb => ?_
  simpa using eq_lineFeed_of_char hpage (by simpa using hb)

end CodePage

/-- However the octets are read, the text has no more line feeds than they have. -/
theorem count_decodeUnknown_le (bytes : List UInt8) :
    (decodeUnknown bytes).count '\n' ≤ bytes.count lineFeed := by
  have hrest : ∀ (head rest : List UInt8), rest.count lineFeed ≤ (head ++ rest).count lineFeed :=
    fun head rest => (List.sublist_append_right head rest).count_le lineFeed
  unfold decodeUnknown
  split
  · rename_i rest
    rw [Utf8.count_decode]
    exact hrest [0xEF, 0xBB, 0xBF] rest
  · rename_i rest
    refine Nat.le_trans (Utf16.count_decodeFrom_le (fun a b hten => Or.inl ?_) none rest)
      (hrest [0xFF, 0xFE] rest)
    exact UInt8.toNat_inj.1 (show a.toNat = 10 by omega)
  · rename_i rest
    refine Nat.le_trans (Utf16.count_decodeFrom_le (fun a b hten => Or.inr ?_) none rest)
      (hrest [0xFE, 0xFF] rest)
    exact UInt8.toNat_inj.1 (show b.toNat = 10 by omega)
  · split
    · exact Nat.le_of_eq (Utf8.count_decode bytes)
    · exact CodePage.count_decode_le (CodePage.choose_mem_pages bytes) bytes

/-! ## Lines -/

namespace Chars

theorem length_linesFrom_le (line text : List Char) :
    (linesFrom line text).length ≤ text.count '\n' + 1 := by
  induction text generalizing line with
  | nil =>
      unfold linesFrom
      split <;> simp
  | cons c rest ih =>
      by_cases hc : c = '\n'
      · subst hc
        have hrest := ih []
        simp only [linesFrom, List.length_cons, List.count_cons_self]
        omega
      · have hrest := ih (c :: line)
        rw [linesFrom, List.count_cons_of_ne hc]
        · exact hrest
        · exact hc

/-- A text has at most one line more than line feeds. -/
theorem length_lines_le (text : List Char) : (lines text).length ≤ text.count '\n' + 1 :=
  length_linesFrom_le [] text

theorem length_splitWhereFrom (c : Char) (part text : List Char) :
    (splitWhereFrom (· == c) part text).length = text.count c + 1 := by
  induction text generalizing part with
  | nil => rfl
  | cons x rest ih =>
      rw [splitWhereFrom, List.count_cons]
      split
      · rw [List.length_cons, ih]
      · rw [ih, Nat.add_zero]

/-- A text has one part more than marks between parts. -/
theorem length_splitWhere (c : Char) (text : List Char) :
    (splitWhere (· == c) text).length = text.count c + 1 :=
  length_splitWhereFrom c [] text

end Chars

/-! ## Search by halves -/

/-- Does a slot tell where a number stands among the others? -/
def Slot.Tells (numbers : Array Nat) (n : Nat) : Slot → Prop
  | .taken index => numbers[index]? = some n
  | .free index => index ≤ numbers.size ∧
      (∀ i (h : i < numbers.size), i < index → numbers[i] < n) ∧
      ∀ i (h : i < numbers.size), index ≤ i → n < numbers[i]

variable {numbers : Array Nat} {n : Nat}

/-- Numbers in order compare as their indices do. -/
theorem getElem_le_getElem_iff (hordered : numbers.toList.Pairwise (· < ·)) {i j : Nat}
    (hi : i < numbers.size) (hj : j < numbers.size) : numbers[i] ≤ numbers[j] ↔ i ≤ j := by
  have hlt : ∀ {i j : Nat} (hi : i < numbers.size) (hj : j < numbers.size), i < j →
      numbers[i] < numbers[j] := List.pairwise_iff_getElem.1 hordered _ _
  constructor
  · intro hle
    by_contra hji
    exact Nat.not_lt.2 hle (hlt hj hi (Nat.lt_of_not_le hji))
  · intro hij
    rcases Nat.lt_or_eq_of_le hij with hij | rfl
    · exact Nat.le_of_lt (hlt hi hj hij)
    · exact Nat.le_refl _

/-- Every step keeps the number between those that it left out on either side. -/
theorem tells_searchBetween (hordered : numbers.toList.Pairwise (· < ·)) {low high : Nat}
    (h : high ≤ numbers.size) (hle : low ≤ high)
    (hbefore : ∀ i (h : i < numbers.size), i < low → numbers[i] < n)
    (hbehind : ∀ i (h : i < numbers.size), high ≤ i → n < numbers[i]) :
    (searchBetween numbers n low high h).Tells numbers n := by
  fun_induction searchBetween numbers n low high h with
  | case1 low high h hlow middle hmiddle heq =>
      exact Array.getElem?_eq_some_iff.2 ⟨hmiddle, heq⟩
  | case2 low high h hlow middle hmiddle hne hlt ih =>
      -- With the middle, all before it are smaller.
      apply ih
      · omega
      · intro i hi hbound
        have hmost := (getElem_le_getElem_iff hordered hi hmiddle).2 (Nat.le_of_lt_succ hbound)
        exact Nat.lt_of_le_of_lt hmost hlt
      · exact hbehind
  | case3 low high h hlow middle hmiddle hne hnlt ih =>
      -- With the middle, all behind it are greater.
      have hlt : n < numbers[middle] := by omega
      apply ih
      · omega
      · exact hbefore
      · intro i hi hbound
        have hleast := (getElem_le_getElem_iff hordered hmiddle hi).2 hbound
        exact Nat.lt_of_lt_of_le hlt hleast
  | case4 low high h hnlow =>
      obtain rfl : low = high := by omega
      exact ⟨h, hbefore, hbehind⟩

theorem tells_search (hordered : numbers.toList.Pairwise (· < ·)) :
    (search numbers n).Tells numbers n := by
  apply tells_searchBetween hordered
  · exact Nat.zero_le _
  · exact fun i _ hi => absurd hi (Nat.not_lt_zero i)
  · exact fun i hi hbound => absurd hi (Nat.not_lt.2 hbound)

/-- There are as many elements with a property as the index says before which they stand. -/
theorem countP_eq_index {α : Type} {p : α → Bool} {elements : List α} {index : Nat}
    (hindex : index ≤ elements.length)
    (h : ∀ i (hi : i < elements.length), p elements[i] ↔ i < index) :
    elements.countP p = index := by
  have hbefore : (elements.take index).countP p = (elements.take index).length := by
    refine List.countP_eq_length.2 fun x hx => ?_
    obtain ⟨i, hi, rfl⟩ := List.mem_take_iff_getElem.1 hx
    exact (h i (by omega)).2 (by omega)
  have hbehind : (elements.drop index).countP p = 0 := by
    refine List.countP_eq_zero.2 fun x hx hp => ?_
    obtain ⟨i, hi, rfl⟩ := List.mem_drop_iff_getElem.1 hx
    have hlt := (h (index + i) (by omega)).1 hp
    omega
  calc elements.countP p
    _ = (elements.take index).countP p + (elements.drop index).countP p := by
      rw [← List.countP_append, List.take_append_drop]
    _ = index := by rw [hbefore, hbehind, List.length_take, Nat.min_eq_left hindex, Nat.add_zero]

/-! ## Lines of offsets -/

/-- No line starts at or before the offset from which on the text is read. -/
theorem countP_startsFrom_of_le {base offset : Nat} (h : offset ≤ base) (text : List Char) :
    (startsFrom base text).countP (· ≤ offset) = 0 := by
  refine List.countP_eq_zero.2 fun start hstart => ?_
  have hlt := lt_of_mem_startsFrom hstart
  simp only [decide_eq_true_eq]
  omega

theorem length_startsFrom (base : Nat) (text : List Char) :
    (startsFrom base text).length = text.count '\n' := by
  induction text generalizing base with
  | nil => rfl
  | cons c rest ih =>
      rw [startsFrom, List.count_cons]
      by_cases hc : c = '\n'
      · simp [hc, ih]
      · simp [hc, ih]

/-- The starts up to an offset are as many as the line feeds before it. -/
theorem countP_startsFrom (base offset : Nat) (text : List Char) :
    (startsFrom base text).countP (· ≤ base + offset) =
      ((Utf8.encode text).take offset).count lineFeed := by
  induction text generalizing base offset with
  | nil => simp [startsFrom, Utf8.encode]
  | cons c rest ih =>
      have hsize := Utf8.length_encodeChar c
      have htake : (Utf8.encode (c :: rest)).take offset =
          (Utf8.encodeChar c).take offset ++ (Utf8.encode rest).take (offset - c.utf8Size) := by
        rw [Utf8.encode_cons, List.take_append, hsize]
      -- Behind the first character the offsets go on; no line starts inside it.
      have hrest : (startsFrom (base + c.utf8Size) rest).countP (· ≤ base + offset) =
          ((Utf8.encode rest).take (offset - c.utf8Size)).count lineFeed := by
        by_cases hin : offset ≤ c.utf8Size
        · rw [countP_startsFrom_of_le (by omega), Nat.sub_eq_zero_of_le hin]
          rfl
        · have hnext := ih (base + c.utf8Size) (offset - c.utf8Size)
          rw [show base + c.utf8Size + (offset - c.utf8Size) = base + offset by omega] at hnext
          exact hnext
      rw [startsFrom, htake, List.count_append]
      by_cases hc : c = '\n'
      · subst hc
        rw [if_pos rfl, List.countP_cons, hrest]
        cases offset with
        | zero => simp
        | succ more =>
            have hfeed : ((Utf8.encodeChar '\n').take (more + 1)).count lineFeed = 1 := by
              show (lineFeed :: List.take more []).count lineFeed = 1
              simp
            rw [hfeed, if_pos (by simp), Nat.add_comm]
      · have hfirst : ((Utf8.encodeChar c).take offset).count lineFeed = 0 := by
          have hle := (List.take_sublist offset (Utf8.encodeChar c)).count_le lineFeed
          rw [Utf8.count_encodeChar hc] at hle
          exact Nat.eq_zero_of_le_zero hle
        rw [if_neg hc, hrest, hfirst, Nat.zero_add]

namespace LineIndex

/-- The line of an offset is the number of lines that start there or before. -/
theorem number_eq_countP (index : LineIndex) (offset : Nat) :
    index.number offset = index.starts.toList.countP (· ≤ offset) := by
  have htells := tells_search (n := offset) index.ordered
  rw [number]
  cases hslot : search index.starts offset with
  | taken i =>
      -- A line starts right at the offset, and is counted too.
      rw [hslot] at htells
      obtain ⟨hi, rfl⟩ := Array.getElem?_eq_some_iff.1 htells
      refine (countP_eq_index hi fun j hj => ?_).symm
      have hcompare := getElem_le_getElem_iff index.ordered hj hi
      simp only [Array.getElem_toList, decide_eq_true_eq, hcompare, Nat.lt_succ_iff]
  | free i =>
      rw [hslot] at htells
      obtain ⟨hi, hbefore, hbehind⟩ := htells
      refine (countP_eq_index hi fun j hj => ?_).symm
      simp only [Array.getElem_toList, decide_eq_true_eq]
      by_cases hij : j < i
      · have hlt := hbefore j hj hij
        omega
      · have hlt := hbehind j hj (Nat.le_of_not_lt hij)
        omega

variable (text : List Char)

/-- The line of an offset of a text is one more than the line feeds before it. -/
theorem number_ofText (offset : Nat) :
    (ofText text).number offset = 1 + ((Utf8.encode text).take offset).count lineFeed := by
  have hcount := countP_startsFrom 0 offset text
  rw [Nat.zero_add] at hcount
  rw [number_eq_countP, ← hcount]
  show (0 :: startsFrom 0 text).countP (· ≤ offset) = _
  rw [List.countP_cons, if_pos (by simp), Nat.add_comm]

theorem size_starts_ofText : (ofText text).starts.size = 1 + text.count '\n' := by
  show (0 :: startsFrom 0 text).length = _
  rw [List.length_cons, length_startsFrom, Nat.add_comm]

/-- Does a line for each offset count the line feeds of some octets before it?  Then lines do not go
back as offsets go on, and they are those from one to the last, of which there are `total`. -/
structure CountsLines (octets : List UInt8) (total : Nat) (line : Nat → Nat) : Prop where
  line_eq : ∀ offset, line offset = 1 + (octets.take offset).count lineFeed
  mono : ∀ {first last : Nat}, first ≤ last → line first ≤ line last
  one_le : ∀ offset, 1 ≤ line offset
  le_total : ∀ offset, line offset ≤ total

theorem countsLines_number :
    CountsLines (Utf8.encode text) (ofText text).starts.size (ofText text).number where
  line_eq := number_ofText text
  mono := by
    intro first last h
    have hsub := List.take_sublist_take_left (l := Utf8.encode text) h
    rw [number_ofText, number_ofText]
    exact Nat.add_le_add_left (hsub.count_le lineFeed) 1
  one_le offset := by
    rw [number_ofText]
    exact Nat.le_add_right 1 _
  le_total offset := by
    have hle := (List.take_sublist offset (Utf8.encode text)).count_le lineFeed
    rw [Utf8.count_encode] at hle
    rw [number_ofText, size_starts_ofText]
    exact Nat.add_le_add_left hle 1

variable {text}

theorem toNat_lineCount (h : 1 + text.count '\n' < 2 ^ 32) :
    (ofText text).lineCount.toNat = 1 + text.count '\n' := by
  rw [lineCount, size_starts_ofText]
  exact UInt32.toNat_ofNat_of_lt' h

/-- Where 32 bits suffice to number the lines, no number is cut off. -/
theorem toNat_lineAt (h : 1 + text.count '\n' < 2 ^ 32) (offset : Nat) :
    ((ofText text).lineAt offset).toNat = (ofText text).number offset := by
  have hle := (countsLines_number text).le_total offset
  rw [size_starts_ofText] at hle
  exact UInt32.toNat_ofNat_of_lt' (Nat.lt_of_le_of_lt hle h)

/-- The line of an offset is one more than the line feeds among the octets before it, wherever the
offset is; lines do not go back as offsets go on, and are those from one to the last.  A text that
was decoded has one line more than its octets have line feeds, whatever these octets are.  Lines are
told by 32 bits: where these suffice to number the lines, the numbers are those counted. -/
theorem lines_counted (text : List Char) (bytes : List UInt8) :
    CountsLines (Utf8.encode text) (ofText text).starts.size (ofText text).number ∧
    (ofText (Utf8.decode bytes)).starts.size = 1 + bytes.count lineFeed ∧
    (∀ offset, (ofText text).lineAt offset =
      (1 + ((Utf8.encode text).take offset).count lineFeed).toUInt32) ∧
    (ofText (Utf8.decode bytes)).lineCount = (1 + bytes.count lineFeed).toUInt32 ∧
    (1 + text.count '\n' < 2 ^ 32 →
      CountsLines (Utf8.encode text) (ofText text).lineCount.toNat
        fun offset => ((ofText text).lineAt offset).toNat) ∧
    (1 + bytes.count lineFeed < 2 ^ 32 →
      (ofText (Utf8.decode bytes)).lineCount.toNat = 1 + bytes.count lineFeed) := by
  have hdecoded : (ofText (Utf8.decode bytes)).starts.size = 1 + bytes.count lineFeed := by
    rw [size_starts_ofText, Utf8.count_decode]
  refine ⟨countsLines_number text, hdecoded, ?_, ?_, ?_, ?_⟩
  · intro offset
    rw [lineAt, number_ofText]
  · rw [lineCount, hdecoded]
  · intro hsmall
    have htotal : (ofText text).lineCount.toNat = (ofText text).starts.size := by
      rw [toNat_lineCount hsmall, size_starts_ofText]
    rw [htotal, funext (toNat_lineAt hsmall)]
    exact countsLines_number text
  · intro hsmall
    rw [← Utf8.count_decode] at hsmall ⊢
    exact toNat_lineCount hsmall

/-- Two lines, an empty one and a line without a line feed. -/
def fourLines : List Char :=
  "ab\ncd\n\nef".toList

theorem fourLines_counted :
    fourLines.count '\n' = 3 ∧
    [0, 2, 3, 6, 7].map (ofText fourLines).lineAt = [1, 1, 2, 3, 4] ∧
    (ofText fourLines).lineCount = 4 ∧
    CountsLines (Utf8.encode fourLines) (ofText fourLines).lineCount.toNat
      (fun offset => ((ofText fourLines).lineAt offset).toNat) ∧
    -- The octets after the first line feed are no UTF-8.
    (ofText (Utf8.decode [0x61, 0x0A, 0xE2, 0x82, 0x0A, 0xFF])).lineCount.toNat = 3 := by
  obtain ⟨-, -, -, -, hcounts, -⟩ := lines_counted fourLines []
  obtain ⟨-, -, -, -, -, hdecoded⟩ := lines_counted [] [0x61, 0x0A, 0xE2, 0x82, 0x0A, 0xFF]
  exact ⟨by decide, by decide +kernel, by decide, hcounts (by decide), hdecoded (by decide)⟩

end LineIndex

/-- The line of a place counts the line feeds of the text before it. -/
theorem lineOf_eq (text : List Char) (offset : Nat) :
    lineOf text offset = ((text.take offset).count '\n').toUInt32 + 1 := by
  have hsplit : Utf8.encode text =
      Utf8.encode (text.take offset) ++ Utf8.encode (text.drop offset) := by
    rw [← Utf8.encode_append, List.take_append_drop]
  have hoctets : (Utf8.encode text).take (Utf8.size (text.take offset)) =
      Utf8.encode (text.take offset) := by
    rw [hsplit, ← Utf8.length_encode, List.take_left]
  rw [lineOf, LineIndex.lineAt, LineIndex.number_ofText, hoctets, Utf8.count_encode, Nat.add_comm]
  exact UInt32.ofNat_add _ _

end SourceIndex.Text
