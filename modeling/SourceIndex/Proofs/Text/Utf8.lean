import Mathlib.Tactic.IntervalCases
import SourceIndex.Document
import SourceIndex.Proofs.Octets
import SourceIndex.Text.CodePage

/-!
# Decoding undoes encoding

Every character is read back from its own octets, whatever follows them.  Hence a text is read back
from its UTF-8 octets, also by the decoding that first looks for a byte order mark, as long as the
text itself does not start with one.  Where the octets of a text stand in a document, the document
holds the text there.
-/

namespace SourceIndex.Text.Utf8

/-! ## Octets of texts -/

theorem encode_cons (c : Char) (text : List Char) :
    encode (c :: text) = encodeChar c ++ encode text :=
  List.flatMap_cons

theorem encode_append (text rest : List Char) :
    encode (text ++ rest) = encode text ++ encode rest :=
  List.flatMap_append

theorem length_encodeChar (c : Char) : (encodeChar c).length = c.utf8Size := by
  have hvalue : ∀ n : UInt32, c.val ≤ n ↔ c.toNat ≤ n.toNat := fun n => UInt32.le_iff_toNat_le
  simp only [Char.utf8Size, hvalue, encodeChar]
  grind

theorem length_encode (text : List Char) : (encode text).length = size text := by
  induction text with
  | nil => rfl
  | cons c rest ih => rw [encode_cons, List.length_append, length_encodeChar, ih, size]

/-! ## Reading characters back -/

/-- The octet that continues a character with six more bits. -/
def continuation (bits : Nat) : UInt8 :=
  (0x80 + bits).toUInt8

theorem toNat_continuation {bits : Nat} (h : bits < 0x40) :
    (continuation bits).toNat = 0x80 + bits := by
  have hsize : 0x80 + bits < 2 ^ 8 := by omega
  simp only [continuation, UInt8.toNat_ofNat', Nat.mod_eq_of_lt hsize]

/-- A continuation that lies between the bounds is accepted. -/
theorem step_continuation {p : Pending} {bits : Nat} (h : bits < 0x40)
    (hlow : p.low.toNat ≤ 0x80 + bits) (hhigh : 0x80 + bits ≤ p.high.toNat) :
    step (some p) (continuation bits) =
      match p.more with
      | 0 => ([Char.ofNat (p.bits * 0x40 + bits)], none)
      | more + 1 => ([], some ⟨more, p.bits * 0x40 + bits, 0x80, 0xBF⟩) := by
  have hvalue := toNat_continuation h
  have hrange : p.low ≤ continuation bits ∧ continuation bits ≤ p.high := by
    rw [UInt8.le_iff_toNat_le, UInt8.le_iff_toNat_le, hvalue]
    exact ⟨hlow, hhigh⟩
  have hbits : 0x80 + bits - 0x80 = bits := by omega
  cases hmore : p.more with
  | zero => simp only [step, if_pos hrange, hvalue, hbits, hmore]
  | succ more => simp only [step, if_pos hrange, hvalue, hbits, hmore]

/-- The last continuation of a character completes it. -/
theorem decodeFrom_last {bits next : Nat} {low high : UInt8} (rest : List UInt8)
    (h : next < 0x40) (hlow : low.toNat ≤ 0x80 + next) (hhigh : 0x80 + next ≤ high.toNat) :
    decodeFrom (some ⟨0, bits, low, high⟩) (continuation next :: rest) =
      Char.ofNat (bits * 0x40 + next) :: decodeFrom none rest := by
  rw [decodeFrom, step_continuation h hlow hhigh]
  rfl

/-- Any other continuation adds its bits. -/
theorem decodeFrom_more {more bits next : Nat} {low high : UInt8} (rest : List UInt8)
    (h : next < 0x40) (hlow : low.toNat ≤ 0x80 + next) (hhigh : 0x80 + next ≤ high.toNat) :
    decodeFrom (some ⟨more + 1, bits, low, high⟩) (continuation next :: rest) =
      decodeFrom (some ⟨more, bits * 0x40 + next, 0x80, 0xBF⟩) rest := by
  rw [decodeFrom, step_continuation h hlow hhigh]
  rfl

theorem start_one {n : Nat} (h : n < 0x80) : start n.toUInt8 = ([Char.ofNat n], none) := by
  have hvalue : n.toUInt8.toNat = n := by
    simp only [UInt8.toNat_ofNat']
    omega
  simp only [start, hvalue, if_pos h]

theorem start_two {bits : Nat} (hlow : 2 ≤ bits) (hhigh : bits < 0x20) :
    start (0xC0 + bits).toUInt8 = ([], some ⟨0, bits, 0x80, 0xBF⟩) := by
  interval_cases bits <;> rfl

theorem start_three {bits : Nat} (h : bits < 0x10) :
    start (0xE0 + bits).toUInt8 =
      ([], some ⟨1, bits, if bits = 0 then 0xA0 else 0x80, if bits = 0xD then 0x9F else 0xBF⟩) := by
  interval_cases bits <;> rfl

theorem start_four {bits : Nat} (h : bits < 5) :
    start (0xF0 + bits).toUInt8 =
      ([], some ⟨2, bits, if bits = 0 then 0x90 else 0x80, if bits = 4 then 0x8F else 0xBF⟩) := by
  interval_cases bits <;> rfl

/-- A character is read back from its octets. -/
theorem decodeFrom_encodeChar_append (c : Char) (rest : List UInt8) :
    decodeFrom none (encodeChar c ++ rest) = c :: decodeFrom none rest := by
  have hvalid : c.toNat < 0xD800 ∨ 0xDFFF < c.toNat ∧ c.toNat < 0x110000 := c.valid
  have hback : Char.ofNat c.toNat = c := Char.ofNat_toNat c
  generalize hn : c.toNat = n at hvalid hback
  -- One octet, then two, three and four of them.
  by_cases h1 : n < 0x80
  · have hoctets : encodeChar c = [n.toUInt8] := by simp only [encodeChar, hn, if_pos h1]
    rw [hoctets, List.singleton_append, decodeFrom, step, start_one h1, hback]
    rfl
  by_cases h2 : n < 0x800
  · have hoctets : encodeChar c = [(0xC0 + n / 0x40).toUInt8, continuation (n % 0x40)] := by
      simp only [encodeChar, hn, if_neg h1, if_pos h2, continuation]
    rw [hoctets, List.cons_append, decodeFrom, step, start_two (by omega) (by omega)]
    have hsum : n / 0x40 * 0x40 + n % 0x40 = n := by omega
    simp only [List.cons_append, List.nil_append]
    rw [decodeFrom_last rest (by omega) (by simp) (by simp; omega), hsum, hback]
  by_cases h3 : n < 0x10000
  · have hoctets : encodeChar c = [(0xE0 + n / 0x1000).toUInt8, continuation (n / 0x40 % 0x40),
        continuation (n % 0x40)] := by
      simp only [encodeChar, hn, if_neg h1, if_neg h2, if_pos h3, continuation]
    rw [hoctets, List.cons_append, decodeFrom, step, start_three (by omega)]
    have hsum : (n / 0x1000 * 0x40 + n / 0x40 % 0x40) * 0x40 + n % 0x40 = n := by omega
    simp only [List.cons_append, List.nil_append]
    -- The bounds on the second octet leave out overlong forms and surrogates.
    rw [decodeFrom_more _ (by omega) (by split <;> simp; omega) (by split <;> simp <;> omega),
      decodeFrom_last rest (by omega) (by simp) (by simp; omega), hsum, hback]
  · have hoctets : encodeChar c = [(0xF0 + n / 0x40000).toUInt8, continuation (n / 0x1000 % 0x40),
        continuation (n / 0x40 % 0x40), continuation (n % 0x40)] := by
      simp only [encodeChar, hn, if_neg h1, if_neg h2, if_neg h3, continuation]
    rw [hoctets, List.cons_append, decodeFrom, step, start_four (by omega)]
    have hsum : ((n / 0x40000 * 0x40 + n / 0x1000 % 0x40) * 0x40 + n / 0x40 % 0x40) * 0x40 +
        n % 0x40 = n := by omega
    simp only [List.cons_append, List.nil_append]
    rw [decodeFrom_more _ (by omega) (by split <;> simp; omega) (by split <;> simp <;> omega),
      decodeFrom_more _ (by omega) (by simp) (by simp; omega),
      decodeFrom_last rest (by omega) (by simp) (by simp; omega), hsum, hback]

/-- A text is read back from its octets, whatever comes after them. -/
theorem decode_encode_append (text : List Char) (rest : List UInt8) :
    decode (encode text ++ rest) = text ++ decode rest := by
  induction text with
  | nil => rfl
  | cons c text ih =>
      have hoctets : encode (c :: text) ++ rest = encodeChar c ++ (encode text ++ rest) := by
        rw [encode_cons, List.append_assoc]
      rw [hoctets, decode, decodeFrom_encodeChar_append]
      exact congrArg (c :: ·) ih

theorem decode_encode (text : List Char) : decode (encode text) = text := by
  calc
    decode (encode text) = decode (encode text ++ []) := by rw [List.append_nil]
    _ = text ++ decode [] := decode_encode_append text []
    _ = text := List.append_nil text

/-- An octet yields some text or leaves a character open. -/
theorem isSome_of_step_eq_nil {state : Option Pending} {b : UInt8} (h : (step state b).1 = []) :
    (step state b).2.isSome := by
  cases state with
  | none =>
      rw [step, start] at h ⊢
      grind
  | some p =>
      rw [step] at h ⊢
      grind

theorem decodeFrom_ne_nil {state : Option Pending} {octets : List UInt8}
    (h : state.isSome ∨ octets ≠ []) : decodeFrom state octets ≠ [] := by
  induction octets generalizing state with
  | nil =>
      cases state with
      | none => simp at h
      | some p => simp [decodeFrom]
  | cons b rest ih =>
      have hstep : decodeFrom state (b :: rest) =
          (step state b).1 ++ decodeFrom (step state b).2 rest := by
        cases state <;> rfl
      intro hnil
      obtain ⟨htext, hrest⟩ := List.append_eq_nil_iff.1 (hstep.symm.trans hnil)
      exact ih (.inl (isSome_of_step_eq_nil htext)) hrest

theorem decode_ne_nil {octets : List UInt8} (h : octets ≠ []) : decode octets ≠ [] :=
  decodeFrom_ne_nil (.inr h)

/-- What an encoded text starts with tells its first character. -/
theorem head?_of_encode_eq {text : List Char} {octets : List UInt8} {c : Char} {tail : List Char}
    (h : encode text = octets) (hdecode : decode octets = c :: tail) : text = c :: tail := by
  rw [← hdecode, ← h, decode_encode]

end SourceIndex.Text.Utf8

namespace SourceIndex.Text

open Utf8 (decode_encode encode encodeChar replacement)

/-- An octet that no character starts with does not start an encoded text. -/
theorem encode_ne_cons_of_replacement {b : UInt8} (hstart : Utf8.start b = ([replacement], none))
    (hb : b ≠ 0xEF) (text : List Char) (rest : List UInt8) : encode text ≠ b :: rest := by
  intro h
  have hdecode : Utf8.decode (b :: rest) = replacement :: Utf8.decode rest := by
    show (Utf8.start b).1 ++ Utf8.decodeFrom (Utf8.start b).2 rest = _
    rw [hstart]
    rfl
  -- The text would start with the replacement, whose first octet is another one.
  have htext := Utf8.head?_of_encode_eq h hdecode
  rw [htext] at h
  change encodeChar replacement ++ _ = _ at h
  have hoctets : encodeChar replacement = [0xEF, 0xBF, 0xBD] := by decide
  rw [hoctets] at h
  exact hb (List.cons.inj h).1.symm

/-- A text that does not start with a byte order mark is read back from its octets even when
nothing tells their encoding. -/
theorem decodeUnknown_encode {text : List Char} (h : text.head? ≠ some '\uFEFF') :
    decodeUnknown (encode text) = text := by
  have hutf8 : isUtf8 (encode text) = true := by simp only [isUtf8, decode_encode, beq_self_eq_true]
  unfold decodeUnknown
  -- None of the three byte order marks starts the octets, and these are UTF-8.
  split
  · next rest hoctets =>
    have hdecode : Utf8.decode (0xEF :: 0xBB :: 0xBF :: rest) = '\uFEFF' :: Utf8.decode rest := rfl
    rw [Utf8.head?_of_encode_eq hoctets hdecode] at h
    exact absurd rfl h
  · next rest hoctets => exact absurd hoctets (encode_ne_cons_of_replacement rfl (by decide) _ _)
  · next rest hoctets => exact absurd hoctets (encode_ne_cons_of_replacement rfl (by decide) _ _)
  · rw [if_pos hutf8, decode_encode]

end SourceIndex.Text

namespace SourceIndex.Document

/-! ## Texts between offsets -/

open Text.Utf8

variable {d : Document} {start middle stop : Nat} {text : String}

/-- Are the octets between two offsets those of a text? -/
def Holds (d : Document) (start stop : Nat) (text : String) : Prop :=
  Octets.IsAt (encode text.toList) d.bytes start ∧ stop = start + (encode text.toList).length

instance (d : Document) (start stop : Nat) (text : String) : Decidable (d.Holds start stop text) :=
  inferInstanceAs (Decidable ((_ ≤ _ ∧ _ = _) ∧ _ = _))

/-- What is read from a text on starts with it. -/
theorem slice_eq_append (h : d.Holds start middle text) (hmiddle : middle ≤ stop)
    (hstop : stop ≤ d.bytes.length) : d.slice start stop = text ++ d.slice middle stop := by
  obtain ⟨⟨-, htext⟩, rfl⟩ := h
  have hstart : start ≤ stop := by omega
  have hsize : stop - start =
      (encode text.toList).length + (stop - (start + (encode text.toList).length)) := by
    omega
  have hoctets : (d.bytes.drop start).take (stop - start) = encode text.toList ++
      (d.bytes.drop (start + (encode text.toList).length)).take
        (stop - (start + (encode text.toList).length)) := by
    rw [hsize, List.take_add, htext, List.drop_drop]
  rw [slice, slice, if_pos ⟨hstart, hstop⟩, if_pos ⟨hmiddle, hstop⟩, hoctets, decode_encode_append,
    String.ofList_append, String.ofList_toList]

theorem slice_self (d : Document) (offset : Nat) : d.slice offset offset = "" := by
  unfold slice
  split
  · rw [Nat.sub_self, List.take_zero]
    rfl
  · rfl

theorem slice_eq (h : d.Holds start stop text) : d.slice start stop = text := by
  have hstop : stop ≤ d.bytes.length := h.2 ▸ h.1.1
  rw [slice_eq_append h (Nat.le_refl _) hstop, slice_self, String.append_empty]

theorem slice_ne_empty (h : start < stop) (hstop : stop ≤ d.bytes.length) :
    d.slice start stop ≠ "" := by
  have hoctets : (d.bytes.drop start).take (stop - start) ≠ [] := by
    refine List.ne_nil_of_length_pos ?_
    rw [List.length_take, List.length_drop]
    omega
  rw [slice, if_pos ⟨Nat.le_of_lt h, hstop⟩]
  intro hempty
  refine decode_ne_nil hoctets ?_
  rw [← String.toList_ofList (l := decode _), hempty]
  rfl

end SourceIndex.Document
