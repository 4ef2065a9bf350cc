import Mathlib.Data.List.Basic
import Mathlib.Data.List.TakeDrop
import SourceIndex.Json.Reader

/-!
# Reading what was written

A value of texts and natural numbers is read back from its written form, whatever characters its
texts hold.  The depth that the reader may go to is counted off at every value and at every item;
twice the length of the written form is enough for both.
-/

namespace SourceIndex.Json

/-! ## Strings -/

theorem hexValue?_hexDigit : ∀ n < 16, hexValue? (Text.hexDigit n) = some n := by
  decide

/-- A character is read back from what is written for it. -/
theorem readUnits_escapeChar (c : Char) {text rest : List Char} {units : List Nat}
    (h : readUnits text = some (units, rest)) :
    readUnits (escapeChar c ++ text) = some (c.toNat :: units, rest) := by
  unfold escapeChar
  split
  iterate 7 · simp [readUnits, readUnits.escape?, h]
  rename_i hquote hbackslash _ _ _ _ _
  by_cases hcontrol : c.toNat < 0x20
  · have hzero : hexValue? '0' = some 0 := by decide
    have hhigh := hexValue?_hexDigit (c.toNat / 16) (by omega)
    have hlow := hexValue?_hexDigit (c.toNat % 16) (by omega)
    have hunit : c.toNat / 16 * 16 + c.toNat % 16 = c.toNat := by omega
    simp [hcontrol, Text.hexDigits, readUnits, hzero, hhigh, hlow, hunit, h]
  · rw [if_neg hcontrol, List.singleton_append, readUnits.eq_5]
    · rw [if_neg (not_or.2 ⟨hcontrol, hbackslash⟩), h]
      rfl
    · exact hquote
    · intro _ _ _ _ _ hc
      exact absurd hc hbackslash
    · intro _ _ hc
      exact absurd hc hbackslash

theorem readUnits_flatMap_escapeChar (text rest : List Char) :
    readUnits (text.flatMap escapeChar ++ '"' :: rest) = some (text.map Char.toNat, rest) := by
  induction text with
  | nil => simp [readUnits]
  | cons c text ih =>
      rw [List.flatMap_cons, List.append_assoc, List.map_cons]
      exact readUnits_escapeChar c ih

/-- No character is half of a surrogate pair. -/
theorem joinUnits_map_toNat (text : List Char) : joinUnits (text.map Char.toNat) = some text := by
  induction text with
  | nil => simp [joinUnits]
  | cons c text ih =>
      have hvalid : c.toNat < 0xD800 ∨ 0xDFFF < c.toNat ∧ c.toNat < 0x110000 := c.valid
      have hhigh : ¬ (0xD800 ≤ c.toNat ∧ c.toNat < 0xDC00) := by omega
      have hlow : ¬ (0xDC00 ≤ c.toNat ∧ c.toNat < 0xE000) := by omega
      rw [List.map_cons, joinUnits.eq_def]
      simp only [if_neg hhigh, if_neg hlow, ih, Option.map_some, Char.ofNat_toNat]

theorem readString_written (text : String) (rest : List Char) :
    readString (text.toList.flatMap escapeChar ++ '"' :: rest) = some (some text, rest) := by
  simp [readString, readUnits_flatMap_escapeChar, joinUnits_map_toNat]

/-! ## Numbers -/

/-- Is what follows a value nothing, or a comma or the end of a list or object? -/
def Closes (rest : List Char) : Prop :=
  ∀ c ∈ rest.head?, c = ',' ∨ c = ']' ∨ c = '\x7d'

theorem spanDigits_append {digits rest : List Char} (hdigits : ∀ c ∈ digits, c.isDigit)
    (h : Closes rest) : spanDigits (digits ++ rest) = (digits, rest) := by
  have hrest : rest.takeWhile Char.isDigit = [] ∧ rest.dropWhile Char.isDigit = rest := by
    cases rest with
    | nil => exact ⟨rfl, rfl⟩
    | cons c rest =>
        have hc : c.isDigit = false := by
          rcases h c rfl with rfl | rfl | rfl <;> decide
        simp [hc]
  rw [spanDigits, List.span_eq_takeWhile_dropWhile, List.takeWhile_append_of_pos hdigits,
    List.dropWhile_append_of_pos hdigits, hrest.1, hrest.2, List.append_nil]

/-- No number but zero itself is written with a zero in front. -/
theorem head?_toDigits_ne_zero {n : Nat} (h : n ≠ 0) : (Nat.toDigits 10 n).head? ≠ some '0' := by
  induction n using Nat.strongRecOn with
  | ind n ih =>
      rw [Nat.toDigits_eq_if (by decide)]
      split
      · rename_i hsmall
        have hall : ∀ n < 10, n ≠ 0 → [n.digitChar].head? ≠ some '0' := by decide
        exact hall n hsmall h
      · have hfront := ih (n / 10) (by omega) (by omega)
        rwa [List.head?_append_of_ne_nil _ Nat.toDigits_ne_nil]

theorem digits?_eq_ofDigitChars {digits : List Char} (h : ∀ c ∈ digits, c.isDigit) (n : Nat) :
    digits? digits n = some (Nat.ofDigitChars 10 digits n) := by
  induction digits generalizing n with
  | nil => simp [digits?]
  | cons c digits ih =>
      obtain ⟨hc, hdigits⟩ := List.forall_mem_cons.1 h
      rw [digits?, if_pos hc, ih hdigits, Nat.ofDigitChars_cons]
      rw [Nat.mul_comm]

theorem isDigit_of_mem_toDigits {n : Nat} : ∀ c ∈ Nat.toDigits 10 n, c.isDigit :=
  fun _ => Nat.isDigit_of_mem_toDigits (by decide) (by decide)

/-- The digits of a number give the number. -/
theorem natBelow?_ofNat {bound n : Nat} (h : n < bound) : natBelow? bound (ofNat n) = some n := by
  have hdigits : digits? (Nat.toDigits 10 n) 0 = some n := by
    rw [digits?_eq_ofDigitChars isDigit_of_mem_toDigits, Nat.ofDigitChars_toDigits] <;> decide
  simp [natBelow?, ofNat, hdigits, h]

/-- The digits start with one of them. -/
theorem exists_toDigits_eq_cons (n : Nat) :
    ∃ c digits, Nat.toDigits 10 n = c :: digits ∧ c.isDigit := by
  obtain ⟨c, digits, hcons⟩ := List.exists_cons_of_ne_nil (Nat.toDigits_ne_nil (n := n) (b := 10))
  exact ⟨c, digits, hcons, isDigit_of_mem_toDigits c (hcons ▸ List.mem_cons_self)⟩

theorem readWhole_toDigits (n : Nat) {rest : List Char} (h : Closes rest) :
    readWhole (Nat.toDigits 10 n ++ rest) = some (Nat.toDigits 10 n, rest) := by
  by_cases hzero : n = 0
  · subst hzero
    rfl
  · have hhead := head?_toDigits_ne_zero hzero
    have hspan := spanDigits_append (isDigit_of_mem_toDigits (n := n)) h
    obtain ⟨c, digits, hcons, -⟩ := exists_toDigits_eq_cons n
    rw [hcons] at hhead hspan ⊢
    have hc : c ≠ '0' := by simpa using hhead
    rw [List.cons_append] at hspan ⊢
    rw [readWhole, hspan]
    · rfl
    · exact fun _ h => hc (List.cons.inj h).1

theorem readFraction_of_closes {rest : List Char} (h : Closes rest) :
    readFraction rest = some ([], rest) := by
  rw [readFraction]
  rintro text rfl
  rcases h '.' rfl with hc | hc | hc <;> exact absurd hc (by decide)

theorem readExponent_of_closes {rest : List Char} (h : Closes rest) :
    readExponent rest = some ([], rest) := by
  cases rest with
  | nil => rfl
  | cons c rest => rcases h c rfl with rfl | rfl | rfl <;> rfl

/-- A number is read back up to what closes it. -/
theorem readNumber_toDigits (n : Nat) {rest : List Char} (h : Closes rest) :
    readNumber (Nat.toDigits 10 n ++ rest) = some (ofNat n, rest) := by
  have hsign : ∀ text, Nat.toDigits 10 n ++ rest ≠ '-' :: text := by
    obtain ⟨c, digits, hcons, hdigit⟩ := exists_toDigits_eq_cons n
    rintro text heq
    rw [hcons] at heq
    obtain rfl := (List.cons.inj heq).1
    exact absurd hdigit (by decide)
  rw [readNumber]
  · simp [readWhole_toDigits n h, readFraction_of_closes h, readExponent_of_closes h, ofNat,
      Nat.repr]
  · exact hsign

/-! ## Values -/

/-- Is a value made of texts and natural numbers alone? -/
inductive IsPlain : Json → Prop
  | null : IsPlain null
  | bool (b : Bool) : IsPlain (bool b)
  | ofNat (n : Nat) : IsPlain (ofNat n)
  | string (text : String) : IsPlain (string text)
  | array {items : List Json} (h : ∀ v ∈ items, IsPlain v) : IsPlain (array items)
  | ofMembers {members : List (String × Json)} (h : ∀ m ∈ members, IsPlain m.2) :
      IsPlain (ofMembers members)

/-- The characters that a value is written with. -/
def written (v : Json) : List Char :=
  (render v).toList

@[simp] theorem written_ofNat (n : Nat) : written (ofNat n) = Nat.toDigits 10 n := by
  simp [written, ofNat, render]

@[simp] theorem written_string (text : String) :
    written (string text) = '"' :: (text.toList.flatMap escapeChar ++ ['"']) := by
  simp [written, render, quote]

theorem renderAll_eq_map (items : List Json) : renderAll items = items.map render := by
  induction items with
  | nil => rfl
  | cons v items ih => rw [renderAll, ih, List.map_cons]

/-- The characters that a member is written with. -/
def writtenMember (m : String × Json) : List Char :=
  '"' :: (m.1.toList.flatMap escapeChar ++ '"' :: ':' :: written m.2)

theorem map_toList_renderMembers (members : List (String × Json)) :
    (renderMembers (members.map fun (k, v) => (some k, v))).map String.toList =
      members.map writtenMember := by
  induction members with
  | nil => rfl
  | cons m members ih => simp [renderMembers, ih, writtenMember, quote, written]

@[simp] theorem written_array (items : List Json) :
    written (array items) = '[' :: ([','].intercalate (items.map written) ++ [']']) := by
  have hmap : (items.map render).map String.toList = items.map written := by simp [written]
  rw [written, render, renderAll_eq_map]
  simp [hmap]

@[simp] theorem written_ofMembers (members : List (String × Json)) :
    written (ofMembers members) =
      '\x7b' :: ([','].intercalate (members.map writtenMember) ++ ['\x7d']) := by
  rw [written, ofMembers, render]
  simp [map_toList_renderMembers]

theorem isGap_of_isDigit {c : Char} (h : c.isDigit) : isGap c = false := by
  rw [← Bool.not_eq_true]
  intro hgap
  have hblank : c = ' ' ∨ c = '\t' ∨ c = '\n' ∨ c = '\r' := by simpa [isGap, or_assoc] using hgap
  rcases hblank with rfl | rfl | rfl | rfl <;> exact absurd h (by decide)

/-- A plain value is written with a character in front that is neither a blank nor the end of a
list. -/
theorem IsPlain.exists_written_eq_cons {v : Json} (h : v.IsPlain) :
    ∃ c text, written v = c :: text ∧ isGap c = false ∧ c ≠ ']' := by
  cases h with
  | null => exact ⟨'n', "ull".toList, by decide, by decide, by decide⟩
  | bool b => cases b <;> exact ⟨_, _, rfl, by decide, by decide⟩
  | ofNat n =>
      obtain ⟨c, digits, hcons, hdigit⟩ := exists_toDigits_eq_cons n
      refine ⟨c, digits, by simpa using hcons, ?_, ?_⟩
      · exact isGap_of_isDigit hdigit
      · rintro rfl
        exact absurd hdigit (by decide)
  | string text => exact ⟨'"', _, written_string text, by decide, by decide⟩
  | array h => exact ⟨'[', _, written_array _, by decide, by decide⟩
  | ofMembers h => exact ⟨'\x7b', _, written_ofMembers _, by decide, by decide⟩

/-- Is a value read back from the characters it is written with, whatever closes it? -/
def IsReadBack (v : Json) : Prop :=
  ∀ (depth : Nat) (rest : List Char), 2 * (written v).length ≤ depth + 1 → Closes rest →
    readValue depth (written v ++ rest) = some (v, rest)

/-- What is put together starts with the first of its parts. -/
theorem exists_intercalate_cons_eq_append (between part : List Char) (parts : List (List Char)) :
    ∃ text, between.intercalate (part :: parts) = part ++ text := by
  cases parts with
  | nil => exact ⟨[], by simp⟩
  | cons next parts => exact ⟨_, by rw [List.intercalate_cons_cons, List.append_assoc]⟩

theorem skipGap_cons {c : Char} (h : isGap c = false) (text : List Char) :
    skipGap (c :: text) = c :: text := by
  simp [skipGap, h]

theorem readValue_of_isDigit {c : Char} (h : c.isDigit) (depth : Nat) (text : List Char) :
    readValue (depth + 1) (c :: text) = readNumber (c :: text) := by
  rw [readValue, skipGap_cons (isGap_of_isDigit h)]
  split <;> rename_i heq <;> try rfl
  all_goals
    obtain rfl := (List.cons.inj heq).1
    exact absurd h (by decide)

theorem IsReadBack.length_pos {v : Json} (h : v.IsReadBack) : 0 < (written v).length := by
  apply Nat.pos_of_ne_zero
  intro hzero
  have hread := h 0 [] (by omega) nofun
  rw [readValue] at hread
  exact nomatch hread

theorem closes_cons {c : Char} (h : c = ',' ∨ c = ']' ∨ c = '\x7d') (rest : List Char) :
    Closes (c :: rest) := by
  rintro _ hc
  cases hc
  exact h

/-! ### Lists -/

section Items

variable {depth : Nat} {v : Json} {items : List Json} {text more rest : List Char}

theorem readItems_last (h : readValue depth text = some (v, ']' :: rest)) :
    readItems (depth + 1) text = some ([v], rest) := by
  simp [readItems, h, skipGap_cons (show isGap ']' = false by decide)]

theorem readItems_more (h : readValue depth text = some (v, ',' :: more))
    (hmore : readItems depth more = some (items, rest)) :
    readItems (depth + 1) text = some (v :: items, rest) := by
  simp [readItems, h, skipGap_cons (show isGap ',' = false by decide), hmore]

/-- Items are read back up to the end of their list, if each of them is. -/
theorem readItems_written (rest : List Char) (hne : items ≠ []) (h : ∀ v ∈ items, IsReadBack v)
    (hdepth : 2 * ([','].intercalate (items.map written)).length ≤ depth) :
    readItems depth ([','].intercalate (items.map written) ++ ']' :: rest) =
      some (items, rest) := by
  induction items generalizing depth with
  | nil => exact absurd rfl hne
  | cons v items ih =>
      obtain ⟨hv, hitems⟩ := List.forall_mem_cons.1 h
      have hpos := hv.length_pos
      cases items with
      | nil =>
          simp only [List.map_cons, List.map_nil, List.intercalate_singleton] at hdepth ⊢
          obtain ⟨depth, rfl⟩ : ∃ n, depth = n + 1 := ⟨depth - 1, by omega⟩
          exact readItems_last (hv depth _ (by omega) (closes_cons (by decide) rest))
      | cons w items =>
          rw [List.map_cons, List.map_cons, List.intercalate_cons_cons, ← List.map_cons] at hdepth ⊢
          simp only [List.length_append, List.length_cons, List.append_assoc,
            List.singleton_append] at hdepth ⊢
          obtain ⟨depth, rfl⟩ : ∃ n, depth = n + 1 := ⟨depth - 1, by omega⟩
          refine readItems_more (hv depth _ (by omega) (closes_cons (by decide) _)) ?_
          exact ih (List.cons_ne_nil w items) hitems (by omega)

theorem readValue_items {c : Char} (hgap : isGap c = false) (hc : c ≠ ']')
    (h : readItems depth (c :: text) = some (items, rest)) :
    readValue (depth + 1) ('[' :: c :: text) = some (array items, rest) := by
  rw [readValue, skipGap_cons (by decide)]
  simp only [skipGap_cons hgap]
  split
  · exact absurd (List.cons.inj ‹_›).1 hc
  · rw [h]
    rfl

end Items

/-! ### Objects -/

section Members

variable {depth : Nat} {m : String × Json} {members : List (String × Json)}
  {text more rest : List Char}

theorem readMembers_last (h : readValue depth text = some (m.2, '\x7d' :: rest)) :
    readMembers (depth + 1) ('"' :: (m.1.toList.flatMap escapeChar ++ '"' :: ':' :: text)) =
      some ([(some m.1, m.2)], rest) := by
  simp [readMembers, readString_written, h, skipGap_cons (show isGap '"' = false by decide),
    skipGap_cons (show isGap ':' = false by decide),
    skipGap_cons (show isGap '\x7d' = false by decide)]

theorem readMembers_more {others : List (Option String × Json)}
    (h : readValue depth text = some (m.2, ',' :: more))
    (hmore : readMembers depth more = some (others, rest)) :
    readMembers (depth + 1) ('"' :: (m.1.toList.flatMap escapeChar ++ '"' :: ':' :: text)) =
      some ((some m.1, m.2) :: others, rest) := by
  simp [readMembers, readString_written, h, skipGap_cons (show isGap '"' = false by decide),
    skipGap_cons (show isGap ':' = false by decide),
    skipGap_cons (show isGap ',' = false by decide), hmore]

/-- Members are read back up to the end of their object, if the value of each of them is. -/
theorem readMembers_written (rest : List Char) (hne : members ≠ [])
    (h : ∀ m ∈ members, IsReadBack m.2)
    (hdepth : 2 * ([','].intercalate (members.map writtenMember)).length ≤ depth) :
    readMembers depth ([','].intercalate (members.map writtenMember) ++ '\x7d' :: rest) =
      some (members.map fun (k, v) => (some k, v), rest) := by
  induction members generalizing depth with
  | nil => exact absurd rfl hne
  | cons m members ih =>
      obtain ⟨hm, hmembers⟩ := List.forall_mem_cons.1 h
      cases members with
      | nil =>
          simp only [List.map_cons, List.map_nil, List.intercalate_singleton, writtenMember,
            List.length_cons, List.length_append, List.cons_append, List.append_assoc] at hdepth ⊢
          obtain ⟨depth, rfl⟩ : ∃ n, depth = n + 1 := ⟨depth - 1, by omega⟩
          exact readMembers_last (hm depth _ (by omega) (closes_cons (by decide) rest))
      | cons w members =>
          rw [List.map_cons, List.map_cons, List.intercalate_cons_cons, ← List.map_cons,
            writtenMember] at hdepth ⊢
          simp only [List.length_append, List.length_cons, List.append_assoc, List.cons_append,
            List.nil_append] at hdepth ⊢
          obtain ⟨depth, rfl⟩ : ∃ n, depth = n + 1 := ⟨depth - 1, by omega⟩
          refine readMembers_more (hm depth _ (by omega) (closes_cons (by decide) _)) ?_
          exact ih (List.cons_ne_nil w members) hmembers (by omega)

theorem readValue_members {members : List (Option String × Json)}
    (h : readMembers depth ('"' :: text) = some (members, rest)) :
    readValue (depth + 1) ('\x7b' :: '"' :: text) = some (object members, rest) := by
  rw [readValue, skipGap_cons (by decide)]
  simp [skipGap_cons (show isGap '"' = false by decide), h]

end Members

/-- It is enough to read a value back where something may still be read. -/
theorem isReadBack_of_succ {v : Json} (hne : written v ≠ [])
    (h : ∀ (depth : Nat) (rest : List Char), 2 * (written v).length ≤ depth + 2 → Closes rest →
      readValue (depth + 1) (written v ++ rest) = some (v, rest)) : IsReadBack v := by
  intro depth rest hdepth hrest
  have hpos := List.length_pos_iff.2 hne
  obtain ⟨depth, rfl⟩ : ∃ n, depth = n + 1 := ⟨depth - 1, by omega⟩
  exact h depth rest hdepth hrest

/-- A plain value is read back. -/
theorem IsPlain.isReadBack {v : Json} (h : v.IsPlain) : v.IsReadBack := by
  induction h with
  | null => exact isReadBack_of_succ (by decide) fun _ _ _ _ => rfl
  | bool b => cases b <;> exact isReadBack_of_succ (by decide) fun _ _ _ _ => rfl
  | ofNat n =>
      apply isReadBack_of_succ (by simp)
      intro depth rest _ hrest
      have hread := readNumber_toDigits n hrest
      obtain ⟨c, digits, hcons, hdigit⟩ := exists_toDigits_eq_cons n
      rw [hcons, List.cons_append] at hread
      rw [written_ofNat, hcons, List.cons_append, readValue_of_isDigit hdigit, hread]
  | string text =>
      apply isReadBack_of_succ (by simp)
      intro depth rest _ _
      simp [readValue, skipGap_cons (show isGap '"' = false by decide), readString_written]
  | @array items hplain ih =>
      apply isReadBack_of_succ (by simp)
      intro depth rest hdepth _
      cases items with
      | nil => rfl
      | cons v items =>
          rw [written_array, List.length_cons, List.length_append] at hdepth
          have hjoined : 2 * ([','].intercalate ((v :: items).map written)).length ≤ depth := by
            omega
          have hread := readItems_written rest (List.cons_ne_nil v items) ih hjoined
          -- The reader looks at what follows the bracket: it is the start of the first item, neither
          -- a blank nor another bracket.
          obtain ⟨more, hmore⟩ := exists_intercalate_cons_eq_append [','] (written v)
            (items.map written)
          obtain ⟨c, text, hcons, hgap, hc⟩ :=
            (hplain v List.mem_cons_self).exists_written_eq_cons
          rw [List.map_cons, hmore, hcons, List.cons_append, List.cons_append] at hread
          rw [written_array, List.cons_append, List.append_assoc, List.map_cons, hmore, hcons]
          exact readValue_items hgap hc hread
  | @ofMembers members hplain ih =>
      apply isReadBack_of_succ (by simp)
      intro depth rest hdepth _
      cases members with
      | nil => rfl
      | cons m members =>
          rw [written_ofMembers, List.length_cons, List.length_append] at hdepth
          have hjoined : 2 * ([','].intercalate ((m :: members).map writtenMember)).length ≤
              depth := by
            omega
          have hread := readMembers_written rest (List.cons_ne_nil m members) ih hjoined
          obtain ⟨more, hmore⟩ := exists_intercalate_cons_eq_append [','] (writtenMember m)
            (members.map writtenMember)
          rw [List.map_cons, hmore, writtenMember, List.cons_append, List.cons_append] at hread
          rw [written_ofMembers, List.cons_append, List.append_assoc, List.map_cons, hmore,
            writtenMember]
          exact readValue_members hread

/-- The value that the written form of a plain value writes is the value itself. -/
theorem read?_render {v : Json} (h : v.IsPlain) : read? (render v) = some v := by
  have hread := h.isReadBack (2 * (written v).length + 2) [] (by omega) nofun
  rw [List.append_nil] at hread
  rw [read?]
  show (readValue (2 * (written v).length + 2) (written v)).bind _ = some v
  rw [hread]
  rfl

end SourceIndex.Json
