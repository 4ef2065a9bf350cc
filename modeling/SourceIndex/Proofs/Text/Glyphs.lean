import Mathlib.Data.List.TakeWhile
import SourceIndex.Proofs.Text.Utf8
import SourceIndex.Text.Word

/-!
# Octets as glyphs

Where the glyphs of some octets begin, and which characters are found ahead of a place between two
glyphs and behind it.  An ASCII octet is a glyph of its own wherever it stands, so what is found
next to a place reaches to the nearest ASCII octet and no further.
-/

namespace SourceIndex.Text.Utf8

/-- Is the octet an ASCII character? -/
def isAscii (b : UInt8) : Bool :=
  b < 0x80

variable {b : UInt8} {c : Char} {octets rest behind : List UInt8} {j k : Nat}

/-! ## The octets of a character -/

theorem isContinuation_of_isAscii (h : isAscii b = true) : isContinuation b = false := by
  simp only [isAscii, decide_eq_true_eq] at h
  simp only [isContinuation, Bool.and_eq_false_iff, decide_eq_false_iff_not]
  exact Or.inl (UInt8.not_le.2 h)

theorem isContinuation_continuation {bits : Nat} (h : bits < 0x40) :
    isContinuation (0x80 + bits).toUInt8 = true := by
  have hvalue : (0x80 + bits).toUInt8.toNat = 0x80 + bits := toNat_continuation h
  simp only [isContinuation, Bool.and_eq_true, decide_eq_true_eq, UInt8.le_iff_toNat_le,
    UInt8.lt_iff_toNat_lt, hvalue]
  simp
  omega

/-- The octets of a character beyond ASCII: a first one, and continuations behind it. -/
structure IsLong (octets : List UInt8) : Prop where
  cons : ∃ lead rest, octets = lead :: rest ∧ isAscii lead = false ∧ isContinuation lead = false ∧
    (∀ b ∈ rest, isContinuation b = true) ∧ rest.length ≤ 3

theorem isLong_of_lead {n : Nat} (hlow : 0xC0 ≤ n) (hhigh : n < 0x100)
    (hrest : ∀ b ∈ rest, isContinuation b = true) (hlength : rest.length ≤ 3) :
    IsLong (n.toUInt8 :: rest) := by
  have hvalue : n.toUInt8.toNat = n := by
    simp only [UInt8.toNat_ofNat']
    omega
  refine ⟨_, _, rfl, ?_, ?_, hrest, hlength⟩
  · simp only [isAscii, decide_eq_false_iff_not, UInt8.lt_iff_toNat_lt, hvalue]
    simp
    omega
  · simp only [isContinuation, Bool.and_eq_false_iff, decide_eq_false_iff_not,
      UInt8.lt_iff_toNat_lt, hvalue]
    simp
    omega

/-- A character is one ASCII octet, or longer. -/
theorem encodeChar_cases (c : Char) :
    (∃ b, isAscii b = true ∧ encodeChar c = [b] ∧ c = Char.ofNat b.toNat) ∨
      IsLong (encodeChar c) := by
  have hvalid : c.toNat < 0xD800 ∨ 0xDFFF < c.toNat ∧ c.toNat < 0x110000 := c.valid
  have hback : Char.ofNat c.toNat = c := Char.ofNat_toNat c
  simp only [encodeChar]
  generalize hn : c.toNat = n at hvalid hback
  split
  · rename_i h
    have hvalue : n.toUInt8.toNat = n := by
      simp only [UInt8.toNat_ofNat']
      omega
    refine Or.inl ⟨_, ?_, rfl, ?_⟩
    · simp only [isAscii, decide_eq_true_eq, UInt8.lt_iff_toNat_lt, hvalue]
      exact h
    · rw [hvalue, hback]
  · refine Or.inr ?_
    have hrest : ∀ ms : List Nat, ∀ b ∈ ms.map fun m => (0x80 + m % 0x40).toUInt8,
        isContinuation b = true := by
      intro ms b hb
      obtain ⟨m, -, rfl⟩ := List.mem_map.1 hb
      exact isContinuation_continuation (Nat.mod_lt _ (by decide))
    split
    · exact isLong_of_lead (by omega) (by omega) (hrest [n]) (by simp)
    split
    · exact isLong_of_lead (by omega) (by omega) (hrest [n / 0x40, n]) (by simp)
    · exact isLong_of_lead (by omega) (by omega) (hrest [n / 0x1000, n / 0x40, n]) (by simp)

/-- Nothing stands before an ASCII octet of a character. -/
theorem eq_nil_of_encodeChar_eq (h : isAscii b = true) (hc : encodeChar c = octets ++ b :: rest) :
    octets = [] := by
  rcases encodeChar_cases c with ⟨b', -, hone, -⟩ | ⟨lead, conts, hlong, -, -, hconts, -⟩
  · rw [hone] at hc
    cases octets with
    | nil => rfl
    | cons b'' octets =>
        have hlength := congrArg List.length hc
        simp at hlength
  · rw [hlong] at hc
    cases octets with
    | nil => rfl
    | cons b'' octets =>
        obtain ⟨-, rfl⟩ := List.cons.inj hc
        have hcont := hconts b (List.mem_append_right _ List.mem_cons_self)
        rw [isContinuation_of_isAscii h] at hcont
        cases hcont

theorem encodeChar_ofNat (h : isAscii b = true) : encodeChar (Char.ofNat b.toNat) = [b] := by
  have hlt : b.toNat < 0x80 := by simpa [isAscii, UInt8.lt_iff_toNat_lt] using h
  have hvalid : b.toNat.isValidChar := Or.inl (by omega)
  have hvalue : (Char.ofNat b.toNat).toNat = b.toNat := by
    rw [Char.ofNat, dif_pos hvalid]
    rfl
  rw [encodeChar, hvalue, if_pos hlt]
  simp

theorem encodeChar_ne_nil (c : Char) : encodeChar c ≠ [] := by
  rcases encodeChar_cases c with ⟨b, -, h, -⟩ | ⟨lead, rest, h, -⟩ <;> simp [h]

theorem length_encodeChar_le (c : Char) : (encodeChar c).length ≤ 4 := by
  rw [length_encodeChar]
  exact c.utf8Size_le_four

theorem decode_encodeChar_append (c : Char) (rest : List UInt8) :
    decode (encodeChar c ++ rest) = c :: decode rest :=
  decodeFrom_encodeChar_append c rest

/-- No character starts with the octets of another one. -/
theorem eq_of_encodeChar_append {c c' : Char} (h : encodeChar c ++ rest = encodeChar c') :
    c = c' ∧ rest = [] := by
  have hdecode := decode_encodeChar_append c' []
  rw [List.append_nil, ← h, decode_encodeChar_append] at hdecode
  obtain ⟨rfl, -⟩ := List.cons.inj hdecode
  exact ⟨rfl, List.append_right_eq_self.1 h⟩

/-- In the octets of a text, an ASCII octet is a character of its own, with the octets of whole
characters before and behind it. -/
theorem exists_of_encode_eq_append {text : List Char} (h : isAscii b = true)
    (htext : encode text = octets ++ b :: rest) :
    ∃ before after, text = before ++ Char.ofNat b.toNat :: after ∧ encode before = octets ∧
      encode after = rest := by
  induction text generalizing octets with
  | nil => exact absurd htext.symm (List.append_ne_nil_of_right_ne_nil _ (List.cons_ne_nil _ _))
  | cons c text ih =>
      have hcons : encode (c :: text) = encodeChar c ++ encode text := List.flatMap_cons
      rw [hcons] at htext
      -- The octet belongs to the first character, or to those behind it.
      rcases List.append_eq_append_iff.1 htext with ⟨octets', rfl, hrest⟩ | ⟨inner, hinner, hrest⟩
      · obtain ⟨before, after, rfl, rfl, rfl⟩ := ih hrest
        exact ⟨c :: before, after, rfl, List.flatMap_cons, rfl⟩
      · cases inner with
        | nil =>
            have htail : encode text = [] ++ b :: rest := hrest.symm
            obtain ⟨before, after, rfl, hbefore, rfl⟩ := ih htail
            refine ⟨c :: before, after, rfl, ?_, rfl⟩
            rw [List.append_nil] at hinner
            rw [← hinner, ← List.append_nil (encodeChar c), ← hbefore]
            exact List.flatMap_cons
        | cons b' inner =>
            obtain ⟨rfl, rfl⟩ := List.cons.inj hrest
            obtain rfl := eq_nil_of_encodeChar_eq h hinner
            have hone : encodeChar (Char.ofNat b.toNat) ++ inner = encodeChar c := by
              rw [encodeChar_ofNat h]
              exact hinner.symm
            obtain ⟨rfl, rfl⟩ := eq_of_encodeChar_append hone
            exact ⟨[], text, rfl, rfl, rfl⟩

/-- The character that so many octets are. -/
def readChar? (octets : List UInt8) (k : Nat) : Option (Char × Nat) :=
  match decode (octets.take k) with
  | [c] => if encodeChar c = octets.take k then some (c, k) else none
  | _ => none

theorem firstChar?_eq (octets : List UInt8) :
    firstChar? octets = [1, 2, 3, 4].findSome? (readChar? octets) :=
  rfl

theorem readChar?_eq_some (h : readChar? octets k = some (c, j)) :
    j = k ∧ encodeChar c = octets.take k := by
  unfold readChar? at h
  split at h
  · split at h
    · cases h
      exact ⟨rfl, ‹_›⟩
    · cases h
  · cases h

/-- Too few octets are no character, since no character starts with the octets of another one. -/
theorem readChar?_eq_none (h : k < (encodeChar c).length) :
    readChar? (encodeChar c ++ rest) k = none := by
  refine Option.eq_none_iff_forall_ne_some.2 fun (c', j) hread => ?_
  obtain ⟨-, heq⟩ := readChar?_eq_some hread
  rw [List.take_append_of_le_length (Nat.le_of_lt h)] at heq
  have hprefix : encodeChar c' ++ (encodeChar c).drop k = encodeChar c := by
    rw [heq, List.take_append_drop]
  have hle := List.drop_eq_nil_iff.1 (eq_of_encodeChar_append hprefix).2
  omega

theorem readChar?_encodeChar_append (c : Char) (rest : List UInt8) :
    readChar? (encodeChar c ++ rest) (encodeChar c).length =
      some (c, (encodeChar c).length) := by
  have hdecode : decode (encodeChar c) = [c] := by
    have h := decode_encodeChar_append c []
    rwa [List.append_nil] at h
  rw [readChar?, List.take_left, hdecode]
  exact if_pos rfl

/-- The character ahead is the one with whose octets the text goes on. -/
theorem firstChar?_encodeChar_append (c : Char) (rest : List UInt8) :
    firstChar? (encodeChar c ++ rest) = some (c, (encodeChar c).length) := by
  have hwhole := readChar?_encodeChar_append c rest
  have hshort : ∀ k, k < (encodeChar c).length → readChar? (encodeChar c ++ rest) k = none :=
    fun k hk => readChar?_eq_none hk
  have hpos := List.length_pos_iff.2 (encodeChar_ne_nil c)
  have hle := length_encodeChar_le c
  have hcases : (encodeChar c).length = 1 ∨ (encodeChar c).length = 2 ∨
      (encodeChar c).length = 3 ∨ (encodeChar c).length = 4 := by omega
  rw [firstChar?_eq]
  rcases hcases with hk | hk | hk | hk <;> rw [hk] at hwhole hshort ⊢
  · rw [List.findSome?_cons, hwhole]
  · rw [List.findSome?_cons, hshort 1 (by decide), List.findSome?_cons, hwhole]
  · rw [List.findSome?_cons, hshort 1 (by decide), List.findSome?_cons, hshort 2 (by decide),
      List.findSome?_cons, hwhole]
  · rw [List.findSome?_cons, hshort 1 (by decide), List.findSome?_cons, hshort 2 (by decide),
      List.findSome?_cons, hshort 3 (by decide), List.findSome?_cons, hwhole]

theorem exists_of_firstChar? (h : firstChar? octets = some (c, k)) :
    ∃ rest, octets = encodeChar c ++ rest ∧ k = (encodeChar c).length := by
  rw [firstChar?_eq] at h
  obtain ⟨j, -, hread⟩ := List.exists_of_findSome?_eq_some h
  obtain ⟨rfl, hencode⟩ := readChar?_eq_some hread
  have hoctets : octets = encodeChar c ++ octets.drop k := by rw [hencode, List.take_append_drop]
  have hfirst := firstChar?_encodeChar_append c (octets.drop k)
  rw [← hoctets, firstChar?_eq, h] at hfirst
  exact ⟨octets.drop k, hoctets, (Prod.mk.inj (Option.some.inj hfirst)).2⟩

theorem firstChar?_ascii (h : isAscii b = true) (rest : List UInt8) :
    firstChar? (b :: rest) = some (Char.ofNat b.toNat, 1) := by
  have hfirst := firstChar?_encodeChar_append (Char.ofNat b.toNat) rest
  rwa [encodeChar_ofNat h] at hfirst

/-- An ASCII octet ends what is found ahead. -/
theorem firstChar?_append_ascii (h : isAscii b = true) (hne : octets ≠ []) (rest : List UInt8) :
    firstChar? (octets ++ b :: rest) = firstChar? octets := by
  cases hfirst : firstChar? octets with
  | some found =>
      obtain ⟨c, k⟩ := found
      obtain ⟨more, rfl, rfl⟩ := exists_of_firstChar? hfirst
      rw [List.append_assoc, firstChar?_encodeChar_append]
  | none =>
      refine Option.eq_none_iff_forall_ne_some.2 fun (c, k) hsome => ?_
      obtain ⟨more, heq, -⟩ := exists_of_firstChar? hsome
      -- The character would have to end before the ASCII octet.
      rcases List.append_eq_append_iff.1 heq with ⟨tail, hc, hb⟩ | ⟨tail, ho, -⟩
      · cases tail with
        | nil =>
            rw [List.append_nil] at hc
            rw [← hc, ← List.append_nil (encodeChar c), firstChar?_encodeChar_append] at hfirst
            cases hfirst
        | cons b' tail =>
            obtain ⟨rfl, -⟩ := List.cons.inj hb
            exact hne (eq_nil_of_encodeChar_eq h hc)
      · rw [ho, firstChar?_encodeChar_append] at hfirst
        cases hfirst

/-! ## What is found behind a place -/

/-- Over three continuations at most, the way back leads to the octet before them. -/
theorem lastChar?_append_cons (conts : List UInt8) (hconts : ∀ x ∈ conts, isContinuation x = true)
    (hlength : conts.length ≤ 3) (hb : isContinuation b = false) (rest : List UInt8) :
    lastChar? (conts ++ b :: rest) = (firstChar? (b :: conts.reverse)).map Prod.fst := by
  have hnear : (conts ++ b :: rest).take 4 = conts ++ b :: rest.take (3 - conts.length) := by
    obtain ⟨k, hk⟩ : ∃ k, 4 - conts.length = k + 1 := ⟨3 - conts.length, by omega⟩
    have hk' : 3 - conts.length = k := by omega
    rw [List.take_append, List.take_of_length_le (by omega), hk, List.take_succ_cons, hk']
  have hwhile : (conts ++ b :: rest.take (3 - conts.length)).takeWhile isContinuation = conts := by
    rw [List.takeWhile_append_of_pos hconts, List.takeWhile_cons_of_neg (by simp [hb]),
      List.append_nil]
  have htake : (conts ++ b :: rest.take (3 - conts.length)).take (conts.length + 1) =
      conts ++ [b] := by
    rw [List.take_append, List.take_of_length_le (Nat.le_succ _), Nat.add_sub_cancel_left]
    rfl
  simp only [lastChar?, hnear, hwhile, htake, List.reverse_append, List.reverse_singleton,
    List.singleton_append]

/-- A character is found behind its octets. -/
theorem lastChar?_encodeChar (c : Char) (behind : List UInt8) :
    lastChar? ((encodeChar c).reverse ++ behind) = some c := by
  have hfirst : firstChar? (encodeChar c) = some (c, (encodeChar c).length) := by
    have h := firstChar?_encodeChar_append c []
    rwa [List.append_nil] at h
  rcases encodeChar_cases c with ⟨b, hb, hone, -⟩ | ⟨lead, conts, hlong, -, hlead, hconts, hle⟩
  · have h := lastChar?_append_cons [] (by simp) (by simp)
      (isContinuation_of_isAscii hb) behind
    rw [hone] at hfirst ⊢
    simpa [hfirst] using h
  · have h := lastChar?_append_cons conts.reverse (by simpa using hconts)
      (by simpa using hle) hlead behind
    rw [hlong] at hfirst ⊢
    simpa [hfirst] using h

/-- An ASCII octet is found behind it, over three continuations at most, and ends what is found
otherwise. -/
theorem lastChar?_append_ascii (h : isAscii b = true) (octets rest : List UInt8) :
    lastChar? (octets ++ b :: rest) =
      if octets.length ≤ 3 ∧ octets.all isContinuation = true then some (Char.ofNat b.toNat)
      else lastChar? octets := by
  split
  · rename_i hall
    rw [lastChar?_append_cons _ (List.all_eq_true.1 hall.2) hall.1 (isContinuation_of_isAscii h),
      firstChar?_ascii h, Option.map_some]
  · rename_i hnot
    by_cases hlength : octets.length ≤ 3
    · -- Some octet nearer than the ASCII one is no continuation.
      have hsplit := List.takeWhile_append_dropWhile (p := isContinuation) (l := octets)
      have hconts : ∀ x ∈ octets.takeWhile isContinuation, isContinuation x = true :=
        fun x hx => List.mem_takeWhile_imp hx
      have hle := (List.takeWhile_prefix isContinuation (l := octets)).length_le
      cases hdrop : octets.dropWhile isContinuation with
      | nil => exact absurd ⟨hlength, List.all_eq_true.2 (List.dropWhile_eq_nil_iff.1 hdrop)⟩ hnot
      | cons x more =>
          have hx : isContinuation x = false := by
            have hhead := List.head?_dropWhile_not isContinuation octets
            rw [hdrop] at hhead
            exact hhead
          rw [hdrop] at hsplit
          rw [← hsplit, List.append_assoc, List.cons_append,
            lastChar?_append_cons _ hconts (by omega) hx, lastChar?_append_cons _ hconts (by omega) hx]
    · have hnear : (octets ++ b :: rest).take 4 = octets.take 4 :=
        List.take_append_of_le_length (by omega)
      rw [lastChar?, hnear, lastChar?]

/-! ## Glyphs -/

/-- The octets of some glyphs. -/
def flat (glyphs : List Glyph) : List UInt8 :=
  glyphs.flatMap Glyph.bytes

theorem flat_append (u v : List Glyph) : flat (u ++ v) = flat u ++ flat v :=
  List.flatMap_append

/-- Octets that belong to the glyph before are passed over. -/
theorem glyphsFrom_skip (behind : List UInt8) (k : Nat) (octets : List UInt8) :
    glyphsFrom behind k octets =
      glyphsFrom ((octets.take k).reverse ++ behind) 0 (octets.drop k) := by
  induction octets generalizing behind k with
  | nil => cases k <;> rfl
  | cons b octets ih =>
      cases k with
      | zero => rfl
      | succ k =>
          rw [glyphsFrom, ih, List.take_succ_cons, List.drop_succ_cons, List.reverse_cons,
            List.append_assoc, List.singleton_append]

/-- A character is one glyph. -/
theorem glyphsFrom_encodeChar_append (behind : List UInt8) (c : Char) (rest : List UInt8) :
    glyphsFrom behind 0 (encodeChar c ++ rest) =
      ⟨some c, encodeChar c, some c⟩ :: glyphsFrom ((encodeChar c).reverse ++ behind) 0 rest := by
  have hfirst := firstChar?_encodeChar_append c rest
  cases hc : encodeChar c with
  | nil => exact absurd hc (encodeChar_ne_nil c)
  | cons b more =>
      rw [hc] at hfirst
      rw [List.cons_append] at hfirst ⊢
      rw [glyphsFrom, hfirst]
      simp only [List.length_cons, Nat.add_sub_cancel]
      have htake : (b :: (more ++ rest)).take (more.length + 1) = b :: more := by
        rw [List.take_succ_cons, List.take_left]
      rw [glyphsFrom_skip, List.take_left, List.drop_left, htake, List.reverse_cons,
        List.append_assoc, List.singleton_append]

/-- An octet that starts no character is a glyph that shows none. -/
theorem glyphsFrom_cons (h : firstChar? (b :: rest) = none) (behind : List UInt8) :
    glyphsFrom behind 0 (b :: rest) =
      ⟨none, [b], lastChar? (b :: behind)⟩ :: glyphsFrom (b :: behind) 0 rest := by
  rw [glyphsFrom, h]

/-- What holds of no octets, and goes over to one more character or octet in front, holds of all
octets. -/
theorem glyph_induction {P : List UInt8 → Prop} (nil : P [])
    (char : ∀ c rest, P rest → P (encodeChar c ++ rest))
    (octet : ∀ b rest, firstChar? (b :: rest) = none → P rest → P (b :: rest))
    (octets : List UInt8) : P octets := by
  induction hlength : octets.length using Nat.strong_induction_on generalizing octets with
  | _ n ih =>
      cases octets with
      | nil => exact nil
      | cons b rest =>
          cases hfirst : firstChar? (b :: rest) with
          | none => exact octet b rest hfirst (ih _ (hlength ▸ Nat.lt_succ_self _) rest rfl)
          | some found =>
              obtain ⟨c, k⟩ := found
              obtain ⟨more, heq, -⟩ := exists_of_firstChar? hfirst
              have hpos := List.length_pos_iff.2 (encodeChar_ne_nil c)
              rw [heq] at hlength ⊢
              rw [List.length_append] at hlength
              exact char c more (ih _ (by omega) more rfl)

theorem flat_glyphsFrom (behind octets : List UInt8) : flat (glyphsFrom behind 0 octets) = octets := by
  induction octets using glyph_induction generalizing behind with
  | nil => rfl
  | char c rest ih =>
      rw [glyphsFrom_encodeChar_append, flat, List.flatMap_cons]
      exact congrArg (encodeChar c ++ ·) (ih _)
  | octet b rest hfirst ih =>
      rw [glyphsFrom_cons hfirst, flat, List.flatMap_cons]
      exact congrArg (b :: ·) (ih _)

variable {u v : List Glyph} {g : Glyph}

/-- A glyph is a character, or an octet beyond ASCII that starts none. -/
theorem glyph_cases (hg : g ∈ glyphsFrom behind 0 octets) :
    (∃ c, g.char = some c ∧ g.bytes = encodeChar c) ∨
      ∃ b, g.char = none ∧ g.bytes = [b] ∧ isAscii b = false := by
  induction octets using glyph_induction generalizing behind with
  | nil => cases hg
  | char c rest ih =>
      rw [glyphsFrom_encodeChar_append] at hg
      rcases List.mem_cons.1 hg with rfl | hg
      · exact Or.inl ⟨c, rfl, rfl⟩
      · exact ih hg
  | octet b rest hfirst ih =>
      rw [glyphsFrom_cons hfirst] at hg
      rcases List.mem_cons.1 hg with rfl | hg
      · refine Or.inr ⟨b, rfl, rfl, ?_⟩
        cases hb : isAscii b with
        | false => rfl
        | true =>
            rw [firstChar?_ascii hb] at hfirst
            cases hfirst
      · exact ih hg

/-- A place between two glyphs: what is behind it and ahead of it is read as if it stood alone. -/
structure IsBoundary (behind : List UInt8) (u v : List Glyph) : Prop where
  ahead : v = glyphsFrom ((flat u).reverse ++ behind) 0 (flat v)
  backward : ∀ g ∈ u.getLast?, g.backward = lastChar? ((flat u).reverse ++ behind)

theorem IsBoundary.cons (h : IsBoundary (g.bytes.reverse ++ behind) u v)
    (hg : g.backward = lastChar? (g.bytes.reverse ++ behind)) : IsBoundary behind (g :: u) v := by
  have hbehind : (flat (g :: u)).reverse ++ behind =
      (flat u).reverse ++ (g.bytes.reverse ++ behind) := by
    rw [flat, List.flatMap_cons, List.reverse_append, List.append_assoc]
    rfl
  refine ⟨by rw [hbehind]; exact h.ahead, ?_⟩
  intro g' hg'
  rw [hbehind]
  cases u with
  | nil =>
      cases hg'
      exact hg
  | cons g'' u => exact h.backward g' (by rwa [List.getLast?_cons_cons] at hg')

theorem isBoundary_of_glyphsFrom (h : glyphsFrom behind 0 octets = u ++ v) :
    IsBoundary behind u v := by
  have hstart : ∀ {behind octets : List UInt8} {v : List Glyph},
      glyphsFrom behind 0 octets = [] ++ v → IsBoundary behind [] v := by
    intro behind octets v h
    refine ⟨?_, nofun⟩
    rw [List.nil_append] at h
    rw [← h, flat_glyphsFrom]
    rfl
  induction octets using glyph_induction generalizing behind u with
  | nil =>
      obtain ⟨rfl, rfl⟩ := List.append_eq_nil_iff.1 h.symm
      exact hstart h
  | char c rest ih =>
      cases u with
      | nil => exact hstart h
      | cons g u =>
          rw [glyphsFrom_encodeChar_append] at h
          obtain ⟨rfl, hrest⟩ := List.cons.inj h
          exact (ih hrest).cons (lastChar?_encodeChar c behind).symm
  | octet b rest hfirst ih =>
      cases u with
      | nil => exact hstart h
      | cons g u =>
          rw [glyphsFrom_cons hfirst] at h
          obtain ⟨rfl, hrest⟩ := List.cons.inj h
          exact (ih hrest).cons rfl

/-- The glyph ahead of a place shows the character that is found ahead. -/
theorem IsBoundary.head?_char (h : IsBoundary behind u v) :
    (v.head?.bind Glyph.char) = (firstChar? (flat v)).map Prod.fst := by
  rw [h.ahead, flat_glyphsFrom]
  generalize flat v = octets
  induction octets using glyph_induction with
  | nil => rfl
  | char c rest =>
      rw [glyphsFrom_encodeChar_append, firstChar?_encodeChar_append]
      rfl
  | octet b rest hfirst =>
      rw [glyphsFrom_cons hfirst, hfirst]
      rfl

/-- There is a place between two glyphs before every ASCII octet. -/
theorem exists_boundary_of_isAscii (hb : isAscii b = true) (before rest behind : List UInt8) :
    ∃ u v, glyphsFrom behind 0 (before ++ b :: rest) = u ++ v ∧ flat u = before := by
  generalize hoctets : before ++ b :: rest = octets
  induction octets using glyph_induction generalizing behind before with
  | nil => cases before <;> cases hoctets
  | char c more ih =>
      rcases List.append_eq_append_iff.1 hoctets with ⟨tail, hc, htail⟩ | ⟨tail, rfl, hmore⟩
      · cases tail with
        | nil =>
            rw [List.append_nil] at hc
            refine ⟨[⟨some c, encodeChar c, some c⟩], _, glyphsFrom_encodeChar_append _ _ _, ?_⟩
            simp [flat, hc]
        | cons b' tail =>
            obtain ⟨rfl, -⟩ := List.cons.inj htail
            rw [eq_nil_of_encodeChar_eq hb hc]
            exact ⟨[], _, rfl, rfl⟩
      · obtain ⟨u, v, huv, hu⟩ := ih tail ((encodeChar c).reverse ++ behind) hmore.symm
        refine ⟨⟨some c, encodeChar c, some c⟩ :: u, v, ?_, ?_⟩
        · rw [glyphsFrom_encodeChar_append, huv, List.cons_append]
        · rw [flat, List.flatMap_cons]
          exact congrArg (encodeChar c ++ ·) hu
  | octet b' more hfirst ih =>
      cases before with
      | nil => exact ⟨[], _, rfl, rfl⟩
      | cons b'' before =>
          obtain ⟨rfl, hmore⟩ := List.cons.inj hoctets
          obtain ⟨u, v, huv, hu⟩ := ih before (b'' :: behind) hmore
          refine ⟨⟨none, [b''], lastChar? (b'' :: behind)⟩ :: u, v, ?_, ?_⟩
          · rw [glyphsFrom_cons hfirst, huv, List.cons_append]
          · rw [flat, List.flatMap_cons]
            exact congrArg (b'' :: ·) hu

/-- The glyph of an ASCII octet. -/
def asciiGlyph (b : UInt8) : Glyph :=
  ⟨some (Char.ofNat b.toNat), [b], some (Char.ofNat b.toNat)⟩

theorem flat_asciiGlyphs (octets : List UInt8) : flat (octets.map asciiGlyph) = octets := by
  induction octets with
  | nil => rfl
  | cons b octets ih => exact congrArg (b :: ·) ih

/-- ASCII octets are glyphs one by one. -/
theorem glyphsFrom_append_of_isAscii {octets : List UInt8} (h : ∀ b ∈ octets, isAscii b = true)
    (behind rest : List UInt8) :
    glyphsFrom behind 0 (octets ++ rest) =
      octets.map asciiGlyph ++ glyphsFrom (octets.reverse ++ behind) 0 rest := by
  induction octets generalizing behind with
  | nil => rfl
  | cons b octets ih =>
      have hb := encodeChar_ofNat (h b List.mem_cons_self)
      have hglyph := glyphsFrom_encodeChar_append behind (Char.ofNat b.toNat) (octets ++ rest)
      have hrest := ih (fun b' hb' => h b' (List.mem_cons_of_mem _ hb')) (b :: behind)
      rw [hb] at hglyph
      simpa [hrest, asciiGlyph] using hglyph

end SourceIndex.Text.Utf8
