import Mathlib.Order.Bounds.Basic
import SourceIndex.Proofs.Lines.Configuration

/-!
# Keys and blocks of YAML

A key ends at the first colon that a blank of ASCII or the end of the line follows, so neither the
colons in a key nor those in its value matter, and blanks may stand before that colon.  The value
tells whether a block starts: where there is none, or a comment or an anchor in its place.

A block of YAML goes on over the lines that are indented further, and over those that say nothing,
and ends on the last one that says something.  So no line that says something in the first column
lies in a block that begins there: neither a line with a key, nor the one that opens the list of
stages.  The blocks of a file follow one another, and those of a GitLab pipeline do not reach into
the stages behind them.
-/

namespace SourceIndex

namespace Idiom.YAML

/-! ## Keys -/

/-- Keys start with a character from the hyphen to the last small letter. -/
theorem code_of_startsKey {c : Char} (h : startsKey c = true) :
    0x2D ≤ c.toNat ∧ c.toNat ≤ 0x7A := by
  simp only [startsKey, Bool.or_eq_true, beq_iff_eq] at h
  rcases h with (((h | rfl) | rfl) | rfl) | rfl
  · delta Char.isAlphanum Char.isAlpha Char.isUpper Char.isLower Char.isDigit at h
    simp only [Bool.or_eq_true, Bool.and_eq_true, decide_eq_true_eq, ge_iff_le,
      UInt32.le_iff_toNat_le] at h
    have hcode : ((65 ≤ c.toNat ∧ c.toNat ≤ 90) ∨ (97 ≤ c.toNat ∧ c.toNat ≤ 122)) ∨
        (48 ≤ c.toNat ∧ c.toNat ≤ 57) := h
    omega
  all_goals decide

theorem isBlank_of_startsKey {c : Char} (h : startsKey c = true) : Text.isBlank c = false := by
  have hcode := code_of_startsKey h
  simp only [Text.isBlank, Bool.or_eq_false_iff, Bool.and_eq_false_iff, beq_eq_false_iff_ne,
    decide_eq_false_iff_not]
  omega

/-- Is no colon in a text followed by a separator in it? -/
def HasNoSplit (text : List Char) : Prop :=
  ∀ start c rest, text = start ++ ':' :: c :: rest → isSeparator c = false

theorem hasNoSplit_nil : HasNoSplit [] :=
  fun _ _ _ h => absurd h.symm (List.append_ne_nil_of_right_ne_nil _ (List.cons_ne_nil _ _))

theorem hasNoSplit_cons_iff {c : Char} {text : List Char} :
    HasNoSplit (c :: text) ↔
      (c = ':' → ∀ next ∈ text.head?, isSeparator next = false) ∧ HasNoSplit text := by
  constructor
  · intro h
    refine ⟨fun hc next hnext => ?_, fun start next rest htext => ?_⟩
    · obtain ⟨rest, rfl⟩ := List.head?_eq_some_iff.1 hnext
      exact h [] next rest (by rw [hc]; rfl)
    · exact h (c :: start) next rest (by rw [htext]; rfl)
  · rintro ⟨hhead, htail⟩ start next rest htext
    cases start with
    | nil =>
        obtain ⟨rfl, rfl⟩ := List.cons.inj htext
        exact hhead rfl next rfl
    | cons c' start => exact htail start next rest (List.cons.inj htext).2

theorem hasNoSplit_of_notMem {text : List Char} (h : ':' ∉ text) : HasNoSplit text := by
  rintro start c rest rfl
  exact absurd (List.mem_append_right start List.mem_cons_self) h

theorem HasNoSplit.of_append {text rest : List Char} (h : HasNoSplit (text ++ rest)) :
    HasNoSplit text := by
  intro start c behind htext
  exact h start c (behind ++ rest) (by rw [htext, List.append_assoc]; rfl)

/-- A line is split at its first colon that a separator or the end follows. -/
theorem splitKey?_eq_some_iff {line name value : List Char} :
    splitKey? line = some (name, value) ↔
      line = name ++ ':' :: value ∧ value.head?.all isSeparator = true ∧ HasNoSplit name := by
  induction line generalizing name with
  | nil =>
      refine iff_of_false nofun fun h => ?_
      exact absurd h.1.symm (List.append_ne_nil_of_right_ne_nil _ (List.cons_ne_nil _ _))
  | cons c line ih =>
      rw [splitKey?]
      split
      · rename_i hhere
        simp only [Bool.and_eq_true, beq_iff_eq] at hhere
        obtain ⟨rfl, hnext⟩ := hhere
        constructor
        · rintro ⟨⟩
          exact ⟨rfl, hnext, hasNoSplit_nil⟩
        · rintro ⟨hline, -, hname⟩
          cases name with
          | nil =>
              obtain ⟨-, rfl⟩ := List.cons.inj hline
              rfl
          | cons c' name =>
              -- What follows the colon in the name is a separator and none.
              obtain ⟨rfl, rfl⟩ := List.cons.inj hline
              cases name with
              | nil => cases hnext
              | cons next name =>
                  have hnone := (hasNoSplit_cons_iff.1 hname).1 rfl next rfl
                  exact absurd (hnone.symm.trans hnext) Bool.false_ne_true
      · rename_i hhere
        rw [Option.map_eq_some_iff]
        constructor
        · rintro ⟨⟨start, rest⟩, hsplit, heq⟩
          cases heq
          obtain ⟨rfl, hvalue, hstart⟩ := ih.1 hsplit
          refine ⟨rfl, hvalue, hasNoSplit_cons_iff.2 ⟨fun hc next hnext => ?_, hstart⟩⟩
          obtain ⟨rest', rfl⟩ := List.head?_eq_some_iff.1 hnext
          simpa [hc] using hhere
        · rintro ⟨hline, hvalue, hname⟩
          cases name with
          | nil =>
              obtain ⟨rfl, rfl⟩ := List.cons.inj hline
              exact absurd (by rw [hvalue]; rfl) hhere
          | cons c' name =>
              obtain ⟨rfl, hrest⟩ := List.cons.inj hline
              exact ⟨(name, value), ih.2 ⟨hrest, hvalue, (hasNoSplit_cons_iff.1 hname).2⟩, rfl⟩

/-- A key and the end of its line are told by how the line is split. -/
theorem topKey?_eq_some_iff {text : List Char} {k : TopKey} :
    topKey? text = some k ↔
      (∃ c rest, text = c :: rest ∧ startsKey c = true) ∧ "- ".toList.isPrefixOf text = false ∧
        ∃ name value, splitKey? text = some (name, value) ∧ Text.Chars.trimEnd name ≠ [] ∧
          '#' ∉ Text.Chars.trimEnd name ∧
          k = ⟨String.ofList (Text.Chars.trimEnd name), opensBlock value⟩ := by
  constructor
  · intro h
    obtain ⟨c, hc, h⟩ := Option.bind_eq_some_iff.1 h
    obtain ⟨rest, rfl⟩ : ∃ rest, text = c :: rest := List.head?_eq_some_iff.1 hc
    dsimp only at h
    split at h
    · cases h
    · rename_i hstart
      simp only [Bool.or_eq_true, Bool.not_eq_true', not_or, Bool.not_eq_true, Bool.not_eq_false]
        at hstart
      obtain ⟨⟨name, value⟩, hsplit, h⟩ := Option.bind_eq_some_iff.1 h
      dsimp only at h
      split at h
      · cases h
      · rename_i hname
        simp only [Bool.or_eq_true, List.isEmpty_iff, List.contains_iff_mem, not_or] at hname
        obtain rfl := Option.some.inj h
        exact ⟨⟨c, rest, rfl, hstart.1⟩, hstart.2, name, value, hsplit, hname.1, hname.2, rfl⟩
  · rintro ⟨⟨c, rest, rfl, hc⟩, hitem, name, value, hsplit, hempty, hcomment, rfl⟩
    have hname : ((Text.Chars.trimEnd name).isEmpty || (Text.Chars.trimEnd name).contains '#') =
        false := by
      simp [hempty, hcomment]
    rw [topKey?, List.head?_cons, hsplit, hitem, Option.bind_eq_bind, Option.bind_some, hc,
      if_neg (by decide)]
    exact if_neg (by rw [hname]; exact Bool.false_ne_true)

/-- A key as it is written before its colon. -/
structure IsKey (key : List Char) : Prop where
  starts : ∃ c rest, key = c :: rest ∧ startsKey c = true
  notItem : ¬"- ".toList <+: key
  ends : ∀ c ∈ key.getLast?, Text.isBlank c = false
  noComment : '#' ∉ key
  noSplit : HasNoSplit key

/-- A line of a key, the blanks before its colon, and what follows the colon. -/
structure IsKeyLine (line key blanks value : List Char) : Prop where
  line_eq : line = key ++ blanks ++ ':' :: value
  isKey : IsKey key
  blank : ∀ c ∈ blanks, Text.isBlank c = true
  notItem : ¬"- ".toList <+: key ++ blanks
  noSplit : HasNoSplit (key ++ blanks)
  separated : value.head?.all isSeparator = true

/-- A key without blanks behind it may stand on a line before anything that a separator starts. -/
theorem IsKey.isKeyLine {key value : List Char} (h : IsKey key)
    (hvalue : value.head?.all isSeparator = true) :
    IsKeyLine (key ++ ':' :: value) key [] value where
  line_eq := by rw [List.append_nil]
  isKey := h
  blank := nofun
  notItem := by rw [List.append_nil]; exact h.notItem
  noSplit := by rw [List.append_nil]; exact h.noSplit
  separated := hvalue

/-- A line that starts as an item of a list does so in what stands before a colon, unless nothing
stands there. -/
theorem isPrefix_of_isPrefix_append_colon {text value : List Char} (hne : text ≠ [])
    (h : "- ".toList <+: text ++ ':' :: value) : "- ".toList <+: text := by
  obtain ⟨rest, hrest⟩ := h
  match text, hne with
  | [c], _ => cases (List.cons.inj (List.cons.inj hrest).2).1
  | c :: next :: text, _ =>
      obtain ⟨rfl, htail⟩ := List.cons.inj hrest
      obtain ⟨rfl, -⟩ := List.cons.inj htail
      exact List.prefix_append ['-', ' '] text

/-- The lines with keys are told by their form. -/
theorem topKey?_eq_some_iff_isKeyLine {line : List Char} {k : TopKey} :
    topKey? line = some k ↔ ∃ key blanks value, IsKeyLine line key blanks value ∧
      k = ⟨String.ofList key, opensBlock value⟩ := by
  rw [topKey?_eq_some_iff]
  constructor
  · rintro ⟨⟨c, rest, htext, hc⟩, hitem, name, value, hsplit, hempty, hcomment, rfl⟩
    obtain ⟨hline, hvalue, hname⟩ := splitKey?_eq_some_iff.1 hsplit
    obtain ⟨hends, blanks, hblanks, htrim⟩ := Text.Chars.trimEnd_eq_iff.1
      (rfl : Text.Chars.trimEnd name = _)
    have hnotItem : ¬"- ".toList <+: name := fun hprefix => by
      refine absurd (List.isPrefixOf_iff_prefix.2 ?_) (Bool.eq_false_iff.1 hitem)
      exact hline ▸ hprefix.trans (List.prefix_append name _)
    have hstarts : ∃ c rest, Text.Chars.trimEnd name = c :: rest ∧ startsKey c = true := by
      obtain ⟨first, behind, hfirst⟩ := List.exists_cons_of_ne_nil hempty
      rw [hline, htrim, hfirst] at htext
      exact ⟨first, behind, hfirst, (List.cons.inj htext).1 ▸ hc⟩
    have hkey : IsKey (Text.Chars.trimEnd name) :=
      { starts := hstarts
        notItem := fun hprefix => hnotItem (htrim ▸ hprefix.trans (List.prefix_append _ blanks))
        ends := hends
        noComment := hcomment
        noSplit := HasNoSplit.of_append (htrim ▸ hname) }
    refine ⟨Text.Chars.trimEnd name, blanks, value, ?_, rfl⟩
    exact
      { line_eq := htrim ▸ hline
        isKey := hkey
        blank := hblanks
        notItem := htrim ▸ hnotItem
        noSplit := htrim ▸ hname
        separated := hvalue }
  · rintro ⟨key, blanks, value, h, rfl⟩
    obtain ⟨c, rest, hkey, hc⟩ := h.isKey.starts
    have htrim : Text.Chars.trimEnd (key ++ blanks) = key :=
      Text.Chars.trimEnd_eq_iff.2 ⟨h.isKey.ends, blanks, h.blank, rfl⟩
    refine ⟨⟨c, rest ++ blanks ++ ':' :: value, by rw [h.line_eq, hkey]; rfl, hc⟩, ?_,
      key ++ blanks, value, splitKey?_eq_some_iff.2 ⟨h.line_eq, h.separated, h.noSplit⟩, ?_, ?_, ?_⟩
    · refine Bool.eq_false_iff.2 fun hitem => h.notItem ?_
      have hprefix := h.line_eq ▸ List.isPrefixOf_iff_prefix.1 hitem
      exact isPrefix_of_isPrefix_append_colon (by rw [hkey]; exact List.cons_ne_nil _ _) hprefix
    · rw [htrim, hkey]
      exact List.cons_ne_nil _ _
    · rw [htrim]
      exact h.isKey.noComment
    · rw [htrim]

/-! ## Values that open a block -/

/-- What starts a block in the place of a value: nothing, a comment, or an anchor, behind which
another comment may stand. -/
inductive StartsBlock : List Char → Prop
  | nothing {blanks : List Char} (hblanks : ∀ c ∈ blanks, Text.isBlank c = true) :
      StartsBlock blanks
  | comment {before : List Char} (hbefore : ∀ c ∈ before, Text.isBlank c = true)
      (text : List Char) : StartsBlock (before ++ '#' :: text)
  | anchor {before name behind : List Char} (hbefore : ∀ c ∈ before, Text.isBlank c = true)
      (hname : ∀ c ∈ name, Text.isBlank c = false)
      (hbehind : ∀ c ∈ behind, Text.isBlank c = true) :
      StartsBlock (before ++ '&' :: (name ++ behind))
  | anchorComment {before name gap : List Char} (hbefore : ∀ c ∈ before, Text.isBlank c = true)
      (hname : ∀ c ∈ name, Text.isBlank c = false) (hgap : ∀ c ∈ gap, Text.isBlank c = true)
      (hne : gap ≠ []) (text : List Char) :
      StartsBlock (before ++ '&' :: (name ++ gap ++ '#' :: text))

theorem StartsBlock.opensBlock {value : List Char} (h : StartsBlock value) :
    opensBlock value = true := by
  cases h with
  | nothing hblanks =>
      have htrim : Text.Chars.trim value = [] := by
        rw [Text.Chars.trim, Text.Chars.trimStart, Text.Chars.trimStartWhere,
          List.dropWhile_eq_nil_iff.2 hblanks]
        rfl
      rw [YAML.opensBlock, htrim]
  | comment hbefore text =>
      rw [YAML.opensBlock, Text.Chars.trim_append_cons hbefore (by decide)]
      rfl
  | @anchor before name behind hbefore hname hbehind =>
      have htrim : Text.Chars.trimEnd (name ++ behind) = name :=
        Text.Chars.trimEnd_eq_iff.2
          ⟨fun c hc => hname c (List.mem_of_getLast? hc), behind, hbehind, rfl⟩
      have hword : name.dropWhile (fun c => !Text.isBlank c) = [] :=
        List.dropWhile_eq_nil_iff.2 fun c hc => by rw [hname c hc]; rfl
      rw [YAML.opensBlock, Text.Chars.trim_append_cons hbefore (by decide), htrim]
      dsimp only
      rw [Text.Chars.words_cons (by decide), hword]
      rfl
  | @anchorComment before name gap hbefore hname hgap hne text =>
      obtain ⟨b, gap', rfl⟩ := List.exists_cons_of_ne_nil hne
      have hword : (name ++ b :: gap' ++ '#' :: Text.Chars.trimEnd text).dropWhile
          (fun c => !Text.isBlank c) = b :: gap' ++ '#' :: Text.Chars.trimEnd text := by
        rw [List.append_assoc, List.dropWhile_append_of_pos fun c hc => by rw [hname c hc]; rfl]
        refine List.dropWhile_cons_of_neg ?_
        rw [hgap b List.mem_cons_self]
        exact Bool.false_ne_true
      rw [YAML.opensBlock, Text.Chars.trim_append_cons hbefore (by decide),
        Text.Chars.trimEnd_append_cons (by decide)]
      dsimp only
      rw [Text.Chars.words_cons (by decide), hword, Text.Chars.words_append hgap,
        Text.Chars.words_cons (by decide)]
      rfl

/-- Behind an anchor the next word tells whether a block starts. -/
theorem startsBlock_of_anchor {before rest behind : List Char}
    (hbefore : ∀ c ∈ before, Text.isBlank c = true) (hbehind : ∀ c ∈ behind, Text.isBlank c = true)
    (hnext : (Text.Chars.words (rest.dropWhile fun c => !Text.isBlank c)).head?.all
      (fun word => word.head? == some '#') = true) :
    StartsBlock (before ++ '&' :: (rest ++ behind)) := by
  have hname : ∀ c ∈ rest.takeWhile fun c => !Text.isBlank c, Text.isBlank c = false :=
    fun c hc => Bool.not_eq_true' _ ▸ List.all_eq_true.1 List.all_takeWhile c hc
  have hstop := List.head?_dropWhile_not (fun c => !Text.isBlank c) rest
  rw [← List.takeWhile_append_dropWhile (p := fun c => !Text.isBlank c) (l := rest)]
  generalize rest.takeWhile (fun c => !Text.isBlank c) = name at hname ⊢
  generalize rest.dropWhile (fun c => !Text.isBlank c) = tail at hnext hstop ⊢
  have hgap : ∀ c ∈ tail.takeWhile Text.isBlank, Text.isBlank c = true :=
    fun c hc => List.all_eq_true.1 List.all_takeWhile c hc
  have hword := List.head?_dropWhile_not Text.isBlank tail
  rw [← List.takeWhile_append_dropWhile (p := Text.isBlank) (l := tail)] at hnext hstop ⊢
  rw [Text.Chars.words_append hgap] at hnext
  generalize tail.takeWhile Text.isBlank = gap at hgap hstop ⊢
  -- The value is a name, a gap, and either nothing more or another word.
  cases hafter : tail.dropWhile Text.isBlank with
  | nil =>
      rw [List.append_nil, List.append_assoc]
      exact .anchor hbefore hname fun c hc => (List.mem_append.1 hc).elim (hgap c) (hbehind c)
  | cons c text =>
      rw [hafter] at hnext hstop hword
      rw [Text.Chars.words_cons hword] at hnext
      obtain rfl : c = '#' := Option.some.inj (beq_iff_eq.1 hnext)
      -- The name goes on as far as it can, so the other word is not a part of it.
      have hne : gap ≠ [] := by
        rintro rfl
        cases hstop
      have hvalue := StartsBlock.anchorComment hbefore hname hgap hne (text ++ behind)
      rwa [List.append_assoc, List.append_assoc, List.cons_append, ← List.append_assoc]

/-- The start of a block is told by the value without the blanks around it. -/
theorem opensBlock_iff {value : List Char} : opensBlock value = true ↔ StartsBlock value := by
  refine ⟨fun h => ?_, StartsBlock.opensBlock⟩
  obtain ⟨before, behind, hbefore, hbehind, hvalue⟩ := Text.Chars.exists_blanks_of_trim value
  rw [opensBlock] at h
  rw [hvalue]
  split at h
  · rename_i htrim
    rw [htrim, List.append_nil]
    exact .nothing fun c hc => (List.mem_append.1 hc).elim (hbefore c) (hbehind c)
  · rename_i c rest htrim
    rw [htrim, List.append_assoc, List.cons_append]
    simp only [Bool.or_eq_true, Bool.and_eq_true, beq_iff_eq] at h
    obtain hc | ⟨hc, hnext⟩ := h
    · rw [hc]
      exact .comment hbefore _
    · subst hc
      rw [Text.Chars.words_cons (by decide), List.drop_one, List.tail_cons] at hnext
      exact startsBlock_of_anchor hbefore hbehind hnext

/-- No value changes the key before it, a key alone opens a block, and only the lines of keys have
one.  Whether a block starts is told by the value. -/
theorem topKey?_reads_keys :
    (∀ key value, IsKey key → ∃ k, topKey? (key ++ ':' :: ' ' :: value) = some k ∧
      k.name = String.ofList key ∧ (k.isBlock = true ↔ StartsBlock value)) ∧
    (∀ key, IsKey key → topKey? (key ++ [':']) = some ⟨String.ofList key, true⟩) ∧
    ∀ line k, topKey? line = some k ↔ ∃ key blanks value, IsKeyLine line key blanks value ∧
      k.name = String.ofList key ∧ (k.isBlock = true ↔ StartsBlock value) := by
  refine ⟨fun key value h => ?_, fun key h => ?_, fun line k => ?_⟩
  · have hline : IsKeyLine (key ++ ':' :: ' ' :: value) key [] (' ' :: value) := h.isKeyLine rfl
    have hblock : opensBlock (' ' :: value) = true ↔ StartsBlock value := by
      rw [← opensBlock_iff]
      rfl
    exact ⟨_, topKey?_eq_some_iff_isKeyLine.2 ⟨key, [], _, hline, rfl⟩, rfl, hblock⟩
  · exact topKey?_eq_some_iff_isKeyLine.2 ⟨key, [], [], h.isKeyLine rfl, rfl⟩
  · obtain ⟨name, isBlock⟩ := k
    rw [topKey?_eq_some_iff_isKeyLine]
    simp only [← opensBlock_iff, Bool.coe_iff_coe, TopKey.mk.injEq]

/-- The colons of an address are part of the value. -/
theorem homepage_key :
    IsKey "homepage".toList ∧ ¬StartsBlock "https://example.com:8443/docs".toList ∧
      topKey? "homepage: https://example.com:8443/docs".toList = some ⟨"homepage", false⟩ := by
  have hkey : IsKey "homepage".toList :=
    { starts := ⟨_, _, rfl, by decide⟩
      notItem := by decide
      ends := by
        rintro c ⟨⟩
        rfl
      noComment := by decide
      noSplit := hasNoSplit_of_notMem (by decide) }
  have hvalue : ¬StartsBlock "https://example.com:8443/docs".toList :=
    mt opensBlock_iff.2 (by decide)
  obtain ⟨⟨name, isBlock⟩, hread, hname, hblock⟩ :=
    topKey?_reads_keys.1 _ "https://example.com:8443/docs".toList hkey
  dsimp only at hname hblock
  rw [hname, Bool.eq_false_iff.2 (mt hblock.1 hvalue)] at hread
  exact ⟨hkey, hvalue, hread⟩

/-- A blank may stand between a key and its colon. -/
theorem key_before_blank :
    topKey? "a : b".toList = some ⟨"a", false⟩ ∧
      ¬∃ key value, IsKey key ∧
        ("a : b".toList = key ++ ':' :: ' ' :: value ∨ "a : b".toList = key ++ [':']) := by
  have hread : topKey? "a : b".toList = some ⟨"a", false⟩ := by decide
  refine ⟨hread, ?_⟩
  rintro ⟨key, value, hkey, hline⟩
  -- Either form has the key that was read, and it is not in front of a colon.
  obtain ⟨behind, hbehind, hform⟩ : ∃ behind : List Char, behind.head?.all isSeparator = true ∧
      "a : b".toList = key ++ ':' :: behind :=
    hline.elim (fun h => ⟨' ' :: value, rfl, h⟩) fun h => ⟨[], rfl, h⟩
  have hother := topKey?_eq_some_iff_isKeyLine.2 ⟨key, [], behind, hkey.isKeyLine hbehind, rfl⟩
  rw [← hform, hread, Option.some.injEq, TopKey.mk.injEq] at hother
  obtain rfl : key = ['a'] := (String.ofList_injective hother.1).symm
  cases (List.cons.inj (List.cons.inj hform).2).1

/-- A line that starts with neither a blank nor a comment says something, and is not indented. -/
theorem content_cons {c : Char} (hblank : Text.isBlank c = false) (hcomment : c ≠ '#')
    (rest : List Char) : isContent (c :: rest) = true ∧ indent (c :: rest) = 0 := by
  constructor
  · have htrim : Text.Chars.trim (c :: rest) = c :: Text.Chars.trimEnd rest :=
      Text.Chars.trim_append_cons (List.forall_mem_nil _) hblank rest
    rw [isContent, htrim]
    exact bne_iff_ne.2 hcomment
  · rw [indent, List.takeWhile_cons_of_neg (by rw [hblank]; exact Bool.false_ne_true)]
    rfl

/-- A line with a key says something, and is not indented. -/
theorem content_of_topKey? {text : List Char} {k : TopKey} (h : topKey? text = some k) :
    isContent text = true ∧ indent text = 0 := by
  obtain ⟨⟨c, rest, rfl, hc⟩, -⟩ := topKey?_eq_some_iff.1 h
  apply content_cons (isBlank_of_startsKey hc)
  rintro rfl
  cases hc

/-- Does a line open the list of stages? -/
def OpensStages (text : List Char) : Prop :=
  Text.Chars.trimEnd text = "stages:".toList

/-- The line that opens the stages says something, and is not indented. -/
theorem OpensStages.content {text : List Char} (h : OpensStages text) :
    isContent text = true ∧ indent text = 0 := by
  obtain ⟨-, blanks, -, rfl⟩ := Text.Chars.trimEnd_eq_iff.1 h
  exact content_cons (by decide) (by decide) _

/-! ## Lines in blocks -/

/-- A line in a block says nothing or is indented further than the block is. -/
theorem indent_of_le_blockEndFrom {margin last number i : Nat} {after : List (List Char)}
    {text : List Char} (hlast : last < number) (htext : after[i]? = some text)
    (hend : number + i ≤ blockEndFrom margin last number after) (hcontent : isContent text = true) :
    margin < indent text := by
  induction after generalizing last number i with
  | nil => cases htext
  | cons line after ih =>
      rw [blockEndFrom] at hend
      cases i with
      | zero =>
          obtain rfl := Option.some.inj htext
          rw [hcontent, Bool.not_true, if_neg Bool.false_ne_true] at hend
          by_cases hindent : indent line ≤ margin
          · rw [if_pos hindent] at hend
            omega
          · omega
      | succ i =>
          -- The block ends before the first line, or goes on behind it to the line in question.
          split at hend
          · exact ih (Nat.lt_add_right 1 hlast) htext (by omega)
          · split at hend
            · omega
            · exact ih (Nat.lt_add_one number) htext (by omega)

/-- The lines from a number on have the texts in order, each with those behind it. -/
theorem exists_index_of_mem_linesFrom {number : Nat} {texts : List (List Char)} {line : Line}
    (h : line ∈ linesFrom number texts) :
    ∃ i, texts[i]? = some line.text ∧ line.number = number + i ∧
      line.after = texts.drop (i + 1) := by
  induction texts generalizing number with
  | nil => cases h
  | cons text after ih =>
      rcases List.mem_cons.1 h with rfl | h
      · exact ⟨0, rfl, rfl, rfl⟩
      · obtain ⟨i, htext, hnumber, hafter⟩ := ih h
        exact ⟨i + 1, htext, by omega, hafter⟩

variable {number : Nat} {texts : List (List Char)} {line other : Line}

theorem number_linesFrom_ge (h : line ∈ linesFrom number texts) : number ≤ line.number := by
  obtain ⟨i, -, hnumber, -⟩ := exists_index_of_mem_linesFrom h
  omega

theorem pairwise_linesFrom (number : Nat) (texts : List (List Char)) :
    (linesFrom number texts).Pairwise fun a b => a.number < b.number := by
  induction texts generalizing number with
  | nil => exact List.Pairwise.nil
  | cons text after ih =>
      exact List.pairwise_cons.2 ⟨fun line hline => number_linesFrom_ge hline, ih (number + 1)⟩

/-- A line is told by its number. -/
theorem eq_of_number_eq (h : line ∈ linesFrom number texts) (h' : other ∈ linesFrom number texts)
    (hnumber : line.number = other.number) : line = other := by
  obtain ⟨i, htext, hi, hafter⟩ := exists_index_of_mem_linesFrom h
  obtain ⟨j, htext', hj, hafter'⟩ := exists_index_of_mem_linesFrom h'
  obtain rfl : i = j := by omega
  have htexts : line.text = other.text := Option.some.inj (htext.symm.trans htext')
  calc line = ⟨line.number, line.text, line.after⟩ := rfl
    _ = ⟨other.number, other.text, other.after⟩ := by rw [hnumber, htexts, hafter, hafter']

theorem linesFrom_fit (texts : List (List Char)) :
    ∀ line ∈ linesFrom 1 texts, line.Fits texts.length := by
  intro line hline
  obtain ⟨hfirst, hlast⟩ := fits_of_mem_linesFrom (Nat.le_refl 1) hline
  exact ⟨hfirst, by omega⟩

/-- A block ends before any later line that says something and is not indented further. -/
theorem blockEnd_lt {margin : Nat} (h : line ∈ linesFrom number texts)
    (h' : other ∈ linesFrom number texts) (hbehind : line.number < other.number)
    (hcontent : isContent other.text = true) (hindent : indent other.text ≤ margin) :
    line.blockEnd margin < other.number := by
  obtain ⟨i, -, hi, hafter⟩ := exists_index_of_mem_linesFrom h
  obtain ⟨j, htext, hj, -⟩ := exists_index_of_mem_linesFrom h'
  have htext' : line.after[j - (i + 1)]? = some other.text := by
    rw [hafter, List.getElem?_drop, show i + 1 + (j - (i + 1)) = j by omega]
    exact htext
  by_contra hend
  have hupto : line.number + 1 + (j - (i + 1)) ≤
      blockEndFrom margin line.number (line.number + 1) line.after := by
    rw [Line.blockEnd] at hend
    omega
  have hinside := indent_of_le_blockEndFrom (Nat.lt_add_one line.number) htext' hupto hcontent
  omega

/-- A block in the first column ends before any later line with a key. -/
theorem blockEnd_lt_of_topKey? {k : TopKey} (h : line ∈ linesFrom number texts)
    (h' : other ∈ linesFrom number texts) (hbehind : line.number < other.number)
    (hkey : topKey? other.text = some k) : line.blockEnd 0 < other.number := by
  obtain ⟨hcontent, hindent⟩ := content_of_topKey? hkey
  exact blockEnd_lt h h' hbehind hcontent (Nat.le_of_eq hindent)

/-- The block that a line opens has no key on a later line. -/
theorem topKey?_of_le_blockEnd (h : line ∈ linesFrom number texts)
    (h' : other ∈ linesFrom number texts) (hbehind : line.number < other.number)
    (hend : other.number ≤ line.blockEnd 0) : topKey? other.text = none := by
  cases hkey : topKey? other.text with
  | none => rfl
  | some k =>
      have hlt := blockEnd_lt_of_topKey? h h' hbehind hkey
      omega

/-! ## The end of a block -/

section

variable {margin last number i : Nat} {before after : List (List Char)} {text gap : List Char}

/-- A block ends on its first line, or on a line behind it that says something. -/
theorem blockEndFrom_cases (margin last number : Nat) (after : List (List Char)) :
    blockEndFrom margin last number after = last ∨
      ∃ i text, blockEndFrom margin last number after = number + i ∧ after[i]? = some text ∧
        isContent text = true := by
  induction after generalizing last number with
  | nil => exact Or.inl rfl
  | cons line after ih =>
      -- What holds of the lines behind the first one holds of all of them, one index further on.
      have hbehind : ∀ {b}, (∃ i text, b = number + 1 + i ∧ after[i]? = some text ∧
          isContent text = true) → ∃ i text, b = number + i ∧ (line :: after)[i]? = some text ∧
            isContent text = true := by
        rintro b ⟨i, text, rfl, htext, hcontent⟩
        exact ⟨i + 1, text, by omega, htext, hcontent⟩
      rw [blockEndFrom]
      split
      · exact (ih last (number + 1)).imp_right hbehind
      · rename_i hcontent
        split
        · exact Or.inl rfl
        · rcases ih number (number + 1) with hend | hend
          · exact Or.inr ⟨0, line, hend, rfl, by simpa using hcontent⟩
          · exact Or.inr (hbehind hend)

theorem last_le_blockEndFrom (h : last < number) (after : List (List Char)) :
    last ≤ blockEndFrom margin last number after := by
  rcases blockEndFrom_cases margin last number after with hend | ⟨i, text, hend, -⟩ <;> omega

/-- A block reaches as far as its lines that say something are indented further than it is. -/
theorem le_blockEndFrom (hlast : last < number) (htext : after[i]? = some text)
    (hcontent : isContent text = true)
    (hinside : ∀ j ≤ i, ∀ t, after[j]? = some t → isContent t = true → margin < indent t) :
    number + i ≤ blockEndFrom margin last number after := by
  induction after generalizing last number i with
  | nil => cases htext
  | cons line after ih =>
      have hfirst : isContent line = true → margin < indent line :=
        hinside 0 (Nat.zero_le i) line rfl
      rw [blockEndFrom]
      cases i with
      | zero =>
          obtain rfl := Option.some.inj htext
          have hindent := hfirst hcontent
          rw [hcontent, Bool.not_true, if_neg Bool.false_ne_true, if_neg (by omega)]
          exact last_le_blockEndFrom (Nat.lt_add_one number) after
      | succ i =>
          have hrest : ∀ j ≤ i, ∀ t, after[j]? = some t → isContent t = true → margin < indent t :=
            fun j hj t ht => hinside (j + 1) (by omega) t ht
          split
          · have hend := ih (Nat.lt_add_right 1 hlast) htext hrest
            omega
          · rename_i hsays
            have hindent := hfirst (by simpa using hsays)
            rw [if_neg (by omega)]
            have hend := ih (Nat.lt_add_one number) htext hrest
            omega

/-- A block that begins one line further down ends one line further down. -/
theorem blockEndFrom_succ (margin last number : Nat) (after : List (List Char)) :
    blockEndFrom margin (last + 1) (number + 1) after =
      blockEndFrom margin last number after + 1 := by
  induction after generalizing last number with
  | nil => rfl
  | cons line after ih =>
      rw [blockEndFrom, blockEndFrom]
      split
      · exact ih last (number + 1)
      · split
        · rfl
        · exact ih number (number + 1)

/-- Behind a line that says nothing a block ends one line further down, unless it ends before. -/
theorem blockEndFrom_skip (hlast : last < number) (after : List (List Char)) :
    blockEndFrom margin last (number + 1) after =
      if blockEndFrom margin last number after < number then blockEndFrom margin last number after
      else blockEndFrom margin last number after + 1 := by
  induction after generalizing number with
  | nil => exact (if_pos hlast).symm
  | cons line after ih =>
      rw [blockEndFrom, blockEndFrom]
      split
      · rw [ih (Nat.lt_add_right 1 hlast)]
        -- The block does not end on the line itself, which says nothing.
        have hend : blockEndFrom margin last (number + 1) after < number + 1 ↔
            blockEndFrom margin last (number + 1) after < number := by
          rcases blockEndFrom_cases margin last (number + 1) after with hend | ⟨i, -, hend, -⟩ <;>
            omega
        simp only [hend]
      · split
        · rfl
        · have hle : number ≤ blockEndFrom margin number (number + 1) after :=
            last_le_blockEndFrom (Nat.lt_add_one number) after
          rw [if_neg (by omega), blockEndFrom_succ]

/-- A line that says nothing moves the end of a block if it stands before the end, and otherwise
leaves it where it is. -/
theorem blockEndFrom_insert (hgap : isContent gap = false) (hlast : last < number)
    (before after : List (List Char)) :
    blockEndFrom margin last number (before ++ gap :: after) =
      if blockEndFrom margin last number (before ++ after) < number + before.length then
        blockEndFrom margin last number (before ++ after)
      else blockEndFrom margin last number (before ++ after) + 1 := by
  induction before generalizing last number with
  | nil =>
      rw [List.nil_append, blockEndFrom, hgap, Bool.not_false, if_pos rfl]
      exact blockEndFrom_skip hlast after
  | cons line before ih =>
      have hlength : number + (line :: before).length = number + 1 + before.length := by
        rw [List.length_cons]
        omega
      rw [List.cons_append, List.cons_append, blockEndFrom, blockEndFrom, hlength]
      split
      · exact ih (Nat.lt_add_right 1 hlast)
      · split
        · rw [if_pos (by omega)]
        · exact ih (Nat.lt_add_one number)

/-- The last line of the block that the line with an index opens. -/
def blockEndAt (lines : List (List Char)) (start margin : Nat) : Nat :=
  Line.blockEnd ⟨start + 1, lines.getD start [], lines.drop (start + 1)⟩ margin

theorem blockEndAt_eq (lines : List (List Char)) (start margin : Nat) :
    blockEndAt lines start margin =
      blockEndFrom margin (start + 1) (start + 1 + 1) (lines.drop (start + 1)) :=
  rfl

theorem lt_blockEndAt (lines : List (List Char)) (start margin : Nat) :
    start < blockEndAt lines start margin :=
  last_le_blockEndFrom (Nat.lt_add_one (start + 1)) _

/-- May the block that the line with an index opens end on another one?  That line says something,
unless it is the first one, and all lines up to it that say something are indented further. -/
structure MayEnd (lines : List (List Char)) (start margin e : Nat) : Prop where
  start_le : start ≤ e
  content : e = start ∨ ∃ text, lines[e]? = some text ∧ isContent text = true
  inside : ∀ i text, start < i → i ≤ e → lines[i]? = some text → isContent text = true →
    margin < indent text

variable {lines : List (List Char)} {start e : Nat}

/-- The index of a line behind the first one of a block, counted from there. -/
theorem getElem?_drop_start (h : start < i) :
    (lines.drop (start + 1))[i - (start + 1)]? = lines[i]? := by
  rw [List.getElem?_drop]
  congr 1
  omega

/-- A block may end where it does. -/
theorem mayEnd_blockEndAt (lines : List (List Char)) (start margin : Nat) :
    MayEnd lines start margin (blockEndAt lines start margin - 1) := by
  have hstart := lt_blockEndAt lines start margin
  constructor
  · omega
  · rw [blockEndAt_eq] at hstart ⊢
    rcases blockEndFrom_cases margin (start + 1) (start + 1 + 1) (lines.drop (start + 1)) with
      hend | ⟨i, text, hend, htext, hcontent⟩
    · left
      omega
    · right
      rw [List.getElem?_drop] at htext
      have hindex : blockEndFrom margin (start + 1) (start + 1 + 1) (lines.drop (start + 1)) - 1 =
          start + 1 + i := by
        omega
      exact ⟨text, hindex ▸ htext, hcontent⟩
  · intro i text hi hend htext hcontent
    rw [← getElem?_drop_start hi] at htext
    rw [blockEndAt_eq] at hend hstart
    apply indent_of_le_blockEndFrom (Nat.lt_add_one (start + 1)) htext _ hcontent
    omega

/-- A block ends on no line before one on which it may end. -/
theorem MayEnd.lt_blockEndAt (h : MayEnd lines start margin e) :
    e < blockEndAt lines start margin := by
  have hstart := YAML.lt_blockEndAt lines start margin
  have hle := h.start_le
  by_cases heq : e = start
  · omega
  · obtain ⟨text, htext, hcontent⟩ := h.content.resolve_left heq
    have hlt : start < e := by omega
    rw [← getElem?_drop_start hlt] at htext
    have hend : start + 1 + 1 + (e - (start + 1)) ≤ blockEndAt lines start margin := by
      apply le_blockEndFrom (Nat.lt_add_one (start + 1)) htext hcontent
      intro j hj t ht
      rw [List.getElem?_drop] at ht
      exact h.inside _ t (by omega) (by omega) ht
    omega

/-- A line that says nothing, somewhere behind the first line of a block. -/
theorem blockEndAt_insert (hgap : isContent gap = false) (hstart : start < before.length)
    (after : List (List Char)) :
    blockEndAt (before ++ gap :: after) start margin =
      if blockEndAt (before ++ after) start margin ≤ before.length then
        blockEndAt (before ++ after) start margin
      else blockEndAt (before ++ after) start margin + 1 := by
  have hdrop : ∀ behind : List (List Char),
      (before ++ behind).drop (start + 1) = before.drop (start + 1) ++ behind :=
    fun behind => List.drop_append_of_le_length (by omega)
  have hlength : ∀ n, n < start + 1 + 1 + (before.drop (start + 1)).length ↔ n ≤ before.length := by
    intro n
    rw [List.length_drop]
    omega
  simp only [blockEndAt_eq, hdrop, ← hlength]
  exact blockEndFrom_insert hgap (Nat.lt_add_one (start + 1)) _ after

/-- The last line of a block is the last one on which it may end.  What says nothing neither ends a
block nor makes it longer: with one such line more behind its first one, the block still ends on the
line on which it ended. -/
theorem blockEnd_maximal (lines : List (List Char)) (start margin : Nat) :
    (∃ e, IsGreatest { e | MayEnd lines start margin e } e ∧
      blockEndAt lines start margin = e + 1) ∧
    (∀ line ∈ linesFrom 1 lines,
      line.blockEnd margin = blockEndAt lines (line.number - 1) margin) ∧
    ∀ before gap after, lines = before ++ after → start < before.length → isContent gap = false →
      blockEndAt (before ++ gap :: after) start margin =
        if blockEndAt lines start margin ≤ before.length then blockEndAt lines start margin
        else blockEndAt lines start margin + 1 := by
  constructor
  · have hstart := lt_blockEndAt lines start margin
    have hgreatest : ∀ e, MayEnd lines start margin e → e ≤ blockEndAt lines start margin - 1 :=
      fun e he => Nat.le_sub_one_of_lt he.lt_blockEndAt
    exact ⟨_, ⟨mayEnd_blockEndAt lines start margin, hgreatest⟩, by omega⟩
  constructor
  · intro line hline
    obtain ⟨i, htext, hnumber, hafter⟩ := exists_index_of_mem_linesFrom hline
    have hindex : line.number - 1 = i := by omega
    have hfirst : line.number = i + 1 := by omega
    rw [blockEndAt_eq, Line.blockEnd, hindex, hfirst, hafter]
  · rintro before gap after rfl hstart hgap
    exact blockEndAt_insert hgap hstart after

/-- A block with a comment and an empty line in it and behind it. -/
def commentedBlock : List (List Char) :=
  ["a:", "# b", "  c: 1", "", "  d: 2", " # e", "", "f:"].map String.toList

theorem commentedBlock_maximal :
    (∃ e, IsGreatest { e | MayEnd commentedBlock 0 0 e } e ∧
      blockEndAt commentedBlock 0 0 = e + 1) ∧
      blockEndAt commentedBlock 0 0 = 5 ∧
      (∀ line ∈ linesFrom 1 commentedBlock,
        line.blockEnd 0 = blockEndAt commentedBlock (line.number - 1) 0) ∧
      blockEndAt (commentedBlock.take 3 ++ "# x".toList :: commentedBlock.drop 3) 0 0 = 6 ∧
      blockEndAt (commentedBlock.take 5 ++ "# x".toList :: commentedBlock.drop 5) 0 0 = 5 := by
  have hend : blockEndAt commentedBlock 0 0 = 5 := by decide +kernel
  have hinsert := (blockEnd_maximal commentedBlock 0 0).2.2
  have hbefore := hinsert (commentedBlock.take 3) "# x".toList (commentedBlock.drop 3)
    (List.take_append_drop 3 _).symm (by decide) (by decide +kernel)
  have hbehind := hinsert (commentedBlock.take 5) "# x".toList (commentedBlock.drop 5)
    (List.take_append_drop 5 _).symm (by decide) (by decide +kernel)
  rw [hend] at hbefore hbehind
  exact ⟨(blockEnd_maximal commentedBlock 0 0).1, hend, (blockEnd_maximal commentedBlock 0 0).2.1,
    hbefore, hbehind⟩

end

/-! ## Lines in parts -/

theorem Section.next_eq_stages {s : Section} {text : List Char} (hs : s ≠ .stages)
    (h : s.next text = .stages) : OpensStages text := by
  unfold Section.next at h
  split at h
  · rename_i hopens
    exact beq_iff_eq.1 hopens
  · split at h
    · cases h
    · split at h
      · cases h
      · exact absurd h hs

/-- The lines of the list of stages stand behind the line that opens it. -/
theorem exists_opensStages {s : Section} {lines : List Line}
    (hordered : lines.Pairwise fun a b => a.number < b.number) (hs : s ≠ .stages)
    (h : (.stages, line) ∈ withSection s lines) :
    ∃ opener ∈ lines, opener.number ≤ line.number ∧ OpensStages opener.text := by
  induction lines generalizing s with
  | nil => cases h
  | cons first rest ih =>
      obtain ⟨hfirst, hrest⟩ := List.pairwise_cons.1 hordered
      by_cases hnext : s.next first.text = .stages
      · refine ⟨first, List.mem_cons_self, ?_, Section.next_eq_stages hs hnext⟩
        rcases List.mem_cons.1 h with heq | h
        · obtain ⟨-, rfl⟩ := Prod.mk.inj heq
          exact Nat.le_refl _
        · exact Nat.le_of_lt (hfirst line (mem_of_mem_withSection h))
      · rcases List.mem_cons.1 h with heq | h
        · exact absurd (congrArg Prod.fst heq).symm hnext
        · obtain ⟨opener, hmem, hle, hopens⟩ := ih hrest hnext h
          exact ⟨opener, List.mem_cons_of_mem first hmem, hle, hopens⟩

/-- Lines in order, of which the later one is one of the stages and the earlier one is not: the list
of stages is opened in between. -/
theorem pairwise_withSection {lines : List Line} (s : Section)
    (hordered : lines.Pairwise fun a b => a.number < b.number) :
    (withSection s lines).Pairwise fun a b => a.2.number < b.2.number ∧
      (a.1 ≠ .stages → b.1 = .stages → ∃ opener ∈ lines, a.2.number < opener.number ∧
        opener.number ≤ b.2.number ∧ OpensStages opener.text) := by
  induction lines generalizing s with
  | nil => exact List.Pairwise.nil
  | cons first rest ih =>
      obtain ⟨hfirst, hrest⟩ := List.pairwise_cons.1 hordered
      refine List.pairwise_cons.2 ⟨?_, ?_⟩
      · rintro ⟨part, line⟩ h
        refine ⟨hfirst line (mem_of_mem_withSection h), ?_⟩
        rintro hs rfl
        obtain ⟨opener, hmem, hle, hopens⟩ := exists_opensStages hrest hs h
        exact ⟨opener, List.mem_cons_of_mem first hmem, hfirst opener hmem, hle, hopens⟩
      · refine (ih (s.next first.text) hrest).imp fun h => ⟨h.1, fun hs hstages => ?_⟩
        obtain ⟨opener, hmem, hbetween⟩ := h.2 hs hstages
        exact ⟨opener, List.mem_cons_of_mem first hmem, hbetween⟩

end Idiom.YAML

open Idiom Idiom.YAML

namespace Declarations.YAML

/-! ## The order of declarations -/

variable {line other : Line} {n : Nat}

/-- Does a symbol stand before another one, from its first line to its last? -/
def Precedes (y z : Symbol) : Prop :=
  y.lineStart < z.lineStart ∧ y.lineEnd < z.lineStart

instance (y z : Symbol) : Decidable (Precedes y z) :=
  inferInstanceAs (Decidable (_ ∧ _))

theorem precedes_symbol (hline : line.Fits n) (hother : other.Fits n) (hsmall : n < 2 ^ 32)
    (hlt : line.number < other.number) {last last' : Nat} (hlast : last < other.number)
    {name name' signature signature' : String} {kind kind' : SymbolKind} :
    Precedes (symbol name kind line.number last signature)
      (symbol name' kind' other.number last' signature') := by
  have hfirst := hline.number_le
  have hsecond := hother.number_le
  have hstart : (symbol name' kind' other.number last' signature').lineStart.toNat = other.number :=
    Symbol.toNat_lineStart hother.first (by omega)
  constructor
  · rw [UInt32.lt_iff_toNat_lt, hstart]
    rw [symbol, Symbol.toNat_lineStart hline.first (by omega)]
    exact hlt
  · rw [UInt32.lt_iff_toNat_lt, hstart]
    rw [symbol, Symbol.toNat_lineEnd hline.first (by omega) (by omega)]
    omega

/-- What a line of a GitLab pipeline declares begins on it: a stage that ends on it, or the block of
its key. -/
theorem of_gitlabLine {s : Section} {y : Symbol} (h : gitlabLine s line = some y) :
    ∃ name kind last signature, y = symbol name kind line.number last signature ∧
      ((s = .stages ∧ last = line.number) ∨
        (s ≠ .stages ∧ last = line.blockEnd 0 ∧ ∃ k, topKey? line.text = some k)) := by
  unfold gitlabLine at h
  split at h
  · rename_i hstages
    obtain ⟨stage, -, rfl⟩ := Option.map_eq_some_iff.1 h
    exact ⟨_, _, _, _, rfl, Or.inl ⟨beq_iff_eq.1 hstages, rfl⟩⟩
  · rename_i hstages
    obtain ⟨k, hk, rfl⟩ := Option.map_eq_some_iff.1 h
    have hkey := (Option.filter_eq_some_iff.1 hk).1
    exact ⟨_, _, _, _, rfl, Or.inr ⟨fun hs => hstages (beq_iff_eq.2 hs), rfl, k, hkey⟩⟩

/-- What a line of any other file declares begins on it and ends on it or with the block of its
key. -/
theorem of_plainLine {y : Symbol} (h : plainLine line = some y) :
    (∃ k, topKey? line.text = some k) ∧ ∃ name last signature,
      y = symbol name .variable line.number last signature ∧
        (last = line.number ∨ last = line.blockEnd 0) := by
  obtain ⟨k, hkey, rfl⟩ := Option.map_eq_some_iff.1 h
  refine ⟨⟨k, hkey⟩, _, _, _, rfl, ?_⟩
  cases k.isBlock
  · exact Or.inl rfl
  · exact Or.inr rfl

/-- The declarations of a GitLab pipeline, and those of a file that is no pipeline, stand in the
order of their lines, and each of them ends before the next one begins. -/
theorem symbols_precede (texts : List (List Char)) (hsmall : texts.length < 2 ^ 32) :
    (gitlabSymbols (linesFrom 1 texts)).Pairwise Precedes ∧
      ((linesFrom 1 texts).filterMap plainLine).Pairwise Precedes := by
  have hordered := pairwise_linesFrom 1 texts
  have hfits := linesFrom_fit texts
  constructor
  · apply List.pairwise_filterMap.2
    refine List.Pairwise.imp_of_mem ?_ (pairwise_withSection .top hordered)
    rintro ⟨s, line⟩ ⟨s', other⟩ hline hother ⟨hlt, hbetween⟩ y hy z hz
    have hline : line ∈ linesFrom 1 texts := mem_of_mem_withSection hline
    have hother : other ∈ linesFrom 1 texts := mem_of_mem_withSection hother
    dsimp only at hlt hbetween
    obtain ⟨name, kind, last, signature, rfl, hlast⟩ := of_gitlabLine hy
    obtain ⟨name', kind', last', signature', rfl, hkind⟩ := of_gitlabLine hz
    apply precedes_symbol (hfits line hline) (hfits other hother) hsmall hlt
    rcases hlast with ⟨-, rfl⟩ | ⟨hs, rfl, -⟩
    · exact hlt
    · -- A block ends before the next key, and also before the stages are opened.
      rcases hkind with ⟨hstages, -⟩ | ⟨-, -, k, hkey⟩
      · obtain ⟨opener, hopener, hbehind, hle, hopens⟩ := hbetween hs hstages
        obtain ⟨hcontent, hindent⟩ := hopens.content
        have hend := blockEnd_lt hline hopener hbehind hcontent (Nat.le_of_eq hindent)
        omega
      · exact blockEnd_lt_of_topKey? hline hother hlt hkey
  · apply List.pairwise_filterMap.2
    refine List.Pairwise.imp_of_mem ?_ hordered
    rintro line other hline hother hlt y hy z hz
    obtain ⟨-, name, last, signature, rfl, hlast⟩ := of_plainLine hy
    obtain ⟨⟨k, hkey⟩, name', last', signature', rfl, -⟩ := of_plainLine hz
    have hend := blockEnd_lt_of_topKey? hline hother hlt hkey
    exact precedes_symbol (hfits line hline) (hfits other hother) hsmall hlt (by omega)

/-- A job with a comment behind it, before the list of stages. -/
def stagesBehindJob : List (List Char) :=
  ["a:", "  script: x", "# b", "", "stages:", "- build", "  - test", "c:", "  script: y"].map
    String.toList

theorem stagesBehindJob_precede :
    stagesBehindJob.length < 2 ^ 32 ∧
      (gitlabSymbols (linesFrom 1 stagesBehindJob)).map (fun y => (y.lineStart, y.lineEnd)) =
        [(1, 2), (6, 6), (7, 7), (8, 9)] ∧
      (gitlabSymbols (linesFrom 1 stagesBehindJob)).Pairwise Precedes ∧
        ((linesFrom 1 stagesBehindJob).filterMap plainLine).Pairwise Precedes := by
  have hsmall : stagesBehindJob.length < 2 ^ 32 := by decide
  exact ⟨hsmall, by decide +kernel, symbols_precede stagesBehindJob hsmall⟩

end Declarations.YAML

end SourceIndex
