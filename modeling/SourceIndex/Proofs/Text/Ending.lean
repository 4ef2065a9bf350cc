import Mathlib
import SourceIndex.Proofs.Text.Name
import SourceIndex.Text.Case
import SourceIndex.Text.Name

/-!
# Endings of paths

A path is its folders, the stem of its file name, and the ending behind the last dot of the name.
Written in lower case the ending is the one that the language is told by, and folders and stem are
as before.
-/

namespace SourceIndex.Text

/-! ## Letters in lower case -/

/-- Only letters change their case. -/
theorem toLower_eq_iff {c other : Char} (h : other.isAlpha = false) :
    c.toLower = other ↔ c = other := by
  by_cases hupper : c.isUpper = true
  · have halpha : c.isAlpha = true := Bool.or_eq_true_iff.2 (Or.inl hupper)
    have hlower : c.toLower.isAlpha = true := by rw [Char.isAlpha_toLower_eq_isAlpha, halpha]
    refine iff_of_false ?_ ?_
    · rintro rfl
      exact Bool.false_ne_true (h.symm.trans hlower)
    · rintro rfl
      exact Bool.false_ne_true (h.symm.trans halpha)
  · rw [Char.toLower_eq_of_not_isUpper hupper]

theorem lowerChar_eq {c : Char} (hdotted : c ≠ '\u0130') (hkelvin : c ≠ '\u212A') :
    lowerChar c = [c.toLower] := by
  unfold lowerChar
  split
  · exact absurd rfl hdotted
  · exact absurd rfl hkelvin
  · rfl

theorem lowerChar_toLower (c : Char) : lowerChar c.toLower = lowerChar c := by
  by_cases hspecial : c = '\u0130' ∨ c = '\u212A'
  · rcases hspecial with rfl | rfl <;> rfl
  · obtain ⟨hdotted, hkelvin⟩ := not_or.1 hspecial
    have hdotted' : c.toLower ≠ '\u0130' := mt (toLower_eq_iff (by decide)).1 hdotted
    have hkelvin' : c.toLower ≠ '\u212A' := mt (toLower_eq_iff (by decide)).1 hkelvin
    rw [lowerChar_eq hdotted hkelvin, lowerChar_eq hdotted' hkelvin',
      Char.toLower_toLower_eq_toLower]

/-! ## Taking a text apart at a character -/

namespace Chars

variable {c : Char} {before after text part : List Char} {p : Char → Bool}

theorem splitFirst?_append_cons (h : c ∉ before) :
    splitFirst? [c] (before ++ c :: after) = some (before, after) := by
  induction before with
  | nil => simp [splitFirst?, dropPrefix?, List.isPrefixOf?]
  | cons b before ih =>
      obtain ⟨hb, hbefore⟩ := not_or.1 (mt List.mem_cons.2 h)
      have hnone : dropPrefix? [c] (b :: (before ++ c :: after)) = none := by
        simp [dropPrefix?, List.isPrefixOf?, hb]
      rw [List.cons_append, splitFirst?, hnone, ih hbefore]
      rfl

theorem notMem_of_splitFirst? (h : splitFirst? [c] text = some (before, after)) : c ∉ before := by
  induction text generalizing before with
  | nil => cases h
  | cons b rest ih =>
      rw [splitFirst?] at h
      split at h
      · cases h
        exact List.not_mem_nil
      · rename_i hnone
        obtain ⟨⟨before', after'⟩, hrest, heq⟩ := Option.map_eq_some_iff.1 h
        cases heq
        have hb : c ≠ b := by
          rintro rfl
          simp [dropPrefix?, List.isPrefixOf?] at hnone
        exact fun hmem => (List.mem_cons.1 hmem).elim hb (ih hrest)

theorem splitLast?_append_cons (h : c ∉ after) :
    splitLast? [c] (before ++ c :: after) = some (before, after) := by
  have hreverse : (before ++ c :: after).reverse = after.reverse ++ c :: before.reverse := by
    rw [List.reverse_append, List.reverse_cons, List.append_assoc]
    rfl
  have hafter : c ∉ after.reverse := mt List.mem_reverse.1 h
  rw [splitLast?, hreverse, List.reverse_singleton, splitFirst?_append_cons hafter, Option.map_some]
  dsimp only
  rw [List.reverse_reverse, List.reverse_reverse]

theorem notMem_of_splitLast? (h : splitLast? [c] text = some (before, after)) : c ∉ after := by
  obtain ⟨⟨after', before'⟩, hsplit, heq⟩ := Option.map_eq_some_iff.1 h
  cases heq
  exact mt List.mem_reverse.1 (notMem_of_splitFirst? hsplit)

/-- What stands behind the last copy of a character does not depend on where it is looked for. -/
theorem eq_of_append_cons_suffix {front : List Char} (hafter : c ∉ after) (htext : c ∉ text)
    (h : (before ++ c :: after).isSuffixOf (front ++ c :: text)) : after = text := by
  obtain ⟨front', heq⟩ := List.isSuffixOf_iff_suffix.1 h
  have hsplit : splitLast? [c] (front ++ c :: text) = some (front, text) :=
    splitLast?_append_cons htext
  rw [← heq, ← List.append_assoc, splitLast?_append_cons hafter] at hsplit
  exact (Prod.mk.inj (Option.some.inj hsplit)).2

theorem splitWhereFrom_eq_singleton (h : ∀ c ∈ text, p c = false) :
    splitWhereFrom p part text = [part.reverse ++ text] := by
  induction text generalizing part with
  | nil => rw [splitWhereFrom, List.append_nil]
  | cons c rest ih =>
      obtain ⟨hc, hrest⟩ := List.forall_mem_cons.1 h
      rw [splitWhereFrom, hc, if_neg Bool.false_ne_true, ih hrest, List.reverse_cons,
        List.append_assoc]
      rfl

/-- The last part is the text behind the last character at which it is split. -/
theorem getLast?_splitWhereFrom (hc : p c = true) (h : ∀ b ∈ after, p b = false) :
    (splitWhereFrom p part (before ++ c :: after)).getLast? = some after := by
  induction before generalizing part with
  | nil =>
      rw [List.nil_append, splitWhereFrom, hc, if_pos rfl, splitWhereFrom_eq_singleton h]
      rfl
  | cons b before ih =>
      rw [List.cons_append, splitWhereFrom]
      split
      · rw [List.getLast?_cons, ih, Option.getD_some]
      · exact ih

end Chars

/-! ## The parts of a path -/

/-- Does a character end the name of a folder? -/
def endsFolder (c : Char) : Bool :=
  c == '/' || c == '\\'

theorem fileName_eq {path : String} {folder name : List Char} (hpath : path.toList = folder ++ name)
    (hfolder : ∀ c ∈ folder.getLast?, endsFolder c = true)
    (hname : ∀ c ∈ name, endsFolder c = false) : fileName path = String.ofList name := by
  have hlast : (Chars.splitWhere endsFolder path.toList).getLast? = some name := by
    rw [hpath]
    rcases List.eq_nil_or_concat' folder with rfl | ⟨front, c, rfl⟩
    · rw [List.nil_append, Chars.splitWhere, Chars.splitWhereFrom_eq_singleton hname]
      rfl
    · rw [List.getLast?_concat] at hfolder
      rw [List.append_assoc]
      exact Chars.getLast?_splitWhereFrom (hfolder c rfl) hname
  unfold fileName
  rw [List.getLastD_eq_getLast?]
  exact congrArg (fun last : Option (List Char) => String.ofList (last.getD [])) hlast

/-- The folders of a path, and its file name. -/
theorem exists_folder (path : String) : ∃ folder name, path.toList = folder ++ name ∧
    (∀ c ∈ folder.getLast?, endsFolder c = true) ∧ ∀ c ∈ name, endsFolder c = false := by
  let isPlain : Char → Bool := fun c => !endsFolder c
  refine ⟨path.toList.rdropWhile isPlain, path.toList.rtakeWhile isPlain,
    List.rdropWhile_append_rtakeWhile.symm, fun c hc => ?_, fun c hc => ?_⟩
  · obtain ⟨hne, rfl⟩ := List.mem_getLast?_eq_getLast hc
    have hlast := List.rdropWhile_last_not isPlain path.toList hne
    simpa [isPlain] using hlast
  · have hplain : isPlain c = true := List.mem_rtakeWhile_imp hc
    exact Bool.not_eq_eq_eq_not.mp hplain

/-- A path taken apart into its folders, the stem of its file name, and its ending. -/
structure Parts (path : String) (folder stem ending : List Char) : Prop where
  path_eq : path.toList = folder ++ (stem ++ '.' :: ending)
  folder_ends : ∀ c ∈ folder.getLast?, endsFolder c = true
  stem_ne_nil : stem ≠ []
  name_plain : ∀ c ∈ stem ++ '.' :: ending, endsFolder c = false
  ending_plain : '.' ∉ ending

namespace Parts

variable {path : String} {folder stem ending : List Char}

theorem splitLast?_fileName (h : Parts path folder stem ending) :
    splitLast? "." (fileName path) = some (String.ofList stem, String.ofList ending) := by
  have hdot : ".".toList = ['.'] := by decide
  have hname : (fileName path).toList = stem ++ '.' :: ending := by
    rw [fileName_eq h.path_eq h.folder_ends h.name_plain, String.toList_ofList]
  rw [splitLast?, hname, hdot, Chars.splitLast?_append_cons h.ending_plain]
  rfl

theorem isEmpty_stem (h : Parts path folder stem ending) :
    (String.ofList stem).isEmpty = false := by
  refine Bool.eq_false_iff.2 fun hempty => h.stem_ne_nil ?_
  have hnil := congrArg String.toList (String.isEmpty_iff.1 hempty)
  rwa [String.toList_ofList] at hnil

theorem extension?_eq (h : Parts path folder stem ending) :
    extension? path = some (String.ofList ('.' :: ending.map Char.toLower)) := by
  rw [extension?, h.splitLast?_fileName]
  dsimp only
  rw [h.isEmpty_stem, if_neg Bool.false_ne_true, extension?.lowerEnding, String.toList_ofList]

theorem fileStem_eq (h : Parts path folder stem ending) (hending : ending ≠ []) :
    fileStem path = String.ofList stem := by
  have hne : (fileName path == "..") = false := by
    refine beq_eq_false_iff_ne.2 fun heq => hending ?_
    have hlength := congrArg (fun name => name.toList.length) heq
    have htwo : "..".toList.length = 2 := by decide
    have hstem := List.length_pos_iff.2 h.stem_ne_nil
    rw [fileName_eq h.path_eq h.folder_ends h.name_plain] at hlength
    simp only [String.toList_ofList, List.length_append, List.length_cons, htwo] at hlength
    exact List.length_eq_zero_iff.1 (by omega)
  rw [fileStem, h.splitLast?_fileName]
  dsimp only
  rw [h.isEmpty_stem, hne, Bool.false_or, if_neg Bool.false_ne_true]

/-- A path that ends in a dot and a word has the word as its ending. -/
theorem eq_of_endsWith (h : Parts path folder stem ending) (front : List Char) {word : List Char}
    (hword : '.' ∉ word) (hends : endsWith (String.ofList (front ++ '.' :: word)) path = true) :
    word = ending := by
  rw [endsWith, h.path_eq, ← List.append_assoc, String.toList_ofList] at hends
  exact Chars.eq_of_append_cons_suffix hword h.ending_plain hends

/-- A path ends in a dot and a word exactly if this is its ending as it is written. -/
theorem endsWith_iff (h : Parts path folder stem ending) {word : String}
    (hdot : word.toList.head? = some '.') (hrest : '.' ∉ word.toList.tail) :
    endsWith word path = true ↔ String.ofList ('.' :: ending) = word := by
  obtain ⟨rest, hword⟩ := List.head?_eq_some_iff.1 hdot
  rw [hword, List.tail_cons] at hrest
  rw [← String.toList_inj, String.toList_ofList, hword, List.cons_inj_right]
  have heq : word = String.ofList ([] ++ '.' :: rest) := by
    rw [← String.toList_inj, String.toList_ofList, hword, List.nil_append]
  constructor
  · intro hends
    rw [heq] at hends
    exact (h.eq_of_endsWith [] hrest hends).symm
  · rintro rfl
    rw [endsWith, h.path_eq, hword, ← List.append_assoc]
    exact List.isSuffixOf_iff_suffix.2 (List.suffix_append _ _)

/-- A path ends in one of some such words exactly if its ending is among them. -/
theorem any_endsWith_iff (h : Parts path folder stem ending) {words : List String}
    (hwords : ∀ word ∈ words, word.toList.head? = some '.' ∧ '.' ∉ word.toList.tail) :
    (words.any fun word => endsWith word path) = true ↔ String.ofList ('.' :: ending) ∈ words := by
  rw [List.any_eq_true]
  constructor
  · rintro ⟨word, hmem, hends⟩
    rw [(h.endsWith_iff (hwords word hmem).1 (hwords word hmem).2).1 hends]
    exact hmem
  · intro hmem
    exact ⟨_, hmem, (h.endsWith_iff (hwords _ hmem).1 (hwords _ hmem).2).2 rfl⟩

/-- The parts of a path that has an ending. -/
theorem exists_of_extension? {found : String} (h : extension? path = some found) :
    ∃ folder stem ending, Parts path folder stem ending ∧
      found = String.ofList ('.' :: ending.map Char.toLower) := by
  obtain ⟨folder, name, hpath, hfolder, hname⟩ := exists_folder path
  rw [extension?, fileName_eq hpath hfolder hname] at h
  split at h
  · rename_i stem ending hsplit
    split at h
    · cases h
    · rename_i hstem
      obtain rfl := Option.some.inj h
      have hparts : name = stem.toList ++ '.' :: ending.toList := by
        have heq := congrArg String.toList (eq_append_of_splitLast? hsplit)
        simpa using heq
      have hending : '.' ∉ ending.toList := by
        obtain ⟨⟨stem', ending'⟩, hchars, heq⟩ := Option.map_eq_some_iff.1 hsplit
        cases heq
        rw [String.toList_ofList]
        exact Chars.notMem_of_splitLast? hchars
      refine ⟨folder, stem.toList, ending.toList, ⟨hparts ▸ hpath, hfolder, ?_, hparts ▸ hname,
        hending⟩, rfl⟩
      exact fun hnil => hstem (String.isEmpty_iff.2 (String.toList_eq_nil_iff.1 hnil))
  · cases h

end Parts

/-! ## Endings in lower case -/

/-- The path with its ending in lower case; a path without an ending stays as it is. -/
def withLowerEnding (path : String) : String :=
  match extension? path with
  | some ending => take (path.length - ending.length) path ++ ending
  | none => path

theorem endsFolder_toLower (c : Char) : endsFolder c.toLower = endsFolder c := by
  have hslash : (c.toLower = '/') = (c = '/') := propext (toLower_eq_iff (by decide))
  have hback : (c.toLower = '\\') = (c = '\\') := propext (toLower_eq_iff (by decide))
  rw [Bool.eq_iff_iff, endsFolder, endsFolder, Bool.or_eq_true, Bool.or_eq_true, beq_iff_eq,
    beq_iff_eq, beq_iff_eq, beq_iff_eq, hslash, hback]

namespace Parts

variable {path : String} {folder stem ending : List Char}

theorem toList_withLowerEnding (h : Parts path folder stem ending) :
    (withLowerEnding path).toList = folder ++ (stem ++ '.' :: ending.map Char.toLower) := by
  have hlength : path.length - (String.ofList ('.' :: ending.map Char.toLower)).length =
      (folder ++ stem).length := by
    rw [← String.length_toList, ← String.length_toList, h.path_eq, String.toList_ofList]
    simp only [List.length_append, List.length_cons, List.length_map]
    omega
  rw [withLowerEnding, h.extension?_eq]
  dsimp only
  rw [hlength, take, h.path_eq, ← List.append_assoc, List.take_left', String.toList_append,
    String.toList_ofList, String.toList_ofList, List.append_assoc]
  rfl

theorem lower (h : Parts path folder stem ending) :
    Parts (withLowerEnding path) folder stem (ending.map Char.toLower) where
  path_eq := h.toList_withLowerEnding
  folder_ends := h.folder_ends
  stem_ne_nil := h.stem_ne_nil
  name_plain := by
    have hplain := h.name_plain
    rw [List.forall_mem_append, List.forall_mem_cons] at hplain ⊢
    refine ⟨hplain.1, hplain.2.1, List.forall_mem_map.2 fun c hc => ?_⟩
    rw [endsFolder_toLower]
    exact hplain.2.2 c hc
  ending_plain := by
    intro hdot
    obtain ⟨c, hc, heq⟩ := List.mem_map.1 hdot
    obtain rfl := (toLower_eq_iff (by decide)).1 heq
    exact h.ending_plain hc

theorem withLowerEnding_eq_iff (h : Parts path folder stem ending) :
    withLowerEnding path = path ↔ ending.map Char.toLower = ending := by
  rw [← String.toList_inj, h.toList_withLowerEnding, h.path_eq, List.append_right_inj,
    List.append_right_inj, List.cons_inj_right]

end Parts

/-- The ending is found to be the same, and again in lower case. -/
theorem extension?_withLowerEnding (path : String) :
    extension? (withLowerEnding path) = extension? path := by
  cases h : extension? path with
  | none => rw [withLowerEnding, h]; exact h
  | some ending =>
      obtain ⟨folder, stem, ending, hparts, rfl⟩ := Parts.exists_of_extension? h
      have hidem : (ending.map Char.toLower).map Char.toLower = ending.map Char.toLower := by
        rw [List.map_map]
        exact List.map_congr_left fun c _ => Char.toLower_toLower_eq_toLower c
      rw [hparts.lower.extension?_eq, hidem]

/-- Comparisons that fold all letters see no difference. -/
theorem lower_withLowerEnding (path : String) : lower (withLowerEnding path) = lower path := by
  cases h : extension? path with
  | none => rw [withLowerEnding, h]
  | some ending =>
      obtain ⟨folder, stem, ending, hparts, rfl⟩ := Parts.exists_of_extension? h
      have hending : (ending.map Char.toLower).flatMap lowerChar = ending.flatMap lowerChar := by
        rw [List.flatMap_map]
        exact List.flatMap_congr fun c _ => lowerChar_toLower c
      rw [lower, lower, hparts.toList_withLowerEnding, hparts.path_eq]
      simp only [List.flatMap_append, List.flatMap_cons, hending]

end SourceIndex.Text
