import Mathlib.Data.List.Induction
import Mathlib.Data.List.TakeWhile
import SourceIndex.Idiom.ObjC
import SourceIndex.Proofs.Tree.Emission

/-!
# Selectors of methods

The selector of a method that takes parameters is spelled by keywords, one for each parameter, with
a colon behind each.  The keyword of a parameter is the word that labels it, if one does.

The children of a method are read from left to right, with what was spelled so far at hand: keywords
that are closed by a colon, and behind them a word that no parameter has closed yet.  A parameter
closes one keyword, and takes the word directly behind it for the next; so there are as many colons
as parameters, whatever else stands between them.

Words are taken up (a place for them is called heard) before all parameters and directly behind one.
A first word that stands elsewhere labels the parameter behind it, and is left out.
-/

namespace SourceIndex

namespace Place

variable {p c : Place}

theorem siblingsBefore_of_siblingsFrom {parent : Place} {before ns : List Node}
    {front behind : List Place} (h : siblingsFrom parent before ns = front ++ c :: behind) :
    c.siblingsBefore = front.reverse ++ siblingsBack parent before := by
  induction front generalizing before ns with
  | nil =>
      cases ns with
      | nil => cases h
      | cons n ns =>
          obtain ⟨rfl, -⟩ := List.cons.inj h
          rfl
  | cons q front ih =>
      cases ns with
      | nil => cases h
      | cons n ns =>
          obtain ⟨rfl, hrest⟩ := List.cons.inj h
          rw [ih hrest, List.reverse_cons, List.append_assoc]
          rfl

/-- The siblings before a child are the children before it, read backwards. -/
theorem siblingsBefore_eq {front behind : List Place} (h : p.children = front ++ c :: behind) :
    c.siblingsBefore = front.reverse := by
  rw [siblingsBefore_of_siblingsFrom h, siblingsBack, List.append_nil]

theorem previous?_eq (p : Place) : p.previous? = p.siblingsBefore.head? := by
  cases p with
  | root n => rfl
  | child q ns n => cases ns <;> rfl

end Place

namespace Idiom.ObjC

/-! ## Words and parameters -/

/-- Is a place a parameter of a method? -/
def isParameter (c : Place) : Bool :=
  c.kind == "method_parameter"

/-- Is a place a word, as those that selectors are spelled with? -/
def isWord (c : Place) : Bool :=
  c.kind == "identifier"

theorem not_isParameter_of_isWord {c : Place} (h : isWord c = true) : isParameter c = false := by
  rw [isWord, beq_iff_eq] at h
  rw [isParameter, h]
  rfl

variable (d : Document)

/-- The word directly behind a parameter, given all that stands behind it. -/
def wordBehind? (behind : List Place) : Option String :=
  (behind.head?.filter isWord).map d.text

theorem wordBehind?_cons (n : Place) (rest : List Place) :
    wordBehind? d (n :: rest) = if isWord n then some (d.text n) else none := by
  rw [wordBehind?, List.head?_cons, Option.filter_some]
  split <;> rfl

/-- For each parameter among some places the word directly behind it, or the empty one. -/
def wordsBehind : List Place → List String
  | [] => []
  | c :: rest =>
      if isParameter c then (wordBehind? d rest).getD "" :: wordsBehind rest else wordsBehind rest

theorem wordsBehind_parameter {c : Place} (hc : isParameter c = true) (rest : List Place) :
    wordsBehind d (c :: rest) = (wordBehind? d rest).getD "" :: wordsBehind d rest := by
  rw [wordsBehind, if_pos hc]

theorem wordsBehind_skip {c : Place} (hc : isParameter c = false) (rest : List Place) :
    wordsBehind d (c :: rest) = wordsBehind d rest := by
  rw [wordsBehind, if_neg (Bool.eq_false_iff.1 hc)]

theorem length_wordsBehind (places : List Place) :
    (wordsBehind d places).length = (places.filter isParameter).length := by
  induction places with
  | nil => rfl
  | cons c rest ih =>
      cases hc : isParameter c with
      | false => rw [wordsBehind_skip d hc, List.filter_cons_of_neg (Bool.eq_false_iff.1 hc), ih]
      | true =>
          rw [wordsBehind_parameter d hc, List.filter_cons_of_pos hc, List.length_cons,
            List.length_cons, ih]

/-! ## Keywords that are closed and one that is open -/

/-- The parts of a selector of which some keywords are closed by a colon, and a last one may be
open. -/
def spelled (closed : List String) (open? : Option String) : List String :=
  closed.map (· ++ ":") ++ open?.toList

theorem endsWith_colon (word : String) : Text.endsWith ":" (word ++ ":") = true := by
  rw [Text.endsWith, String.toList_append]
  exact List.isSuffixOf_iff_suffix.2 (List.suffix_append _ _)

theorem not_endsWith_colon {word : String} (h : ':' ∉ word.toList) :
    Text.endsWith ":" word = false := by
  rw [Text.endsWith, Bool.eq_false_iff]
  intro hends
  exact h ((List.isSuffixOf_iff_suffix.1 hends).subset (by decide))

/-- A parameter closes the keyword that is open, or an empty one if none is. -/
theorem closeKeyword_spelled (closed : List String) {open? : Option String}
    (hopen : ∀ word ∈ open?, ':' ∉ word.toList) :
    closeKeyword (spelled closed open?) = spelled (closed ++ [open?.getD ""]) none := by
  cases open? with
  | some word =>
      have hplain := not_endsWith_colon (hopen word rfl)
      simp [closeKeyword, spelled, hplain]
  | none =>
      cases closed using List.reverseRecOn with
      | nil => rfl
      | append_singleton closed last => simp [closeKeyword, spelled, endsWith_colon]

theorem join_spelled (closed : List String) (open? : Option String) :
    String.join (spelled closed open?) = ":".intercalate (closed ++ [open?.getD ""]) := by
  induction closed with
  | nil => cases open? <;> simp [spelled]
  | cons word closed ih =>
      rw [List.cons_append, String.intercalate_cons_of_ne_nil (by simp), ← ih]
      simp [spelled, String.append_assoc]

/-! ## Reading a selector -/

/-- What is neither a parameter nor the first word is passed over. -/
theorem selectorFrom_skip {parts : List String} {c : Place} (hc : isParameter c = false)
    (hword : isWord c = true → parts ≠ []) (rest : List Place) :
    selectorFrom d parts (c :: rest) = selectorFrom d parts rest := by
  have hfirst : (c.kind == "identifier" && parts.isEmpty) = false := by
    rw [Bool.and_eq_false_imp]
    intro h
    rw [Bool.eq_false_iff, ne_eq, List.isEmpty_iff]
    exact hword h
  rw [isParameter] at hc
  rw [selectorFrom_cons, hfirst, hc]
  rfl

/-- A parameter closes a keyword, and the word behind it is open. -/
theorem selectorFrom_parameter {c : Place} (hc : isParameter c = true) (parts : List String)
    (rest : List Place) :
    selectorFrom d parts (c :: rest) =
      selectorFrom d (closeKeyword parts ++ (wordBehind? d rest).toList) rest := by
  have hkind : c.kind = "method_parameter" := beq_iff_eq.1 hc
  cases rest with
  | nil => simp [selectorFrom_cons, hkind, wordBehind?]
  | cons n rest =>
      rw [wordBehind?_cons]
      by_cases hn : isWord n = true
      · -- The word is taken together with the parameter, and would be passed over behind it.
        have hword : n.kind = "identifier" := beq_iff_eq.1 hn
        rw [if_pos hn, selectorFrom_skip d (not_isParameter_of_isWord hn) (by simp)]
        simp [selectorFrom_cons d _ c, hkind, hword]
      · have hword : ¬ n.kind = "identifier" := fun h => hn (beq_iff_eq.2 h)
        rw [if_neg hn]
        simp [selectorFrom_cons d _ c, hkind, hword]

theorem mem_wordBehind? {word : String} {behind : List Place} (h : word ∈ wordBehind? d behind) :
    ∃ q ∈ behind, isWord q = true ∧ word = d.text q := by
  obtain ⟨q, hq, rfl⟩ := Option.map_eq_some_iff.1 h
  obtain ⟨hhead, hword⟩ := Option.filter_eq_some_iff.1 hq
  exact ⟨q, List.mem_of_head? hhead, hword, rfl⟩

theorem notMem_of_mem_wordBehind? {behind : List Place}
    (hplain : ∀ q ∈ behind, isWord q = true → ':' ∉ (d.text q).toList) :
    ∀ word ∈ wordBehind? d behind, ':' ∉ word.toList := by
  intro word hword
  obtain ⟨q, hq, hqword, rfl⟩ := mem_wordBehind? d hword
  exact hplain q hq hqword

/-- Once something is spelled, reading on closes the open keyword and gives one for each parameter,
the last word behind a parameter being left open. -/
theorem selectorFrom_spelled {places : List Place}
    (hplain : ∀ q ∈ places, isWord q = true → ':' ∉ (d.text q).toList) (closed : List String)
    {open? : Option String} (hopen : ∀ word ∈ open?, ':' ∉ word.toList)
    (hstarted : closed ≠ [] ∨ open?.isSome = true ∧ ∃ c ∈ places, isParameter c = true) :
    selectorFrom d (spelled closed open?) places =
      some (":".intercalate (closed ++ open?.getD "" :: wordsBehind d places)) := by
  induction places generalizing closed open? with
  | nil =>
      have hclosed : closed ≠ [] := hstarted.resolve_right (by rintro ⟨-, c, hc, -⟩; cases hc)
      obtain ⟨word, closed, rfl⟩ := List.exists_cons_of_ne_nil hclosed
      have hsome : (":".intercalate (word :: closed ++ [open?.getD ""])).isEmpty = false := by
        rw [List.cons_append, String.intercalate_cons_of_ne_nil (by simp)]
        simp [String.isEmpty_eq_false_iff]
      simp only [selectorFrom, join_spelled, wordsBehind, hsome, Bool.false_eq_true, if_false]
  | cons c rest ih =>
      obtain ⟨-, hplain⟩ := List.forall_mem_cons.1 hplain
      cases hc : isParameter c with
      | true =>
          have hspelled : spelled (closed ++ [open?.getD ""]) none ++ (wordBehind? d rest).toList =
              spelled (closed ++ [open?.getD ""]) (wordBehind? d rest) := by
            simp [spelled]
          have hbehind := notMem_of_mem_wordBehind? d hplain
          rw [selectorFrom_parameter d hc, closeKeyword_spelled closed hopen, hspelled,
            ih hplain _ hbehind (Or.inl (by simp)), wordsBehind_parameter d hc, List.append_assoc,
            List.singleton_append]
      | false =>
          have hparts : spelled closed open? ≠ [] := by
            rcases hstarted with hclosed | ⟨hsome, -⟩
            · simp [spelled, hclosed]
            · obtain ⟨word, rfl⟩ := Option.isSome_iff_exists.1 hsome
              simp [spelled]
          rw [selectorFrom_skip d hc fun _ => hparts, wordsBehind_skip d hc]
          refine ih hplain closed hopen (hstarted.imp_right fun ⟨hsome, q, hq, hparameter⟩ => ?_)
          rcases List.mem_cons.1 hq with rfl | hq
          · rw [hc] at hparameter
            cases hparameter
          · exact ⟨hsome, q, hq, hparameter⟩

/-- The children of a method: those before the first word, that word, which heads a keyword, and
what stands behind the parameter of it. -/
structure IsHeaded (places front : List Place) (word parameter : Place) (behind : List Place) :
    Prop where
  places_eq : places = front ++ word :: parameter :: behind
  front_plain : ∀ q ∈ front, isWord q = false
  word : isWord word = true
  parameter : isParameter parameter = true

/-- The word that is read before all parameters. -/
def opening (front : List Place) (word : Place) : String :=
  if front.any isParameter then "" else d.text word

theorem selectorFrom_headed {places front behind : List Place} {f c : Place}
    (h : IsHeaded places front f c behind)
    (hplain : ∀ q ∈ places, isWord q = true → ':' ∉ (d.text q).toList) :
    selectorFrom d [] places =
      some (":".intercalate (opening d front f :: wordsBehind d places)) := by
  obtain ⟨rfl, hfront, hf, hc⟩ := h
  induction front with
  | nil =>
      have hkind : f.kind = "identifier" := beq_iff_eq.1 hf
      have hparameter : c.kind = "method_parameter" := beq_iff_eq.1 hc
      obtain ⟨hplainf, hplain⟩ := List.forall_mem_cons.1 hplain
      -- The first word is spelled, and what stands behind it is read on from there.
      have hread : selectorFrom d [] (f :: c :: behind) =
          selectorFrom d (spelled [] (some (d.text f))) (c :: behind) := by
        simp [selectorFrom_cons d [] f, hkind, hparameter, spelled]
      rw [List.nil_append, hread, selectorFrom_spelled d hplain [] (by simpa using hplainf hf)
        (Or.inr ⟨rfl, c, List.mem_cons_self, hc⟩),
        wordsBehind_skip d (not_isParameter_of_isWord hf)]
      rfl
  | cons q front ih =>
      obtain ⟨hq, hfront⟩ := List.forall_mem_cons.1 hfront
      obtain ⟨-, hplain⟩ := List.forall_mem_cons.1 hplain
      rw [List.cons_append]
      cases hparameter : isParameter q with
      | true =>
          have hopen := notMem_of_mem_wordBehind? d hplain
          have hread := selectorFrom_spelled d hplain [""] hopen (Or.inl (by simp))
          rw [selectorFrom_parameter d hparameter, wordsBehind_parameter d hparameter, opening,
            if_pos (by rw [List.any_cons, hparameter, Bool.true_or])]
          exact hread
      | false =>
          rw [selectorFrom_skip d hparameter (by rw [hq]; nofun), wordsBehind_skip d hparameter,
            ih hfront hplain, opening, opening, List.any_cons, hparameter, Bool.false_or]

/-! ## Keywords of parameters -/

/-- Is a place a word that labels the parameter behind it: the first word of a method, or one
directly behind a parameter? -/
def isLabel (q : Place) : Bool :=
  isWord q && (q.siblingsBefore.all (fun r => !isWord r) || q.previous?.any isParameter)

/-- Does a place stand where words are taken up: before all parameters, or directly behind one? -/
def isHeard (q : Place) : Bool :=
  q.siblingsBefore.all (fun r => !isParameter r) || q.previous?.any isParameter

/-- Is a place a label that is taken up? -/
def isRead (q : Place) : Bool :=
  isLabel q && isHeard q

/-- The places before the first parameter among some. -/
def upToParameter (places : List Place) : List Place :=
  places.takeWhile fun q => !isParameter q

theorem not_isParameter_of_mem {places : List Place} {q : Place} (h : q ∈ upToParameter places) :
    isParameter q = false := by
  simpa using List.mem_takeWhile_imp h

theorem upToParameter_parameter {c : Place} (hc : isParameter c = true) (rest : List Place) :
    upToParameter (c :: rest) = [] :=
  List.takeWhile_cons_of_neg (by simp [hc])

theorem upToParameter_skip {c : Place} (hc : isParameter c = false) (rest : List Place) :
    upToParameter (c :: rest) = c :: upToParameter rest :=
  List.takeWhile_cons_of_pos (by simp [hc])

theorem mem_of_mem_upToParameter {places : List Place} {q : Place} (h : q ∈ upToParameter places) :
    q ∈ places :=
  (List.takeWhile_prefix _).subset h

theorem upToParameter_append_cons {front : List Place} (hfront : ∀ q ∈ front, isParameter q = false)
    {c : Place} (hc : isParameter c = true) (rest : List Place) :
    upToParameter (front ++ c :: rest) = front := by
  rw [upToParameter, List.takeWhile_append_of_pos fun q hq => by simp [hfront q hq],
    ← upToParameter, upToParameter_parameter hc, List.append_nil]

theorem upToParameter_of_forall {places : List Place} (h : ∀ q ∈ places, isParameter q = false) :
    upToParameter places = places :=
  List.takeWhile_eq_self_iff.2 fun q hq => by simp [h q hq]

theorem mem_front_of_mem_upToParameter {front rest : List Place} {c q : Place}
    (hc : isParameter c = true) (h : q ∈ upToParameter (front ++ c :: rest)) : q ∈ front := by
  induction front with
  | nil =>
      rw [List.nil_append, upToParameter_parameter hc] at h
      cases h
  | cons r front ih =>
      cases hr : isParameter r with
      | true =>
          rw [List.cons_append, upToParameter_parameter hr] at h
          cases h
      | false =>
          rw [List.cons_append, upToParameter_skip hr] at h
          exact List.mem_cons.2 ((List.mem_cons.1 h).imp_right ih)

/-- The text of the first label among some places, or the empty one. -/
def labelAmong (labels : Place → Bool) (places : List Place) : String :=
  ((places.find? labels).map d.text).getD ""

theorem labelAmong_cons (labels : Place → Bool) (q : Place) (places : List Place) :
    labelAmong d labels (q :: places) =
      if labels q then d.text q else labelAmong d labels places := by
  rw [labelAmong, List.find?_cons]
  cases labels q <;> rfl

theorem labelAmong_append_of_forall {labels : Place → Bool} {nearer : List Place}
    (h : ∀ q ∈ nearer, labels q = false) (farther : List Place) :
    labelAmong d labels (nearer ++ farther) = labelAmong d labels farther := by
  have hnone : nearer.find? labels = none :=
    List.find?_eq_none.2 fun q hq => Bool.eq_false_iff.1 (h q hq)
  rw [labelAmong, List.find?_append, hnone, Option.none_or, labelAmong]

theorem labelAmong_of_forall {labels : Place → Bool} {places : List Place}
    (h : ∀ q ∈ places, labels q = false) : labelAmong d labels places = "" := by
  rw [← List.append_nil places, labelAmong_append_of_forall d h]
  rfl

/-- The keyword of a parameter: the text of the nearest label between it and the parameter before
it, or the empty one. -/
def keyword (labels : Place → Bool) (c : Place) : String :=
  labelAmong d labels (upToParameter c.siblingsBefore)

section

variable {d} {p c q n : Place} {front between rest : List Place}

/-- Behind a parameter and something else that is none, no word is taken up. -/
theorem isHeard_eq_false (h : p.children = (front ++ c :: between) ++ q :: rest)
    (hc : isParameter c = true) (hne : between ≠ [])
    (hbetween : ∀ r ∈ between, isParameter r = false) : isHeard q = false := by
  have hbefore : q.siblingsBefore = between.reverse ++ c :: front.reverse := by
    rw [Place.siblingsBefore_eq h]
    simp
  obtain ⟨r, others, hr⟩ := List.exists_cons_of_ne_nil (List.reverse_ne_nil_iff.2 hne)
  have hlast : isParameter r = false :=
    hbetween r (List.mem_reverse.1 (hr ▸ List.mem_cons_self))
  rw [isHeard, Place.previous?_eq, hbefore, hr]
  simp [hc, hlast]

/-- Directly behind a parameter, every word is a label that is taken up. -/
theorem isRead_behind (h : p.children = front ++ c :: n :: rest) (hc : isParameter c = true) :
    isRead n = isWord n := by
  have hchildren := h.trans (List.append_cons front c (n :: rest))
  have hbehind : n.previous?.any isParameter = true := by
    rw [Place.previous?_eq, Place.siblingsBefore_eq hchildren, List.reverse_append]
    exact hc
  rw [isRead, isLabel, isHeard, hbehind, Bool.or_true, Bool.or_true, Bool.and_true, Bool.and_true]

/-- Between a parameter and the next one no other word is taken up than the one directly behind. -/
theorem labelAmong_behind (h : p.children = front ++ c :: rest) (hc : isParameter c = true) :
    labelAmong d isRead (upToParameter rest).reverse = (wordBehind? d rest).getD "" := by
  cases rest with
  | nil => rfl
  | cons n rest =>
      rw [wordBehind?_cons]
      cases hn : isParameter n with
      | true =>
          have hword : isWord n = false := by
            rw [isWord, beq_eq_false_iff_ne, beq_iff_eq.1 hn]
            decide
          rw [upToParameter_parameter hn, hword]
          rfl
      | false =>
          have hothers : ∀ q ∈ (upToParameter rest).reverse, isRead q = false := by
            intro q hq
            obtain ⟨between, after, hsplit⟩ := List.append_of_mem (List.mem_reverse.1 hq)
            obtain ⟨beyond, hbeyond⟩ : upToParameter rest <+: rest := List.takeWhile_prefix _
            have hchildren :
                p.children = (front ++ c :: n :: between) ++ q :: (after ++ beyond) := by
              rw [h, ← hbeyond, hsplit]
              simp
            have hbetween : ∀ r ∈ n :: between, isParameter r = false := by
              refine List.forall_mem_cons.2 ⟨hn, fun r hr => ?_⟩
              have hmem : r ∈ upToParameter rest := by
                rw [hsplit]
                exact List.mem_append_left _ hr
              exact not_isParameter_of_mem hmem
            rw [isRead, isHeard_eq_false hchildren hc (by simp) hbetween, Bool.and_false]
          rw [upToParameter_skip hn, List.reverse_cons, labelAmong_append_of_forall d hothers,
            labelAmong_cons, isRead_behind h hc]
          split <;> rfl

/-- The keywords of the parameters among the children of a method from some place on. -/
theorem map_keyword_eq {front places : List Place} (h : p.children = front ++ places) :
    (places.filter isParameter).map (keyword d isRead) =
      (labelAmong d isRead (upToParameter (front ++ upToParameter places).reverse) ::
        wordsBehind d places).dropLast := by
  induction places generalizing front with
  | nil => rfl
  | cons c rest ih =>
      have hchildren := h.trans (List.append_cons front c rest)
      cases hc : isParameter c with
      | false =>
          rw [List.filter_cons_of_neg (Bool.eq_false_iff.1 hc), ih hchildren,
            wordsBehind_skip d hc, upToParameter_skip hc,
            List.append_cons front c (upToParameter rest)]
      | true =>
          -- The keyword of the parameter is settled before it, the next one behind it.
          have hkeyword :
              keyword d isRead c = labelAmong d isRead (upToParameter front.reverse) := by
            rw [keyword, Place.siblingsBefore_eq h]
          have hbehind : upToParameter (front ++ [c] ++ upToParameter rest).reverse =
              (upToParameter rest).reverse := by
            rw [List.reverse_append, List.reverse_append, List.reverse_singleton,
              List.singleton_append]
            exact upToParameter_append_cons
              (fun q hq => not_isParameter_of_mem (List.mem_reverse.1 hq)) hc _
          rw [List.filter_cons_of_pos hc, List.map_cons, ih hchildren, hbehind,
            labelAmong_behind h hc, wordsBehind_parameter d hc, upToParameter_parameter hc,
            List.append_nil, List.dropLast_cons_cons, hkeyword]

/-! ## The first word -/

variable {f : Place} {behind : List Place}

namespace IsHeaded

theorem children_eq (h : IsHeaded p.children front f c behind) :
    p.children = (front ++ [f]) ++ c :: behind := by
  rw [h.places_eq, List.append_cons]

theorem isLabel_eq (h : IsHeaded p.children front f c behind) : isLabel f = true := by
  rw [isLabel, h.word, Place.siblingsBefore_eq h.places_eq]
  simpa using Or.inl h.front_plain

theorem isRead_eq_false (h : IsHeaded p.children front f c behind) (hq : q ∈ front) :
    isRead q = false := by
  rw [isRead, isLabel, h.front_plain q hq]
  rfl

end IsHeaded

/-- The first word is read exactly if it stands before all parameters. -/
theorem labelAmong_upToParameter (h : IsHeaded p.children front f c behind) :
    labelAmong d isRead (upToParameter p.children).reverse = opening d front f := by
  rw [opening]
  split
  · -- Only what stands before a parameter is looked at, and that is before the first word.
    rename_i hany
    obtain ⟨q, hq, hparameter⟩ := List.any_eq_true.1 hany
    obtain ⟨before, after, hsplit⟩ := List.append_of_mem hq
    refine labelAmong_of_forall d fun r hr => h.isRead_eq_false ?_
    rw [List.mem_reverse, h.places_eq, hsplit, List.append_assoc] at hr
    rw [hsplit]
    exact List.mem_append_left _ (mem_front_of_mem_upToParameter hparameter hr)
  · rename_i hany
    have hfront : ∀ q ∈ front, isParameter q = false := by simpa using hany
    have hupTo : upToParameter p.children = front ++ [f] := by
      have hall : ∀ q ∈ front ++ [f], isParameter q = false := by
        rw [List.forall_mem_append, List.forall_mem_singleton]
        exact ⟨hfront, not_isParameter_of_isWord h.word⟩
      rw [h.children_eq, upToParameter_append_cons hall h.parameter]
    have hheard : isHeard f = true := by
      rw [isHeard, Place.siblingsBefore_eq h.places_eq]
      simpa using Or.inl hfront
    rw [hupTo, List.reverse_append, List.reverse_singleton, List.singleton_append,
      labelAmong_cons, isRead, h.isLabel_eq, hheard]
    rfl

/-- The keywords of a method are those of its parameters, as far as labels are taken up. -/
theorem keywords_eq (h : IsHeaded p.children front f c behind) :
    (opening d front f :: wordsBehind d p.children).dropLast =
      (p.childrenOf "method_parameter").map (keyword d isRead) := by
  have hmap := map_keyword_eq (d := d) (List.nil_append p.children).symm
  rw [List.nil_append, upToParameter_of_forall fun q hq =>
    not_isParameter_of_mem (List.mem_reverse.1 hq), labelAmong_upToParameter h] at hmap
  exact hmap.symm

/-- A label that is not taken up is the first word. -/
theorem eq_of_isLabel (h : IsHeaded p.children front f c behind) (hq : q ∈ p.children)
    (hlabel : isLabel q = true) (hheard : isHeard q = false) : q = f := by
  obtain ⟨before, after, hsplit⟩ := List.append_of_mem hq
  rw [isHeard, Bool.or_eq_false_iff] at hheard
  rw [isLabel, hheard.2, Bool.or_false, Bool.and_eq_true, Place.siblingsBefore_eq hsplit] at hlabel
  have hfirst : p.children.find? isWord = some q :=
    List.find?_eq_some_iff_append.2 ⟨hlabel.1, before, after, hsplit, by simpa using hlabel.2⟩
  have hhead : p.children.find? isWord = some f :=
    List.find?_eq_some_iff_append.2
      ⟨h.word, front, c :: behind, h.places_eq, fun r hr => by rw [h.front_plain r hr]; rfl⟩
  exact Option.some_inj.1 (hfirst.symm.trans hhead)

/-- What is taken up for a parameter is its label, but for the first word if that is not heard. -/
theorem keyword_isRead_cases (h : IsHeaded p.children front f c behind) (hn : n ∈ p.children) :
    keyword d isRead n = keyword d isLabel n ∨
      isHeard f = false ∧ keyword d isLabel n = d.text f ∧ keyword d isRead n = "" := by
  obtain ⟨before, after, hsplit⟩ := List.append_of_mem hn
  have hbefore := Place.siblingsBefore_eq hsplit
  obtain ⟨beyond, hbeyond⟩ : upToParameter n.siblingsBefore <+: n.siblingsBefore :=
    List.takeWhile_prefix _
  have hread : ∀ q, isLabel q = false → isRead q = false := by
    intro q hlabel
    rw [isRead, hlabel, Bool.false_and]
  rw [keyword, keyword]
  cases hfind : (upToParameter n.siblingsBefore).find? isLabel with
  | none =>
      have hnone : ∀ q ∈ upToParameter n.siblingsBefore, isLabel q = false :=
        fun q hq => Bool.eq_false_iff.2 (List.find?_eq_none.1 hfind q hq)
      rw [labelAmong_of_forall d hnone, labelAmong_of_forall d fun q hq => hread q (hnone q hq)]
      exact Or.inl rfl
  | some q =>
      obtain ⟨hlabel, nearer, farther, hlist, hnearer⟩ := List.find?_eq_some_iff_append.1 hfind
      have hchildren : p.children =
          (farther ++ beyond).reverse ++ q :: (nearer.reverse ++ n :: after) := by
        have hreverse : before.reverse = nearer ++ q :: (farther ++ beyond) := by
          rw [← hbefore, ← hbeyond, hlist]
          simp
        rw [hsplit, List.reverse_eq_iff.1 hreverse]
        simp
      have hnearer : ∀ r ∈ nearer, isLabel r = false :=
        fun r hr => by simpa using hnearer r hr
      rw [hlist, labelAmong_append_of_forall d hnearer,
        labelAmong_append_of_forall d fun r hr => hread r (hnearer r hr), labelAmong_cons,
        labelAmong_cons, isRead, hlabel, Bool.true_and]
      cases hheard : isHeard q with
      | true => exact Or.inl rfl
      | false =>
          have hq : q ∈ p.children := by
            rw [hchildren]
            exact List.mem_append_right _ List.mem_cons_self
          obtain rfl := eq_of_isLabel h hq hlabel hheard
          -- Farther away there are no words, as the first word is the first of them.
          have hfarther : ∀ r ∈ farther, isRead r = false := by
            intro r hr
            refine h.isRead_eq_false ?_
            rw [← List.mem_reverse, ← Place.siblingsBefore_eq h.places_eq,
              Place.siblingsBefore_eq hchildren, List.reverse_reverse]
            exact List.mem_append_left _ hr
          exact Or.inr ⟨hheard, rfl, labelAmong_of_forall d hfarther⟩

/-- The parameter behind the first word loses that where it is not heard. -/
theorem keyword_behind_first (h : IsHeaded p.children front f c behind)
    (hheard : isHeard f = false) :
    keyword d isLabel c = d.text f ∧ keyword d isRead c = "" := by
  have hupTo : upToParameter c.siblingsBefore = f :: upToParameter front.reverse := by
    rw [Place.siblingsBefore_eq h.children_eq, List.reverse_append, List.reverse_singleton,
      List.singleton_append, upToParameter_skip (not_isParameter_of_isWord h.word)]
  rw [keyword, keyword, hupTo, labelAmong_cons, labelAmong_cons, isRead, h.isLabel_eq, hheard]
  exact ⟨rfl, labelAmong_of_forall d fun q hq =>
    h.isRead_eq_false (List.mem_reverse.1 (mem_of_mem_upToParameter hq))⟩

/-- The labels of all parameters are taken up exactly if the first word is heard, or is empty. -/
theorem map_keyword_eq_iff (h : IsHeaded p.children front f c behind) :
    (p.childrenOf "method_parameter").map (keyword d isRead) =
        (p.childrenOf "method_parameter").map (keyword d isLabel) ↔
      isHeard f = true ∨ d.text f = "" := by
  rw [List.map_inj_left]
  constructor
  · intro hsame
    by_contra hneither
    rw [not_or, Bool.not_eq_true] at hneither
    have hc : c ∈ p.childrenOf "method_parameter" := by
      refine List.mem_filter.2 ⟨?_, h.parameter⟩
      rw [h.places_eq]
      simp
    obtain ⟨hlabel, hread⟩ := keyword_behind_first (d := d) h hneither.1
    exact hneither.2 (hlabel.symm.trans ((hsame c hc).symm.trans hread))
  · intro hfirst n hn
    have hcases := keyword_isRead_cases (d := d) h (List.mem_filter.1 hn).1
    rcases hcases with heq | ⟨hheard, hlabel, hread⟩
    · exact heq
    · rcases hfirst with htrue | hempty
      · rw [hheard] at htrue
        cases htrue
      · rw [hread, hlabel, hempty]

end

/-! ## Colons -/

/-- The texts before the colons of a selector. -/
def keywordsOf (selector : String) : List String :=
  ((selector.toList.splitOn ':').map String.ofList).dropLast

theorem count_intercalate {word : String} {words : List String}
    (hplain : ∀ w ∈ word :: words, ':' ∉ w.toList) :
    (":".intercalate (word :: words)).toList.count ':' = words.length := by
  induction words generalizing word with
  | nil => simpa [List.count_eq_zero] using hplain
  | cons next words ih =>
      obtain ⟨hword, hplain⟩ := List.forall_mem_cons.1 hplain
      rw [String.intercalate_cons_cons, String.toList_append, String.toList_append,
        List.count_append, List.count_append, List.count_eq_zero.2 hword, ih hplain,
        List.length_cons, Nat.zero_add, Nat.add_comm]
      rfl

theorem keywordsOf_intercalate {word : String} {words : List String}
    (hplain : ∀ w ∈ word :: words, ':' ∉ w.toList) :
    keywordsOf (":".intercalate (word :: words)) = (word :: words).dropLast := by
  have hcolon : ":".toList = [':'] := rfl
  rw [keywordsOf, String.toList_intercalate, hcolon,
    List.splitOn_intercalate ':' (List.forall_mem_map.2 hplain) (by simp), List.map_map]
  simp [Function.comp_def]

/-- The words that are read are words among the places. -/
theorem notMem_of_mem_wordsBehind {places : List Place}
    (hplain : ∀ q ∈ places, isWord q = true → ':' ∉ (d.text q).toList) :
    ∀ word ∈ wordsBehind d places, ':' ∉ word.toList := by
  induction places with
  | nil => nofun
  | cons c rest ih =>
      obtain ⟨-, hplain⟩ := List.forall_mem_cons.1 hplain
      cases hc : isParameter c with
      | false =>
          rw [wordsBehind_skip d hc]
          exact ih hplain
      | true =>
          rw [wordsBehind_parameter d hc, List.forall_mem_cons]
          refine ⟨?_, ih hplain⟩
          cases hbehind : wordBehind? d rest with
          | none => exact (by decide : ':' ∉ "".toList)
          | some word => exact notMem_of_mem_wordBehind? d hplain word hbehind

/-- A first word directly before a parameter heads the children of a method. -/
theorem exists_isHeaded {p f c : Place} (hfirst : p.childOf? "identifier" = some f)
    (hc : c ∈ p.childrenOf "method_parameter") (hnext : c.previous? = some f) :
    ∃ front behind, IsHeaded p.children front f c behind := by
  obtain ⟨hc, hparameter⟩ := List.mem_filter.1 hc
  obtain ⟨hword, front, rest, hsplit, hfront⟩ := List.find?_eq_some_iff_append.1 hfirst
  obtain ⟨before, behind, hchildren⟩ := List.append_of_mem hc
  rw [Place.previous?_eq, Place.siblingsBefore_eq hchildren] at hnext
  obtain ⟨others, hothers⟩ := List.head?_eq_some_iff.1 hnext
  have hbefore : p.children = others.reverse ++ f :: c :: behind := by
    rw [hchildren, List.reverse_eq_iff.1 hothers]
    simp
  -- Both ways of splitting the children have the same siblings before the first word.
  have hsame : front = others.reverse := by
    rw [← List.reverse_inj, ← Place.siblingsBefore_eq hsplit, Place.siblingsBefore_eq hbefore]
  have hplain : ∀ q ∈ front, isWord q = false := fun q hq => Bool.not_eq_true' _ ▸ hfront q hq
  exact ⟨front, behind, hsame ▸ hbefore, hplain, hword, hparameter⟩

/-- The selector of a method whose first word stands directly before a parameter has one colon for
each parameter, if no word has one of its own.  Before the colons stand, in order, the labels of the
parameters that are taken up: the first word, if it is heard, and each word directly behind a
parameter, and no text for a parameter without.  These are all labels exactly if the first word is
heard, or has no text. -/
theorem selector_keywords_iff {p f c : Place} (hfirst : p.childOf? "identifier" = some f)
    (hc : c ∈ p.childrenOf "method_parameter") (hnext : c.previous? = some f)
    (hplain : ∀ q ∈ p.childrenOf "identifier", ':' ∉ (d.text q).toList) :
    ∃ spelling, selector d p = some spelling ∧
      spelling.toList.count ':' = (p.childrenOf "method_parameter").length ∧
      keywordsOf spelling = (p.childrenOf "method_parameter").map (keyword d isRead) ∧
      (keywordsOf spelling = (p.childrenOf "method_parameter").map (keyword d isLabel) ↔
        isHeard f = true ∨ d.text f = "") := by
  obtain ⟨front, behind, h⟩ := exists_isHeaded hfirst hc hnext
  have hwords : ∀ q ∈ p.children, isWord q = true → ':' ∉ (d.text q).toList :=
    fun q hq hword => hplain q (List.mem_filter.2 ⟨hq, hword⟩)
  have hopening : ':' ∉ (opening d front f).toList := by
    rw [opening]
    split
    · decide
    · exact hplain f (List.mem_filter.2 ⟨Place.mem_children_of_childOf? hfirst, h.word⟩)
  have hall : ∀ word ∈ opening d front f :: wordsBehind d p.children, ':' ∉ word.toList :=
    List.forall_mem_cons.2 ⟨hopening, notMem_of_mem_wordsBehind d hwords⟩
  refine ⟨_, selectorFrom_headed d h hwords, ?_, ?_, ?_⟩
  · rw [count_intercalate hall, length_wordsBehind]
    rfl
  · rw [keywordsOf_intercalate hall, keywords_eq h]
  · rw [keywordsOf_intercalate hall, keywords_eq h, map_keyword_eq_iff h]

/-- A parameter of type `int` with a name of one letter. -/
def intParameter (start : Nat) : Node :=
  .mk "method_parameter" true [] start (start + 7)
    [.token ":" start (start + 1),
      .mk "method_type" true [] (start + 1) (start + 6)
        [.token "(" (start + 1) (start + 2),
          .mk "type_name" true [] (start + 2) (start + 5)
            [.leaf "primitive_type" [] (start + 2) (start + 5)],
          .token ")" (start + 5) (start + 6)],
      .leaf "identifier" [] (start + 6) (start + 7)]

/-- The type of a method that returns nothing. -/
def voidType (start : Nat) : Node :=
  .mk "method_type" true [] start (start + 6)
    [.token "(" start (start + 1),
      .mk "type_name" true [] (start + 1) (start + 5)
        [.leaf "primitive_type" [] (start + 1) (start + 5)],
      .token ")" (start + 5) (start + 6)]

/-- A method with three parameters, the second of which has no label. -/
def threeParameters : Document :=
  { path := "A.m"
    bytes := Text.Utf8.encode "- (void)put:(int)a /* x */ :(int)b with:(int)c;".toList
    limits := {} }

/-- The method of `threeParameters`. -/
def threeParametersMethod : Place :=
  .root <| .mk "method_declaration" true [] 0 47
    [.token "-" 0 1, voidType 2, .leaf "identifier" [] 8 11, intParameter 11,
      .leaf "comment" [] 19 26, intParameter 27, .leaf "identifier" [] 35 39, intParameter 39,
      .token ";" 46 47]

/-- The first word of the method, and behind it the first parameter. -/
def threeParametersFirst : Place × Place :=
  let before := [voidType 2, .token "-" 0 1]
  let word := .leaf "identifier" [] 8 11
  (.child threeParametersMethod before word,
    .child threeParametersMethod (word :: before) (intParameter 11))

/-- The theorem holds of a method with labels and without. -/
theorem threeParameters_keywords :
    threeParametersMethod.childOf? "identifier" = some threeParametersFirst.1 ∧
    threeParametersFirst.2 ∈ threeParametersMethod.childrenOf "method_parameter" ∧
    threeParametersFirst.2.previous? = some threeParametersFirst.1 ∧
    (∀ q ∈ threeParametersMethod.childrenOf "identifier",
      ':' ∉ (threeParameters.text q).toList) ∧
    selector threeParameters threeParametersMethod = some "put::with:" ∧
    ∃ spelling, selector threeParameters threeParametersMethod = some spelling ∧
      spelling.toList.count ':' = (threeParametersMethod.childrenOf "method_parameter").length ∧
      keywordsOf spelling =
        (threeParametersMethod.childrenOf "method_parameter").map (keyword threeParameters isRead) ∧
      (keywordsOf spelling =
          (threeParametersMethod.childrenOf "method_parameter").map
            (keyword threeParameters isLabel) ↔
        isHeard threeParametersFirst.1 = true ∨
          threeParameters.text threeParametersFirst.1 = "") := by
  have hfirst : threeParametersMethod.childOf? "identifier" = some threeParametersFirst.1 := by
    rfl
  have hmem : threeParametersFirst.2 ∈ threeParametersMethod.childrenOf "method_parameter" :=
    List.mem_cons_self
  have hnext : threeParametersFirst.2.previous? = some threeParametersFirst.1 := rfl
  have hplain : ∀ q ∈ threeParametersMethod.childrenOf "identifier",
      ':' ∉ (threeParameters.text q).toList := by
    decide +kernel
  exact ⟨hfirst, hmem, hnext, hplain, by decide +kernel,
    selector_keywords_iff threeParameters hfirst hmem hnext hplain⟩

/-- A method whose only label stands behind a parameter and a comment. -/
def labelBehindComment : Document :=
  { path := "A.m"
    bytes := Text.Utf8.encode
      "@interface A\n- (void):(int)a /* x */ b:(int)c;\n@end\n".toList
    limits := {} }

/-- The method of `labelBehindComment`, in its interface. -/
def labelBehindCommentMethod : Place :=
  let method := .mk "method_declaration" true [] 13 46
    [.token "-" 13 14, voidType 15, intParameter 21, .leaf "comment" [] 29 36,
      .leaf "identifier" [] 37 38, intParameter 38, .token ";" 45 46]
  let interface := .mk "class_interface" true [] 0 51
    [.token "@interface" 0 10, .leaf "identifier" [] 11 12, method, .token "@end" 47 51]
  .child (.child (.root (.mk "translation_unit" true [] 0 52 [interface])) [] interface)
    [.leaf "identifier" [] 11 12, .token "@interface" 0 10] method

/-- The label of the method, and behind it the second parameter. -/
def labelBehindCommentFirst : Place × Place :=
  let before := [.leaf "comment" [] 29 36, intParameter 21, voidType 15, .token "-" 13 14]
  let word := .leaf "identifier" [] 37 38
  (.child labelBehindCommentMethod before word,
    .child labelBehindCommentMethod (word :: before) (intParameter 38))

/-- The first word stands directly before a parameter and labels it, and is missing in the
selector. -/
theorem labelBehindComment_lost :
    labelBehindCommentMethod.childOf? "identifier" = some labelBehindCommentFirst.1 ∧
    labelBehindCommentFirst.2 ∈ labelBehindCommentMethod.childrenOf "method_parameter" ∧
    labelBehindCommentFirst.2.previous? = some labelBehindCommentFirst.1 ∧
    (∀ q ∈ labelBehindCommentMethod.childrenOf "identifier",
      ':' ∉ (labelBehindComment.text q).toList) ∧
    labelBehindComment.text labelBehindCommentFirst.1 = "b" ∧
    selector labelBehindComment labelBehindCommentMethod = some "::" ∧
    keywordsOf "::" = ["", ""] ∧
    (labelBehindCommentMethod.childrenOf "method_parameter").map
        (keyword labelBehindComment isLabel) = ["", "b"] := by
  refine ⟨rfl, List.mem_cons_of_mem _ List.mem_cons_self, rfl, ?_⟩
  decide +kernel

end Idiom.ObjC

end SourceIndex
