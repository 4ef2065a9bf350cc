import Mathlib.Data.List.TakeWhile
import Mathlib.Data.String.Basic
import SourceIndex.Proofs.Literals.Limit
import SourceIndex.Proofs.Scopes.Profiled

/-!
# Literals of languages that are read by a profile

The rules of a profile measure literals in characters.  So a literal may be too long only if it has
a character of several octets.  Swift takes a string that the rules drop for its length after all,
and measures it no more.
-/

namespace SourceIndex

namespace Text

/-- Has a text a character that takes several octets? -/
def isWide (text : String) : Bool :=
  text.toList.any fun c => 1 < c.utf8Size

theorem utf8Len_le_length {text : List Char} (h : ∀ c ∈ text, ¬ 1 < c.utf8Size) :
    String.utf8Len text ≤ text.length := by
  induction text with
  | nil => exact Nat.le_refl 0
  | cons c rest ih =>
      obtain ⟨hc, hrest⟩ := List.forall_mem_cons.1 h
      have hle := ih hrest
      rw [String.utf8Len_cons, List.length_cons]
      omega

theorem size_le_length {text : String} (h : isWide text = false) : size text ≤ text.length := by
  have hnarrow : ∀ c ∈ text.toList, ¬ 1 < c.utf8Size := by
    simpa [isWide] using h
  rw [size, ← String.ofList_toList (s := text), String.utf8ByteSize_ofList, String.length_ofList]
  exact utf8Len_le_length hnarrow

theorem length_trim_le (text : String) : (trim text).length ≤ text.length := by
  have hstart := List.length_dropWhile_le isBlank text.toList
  have hend := List.length_dropWhile_le isBlank (text.toList.dropWhile isBlank).reverse
  rw [List.length_reverse] at hend
  rw [String.length_toList] at hstart
  simp only [trim, Chars.trim, Chars.trimEnd, Chars.trimStart, Chars.trimEndWhere,
    Chars.trimStartWhere, String.length_ofList, List.length_reverse]
  omega

theorem length_unquote_le (text : String) : (unquote text).length ≤ text.length := by
  have htrim := length_trim_le text
  rw [← String.length_toList] at htrim
  simp only [unquote]
  split
  · rename_i q rest heq
    rw [heq] at htrim
    split
    · rw [String.length_ofList, List.length_dropLast]
      rw [List.length_cons] at htrim
      omega
    · rw [String.length_ofList, heq]
      exact htrim
  · exact Nat.zero_le _

end Text

variable {d : Document} {root p c : Place} {language owner : String} {y : Symbol}

namespace Rules

/-- Literals with characters of several octets are not measured in octets. -/
def unmeasured (d : Document) (p : Place) : List String :=
  ((literal? d p).filter Text.isWide).toList

theorem length_literal?_le {v : String} (h : literal? d p = some v) :
    v.length ≤ d.limits.literalSize.toNat := by
  rcases Option.or_eq_some_iff.1 h with h | ⟨-, h⟩
  · exact of_decide_eq_true (Option.filter_eq_some_iff.1 h).2
  · exact of_decide_eq_true (Option.filter_eq_some_iff.1 h).2

theorem literal?_measures : d.Measures (unmeasured d) p (literal? d p) := by
  intro v hv
  cases hwide : Text.isWide v with
  | false => exact Or.inl (Nat.le_trans (Text.size_le_length hwide) (length_literal?_le hv))
  | true =>
      refine Or.inr ⟨p, Place.self_mem_subtree p, ?_⟩
      exact Option.mem_toList.2 (Option.filter_eq_some_iff.2 ⟨hv, hwide⟩)

/-- A literal that is found below a place is the one of some place there. -/
theorem exists_of_literalBelow? {levels : Nat} {v : String}
    (h : literalBelow? d levels p = some v) : ∃ q ∈ p.subtree, literal? d q = some v := by
  obtain ⟨q, hq, hv⟩ := List.exists_of_findSome?_eq_some h
  refine ⟨q, ?_, hv⟩
  rcases List.mem_cons.1 hq with rfl | hq
  · exact Place.self_mem_subtree q
  · exact Place.mem_subtree_of_mem_descendants hq

theorem literalBelow?_measures {levels : Nat} :
    d.Measures (unmeasured d) p (literalBelow? d levels p) := by
  intro v hv
  obtain ⟨q, hq, hv⟩ := exists_of_literalBelow? hv
  exact literal?_measures.above hq v hv

theorem property?_isMeasured (hc : c ∈ root.subtree) {rule : PropertyRule} :
    ∀ y ∈ property? d rule owner c, y.IsMeasured d (unmeasured d) root := by
  intro y hy
  obtain ⟨p, hp, hy⟩ := Option.bind_eq_some_iff.1 hy
  obtain ⟨name, -, hy⟩ := Option.bind_eq_some_iff.1 hy
  have hp := Place.mem_subtree_trans hc (mem_subtree_of_unwrap? hp)
  cases hy
  split
  · refine Symbol.isMeasured_symbol hp ?_
    cases hright : p.field? "right" with
    | none => exact Document.measures_none
    | some right =>
        exact literal?_measures.above
          (Place.mem_subtree_of_child (Place.mem_children_of_field? hright))
  · exact Symbol.isMeasured_symbol hp literalBelow?_measures

theorem properties_areMeasured (hp : p ∈ root.subtree) {rules : Rules} :
    ∀ y ∈ rules.properties d owner p, y.IsMeasured d (unmeasured d) root := by
  intro y hy
  unfold properties at hy
  split at hy
  · obtain ⟨c, hc, hy⟩ := List.mem_filterMap.1 hy
    exact property?_isMeasured (Place.mem_subtree_of_mem_children hp hc) y hy
  · cases hy

end Rules

namespace Profile

theorem Kotlin.properties_areMeasured (hp : p ∈ root.subtree) :
    ∀ y ∈ properties d owner p, y.IsMeasured d (Rules.unmeasured d) root := by
  refine List.forall_mem_append.2 ⟨?_, fun y hy => ?_⟩
  · cases hb : Rules.body? p with
    | none => exact List.forall_mem_nil _
    | some b =>
        have hinside := Place.mem_subtree_of_mem_children hp (Rules.mem_children_of_body? hb)
        rw [Option.map_some, Option.getD_some]
        exact Rules.properties_areMeasured hinside
  -- Parameters of the constructor have no literals.
  · obtain ⟨q, -, hy⟩ := List.mem_filterMap.1 hy
    obtain ⟨word, -, hy⟩ := Option.bind_eq_some_iff.1 hy
    obtain ⟨nameNode, -, hy⟩ := Option.bind_eq_some_iff.1 hy
    dsimp only at hy
    split at hy
    · cases hy
      exact Symbol.isMeasured_of_isBare rfl
    · cases hy

namespace Swift

/-- Literals with characters of several octets are not measured in octets, and other strings are not
measured at all. -/
def unmeasured (d : Document) (p : Place) : List String :=
  (((Rules.literal? d p).map Text.unquote).filter Text.isWide).toList ++ (stringText? d p).toList

theorem unquoted_measures {levels : Nat} :
    d.Measures (unmeasured d) p ((Rules.literalBelow? d levels p).map Text.unquote) := by
  intro v hv
  obtain ⟨literal, hliteral, rfl⟩ := Option.map_eq_some_iff.1 hv
  obtain ⟨q, hq, hliteral⟩ := Rules.exists_of_literalBelow? hliteral
  cases hwide : Text.isWide (Text.unquote literal) with
  | false =>
      left
      calc Text.size (Text.unquote literal)
          ≤ (Text.unquote literal).length := Text.size_le_length hwide
        _ ≤ literal.length := Text.length_unquote_le literal
        _ ≤ d.limits.literalSize.toNat := Rules.length_literal?_le hliteral
  | true =>
      refine Or.inr ⟨q, hq, List.mem_append_left _ (Option.mem_toList.2 ?_)⟩
      exact Option.filter_eq_some_iff.2 ⟨Option.map_eq_some_iff.2 ⟨literal, hliteral, rfl⟩, hwide⟩

theorem initialLiteral_measures : d.Measures (unmeasured d) p (initialLiteral d p) := by
  intro v hv
  rcases Option.or_eq_some_iff.1 hv with hv | ⟨-, hv⟩
  · exact unquoted_measures v hv
  -- Without a literal that is short enough, a string is taken as it is.
  · obtain ⟨q, hq, hv⟩ := List.exists_of_findSome?_eq_some hv
    refine Or.inr ⟨q, Place.mem_subtree_of_mem_descendants hq, ?_⟩
    exact List.mem_append_right _ (Option.mem_toList.2 hv)

theorem properties_areMeasured (hp : p ∈ root.subtree) :
    ∀ y ∈ properties d owner p, y.IsMeasured d (unmeasured d) root := by
  intro y hy
  obtain ⟨q, hq, hy⟩ := List.mem_filterMap.1 hy
  obtain ⟨name, -, rfl⟩ := Option.map_eq_some_iff.1 hy
  have hq := Place.mem_subtree_of_mem_children
    (Place.mem_subtree_trans hp Rules.mem_subtree_of_body?_getD) (List.mem_filter.1 hq).1
  exact Symbol.isMeasured_symbol hq initialLiteral_measures

end Swift

/-- The texts of literals that the profile of a language does not measure. -/
def unmeasured (language : String) : Document → Place → List String :=
  if language = "swift" then Swift.unmeasured else Rules.unmeasured

theorem properties_areMeasured (hp : p ∈ root.subtree) :
    ∀ y ∈ (ofLanguage language).properties d owner p,
      y.IsMeasured d (unmeasured language d) root := by
  unfold ofLanguage
  split
  · exact Kotlin.properties_areMeasured hp
  · exact Swift.properties_areMeasured hp
  · rename_i hswift
    rw [unmeasured, if_neg hswift]
    exact Rules.properties_areMeasured (Place.mem_subtree_trans hp Rules.mem_subtree_of_body?_getD)

end Profile

namespace Declarations.Profiled

/-- Only properties have literals. -/
theorem staysMeasured_declarationSteps (hp : p ∈ root.subtree) {s : Scope} {kind : SymbolKind}
    {name : String} : StaysMeasured d (Profile.unmeasured language d) root
      (declarationSteps (.ofLanguage language) d s kind name p) := by
  refine Step.keeps_emit_cons fun _ => ⟨Symbol.isMeasured_of_isBare rfl, ?_⟩
  split
  · refine Step.keeps_append (Step.keeps_emitAll fun _ => Profile.properties_areMeasured hp) ?_
    exact Step.keeps_visit_cons
      (Place.mem_subtree_trans hp Rules.mem_subtree_of_body?_getD) Step.keeps_nil
  · exact Step.keeps_nil

/-- The literals of a file are measured, except for those that nobody measures in octets. -/
theorem symbols_areMeasured (root : Place) :
    ∀ y ∈ symbols (.ofLanguage language) d root,
      y.IsMeasured d (Profile.unmeasured language d) root := by
  refine Rule.forall_isMeasured rule_descends (fun s p hp => ?_) _
  refine Step.keeps_ite_nil (Step.keeps_flatMap fun c hc => ?_)
  have hc := Place.mem_subtree_of_mem_children hp hc
  unfold childSteps
  split
  · exact staysMeasured_declarationSteps hc
  · exact Step.keeps_visit_cons hc Step.keeps_nil

end Declarations.Profiled

end SourceIndex
