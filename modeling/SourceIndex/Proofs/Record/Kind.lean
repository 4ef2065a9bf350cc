import SourceIndex.Record.Kind

/-!
# Words of kinds

A kind is written by its word and read back from it.  The two tables of words undo each other but
for one case: a kind that is known only by its word, which is the word of a listed kind, is read as
the listed one.
-/

namespace SourceIndex

section Reading

variable {κ : Type} {word : κ → String} {ofWord other : String → κ} {listed : List κ}

/-- If a table gives every word a kind of this word, and the listed kinds for their words, then it
reads back all kinds but those that are known by the word of a listed one. -/
theorem ofWord_word_eq_iff (hread : ∀ w, word (ofWord w) = w)
    (hlisted : ∀ k ∈ listed, ofWord (word k) = k) (hother : ∀ w, word (other w) = w)
    (hapart : ∀ k, k ∈ listed ↔ ∀ w, k ≠ other w) (k : κ) :
    ofWord (word k) = k ↔ ∀ w, k = other w → w ∉ listed.map word := by
  have hunlisted : ∀ k, k ∉ listed → ∃ w, k = other w := by
    intro k hk
    simpa [hapart] using hk
  constructor
  · rintro h w rfl hmem
    obtain ⟨k, hk, rfl⟩ := List.mem_map.1 hmem
    rw [hother, hlisted k hk] at h
    exact (hapart k).1 hk _ h
  · intro h
    by_cases hk : k ∈ listed
    · exact hlisted k hk
    · obtain ⟨w, rfl⟩ := hunlisted k hk
      have hnot : ofWord w ∉ listed := fun hmem =>
        h w rfl (List.mem_map.2 ⟨ofWord w, hmem, hread w⟩)
      obtain ⟨w', hw'⟩ := hunlisted _ hnot
      have heq : w' = w := by rw [← hread w, hw', hother]
      rw [hother, hw', heq]

end Reading

/-! ## Kinds of symbols -/

namespace SymbolKind

/-- The kinds that have a word of their own. -/
def listed : List SymbolKind :=
  [function, method, constructor, «class», interface, struct, enum, trait, module, «variable»,
    constant, field, property, typeAlias, event, delegate, trigger, page, component, application,
    design, rule]

/-- Does a kind that is known by its word alone leave the words of the listed kinds to them? -/
def IsProper (k : SymbolKind) : Prop :=
  ∀ w, k = other w → w ∉ listed.map word

theorem isProper_of_isOther {k : SymbolKind} (h : k.isOther = false) : k.IsProper := by
  rintro w rfl
  cases h

theorem isProper_other {w : String} (h : w ∉ listed.map word) : (other w).IsProper := by
  rintro _ ⟨⟩
  exact h

theorem mem_listed_iff (k : SymbolKind) : k ∈ listed ↔ ∀ w, k ≠ other w := by
  cases k with
  | other w => exact iff_of_false (by simp [listed]) fun h => h w rfl
  | _ => exact iff_of_true (by decide) nofun

theorem word_ofWord (w : String) : (ofWord w).word = w := by
  unfold ofWord
  split <;> rfl

/-- Just these kinds are read back from their words. -/
theorem ofWord_word_iff (k : SymbolKind) : ofWord k.word = k ↔ k.IsProper :=
  ofWord_word_eq_iff word_ofWord (by decide) (fun _ => rfl) mem_listed_iff k

end SymbolKind

/-! ## Kinds of references -/

namespace ReferenceKind

/-- The kinds that have a word of their own. -/
def listed : List ReferenceKind :=
  [call, imports, inherits, implements, usesTrait, typeRef, reference, soql, label, controller,
    mergeField, «include», componentRef, metadataRef, formulaRef]

/-- Does a kind that is known by its word alone leave the words of the listed kinds to them? -/
def IsProper (k : ReferenceKind) : Prop :=
  ∀ w, k = other w → w ∉ listed.map word

theorem isProper_of_isOther {k : ReferenceKind} (h : k.isOther = false) : k.IsProper := by
  rintro w rfl
  cases h

theorem mem_listed_iff (k : ReferenceKind) : k ∈ listed ↔ ∀ w, k ≠ other w := by
  cases k with
  | other w => exact iff_of_false (by simp [listed]) fun h => h w rfl
  | _ => exact iff_of_true (by decide) nofun

theorem word_ofWord (w : String) : (ofWord w).word = w := by
  unfold ofWord
  split <;> rfl

/-- Just these kinds are read back from their words. -/
theorem ofWord_word_iff (k : ReferenceKind) : ofWord k.word = k ↔ k.IsProper :=
  ofWord_word_eq_iff word_ofWord (by decide) (fun _ => rfl) mem_listed_iff k

end ReferenceKind

end SourceIndex
