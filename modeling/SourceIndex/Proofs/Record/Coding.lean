import SourceIndex.Proofs.Json.Reading
import SourceIndex.Proofs.Record.Kind
import SourceIndex.Record.Coding

/-!
# Records read back

A record is written as an object with all of its fields, and is read back from it, and from the text
of it, if the words of its kinds are.
-/

namespace SourceIndex

/-- What is read from what is written for some items. -/
theorem mapM_map_eq_some {α β γ : Type} {write : α → β} {read : β → Option γ} {result : α → γ}
    {items : List α} (h : ∀ a ∈ items, read (write a) = some (result a)) :
    (items.map write).mapM read = some (items.map result) := by
  induction items with
  | nil => rfl
  | cons a items ih =>
      obtain ⟨ha, hitems⟩ := List.forall_mem_cons.1 h
      rw [List.map_cons, List.mapM_cons, ha, ih hitems]
      rfl

/-! ## Fields -/

namespace Json

variable {keys : List String} {values : List Json}

/-- Of members with different keys, each has its key for itself. -/
theorem filter_key_zip (hkeys : keys.Nodup) {key : String} {v : Json}
    (h : (key, v) ∈ keys.zip values) :
    ((keys.zip values).map fun (k, v) => (some k, v)).filter (fun m => m.1 == some key) =
      [(some key, v)] := by
  induction keys generalizing values with
  | nil => cases h
  | cons k keys ih =>
      cases values with
      | nil => cases h
      | cons w values =>
          obtain ⟨hk, hkeys⟩ := List.nodup_cons.1 hkeys
          rw [List.zip_cons_cons] at h
          rcases List.mem_cons.1 h with heq | h
          · cases heq
            have hrest : ((keys.zip values).map fun (k, v) => (some k, v)).filter
                (fun m => m.1 == some key) = [] := by
              rw [List.filter_eq_nil_iff]
              intro m hm
              obtain ⟨⟨k, v⟩, hkv, rfl⟩ := List.mem_map.1 hm
              simp only [beq_iff_eq, Option.some.injEq]
              rintro rfl
              exact hk (List.of_mem_zip hkv).1
            simp [hrest]
          · have hne : k ≠ key := by
              rintro rfl
              exact hk (List.of_mem_zip h).1
            simpa [hne] using ih hkeys h

/-- Fields with different keys are read back one by one. -/
theorem fieldsOf?_ofMembers_zip (hkeys : keys.Nodup) (hlength : keys.length = values.length) :
    fieldsOf? keys (ofMembers (keys.zip values)) = some (values.map some) := by
  have hproper :
      (((keys.zip values).map fun (k, v) => (some k, v)).any fun m => m.1.isNone) = false := by
    simp
  have hread : ((keys.zip values).map Prod.fst).mapM
      (valueOf? ((keys.zip values).map fun (k, v) => (some k, v))) =
        some ((keys.zip values).map fun m => some m.2) := by
    refine mapM_map_eq_some fun m hm => ?_
    rw [valueOf?, filter_key_zip hkeys hm]
  rw [List.map_fst_zip (Nat.le_of_eq hlength)] at hread
  have hvalues : (keys.zip values).map (fun m => some m.2) = values.map some := calc
    _ = ((keys.zip values).map Prod.snd).map some := List.map_map.symm
    _ = values.map some := by rw [List.map_snd_zip (Nat.le_of_eq hlength.symm)]
  rw [hvalues] at hread
  show valuesOf? keys _ = _
  rw [valuesOf?, hproper, if_neg Bool.false_ne_true, hread]

theorem word?_ofNat (n : UInt32) : word? (ofNat n.toNat) = some n := by
  rw [word?, natBelow?_ofNat n.toNat_lt]
  simp

theorem nullable?_ofText? (text : Option String) : (ofText? text).nullable? = some text := by
  cases text <;> rfl

theorem isPlain_ofText? (text : Option String) : (ofText? text).IsPlain := by
  cases text with
  | none => exact .null
  | some s => exact .string s

theorem isPlain_ofMembers_zip (h : ∀ v ∈ values, v.IsPlain) :
    (ofMembers (keys.zip values)).IsPlain :=
  .ofMembers fun _ hm => h _ (List.of_mem_zip hm).2

end Json

open Json

theorem Visibility.ofJson?_word (v : Visibility) : ofJson? (.string v.word) = some v := by
  cases v <;> decide

/-! ## Symbols -/

namespace Symbol

theorem isPlain_toJson (y : Symbol) : y.toJson.IsPlain := by
  apply isPlain_ofMembers_zip
  simp only [List.forall_mem_cons]
  exact ⟨.string _, .string _, .string _, isPlain_ofText? _, .ofNat _, .ofNat _,
    isPlain_ofText? _, .string _, .bool _, isPlain_ofText? _, isPlain_ofText? _,
    List.forall_mem_nil _⟩

theorem ofJson?_toJson {y : Symbol} (h : y.kind.IsProper) : ofJson? y.toJson = some y := by
  have hkeys : keys.Nodup := by decide
  rw [ofJson?, toJson, fieldsOf?_ofMembers_zip hkeys rfl]
  simp [text?, nullable?_ofText?, word?_ofNat, Visibility.ofJson?_word, bool?,
    (SymbolKind.ofWord_word_iff _).2 h]

end Symbol

/-! ## References -/

namespace Reference

theorem isPlain_toJson (r : Reference) : r.toJson.IsPlain := by
  apply isPlain_ofMembers_zip
  simp only [List.forall_mem_cons]
  exact ⟨isPlain_ofText? _, .string _, .string _, .ofNat _, isPlain_ofText? _,
    List.forall_mem_nil _⟩

theorem ofJson?_toJson {r : Reference} (h : r.kind.IsProper) : ofJson? r.toJson = some r := by
  have hkeys : keys.Nodup := by decide
  rw [ofJson?, toJson, fieldsOf?_ofMembers_zip hkeys rfl]
  simp [text?, nullable?_ofText?, word?_ofNat, (ReferenceKind.ofWord_word_iff _).2 h]

end Reference

/-! ## Files -/

namespace FileExtraction

/-- Are all kinds of an extraction read back from their words? -/
structure IsProper (f : FileExtraction) : Prop where
  symbols : ∀ y ∈ f.symbols, y.kind.IsProper
  references : ∀ r ∈ f.references, r.kind.IsProper

theorem isPlain_toJson (f : FileExtraction) : f.toJson.IsPlain := by
  apply isPlain_ofMembers_zip
  simp only [List.forall_mem_cons]
  refine ⟨.string _, .string _, .array ?_, .array ?_, .string _, List.forall_mem_nil _⟩
  · exact List.forall_mem_map.2 fun y _ => y.isPlain_toJson
  · exact List.forall_mem_map.2 fun r _ => r.isPlain_toJson

theorem ofJson?_toJson {f : FileExtraction} (h : f.IsProper) : ofJson? f.toJson = some f := by
  have hkeys : keys.Nodup := by decide
  have hsymbols : (f.symbols.map Symbol.toJson).mapM Symbol.ofJson? = some (f.symbols.map id) :=
    mapM_map_eq_some fun y hy => Symbol.ofJson?_toJson (h.symbols y hy)
  have hreferences : (f.references.map Reference.toJson).mapM Reference.ofJson? =
      some (f.references.map id) :=
    mapM_map_eq_some fun r hr => Reference.ofJson?_toJson (h.references r hr)
  rw [List.map_id] at hsymbols hreferences
  rw [ofJson?, toJson, fieldsOf?_ofMembers_zip hkeys rfl]
  simp [text?, hsymbols, hreferences]

end FileExtraction

end SourceIndex
