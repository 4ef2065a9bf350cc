import SourceIndex.Declarations.FoxPro
import SourceIndex.Proofs.FoxPro.Attribution
import SourceIndex.Proofs.FoxPro.Records
import SourceIndex.Proofs.FoxPro.Routines
import SourceIndex.Uses.FoxPro

/-!
# Lines of forms

Symbols and uses of a form stand on lines that are made up from the number of a control and the
place in its methods.  Both passes make them up by the same rule, but the symbol of a routine is as
many lines long as the routine, while its uses are counted one by one.  They agree because routines
share the lines of the methods: one that stands behind so many others, and has so many lines, goes
no further than the methods do.

The lines count up to a bound of 32 bits.  They do not reach it as long as the number of controls
and the size of a memo are within the usual limits.

The first line of a method stops at that bound, and the last one is counted on from there without a
stop.  Neither happens to matter as long as the limits on rows and memos leave room: a row stands
below the limit on rows, and the routines before one, and the lines that it has itself, are lines of
one memo.
-/

namespace SourceIndex.Idiom.FoxPro

/-! ## Bounds of controls -/

namespace Form

/-- A long text has no more line feeds than a memo may have octets. -/
theorem count_longText_le (all : List Column) (heap : Heap) (row : List UInt8) (name : String) :
    (longText all heap row name).toList.count '\n' ≤ heap.maxMemo := by
  rw [longText]
  generalize Option.bind _ _ = block
  cases block with
  | none => exact Nat.zero_le _
  | some block =>
      rw [Option.map_some, Option.getD_some, Heap.text, String.toList_ofList]
      cases hmemo : heap.memo? block with
      | none => exact Nat.zero_le _
      | some content =>
          obtain ⟨-, -, -, -, -, hlength⟩ := exists_of_memo? hmemo
          exact (Text.count_decodeUnknown_le content).trans (List.count_le_length.trans hlength)

theorem controls_of_controls? {limits : Limits} {bytes : List UInt8} {all : List Control}
    (h : controls? limits bytes = some all) :
    controls limits (unpack bytes).1 (unpack bytes).2 = .ok all := by
  simp only [controls?] at h
  cases hcontrols : controls limits (unpack bytes).1 (unpack bytes).2 with
  | error e =>
      rw [hcontrols] at h
      cases h
  | ok found =>
      rw [hcontrols] at h
      exact congrArg Except.ok (Option.some.inj h)

/-- Controls are counted from zero, no more of them than the limit allows, and their methods are no
longer than a memo. -/
theorem bounds_of_mem_controls? {limits : Limits} {bytes : List UInt8} {all : List Control}
    (h : controls? limits bytes = some all) :
    all.length ≤ limits.formRecords.toNat ∧
      ∀ c ∈ all, c.index < all.length ∧ c.methods.toList.count '\n' ≤ limits.memoSize.toNat := by
  obtain ⟨-, rfl⟩ := eq_of_controls (controls_of_controls? h)
  rw [List.length_map, List.length_range]
  refine ⟨(Nat.min_le_left _ _).trans (Nat.min_le_right _ _), fun c hc => ?_⟩
  obtain ⟨index, hindex, rfl⟩ := List.mem_map.1 hc
  exact ⟨List.mem_range.1 hindex, count_longText_le _ _ _ "METHODS"⟩

end Form

/-! ## Made-up lines -/

theorem toNat_formLine (index offset : Nat) :
    (formLine index offset).toNat =
      max 1 (min 0xFFFFFFFF (min 0xFFFFFFFF (1000 * index) + offset)) := by
  rw [Nat.mul_comm]
  exact toNat_toUInt32 (by omega)

theorem one_le_formLine (index offset : Nat) : 1 ≤ formLine index offset := by
  rw [UInt32.le_iff_toNat_le, toNat_formLine]
  exact Nat.le_max_left 1 _

theorem formLine_mono {index count : Nat} (h : index ≤ count) (offset : Nat) :
    formLine index offset ≤ formLine count offset := by
  rw [UInt32.le_iff_toNat_le, toNat_formLine, toNat_formLine]
  omega

/-- Far enough below the greatest line, a made-up line is what it is counted to be. -/
theorem toNat_formLine_of_lt {index offset : Nat} (h : 1000 * index + offset < 2 ^ 32) :
    (formLine index offset).toNat = max 1 (1000 * index + offset) := by
  rw [toNat_formLine]
  omega

/-- The line as many further down as a routine has lines. -/
theorem toNat_formLine_add {index offset size : Nat} (h : 1000 * index + offset + size + 1 < 2 ^ 32) :
    (formLine index offset + size.toUInt32).toNat = max 1 (1000 * index + offset) + size := by
  rw [UInt32.toNat_add, toNat_formLine_of_lt (by omega), toNat_toUInt32 (by omega)]
  exact Nat.mod_eq_of_lt (by omega)

/-- The lines of a routine, counted one by one, are those from its first line to as many further
down as it has. -/
theorem formLine_between {index offset size i : Nat} (hi : i < size)
    (h : 1000 * index + offset + size + 1 < 2 ^ 32) :
    formLine index offset ≤ formLine index (offset + i) ∧
      formLine index (offset + i) ≤ formLine index offset + size.toUInt32 := by
  rw [UInt32.le_iff_toNat_le, UInt32.le_iff_toNat_le, toNat_formLine_add h,
    toNat_formLine_of_lt (by omega), toNat_formLine]
  omega

end SourceIndex.Idiom.FoxPro

namespace SourceIndex.Uses.Form

open SourceIndex.Idiom.FoxPro
open SourceIndex.Declarations.Form (controlName method methods symbolsOf)

/-- Does a symbol with the name of its scope stand around a use? -/
def IsInScope (symbols : List Symbol) (u : Reference) : Prop :=
  ∃ y ∈ symbols, u.sourceName = some y.qualifiedName ∧ y.lineStart ≤ u.line ∧ u.line ≤ y.lineEnd

variable {form : String} {c : Control}

/-- What a routine uses stands in its symbol. -/
theorem procedureUses_inScope {offset : Nat} {p : Procedure}
    (hsmall : 1000 * c.index + offset + p.code.length + 1 < 2 ^ 32) :
    ∀ u ∈ procedureUses form c offset p,
      IsInScope [method (controlName form c) c offset p] u := by
  intro u hu
  obtain ⟨⟨code, i⟩, hcode, hu⟩ := List.mem_flatMap.1 hu
  have hi : i < p.code.length := by
    have hindex := (List.mem_zipIdx hcode).2.1
    rwa [Nat.zero_add] at hindex
  simp only at hu
  split at hu
  · cases hu
  · obtain ⟨hscope, hline⟩ := Uses.FoxPro.scope_of_mem_statementUses hu
    obtain ⟨hstart, hend⟩ := formLine_between hi hsmall
    rw [← hline] at hstart hend
    have hone : 1 ≤ u.line := hline ▸ one_le_formLine c.index (offset + i)
    exact ⟨_, List.mem_singleton.2 rfl, hscope, Symbol.around_ofDetails hone hstart hend⟩

theorem IsInScope.mono {symbols more : List Symbol} {u : Reference} (h : IsInScope symbols u)
    (hmore : symbols ⊆ more) : IsInScope more u := by
  obtain ⟨y, hy, haround⟩ := h
  exact ⟨y, hmore hy, haround⟩

/-- The library of a control is a use of the form, on one of the lines that the form has for its
controls. -/
theorem library_inScope {count : Nat} (hcount : c.index ≤ count) (signature : Option String) :
    ∀ u ∈ library form c,
      IsInScope [Symbol.ofDetails form .class 1 (formLine count 0) { signature }] u := by
  intro u hu
  rw [library] at hu
  split at hu
  · cases hu
  · obtain rfl := List.mem_singleton.1 hu
    have hfirst : 1 ≤ formLine c.index 0 := one_le_formLine c.index 0
    exact ⟨_, List.mem_singleton.2 rfl, rfl,
      Symbol.around_ofDetails hfirst hfirst (formLine_mono hcount 0)⟩

/-- What the routines of a control use stands in their symbols. -/
theorem routineUses_inScope (hsmall : 1000 * c.index + c.methods.toList.count '\n' + 2 < 2 ^ 32) :
    ∀ u ∈ ((Procedure.split c.methods).zipIdx.filter fun p => !p.1.name.isEmpty).flatMap
      fun (p, offset) => procedureUses form c offset p, IsInScope (methods form c) u := by
  intro u hu
  obtain ⟨⟨p, offset⟩, hp, hu⟩ := List.mem_flatMap.1 hu
  have hend := Procedure.end_le_of_mem_split (List.mem_filter.1 hp).1
  refine (procedureUses_inScope (by omega) u hu).mono fun y hy => ?_
  rw [List.mem_singleton.1 hy]
  exact List.mem_map_of_mem hp

/-- While the lines stay below their bound, all that a form uses stands in its symbols. -/
theorem referencesOf_inScope {limits : Limits}
    (hlimits : 1000 * limits.formRecords.toNat + limits.memoSize.toNat < 2 ^ 32) (form : String)
    (bytes : List UInt8) :
    ∀ u ∈ referencesOf form limits bytes, IsInScope (symbolsOf form limits bytes) u := by
  intro u hu
  unfold referencesOf at hu
  unfold symbolsOf
  cases hcontrols : Form.controls? limits bytes with
  | none =>
      rw [hcontrols] at hu
      cases hu
  | some all =>
      rw [hcontrols] at hu
      obtain ⟨c, hc, hu⟩ := List.mem_flatMap.1 hu
      obtain ⟨hlength, hbounds⟩ := Form.bounds_of_mem_controls? hcontrols
      obtain ⟨hindex, hcount⟩ := hbounds c (List.mem_filter.1 hc).1
      rcases List.mem_append.1 hu with hlibrary | hroutine
      · have hform := library_inScope (Nat.le_of_lt hindex) (some ("FORM " ++ form)) u hlibrary
        exact hform.mono fun y hy => List.mem_singleton.1 hy ▸ List.mem_cons_self
      · have hsymbol := routineUses_inScope (by omega) u hroutine
        exact hsymbol.mono fun y hy => List.mem_cons_of_mem _ (List.mem_flatMap.2 ⟨c, hc, hy⟩)

/-- Under the usual limits all that a form uses stands in its symbols, whatever octets it has. -/
theorem references_of_form_inScope (form : String) (bytes : List UInt8) :
    ∀ u ∈ referencesOf form {} bytes, IsInScope (symbolsOf form {} bytes) u :=
  referencesOf_inScope (by decide) form bytes

/-- A form from a library, and a button in it with a routine that calls another one. -/
def formWithCall : List UInt8 :=
  Form.pack [⟨false, "frm", "", "libs/base.vcx", ""⟩,
    ⟨false, "cmd", "frm", "", "PROCEDURE Click\nDO Setup\nENDPROC"⟩]

theorem formWithCall_inScope :
    (∃ u ∈ referencesOf "main" {} formWithCall,
      u.targetName = "base" ∧ IsInScope (symbolsOf "main" {} formWithCall) u) ∧
    ∃ u ∈ referencesOf "main" {} formWithCall,
      u.sourceName = some "main.frm.cmd.Click" ∧ u.line = 1001 ∧
        IsInScope (symbolsOf "main" {} formWithCall) u := by
  have hlibrary : ∃ u ∈ referencesOf "main" {} formWithCall, u.targetName = "base" := by
    decide +kernel
  have hcall : ∃ u ∈ referencesOf "main" {} formWithCall,
      u.sourceName = some "main.frm.cmd.Click" ∧ u.line = 1001 := by
    decide +kernel
  obtain ⟨u, hu, htarget⟩ := hlibrary
  obtain ⟨v, hv, hscope, hline⟩ := hcall
  exact ⟨⟨u, hu, htarget, references_of_form_inScope "main" formWithCall u hu⟩,
    ⟨v, hv, hscope, hline, references_of_form_inScope "main" formWithCall v hv⟩⟩

end SourceIndex.Uses.Form

namespace SourceIndex.Declarations.Form

open SourceIndex.Idiom.FoxPro
open SourceIndex.Idiom.FoxPro.Form (controls?)

/-! ## Lines of methods -/

/-- The routines of a form that have a name and stand in a control that still exists.  Each comes
after the position of its row in the table and its own position in the methods of the row. -/
def routines (limits : Limits) (bytes : List UInt8) : List (Nat × Nat × Procedure) :=
  (((controls? limits bytes).getD []).zipIdx.filter fun (c, _) => c.isLive).flatMap fun (c, row) =>
    ((Procedure.split c.methods).zipIdx.filter fun (p, _) => !p.name.isEmpty).map
      fun (p, position) => (row, position, p)

/-- The name and the lines of a symbol. -/
def nameAndLines (y : Symbol) : String × Nat × Nat :=
  (y.name, y.lineStart.toNat, y.lineEnd.toNat)

/-- The name and the lines that a routine has if they are counted without any bound. -/
def exactLines (r : Nat × Nat × Procedure) : String × Nat × Nat :=
  let (row, position, p) := r
  let first := max 1 (1000 * row + position)
  (p.name, first, first + p.code.length)

variable {form owner : String} {limits : Limits} {bytes : List UInt8} {c : Control} {p : Procedure}
  {position : Nat}

/-- A method with room below the greatest line stands on the lines that are counted for it. -/
theorem nameAndLines_method (h : 1000 * c.index + position + p.code.length + 1 < 2 ^ 32) :
    nameAndLines (method owner c position p) = exactLines (c.index, position, p) := by
  have hfirst : (formLine c.index position).toNat = max 1 (1000 * c.index + position) :=
    toNat_formLine_of_lt (by omega)
  have hlast : (formLine c.index position + p.code.length.toUInt32).toNat =
      max 1 (1000 * c.index + position) + p.code.length :=
    toNat_formLine_add h
  have hone : 1 ≤ (formLine c.index position).toNat := by omega
  have hle : (formLine c.index position).toNat ≤
      (formLine c.index position + p.code.length.toUInt32).toNat := by omega
  obtain ⟨hstart, hend⟩ : (method owner c position p).lineStart.toNat =
        (formLine c.index position).toNat ∧
      (method owner c position p).lineEnd.toNat =
        (formLine c.index position + p.code.length.toUInt32).toNat :=
    Symbol.toNat_lines_ofDetails hone hle
  rw [nameAndLines, hstart, hend, hfirst, hlast]
  rfl

/-- Does a row stand below the limit on rows, and is the text of its methods no longer than a memo?
-/
structure IsWithin (limits : Limits) (c : Control) : Prop where
  row : c.index < limits.formRecords.toNat
  memo : c.methods.toList.count '\n' ≤ limits.memoSize.toNat

/-- While the limits leave room, all methods of a control stand on the lines that are counted. -/
theorem nameAndLines_methods (hc : IsWithin limits c)
    (hlimits : 1000 * limits.formRecords.toNat + 2 * limits.memoSize.toNat + 2 < 2 ^ 32) :
    (methods form c).map nameAndLines =
      ((Procedure.split c.methods).zipIdx.filter fun (p, _) => !p.name.isEmpty).map
        fun (p, position) => exactLines (c.index, position, p) := by
  rw [methods, List.map_map]
  refine List.map_congr_left fun (p, position) hp => ?_
  have hrow := hc.row
  have hmemo := hc.memo
  have hend := Procedure.end_le_of_mem_split (List.mem_filter.1 hp).1
  exact nameAndLines_method (by omega)

theorem filter_methods (form : String) (c : Control) :
    ((methods form c).filter fun y => y.kind == .method) = methods form c := by
  refine List.filter_eq_self.2 fun y hy => ?_
  obtain ⟨r, -, rfl⟩ := List.mem_map.1 hy
  rfl

/-- The methods of a form are those of its controls, but for the form itself. -/
theorem filter_symbolsOf {all : List Control} (h : controls? limits bytes = some all) :
    ((symbolsOf form limits bytes).filter fun y => y.kind == .method) =
      (all.filter Control.isLive).flatMap (methods form) := by
  rw [symbolsOf, h]
  show ((all.filter Control.isLive).flatMap (methods form)).filter (fun y => y.kind == .method) = _
  rw [List.filter_flatMap]
  exact List.flatMap_congr fun c _ => filter_methods form c

theorem routines_of_controls? {all : List Control} (h : controls? limits bytes = some all) :
    routines limits bytes = (all.filter Control.isLive).flatMap fun c =>
      ((Procedure.split c.methods).zipIdx.filter fun (p, _) => !p.name.isEmpty).map
        fun (p, position) => (c.index, position, p) := by
  rw [routines, h, Option.getD_some, Form.zipIdx_of_controls (Form.controls_of_controls? h),
    List.filter_map, List.flatMap_map]
  rfl

/-- The methods of a form are its routines, on the lines that are counted for them without any
bound: the lines neither stop at the greatest one nor start over behind it, as long as the limits
leave room. -/
theorem symbolsOf_methodLines {limits : Limits}
    (hlimits : 1000 * limits.formRecords.toNat + 2 * limits.memoSize.toNat + 2 < 2 ^ 32)
    (form : String) (bytes : List UInt8) :
    ((symbolsOf form limits bytes).filter fun y => y.kind == .method).map nameAndLines =
      (routines limits bytes).map exactLines := by
  cases hcontrols : controls? limits bytes with
  | none =>
      rw [symbolsOf, routines, hcontrols]
      rfl
  | some all =>
      obtain ⟨hlength, hbounds⟩ := Form.bounds_of_mem_controls? hcontrols
      rw [filter_symbolsOf hcontrols, routines_of_controls? hcontrols, List.map_flatMap,
        List.map_flatMap]
      refine List.flatMap_congr fun c hc => ?_
      obtain ⟨hindex, hmemo⟩ := hbounds c (List.mem_filter.1 hc).1
      rw [nameAndLines_methods ⟨Nat.lt_of_lt_of_le hindex hlength, hmemo⟩ hlimits, List.map_map]
      rfl

/-- A form with one routine, and a control in it with two, of which the first has three lines. -/
def formWithRoutines : List UInt8 :=
  Form.pack [⟨false, "frm", "", "", "PROCEDURE Init\nENDPROC"⟩,
    ⟨false, "cmd", "frm", "", "PROCEDURE Click\nDO Setup\nENDPROC\nFUNCTION Value\nRETURN 1"⟩]

theorem formWithRoutines_methodLines :
    1000 * ({} : Limits).formRecords.toNat + 2 * ({} : Limits).memoSize.toNat + 2 < 2 ^ 32 ∧
      ((symbolsOf "main" {} formWithRoutines).filter fun y => y.kind == .method).map nameAndLines =
        [("Init", 1, 3), ("Click", 1000, 1003), ("Value", 1001, 1003)] := by
  have hlimits : 1000 * ({} : Limits).formRecords.toNat + 2 * ({} : Limits).memoSize.toNat + 2 <
      2 ^ 32 := by
    decide
  have hroutines : (routines {} formWithRoutines).map exactLines =
      [("Init", 1, 3), ("Click", 1000, 1003), ("Value", 1001, 1003)] := by
    decide +kernel
  exact ⟨hlimits, (symbolsOf_methodLines hlimits "main" formWithRoutines).trans hroutines⟩

end SourceIndex.Declarations.Form
