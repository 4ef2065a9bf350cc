import Mathlib.Data.List.Induction
import SourceIndex.Declarations.C
import SourceIndex.Declarations.PHP
import SourceIndex.Declarations.Ruby
import SourceIndex.Idiom.ObjC
import SourceIndex.Idiom.Rust
import SourceIndex.Uses.PHP

/-!
# What texts alone decide

What a list of siblings adds up to is often read off their texts, whatever else is said of the
document they stand in: a selector, documentation, or a setting that goes on from one sibling to
those behind it.
-/

namespace SourceIndex

variable {d e : Document}

namespace Idiom

theorem ObjC.selectorFrom_congr (h : d.text = e.text) : selectorFrom d = selectorFrom e := by
  funext parts places
  -- A keyword and its parameter are read in one step, the others one by one.
  induction places using List.twoStepInduction generalizing parts with
  | nil => rfl
  | singleton c => simp only [selectorFrom, h]
  | cons_cons c n rest ih ihNext => simp only [selectorFrom, h, ih, ihNext n]

theorem ObjC.selector_congr (h : d.text = e.text) : selector d = selector e := by
  unfold selector
  rw [selectorFrom_congr h]

theorem Rust.documentationLines_congr (h : d.text = e.text) :
    documentationLines d = documentationLines e := by
  funext places
  induction places with
  | nil => rfl
  | cons q rest ih => rw [documentationLines, documentationLines, h, ih]

theorem Rust.documentation_congr (h : d.text = e.text) : documentation d = documentation e := by
  unfold documentation
  rw [documentationLines_congr h]

end Idiom

namespace Declarations

theorem C.withAccess_congr (h : d.text = e.text) : withAccess d = withAccess e := by
  funext access places
  induction places generalizing access with
  | nil => rfl
  | cons m rest ih => simp only [withAccess, h, ih]

theorem PHP.withSpace_congr (h : d.text = e.text) : withSpace d = withSpace e := by
  funext space places
  induction places generalizing space with
  | nil => rfl
  | cons c rest ih => simp only [withSpace, Document.fieldText, h, ih]

theorem Ruby.withVisibility_congr (h : d.text = e.text) : withVisibility d = withVisibility e := by
  funext visibility statements
  induction statements generalizing visibility with
  | nil => rfl
  | cons statement rest ih => simp only [withVisibility, visibilitySet?, h, ih]

end Declarations

theorem Uses.PHP.withSpace_congr (h : d.text = e.text) : withSpace d = withSpace e := by
  funext space places
  induction places generalizing space with
  | nil => rfl
  | cons c rest ih => simp only [withSpace, Document.fieldText, h, ih]

end SourceIndex
