import SourceIndex.Proofs.Tree.Emission
import SourceIndex.Proofs.Tree.Extent

/-!
# The limit for literals

A symbol keeps the literal that it starts with, if that is not too long.  In some languages there
are places whose literals nobody measures, so that they are kept whatever their length.  Such places
are told by a function, which lists the texts that are kept of a place in this way.
-/

namespace SourceIndex

/-- Has a symbol no literal? -/
def Symbol.IsBare (y : Symbol) : Prop :=
  y.defaultValue = none

/-- Is the literal of a symbol within the limit, if the symbol has one? -/
def Symbol.IsWithin (limits : Limits) (y : Symbol) : Prop :=
  ∀ v ∈ y.defaultValue, Text.size v ≤ limits.literalSize.toNat

instance (limits : Limits) (y : Symbol) : Decidable (y.IsWithin limits) :=
  inferInstanceAs (Decidable (∀ v ∈ y.defaultValue, _))

/-- Does a symbol stand at a place, or below it, and is its literal one that nobody measures, which
stands at the place of the symbol or below that? -/
def Symbol.IsUnmeasured (d : Document) (unmeasured : Place → List String) (root : Place)
    (y : Symbol) : Prop :=
  ∃ p ∈ root.subtree, y.span = d.span p ∧
    ∃ q ∈ p.subtree, ∃ v ∈ unmeasured q, y.defaultValue = some v

deriving instance DecidableEq for Span

instance (d : Document) (unmeasured : Place → List String) (root : Place) (y : Symbol) :
    Decidable (y.IsUnmeasured d unmeasured root) :=
  inferInstanceAs (Decidable (∃ p ∈ root.subtree, y.span = d.span p ∧
    ∃ q ∈ p.subtree, ∃ v ∈ unmeasured q, y.defaultValue = some v))

/-- Is the literal of a symbol within the limit, or one that nobody measures? -/
def Symbol.IsMeasured (d : Document) (unmeasured : Place → List String) (root : Place)
    (y : Symbol) : Prop :=
  y.IsWithin d.limits ∨ y.IsUnmeasured d unmeasured root

/-- Is the text that is kept of a place within the limit, or one of those that nobody measures there
or below? -/
def Document.Measures (d : Document) (unmeasured : Place → List String) (p : Place)
    (literal : Option String) : Prop :=
  ∀ v ∈ literal, Text.size v ≤ d.limits.literalSize.toNat ∨ ∃ q ∈ p.subtree, v ∈ unmeasured q

variable {d : Document} {unmeasured : Place → List String} {root p q : Place} {y : Symbol}
  {literal : Option String}

namespace Document

theorem measures_none : d.Measures unmeasured p none :=
  nofun

/-- A text that is kept for its size is measured. -/
theorem measures_filter :
    d.Measures unmeasured p (literal.filter fun v => Text.size v ≤ d.limits.literalSize.toNat) :=
  fun _ hv => Or.inl (of_decide_eq_true (Option.filter_eq_some_iff.1 hv).2)

/-- What nobody measures may be kept. -/
theorem measures_of_unmeasured (hq : q ∈ p.subtree) (h : unmeasured q = literal.toList) :
    d.Measures unmeasured p literal :=
  fun _ hv => Or.inr ⟨q, hq, h ▸ Option.mem_toList.2 hv⟩

/-- What is kept of a place is kept of the places above. -/
theorem Measures.above (h : d.Measures unmeasured q literal) (hq : q ∈ p.subtree) :
    d.Measures unmeasured p literal := by
  intro v hv
  rcases h v hv with hsize | ⟨r, hr, hv⟩
  · exact Or.inl hsize
  · exact Or.inr ⟨r, Place.mem_subtree_trans hq hr, hv⟩

end Document

namespace Symbol

theorem isWithin_of_isBare {limits : Limits} (h : y.IsBare) : y.IsWithin limits := by
  intro v hv
  rw [show y.defaultValue = none from h] at hv
  cases hv

/-- A literal that was kept for its size is within the limit. -/
theorem isWithin_of_filter {limits : Limits}
    (h : y.defaultValue = literal.filter fun v => Text.size v ≤ limits.literalSize.toNat) :
    y.IsWithin limits := by
  intro v hv
  rw [h] at hv
  exact of_decide_eq_true (Option.filter_eq_some_iff.1 hv).2

theorem isMeasured_of_isBare (h : y.IsBare) : y.IsMeasured d unmeasured root :=
  Or.inl (isWithin_of_isBare h)

/-- A symbol is measured if what it keeps is, or is what nobody measures at its place. -/
theorem isMeasured_of_measures (hp : p ∈ root.subtree) (hspan : y.span = d.span p)
    (h : d.Measures unmeasured p y.defaultValue) : y.IsMeasured d unmeasured root := by
  cases hliteral : y.defaultValue with
  | none => exact isMeasured_of_isBare hliteral
  | some v =>
      rw [hliteral] at h
      rcases h v rfl with hsize | ⟨q, hq, hv⟩
      · left
        intro w hw
        rw [hliteral] at hw
        cases hw
        exact hsize
      · exact Or.inr ⟨p, hp, hspan, q, hq, v, hv, hliteral⟩

/-- A symbol may be given its literal later. -/
theorem isMeasured_withLiteral (hp : p ∈ root.subtree) (hspan : y.span = d.span p)
    (h : d.Measures unmeasured p literal) :
    ({ y with defaultValue := literal } : Symbol).IsMeasured d unmeasured root :=
  isMeasured_of_measures hp hspan h

theorem isMeasured_symbol (hp : p ∈ root.subtree) {name : String} {kind : SymbolKind}
    {details : Details} (h : d.Measures unmeasured p details.defaultValue) :
    (d.symbol p name kind details).IsMeasured d unmeasured root :=
  isMeasured_of_measures hp Document.span_symbol h

end Symbol

/-- Steps of a walk over symbols that stay below a place, and hand out symbols with literals that
are measured or that nobody measures. -/
abbrev StaysMeasured {τ : Type} (d : Document) (unmeasured : Place → List String) (root : Place)
    (steps : List (Step τ Symbol)) : Prop :=
  Step.Keeps (fun _ => True) (Symbol.IsMeasured d unmeasured root) (fun _ q => q ∈ root.subtree)
    steps

/-- If the steps of a rule measure literals, so do its walks. -/
theorem Rule.forall_isMeasured {τ : Type} {rule : Rule τ Symbol} (h : rule.Descends)
    (hrule : ∀ task p, p ∈ root.subtree → StaysMeasured d unmeasured root (rule task p))
    (task : τ) : ∀ y ∈ rule.walk task root, y.IsMeasured d unmeasured root :=
  forall_mem_walk_of_keeps h (fun _ _ => trivial) hrule (Place.self_mem_subtree root)

end SourceIndex
