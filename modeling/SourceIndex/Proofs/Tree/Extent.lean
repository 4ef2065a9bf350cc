import Mathlib.Data.List.Infix
import SourceIndex.Proofs.Lines.Standing
import SourceIndex.Proofs.Tree.Descent

/-!
# Lines inside lines

In a well-formed tree a place lies inside every place above it, and so do its lines: what stands at
a place is covered by what stands at a place above.
-/

namespace SourceIndex

/-- The lines from a first to a last one. -/
structure Span where
  first : Nat
  last : Nat

namespace Span

/-- Are the lines of the second span among those of the first? -/
def Covers (s t : Span) : Prop :=
  s.first ≤ t.first ∧ t.last ≤ s.last

variable {s t u : Span}

theorem Covers.refl (s : Span) : s.Covers s :=
  ⟨Nat.le_refl _, Nat.le_refl _⟩

theorem Covers.trans (h : s.Covers t) (h' : t.Covers u) : s.Covers u :=
  ⟨Nat.le_trans h.1 h'.1, Nat.le_trans h'.2 h.2⟩

/-- The lines of a symbol that is made for these two: from one on, and in order. -/
def ofLines (first last : UInt32) : Span :=
  ⟨max first.toNat 1, max last.toNat (max first.toNat 1)⟩

end Span

/-- The lines of a symbol. -/
def Symbol.span (y : Symbol) : Span :=
  ⟨y.lineStart.toNat, y.lineEnd.toNat⟩

theorem Symbol.span_ofDetails {name : String} {kind : SymbolKind} {first last : UInt32}
    {details : Details} :
    (ofDetails name kind first last details).span = Span.ofLines first last := by
  have hone : (1 : UInt32).toNat = 1 := rfl
  have hstart : (max first 1).toNat = max first.toNat 1 := by rw [toNat_max, hone]
  have hend : (max last (max first 1)).toNat = max last.toNat (max first.toNat 1) := by
    rw [toNat_max, hstart]
  exact congrArg₂ Span.mk hstart hend

/-! ## Well-formed trees -/

namespace Place

variable {p q : Place}

/-- Do the octets of every place from here down lie inside those of its parent? -/
def IsWellFormed (p : Place) : Prop :=
  ∀ q ∈ p.subtree, ∀ c ∈ q.children, q.start ≤ c.start ∧ c.start ≤ c.stop ∧ c.stop ≤ q.stop

instance (p : Place) : Decidable p.IsWellFormed :=
  inferInstanceAs (Decidable (∀ q ∈ p.subtree, ∀ c ∈ q.children, _))

theorem IsWellFormed.of_mem_subtree (h : p.IsWellFormed) (hq : q ∈ p.subtree) : q.IsWellFormed :=
  fun r hr => h r (mem_subtree_trans hq hr)

/-- A place lies inside any place above it, or is that place. -/
theorem IsWellFormed.bounds (h : p.IsWellFormed) (hq : q ∈ p.subtree) :
    p.start ≤ q.start ∧ q.stop ≤ p.stop ∧ (q = p ∨ q.start ≤ q.stop) := by
  have hbounds := forall_mem_subtree (p := p)
    (P := fun q => q ∈ p.subtree ∧ p.start ≤ q.start ∧ q.stop ≤ p.stop ∧ (q = p ∨ q.start ≤ q.stop))
    (fun r c hc hr => ?_) ⟨self_mem_subtree p, Nat.le_refl _, Nat.le_refl _, Or.inl rfl⟩ q hq
  · exact hbounds.2
  · obtain ⟨hmem, hstart, hstop, -⟩ := hr
    obtain ⟨hfirst, hordered, hlast⟩ := h r hmem c hc
    refine ⟨mem_subtree_of_mem_children hmem hc, ?_, ?_, Or.inr hordered⟩
    · exact Nat.le_trans hstart hfirst
    · exact Nat.le_trans hlast hstop

end Place

/-! ## Lines of places -/

namespace Document

variable {d : Document} {p q r : Place}

/-- Later offsets are not on earlier lines. -/
theorem lineAt_mono (hd : d.IsNumbered) {a b : Nat} (h : a ≤ b) :
    (d.lineAt a).toNat ≤ (d.lineAt b).toNat := by
  rw [toNat_lineAt hd, toNat_lineAt hd]
  exact Nat.succ_le_succ ((List.take_prefix_take_left h).sublist.count_le lineFeed)

/-- The lines from the start of one place to the end of another one. -/
def spanFrom (d : Document) (p q : Place) : Span :=
  .ofLines (d.startLine p) (d.endLine q)

/-- The lines of a place. -/
def span (d : Document) (p : Place) : Span :=
  d.spanFrom p p

@[simp] theorem span_symbol {name : String} {kind : SymbolKind} {details : Symbol.Details} :
    (d.symbol p name kind details).span = d.span p :=
  Symbol.span_ofDetails

theorem span_bounds (hd : d.IsNumbered) (p : Place) :
    1 ≤ (d.span p).first ∧ (d.span p).first ≤ (d.span p).last ∧ (d.span p).last ≤ d.lineTotal := by
  obtain ⟨hone, hfirst⟩ := lineAt_bounds hd p.start
  obtain ⟨-, hlast⟩ := lineAt_bounds hd p.stop
  simp only [span, spanFrom, Span.ofLines, startLine, endLine]
  omega

/-- What starts with a place and ends with one inside it is covered by the place. -/
theorem span_covers_spanFrom (hd : d.IsNumbered) (hp : p.IsWellFormed) (hq : q ∈ p.subtree) :
    (d.span p).Covers (d.spanFrom p q) := by
  have hlast := lineAt_mono hd (hp.bounds hq).2.1
  simp only [Span.Covers, span, spanFrom, Span.ofLines, startLine, endLine]
  omega

/-- What starts with a place and ends with one inside it covers all that is inside the latter. -/
theorem spanFrom_covers_span (hd : d.IsNumbered) (hp : p.IsWellFormed) (hq : q ∈ p.subtree)
    (hr : r ∈ q.subtree) : (d.spanFrom p q).Covers (d.span r) := by
  obtain ⟨hfrom, -, hordered⟩ := hp.bounds hq
  obtain ⟨hstart, hstop, hinner⟩ := (hp.of_mem_subtree hq).bounds hr
  have hfirst := lineAt_mono hd (Nat.le_trans hfrom hstart)
  have hlast := lineAt_mono hd hstop
  -- The inner place does not start behind the end of the outer one, unless they are one place.
  have hreach : (d.startLine r).toNat ≤ max (d.endLine q).toNat (d.startLine p).toNat := by
    rcases hinner with rfl | hinner
    · rcases hordered with rfl | hordered
      · exact Nat.le_max_right _ _
      · exact Nat.le_trans (lineAt_mono hd hordered) (Nat.le_max_left _ _)
    · exact Nat.le_trans (lineAt_mono hd (Nat.le_trans hinner hstop)) (Nat.le_max_left _ _)
  simp only [startLine, endLine] at hreach
  simp only [Span.Covers, span, spanFrom, Span.ofLines, startLine, endLine]
  omega

theorem span_covers (hd : d.IsNumbered) (hp : p.IsWellFormed) (hq : q ∈ p.subtree) :
    (d.span p).Covers (d.span q) :=
  spanFrom_covers_span hd hp (Place.self_mem_subtree p) hq

/-- The whole file covers whatever stands on its lines. -/
theorem fileSymbol_covers (hd : d.IsNumbered) {name : String} {kind : SymbolKind}
    {details : Symbol.Details} {y : Symbol} (hy : y.StandsIn d.lineTotal) :
    (d.fileSymbol name kind details).span.Covers y.span := by
  have hone : (1 : UInt32).toNat = 1 := rfl
  have hcount : d.lineCount.toNat = d.lineTotal := by
    rw [lineCount_eq_lineAt, toNat_lineAt hd, List.take_length, lineTotal]
  obtain ⟨hfirst, -, hlast⟩ := hy
  rw [fileSymbol, Symbol.span_ofDetails]
  simp only [Span.Covers, Symbol.span, Span.ofLines, hone, hcount]
  omega

end Document

/-! ## Symbols of places -/

namespace Symbol

variable {d : Document} {owner : Option String} {p q : Place} {y : Symbol}

/-- Has a symbol the lines of a place or of one below it, and does it name this owner? -/
def LiesIn (d : Document) (owner : Option String) (p : Place) (y : Symbol) : Prop :=
  ∃ q ∈ p.subtree, y.span = d.span q ∧ y.parentName = owner

theorem liesIn_symbol {name : String} {kind : SymbolKind} {details : Details}
    (h : details.parentName = owner) : (d.symbol p name kind details).LiesIn d owner p :=
  ⟨p, Place.self_mem_subtree p, Document.span_symbol, h⟩

theorem LiesIn.above (h : y.LiesIn d owner q) (hq : q ∈ p.subtree) : y.LiesIn d owner p := by
  obtain ⟨r, hr, hspan, hparent⟩ := h
  exact ⟨r, Place.mem_subtree_trans hq hr, hspan, hparent⟩

theorem LiesIn.ofChild (h : y.LiesIn d owner q) (hq : q ∈ p.children) : y.LiesIn d owner p :=
  h.above (Place.mem_subtree_of_child hq)

theorem LiesIn.standsIn (hd : d.IsNumbered) (h : y.LiesIn d owner p) : y.StandsIn d.lineTotal := by
  obtain ⟨q, -, hspan, -⟩ := h
  have hbounds := Document.span_bounds hd q
  rw [← hspan] at hbounds
  exact hbounds

/-- Whatever lies in a place stands on the lines of the source. -/
theorem forall_standsIn (hd : d.IsNumbered) {P : Symbol → Prop}
    (h : ∀ y, P y → y.LiesIn d owner p) : ∀ y, P y → y.StandsIn d.lineTotal :=
  fun y hy => (h y hy).standsIn hd

end Symbol

end SourceIndex
