import SourceIndex.Proofs.Tree.Emission
import SourceIndex.Proofs.Tree.Extent

/-!
# Owners of symbols

A symbol that names its owner has one among the symbols that it is listed with: a symbol of that
qualified name, which covers the lines of the first.

A walk that carries the name of an owner into the place that the owner declares keeps this.  What it
hands out there lies inside the place, and so on lines that the owner covers.
-/

namespace SourceIndex

/-- If an owner is named, is there a symbol of this name that covers the lines? -/
def Owned (all : List Symbol) (owner : Option String) (lines : Span) : Prop :=
  ∀ name ∈ owner, ∃ z ∈ all, z.qualifiedName = name ∧ z.span.Covers lines

/-- If a symbol names its owner, is there such a symbol, and does it cover the lines? -/
def Symbol.HasOwner (all : List Symbol) (y : Symbol) : Prop :=
  Owned all y.parentName y.span

/-- Have all symbols of a list that name their owners these owners in the list? -/
def IsHierarchy (symbols : List Symbol) : Prop :=
  ∀ y ∈ symbols, y.HasOwner symbols

/-- What holds where a walk goes on in the name of an owner. -/
structure Under (d : Document) (all : List Symbol) (owner : Option String) (p : Place) : Prop where
  numbered : d.IsNumbered
  wellFormed : p.IsWellFormed
  owned : Owned all owner (d.span p)

/-- Steps of a walk over symbols that keep owners: those of the symbols that they hand out are among
all symbols, and so are those in the name of which they go on. -/
abbrev Nests {τ : Type} (d : Document) (all : List Symbol) (name : τ → Option String)
    (steps : List (Step τ Symbol)) : Prop :=
  Step.Keeps (· ∈ all) (Symbol.HasOwner all) (fun task p => Under d all (name task) p) steps

variable {d : Document} {all : List Symbol} {owner : Option String} {p q : Place} {y z : Symbol}

theorem Owned.mono {s t : Span} (h : Owned all owner s) (hcovers : s.Covers t) :
    Owned all owner t := by
  intro name hname
  obtain ⟨z, hz, heq, hspan⟩ := h name hname
  exact ⟨z, hz, heq, hspan.trans hcovers⟩

theorem owned_none {lines : Span} : Owned all none lines :=
  nofun

theorem Symbol.hasOwner_of_none (h : y.parentName = none) : y.HasOwner all := by
  rw [HasOwner, h]
  exact owned_none

/-- Owners may be found among more symbols. -/
theorem Symbol.HasOwner.of_subset {more : List Symbol} (h : y.HasOwner all) (hsubset : all ⊆ more) :
    y.HasOwner more := by
  intro name hname
  obtain ⟨z, hz, howner⟩ := h name hname
  exact ⟨z, hsubset hz, howner⟩

namespace Under

theorem of_root (hd : d.IsNumbered) (hp : p.IsWellFormed) : Under d all none p :=
  ⟨hd, hp, owned_none⟩

/-- The owner of a place owns the places below it. -/
theorem below (h : Under d all owner p) (hq : q ∈ p.subtree) : Under d all owner q where
  numbered := h.numbered
  wellFormed := h.wellFormed.of_mem_subtree hq
  owned := h.owned.mono (Document.span_covers h.numbered h.wellFormed hq)

theorem child (h : Under d all owner p) (hq : q ∈ p.children) : Under d all owner q :=
  h.below (Place.mem_subtree_of_child hq)

/-- A walk may go on without an owner. -/
theorem unowned (h : Under d all owner p) : Under d all none p :=
  of_root h.numbered h.wellFormed

/-- A symbol that covers a place owns it. -/
theorem of_covers (h : Under d all owner p) (hz : z ∈ all) (hspan : z.span.Covers (d.span p)) :
    Under d all (some z.qualifiedName) p where
  numbered := h.numbered
  wellFormed := h.wellFormed
  owned := fun _ hname => ⟨z, hz, Option.mem_some.1 hname, hspan⟩

/-- The symbol of a place owns what is inside the place. -/
theorem enter (h : Under d all owner p) (hz : z ∈ all) (hspan : z.span = d.span p)
    (hq : q ∈ p.subtree) : Under d all (some z.qualifiedName) q :=
  (h.of_covers hz (hspan ▸ Span.Covers.refl _)).below hq

/-- What names the owner of a place and stands inside it has this owner. -/
theorem hasOwner (h : Under d all owner p) (hparent : y.parentName = owner)
    (hspan : (d.span p).Covers y.span) : y.HasOwner all := by
  rw [Symbol.HasOwner, hparent]
  exact h.owned.mono hspan

theorem hasOwner_symbol (h : Under d all owner p) {name : String} {kind : SymbolKind}
    {details : Symbol.Details} (hparent : details.parentName = owner) :
    (d.symbol p name kind details).HasOwner all :=
  h.hasOwner hparent (Document.span_symbol ▸ Span.Covers.refl _)

/-- Whatever lies in a place and names its owner has it. -/
theorem forall_hasOwner (h : Under d all owner p) {P : Symbol → Prop}
    (hP : ∀ y, P y → y.LiesIn d owner p) : ∀ y, P y → y.HasOwner all := by
  intro y hy
  obtain ⟨q, hq, hspan, hparent⟩ := hP y hy
  exact (h.below hq).hasOwner hparent (hspan ▸ Span.Covers.refl _)

end Under

/-- A walk whose rule keeps owners gives a hierarchy. -/
theorem Rule.isHierarchy_walk {τ : Type} {rule : Rule τ Symbol} (h : rule.Descends)
    (name : τ → Option String) {task : τ} (hd : d.IsNumbered) (hp : p.IsWellFormed)
    (hname : name task = none)
    (hrule : ∀ all t q, Under d all (name t) q → Nests d all name (rule t q)) :
    IsHierarchy (rule.walk task p) := by
  refine forall_mem_walk_of_keeps h (fun _ => id) (hrule (rule.walk task p)) ?_
  rw [hname]
  exact Under.of_root hd hp

end SourceIndex
