import SourceIndex.Declarations.Markup
import SourceIndex.Declarations.Metadata
import SourceIndex.Proofs.Lines.Standing
import SourceIndex.Proofs.Tree.Emission
import SourceIndex.Uses.Markup
import SourceIndex.Uses.Metadata

/-!
# Lines of markup

A file of markup is a symbol of all of its lines.  What stands in the tree stands on the lines of
its places, and what is found in the text on the lines of the matches.
-/

namespace SourceIndex

open Document (standsIn_symbol standsIn_fileSymbol standsIn_reference)

variable {α : Type} {d : Document}

/-- Keeping the first of each key hands out nothing new. -/
theorem subset_firstOfEachFrom {κ : Type} [BEq κ] {key : α → κ} {seen : List κ} {items : List α} :
    firstOfEachFrom key seen items ⊆ items := by
  induction items generalizing seen with
  | nil => exact List.Subset.refl _
  | cons a rest ih =>
      rw [firstOfEachFrom]
      split
      · exact List.subset_cons_of_subset a ih
      · exact List.cons_subset_cons a ih

namespace Idiom.Markup

/-- What a walk over markup gives, some place gave. -/
theorem forall_mem_walk {pick : Place → Option α} {P : α → Prop} (h : ∀ p, ∀ a ∈ pick p, P a)
    (root : Place) : ∀ a ∈ walk d pick root, P a := by
  refine Rule.forall_mem_walk_of_emits (fun depth p => ?_) _ root
  unfold elementRule
  refine Step.emits_ite_nil.2 fun _ => Step.emits_flatMap.2 fun c _ => ?_
  exact Step.emits_append.2 ⟨Step.emits_emit?.2 (h c), by simp⟩

/-- Does a find stand on one of the first so many lines? -/
def Find.StandsIn (lines : Nat) (f : Find) : Prop :=
  1 ≤ f.line.toNat ∧ f.line.toNat ≤ lines

theorem Find.reference_standsIn {lines : Nat} {f : Find} (h : f.StandsIn lines)
    (kind : ReferenceKind) : (f.reference kind).StandsIn lines :=
  h

theorem finds_stand (hd : d.IsNumbered) {pattern : Text.Pattern Char} {group : Nat} :
    ∀ f ∈ finds pattern group d.fullText, f.StandsIn d.lineTotal := by
  intro f hf
  obtain ⟨m, -, hf⟩ := List.mem_filterMap.1 hf
  obtain ⟨text, -, rfl⟩ := Option.map_eq_some_iff.1 hf
  exact Document.lineOf_bounds hd m.start

theorem parts_stand {lines : Nat} {f : Find} (h : f.StandsIn lines) :
    ∀ g ∈ f.parts, g.StandsIn lines := by
  intro g hg
  obtain ⟨text, -, rfl⟩ := List.mem_map.1 hg
  exact h

/-- Uses of what was found stand where it was found. -/
theorem references_stand {lines : Nat} {all : List Find} (h : ∀ f ∈ all, f.StandsIn lines)
    (kind : ReferenceKind) : ∀ r ∈ all.map fun f => f.reference kind, r.StandsIn lines := by
  intro r hr
  obtain ⟨f, hf, rfl⟩ := List.mem_map.1 hr
  exact Find.reference_standsIn (h f hf) kind

end Idiom.Markup

open Idiom.Markup (Find finds_stand parts_stand references_stand)

namespace Declarations.Aura

theorem member?_standsIn (hd : d.IsNumbered) {owner : String} {tag : Place} :
    ∀ y ∈ member? d owner tag, y.StandsIn d.lineTotal := by
  intro y hy
  obtain ⟨tagName, -, hy⟩ := Option.bind_eq_some_iff.1 hy
  obtain ⟨kind, -, hy⟩ := Option.bind_eq_some_iff.1 hy
  obtain ⟨name, -, hy⟩ := Option.bind_eq_some_iff.1 hy
  cases hy
  exact standsIn_symbol hd

theorem symbols_stand (hd : d.IsNumbered) (root : Option Place) :
    ∀ y ∈ symbols d root, y.StandsIn d.lineTotal := by
  intro y hy
  rcases List.mem_cons.1 hy with rfl | hy
  · exact standsIn_fileSymbol hd
  · refine forall_mem_getD_map (fun r => ?_) y (subset_firstOfEachFrom hy)
    refine Idiom.Markup.forall_mem_walk (fun p y hy => ?_) r
    obtain ⟨tag, -, hy⟩ := Option.bind_eq_some_iff.1 hy
    exact member?_standsIn hd y hy

end Declarations.Aura

namespace Declarations.Visualforce

theorem symbols_stand (hd : d.IsNumbered) : ∀ y ∈ symbols d, y.StandsIn d.lineTotal := by
  intro y hy
  obtain rfl := List.mem_singleton.1 hy
  exact standsIn_fileSymbol hd

end Declarations.Visualforce

namespace Declarations.Metadata

open Idiom.Metadata

theorem part?_standsIn (hd : d.IsNumbered) {s : Subject} {qualified : String} {p : Place} :
    ∀ y ∈ part? d s qualified p, y.StandsIn d.lineTotal := by
  intro y hy
  obtain ⟨tag, -, hy⟩ := Option.bind_eq_some_iff.1 hy
  obtain ⟨name, -, hy⟩ := Option.bind_eq_some_iff.1 hy
  cases hy
  exact standsIn_symbol hd

theorem symbols_stand (hd : d.IsNumbered) (root : Option Place) :
    ∀ y ∈ symbols d root, y.StandsIn d.lineTotal := by
  intro y hy
  simp only [symbols] at hy
  split at hy
  · cases hy
  · rcases List.mem_cons.1 hy with rfl | hy
    · exact standsIn_fileSymbol hd
    · refine forall_mem_getD_map (fun r => ?_) y hy
      exact Idiom.Markup.forall_mem_walk (fun p => part?_standsIn hd) r

end Declarations.Metadata

namespace Uses.Aura

theorem components_stand (hd : d.IsNumbered) :
    ∀ f ∈ components d.fullText, f.StandsIn d.lineTotal := by
  intro f hf
  obtain ⟨m, -, hf⟩ := List.mem_filterMap.1 hf
  obtain ⟨space, -, hf⟩ := Option.bind_eq_some_iff.1 hf
  obtain ⟨name, -, hf⟩ := Option.bind_eq_some_iff.1 hf
  split at hf
  · cases hf
  · cases hf
    exact Document.lineOf_bounds hd m.start

theorem references_stand (hd : d.IsNumbered) : ∀ r ∈ references d, r.StandsIn d.lineTotal := by
  have hparts : ∀ f ∈ (Idiom.Markup.values "implements" d.fullText).flatMap Find.parts,
      f.StandsIn d.lineTotal :=
    List.forall_mem_flatMap.2 fun f hf => parts_stand (finds_stand hd f hf)
  have hlabels : ∀ f ∈ (Idiom.Markup.finds label 1 d.fullText).map fun f =>
      { f with text := "Label." ++ f.text }, f.StandsIn d.lineTotal :=
    List.forall_mem_map.2 (finds_stand hd)
  simp only [references, List.forall_mem_append]
  exact ⟨⟨⟨⟨Idiom.Markup.references_stand (finds_stand hd) _,
    Idiom.Markup.references_stand (finds_stand hd) _⟩,
    Idiom.Markup.references_stand hparts _⟩,
    Idiom.Markup.references_stand (components_stand hd) _⟩,
    Idiom.Markup.references_stand hlabels _⟩

end Uses.Aura

namespace Uses.Visualforce

theorem fieldNames_stand {lines : Nat} {f : Find} (h : f.StandsIn lines) :
    ∀ g ∈ fieldNames f, g.StandsIn lines := by
  intro g hg
  obtain ⟨name, -, rfl⟩ := List.mem_map.1 hg
  exact h

theorem references_stand (hd : d.IsNumbered) : ∀ r ∈ references d, r.StandsIn d.lineTotal := by
  have hparts : ∀ f ∈ (Idiom.Markup.values "extensions" d.fullText).flatMap Find.parts,
      f.StandsIn d.lineTotal :=
    List.forall_mem_flatMap.2 fun f hf => parts_stand (finds_stand hd f hf)
  have hfields : ∀ f ∈ firstOfEach Find.text
      ((Idiom.Markup.finds mergeField 1 d.fullText).flatMap fieldNames),
      f.StandsIn d.lineTotal := by
    intro f hf
    obtain ⟨g, hg, hf⟩ := List.mem_flatMap.1 (subset_firstOfEachFrom hf)
    exact fieldNames_stand (finds_stand hd g hg) f hf
  simp only [references, List.forall_mem_append]
  exact ⟨⟨⟨Idiom.Markup.references_stand (finds_stand hd) _,
    Idiom.Markup.references_stand hparts _⟩,
    Idiom.Markup.references_stand (finds_stand hd) _⟩,
    Idiom.Markup.references_stand hfields _⟩

end Uses.Visualforce

namespace Uses.Metadata

theorem component?_standsIn (hd : d.IsNumbered) {p : Place} :
    ∀ r ∈ component? d p, r.StandsIn d.lineTotal := by
  intro r hr
  obtain ⟨tag, -, hr⟩ := Option.bind_eq_some_iff.1 hr
  obtain ⟨text, -, hr⟩ := Option.bind_eq_some_iff.1 hr
  split at hr
  · cases hr
    exact standsIn_reference hd
  · cases hr

theorem formulaUses_stand {lines : Nat} {f : Find} (h : f.StandsIn lines) :
    ∀ r ∈ formulaUses f, r.StandsIn lines := by
  intro r hr
  obtain ⟨name, -, rfl⟩ := List.mem_map.1 hr
  exact h

theorem actionUse?_standsIn {lines : Nat} {f : Find} (h : f.StandsIn lines) :
    ∀ r ∈ actionUse? f, r.StandsIn lines := by
  intro r hr
  obtain ⟨type, -, hr⟩ := Option.bind_eq_some_iff.1 hr
  obtain ⟨m, -, hr⟩ := Option.bind_eq_some_iff.1 hr
  obtain ⟨name, -, hr⟩ := Option.bind_eq_some_iff.1 hr
  cases hr
  exact h

theorem references_stand (hd : d.IsNumbered) (root : Option Place) :
    ∀ r ∈ references d root, r.StandsIn d.lineTotal := by
  intro r hr
  rcases List.mem_append.1 hr with hr | hr
  · rcases List.mem_append.1 hr with hr | hr
    · refine forall_mem_getD_map (fun r => ?_) r hr
      exact Idiom.Markup.forall_mem_walk (fun p => component?_standsIn hd) r
    · obtain ⟨f, hf, hr⟩ := List.mem_flatMap.1 hr
      exact formulaUses_stand (finds_stand hd f hf) r hr
  · obtain ⟨f, hf, hr⟩ := List.mem_filterMap.1 hr
    exact actionUse?_standsIn (finds_stand hd f hf) r hr

end Uses.Metadata

end SourceIndex
