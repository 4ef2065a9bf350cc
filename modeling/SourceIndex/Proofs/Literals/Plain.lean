import SourceIndex.Declarations.FoxPro
import SourceIndex.Declarations.Rust
import SourceIndex.Declarations.YAML
import SourceIndex.Proofs.Declarations.Go
import SourceIndex.Proofs.Extents.HCL
import SourceIndex.Proofs.Lines.Markup
import SourceIndex.Proofs.Literals.Limit

/-!
# Symbols without literals

Go, Rust, markup and the languages that are read line by line keep no literals: what a constant or a
property starts with is at most shown in its signature.
-/

namespace SourceIndex

namespace Declarations

variable {d : Document} {owner : Option String} {p c : Place}

/-! ## Go -/

namespace Go

theorem symbols_areBare (root : Place) : ∀ y ∈ symbols d root, y.IsBare := by
  intro y hy
  obtain ⟨p, name, kind, details, rfl, -, hvalue, -⟩ := symbols_declared root y hy
  exact hvalue

end Go

/-! ## Rust -/

namespace Rust

theorem function?_isBare {kind : SymbolKind} : ∀ y ∈ function? d owner kind p, y.IsBare :=
  forall_mem_bind_some fun _ => rfl

theorem requiredMethod?_isBare {owner : String} : ∀ y ∈ requiredMethod? d owner p, y.IsBare :=
  forall_mem_bind_some fun _ => rfl

theorem field?_isBare {owner : String} : ∀ y ∈ field? d owner p, y.IsBare :=
  forall_mem_bind_some fun _ => rfl

theorem typeAlias?_isBare : ∀ y ∈ typeAlias? d owner p, y.IsBare :=
  forall_mem_bind_some fun _ => rfl

theorem value?_isBare {keyword : String} {kind : SymbolKind} :
    ∀ y ∈ value? d owner keyword kind p, y.IsBare :=
  forall_mem_bind_some fun _ => rfl

theorem macroSymbol?_isBare : ∀ y ∈ macroSymbol? d owner p, y.IsBare :=
  forall_mem_bind_some fun _ => rfl

theorem structSymbols_areBare : ∀ y ∈ structSymbols d owner p, y.IsBare := by
  unfold structSymbols
  split
  · exact List.forall_mem_nil _
  · refine List.forall_mem_cons.2 ⟨rfl, fun y hy => ?_⟩
    obtain ⟨c, -, hy⟩ := List.mem_filterMap.1 hy
    exact field?_isBare y hy

theorem enumSymbols_areBare : ∀ y ∈ enumSymbols d owner p, y.IsBare := by
  unfold enumSymbols
  split
  · exact List.forall_mem_nil _
  · refine List.forall_mem_cons.2 ⟨rfl, fun y hy => ?_⟩
    obtain ⟨c, -, hy⟩ := List.mem_filterMap.1 hy
    obtain ⟨variant, -, rfl⟩ := Option.map_eq_some_iff.1 hy
    rfl

theorem traitSymbols_areBare : ∀ y ∈ traitSymbols d owner p, y.IsBare := by
  unfold traitSymbols
  split
  · exact List.forall_mem_nil _
  · refine List.forall_mem_cons.2 ⟨rfl, fun y hy => ?_⟩
    obtain ⟨c, -, hy⟩ := List.mem_filterMap.1 hy
    split at hy
    · exact function?_isBare y hy
    · exact requiredMethod?_isBare y hy
    · cases hy

theorem implSymbols_areBare : ∀ y ∈ implSymbols d p, y.IsBare := by
  intro y hy
  unfold implSymbols at hy
  split at hy
  · cases hy
  · obtain ⟨c, -, hy⟩ := List.mem_filterMap.1 hy
    split at hy
    · exact function?_isBare y hy
    · exact typeAlias?_isBare y hy
    · exact value?_isBare y hy
    · cases hy

theorem childSteps_areBare {s : Scope} : Step.Emits Symbol.IsBare (childSteps d s c) := by
  have hmodule : Step.Emits Symbol.IsBare (moduleSteps d s c) := by
    unfold moduleSteps
    split
    · exact Step.emits_nil
    · exact Step.emits_emit_cons.2 ⟨rfl, Step.emits_visit? _ _⟩
  unfold childSteps
  split
  · exact Step.emits_emit?.2 function?_isBare
  · exact Step.emits_emitAll.2 structSymbols_areBare
  · exact Step.emits_emitAll.2 structSymbols_areBare
  · exact Step.emits_emitAll.2 enumSymbols_areBare
  · exact Step.emits_emitAll.2 traitSymbols_areBare
  · exact Step.emits_emitAll.2 implSymbols_areBare
  · exact hmodule
  · exact Step.emits_emit?.2 typeAlias?_isBare
  · exact Step.emits_emit?.2 value?_isBare
  · exact Step.emits_emit?.2 value?_isBare
  · exact Step.emits_emit?.2 macroSymbol?_isBare
  · exact Step.emits_nil

theorem symbols_areBare (root : Place) : ∀ y ∈ symbols d root, y.IsBare := by
  refine Rule.forall_mem_walk_of_emits (fun s p => ?_) _ root
  unfold rule
  exact Step.emits_ite_nil.2 fun _ => Step.emits_flatMap.2 fun c _ => childSteps_areBare

end Rust

/-! ## Markup -/

theorem Aura.symbols_areBare (root : Option Place) : ∀ y ∈ symbols d root, y.IsBare := by
  refine List.forall_mem_cons.2 ⟨rfl, fun y hy => ?_⟩
  refine forall_mem_getD_map (fun r => ?_) y (subset_firstOfEachFrom hy)
  refine Idiom.Markup.forall_mem_walk (fun p y hy => ?_) r
  obtain ⟨tag, -, hy⟩ := Option.bind_eq_some_iff.1 hy
  obtain ⟨tagName, -, hy⟩ := Option.bind_eq_some_iff.1 hy
  obtain ⟨kind, -, hy⟩ := Option.bind_eq_some_iff.1 hy
  obtain ⟨name, -, hy⟩ := Option.bind_eq_some_iff.1 hy
  cases hy
  rfl

theorem Visualforce.symbols_areBare (d : Document) : ∀ y ∈ symbols d, y.IsBare :=
  List.forall_mem_singleton.2 rfl

theorem Metadata.symbols_areBare (root : Option Place) : ∀ y ∈ symbols d root, y.IsBare := by
  simp only [symbols]
  split
  · exact List.forall_mem_nil _
  · refine List.forall_mem_cons.2 ⟨rfl, forall_mem_getD_map fun r => ?_⟩
    refine Idiom.Markup.forall_mem_walk (fun p y hy => ?_) r
    obtain ⟨tag, -, hy⟩ := Option.bind_eq_some_iff.1 hy
    obtain ⟨name, -, hy⟩ := Option.bind_eq_some_iff.1 hy
    cases hy
    rfl

/-! ## FoxPro -/

namespace FoxPro

variable {m : Machine} {last line : Nat}

theorem Machine.endRoutine_areBare : ∀ y ∈ m.endRoutine last, y.IsBare := by
  intro y hy
  obtain ⟨r, -, rfl⟩ := List.mem_map.1 hy
  rfl

theorem Machine.endAll_areBare : ∀ y ∈ m.endAll last, y.IsBare := by
  refine List.forall_mem_append.2 ⟨endRoutine_areBare, fun y hy => ?_⟩
  obtain ⟨c, -, rfl⟩ := List.mem_map.1 hy
  rfl

theorem Machine.property?_isBare {name value : String} :
    ∀ y ∈ m.property? name value line, y.IsBare := by
  intro y hy
  unfold property? at hy
  split at hy
  · obtain ⟨c, -, rfl⟩ := Option.map_eq_some_iff.1 hy
    rfl
  · cases hy

theorem Machine.emit_areBare {s : Idiom.FoxPro.Statement} : ∀ y ∈ m.emit s line, y.IsBare := by
  unfold emit
  split
  · exact endAll_areBare
  · exact endRoutine_areBare
  · exact endAll_areBare
  · exact endRoutine_areBare
  · exact List.forall_mem_singleton.2 rfl
  · exact fun y hy => property?_isBare y (Option.mem_toList.1 hy)
  · exact List.forall_mem_nil _

theorem Machine.symbolsFrom_areBare {statements : List (Nat × Idiom.FoxPro.Statement)} :
    ∀ y ∈ m.symbolsFrom last statements, y.IsBare := by
  induction statements generalizing m with
  | nil => exact endAll_areBare
  | cons s rest ih => exact List.forall_mem_append.2 ⟨emit_areBare, ih⟩

theorem symbols_areBare (d : Document) : ∀ y ∈ symbols d, y.IsBare := by
  refine List.forall_mem_append.2 ⟨Machine.symbolsFrom_areBare, ?_⟩
  split
  · exact List.forall_mem_singleton.2 rfl
  · exact List.forall_mem_nil _

end FoxPro

theorem Form.symbols_areBare (d : Document) : ∀ y ∈ symbols d, y.IsBare := by
  unfold symbols symbolsOf
  split
  · exact List.forall_mem_nil _
  · refine List.forall_mem_cons.2 ⟨rfl, List.forall_mem_flatMap.2 fun c _ y hy => ?_⟩
    obtain ⟨p, -, rfl⟩ := List.mem_map.1 hy
    rfl

/-! ## YAML and HCL -/

namespace YAML

open Idiom.YAML

variable {s : Section} {line : Line}

theorem gitlabLine_isBare : ∀ y ∈ gitlabLine s line, y.IsBare := by
  intro y hy
  unfold gitlabLine at hy
  split at hy
  · obtain ⟨stage, -, rfl⟩ := Option.map_eq_some_iff.1 hy
    rfl
  · obtain ⟨k, -, rfl⟩ := Option.map_eq_some_iff.1 hy
    rfl

theorem used?_isBare : ∀ y ∈ used? line, y.IsBare := by
  intro y hy
  obtain ⟨target, -, hy⟩ := Option.bind_eq_some_iff.1 hy
  dsimp only at hy
  split at hy
  · cases hy
  · obtain rfl := Option.some.inj hy
    rfl

theorem githubLine_areBare : ∀ y ∈ githubLine s line, y.IsBare := by
  refine List.forall_mem_append.2 ⟨fun y hy => ?_, ?_⟩
  · obtain ⟨name, -, rfl⟩ := Option.map_eq_some_iff.1 (Option.mem_toList.1 hy)
    rfl
  · split
    · intro y hy
      rcases Option.or_eq_some_iff.1 (Option.mem_toList.1 hy) with hy | ⟨-, hy⟩
      · obtain ⟨job, -, rfl⟩ := Option.map_eq_some_iff.1 hy
        rfl
      · exact used?_isBare y hy
    · exact List.forall_mem_nil _

theorem symbols_areBare (d : Document) : ∀ y ∈ symbols d, y.IsBare := by
  simp only [symbols]
  split
  · intro y hy
    obtain ⟨l, -, hy⟩ := List.mem_filterMap.1 hy
    exact gitlabLine_isBare y hy
  · exact List.forall_mem_flatMap.2 fun l _ => githubLine_areBare
  · intro y hy
    obtain ⟨line, -, hy⟩ := List.mem_filterMap.1 hy
    obtain ⟨k, -, rfl⟩ := Option.map_eq_some_iff.1 hy
    rfl

end YAML

namespace HCL

open Idiom.HCL

theorem declared?_defaultValue {o : Opening} :
    ∀ declared ∈ declared? o, declared.2.2.defaultValue = none := by
  intro declared h
  unfold declared? at h
  repeat' split at h
  all_goals cases h
  all_goals rfl

theorem block?_isBare {depth : Int32} {line : Line} {rest : List Line} :
    ∀ y ∈ block? depth line rest, y.IsBare := by
  intro y hy
  obtain ⟨declared, hdeclared, rfl⟩ := Option.map_eq_some_iff.1 hy
  obtain ⟨o, -, hdeclared⟩ := Option.bind_eq_some_iff.1 hdeclared
  exact declared?_defaultValue declared hdeclared

theorem symbolsFrom_areBare {depth : Int32} {locals : Option Int32} {lines : List Line} :
    ∀ y ∈ symbolsFrom depth locals lines, y.IsBare := by
  induction lines generalizing depth locals with
  | nil => exact List.forall_mem_nil _
  | cons line rest ih =>
      simp only [symbolsFrom]
      split
      · split
        · exact ih
        · refine List.forall_mem_append.2 ⟨fun y hy => ?_, ih⟩
          obtain ⟨key, -, rfl⟩ := Option.map_eq_some_iff.1 (Option.mem_toList.1 hy)
          rfl
      · split
        · exact ih
        · refine List.forall_mem_append.2 ⟨fun y hy => ?_, ih⟩
          exact block?_isBare y (Option.mem_toList.1 hy)

theorem symbols_areBare (d : Document) : ∀ y ∈ symbols d, y.IsBare := by
  unfold symbols
  split
  · intro y hy
    obtain ⟨line, -, hy⟩ := List.mem_filterMap.1 hy
    obtain ⟨key, -, rfl⟩ := Option.map_eq_some_iff.1 hy
    rfl
  · rw [blockSymbols_eq]
    exact symbolsFrom_areBare

end HCL

end Declarations

end SourceIndex
