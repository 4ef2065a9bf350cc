import Mathlib.Data.List.Flatten
import SourceIndex.Backends
import SourceIndex.Proofs.Texts
import SourceIndex.Proofs.Tree.Descent

/-!
# Uses under a lower limit

A limit on the depth of a walk cuts steps off and has no other effect: neither the scopes and names
that a walk carries nor the places that it goes on to depend on it.  So what a walk finds under a
lower limit is part of what it finds under a higher one, in the same order.
-/

namespace SourceIndex

namespace Document

/-- The document under another limit on the depth of walks. -/
def withWalkDepth (d : Document) (limit : UInt64) : Document :=
  { d with limits := { d.limits with walkDepth := limit } }

variable {d e : Document} {low high : UInt64}

/-- What is past the higher limit is past the lower one. -/
theorem tooDeep_of_le (h : low ≤ high) {depth : Nat}
    (hdeep : (d.withWalkDepth high).tooDeep depth = true) :
    (d.withWalkDepth low).tooDeep depth = true := by
  rw [tooDeep, decide_eq_true_eq] at *
  have hlimits : low.toNat ≤ high.toNat := UInt64.le_iff_toNat_le.1 h
  exact Nat.lt_of_le_of_lt hlimits hdeep

/-- Steps that are not cut off under the lower limit are not cut off under the higher one. -/
theorem sublist_ite_tooDeep {α : Type} (h : low ≤ high) {depth : Nat} {steps more : List α}
    (hsteps : steps.Sublist more) :
    (if (d.withWalkDepth low).tooDeep depth then [] else steps).Sublist
      (if (d.withWalkDepth high).tooDeep depth then [] else more) := by
  by_cases hlow : (d.withWalkDepth low).tooDeep depth = true
  · rw [if_pos hlow]
    exact List.nil_sublist _
  · rw [if_neg hlow, if_neg fun hhigh => hlow (tooDeep_of_le h hhigh)]
    exact hsteps

end Document

namespace Rule

variable {τ α : Type} {rule other : Rule τ α}

/-- Are the steps of one rule always some of those of another, in the same order? -/
def IsPartOf (rule other : Rule τ α) : Prop :=
  ∀ task p, (rule task p).Sublist (other task p)

theorem IsPartOf.run (h : rule.IsPartOf other) (levels : Nat) (task : τ) (p : Place) :
    (rule.run levels task p).Sublist (other.run levels task p) := by
  induction levels generalizing task p with
  | zero => exact List.Sublist.refl _
  | succ levels ih =>
      rw [run_succ, run_succ]
      refine ((h task p).flatMap _).trans (List.Sublist.flatMap_right _ fun step _ => ?_)
      cases step with
      | emit item => exact List.Sublist.refl _
      | visit task' q => exact ih task' q

theorem IsPartOf.walk (h : rule.IsPartOf other) (task : τ) (p : Place) :
    (rule.walk task p).Sublist (other.walk task p) :=
  h.run _ task p

end Rule

open Document

variable {d e : Document} {low high : UInt64}

namespace Uses

theorem Python.rule_isPartOf (h : low ≤ high) :
    (rule (d.withWalkDepth low)).IsPartOf (rule (d.withWalkDepth high)) := by
  intro task p
  cases task with
  | inside s => exact sublist_ite_tooDeep h (List.Sublist.refl _)
  | typeHint s => exact sublist_ite_tooDeep h (List.Sublist.refl _)
  | caught s => exact sublist_ite_tooDeep h (List.Sublist.refl _)

theorem ECMAScript.rule_isPartOf (h : low ≤ high) :
    (rule (d.withWalkDepth low)).IsPartOf (rule (d.withWalkDepth high)) := by
  intro task p
  cases task with
  | inside s => exact sublist_ite_tooDeep h (List.Sublist.refl _)
  | call s => exact List.Sublist.refl _

theorem Go.rule_isPartOf (h : low ≤ high) :
    (rule (d.withWalkDepth low)).IsPartOf (rule (d.withWalkDepth high)) := by
  intro task p
  cases task with
  | inside s => exact sublist_ite_tooDeep h (List.Sublist.refl _)
  | imports scope => exact List.Sublist.refl _

/-- The embeddings behind the uses of the walk are looked for without a limit. -/
theorem Go.references_sublist (h : low ≤ high) (root : Place) :
    (references (d.withWalkDepth low) root).Sublist (references (d.withWalkDepth high) root) := by
  have hembeddings : embeddings (d.withWalkDepth low) root =
      embeddings (d.withWalkDepth high) root :=
    rfl
  rw [references, references, hembeddings]
  exact ((rule_isPartOf h).walk _ root).append_right _

namespace Rust

theorem useRule_isPartOf (h : low ≤ high) :
    (useRule (d.withWalkDepth low)).IsPartOf (useRule (d.withWalkDepth high)) :=
  fun _ _ => sublist_ite_tooDeep h (List.Sublist.refl _)

theorem imports_sublist (h : low ≤ high) (scope : Option String) (p : Place) :
    (imports (d.withWalkDepth low) scope p).Sublist (imports (d.withWalkDepth high) scope p) :=
  (List.Sublist.flatMap_right _ fun c _ => (useRule_isPartOf h).walk {} c).map _

/-- Among the steps for one child, only the imports depend on the limit. -/
theorem childSteps_sublist (h : low ≤ high) (s : Scope) (c : Place) :
    (childSteps (d.withWalkDepth low) s c).Sublist (childSteps (d.withWalkDepth high) s c) := by
  unfold childSteps
  split
  · exact (imports_sublist h s.name c).map _
  all_goals exact List.Sublist.refl _

theorem rule_isPartOf (h : low ≤ high) :
    (rule (d.withWalkDepth low)).IsPartOf (rule (d.withWalkDepth high)) := by
  intro task p
  cases task with
  | inside s =>
      exact sublist_ite_tooDeep h (List.Sublist.flatMap_right _ fun c _ => childSteps_sublist h s c)
  | call s => exact List.Sublist.refl _

end Rust

theorem Java.rule_isPartOf (h : low ≤ high) :
    (rule (d.withWalkDepth low)).IsPartOf (rule (d.withWalkDepth high)) := by
  intro task p
  cases task with
  | inside s => exact sublist_ite_tooDeep h (List.Sublist.refl _)
  | invocation s => exact List.Sublist.refl _

/-- The further uses of a dialect must not depend on the limit. -/
theorem C.rule_isPartOf (h : low ≤ high) {dialect : Dialect}
    (hdialect : dialect (d.withWalkDepth low) = dialect (d.withWalkDepth high)) :
    (rule (d.withWalkDepth low) dialect).IsPartOf (rule (d.withWalkDepth high) dialect) := by
  intro s p
  refine sublist_ite_tooDeep h ?_
  rw [hdialect]
  exact List.Sublist.refl _

theorem ObjC.dialect_withWalkDepth (d : Document) (low high : UInt64) :
    dialect (d.withWalkDepth low) = dialect (d.withWalkDepth high) := by
  have hselector := Idiom.ObjC.selector_congr (d := d.withWalkDepth low)
    (e := d.withWalkDepth high) rfl
  funext s p
  unfold dialect
  split
  case h_6 => rw [hselector]
  all_goals rfl

theorem CSharp.rule_isPartOf (h : low ≤ high) :
    (rule (d.withWalkDepth low)).IsPartOf (rule (d.withWalkDepth high)) :=
  fun _ _ => sublist_ite_tooDeep h (List.Sublist.refl _)

namespace PHP

theorem rule_isPartOf (h : low ≤ high) :
    (rule (d.withWalkDepth low)).IsPartOf (rule (d.withWalkDepth high)) := by
  intro task p
  cases task with
  | inside s =>
      refine sublist_ite_tooDeep h ?_
      rw [withSpace_congr (d := d.withWalkDepth low) (e := d.withWalkDepth high) rfl]
      exact List.Sublist.refl _
  | memberCall s => exact List.Sublist.refl _
  | scopedCall s => exact List.Sublist.refl _
  | functionCall s => exact List.Sublist.refl _

end PHP

theorem Ruby.rule_isPartOf (h : low ≤ high) :
    (rule (d.withWalkDepth low)).IsPartOf (rule (d.withWalkDepth high)) := by
  intro task p
  cases task with
  | inside s => exact sublist_ite_tooDeep h (List.Sublist.refl _)
  | definition s => exact sublist_ite_tooDeep h (List.Sublist.refl _)
  | call s => exact List.Sublist.refl _

end Uses

namespace Extractor

/-- The extractors that look for uses by a walk with a limit on its depth. -/
def walking : List Extractor :=
  [python, javascript, typescript, tsx, go, rust, java, c, cpp, objc, csharp, php, ruby]

/-- Does an extractor find a part of what it finds under a higher limit, in the same order? -/
def ShrinksFrom (high low : UInt64) (e : Extractor) : Prop :=
  ∀ (parse : Parser) (d : Document) (root : Option Place),
    (e.references parse (d.withWalkDepth low) root).Sublist
      (e.references parse (d.withWalkDepth high) root)

/-- What is found from a root shrinks if the walk from each root does. -/
theorem shrinksFrom_ofTree {language : String} {endings : List String}
    {symbols : Document → Place → List Symbol} {references : Document → Place → List Reference}
    {docstring : Document → Place → Option String}
    (h : ∀ (d : Document) (r : Place),
      (references (d.withWalkDepth low) r).Sublist (references (d.withWalkDepth high) r)) :
    ShrinksFrom high low (.ofTree language endings symbols references docstring) := by
  intro parse d root
  cases root with
  | none => exact List.Sublist.refl _
  | some r => exact h d r

theorem shrinksFrom_of_mem_walking (h : low ≤ high) : ∀ e ∈ walking, e.ShrinksFrom high low := by
  simp only [walking, List.forall_mem_cons]
  refine ⟨shrinksFrom_ofTree ?python, shrinksFrom_ofTree ?javascript,
    shrinksFrom_ofTree ?typescript, shrinksFrom_ofTree ?tsx, shrinksFrom_ofTree ?go,
    shrinksFrom_ofTree ?rust, shrinksFrom_ofTree ?java, shrinksFrom_ofTree ?c,
    shrinksFrom_ofTree ?cpp, shrinksFrom_ofTree ?objc, shrinksFrom_ofTree ?csharp,
    shrinksFrom_ofTree ?php, shrinksFrom_ofTree ?ruby, nofun⟩
  case python => exact fun _ => (Uses.Python.rule_isPartOf h).walk _
  case javascript => exact fun _ => (Uses.ECMAScript.rule_isPartOf h).walk _
  case typescript => exact fun _ => (Uses.ECMAScript.rule_isPartOf h).walk _
  case tsx => exact fun _ => (Uses.ECMAScript.rule_isPartOf h).walk _
  case go => exact fun _ => Uses.Go.references_sublist h
  case rust => exact fun _ => (Uses.Rust.rule_isPartOf h).walk _
  case java => exact fun _ => (Uses.Java.rule_isPartOf h).walk _
  case c => exact fun _ => (Uses.C.rule_isPartOf h rfl).walk _
  case cpp => exact fun _ => (Uses.C.rule_isPartOf h rfl).walk _
  case objc =>
    exact fun d => (Uses.C.rule_isPartOf h (Uses.ObjC.dialect_withWalkDepth d low high)).walk _
  case csharp => exact fun _ => (Uses.CSharp.rule_isPartOf h).walk _
  case php => exact fun _ => (Uses.PHP.rule_isPartOf h).walk _
  case ruby => exact fun _ => (Uses.Ruby.rule_isPartOf h).walk _

/-- Whatever the source, the tree and the other limits, the references under a lower limit on the
depth of walks are some of those under a higher one, in the same order. -/
theorem references_sublist_of_le {e : Extractor} (he : e ∈ walking) {low high : UInt64}
    (h : low ≤ high) (parse : Parser) (d : Document) (root : Option Place) :
    (e.references parse (d.withWalkDepth low) root).Sublist
      (e.references parse (d.withWalkDepth high) root) :=
  shrinksFrom_of_mem_walking h e he parse d root

/-- A call in the arguments of a call. -/
def nestedCalls : Document where
  path := "a.py"
  bytes := Text.Utf8.encode "f(g())\n".toList
  limits := {}

/-- The tree of `nestedCalls`. -/
def nestedCallsTree : Node :=
  .mk "module" true [] 0 7
    [.mk "expression_statement" true [] 0 6
      [.mk "call" true [] 0 6
        [.mk "identifier" true ["function"] 0 1 [],
          .mk "argument_list" true ["arguments"] 1 6
            [.mk "(" false [] 1 2 [],
              .mk "call" true [] 2 5
                [.mk "identifier" true ["function"] 2 3 [],
                  .mk "argument_list" true ["arguments"] 3 5
                    [.mk "(" false [] 3 4 [], .mk ")" false [] 4 5 []]],
              .mk ")" false [] 5 6 []]]]]

theorem nestedCalls_sublist :
    let found := fun limit : UInt64 =>
      python.references (fun _ _ => none) (nestedCalls.withWalkDepth limit)
        (some (.root nestedCallsTree))
    python ∈ walking ∧ (1 : UInt64) ≤ 2 ∧ (found 1).map Reference.targetName = ["f"] ∧
      (found 2).map Reference.targetName = ["f", "g"] ∧ (found 1).Sublist (found 2) := by
  have hwalking : python ∈ walking := List.mem_cons_self
  exact ⟨hwalking, by decide, by decide +kernel, by decide +kernel,
    references_sublist_of_le hwalking (by decide) _ _ _⟩

end Extractor

end SourceIndex
