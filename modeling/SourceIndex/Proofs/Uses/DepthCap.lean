import SourceIndex.Backends
import SourceIndex.Proofs.Uses.Depth.CSharp
import SourceIndex.Proofs.Uses.Depth.ECMAScript
import SourceIndex.Proofs.Uses.Depth.Java
import SourceIndex.Proofs.Uses.Depth.PHP
import SourceIndex.Proofs.Uses.Depth.Profiled
import SourceIndex.Proofs.Uses.Depth.Python
import SourceIndex.Proofs.Uses.Depth.Ruby
import SourceIndex.Proofs.Uses.Depth.Rust

/-!
# How deep uses are looked for

The limit on the depth of a walk is to keep a deep tree from being walked to its end.  It does so
for declarations, blocks and arguments.  A chain of calls is followed down to the receiver that it
starts from, so the uses of a file come from the levels that the limit allows only if nothing is
found in such a chain below them.

In Python, in C# and wherever a profile is used, the walk looks at the depth that it has come to
before every step, also along a chain of calls.  So there the limit bounds all that is looked at:
the uses of a file come from the levels that it allows, however deep the tree is.
-/

namespace SourceIndex

/-- What the grammars give, without the nodes more than `levels` levels below a root. -/
def Parser.truncate (levels : Nat) (parse : Parser) : Parser :=
  fun grammar bytes => (parse grammar bytes).map (Node.truncate levels)

namespace Uses

/-- A walk with a limit on its depth. -/
structure CappedWalk where
  Task : Type
  rule : Document → Rule Task Reference
  start : Task
  /-- May something be lost at a place when the tree is truncated? -/
  isExposed : Nat → Task × Place → Bool

namespace CappedWalk

variable (w : CappedWalk) (d : Document)

/-- The uses that a walk finds in a tree. -/
def uses (tree : Node) : List Reference :=
  (w.rule d).walk w.start (.root tree)

/-- At every exposed place to which the walk comes it hands out the same when the tree is truncated
to the kept levels. -/
def LosesNothing (tree : Node) : Prop :=
  ∀ v ∈ (w.rule d).visits w.start (.root tree), w.isExposed d.keptLevels v = true →
    (w.rule d).handsOut v.1 (v.2.truncate d.keptLevels) = (w.rule d).handsOut v.1 v.2

end CappedWalk

/-- The languages whose uses a walk with a limit on its depth looks for. -/
inductive CappedLanguage where
  | java | apex | javascript | typescript | tsx | rust | php | ruby
  deriving Repr, DecidableEq, Inhabited

namespace CappedLanguage

/-- The extractor of a language. -/
def extractor : CappedLanguage → Extractor
  | java => .java
  | apex => .apex
  | javascript => .javascript
  | typescript => .typescript
  | tsx => .tsx
  | rust => .rust
  | php => .php
  | ruby => .ruby

/-- The walk that looks for the uses of a language. -/
def walk : CappedLanguage → CappedWalk
  | java | apex => ⟨Java.Task, Java.rule, .inside {}, Java.isExposed⟩
  | javascript | typescript | tsx =>
      ⟨ECMAScript.Task, ECMAScript.rule, .inside {}, ECMAScript.isExposed⟩
  | rust => ⟨Rust.Task, Rust.rule, .inside {}, Rust.isExposed⟩
  | php => ⟨PHP.Task, PHP.rule, .inside {}, PHP.isExposed⟩
  | ruby => ⟨Ruby.Task, Ruby.rule, .inside {}, Ruby.isExposed⟩

/-- The tree that is walked: in Apex that of the masked source, if there is one to be had. -/
def walkedTree (parse : Parser) (d : Document) (tree : Node) : CappedLanguage → Node
  | apex =>
      ((Idiom.Apex.masked d.bytes (Idiom.Apex.isTrigger d.path)).bind (parse "java")).getD tree
  | _ => tree

/-- The uses that are not read off the tree. -/
def textUses (d : Document) : CappedLanguage → List Reference
  | apex => Apex.textReferences d.fullText
  | _ => []

variable (language : CappedLanguage) (parse : Parser) (d : Document) (tree : Node)

/-- The uses of a file are those that the walk finds, and then those that the text shows. -/
theorem references_eq :
    language.extractor.references parse d (some (.root tree)) =
      language.walk.uses d (language.walkedTree parse d tree) ++ language.textUses d := by
  cases language with
  | apex =>
      show Apex.references parse d (some (.root tree)) = _
      rw [Apex.references, Idiom.Apex.root?, walkedTree]
      cases (Idiom.Apex.masked d.bytes (Idiom.Apex.isTrigger d.path)).bind (parse "java") <;> rfl
  | _ => exact (List.append_nil _).symm

theorem walkedTree_truncate (levels : Nat) :
    language.walkedTree (parse.truncate levels) d (tree.truncate levels) =
      (language.walkedTree parse d tree).truncate levels := by
  cases language with
  | apex =>
      simp only [walkedTree]
      cases Idiom.Apex.masked d.bytes (Idiom.Apex.isTrigger d.path) with
      | none => rfl
      | some bytes =>
          rw [Option.bind_some, Option.bind_some, Parser.truncate]
          cases parse "java" bytes <;> rfl
  | _ => rfl

/-- The walk over the truncated tree finds the same exactly when nothing is lost. -/
theorem uses_truncate_iff :
    language.walk.uses d (tree.truncate d.keptLevels) = language.walk.uses d tree ↔
      language.walk.LosesNothing d tree := by
  cases language with
  | java => exact Java.walk_truncate_iff d tree
  | apex => exact Java.walk_truncate_iff d tree
  | javascript => exact ECMAScript.walk_truncate_iff d tree
  | typescript => exact ECMAScript.walk_truncate_iff d tree
  | tsx => exact ECMAScript.walk_truncate_iff d tree
  | rust => exact Rust.walk_truncate_iff d tree
  | php => exact PHP.walk_truncate_iff d tree
  | ruby => exact Ruby.walk_truncate_iff d tree

/-- The references of a file are the same without the nodes below the kept levels, exactly when the
walk loses nothing at the places that are exposed to that. -/
theorem references_truncate_iff :
    language.extractor.references (parse.truncate d.keptLevels) d
        (some (.root (tree.truncate d.keptLevels))) =
      language.extractor.references parse d (some (.root tree)) ↔
      language.walk.LosesNothing d (language.walkedTree parse d tree) := by
  rw [references_eq, references_eq, walkedTree_truncate, List.append_cancel_right_eq,
    uses_truncate_iff]

end CappedLanguage

/-- A chain of calls without arguments, each on what the one before gives. -/
def callChain : Nat → Node
  | 0 => .mk "identifier" true ["receiver"] 0 1 []
  | n + 1 =>
      .mk "call" true ["receiver"] 0 (2 * n + 3)
        [callChain n, .mk "." false ["operator"] (2 * n + 1) (2 * n + 2) [],
          .mk "identifier" true ["method"] (2 * n + 2) (2 * n + 3) []]

/-- A file with one chain of calls, of which no depth is to be walked. -/
def chained : Document :=
  { path := "a.rb"
    bytes := Text.Utf8.encode "a.b.c.d.e.f.g.h.i.j\n".toList
    limits := { walkDepth := 0 } }

/-- The tree of `chained`. -/
def chainedTree : Node :=
  .mk "program" true [] 0 20 [callChain 9]

/-- A chain of calls is followed beyond the levels that the limit allows. -/
theorem chained_references_truncate_ne :
    CappedLanguage.ruby.extractor.references (Parser.truncate chained.keptLevels fun _ _ => none)
        chained (some (.root (chainedTree.truncate chained.keptLevels))) ≠
      CappedLanguage.ruby.extractor.references (fun _ _ => none) chained
        (some (.root chainedTree)) := by
  decide +kernel

/-! ## Walks that count every step -/

/-- The languages whose uses a walk looks for that counts the depth of every step. -/
inductive CountedLanguage where
  | python | csharp
  | profiled (language : String)
  deriving Repr, DecidableEq, Inhabited

namespace CountedLanguage

/-- The extractor of a language. -/
def extractor : CountedLanguage → Extractor
  | python => .python
  | csharp => .csharp
  | profiled language => .profiled language

/-- The limit on the depth of the walk. -/
def depthLimit (limits : Limits) : CountedLanguage → Nat
  | python | csharp => limits.walkDepth.toNat
  | profiled _ => limits.genericDepth.toNat

/-- Number of levels below the root that the walk may look at. -/
def keptLevels (language : CountedLanguage) (limits : Limits) : Nat :=
  4 * (language.depthLimit limits + 2)

/-- The references of a file are the same without the nodes below the kept levels. -/
theorem references_truncate (language : CountedLanguage) (parse : Parser) (d : Document)
    (tree : Node) :
    language.extractor.references (parse.truncate (language.keptLevels d.limits)) d
        (some (.root (tree.truncate (language.keptLevels d.limits)))) =
      language.extractor.references parse d (some (.root tree)) := by
  cases language with
  | python => exact Python.walk_truncate d tree
  | csharp => exact CSharp.walk_truncate d tree
  | profiled language => exact Profiled.walk_truncate d language tree

end CountedLanguage

end Uses

end SourceIndex
