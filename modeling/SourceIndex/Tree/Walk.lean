import SourceIndex.Tree.Place

/-!
# Walks

A walk over a tree is given by a rule. At a place, and with a task that says what is looked for
there, the rule lists what to hand out and which places to go on to with which tasks. A walk only
goes down, so the height of the tree bounds it.

The task of many walks is a scope: the qualified name of what encloses a place, and the depth that
the walk has come to.
-/

namespace SourceIndex

/-- One thing a rule asks for: hand out an item, or go on to a place. -/
inductive Step (τ α : Type) where
  | emit (item : α)
  | visit (task : τ) (place : Place)

/-- The steps that a rule takes at a place for a task. -/
abbrev Rule (τ α : Type) :=
  τ → Place → List (Step τ α)

/-- The items of a walk of at most so many levels, in the order of the steps. -/
def Rule.run {τ α : Type} (rule : Rule τ α) : Nat → τ → Place → List α
  | 0, _, _ => []
  | levels + 1, task, place =>
      (rule task place).flatMap fun
        | .emit item => [item]
        | .visit task' place' => run rule levels task' place'

/-- The items of a walk from a place down. -/
def Rule.walk {τ α : Type} (rule : Rule τ α) (task : τ) (place : Place) : List α :=
  rule.run (place.node.height + 1) task place

namespace Step

/-- Go on to each of some places with one task. -/
def visitAll {τ α : Type} (task : τ) (places : List Place) : List (Step τ α) :=
  places.map (visit task)

/-- Go on to a place, if there is one. -/
def visit? {τ α : Type} (task : τ) (place : Option Place) : List (Step τ α) :=
  place.toList.map (visit task)

/-- Hand out an item, if there is one. -/
def emit? {τ α : Type} (item : Option α) : List (Step τ α) :=
  item.toList.map emit

/-- Hand out each of some items. -/
def emitAll {τ α : Type} (items : List α) : List (Step τ α) :=
  items.map emit

end Step

/-- The setting of a walk at a place. -/
structure Scope where
  /-- Qualified name of the enclosing declaration; none at the level of the file. -/
  name : Option String := none
  depth : Nat := 0
  deriving Repr, DecidableEq, Inhabited

namespace Scope

/-- The same scope one step deeper. -/
def deeper (s : Scope) : Scope :=
  { s with depth := s.depth + 1 }

/-- A named scope one step deeper. -/
def enter (s : Scope) (name : String) : Scope :=
  { name := some name, depth := s.depth + 1 }

/-- The named scope, or the same scope if there is no name, one step deeper. -/
def enter? (s : Scope) (name : Option String) : Scope :=
  { name := name.or s.name, depth := s.depth + 1 }

end Scope

end SourceIndex
