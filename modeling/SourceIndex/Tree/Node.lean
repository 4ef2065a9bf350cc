/-!
# Syntax trees

A syntax tree is a tree of nodes. A node has a kind, a span of octets in the source, the names of
the fields it fills in its parent, and its children, anonymous ones and comments included.
-/

namespace SourceIndex

/-- A node of a syntax tree, with all that stands below it. -/
inductive Node where
  | mk (kind : String) (isNamed : Bool) (fields : List String) (start stop : Nat)
      (children : List Node)
  deriving Inhabited

namespace Node

/-- The kind of a node. -/
def kind : Node → String
  | mk k _ _ _ _ _ => k

/-- Is the node more than a token or mark? -/
def isNamed : Node → Bool
  | mk _ n _ _ _ _ => n

/-- The fields that the node fills in its parent. -/
def fields : Node → List String
  | mk _ _ f _ _ _ => f

/-- Offset of the first octet. -/
def start : Node → Nat
  | mk _ _ _ s _ _ => s

/-- Offset after the last octet. -/
def stop : Node → Nat
  | mk _ _ _ _ e _ => e

/-- The children from left to right. -/
def children : Node → List Node
  | mk _ _ _ _ _ cs => cs

mutual

/-- Number of nodes of a tree. -/
def size : Node → Nat
  | mk _ _ _ _ _ cs => 1 + sizeAll cs

/-- Number of nodes of a list of trees. -/
def sizeAll : List Node → Nat
  | [] => 0
  | n :: ns => size n + sizeAll ns

end

mutual

/-- Number of steps from a node to the lowest node below it. -/
def height : Node → Nat
  | mk _ _ _ _ _ cs => heightAll cs

/-- Number of levels of a list of trees. -/
def heightAll : List Node → Nat
  | [] => 0
  | n :: ns => max (height n + 1) (heightAll ns)

end

theorem height_lt_heightAll {c : Node} {cs : List Node} (h : c ∈ cs) :
    c.height < heightAll cs := by
  induction cs with
  | nil => cases h
  | cons n ns ih =>
      simp only [heightAll]
      rcases List.mem_cons.1 h with rfl | h
      · omega
      · have := ih h
        omega

theorem height_child_lt {n c : Node} (h : c ∈ n.children) : c.height < n.height := by
  cases n with
  | mk k b f s e cs => exact height_lt_heightAll h

mutual

/-- The tree without the nodes more than `depth` levels below its root. -/
def truncate : Nat → Node → Node
  | 0, mk k b f s e _ => mk k b f s e []
  | depth + 1, mk k b f s e cs => mk k b f s e (truncateAll depth cs)

/-- The trees, each without the nodes more than `depth` levels below its root. -/
def truncateAll : Nat → List Node → List Node
  | _, [] => []
  | depth, n :: ns => truncate depth n :: truncateAll depth ns

end

/-- One node of a tree written in preorder, with the number of its children. -/
structure Entry where
  kind : String
  isNamed : Bool
  fields : List String
  start : Nat
  stop : Nat
  count : Nat
  deriving Repr, DecidableEq, Inhabited

/-- The trees of a preorder, read from its end: an entry takes as many of the trees after it as it
has children. -/
def ofEntry (e : Entry) (after : List Node) : List Node :=
  mk e.kind e.isNamed e.fields e.start e.stop (after.take e.count) :: after.drop e.count

/-- The tree that a preorder writes, if it writes exactly one. -/
def ofPreorder? (entries : List Entry) : Option Node :=
  match entries.foldr ofEntry [] with
  | [n] => some n
  | _ => none

mutual

/-- The entries of a tree in preorder. -/
def preorder : Node → List Entry
  | mk k b f s e cs => ⟨k, b, f, s, e, cs.length⟩ :: preorderAll cs

/-- The entries of a list of trees in preorder. -/
def preorderAll : List Node → List Entry
  | [] => []
  | n :: ns => preorder n ++ preorderAll ns

end

end Node

end SourceIndex
