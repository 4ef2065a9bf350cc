import SourceIndex.Tree.Node

/-!
# Places in a syntax tree

A place is a node together with the way to it from the root: its parent's place and the siblings
before it. All questions about neighbours are questions about a place.
-/

namespace SourceIndex

/-- A node where it stands in its tree. -/
inductive Place where
  | root (node : Node)
  /-- A child, with the siblings before it, the nearest first. -/
  | child (parent : Place) (before : List Node) (node : Node)
  deriving Inhabited

namespace Place

/-- The node at a place. -/
def node : Place → Node
  | root n => n
  | child _ _ n => n

/-- The kind of the node. -/
def kind (p : Place) : String :=
  p.node.kind

/-- Is the node more than a token or mark? -/
def isNamed (p : Place) : Bool :=
  p.node.isNamed

/-- Offset of the first octet. -/
def start (p : Place) : Nat :=
  p.node.start

/-- Offset after the last octet. -/
def stop (p : Place) : Nat :=
  p.node.stop

/-- Is the node's kind one of these? -/
def isOneOf (p : Place) (kinds : List String) : Bool :=
  kinds.contains p.kind

/-- The place above. -/
def parent? : Place → Option Place
  | root _ => none
  | child q _ _ => some q

/-- The siblings before a node, the nearest first. -/
def before : Place → List Node
  | root _ => []
  | child _ ns _ => ns

/-- Position of a node among its parent's children. -/
def index (p : Place) : Nat :=
  p.before.length

/-- Number of steps from the root. -/
def level : Place → Nat
  | root _ => 0
  | child q _ _ => q.level + 1

/-- Position of a node in the preorder of its tree. -/
def number : Place → Nat
  | root _ => 0
  | child q ns _ => q.number + 1 + Node.sizeAll ns

/-- The places above, the nearest first. -/
def ancestors : Place → List Place
  | root _ => []
  | child q _ _ => q :: q.ancestors

/-- The sibling just before. -/
def previous? : Place → Option Place
  | child q (n :: ns) _ => some (child q ns n)
  | _ => none

/-- The places of siblings, given those before the first of them. -/
def siblingsFrom (parent : Place) (before : List Node) : List Node → List Place
  | [] => []
  | n :: ns => child parent before n :: siblingsFrom parent (n :: before) ns

/-- The places of siblings read backwards, the nearest first. -/
def siblingsBack (parent : Place) : List Node → List Place
  | [] => []
  | n :: ns => child parent ns n :: siblingsBack parent ns

/-- The siblings before a place, the nearest first. -/
def siblingsBefore : Place → List Place
  | root _ => []
  | child q ns _ => siblingsBack q ns

/-- The places of the children from left to right. -/
def children (p : Place) : List Place :=
  siblingsFrom p [] p.node.children

/-- The children that are more than tokens. -/
def namedChildren (p : Place) : List Place :=
  p.children.filter isNamed

/-- The first child that fills a field. -/
def field? (p : Place) (name : String) : Option Place :=
  p.children.find? fun c => c.node.fields.contains name

/-- All children that fill a field. -/
def fieldAll (p : Place) (name : String) : List Place :=
  p.children.filter fun c => c.node.fields.contains name

/-- The first child of a kind. -/
def childOf? (p : Place) (kind : String) : Option Place :=
  p.children.find? fun c => c.kind == kind

/-- The first child of one of some kinds. -/
def childOfAny? (p : Place) (kinds : List String) : Option Place :=
  p.children.find? fun c => c.isOneOf kinds

/-- The children of a kind. -/
def childrenOf (p : Place) (kind : String) : List Place :=
  p.children.filter fun c => c.kind == kind

/-- Is there a child of the kind? -/
def hasChild (p : Place) (kind : String) : Bool :=
  p.children.any fun c => c.kind == kind

/-- Is there a bare token of the kind among the children? -/
def hasToken (p : Place) (kind : String) : Bool :=
  p.children.any fun c => !c.isNamed && c.kind == kind

/-- The nearest place above of a kind. -/
def parentOf? (p : Place) (kind : String) : Option Place :=
  p.ancestors.find? fun q => q.kind == kind

/-- Does a place of one of these kinds stand above? -/
def isBelow (p : Place) (kinds : List String) : Bool :=
  p.ancestors.any fun q => q.isOneOf kinds

/-- The places below, in preorder, at most so many levels down. -/
def descendants : Nat → Place → List Place
  | 0, _ => []
  | depth + 1, p => p.children.flatMap fun c => c :: descendants depth c

/-- The first place below, in preorder, of one of some kinds. -/
def descendantOfAny? (p : Place) (kinds : List String) (depth : Nat) : Option Place :=
  (descendants depth p).find? fun q => q.isOneOf kinds

/-- The last place on a way down, of at most so many steps, that `next` shows. -/
def follow (next : Place → Option Place) : Nat → Place → Place
  | 0, p => p
  | steps + 1, p =>
      match next p with
      | some q => follow next steps q
      | none => p

/-- The last place on the way down that `next` shows. -/
def lastOn (next : Place → Option Place) (p : Place) : Place :=
  follow next p.node.height p

/-- The place and all places below it, in preorder. -/
def subtree (p : Place) : List Place :=
  p :: descendants p.node.height p

theorem node_of_mem_siblingsFrom {parent : Place} {q : Place} :
    ∀ {ns before}, q ∈ siblingsFrom parent before ns → q.node ∈ ns
  | [], _, h => by simp [siblingsFrom] at h
  | n :: ns, before, h => by
      rcases List.mem_cons.1 h with rfl | h
      · exact List.mem_cons_self
      · exact List.mem_cons_of_mem _ (node_of_mem_siblingsFrom h)

theorem height_lt_of_mem_children {p q : Place} (h : q ∈ p.children) :
    q.node.height < p.node.height :=
  Node.height_child_lt (node_of_mem_siblingsFrom h)

end Place

end SourceIndex
