import SourceIndex.Document
import SourceIndex.Proofs.Tree.Descent

/-!
# Truncated trees

A place of a tree stands in the truncated tree too, unless it is too deep.  There it says the same
of itself and of its surroundings, and above the last level that is kept it has the same children.
-/

namespace SourceIndex

namespace Node

variable (levels : Nat) (n : Node)

@[simp] theorem kind_truncate : (n.truncate levels).kind = n.kind := by
  cases n
  cases levels <;> rfl

@[simp] theorem isNamed_truncate : (n.truncate levels).isNamed = n.isNamed := by
  cases n
  cases levels <;> rfl

@[simp] theorem fields_truncate : (n.truncate levels).fields = n.fields := by
  cases n
  cases levels <;> rfl

@[simp] theorem start_truncate : (n.truncate levels).start = n.start := by
  cases n
  cases levels <;> rfl

@[simp] theorem stop_truncate : (n.truncate levels).stop = n.stop := by
  cases n
  cases levels <;> rfl

theorem truncateAll_eq_map (ns : List Node) : truncateAll levels ns = ns.map (truncate levels) := by
  induction ns with
  | nil => rfl
  | cons n ns ih => rw [truncateAll, ih, List.map_cons]

theorem children_truncate_succ :
    (n.truncate (levels + 1)).children = n.children.map (truncate levels) := by
  cases n
  exact truncateAll_eq_map levels _

theorem children_truncate_zero : (n.truncate 0).children = [] := by
  cases n
  rfl

end Node

namespace Place

/-- The place in the tree without the nodes more than `levels` levels below the root. -/
def truncate (levels : Nat) : Place → Place
  | root n => root (n.truncate levels)
  | child q ns n =>
      child (truncate levels q) (ns.map (Node.truncate (levels - (q.level + 1))))
        (n.truncate (levels - (q.level + 1)))

variable {levels : Nat} {p : Place}

theorem node_truncate (levels : Nat) (p : Place) :
    (p.truncate levels).node = p.node.truncate (levels - p.level) := by
  cases p <;> rfl

@[simp] theorem level_truncate (levels : Nat) (p : Place) : (p.truncate levels).level = p.level := by
  induction p with
  | root n => rfl
  | child q ns n ih => exact congrArg (· + 1) ih

@[simp] theorem index_truncate (levels : Nat) (p : Place) : (p.truncate levels).index = p.index := by
  cases p with
  | root n => rfl
  | child q ns n => exact List.length_map _

@[simp] theorem kind_truncate (levels : Nat) (p : Place) : (p.truncate levels).kind = p.kind := by
  rw [kind, node_truncate, Node.kind_truncate, kind]

@[simp] theorem isNamed_truncate (levels : Nat) (p : Place) : (p.truncate levels).isNamed = p.isNamed := by
  rw [isNamed, node_truncate, Node.isNamed_truncate, isNamed]

@[simp] theorem fields_truncate (levels : Nat) (p : Place) :
    (p.truncate levels).node.fields = p.node.fields := by
  rw [node_truncate, Node.fields_truncate]

@[simp] theorem start_truncate (levels : Nat) (p : Place) : (p.truncate levels).start = p.start := by
  rw [start, node_truncate, Node.start_truncate, start]

@[simp] theorem stop_truncate (levels : Nat) (p : Place) : (p.truncate levels).stop = p.stop := by
  rw [stop, node_truncate, Node.stop_truncate, stop]

@[simp] theorem isOneOf_truncate (levels : Nat) (p : Place) (kinds : List String) :
    (p.truncate levels).isOneOf kinds = p.isOneOf kinds := by
  rw [isOneOf, kind_truncate, isOneOf]

theorem parent?_truncate (levels : Nat) (p : Place) :
    (p.truncate levels).parent? = p.parent?.map (truncate levels) := by
  cases p <;> rfl

theorem siblingsFrom_truncate (q : Place) (before ns : List Node) :
    siblingsFrom (q.truncate levels) (before.map (Node.truncate (levels - (q.level + 1))))
        (ns.map (Node.truncate (levels - (q.level + 1)))) =
      (siblingsFrom q before ns).map (truncate levels) := by
  induction ns generalizing before with
  | nil => rfl
  | cons n ns ih => exact congrArg (_ :: ·) (ih (n :: before))

theorem siblingsBack_truncate (q : Place) (ns : List Node) :
    siblingsBack (q.truncate levels) (ns.map (Node.truncate (levels - (q.level + 1)))) =
      (siblingsBack q ns).map (truncate levels) := by
  induction ns with
  | nil => rfl
  | cons n ns ih => exact congrArg (_ :: ·) ih

/-- The siblings before a place are truncated with it. -/
theorem siblingsBefore_truncate (levels : Nat) (p : Place) :
    (p.truncate levels).siblingsBefore = p.siblingsBefore.map (truncate levels) := by
  cases p with
  | root n => rfl
  | child q ns n => exact siblingsBack_truncate q ns

theorem level_of_mem_siblingsBefore {q : Place} (h : q ∈ p.siblingsBefore) : q.level = p.level := by
  cases p with
  | root n => cases h
  | child parent ns n =>
      -- The siblings are made one after the other, with fewer and fewer of them before.
      have hback : ∀ ns : List Node, ∀ q ∈ siblingsBack parent ns, q.level = parent.level + 1 := by
        intro ns
        induction ns with
        | nil => exact fun _ hq => absurd hq List.not_mem_nil
        | cons n ns ih =>
            intro q hq
            rcases List.mem_cons.1 hq with rfl | hq
            · rfl
            · exact ih q hq
      exact hback ns q h

/-- Above the last level the children are those of the whole tree. -/
theorem children_truncate (h : p.level < levels) :
    (p.truncate levels).children = p.children.map (truncate levels) := by
  obtain ⟨k, hk⟩ : ∃ k, levels - p.level = k + 1 := ⟨levels - p.level - 1, by omega⟩
  have hchild : levels - (p.level + 1) = k := by omega
  have hsiblings : siblingsFrom (p.truncate levels) [] (p.node.children.map (Node.truncate k)) =
      p.children.map (truncate levels) := by
    rw [← hchild]
    exact siblingsFrom_truncate p [] p.node.children
  rw [children, node_truncate, hk, Node.children_truncate_succ]
  exact hsiblings

/-- On the last level there are no children. -/
theorem children_truncate_of_le (h : levels ≤ p.level) : (p.truncate levels).children = [] := by
  rw [children, node_truncate, Nat.sub_eq_zero_of_le h, Node.children_truncate_zero]
  rfl

theorem exists_of_mem_children_truncate {q' : Place} (h : q' ∈ (p.truncate levels).children) :
    ∃ q ∈ p.children, q' = q.truncate levels := by
  by_cases hp : p.level < levels
  · rw [children_truncate hp] at h
    obtain ⟨q, hq, heq⟩ := List.mem_map.1 h
    exact ⟨q, hq, heq.symm⟩
  · rw [children_truncate_of_le (Nat.le_of_not_lt hp)] at h
    cases h

theorem children_of_mem_children_truncate {q' : Place} (h : q' ∈ (p.truncate levels).children)
    (hp : levels ≤ p.level + 1) : q'.children = [] := by
  obtain ⟨q, hq, rfl⟩ := exists_of_mem_children_truncate h
  refine children_truncate_of_le ?_
  rw [level_of_mem_children hq]
  exact hp

theorem field?_truncate (h : p.level < levels) (name : String) :
    (p.truncate levels).field? name = (p.field? name).map (truncate levels) := by
  rw [field?, children_truncate h, List.find?_map, field?]
  simp only [Function.comp_def, fields_truncate]

theorem childOf?_truncate (h : p.level < levels) (kind : String) :
    (p.truncate levels).childOf? kind = (p.childOf? kind).map (truncate levels) := by
  rw [childOf?, children_truncate h, List.find?_map, childOf?]
  simp only [Function.comp_def, kind_truncate]

theorem childOfAny?_truncate (h : p.level < levels) (kinds : List String) :
    (p.truncate levels).childOfAny? kinds = (p.childOfAny? kinds).map (truncate levels) := by
  rw [childOfAny?, children_truncate h, List.find?_map, childOfAny?]
  simp only [Function.comp_def, isOneOf_truncate]

theorem childrenOf_truncate (h : p.level < levels) (kind : String) :
    (p.truncate levels).childrenOf kind = (p.childrenOf kind).map (truncate levels) := by
  rw [childrenOf, children_truncate h, List.filter_map, childrenOf]
  simp only [Function.comp_def, kind_truncate]

theorem namedChildren_truncate (h : p.level < levels) :
    (p.truncate levels).namedChildren = p.namedChildren.map (truncate levels) := by
  rw [namedChildren, children_truncate h, List.filter_map, namedChildren]
  simp only [Function.comp_def, isNamed_truncate]

theorem hasChild_truncate (h : p.level < levels) (kind : String) :
    (p.truncate levels).hasChild kind = p.hasChild kind := by
  rw [hasChild, children_truncate h, List.any_map, hasChild]
  simp only [Function.comp_def, kind_truncate]

theorem hasToken_truncate (h : p.level < levels) (kind : String) :
    (p.truncate levels).hasToken kind = p.hasToken kind := by
  rw [hasToken, children_truncate h, List.any_map, hasToken]
  simp only [Function.comp_def, isNamed_truncate, kind_truncate]

theorem ancestors_truncate (levels : Nat) (p : Place) :
    (p.truncate levels).ancestors = p.ancestors.map (truncate levels) := by
  induction p with
  | root n => rfl
  | child q ns n ih => exact congrArg (_ :: ·) ih

@[simp] theorem isBelow_truncate (levels : Nat) (p : Place) (kinds : List String) :
    (p.truncate levels).isBelow kinds = p.isBelow kinds := by
  rw [isBelow, ancestors_truncate, List.any_map, isBelow]
  simp only [Function.comp_def, isOneOf_truncate]

/-- The children of what fills a field, where the last level is not yet reached. -/
theorem fieldChildren_truncate (h : p.level + 1 < levels) (name : String) :
    (((p.truncate levels).field? name).map children).getD [] =
      (((p.field? name).map children).getD []).map (truncate levels) := by
  rw [field?_truncate (by omega)]
  cases hchild : p.field? name with
  | none => rfl
  | some c =>
      have hlevel := level_of_mem_children (mem_children_of_field? hchild)
      exact children_truncate (by omega)

theorem level_of_mem_descendants {depth : Nat} {q : Place} (h : q ∈ p.descendants depth) :
    q.level ≤ p.level + depth := by
  induction depth generalizing p with
  | zero => cases h
  | succ depth ih =>
      obtain ⟨c, hc, h⟩ := List.mem_flatMap.1 h
      have hlevel := Place.level_of_mem_children hc
      rcases List.mem_cons.1 h with rfl | h
      · omega
      · have hbelow := ih h
        omega

/-- As far down as the tree is kept, the places below are those of the whole tree. -/
theorem descendants_truncate {depth : Nat} (h : p.level + depth ≤ levels) :
    (p.truncate levels).descendants depth = (p.descendants depth).map (truncate levels) := by
  induction depth generalizing p with
  | zero => rfl
  | succ depth ih =>
      rw [descendants, children_truncate (by omega), List.flatMap_map, descendants,
        List.map_flatMap]
      refine List.flatMap_congr fun c hc => ?_
      have hlevel := level_of_mem_children hc
      rw [ih (by omega), List.map_cons]

theorem descendantOfAny?_truncate {depth : Nat} (h : p.level + depth ≤ levels)
    (kinds : List String) :
    (p.truncate levels).descendantOfAny? kinds depth =
      (p.descendantOfAny? kinds depth).map (truncate levels) := by
  rw [descendantOfAny?, descendants_truncate h, List.find?_map, descendantOfAny?]
  simp only [Function.comp_def, isOneOf_truncate]

theorem field?_eq_none (h : p.children = []) (name : String) : p.field? name = none := by
  rw [field?, h, List.find?_nil]

theorem childOf?_eq_none (h : p.children = []) (kind : String) : p.childOf? kind = none := by
  rw [childOf?, h, List.find?_nil]

theorem childOfAny?_eq_none (h : p.children = []) (kinds : List String) :
    p.childOfAny? kinds = none := by
  rw [childOfAny?, h, List.find?_nil]

theorem level_of_field? {q : Place} {name : String} (h : p.field? name = some q) :
    q.level = p.level + 1 :=
  level_of_mem_children (mem_children_of_field? h)

theorem level_of_childOf? {q : Place} {kind : String} (h : p.childOf? kind = some q) :
    q.level = p.level + 1 :=
  level_of_mem_children (List.mem_of_find?_eq_some h)

end Place

namespace Document

variable (d : Document) {levels : Nat} {p : Place}

/-- Number of levels below the root that a walk may look at if it keeps to its limit. -/
def keptLevels : Nat :=
  4 * (d.limits.walkDepth.toNat + 2)

/-- A walk that takes three levels for a step of depth and is not too deep yet has some of the kept
levels left, as many as the depth allows and some more. -/
theorem add_le_keptLevels {level depth : Nat} (hlevel : level ≤ 3 * depth + 1)
    (hdepth : ¬ d.tooDeep depth = true) :
    level + d.limits.walkDepth.toNat + 7 ≤ d.keptLevels := by
  rw [tooDeep, decide_eq_true_eq] at hdepth
  rw [keptLevels]
  omega

/-- Such a walk finds the children of a place above the last kept level. -/
theorem level_add_lt_keptLevels {c : Place} {depth : Nat} (hp : p.level ≤ 3 * depth + 1)
    (hdepth : ¬ d.tooDeep depth = true) (hc : c ∈ p.children) :
    c.level + d.limits.walkDepth.toNat + 5 < d.keptLevels := by
  have hlevel := d.add_le_keptLevels hp hdepth
  rw [Place.level_of_mem_children hc]
  omega

theorem lt_keptLevels {level depth : Nat} (hlevel : level ≤ 3 * depth + 1)
    (hdepth : ¬ d.tooDeep depth = true) : level < d.keptLevels := by
  have hle := d.add_le_keptLevels hlevel hdepth
  omega

/-- On the last of the kept levels such a walk is too deep. -/
theorem tooDeep_of_keptLevels {level depth : Nat} (hlevel : level ≤ 3 * depth + 1)
    (h : d.keptLevels < level + 3) : d.tooDeep depth = true := by
  rw [tooDeep, decide_eq_true_eq]
  rw [keptLevels] at h
  omega

@[simp] theorem text_truncate (levels : Nat) (p : Place) : d.text (p.truncate levels) = d.text p := by
  rw [text, Place.start_truncate, Place.stop_truncate, text]

theorem text?_map_truncate (levels : Nat) (p : Option Place) :
    d.text? (p.map (Place.truncate levels)) = d.text? p := by
  rw [text?, Option.map_map, text?]
  simp only [Function.comp_def, text_truncate]

@[simp] theorem startLine_truncate (levels : Nat) (p : Place) :
    d.startLine (p.truncate levels) = d.startLine p := by
  rw [startLine, Place.start_truncate, startLine]

@[simp] theorem endLine_truncate (levels : Nat) (p : Place) :
    d.endLine (p.truncate levels) = d.endLine p := by
  rw [endLine, Place.stop_truncate, endLine]

@[simp] theorem symbol_truncate (levels : Nat) (p : Place) (name : String) (kind : SymbolKind)
    (details : Symbol.Details) :
    d.symbol (p.truncate levels) name kind details = d.symbol p name kind details := by
  rw [symbol, startLine_truncate, endLine_truncate, symbol]

@[simp] theorem signature_truncate (levels : Nat) (p : Place) :
    d.signature (p.truncate levels) = d.signature p := by
  rw [signature, text_truncate, signature]

theorem paramsText_map_truncate (levels : Nat) (p : Option Place) :
    d.paramsText (p.map (Place.truncate levels)) = d.paramsText p := by
  cases p with
  | none => rfl
  | some p => simp only [paramsText, Option.map_some, text_truncate]

/-- The comments right before a place stand before it in the truncated tree too. -/
theorem precedingComments_truncate (levels : Nat) (p : Place) (kinds : List String) :
    d.precedingComments (p.truncate levels) kinds = d.precedingComments p kinds := by
  rw [precedingComments, Place.siblingsBefore_truncate, List.takeWhile_map, List.map_map,
    precedingComments]
  simp only [Function.comp_def, Place.isOneOf_truncate, text_truncate]

@[simp] theorem reference_truncate (levels : Nat) (kind : ReferenceKind) (target : String) (p : Place)
    (scope : Option String) :
    d.reference kind target (p.truncate levels) scope = d.reference kind target p scope := by
  rw [reference, startLine_truncate, reference]

theorem fieldText_truncate (h : p.level < levels) (field : String) :
    d.fieldText (p.truncate levels) field = d.fieldText p field := by
  rw [fieldText, Place.field?_truncate h, Option.map_map, fieldText]
  simp only [Function.comp_def, text_truncate]

theorem fieldText_eq_none (h : p.children = []) (field : String) : d.fieldText p field = none := by
  rw [fieldText, Place.field?_eq_none h, Option.map_none]

/-- A text that a child or a grandchild has. -/
theorem childText_truncate (h : p.level + 1 < levels) (kind : String) :
    d.childText (p.truncate levels) kind = d.childText p kind := by
  have hgrandchild : ((p.truncate levels).children.findSome? fun c => c.childOf? kind) =
      (p.children.findSome? fun c => c.childOf? kind).map (Place.truncate levels) := by
    have hbelow : ∀ cs ⊆ p.children, (cs.findSome? fun c => (c.truncate levels).childOf? kind) =
        (cs.findSome? fun c => c.childOf? kind).map (Place.truncate levels) := by
      intro cs hcs
      induction cs with
      | nil => rfl
      | cons c cs ih =>
          have hlevel := Place.level_of_mem_children (hcs List.mem_cons_self)
          rw [List.findSome?_cons, Place.childOf?_truncate (by omega), List.findSome?_cons]
          cases c.childOf? kind with
          | none => exact ih fun c' hc' => hcs (List.mem_cons_of_mem _ hc')
          | some g => rfl
    rw [Place.children_truncate (by omega), List.findSome?_map]
    exact hbelow p.children (List.Subset.refl _)
  rw [childText, hgrandchild, Place.childOf?_truncate (by omega), childText]
  cases p.childOf? kind with
  | none => exact d.text?_map_truncate levels _
  | some c => exact congrArg some (d.text_truncate levels c)

end Document

end SourceIndex
