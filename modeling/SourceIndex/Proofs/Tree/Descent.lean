import Mathlib.Data.List.Basic
import Mathlib.Data.Nat.Basic
import SourceIndex.Tree.Walk

/-!
# Going down a tree

The places below a place, one level after another, and walks whose rules only go down.  Such a walk
does what its rule says at every place, without regard to a number of levels.
-/

namespace SourceIndex

namespace Place

variable {p q : Place}

theorem exists_of_mem_siblingsFrom {parent : Place} {before ns : List Node}
    (h : q ∈ siblingsFrom parent before ns) :
    ∃ ns' n, q = child parent ns' n ∧ before.length ≤ ns'.length := by
  induction ns generalizing before with
  | nil => cases h
  | cons n ns ih =>
      rcases List.mem_cons.1 h with rfl | h
      · exact ⟨before, n, rfl, Nat.le_refl _⟩
      · obtain ⟨ns', n', rfl, hlength⟩ := ih h
        exact ⟨ns', n', rfl, Nat.le_of_succ_le hlength⟩

/-- A place among the children has the place itself as parent. -/
theorem exists_of_mem_children (h : q ∈ p.children) : ∃ ns n, q = child p ns n := by
  obtain ⟨ns, n, heq, -⟩ := exists_of_mem_siblingsFrom h
  exact ⟨ns, n, heq⟩

theorem ne_root_of_mem_children {tree : Node} (h : q ∈ p.children) : q ≠ root tree := by
  obtain ⟨ns, n, rfl⟩ := exists_of_mem_children h
  exact nofun

theorem level_of_mem_children (h : q ∈ p.children) : q.level = p.level + 1 := by
  obtain ⟨ns, n, rfl⟩ := exists_of_mem_children h
  rfl

theorem ancestors_of_mem_children (h : q ∈ p.children) : q.ancestors = p :: p.ancestors := by
  obtain ⟨ns, n, rfl⟩ := exists_of_mem_children h
  rfl

theorem parent?_of_mem_children (h : q ∈ p.children) : q.parent? = some p := by
  obtain ⟨ns, n, rfl⟩ := exists_of_mem_children h
  rfl

theorem parent_unique {r : Place} (hp : q ∈ p.children) (hr : q ∈ r.children) : r = p :=
  Option.some_inj.1 ((parent?_of_mem_children hr).symm.trans (parent?_of_mem_children hp))

theorem pairwise_index_siblingsFrom (parent : Place) (before ns : List Node) :
    (siblingsFrom parent before ns).Pairwise fun a b => a.index < b.index := by
  induction ns generalizing before with
  | nil => exact List.Pairwise.nil
  | cons n ns ih =>
      refine List.Pairwise.cons (fun q hq => ?_) (ih (n :: before))
      obtain ⟨ns', n', rfl, hlength⟩ := exists_of_mem_siblingsFrom hq
      exact hlength

/-- Children stand at different positions. -/
theorem pairwise_index_children (p : Place) :
    p.children.Pairwise fun a b => a.index < b.index :=
  pairwise_index_siblingsFrom p [] p.node.children

theorem mem_children_of_field? {name : String} (h : p.field? name = some q) : q ∈ p.children :=
  List.mem_of_find?_eq_some h

theorem mem_children_of_childOf? {kind : String} (h : p.childOf? kind = some q) : q ∈ p.children :=
  List.mem_of_find?_eq_some h

theorem mem_children_of_childOfAny? {kinds : List String} (h : p.childOfAny? kinds = some q) :
    q ∈ p.children :=
  List.mem_of_find?_eq_some h

theorem children_eq_nil (h : p.node.height = 0) : p.children = [] := by
  refine List.eq_nil_iff_forall_not_mem.2 fun q hq => ?_
  have hlt := height_lt_of_mem_children hq
  omega

/-- The height bounds how far down there are places. -/
theorem descendants_eq {m n : Nat} (hm : p.node.height ≤ m) (hn : p.node.height ≤ n) :
    descendants m p = descendants n p := by
  -- A bound of zero leaves no children, so nothing is cut off by the smaller bound.
  induction m generalizing n p with
  | zero =>
      have hnil := children_eq_nil (Nat.le_zero.1 hm)
      cases n with
      | zero => rfl
      | succ n => rw [descendants, descendants, hnil, List.flatMap_nil]
  | succ m ih =>
      cases n with
      | zero =>
          have hnil := children_eq_nil (Nat.le_zero.1 hn)
          rw [descendants, descendants, hnil, List.flatMap_nil]
      | succ n =>
          rw [descendants, descendants]
          refine List.flatMap_congr fun c hc => ?_
          have hlt := height_lt_of_mem_children hc
          rw [ih (n := n) (by omega) (by omega)]

/-- A place, and then the places of its children, each with all that is below. -/
theorem subtree_eq (p : Place) : p.subtree = p :: p.children.flatMap subtree := by
  rw [subtree, descendants_eq (Nat.le_refl _) (Nat.le_succ _), descendants]
  refine congrArg (p :: ·) (List.flatMap_congr fun c hc => ?_)
  have hlt := height_lt_of_mem_children hc
  rw [subtree, descendants_eq (Nat.le_of_lt hlt) (Nat.le_refl _)]

theorem self_mem_subtree (p : Place) : p ∈ p.subtree :=
  List.mem_cons_self

/-- What goes over from places to their children holds at all places below. -/
theorem forall_mem_subtree {P : Place → Prop} (hstep : ∀ p q, q ∈ p.children → P p → P q)
    (hp : P p) : ∀ q ∈ p.subtree, P q := by
  induction hheight : p.node.height using Nat.strong_induction_on generalizing p with
  | _ height ih =>
      intro q hq
      rw [subtree_eq] at hq
      rcases List.mem_cons.1 hq with rfl | hq
      · exact hp
      · obtain ⟨c, hc, hq⟩ := List.mem_flatMap.1 hq
        have hlt := height_lt_of_mem_children hc
        exact ih _ (hheight ▸ hlt) (hstep p c hc hp) rfl q hq

theorem mem_subtree_of_mem_children {r : Place} (hp : p ∈ r.subtree) (hq : q ∈ p.children) :
    q ∈ r.subtree := by
  induction hheight : r.node.height using Nat.strong_induction_on generalizing r with
  | _ height ih =>
      rw [subtree_eq] at hp ⊢
      refine List.mem_cons_of_mem _ (List.mem_flatMap.2 ?_)
      rcases List.mem_cons.1 hp with rfl | hp
      · exact ⟨q, hq, self_mem_subtree q⟩
      · obtain ⟨c, hc, hp⟩ := List.mem_flatMap.1 hp
        have hlt := height_lt_of_mem_children hc
        exact ⟨c, hc, ih _ (hheight ▸ hlt) hp rfl⟩

theorem mem_subtree_of_child (hq : q ∈ p.children) : q ∈ p.subtree :=
  mem_subtree_of_mem_children (self_mem_subtree p) hq

theorem mem_subtree_of_field? {r : Place} {name : String} (hp : p ∈ r.subtree)
    (h : p.field? name = some q) : q ∈ r.subtree :=
  mem_subtree_of_mem_children hp (mem_children_of_field? h)

/-- The child that fills a field, or the place itself without one. -/
theorem mem_subtree_of_field?_getD (p : Place) {name : String} :
    (p.field? name).getD p ∈ p.subtree := by
  cases hchild : p.field? name with
  | none => exact self_mem_subtree p
  | some c => exact mem_subtree_of_child (mem_children_of_field? hchild)

theorem mem_subtree_trans {r : Place} (hp : p ∈ r.subtree) (hq : q ∈ p.subtree) : q ∈ r.subtree :=
  forall_mem_subtree (fun _ _ hc hmem => mem_subtree_of_mem_children hmem hc) hp q hq

/-- The children of the place that fills a field. -/
theorem mem_subtree_of_mem_fieldChildren {name : String}
    (h : q ∈ ((p.field? name).map children).getD []) : q ∈ p.subtree := by
  cases hc : p.field? name with
  | none =>
      rw [hc] at h
      cases h
  | some c =>
      rw [hc] at h
      exact mem_subtree_of_mem_children (mem_subtree_of_child (mem_children_of_field? hc)) h

theorem mem_subtree_of_mem_descendants {depth : Nat} (h : q ∈ p.descendants depth) :
    q ∈ p.subtree := by
  induction depth generalizing p with
  | zero => cases h
  | succ depth ih =>
      obtain ⟨c, hc, h⟩ := List.mem_flatMap.1 h
      rcases List.mem_cons.1 h with rfl | h
      · exact mem_subtree_of_child hc
      · exact mem_subtree_trans (mem_subtree_of_child hc) (ih h)

theorem height_le_of_mem_subtree (h : q ∈ p.subtree) : q.node.height ≤ p.node.height :=
  forall_mem_subtree (P := fun q => q.node.height ≤ p.node.height)
    (fun _ _ hc hle => Nat.le_trans (Nat.le_of_lt (height_lt_of_mem_children hc)) hle)
    (Nat.le_refl _) q h

theorem level_le_of_mem_subtree (h : q ∈ p.subtree) : p.level ≤ q.level := by
  refine forall_mem_subtree (P := fun q => p.level ≤ q.level) (fun r c hc hr => ?_) (Nat.le_refl _)
    q h
  rw [level_of_mem_children hc]
  exact Nat.le_succ_of_le hr

/-- The level of a place and the height below it never exceed those of the tree. -/
theorem level_add_height_le {r : Place} :
    ∀ q ∈ r.subtree, q.level + q.node.height ≤ r.level + r.node.height := by
  refine forall_mem_subtree (fun p c hc hp => ?_) (Nat.le_refl _)
  have hlt := height_lt_of_mem_children hc
  rw [level_of_mem_children hc]
  omega

/-- The places at most so many levels down are those below whose level is no higher. -/
theorem descendants_eq_filter (n : Nat) (p : Place) :
    p.descendants n =
      (p.children.flatMap subtree).filter fun q => decide (q.level ≤ p.level + n) := by
  induction n generalizing p with
  | zero =>
      symm
      refine List.filter_eq_nil_iff.2 fun q hq => ?_
      obtain ⟨c, hc, hq⟩ := List.mem_flatMap.1 hq
      have hle := level_le_of_mem_subtree hq
      rw [level_of_mem_children hc] at hle
      simp only [decide_eq_true_eq]
      omega
  | succ n ih =>
      rw [descendants, List.filter_flatMap]
      refine List.flatMap_congr fun c hc => ?_
      have hlevel : c.level + n = p.level + (n + 1) := by
        rw [level_of_mem_children hc]
        omega
      have hkeep : c.level ≤ p.level + (n + 1) := by omega
      rw [subtree_eq, ih c, hlevel, List.filter_cons_of_pos (by simpa using hkeep)]

/-- A place lower than another one, at most so many levels below. -/
structure Below (levels : Nat) (p q : Place) : Prop where
  lt_level : p.level < q.level
  level_le : q.level ≤ p.level + levels
  height : q.node.height < p.node.height

theorem below_of_mem_children (h : q ∈ p.children) : Below 1 p q := by
  have hlevel := level_of_mem_children h
  exact ⟨by omega, by omega, height_lt_of_mem_children h⟩

theorem below_of_field? {name : String} (h : p.field? name = some q) : Below 1 p q :=
  below_of_mem_children (mem_children_of_field? h)

theorem Below.trans {j k : Nat} {r : Place} (h : Below j p q) (h' : Below k q r) :
    Below (j + k) p r := by
  have hlevel := h.level_le
  have hlevel' := h'.level_le
  exact ⟨Nat.lt_trans h.lt_level h'.lt_level, by omega, Nat.lt_trans h'.height h.height⟩

theorem Below.mono {j k : Nat} (h : Below j p q) (hle : j ≤ k) : Below k p q :=
  ⟨h.lt_level, Nat.le_trans h.level_le (Nat.add_le_add_left hle _), h.height⟩

end Place

/-- What a step of a walk hands out, where `walk` tells it for the places that are gone on to. -/
def Step.items {τ α : Type} (walk : τ → Place → List α) : Step τ α → List α
  | emit item => [item]
  | visit task place => walk task place

namespace Rule

variable {τ α : Type} {rule : Rule τ α}

/-- A rule that only goes on to places below. -/
def Descends (rule : Rule τ α) : Prop :=
  ∀ {task task' : τ} {p q : Place}, Step.visit task' q ∈ rule task p →
    q.node.height < p.node.height

theorem run_succ (rule : Rule τ α) (levels : Nat) (task : τ) (p : Place) :
    rule.run (levels + 1) task p = (rule task p).flatMap (Step.items (rule.run levels)) := by
  rw [run]
  refine List.flatMap_congr fun step _ => ?_
  cases step <;> rfl

/-- More levels than the tree has make no difference. -/
theorem run_eq (h : rule.Descends) {m n : Nat} {task : τ} {p : Place} (hm : p.node.height < m)
    (hn : p.node.height < n) : rule.run m task p = rule.run n task p := by
  induction m generalizing n task p with
  | zero => omega
  | succ m ih =>
      obtain ⟨n, rfl⟩ : ∃ k, n = k + 1 := ⟨n - 1, by omega⟩
      rw [run_succ, run_succ]
      refine List.flatMap_congr fun step hstep => ?_
      cases step with
      | emit item => rfl
      | visit task' q =>
          have hlt := h hstep
          exact ih (by omega) (by omega)

/-- A walk does what its rule says, and goes on from there. -/
theorem walk_eq (h : rule.Descends) (task : τ) (p : Place) :
    rule.walk task p = (rule task p).flatMap (Step.items rule.walk) := by
  rw [walk, run_succ]
  refine List.flatMap_congr fun step hstep => ?_
  cases step with
  | emit item => rfl
  | visit task' q => exact run_eq h (h hstep) (Nat.lt_succ_self _)

end Rule

end SourceIndex
