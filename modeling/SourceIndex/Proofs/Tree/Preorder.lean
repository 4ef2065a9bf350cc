import Mathlib.Data.List.Lex
import Mathlib.Data.List.Pairwise
import Mathlib.Logic.Relation
import SourceIndex.Proofs.Tree.Emission

/-!
# The order of places

The number of a place counts the places before it in preorder.  A place has the numbers from its own
on for all that is below it, so the lists of places below have growing numbers, and the first place
of a sort is the one with the least number.  The address of a place says which way leads down to it.
Addresses come in the order of a dictionary: a place before what is below it, and that before what
is below a later sibling.

The way up from a place leads through every place that it is below.  What a walk hands out from a
place on is one piece of all that it hands out.
-/

namespace SourceIndex

/-- In a list with growing numbers, what is found first has the least number. -/
theorem find?_eq_some_iff_of_pairwise {α : Type} {number : α → Nat} {items : List α}
    (h : items.Pairwise fun a b => number a < number b) {accepts : α → Bool} {a : α} :
    items.find? accepts = some a ↔
      a ∈ items ∧ accepts a = true ∧ ∀ b ∈ items, accepts b = true → number a ≤ number b := by
  induction items with
  | nil => simp
  | cons c items ih =>
      obtain ⟨hc, hitems⟩ := List.pairwise_cons.1 h
      rw [List.find?_cons]
      cases haccepts : accepts c with
      | true =>
          constructor
          · intro heq
            cases heq
            refine ⟨List.mem_cons_self, haccepts, fun b hb _ => ?_⟩
            rcases List.mem_cons.1 hb with rfl | hb
            · exact Nat.le_refl _
            · exact Nat.le_of_lt (hc b hb)
          · rintro ⟨ha, -, hleast⟩
            rcases List.mem_cons.1 ha with rfl | ha
            · rfl
            · have hle := hleast c List.mem_cons_self haccepts
              have hlt := hc a ha
              omega
      | false =>
          -- What is not accepted is not the one and does not count for the others.
          have hne : ∀ b, accepts b = true → b ≠ c := by
            rintro b hb rfl
            rw [haccepts] at hb
            cases hb
          show items.find? accepts = some a ↔ _
          rw [ih hitems]
          constructor
          · rintro ⟨ha, hacc, hleast⟩
            refine ⟨List.mem_cons_of_mem _ ha, hacc, fun b hb hb' => ?_⟩
            exact hleast b (List.mem_of_ne_of_mem (hne b hb') hb) hb'
          · rintro ⟨ha, hacc, hleast⟩
            exact ⟨List.mem_of_ne_of_mem (hne a hacc) ha, hacc,
              fun b hb => hleast b (List.mem_cons_of_mem _ hb)⟩

namespace Place

variable {p q c : Place}

/-! ## Numbers -/

theorem one_le_size (p : Place) : 1 ≤ p.node.size := by
  cases p.node with
  | mk k b f s e cs => exact Nat.le_add_right 1 _

/-- The numbers of siblings and of all below them, between those before and the next. -/
theorem number_bounds_siblingsFrom {parent : Place} {before ns : List Node}
    (hc : c ∈ siblingsFrom parent before ns) :
    parent.number + 1 + Node.sizeAll before ≤ c.number ∧
      c.number + c.node.size ≤ parent.number + 1 + Node.sizeAll before + Node.sizeAll ns := by
  induction ns generalizing before with
  | nil => cases hc
  | cons n ns ih =>
      rcases List.mem_cons.1 hc with rfl | hc
      · simp only [number, node, Node.sizeAll]
        omega
      · have hbounds := ih hc
        simp only [Node.sizeAll] at hbounds ⊢
        omega

theorem pairwise_number_siblingsFrom (parent : Place) (before ns : List Node) :
    (siblingsFrom parent before ns).Pairwise fun a b => a.number + a.node.size ≤ b.number := by
  induction ns generalizing before with
  | nil => exact List.Pairwise.nil
  | cons n ns ih =>
      refine List.Pairwise.cons (fun b hb => ?_) (ih (n :: before))
      have hbounds := (number_bounds_siblingsFrom hb).1
      simp only [number, node, Node.sizeAll] at hbounds ⊢
      omega

theorem number_bounds_of_mem_children (hc : c ∈ p.children) :
    p.number < c.number ∧ c.number + c.node.size ≤ p.number + p.node.size := by
  have hbounds := number_bounds_siblingsFrom hc
  have hsize : p.node.size = 1 + Node.sizeAll p.node.children := by
    cases p.node with
    | mk k b f s e cs => rfl
  simp only [Node.sizeAll] at hbounds
  omega

/-- What is below a place has numbers of its own, which go on from that of the place. -/
theorem number_bounds_of_mem_subtree (hq : q ∈ p.subtree) :
    p.number ≤ q.number ∧ q.number + q.node.size ≤ p.number + p.node.size := by
  refine forall_mem_subtree
    (P := fun q => p.number ≤ q.number ∧ q.number + q.node.size ≤ p.number + p.node.size)
    (fun r c hc hr => ?_) ⟨Nat.le_refl _, Nat.le_refl _⟩ q hq
  have hbounds := number_bounds_of_mem_children hc
  omega

/-- The places below a place come in an order in which every place comes before what is below it,
and whatever is below a child before what is below the children behind. -/
theorem pairwise_subtree {R : Place → Place → Prop}
    (hbelow : ∀ p c : Place, c ∈ p.children → ∀ q ∈ c.subtree, R p q)
    (hbeside : ∀ p : Place, p.children.Pairwise fun a b => ∀ x ∈ a.subtree, ∀ y ∈ b.subtree, R x y)
    (p : Place) : p.subtree.Pairwise R := by
  induction hheight : p.node.height using Nat.strong_induction_on generalizing p with
  | _ height ih =>
      rw [subtree_eq, List.pairwise_cons, List.pairwise_flatMap]
      refine ⟨fun q hq => ?_, fun c hc => ?_, hbeside p⟩
      · obtain ⟨c, hc, hq⟩ := List.mem_flatMap.1 hq
        exact hbelow p c hc q hq
      · exact ih _ (hheight ▸ height_lt_of_mem_children hc) c rfl

/-- The places below a place come in the order of their numbers. -/
theorem pairwise_number_subtree (p : Place) :
    p.subtree.Pairwise fun a b => a.number < b.number := by
  refine pairwise_subtree (fun p c hc q hq => ?_) (fun p => ?_) p
  · have hfirst := (number_bounds_of_mem_children hc).1
    have hle := (number_bounds_of_mem_subtree hq).1
    omega
  · refine (pairwise_number_siblingsFrom p [] p.node.children).imp fun {a b} hab x hx y hy => ?_
    have hx := (number_bounds_of_mem_subtree hx).2
    have hy := (number_bounds_of_mem_subtree hy).1
    have hsize := one_le_size x
    omega

/-- Places in one tree are told by their numbers. -/
theorem eq_of_number_eq {r : Place} (hp : p ∈ r.subtree) (hq : q ∈ r.subtree)
    (h : p.number = q.number) : p = q := by
  have hsymm : Std.Symm fun a b : Place => a.number ≠ b.number := ⟨fun _ _ h => h.symm⟩
  have hapart : r.subtree.Pairwise fun a b => a.number ≠ b.number :=
    (pairwise_number_subtree r).imp fun hlt => Nat.ne_of_lt hlt
  by_contra hne
  exact hapart.forall hp hq hne h

/-! ## Addresses -/

/-- The positions among siblings on the way from the root down to a place. -/
def address : Place → List Nat
  | root _ => []
  | child q ns _ => q.address ++ [ns.length]

theorem address_of_mem_children (hc : c ∈ p.children) : c.address = p.address ++ [c.index] := by
  obtain ⟨ns, n, rfl⟩ := exists_of_mem_children hc
  rfl

theorem address_prefix_of_mem_subtree (hq : q ∈ p.subtree) : p.address <+: q.address := by
  refine forall_mem_subtree (P := fun q => p.address <+: q.address) (fun r c hc hr => ?_)
    (List.prefix_refl _) q hq
  rw [address_of_mem_children hc]
  exact hr.trans (List.prefix_append _ _)

/-- The way from a place down to what is below a child of it goes on with the position of that. -/
theorem exists_address_eq (hc : c ∈ p.children) (hq : q ∈ c.subtree) :
    ∃ rest, q.address = p.address ++ c.index :: rest := by
  obtain ⟨rest, hrest⟩ := address_prefix_of_mem_subtree hq
  refine ⟨rest, ?_⟩
  rw [← hrest, address_of_mem_children hc, List.append_assoc, List.singleton_append]

/-- The places below a place come in the order of their addresses. -/
theorem pairwise_address_subtree (p : Place) :
    p.subtree.Pairwise fun a b => a.address < b.address := by
  refine pairwise_subtree (fun p c hc q hq => ?_) (fun p => ?_) p
  · obtain ⟨rest, hrest⟩ := exists_address_eq hc hq
    have hlonger : p.address ++ [] < p.address ++ c.index :: rest :=
      List.Lex.append_left _ List.Lex.nil p.address
    rwa [List.append_nil, ← hrest] at hlonger
  · refine (pairwise_index_children p).imp_of_mem fun {a b} ha hb hab x hx y hy => ?_
    obtain ⟨restx, hrestx⟩ := exists_address_eq ha hx
    obtain ⟨resty, hresty⟩ := exists_address_eq hb hy
    have hbefore : a.index :: restx < b.index :: resty := List.Lex.rel hab
    rw [hrestx, hresty]
    exact List.Lex.append_left _ hbefore p.address

/-! ## Descendants -/

/-- The descendants of a place are what stands below it, down to some level. -/
theorem descendants_eq_filter_subtree (p : Place) (depth : Nat) :
    p.descendants depth =
      p.subtree.filter fun q => decide (p.level < q.level ∧ q.level ≤ p.level + depth) := by
  rw [descendants_eq_filter, subtree_eq p, List.filter_cons_of_neg (by simp)]
  refine List.filter_congr fun q hq => ?_
  obtain ⟨c, hc, hq⟩ := List.mem_flatMap.1 hq
  have hlt := level_le_of_mem_subtree hq
  rw [level_of_mem_children hc] at hlt
  exact decide_eq_decide.2 (and_iff_right hlt).symm

theorem mem_descendants_iff {depth : Nat} :
    q ∈ p.descendants depth ↔ q ∈ p.subtree ∧ p.level < q.level ∧ q.level ≤ p.level + depth := by
  rw [descendants_eq_filter_subtree, List.mem_filter, decide_eq_true_eq]

theorem pairwise_number_descendants (p : Place) (depth : Nat) :
    (p.descendants depth).Pairwise fun a b => a.number < b.number := by
  rw [descendants_eq_filter_subtree]
  exact (pairwise_number_subtree p).filter _

/-- Does a way lead down from one place to another, by steps from a place to one of its children? -/
def LeadsTo : Place → Place → Prop :=
  Relation.TransGen fun p c => c ∈ p.children

/-- Number of steps that lead down from a place to one below it. -/
def distance (p q : Place) : Nat :=
  q.level - p.level

theorem leadsTo_iff : p.LeadsTo q ↔ q ∈ p.subtree ∧ p.level < q.level := by
  constructor
  · intro h
    induction h with
    | single hc => exact ⟨mem_subtree_of_child hc, by rw [level_of_mem_children hc]; omega⟩
    | tail _ hc ih =>
        refine ⟨mem_subtree_of_mem_children ih.1 hc, ?_⟩
        rw [level_of_mem_children hc]
        exact Nat.lt_succ_of_lt ih.2
  · rintro ⟨hq, hlt⟩
    have hway := forall_mem_subtree (P := Relation.ReflTransGen (fun p c => c ∈ p.children) p)
      (fun r c hc hr => hr.tail hc) .refl q hq
    rcases Relation.reflTransGen_iff_eq_or_transGen.1 hway with rfl | hway
    · exact absurd hlt (Nat.lt_irrefl _)
    · exact hway

/-- Does a list hold the places that a place leads down to, by at most so many steps, each once and
in preorder? -/
structure ListsBelow (p : Place) (depth : Nat) (places : List Place) : Prop where
  mem_iff : ∀ q, q ∈ places ↔ p.LeadsTo q ∧ p.distance q ≤ depth
  nodup : places.Nodup
  ordered : places.Pairwise fun a b => a.address < b.address

theorem listsBelow_descendants (p : Place) (depth : Nat) :
    p.ListsBelow depth (p.descendants depth) := by
  have hordered : (p.descendants depth).Pairwise fun a b => a.address < b.address := by
    rw [descendants_eq_filter_subtree]
    exact (pairwise_address_subtree p).filter _
  refine ⟨fun q => ?_, hordered.imp fun {a b} hlt heq => ?_, hordered⟩
  · rw [mem_descendants_iff, leadsTo_iff, distance, Nat.sub_le_iff_le_add', and_assoc]
  · exact List.lt_irrefl _ (heq ▸ hlt)

/-- Fewer levels leave the places that are near enough. -/
theorem descendants_eq_filter_descendants {fewer depth : Nat} (hle : fewer ≤ depth) (p : Place) :
    p.descendants fewer =
      (p.descendants depth).filter fun q => decide (p.distance q ≤ fewer) := by
  rw [descendants_eq_filter_subtree, descendants_eq_filter_subtree, List.filter_filter]
  refine List.filter_congr fun q _ => ?_
  rw [← Bool.decide_and, distance]
  refine decide_eq_decide.2 ?_
  omega

theorem descendantOfAny?_eq_some_iff {kinds : List String} {depth : Nat} :
    p.descendantOfAny? kinds depth = some q ↔
      q.kind ∈ kinds ∧ ∃ before after, p.descendants depth = before ++ q :: after ∧
        ∀ r ∈ before, r.kind ∉ kinds := by
  rw [descendantOfAny?, List.find?_eq_some_iff_append]
  simp only [isOneOf, List.contains_eq_mem, Bool.not_eq_true', decide_eq_false_iff_not,
    decide_eq_true_eq]

theorem descendantOfAny?_eq_none_iff {kinds : List String} {depth : Nat} :
    p.descendantOfAny? kinds depth = none ↔ ∀ q ∈ p.descendants depth, q.kind ∉ kinds := by
  rw [descendantOfAny?, List.find?_eq_none]
  simp only [isOneOf, List.contains_iff_mem]

/-- The descendants of a place are what it leads down to, as far down as the bound says and no
farther, each once and in preorder.  A smaller bound leaves those of them that are near enough.  A
search for some kinds finds the first of them that is of one, and nothing if none is. -/
theorem descendants_in_preorder {fewer depth : Nat} (hle : fewer ≤ depth) (p : Place)
    (kinds : List String) :
    p.ListsBelow depth (p.descendants depth) ∧
    (p.descendants fewer = (p.descendants depth).filter fun q => decide (p.distance q ≤ fewer)) ∧
    (∀ q, p.descendantOfAny? kinds depth = some q ↔
      q.kind ∈ kinds ∧ ∃ before after, p.descendants depth = before ++ q :: after ∧
        ∀ r ∈ before, r.kind ∉ kinds) ∧
    (p.descendantOfAny? kinds depth = none ↔ ∀ q ∈ p.descendants depth, q.kind ∉ kinds) := by
  refine ⟨?_, ?_, ?_, ?_⟩
  · exact listsBelow_descendants p depth
  · exact descendants_eq_filter_descendants hle p
  · exact fun q => descendantOfAny?_eq_some_iff
  · exact descendantOfAny?_eq_none_iff

/-- A tree with two branches of two levels. -/
def twoBranches : Node :=
  .mk "program" true [] 0 4
    [.mk "block" true [] 0 2 [.leaf "name" [] 0 1, .token ";" 1 2],
      .mk "block" true [] 2 4 [.leaf "name" [] 2 3, .token ";" 3 4]]

/-- The theorem holds of a tree in which a smaller bound leaves out what stands between others. -/
theorem twoBranches_in_preorder :
    1 ≤ 2 ∧
    ((root twoBranches).descendants 1).map address = [[0], [1]] ∧
    ((root twoBranches).descendants 2).map address = [[0], [0, 0], [0, 1], [1], [1, 0], [1, 1]] ∧
    (root twoBranches).ListsBelow 2 ((root twoBranches).descendants 2) ∧
    ((root twoBranches).descendants 1 = ((root twoBranches).descendants 2).filter fun q =>
      decide ((root twoBranches).distance q ≤ 1)) ∧
    (∀ q, (root twoBranches).descendantOfAny? ["name"] 2 = some q ↔
      q.kind ∈ ["name"] ∧ ∃ before after, (root twoBranches).descendants 2 = before ++ q :: after ∧
        ∀ r ∈ before, r.kind ∉ ["name"]) ∧
    ((root twoBranches).descendantOfAny? ["name"] 2 = none ↔
      ∀ q ∈ (root twoBranches).descendants 2, q.kind ∉ ["name"]) :=
  have hle : 1 ≤ 2 := by decide
  ⟨hle, by decide +kernel, by decide +kernel,
    descendants_in_preorder hle (root twoBranches) ["name"]⟩

/-! ## The way up -/

theorem level_lt_of_mem_ancestors (h : q ∈ p.ancestors) : q.level < p.level := by
  induction p with
  | root n => cases h
  | child r ns n ih =>
      rcases List.mem_cons.1 h with rfl | h
      · exact Nat.lt_succ_self _
      · exact Nat.lt_succ_of_lt (ih h)

/-- The way up from a place below another one leads to that, and on from there. -/
theorem ancestors_of_mem_subtree (hq : q ∈ p.subtree) :
    q = p ∨ p.level < q.level ∧ ∃ between, q.ancestors = between ++ p :: p.ancestors ∧
      ∀ r ∈ between, r.level ≠ p.level := by
  refine forall_mem_subtree (P := fun q => q = p ∨ p.level < q.level ∧ ∃ between,
    q.ancestors = between ++ p :: p.ancestors ∧ ∀ r ∈ between, r.level ≠ p.level)
    (fun r c hc hr => Or.inr ?_) (Or.inl rfl) q hq
  have hlevel := level_of_mem_children hc
  rcases hr with rfl | ⟨hlt, between, hancestors, hbetween⟩
  · exact ⟨by omega, [], ancestors_of_mem_children hc, nofun⟩
  · refine ⟨by omega, r :: between, ?_, List.forall_mem_cons.2 ⟨by omega, hbetween⟩⟩
    rw [ancestors_of_mem_children hc, hancestors, List.cons_append]

end Place

/-! ## Pieces of a walk -/

theorem infix_flatMap {α β : Type} {items : List α} {a : α} (h : a ∈ items) (f : α → List β) :
    f a <:+: items.flatMap f := by
  obtain ⟨before, after, rfl⟩ := List.append_of_mem h
  exact ⟨before.flatMap f, after.flatMap f, by simp⟩

theorem Step.flatMap_items_emit {τ α : Type} (walk : τ → Place → List α) (items : List α) :
    (items.map Step.emit).flatMap (Step.items walk) = items := by
  rw [List.flatMap_map]
  exact List.flatMap_singleton' items

namespace Rule

variable {τ α : Type} {rule : Rule τ α} {task : τ} {p : Place}

/-- What a walk hands out from a place on that it comes to is one piece of all. -/
theorem walk_infix_of_mem_visits (h : rule.Descends) {v : τ × Place}
    (hv : v ∈ rule.visits task p) : rule.walk v.1 v.2 <:+: rule.walk task p := by
  refine forall_mem_visits h (P := fun t q => rule.walk t q <:+: rule.walk task p)
    (fun {t t' q q'} hq hstep => ?_) (List.infix_refl _) v hv
  refine List.IsInfix.trans ?_ hq
  rw [walk_eq h t q]
  exact infix_flatMap hstep (Step.items rule.walk)

end Rule

end SourceIndex
