import SourceIndex.Proofs.Tree.Truncation

/-!
# Walks over truncated trees

What becomes of a walk when the tree is truncated.  Where the steps of a rule fade, that is, where
some of them are missing or hand out something else, but nothing new is found, the walk over the
truncated tree hands out the same exactly when every place that it comes to does.
-/

namespace SourceIndex

namespace Step

variable {τ α : Type}

/-- The same step in the truncated tree. -/
def truncate (levels : Nat) : Step τ α → Step τ α
  | emit item => emit item
  | visit task place => visit task (place.truncate levels)

/-- What a step hands out itself. -/
def item? : Step τ α → Option α
  | emit item => some item
  | visit _ _ => none

/-- Where a step goes on to. -/
def target? : Step τ α → Option (τ × Place)
  | emit _ => none
  | visit task place => some (task, place)

variable {task task' : τ} {p q : Place}

theorem visit_notMem_emitAll (items : List α) : visit task q ∉ (emitAll items : List (Step τ α)) := by
  intro h
  obtain ⟨item, _, heq⟩ := List.mem_map.1 h
  cases heq

theorem visit_notMem_emit? (item : Option α) : visit task q ∉ (emit? item : List (Step τ α)) :=
  visit_notMem_emitAll item.toList

theorem mem_visit? {place : Option Place} :
    visit task' q ∈ (visit? task place : List (Step τ α)) ↔ task' = task ∧ place = some q := by
  constructor
  · intro h
    obtain ⟨c, hc, heq⟩ := List.mem_map.1 h
    cases heq
    exact ⟨rfl, Option.mem_toList.1 hc⟩
  · rintro ⟨rfl, rfl⟩
    exact List.mem_singleton.2 rfl

/-- A step to what fills a field goes down one level. -/
theorem below_of_mem_visit? {field : String}
    (h : visit task' q ∈ (visit? task (p.field? field) : List (Step τ α))) :
    p.Below 1 q ∧ task' = task := by
  obtain ⟨rfl, hq⟩ := mem_visit?.1 h
  exact ⟨Place.below_of_field? hq, rfl⟩

theorem emitAll_flatMap {β : Type} (f : β → List α) (xs : List β) :
    (emitAll (xs.flatMap f) : List (Step τ α)) = xs.flatMap fun x => emitAll (f x) :=
  List.map_flatMap

theorem emitAll_filterMap {β : Type} (f : β → Option α) (xs : List β) :
    (emitAll (xs.filterMap f) : List (Step τ α)) = xs.flatMap fun x => emit? (f x) := by
  rw [List.filterMap_eq_flatMap_toList, emitAll_flatMap]
  rfl

theorem map_truncate_emitAll (levels : Nat) (items : List α) :
    (emitAll items : List (Step τ α)).map (truncate levels) = emitAll items := by
  rw [emitAll, List.map_map]
  rfl

theorem map_truncate_emit? (levels : Nat) (item : Option α) :
    (emit? item : List (Step τ α)).map (truncate levels) = emit? item :=
  map_truncate_emitAll levels item.toList

theorem map_truncate_visitAll (levels : Nat) (task : τ) (places : List Place) :
    (visitAll task places : List (Step τ α)).map (truncate levels) =
      visitAll task (places.map (Place.truncate levels)) := by
  rw [visitAll, visitAll, List.map_map, List.map_map]
  rfl

theorem map_truncate_visit? (levels : Nat) (task : τ) (place : Option Place) :
    (visit? task place : List (Step τ α)).map (truncate levels) =
      visit? task (place.map (Place.truncate levels)) := by
  cases place <;> rfl

end Step

namespace Rule

variable {τ α : Type} {rule : Rule τ α} {levels : Nat}

/-- What a rule hands out at a place itself. -/
def handsOut (rule : Rule τ α) (task : τ) (p : Place) : List α :=
  (rule task p).filterMap Step.item?

/-- Where a rule goes on to from a place. -/
def goesTo (rule : Rule τ α) (task : τ) (p : Place) : List (τ × Place) :=
  (rule task p).filterMap Step.target?

/-- The places to which a walk of at most so many levels comes, with what it looks for there. -/
def visitsFrom (rule : Rule τ α) : Nat → τ → Place → List (τ × Place)
  | 0, _, _ => []
  | levels + 1, task, p =>
      (task, p) :: (rule.goesTo task p).flatMap fun (task', q) => rule.visitsFrom levels task' q

/-- The places to which a walk comes, with what it looks for there. -/
def visits (rule : Rule τ α) (task : τ) (p : Place) : List (τ × Place) :=
  rule.visitsFrom (p.node.height + 1) task p

theorem walk_eq_nil {task : τ} {p : Place} (h : rule task p = []) : rule.walk task p = [] := by
  rw [walk, run_succ, h, List.flatMap_nil]

/-- Steps that are only moved to the truncated tree hand out the same. -/
theorem handsOut_truncate {task : τ} {p : Place}
    (h : rule task (p.truncate levels) = (rule task p).map (Step.truncate levels)) :
    rule.handsOut task (p.truncate levels) = rule.handsOut task p := by
  rw [handsOut, h, List.filterMap_map, handsOut]
  refine List.filterMap_congr fun step _ => ?_
  cases step <;> rfl

theorem mem_goesTo {task : τ} {p : Place} {v : τ × Place} :
    v ∈ rule.goesTo task p ↔ Step.visit v.1 v.2 ∈ rule task p := by
  rw [goesTo, List.mem_filterMap]
  constructor
  · rintro ⟨step, hstep, hv⟩
    cases step with
    | emit item => cases hv
    | visit task' q =>
        cases hv
        exact hstep
  · exact fun h => ⟨_, h, rfl⟩

theorem visitsFrom_eq (h : rule.Descends) {m n : Nat} {task : τ} {p : Place}
    (hm : p.node.height < m) (hn : p.node.height < n) :
    rule.visitsFrom m task p = rule.visitsFrom n task p := by
  induction m generalizing n task p with
  | zero => omega
  | succ m ih =>
      obtain ⟨n, rfl⟩ : ∃ k, n = k + 1 := ⟨n - 1, by omega⟩
      rw [visitsFrom, visitsFrom]
      refine congrArg ((task, p) :: ·) (List.flatMap_congr fun v hv => ?_)
      have hlt := h (mem_goesTo.1 hv)
      exact ih (by omega) (by omega)

/-- A walk comes to its place, and from there to those that the rule goes on to. -/
theorem visits_eq (h : rule.Descends) (task : τ) (p : Place) :
    rule.visits task p =
      (task, p) :: (rule.goesTo task p).flatMap fun v => rule.visits v.1 v.2 := by
  rw [visits, visitsFrom]
  refine congrArg ((task, p) :: ·) (List.flatMap_congr fun v hv => ?_)
  exact visitsFrom_eq h (h (mem_goesTo.1 hv)) (Nat.lt_succ_self _)

/-- What goes over from places to those that the rule goes on to holds wherever the walk comes. -/
theorem forall_mem_visits (h : rule.Descends) {P : τ → Place → Prop}
    (hstep : ∀ {task task' p q}, P task p → Step.visit task' q ∈ rule task p → P task' q)
    {task : τ} {p : Place} (hp : P task p) : ∀ v ∈ rule.visits task p, P v.1 v.2 := by
  induction hheight : p.node.height using Nat.strong_induction_on generalizing task p with
  | _ height ih =>
      intro v hv
      rw [visits_eq h] at hv
      rcases List.mem_cons.1 hv with rfl | hv
      · exact hp
      · obtain ⟨w, hw, hv⟩ := List.mem_flatMap.1 hv
        have hvisit := mem_goesTo.1 hw
        exact ih _ (hheight ▸ h hvisit) (hstep hp hvisit) rfl v hv

/-- How the steps of a rule in a truncated tree come from those in the whole tree.  Items may change
or be lost, a lost one with steps that follow it, and a changed one may change the task for a place
that follows it.  A place may be lost where nothing is found in the truncated tree, and come anew
where nothing is found at all. -/
inductive Fades (rule : Rule τ α) (levels : Nat) :
    List (Step τ α) → List (Step τ α) → Prop where
  | nil : Fades rule levels [] []
  | emit (item' item : α) {steps' steps : List (Step τ α)} (rest : Fades rule levels steps' steps) :
      Fades rule levels (.emit item' :: steps') (.emit item :: steps)
  | lost (item : α) {steps' steps : List (Step τ α)} (rest : Fades rule levels steps' steps) :
      Fades rule levels steps' (.emit item :: steps)
  | cut (item : α) (more : List (Step τ α)) {steps' steps : List (Step τ α)}
      (rest : Fades rule levels steps' steps) :
      Fades rule levels steps' (.emit item :: (more ++ steps))
  | visit (task : τ) (p : Place) {steps' steps : List (Step τ α)}
      (rest : Fades rule levels steps' steps) :
      Fades rule levels (.visit task (p.truncate levels) :: steps') (.visit task p :: steps)
  | renamed {item' item : α} (hitem : item' ≠ item) {task' task : τ} {p : Place}
      (hlength : (rule.walk task' (p.truncate levels)).length =
        (rule.walk task (p.truncate levels)).length)
      {steps' steps : List (Step τ α)} (rest : Fades rule levels steps' steps) :
      Fades rule levels (.emit item' :: .visit task' (p.truncate levels) :: steps')
        (.emit item :: .visit task p :: steps)
  | gone (task : τ) (p : Place) {steps' steps : List (Step τ α)}
      (h : rule.walk task (p.truncate levels) = []) (rest : Fades rule levels steps' steps) :
      Fades rule levels steps' (.visit task p :: steps)
  | vain (task : τ) (p : Place) {steps' steps : List (Step τ α)} (h : rule.walk task p = [])
      (rest : Fades rule levels steps' steps) : Fades rule levels (.visit task p :: steps') steps

namespace Fades

/-- Steps that are only moved to the truncated tree fade. -/
theorem truncate (steps : List (Step τ α)) :
    Fades rule levels (steps.map (Step.truncate levels)) steps := by
  induction steps with
  | nil => exact .nil
  | cons step steps ih =>
      cases step with
      | emit item => exact .emit item item ih
      | visit task p => exact .visit task p ih

theorem append {first' first second' second : List (Step τ α)}
    (h : Fades rule levels first' first) (h' : Fades rule levels second' second) :
    Fades rule levels (first' ++ second') (first ++ second) := by
  induction h with
  | nil => exact h'
  | emit item' item _ ih => exact .emit item' item ih
  | lost item _ ih => exact .lost item ih
  | cut item more _ ih =>
      rw [List.cons_append, List.append_assoc]
      exact .cut item more ih
  | visit task p _ ih => exact .visit task p ih
  | renamed hitem hlength _ ih => exact .renamed hitem hlength ih
  | gone task p hnone _ ih => exact .gone task p hnone ih
  | vain task p hnone _ ih => exact .vain task p hnone ih

theorem flatMap {β : Type} {f' f : β → List (Step τ α)} {xs : List β}
    (h : ∀ x ∈ xs, Fades rule levels (f' x) (f x)) :
    Fades rule levels (xs.flatMap f') (xs.flatMap f) := by
  induction xs with
  | nil => exact .nil
  | cons x xs ih =>
      rw [List.flatMap_cons, List.flatMap_cons]
      exact (h x List.mem_cons_self).append (ih fun y hy => h y (List.mem_cons_of_mem _ hy))

/-- Items fade if there are not more of them. -/
theorem emitAll {items' items : List α} (h : items'.length ≤ items.length) :
    Fades rule levels (Step.emitAll items') (Step.emitAll items) := by
  induction items generalizing items' with
  | nil =>
      rw [List.length_eq_zero_iff.1 (Nat.le_zero.1 h)]
      exact .nil
  | cons item items ih =>
      cases items' with
      | nil => exact .lost item (ih (Nat.zero_le _))
      | cons item' items' => exact .emit item' item (ih (Nat.le_of_succ_le_succ h))

/-- All steps fade away if there is nothing at their places in the truncated tree. -/
theorem of_nil {steps : List (Step τ α)}
    (h : ∀ task p, Step.visit task p ∈ steps → rule.walk task (p.truncate levels) = []) :
    Fades rule levels [] steps := by
  induction steps with
  | nil => exact .nil
  | cons step steps ih =>
      have hrest := ih fun task p hp => h task p (List.mem_cons_of_mem _ hp)
      cases step with
      | emit item => exact .lost item hrest
      | visit task p => exact .gone task p (h task p List.mem_cons_self) hrest

/-- An item fades if it is there in the truncated tree only where it is there at all. -/
theorem emit?_of_isSome {item' item : Option α} (h : item'.isSome → item.isSome) :
    Fades rule levels (Step.emit? item') (Step.emit? item) := by
  refine emitAll ?_
  cases item' <;> cases item <;> simp_all

theorem emit?_of_or {item' item : Option α} (h : item' = none ∨ item' = item) :
    Fades rule levels (Step.emit? item') (Step.emit? item) := by
  refine emit?_of_isSome fun hsome => ?_
  rcases h with rfl | rfl
  · cases hsome
  · exact hsome

theorem nil_emitAll (items : List α) : Fades rule levels [] (Step.emitAll items) :=
  of_nil fun _ _ h => absurd h (Step.visit_notMem_emitAll items)

/-- What a place declares fades if it does so above the last level, and a place without children
declares nothing. -/
theorem emitAll_of_children {f : Place → List α} (hempty : ∀ p : Place, p.children = [] → f p = [])
    {p : Place}
    (h : p.level < levels →
      Fades rule levels (Step.emitAll (f (p.truncate levels))) (Step.emitAll (f p))) :
    Fades rule levels (Step.emitAll (f (p.truncate levels))) (Step.emitAll (f p)) := by
  by_cases hp : p.level < levels
  · exact h hp
  · rw [hempty _ (Place.children_truncate_of_le (Nat.le_of_not_lt hp))]
    exact nil_emitAll _

/-- What children declare fades if what each of them declares does. -/
theorem emitAll_children {f : Place → List α}
    (h : ∀ c, Fades rule levels (Step.emitAll (f (c.truncate levels))) (Step.emitAll (f c)))
    (p : Place) :
    Fades rule levels (Step.emitAll ((p.truncate levels).children.flatMap f))
      (Step.emitAll (p.children.flatMap f)) := by
  by_cases hp : p.level < levels
  · rw [Place.children_truncate hp, List.flatMap_map, Step.emitAll_flatMap, Step.emitAll_flatMap]
    exact .flatMap fun c _ => h c
  · rw [Place.children_truncate_of_le (Nat.le_of_not_lt hp)]
    exact nil_emitAll _

/-- Each child declares the same in the truncated tree, or nothing. -/
theorem emitAll_filterMap_children {f : Place → Option α}
    (h : ∀ c, f (c.truncate levels) = none ∨ f (c.truncate levels) = f c) (p : Place) :
    Fades rule levels (Step.emitAll ((p.truncate levels).children.filterMap f))
      (Step.emitAll (p.children.filterMap f)) := by
  rw [List.filterMap_eq_flatMap_toList, List.filterMap_eq_flatMap_toList]
  exact emitAll_children (fun c => emit?_of_or (h c)) p

/-- Steps at which nothing is found may come anew. -/
theorem of_vain {steps' steps : List (Step τ α)}
    (h : ∀ step ∈ steps', ∃ task p, step = .visit task p ∧ rule.walk task p = [])
    (hsteps : Fades rule levels [] steps) : Fades rule levels steps' steps := by
  induction steps' with
  | nil => exact hsteps
  | cons step steps' ih =>
      obtain ⟨task, p, rfl, hnone⟩ := h step List.mem_cons_self
      exact .vain task p hnone (ih fun step hstep => h step (List.mem_cons_of_mem _ hstep))

/-- At a place without children in the truncated tree nothing is found, and so all steps fade away.
-/
theorem of_children_eq_nil (hempty : ∀ (task : τ) {p : Place}, p.children = [] → rule task p = [])
    {task : τ} {p : Place} (hp : levels ≤ p.level)
    (hdown : ∀ task' q, Step.visit task' q ∈ rule task p → levels ≤ q.level) :
    Fades rule levels (rule task (p.truncate levels)) (rule task p) := by
  rw [hempty task (Place.children_truncate_of_le hp)]
  exact of_nil fun task' q hq =>
    walk_eq_nil (hempty task' (Place.children_truncate_of_le (hdown task' q hq)))

variable {steps' steps : List (Step τ α)}

theorem length_items_le (h : Fades rule levels steps' steps)
    (hwalk : ∀ task p, Step.visit task p ∈ steps →
      (rule.walk task (p.truncate levels)).length ≤ (rule.walk task p).length) :
    (steps'.flatMap (Step.items rule.walk)).length ≤
      (steps.flatMap (Step.items rule.walk)).length := by
  induction h with
  | nil => exact Nat.le_refl _
  | emit item' item _ ih =>
      have hrest := ih fun task p hp => hwalk task p (List.mem_cons_of_mem _ hp)
      simp only [List.flatMap_cons, Step.items, List.length_append, List.length_singleton]
      omega
  | lost item _ ih =>
      have hrest := ih fun task p hp => hwalk task p (List.mem_cons_of_mem _ hp)
      simp only [List.flatMap_cons, Step.items, List.length_append, List.length_singleton]
      omega
  | cut item more _ ih =>
      have hrest := ih fun task p hp =>
        hwalk task p (List.mem_cons_of_mem _ (List.mem_append_right _ hp))
      simp only [List.flatMap_cons, List.flatMap_append, List.length_append]
      omega
  | visit task p _ ih =>
      have hrest := ih fun task p hp => hwalk task p (List.mem_cons_of_mem _ hp)
      have hhere := hwalk task p List.mem_cons_self
      simp only [List.flatMap_cons, Step.items, List.length_append]
      omega
  | @renamed item' item _ task' task p hlength steps' steps _ ih =>
      have hrest := ih fun task p hp =>
        hwalk task p (List.mem_cons_of_mem _ (List.mem_cons_of_mem _ hp))
      have hhere := hwalk task p (List.mem_cons_of_mem _ List.mem_cons_self)
      simp only [List.flatMap_cons, Step.items, List.length_append, List.length_singleton]
      omega
  | gone task p _ _ ih =>
      have hrest := ih fun task p hp => hwalk task p (List.mem_cons_of_mem _ hp)
      simp only [List.flatMap_cons, Step.items, List.length_append]
      omega
  | vain task p hnone _ ih =>
      have hrest := ih hwalk
      rw [List.flatMap_cons, Step.items, hnone]
      exact hrest

theorem length_item?_le (h : Fades rule levels steps' steps) :
    (steps'.filterMap Step.item?).length ≤ (steps.filterMap Step.item?).length := by
  induction h with
  | nil => exact Nat.le_refl _
  | emit item' item _ ih => exact Nat.succ_le_succ ih
  | lost item _ ih => exact Nat.le_succ_of_le ih
  | cut item more _ ih =>
      simp only [List.filterMap_cons, Step.item?, List.filterMap_append, List.length_cons,
        List.length_append]
      omega
  | visit task p _ ih => exact ih
  | renamed _ _ _ ih => exact Nat.succ_le_succ ih
  | gone task p _ _ ih => exact ih
  | vain task p _ _ ih => exact ih

/-- Steps that fade hand out the same only if they do so themselves and at every place to which they
go on, because nothing can make up for a loss. -/
theorem items_eq_iff (h : Fades rule levels steps' steps)
    (hwalk : ∀ task p, Step.visit task p ∈ steps →
      (rule.walk task (p.truncate levels)).length ≤ (rule.walk task p).length) :
    steps'.flatMap (Step.items rule.walk) = steps.flatMap (Step.items rule.walk) ↔
      steps'.filterMap Step.item? = steps.filterMap Step.item? ∧
        ∀ v ∈ steps.filterMap Step.target?,
          rule.walk v.1 (v.2.truncate levels) = rule.walk v.1 v.2 := by
  induction h with
  | nil => exact ⟨fun _ => ⟨rfl, fun _ hv => absurd hv List.not_mem_nil⟩, fun _ => rfl⟩
  | emit item' item _ ih =>
      have hrest := ih fun task p hp => hwalk task p (List.mem_cons_of_mem _ hp)
      simp only [List.flatMap_cons, Step.items, List.singleton_append, List.cons.injEq,
        List.filterMap_cons, Step.item?, Step.target?, hrest, and_assoc]
  | @lost item steps' steps rest ih =>
      -- Both sides fail: with the item, an item too many stands on the right of either equation.
      have hwalkRest := fun task p (hp : Step.visit task p ∈ steps) =>
        hwalk task p (List.mem_cons_of_mem _ hp)
      have hlength := rest.length_items_le hwalkRest
      have hlength' := rest.length_item?_le
      refine iff_of_false (fun heq => ?_) (fun hand => ?_)
      · have hcontra := congrArg List.length heq
        rw [List.flatMap_cons, Step.items, List.length_append, List.length_singleton] at hcontra
        omega
      · have hcontra := congrArg List.length hand.1
        rw [List.filterMap_cons, Step.item?, List.length_cons] at hcontra
        omega
  | @cut item more steps' steps rest ih =>
      -- As with a lost item, what is missing is missing on the right of either equation.
      have hlength := rest.length_items_le fun task p hp =>
        hwalk task p (List.mem_cons_of_mem _ (List.mem_append_right _ hp))
      have hlength' := rest.length_item?_le
      refine iff_of_false (fun heq => ?_) (fun hand => ?_)
      · have hcontra := congrArg List.length heq
        rw [List.flatMap_cons, Step.items, List.flatMap_append, List.length_append,
          List.length_append, List.length_singleton] at hcontra
        omega
      · have hcontra := congrArg List.length hand.1
        rw [List.filterMap_cons, Step.item?, List.filterMap_append, List.length_cons,
          List.length_append] at hcontra
        omega
  | renamed hitem _ _ _ =>
      refine iff_of_false (fun heq => hitem ?_) (fun hand => hitem ?_)
      · simp only [List.flatMap_cons, Step.items, List.singleton_append, List.cons.injEq] at heq
        exact heq.1
      · simp only [List.filterMap_cons, Step.item?, List.cons.injEq] at hand
        exact hand.1.1
  | @visit task p steps' steps rest ih =>
      have hwalkRest := fun task p (hp : Step.visit task p ∈ steps) =>
        hwalk task p (List.mem_cons_of_mem _ hp)
      have hrest := ih hwalkRest
      have hhere := hwalk task p List.mem_cons_self
      have hlength := rest.length_items_le hwalkRest
      simp only [List.flatMap_cons, Step.items, List.filterMap_cons, Step.item?, Step.target?,
        List.forall_mem_cons]
      rw [and_left_comm, ← hrest]
      constructor
      · -- Neither part is longer in the truncated tree, so the parts of an equal whole are equal.
        intro heq
        have hsum := congrArg List.length heq
        rw [List.length_append, List.length_append] at hsum
        exact List.append_inj heq (by omega)
      · rintro ⟨hfirst, hsecond⟩
        rw [hfirst, hsecond]
  | @gone task p steps' steps hnone rest ih =>
      have hwalkRest := fun task p (hp : Step.visit task p ∈ steps) =>
        hwalk task p (List.mem_cons_of_mem _ hp)
      have hrest := ih hwalkRest
      have hlength := rest.length_items_le hwalkRest
      simp only [List.flatMap_cons, Step.items, List.filterMap_cons, Step.item?, Step.target?,
        List.forall_mem_cons]
      rw [and_left_comm, ← hrest, hnone]
      constructor
      · -- What is gone was nothing, or else the rest could not make up for it.
        intro heq
        have hsum := congrArg List.length heq
        rw [List.length_append] at hsum
        have hnil : rule.walk task p = [] := List.length_eq_zero_iff.1 (by omega)
        rw [hnil, List.nil_append] at heq
        exact ⟨hnil.symm, heq⟩
      · rintro ⟨hfirst, hsecond⟩
        rw [← hfirst, hsecond, List.nil_append]
  | vain task p hnone _ ih =>
      simp only [List.flatMap_cons, Step.items, hnone, List.nil_append, List.filterMap_cons,
        Step.item?]
      exact ih hwalk

end Fades

/-- A rule whose steps fade wherever `P` holds, which goes over to the places that it goes on to. -/
structure FadesOn (rule : Rule τ α) (levels : Nat) (P : τ → Place → Prop) : Prop where
  descends : rule.Descends
  step : ∀ {task task' : τ} {p q : Place}, P task p → Step.visit task' q ∈ rule task p → P task' q
  fades : ∀ {task : τ} {p : Place}, P task p →
    Fades rule levels (rule task (p.truncate levels)) (rule task p)

/-- A rule fades on the levels that its tasks reach, if a task that goes further down reaches as
much further. -/
theorem FadesOn.of_reach (reach : τ → Nat) (k : Nat)
    (hvisit : ∀ {task task' : τ} {p q : Place}, Step.visit task' q ∈ rule task p →
      p.Below k q ∧ reach task + k ≤ reach task')
    (hfades : ∀ {task : τ} {p : Place}, p.level ≤ reach task →
      Fades rule levels (rule task (p.truncate levels)) (rule task p)) :
    FadesOn rule levels fun task p => p.level ≤ reach task := by
  refine ⟨fun h => (hvisit h).1.height, fun hp h => ?_, hfades⟩
  obtain ⟨hbelow, hreach⟩ := hvisit h
  have hlevel := hbelow.level_le
  omega

variable {P : τ → Place → Prop}

theorem FadesOn.length_le (h : FadesOn rule levels P) {task : τ} {p : Place} (hp : P task p) :
    (rule.walk task (p.truncate levels)).length ≤ (rule.walk task p).length := by
  induction hheight : p.node.height using Nat.strong_induction_on generalizing task p with
  | _ height ih =>
      rw [walk_eq h.descends, walk_eq h.descends]
      refine (h.fades hp).length_items_le fun task' q hq => ?_
      exact ih _ (hheight ▸ h.descends hq) (h.step hp hq) rfl

/-- The walk over the truncated tree hands out the same exactly when every place that the walk comes
to does. -/
theorem FadesOn.walk_eq_iff (h : FadesOn rule levels P) {task : τ} {p : Place} (hp : P task p) :
    rule.walk task (p.truncate levels) = rule.walk task p ↔
      ∀ v ∈ rule.visits task p,
        rule.handsOut v.1 (v.2.truncate levels) = rule.handsOut v.1 v.2 := by
  -- By induction on the height: a walk only goes down, and what it meets there fades again.
  induction hheight : p.node.height using Nat.strong_induction_on generalizing task p with
  | _ height ih =>
      rw [walk_eq h.descends, walk_eq h.descends,
        (h.fades hp).items_eq_iff fun task' q hq => h.length_le (h.step hp hq), visits_eq h.descends,
        List.forall_mem_cons]
      refine and_congr Iff.rfl ?_
      constructor
      · intro hall v hv
        obtain ⟨w, hw, hv⟩ := List.mem_flatMap.1 hv
        have hvisit := mem_goesTo.1 hw
        exact (ih _ (hheight ▸ h.descends hvisit) (h.step hp hvisit) rfl).1 (hall w hw) v hv
      · intro hall w hw
        have hvisit := mem_goesTo.1 hw
        refine (ih _ (hheight ▸ h.descends hvisit) (h.step hp hvisit) rfl).2 fun v hv => ?_
        exact hall v (List.mem_flatMap.2 ⟨w, hw, hv⟩)

/-- It is enough to look at the places where something may be lost at all. -/
theorem FadesOn.walk_eq_iff_of_exposed (h : FadesOn rule levels P) (exposed : τ × Place → Bool)
    (hsame : ∀ {task : τ} {p : Place}, P task p → exposed (task, p) = false →
      rule.handsOut task (p.truncate levels) = rule.handsOut task p)
    {task : τ} {p : Place} (hp : P task p) :
    rule.walk task (p.truncate levels) = rule.walk task p ↔
      ∀ v ∈ rule.visits task p, exposed v = true →
        rule.handsOut v.1 (v.2.truncate levels) = rule.handsOut v.1 v.2 := by
  rw [h.walk_eq_iff hp]
  have hvisits := forall_mem_visits h.descends h.step hp
  refine forall_congr' fun v => forall_congr' fun hv => ?_
  refine ⟨fun heq _ => heq, fun himp => ?_⟩
  cases hexposed : exposed v with
  | false => exact hsame (hvisits v hv) hexposed
  | true => exact himp hexposed

/-- If all steps are only moved to the truncated tree, the walk hands out the same. -/
theorem walk_truncate (hdown : rule.Descends)
    (hstep : ∀ {task task' : τ} {p q : Place}, P task p → Step.visit task' q ∈ rule task p → P task' q)
    (hmoved : ∀ {task : τ} {p : Place}, P task p →
      rule task (p.truncate levels) = (rule task p).map (Step.truncate levels))
    {task : τ} {p : Place} (hp : P task p) :
    rule.walk task (p.truncate levels) = rule.walk task p := by
  induction hheight : p.node.height using Nat.strong_induction_on generalizing task p with
  | _ height ih =>
      rw [walk_eq hdown, walk_eq hdown, hmoved hp, List.flatMap_map]
      refine List.flatMap_congr fun step hmem => ?_
      cases step with
      | emit item => rfl
      | visit task' q => exact ih _ (hheight ▸ hdown hmem) (hstep hp hmem) rfl

end Rule

end SourceIndex
