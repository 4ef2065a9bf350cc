import SourceIndex.Proofs.Tree.TruncatedWalk

/-!
# What walks come to and hand out

What a walk hands out comes from the places that it comes to.  A property of either is a property of
the steps of the rule, and is taken apart along them.
-/

namespace SourceIndex

/-! ## Where a walk comes to

What a walk hands out comes from the places that it comes to.  It comes to the place that it starts
from, and from there to whatever its rule goes on to. -/

section

namespace Node

/-- A mark or keyword. -/
def token (text : String) (start stop : Nat) : Node :=
  .mk text false [] start stop []

/-- A named node without children, which may fill a field. -/
def leaf (kind : String) (fields : List String) (start stop : Nat) : Node :=
  .mk kind true fields start stop []

end Node

namespace Step

variable {τ α : Type} {item : α}

@[simp] theorem emit_mem_emitAll {items : List α} :
    emit item ∈ (emitAll items : List (Step τ α)) ↔ item ∈ items := by
  simp [emitAll]

@[simp] theorem emit_mem_emit? {o : Option α} :
    emit item ∈ (emit? o : List (Step τ α)) ↔ o = some item := by
  simp [emit?]

@[simp] theorem emit_notMem_visitAll (task : τ) (places : List Place) :
    emit item ∉ (visitAll task places : List (Step τ α)) := by
  simp [visitAll]

@[simp] theorem emit_notMem_visit? (task : τ) (place : Option Place) :
    emit item ∉ (visit? task place : List (Step τ α)) := by
  simp [visit?]

end Step

namespace Rule

variable {τ α : Type} {rule : Rule τ α}

/-- What a rule hands out everywhere, a walk hands out. -/
theorem forall_mem_walk {P : α → Prop}
    (h : ∀ task p item, Step.emit item ∈ rule task p → P item) (task : τ) (p : Place) :
    ∀ item ∈ rule.walk task p, P item := by
  have hrun : ∀ levels task p, ∀ item ∈ rule.run levels task p, P item := by
    intro levels
    induction levels with
    | zero => exact fun _ _ _ hitem => absurd hitem List.not_mem_nil
    | succ levels ih =>
        intro task p item hitem
        rw [run_succ] at hitem
        obtain ⟨step, hstep, hitem⟩ := List.mem_flatMap.1 hitem
        cases step with
        | emit item' =>
            obtain rfl := List.mem_singleton.1 hitem
            exact h task p item hstep
        | visit task' q => exact ih task' q item hitem
  exact hrun _ task p

theorem self_mem_visits (h : rule.Descends) (task : τ) (p : Place) :
    (task, p) ∈ rule.visits task p := by
  rw [visits_eq h]
  exact List.mem_cons_self

/-- A walk comes to what its rule goes on to from a place that it comes to. -/
theorem mem_visits_of_visit (h : rule.Descends) {task : τ} {p : Place} {v : τ × Place}
    (hv : v ∈ rule.visits task p) {task' : τ} {q : Place}
    (hstep : Step.visit task' q ∈ rule v.1 v.2) : (task', q) ∈ rule.visits task p := by
  induction hheight : p.node.height using Nat.strong_induction_on generalizing task p with
  | _ height ih =>
      rw [visits_eq h] at hv ⊢
      refine List.mem_cons_of_mem _ (List.mem_flatMap.2 ?_)
      rcases List.mem_cons.1 hv with rfl | hv
      · exact ⟨(task', q), mem_goesTo.2 hstep, self_mem_visits h task' q⟩
      · obtain ⟨w, hw, hv⟩ := List.mem_flatMap.1 hv
        have hlt := h (mem_goesTo.1 hw)
        exact ⟨w, hw, ih _ (hheight ▸ hlt) hv rfl⟩

/-- A walk comes to a place other than the first one from a place that it comes to. -/
theorem eq_or_exists_visit (h : rule.Descends) {task : τ} {p : Place} {v : τ × Place}
    (hv : v ∈ rule.visits task p) :
    v = (task, p) ∨ ∃ w ∈ rule.visits task p, Step.visit v.1 v.2 ∈ rule w.1 w.2 := by
  refine (forall_mem_visits h (P := fun task' q => (task', q) ∈ rule.visits task p ∧
    ((task', q) = (task, p) ∨ ∃ w ∈ rule.visits task p, Step.visit task' q ∈ rule w.1 w.2))
    (fun hq hstep => ?_) ?_ v hv).2
  · exact ⟨mem_visits_of_visit h hq.1 hstep, Or.inr ⟨_, hq.1, hstep⟩⟩
  · exact ⟨self_mem_visits h task p, Or.inl rfl⟩

/-- A walk does not come back to the place that it starts from. -/
theorem eq_of_mem_visits_self (h : rule.Descends) {task task' : τ} {p : Place}
    (hv : (task', p) ∈ rule.visits task p) : task' = task := by
  have hlower := forall_mem_visits h
    (P := fun t q => (t, q) = (task, p) ∨ q.node.height < p.node.height)
    (fun hq hstep => ?_) (Or.inl rfl) _ hv
  · rcases hlower with heq | hlt
    · exact congrArg Prod.fst heq
    · exact absurd hlt (Nat.lt_irrefl _)
  · have hlt := h hstep
    rcases hq with heq | hq
    · cases heq
      exact Or.inr hlt
    · exact Or.inr (Nat.lt_trans hlt hq)

/-- A walk hands out what its rule hands out at the places that the walk comes to. -/
theorem mem_walk_iff (h : rule.Descends) {task : τ} {p : Place} {item : α} :
    item ∈ rule.walk task p ↔
      ∃ v ∈ rule.visits task p, Step.emit item ∈ rule v.1 v.2 := by
  induction hheight : p.node.height using Nat.strong_induction_on generalizing task p with
  | _ height ih =>
      rw [walk_eq h, visits_eq h, List.mem_flatMap]
      constructor
      · rintro ⟨step, hstep, hitem⟩
        cases step with
        | emit item' =>
            obtain rfl := List.mem_singleton.1 hitem
            exact ⟨(task, p), List.mem_cons_self, hstep⟩
        | visit task' q =>
            obtain ⟨v, hv, hemit⟩ := (ih _ (hheight ▸ h hstep) rfl).1 hitem
            have hgoes : (task', q) ∈ rule.goesTo task p := mem_goesTo.2 hstep
            exact ⟨v, List.mem_cons_of_mem _ (List.mem_flatMap.2 ⟨_, hgoes, hv⟩), hemit⟩
      · rintro ⟨v, hv, hemit⟩
        rcases List.mem_cons.1 hv with rfl | hv
        · exact ⟨.emit item, hemit, List.mem_singleton.2 rfl⟩
        · obtain ⟨w, hw, hv⟩ := List.mem_flatMap.1 hv
          have hvisit := mem_goesTo.1 hw
          exact ⟨_, hvisit, (ih _ (hheight ▸ h hvisit) rfl).2 ⟨v, hv, hemit⟩⟩

end Rule

namespace Place

/-- Are all places on the way from the root down to a place of these kinds, the root aside? -/
def isAlong (kinds : List String) : Place → Bool
  | root _ => true
  | child q _ n => isAlong kinds q && kinds.contains n.kind

theorem isAlong_of_mem_children {kinds : List String} {p c : Place} (hc : c ∈ p.children) :
    c.isAlong kinds = (p.isAlong kinds && kinds.contains c.kind) := by
  obtain ⟨ns, n, rfl⟩ := exists_of_mem_children hc
  rfl

theorem isAlong_mono {kinds more : List String} (h : kinds ⊆ more) {p : Place}
    (hp : p.isAlong kinds = true) : p.isAlong more = true := by
  induction p with
  | root n => rfl
  | child q ns n ih =>
      rw [isAlong, Bool.and_eq_true, List.contains_iff_mem] at hp ⊢
      exact ⟨ih hp.1, h hp.2⟩

/-- The kind of a place on such a way is one of the kinds, if the place is no root. -/
theorem mem_of_isAlong {kinds : List String} {p c : Place} (hc : c ∈ p.children)
    (h : c.isAlong kinds = true) : p.isAlong kinds = true ∧ c.kind ∈ kinds := by
  rw [isAlong_of_mem_children hc, Bool.and_eq_true, List.contains_iff_mem] at h
  exact h

end Place

end

/-! ## What steps hand out

A property of everything that a walk hands out is a property of what the rule hands out at each
place.  The lemmas below take such a property apart along the steps of a rule. -/

section

variable {τ α β : Type} {P : α → Prop}

/-- What comes from something that may be missing. -/
theorem forall_mem_getD_map {o : Option β} {f : β → List α} (h : ∀ b, ∀ a ∈ f b, P a) :
    ∀ a ∈ (o.map f).getD [], P a := by
  cases o with
  | none => nofun
  | some b => exact h b

theorem forall_mem_none : ∀ a ∈ (none : Option α), P a :=
  nofun

theorem forall_mem_toList {o : Option α} (h : ∀ a ∈ o, P a) : ∀ a ∈ o.toList, P a :=
  fun a ha => h a (Option.mem_toList.1 ha)

theorem forall_mem_or {o o' : Option α} (h : ∀ a ∈ o, P a) (h' : ∀ a ∈ o', P a) :
    ∀ a ∈ o.or o', P a := by
  intro a ha
  rcases Option.or_eq_some_iff.1 ha with ha | ⟨-, ha⟩
  · exact h a ha
  · exact h' a ha

theorem forall_mem_map {o : Option β} {f : β → α} (h : ∀ b, P (f b)) : ∀ a ∈ o.map f, P a := by
  intro a ha
  obtain ⟨b, -, rfl⟩ := Option.map_eq_some_iff.1 ha
  exact h b

theorem forall_mem_filterMap {items : List β} {f : β → Option α} (h : ∀ b, ∀ a ∈ f b, P a) :
    ∀ a ∈ items.filterMap f, P a := by
  intro a ha
  obtain ⟨b, -, hb⟩ := List.mem_filterMap.1 ha
  exact h b a hb

/-- What is made of something that may be missing. -/
theorem forall_mem_bind_some {o : Option β} {f : β → α} (h : ∀ b, P (f b)) :
    ∀ a ∈ o.bind fun b => some (f b), P a := by
  intro a ha
  obtain ⟨b, -, hb⟩ := Option.bind_eq_some_iff.1 ha
  exact Option.some.inj hb ▸ h b

namespace Step

/-- Has all that the steps hand out a property? -/
def Emits (P : α → Prop) (steps : List (Step τ α)) : Prop :=
  ∀ item, emit item ∈ steps → P item

@[simp] theorem emits_nil : Emits P ([] : List (Step τ α)) :=
  nofun

@[simp] theorem emits_emit_cons {item : α} {steps : List (Step τ α)} :
    Emits P (emit item :: steps) ↔ P item ∧ Emits P steps := by
  simp [Emits]

@[simp] theorem emits_visit_cons {task : τ} {place : Place} {steps : List (Step τ α)} :
    Emits P (visit task place :: steps) ↔ Emits P steps := by
  simp [Emits]

@[simp] theorem emits_append {steps more : List (Step τ α)} :
    Emits P (steps ++ more) ↔ Emits P steps ∧ Emits P more := by
  simp [Emits, or_imp, forall_and]

@[simp] theorem emits_flatMap {items : List β} {f : β → List (Step τ α)} :
    Emits P (items.flatMap f) ↔ ∀ b ∈ items, Emits P (f b) := by
  simp only [Emits, List.mem_flatMap, forall_exists_index, and_imp]
  exact ⟨fun h b hb item => h item b hb, fun h item b hb => h b hb item⟩

@[simp] theorem emits_emitAll {items : List α} :
    Emits P (emitAll items : List (Step τ α)) ↔ ∀ item ∈ items, P item := by
  simp [Emits]

@[simp] theorem emits_emit? {item : Option α} :
    Emits P (emit? item : List (Step τ α)) ↔ ∀ a ∈ item, P a := by
  simp [Emits]

@[simp] theorem emits_visitAll (task : τ) (places : List Place) :
    Emits P (visitAll task places : List (Step τ α)) := by
  simp [Emits]

@[simp] theorem emits_visit? (task : τ) (place : Option Place) :
    Emits P (visit? task place : List (Step τ α)) := by
  simp [Emits]

/-- Steps that are cut off in one case hand out what they do in the other. -/
@[simp] theorem emits_ite_nil {c : Prop} [Decidable c] {steps : List (Step τ α)} :
    Emits P (if c then [] else steps) ↔ (¬ c → Emits P steps) := by
  split <;> simp_all

/-- Steps that may be missing hand out what the others do. -/
@[simp] theorem emits_getD {steps : Option (List (Step τ α))} {otherwise : List (Step τ α)} :
    Emits P (steps.getD otherwise) ↔
      (∀ s ∈ steps, Emits P s) ∧ (steps = none → Emits P otherwise) := by
  cases steps <;> simp

end Step

namespace Rule

variable {rule : Rule τ α}

/-- What a rule hands out at every place has a property, and so has what its walks hand out. -/
theorem forall_mem_walk_of_emits (h : ∀ task p, Step.Emits P (rule task p)) (task : τ) (p : Place) :
    ∀ item ∈ rule.walk task p, P item :=
  forall_mem_walk (fun task p item hitem => h task p item hitem) task p

end Rule

/-! ## What steps keep -/

namespace Step

variable {E : α → Prop} {Q : τ → Place → Prop} {steps more : List (Step τ α)}

/-- Has what a step hands out the one property, or the place it goes on to the other? -/
def Holds (P : α → Prop) (Q : τ → Place → Prop) : Step τ α → Prop
  | emit item => P item
  | visit task place => Q task place

/-- Given what is known of all that steps hand out, have they the one property, and the places that
they go on to the other?  What one step hands out may answer for the places that others go on to. -/
def Keeps (E P : α → Prop) (Q : τ → Place → Prop) (steps : List (Step τ α)) : Prop :=
  Emits E steps → ∀ step ∈ steps, step.Holds P Q

theorem keeps_nil : Keeps E P Q ([] : List (Step τ α)) :=
  fun _ => nofun

theorem keeps_emit_cons {item : α} (h : E item → P item ∧ Keeps E P Q steps) :
    Keeps E P Q (emit item :: steps) := by
  intro hemits
  obtain ⟨hitem, hsteps⟩ := emits_emit_cons.1 hemits
  obtain ⟨hhead, htail⟩ := h hitem
  exact List.forall_mem_cons.2 ⟨hhead, htail hsteps⟩

theorem keeps_visit_cons {task : τ} {place : Place} (h : Q task place)
    (hsteps : Keeps E P Q steps) :
    Keeps E P Q (visit task place :: steps) :=
  fun hemits => List.forall_mem_cons.2 ⟨h, hsteps (emits_visit_cons.1 hemits)⟩

theorem keeps_append (hsteps : Keeps E P Q steps) (hmore : Keeps E P Q more) :
    Keeps E P Q (steps ++ more) := by
  intro hemits
  obtain ⟨hfirst, hsecond⟩ := emits_append.1 hemits
  exact List.forall_mem_append.2 ⟨hsteps hfirst, hmore hsecond⟩

theorem keeps_flatMap {items : List β} {f : β → List (Step τ α)}
    (h : ∀ b ∈ items, Keeps E P Q (f b)) : Keeps E P Q (items.flatMap f) := by
  intro hemits
  exact List.forall_mem_flatMap.2 fun b hb => h b hb (emits_flatMap.1 hemits b hb)

theorem keeps_emitAll {items : List α} (h : (∀ a ∈ items, E a) → ∀ a ∈ items, P a) :
    Keeps E P Q (emitAll items : List (Step τ α)) :=
  fun hemits => List.forall_mem_map.2 (h (emits_emitAll.1 hemits))

theorem keeps_emit? {item : Option α} (h : ∀ a ∈ item, P a) :
    Keeps E P Q (emit? item : List (Step τ α)) :=
  keeps_emitAll fun _ a ha => h a (Option.mem_toList.1 ha)

theorem keeps_visitAll {task : τ} {places : List Place} (h : ∀ q ∈ places, Q task q) :
    Keeps E P Q (visitAll task places : List (Step τ α)) :=
  fun _ => List.forall_mem_map.2 h

theorem keeps_visit? {task : τ} {place : Option Place} (h : ∀ q ∈ place, Q task q) :
    Keeps E P Q (visit? task place : List (Step τ α)) :=
  keeps_visitAll fun q hq => h q (Option.mem_toList.1 hq)

theorem keeps_ite_nil {c : Prop} [Decidable c] (h : Keeps E P Q steps) :
    Keeps E P Q (if c then [] else steps) := by
  split
  · exact keeps_nil
  · exact h

end Step

namespace Rule

variable {rule : Rule τ α}

/-- What the steps of a rule keep, its walks keep. -/
theorem forall_mem_walk_of_keeps (h : rule.Descends) {E : α → Prop} {Q : τ → Place → Prop}
    {task : τ} {p : Place} (hall : ∀ item ∈ rule.walk task p, E item)
    (hrule : ∀ t q, Q t q → Step.Keeps E P Q (rule t q)) (hp : Q task p) :
    ∀ item ∈ rule.walk task p, P item := by
  have hholds : ∀ v ∈ rule.visits task p, Q v.1 v.2 →
      ∀ step ∈ rule v.1 v.2, step.Holds P Q := by
    intro v hv hq
    exact hrule v.1 v.2 hq fun item hitem => hall item ((mem_walk_iff h).2 ⟨v, hv, hitem⟩)
  have hvisits : ∀ v ∈ rule.visits task p, (v.1, v.2) ∈ rule.visits task p ∧ Q v.1 v.2 := by
    refine forall_mem_visits h (P := fun t q => (t, q) ∈ rule.visits task p ∧ Q t q)
      (fun hq hstep => ?_) ⟨self_mem_visits h task p, hp⟩
    exact ⟨mem_visits_of_visit h hq.1 hstep, hholds _ hq.1 hq.2 _ hstep⟩
  intro item hitem
  obtain ⟨v, hv, hemit⟩ := (mem_walk_iff h).1 hitem
  exact hholds v hv (hvisits v hv).2 _ hemit

end Rule

end

/-! ## Where steps go on to

A property of all places that the steps of a rule go on to, each with the task for it.  The lemmas
below take such a property apart along the steps. -/

namespace Step

variable {τ α β : Type} {Q : τ → Place → Prop}

/-- Have all places that the steps go on to a property, each with the task for it? -/
def GoOn (Q : τ → Place → Prop) (steps : List (Step τ α)) : Prop :=
  ∀ task place, visit task place ∈ steps → Q task place

@[simp] theorem goOn_nil : GoOn Q ([] : List (Step τ α)) :=
  nofun

@[simp] theorem goOn_emit_cons {item : α} {steps : List (Step τ α)} :
    GoOn Q (emit item :: steps) ↔ GoOn Q steps := by
  simp [GoOn]

@[simp] theorem goOn_visit_cons {task : τ} {place : Place} {steps : List (Step τ α)} :
    GoOn Q (visit task place :: steps) ↔ Q task place ∧ GoOn Q steps := by
  constructor
  · intro h
    refine ⟨h task place List.mem_cons_self, fun task' place' hmem => ?_⟩
    exact h task' place' (List.mem_cons_of_mem _ hmem)
  · rintro ⟨hhead, htail⟩ task' place' hmem
    rcases List.mem_cons.1 hmem with heq | hmem
    · cases heq
      exact hhead
    · exact htail task' place' hmem

@[simp] theorem goOn_append {steps more : List (Step τ α)} :
    GoOn Q (steps ++ more) ↔ GoOn Q steps ∧ GoOn Q more := by
  simp only [GoOn, List.mem_append, or_imp, forall_and]

@[simp] theorem goOn_flatMap {items : List β} {f : β → List (Step τ α)} :
    GoOn Q (items.flatMap f) ↔ ∀ b ∈ items, GoOn Q (f b) := by
  simp only [GoOn, List.mem_flatMap, forall_exists_index, and_imp]
  exact ⟨fun h b hb task place => h task place b hb, fun h task place b hb => h b hb task place⟩

@[simp] theorem goOn_emitAll {items : List α} : GoOn Q (emitAll items : List (Step τ α)) :=
  fun _ _ h => absurd h (visit_notMem_emitAll items)

@[simp] theorem goOn_emit? {item : Option α} : GoOn Q (emit? item : List (Step τ α)) :=
  goOn_emitAll

@[simp] theorem goOn_visitAll {task : τ} {places : List Place} :
    GoOn Q (visitAll task places : List (Step τ α)) ↔ ∀ place ∈ places, Q task place := by
  induction places with
  | nil => simp [visitAll]
  | cons place places ih =>
      rw [List.forall_mem_cons, ← ih, visitAll, List.map_cons, goOn_visit_cons, visitAll]

@[simp] theorem goOn_visit? {task : τ} {place : Option Place} :
    GoOn Q (visit? task place : List (Step τ α)) ↔ ∀ q ∈ place, Q task q := by
  cases place <;> simp [visit?]

/-- Steps that are cut off in one case go on to where they do in the other. -/
@[simp] theorem goOn_ite_nil {c : Prop} [Decidable c] {steps : List (Step τ α)} :
    GoOn Q (if c then [] else steps) ↔ (¬ c → GoOn Q steps) := by
  split <;> simp_all

/-- Steps that may be missing go on to where the others do. -/
@[simp] theorem goOn_getD {steps : Option (List (Step τ α))} {otherwise : List (Step τ α)} :
    GoOn Q (steps.getD otherwise) ↔
      (∀ s ∈ steps, GoOn Q s) ∧ (steps = none → GoOn Q otherwise) := by
  cases steps <;> simp

end Step

end SourceIndex
