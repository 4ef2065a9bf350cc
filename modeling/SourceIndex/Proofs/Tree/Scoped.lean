import SourceIndex.Document
import SourceIndex.Proofs.Tree.Emission
import SourceIndex.Tree.Walk

/-!
# Walks that carry a scope

A walk for uses carries the name of what encloses a place into the place.  Where it goes from
children to children one by one, it comes to every place that is not too deep, and the scope that it
carries there is told by the way from the root to the place.

Some scopes hold for the siblings that come after them.  What is carried over to a sibling is told
by the siblings before it.
-/

namespace SourceIndex

namespace Document

variable (d : Document) (p : Place) (name : String) (kind : SymbolKind) (details : Symbol.Details)

@[simp] theorem symbol_kind : (d.symbol p name kind details).kind = kind := rfl

@[simp] theorem symbol_qualifiedName :
    (d.symbol p name kind details).qualifiedName = details.qualifiedName.getD name := rfl

end Document

namespace Place

variable {β : Type} {kinds : List String} {p c q : Place}

/-- Is no place on the way from the root down to a place of these kinds, the root aside? -/
def avoids (kinds : List String) : Place → Bool
  | root _ => true
  | child q _ n => avoids kinds q && !kinds.contains n.kind

theorem avoids_of_mem_children (hc : c ∈ p.children) :
    c.avoids kinds = true ↔ p.avoids kinds = true ∧ c.kind ∉ kinds := by
  obtain ⟨ns, n, rfl⟩ := exists_of_mem_children hc
  simp [avoids, kind, node]

@[simp] theorem avoids_nil (p : Place) : p.avoids [] = true := by
  induction p with
  | root n => rfl
  | child q ns n ih => simp [avoids, ih]

theorem avoids_mono {more : List String} (h : kinds ⊆ more) (hp : p.avoids more = true) :
    p.avoids kinds = true := by
  induction p with
  | root n => rfl
  | child q ns n ih =>
      simp only [avoids, Bool.and_eq_true, Bool.not_eq_true', List.contains_eq_mem,
        decide_eq_false_iff_not] at hp ⊢
      exact ⟨ih hp.1, fun hkind => hp.2 (h hkind)⟩

/-- The way to a place leads on to the places below it. -/
theorem avoids_of_mem_subtree (hq : q ∈ p.subtree) (h : q.avoids kinds = true) :
    p.avoids kinds = true := by
  refine forall_mem_subtree (P := fun q => q.avoids kinds = true → p.avoids kinds = true)
    (fun q c hc ih h => ?_) id q hq h
  exact ih ((avoids_of_mem_children hc).1 h).1

/-- The scope in a place, where `own` tells the scope in a place from that in the place around it.
-/
def scopeBy (own : Option String → Place → Option String) : Place → Option String
  | root _ => none
  | child q ns n => own (scopeBy own q) (child q ns n)

theorem scopeBy_of_mem_children {own : Option String → Place → Option String} (hc : c ∈ p.children) :
    c.scopeBy own = own (p.scopeBy own) c := by
  obtain ⟨ns, n, rfl⟩ := exists_of_mem_children hc
  rfl

/-! ## What siblings carry over -/

/-- Siblings, each with what those before it carry over, where `next` tells what holds after one. -/
def carryOver (next : β → Place → β) (start : β) : List Place → List (β × Place)
  | [] => []
  | c :: rest => (start, c) :: carryOver next (next start c) rest

/-- What the siblings before a place carry over, the nearest of them first. -/
def carriedOver (next : β → Place → β) (start : β) (parent : Place) : List Node → β
  | [] => start
  | n :: ns => next (carriedOver next start parent ns) (child parent ns n)

/-- What the siblings before a place carry over to it. -/
def carriedTo (next : β → Place → β) (start : β) : Place → β
  | root _ => start
  | child q ns _ => carriedOver next start q ns

theorem carryOver_siblingsFrom (next : β → Place → β) (start : β) (before ns : List Node) :
    carryOver next (carriedOver next start p before) (siblingsFrom p before ns) =
      (siblingsFrom p before ns).map fun c => (c.carriedTo next start, c) := by
  induction ns generalizing before with
  | nil => rfl
  | cons n ns ih =>
      exact congrArg ((carriedOver next start p before, child p before n) :: ·) (ih (n :: before))

theorem carryOver_children (next : β → Place → β) (start : β) (p : Place) :
    carryOver next start p.children = p.children.map fun c => (c.carriedTo next start, c) :=
  carryOver_siblingsFrom next start [] p.node.children

theorem siblingsBefore_subset {before ns : List Node} (hc : c ∈ siblingsFrom p before ns) :
    c.siblingsBefore ⊆ siblingsBack p before ++ siblingsFrom p before ns := by
  induction ns generalizing before with
  | nil => cases hc
  | cons n ns ih =>
      rcases List.mem_cons.1 hc with rfl | hc
      · exact List.subset_append_left _ _
      · intro b hb
        rcases List.mem_append.1 (ih hc hb) with hb | hb
        · rcases List.mem_cons.1 hb with rfl | hb
          · exact List.mem_append_right _ List.mem_cons_self
          · exact List.mem_append_left _ hb
        · exact List.mem_append_right _ (List.mem_cons_of_mem _ hb)

/-- What two ways of carrying over have in common at the start, and after a place if before it, they
have in common at every place. -/
theorem carriedTo_rel {γ : Type} {R : β → γ → Prop} {f : β → Place → β} {g : γ → Place → γ} {v : β}
    {w : γ} (hstart : R v w) (hstep : ∀ b ∈ p.children, ∀ v w, R v w → R (f v b) (g w b))
    (hc : c ∈ p.children) : R (c.carriedTo f v) (c.carriedTo g w) := by
  have hbefore : c.siblingsBefore ⊆ p.children := siblingsBefore_subset hc
  obtain ⟨ns, n, rfl⟩ := exists_of_mem_children hc
  clear hc
  induction ns with
  | nil => exact hstart
  | cons m ns ih =>
      obtain ⟨hm, hns⟩ := List.cons_subset.1 hbefore
      exact hstep _ hm _ _ (ih hns)

/-- Where nothing before a place counts, it gets what holds at the start. -/
theorem carriedTo_of_forall {next : β → Place → β} {start : β}
    (h : ∀ b ∈ p.children, ∀ v, next v b = v) (hc : c ∈ p.children) :
    c.carriedTo next start = start :=
  carriedTo_rel (R := fun v _ => v = start) (g := fun (w : Unit) _ => w) (w := ()) rfl
    (fun b hb v _ hv => (h b hb v).trans hv) hc

end Place

namespace Step

variable {τ α : Type}

/-- What some steps hand out first, if they begin with that. -/
def first? : List (Step τ α) → Option α
  | emit item :: _ => some item
  | _ => none

theorem emit_mem_of_first? {steps : List (Step τ α)} {item : α} (h : first? steps = some item) :
    emit item ∈ steps := by
  unfold first? at h
  split at h
  · cases h
    exact List.mem_cons_self
  · cases h

@[simp] theorem first?_emit? (item : Option α) : first? (emit? item : List (Step τ α)) = item := by
  cases item <;> rfl

end Step

namespace Rule

variable {τ α : Type}

/-! ## What a walk hands out first -/

section Heads

variable {σ : Type} {rule : Rule τ α} {entries : τ → Place → List (σ × Place)}
  {steps : σ → Place → List (Step τ α)} {keep : Place → Bool} {task : τ} {root : Place}

/-- The places that a walk takes up and that are to be kept, each with what the walk hands out first
for it.  At a place the walk takes up its `entries`, and for each it takes the `steps`. -/
def heads (rule : Rule τ α) (entries : τ → Place → List (σ × Place))
    (steps : σ → Place → List (Step τ α)) (keep : Place → Bool) (task : τ) (root : Place) :
    List (Place × α) :=
  (rule.visits task root).flatMap fun (task, p) =>
    ((entries task p).filter fun e => keep e.2).filterMap fun (t, c) =>
      (Step.first? (steps t c)).map fun item => (c, item)

theorem mem_heads {f : Place × α} :
    f ∈ rule.heads entries steps keep task root ↔ ∃ v ∈ rule.visits task root, ∃ t,
      (t, f.1) ∈ entries v.1 v.2 ∧ keep f.1 = true ∧ Step.first? (steps t f.1) = some f.2 := by
  obtain ⟨c, item⟩ := f
  simp only [heads, List.mem_flatMap, List.mem_filterMap, List.mem_filter, Option.map_eq_some_iff,
    Prod.mk.injEq]
  constructor
  · rintro ⟨v, hv, ⟨t, c⟩, ⟨he, hkeep⟩, item, hitem, rfl, rfl⟩
    exact ⟨v, hv, t, he, hkeep, hitem⟩
  · rintro ⟨v, hv, t, he, hkeep, hitem⟩
    exact ⟨v, hv, ⟨t, c⟩, ⟨he, hkeep⟩, item, hitem, rfl, rfl⟩

/-- Where the steps for an entry hand out something with a property exactly if they hand it out
first and the entry is to be kept, the walk hands out nothing else with the property. -/
theorem exists_mem_heads_iff (h : rule.Descends) {P : α → Prop} {item : α}
    (hrule : ∀ task p, rule task p = (entries task p).flatMap fun e => steps e.1 e.2)
    (hsteps : ∀ t c, Step.emit item ∈ steps t c ∧ P item ↔
      keep c = true ∧ Step.first? (steps t c) = some item) :
    (∃ c, (c, item) ∈ rule.heads entries steps keep task root) ↔
      item ∈ rule.walk task root ∧ P item := by
  have hemits : ∀ v : τ × Place, Step.emit item ∈ rule v.1 v.2 ↔
      ∃ e ∈ entries v.1 v.2, Step.emit item ∈ steps e.1 e.2 := by
    intro v
    rw [hrule]
    exact List.mem_flatMap
  simp only [mem_heads, mem_walk_iff h, hemits]
  constructor
  · rintro ⟨c, v, hv, t, he, hfirst⟩
    obtain ⟨hemit, hP⟩ := (hsteps t c).2 hfirst
    exact ⟨⟨v, hv, _, he, hemit⟩, hP⟩
  · rintro ⟨⟨v, hv, ⟨t, c⟩, he, hemit⟩, hP⟩
    exact ⟨c, v, hv, t, he, (hsteps t c).1 ⟨hemit, hP⟩⟩

end Heads

section Firsts

variable {rule : Rule τ α} {entries : τ → Place → List (τ × Place)}
  {steps : τ → Place → List (Step τ α)} {kinds : List String} {task : τ} {root : Place}

/-- The places of some kinds that a walk takes up, each with what the walk hands out first for
it.  At a place the walk takes up its `entries`, and for each it takes the `steps`. -/
def firsts (rule : Rule τ α) (entries : τ → Place → List (τ × Place))
    (steps : τ → Place → List (Step τ α)) (kinds : List String) (task : τ) (root : Place) :
    List (Place × α) :=
  (rule.visits task root).flatMap fun (task, p) =>
    ((entries task p).filter fun e => kinds.contains e.2.kind).filterMap fun (t, c) =>
      (Step.first? (steps t c)).map fun item => (c, item)

theorem firsts_eq_heads : rule.firsts entries steps kinds task root =
    rule.heads entries steps (fun c => kinds.contains c.kind) task root :=
  rfl

theorem mem_firsts {f : Place × α} :
    f ∈ rule.firsts entries steps kinds task root ↔ ∃ v ∈ rule.visits task root, ∃ t,
      (t, f.1) ∈ entries v.1 v.2 ∧ f.1.kind ∈ kinds ∧ Step.first? (steps t f.1) = some f.2 := by
  rw [firsts_eq_heads, mem_heads]
  simp only [List.contains_iff_mem]

/-- What a walk hands out first for an entry, it hands out. -/
theorem mem_walk_of_mem_firsts (h : rule.Descends) {f : Place × α}
    (hrule : ∀ task p, rule task p = (entries task p).flatMap fun e => steps e.1 e.2)
    (hf : f ∈ rule.firsts entries steps kinds task root) : f.2 ∈ rule.walk task root := by
  obtain ⟨v, hv, t, he, -, hfirst⟩ := mem_firsts.1 hf
  refine (mem_walk_iff h).2 ⟨v, hv, ?_⟩
  rw [hrule]
  exact List.mem_flatMap.2 ⟨_, he, Step.emit_mem_of_first? hfirst⟩

/-- What a walk hands out, it hands out first for an entry of the kinds, or else the steps for some
entry hand it out in another way. -/
theorem mem_firsts_or (h : rule.Descends) {Q : α → Prop} {item : α}
    (hrule : ∀ task p, rule task p = (entries task p).flatMap fun e => steps e.1 e.2)
    (hsteps : ∀ t c, Step.emit item ∈ steps t c →
      c.kind ∈ kinds ∧ Step.first? (steps t c) = some item ∨ Q item)
    (hitem : item ∈ rule.walk task root) :
    (∃ c, (c, item) ∈ rule.firsts entries steps kinds task root) ∨ Q item := by
  obtain ⟨v, hv, hemit⟩ := (mem_walk_iff h).1 hitem
  rw [hrule] at hemit
  obtain ⟨⟨t, c⟩, he, hemit⟩ := List.mem_flatMap.1 hemit
  exact (hsteps t c hemit).imp_left fun hfirst => ⟨c, mem_firsts.2 ⟨v, hv, t, he, hfirst⟩⟩

/-- Where the steps for an entry hand out something with a property exactly if they hand it out
first and the entry is of the kinds, the walk hands out nothing else with the property. -/
theorem exists_mem_firsts_iff (h : rule.Descends) {P : α → Prop} {item : α}
    (hrule : ∀ task p, rule task p = (entries task p).flatMap fun e => steps e.1 e.2)
    (hsteps : ∀ t c, Step.emit item ∈ steps t c ∧ P item ↔
      c.kind ∈ kinds ∧ Step.first? (steps t c) = some item) :
    (∃ c, (c, item) ∈ rule.firsts entries steps kinds task root) ↔
      item ∈ rule.walk task root ∧ P item := by
  rw [firsts_eq_heads]
  refine exists_mem_heads_iff h hrule fun t c => ?_
  rw [hsteps, List.contains_iff_mem]

end Firsts

/-! ## What a walk carries into a place -/

/-- Does a walk carry a scope into a place?  The tasks for what stands in a place are those that
`inside` makes. -/
def Carries (rule : Rule τ α) (inside : Scope → τ) (root p : Place) (scope : Option String) : Prop :=
  ∃ s : Scope, s.name = scope ∧ (inside s, p) ∈ rule.visits (inside {}) root

/-- A rule that looks at the children of a place one by one with `steps`.  It goes into each child
but those of the `closed` kinds, with the scope that `own` tells. -/
structure IsScoped (rule : Rule τ α) (d : Document) (inside : Scope → τ)
    (steps : Scope → Place → List (Step τ α)) (own : Option String → Place → Option String)
    (closed : List String) : Prop where
  inside_inj : ∀ {s t : Scope}, inside s = inside t → s = t
  rule_inside : ∀ s p,
    rule (inside s) p = if d.tooDeep s.depth then [] else p.children.flatMap (steps s)
  /-- What is not of a closed kind leads into itself, and all else to somewhere inside. -/
  leads : ∀ {s task c q}, Step.visit task q ∈ steps s c →
    q ∈ c.subtree ∧ (c.kind ∉ closed → q = c ∧ task = inside ⟨own s.name c, s.depth + 1⟩)
  enters : ∀ {s c}, c.kind ∉ closed →
    Step.visit (inside ⟨own s.name c, s.depth + 1⟩) c ∈ steps s c
  /-- The other tasks lead downwards as well. -/
  others : ∀ {task task' p q}, Step.visit task' q ∈ rule task p →
    (∃ s, task = inside s) ∨ ∃ c ∈ p.children, q ∈ c.subtree

namespace IsScoped

variable {rule : Rule τ α} {d : Document} {inside : Scope → τ}
  {steps : Scope → Place → List (Step τ α)} {own : Option String → Place → Option String}
  {closed : List String} {s : Scope} {task : τ} {tree : Node} {p q : Place}

/-- A step from a place is one that a child of the place asks for, within the limit. -/
theorem exists_of_visit (h : IsScoped rule d inside steps own closed)
    (hstep : Step.visit task q ∈ rule (inside s) p) :
    s.depth ≤ d.limits.walkDepth.toNat ∧ ∃ c ∈ p.children, Step.visit task q ∈ steps s c := by
  rw [h.rule_inside] at hstep
  split at hstep
  · cases hstep
  · rename_i hdepth
    rw [Document.tooDeep, decide_eq_true_eq] at hdepth
    exact ⟨by omega, List.mem_flatMap.1 hstep⟩

theorem below (h : IsScoped rule d inside steps own closed) {task' : τ}
    (hstep : Step.visit task' q ∈ rule task p) : ∃ c ∈ p.children, q ∈ c.subtree := by
  rcases h.others hstep with ⟨s, rfl⟩ | hbelow
  · obtain ⟨-, c, hc, hstep⟩ := h.exists_of_visit hstep
    exact ⟨c, hc, (h.leads hstep).1⟩
  · exact hbelow

theorem descends (h : IsScoped rule d inside steps own closed) : rule.Descends := by
  intro task task' p q hstep
  obtain ⟨c, hc, hq⟩ := h.below hstep
  exact Nat.lt_of_le_of_lt (Place.height_le_of_mem_subtree hq) (Place.height_lt_of_mem_children hc)

/-- Where the way avoids the closed kinds, the walk comes to every place that is not too deep, and
carries the scope there that the way tells. -/
theorem mem_visits_iff (h : IsScoped rule d inside steps own closed)
    (hp : p ∈ (Place.root tree).subtree) (havoids : p.avoids closed = true) :
    (task, p) ∈ rule.visits (inside {}) (.root tree) ↔
      p.level ≤ d.limits.walkDepth.toNat + 1 ∧ task = inside ⟨p.scopeBy own, p.level⟩ := by
  constructor
  · intro hvisit
    refine forall_mem_visits h.descends (P := fun task p => p.avoids closed = true →
      p.level ≤ d.limits.walkDepth.toNat + 1 ∧ task = inside ⟨p.scopeBy own, p.level⟩) ?_ ?_ _
      hvisit havoids
    · intro task task' p q hP hstep hq
      obtain ⟨c, hc, hqc⟩ := h.below hstep
      have hcAvoids := Place.avoids_of_mem_subtree hqc hq
      -- The place before is on the way as well, so its task is one for what stands inside.
      obtain ⟨hlevel, rfl⟩ := hP ((Place.avoids_of_mem_children hc).1 hcAvoids).1
      obtain ⟨hdepth, c, hc, hstep⟩ := h.exists_of_visit hstep
      obtain ⟨hqc, hentered⟩ := h.leads hstep
      have hcAvoids := Place.avoids_of_mem_subtree hqc hq
      obtain ⟨rfl, rfl⟩ := hentered ((Place.avoids_of_mem_children hc).1 hcAvoids).2
      rw [Place.level_of_mem_children hc, Place.scopeBy_of_mem_children hc]
      exact ⟨Nat.succ_le_succ hdepth, rfl⟩
    · exact fun _ => ⟨Nat.zero_le _, rfl⟩
  · rintro ⟨hlevel, rfl⟩
    refine Place.forall_mem_subtree (P := fun p => p.avoids closed = true →
      p.level ≤ d.limits.walkDepth.toNat + 1 →
      (inside ⟨p.scopeBy own, p.level⟩, p) ∈ rule.visits (inside {}) (.root tree)) ?_ ?_ p hp
      havoids hlevel
    · intro p c hc hP hcAvoids hlevel
      obtain ⟨hpAvoids, hkind⟩ := (Place.avoids_of_mem_children hc).1 hcAvoids
      rw [Place.level_of_mem_children hc] at hlevel ⊢
      rw [Place.scopeBy_of_mem_children hc]
      refine mem_visits_of_visit h.descends (hP hpAvoids (by omega)) ?_
      have hdepth : ¬ d.tooDeep p.level = true := by
        rw [Document.tooDeep, decide_eq_true_eq]
        omega
      rw [h.rule_inside, if_neg hdepth]
      exact List.mem_flatMap.2 ⟨c, hc, h.enters hkind⟩
    · exact fun _ _ => self_mem_visits h.descends _ _

/-- Into such a place the walk carries one scope, if it comes down to it. -/
theorem carries_iff (h : IsScoped rule d inside steps own closed)
    (hp : p ∈ (Place.root tree).subtree) (havoids : p.avoids closed = true)
    {scope : Option String} :
    rule.Carries inside (.root tree) p scope ↔
      p.level ≤ d.limits.walkDepth.toNat + 1 ∧ scope = p.scopeBy own := by
  constructor
  · rintro ⟨s, rfl, hs⟩
    obtain ⟨hlevel, heq⟩ := (h.mem_visits_iff hp havoids).1 hs
    exact ⟨hlevel, congrArg Scope.name (h.inside_inj heq)⟩
  · rintro ⟨hlevel, rfl⟩
    exact ⟨_, rfl, (h.mem_visits_iff hp havoids).2 ⟨hlevel, rfl⟩⟩

end IsScoped

end Rule

end SourceIndex
