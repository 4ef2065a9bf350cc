import SourceIndex.Document
import SourceIndex.Proofs.Tree.Sight
import SourceIndex.Tree.Walk

/-!
# Accounting for what a walk reports

The steps that a rule takes at a place hand out uses and go on to other places.  They account for
what is in sight at the place if the uses, with what is in sight at the places where they go on to,
are just this.  Where the steps at every place that a walk comes to do so, the walk reports what is
in sight at the place that it starts from.
-/

namespace SourceIndex

namespace Sight

variable {α : Type} (v : Sight α) {p c : Place}

/-- Is a place one whose children a walk looks at one by one, in a scope that is not deeper than the
place? -/
structure IsOpen (tree : Node) (s : Scope) (p : Place) : Prop where
  ofTree : p ∈ (Place.root tree).subtree
  depth : s.depth ≤ p.level
  children : ∀ c ∈ p.children, v.look c = .whole

/-- Is a place one at which a walk looks as a whole, in a scope that is less deep than the place? -/
structure IsMet (tree : Node) (s : Scope) (p : Place) : Prop where
  ofTree : p ∈ (Place.root tree).subtree
  depth : s.depth < p.level
  look : v.look p = .whole

section

variable {v} {tree : Node} {s s' : Scope}

theorem isOpen_root : v.IsOpen tree {} (.root tree) where
  ofTree := Place.self_mem_subtree _
  depth := Nat.le_refl _
  children := fun _ hc => look_of_inside hc rfl

theorem IsOpen.isMet (hp : v.IsOpen tree s p) (hc : c ∈ p.children) : v.IsMet tree s c where
  ofTree := Place.mem_subtree_of_mem_children hp.ofTree hc
  depth := by
    have hdepth := hp.depth
    rw [Place.level_of_mem_children hc]
    omega
  look := hp.children c hc

theorem IsMet.depth_child (hp : v.IsMet tree s p) (hc : c ∈ p.children) :
    s.depth + 1 < c.level := by
  rw [Place.level_of_mem_children hc]
  exact Nat.succ_lt_succ hp.depth

/-- A walk goes on to look at the children of a place at which it looks as a whole. -/
theorem IsMet.isOpen (hp : v.IsMet tree s p) (hdepth : s'.depth = s.depth + 1)
    (hchildren : ∀ c ∈ p.children, v.whole p c = .whole) : v.IsOpen tree s' p where
  ofTree := hp.ofTree
  depth := hdepth ▸ hp.depth
  children := fun c hc => (look_of_whole hc hp.look).trans (hchildren c hc)

/-- A walk goes on to look at the children of a child. -/
theorem IsMet.isOpen_child (hp : v.IsMet tree s p) (hc : c ∈ p.children)
    (hdepth : s'.depth ≤ s.depth + 1) (hlook : v.look c = .inside) : v.IsOpen tree s' c where
  ofTree := Place.mem_subtree_of_mem_children hp.ofTree hc
  depth := Nat.le_of_lt (Nat.lt_of_le_of_lt hdepth (hp.depth_child hc))
  children := fun _ hb => look_of_inside hb hlook

end

end Sight

/-! ## Steps that account for what is in sight -/

/-- How a walk is accounted for: what an item counts for, what is due at a place where the walk goes
on to with a task, and which places it goes on to. -/
structure Ledger (τ β α : Type) where
  entry : β → List α
  due : τ → Place → List α
  isOpen : τ → Place → Prop

namespace Ledger

variable {τ β α γ : Type} (L : Ledger τ β α)

/-- What a step counts for, with what is due where it goes on to. -/
def worth : Step τ β → List α
  | .emit item => L.entry item
  | .visit task p => L.due task p

/-- Do steps account for some items, and go on to open places only? -/
structure Balances (steps : List (Step τ β)) (items : List α) : Prop where
  perm : (steps.flatMap L.worth).Perm items
  goOn : Step.GoOn L.isOpen steps

section

variable {L} {steps more : List (Step τ β)} {items others : List α} {task : τ}

theorem balances_nil : L.Balances [] [] :=
  ⟨List.Perm.refl _, Step.goOn_nil⟩

theorem Balances.emit (h : L.Balances steps items) (item : β) :
    L.Balances (.emit item :: steps) (L.entry item ++ items) :=
  ⟨h.perm.append_left _, Step.goOn_emit_cons.2 h.goOn⟩

theorem Balances.visit {p : Place} (h : L.Balances steps items) (hp : L.isOpen task p) :
    L.Balances (.visit task p :: steps) (L.due task p ++ items) :=
  ⟨h.perm.append_left _, Step.goOn_visit_cons.2 ⟨hp, h.goOn⟩⟩

theorem Balances.append (h : L.Balances steps items) (h' : L.Balances more others) :
    L.Balances (steps ++ more) (items ++ others) := by
  refine ⟨?_, Step.goOn_append.2 ⟨h.goOn, h'.goOn⟩⟩
  rw [List.flatMap_append]
  exact h.perm.append h'.perm

/-- Steps that account for nothing may come first. -/
theorem Balances.prepend (h : L.Balances steps items) (hmore : L.Balances more []) :
    L.Balances (more ++ steps) items :=
  hmore.append h

theorem Balances.trans (h : L.Balances steps items) (hperm : items.Perm others) :
    L.Balances steps others :=
  ⟨h.perm.trans hperm, h.goOn⟩

theorem balances_emit (item : β) : L.Balances [.emit item] (L.entry item) :=
  (balances_nil.emit item).trans (List.append_nil _ ▸ List.Perm.refl _)

theorem balances_visit {p : Place} (hp : L.isOpen task p) :
    L.Balances [.visit task p] (L.due task p) :=
  (balances_nil.visit hp).trans (List.append_nil _ ▸ List.Perm.refl _)

theorem balances_flatMap {bs : List γ} {f : γ → List (Step τ β)} {g : γ → List α}
    (h : ∀ b ∈ bs, L.Balances (f b) (g b)) : L.Balances (bs.flatMap f) (bs.flatMap g) := by
  refine ⟨?_, Step.goOn_flatMap.2 fun b hb => (h b hb).goOn⟩
  rw [List.flatMap_assoc]
  exact List.Perm.flatMap_left _ fun b hb => (h b hb).perm

theorem balances_emitAll (given : List β) :
    L.Balances (Step.emitAll given) (given.flatMap L.entry) := by
  refine ⟨?_, Step.goOn_emitAll⟩
  rw [Step.emitAll, List.flatMap_map]
  exact List.Perm.refl _

theorem balances_visitAll {places : List Place} (h : ∀ p ∈ places, L.isOpen task p) :
    L.Balances (Step.visitAll task places) (places.flatMap (L.due task)) := by
  refine ⟨?_, Step.goOn_visitAll.2 h⟩
  rw [Step.visitAll, List.flatMap_map]
  exact List.Perm.refl _

/-- Where the steps at every open place account for what is due there, a walk hands out what is due
at the place that it starts from. -/
theorem perm_walk {rule : Rule τ β} (h : rule.Descends)
    (hrule : ∀ task p, L.isOpen task p → L.Balances (rule task p) (L.due task p)) {p : Place}
    (hp : L.isOpen task p) : ((rule.walk task p).flatMap L.entry).Perm (L.due task p) := by
  induction hheight : p.node.height using Nat.strong_induction_on generalizing task p with
  | _ height ih =>
      have hsteps := hrule task p hp
      rw [Rule.walk_eq h, List.flatMap_assoc]
      refine (List.Perm.flatMap_left _ fun step hstep => ?_).trans hsteps.perm
      cases step with
      | emit item => exact (List.flatMap_singleton L.entry item) ▸ List.Perm.refl _
      | visit task' q => exact ih _ (hheight ▸ h hstep) (hsteps.goOn task' q hstep) rfl

end

end Ledger

/-! ## Uses without their scopes -/

namespace Reference

variable {kinds : List ReferenceKind} {uses : List Reference}

/-- A use without the scope that it stands in. -/
def unscoped (r : Reference) : Reference :=
  { r with sourceName := none }

@[simp] theorem unscoped_reference (d : Document) (kind : ReferenceKind) (target : String)
    (p : Place) (scope : Option String) :
    (d.reference kind target p scope).unscoped = d.reference kind target p none :=
  rfl

@[simp] theorem unscoped_from (r : Reference) (path : String) :
    (r.from path).unscoped = r.unscoped.from path :=
  rfl

/-- The uses of some kinds, each without the scope that it stands in. -/
def ofKinds (kinds : List ReferenceKind) (uses : List Reference) : List Reference :=
  (uses.filter fun r => kinds.contains r.kind).map unscoped

theorem ofKinds_append (kinds : List ReferenceKind) (uses more : List Reference) :
    ofKinds kinds (uses ++ more) = ofKinds kinds uses ++ ofKinds kinds more := by
  simp only [ofKinds, List.filter_append, List.map_append]

theorem ofKinds_eq_flatMap (kinds : List ReferenceKind) (uses : List Reference) :
    ofKinds kinds uses = uses.flatMap fun r => ofKinds kinds [r] := by
  induction uses with
  | nil => rfl
  | cons r uses ih => rw [List.flatMap_cons, ← ih, ← ofKinds_append, List.singleton_append]

theorem ofKinds_flatMap {β : Type} (kinds : List ReferenceKind) (bs : List β)
    (f : β → List Reference) :
    ofKinds kinds (bs.flatMap f) = bs.flatMap fun b => ofKinds kinds (f b) := by
  rw [ofKinds_eq_flatMap, List.flatMap_assoc]
  exact List.flatMap_congr fun b _ => (ofKinds_eq_flatMap kinds (f b)).symm

theorem ofKinds_singleton {r : Reference} (h : kinds.contains r.kind = true) :
    ofKinds kinds [r] = [r.unscoped] := by
  rw [ofKinds, List.filter_singleton, h, cond_true, List.map_singleton]

theorem ofKinds_map {β : Type} {use : Option β} {f : β → Reference}
    (h : ∀ b, kinds.contains (f b).kind = true) :
    ofKinds kinds (use.map f).toList = (use.map fun b => (f b).unscoped).toList := by
  cases use with
  | none => rfl
  | some b => exact ofKinds_singleton (h b)

theorem ofKinds_eq_map (h : ∀ r ∈ uses, kinds.contains r.kind = true) :
    ofKinds kinds uses = uses.map unscoped := by
  rw [ofKinds, List.filter_eq_self.2 h]

theorem ofKinds_eq_nil (h : ∀ r ∈ uses, kinds.contains r.kind = false) :
    ofKinds kinds uses = [] := by
  rw [ofKinds, List.filter_eq_nil_iff.2, List.map_nil]
  intro r hr
  rw [h r hr]
  exact Bool.false_ne_true

end Reference

/-! ## Walks for uses -/

/-- The use that a call is that goes by the text of what it calls, without the scope that it stands
in. -/
def Document.callReference (d : Document) (p : Place) : Option Reference :=
  (p.field? "function").map fun f => d.reference .call (d.text f) f none

theorem Document.tooDeep_eq_false {d : Document} {tree : Node} {s : Scope} {p : Place}
    (hheight : tree.height ≤ d.limits.walkDepth.toNat) (hp : p ∈ (Place.root tree).subtree)
    (hdepth : s.depth ≤ p.level) : d.tooDeep s.depth = false := by
  have hlevel := Place.level_add_height_le p hp
  change p.level + p.node.height ≤ 0 + tree.height at hlevel
  exact decide_eq_false (by omega)

/-- What a task is after at a place. -/
inductive Aim where
  /-- The uses in the children. -/
  | children (scope : Scope)
  /-- The uses in the place itself, which is of a kind. -/
  | whole (scope : Scope) (kind : String)
  /-- None of the uses that count. -/
  | other

namespace Sight

variable {τ : Type} (v : Sight Reference) (kinds : List ReferenceKind) (tree : Node)
  (aim : τ → Aim)

/-- How a walk for uses of some kinds is accounted for: where it goes on to, what is in sight there
is due. -/
def ledger : Ledger τ Reference Reference where
  entry r := Reference.ofKinds kinds [r]
  due task p :=
    match aim task with
    | .children _ => p.children.flatMap v.reports
    | .whole _ _ => v.reports p
    | .other => []
  isOpen task p :=
    match aim task with
    | .children s => v.IsOpen tree s p
    | .whole s kind => v.IsMet tree s p ∧ p.kind = kind
    | .other => True

section

variable {v kinds tree aim} {task : τ} {s s' : Scope} {p : Place}

theorem balances_uses (uses : List Reference) :
    (v.ledger kinds tree aim).Balances (Step.emitAll uses) (Reference.ofKinds kinds uses) := by
  rw [Reference.ofKinds_eq_flatMap]
  exact Ledger.balances_emitAll uses

theorem balances_use? (use : Option Reference) :
    (v.ledger kinds tree aim).Balances (Step.emit? use)
      (Reference.ofKinds kinds use.toList) :=
  balances_uses use.toList

/-- Uses of other kinds count for nothing. -/
theorem balances_others {uses : List Reference} (h : ∀ r ∈ uses, kinds.contains r.kind = false) :
    (v.ledger kinds tree aim).Balances (Step.emitAll uses) [] := by
  rw [← Reference.ofKinds_eq_nil h]
  exact balances_uses uses

/-- What is handed out accounts for a place of which the walk passes over all children. -/
theorem balances_closed {uses : List Reference} (hp : v.IsMet tree s p)
    (hnever : ∀ c, v.whole p c = .never) (hreport : v.report p = Reference.ofKinds kinds uses) :
    (v.ledger kinds tree aim).Balances (Step.emitAll uses) (v.reports p) := by
  rw [reports_of_closed hp.look fun c _ => hnever c, hreport]
  exact balances_uses uses

theorem balances_children (haim : aim task = .children s) (hp : v.IsOpen tree s p) :
    (v.ledger kinds tree aim).Balances [.visit task p] (p.children.flatMap v.reports) := by
  have hdue : (v.ledger kinds tree aim).due task p = p.children.flatMap v.reports := by
    simp only [ledger, haim]
  rw [← hdue]
  refine Ledger.balances_visit ?_
  simp only [ledger, haim]
  exact hp

theorem balances_whole {kind : String} (haim : aim task = .whole s kind) (hp : v.IsMet tree s p)
    (hkind : p.kind = kind) :
    (v.ledger kinds tree aim).Balances [.visit task p] (v.reports p) := by
  have hdue : (v.ledger kinds tree aim).due task p = v.reports p := by
    simp only [ledger, haim]
  rw [← hdue]
  refine Ledger.balances_visit ?_
  simp only [ledger, haim]
  exact ⟨hp, hkind⟩

/-- Going on with a task that is after none of the uses that count. -/
theorem balances_aside (haim : aim task = .other) (places : List Place) :
    (v.ledger kinds tree aim).Balances (Step.visitAll task places) [] := by
  have hdue : places.flatMap ((v.ledger kinds tree aim).due task) = [] := by
    refine List.flatMap_eq_nil_iff.2 fun p _ => ?_
    simp only [ledger, haim]
  rw [← hdue]
  refine Ledger.balances_visitAll fun p _ => ?_
  simp only [ledger, haim]

/-- A place of which only the inside is looked at accounts for what is in sight there. -/
theorem balances_inside (haim : aim task = .children s) (hp : p ∈ (Place.root tree).subtree)
    (hdepth : s.depth ≤ p.level) (hlook : v.look p = .inside) :
    (v.ledger kinds tree aim).Balances [.visit task p] (v.reports p) := by
  rw [reports_of_inside hlook]
  exact balances_children haim ⟨hp, hdepth, fun _ hc => look_of_inside hc hlook⟩

/-- A receiver that is looked at as a whole if it is of a kind, and otherwise inside, accounts for
what is in sight there. -/
theorem balances_receiver {kind : String} {task' : τ} (haim : aim task = .whole s kind)
    (haim' : aim task' = .children s) (hp : p ∈ (Place.root tree).subtree)
    (hdepth : s.depth < p.level) (hlook : v.look p = if p.kind == kind then .whole else .inside) :
    (v.ledger kinds tree aim).Balances
      (if p.kind == kind then [.visit task p] else [.visit task' p]) (v.reports p) := by
  by_cases hkind : p.kind = kind
  · simp only [hkind, beq_self_eq_true, if_true] at hlook ⊢
    exact balances_whole haim ⟨hp, hdepth, hlook⟩ hkind
  · simp only [beq_iff_eq, hkind, if_false] at hlook ⊢
    exact balances_inside haim' hp (Nat.le_of_lt hdepth) hlook

/-- A place of which the walk looks at the receiver in a field only accounts for what is in sight
there. -/
theorem balances_operand {kind field : String} {task' : τ} (hp : p ∈ (Place.root tree).subtree)
    (hdepth : s.depth ≤ p.level) (hlook : v.look p = .operand)
    (hoperand : ∀ c, v.operand p c =
      if p.isField field c then if c.kind == kind then .whole else .inside else .never)
    (haim : aim task = .whole s kind) (haim' : aim task' = .children s) :
    (v.ledger kinds tree aim).Balances
      (match p.field? field with
        | some o => if o.kind == kind then [.visit task o] else [.visit task' o]
        | none => [])
      (v.reports p) := by
  have hperm : (v.reports p).Perm ((p.field? field).toList.flatMap v.reports) := by
    refine perm_reports_of_operand hlook (fun _ => Place.mem_children_of_field?) fun c hc => ?_
    rw [hoperand, Place.isField, hc, if_neg Bool.false_ne_true]
  refine Ledger.Balances.trans ?_ hperm.symm
  cases ho : p.field? field with
  | none => exact Ledger.balances_nil
  | some o =>
      have hchild := Place.mem_children_of_field? ho
      have hbelow : s.depth < o.level := by
        rw [Place.level_of_mem_children hchild]
        exact Nat.lt_succ_of_le hdepth
      have hreceiver : v.look o = if o.kind == kind then .whole else .inside := by
        rw [look_of_operand hchild hlook, hoperand, if_pos (Place.isField_of_field? ho)]
      rw [Option.toList_some, List.flatMap_singleton]
      exact balances_receiver haim haim' (Place.mem_subtree_of_field? hp ho) hbelow hreceiver

/-- A part of a place of which only the inside is looked at accounts for what is in sight there. -/
theorem balances_part {part : Option Place} (hp : v.IsMet tree s p)
    (hchild : ∀ a ∈ part, a ∈ p.children) (hlook : ∀ a ∈ part, v.whole p a = .inside)
    (haim : aim task = .children s') (hdepth : s'.depth = s.depth + 1) :
    (v.ledger kinds tree aim).Balances (Step.visit? task part) (part.toList.flatMap v.reports) := by
  cases part with
  | none => exact Ledger.balances_nil
  | some a =>
      have hinside : v.look a = .inside :=
        (look_of_whole (hchild a rfl) hp.look).trans (hlook a rfl)
      rw [Option.toList_some, List.flatMap_singleton, reports_of_inside hinside]
      exact balances_children haim (hp.isOpen_child (hchild a rfl) (Nat.le_of_eq hdepth) hinside)

/-- Uses, and then what one field leads to, account for a place of which the walk looks at the
inside of what fills this field only. -/
theorem balances_field {field : String} {uses : List Reference} (hp : v.IsMet tree s p)
    (hlook : ∀ c, v.whole p c = if p.isField field c then .inside else .never)
    (hreport : v.report p = Reference.ofKinds kinds uses)
    (haim : aim task = .children s') (hdepth : s'.depth = s.depth + 1) :
    (v.ledger kinds tree aim).Balances (Step.emitAll uses ++ Step.visit? task (p.field? field))
      (v.reports p) := by
  have hinside : ∀ a ∈ p.field? field, v.whole p a = .inside := by
    intro a ha
    rw [hlook, if_pos (Place.isField_of_field? ha)]
  have hperm := perm_reports_of_one hp.look (fun _ => Place.mem_children_of_field?) fun c hc => by
    rw [hlook, Place.isField, hc, if_neg Bool.false_ne_true]
  rw [hreport] at hperm
  refine Ledger.Balances.trans (Ledger.Balances.append (balances_uses uses) ?_) hperm.symm
  exact balances_part hp (fun _ => Place.mem_children_of_field?) hinside haim hdepth

/-- A call that goes by the text of what it calls, and then what its arguments lead to, account for
a call of which the walk looks at the arguments only. -/
theorem balances_textCall {d : Document} {scope : Option String} (hp : v.IsMet tree s p)
    (hkinds : kinds.contains .call = true)
    (hlook : ∀ c, v.whole p c = if (p.field? "function").isNone then .never
      else if p.isField "arguments" c then .inside else .never)
    (hreport : v.report p = (d.callReference p).toList)
    (haim : aim task = .children s') (hdepth : s'.depth = s.depth + 1) :
    (v.ledger kinds tree aim).Balances
      (match p.field? "function" with
        | none => []
        | some f => .emit (d.reference .call (d.text f) f scope) ::
            Step.visit? task (p.field? "arguments"))
      (v.reports p) := by
  cases hf : p.field? "function" with
  | none =>
      simp only [hf, Option.isNone_none, if_true] at hlook
      rw [reports_of_closed hp.look fun c _ => hlook c, hreport, Document.callReference, hf]
      exact Ledger.balances_nil
  | some f =>
      simp only [hf, Option.isNone_some, Bool.false_eq_true, if_false] at hlook
      have hentry : v.report p =
          Reference.ofKinds kinds [d.reference .call (d.text f) f scope] := by
        rw [Reference.ofKinds_singleton hkinds, Reference.unscoped_reference, hreport,
          Document.callReference, hf, Option.map_some, Option.toList_some]
      exact balances_field hp hlook hentry haim hdepth

/-- A use, and then what two fields lead to, account for a place of which the walk looks at these
fields only. -/
theorem LooksAtFields.balances {field other : String} {lookAt : Place → Look}
    {steps : List (Step τ Reference)} {r : Reference}
    (h : v.LooksAtFields p field other lookAt) (hp : v.IsMet tree s p)
    (hreport : v.report p = Reference.ofKinds kinds [r])
    (hsteps : (v.ledger kinds tree aim).Balances steps
      ((p.field? field).toList.flatMap v.reports))
    (haim : aim task = .children s') (hdepth : s'.depth = s.depth + 1) :
    (v.ledger kinds tree aim).Balances
      (.emit r :: (steps ++ Step.visit? task (p.field? other))) (v.reports p) := by
  have hother : (v.ledger kinds tree aim).Balances (Step.visit? task (p.field? other))
      ((p.field? other).toList.flatMap v.reports) :=
    balances_part hp (fun _ => Place.mem_children_of_field?) (fun _ => h.whole_other) haim hdepth
  have hperm := h.perm_reports hp.look
  rw [hreport] at hperm
  exact Ledger.Balances.trans (Ledger.Balances.emit (hsteps.append hother) r) hperm.symm

/-- Uses, and then what stands in a place, account for a place of which the walk looks at all
children as a whole. -/
theorem balances_open {uses : List Reference} (hp : v.IsMet tree s p)
    (hreport : v.report p = Reference.ofKinds kinds uses)
    (hwhole : ∀ c ∈ p.children, v.whole p c = .whole) (haim : aim task = .children s')
    (hdepth : s'.depth = s.depth + 1) :
    (v.ledger kinds tree aim).Balances (Step.emitAll uses ++ [.visit task p]) (v.reports p) := by
  rw [reports_of_whole hp.look, hreport]
  exact (balances_uses uses).append (balances_children haim (hp.isOpen hdepth hwhole))

/-- A place of which nothing is reported but what stands in it. -/
theorem balances_through (hp : v.IsMet tree s p) (hreport : v.report p = [])
    (hwhole : ∀ c ∈ p.children, v.whole p c = .whole) (haim : aim task = .children s')
    (hdepth : s'.depth = s.depth + 1) :
    (v.ledger kinds tree aim).Balances [.visit task p] (v.reports p) := by
  show (v.ledger kinds tree aim).Balances (Step.emitAll [] ++ [.visit task p]) (v.reports p)
  exact balances_open hp hreport hwhole haim hdepth

/-- The steps for the children account for what is in sight in them, where the steps for each child
do. -/
theorem balances_steps {d : Document} (hheight : tree.height ≤ d.limits.walkDepth.toNat)
    {steps : Place → List (Step τ Reference)} (hp : v.IsOpen tree s p)
    (h : ∀ c, v.IsMet tree s c →
      (v.ledger kinds tree aim).Balances (steps c) (v.reports c)) :
    (v.ledger kinds tree aim).Balances (if d.tooDeep s.depth then [] else p.children.flatMap steps)
      (p.children.flatMap v.reports) := by
  rw [Document.tooDeep_eq_false hheight hp.ofTree hp.depth, if_neg Bool.false_ne_true]
  exact Ledger.balances_flatMap fun c hc => h c (hp.isMet hc)

/-- A walk from the root reports what is in sight. -/
theorem perm_walk {rule : Rule τ Reference} (h : rule.Descends) (haim : aim task = .children {})
    (hrule : ∀ task p, (v.ledger kinds tree aim).isOpen task p →
      (v.ledger kinds tree aim).Balances (rule task p) ((v.ledger kinds tree aim).due task p)) :
    (Reference.ofKinds kinds (rule.walk task (.root tree))).Perm (v.reports (.root tree)) := by
  have hopen : (v.ledger kinds tree aim).isOpen task (.root tree) := by
    simp only [ledger, haim]
    exact isOpen_root
  have hdue : (v.ledger kinds tree aim).due task (.root tree) = v.reports (.root tree) := by
    simp only [ledger, haim]
    exact (reports_of_inside rfl).symm
  have hwalk := Ledger.perm_walk h hrule hopen
  rw [hdue] at hwalk
  rw [Reference.ofKinds_eq_flatMap]
  exact hwalk

end

end Sight

end SourceIndex
