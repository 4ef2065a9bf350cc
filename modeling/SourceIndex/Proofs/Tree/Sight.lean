import Mathlib.Data.List.Nodup
import Mathlib.Data.List.Pairwise
import Mathlib.Data.List.Perm.Basic
import SourceIndex.Proofs.Tree.Emission

/-!
# What a walk looks at

A walk for uses does not look at all places of a tree in the same way.  At some it looks as a whole,
of others it looks only at the children or at an operand, and some it passes over.  How it looks at
a place is told by the way from the root.

What a walk reports is what there is to report at the places that are in sight, each thing once.  So
where each place of some kind has one thing to be reported, the walk reports this of all of them
exactly if it looks at each of them as a whole.
-/

namespace SourceIndex

namespace Place

variable {p q c : Place} {chosen other : Option Place} {field : String}

/-- Is a place the chosen one among its siblings? -/
def isChosen (chosen : Option Place) (c : Place) : Bool :=
  chosen.any fun a => a.index == c.index

/-- Is a place the child that fills a field of another? -/
def isField (p : Place) (field : String) (c : Place) : Bool :=
  isChosen (p.field? field) c

/-- Are two chosen children, if both are there, different ones? -/
def areApart (chosen other : Option Place) : Bool :=
  !chosen.any fun a => isChosen other a

/-- Are the children that fill two fields of a place of a kind different ones? -/
def AreApart (tree : Node) (kind field other : String) : Prop :=
  ∀ p ∈ (root tree).subtree, p.kind = kind → areApart (p.field? field) (p.field? other) = true

instance {tree : Node} {kind field other : String} : Decidable (AreApart tree kind field other) :=
  inferInstanceAs (Decidable (∀ p ∈ (root tree).subtree,
    p.kind = kind → areApart (p.field? field) (p.field? other) = true))

/-- Does the way from the root to a place take a step, from a place to a child, of a sort? -/
def passes (through : Place → Place → Bool) : Place → Bool
  | root _ => false
  | child q ns n => passes through q || through q (child q ns n)

/-- A child is known by its position. -/
theorem eq_of_index_eq (hq : q ∈ p.children) (hc : c ∈ p.children) (h : q.index = c.index) :
    q = c := by
  let same (a b : Place) : Prop := a.index = b.index → a = b
  have hsymm : Std.Symm same := ⟨fun _ _ heq hindex => (heq hindex.symm).symm⟩
  have hsame : p.children.Pairwise same :=
    p.pairwise_index_children.imp fun hlt hindex => absurd hindex (Nat.ne_of_lt hlt)
  exact hsame.forall_of_forall (fun _ _ _ => rfl) hq hc h

theorem nodup_children (p : Place) : p.children.Nodup := by
  refine p.pairwise_index_children.imp fun hlt heq => ?_
  rw [heq] at hlt
  exact Nat.lt_irrefl _ hlt

@[simp] theorem isChosen_some_self (c : Place) : isChosen (some c) c = true := by
  rw [isChosen, Option.any_some, beq_self_eq_true]

/-- A child that is not the chosen one. -/
theorem isChosen_eq_false (hchosen : ∀ a ∈ chosen, a ∈ p.children) (hc : c ∈ p.children)
    (h : chosen ≠ some c) : isChosen chosen c = false := by
  cases chosen with
  | none => rfl
  | some a =>
      rw [isChosen, Option.any_some, beq_eq_false_iff_ne]
      exact fun hindex => h (congrArg some (eq_of_index_eq (hchosen a rfl) hc hindex))

theorem isField_of_field? (h : p.field? field = some c) : p.isField field c = true := by
  rw [isField, h, isChosen_some_self]

theorem isField_eq_false (hc : c ∈ p.children) (h : p.field? field ≠ some c) :
    p.isField field c = false :=
  isChosen_eq_false (fun _ => mem_children_of_field?) hc h

theorem isField_eq_index (p : Place) (field : String) (c : Place) :
    p.isField field c = ((p.field? field).map index == some c.index) := by
  rw [isField]
  cases p.field? field <;> rfl

theorem areApart_comm (chosen other : Option Place) :
    areApart chosen other = areApart other chosen := by
  cases chosen <;> cases other <;> simp [areApart, isChosen, Bool.beq_comm]

theorem isChosen_of_areApart (h : areApart chosen other = true) (hc : c ∈ chosen) :
    isChosen other c = false := by
  rw [areApart, Option.mem_def.1 hc, Option.any_some, Bool.not_eq_true'] at h
  exact h

/-- Children that are chosen apart from each other are listed once. -/
theorem nodup_of_areApart (h : areApart chosen other = true) :
    (chosen.toList ++ other.toList).Nodup := by
  cases chosen with
  | none => cases other <;> simp
  | some a =>
      cases other with
      | none => simp
      | some b =>
          have hne : a ≠ b := by
            rintro rfl
            rw [areApart, Option.any_some, isChosen_some_self] at h
            cases h
          simpa using hne

end Place

/-- How a walk looks at a place. -/
inductive Look where
  /-- Not at all, nor at anything in it. -/
  | never
  /-- At the place itself, and then wherever it leads to. -/
  | whole
  /-- Only at the children, one by one. -/
  | inside
  /-- Only at an operand. -/
  | operand
  /-- At the name that it is, and at nothing in it. -/
  | name
  deriving Repr, DecidableEq, Inhabited

/-- What a walk looks at, and what it reports there. -/
structure Sight (α : Type) where
  /-- How the walk looks at a child of a place at which it looks as a whole. -/
  whole : Place → Place → Look
  /-- How the walk looks at a child of a place of which it looks at an operand. -/
  operand : Place → Place → Look := fun _ _ => .never
  /-- What the walk reports of a place at which it looks as a whole. -/
  report : Place → List α
  /-- What the walk reports of a name. -/
  named : Place → List α := fun _ => []

namespace Sight

variable {α : Type} (v : Sight α) {p c : Place}

/-- How a walk looks at a place. -/
def look : Place → Look
  | .root _ => .inside
  | .child q ns n =>
      match look q with
      | .never | .name => .never
      | .inside => .whole
      | .whole => v.whole q (.child q ns n)
      | .operand => v.operand q (.child q ns n)

/-- What the walk reports of a place itself. -/
def reportAt (p : Place) : List α :=
  match v.look p with
  | .whole => v.report p
  | .name => v.named p
  | _ => []

/-- What the walk reports of a place and of all that stands in it. -/
def reports (p : Place) : List α :=
  p.subtree.flatMap v.reportAt

/-- What a walk reports of the places that are not of the given ones. -/
def rest (isGiven : Place → Bool) (tree : Node) : List α :=
  ((Place.root tree).subtree.filter fun p => !isGiven p).flatMap v.reportAt

section

variable {v} {field : String}

theorem look_of_never (hc : c ∈ p.children) (h : v.look p = .never) : v.look c = .never := by
  obtain ⟨ns, n, rfl⟩ := Place.exists_of_mem_children hc
  rw [look, h]

theorem look_of_name (hc : c ∈ p.children) (h : v.look p = .name) : v.look c = .never := by
  obtain ⟨ns, n, rfl⟩ := Place.exists_of_mem_children hc
  rw [look, h]

theorem look_of_inside (hc : c ∈ p.children) (h : v.look p = .inside) : v.look c = .whole := by
  obtain ⟨ns, n, rfl⟩ := Place.exists_of_mem_children hc
  rw [look, h]

theorem look_of_whole (hc : c ∈ p.children) (h : v.look p = .whole) : v.look c = v.whole p c := by
  obtain ⟨ns, n, rfl⟩ := Place.exists_of_mem_children hc
  rw [look, h]

theorem look_of_operand (hc : c ∈ p.children) (h : v.look p = .operand) :
    v.look c = v.operand p c := by
  obtain ⟨ns, n, rfl⟩ := Place.exists_of_mem_children hc
  rw [look, h]

/-- A walk that passes over the children of all places of some kinds passes over all that stands in
them. -/
theorem look_of_isBelow {tree : Node} {kinds : List String}
    (h : ∀ q ∈ (Place.root tree).subtree, q.kind ∈ kinds → ∀ c ∈ q.children, v.look c = .never)
    (hp : p ∈ (Place.root tree).subtree) (hbelow : p.isBelow kinds = true) :
    v.look p = .never := by
  refine (Place.forall_mem_subtree (P := fun p => p ∈ (Place.root tree).subtree ∧
    (p.isBelow kinds = true → v.look p = .never))
    (fun q c hc hq => ⟨Place.mem_subtree_of_mem_children hq.1 hc, fun hbelow => ?_⟩)
    ⟨Place.self_mem_subtree _, nofun⟩ p hp).2 hbelow
  rw [Place.isBelow, Place.ancestors_of_mem_children hc, List.any_cons, Bool.or_eq_true] at hbelow
  rcases hbelow with hkind | hbelow
  · exact h q hq.1 (List.contains_iff_mem.1 hkind) c hc
  · exact look_of_never hc (hq.2 hbelow)

theorem reports_eq (p : Place) : v.reports p = v.reportAt p ++ p.children.flatMap v.reports := by
  rw [reports, Place.subtree_eq, List.flatMap_cons, List.flatMap_assoc]
  rfl

/-- Nothing is reported of a place that is passed over. -/
theorem reports_of_never (h : v.look p = .never) : v.reports p = [] := by
  have hnever : ∀ q ∈ p.subtree, v.look q = .never :=
    Place.forall_mem_subtree (fun _ _ hc => look_of_never hc) h
  refine List.flatMap_eq_nil_iff.2 fun q hq => ?_
  rw [reportAt, hnever q hq]

theorem reports_of_inside (h : v.look p = .inside) :
    v.reports p = p.children.flatMap v.reports := by
  rw [reports_eq, reportAt, h, List.nil_append]

theorem reports_of_operand (h : v.look p = .operand) :
    v.reports p = p.children.flatMap v.reports := by
  rw [reports_eq, reportAt, h, List.nil_append]

theorem reports_of_whole (h : v.look p = .whole) :
    v.reports p = v.report p ++ p.children.flatMap v.reports := by
  rw [reports_eq, reportAt, h]

theorem reports_of_name (h : v.look p = .name) : v.reports p = v.named p := by
  have hchildren : p.children.flatMap v.reports = [] :=
    List.flatMap_eq_nil_iff.2 fun c hc => reports_of_never (look_of_name hc h)
  rw [reports_eq, reportAt, h, hchildren, List.append_nil]

/-- The children of a place report what some of them do, if the walk passes over all others. -/
theorem perm_reports_children {some : List Place} (hnodup : some.Nodup)
    (hsubset : ∀ c ∈ some, c ∈ p.children)
    (hothers : ∀ c ∈ p.children, c ∉ some → v.look c = .never) :
    (p.children.flatMap v.reports).Perm (some.flatMap v.reports) := by
  classical
  have hkept : (p.children.filter fun c => c ∈ some).Perm some := by
    refine (List.perm_ext_iff_of_nodup (p.nodup_children.filter _) hnodup).2 fun c => ?_
    rw [List.mem_filter, decide_eq_true_eq]
    exact ⟨And.right, fun hc => ⟨hsubset c hc, hc⟩⟩
  have hdropped : (p.children.filter fun c => !decide (c ∈ some)).flatMap v.reports = [] := by
    refine List.flatMap_eq_nil_iff.2 fun c hc => ?_
    rw [List.mem_filter, Bool.not_eq_true', decide_eq_false_iff_not] at hc
    exact reports_of_never (hothers c hc.1 hc.2)
  have hsplit := ((p.children.filter_append_perm fun c => c ∈ some).symm).flatMap_right v.reports
  rw [List.flatMap_append, hdropped, List.append_nil] at hsplit
  exact hsplit.trans (hkept.flatMap_right v.reports)

/-- A place reports what it is, and what is in sight in it. -/
theorem perm_reports {some : List Place} (h : v.look p = .whole) (hnodup : some.Nodup)
    (hsubset : ∀ c ∈ some, c ∈ p.children)
    (hothers : ∀ c ∈ p.children, c ∉ some → v.whole p c = .never) :
    (v.reports p).Perm (v.report p ++ some.flatMap v.reports) := by
  rw [reports_of_whole h]
  refine (perm_reports_children hnodup hsubset fun c hc hnot => ?_).append_left _
  rw [look_of_whole hc h, hothers c hc hnot]

/-- A place of which the walk looks at two chosen children at most. -/
theorem perm_reports_of_two {one other : Option Place} (h : v.look p = .whole)
    (hone : ∀ a ∈ one, a ∈ p.children) (hother : ∀ a ∈ other, a ∈ p.children)
    (hapart : Place.areApart one other = true)
    (hnever : ∀ c, Place.isChosen one c = false → Place.isChosen other c = false →
      v.whole p c = .never) :
    (v.reports p).Perm
      (v.report p ++ (one.toList.flatMap v.reports ++ other.toList.flatMap v.reports)) := by
  rw [← List.flatMap_append]
  refine perm_reports h (Place.nodup_of_areApart hapart) (fun c hc => ?_) fun c hc hnot => ?_
  · rcases List.mem_append.1 hc with hc | hc
    · exact hone c (Option.mem_toList.1 hc)
    · exact hother c (Option.mem_toList.1 hc)
  · rw [List.mem_append, Option.mem_toList, Option.mem_toList, not_or] at hnot
    exact hnever c (Place.isChosen_eq_false hone hc hnot.1)
      (Place.isChosen_eq_false hother hc hnot.2)

/-- A place of which the walk looks at one chosen child at most. -/
theorem perm_reports_of_one {one : Option Place} (h : v.look p = .whole)
    (hone : ∀ a ∈ one, a ∈ p.children)
    (hnever : ∀ c, Place.isChosen one c = false → v.whole p c = .never) :
    (v.reports p).Perm (v.report p ++ one.toList.flatMap v.reports) := by
  have hnone : ∀ a ∈ (none : Option Place), a ∈ p.children := nofun
  have hperm := perm_reports_of_two h hone hnone (by cases one <;> rfl)
    fun c hc _ => hnever c hc
  rwa [Option.toList_none, List.flatMap_nil, List.append_nil] at hperm

/-- Does a walk, at a place, look at what fills two of its fields only, and of the second at the
inside alone? -/
structure LooksAtFields (v : Sight α) (p : Place) (field other : String)
    (lookAt : Place → Look) : Prop where
  apart : Place.areApart (p.field? field) (p.field? other) = true
  whole : ∀ c, v.whole p c =
    if p.isField field c then lookAt c else if p.isField other c then .inside else .never

theorem LooksAtFields.whole_field {other : String} {lookAt : Place → Look}
    (h : v.LooksAtFields p field other lookAt) (hc : p.field? field = some c) :
    v.whole p c = lookAt c := by
  rw [h.whole, if_pos (Place.isField_of_field? hc)]

theorem LooksAtFields.whole_other {other : String} {lookAt : Place → Look}
    (h : v.LooksAtFields p field other lookAt) (hc : p.field? other = some c) :
    v.whole p c = .inside := by
  have hnot : p.isField field c = false :=
    Place.isChosen_of_areApart (Place.areApart_comm _ _ ▸ h.apart) hc
  rw [h.whole, hnot, if_neg Bool.false_ne_true, if_pos (Place.isField_of_field? hc)]

theorem LooksAtFields.perm_reports {other : String} {lookAt : Place → Look}
    (h : v.LooksAtFields p field other lookAt) (hlook : v.look p = .whole) :
    (v.reports p).Perm
      (v.report p ++ ((p.field? field).toList.flatMap v.reports ++
        (p.field? other).toList.flatMap v.reports)) := by
  refine perm_reports_of_two hlook (fun _ => Place.mem_children_of_field?)
    (fun _ => Place.mem_children_of_field?) h.apart fun c hfield hother => ?_
  rw [h.whole, Place.isField, hfield, Place.isField, hother]
  rfl

/-- A place of which the walk looks at one operand at most. -/
theorem perm_reports_of_operand {one : Option Place} (h : v.look p = .operand)
    (hone : ∀ a ∈ one, a ∈ p.children)
    (hnever : ∀ c, Place.isChosen one c = false → v.operand p c = .never) :
    (v.reports p).Perm (one.toList.flatMap v.reports) := by
  rw [reports_of_operand h]
  refine perm_reports_children (by cases one <;> simp) (fun c hc => hone c (Option.mem_toList.1 hc))
    fun c hc hnot => ?_
  rw [Option.mem_toList] at hnot
  rw [look_of_operand hc h, hnever c (Place.isChosen_eq_false hone hc hnot)]

/-- A place of which the walk passes over all children reports what it is. -/
theorem reports_of_closed (h : v.look p = .whole)
    (hnever : ∀ c ∈ p.children, v.whole p c = .never) : v.reports p = v.report p := by
  have hchildren : p.children.flatMap v.reports = [] := by
    refine List.flatMap_eq_nil_iff.2 fun c hc => reports_of_never ?_
    rw [look_of_whole hc h, hnever c hc]
  rw [reports_of_whole h, hchildren, List.append_nil]

end

/-- Where each of the given places has one thing to be reported, the walk reports this of all of
them, and of the other places what it does, exactly if it looks at each given place as a whole. -/
theorem perm_reports_iff {isGiven : Place → Bool} {due : Place → Option α} {tree : Node}
    (hdue : ∀ p, isGiven p = true → (due p).isSome = true)
    (hreport : ∀ p, isGiven p = true → v.report p = (due p).toList)
    (hnamed : ∀ p, isGiven p = true → v.named p = []) :
    (v.reports (.root tree)).Perm
        (((Place.root tree).subtree.filter isGiven).filterMap due ++ v.rest isGiven tree) ↔
      ∀ p ∈ (Place.root tree).subtree.filter isGiven, v.look p = .whole := by
  generalize hplaces : (Place.root tree).subtree.filter isGiven = places
  have hgiven : ∀ p ∈ places, isGiven p = true := fun p hp =>
    (List.mem_filter.1 (hplaces ▸ hp)).2
  have hlength : ∀ some : List Place, (∀ p ∈ some, isGiven p = true) →
      (some.filterMap due).length = some.length := by
    intro some hsome
    rw [List.filterMap_length_eq_length]
    exact fun p hp => hdue p (hsome p hp)
  -- Of the given places the walk reports those at which it looks as a whole.
  have hseen : places.flatMap v.reportAt =
      (places.filter fun p => v.look p = .whole).filterMap due := by
    rw [List.filterMap_filter, List.filterMap_eq_flatMap_toList]
    refine List.flatMap_congr fun p hp => ?_
    cases hlook : v.look p <;>
      simp [reportAt, hlook, hreport p (hgiven p hp), hnamed p (hgiven p hp)]
  have hsplit : (v.reports (.root tree)).Perm
      ((places.filter fun p => v.look p = .whole).filterMap due ++ v.rest isGiven tree) := by
    rw [← hseen, ← hplaces, rest, ← List.flatMap_append]
    exact ((List.filter_append_perm isGiven _).symm).flatMap_right _
  constructor
  · intro h
    have hperm := (List.perm_append_right_iff _).1 (hsplit.symm.trans h)
    have hcount := hperm.length_eq
    rw [hlength _ hgiven, hlength _ fun p hp => hgiven p (List.mem_filter.1 hp).1] at hcount
    intro p hp
    exact of_decide_eq_true (List.length_filter_eq_length_iff.1 hcount p hp)
  · intro h
    have hall : (places.filter fun p => v.look p = .whole) = places :=
      List.filter_eq_self.2 fun p hp => decide_eq_true (h p hp)
    rwa [hall] at hsplit

/-- Where a walk reports the given places only, there is no rest. -/
theorem rest_eq_nil {isGiven : Place → Bool} {tree : Node} (hnamed : ∀ p, v.named p = [])
    (h : ∀ p ∈ (Place.root tree).subtree, v.look p = .whole → isGiven p = false →
      v.report p = []) : v.rest isGiven tree = [] := by
  refine List.flatMap_eq_nil_iff.2 fun p hp => ?_
  rw [List.mem_filter, Bool.not_eq_true'] at hp
  rw [reportAt]
  split
  · exact h p hp.1 ‹_› hp.2
  · exact hnamed p
  · rfl

end Sight

end SourceIndex
