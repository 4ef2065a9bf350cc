import SourceIndex.Proofs.Tree.Descent
import SourceIndex.Uses.Go

/-!
# Calls in Go

A walk over a Go file looks for calls everywhere but in what a call calls: behind a call it goes on
in the arguments alone.  So it finds, in the order of the source, all calls that stand in other
calls only as part of an argument.
-/

namespace SourceIndex.Uses.Go

variable (d : Document)

/-- Is a place a call of something, outside of imports? -/
def isCall (p : Place) : Bool :=
  p.kind == "call_expression" && (p.field? "function").isSome && !p.isBelow ["import_declaration"]

/-- The calls of a tree in the order of the source. -/
def callsIn (tree : Node) : List Place :=
  (Place.root tree).subtree.filter isCall

/-- The name that a declaration gives to what it encloses. -/
def ownName (p : Place) : Option String :=
  match p.kind with
  | "function_declaration" => d.fieldText p "name"
  | "method_declaration" => methodName d p
  | _ => none

/-- The name of the nearest declaration with a name that encloses the children of a place. -/
def scopeInside : Place → Option String
  | .root _ => none
  | .child q ns n => (ownName d (.child q ns n)).or (scopeInside q)

/-- The use that a call is. -/
def callReference (p : Place) : Option Reference :=
  (p.field? "function").map fun f =>
    d.reference .call (calleeName d f) f (p.parent?.bind (scopeInside d))

/-- Does a place stand in a call, but not in its arguments? -/
def isPassedOver : Place → Bool
  | .root _ => false
  | .child q ns _ =>
      isPassedOver q ||
        q.kind == "call_expression" &&
          !((q.field? "function").isSome &&
            (q.field? "arguments").any fun a => a.index == ns.length)

/-- What the grammar promises of a tree: a call or an import is never the whole file, and the
arguments of a call are a list of arguments. -/
structure IsGrammatical (tree : Node) : Prop where
  root : tree.kind ≠ "call_expression" ∧ tree.kind ≠ "import_declaration"
  arguments : ∀ p ∈ (Place.root tree).subtree, p.kind = "call_expression" →
    ∀ a ∈ p.field? "arguments", a.kind = "argument_list"

/-! ## The rule -/

theorem height_of_mem_importSteps {scope : Option String} {p q : Place} {task : Task}
    (h : Step.visit task q ∈ importSteps d scope p) : q.node.height < p.node.height := by
  obtain ⟨c, hc, h⟩ := List.mem_flatMap.1 h
  split at h
  · obtain ⟨r, _, heq⟩ := List.mem_map.1 h
    cases heq
  · cases List.mem_singleton.1 h
    exact Place.height_lt_of_mem_children hc
  · cases List.mem_singleton.1 h
  · cases h

theorem rule_descends : (rule d).Descends := by
  intro task task' p q h
  cases task with
  | imports scope => exact height_of_mem_importSteps d h
  | inside s =>
      rw [rule] at h
      split at h
      · cases h
      · obtain ⟨c, hc, h⟩ := List.mem_flatMap.1 h
        have hlt := Place.height_lt_of_mem_children hc
        unfold childSteps at h
        split at h
        · exact Nat.lt_trans (height_of_mem_importSteps d h) hlt
        · unfold callSteps at h
          split at h
          · cases h
          · rcases List.mem_cons.1 h with h | h
            · cases h
            · obtain ⟨a, ha, heq⟩ := List.mem_map.1 h
              cases heq
              have hargument := Place.mem_children_of_field? (Option.mem_toList.1 ha)
              exact Nat.lt_trans (Place.height_lt_of_mem_children hargument) hlt
        · cases List.mem_singleton.1 h
          exact hlt
        · cases List.mem_singleton.1 h
          exact hlt
        · cases List.mem_singleton.1 h
          exact hlt

/-- Is a use a call? -/
def isCallReference (r : Reference) : Bool :=
  r.kind == .call

/-- Below an import there are only imports. -/
theorem filter_importSteps (scope : Option String) (p : Place) :
    ((importSteps d scope p).flatMap (Step.items (rule d).walk)).filter isCallReference = [] := by
  induction hheight : p.node.height using Nat.strong_induction_on generalizing p with
  | _ height ih =>
      refine List.filter_eq_nil_iff.2 fun r hr => ?_
      obtain ⟨step, hstep, hr⟩ := List.mem_flatMap.1 hr
      obtain ⟨c, hc, hstep⟩ := List.mem_flatMap.1 hstep
      split at hstep
      · obtain ⟨r', hr', rfl⟩ := List.mem_map.1 hstep
        obtain ⟨path, _, rfl⟩ := Option.map_eq_some_iff.1 (Option.mem_toList.1 hr')
        rw [List.mem_singleton.1 hr]
        exact Bool.false_ne_true
      · cases List.mem_singleton.1 hstep
        have hlt := Place.height_lt_of_mem_children hc
        have hnone := ih _ (hheight ▸ hlt) c rfl
        rw [Step.items, Rule.walk_eq (rule_descends d)] at hr
        exact List.filter_eq_nil_iff.1 hnone r hr
      · cases List.mem_singleton.1 hstep
        rw [List.mem_singleton.1 hr]
        exact Bool.false_ne_true
      · cases hstep

/-! ## Places that are passed over -/

/-- Is a place a call that the walk comes to? -/
def isReported (p : Place) : Bool :=
  isCall p && !isPassedOver p

/-- The uses of those of some places that are calls and that the walk comes to. -/
def reported (places : List Place) : List Reference :=
  (places.filter isReported).filterMap (callReference d)

theorem reported_flatMap (places : List Place) (f : Place → List Place) :
    reported d (places.flatMap f) = places.flatMap fun p => reported d (f p) := by
  simp only [reported, List.filter_flatMap, List.filterMap_flatMap]

theorem reported_eq_nil {places : List Place} (h : ∀ p ∈ places, isReported p = false) :
    reported d places = [] := by
  rw [reported, List.filter_eq_nil_iff.2 fun p hp => Bool.not_eq_true _ ▸ h p hp, List.filterMap_nil]

/-- Nothing below an import is reported. -/
theorem reported_import {p : Place} (h : p.kind = "import_declaration") :
    reported d p.subtree = [] := by
  -- Every place of the subtree is the import or stands below it, and so is no call.
  have hbelow : ∀ q ∈ p.subtree, q.kind = "import_declaration" ∨
      q.isBelow ["import_declaration"] = true := by
    refine Place.forall_mem_subtree (fun q q' hq' hq => Or.inr ?_) (Or.inl h)
    rw [Place.isBelow, Place.ancestors_of_mem_children hq', List.any_cons, Bool.or_eq_true]
    rcases hq with hq | hq
    · exact Or.inl (List.contains_iff_mem.2 (List.mem_singleton.2 hq))
    · exact Or.inr hq
  refine reported_eq_nil d fun q hq => ?_
  rcases hbelow q hq with hq | hq
  · rw [isReported, isCall, hq]
    rfl
  · rw [isReported, isCall, hq, Bool.not_true, Bool.and_false, Bool.false_and]

/-- Nothing below a place that is passed over is reported. -/
theorem reported_passedOver {p : Place} (h : isPassedOver p = true) :
    reported d p.subtree = [] := by
  have hbelow : ∀ q ∈ p.subtree, isPassedOver q = true := by
    refine Place.forall_mem_subtree (fun q q' hq' hq => ?_) h
    obtain ⟨ns, n, rfl⟩ := Place.exists_of_mem_children hq'
    rw [isPassedOver, hq, Bool.true_or]
  refine reported_eq_nil d fun q hq => ?_
  rw [isReported, hbelow q hq, Bool.not_true, Bool.and_false]

/-- Of what stands in a call, only the arguments are not passed over. -/
theorem isPassedOver_in_call {p c : Place} (hc : c ∈ p.children) (hkind : p.kind = "call_expression")
    (hfield : ∀ a, p.field? "function" ≠ none → p.field? "arguments" = some a → a.index ≠ c.index) :
    isPassedOver c = true := by
  obtain ⟨ns, n, rfl⟩ := Place.exists_of_mem_children hc
  have hother : ((p.field? "function").isSome &&
      (p.field? "arguments").any fun a => a.index == ns.length) = false := by
    cases hfunction : p.field? "function" with
    | none => rfl
    | some f =>
        cases harguments : p.field? "arguments" with
        | none => rfl
        | some a =>
            have hne := hfield a (hfunction ▸ nofun) harguments
            exact beq_eq_false_iff_ne.2 hne
  rw [isPassedOver, hkind, hother]
  simp only [beq_self_eq_true, Bool.not_false, Bool.and_self, Bool.or_true]

theorem ownName_eq_none {p : Place} (hfunction : p.kind ≠ "function_declaration")
    (hmethod : p.kind ≠ "method_declaration") : ownName d p = none := by
  unfold ownName
  split
  · exact absurd ‹_› hfunction
  · exact absurd ‹_› hmethod
  · rfl

/-- What is reported in a call is reported in its arguments. -/
theorem reported_in_call {p : Place} (hkind : p.kind = "call_expression") :
    reported d (p.children.flatMap Place.subtree) =
      if (p.field? "function").isSome then
        reported d ((p.field? "arguments").toList.flatMap Place.subtree)
      else
        [] := by
  have hpassed : ∀ c ∈ p.children,
      (∀ a, p.field? "function" ≠ none → p.field? "arguments" = some a → a.index ≠ c.index) →
      reported d c.subtree = [] :=
    fun c hc hfield => reported_passedOver d (isPassedOver_in_call hc hkind hfield)
  rw [reported_flatMap, reported_flatMap]
  cases hfunction : p.field? "function" with
  | none => exact List.flatMap_eq_nil_iff.2 fun c hc => hpassed c hc fun _ h => absurd hfunction h
  | some f =>
      rw [Option.isSome_some, if_pos rfl]
      cases harguments : p.field? "arguments" with
      | none =>
          refine List.flatMap_eq_nil_iff.2 fun c hc => hpassed c hc fun a _ ha => ?_
          rw [harguments] at ha
          cases ha
      | some a =>
          -- The other children stand before the arguments or behind them, so at other positions.
          obtain ⟨-, before, after, hsplit, -⟩ := List.find?_eq_some_iff_append.1 harguments
          have hordered := Place.pairwise_index_children p
          rw [hsplit] at hordered
          obtain ⟨-, hafter, hbefore⟩ := List.pairwise_append.1 hordered
          have hother : ∀ c ∈ p.children, c.index ≠ a.index → reported d c.subtree = [] := by
            intro c hc hne
            refine hpassed c hc fun a' _ ha' => ?_
            rw [harguments] at ha'
            obtain rfl := Option.some.inj ha'
            exact fun heq => hne heq.symm
          have hfirst : (before.flatMap fun c => reported d c.subtree) = [] := by
            refine List.flatMap_eq_nil_iff.2 fun c hc => hother c ?_ ?_
            · rw [hsplit]
              exact List.mem_append_left _ hc
            · exact Nat.ne_of_lt (hbefore c hc a List.mem_cons_self)
          have hlast : (after.flatMap fun c => reported d c.subtree) = [] := by
            refine List.flatMap_eq_nil_iff.2 fun c hc => hother c ?_ ?_
            · rw [hsplit]
              exact List.mem_append_right _ (List.mem_cons_of_mem _ hc)
            · exact Nat.ne_of_gt ((List.pairwise_cons.1 hafter).1 c hc)
          rw [hsplit, List.flatMap_append, List.flatMap_cons, hfirst, hlast]
          simp only [List.nil_append, List.append_nil, Option.toList_some, List.flatMap_cons,
            List.flatMap_nil]

/-! ## The walk -/

/-- A place whose children the walk looks at. -/
structure IsOpen (p : Place) : Prop where
  ofPassedOver : isPassedOver p = false
  ofCall : p.kind ≠ "call_expression"
  ofImport : p.kind ≠ "import_declaration"
  ofBelow : p.isBelow ["import_declaration"] = false

/-- Below a place in no import only imports lead into an import. -/
theorem isBelow_of_mem_children {p c : Place} (hc : c ∈ p.children)
    (hkind : p.kind ≠ "import_declaration") (hbelow : p.isBelow ["import_declaration"] = false) :
    c.isBelow ["import_declaration"] = false := by
  rw [Place.isBelow, Place.ancestors_of_mem_children hc, List.any_cons, Bool.or_eq_false_iff]
  refine ⟨?_, hbelow⟩
  rw [Place.isOneOf, Bool.eq_false_iff]
  exact fun hmem => hkind (List.mem_singleton.1 (List.contains_iff_mem.1 hmem))

/-- Only calls lead to places that are passed over. -/
theorem isPassedOver_of_mem_children {p c : Place} (hc : c ∈ p.children)
    (hkind : p.kind ≠ "call_expression") (hpassed : isPassedOver p = false) :
    isPassedOver c = false := by
  obtain ⟨ns, n, rfl⟩ := Place.exists_of_mem_children hc
  rw [isPassedOver, hpassed, beq_eq_false_iff_ne.2 hkind]
  rfl

/-- The arguments of a call are passed over only if the call is. -/
theorem isPassedOver_arguments {p f a : Place} (hfunction : p.field? "function" = some f)
    (ha : p.field? "arguments" = some a) (hpassed : isPassedOver p = false) :
    isPassedOver a = false := by
  obtain ⟨ns, n, rfl⟩ := Place.exists_of_mem_children (Place.mem_children_of_field? ha)
  rw [isPassedOver, hpassed, hfunction, ha]
  simp only [Option.isSome_some, Option.any_some, Place.index, Place.before, beq_self_eq_true,
    Bool.and_self, Bool.not_true, Bool.and_false, Bool.or_self]

theorem isReported_of_kind {p : Place} (h : p.kind ≠ "call_expression") : isReported p = false := by
  rw [isReported, isCall, beq_eq_false_iff_ne.2 h]
  rfl

/-- The subtree of a place that is not reported itself reports what stands below. -/
theorem reported_subtree {p : Place} (h : isReported p = false) :
    reported d p.subtree = reported d (p.children.flatMap Place.subtree) := by
  rw [Place.subtree_eq, reported, List.filter_cons, h]
  rfl

/-- A call that is reported comes before what stands in it. -/
theorem reported_call {p f : Place} (hfunction : p.field? "function" = some f)
    (h : isReported p = true) :
    reported d p.subtree =
      d.reference .call (calleeName d f) f (p.parent?.bind (scopeInside d)) ::
        reported d (p.children.flatMap Place.subtree) := by
  have hreference : callReference d p =
      some (d.reference .call (calleeName d f) f (p.parent?.bind (scopeInside d))) := by
    rw [callReference, hfunction, Option.map_some]
  rw [Place.subtree_eq, reported, List.filter_cons, h, if_pos rfl, List.filterMap_cons, hreference]
  rfl

theorem scopeInside_of_mem_children {p c : Place} (hc : c ∈ p.children) :
    scopeInside d c = (ownName d c).or (scopeInside d p) := by
  obtain ⟨ns, n, rfl⟩ := Place.exists_of_mem_children hc
  rw [scopeInside]

/-- The arguments of a call that is not passed over are open. -/
theorem isOpen_arguments {c f a : Place} (hcall : c.kind = "call_expression")
    (hfunction : c.field? "function" = some f) (ha : c.field? "arguments" = some a)
    (hkind : a.kind = "argument_list") (hpassed : isPassedOver c = false)
    (hbelow : c.isBelow ["import_declaration"] = false) : IsOpen a :=
  { ofPassedOver := isPassedOver_arguments hfunction ha hpassed
    ofCall := hkind ▸ by decide
    ofImport := hkind ▸ by decide
    ofBelow := isBelow_of_mem_children (Place.mem_children_of_field? ha) (hcall ▸ by decide) hbelow }

/-- Neither a call nor its arguments give a name to what they enclose. -/
theorem scopeInside_arguments {p c a : Place} (hc : c ∈ p.children)
    (hcall : c.kind = "call_expression") (ha : c.field? "arguments" = some a)
    (hkind : a.kind = "argument_list") : scopeInside d a = scopeInside d p := by
  have haOwn : ownName d a = none := ownName_eq_none d (hkind ▸ by decide) (hkind ▸ by decide)
  have hcOwn : ownName d c = none := ownName_eq_none d (hcall ▸ by decide) (hcall ▸ by decide)
  rw [scopeInside_of_mem_children d (Place.mem_children_of_field? ha), haOwn, Option.none_or,
    scopeInside_of_mem_children d hc, hcOwn, Option.none_or]

/-- The steps of a call report it and what is reported in it, if its arguments report theirs. -/
theorem filter_callSteps {s : Scope} {p c : Place} (hc : c ∈ p.children)
    (hkind : c.kind = "call_expression") (hpassed : isPassedOver c = false)
    (hbelow : c.isBelow ["import_declaration"] = false) (hname : s.name = scopeInside d p)
    (harguments : ∀ f a, c.field? "function" = some f → c.field? "arguments" = some a →
      ((rule d).walk (.inside s.deeper) a).filter isCallReference = reported d a.subtree) :
    ((callSteps d s c).flatMap (Step.items (rule d).walk)).filter isCallReference =
      reported d c.subtree := by
  rw [callSteps]
  cases hfunction : c.field? "function" with
  | none =>
      have hnone : isReported c = false := by
        rw [isReported, isCall, hfunction, Option.isSome_none, Bool.and_false, Bool.false_and,
          Bool.false_and]
      rw [reported_subtree d hnone, reported_in_call d hkind, hfunction]
      rfl
  | some f =>
      -- The call comes first on both sides, and then what its arguments report.
      have hreported : isReported c = true := by
        rw [isReported, isCall, hkind, hfunction, hbelow, hpassed]
        rfl
      have hinside : ((Step.visit? (.inside s.deeper) (c.field? "arguments")).flatMap
          (Step.items (rule d).walk)).filter isCallReference =
          reported d ((c.field? "arguments").toList.flatMap Place.subtree) := by
        cases ha : c.field? "arguments" with
        | none => rfl
        | some a =>
            simp only [Step.visit?, Option.toList_some, List.map_cons, List.map_nil,
              List.flatMap_cons, List.flatMap_nil, List.append_nil, Step.items]
            exact harguments f a hfunction ha
      rw [reported_call d hfunction hreported, Place.parent?_of_mem_children hc, reported_in_call d hkind,
        hfunction, Option.isSome_some, if_pos rfl, ← hinside, Option.bind_some, ← hname,
        List.flatMap_cons, Step.items, List.singleton_append, List.filter_cons]
      rfl

/-- The walk reports the calls below an open place that are not passed over, in their order. -/
theorem walk_inside {tree : Node} (hgo : IsGrammatical tree)
    (hheight : tree.height ≤ d.limits.walkDepth.toNat) {s : Scope} {p : Place}
    (hp : p ∈ (Place.root tree).subtree) (hopen : IsOpen p) (hdepth : s.depth ≤ p.level)
    (hname : s.name = scopeInside d p) :
    ((rule d).walk (.inside s) p).filter isCallReference =
      reported d (p.children.flatMap Place.subtree) := by
  induction hp' : p.node.height using Nat.strong_induction_on generalizing s p with
  | _ height ih =>
      -- The depth never exceeds the level, so the walk is not too deep anywhere in the tree.
      have hlevel := Place.level_add_height_le p hp
      change p.level + p.node.height ≤ 0 + tree.height at hlevel
      have hnear : d.tooDeep s.depth = false := decide_eq_false (by omega)
      rw [Rule.walk_eq (rule_descends d), rule, hnear, if_neg Bool.false_ne_true,
        List.flatMap_assoc, List.filter_flatMap, reported_flatMap]
      refine List.flatMap_congr fun c hc => ?_
      have hlt := Place.height_lt_of_mem_children hc
      have hcTree := Place.mem_subtree_of_mem_children hp hc
      have hcPassed := isPassedOver_of_mem_children hc hopen.ofCall hopen.ofPassedOver
      have hcBelow := isBelow_of_mem_children hc hopen.ofImport hopen.ofBelow
      have hcLevel := Place.level_of_mem_children hc
      -- A child that is neither a call nor an import is walked through, with its name if it has one.
      have hthrough : ∀ s' : Scope, c.kind ≠ "call_expression" → c.kind ≠ "import_declaration" →
          s'.depth = s.depth + 1 → s'.name = (ownName d c).or s.name →
          ([Step.visit (.inside s') c].flatMap (Step.items (rule d).walk)).filter isCallReference =
            reported d c.subtree := by
        intro s' hcall himport hdepth' hname'
        rw [hname, ← scopeInside_of_mem_children d hc] at hname'
        have hchild := ih _ (hp' ▸ hlt) hcTree ⟨hcPassed, hcall, himport, hcBelow⟩
          (by omega) hname' rfl
        rw [reported_subtree d (isReported_of_kind hcall), ← hchild]
        simp only [List.flatMap_cons, List.flatMap_nil, List.append_nil, Step.items]
      unfold childSteps
      split
      · rename_i hkind
        rw [filter_importSteps, reported_import d hkind]
      · rename_i hkind
        refine filter_callSteps d hc hkind hcPassed hcBelow hname fun f a hfunction ha => ?_
        have hac := Place.mem_children_of_field? ha
        have haKind := hgo.arguments c hcTree hkind a ha
        have haLevel := Place.level_of_mem_children hac
        have haDepth : s.deeper.depth ≤ a.level := by
          simp only [Scope.deeper]
          omega
        have haName : s.deeper.name = scopeInside d a := by
          rw [scopeInside_arguments d hc hkind ha haKind]
          exact hname
        rw [reported_subtree d (isReported_of_kind (p := a) (haKind ▸ by decide))]
        exact ih _ (hp' ▸ Nat.lt_trans (Place.height_lt_of_mem_children hac) hlt)
          (Place.mem_subtree_of_mem_children hcTree hac)
          (isOpen_arguments hkind hfunction ha haKind hcPassed hcBelow) haDepth haName rfl
      · rename_i hkind
        refine hthrough _ (hkind ▸ by decide) (hkind ▸ by decide) rfl ?_
        simp only [ownName, hkind, Scope.enter?]
      · rename_i hkind
        refine hthrough _ (hkind ▸ by decide) (hkind ▸ by decide) rfl ?_
        simp only [ownName, hkind, Scope.enter?]
      · rename_i himport hcall hfunction hmethod
        refine hthrough _ hcall himport rfl ?_
        rw [ownName_eq_none d hfunction hmethod, Option.none_or, Scope.deeper]

/-- Embedded types are no calls. -/
theorem filter_embeddings (root : Place) : (embeddings d root).filter isCallReference = [] := by
  have hembedded : ∀ owner type, ∀ r ∈ embedded d owner type, r.kind = .inherits := by
    intro owner type r hr
    unfold embedded at hr
    split at hr
    · obtain ⟨f, _, hf⟩ := List.mem_filterMap.1 hr
      obtain ⟨t, _, rfl⟩ := Option.map_eq_some_iff.1 hf
      rfl
    · obtain ⟨e, _, rfl⟩ := List.mem_map.1 hr
      rfl
    · cases hr
  refine List.filter_eq_nil_iff.2 fun r hr => ?_
  obtain ⟨declaration, _, hr⟩ := List.mem_flatMap.1 hr
  obtain ⟨spec, _, hr⟩ := List.mem_flatMap.1 hr
  split at hr
  · rw [isCallReference, hembedded _ _ r hr]
    exact Bool.false_ne_true
  · cases hr

/-- The uses of a file report exactly the calls that are not passed over. -/
theorem filter_references {tree : Node} (hgo : IsGrammatical tree)
    (hheight : tree.height ≤ d.limits.walkDepth.toNat) :
    (references d (.root tree)).filter isCallReference =
      ((callsIn tree).filter fun p => !isPassedOver p).filterMap (callReference d) := by
  have hopen : IsOpen (.root tree) := ⟨rfl, hgo.root.1, hgo.root.2, rfl⟩
  have hwalk := walk_inside d hgo hheight (s := {}) (Place.self_mem_subtree _) hopen
    (Nat.zero_le _) rfl
  rw [references, List.filter_append, filter_embeddings, List.append_nil, hwalk,
    ← reported_subtree d (isReported_of_kind (p := .root tree) hgo.root.1), reported, callsIn,
    List.filter_filter]
  refine congrArg (List.filterMap _) (List.filter_congr fun p _ => ?_)
  rw [isReported, Bool.and_comm]

theorem length_filterMap_callReference {places : List Place} (h : ∀ p ∈ places, isCall p = true) :
    (places.filterMap (callReference d)).length = places.length := by
  induction places with
  | nil => rfl
  | cons p places ih =>
      have hcall := h p List.mem_cons_self
      simp only [isCall, Bool.and_eq_true] at hcall
      obtain ⟨f, hf⟩ := Option.isSome_iff_exists.1 hcall.1.2
      have hreference : callReference d p =
          some (d.reference .call (calleeName d f) f (p.parent?.bind (scopeInside d))) := by
        rw [callReference, hf, Option.map_some]
      rw [List.filterMap_cons, hreference, List.length_cons, List.length_cons,
        ih fun q hq => h q (List.mem_cons_of_mem _ hq)]

/-- Every call of a file is reported once, in the order of the source, exactly when no call stands
in another one elsewhere than in its arguments. -/
theorem references_calls_iff {tree : Node} (hgo : IsGrammatical tree)
    (hheight : tree.height ≤ d.limits.walkDepth.toNat) :
    (references d (.root tree)).filter isCallReference =
        (callsIn tree).filterMap (callReference d) ↔
      ∀ p ∈ callsIn tree, isPassedOver p = false := by
  rw [filter_references d hgo hheight]
  constructor
  · -- Every call gives a reference, so a call that is passed over shows in the number of them.
    intro h
    have hcalls : ∀ p ∈ callsIn tree, isCall p = true := fun p hp => (List.mem_filter.1 hp).2
    have hlength := congrArg List.length h
    rw [length_filterMap_callReference d hcalls,
      length_filterMap_callReference d fun p hp => hcalls p (List.mem_filter.1 hp).1] at hlength
    intro p hp
    have hkept := List.length_filter_eq_length_iff.1 hlength p hp
    rwa [Bool.not_eq_true'] at hkept
  · intro h
    rw [List.filter_eq_self.2 fun p hp => by rw [h p hp]; rfl]

/-- A token of a tree. -/
def token (text : String) (start stop : Nat) : Node :=
  .mk text false [] start stop []

/-- A named node without children. -/
def leaf (kind : String) (fields : List String) (start stop : Nat) : Node :=
  .mk kind true fields start stop []

/-- A file with one function, whose body is a statement. -/
def fileWith (statement : Node) (stop : Nat) : Node :=
  .mk "source_file" true [] 0 (stop + 3)
    [.mk "package_clause" true [] 0 9 [token "package" 0 7, leaf "package_identifier" [] 8 9],
      .mk "function_declaration" true [] 10 (stop + 2)
        [token "func" 10 14, leaf "identifier" ["name"] 15 16,
          .mk "parameter_list" true ["parameters"] 16 18 [token "(" 16 17, token ")" 17 18],
          .mk "block" true ["body"] 19 (stop + 2)
            [token "\x7b" 19 20,
              .mk "expression_statement" true [] 21 stop [statement],
              token "\x7d" (stop + 1) (stop + 2)]]]

/-- A call of a method of what another call gives. -/
def callOnCall : Document :=
  { path := "a.go"
    bytes := Text.Utf8.encode "package p\nfunc f() \x7b build(x).Run() \x7d\n".toList
    limits := {} }

/-- The tree of `callOnCall`. -/
def callOnCallTree : Node :=
  fileWith
    (.mk "call_expression" true [] 21 35
      [.mk "selector_expression" true ["function"] 21 33
          [.mk "call_expression" true ["operand"] 21 29
              [leaf "identifier" ["function"] 21 26,
                .mk "argument_list" true ["arguments"] 26 29
                  [token "(" 26 27, leaf "identifier" [] 27 28, token ")" 28 29]],
            token "." 29 30, leaf "field_identifier" ["field"] 30 33],
        .mk "argument_list" true ["arguments"] 33 35 [token "(" 33 34, token ")" 34 35]])
    35

theorem callOnCall_not_reported :
    IsGrammatical callOnCallTree ∧ callOnCallTree.height ≤ callOnCall.limits.walkDepth.toNat ∧
      (references callOnCall (.root callOnCallTree)).filter isCallReference ≠
        (callsIn callOnCallTree).filterMap (callReference callOnCall) := by
  have hgo : IsGrammatical callOnCallTree := ⟨by decide, by decide +kernel⟩
  exact ⟨hgo, by decide +kernel, by decide +kernel⟩

/-- A call with another one as argument. -/
def callOfCall : Document :=
  { path := "a.go"
    bytes := Text.Utf8.encode "package p\nfunc f() \x7b run(build()) \x7d\n".toList
    limits := {} }

/-- The tree of `callOfCall`. -/
def callOfCallTree : Node :=
  fileWith
    (.mk "call_expression" true [] 21 33
      [leaf "identifier" ["function"] 21 24,
        .mk "argument_list" true ["arguments"] 24 33
          [token "(" 24 25,
            .mk "call_expression" true [] 25 32
              [leaf "identifier" ["function"] 25 30,
                .mk "argument_list" true ["arguments"] 30 32 [token "(" 30 31, token ")" 31 32]],
            token ")" 32 33]])
    33

theorem callOfCall_reported :
    (references callOfCall (.root callOfCallTree)).filter isCallReference =
      (callsIn callOfCallTree).filterMap (callReference callOfCall) := by
  have hgo : IsGrammatical callOfCallTree := ⟨by decide, by decide +kernel⟩
  have hheight : callOfCallTree.height ≤ callOfCall.limits.walkDepth.toNat := by decide +kernel
  exact (references_calls_iff callOfCall hgo hheight).2 (by decide +kernel)

end SourceIndex.Uses.Go
