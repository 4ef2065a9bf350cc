import SourceIndex.Backends
import SourceIndex.Proofs.Scopes.Profiled
import SourceIndex.Proofs.Tree.Preorder
import SourceIndex.Proofs.Uses.Account

/-!
# Calls in languages that are read by a profile

A walk over a file that is read by a profile comes to every place down to one level below the limit,
and goes on from every place to what is inside it, whatever is declared there.  What it hands out on
the way is a call at the places of calls, and the heritage of a type elsewhere.  So the calls that
it reports, in the order in which it does, are those that it comes to in preorder.

Which place a call calls, and by what name, is said here once more, apart from the walk.
-/

namespace SourceIndex

/-- What a partial function gives for some items stands in the same order as the items for which it
gives something. -/
theorem forall₂_of_map_eq_filterMap {α β γ : Type} {f : α → Option γ} {g : β → γ} {as : List α}
    {bs : List β} (h : bs.map g = as.filterMap f) :
    List.Forall₂ (fun a b => f a = some (g b)) (as.filter fun a => (f a).isSome) bs := by
  induction as generalizing bs with
  | nil =>
      obtain rfl := List.map_eq_nil_iff.1 h
      exact List.Forall₂.nil
  | cons a as ih =>
      cases hf : f a with
      | none =>
          rw [List.filterMap_cons_none hf] at h
          rw [List.filter_cons_of_neg (by simp [hf])]
          exact ih h
      | some c =>
          rw [List.filterMap_cons_some hf] at h
          obtain ⟨b, bs', rfl, hb, hrest⟩ := List.map_eq_cons_iff.1 h
          rw [List.filter_cons_of_pos (by simp [hf])]
          exact List.Forall₂.cons (hb ▸ hf) (ih hrest)

namespace Uses.Profiled

/-! ## Calls and their names -/

/-- The kinds of places that are calls. -/
def callKinds : List String :=
  ["call_expression", "call", "method_invocation"]

/-- The kinds of children that may be called where no field says what is. -/
def calleeKinds : List String :=
  ["identifier", "simple_identifier", "member_expression", "navigation_expression", "attribute",
    "scoped_identifier", "field_expression"]

/-- Is a child the first one of a kind that may be called? -/
def IsFirstCallable (p q : Place) : Prop :=
  q.kind ∈ calleeKinds ∧ ∃ before after, p.children = before ++ q :: after ∧
    ∀ c ∈ before, c.kind ∉ calleeKinds

/-- Is a child what a call calls?  The field for a function says so, or else that for a method, or
else that for a name, and where there is none of these it is the first child that may be called. -/
def IsCallee (p q : Place) : Prop :=
  p.field? "function" = some q ∨ p.field? "function" = none ∧
    (p.field? "method" = some q ∨ p.field? "method" = none ∧
      (p.field? "name" = some q ∨ p.field? "name" = none ∧ IsFirstCallable p q))

/-- Is it the name that a text calls something by?  A text with a parenthesis or a line feed in it
is a chain of calls, of which the last member counts. -/
def IsNameIn (text name : String) : Prop :=
  name ≠ "" ∧
    if '(' ∈ text.toList ∨ '\n' ∈ text.toList then name = Text.trim (Text.afterLast "." text)
    else name = text

/-- Does a call call something by a name? -/
def CallsByName (d : Document) (p : Place) (name : String) : Prop :=
  ∃ q, IsCallee p q ∧ IsNameIn (d.text q) name

theorem isFirstCallable_iff {p q : Place} :
    IsFirstCallable p q ↔ p.childOfAny? Vocabulary.callees = some q := by
  have hkinds : ∀ c : Place, c.isOneOf Vocabulary.callees = true ↔ c.kind ∈ calleeKinds :=
    fun _ => List.contains_iff_mem
  rw [Place.childOfAny?, List.find?_eq_some_iff_append, IsFirstCallable, hkinds]
  refine and_congr_right fun _ => exists₂_congr fun before after => and_congr_right fun _ => ?_
  refine forall₂_congr fun c _ => ?_
  rw [Bool.not_eq_true', ← hkinds, Bool.not_eq_true]

theorem isCallee_iff {p q : Place} :
    IsCallee p q ↔
      (((p.field? "function").or (p.field? "method")).or (p.field? "name")).or
        (p.childOfAny? Vocabulary.callees) = some q := by
  rw [IsCallee, isFirstCallable_iff, Option.or_eq_some_iff, Option.or_eq_some_iff,
    Option.or_eq_some_iff]
  cases p.field? "function" <;> cases p.field? "method" <;> simp

theorem isNameIn_iff {text name : String} :
    IsNameIn text name ↔
      (let name' := if text.toList.any fun c => c == '(' || c == '\n' then
          Text.trim (Text.afterLast "." text) else text
        if name'.isEmpty then none else some name') = some name := by
  have hchain : (text.toList.any fun c => c == '(' || c == '\n') = true ↔
      '(' ∈ text.toList ∨ '\n' ∈ text.toList := by
    simp only [List.any_eq_true, Bool.or_eq_true, beq_iff_eq, and_or_left, exists_or,
      exists_eq_right]
  have hgiven : ∀ text' : String,
      (if text'.isEmpty then none else some text') = some name ↔ name ≠ "" ∧ name = text' := by
    intro text'
    rw [Option.ite_none_left_eq_some, Option.some_inj, String.isEmpty_iff]
    constructor
    · rintro ⟨hne, rfl⟩
      exact ⟨hne, rfl⟩
    · rintro ⟨hne, rfl⟩
      exact ⟨hne, rfl⟩
  refine Iff.trans (and_congr_right fun _ => ?_) (hgiven _).symm
  by_cases h : '(' ∈ text.toList ∨ '\n' ∈ text.toList
  · rw [if_pos h, if_pos (hchain.2 h)]
  · rw [if_neg h, if_neg (mt hchain.1 h)]

/-- The walk calls a place by the same names. -/
theorem called?_eq_some_iff {d : Document} {p : Place} {name : String} :
    called? d p = some name ↔ CallsByName d p name := by
  unfold called? CallsByName
  rw [Option.bind_eq_bind, Option.bind_eq_some_iff]
  exact exists_congr fun q => and_congr isCallee_iff.symm isNameIn_iff.symm

/-! ## The walk -/

/-- The calls of a file from the first level below the file itself to one level below the limit, in
preorder. -/
def callsIn (d : Document) (tree : Node) : List Place :=
  (Place.root tree).subtree.filter fun p =>
    p.isOneOf Vocabulary.calls && decide (0 < p.level ∧ p.level ≤ d.limits.genericDepth.toNat + 1)

/-- The use that a call is, without the scope that it stands in.  There is none where nothing, or
only the empty name, is called. -/
def callReference (d : Document) (p : Place) : Option Reference :=
  (called? d p).map fun name => d.reference .call name p none

theorem mem_callsIn_iff {d : Document} {tree : Node} {p : Place} :
    p ∈ callsIn d tree ↔ p ∈ (Place.root tree).subtree ∧ 0 < p.level ∧
      p.level ≤ d.limits.genericDepth.toNat + 1 ∧ p.kind ∈ callKinds := by
  have hkind : p.isOneOf Vocabulary.calls = true ↔ p.kind ∈ callKinds := List.contains_iff_mem
  rw [callsIn, List.mem_filter, Bool.and_eq_true, hkind, decide_eq_true_eq,
    ← and_assoc (a := 0 < p.level)]
  exact and_congr_right fun _ => and_comm

theorem isSome_callReference {d : Document} {p : Place} :
    (callReference d p).isSome = true ↔ ∃ name, CallsByName d p name := by
  rw [callReference, Option.isSome_map, Option.isSome_iff_exists]
  exact exists_congr fun _ => called?_eq_some_iff

/-- The use that a place is, if it is a call. -/
def useAsCall (d : Document) (p : Place) : Option Reference :=
  if p.isOneOf Vocabulary.calls then callReference d p else none

variable {d : Document} {language : String} {s : Scope} {p c : Place}

theorem ofKinds_call {scope : Option String} :
    Reference.ofKinds [.call] ((called? d p).map fun name => d.reference .call name p scope).toList =
      (callReference d p).toList :=
  Reference.ofKinds_map fun _ => rfl

theorem ofKinds_edges {uses : List Reference} (h : ∀ r ∈ uses, Rules.IsEdge d r) :
    Reference.ofKinds [.call] uses = [] := by
  have hkinds : ∀ kind ∈ Rules.edgeKinds, [ReferenceKind.call].contains kind = false := by decide
  exact Reference.ofKinds_eq_nil fun r hr => hkinds r.kind (h r hr).kind_mem

/-- The steps at a place that is no call hand out nothing but heritage, before they go on to what is
inside, one step deeper. -/
theorem exists_plainSteps_eq (language : String) (d : Document) (s : Scope)
    (hcall : c.isOneOf Vocabulary.calls = false) :
    ∃ uses s', childSteps (.ofLanguage language) d s c = Step.emitAll uses ++ [.visit s' c] ∧
      s'.depth = s.depth + 1 ∧ ∀ r ∈ uses, Rules.IsEdge d r := by
  have hblock : ∀ r ∈ ((Profile.ofLanguage language).blockHeritage? d c).toList,
      Rules.IsEdge d r :=
    forall_mem_toList Profile.isEdge_of_blockHeritage?
  rw [childSteps, hcall, if_neg Bool.false_ne_true]
  split
  · rename_i kind name _ _
    refine ⟨((Profile.ofLanguage language).blockHeritage? d c).toList ++
        if inherits kind then
          (Profile.ofLanguage language).heritage d kind (Text.qualify s.name name ".") c
        else [],
      s.enter (Text.qualify s.name name "."), ?_, rfl, List.forall_mem_append.2 ⟨hblock, ?_⟩⟩
    · rw [Step.emitAll, List.map_append, List.append_assoc]
      rfl
    · split
      · exact Profile.isEdge_of_mem_heritage
      · exact List.forall_mem_nil _
  · exact ⟨_, _, rfl, rfl, hblock⟩

/-- The steps at a place hand out its call, if it is one, and else none. -/
theorem exists_childSteps_eq (language : String) (d : Document) (s : Scope) (c : Place) :
    ∃ uses s', childSteps (.ofLanguage language) d s c = Step.emitAll uses ++ [.visit s' c] ∧
      s'.depth = s.depth + 1 ∧ Reference.ofKinds [.call] uses = (useAsCall d c).toList := by
  cases hcall : c.isOneOf Vocabulary.calls with
  | true =>
      rw [childSteps, useAsCall, hcall, if_pos rfl, if_pos rfl]
      exact ⟨_, _, rfl, rfl, ofKinds_call⟩
  | false =>
      obtain ⟨uses, s', hsteps, hdepth, hedges⟩ := exists_plainSteps_eq language d s hcall
      refine ⟨uses, s', hsteps, hdepth, ?_⟩
      rw [ofKinds_edges hedges, useAsCall, hcall]
      rfl

/-- What a walk reports of a child is its call, and then what it reports of the inside. -/
theorem exists_ofKinds_childSteps (language : String) (d : Document) (s : Scope) (c : Place) :
    ∃ s' : Scope, s'.depth = s.depth + 1 ∧
      Reference.ofKinds [.call] ((childSteps (.ofLanguage language) d s c).flatMap
          (Step.items (rule (.ofLanguage language) d).walk)) =
        (useAsCall d c).toList ++
          Reference.ofKinds [.call] ((rule (.ofLanguage language) d).walk s' c) := by
  obtain ⟨uses, s', hsteps, hdepth, huses⟩ := exists_childSteps_eq language d s c
  refine ⟨s', hdepth, ?_⟩
  rw [hsteps, List.flatMap_append, Step.emitAll, List.flatMap_map, List.flatMap_singleton,
    Reference.ofKinds_append, ← huses]
  refine congrArg₂ _ (congrArg _ ?_) rfl
  exact List.flatMap_pure_eq_map id uses ▸ List.map_id uses

/-- A walk that has so many levels left reports the calls on these levels, in preorder. -/
theorem ofKinds_walk {n : Nat} (hdepth : s.depth + n = d.limits.genericDepth.toNat + 1) :
    Reference.ofKinds [.call] ((rule (.ofLanguage language) d).walk s p) =
      (p.descendants n).filterMap (useAsCall d) := by
  have hdescends : (rule (.ofLanguage language) d).Descends :=
    (isScoped (.ofLanguage language) d fun _ => Profile.kind?_of_calls language).descends
  -- The walk stops at the depth that leaves no level.
  induction n generalizing s p with
  | zero =>
      have hdeep : s.depth > d.limits.genericDepth.toNat := by omega
      rw [Rule.walk_eq hdescends, rule, if_pos hdeep]
      rfl
  | succ n ih =>
      have hshallow : ¬ s.depth > d.limits.genericDepth.toNat := by omega
      rw [Rule.walk_eq hdescends, rule, if_neg hshallow, List.flatMap_assoc,
        Reference.ofKinds_flatMap, Place.descendants, List.filterMap_flatMap]
      refine List.flatMap_congr fun c _ => ?_
      obtain ⟨s', hdepth', hreports⟩ := exists_ofKinds_childSteps language d s c
      rw [hreports, ih (by omega)]
      cases hcall : useAsCall d c with
      | none => rw [List.filterMap_cons_none hcall]; rfl
      | some r => rw [List.filterMap_cons_some hcall]; rfl

theorem callsIn_eq (d : Document) (tree : Node) :
    callsIn d tree =
      ((Place.root tree).descendants (d.limits.genericDepth.toNat + 1)).filter fun p =>
        p.isOneOf Vocabulary.calls := by
  rw [Place.descendants_eq_filter_subtree, List.filter_filter]
  simp only [callsIn, Place.level, Nat.zero_add]

/-- The walk reports the calls that it comes to. -/
theorem ofKinds_references (language : String) (parse : Parser) (d : Document) (tree : Node) :
    Reference.ofKinds [.call]
        ((Extractor.profiled language).references parse d (some (.root tree))) =
      (callsIn d tree).filterMap (callReference d) := by
  have hwalk : (Extractor.profiled language).references parse d (some (.root tree)) =
      (rule (.ofLanguage language) d).walk {} (.root tree) := rfl
  have hstart : ({} : Scope).depth + (d.limits.genericDepth.toNat + 1) =
      d.limits.genericDepth.toNat + 1 := Nat.zero_add _
  rw [hwalk, ofKinds_walk hstart, callsIn_eq, List.filterMap_filter]
  rfl

/-- The calls that a walk reports, whatever the language, are those of a file that call something by
a name, each once and at its own line, in preorder from the first level below the file down to one
level below the limit. -/
theorem references_calls_preorder (language : String) (parse : Parser) (d : Document) (tree : Node) :
    ∃ places : List Place,
      (∀ p, p ∈ places ↔ p ∈ (Place.root tree).subtree ∧ 0 < p.level ∧
        p.level ≤ d.limits.genericDepth.toNat + 1 ∧ p.kind ∈ callKinds ∧
          ∃ name, CallsByName d p name) ∧
      (places.Pairwise fun p q => p.number < q.number) ∧
      List.Forall₂
        (fun p r => CallsByName d p r.targetName ∧
          r = d.reference .call r.targetName p r.sourceName)
        places
        (((Extractor.profiled language).references parse d (some (.root tree))).filter
          fun r => r.kind == .call) := by
  have hmap : (((Extractor.profiled language).references parse d (some (.root tree))).filter
      fun r => r.kind == .call).map Reference.unscoped =
        (callsIn d tree).filterMap (callReference d) := by
    rw [← ofKinds_references language parse d tree, Reference.ofKinds]
    refine congrArg _ (List.filter_congr fun r _ => ?_)
    exact (Bool.or_false _).symm
  refine ⟨_, fun p => ?_, ?_, (forall₂_of_map_eq_filterMap hmap).imp fun p r h => ?_⟩
  · rw [List.mem_filter, mem_callsIn_iff, isSome_callReference]
    simp only [and_assoc]
  · exact ((Place.pairwise_number_subtree _).filter _).filter _
  · obtain ⟨name, hname, heq⟩ := Option.map_eq_some_iff.1 h
    -- Nothing but the scope is left open.
    obtain ⟨source, target, kind, line, path⟩ := r
    cases heq
    exact ⟨called?_eq_some_iff.1 hname, rfl⟩

/-- A chain of two calls, and a call behind it. -/
def chainedCalls : Document :=
  { path := "a.js"
    bytes := Text.Utf8.encode "build(x).run();\nlog(y);\n".toList
    limits := {} }

def chainedCallsTree : Node :=
  .mk "program" true [] 0 24
    [.mk "expression_statement" true [] 0 15
      [.mk "call_expression" true [] 0 14
        [.mk "member_expression" true ["function"] 0 12
          [.mk "call_expression" true ["object"] 0 8
            [.leaf "identifier" ["function"] 0 5,
              .mk "arguments" true ["arguments"] 5 8
                [.token "(" 5 6, .leaf "identifier" [] 6 7, .token ")" 7 8]],
            .token "." 8 9, .leaf "property_identifier" ["property"] 9 12],
          .mk "arguments" true ["arguments"] 12 14 [.token "(" 12 13, .token ")" 13 14]],
        .token ";" 14 15],
      .mk "expression_statement" true [] 16 23
        [.mk "call_expression" true [] 16 22
          [.leaf "identifier" ["function"] 16 19,
            .mk "arguments" true ["arguments"] 19 22
              [.token "(" 19 20, .leaf "identifier" [] 20 21, .token ")" 21 22]],
          .token ";" 22 23]]

theorem chainedCalls_targets :
    let calls := ((Extractor.profiled "javascript").references (fun _ _ => none) chainedCalls
      (some (.root chainedCallsTree))).filter fun r => r.kind == .call
    calls.map (fun r => (r.targetName, r.line)) = [("run", 1), ("build", 1), ("log", 2)] ∧
      ∃ outer inner last : Place, outer.number < inner.number ∧ inner.number < last.number ∧
        CallsByName chainedCalls outer "run" ∧ CallsByName chainedCalls inner "build" ∧
          CallsByName chainedCalls last "log" ∧
            ∀ p ∈ (Place.root chainedCallsTree).subtree, 0 < p.level →
              p.level ≤ chainedCalls.limits.genericDepth.toNat + 1 → p.kind ∈ callKinds →
                (∃ name, CallsByName chainedCalls p name) → p ∈ [outer, inner, last] := by
  intro calls
  have htargets : calls.map (fun r => (r.targetName, r.line)) =
      [("run", 1), ("build", 1), ("log", 2)] := by
    decide +kernel
  refine ⟨htargets, ?_⟩
  obtain ⟨places, hmem, hordered, hcalls⟩ :=
    references_calls_preorder "javascript" (fun _ _ => none) chainedCalls chainedCallsTree
  -- Three uses stand for three places.
  obtain ⟨r₁, rest, hrest, h₁, htail⟩ := List.map_eq_cons_iff.1 htargets
  obtain ⟨r₂, rest, rfl, h₂, htail⟩ := List.map_eq_cons_iff.1 htail
  obtain ⟨r₃, rest, rfl, h₃, htail⟩ := List.map_eq_cons_iff.1 htail
  obtain rfl := List.map_eq_nil_iff.1 htail
  have hthree : List.Forall₂ _ places calls := hcalls
  rw [hrest] at hthree
  obtain ⟨outer, behind, houter, htwo, rfl⟩ := List.forall₂_cons_right_iff.1 hthree
  obtain ⟨inner, behind', hinner, hone, rfl⟩ := List.forall₂_cons_right_iff.1 htwo
  obtain ⟨last, behind'', hlast, hnone, rfl⟩ := List.forall₂_cons_right_iff.1 hone
  obtain rfl := List.forall₂_nil_right_iff.1 hnone
  simp only [Prod.mk.injEq] at h₁ h₂ h₃
  rw [h₁.1] at houter
  rw [h₂.1] at hinner
  rw [h₃.1] at hlast
  obtain ⟨hfirst, hsecond⟩ : outer.number < inner.number ∧ inner.number < last.number := by
    simp only [List.pairwise_cons, List.mem_cons, List.not_mem_nil, or_false, forall_eq_or_imp,
      forall_eq] at hordered
    exact ⟨hordered.1.1, hordered.2.1⟩
  exact ⟨outer, inner, last, hfirst, hsecond, houter.1, hinner.1, hlast.1,
    fun p hp hlow hhigh hkind hname => (hmem p).2 ⟨hp, hlow, hhigh, hkind, hname⟩⟩

end Uses.Profiled

end SourceIndex
