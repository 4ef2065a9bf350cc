import SourceIndex.Declarations.PHP
import SourceIndex.Proofs.Tree.Scoped
import SourceIndex.Uses.PHP

/-!
# Scopes in PHP

The walk for declarations knows the type and the namespace around a place apart, and the walk for
uses knows one scope.  A namespace without a body holds for the siblings after it in both, but in a
type the declarations do not heed it.  Where no such namespace stands in a type, the scope of the
uses is always the type around or else the namespace.  So the uses in a declaration are attributed
to the qualified name of its symbol, in whatever order namespaces with and without bodies come.

Of a namespace with a body but without a name, only the walk for uses looks into the body.  What is
declared there has no symbol.
-/

namespace SourceIndex

namespace Uses.PHP

open SourceIndex.Idiom.PHP

variable (d : Document) {s : Scope} {p c q : Place} {task : Task} {tree : Node}

/-- The kinds of places of which the walk for uses looks at some parts only. -/
def closedKinds : List String :=
  ["namespace_use_declaration", "use_declaration", "member_call_expression",
    "nullsafe_member_call_expression", "nullsafe_member_access_expression",
    "scoped_call_expression", "object_creation_expression", "function_call_expression"]

/-- The kinds of declarations that are scopes for the uses in them. -/
def scopeKinds : List String :=
  "method_declaration" :: "function_definition" :: typeKinds

/-- The kinds of places that the walk for uses does not look at in the usual way. -/
def dispatchedKinds : List String :=
  "namespace_definition" :: (closedKinds ++ scopeKinds)

/-! ## What holds for siblings -/

/-- Is a place a namespace without a body, which holds for the siblings after it? -/
def opensSpace (p : Place) : Bool :=
  p.kind == "namespace_definition" && (p.field? "body").isNone

/-- The namespace that holds after a sibling. -/
def spaceAfter (space : Option String) (p : Place) : Option String :=
  if opensSpace p then d.fieldText p "name" else space

theorem withSpace_eq (space : Option String) (places : List Place) :
    withSpace d space places = Place.carryOver (spaceAfter d) space places := by
  induction places generalizing space with
  | nil => rfl
  | cons c rest ih => exact congrArg ((space, c) :: ·) (ih _)

/-- The namespace that the siblings before a place open for it. -/
def spaceBefore (p : Place) : Option String :=
  p.carriedTo (spaceAfter d) none

/-! ## Where the walk goes -/

/-- The place into which the walk goes from a child that it looks at. -/
def inner? (p : Place) : Option Place :=
  if p.kind = "namespace_definition" then p.field? "body" else some p

/-- The scope in such a place, given that of the child. -/
def scopeFrom (above : Option String) (p : Place) : Option String :=
  if p.kind = "namespace_definition" then
    (d.fieldText p "name").or above
  else if scopeKinds.contains p.kind then
    ((d.fieldText p "name").map fun name => Text.qualify above name separator).or above
  else
    above

/-- Is a place a namespace below the root?  The walk passes it over and comes to its body at once.
-/
def isPassedOver (p : Place) : Bool :=
  p.parent?.isSome && p.kind == "namespace_definition"

/-- The scope in a place, given that in the place around it. -/
def ownScope (above : Option String) (p : Place) : Option String :=
  if p.parent?.any isPassedOver then above else scopeFrom d ((spaceBefore d p).or above) p

/-- What the walk does with a child in the scope of its parent. -/
def siblingSteps (s : Scope) (c : Place) : List (Step Task Reference) :=
  childSteps d { s with name := (spaceBefore d c).or s.name } c

theorem rule_inside : rule d (.inside s) p =
    if d.tooDeep s.depth then [] else p.children.flatMap (siblingSteps d s) := by
  rw [rule, withSpace_eq, Place.carryOver_children, List.flatMap_map]
  rfl

theorem mem_children_of_visit_argumentSteps (h : Step.visit task q ∈ argumentSteps s p) :
    q ∈ p.children :=
  Place.mem_children_of_field? (Step.mem_visit?.1 h).2

theorem mem_children_of_visit_memberCallSteps (h : Step.visit task q ∈ memberCallSteps d s p) :
    q ∈ p.children := by
  unfold memberCallSteps at h
  split at h
  · cases h
  rcases List.mem_cons.1 h with h | h
  · cases h
  rcases List.mem_append.1 h with h | h
  · obtain ⟨o, ho, heq⟩ := List.mem_map.1 h
    cases heq
    exact Place.mem_children_of_field? (Option.mem_toList.1 ho)
  · exact mem_children_of_visit_argumentSteps h

theorem mem_children_of_visit_scopedCallSteps (h : Step.visit task q ∈ scopedCallSteps d s p) :
    q ∈ p.children := by
  unfold scopedCallSteps at h
  split at h
  · cases h
  rcases List.mem_cons.1 h with h | h
  · cases h
  · exact mem_children_of_visit_argumentSteps h

theorem mem_children_of_visit_functionCallSteps
    (h : Step.visit task q ∈ functionCallSteps d s p) : q ∈ p.children := by
  unfold functionCallSteps at h
  split at h
  · cases h
  rcases List.mem_append.1 h with h | h
  · split at h
    · cases h
    · cases List.mem_singleton.1 h
  · exact mem_children_of_visit_argumentSteps h

theorem mem_children_of_visit_creationSteps (h : Step.visit task q ∈ creationSteps d s p) :
    q ∈ p.children := by
  rcases List.mem_append.1 h with h | h
  · exact absurd h (Step.visit_notMem_emit? _)
  · exact mem_children_of_visit_argumentSteps h

/-- Behind its own uses, a child of no closed kind leads into its entry and nowhere else. -/
theorem visit_childSteps_iff (hkind : c.kind ∉ closedKinds) :
    Step.visit task q ∈ childSteps d s c ↔
      inner? c = some q ∧ task = .inside ⟨scopeFrom d s.name c, s.depth + 1⟩ := by
  unfold childSteps
  split
  case h_1 hc | h_2 hc | h_3 hc | h_4 hc | h_5 hc | h_6 hc | h_7 hc | h_8 hc =>
    simp [closedKinds, hc] at hkind
  case h_9 hc =>
    rw [Step.mem_visit?, inner?, if_pos hc, scopeFrom, if_pos hc, and_comm]
    rfl
  case h_10 hc | h_11 hc =>
    simp [inner?, scopeFrom, scopeKinds, hc, Scope.enter?, and_comm, eq_comm]
  case h_12 hnamespace hmethod hfunction =>
    have hentry : inner? c = some c := if_neg hnamespace
    split
    case isTrue htype =>
      have hscope : scopeFrom d s.name c =
          ((d.fieldText c "name").map fun name => Text.qualify s.name name separator).or s.name := by
        rw [scopeFrom, if_neg hnamespace, if_pos]
        simp [scopeKinds, List.contains_iff_mem.1 htype]
      rw [hentry, hscope]
      simp only [List.mem_append, Step.visit_notMem_emitAll, false_or, List.mem_singleton,
        Step.visit.injEq, Option.some_inj]
      rw [and_comm, eq_comm (a := c)]
      rfl
    case isFalse htype =>
      have hscope : scopeFrom d s.name c = s.name := by
        rw [scopeFrom, if_neg hnamespace, if_neg]
        rw [List.contains_iff_mem, scopeKinds, List.mem_cons, List.mem_cons]
        rintro (hc | hc | hc)
        · exact hmethod hc
        · exact hfunction hc
        · exact htype (List.contains_iff_mem.2 hc)
      rw [hentry, hscope, List.mem_singleton, Step.visit.injEq, Option.some_inj, and_comm,
        eq_comm (a := c)]
      rfl

theorem mem_subtree_of_inner? (h : inner? c = some q) : q ∈ c.subtree := by
  unfold inner? at h
  split at h
  · exact Place.mem_subtree_of_child (Place.mem_children_of_field? h)
  · cases h
    exact Place.self_mem_subtree c

theorem mem_subtree_of_visit_childSteps (h : Step.visit task q ∈ childSteps d s c) :
    q ∈ c.subtree := by
  have hchild : q ∈ c.children → q ∈ c.subtree := Place.mem_subtree_of_child
  by_cases hkind : c.kind ∈ closedKinds
  · simp only [closedKinds, List.mem_cons, List.not_mem_nil, or_false] at hkind
    rcases hkind with hkind | hkind | hkind | hkind | hkind | hkind | hkind | hkind <;>
      simp only [childSteps, hkind] at h
    · exact absurd h (Step.visit_notMem_emitAll _)
    · exact absurd h (Step.visit_notMem_emitAll _)
    · exact hchild (mem_children_of_visit_memberCallSteps d h)
    · exact hchild (mem_children_of_visit_memberCallSteps d h)
    · exact hchild (mem_children_of_visit_memberCallSteps d h)
    · exact hchild (mem_children_of_visit_scopedCallSteps d h)
    · exact hchild (mem_children_of_visit_creationSteps d h)
    · exact hchild (mem_children_of_visit_functionCallSteps d h)
  · exact mem_subtree_of_inner? ((visit_childSteps_iff d hkind).1 h).1

theorem exists_of_visit_inside (h : Step.visit task q ∈ rule d (.inside s) p) :
    s.depth ≤ d.limits.walkDepth.toNat ∧
      ∃ c ∈ p.children, Step.visit task q ∈ siblingSteps d s c := by
  rw [rule_inside] at h
  split at h
  · cases h
  · rename_i hdepth
    rw [Document.tooDeep, decide_eq_true_eq] at hdepth
    exact ⟨by omega, List.mem_flatMap.1 h⟩

theorem exists_child_of_visit_rule {task' : Task} (h : Step.visit task' q ∈ rule d task p) :
    ∃ c ∈ p.children, q ∈ c.subtree := by
  have hcall : q ∈ p.children → ∃ c ∈ p.children, q ∈ c.subtree :=
    fun hq => ⟨q, hq, Place.self_mem_subtree q⟩
  cases task with
  | inside s =>
      obtain ⟨-, c, hc, hstep⟩ := exists_of_visit_inside d h
      exact ⟨c, hc, mem_subtree_of_visit_childSteps d hstep⟩
  | memberCall s => exact hcall (mem_children_of_visit_memberCallSteps d h)
  | scopedCall s => exact hcall (mem_children_of_visit_scopedCallSteps d h)
  | functionCall s => exact hcall (mem_children_of_visit_functionCallSteps d h)

theorem rule_descends : (rule d).Descends := by
  intro task task' p q h
  obtain ⟨c, hc, hq⟩ := exists_child_of_visit_rule d h
  exact Nat.lt_of_le_of_lt (Place.height_le_of_mem_subtree hq) (Place.height_lt_of_mem_children hc)

/-! ## The scope that it carries -/

/-- No type has a namespace for siblings in it, such namespaces have names, and the walk for uses
looks at the bodies of namespaces and types in the usual way. -/
structure IsRegular (tree : Node) : Prop where
  named : ∀ p ∈ (Place.root tree).subtree, opensSpace p = true → (d.fieldText p "name").isSome
  /-- Not only the body of a type is meant: in the walk for uses a namespace beside the body would
  hold for the body as for any sibling after it, and the declarations would not heed it.  The
  grammar has no namespace there. -/
  parts : ∀ p ∈ (Place.root tree).subtree, p.kind ∈ typeKinds →
    ∀ c ∈ p.children, opensSpace c = false
  members : ∀ p ∈ (Place.root tree).subtree, p.kind ∈ typeKinds →
    ∀ b ∈ p.field? "body", ∀ q ∈ b.subtree, opensSpace q = false
  bodies : ∀ p ∈ (Place.root tree).subtree, p.kind ∈ "namespace_definition" :: typeKinds →
    ∀ b ∈ p.field? "body", b.kind ∉ dispatchedKinds

variable {d}

theorem scopeBy_of_inner? (hc : c ∈ p.children) (hp : isPassedOver p = false)
    (hq : inner? c = some q) :
    q.scopeBy (ownScope d) = scopeFrom d ((spaceBefore d c).or (p.scopeBy (ownScope d))) c := by
  have hscope : c.scopeBy (ownScope d) =
      scopeFrom d ((spaceBefore d c).or (p.scopeBy (ownScope d))) c := by
    rw [Place.scopeBy_of_mem_children hc, ownScope, Place.parent?_of_mem_children hc,
      Option.any_some, hp]
    rfl
  unfold inner? at hq
  split at hq
  · rename_i hkind
    have hqc := Place.mem_children_of_field? hq
    have hover : isPassedOver c = true := by
      simp [isPassedOver, Place.parent?_of_mem_children hc, hkind]
    rw [Place.scopeBy_of_mem_children hqc, ownScope, Place.parent?_of_mem_children hqc,
      Option.any_some, hover, if_pos rfl, hscope]
  · cases hq
    exact hscope

theorem isPassedOver_of_inner? (h : IsRegular d tree) (hc : c ∈ (Place.root tree).subtree)
    (hq : inner? c = some q) : isPassedOver q = false := by
  unfold inner? at hq
  split at hq
  · rename_i hkind
    have hbody := h.bodies c hc (hkind ▸ List.mem_cons_self) q hq
    have hne : q.kind ≠ "namespace_definition" := fun heq => hbody (heq ▸ List.mem_cons_self)
    simp [isPassedOver, hne]
  · cases hq
    simp [isPassedOver, *]

/-- At every place on a way that avoids the closed kinds, the scope is the one that the way tells.
-/
theorem inside_of_mem_visits (h : IsRegular d tree) {v : Task × Place}
    (hv : v ∈ (rule d).visits (.inside {}) (.root tree)) (havoids : v.2.avoids closedKinds = true) :
    ∃ n, v.1 = .inside ⟨v.2.scopeBy (ownScope d), n⟩ := by
  suffices hall : v.2 ∈ (Place.root tree).subtree ∧ (v.2.avoids closedKinds = true →
      isPassedOver v.2 = false ∧ ∃ n, v.1 = .inside ⟨v.2.scopeBy (ownScope d), n⟩) from
    (hall.2 havoids).2
  refine Rule.forall_mem_visits (rule_descends d) (P := fun task p =>
    p ∈ (Place.root tree).subtree ∧ (p.avoids closedKinds = true →
      isPassedOver p = false ∧ ∃ n, task = .inside ⟨p.scopeBy (ownScope d), n⟩)) ?_ ?_ v hv
  · rintro task task' p q ⟨hpTree, hp⟩ hstep
    obtain ⟨c, hc, hqc⟩ := exists_child_of_visit_rule d hstep
    refine ⟨Place.mem_subtree_trans (Place.mem_subtree_of_mem_children hpTree hc) hqc,
      fun hq => ?_⟩
    have hcAvoids := Place.avoids_of_mem_subtree hqc hq
    -- The place before is on the way as well, so its task is one for what stands inside.
    obtain ⟨hover, n, rfl⟩ := hp ((Place.avoids_of_mem_children hc).1 hcAvoids).1
    obtain ⟨-, c, hc, hstep⟩ := exists_of_visit_inside d hstep
    have hcTree := Place.mem_subtree_of_mem_children hpTree hc
    have hcAvoids := Place.avoids_of_mem_subtree (mem_subtree_of_visit_childSteps d hstep) hq
    have hkind := ((Place.avoids_of_mem_children hc).1 hcAvoids).2
    obtain ⟨hentry, rfl⟩ := (visit_childSteps_iff d hkind).1 hstep
    exact ⟨isPassedOver_of_inner? h hcTree hentry, n + 1, by
      rw [scopeBy_of_inner? hc hover hentry]⟩
  · exact ⟨Place.self_mem_subtree _, fun _ => ⟨rfl, 0, rfl⟩⟩

/-- A place on a way that avoids the closed kinds, to which the walk comes if it is not too deep. -/
structure IsReached (d : Document) (tree : Node) (p : Place) : Prop where
  ofTree : p ∈ (Place.root tree).subtree
  avoids : p.avoids closedKinds = true
  notPassedOver : isPassedOver p = false
  visited : p.level ≤ d.limits.walkDepth.toNat + 1 → ∃ n ≤ p.level,
    (Task.inside ⟨p.scopeBy (ownScope d), n⟩, p) ∈ (rule d).visits (.inside {}) (.root tree)

theorem isReached_root : IsReached d tree (.root tree) where
  ofTree := Place.self_mem_subtree _
  avoids := rfl
  notPassedOver := rfl
  visited := fun _ => ⟨0, Nat.le_refl _, Rule.self_mem_visits (rule_descends d) _ _⟩

theorem IsReached.entry (h : IsRegular d tree) (hp : IsReached d tree p) (hc : c ∈ p.children)
    (hkind : c.kind ∉ closedKinds) (hq : inner? c = some q) : IsReached d tree q := by
  have hcTree := Place.mem_subtree_of_mem_children hp.ofTree hc
  have hcAvoids := (Place.avoids_of_mem_children hc).2 ⟨hp.avoids, hkind⟩
  have hlevel : p.level < q.level ∧ q.avoids closedKinds = true := by
    have hcLevel := Place.level_of_mem_children hc
    unfold inner? at hq
    split at hq
    · rename_i hnamespace
      have hqc := Place.mem_children_of_field? hq
      have hqLevel := Place.level_of_mem_children hqc
      have hbody := h.bodies c hcTree (hnamespace ▸ List.mem_cons_self) q hq
      refine ⟨by omega, (Place.avoids_of_mem_children hqc).2 ⟨hcAvoids, fun hclosed => hbody ?_⟩⟩
      exact List.mem_cons_of_mem _ (List.mem_append_left _ hclosed)
    · cases hq
      exact ⟨by omega, hcAvoids⟩
  refine ⟨Place.mem_subtree_trans hcTree (mem_subtree_of_inner? hq), hlevel.2,
    isPassedOver_of_inner? h hcTree hq, fun hdeep => ?_⟩
  obtain ⟨n, hn, hvisit⟩ := hp.visited (by omega)
  refine ⟨n + 1, by omega, Rule.mem_visits_of_visit (rule_descends d) hvisit ?_⟩
  have hdepth : ¬ d.tooDeep n = true := by
    rw [Document.tooDeep, decide_eq_true_eq]
    omega
  rw [rule_inside, if_neg hdepth, scopeBy_of_inner? hc hp.notPassedOver hq]
  exact List.mem_flatMap.2 ⟨c, hc, (visit_childSteps_iff d hkind).2 ⟨hq, rfl⟩⟩

/-- Into a place that it can come to, the walk carries one scope. -/
theorem IsReached.carries (h : IsRegular d tree) (hp : IsReached d tree p) :
    (∀ scope, (rule d).Carries .inside (.root tree) p scope → scope = p.scopeBy (ownScope d)) ∧
      (p.level ≤ d.limits.walkDepth.toNat + 1 →
        (rule d).Carries .inside (.root tree) p (p.scopeBy (ownScope d))) := by
  constructor
  · rintro scope ⟨s, rfl, hs⟩
    obtain ⟨n, heq⟩ := inside_of_mem_visits h hs hp.avoids
    exact congrArg Scope.name (Task.inside.inj heq)
  · intro hlevel
    obtain ⟨n, -, hvisit⟩ := hp.visited hlevel
    exact ⟨_, rfl, hvisit⟩

/-- A place that is looked at in the usual way has the scope of the place around it. -/
theorem scopeFrom_of_notMem (h : p.kind ∉ dispatchedKinds) :
    inner? p = some p ∧ ∀ above, scopeFrom d above p = above := by
  rw [dispatchedKinds, List.mem_cons, List.mem_append, not_or, not_or] at h
  refine ⟨if_neg h.1, fun above => ?_⟩
  rw [scopeFrom, if_neg h.1, if_neg (fun hkind => h.2.2 (List.contains_iff_mem.1 hkind))]

/-- In a declaration with a name, the scope is the name behind the scope around it. -/
theorem scopeFrom_of_named {above : Option String} {name : String} (h : p.kind ∈ scopeKinds)
    (hname : d.fieldText p "name" = some name) :
    inner? p = some p ∧ scopeFrom d above p = some (Text.qualify above name separator) := by
  have hne : p.kind ≠ "namespace_definition" := by
    have hapart : ∀ k ∈ scopeKinds, k ≠ "namespace_definition" := by decide
    exact hapart _ h
  refine ⟨if_neg hne, ?_⟩
  rw [scopeFrom, if_neg hne, if_pos (List.contains_iff_mem.2 h), hname]
  rfl

end Uses.PHP

namespace Declarations.PHP

open SourceIndex.Idiom.PHP
open SourceIndex.Uses.PHP (closedKinds scopeKinds typeKinds dispatchedKinds opensSpace spaceBefore
  inner? scopeFrom ownScope IsRegular IsReached isReached_root scopeBy_of_inner?
  scopeFrom_of_notMem scopeFrom_of_named)

variable (d : Document)

/-- The namespace that holds after a sibling. -/
def spaceAfter (space : Option String) (p : Place) : Option String :=
  if opensSpace p then (d.fieldText p "name").or space else space

/-- The setting of a child, after the namespaces that the siblings before it open. -/
def settingOf (s : Setting) (c : Place) : Setting :=
  { s with space := c.carriedTo (spaceAfter d) s.space }

/-- What the walk takes up at a place: its children, each in its setting. -/
def entries (s : Setting) (p : Place) : List (Setting × Place) :=
  if d.tooDeep s.depth then [] else p.children.map fun c => (settingOf d s c, c)

/-- The declarations of a file that are scopes for the uses in them, each with its symbol. -/
def scopes (root : Place) : List (Place × Symbol) :=
  (rule d).firsts (entries d) (childSteps d) scopeKinds {} root

variable {s s' : Setting} {p c q : Place} {tree : Node} {y : Symbol}

theorem withSpace_eq (space : Option String) (places : List Place) :
    withSpace d space places = Place.carryOver (spaceAfter d) space places := by
  induction places generalizing space with
  | nil => rfl
  | cons c rest ih => exact congrArg ((space, c) :: ·) (ih _)

theorem mem_entries : (s', c) ∈ entries d s p ↔
    ¬ d.tooDeep s.depth = true ∧ c ∈ p.children ∧ s' = settingOf d s c := by
  unfold entries
  split
  · simp [*]
  · simp [*, and_comm, eq_comm]

theorem rule_eq_entries : rule d s p = (entries d s p).flatMap fun e => childSteps d e.1 e.2 := by
  rw [rule, entries]
  split
  · rfl
  · rw [withSpace_eq, Place.carryOver_children, List.flatMap_map, List.flatMap_map]
    rfl

/-! ## The walk through namespaces and types -/

/-- The walk goes from a namespace or a type into its body, and into lists of declarations. -/
theorem visit_childSteps (h : Step.visit s' q ∈ childSteps d s c) :
    (c.kind = "namespace_definition" ∧ c.field? "body" = some q ∧ ∃ name,
      d.fieldText c "name" = some name ∧ s' = ⟨none, some name, s.depth + 1⟩) ∨
    (c.kind ∈ typeKinds ∧ c.field? "body" = some q ∧ ∃ name, d.fieldText c "name" = some name ∧
      s' = ⟨some (s.qualify name), s.space, s.depth + 1⟩) ∨
    (c.kind ∈ ["declaration_list", "compound_statement"] ∧ q = c ∧
      s' = { s with depth := s.depth + 1 }) := by
  have htype : ∀ kind keyword, c.kind ∈ typeKinds →
      Step.visit s' q ∈ typeSteps d s kind keyword c → c.kind ∈ typeKinds ∧
        c.field? "body" = some q ∧ ∃ name, d.fieldText c "name" = some name ∧
          s' = ⟨some (s.qualify name), s.space, s.depth + 1⟩ := by
    intro kind keyword hkind h
    unfold typeSteps at h
    split at h
    · cases h
    rename_i name hname
    rcases List.mem_cons.1 h with h | h
    · cases h
    rcases List.mem_append.1 h with h | h
    · obtain ⟨rfl, hq⟩ := Step.mem_visit?.1 h
      exact ⟨hkind, hq, name, hname, rfl⟩
    · exact absurd h (Step.visit_notMem_emitAll _)
  unfold childSteps at h
  split at h
  case h_1 hc =>
    unfold namespaceSteps at h
    split at h
    · cases h
    rename_i name hname
    rcases List.mem_cons.1 h with h | h
    · cases h
    · obtain ⟨rfl, hq⟩ := Step.mem_visit?.1 h
      exact Or.inl ⟨hc, hq, name, hname, rfl⟩
  case h_2 hc | h_3 hc | h_4 hc =>
    exact Or.inr (Or.inl (htype _ _ (by simp [typeKinds, hc]) h))
  case h_5 hc =>
    unfold enumSteps at h
    split at h
    · cases h
    rename_i name hname
    rcases List.mem_cons.1 h with h | h
    · cases h
    rcases List.mem_append.1 h with h | h
    · exact absurd h (Step.visit_notMem_emitAll _)
    · obtain ⟨rfl, hq⟩ := Step.mem_visit?.1 h
      exact Or.inr (Or.inl ⟨by simp [typeKinds, hc], hq, name, hname, rfl⟩)
  case h_6 | h_7 => exact absurd h (Step.visit_notMem_emit? _)
  case h_8 | h_9 => exact absurd h (Step.visit_notMem_emitAll _)
  case h_10 hc | h_11 hc =>
    cases List.mem_singleton.1 h
    exact Or.inr (Or.inr ⟨by simp [hc], rfl, rfl⟩)
  case h_12 => cases h

theorem exists_child_of_visit_rule (h : Step.visit s' q ∈ rule d s p) :
    ∃ c ∈ p.children, Step.visit s' q ∈ childSteps d (settingOf d s c) c := by
  rw [rule_eq_entries] at h
  obtain ⟨⟨t, c⟩, he, hstep⟩ := List.mem_flatMap.1 h
  obtain ⟨-, hc, rfl⟩ := (mem_entries d).1 he
  exact ⟨c, hc, hstep⟩

theorem rule_descends : (rule d).Descends := by
  intro s s' p q h
  obtain ⟨c, hc, hstep⟩ := exists_child_of_visit_rule d h
  have hlt := Place.height_lt_of_mem_children hc
  obtain ⟨-, hq, -⟩ | ⟨-, hq, -⟩ | ⟨-, rfl, -⟩ := visit_childSteps d hstep
  · exact Nat.lt_trans (Place.height_lt_of_mem_children (Place.mem_children_of_field? hq)) hlt
  · exact Nat.lt_trans (Place.height_lt_of_mem_children (Place.mem_children_of_field? hq)) hlt
  · exact hlt

/-- A place to which the walk comes: the scope of the uses there is the type around or else the
namespace, and with a type around no namespace opens. -/
structure IsOpen (tree : Node) (s : Setting) (p : Place) : Prop extends IsReached d tree p where
  scope : p.scopeBy (ownScope d) = s.owner.or s.space
  plain : s.owner.isSome → ∀ q ∈ p.subtree, opensSpace q = false

variable {d}

/-- With the namespace that holds for a child, too, the scope is the type around or else the
namespace. -/
theorem IsOpen.spaceBefore (h : IsRegular d tree) (hp : IsOpen d tree s p) (hc : c ∈ p.children) :
    (spaceBefore d c).or (p.scopeBy (ownScope d)) =
      (settingOf d s c).owner.or (settingOf d s c).space := by
  rw [hp.scope]
  cases howner : s.owner with
  | none =>
      -- Outside types both walks change the namespace at the same siblings.
      have hrel : c.carriedTo (spaceAfter d) s.space = (Uses.PHP.spaceBefore d c).or s.space := by
        refine Place.carriedTo_rel (R := fun v w : Option String => v = w.or s.space) rfl
          (fun b hb v w hv => ?_) hc
        rw [spaceAfter, Uses.PHP.spaceAfter]
        split
        · rename_i hopens
          have hname := h.named b (Place.mem_subtree_of_mem_children hp.ofTree hb) hopens
          obtain ⟨name, hname⟩ := Option.isSome_iff_exists.1 hname
          rw [hname, Option.some_or, Option.some_or]
        · exact hv
      simp [settingOf, howner, hrel]
  | some owner =>
      have hnone : Uses.PHP.spaceBefore d c = none := by
        refine Place.carriedTo_of_forall (fun b hb v => ?_) hc
        have hplain := hp.plain (by rw [howner]; rfl) b (Place.mem_subtree_of_child hb)
        simp [Uses.PHP.spaceAfter, hplain]
      simp [settingOf, howner, hnone]

/-- The scope in a declaration with a name is the name in the setting of the declaration. -/
theorem IsOpen.scopeBy_of_named (h : IsRegular d tree) (hp : IsOpen d tree s p)
    (hc : c ∈ p.children) {name : String} (hkind : c.kind ∈ scopeKinds)
    (hname : d.fieldText c "name" = some name) :
    IsReached d tree c ∧ c.scopeBy (ownScope d) = some ((settingOf d s c).qualify name) := by
  have hopen : c.kind ∉ closedKinds := by
    have hapart : ∀ k ∈ scopeKinds, k ∉ closedKinds := by decide
    exact hapart _ hkind
  obtain ⟨hentry, hscope⟩ := scopeFrom_of_named hkind hname
  refine ⟨hp.entry h hc hopen hentry, ?_⟩
  rw [scopeBy_of_inner? hc hp.notPassedOver hentry, hp.spaceBefore h hc, hscope]
  rfl

theorem IsOpen.visit (h : IsRegular d tree) (hp : IsOpen d tree s p) (hc : c ∈ p.children)
    (hstep : Step.visit s' q ∈ childSteps d (settingOf d s c) c) : IsOpen d tree s' q := by
  have hcTree := Place.mem_subtree_of_mem_children hp.ofTree hc
  obtain ⟨hkind, hq, name, hname, rfl⟩ | ⟨hkind, hq, name, hname, rfl⟩ | ⟨hkind, rfl, rfl⟩ :=
    visit_childSteps d hstep
  -- The body of a namespace has no type around it.
  · have hentry : inner? c = some q := by rw [inner?, if_pos hkind, hq]
    have hopen : c.kind ∉ closedKinds := by rw [hkind]; decide
    refine ⟨hp.entry h hc hopen hentry, ?_, fun howner => by cases howner⟩
    rw [scopeBy_of_inner? hc hp.notPassedOver hentry, scopeFrom, if_pos hkind, hname]
    rfl
  -- The body of a type is in the type itself, whatever namespace holds around the type.
  · have hscopeKind : c.kind ∈ scopeKinds :=
      List.mem_cons_of_mem _ (List.mem_cons_of_mem _ hkind)
    obtain ⟨hreached, hscope⟩ := hp.scopeBy_of_named h hc hscopeKind hname
    have hqc := Place.mem_children_of_field? hq
    have hbody := h.bodies c hcTree (List.mem_cons_of_mem _ hkind) q hq
    obtain ⟨hentry, hfrom⟩ := scopeFrom_of_notMem (d := d) hbody
    have hopen : q.kind ∉ closedKinds := fun hclosed =>
      hbody (List.mem_cons_of_mem _ (List.mem_append_left _ hclosed))
    have hnone : Uses.PHP.spaceBefore d q = none := by
      refine Place.carriedTo_of_forall (fun b hb v => ?_) hqc
      simp [Uses.PHP.spaceAfter, h.parts c hcTree hkind b hb]
    refine ⟨hreached.entry h hqc hopen hentry, ?_, fun _ => h.members c hcTree hkind q hq⟩
    rw [scopeBy_of_inner? hqc hreached.notPassedOver hentry, hfrom, hnone, hscope]
    rfl
  -- A list of declarations is in the setting of the place around it.
  · have hplain : q.kind ∉ dispatchedKinds := by
      have hapart : ∀ k ∈ ["declaration_list", "compound_statement"], k ∉ dispatchedKinds := by
        decide
      exact hapart _ hkind
    obtain ⟨hentry, hfrom⟩ := scopeFrom_of_notMem (d := d) hplain
    have hopen : q.kind ∉ closedKinds := fun hclosed =>
      hplain (List.mem_cons_of_mem _ (List.mem_append_left _ hclosed))
    refine ⟨hp.entry h hc hopen hentry, ?_, fun howner r hr => ?_⟩
    · rw [scopeBy_of_inner? hc hp.notPassedOver hentry, hfrom, hp.spaceBefore h hc]
    · have hqp := Place.mem_subtree_of_child hc
      exact hp.plain howner r (Place.mem_subtree_trans hqp hr)

theorem isOpen_of_mem_visits (h : IsRegular d tree) {v : Setting × Place}
    (hv : v ∈ (rule d).visits {} (.root tree)) : IsOpen d tree v.1 v.2 := by
  refine Rule.forall_mem_visits (rule_descends d) ?_
    ⟨isReached_root, rfl, fun howner => by cases howner⟩ v hv
  intro s s' p q hp hstep
  obtain ⟨c, hc, hstep⟩ := exists_child_of_visit_rule d hstep
  exact hp.visit h hc hstep

/-! ## The symbols of scopes -/

/-- The kinds of the symbols of scopes. -/
def symbolKinds : List SymbolKind :=
  [.class, .interface, .trait, .enum, .function, .method, .constructor]

/-- A symbol of a scope has the name of the declaration in its setting. -/
theorem exists_name (hkind : c.kind ∈ scopeKinds)
    (hy : Step.first? (childSteps d s c) = some y) :
    ∃ name, d.fieldText c "name" = some name ∧ y.qualifiedName = s.qualify name := by
  have htype : ∀ kind keyword, Step.first? (typeSteps d s kind keyword c) = some y →
      ∃ name, d.fieldText c "name" = some name ∧ y.qualifiedName = s.qualify name := by
    intro kind keyword hy
    unfold typeSteps at hy
    split at hy
    · cases hy
    · rename_i name hname
      cases hy
      exact ⟨name, hname, rfl⟩
  unfold childSteps at hy
  split at hy
  case h_2 | h_3 | h_4 => exact htype _ _ hy
  case h_5 =>
    unfold enumSteps at hy
    split at hy
    · cases hy
    · rename_i name hname
      cases hy
      exact ⟨name, hname, rfl⟩
  case h_6 | h_7 =>
    rw [Step.first?_emit?] at hy
    obtain ⟨name, hname, rfl⟩ := Option.map_eq_some_iff.1 hy
    exact ⟨name, hname, rfl⟩
  case h_12 => cases hy
  all_goals simp [scopeKinds, typeKinds, *] at hkind

theorem emit_mem_typeSteps {kind : SymbolKind} {keyword : String} (hkind : kind ∈ symbolKinds) :
    Step.emit y ∈ typeSteps d s kind keyword c ∧ y.kind ∈ symbolKinds ↔
      Step.first? (typeSteps d s kind keyword c) = some y := by
  unfold typeSteps
  cases d.fieldText c "name" with
  | none => simp [Step.first?]
  | some name =>
      simp only [List.mem_cons, Step.emit.injEq, List.mem_append, Step.emit_notMem_visit?, false_or,
        Step.emit_mem_emitAll, Step.first?, Option.some.injEq]
      constructor
      · rintro ⟨rfl | hmem, hy⟩
        · rfl
        · cases hb : c.field? "body" with
          | none => simp [hb] at hmem
          | some b =>
              simp only [hb, Option.map_some, Option.getD_some, promotedProperties] at hmem
              obtain ⟨parameters, -, hmem⟩ := List.mem_flatMap.1 hmem
              obtain ⟨parameter, -, hmem⟩ := List.mem_filterMap.1 hmem
              obtain ⟨modifier, -, hmem⟩ := Option.bind_eq_some_iff.1 hmem
              obtain ⟨sigil, -, hmem⟩ := Option.bind_eq_some_iff.1 hmem
              cases hmem
              simp [symbolKinds] at hy
      · rintro rfl
        exact ⟨Or.inl rfl, hkind⟩

theorem emit_mem_enumSteps :
    Step.emit y ∈ enumSteps d s c ∧ y.kind ∈ symbolKinds ↔
      Step.first? (enumSteps d s c) = some y := by
  unfold enumSteps
  cases d.fieldText c "name" with
  | none => simp [Step.first?]
  | some name =>
      simp only [List.mem_cons, Step.emit.injEq, List.mem_append, Step.emit_notMem_visit?, or_false,
        Step.emit_mem_emitAll, Step.first?, Option.some.injEq]
      constructor
      · rintro ⟨rfl | hmem, hy⟩
        · rfl
        · obtain ⟨m, -, hmem⟩ := List.mem_filterMap.1 hmem
          obtain ⟨constant, -, rfl⟩ := Option.map_eq_some_iff.1 hmem
          simp [symbolKinds] at hy
      · rintro rfl
        exact ⟨Or.inl rfl, by simp [symbol, symbolKinds]⟩

/-- The steps for a place hand out a symbol of such a kind exactly if the place is a scope, and then
they hand it out first. -/
theorem emit_mem_childSteps :
    Step.emit y ∈ childSteps d s c ∧ y.kind ∈ symbolKinds ↔
      c.kind ∈ scopeKinds ∧ Step.first? (childSteps d s c) = some y := by
  unfold childSteps
  split
  case h_1 hc =>
    refine iff_of_false (fun h => ?_) fun h => by simp [scopeKinds, typeKinds, hc] at h
    obtain ⟨hmem, hy⟩ := h
    unfold namespaceSteps at hmem
    split at hmem
    · cases hmem
    · simp only [List.mem_cons, Step.emit.injEq, Step.emit_notMem_visit?, or_false] at hmem
      cases hmem
      simp [symbolKinds] at hy
  case h_2 hc | h_3 hc | h_4 hc =>
    rw [emit_mem_typeSteps (by decide), hc]
    simp [scopeKinds, typeKinds]
  case h_5 hc =>
    rw [emit_mem_enumSteps, hc]
    simp [scopeKinds, typeKinds]
  case h_6 hc | h_7 hc =>
    rw [Step.emit_mem_emit?, Step.first?_emit?, hc]
    refine and_comm.trans (and_congr_left fun h => ?_)
    obtain ⟨name, -, rfl⟩ := Option.map_eq_some_iff.1 h
    refine iff_of_true ?_ (by simp [scopeKinds])
    simp only [symbol, Document.symbol_kind]
    repeat' split
    all_goals decide
  case h_8 hc | h_9 hc =>
    refine iff_of_false (fun h => ?_) fun h => by simp [scopeKinds, typeKinds, hc] at h
    obtain ⟨hmem, hy⟩ := h
    obtain ⟨element, -, hmem⟩ := List.mem_filterMap.1 (Step.emit_mem_emitAll.1 hmem)
    obtain ⟨name, -, hmem⟩ := Option.bind_eq_some_iff.1 hmem
    cases hmem
    simp [symbolKinds] at hy
  case h_10 hc | h_11 hc =>
    simp [scopeKinds, typeKinds, hc]
  case h_12 => simp [Step.first?]

/-- The scopes have just the symbols of a file that are of these kinds. -/
theorem exists_mem_scopes_iff {root : Place} :
    (∃ c, (c, y) ∈ scopes d root) ↔ y ∈ symbols d root ∧ y.kind ∈ symbolKinds :=
  Rule.exists_mem_firsts_iff (P := fun y => y.kind ∈ symbolKinds) (rule_descends d)
    (fun _ _ => rule_eq_entries d) fun _ _ => emit_mem_childSteps

variable (d)

variable {d} {n b : Place}

/-- A declaration with a name has a symbol of that name wherever the walk takes it up. -/
theorem exists_first? {name : String} (hkind : c.kind ∈ scopeKinds)
    (hname : d.fieldText c "name" = some name) :
    ∃ y, Step.first? (childSteps d s c) = some y ∧ y.name = name := by
  simp only [scopeKinds, typeKinds, List.mem_cons, List.not_mem_nil, or_false] at hkind
  rcases hkind with hkind | hkind | hkind | hkind | hkind | hkind <;>
    simp only [childSteps, hkind, typeSteps, enumSteps, function?, method?, hname] <;>
    exact ⟨_, rfl, rfl⟩

/-- A place that is not where the walk starts it comes to from a place above. -/
theorem exists_step_of_mem_visits (hne : q ≠ .root tree)
    (hv : (s, q) ∈ (rule d).visits {} (.root tree)) :
    ∃ s' p, (s', p) ∈ (rule d).visits {} (.root tree) ∧ ∃ c ∈ p.children,
      Step.visit s q ∈ childSteps d (settingOf d s' c) c := by
  obtain heq | ⟨⟨s', p⟩, hp, hstep⟩ := Rule.eq_or_exists_visit (rule_descends d) hv
  · exact absurd (congrArg Prod.snd heq) hne
  · exact ⟨s', p, hp, exists_child_of_visit_rule d hstep⟩

/-- The walk does not come to a namespace itself: below the root nothing leads into it, since it is
neither a body nor a list of declarations. -/
theorem notMem_visits_of_namespace (hn : n ∈ (Place.root tree).children)
    (hkind : n.kind = "namespace_definition") : (s, n) ∉ (rule d).visits {} (.root tree) := by
  intro hv
  obtain ⟨s', p, -, c, hc, hstep⟩ := exists_step_of_mem_visits (Place.ne_root_of_mem_children hn) hv
  have hbody : c.field? "body" ≠ some n := by
    intro hbody
    have hroot := Place.parent_unique (Place.mem_children_of_field? hbody) hn
    exact Place.ne_root_of_mem_children hc hroot.symm
  obtain ⟨-, hq, -⟩ | ⟨-, hq, -⟩ | ⟨hlist, rfl, -⟩ := visit_childSteps d hstep
  · exact hbody hq
  · exact hbody hq
  · rw [hkind] at hlist
    exact absurd hlist (by decide)

/-- Into the body of a namespace the walk comes only by the name of the namespace. -/
theorem exists_name_of_mem_visits (hn : n ∈ (Place.root tree).children)
    (hkind : n.kind = "namespace_definition") (hb : n.field? "body" = some b)
    (hv : (s, b) ∈ (rule d).visits {} (.root tree)) : (n.field? "name").isSome = true := by
  have hbn := Place.mem_children_of_field? hb
  obtain ⟨s', p, hp, c, hc, hstep⟩ :=
    exists_step_of_mem_visits (Place.ne_root_of_mem_children hbn) hv
  obtain ⟨-, hq, name, hname, -⟩ | ⟨htype, hq, -⟩ | ⟨-, rfl, -⟩ := visit_childSteps d hstep
  · obtain rfl := Place.parent_unique hbn (Place.mem_children_of_field? hq)
    obtain ⟨q, hq, -⟩ := Option.map_eq_some_iff.1 hname
    exact Option.isSome_iff_exists.2 ⟨q, hq⟩
  · obtain rfl := Place.parent_unique hbn (Place.mem_children_of_field? hq)
    rw [hkind] at htype
    exact absurd htype (by decide)
  -- As a list of declarations it would be taken up from the namespace itself.
  · obtain rfl := Place.parent_unique hbn hc
    exact absurd hp (notMem_visits_of_namespace hn hkind)

theorem mem_visits_of_named (hn : n ∈ (Place.root tree).children)
    (hkind : n.kind = "namespace_definition") (hb : n.field? "body" = some b)
    (hname : (n.field? "name").isSome = true) :
    ∃ s, s.depth = 1 ∧ (s, b) ∈ (rule d).visits {} (.root tree) := by
  obtain ⟨q, hq⟩ := Option.isSome_iff_exists.1 hname
  have hentry : (settingOf d {} n, n) ∈ entries d {} (.root tree) :=
    (mem_entries d).2 ⟨by simp [Document.tooDeep], hn, rfl⟩
  have hstep : Step.visit ⟨none, some (d.text q), 1⟩ b ∈ childSteps d (settingOf d {} n) n := by
    simp only [childSteps, hkind, namespaceSteps, Document.fieldText, hq, Option.map_some, hb]
    exact List.mem_cons_of_mem _ (Step.mem_visit?.2 ⟨rfl, rfl⟩)
  refine ⟨⟨none, some (d.text q), 1⟩, rfl, Rule.mem_visits_of_visit (rule_descends d)
    (Rule.self_mem_visits (rule_descends d) _ _) ?_⟩
  rw [rule_eq_entries]
  exact List.mem_flatMap.2 ⟨_, hentry, hstep⟩

/-- Where the limit on the depth lets the walk into the body of a namespace at the top of a file, a
declaration with a name right in the body has a symbol of that name exactly if the namespace has a
name itself. -/
theorem namespaceBody_declared_iff {name : String} (hdepth : 1 ≤ d.limits.walkDepth.toNat)
    (hn : n ∈ (Place.root tree).children) (hkind : n.kind = "namespace_definition")
    (hb : n.field? "body" = some b) (hc : c ∈ b.children) (hdeclared : c.kind ∈ scopeKinds)
    (hname : d.fieldText c "name" = some name) :
    (∃ y ∈ symbols d (.root tree), (c, y) ∈ scopes d (.root tree) ∧ y.name = name) ↔
      (n.field? "name").isSome = true := by
  constructor
  · rintro ⟨y, -, hy, -⟩
    obtain ⟨⟨s, p⟩, hv, t, he, -, -⟩ := Rule.mem_firsts.1 hy
    obtain ⟨-, hcp, -⟩ := (mem_entries d).1 he
    obtain rfl := Place.parent_unique hc hcp
    exact exists_name_of_mem_visits hn hkind hb hv
  · intro hnamed
    obtain ⟨s, hs, hv⟩ := mem_visits_of_named hn hkind hb hnamed
    obtain ⟨y, hy, hyName⟩ := exists_first? (s := settingOf d s c) hdeclared hname
    have hwithin : ¬ d.tooDeep s.depth = true := by
      rw [Document.tooDeep, hs, decide_eq_true_eq]
      omega
    have hfound : (c, y) ∈ scopes d (.root tree) :=
      Rule.mem_firsts.2 ⟨_, hv, _, (mem_entries d).2 ⟨hwithin, hc, rfl⟩, hdeclared, hy⟩
    exact ⟨y, (exists_mem_scopes_iff.1 ⟨c, hfound⟩).1, hfound, hyName⟩

/-- The tree of a namespace with one class `A` in its body, which stands at an offset. -/
def namespaceOfClass (name : List Node) (body : Nat) : Node :=
  .mk "program" true [] 0 (body + 15)
    [.leaf "php_tag" [] 0 5,
      .mk "namespace_definition" true [] 6 (body + 14)
        ([.token "namespace" 6 15] ++ name ++
          [.mk "compound_statement" true ["body"] body (body + 14)
            [.token "\x7b" body (body + 1),
              .mk "class_declaration" true [] (body + 2) (body + 12)
                [.token "class" (body + 2) (body + 7), .leaf "name" ["name"] (body + 8) (body + 9),
                  .mk "declaration_list" true ["body"] (body + 10) (body + 12)
                    [.token "\x7b" (body + 10) (body + 11), .token "\x7d" (body + 11) (body + 12)]],
              .token "\x7d" (body + 13) (body + 14)]])]

/-- A class in a namespace with a name. -/
def namedNamespace : Document :=
  { path := "a.php"
    bytes := Text.Utf8.encode "<?php\nnamespace B \x7b class A \x7b\x7d \x7d\n".toList
    limits := {} }

/-- The tree of `namedNamespace`. -/
def namedNamespaceTree : Node :=
  namespaceOfClass [.mk "namespace_name" true ["name"] 16 17 [.leaf "name" [] 16 17]] 18

theorem namedNamespace_declared :
    ∃ y ∈ symbols namedNamespace (.root namedNamespaceTree), y.name = "A" := by
  have hfound : 1 ≤ namedNamespace.limits.walkDepth.toNat ∧
      ∃ n ∈ (Place.root namedNamespaceTree).children, n.kind = "namespace_definition" ∧
        (n.field? "name").isSome = true ∧ ∃ b ∈ n.field? "body", ∃ c ∈ b.children,
          c.kind ∈ scopeKinds ∧ namedNamespace.fieldText c "name" = some "A" := by
    decide +kernel
  obtain ⟨hdepth, n, hn, hkind, hnamed, b, hb, c, hc, hdeclared, hname⟩ := hfound
  obtain ⟨y, hy, -, hyName⟩ :=
    (namespaceBody_declared_iff hdepth hn hkind hb hc hdeclared hname).2 hnamed
  exact ⟨y, hy, hyName⟩

/-- A class in a namespace without a name. -/
def globalNamespace : Document :=
  { path := "a.php"
    bytes := Text.Utf8.encode "<?php\nnamespace \x7b class A \x7b\x7d \x7d\n".toList
    limits := {} }

/-- The tree of `globalNamespace`. -/
def globalNamespaceTree : Node :=
  namespaceOfClass [] 16

/-- The file has no symbols, though a class stands in the body and the limit leaves room for it. -/
theorem globalNamespace_not_declared :
    1 ≤ globalNamespace.limits.walkDepth.toNat ∧
      (∃ n ∈ (Place.root globalNamespaceTree).children, n.kind = "namespace_definition" ∧
        ∃ b ∈ n.field? "body", ∃ c ∈ b.children, c.kind = "class_declaration" ∧
          globalNamespace.fieldText c "name" = some "A") ∧
      symbols globalNamespace (.root globalNamespaceTree) = [] := by
  decide +kernel

end Declarations.PHP

end SourceIndex
