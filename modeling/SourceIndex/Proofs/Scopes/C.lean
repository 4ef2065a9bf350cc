import SourceIndex.Declarations.C
import SourceIndex.Proofs.Text.Name
import SourceIndex.Proofs.Tree.Emission
import SourceIndex.Proofs.Tree.Scoped
import SourceIndex.Uses.C

/-!
# Scopes in C and C++

The declarations of a file qualify a function by the namespaces and records around it, a record
without a name of its own by the name that a typedef gives it.  A name with a path is taken apart,
and its parts are qualified one after the other, which comes to the same.  The walk for uses
qualifies by namespaces, classes and structures with names, and passes over unions and over what
only a typedef names.  So both give a definition the same name where no such record adds to the
names in it, and nowhere else.
-/

namespace SourceIndex

namespace Uses.C

open SourceIndex.Idiom.C

variable (d : Document) {s s' : Scope} {p q : Place}

/-- The kinds of places of which the walk for uses looks at some parts only. -/
def closedKinds : List String :=
  ["preproc_include", "call_expression", "new_expression"]

/-- The scope in a place, given that in the place around it. -/
def ownScope (above : Option String) (p : Place) : Option String :=
  match p.kind with
  | "function_definition" => (functionScope d ⟨above, 0⟩ p).or above
  | "namespace_definition" | "class_specifier" | "struct_specifier" =>
      (namedScope d ⟨above, 0⟩ p).or above
  | _ => above

/-- Behind its own uses, a child of no closed kind leads into itself and nowhere else. -/
theorem visit_childSteps_iff (hkind : p.kind ∉ closedKinds) :
    Step.visit s' q ∈ childSteps d s p ↔ q = p ∧ s' = ⟨ownScope d s.name p, s.depth + 1⟩ := by
  unfold childSteps
  split
  case h_1 hp | h_2 hp | h_3 hp => simp [closedKinds, hp] at hkind
  case h_4 hp | h_5 hp =>
    simp only [ownScope, hp, List.mem_singleton, Step.visit.injEq]
    exact and_comm
  case h_6 hp | h_7 hp =>
    simp only [ownScope, hp, List.mem_append, Step.visit_notMem_emitAll, false_or,
      List.mem_singleton, Step.visit.injEq]
    exact and_comm
  case h_8 =>
    have hown : ownScope d s.name p = s.name := by simp [ownScope]
    rw [hown, List.mem_singleton, Step.visit.injEq, and_comm]
    rfl

theorem mem_children_of_visit_childSteps (hkind : p.kind ∈ closedKinds)
    (h : Step.visit s' q ∈ childSteps d s p) : q ∈ p.children := by
  have hpart : ∀ field, Step.visit s' q ∈
      (Step.visit? s.deeper (p.field? field) : List (Step Scope Reference)) → q ∈ p.children :=
    fun field h => Place.mem_children_of_field? (Step.mem_visit?.1 h).2
  simp only [closedKinds, List.mem_cons, List.not_mem_nil, or_false] at hkind
  rcases hkind with hkind | hkind | hkind <;> simp only [childSteps, hkind] at h
  · exact absurd h (Step.visit_notMem_emit? _)
  · unfold callSteps at h
    split at h
    · cases h
    rcases List.mem_cons.1 h with h | h
    · cases h
    · exact hpart _ h
  · rcases List.mem_append.1 h with h | h
    · exact absurd h (Step.visit_notMem_emit? _)
    · exact hpart _ h

theorem isScoped : Rule.IsScoped (rule d C.c) d id (childSteps d) (ownScope d) closedKinds where
  inside_inj := id
  rule_inside := fun _ _ => rfl
  leads := by
    intro s s' p q h
    by_cases hkind : p.kind ∈ closedKinds
    · have hq := mem_children_of_visit_childSteps d hkind h
      exact ⟨Place.mem_subtree_of_child hq, fun hopen => absurd hkind hopen⟩
    · obtain ⟨rfl, hs⟩ := (visit_childSteps_iff d hkind).1 h
      exact ⟨Place.self_mem_subtree q, fun _ => ⟨rfl, hs⟩⟩
  enters := fun hkind => (visit_childSteps_iff d hkind).2 ⟨rfl, rfl⟩
  others := fun {task} _ _ _ _ => Or.inl ⟨task, rfl⟩

end Uses.C

namespace Declarations.C

open SourceIndex.Idiom.C
open SourceIndex.Uses.C (closedKinds ownScope functionScope namedScope isScoped)

variable (dialect : Dialect) (d : Document)

/-! ## Owners -/

/-- The kinds of namespaces and records. -/
def ownerKinds : List String :=
  ["namespace_definition", "class_specifier", "struct_specifier", "union_specifier"]

/-- The name that a namespace or a record adds to the names in it: its own or that of its typedef.
-/
def ownerName? (p : Place) : Option String :=
  match p.kind with
  | "namespace_definition" | "class_specifier" => d.fieldText p "name"
  | "struct_specifier" | "union_specifier" =>
      (d.fieldText p "name").or
        ((p.parent?.filter fun t => t.kind == "type_definition").bind (typedefName d))
  | _ => none

/-- What the declarations in a place belong to, given what the place around belongs to. -/
def ownerBy (above : Option String) (p : Place) : Option String :=
  ((ownerName? d p).map fun name => Text.qualify above name "::").or above

/-- What the declarations in a place belong to. -/
def ownerInside (p : Place) : Option String :=
  p.scopeBy (ownerBy d)

/-- Does the walk for uses pass over a record that adds to the names in it? -/
def isUnseen (p : Place) : Bool :=
  (ownerName? d p).isSome && (p.kind == "union_specifier" || (d.fieldText p "name").isNone)

variable {d} {p q c : Place} {above : Option String}

theorem ownScope_of_isUnseen (h : isUnseen d p = true) :
    (∃ name, ownerName? d p = some name) ∧ ∀ above, ownScope d above p = above := by
  rw [isUnseen, Bool.and_eq_true, Option.isSome_iff_exists, Bool.or_eq_true, beq_iff_eq,
    Option.isNone_iff_eq_none] at h
  refine ⟨h.1, fun above => ?_⟩
  obtain ⟨⟨name, hname⟩, hunseen⟩ := h
  unfold ownerName? at hname
  split at hname
  case h_1 hkind | h_2 hkind =>
    have hnone : d.fieldText p "name" = none :=
      hunseen.resolve_left (by rw [hkind]; decide)
    rw [hnone] at hname
    cases hname
  case h_3 hkind =>
    have hnone : d.fieldText p "name" = none :=
      hunseen.resolve_left (by rw [hkind]; decide)
    simp [ownScope, hkind, namedScope, hnone]
  case h_4 hkind => simp [ownScope, hkind]
  case h_5 => cases hname

theorem ownScope_of_not_isUnseen (hkind : p.kind ≠ "function_definition")
    (h : ¬ isUnseen d p = true) : ownScope d above p = ownerBy d above p := by
  have hseen : ∀ name, ownerName? d p = some name →
      p.kind ≠ "union_specifier" ∧ d.fieldText p "name" ≠ none := by
    intro name hname
    simpa [isUnseen, hname] using h
  unfold ownScope ownerBy
  split
  case h_1 hp => exact absurd hp hkind
  case h_2 hp | h_3 hp => simp [ownerName?, hp, namedScope]
  case h_4 hp =>
    cases hname : d.fieldText p "name" with
    | some name => simp [ownerName?, hp, namedScope, hname]
    | none =>
        have hnone : ownerName? d p = none :=
          Option.eq_none_iff_forall_ne_some.2 fun name heq => (hseen name heq).2 hname
        simp [namedScope, hname, hnone]
  case h_5 hnamespace hclass hstruct =>
    have hnone : ownerName? d p = none := by
      refine Option.eq_none_iff_forall_ne_some.2 fun name heq => ?_
      have hunion := (hseen name heq).1
      unfold ownerName? at heq
      split at heq
      · contradiction
      · contradiction
      · contradiction
      · contradiction
      · cases heq
    rw [hnone]
    rfl

/-- On the way to a place outside functions, the scope is never longer than what the declarations
belong to.  The two have one text where no record that is passed over adds to the names. -/
theorem scope_eq_owner_iff (havoids : p.avoids ["function_definition"] = true) :
    ((p.scopeBy (ownScope d)).getD "").length ≤ ((ownerInside d p).getD "").length ∧
      ((p.scopeBy (ownScope d)).getD "" = (ownerInside d p).getD "" ↔
        ∀ r ∈ p :: p.ancestors, isUnseen d r = true → (ownerInside d r).getD "" = "") := by
  induction p with
  | root n => simp [Place.scopeBy, ownerInside, Place.ancestors]
  | child q ns n ih =>
      rw [Place.avoids, Bool.and_eq_true] at havoids
      obtain ⟨hle, hiff⟩ := ih havoids.1
      have hkind : (Place.child q ns n).kind ≠ "function_definition" := by
        simpa [Place.kind, Place.node] using havoids.2
      rw [List.forall_mem_cons, Place.ancestors, ← hiff]
      have hscope : (Place.child q ns n).scopeBy (ownScope d) =
          ownScope d (q.scopeBy (ownScope d)) (.child q ns n) := rfl
      have howner : ownerInside d (.child q ns n) =
          ownerBy d (ownerInside d q) (.child q ns n) := rfl
      by_cases hunseen : isUnseen d (.child q ns n) = true
      -- Here only the owner grows, so the two can stay equal only as empty texts.
      · obtain ⟨⟨name, hname⟩, hown⟩ := ownScope_of_isUnseen hunseen
        have hqualified : (ownerInside d (.child q ns n)).getD "" =
            Text.qualify (ownerInside d q) name "::" := by
          rw [howner, ownerBy, hname]
          rfl
        rw [hscope, hown, hqualified, Text.eq_qualify_iff (by decide) hle]
        refine ⟨Nat.le_trans hle (Text.length_le_length_qualify _ _ _), ?_⟩
        exact and_congr_left fun _ => ⟨fun hempty _ => hempty, fun hempty => hempty hunseen⟩
      · rw [hscope, howner, ownScope_of_not_isUnseen hkind hunseen, ownerBy, ownerBy]
        have hdrop : ∀ P Q : Prop, (P ↔ (isUnseen d (.child q ns n) = true → Q) ∧ P) :=
          fun P Q => ⟨fun hP => ⟨fun h => absurd h hunseen, hP⟩, And.right⟩
        cases ownerName? d (.child q ns n) with
        | none => exact ⟨hle, hdrop _ _⟩
        | some name =>
            refine ⟨Text.length_qualify_le name "::" hle, ?_⟩
            exact (Text.qualify_inj name "::").trans (hdrop _ _)

/-! ## The walk through namespaces and records -/

/-- The scope of a task. -/
def Task.scope : Task → Scope
  | inside s | members s _ => s

variable (d)

/-- What the walk takes up at a place: its children, each with the task for it. -/
def entries : Task → Place → List (Task × Place)
  | .inside s, p => if d.tooDeep s.depth then [] else p.children.map fun c => (.inside s, c)
  | .members s access, p =>
      if d.tooDeep s.depth then
        []
      else
        (withAccess d access p.children).map fun (access, m) => (.members s access, m)

/-- What the walk does with what it takes up. -/
def entrySteps : Task → Place → List (Step Task Symbol)
  | .inside s, c => childSteps dialect d s c
  | .members s access, m => memberSteps dialect d s access m

/-- The definitions of functions for which there are symbols, with their symbols. -/
def definitions (root : Place) : List (Place × Symbol) :=
  (rule dialect d).firsts (entries d) (entrySteps dialect d) ["function_definition"] (.inside {}) root

/-- The kinds of places that no body of a namespace or a record is. -/
def specialKinds : List String :=
  "function_definition" :: (closedKinds ++ ownerKinds)

/-- What the grammar promises of a tree: the body of a namespace or a record is neither of these,
nor a function, nor a use. -/
def IsGrammatical (tree : Node) : Prop :=
  ∀ p ∈ (Place.root tree).subtree, p.kind ∈ ownerKinds → ∀ b ∈ p.field? "body",
    b.kind ∉ specialKinds

variable {dialect} {d} {t t' : Task} {s s' : Scope} {tree : Node} {y : Symbol}

theorem mem_withAccess {access : Visibility} {places : List Place} {v : Visibility × Place}
    (h : v ∈ withAccess d access places) : v.2 ∈ places := by
  induction places generalizing access with
  | nil => cases h
  | cons c rest ih =>
      rcases List.mem_cons.1 h with rfl | h
      · exact List.mem_cons_self
      · exact List.mem_cons_of_mem _ (ih h)

theorem of_mem_entries (h : (t', c) ∈ entries d t p) : c ∈ p.children ∧ t'.scope = t.scope := by
  cases t <;> rw [entries] at h <;> split at h
  · cases h
  · obtain ⟨c, hc, heq⟩ := List.mem_map.1 h
    cases heq
    exact ⟨hc, rfl⟩
  · cases h
  · obtain ⟨v, hv, heq⟩ := List.mem_map.1 h
    cases heq
    exact ⟨mem_withAccess hv, rfl⟩

theorem rule_eq_entries (hdialect : dialect ∈ [C.c, C.cpp]) (t : Task) (p : Place) :
    rule dialect d t p = (entries d t p).flatMap fun e => entrySteps dialect d e.1 e.2 := by
  have hextra : dialect.extra = fun _ _ => none := by
    rcases List.mem_pair.1 hdialect with rfl | rfl <;> rfl
  cases t <;> rw [rule, entries] <;> split
  · rfl
  · rw [List.flatMap_map, hextra]
    rfl
  · rfl
  · rw [List.flatMap_map]
    rfl

/-- What the walk goes on to from what it takes up: from a container to what stands in it, and from
a namespace or a record to its body. -/
inductive Leads (d : Document) : Scope → Place → Scope → Place → Prop
  | within {s : Scope} {c : Place} (kind : c.kind ∈ containerKinds) : Leads d s c s.deeper c
  | body {s s' : Scope} {c b : Place} (kind : c.kind ∈ ownerKinds) (body : c.field? "body" = some b)
      (name : s'.name = ownerBy d s.name c) : Leads d s c s' b
  | typedef {s s' : Scope} {c r b : Place} (record : r ∈ c.children) (kind : r.kind ∈ ownerKinds)
      (body : r.field? "body" = some b) (name : s'.name = ownerBy d s.name r)
      (typedef : c.kind = "type_definition") : Leads d s c s' b

theorem visit_recordSteps (hkind : c.kind ∈ ["struct_specifier", "union_specifier", "class_specifier"])
    (h : Step.visit t' q ∈ recordSteps d s c) : c.kind ∈ ownerKinds ∧ c.field? "body" = some q ∧
      t'.scope.name = ownerBy d s.name c := by
  unfold recordSteps at h
  split at h
  · cases h
  rename_i name hname
  rcases List.mem_cons.1 h with h | h
  · cases h
  · obtain ⟨rfl, hq⟩ := Step.mem_visit?.1 h
    simp only [List.mem_cons, List.not_mem_nil, or_false] at hkind
    refine ⟨by simp only [ownerKinds, List.mem_cons]; tauto, hq, ?_⟩
    rcases hkind with hkind | hkind | hkind <;>
      simp [ownerBy, ownerName?, hkind, hname, Task.scope, Scope.enter]

theorem leads_of_visit_recordSteps
    (hkind : c.kind ∈ ["struct_specifier", "union_specifier", "class_specifier"])
    (h : Step.visit t' q ∈ recordSteps d s c) : Leads d s c t'.scope q := by
  obtain ⟨hkind, hq, hname⟩ := visit_recordSteps hkind h
  exact .body hkind hq hname

theorem leads_of_visit_typedefSteps (hkind : c.kind = "type_definition")
    (h : Step.visit t' q ∈ typedefSteps d s c) : Leads d s c t'.scope q := by
  unfold typedefSteps at h
  split at h
  · cases h
  rename_i name hname
  rcases List.mem_cons.1 h with h | h
  · cases h
  cases htype : c.field? "type" with
  | none => simp [htype] at h
  | some r =>
      have hrc := Place.mem_children_of_field? htype
      have hrecord : ∀ b, r.field? "body" = some b →
          r.kind ∈ ["struct_specifier", "union_specifier"] →
          Step.visit t' q ∈ (if (r.field? "name").isSome then recordSteps d s.deeper r else
            [.visit (.members (s.enter (Text.qualify s.name name "::")) .public) b]) →
          Leads d s c t'.scope q := by
        intro b hb hrKind h
        split at h
        · have hrecords : ["struct_specifier", "union_specifier"] ⊆
              ["struct_specifier", "union_specifier", "class_specifier"] := by decide
          obtain ⟨howner, hq, howned⟩ := visit_recordSteps (hrecords hrKind) h
          exact .typedef hrc howner hq howned hkind
        · rename_i htag
          cases List.mem_singleton.1 h
          have hnone : d.fieldText r "name" = none := by
            rw [Document.fieldText, Option.not_isSome_iff_eq_none.1 htag]
            rfl
          have howners : ["struct_specifier", "union_specifier"] ⊆ ownerKinds := by decide
          refine .typedef hrc (howners hrKind) hb ?_ hkind
          have hgiven : (r.parent?.filter fun t => t.kind == "type_definition").bind
              (typedefName d) = some name := by
            simp [Place.parent?_of_mem_children hrc, Option.filter, hkind, hname]
          rcases List.mem_pair.1 hrKind with hrKind | hrKind <;>
            simp [ownerBy, ownerName?, hrKind, hnone, hgiven, Task.scope, Scope.enter]
      rw [htype, Option.map_some, Option.getD_some] at h
      unfold typedefBodySteps at h
      split at h
      case h_1 hb hr => exact hrecord _ hb (by simp [hr]) h
      case h_2 hb hr => exact hrecord _ hb (by simp [hr]) h
      case h_3 =>
        dsimp only at h
        split at h <;> exact absurd h (Step.visit_notMem_emitAll _)
      case h_4 => cases h

theorem leads_of_visit_childSteps (h : Step.visit t' q ∈ childSteps dialect d s c) :
    Leads d s c t'.scope q := by
  unfold childSteps at h
  split at h
  case h_1 => exact absurd h (Step.visit_notMem_emit? _)
  case h_2 | h_6 => exact absurd h (Step.visit_notMem_emitAll _)
  case h_3 hc | h_4 hc | h_5 hc => exact leads_of_visit_recordSteps (by simp [hc]) h
  case h_7 hc => exact leads_of_visit_typedefSteps hc h
  case h_8 hc =>
    rcases List.mem_append.1 h with h | h
    · exact absurd h (Step.visit_notMem_emit? _)
    · obtain ⟨rfl, hq⟩ := Step.mem_visit?.1 h
      refine .body (by simp [ownerKinds, hc]) hq ?_
      simp [ownerBy, ownerName?, hc, Task.scope, Scope.enter?]
  case h_9 =>
    split at h
    · rename_i hcontainer
      cases List.mem_singleton.1 h
      exact .within (List.contains_iff_mem.1 hcontainer)
    · cases h

theorem leads_of_visit_memberSteps {access : Visibility}
    (h : Step.visit t' q ∈ memberSteps dialect d s access c) : Leads d s c t'.scope q := by
  unfold memberSteps at h
  split at h
  case h_1 | h_8 => exact absurd h (Step.visit_notMem_emitAll _)
  case h_2 =>
    split at h
    · exact absurd h (Step.visit_notMem_emit? _)
    · cases h
  case h_3 =>
    split at h
    · exact absurd h (Step.visit_notMem_emitAll _)
    · cases h
  case h_4 hc =>
    cases List.mem_singleton.1 h
    exact .within (by simp [containerKinds, hc])
  case h_5 hc | h_6 hc | h_7 hc =>
    obtain ⟨hkind, hq, hname⟩ := visit_recordSteps (by simp [hc]) h
    exact .body hkind hq hname
  case h_9 => cases h

theorem exists_child_of_visit_rule (hdialect : dialect ∈ [C.c, C.cpp])
    (h : Step.visit t' q ∈ rule dialect d t p) :
    ∃ c ∈ p.children, Leads d t.scope c t'.scope q := by
  rw [rule_eq_entries hdialect] at h
  obtain ⟨⟨t'', c⟩, he, hstep⟩ := List.mem_flatMap.1 h
  obtain ⟨hc, hscope⟩ := of_mem_entries he
  refine ⟨c, hc, hscope ▸ ?_⟩
  cases t'' with
  | inside s => exact leads_of_visit_childSteps hstep
  | members s access => exact leads_of_visit_memberSteps hstep

theorem Leads.mem_subtree (h : Leads d s c s' q) : q ∈ c.subtree := by
  cases h with
  | within => exact Place.self_mem_subtree _
  | body _ body =>
      exact Place.mem_subtree_of_child (Place.mem_children_of_field? body)
  | typedef record _ body =>
      exact Place.mem_subtree_of_mem_children (Place.mem_subtree_of_child record)
        (Place.mem_children_of_field? body)

/-- The walk goes down, whatever a dialect adds: what is added is only handed out. -/
theorem rule_descends : (rule dialect d).Descends := by
  intro t t' p q h
  obtain ⟨c, hc, hq⟩ : ∃ c ∈ p.children, q ∈ c.subtree := by
    cases t <;> rw [rule] at h <;> split at h
    case inside.isTrue | members.isTrue => cases h
    case inside.isFalse s hdepth =>
      obtain ⟨c, hc, hstep⟩ := List.mem_flatMap.1 h
      refine ⟨c, hc, ?_⟩
      cases hextra : dialect.extra d c with
      | none =>
          rw [hextra] at hstep
          have hchild : Step.visit t' q ∈ childSteps dialect d s c := hstep
          exact (leads_of_visit_childSteps hchild).mem_subtree
      | some ys =>
          rw [hextra] at hstep
          exact absurd hstep (Step.visit_notMem_emitAll _)
    case members.isFalse s access hdepth =>
      obtain ⟨v, hv, hstep⟩ := List.mem_flatMap.1 h
      exact ⟨v.2, mem_withAccess hv, (leads_of_visit_memberSteps hstep).mem_subtree⟩
  exact Nat.lt_of_le_of_lt (Place.height_le_of_mem_subtree hq) (Place.height_lt_of_mem_children hc)

/-- A place to which the walk comes: the way to it leads through no function and no use, and the
scope is what the declarations in it belong to. -/
structure IsOpen (d : Document) (tree : Node) (s : Scope) (p : Place) : Prop where
  ofTree : p ∈ (Place.root tree).subtree
  avoids : p.avoids ("function_definition" :: closedKinds) = true
  owner : s.name = ownerInside d p

/-- A container or a body is looked at in the scope around it. -/
theorem IsOpen.child (hp : IsOpen d tree s p) (hc : c ∈ p.children) (hkind : c.kind ∉ specialKinds)
    (hs : s'.name = s.name) : IsOpen d tree s' c := by
  rw [specialKinds, ← List.cons_append, List.mem_append, not_or] at hkind
  refine ⟨Place.mem_subtree_of_mem_children hp.ofTree hc,
    (Place.avoids_of_mem_children hc).2 ⟨hp.avoids, hkind.1⟩, ?_⟩
  have hnone : ownerName? d c = none := by
    unfold ownerName?
    split
    case h_5 => rfl
    all_goals exact absurd (by simp [ownerKinds, *]) hkind.2
  rw [ownerInside, Place.scopeBy_of_mem_children hc, ownerBy, hnone, hs, hp.owner]
  rfl

theorem IsOpen.owned (hp : IsOpen d tree s p) (hc : c ∈ p.children) (hkind : c.kind ∈ ownerKinds)
    (hs : s'.name = ownerBy d s.name c) : IsOpen d tree s' c := by
  have hopen : c.kind ∉ "function_definition" :: closedKinds := by
    have hapart : ∀ k ∈ ownerKinds, k ∉ "function_definition" :: closedKinds := by decide
    exact hapart _ hkind
  refine ⟨Place.mem_subtree_of_mem_children hp.ofTree hc,
    (Place.avoids_of_mem_children hc).2 ⟨hp.avoids, hopen⟩, ?_⟩
  rw [hs, hp.owner, ownerInside, ownerInside, Place.scopeBy_of_mem_children hc]

theorem IsOpen.leads (h : IsGrammatical tree) (hp : IsOpen d tree s p) (hc : c ∈ p.children)
    (hleads : Leads d s c s' q) : IsOpen d tree s' q := by
  cases hleads with
  | within kind =>
      have hapart : ∀ k ∈ containerKinds, k ∉ specialKinds := by decide
      exact hp.child hc (hapart _ kind) rfl
  | body kind body name =>
      have howned := hp.owned hc kind name
      exact howned.child (Place.mem_children_of_field? body) (h c howned.ofTree kind q body) rfl
  | typedef record kind body name typedef =>
      rename_i r
      have hopen : IsOpen d tree s c := hp.child hc (by rw [typedef]; decide) rfl
      have howned := hopen.owned record kind name
      exact howned.child (Place.mem_children_of_field? body) (h r howned.ofTree kind q body) rfl

theorem isOpen_of_mem_visits (hdialect : dialect ∈ [C.c, C.cpp]) (h : IsGrammatical tree)
    {v : Task × Place} (hv : v ∈ (rule dialect d).visits (.inside {}) (.root tree)) :
    IsOpen d tree v.1.scope v.2 := by
  refine Rule.forall_mem_visits rule_descends
    (P := fun t p => IsOpen d tree t.scope p) ?_ ⟨Place.self_mem_subtree _, rfl, rfl⟩ v hv
  intro t t' p q hp hstep
  obtain ⟨c, hc, hleads⟩ := exists_child_of_visit_rule hdialect hstep
  exact hp.leads h hc hleads

/-! ## The symbols of functions -/

section Functions

variable {owner : Option String} {access : Option Visibility} {type name params : String}

/-- Whether or not the path of a name counts as its owner, the name is qualified as a whole. -/
theorem functionSymbol_qualifiedName :
    (functionSymbol dialect d owner access p type name params).qualifiedName =
      Text.qualify owner name "::" := by
  have howner : Text.qualify (functionOwner dialect owner name).1
      (functionOwner dialect owner name).2 "::" = Text.qualify owner name "::" := by
    unfold functionOwner
    split
    · rename_i path short hsplit
      split
      · rename_i hpath
        rw [Bool.and_eq_true] at hpath
        have hne : path ≠ "" := by
          rintro rfl
          exact absurd hpath.2 (by decide)
        rw [Text.qualify_qualify hne, ← Text.eq_append_of_splitLast? hsplit]
      · rfl
    · rfl
  simp [functionSymbol, symbolIn, howner]

theorem exists_parts_of_function? (h : function? dialect d owner access p = some y) :
    ∃ declarator name params, p.field? "declarator" = some declarator ∧
      functionParts d declarator = some (name, params) ∧
        y.qualifiedName = Text.qualify owner name "::" := by
  obtain ⟨declarator, hdeclarator, h⟩ := Option.bind_eq_some_iff.1 h
  obtain ⟨⟨name, params⟩, hparts, h⟩ := Option.bind_eq_some_iff.1 h
  cases h
  exact ⟨declarator, name, params, hdeclarator, hparts, functionSymbol_qualifiedName⟩

/-- A symbol of a definition has the name in the declarator, in the scope of its task. -/
theorem exists_parts (hkind : c.kind = "function_definition")
    (hy : Step.first? (entrySteps dialect d t c) = some y) :
    ∃ declarator name params, c.field? "declarator" = some declarator ∧
      functionParts d declarator = some (name, params) ∧
        y.qualifiedName = Text.qualify t.scope.name name "::" := by
  cases t with
  | inside s =>
      simp only [entrySteps, childSteps, hkind, Step.first?_emit?] at hy
      exact exists_parts_of_function? hy
  | members s access =>
      simp only [entrySteps, memberSteps, hkind] at hy
      split at hy
      · rw [Step.first?_emit?] at hy
        exact exists_parts_of_function? hy
      · cases hy

/-- The kinds of the symbols of functions. -/
def functionKinds : List SymbolKind :=
  [.function, .method]

/-- Does a symbol stand for a function that is declared and not defined? -/
def IsPrototype (dialect : Dialect) (d : Document) (y : Symbol) : Prop :=
  ∃ owner access p type name params, p.kind ≠ "function_definition" ∧
    y = functionSymbol dialect d owner access p type name params

theorem isPrototype_of_mem_declaration (hp : p.kind = "declaration")
    (h : y ∈ declaration dialect d owner access p) (hkind : y.kind ∈ functionKinds) :
    IsPrototype dialect d y := by
  obtain ⟨c, -, h⟩ := List.mem_filterMap.1 h
  unfold declared? at h
  dsimp only at h
  split at h
  · obtain ⟨⟨name, params⟩, -, rfl⟩ := Option.map_eq_some_iff.1 h
    exact ⟨owner, access, p, _, name, params, by rw [hp]; decide, rfl⟩
  · split at h
    · obtain ⟨name, -, rfl⟩ := Option.map_eq_some_iff.1 h
      simp only [symbolIn, Document.symbol_kind] at hkind
      split at hkind <;> simp [functionKinds] at hkind
    · cases h

theorem isPrototype_of_field? {owner : String} {access : Visibility} (hp : p.kind = "field_declaration")
    (h : field? dialect d owner access p c = some y) (hkind : y.kind ∈ functionKinds) :
    IsPrototype dialect d y := by
  unfold field? at h
  dsimp only at h
  split at h
  · obtain ⟨⟨name, params⟩, -, rfl⟩ := Option.map_eq_some_iff.1 h
    exact ⟨some owner, some access, p, _, name, params, by rw [hp]; decide, rfl⟩
  · split at h
    · obtain ⟨name, -, rfl⟩ := Option.map_eq_some_iff.1 h
      simp [symbolIn, functionKinds] at hkind
    · cases h

/-- Do some steps hand out no symbol of a function? -/
def NoFunctions (steps : List (Step Task Symbol)) : Prop :=
  Step.Emits (fun y => y.kind ∉ functionKinds) steps

theorem noFunctions_recordSteps : NoFunctions (recordSteps d s c) := by
  unfold NoFunctions recordSteps
  split
  · simp
  · simp only [Step.emits_emit_cons, Step.emits_visit?, and_true, symbolIn, Document.symbol_kind]
    split <;> simp [functionKinds]

theorem noFunctions_enumerators {qualified : String} :
    NoFunctions (Step.emitAll (enumerators d qualified c)) := by
  refine Step.emits_emitAll.2 fun y hy => ?_
  unfold enumerators at hy
  split at hy
  · cases hy
  · obtain ⟨e, -, hy⟩ := List.mem_filterMap.1 hy
    obtain ⟨name, -, rfl⟩ := Option.map_eq_some_iff.1 hy
    simp [symbolIn, functionKinds]

theorem noFunctions_enumSymbols : NoFunctions (Step.emitAll (enumSymbols d owner c)) := by
  refine Step.emits_emitAll.2 fun y hy => ?_
  unfold enumSymbols at hy
  split at hy
  · cases hy
  · rcases List.mem_cons.1 hy with rfl | hy
    · simp [symbolIn, functionKinds]
    · exact Step.emits_emitAll.1 noFunctions_enumerators y hy

theorem noFunctions_typedefSteps : NoFunctions (typedefSteps d s c) := by
  unfold NoFunctions typedefSteps
  split
  · simp
  rename_i name hname
  simp only [Step.emits_emit_cons, symbolIn, Document.symbol_kind]
  refine ⟨by simp [functionKinds], ?_⟩
  cases c.field? "type" with
  | none => exact Step.emits_nil
  | some r =>
      rw [Option.map_some, Option.getD_some]
      unfold typedefBodySteps
      split
      case h_1 | h_2 =>
        dsimp only
        split
        · exact noFunctions_recordSteps
        · simp
      case h_3 =>
        dsimp only
        split
        · exact noFunctions_enumSymbols
        · exact noFunctions_enumerators
      case h_4 => exact Step.emits_nil

theorem noFunctions_namespaceSteps : NoFunctions (namespaceSteps d s c) := by
  unfold NoFunctions namespaceSteps
  simp only [Step.emits_append, Step.emits_emit?, Step.emits_visit?, and_true]
  intro y hy
  obtain ⟨name, -, rfl⟩ := Option.map_eq_some_iff.1 hy
  simp [symbolIn, functionKinds]

/-- Every symbol of a function that the steps for a place hand out is that of a definition, which
they hand out first, or of a prototype. -/
theorem first?_or_isPrototype (h : Step.emit y ∈ entrySteps dialect d t c)
    (hkind : y.kind ∈ functionKinds) :
    c.kind ∈ ["function_definition"] ∧ Step.first? (entrySteps dialect d t c) = some y ∨
      IsPrototype dialect d y := by
  have hno : ∀ {steps}, NoFunctions steps → Step.emit y ∉ steps := fun hsteps hy =>
    hsteps y hy hkind
  cases t with
  | inside s =>
      rw [entrySteps] at h ⊢
      unfold childSteps
      unfold childSteps at h
      split at h
      case h_1 hc =>
        exact Or.inl ⟨by simp [hc], (Step.first?_emit? _).trans (Step.emit_mem_emit?.1 h)⟩
      case h_2 hc =>
        exact Or.inr (isPrototype_of_mem_declaration hc (Step.emit_mem_emitAll.1 h) hkind)
      case h_3 | h_4 | h_5 => exact absurd h (hno noFunctions_recordSteps)
      case h_6 => exact absurd h (hno noFunctions_enumSymbols)
      case h_7 => exact absurd h (hno noFunctions_typedefSteps)
      case h_8 => exact absurd h (hno noFunctions_namespaceSteps)
      case h_9 => split at h <;> simp at h
  | members s access =>
      rw [entrySteps] at h ⊢
      unfold memberSteps
      unfold memberSteps at h
      split at h
      case h_1 hc =>
        obtain ⟨m, -, hm⟩ := List.mem_filterMap.1 (Step.emit_mem_emitAll.1 h)
        exact Or.inr (isPrototype_of_field? hc hm hkind)
      case h_2 hc =>
        split at h
        · rename_i hcpp
          dsimp only
          rw [if_pos hcpp]
          exact Or.inl ⟨by simp [hc], (Step.first?_emit? _).trans (Step.emit_mem_emit?.1 h)⟩
        · cases h
      case h_3 hc =>
        split at h
        · exact Or.inr (isPrototype_of_mem_declaration hc (Step.emit_mem_emitAll.1 h) hkind)
        · cases h
      case h_4 => simp at h
      case h_5 | h_6 | h_7 => exact absurd h (hno noFunctions_recordSteps)
      case h_8 => exact absurd h (hno noFunctions_enumSymbols)
      case h_9 => cases h

end Functions

/-- Every symbol of a function is that of a definition or of a prototype. -/
theorem mem_definitions_or_isPrototype (hdialect : dialect ∈ [C.c, C.cpp]) {root : Place}
    (hy : y ∈ symbols dialect d root) (hkind : y.kind ∈ functionKinds) :
    (∃ c, (c, y) ∈ definitions dialect d root) ∨ IsPrototype dialect d y :=
  Rule.mem_firsts_or rule_descends (rule_eq_entries hdialect)
    (fun _ _ h => first?_or_isPrototype h hkind) hy

theorem mem_symbols_of_mem_definitions (hdialect : dialect ∈ [C.c, C.cpp]) {root : Place}
    {f : Place × Symbol} (hf : f ∈ definitions dialect d root) : f.2 ∈ symbols dialect d root :=
  Rule.mem_walk_of_mem_firsts rule_descends (rule_eq_entries hdialect) hf

/-! ## Agreement -/

/-- The scope in a definition has the name of its symbol exactly if no record that is passed over
adds to the names in it. -/
theorem scopeBy_eq_iff (hdialect : dialect ∈ [C.c, C.cpp]) (h : IsGrammatical tree)
    {f : Place × Symbol} (hf : f ∈ definitions dialect d (.root tree)) :
    f.1 ∈ (Place.root tree).subtree ∧ f.1.avoids closedKinds = true ∧
      (f.1.scopeBy (ownScope d) = some f.2.qualifiedName ↔
        ∀ r ∈ f.1.ancestors, isUnseen d r = true → (ownerInside d r).getD "" = "") := by
  obtain ⟨⟨t, p⟩, hv, t', he, hkind, hy⟩ := Rule.mem_firsts.1 hf
  have hkind := List.mem_singleton.1 hkind
  obtain ⟨hc, hscope⟩ := of_mem_entries he
  obtain ⟨declarator, name, params, hdeclarator, hparts, hqualified⟩ := exists_parts hkind hy
  have hp := isOpen_of_mem_visits hdialect h hv
  have hown : f.1.scopeBy (ownScope d) =
      some (Text.qualify (p.scopeBy (ownScope d)) name "::") := by
    rw [Place.scopeBy_of_mem_children hc]
    simp [ownScope, hkind, functionScope, hdeclarator, hparts]
  refine ⟨Place.mem_subtree_of_mem_children hp.ofTree hc,
    (Place.avoids_of_mem_children hc).2
      ⟨Place.avoids_mono (List.subset_cons_self _ _) hp.avoids, by rw [hkind]; decide⟩, ?_⟩
  have hfunctions : p.avoids ["function_definition"] = true :=
    Place.avoids_mono (List.cons_subset_cons _ (List.nil_subset _)) hp.avoids
  -- The name in the declarator is qualified as a whole in both, so the scopes around decide.
  rw [hown, hqualified, Option.some_inj, Text.qualify_inj, hscope, hp.owner,
    Place.ancestors_of_mem_children hc]
  exact (scope_eq_owner_iff hfunctions).2

variable (dialect) (d)

/-- The walk for uses comes to every definition with a symbol that is not too deep. -/
theorem exists_carries (hdialect : dialect ∈ [C.c, C.cpp]) (h : IsGrammatical tree)
    {f : Place × Symbol} (hf : f ∈ definitions dialect d (.root tree))
    (hlevel : f.1.level ≤ d.limits.walkDepth.toNat + 1) :
    (Uses.C.rule d Uses.C.c).Carries id (.root tree) f.1 (f.1.scopeBy (ownScope d)) := by
  obtain ⟨hfTree, havoids, -⟩ := scopeBy_eq_iff hdialect h hf
  exact ((isScoped d).carries_iff hfTree havoids).2 ⟨hlevel, rfl⟩

/-- The definitions have the symbols of functions that stand for no prototypes.  The uses in such a
definition are attributed to the qualified name of its symbol exactly if no union around it, and no
record that only a typedef names, adds to the names in it. -/
theorem definition_scope_qualified_iff (hdialect : dialect ∈ [C.c, C.cpp]) (h : IsGrammatical tree) :
    (∀ f ∈ definitions dialect d (.root tree), f.2 ∈ symbols dialect d (.root tree)) ∧
    (∀ y ∈ symbols dialect d (.root tree), y.kind ∈ functionKinds →
      (∃ c, (c, y) ∈ definitions dialect d (.root tree)) ∨ IsPrototype dialect d y) ∧
    ∀ f ∈ definitions dialect d (.root tree), ∀ scope,
      (Uses.C.rule d Uses.C.c).Carries id (.root tree) f.1 scope →
        (scope = some f.2.qualifiedName ↔
          ∀ r ∈ f.1.ancestors, isUnseen d r = true → (ownerInside d r).getD "" = "") := by
  refine ⟨fun _ => mem_symbols_of_mem_definitions hdialect,
    fun _ => mem_definitions_or_isPrototype hdialect, ?_⟩
  intro f hf scope hcarries
  obtain ⟨hfTree, havoids, hiff⟩ := scopeBy_eq_iff hdialect h hf
  obtain ⟨-, rfl⟩ := ((isScoped d).carries_iff hfTree havoids).1 hcarries
  exact hiff

/-- The tree of a body that calls a function, from an offset on. -/
def bodyAt (n : Nat) : Node :=
  .mk "compound_statement" true ["body"] n (n + 8)
    [.token "\x7b" n (n + 1),
      .mk "expression_statement" true [] (n + 2) (n + 6)
        [.mk "call_expression" true [] (n + 2) (n + 5)
          [.leaf "identifier" ["function"] (n + 2) (n + 3),
            .mk "argument_list" true ["arguments"] (n + 3) (n + 5)
              [.token "(" (n + 3) (n + 4), .token ")" (n + 4) (n + 5)]],
          .token ";" (n + 5) (n + 6)],
      .token "\x7d" (n + 7) (n + 8)]

/-- The tree of an empty list of parameters, from an offset on. -/
def parametersAt (n : Nat) : Node :=
  .mk "parameter_list" true ["parameters"] n (n + 2)
    [.token "(" n (n + 1), .token ")" (n + 1) (n + 2)]

/-- A union with a function. -/
def functionInUnion : Document :=
  { path := "a.cpp"
    bytes := Text.Utf8.encode "union U \x7b void f() \x7b g(); \x7d \x7d;\n".toList
    limits := {} }

/-- The tree of `functionInUnion`. -/
def functionInUnionTree : Node :=
  .mk "translation_unit" true [] 0 31
    [.mk "union_specifier" true [] 0 29
      [.token "union" 0 5, .leaf "type_identifier" ["name"] 6 7,
        .mk "field_declaration_list" true ["body"] 8 29
          [.token "\x7b" 8 9,
            .mk "function_definition" true [] 10 27
              [.leaf "primitive_type" ["type"] 10 14,
                .mk "function_declarator" true ["declarator"] 15 18
                  [.leaf "field_identifier" ["declarator"] 15 16, parametersAt 16],
                bodyAt 19],
            .token "\x7d" 28 29]],
      .token ";" 29 30]

theorem functionInUnion_scope_ne :
    IsGrammatical functionInUnionTree ∧
      ∃ f ∈ definitions cpp functionInUnion (.root functionInUnionTree), ∃ scope,
        (Uses.C.rule functionInUnion Uses.C.c).Carries id (.root functionInUnionTree) f.1 scope ∧
          scope ≠ some f.2.qualifiedName := by
  have hgrammar : IsGrammatical functionInUnionTree := by
    unfold IsGrammatical
    decide +kernel
  have hunion : ∃ f ∈ definitions cpp functionInUnion (.root functionInUnionTree),
      f.1.level ≤ functionInUnion.limits.walkDepth.toNat + 1 ∧ ∃ r ∈ f.1.ancestors,
        isUnseen functionInUnion r = true ∧ (ownerInside functionInUnion r).getD "" ≠ "" := by
    decide +kernel
  obtain ⟨f, hf, hlevel, r, hr, hunseen, howner⟩ := hunion
  have hcpp : cpp ∈ [C.c, C.cpp] := by simp
  refine ⟨hgrammar, f, hf, _, exists_carries cpp _ hcpp hgrammar hf hlevel, fun heq => ?_⟩
  exact howner ((scopeBy_eq_iff hcpp hgrammar hf).2.2.1 heq r hr hunseen)

/-- A function of a class, defined outside the class. -/
def functionOutOfClass : Document :=
  { path := "a.cpp"
    bytes := Text.Utf8.encode "namespace n \x7b void A::f() \x7b g(); \x7d \x7d\n".toList
    limits := {} }

/-- The tree of `functionOutOfClass`. -/
def functionOutOfClassTree : Node :=
  .mk "translation_unit" true [] 0 37
    [.mk "namespace_definition" true [] 0 36
      [.token "namespace" 0 9, .leaf "namespace_identifier" ["name"] 10 11,
        .mk "declaration_list" true ["body"] 12 36
          [.token "\x7b" 12 13,
            .mk "function_definition" true [] 14 34
              [.leaf "primitive_type" ["type"] 14 18,
                .mk "function_declarator" true ["declarator"] 19 25
                  [.mk "qualified_identifier" true ["declarator"] 19 23
                    [.leaf "namespace_identifier" ["scope"] 19 20, .token "::" 20 22,
                      .leaf "identifier" ["name"] 22 23],
                    parametersAt 23],
                bodyAt 26],
            .token "\x7d" 35 36]]]

theorem functionOutOfClass_scope_eq :
    cpp ∈ [C.c, C.cpp] ∧ IsGrammatical functionOutOfClassTree ∧
      ∃ f ∈ definitions cpp functionOutOfClass (.root functionOutOfClassTree), ∃ scope,
        (Uses.C.rule functionOutOfClass Uses.C.c).Carries id (.root functionOutOfClassTree) f.1
          scope ∧ scope = some f.2.qualifiedName ∧ f.2.qualifiedName = "n::A::f" := by
  have hcpp : cpp ∈ [C.c, C.cpp] := by simp
  have hgrammar : IsGrammatical functionOutOfClassTree := by
    unfold IsGrammatical
    decide +kernel
  have hfunction : ∃ f ∈ definitions cpp functionOutOfClass (.root functionOutOfClassTree),
      f.1.level ≤ functionOutOfClass.limits.walkDepth.toNat + 1 ∧
        f.2.qualifiedName = "n::A::f" ∧ ∀ r ∈ f.1.ancestors,
          isUnseen functionOutOfClass r = true →
            (ownerInside functionOutOfClass r).getD "" = "" := by
    decide +kernel
  obtain ⟨f, hf, hlevel, hname, hseen⟩ := hfunction
  have hcarries := exists_carries cpp functionOutOfClass hcpp hgrammar hf hlevel
  refine ⟨hcpp, hgrammar, f, hf, _, hcarries, ?_, hname⟩
  obtain ⟨-, -, hiff⟩ := definition_scope_qualified_iff cpp functionOutOfClass hcpp hgrammar
  exact (hiff f hf _ hcarries).2 hseen

end Declarations.C

end SourceIndex
