import SourceIndex.Proofs.Scopes.CSharp
import SourceIndex.Proofs.Tree.Emission

/-!
# How deep uses in C# are looked for

The walk through a C# file stops at a depth.  A step of depth takes it one level down, or two into
the arguments of a creation, and a use is read off the three levels from its place on.
-/

namespace SourceIndex.Idiom.CSharp

variable {levels : Nat} {p : Place}

theorem typeName_truncate (d : Document) (h : p.level < levels) :
    typeName d (p.truncate levels) = typeName d p := by
  simp only [typeName, Place.kind_truncate, Place.childOf?_truncate h, Option.map_map,
    Function.comp_def, d.text_truncate]

theorem namespaceName_truncate (d : Document) (h : p.level < levels) :
    namespaceName d (p.truncate levels) = namespaceName d p := by
  rw [namespaceName, d.fieldText_truncate h, Place.childOfAny?_truncate h, d.text?_map_truncate,
    namespaceName]

/-- The namespaces that hold for siblings hold for them in the truncated tree. -/
theorem withFileSpace_truncate {named named' : Option String → Place → Option String}
    {places : List Place}
    (h : ∀ c ∈ places, ∀ space, named' space (c.truncate levels) = named space c)
    (space : Option String) :
    withFileSpace named' space (places.map (Place.truncate levels)) =
      (withFileSpace named space places).map fun v => (v.1, v.2.truncate levels) := by
  induction places generalizing space with
  | nil => rfl
  | cons c rest ih =>
      have hrest := ih fun b hb => h b (List.mem_cons_of_mem _ hb)
      rw [List.map_cons, withFileSpace, withFileSpace, List.map_cons, hrest, Place.kind_truncate,
        h c List.mem_cons_self]

theorem mem_of_mem_withFileSpace {named : Option String → Place → Option String}
    {places : List Place} {space : Option String} {v : Option String × Place}
    (h : v ∈ withFileSpace named space places) : v.2 ∈ places := by
  induction places generalizing space with
  | nil => cases h
  | cons c rest ih =>
      rcases List.mem_cons.1 h with rfl | h
      · exact List.mem_cons_self
      · exact List.mem_cons_of_mem _ (ih h)

end SourceIndex.Idiom.CSharp

namespace SourceIndex.Uses.CSharp

open SourceIndex.Idiom.CSharp

variable (d : Document) {levels : Nat} {s : Scope} {p c : Place}

/-- Every step goes down, two levels at most, and counts as one step of depth. -/
theorem visit_rule {s' : Scope} {q : Place} (h : Step.visit s' q ∈ rule d s p) :
    q.level ≤ p.level + 2 ∧ s'.depth = s.depth + 1 := by
  rw [rule_eq] at h
  split at h
  · cases h
  · obtain ⟨c, hc, h⟩ := List.mem_flatMap.1 h
    have hlevel := Place.level_of_mem_children hc
    by_cases hkind : c.kind ∈ closedKinds
    · obtain ⟨-, hq, -, rfl⟩ := visit_childSteps_of_closed d hkind h
      have hlevel' := Place.level_of_mem_children hq
      exact ⟨by omega, rfl⟩
    · obtain ⟨rfl, rfl⟩ := (visit_childSteps_iff d hkind).1 h
      exact ⟨by omega, rfl⟩

/-! ## Steps in the truncated tree -/

theorem spaceName_truncate (scope : Option String) (h : p.level < levels) :
    spaceName d scope (p.truncate levels) = spaceName d scope p := by
  rw [spaceName, namespaceName_truncate d h, spaceName]

theorem directive?_truncate (scope : Option String) (h : p.level + 1 < levels) :
    directive? d scope (p.truncate levels) = directive? d scope p := by
  have hp : p.level < levels := by omega
  have hread : ∀ cs ⊆ p.children, ∀ u : Directive,
      (cs.map (Place.truncate levels)).foldl (Directive.read d (p.hasChild "=")) u =
        cs.foldl (Directive.read d (p.hasChild "=")) u := by
    intro cs hcs
    induction cs with
    | nil => exact fun _ => rfl
    | cons c cs ih =>
        intro u
        have hlevel := Place.level_of_mem_children (hcs List.mem_cons_self)
        have hc : c.level < levels := by omega
        have hfirst : Directive.read d (p.hasChild "=") u (c.truncate levels) =
            Directive.read d (p.hasChild "=") u c := by
          simp only [Directive.read, Place.kind_truncate, Place.childOf?_truncate hc,
            d.text?_map_truncate, d.text_truncate]
        rw [List.map_cons, List.foldl_cons, List.foldl_cons, hfirst]
        exact ih (fun b hb => hcs (List.mem_cons_of_mem _ hb)) _
  simp only [directive?, Place.hasChild_truncate hp, Place.children_truncate hp,
    hread _ (List.Subset.refl _), d.reference_truncate]

/-- What is invoked is a name among the parts of the callee. -/
theorem invoked?_truncate (h : p.level + 2 < levels) :
    invoked? d (p.truncate levels) = invoked? d p := by
  have hp : p.level < levels := by omega
  have hnamed : ((p.truncate levels).namedChildren.find? fun c => c.kind != "argument_list") =
      (p.namedChildren.find? fun c => c.kind != "argument_list").map (Place.truncate levels) := by
    rw [Place.namedChildren_truncate hp, List.find?_map]
    simp only [Function.comp_def, Place.kind_truncate]
  have hor : ((p.truncate levels).field? "function").or
      ((p.truncate levels).namedChildren.find? fun c => c.kind != "argument_list") =
        ((p.field? "function").or
          (p.namedChildren.find? fun c => c.kind != "argument_list")).map
            (Place.truncate levels) := by
    rw [hnamed, Place.field?_truncate hp, Option.map_or]
  rw [invoked?, hor, invoked?]
  cases hfunction : (p.field? "function").or
      (p.namedChildren.find? fun c => c.kind != "argument_list") with
  | none => rfl
  | some f =>
      have hf : f ∈ p.children := by
        rcases Option.or_eq_some_iff.1 hfunction with hfield | ⟨-, hchild⟩
        · exact Place.mem_children_of_field? hfield
        · exact (List.mem_filter.1 (List.mem_of_find?_eq_some hchild)).1
      have hlevel := Place.level_of_mem_children hf
      have hlevel' : f.level < levels := by omega
      simp only [Option.map_some, Option.bind_some, Place.kind_truncate, d.text_truncate,
        typeName_truncate d hlevel', Place.field?_truncate hlevel']
      split
      · cases hname : f.field? "name" with
        | none => rfl
        | some name =>
            have hlevel'' := Place.level_of_field? hname
            have hname : name.level < levels := by omega
            simp only [Option.map_some, typeName_truncate d hname]
      · rfl
      · rfl
      · rfl

theorem invocationSteps_truncate (h : c.level + 2 < levels) :
    invocationSteps d s (c.truncate levels) =
      (invocationSteps d s c).map (Step.truncate levels) := by
  simp only [invocationSteps, invoked?_truncate d h, d.reference_truncate, List.map_append,
    Step.map_truncate_emit?, List.map_cons, List.map_nil, Step.truncate]

theorem creationSteps_truncate (h : c.level + 2 < levels) :
    creationSteps d s (c.truncate levels) = (creationSteps d s c).map (Step.truncate levels) := by
  have hc : c.level < levels := by omega
  have htype : (((c.truncate levels).field? "type").or
        ((c.truncate levels).childOfAny? typeNameKinds)).filter (fun t => t.isOneOf typeNameKinds) =
      (((c.field? "type").or (c.childOfAny? typeNameKinds)).filter fun t =>
        t.isOneOf typeNameKinds).map (Place.truncate levels) := by
    rw [Place.field?_truncate hc, Place.childOfAny?_truncate hc, ← Option.map_or, Option.filter_map]
    simp only [Function.comp_def, Place.isOneOf_truncate]
  simp only [creationSteps, htype, Place.childOf?_truncate hc, List.map_append,
    Step.map_truncate_emit?, Step.map_truncate_visit?, Option.map_map]
  cases hfound : ((c.field? "type").or (c.childOfAny? typeNameKinds)).filter fun t =>
      t.isOneOf typeNameKinds with
  | none => rfl
  | some t =>
      have ht : t ∈ c.children := by
        have hfound := (Option.filter_eq_some_iff.1 hfound).1
        rcases Option.or_eq_some_iff.1 hfound with hfield | ⟨-, hchild⟩
        · exact Place.mem_children_of_field? hfield
        · exact Place.mem_children_of_childOfAny? hchild
      have hlevel := Place.level_of_mem_children ht
      have ht : t.level < levels := by omega
      simp only [Option.map_some, Function.comp_apply, d.reference_truncate,
        typeName_truncate d ht]

theorem attributes_truncate (scope : Option String) (h : p.level + 1 < levels) :
    attributes d scope (p.truncate levels) = attributes d scope p := by
  rw [attributes, Place.childrenOf_truncate (by omega), List.filterMap_map, attributes]
  refine List.filterMap_congr fun a ha => ?_
  have hlevel := Place.level_of_mem_children (List.mem_filter.1 ha).1
  have ha : a.level < levels := by omega
  simp only [Function.comp_apply, d.fieldText_truncate ha, Place.childOfAny?_truncate ha,
    d.text?_map_truncate, d.reference_truncate]

theorem nullable?_truncate (scope : Option String) (h : p.level + 1 < levels) :
    nullable? d scope (p.truncate levels) = nullable? d scope p := by
  have hp : p.level < levels := by omega
  rw [nullable?, Place.childOfAny?_truncate hp, Option.filter_map, Option.map_map, nullable?]
  simp only [Function.comp_def, Place.kind_truncate, d.reference_truncate]
  cases hchild : p.childOfAny? ("predefined_type" :: typeNameKinds) with
  | none => rfl
  | some t =>
      have hlevel := Place.level_of_mem_children (Place.mem_children_of_childOfAny? hchild)
      have ht : t.level < levels := by omega
      by_cases hkind : t.kind = "predefined_type" <;>
        simp [Option.filter, hkind, typeName_truncate d ht]

theorem heritage_truncate (owner : String) (h : p.level + 2 < levels) :
    heritage d owner (p.truncate levels) = heritage d owner p := by
  have hp : p.level < levels := by omega
  -- The list of bases stands below the type, its names below that, and their parts one level
  -- further down.
  have hnames : ∀ list : Option Place, (∀ b ∈ list, b.level = p.level + 1) →
      (((((list.map (Place.truncate levels)).map Place.children).getD []).filter fun c =>
          c.isOneOf typeNameKinds).map (typeName d)) =
        ((((list.map Place.children).getD []).filter fun c => c.isOneOf typeNameKinds).map
          (typeName d)) := by
    intro list hlist
    cases list with
    | none => rfl
    | some b =>
        have hlevel := hlist b rfl
        have hb : b.level < levels := by omega
        simp only [Option.map_some, Option.getD_some, Place.children_truncate hb, List.filter_map,
          List.map_map, Function.comp_def, Place.isOneOf_truncate]
        refine List.map_congr_left fun c hc => ?_
        have hlevel' := Place.level_of_mem_children (List.mem_filter.1 hc).1
        exact typeName_truncate d (by omega)
  have hlist : (if (p.truncate levels).kind == "enum_declaration" then none
        else (p.truncate levels).childOf? "base_list") =
      (if p.kind == "enum_declaration" then none else p.childOf? "base_list").map
        (Place.truncate levels) := by
    rw [Place.kind_truncate]
    split
    · rfl
    · exact Place.childOf?_truncate hp _
  have hlevel : ∀ b ∈ (if p.kind == "enum_declaration" then none else p.childOf? "base_list"),
      b.level = p.level + 1 := by
    intro b hb
    split at hb
    · cases hb
    · exact Place.level_of_childOf? hb
  simp only [heritage, hlist, hnames _ hlevel, d.reference_truncate]

/-- What a child uses is read off the three levels from there on. -/
theorem childSteps_truncate (h : c.level + 2 < levels) :
    childSteps d s (c.truncate levels) = (childSteps d s c).map (Step.truncate levels) := by
  have hc : c.level < levels := by omega
  have hc' : c.level + 1 < levels := by omega
  unfold childSteps
  simp only [Place.kind_truncate, d.fieldText_truncate hc, spaceName_truncate d _ hc,
    directive?_truncate d _ hc', attributes_truncate d _ hc', nullable?_truncate d _ hc',
    heritage_truncate d _ h]
  split
  · rfl
  · rfl
  · rw [Step.map_truncate_emit?]
  · exact invocationSteps_truncate d h
  · exact creationSteps_truncate d h
  · rw [Step.map_truncate_emitAll]
  · rw [Step.map_truncate_emit?]
  · split
    · rw [List.map_append, Step.map_truncate_emitAll]
      rfl
    · split <;> rfl

/-- Where the walk is not too deep, its steps are the same in the truncated tree. -/
theorem rule_truncate (hp : p.level ≤ 2 * s.depth) :
    rule d s (p.truncate d.keptLevels) = (rule d s p).map (Step.truncate d.keptLevels) := by
  simp only [rule]
  split
  · rfl
  · rename_i hdepth
    have hreach : p.level ≤ 3 * s.depth + 1 := by omega
    have hlevels := d.add_le_keptLevels hreach hdepth
    have hchild : ∀ c ∈ p.children, c.level + 2 < d.keptLevels := by
      intro c hc
      have hlevel := Place.level_of_mem_children hc
      omega
    have hnamed : ∀ c ∈ p.children, ∀ space : Option String,
        spaceName d (space.or s.name) (c.truncate d.keptLevels) = spaceName d (space.or s.name) c :=
      fun c hc space => spaceName_truncate d _ (Nat.lt_of_add_right_lt (hchild c hc))
    rw [Place.children_truncate (by omega), withFileSpace_truncate hnamed, List.flatMap_map,
      List.map_flatMap]
    refine List.flatMap_congr fun v hv => childSteps_truncate d ?_
    exact hchild v.2 (mem_of_mem_withFileSpace hv)

/-- The uses of a file come from the levels that the limit allows. -/
theorem walk_truncate (tree : Node) :
    references d (.root (tree.truncate d.keptLevels)) = references d (.root tree) := by
  have hstep : ∀ {s s' : Scope} {p q : Place}, p.level ≤ 2 * s.depth →
      Step.visit s' q ∈ rule d s p → q.level ≤ 2 * s'.depth := by
    intro s s' p q hp h
    obtain ⟨hlevel, hdepth⟩ := visit_rule d h
    omega
  have hstart : (Place.root tree).level ≤ 2 * ({} : Scope).depth := Nat.zero_le _
  exact Rule.walk_truncate (isScoped d).descends hstep (rule_truncate d) hstart

end SourceIndex.Uses.CSharp
