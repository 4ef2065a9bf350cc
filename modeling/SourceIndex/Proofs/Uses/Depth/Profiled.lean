import SourceIndex.Profile.Languages
import SourceIndex.Proofs.Scopes.Profiled
import SourceIndex.Proofs.Tree.Emission

/-!
# How deep uses are looked for with a profile

The walk through a file that is read by a profile stops at a depth of its own, and goes down one
level for a step of depth.  Below a clause that names types, the names are looked for as many levels
further down as the depth allows.
-/

namespace SourceIndex

namespace Rules

variable (d : Document) {levels : Nat} {p : Place}

theorem clauseTarget?_truncate (h : p.level + d.limits.genericDepth.toNat ≤ levels) :
    clauseTarget? d (p.truncate levels) = clauseTarget? d p := by
  simp only [clauseTarget?, Place.descendants_truncate h, List.filter_map, List.findSome?_map,
    Function.comp_def, Place.isOneOf_truncate, d.text_truncate]

theorem edge?_truncate (kind : ReferenceKind) (owner target : String) :
    edge? d kind (p.truncate levels) owner target = edge? d kind p owner target := by
  simp only [edge?, d.reference_truncate]

theorem inherited_truncate (rule : Superclasses) (owner : String) (h : p.level + 2 < levels) :
    inherited d rule owner (p.truncate levels) = inherited d rule owner p := by
  have hp : p.level < levels := by omega
  have hlevel : ∀ clause, ∀ c ∈ p.childrenOf clause, c.level + 1 < levels := by
    intro clause c hc
    have hlevel := Place.level_of_mem_children (List.mem_filter.1 hc).1
    omega
  have hedge : edge? d .inherits (p.truncate levels) owner = edge? d .inherits p owner :=
    funext fun target => edge?_truncate d .inherits owner target
  cases rule with
  | one clause name =>
      simp only [inherited, hedge, Place.childrenOf_truncate hp, List.filterMap_map]
      refine congrArg _ (List.filterMap_congr fun c hc => ?_)
      exact d.childText_truncate (hlevel clause c hc) name
  | several clause name =>
      simp only [inherited, hedge, Place.childrenOf_truncate hp, List.flatMap_map]
      refine congrArg _ (List.flatMap_congr fun c hc => ?_)
      have hc : c.level < levels := Nat.lt_of_succ_lt (hlevel clause c hc)
      simp only [Place.childrenOf_truncate hc, List.map_map, Function.comp_def, d.text_truncate]

/-- The bodies of a type, in which it may use traits. -/
def traitBodies (p : Place) : List Place :=
  match p.field? "body" with
  | some body => [body]
  | none => p.children.filter fun c => c.isOneOf Vocabulary.bodies

theorem adopted_statement (kind name owner : String) (p : Place) :
    adopted d (.statement kind name) owner p =
      (traitBodies p).flatMap fun body => (body.childrenOf kind).filterMap fun s =>
        (d.childText s name).bind (edge? d .usesTrait s owner) := by
  rw [← List.filterMap_flatMap]
  rfl

theorem traitBodies_truncate (h : p.level < levels) :
    traitBodies (p.truncate levels) = (traitBodies p).map (Place.truncate levels) := by
  rw [traitBodies, Place.field?_truncate h, Place.children_truncate h, List.filter_map, traitBodies]
  cases p.field? "body" with
  | none => simp only [Option.map_none, Function.comp_def, Place.isOneOf_truncate]
  | some body => rfl

theorem level_of_mem_traitBodies {body : Place} (h : body ∈ traitBodies p) :
    body.level = p.level + 1 := by
  unfold traitBodies at h
  split at h
  · rename_i hfield
    cases List.mem_singleton.1 h
    exact Place.level_of_field? hfield
  · exact Place.level_of_mem_children (List.mem_filter.1 h).1

theorem adopted_truncate (rule : Adoption) (owner : String)
    (h : p.level + d.limits.genericDepth.toNat + 5 ≤ levels) :
    adopted d rule owner (p.truncate levels) = adopted d rule owner p := by
  have hp : p.level < levels := by omega
  cases rule with
  | statement kind name =>
      rw [adopted_statement, adopted_statement, traitBodies_truncate hp, List.flatMap_map]
      refine List.flatMap_congr fun body hbody => ?_
      have hlevel := level_of_mem_traitBodies hbody
      rw [Place.childrenOf_truncate (by omega), List.filterMap_map]
      refine List.filterMap_congr fun s hs => ?_
      have hlevel' := Place.level_of_mem_children (List.mem_filter.1 hs).1
      rw [Function.comp_apply, d.childText_truncate (by omega)]
      exact Option.bind_congr fun target _ => edge?_truncate d .usesTrait owner target
  | clause kind name =>
      simp only [adopted, edge?_truncate]
      have hbelow : ((p.truncate levels).childrenOf kind).flatMap
            (Place.descendants d.limits.genericDepth.toNat) =
          ((p.childrenOf kind).flatMap (Place.descendants d.limits.genericDepth.toNat)).map
            (Place.truncate levels) := by
        rw [Place.childrenOf_truncate hp, List.flatMap_map, List.map_flatMap]
        refine List.flatMap_congr fun c hc => ?_
        have hlevel := Place.level_of_mem_children (List.mem_filter.1 hc).1
        exact Place.descendants_truncate (by omega)
      rw [hbelow, List.filter_map, List.filterMap_map]
      simp only [Function.comp_def, Place.kind_truncate, d.text_truncate]
  | block kind traitField typeField => rfl

theorem heritage_truncate (rules : Rules) (owner : String)
    (h : p.level + d.limits.genericDepth.toNat + 5 ≤ levels) :
    rules.heritage d owner (p.truncate levels) = rules.heritage d owner p := by
  rw [heritage, heritage]
  refine congrArg₂ (· ++ ·) ?_ ?_
  · cases rules.superclasses with
    | none => rfl
    | some rule => exact inherited_truncate d rule owner (by omega)
  · cases rules.adoption with
    | none => rfl
    | some rule => exact adopted_truncate d rule owner h

theorem blockHeritage?_truncate (rules : Rules) (h : p.level < levels) :
    rules.blockHeritage? d (p.truncate levels) = rules.blockHeritage? d p := by
  simp only [blockHeritage?, Place.kind_truncate, d.fieldText_truncate h, edge?_truncate]

end Rules

namespace Profile

/-- A profile that reads what a place declares and inherits from off the next five levels, and off
as many more as the depth of a walk with a profile allows. -/
structure ReadsNearby (profile : Profile) : Prop where
  declared? : ∀ {levels : Nat} {p : Place}, p.level < levels →
    profile.declared? (p.truncate levels) = profile.declared? p
  fixedName? : ∀ (levels : Nat) (p : Place),
    profile.fixedName? (p.truncate levels) = profile.fixedName? p
  heritage : ∀ (d : Document) (kind : SymbolKind) (owner : String) {levels : Nat} {p : Place},
    p.level + d.limits.genericDepth.toNat + 5 ≤ levels →
      profile.heritage d kind owner (p.truncate levels) = profile.heritage d kind owner p
  blockHeritage? : ∀ (d : Document) {levels : Nat} {p : Place}, p.level < levels →
    profile.blockHeritage? d (p.truncate levels) = profile.blockHeritage? d p

theorem ofRules_readsNearby (rules : Rules) : (ofRules rules).ReadsNearby where
  declared? := fun _ => rfl
  fixedName? := fun _ _ => rfl
  heritage := fun d _ owner _ _ h => rules.heritage_truncate d owner h
  blockHeritage? := fun d _ _ h => rules.blockHeritage?_truncate d h

namespace Kotlin

variable (d : Document) {levels : Nat} {p : Place}

theorem declared?_truncate (h : p.level < levels) :
    declared? (p.truncate levels) = declared? p := by
  simp only [declared?, Place.kind_truncate, Place.hasToken_truncate h, Place.hasChild_truncate h,
    Place.isBelow_truncate]

theorem delegation?_truncate (kind : SymbolKind) (owner : String) {spec : Place}
    (h : spec.level + d.limits.genericDepth.toNat ≤ levels) (h' : spec.level + 3 ≤ levels) :
    delegation? d kind owner (p.truncate levels) (spec.truncate levels) =
      delegation? d kind owner p spec := by
  simp only [delegation?, delegationTarget?, Rules.clauseTarget?_truncate d h, d.text_truncate,
    Place.descendantOfAny?_truncate h', Option.isSome_map, Rules.edge?_truncate]

theorem heritage_truncate (kind : SymbolKind) (owner : String)
    (h : p.level + d.limits.genericDepth.toNat + 5 ≤ levels) :
    heritage d kind owner (p.truncate levels) = heritage d kind owner p := by
  simp only [heritage, Place.isOneOf_truncate, rules.heritage_truncate d owner h]
  split
  · rw [Place.descendants_truncate (by omega), List.filter_map, List.filterMap_map]
    simp only [Function.comp_def, Place.kind_truncate]
    refine List.filterMap_congr fun spec hspec => ?_
    have hlevel := Place.level_of_mem_descendants (List.mem_filter.1 hspec).1
    exact delegation?_truncate d kind owner (by omega) (by omega)
  · rfl

end Kotlin

theorem kotlin_readsNearby : kotlin.ReadsNearby where
  declared? := Kotlin.declared?_truncate
  fixedName? := fun _ _ => rfl
  heritage := fun d kind owner _ _ h => Kotlin.heritage_truncate d kind owner h
  blockHeritage? := fun _ _ _ _ => rfl

namespace Swift

variable (d : Document) {levels : Nat} {p : Place}

theorem declared?_truncate (h : p.level < levels) :
    declared? (p.truncate levels) = declared? p := by
  simp only [declared?, Place.kind_truncate, Place.hasToken_truncate h, Place.hasChild_truncate h,
    Place.isBelow_truncate]

theorem fixedName?_truncate : fixedName? (p.truncate levels) = fixedName? p := by
  rw [fixedName?, Place.kind_truncate, fixedName?]

theorem heritage_truncate (kind : SymbolKind) (owner : String)
    (h : p.level + d.limits.genericDepth.toNat + 5 ≤ levels) :
    heritage d kind owner (p.truncate levels) = heritage d kind owner p := by
  rw [heritage, Place.childrenOf_truncate (by omega), List.zipIdx_map, List.filterMap_map, heritage]
  refine List.filterMap_congr fun ⟨spec, position⟩ hspec => ?_
  have hmem : spec ∈ p.childrenOf "inheritance_specifier" := List.fst_mem_of_mem_zipIdx hspec
  have hlevel := Place.level_of_mem_children (List.mem_filter.1 hmem).1
  have htarget : specifierTarget? d (spec.truncate levels) = specifierTarget? d spec := by
    rw [specifierTarget?, Rules.clauseTarget?_truncate d (by omega), d.text_truncate,
      specifierTarget?]
  simp only [Function.comp_apply, Prod.map, id_eq, htarget, Rules.edge?_truncate]

end Swift

theorem swift_readsNearby : swift.ReadsNearby where
  declared? := Swift.declared?_truncate
  fixedName? := fun _ _ => Swift.fixedName?_truncate
  heritage := fun d kind owner _ _ h => Swift.heritage_truncate d kind owner h
  blockHeritage? := fun _ _ _ _ => rfl

theorem ofLanguage_readsNearby (language : String) : (ofLanguage language).ReadsNearby := by
  unfold ofLanguage
  split
  · exact kotlin_readsNearby
  · exact swift_readsNearby
  · exact ofRules_readsNearby _

variable {profile : Profile} (d : Document) {levels : Nat} {p : Place}

theorem ReadsNearby.kind?_truncate (hprofile : profile.ReadsNearby) (h : p.level < levels) :
    profile.kind? (p.truncate levels) = profile.kind? p := by
  rw [kind?, hprofile.declared? h, Place.kind_truncate, kind?]

theorem ReadsNearby.name?_truncate (hprofile : profile.ReadsNearby) (h : p.level < levels) :
    profile.name? d (p.truncate levels) = profile.name? d p := by
  simp only [name?, hprofile.fixedName?, d.fieldText_truncate h, Place.childOfAny?_truncate h,
    Option.map_map, Function.comp_def, d.text_truncate]

end Profile

namespace Uses.Profiled

variable {profile : Profile} (d : Document) {levels : Nat} {s : Scope} {p c : Place}

theorem called?_truncate (h : p.level < levels) : called? d (p.truncate levels) = called? d p := by
  have hcallee : ((((p.truncate levels).field? "function").or
        ((p.truncate levels).field? "method")).or ((p.truncate levels).field? "name")).or
          ((p.truncate levels).childOfAny? Vocabulary.callees) =
      ((((p.field? "function").or (p.field? "method")).or (p.field? "name")).or
        (p.childOfAny? Vocabulary.callees)).map (Place.truncate levels) := by
    simp only [Place.field?_truncate h, Place.childOfAny?_truncate h, ← Option.map_or]
  rw [called?, hcallee, called?]
  cases (((p.field? "function").or (p.field? "method")).or (p.field? "name")).or
      (p.childOfAny? Vocabulary.callees) with
  | none => rfl
  | some callee =>
      simp only [Option.map_some, Option.bind_eq_bind, Option.bind_some, d.text_truncate]

/-- What a child uses is read off the levels nearby. -/
theorem childSteps_truncate (hprofile : profile.ReadsNearby)
    (h : c.level + d.limits.genericDepth.toNat + 5 ≤ levels) :
    childSteps profile d s (c.truncate levels) =
      (childSteps profile d s c).map (Step.truncate levels) := by
  have hc : c.level < levels := by omega
  unfold childSteps
  rw [Place.isOneOf_truncate, called?_truncate d hc, hprofile.blockHeritage? d hc,
    hprofile.kind?_truncate hc, hprofile.name?_truncate d hc]
  split
  · simp only [d.reference_truncate, List.map_append, Step.map_truncate_emit?, List.map_cons,
      List.map_nil, Step.truncate]
  · rw [List.map_append, Step.map_truncate_emit?]
    refine congrArg _ ?_
    split
    · simp only [declarationSteps, hprofile.heritage d _ _ h, List.map_append,
        Step.map_truncate_emitAll, List.map_cons, List.map_nil, Step.truncate]
    · rfl

/-- Where the walk is not too deep, its steps are the same in the truncated tree. -/
theorem rule_truncate (hprofile : profile.ReadsNearby) (hp : p.level ≤ s.depth) :
    rule profile d s (p.truncate (profiledLimits d).keptLevels) =
      (rule profile d s p).map (Step.truncate (profiledLimits d).keptLevels) := by
  rw [rule, rule]
  split
  · rfl
  · rename_i hdepth
    -- The depth is within the limit, and what is inherited is looked for as deep again.
    have hlevels : (profiledLimits d).keptLevels = 4 * (d.limits.genericDepth.toNat + 2) := rfl
    rw [Place.children_truncate (by omega), List.flatMap_map, List.map_flatMap]
    refine List.flatMap_congr fun c hc => childSteps_truncate d hprofile ?_
    have hlevel := Place.level_of_mem_children hc
    omega

/-- The uses of a file come from the levels that the limit allows. -/
theorem walk_truncate (language : String) (tree : Node) :
    references (.ofLanguage language) d (.root (tree.truncate (profiledLimits d).keptLevels)) =
      references (.ofLanguage language) d (.root tree) := by
  have hcalls := fun p : Place => Profile.kind?_of_calls language (p := p)
  have hstep : ∀ {s s' : Scope} {p q : Place}, p.level ≤ s.depth →
      Step.visit s' q ∈ rule (.ofLanguage language) d s p → q.level ≤ s'.depth := by
    intro s s' p q hp h
    obtain ⟨-, c, hc, h⟩ := (isScoped _ d hcalls).exists_of_visit h
    have hlevel := Place.level_of_mem_children hc
    obtain ⟨rfl, rfl⟩ := (visit_childSteps_iff _ d hcalls).1 h
    show q.level ≤ s.depth + 1
    omega
  have hstart : (Place.root tree).level ≤ ({} : Scope).depth := Nat.le_refl 0
  exact Rule.walk_truncate (isScoped _ d hcalls).descends hstep
    (rule_truncate d (Profile.ofLanguage_readsNearby language)) hstart

end Uses.Profiled

end SourceIndex
