import SourceIndex.Proofs.Scopes.Java

/-!
# What stands around a class of Apex

A class may lose its modifiers in the tree, so they are looked for in the text around its start,
from 80 octets before it to 50 after.  Not all that stands there is the class's own: where a
neighbour ends just before a class, the class is taken to be public by the words of the neighbour,
and takes over its sharing mode.

Two sources that differ in the neighbours of a class tell the same of the class exactly if the text
around it says the same in both.  It does where they differ further away only.
-/

namespace SourceIndex.Declarations.Apex

open SourceIndex.Idiom.Apex
open SourceIndex.Idiom.Java (modifiers annotations withAnnotations Dialect)
open SourceIndex.Uses.Java (scopeKinds typeKinds)
open SourceIndex.Declarations.Java (details typeSignature typeSteps enumSteps childSteps rule
  rule_descends rule_eq_entries entries mem_entries visit_typeSteps visit_enumSteps visit_childSteps
  scopes)

/-! ## Sources that differ in the neighbours of a class -/

/-- The kinds of types for which the text around them is read. -/
def classKinds : List String :=
  ["class_declaration", "record_declaration", "interface_declaration",
    "annotation_type_declaration"]

/-- The kinds of the members of a body. -/
def memberKinds : List String :=
  "field_declaration" :: "constant_declaration" :: scopeKinds

/-- Two sources of one length say the same in a class.  They differ only in members beside it that
end before it starts. -/
structure DifferInNeighbours (d d' : Document) (p : Place) : Prop where
  limits : d'.limits = d.limits
  length : d'.bytes.length = d.bytes.length
  text : ∀ q ∈ p.subtree, d'.text q = d.text q
  octets : ∀ i, d'.bytes[i]? ≠ d.bytes[i]? → ∃ b ∈ p.siblingsBefore, b.kind ∈ memberKinds ∧
    b.stop ≤ p.start ∧ b.start ≤ i ∧ i < b.stop

instance (d d' : Document) (p : Place) : Decidable (DifferInNeighbours d d' p) :=
  decidable_of_iff
    ((d'.limits = d.limits ∧ d'.bytes.length = d.bytes.length) ∧
      (∀ q ∈ p.subtree, d'.text q = d.text q) ∧
      ∀ i < d.bytes.length, d'.bytes[i]? ≠ d.bytes[i]? → ∃ b ∈ p.siblingsBefore,
        b.kind ∈ memberKinds ∧ b.stop ≤ p.start ∧ b.start ≤ i ∧ i < b.stop)
    ⟨fun ⟨⟨hlimits, hlength⟩, htext, hoctets⟩ => ⟨hlimits, hlength, htext, fun i hi =>
        hoctets i (Nat.lt_of_not_le fun hle => hi (by
          rw [List.getElem?_eq_none hle, List.getElem?_eq_none (hlength ▸ hle)])) hi⟩,
      fun h => ⟨⟨h.limits, h.length⟩, h.text, fun i _ => h.octets i⟩⟩

/-- What a symbol tells of its class: the visibility, whether it is exported, and the signature. -/
def facts (y : Symbol) : Visibility × Bool × Option String :=
  (y.visibility, y.isExported, y.signature)

/-! ## What the text around a class says -/

/-- Does the text around a class hold a word that makes it public? -/
def saysPublic (d : Document) (p : Place) : Bool :=
  (surroundings d p).any fun text =>
    Text.has "global " (Text.lower text) || Text.has "public " (Text.lower text)

/-- The first sharing mode in the text around a class. -/
def sharingMode? (d : Document) (p : Place) : Option String :=
  (surroundings d p).bind fun text =>
    ((sharing.find? text.toList).bind fun m => m.text? 1 text.toList).map Text.squeeze

/-- A symbol of the package is made public, if its surroundings say so. -/
def madePublic (isPublic : Bool) (y : Symbol) : Symbol :=
  if y.visibility == .package && isPublic then
    { y with visibility := .public, isExported := true }
  else
    y

/-- A sharing mode is put before a signature that does not have it yet. -/
def withMode (mode? : Option String) (signature : String) : String :=
  match mode? with
  | none => signature
  | some mode => if Text.has mode signature then signature else mode ++ " " ++ signature

/-- The sharing mode that is put before a signature, if the signature does not have it yet. -/
def addedMode? (d : Document) (p : Place) (signature : String) : Option String :=
  (sharingMode? d p).filter fun mode => !Text.has mode signature

/-- The signature that a class has by itself. -/
def ownSignature (d : Document) (p : Place) (name : String) : String :=
  withAnnotations d p (typeSignature d p name)

/-- The symbol of a class before its surroundings are read. -/
def ownSymbol (d : Document) (p : Place) (s : Scope) (kind : SymbolKind) (name : String) : Symbol :=
  d.symbol p name kind
    (details d s.name p name (ownSignature d p name) (visibility (modifiers d p)))

variable {d d' : Document} {p q root : Place} {s s' t : Scope} {y y' : Symbol} {name : String}

theorem madePublic_visibility (isPublic : Bool) (y : Symbol) : (madePublic isPublic y).visibility =
    if y.visibility == .package && isPublic then .public else y.visibility := by
  unfold madePublic
  split <;> rfl

theorem madePublic_isExported (isPublic : Bool) (y : Symbol) : (madePublic isPublic y).isExported =
    ((y.visibility == .package && isPublic) || y.isExported) := by
  unfold madePublic
  split <;> simp [*]

theorem madePublic_name (isPublic : Bool) (y : Symbol) : (madePublic isPublic y).name = y.name := by
  unfold madePublic
  split <;> rfl

theorem madePublic_signature (isPublic : Bool) (y : Symbol) :
    (madePublic isPublic y).signature = y.signature := by
  unfold madePublic
  split <;> rfl

theorem withMode_none : withMode none = id :=
  rfl

/-- The visibility and the sharing mode are changed each on its own. -/
theorem adjust_eq (hkind : y.kind = .class ∨ y.kind = .interface) :
    adjust d p y = { madePublic (saysPublic d p) y with
      signature := y.signature.map (withMode (sharingMode? d p)) } := by
  have hclass : (y.kind != .class && y.kind != .interface) = false := by
    rcases hkind with hkind | hkind <;> rw [hkind] <;> rfl
  unfold adjust saysPublic sharingMode?
  rw [hclass, if_neg Bool.false_ne_true]
  cases surroundings d p with
  | none => simp [madePublic, withMode_none]
  | some text =>
      show (match (sharing.find? text.toList).bind fun m => m.text? 1 text.toList with
        | none => madePublic _ y
        | some mode => { madePublic _ y with
            signature := (madePublic _ y).signature.map (withMode (some (Text.squeeze mode))) }) = _
      rw [madePublic_signature, Option.bind_some, Option.any_some]
      cases (sharing.find? text.toList).bind fun m => m.text? 1 text.toList with
      | none =>
          rw [Option.map_none, withMode_none, Option.map_id, id_eq, ← madePublic_signature]
      | some mode => rfl

/-- What is put before a signature is told by the mode that it does not have yet. -/
theorem withMode_eq_iff {mode? mode?' : Option String} {signature : String} :
    withMode mode?' signature = withMode mode? signature ↔
      (mode?'.filter fun mode => !Text.has mode signature) =
        mode?.filter fun mode => !Text.has mode signature := by
  have hadded : ∀ m : Option String, withMode m signature =
      (((m.filter fun mode => !Text.has mode signature).map (· ++ " ")).getD "") ++ signature := by
    intro m
    cases m with
    | none => simp [withMode]
    | some mode => cases h : Text.has mode signature <;> simp [withMode, Option.filter, h]
  have hinjective : ∀ a b : Option String,
      (a.map (· ++ " ")).getD "" = (b.map (· ++ " ")).getD "" ↔ a = b := by
    intro a b
    cases a <;> cases b <;> simp
  rw [hadded, hadded, String.append_left_inj, hinjective]

/-- What a class tells is what it says by itself, and what its surroundings add. -/
theorem facts_adjust {kind : SymbolKind} (hkind : kind = .class ∨ kind = .interface) :
    facts (adjust d p (ownSymbol d p s kind name)) =
      let own := visibility (modifiers d p)
      let isPublic := own == .package && saysPublic d p
      (if isPublic then .public else own, isPublic || own == .public,
        some (withMode (sharingMode? d p) (ownSignature d p name))) := by
  have hown : (ownSymbol d p s kind name).kind = .class ∨
      (ownSymbol d p s kind name).kind = .interface := hkind
  rw [adjust_eq hown]
  show (_, _, _) = _
  rw [madePublic_visibility, madePublic_isExported]
  rfl

/-! ## What a class says by itself -/

section

variable (h : ∀ q ∈ p.subtree, d'.text q = d.text q)

include h

theorem map_text_congr {o : Option Place} (ho : ∀ q ∈ o, q ∈ p.children) :
    o.map d'.text = o.map d.text :=
  Option.map_congr fun q hq => h q (Place.mem_subtree_of_child (ho q hq))

theorem fieldText_congr (field : String) : d'.fieldText p field = d.fieldText p field :=
  map_text_congr h fun _ hq => Place.mem_children_of_field? hq

theorem modifiers_congr : modifiers d' p = modifiers d p := by
  unfold modifiers
  cases hm : p.childOf? "modifiers" with
  | none => rfl
  | some m =>
      have hchild := Place.mem_subtree_of_child (Place.mem_children_of_childOf? hm)
      refine List.flatMap_congr fun c hc => ?_
      rw [h c (Place.mem_subtree_of_mem_children hchild (List.mem_filter.1 hc).1)]

theorem annotations_congr : annotations d' p = annotations d p := by
  unfold annotations
  cases hm : p.childOf? "modifiers" with
  | none => rfl
  | some m =>
      have hchild := Place.mem_subtree_of_child (Place.mem_children_of_childOf? hm)
      refine List.map_congr_left fun c hc => ?_
      rw [h c (Place.mem_subtree_of_mem_children hchild (List.mem_filter.1 hc).1)]

theorem ownSignature_congr (name : String) : ownSignature d' p name = ownSignature d p name := by
  have hextends : d'.text? (p.childOf? "extends_interfaces") =
      d.text? (p.childOf? "extends_interfaces") :=
    map_text_congr h fun _ hq => Place.mem_children_of_childOf? hq
  simp only [ownSignature, withAnnotations, typeSignature, annotations_congr h, fieldText_congr h,
    hextends]

end

/-! ## What the walk comes to -/

variable (d') in
theorem exists_fieldText {field : String} (h : d.fieldText p field = some name) :
    ∃ name', d'.fieldText p field = some name' := by
  obtain ⟨q, hq, -⟩ := Option.map_eq_some_iff.1 h
  exact ⟨d'.text q, by rw [Document.fieldText, hq, Option.map_some]⟩

theorem childSteps_of_mem_classKinds (hkind : p.kind ∈ classKinds) :
    ∃ kind, (kind = .class ∨ kind = .interface) ∧
      ∀ dialect d s, childSteps dialect d s p = typeSteps dialect d s kind p := by
  simp only [classKinds, List.mem_cons, List.not_mem_nil, or_false] at hkind
  rcases hkind with hkind | hkind | hkind | hkind
  · exact ⟨.class, Or.inl rfl, fun _ _ _ => by simp only [childSteps, hkind]⟩
  · exact ⟨.class, Or.inl rfl, fun _ _ _ => by simp only [childSteps, hkind]⟩
  · exact ⟨.interface, Or.inr rfl, fun _ _ _ => by simp only [childSteps, hkind]⟩
  · exact ⟨.interface, Or.inr rfl, fun _ _ _ => by simp only [childSteps, hkind]⟩

theorem first?_typeSteps {kind : SymbolKind} :
    Step.first? (typeSteps dialect d s kind p) =
      (d.fieldText p "name").map fun name => adjust d p (ownSymbol d p s kind name) := by
  unfold typeSteps
  cases d.fieldText p "name" <;> rfl

/-- The surroundings are read for each of these types, by what the type says by itself. -/
theorem exists_of_mem_scopes (hkind : p.kind ∈ classKinds) (h : (p, y) ∈ scopes dialect d root) :
    ∃ s kind name, (kind = .class ∨ kind = .interface) ∧ d.fieldText p "name" = some name ∧
      y = adjust d p (ownSymbol d p s kind name) := by
  obtain ⟨v, -, s, -, -, hfirst⟩ := Rule.mem_firsts.1 h
  obtain ⟨kind, hkind, hsteps⟩ := childSteps_of_mem_classKinds hkind
  rw [hsteps, first?_typeSteps, Option.map_eq_some_iff] at hfirst
  obtain ⟨name, hname, hy⟩ := hfirst
  exact ⟨s, kind, name, hkind, hname, hy.symm⟩

/-- Where the walk goes to from a child is told by the tree. -/
theorem exists_visit_childSteps {dialect : Dialect} {c : Place}
    (h : Step.visit t q ∈ childSteps dialect d s c) (hdepth : s'.depth = s.depth) :
    ∃ t', t'.depth = t.depth ∧ Step.visit t' q ∈ childSteps dialect d' s' c := by
  by_cases henum : c.kind = "enum_declaration"
  · simp only [childSteps, henum] at h ⊢
    obtain ⟨name, b, hname, rfl, hb, hq, hkind⟩ := visit_enumSteps d h
    obtain ⟨name', hname'⟩ := exists_fieldText d' hname
    refine ⟨s'.enter (Text.qualify s'.name name' "."), congrArg (· + 1) hdepth, ?_⟩
    simp only [enumSteps, hname', hb]
    refine List.mem_cons_of_mem _ (List.mem_flatMap.2 ⟨q, hq, ?_⟩)
    simp only [hkind, List.mem_singleton]
  · obtain ⟨hkind, -⟩ := visit_childSteps d h
    have hclass : c.kind ∈ classKinds := by
      simp only [typeKinds, List.mem_cons, henum, classKinds] at hkind ⊢
      tauto
    obtain ⟨kind, -, hsteps⟩ := childSteps_of_mem_classKinds hclass
    rw [hsteps] at h ⊢
    obtain ⟨name, hname, rfl, hb⟩ := visit_typeSteps d h
    obtain ⟨name', hname'⟩ := exists_fieldText d' hname
    refine ⟨s'.enter (Text.qualify s'.name name' "."), congrArg (· + 1) hdepth, ?_⟩
    simp only [typeSteps, hname']
    exact List.mem_cons_of_mem _ (Step.mem_visit?.2 ⟨rfl, hb⟩)

/-- The walk comes to the same places in two sources, and as deep. -/
theorem exists_mem_visits {dialect : Dialect} (hlimits : d'.limits = d.limits)
    {v : Scope × Place} (hv : v ∈ (rule dialect d).visits {} root) :
    ∃ s', s'.depth = v.1.depth ∧ (s', v.2) ∈ (rule dialect d').visits {} root := by
  refine Rule.forall_mem_visits (rule_descends d) (P := fun s q => ∃ s', s'.depth = s.depth ∧
    (s', q) ∈ (rule dialect d').visits {} root) ?_ ?_ v hv
  · rintro s t p q ⟨s', hdepth, hs'⟩ hstep
    rw [rule_eq_entries] at hstep
    obtain ⟨⟨u, c⟩, he, hvisit⟩ := List.mem_flatMap.1 hstep
    obtain ⟨hshallow, rfl, hc⟩ := (mem_entries d).1 he
    obtain ⟨t', ht', hvisit'⟩ := exists_visit_childSteps hvisit hdepth
    refine ⟨t', ht', Rule.mem_visits_of_visit (rule_descends d') hs' ?_⟩
    rw [rule_eq_entries]
    refine List.mem_flatMap.2 ⟨(s', c), (mem_entries d').2 ⟨?_, rfl, hc⟩, hvisit'⟩
    rw [Document.tooDeep, hlimits, hdepth]
    exact hshallow
  · exact ⟨{}, rfl, Rule.self_mem_visits (rule_descends d') _ _⟩

theorem exists_mem_scopes (hlimits : d'.limits = d.limits) (hkind : p.kind ∈ classKinds)
    (h : (p, y) ∈ scopes dialect d root) : ∃ y', (p, y') ∈ scopes dialect d' root := by
  obtain ⟨v, hv, s, he, hscope, hfirst⟩ := Rule.mem_firsts.1 h
  obtain ⟨hshallow, rfl, hp⟩ := (mem_entries d).1 he
  obtain ⟨s', hdepth, hv'⟩ := exists_mem_visits hlimits hv
  obtain ⟨kind, -, hsteps⟩ := childSteps_of_mem_classKinds hkind
  rw [hsteps, first?_typeSteps, Option.map_eq_some_iff] at hfirst
  obtain ⟨name, hname, -⟩ := hfirst
  obtain ⟨name', hname'⟩ := exists_fieldText d' hname
  refine ⟨adjust d' p (ownSymbol d' p s' kind name'),
    Rule.mem_firsts.2 ⟨_, hv', s', (mem_entries d').2 ⟨?_, rfl, hp⟩, hscope, ?_⟩⟩
  · rw [Document.tooDeep, hlimits, hdepth]
    exact hshallow
  · rw [hsteps, first?_typeSteps, hname', Option.map_some]

/-! ## Two sources -/

theorem facts_ownSymbol_eq_iff {kind kind' : SymbolKind} (h : ∀ q ∈ p.subtree, d'.text q = d.text q)
    (hkind : kind = .class ∨ kind = .interface) (hkind' : kind' = .class ∨ kind' = .interface) :
    facts (adjust d' p (ownSymbol d' p s' kind' name)) =
        facts (adjust d p (ownSymbol d p s kind name)) ↔
      (visibility (modifiers d p) = .package → saysPublic d' p = saysPublic d p) ∧
        addedMode? d' p (ownSignature d p name) = addedMode? d p (ownSignature d p name) := by
  rw [facts_adjust hkind, facts_adjust hkind', modifiers_congr h, ownSignature_congr h, addedMode?,
    addedMode?, ← withMode_eq_iff]
  generalize visibility (modifiers d p) = own
  by_cases hown : own = .package
  · cases saysPublic d p <;> cases saysPublic d' p <;> simp [hown]
  · have hother : (own == .package) = false := beq_eq_false_iff_ne.2 hown
    simp [hown, hother]

/-- For two sources that say the same in a class, what the class tells is the same exactly if what
the text around it adds is the same. -/
theorem facts_eq_iff (htext : ∀ q ∈ p.subtree, d'.text q = d.text q) (hkind : p.kind ∈ classKinds)
    (hy : (p, y) ∈ scopes dialect d root) (hy' : (p, y') ∈ scopes dialect d' root) :
    facts y' = facts y ↔
      (visibility (modifiers d p) = .package → saysPublic d' p = saysPublic d p) ∧
        addedMode? d' p (ownSignature d p y.name) = addedMode? d p (ownSignature d p y.name) := by
  obtain ⟨s, kind, name, hclass, hname, rfl⟩ := exists_of_mem_scopes hkind hy
  obtain ⟨s', kind', name', hclass', hname', rfl⟩ := exists_of_mem_scopes hkind hy'
  rw [fieldText_congr htext, hname] at hname'
  obtain rfl := Option.some.inj hname'
  have hkept : (adjust d p (ownSymbol d p s kind name)).name = name := by
    have hown : (ownSymbol d p s kind name).kind = .class ∨
        (ownSymbol d p s kind name).kind = .interface := hclass
    rw [adjust_eq hown]
    exact madePublic_name _ _
  rw [hkept]
  exact facts_ownSymbol_eq_iff htext hclass hclass'

/-- Where the octets before a class are the same, as far as its surroundings reach, so are its
surroundings. -/
theorem surroundings_congr (h : DifferInNeighbours d d' p)
    (hoctets : ∀ i < p.start, p.start ≤ i + 80 → d'.bytes[i]? = d.bytes[i]?) :
    surroundings d' p = surroundings d p := by
  have hdrop : d'.bytes.drop (p.start - 80) = d.bytes.drop (p.start - 80) := by
    refine List.ext_getElem? fun i => ?_
    rw [List.getElem?_drop, List.getElem?_drop]
    by_contra hne
    -- From the start of the class on, no neighbour is left.
    obtain ⟨b, -, -, hstop, -, hi⟩ := h.octets _ hne
    exact hne (hoctets _ (by omega) (by omega))
  simp only [surroundings, Document.slice, h.length, hdrop]

/-- If two sources differ in the neighbours of a class only, a symbol of the class in the one comes
with a symbol in the other.  They tell the same exactly if the text around the class says in both
that it is public, or in neither, unless its own modifiers decide, and adds the same sharing mode.
They do so if the 80 octets before the class are the same. -/
theorem class_facts_agree_iff (h : DifferInNeighbours d d' p) (hkind : p.kind ∈ classKinds)
    (hy : (p, y) ∈ scopes dialect d root) :
    (∃ y', (p, y') ∈ scopes dialect d' root) ∧ ∀ y', (p, y') ∈ scopes dialect d' root →
      (facts y' = facts y ↔
        (visibility (modifiers d p) = .package → saysPublic d' p = saysPublic d p) ∧
          addedMode? d' p (ownSignature d p y.name) = addedMode? d p (ownSignature d p y.name)) ∧
      ((∀ i < p.start, p.start ≤ i + 80 → d'.bytes[i]? = d.bytes[i]?) → facts y' = facts y) := by
  refine ⟨exists_mem_scopes h.limits hkind hy, fun y' hy' => ?_⟩
  have hiff := facts_eq_iff h.text hkind hy hy'
  refine ⟨hiff, fun hoctets => hiff.2 ⟨fun _ => ?_, ?_⟩⟩
  · rw [saysPublic, saysPublic, surroundings_congr h hoctets]
  · rw [addedMode?, addedMode?, sharingMode?, sharingMode?, surroundings_congr h hoctets]

/-- A class without modifiers below a field of this name. -/
def neighbour (field : String) : Document :=
  { path := "A.cls"
    bytes := Text.Utf8.encode ("class AccountServiceController \x7b\n  Boolean " ++ field ++
      " = true;\n  class B \x7b\x7d\n\x7d\n").toList
    limits := {} }

/-- The tree of such a source, for a name of eight letters. -/
def neighbourTree : Node :=
  .mk "program" true [] 0 75
    [.mk "class_declaration" true [] 0 74
      [.token "class" 0 5, .leaf "identifier" ["name"] 6 30,
        .mk "class_body" true ["body"] 31 74
          [.token "\x7b" 31 32,
            .mk "field_declaration" true [] 35 59
              [.leaf "type_identifier" ["type"] 35 42,
                .mk "variable_declarator" true ["declarator"] 43 58
                  [.leaf "identifier" ["name"] 43 51, .token "=" 52 53,
                    .leaf "true" ["value"] 54 58],
                .token ";" 58 59],
            .mk "class_declaration" true [] 62 72
              [.token "class" 62 67, .leaf "identifier" ["name"] 68 69,
                .mk "class_body" true ["body"] 70 72 [.token "\x7b" 70 71, .token "\x7d" 71 72]],
            .token "\x7d" 73 74]]]

/-- The inner class differs in its neighbour, and is taken to be public by its name. -/
theorem exists_neighbour_class :
    ∃ f ∈ scopes dialect (neighbour "isPublic") (.root neighbourTree),
      f.1.start = 62 ∧ f.1.kind = "class_declaration" ∧
      DifferInNeighbours (neighbour "isPublic") (neighbour "isSecret") f.1 ∧
      facts f.2 = (.public, true, some "class B") ∧
      visibility (modifiers (neighbour "isPublic") f.1) = .package ∧
      saysPublic (neighbour "isSecret") f.1 ≠ saysPublic (neighbour "isPublic") f.1 := by
  decide +kernel

theorem neighbour_class_facts_agree_iff :
    ∃ f ∈ scopes dialect (neighbour "isPublic") (.root neighbourTree),
      DifferInNeighbours (neighbour "isPublic") (neighbour "isSecret") f.1 ∧
      f.1.kind ∈ classKinds ∧
      (∃ y', (f.1, y') ∈ scopes dialect (neighbour "isSecret") (.root neighbourTree)) ∧
      ∀ y', (f.1, y') ∈ scopes dialect (neighbour "isSecret") (.root neighbourTree) →
        (facts y' = facts f.2 ↔
          (visibility (modifiers (neighbour "isPublic") f.1) = .package →
            saysPublic (neighbour "isSecret") f.1 = saysPublic (neighbour "isPublic") f.1) ∧
          addedMode? (neighbour "isSecret") f.1 (ownSignature (neighbour "isPublic") f.1 f.2.name) =
            addedMode? (neighbour "isPublic") f.1
              (ownSignature (neighbour "isPublic") f.1 f.2.name)) ∧
        ((∀ i < f.1.start, f.1.start ≤ i + 80 →
          (neighbour "isSecret").bytes[i]? = (neighbour "isPublic").bytes[i]?) →
            facts y' = facts f.2) := by
  obtain ⟨f, hf, -, hclass, hneighbours, -⟩ := exists_neighbour_class
  have hkind : f.1.kind ∈ classKinds := by simp [classKinds, hclass]
  exact ⟨f, hf, hneighbours, hkind, class_facts_agree_iff hneighbours hkind hf⟩

/-- The name of the field makes the class below it public. -/
theorem neighbour_changes_class_facts :
    ∃ p y y', p.kind = "class_declaration" ∧
      DifferInNeighbours (neighbour "isPublic") (neighbour "isSecret") p ∧
      (p, y) ∈ scopes dialect (neighbour "isPublic") (.root neighbourTree) ∧
      (p, y') ∈ scopes dialect (neighbour "isSecret") (.root neighbourTree) ∧
      facts y = (.public, true, some "class B") ∧ facts y' ≠ facts y := by
  obtain ⟨⟨p, y⟩, hy, -, hclass, hneighbours, hfacts, hpackage, hpublic⟩ :=
    exists_neighbour_class
  have hkind : p.kind ∈ classKinds := by simp [classKinds, hclass]
  obtain ⟨y', hy'⟩ := exists_mem_scopes hneighbours.limits hkind hy
  refine ⟨p, y, y', hclass, hneighbours, hy, hy', hfacts, fun heq => hpublic ?_⟩
  exact ((facts_eq_iff hneighbours.text hkind hy hy').1 heq).1 hpackage

end SourceIndex.Declarations.Apex
