import SourceIndex.Backends
import SourceIndex.Proofs.Text.Ending
import SourceIndex.Proofs.Text.Search
import SourceIndex.Proofs.Tree.Preorder

/-!
# Elements, members and sidecars

A walk over markup comes to every place down to one level below the limit, whatever is found on the
way.  So what it gives is what the places give, in preorder.  From this follow the members of an
Aura bundle, which are the first declarations of their names, and what is found in a metadata file
that stands beside a source file: it declares nothing, but is searched for names like any other.

The text of an element of some name is looked for among the children of a place and their children
at once, so that a child of an earlier child comes before a child.
-/

namespace SourceIndex

/-! ## Places of a walk -/

namespace Idiom.Markup

/-- The places of a tree from the first level below the root to one level below the limit, in
preorder. -/
def placesIn (d : Document) (tree : Node) : List Place :=
  (Place.root tree).subtree.filter fun p =>
    decide (0 < p.level ∧ p.level ≤ d.limits.markupDepth.toNat + 1)

variable {α : Type} {d : Document} {pick : Place → Option α} {p : Place}

theorem elementRule_apply (depth : Nat) :
    elementRule d pick depth p =
      if depth > d.limits.markupDepth.toNat then []
      else p.children.flatMap fun c => Step.emit? (pick c) ++ [.visit (depth + 1) c] :=
  rfl

theorem elementRule_descends (d : Document) (pick : Place → Option α) :
    (elementRule d pick).Descends := by
  intro depth depth' p q hstep
  rw [elementRule_apply] at hstep
  split at hstep
  · cases hstep
  · obtain ⟨c, hc, hstep⟩ := List.mem_flatMap.1 hstep
    rcases List.mem_append.1 hstep with hstep | hstep
    · exact absurd hstep (Step.visit_notMem_emit? _)
    · cases List.mem_singleton.1 hstep
      exact Place.height_lt_of_mem_children hc

/-- A walk that has so many levels left gives what the places on these levels give. -/
theorem walk_eq_filterMap_descendants {n depth : Nat}
    (hdepth : depth + n = d.limits.markupDepth.toNat + 1) :
    (elementRule d pick).walk depth p = (p.descendants n).filterMap pick := by
  have hdescends : (elementRule d pick).Descends := elementRule_descends d pick
  -- The walk stops at the depth that leaves no level.
  induction n generalizing depth p with
  | zero =>
      have hdeep : depth > d.limits.markupDepth.toNat := by omega
      rw [Rule.walk_eq hdescends, elementRule_apply, if_pos hdeep]
      rfl
  | succ n ih =>
      have hshallow : ¬ depth > d.limits.markupDepth.toNat := by omega
      rw [Rule.walk_eq hdescends, elementRule_apply, if_neg hshallow, List.flatMap_assoc,
        Place.descendants, List.filterMap_flatMap]
      refine List.flatMap_congr fun c _ => ?_
      have hinside : (elementRule d pick).walk (depth + 1) c =
          (c.descendants n).filterMap pick := ih (by omega)
      cases hpick : pick c with
      | none => simp [Step.emit?, Step.items, hpick, hinside]
      | some a => simp [Step.emit?, Step.items, hpick, hinside]

theorem walk_eq_filterMap_placesIn (d : Document) (pick : Place → Option α) (tree : Node) :
    walk d pick (.root tree) = (placesIn d tree).filterMap pick := by
  rw [walk, walk_eq_filterMap_descendants (Nat.zero_add _), Place.descendants_eq_filter_subtree]
  simp only [placesIn, Place.level, Nat.zero_add]

end Idiom.Markup

/-! ## The first of each key -/

section

variable {α β κ : Type} [BEq κ] {key : α → κ} {number : α → Nat}

theorem firstOfEachFrom_map (f : β → α) (seen : List κ) (items : List β) :
    firstOfEachFrom key seen (items.map f) =
      (firstOfEachFrom (fun b => key (f b)) seen items).map f := by
  induction items generalizing seen with
  | nil => rfl
  | cons b rest ih =>
      rw [List.map_cons, firstOfEachFrom, firstOfEachFrom]
      split
      · exact ih seen
      · rw [ih, List.map_cons]

variable [LawfulBEq κ] [DecidableEq κ]

/-- In a list with growing numbers the first item of a key is the one with the least number among
those of the key. -/
theorem firstOfEachFrom_eq_filter {items : List α}
    (h : items.Pairwise fun a b => number a < number b) (seen : List κ) :
    firstOfEachFrom key seen items = items.filter fun a =>
      decide (key a ∉ seen ∧ ∀ b ∈ items, key b = key a → number a ≤ number b) := by
  induction items generalizing seen with
  | nil => rfl
  | cons a rest ih =>
      obtain ⟨ha, hrest⟩ := List.pairwise_cons.1 h
      rw [firstOfEachFrom, List.filter_cons]
      by_cases hseen : key a ∈ seen
      · rw [if_pos (List.contains_iff_mem.2 hseen), if_neg (by simp [hseen]), ih hrest]
        refine List.filter_congr fun c hc => decide_eq_decide.2 (and_congr_right fun hnew => ?_)
        refine List.forall_mem_cons.trans (and_iff_right fun hkey => ?_) |>.symm
        exact absurd (hkey ▸ hseen) hnew
      · have hleast : ∀ b ∈ a :: rest, key b = key a → number a ≤ number b :=
          List.forall_mem_cons.2 ⟨fun _ => Nat.le_refl _, fun b hb _ => Nat.le_of_lt (ha b hb)⟩
        rw [if_neg (mt List.contains_iff_mem.1 hseen), if_pos (decide_eq_true ⟨hseen, hleast⟩),
          ih hrest]
        refine congrArg (a :: ·) (List.filter_congr fun c hc => decide_eq_decide.2 ?_)
        -- An item behind the first is kept only if it has another key.
        have hkey : (key a = key c → number c ≤ number a) ↔ key c ≠ key a :=
          ⟨fun hle heq => Nat.not_le.2 (ha c hc) (hle heq.symm), fun hne heq => absurd heq.symm hne⟩
        rw [List.mem_cons, not_or, List.forall_mem_cons, hkey, and_left_comm, and_assoc]

end

/-! ## Texts of elements -/

namespace Idiom.Markup

variable {d : Document} {p : Place} {name : String}

/-- Is a place an element of a name?  Letter case does not count. -/
def isNamed (d : Document) (name : String) (p : Place) : Bool :=
  p.kind == "element" && (tagName? d p).any fun tag => Text.sameAscii tag name

/-- The first child that is an element of a name. -/
def namedChild? (d : Document) (p : Place) (name : String) : Option Place :=
  p.children.find? (isNamed d name)

/-- The first grandchild that is an element of a name. -/
def namedGrandchild? (d : Document) (p : Place) (name : String) : Option Place :=
  (p.children.flatMap Place.children).find? (isNamed d name)

/-- The first such grandchild that stands before the first such child. -/
def earlierGrandchild? (d : Document) (p : Place) (name : String) : Option Place :=
  ((p.children.takeWhile fun c => !isNamed d name c).flatMap Place.children).find? (isNamed d name)

/-- Of some places and their children, the first to be accepted is a child of the places before the
first that is accepted itself, or else this one. -/
theorem find?_flatMap_family (accepts : Place → Bool) (places : List Place) :
    (places.flatMap fun c => c :: c.children).find? accepts =
      (((places.takeWhile fun c => !accepts c).flatMap Place.children).find? accepts).or
        (places.find? accepts) := by
  induction places with
  | nil => rfl
  | cons c rest ih =>
      rw [List.flatMap_cons, List.cons_append, List.find?_cons, List.find?_cons,
        List.takeWhile_cons]
      cases hc : accepts c with
      | true => rfl
      | false =>
          rw [Bool.not_false, if_pos rfl, List.flatMap_cons, List.find?_append, List.find?_append, ih,
            Option.or_assoc]

/-- The text is that of an earlier grandchild, and only without one that of a child. -/
theorem childElementText?_eq (d : Document) (p : Place) (name : String) :
    childElementText? d p name =
      ((earlierGrandchild? d p name).or (namedChild? d p name)).bind (elementText? d) := by
  show ((p.children.flatMap fun c => c :: c.children).find? (isNamed d name)).bind _ = _
  rw [find?_flatMap_family]
  rfl

theorem earlierGrandchild?_of_none (h : namedChild? d p name = none) :
    earlierGrandchild? d p name = namedGrandchild? d p name := by
  have hall : (p.children.takeWhile fun c => !isNamed d name c) = p.children := by
    refine List.takeWhile_eq_self_iff.2 fun c hc => ?_
    rw [Bool.not_eq_true', Bool.eq_false_iff]
    exact List.find?_eq_none.1 h c hc
  rw [earlierGrandchild?, hall, namedGrandchild?]

/-- The text is that of the first child of the name, and of the first such grandchild only if no
child has the name, exactly if no grandchild of the name stands before the child, or the text of the
first that does is the same. -/
theorem childElementText?_prefers_children_iff (d : Document) (p : Place) (name : String) :
    childElementText? d p name =
        ((namedChild? d p name).or (namedGrandchild? d p name)).bind (elementText? d) ↔
      ∀ c ∈ namedChild? d p name, ∀ g ∈ earlierGrandchild? d p name,
        elementText? d g = elementText? d c := by
  rw [childElementText?_eq]
  cases hchild : namedChild? d p name with
  | none =>
      rw [earlierGrandchild?_of_none hchild, Option.or_none, Option.none_or]
      exact iff_of_true rfl nofun
  | some c =>
      cases earlierGrandchild? d p name with
      | none => simp
      | some g => simp

/-- An element between its tags, whose name has so many octets. -/
def elementNode (n start stop : Nat) (content : List Node) : Node :=
  let tagOf (kind opener : String) (start name : Nat) : Node :=
    .mk kind true [] start (name + n + 1)
      [.token opener start name, .leaf "tag_name" [] name (name + n),
        .token ">" (name + n) (name + n + 1)]
  .mk "element" true [] start stop
    (tagOf "start_tag" "<" start (start + 1) ::
      (content ++ [tagOf "end_tag" "</" (stop - n - 3) (stop - n - 1)]))

/-- An object with a field whose set of values has a name, and comes before the name of the field.
-/
def sectorObject : Document :=
  { path := "Account.object-meta.xml"
    bytes := Text.Utf8.encode
      ("<CustomObject><fields><valueSet><fullName>Sectors</fullName></valueSet>" ++
        "<fullName>Sector__c</fullName></fields></CustomObject>\n").toList
    limits := {} }

def sectorObjectTree : Node :=
  .mk "document" true [] 0 126
    [elementNode 12 0 125
      [elementNode 6 14 110
        [elementNode 8 22 71 [elementNode 8 32 60 [.leaf "text" [] 42 49]],
          elementNode 8 71 101 [.leaf "text" [] 81 90]]]]

/-- The field is named after the set of values. -/
theorem sectorObject_names_set :
    (∃ p ∈ placesIn sectorObject sectorObjectTree,
      (namedChild? sectorObject p "fullName").bind (elementText? sectorObject) = some "Sector__c" ∧
        childElementText? sectorObject p "fullName" = some "Sectors") ∧
      (Declarations.Metadata.symbols sectorObject (some (.root sectorObjectTree))).map Symbol.name =
        ["Account", "Sectors"] := by
  decide +kernel

end Idiom.Markup

/-! ## Members of Aura -/

namespace Declarations.Aura

open Idiom Idiom.Markup

/-- A tag that declares a member. -/
structure Declaration where
  /-- The element that the tag opens, or the tag itself where it stands alone. -/
  place : Place
  tag : Place
  kind : SymbolKind
  name : String

/-- Is a tag that of a place: the child that opens the place if this is an element, or the place
itself if this closes itself and is no child of an element? -/
def IsTagOf (tag p : Place) : Prop :=
  p.kind = "element" ∧ p.childOfAny? ["start_tag", "self_closing_tag"] = some tag ∨
    p.kind = "self_closing_tag" ∧ p.parent?.map Place.kind ≠ some "element" ∧ p = tag

/-- Is a text the value that an attribute gives to a key?  Of several names or values in it the last
ones count, and the value has no quotes around it any more. -/
def IsPair (d : Document) (pair : Place) (key value : String) : Prop :=
  (∃ name, (pair.childrenOf "attribute_name").getLast? = some name ∧ d.text name = key) ∧
    ∃ quoted, (pair.children.filter fun c =>
        c.isOneOf ["attribute_value", "quoted_attribute_value"]).getLast? = some quoted ∧
      Text.unquote (d.text quoted) = value

/-- Is a text the value of a key on a tag, which its first attribute for the key gives?  Letter case
does not count. -/
def HasValue (d : Document) (tag : Place) (key value : String) : Prop :=
  ∃ before pair after, tag.childrenOf "attribute" = before ++ pair :: after ∧
    (∃ written, IsPair d pair written value ∧ Text.sameAscii written key = true) ∧
      ∀ other ∈ before, ∀ written value', IsPair d other written value' →
        Text.sameAscii written key = false

/-- What the tag of a place declares, if it has a name. -/
def declaration? (d : Document) (p : Place) : Option Declaration := do
  let tag ← ownTag? p
  let kind ← memberKind? (Text.lower (← tagName? d tag))
  let name ← value? d tag "name"
  some { place := p, tag, kind, name }

/-- The declarations of a tree down to one level below the limit, in preorder. -/
def declarationsIn (d : Document) (tree : Node) : List Declaration :=
  (placesIn d tree).filterMap (declaration? d)

/-- The symbol of the file. -/
def bundle (d : Document) : Symbol :=
  let kind := bundleKind d.nameAndEnding.2
  d.fileSymbol d.nameAndEnding.1 kind
    { signature := some ("aura:" ++ kind.word ++ " " ++ d.nameAndEnding.1) }

/-- The member that a tag declares. -/
def Declaration.symbol (d : Document) (x : Declaration) : Symbol :=
  let type := ((value? d x.tag "type").map (": " ++ ·)).getD ""
  d.symbol x.tag x.name x.kind
    { qualifiedName := some ((bundle d).name ++ "." ++ x.name)
      signature := some (x.kind.word ++ " " ++ x.name ++ type)
      parentName := some (bundle d).name }

variable {d : Document} {tree : Node} {p tag : Place}

theorem bundle_name (d : Document) : (bundle d).name = d.nameAndEnding.1 := by
  simp only [bundle, Document.fileSymbol, Symbol.ofDetails]

theorem bind_member?_eq (d : Document) (p : Place) :
    (ownTag? p).bind (member? d d.nameAndEnding.1) =
      (declaration? d p).map (Declaration.symbol d) := by
  simp only [declaration?, Declaration.symbol, bundle_name, Option.bind_eq_bind, Option.map_bind,
    Option.map_some, Function.comp_def]
  rfl

theorem symbols_eq (d : Document) (root : Option Place) :
    symbols d root = bundle d :: firstOfEach Symbol.name
      ((root.map (walk d fun p => (declaration? d p).map (Declaration.symbol d))).getD []) := by
  simp only [← bind_member?_eq, symbols, bundle]

theorem ownTag?_eq_some_iff : ownTag? p = some tag ↔ IsTagOf tag p := by
  unfold ownTag? tag? IsTagOf
  by_cases helement : p.kind = "element"
  · simp [helement]
  · by_cases hclosing : p.kind = "self_closing_tag"
    · by_cases hparent : p.parent?.map Place.kind = some "element"
      · simp [hclosing, hparent]
      · simp [hclosing, hparent]
    · simp [helement, hclosing]

theorem pair?_eq_some_iff {written value : String} :
    pair? d p = some (written, value) ↔ IsPair d p written value := by
  unfold pair? IsPair
  simp only [Option.bind_eq_bind, Option.bind_eq_some_iff, Option.some.injEq, Prod.mk.injEq]
  constructor
  · rintro ⟨name, hname, quoted, hquoted, hkey, hvalue⟩
    exact ⟨⟨name, hname, hkey⟩, quoted, hquoted, hvalue⟩
  · rintro ⟨⟨name, hname, hkey⟩, quoted, hquoted, hvalue⟩
    exact ⟨name, hname, quoted, hquoted, hkey, hvalue⟩

theorem value?_eq_some_iff {key value : String} :
    value? d tag key = some value ↔ HasValue d tag key value := by
  have hgives : ∀ pair, ((pair? d pair).any fun a => Text.sameAscii a.1 key) = true ↔
      ∃ written value', IsPair d pair written value' ∧ Text.sameAscii written key = true := by
    intro pair
    simp only [Option.any_eq_true, Prod.exists, pair?_eq_some_iff]
  rw [value?, List.find?_filterMap, Option.map_eq_some_iff]
  constructor
  · rintro ⟨⟨written, value⟩, h, rfl⟩
    obtain ⟨pair, hfind, hpair⟩ := Option.bind_eq_some_iff.1 h
    obtain ⟨hany, before, after, hsplit, hbefore⟩ := List.find?_eq_some_iff_append.1 hfind
    rw [hpair, Option.any_some] at hany
    refine ⟨before, pair, after, hsplit, ⟨written, pair?_eq_some_iff.1 hpair, hany⟩, ?_⟩
    intro other hother written' value' hother'
    refine Bool.eq_false_iff.2 fun hsame => ?_
    have hnot := hbefore other hother
    rw [(hgives other).2 ⟨written', value', hother', hsame⟩] at hnot
    cases hnot
  · rintro ⟨before, pair, after, hsplit, ⟨written, hpair, hsame⟩, hbefore⟩
    refine ⟨(written, value), Option.bind_eq_some_iff.2 ⟨pair, ?_, pair?_eq_some_iff.2 hpair⟩,
      rfl⟩
    refine List.find?_eq_some_iff_append.2
      ⟨(hgives pair).2 ⟨written, value, hpair, hsame⟩, before, after, hsplit, ?_⟩
    intro other hother
    rw [Bool.not_eq_true', Bool.eq_false_iff]
    intro hany
    obtain ⟨written', value', hother', hsame'⟩ := (hgives other).1 hany
    rw [hbefore other hother written' value' hother'] at hsame'
    cases hsame'

/-- The tags that declare members, in lower case, and what they declare. -/
theorem memberKind?_eq_some_iff {name : String} {kind : SymbolKind} :
    memberKind? name = some kind ↔
      (name, kind) ∈ [("aura:attribute", .property), ("aura:method", .method),
        ("aura:registerevent", SymbolKind.event)] := by
  unfold memberKind?
  split
  case h_1 | h_2 | h_3 => simp [eq_comm]
  case h_4 hattribute hmethod hevent =>
    refine iff_of_false nofun ?_
    simp only [List.mem_cons, Prod.mk.injEq, List.not_mem_nil, or_false]
    rintro (⟨h, -⟩ | ⟨h, -⟩ | ⟨h, -⟩)
    · exact hattribute h
    · exact hmethod h
    · exact hevent h

/-- The name on the tag of a place is that of its first child for names. -/
theorem tagName?_of_isTagOf (h : IsTagOf tag p) :
    tagName? d tag = d.text? (tag.childOf? "tag_name") := by
  have hkind : tag.kind ∈ ["start_tag", "self_closing_tag"] := by
    rcases h with ⟨-, hchild⟩ | ⟨hclosing, -, rfl⟩
    · have hopens : tag.isOneOf ["start_tag", "self_closing_tag"] = true :=
        List.find?_some (p := fun c : Place => c.isOneOf ["start_tag", "self_closing_tag"]) hchild
      exact List.contains_iff_mem.1 hopens
    · rw [hclosing]
      exact List.mem_cons_of_mem _ List.mem_cons_self
  have htag : tag? tag = some tag := by
    unfold tag?
    rcases List.mem_pair.1 hkind with hkind | hkind
    · rw [hkind]
      rfl
    · rw [hkind]
      rfl
  rw [tagName?, htag, Option.bind_some]

theorem declaration?_eq_some_iff {x : Declaration} :
    declaration? d p = some x ↔ x.place = p ∧ IsTagOf x.tag p ∧
      (∃ written ∈ tagName? d x.tag, memberKind? (Text.lower written) = some x.kind) ∧
        value? d x.tag "name" = some x.name := by
  constructor
  · intro h
    obtain ⟨tag, htag, h⟩ := Option.bind_eq_some_iff.1 h
    obtain ⟨written, hwritten, h⟩ := Option.bind_eq_some_iff.1 h
    obtain ⟨kind, hkind, h⟩ := Option.bind_eq_some_iff.1 h
    obtain ⟨name, hname, h⟩ := Option.bind_eq_some_iff.1 h
    cases h
    exact ⟨rfl, ownTag?_eq_some_iff.1 htag, ⟨written, hwritten, hkind⟩, hname⟩
  · rintro ⟨rfl, htag, ⟨written, hwritten, hkind⟩, hname⟩
    have hread : tagName? d x.tag = some written := hwritten
    rw [declaration?, ownTag?_eq_some_iff.2 htag]
    simp only [Option.bind_eq_bind, Option.bind_some, hread, hkind, hname]

theorem mem_declarationsIn_iff {x : Declaration} :
    x ∈ declarationsIn d tree ↔ x.place ∈ placesIn d tree ∧ IsTagOf x.tag x.place ∧
      (∃ name, x.tag.childOf? "tag_name" = some name ∧
        (Text.lower (d.text name), x.kind) ∈ [("aura:attribute", .property),
          ("aura:method", .method), ("aura:registerevent", SymbolKind.event)]) ∧
        HasValue d x.tag "name" x.name := by
  have hdeclared : x ∈ declarationsIn d tree ↔
      x.place ∈ placesIn d tree ∧ declaration? d x.place = some x := by
    rw [declarationsIn, List.mem_filterMap]
    constructor
    · rintro ⟨p, hp, hx⟩
      obtain ⟨rfl, -⟩ := declaration?_eq_some_iff.1 hx
      exact ⟨hp, hx⟩
    · rintro ⟨hp, hx⟩
      exact ⟨x.place, hp, hx⟩
  rw [hdeclared, declaration?_eq_some_iff, and_iff_right rfl]
  refine and_congr_right fun _ => and_congr_right fun htag => and_congr ?_ value?_eq_some_iff
  rw [tagName?_of_isTagOf htag, Document.text?]
  simp only [memberKind?_eq_some_iff, Option.mem_def, Option.map_eq_some_iff]
  constructor
  · rintro ⟨_, ⟨name, hname, rfl⟩, hkind⟩
    exact ⟨name, hname, hkind⟩
  · rintro ⟨name, hname, hkind⟩
    exact ⟨_, ⟨name, hname, rfl⟩, hkind⟩

/-- A tag is that of one place only. -/
theorem place_eq_of_isTagOf {q : Place} (hp : IsTagOf tag p) (hq : IsTagOf tag q) : p = q := by
  -- The tag of an element is a child of it, and one that stands alone is no child of an element.
  have hchild : ∀ {r : Place}, r.childOfAny? ["start_tag", "self_closing_tag"] = some tag →
      tag.parent? = some r := fun h => Place.parent?_of_mem_children (Place.mem_children_of_childOfAny? h)
  rcases hp with ⟨hkind, hptag⟩ | ⟨-, halone, rfl⟩
  · rcases hq with ⟨-, hqtag⟩ | ⟨-, halone, rfl⟩
    · exact Option.some_inj.1 ((hchild hptag).symm.trans (hchild hqtag))
    · rw [hchild hptag, Option.map_some, hkind] at halone
      exact absurd rfl halone
  · rcases hq with ⟨hkind, hqtag⟩ | ⟨-, -, rfl⟩
    · rw [hchild hqtag, Option.map_some, hkind] at halone
      exact absurd rfl halone
    · rfl

theorem pairwise_number_declarationsIn (d : Document) (tree : Node) :
    (declarationsIn d tree).Pairwise fun x y => x.place.number < y.place.number := by
  have hplaces : (placesIn d tree).Pairwise fun p q => p.number < q.number :=
    (Place.pairwise_number_subtree _).filter _
  refine List.pairwise_filterMap.2 (hplaces.imp fun {p q} hlt x hx y hy => ?_)
  rw [(declaration?_eq_some_iff.1 hx).1, (declaration?_eq_some_iff.1 hy).1]
  exact hlt

/-- The declarations of a bundle are its tags for attributes, methods and events with a name, in any
letter case, that belong to places down to one level below the limit, and no tag makes two of them.
After the bundle come those that are the first of their names, in preorder, each qualified by the
name of the bundle. -/
theorem members_in_preorder (parse : Parser) (d : Document) (tree : Node) :
    ∃ declarations : List Declaration,
      (∀ x, x ∈ declarations ↔ x.place ∈ placesIn d tree ∧ IsTagOf x.tag x.place ∧
        (∃ name, x.tag.childOf? "tag_name" = some name ∧
          (Text.lower (d.text name), x.kind) ∈ [("aura:attribute", .property),
            ("aura:method", .method), ("aura:registerevent", SymbolKind.event)]) ∧
          HasValue d x.tag "name" x.name) ∧
      (declarations.Pairwise fun x y => x.place.number < y.place.number) ∧
      (declarations.map Declaration.tag).Nodup ∧
      Extractor.aura.symbols parse d (some (.root tree)) =
        bundle d ::
          (declarations.filter fun x => decide (∀ y ∈ declarations, y.name = x.name →
            x.place.number ≤ y.place.number)).map (Declaration.symbol d) := by
  have horder := pairwise_number_declarationsIn d tree
  refine ⟨declarationsIn d tree, fun x => mem_declarationsIn_iff, horder, and_comm.1 ⟨?_, ?_⟩⟩
  · have hmembers : walk d (fun p => (declaration? d p).map (Declaration.symbol d)) (.root tree) =
        (declarationsIn d tree).map (Declaration.symbol d) := by
      rw [walk_eq_filterMap_placesIn, declarationsIn, List.map_filterMap]
    show symbols d (some (.root tree)) = _
    rw [symbols_eq, Option.map_some, Option.getD_some, hmembers, firstOfEach, firstOfEachFrom_map,
      firstOfEachFrom_eq_filter horder]
    refine congrArg (bundle d :: List.map _ ·) (List.filter_congr fun x _ => decide_eq_decide.2 ?_)
    exact and_iff_right List.not_mem_nil
  · rw [List.Nodup, List.pairwise_map]
    refine horder.imp_of_mem fun {x y} hx hy hlt heq => ?_
    -- Two declarations of one tag would stand at one place.
    have hplace : x.place = y.place :=
      place_eq_of_isTagOf (mem_declarationsIn_iff.1 hx).2.1 (heq ▸ (mem_declarationsIn_iff.1 hy).2.1)
    rw [hplace] at hlt
    exact Nat.lt_irrefl _ hlt

/-- An attribute, a method of the same name, and an event. -/
def totalBundle : Document :=
  { path := "Total.cmp"
    bytes := Text.Utf8.encode ("<aura:component><aura:attribute name=\"total\" type=\"Integer\"/>" ++
      "<aura:method name=\"total\"></aura:method><aura:registerEvent name=\"saved\"/>" ++
      "</aura:component>\n").toList
    limits := {} }

/-- An attribute with a key and a value of so many octets. -/
def attributeNode (start key value : Nat) : Node :=
  let quoted := start + key + 1
  .mk "attribute" true [] start (quoted + value + 2)
    [.leaf "attribute_name" [] start (start + key), .token "=" (start + key) quoted,
      .mk "quoted_attribute_value" true [] quoted (quoted + value + 2)
        [.token "\"" quoted (quoted + 1), .leaf "attribute_value" [] (quoted + 1) (quoted + value + 1),
          .token "\"" (quoted + value + 1) (quoted + value + 2)]]

/-- A tag of a kind, with the end of its name and what stands behind the name. -/
def tagNode (kind : String) (start name stop : Nat) (content : List Node) : Node :=
  .mk kind true [] start stop
    (.token "<" start (start + 1) :: .leaf "tag_name" [] (start + 1) name :: content)

def totalBundleTree : Node :=
  .mk "document" true [] 0 153
    [.mk "element" true [] 0 152
      [tagNode "start_tag" 0 15 16 [.token ">" 15 16],
        .mk "element" true [] 16 61
          [tagNode "self_closing_tag" 16 31 61
            [attributeNode 32 4 5, attributeNode 45 4 7, .token "/>" 59 61]],
        .mk "element" true [] 61 101
          [tagNode "start_tag" 61 73 87 [attributeNode 74 4 5, .token ">" 86 87],
            .mk "end_tag" true [] 87 101
              [.token "</" 87 89, .leaf "tag_name" [] 89 100, .token ">" 100 101]],
        .mk "element" true [] 101 135
          [tagNode "self_closing_tag" 101 120 135 [attributeNode 121 4 5, .token "/>" 133 135]],
        .mk "end_tag" true [] 135 152
          [.token "</" 135 137, .leaf "tag_name" [] 137 151, .token ">" 151 152]]]

theorem totalBundle_members :
    (∃ p ∈ placesIn totalBundle totalBundleTree, (declaration? totalBundle p).map
      (fun x => (x.kind, x.name)) = some (.method, "total")) ∧
    ∃ declarations : List Declaration,
      (∀ x ∈ declarations, HasValue totalBundle x.tag "name" x.name) ∧
      (declarations.map Declaration.tag).Nodup ∧
      ((declarations.filter fun x => decide (∀ y ∈ declarations, y.name = x.name →
        x.place.number ≤ y.place.number)).map fun x =>
          ((Declaration.symbol totalBundle x).qualifiedName, x.kind)) =
            [("Total.total", .property), ("Total.saved", .event)] := by
  refine ⟨by decide +kernel, ?_⟩
  have hsymbols : (Extractor.aura.symbols (fun _ _ => none) totalBundle
      (some (.root totalBundleTree))).map (fun y => (y.qualifiedName, y.kind)) =
        [("Total", .component), ("Total.total", .property), ("Total.saved", .event)] := by
    decide +kernel
  obtain ⟨declarations, hmem, -, hnodup, heq⟩ :=
    members_in_preorder (fun _ _ => none) totalBundle totalBundleTree
  refine ⟨declarations, fun x hx => ((hmem x).1 hx).2.2.2, hnodup, ?_⟩
  rw [heq, List.map_cons, List.map_map] at hsymbols
  exact (List.cons.inj hsymbols).2

end Declarations.Aura

/-! ## Sidecars -/

namespace Text

theorem dropSuffix_append (text word : String) : dropSuffix word (text ++ word) = text := by
  have hsuffix : Chars.dropSuffix? word.toList (text ++ word).toList = some text.toList := by
    rw [Chars.dropSuffix?, List.isSuffixOf?_eq_some_iff_append_eq, String.toList_append]
  rw [dropSuffix, dropSuffix?, hsuffix, Option.map_some, String.ofList_toList, Option.getD_some]

theorem splitLast?_append_dot {before after : String} (h : '.' ∉ after.toList) :
    splitLast? "." (before ++ "." ++ after) = some (before, after) := by
  have hdot : ".".toList = ['.'] := by decide
  have htext : (before ++ "." ++ after).toList = before.toList ++ '.' :: after.toList := by
    rw [String.toList_append, String.toList_append, hdot, List.append_assoc]
    rfl
  rw [splitLast?, htext, hdot, Chars.splitLast?_append_cons h, Option.map_some]
  dsimp only
  rw [String.ofList_toList, String.ofList_toList]

theorem dot_mem_lower {text : String} (h : '.' ∈ text.toList) : '.' ∈ (lower text).toList := by
  rw [lower, String.toList_ofList]
  exact List.mem_flatMap.2 ⟨'.', h, by decide⟩

end Text

namespace Idiom.Metadata

/-- A file is about what stands before its type, if the type is one without a dot. -/
theorem subject_eq {d : Document} {base type : String}
    (hname : d.fileName = base ++ "." ++ type ++ suffix) (htype : '.' ∉ type.toList) :
    subject d = { name := base, type } := by
  unfold subject
  rw [hname, Text.dropSuffix_append]
  dsimp only
  rw [Text.splitLast?_append_dot htype]

end Idiom.Metadata

namespace Declarations.Metadata

open Idiom.Metadata

theorem dot_notMem_of_sourceType {type : String} (htype : Text.lower type ∈ sourceTypes) :
    '.' ∉ type.toList := by
  have hplain : ∀ word ∈ sourceTypes, '.' ∉ word.toList := by decide
  exact fun hdot => hplain _ htype (Text.dot_mem_lower hdot)

theorem symbols_eq_nil {d : Document} (h : Text.lower (subject d).type ∈ sourceTypes)
    (root : Option Place) : symbols d root = [] := by
  rw [symbols]
  exact if_pos (List.contains_iff_mem.2 h)

end Declarations.Metadata

namespace Uses.Metadata

open Idiom Idiom.Metadata
open Text (Pattern)
open Text.Pattern (Reads)

/-! What an action of a flow has to say to be a call: it holds an element for its type and one for
its name, each with one word in it. -/

/-- Is a text some ASCII word in any letter case? -/
def IsAnyCase (word : String) (text : List Char) : Prop :=
  List.Forall₂ (fun c c' => Pattern.sameLetter c c' = true) word.toList text

/-- Is a text a word? -/
def IsWord (text : List Char) : Prop :=
  text ≠ [] ∧ ∀ c ∈ text, Text.isWordChar c = true

/-- Does a text hold an element of a name with nothing in it but a word of some kind, and blanks
around that? -/
def HoldsElement (name : String) (isWord : List Char → Prop) (text : List Char) : Prop :=
  ∃ before opening left word right closing after,
    text = before ++ (opening ++ (left ++ (word ++ (right ++ closing))) ++ after) ∧
      IsAnyCase ("<" ++ name ++ ">") opening ∧ (∀ c ∈ left, Text.isBlank c = true) ∧
        isWord word ∧ (∀ c ∈ right, Text.isBlank c = true) ∧
          IsAnyCase ("</" ++ name ++ ">") closing

/-- Is nothing named in a file: by no element that is for components, by no formula but functions
and constants, and by no action that calls a class? -/
structure NamesNothing (d : Document) (tree : Node) : Prop where
  /-- Down to one level below the limit such elements hold no text but one that is too long or
  starts with a tag. -/
  elements : ∀ p ∈ Markup.placesIn d tree, ∀ tag ∈ lowerTag? d p, tag ∈ naming →
    ∀ text ∈ Markup.elementText? d p,
      d.limits.literalSize.toNat ≤ text.length ∨ Text.startsWith "<" text = true
  formulas : ∀ f ∈ Markup.finds (element "formula") 1 d.fullText,
    ∀ name ∈ Markup.formulaNames f.text.toList, name ∈ builtins
  /-- An action is of another type, or it has no name. -/
  actions : ∀ f ∈ Markup.finds (element "actionCalls") 1 d.fullText,
    ¬ (HoldsElement "actionType" (IsAnyCase "apex") f.text.toList ∧
      HoldsElement "actionName" IsWord f.text.toList)

variable {d : Document} {tree : Node}

theorem component?_eq_none_iff {p : Place} :
    component? d p = none ↔ ∀ tag ∈ lowerTag? d p, tag ∈ naming →
      ∀ text ∈ Markup.elementText? d p,
        d.limits.literalSize.toNat ≤ text.length ∨ Text.startsWith "<" text = true := by
  unfold component?
  cases lowerTag? d p with
  | none => simp
  | some tag =>
      cases Markup.elementText? d p with
      | none => simp
      | some text => simp [or_iff_not_imp_left]

theorem formulaUses_eq_nil_iff {f : Markup.Find} :
    formulaUses f = [] ↔ ∀ name ∈ Markup.formulaNames f.text.toList, name ∈ builtins := by
  simp [formulaUses]

theorem reads_wordAnyCase (word : String) : Reads (Pattern.wordAnyCase word) = IsAnyCase word := by
  funext text
  refine propext ?_
  have hclasses : Pattern.wordAnyCase word =
      Pattern.seqs ((word.toList.map Pattern.sameLetter).map .one) := by
    rw [List.map_map]
    rfl
  rw [hclasses, Pattern.reads_ones_iff, List.forall₂_map_left_iff]
  rfl

theorem reads_wordChars : Reads (.plus .wordChar) = IsWord :=
  funext fun _ => propext Pattern.reads_plus_one_iff

theorem looksAround_wordAnyCase (word : String) :
    (Pattern.wordAnyCase word).looksAround = false := by
  rw [Pattern.wordAnyCase, Pattern.looksAround_seqs, List.any_map, List.any_eq_false]
  exact fun _ _ => Bool.false_ne_true

/-- An element is found exactly if a text holds one. -/
theorem isSome_find?_wordElement_iff (name : String) {p : Pattern Char}
    (h : p.looksAround = false) {text : List Char} :
    ((wordElement name p).find? text).isSome = true ↔ HoldsElement name (Reads p) text := by
  have hfree : (wordElement name p).looksAround = false := by
    rw [wordElement, Pattern.looksAround_seqs]
    simp only [List.any_cons, List.any_nil, looksAround_wordAnyCase, Pattern.blanks, Pattern.star,
      Pattern.blank, Pattern.looksAround, h, Bool.or_false]
  rw [Pattern.isSome_find?_iff hfree, HoldsElement, ← reads_wordAnyCase, ← reads_wordAnyCase]
  constructor
  · rintro ⟨before, _, after, rfl, hread⟩
    obtain ⟨opening, _, rfl, hopening, hread⟩ := hread.of_seqs_cons
    obtain ⟨left, _, rfl, hleft, hread⟩ := hread.of_seqs_cons
    obtain ⟨word, _, rfl, hword, hread⟩ := hread.of_seqs_cons
    obtain ⟨right, closing, rfl, hright, hclosing⟩ := hread.of_seqs_cons
    exact ⟨before, opening, left, word, right, closing, after, rfl, hopening, hleft.all_of_many,
      Pattern.reads_group_iff.1 hword, hright.all_of_many, hclosing⟩
  · rintro ⟨before, opening, left, word, right, closing, after, rfl, hopening, hleft, hword, hright,
      hclosing⟩
    exact ⟨before, _, after, rfl, .seq hopening (.seq (Pattern.reads_many_one_iff.2 hleft)
      (.seq (.group hword) (.seq (Pattern.reads_many_one_iff.2 hright) hclosing)))⟩

/-- An action that holds both elements is a call, and no other one is. -/
theorem actionUse?_eq_none_iff {f : Markup.Find} :
    actionUse? f = none ↔ ¬ (HoldsElement "actionType" (IsAnyCase "apex") f.text.toList ∧
      HoldsElement "actionName" IsWord f.text.toList) := by
  rw [← reads_wordAnyCase, ← reads_wordChars,
    ← isSome_find?_wordElement_iff _ (looksAround_wordAnyCase _),
    ← isSome_find?_wordElement_iff _ rfl]
  unfold actionUse?
  cases htype : (wordElement "actionType" (.wordAnyCase "apex")).find? f.text.toList with
  | none => simp [htype]
  | some _ =>
      cases hname : (wordElement "actionName" (.plus .wordChar)).find? f.text.toList with
      | none => simp [hname]
      | some m =>
          -- The pattern has its word in a group, so a match of it tells the word.
          obtain ⟨u, v, -, hmatch⟩ := Pattern.occurs_of_findFrom? hname
          have htext : (m.text? 1 f.text.toList).isSome = true :=
            Pattern.isSome_text?_of_group [.wordAnyCase "<actionName>", .blanks]
              [.blanks, .wordAnyCase "</actionName>"] hmatch
          obtain ⟨name, htext⟩ := Option.isSome_iff_exists.1 htext
          simp [htype, hname, htext]

theorem references_eq_nil_iff : references d (some (.root tree)) = [] ↔ NamesNothing d tree := by
  rw [references, Option.map_some, Option.getD_some, Markup.walk_eq_filterMap_placesIn,
    List.append_eq_nil_iff, List.append_eq_nil_iff, List.filterMap_eq_nil_iff,
    List.filterMap_eq_nil_iff, List.flatMap_eq_nil_iff]
  simp only [component?_eq_none_iff, formulaUses_eq_nil_iff, actionUse?_eq_none_iff]
  exact ⟨fun ⟨⟨helements, hformulas⟩, hactions⟩ => ⟨helements, hformulas, hactions⟩,
    fun h => ⟨⟨h.elements, h.formulas⟩, h.actions⟩⟩

/-- A file of metadata that stands beside a class, trigger, page or component declares nothing,
whatever it holds.  It uses nothing exactly if nothing is named in it. -/
theorem sidecar_yields_nothing_iff (parse : Parser) {base type : String}
    (hname : d.fileName = base ++ "." ++ type ++ suffix)
    (htype : Text.lower type ∈ Declarations.Metadata.sourceTypes) (tree : Node) :
    Extractor.metadata.symbols parse d (some (.root tree)) = [] ∧
      (Extractor.metadata.references parse d (some (.root tree)) = [] ↔ NamesNothing d tree) := by
  have hsource : Text.lower (subject d).type ∈ Declarations.Metadata.sourceTypes := by
    rw [subject_eq hname (Declarations.Metadata.dot_notMem_of_sourceType htype)]
    exact htype
  simp only [Extractor.metadata]
  exact ⟨Declarations.Metadata.symbols_eq_nil hsource _, references_eq_nil_iff⟩

/-- A metadata file beside a class. -/
def classSidecar : Document :=
  { path := "AccountService.cls-meta.xml"
    bytes := Text.Utf8.encode
      "<ApexClass><apiVersion>59.0</apiVersion></ApexClass>\n".toList
    limits := {} }

def classSidecarTree : Node :=
  .mk "document" true [] 0 53
    [Markup.elementNode 9 0 52 [Markup.elementNode 10 11 40 [.leaf "text" [] 23 27]]]

theorem classSidecar_yields_nothing :
    NamesNothing classSidecar classSidecarTree ∧
      Extractor.metadata.symbols (fun _ _ => none) classSidecar (some (.root classSidecarTree)) = [] ∧
        Extractor.metadata.references (fun _ _ => none) classSidecar
          (some (.root classSidecarTree)) = [] := by
  have hname : classSidecar.fileName = "AccountService" ++ "." ++ "cls" ++ suffix := by
    decide +kernel
  have hactions : Markup.finds (element "actionCalls") 1 classSidecar.fullText = [] := by
    decide +kernel
  have hnothing : NamesNothing classSidecar classSidecarTree :=
    { elements := by decide +kernel
      formulas := by decide +kernel
      actions := by simp [hactions] }
  obtain ⟨hsymbols, hreferences⟩ :=
    sidecar_yields_nothing_iff (fun _ _ => none) hname (by decide) classSidecarTree
  exact ⟨hnothing, hsymbols, hreferences.2 hnothing⟩

/-- A metadata file beside a page, with the class that controls the page. -/
def pageSidecar : Document :=
  { path := "A.page-meta.xml"
    bytes := Text.Utf8.encode "<ApexPage><controller>B</controller></ApexPage>\n".toList
    limits := {} }

def pageSidecarTree : Node :=
  .mk "document" true [] 0 48
    [Markup.elementNode 8 0 47 [Markup.elementNode 10 10 36 [.leaf "text" [] 22 23]]]

/-- The page declares nothing, but uses the class. -/
theorem pageSidecar_uses_controller :
    pageSidecar.fileName = "A" ++ "." ++ "page" ++ suffix ∧
      "page" ∈ Declarations.Metadata.sourceTypes ∧
        Declarations.Metadata.symbols pageSidecar (some (.root pageSidecarTree)) = [] ∧
          references pageSidecar (some (.root pageSidecarTree)) =
            [{ sourceName := none, targetName := "B", kind := .metadataRef, line := 1 }] := by
  decide +kernel

end Uses.Metadata

end SourceIndex
