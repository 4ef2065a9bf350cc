import SourceIndex.Proofs.Scopes.Ruby
import SourceIndex.Proofs.Tree.Preorder

/-!
# Visibility in Ruby

A bare `private`, `protected` or `public` holds for the methods behind it, as far as the body goes
that it stands in.  What stands in a body stands there by itself or in places that belong to the
body, and never in a module or class within the body.  So the body of a module or class has no
statements in common with the bodies around it, and no keywords.

The methods of a class itself have no such visibility.  They are public, whatever stands before
them.
-/

namespace SourceIndex

namespace Declarations.Ruby

open SourceIndex.Uses.Ruby (scopeKinds)

variable {d : Document} {n m : Nat} {b b' c k : Place} {s : Scope} {tree : Node}
  {visibility v w : Visibility} {y : Symbol}

/-! ## What stands in a body -/

theorem isOneOf_transparentKinds : c.isOneOf transparentKinds = true ↔ c.kind ∈ transparentKinds :=
  List.contains_iff_mem

/-- Does a place stand in a body as one of its statements?  Statements may be nested in places that
belong to the body, down to the depth that the walk keeps to. -/
inductive StandsIn (d : Document) : Nat → Place → Place → Prop
  | child {n : Nat} {b c : Place} (hdepth : d.tooDeep n = false) (hc : c ∈ b.children)
      (hkind : c.kind ∉ transparentKinds) : StandsIn d n b c
  | within {n : Nat} {b inner c : Place} (hdepth : d.tooDeep n = false)
      (hinner : inner ∈ b.children) (hkind : inner.kind ∈ transparentKinds)
      (h : StandsIn d (n + 1) inner c) : StandsIn d n b c

theorem StandsIn.kind_notMem (h : StandsIn d n b c) : c.kind ∉ transparentKinds := by
  induction h with
  | child _ _ hkind => exact hkind
  | within _ _ _ _ ih => exact ih

theorem StandsIn.mem_subtree (h : StandsIn d n b c) : c ∈ b.subtree := by
  induction h with
  | child _ hc _ => exact Place.mem_subtree_of_child hc
  | within _ hinner _ _ ih => exact Place.mem_subtree_trans (Place.mem_subtree_of_child hinner) ih

/-- The walk takes up the statements of a body from child to child. -/
theorem walk_statementRule (n : Nat) (b : Place) :
    (statementRule d).walk n b = if d.tooDeep n then [] else b.children.flatMap fun c =>
      if c.isOneOf transparentKinds then (statementRule d).walk (n + 1) c else [(n, c)] := by
  rw [Rule.walk_eq statementRule_descends, statementRule]
  split
  · rfl
  · rw [List.flatMap_map]
    refine List.flatMap_congr fun c _ => ?_
    split <;> rfl

theorem StandsIn.exists_mem_walk (h : StandsIn d n b c) :
    ∃ depth, (depth, c) ∈ (statementRule d).walk n b := by
  induction h with
  | @child n b c hdepth hc hkind =>
      refine ⟨n, ?_⟩
      rw [walk_statementRule, hdepth, if_neg Bool.false_ne_true]
      refine List.mem_flatMap.2 ⟨c, hc, ?_⟩
      rw [if_neg (mt isOneOf_transparentKinds.1 hkind)]
      exact List.mem_singleton_self _
  | @within n b inner c hdepth hinner hkind _ ih =>
      obtain ⟨depth, hmem⟩ := ih
      refine ⟨depth, ?_⟩
      rw [walk_statementRule, hdepth, if_neg Bool.false_ne_true]
      refine List.mem_flatMap.2 ⟨inner, hinner, ?_⟩
      rwa [if_pos (isOneOf_transparentKinds.2 hkind)]

theorem standsIn_of_mem_walk {statement : Nat × Place}
    (h : statement ∈ (statementRule d).walk n b) : StandsIn d n b statement.2 := by
  induction hheight : b.node.height using Nat.strong_induction_on generalizing n b with
  | _ height ih =>
      rw [walk_statementRule] at h
      split at h
      · cases h
      · rename_i hdepth
        obtain ⟨c, hc, h⟩ := List.mem_flatMap.1 h
        split at h
        · rename_i hkind
          have hinner := ih _ (hheight ▸ Place.height_lt_of_mem_children hc) h rfl
          exact .within (Bool.eq_false_iff.2 hdepth) hc (isOneOf_transparentKinds.1 hkind) hinner
        · rename_i hkind
          obtain rfl := List.mem_singleton.1 h
          exact .child (Bool.eq_false_iff.2 hdepth) hc (mt isOneOf_transparentKinds.2 hkind)

/-- The statements of a body come in the order of their numbers. -/
theorem pairwise_number_walk (n : Nat) (b : Place) :
    ((statementRule d).walk n b).Pairwise fun u v => u.2.number < v.2.number := by
  induction hheight : b.node.height using Nat.strong_induction_on generalizing n b with
  | _ height ih =>
      rw [walk_statementRule]
      split
      · exact List.Pairwise.nil
      · refine List.pairwise_flatMap.2 ⟨fun c hc => ?_, ?_⟩
        · split
          · exact ih _ (hheight ▸ Place.height_lt_of_mem_children hc) (n + 1) c rfl
          · exact List.pairwise_singleton _ _
        · -- What is taken up for a child stands in or below it, and siblings have numbers apart.
          have hbelow : ∀ c, ∀ u ∈ (if c.isOneOf transparentKinds then
              (statementRule d).walk (n + 1) c else [(n, c)]), u.2 ∈ c.subtree := by
            intro c u hu
            split at hu
            · exact (standsIn_of_mem_walk hu).mem_subtree
            · obtain rfl := List.mem_singleton.1 hu
              exact Place.self_mem_subtree c
          refine (Place.pairwise_number_siblingsFrom b [] b.node.children).imp ?_
          intro c c' hcc' u hu u' hu'
          have hu := (Place.number_bounds_of_mem_subtree (hbelow c u hu)).2
          have hu' := (Place.number_bounds_of_mem_subtree (hbelow c' u' hu')).1
          have hsize := Place.one_le_size u.2
          omega

/-! ## Bodies within bodies -/

/-- The nearest place above that is more than a part of the body around it. -/
def holder? (p : Place) : Option Place :=
  p.ancestors.find? fun q => !q.isOneOf transparentKinds

/-- The place that holds the statements of a body: the body itself, or the nearest above. -/
def bodyHolder? (b : Place) : Option Place :=
  (b :: b.ancestors).find? fun q => !q.isOneOf transparentKinds

theorem bodyHolder?_of_notMem (h : b.kind ∉ transparentKinds) : bodyHolder? b = some b := by
  refine List.find?_cons_of_pos ?_
  rw [Bool.not_eq_true']
  exact Bool.eq_false_iff.2 (mt isOneOf_transparentKinds.1 h)

theorem bodyHolder?_of_mem (hc : c ∈ b.children) (h : c.kind ∈ transparentKinds) :
    bodyHolder? c = bodyHolder? b := by
  rw [bodyHolder?, List.find?_cons_of_neg, Place.ancestors_of_mem_children hc]
  · rfl
  · rw [isOneOf_transparentKinds.2 h]
    exact Bool.false_ne_true

/-- All statements of a body have one holder. -/
theorem StandsIn.holder? (h : StandsIn d n b c) : Ruby.holder? c = bodyHolder? b := by
  induction h with
  | child _ hc _ =>
      rw [Ruby.holder?, Place.ancestors_of_mem_children hc]
      rfl
  | within _ hinner hkind _ ih => rw [ih, bodyHolder?_of_mem hinner hkind]

/-- What holds the statements of a body in or below a place of its own is not above that place. -/
theorem exists_bodyHolder?_of_mem_subtree (hkind : c.kind ∉ transparentKinds)
    (h : b ∈ c.subtree) : ∃ p, bodyHolder? b = some p ∧ c.level ≤ p.level := by
  refine (Place.forall_mem_subtree (P := fun b => c.level ≤ b.level ∧
    ∃ p, bodyHolder? b = some p ∧ c.level ≤ p.level) (fun q r hr hq => ?_)
    ⟨Nat.le_refl _, c, bodyHolder?_of_notMem hkind, Nat.le_refl _⟩ b h).2
  obtain ⟨hlevel, hholder⟩ := hq
  have hr' : c.level ≤ r.level := by
    rw [Place.level_of_mem_children hr]
    omega
  refine ⟨hr', ?_⟩
  -- On the way down the holder stays, or it is the place that is reached.
  by_cases hr'' : r.kind ∈ transparentKinds
  · rwa [bodyHolder?_of_mem hr hr'']
  · exact ⟨r, bodyHolder?_of_notMem hr'', hr'⟩

theorem level_lt_of_holder? {p : Place} (h : holder? c = some p) : p.level < c.level :=
  Place.level_lt_of_mem_ancestors (List.mem_of_find?_eq_some h)

/-- What stands in a body in or below a statement of another body, such as a module or class, does
not stand in that other body. -/
theorem StandsIn.disjoint (hc : StandsIn d n b c) (hb' : b' ∈ c.subtree)
    (hk : StandsIn d m b' k) : ¬StandsIn d n b k := by
  intro hk'
  obtain ⟨p, hholder, hlevel⟩ := exists_bodyHolder?_of_mem_subtree hc.kind_notMem hb'
  have hsame : Ruby.holder? c = some p := by
    rw [hc.holder?, ← hk'.holder?, hk.holder?, hholder]
  have hlt := level_lt_of_holder? hsame
  omega

/-! ## Keywords -/

/-- A bare word that sets the visibility of what follows. -/
structure IsKeyword (d : Document) (k : Place) (v : Visibility) : Prop where
  kind : k.kind = "identifier"
  sets : v ∈ [Visibility.private, .protected, .public]
  text : d.text k = v.word

theorem visibilitySet?_eq_some_iff : visibilitySet? d k = some v ↔ IsKeyword d k v := by
  unfold visibilitySet?
  constructor
  · intro h
    split at h
    · rename_i hkind
      have htext := List.find?_some (p := fun v : Visibility => v.word == d.text k) h
      exact ⟨beq_iff_eq.1 hkind, List.mem_of_find?_eq_some h, (beq_iff_eq.1 htext).symm⟩
    · cases h
  · rintro ⟨hkind, hsets, htext⟩
    rw [if_pos (beq_iff_eq.2 hkind), htext]
    simp only [List.mem_cons, List.not_mem_nil, or_false] at hsets
    obtain rfl | rfl | rfl := hsets <;> decide

theorem visibilitySet?_eq_none_iff : visibilitySet? d k = none ↔ ∀ v, ¬IsKeyword d k v := by
  rw [Option.eq_none_iff_forall_ne_some]
  exact forall_congr' fun v => not_congr visibilitySet?_eq_some_iff

/-- The visibility that holds for a place in a body: what the last keyword before the place sets, or
public where there is none. -/
inductive IsCurrent (d : Document) (n : Nat) (b c : Place) : Visibility → Prop
  | initial (h : ∀ k, StandsIn d n b k → k.number < c.number → ∀ v, ¬IsKeyword d k v) :
      IsCurrent d n b c .public
  | set {k : Place} {v : Visibility} (hk : StandsIn d n b k) (hbefore : k.number < c.number)
      (hkeyword : IsKeyword d k v)
      (hlast : ∀ k', StandsIn d n b k' → k.number < k'.number → k'.number < c.number →
        ∀ v', ¬IsKeyword d k' v') : IsCurrent d n b c v

/-- One visibility holds for a place, and no other. -/
theorem IsCurrent.eq (h : IsCurrent d n b c v) (h' : IsCurrent d n b c w) : v = w := by
  cases h with
  | initial hnone =>
      cases h' with
      | initial => rfl
      | set hk hbefore hkeyword => exact absurd hkeyword (hnone _ hk hbefore _)
  | @set k v hk hbefore hkeyword hlast =>
      cases h' with
      | initial hnone => exact absurd hkeyword (hnone _ hk hbefore _)
      | @set k' w hk' hbefore' hkeyword' hlast' =>
          rcases Nat.lt_trichotomy k.number k'.number with hlt | heq | hgt
          · exact absurd hkeyword' (hlast _ hk' hlt hbefore' _)
          · obtain rfl := Place.eq_of_number_eq hk.mem_subtree hk'.mem_subtree heq
            have hset := visibilitySet?_eq_some_iff.2 hkeyword
            rw [visibilitySet?_eq_some_iff.2 hkeyword'] at hset
            exact (Option.some.inj hset).symm
          · exact absurd hkeyword (hlast' _ hk hgt hbefore _)

/-- The visibility of a statement is what the last of the statements before it sets. -/
theorem exists_of_mem_withVisibility {statements : List (Nat × Place)} {statement : Nat × Place}
    (h : (v, statement) ∈ withVisibility d visibility statements) :
    ∃ before after, statements = before ++ statement :: after ∧
      v = (before.reverse.findSome? fun u => visibilitySet? d u.2).getD visibility := by
  induction statements generalizing visibility with
  | nil => cases h
  | cons first rest ih =>
      rcases List.mem_cons.1 h with heq | h
      · cases heq
        exact ⟨[], rest, rfl, rfl⟩
      · obtain ⟨before, after, rfl, rfl⟩ := ih h
        refine ⟨first :: before, after, rfl, ?_⟩
        rw [List.reverse_cons, List.findSome?_append, List.findSome?_singleton, Option.getD_or]

/-- In the walk through a body, a statement with a lesser number comes before. -/
theorem StandsIn.exists_mem_before {before after : List (Nat × Place)} {statement : Nat × Place}
    (hk : StandsIn d n b k) (hwalk : (statementRule d).walk n b = before ++ statement :: after)
    (hlt : k.number < statement.2.number) : ∃ depth, (depth, k) ∈ before := by
  obtain ⟨depth, hmem⟩ := hk.exists_mem_walk
  have hordered := pairwise_number_walk (d := d) n b
  rw [hwalk] at hmem hordered
  rcases List.mem_append.1 hmem with hmem | hmem
  · exact ⟨depth, hmem⟩
  · rcases List.mem_cons.1 hmem with rfl | hmem
    · exact absurd hlt (Nat.lt_irrefl _)
    · have hbehind := (List.pairwise_cons.1 (List.pairwise_append.1 hordered).2.1).1 _ hmem
      exact absurd hlt (Nat.lt_asymm hbehind)

/-- The statements of a body are taken up with the visibility that holds for them. -/
theorem isCurrent_of_mem_withVisibility {statement : Nat × Place}
    (h : (v, statement) ∈ withVisibility d .public ((statementRule d).walk n b)) :
    IsCurrent d n b statement.2 v := by
  obtain ⟨before, after, hwalk, rfl⟩ := exists_of_mem_withVisibility h
  cases hfound : before.reverse.findSome? fun u => visibilitySet? d u.2 with
  | none =>
      refine .initial fun k hk hlt => ?_
      obtain ⟨depth, hmem⟩ := hk.exists_mem_before hwalk hlt
      have hnone := List.findSome?_eq_none_iff.1 hfound _ (List.mem_reverse.2 hmem)
      exact visibilitySet?_eq_none_iff.1 hnone
  | some v =>
      obtain ⟨later, u, earlier, hreverse, hset, hlater⟩ := List.findSome?_eq_some_iff.1 hfound
      have hu : u ∈ before := by
        rw [← List.mem_reverse, hreverse]
        exact List.mem_append_right _ List.mem_cons_self
      have huwalk : u ∈ (statementRule d).walk n b := by
        rw [hwalk]
        exact List.mem_append_left _ hu
      have hordered := pairwise_number_walk (d := d) n b
      rw [hwalk] at hordered
      obtain ⟨hbefore, -, hapart⟩ := List.pairwise_append.1 hordered
      have hbackwards := List.pairwise_reverse.2 hbefore
      rw [hreverse] at hbackwards
      have hearlier := (List.pairwise_cons.1 (List.pairwise_append.1 hbackwards).2.1).1
      refine .set (standsIn_of_mem_walk huwalk) (hapart u hu _ List.mem_cons_self)
        (visibilitySet?_eq_some_iff.1 hset) fun k hk hgt hlt => ?_
      -- What stands between the two is read before the keyword on the way back, and is none.
      obtain ⟨depth, hmem⟩ := hk.exists_mem_before hwalk hlt
      rw [← List.mem_reverse, hreverse] at hmem
      rcases List.mem_append.1 hmem with hmem | hmem
      · exact visibilitySet?_eq_none_iff.1 (hlater _ hmem)
      · rcases List.mem_cons.1 hmem with rfl | hmem
        · exact absurd hgt (Nat.lt_irrefl _)
        · exact absurd hgt (Nat.lt_asymm (hearlier _ hmem))

/-! ## Methods -/

/-- The body of a module or class, or the declaration itself where its statements stand in it. -/
def bodyOf (p : Place) : Place :=
  (p.field? "body").getD p

/-- A method of a class itself is public; any other has an owner and the visibility that holds for
it. -/
theorem of_method (hkind : c.kind ∈ scopeKinds)
    (hy : Step.first? (statementSteps d s v c) = some y) (hmethod : y.kind = .method) :
    (c.kind = "singleton_method" ∧ y.visibility = .public) ∨
      (c.kind = "method" ∧ s.name.isSome = true ∧ y.visibility = v) := by
  have hnamespace : ∀ kind, Step.first? (namespaceSteps d s kind c) = some y → y.kind = kind := by
    intro kind hy
    unfold namespaceSteps at hy
    split at hy
    · cases hy
    · cases hy
      rfl
  unfold statementSteps at hy
  split at hy
  case h_1 | h_2 => exact absurd ((hnamespace _ hy).symm.trans hmethod) (by decide)
  case h_3 hc =>
    rw [Step.first?_emit?] at hy
    obtain ⟨name, -, rfl⟩ := Option.map_eq_some_iff.1 hy
    refine Or.inr ⟨hc, ?_⟩
    -- Outside all modules and classes it is a function, and of the others one is a constructor.
    cases howner : s.name with
    | none =>
        rw [howner] at hmethod
        cases hmethod
    | some owner =>
        rw [howner] at hmethod
        rw [Option.isNone_some, if_neg Bool.false_ne_true] at hmethod ⊢
        refine ⟨rfl, ?_⟩
        by_cases hinit : (name == "initialize") = true
        · rw [if_pos hinit] at hmethod
          cases hmethod
        · rw [if_neg hinit]
          rfl
  case h_4 hc =>
    rw [Step.first?_emit?] at hy
    obtain ⟨name, -, rfl⟩ := Option.map_eq_some_iff.1 hy
    exact Or.inl ⟨hc, rfl⟩
  case h_5 hc | h_6 hc => simp [scopeKinds, hc] at hkind
  case h_7 => cases hy

/-- The walk comes into a body with the name of the module or class that it is the body of. -/
theorem exists_scope_of_mem_visits {u : Scope × Place}
    (hu : u ∈ (rule d).visits {} (.root tree)) (hname : u.1.name.isSome = true) :
    ∃ g ∈ scopes d (.root tree), g.1.kind ∈ ["module", "class"] ∧
      u.1.name = some g.2.qualifiedName ∧ u.2 = bodyOf g.1 := by
  rcases Rule.eq_or_exists_visit rule_descends hu with rfl | ⟨w, hw, hstep⟩
  · cases hname
  · rw [rule_eq_entries] at hstep
    obtain ⟨⟨t, c⟩, he, hstep⟩ := List.mem_flatMap.1 hstep
    obtain ⟨hkind, name, hname, hs, hb⟩ := visit_statementSteps hstep
    have hnamespace : ∀ kind, ∃ y, Step.first? (namespaceSteps d t.2 kind c) = some y ∧
        y.qualifiedName = Text.qualify t.2.name name "::" := by
      intro kind
      rw [namespaceSteps, hname]
      exact ⟨_, rfl, rfl⟩
    obtain ⟨y, hy, hqualified⟩ : ∃ y, Step.first? (entrySteps d t c) = some y ∧
        y.qualifiedName = Text.qualify t.2.name name "::" := by
      simp only [List.mem_cons, List.not_mem_nil, or_false] at hkind
      rcases hkind with hc | hc
      · rw [entrySteps, statementSteps, hc]
        exact hnamespace .module
      · rw [entrySteps, statementSteps, hc]
        exact hnamespace .class
    have hscope : scopeKinds.contains c.kind = true := by
      have hsubset : ["module", "class"] ⊆ scopeKinds := by decide
      exact List.contains_iff_mem.2 (hsubset hkind)
    refine ⟨(c, y), Rule.mem_heads.2 ⟨w, hw, t, he, hscope, hy⟩, hkind, ?_, hb⟩
    rw [hs, hqualified]
    rfl

variable (d)

/-- A method of the instances of a module or class has the visibility that holds for it in the body
that it stands in, unless it is the constructor.  The methods of a class itself are public.  No body
in or below a statement of a body, such as a module or class, has a statement in common with that
body. -/
theorem methods_follow_keywords (tree : Node) :
    (∀ y ∈ symbols d (.root tree), y.kind = .method → ∃ c, (c, y) ∈ scopes d (.root tree)) ∧
    (∀ f ∈ scopes d (.root tree), f.2.kind = .method →
      (f.1.kind = "singleton_method" ∧ f.2.visibility = .public) ∨
      (f.1.kind = "method" ∧ ∃ g ∈ scopes d (.root tree), g.1.kind ∈ ["module", "class"] ∧
        f.2.parentName = some g.2.qualifiedName ∧
        ∃ n, (⟨f.2.parentName, n⟩, bodyOf g.1) ∈ (rule d).visits {} (.root tree) ∧
          StandsIn d n (bodyOf g.1) f.1 ∧
          ∀ v, IsCurrent d n (bodyOf g.1) f.1 v ↔ v = f.2.visibility)) ∧
    ∀ n m b c b' k, StandsIn d n b c → b' ∈ c.subtree → StandsIn d m b' k →
      ¬StandsIn d n b k := by
  refine ⟨fun y hy hmethod => ?_, fun f hf hmethod => ?_, fun n m b c b' k hc hb' hk => ?_⟩
  · refine exists_mem_scopes_iff.2 ⟨hy, ?_⟩
    rw [hmethod]
    decide
  · obtain ⟨c, y⟩ := f
    obtain ⟨⟨s, b⟩, hv, t, he, hkind, hy⟩ := Rule.mem_heads.1 hf
    rw [List.contains_iff_mem] at hkind
    have hparent : y.parentName = t.2.name := (exists_name hkind hy).2.1
    refine (of_method hkind hy hmethod).imp_right fun ⟨hc, howner, hvisibility⟩ => ⟨hc, ?_⟩
    obtain ⟨⟨v, depth, c'⟩, hmem, heq⟩ := List.mem_map.1 he
    cases heq
    have hs : s.name = y.parentName := hparent.symm
    obtain ⟨g, hg, hgkind, hgname, rfl⟩ := exists_scope_of_mem_visits hv howner
    have hcurrent := isCurrent_of_mem_withVisibility hmem
    refine ⟨g, hg, hgkind, hs ▸ hgname, s.depth, hs ▸ hv,
      standsIn_of_mem_walk (mem_of_mem_withVisibility hmem), fun w => ?_⟩
    rw [hvisibility]
    exact ⟨fun h => h.eq hcurrent, fun h => h ▸ hcurrent⟩
  · exact hc.disjoint hb' hk

/-- A class with a keyword, and in it a class with a method and another keyword before the next
method of the outer class. -/
def keywordsInClasses : Document :=
  { path := "a.rb"
    bytes := Text.Utf8.encode
      ("class A\n  private\n  class B\n    def m\n    end\n    protected\n  end\n  def n\n  end\n" ++
        "end\n").toList
    limits := {} }

/-- The tree of `keywordsInClasses`. -/
def keywordsInClassesTree : Node :=
  .mk "program" true [] 0 84
    [.mk "class" true [] 0 83
      [.token "class" 0 5, .leaf "constant" ["name"] 6 7,
        .mk "body_statement" true ["body"] 10 79
          [.leaf "identifier" [] 10 17,
            .mk "class" true [] 20 65
              [.token "class" 20 25, .leaf "constant" ["name"] 26 27,
                .mk "body_statement" true ["body"] 32 59
                  [.mk "method" true [] 32 45
                    [.token "def" 32 35, .leaf "identifier" ["name"] 36 37, .token "end" 42 45],
                    .leaf "identifier" [] 50 59],
                .token "end" 62 65],
            .mk "method" true [] 68 79
              [.token "def" 68 71, .leaf "identifier" ["name"] 72 73, .token "end" 76 79]],
        .token "end" 80 83]]

/-- The keyword of the outer class holds behind the inner one, and neither holds in the other. -/
theorem keywordsInClasses_methods :
    ∀ expected ∈ [("A#n", Visibility.private), ("A::B#m", .public)],
      ∃ f ∈ scopes keywordsInClasses (.root keywordsInClassesTree),
        f.2.qualifiedName = expected.1 ∧ f.2.visibility = expected.2 ∧
        ∃ g ∈ scopes keywordsInClasses (.root keywordsInClassesTree),
          f.2.parentName = some g.2.qualifiedName ∧
          ∃ n, StandsIn keywordsInClasses n (bodyOf g.1) f.1 ∧
            IsCurrent keywordsInClasses n (bodyOf g.1) f.1 expected.2 := by
  have hmethods : ∀ expected ∈ [("A#n", Visibility.private), ("A::B#m", .public)],
      ∃ f ∈ scopes keywordsInClasses (.root keywordsInClassesTree),
        f.2.qualifiedName = expected.1 ∧ f.2.visibility = expected.2 ∧
        f.2.kind = .method ∧ f.1.kind ≠ "singleton_method" := by
    decide +kernel
  intro expected hexpected
  obtain ⟨f, hf, hname, hvisibility, hmethod, hkind⟩ := hmethods expected hexpected
  refine ⟨f, hf, hname, hvisibility, ?_⟩
  obtain ⟨hsingleton, -⟩ | ⟨-, g, hg, -, hparent, n, -, hstands, hcurrent⟩ :=
    (methods_follow_keywords keywordsInClasses keywordsInClassesTree).2.1 f hf hmethod
  · exact absurd hsingleton hkind
  · exact ⟨g, hg, hparent, n, hstands, (hcurrent _).2 hvisibility.symm⟩

/-- A class with a keyword before a method of the class itself. -/
def keywordBeforeSingleton : Document :=
  { path := "a.rb"
    bytes := Text.Utf8.encode "class A\n  private\n  def self.b\n  end\nend\n".toList
    limits := {} }

/-- The tree of `keywordBeforeSingleton`. -/
def keywordBeforeSingletonTree : Node :=
  .mk "program" true [] 0 41
    [.mk "class" true [] 0 40
      [.token "class" 0 5, .leaf "constant" ["name"] 6 7,
        .mk "body_statement" true ["body"] 10 36
          [.leaf "identifier" [] 10 17,
            .mk "singleton_method" true [] 20 36
              [.token "def" 20 23, .leaf "self" ["object"] 24 28, .token "." 28 29,
                .leaf "identifier" ["name"] 29 30, .token "end" 33 36]],
        .token "end" 37 40]]

/-- A method of the class itself does not have the visibility that the keyword before it sets. -/
theorem keywordBeforeSingleton_method :
    ∃ f ∈ scopes keywordBeforeSingleton (.root keywordBeforeSingletonTree),
      ∃ u ∈ (rule keywordBeforeSingleton).visits {} (.root keywordBeforeSingletonTree),
        f.2.kind = .method ∧ f.2.parentName = some "A" ∧ u.1.name = some "A" ∧
        StandsIn keywordBeforeSingleton u.1.depth u.2 f.1 ∧
        IsCurrent keywordBeforeSingleton u.1.depth u.2 f.1 .private ∧
        ¬IsCurrent keywordBeforeSingleton u.1.depth u.2 f.1 f.2.visibility := by
  have hmethod : ∃ u ∈ (rule keywordBeforeSingleton).visits {} (.root keywordBeforeSingletonTree),
      ∃ e ∈ entries keywordBeforeSingleton u.1 u.2, ∃ y ∈ (Step.first?
        (entrySteps keywordBeforeSingleton e.1 e.2)).toList,
        u.1.name = some "A" ∧ e.1.1 = .private ∧ scopeKinds.contains e.2.kind = true ∧
        y.kind = .method ∧ y.parentName = some "A" ∧ y.visibility = .public := by
    decide +kernel
  obtain ⟨u, hu, ⟨⟨v, t⟩, c⟩, he, y, hy, hname, rfl, hkind, hmethod, hparent, hvisibility⟩ :=
    hmethod
  have hscope : (c, y) ∈ scopes keywordBeforeSingleton (.root keywordBeforeSingletonTree) :=
    Rule.mem_heads.2 ⟨u, hu, _, he, hkind, Option.mem_toList.1 hy⟩
  obtain ⟨⟨v, depth, c'⟩, hmem, heq⟩ := List.mem_map.1 he
  cases heq
  have hcurrent := isCurrent_of_mem_withVisibility hmem
  refine ⟨_, hscope, u, hu, hmethod, hparent, hname,
    standsIn_of_mem_walk (mem_of_mem_withVisibility hmem), hcurrent, fun hother => ?_⟩
  rw [hvisibility] at hother
  cases hother.eq hcurrent

end Declarations.Ruby

end SourceIndex
