import SourceIndex.Proofs.Scopes.Rust
import SourceIndex.Proofs.Text.Utf8
import SourceIndex.Proofs.Tree.Scoped

/-!
# Methods of Rust, and the types they belong to

A type is qualified by the modules around it, and the parent of a method is to be the qualified
name of its type.  The parent is taken from the implementation as it is written: the path before the
name of the type, the name, and the arguments behind it.  So the two are the same exactly where the
path that is written is that of the modules, and there are no arguments.  At the top of a file that
is the bare name; in a module the bare name is not enough.
-/

namespace SourceIndex

/-! ## Texts around a name -/

/-- Two texts that end alike with a name start alike.  Arguments end in a bracket and a name does
not, so where a name ends one of them, the other has no arguments behind its name. -/
theorem Text.append_name_inj {before path name arguments : String}
    (hname : ∃ c ∈ name.toList.getLast?, c ≠ '>')
    (harguments : arguments = "" ∨ arguments.toList.getLast? = some '>') :
    before ++ name ++ arguments = path ++ name ↔ before = path ∧ arguments = "" := by
  constructor
  · intro heq
    rcases harguments with rfl | hbracket
    · rw [String.append_empty] at heq
      exact ⟨(String.append_left_inj _).1 heq, rfl⟩
    · obtain ⟨c, hc, hne⟩ := hname
      have hlast := congrArg (fun text => text.toList.getLast?) heq
      simp only [String.toList_append, List.getLast?_append, hbracket, Option.mem_def.1 hc,
        Option.some_or, Option.some_inj] at hlast
      exact absurd hlast.symm hne
  · rintro ⟨rfl, rfl⟩
    exact String.append_empty

namespace Declarations.Rust

variable {d : Document} {tree : Node} {s : Scope} {path : Option String} {q c i n p t : Place}
  {z : Symbol}

/-! ## The bodies of modules -/

/-- Does a place hold the items of a file, or those of the module of a path? -/
inductive IsModuleBody (d : Document) (tree : Node) : Option String → Place → Prop
  | file : IsModuleBody d tree none (.root tree)
  | module {path : Option String} {q m b : Place} {name : String}
      (outer : IsModuleBody d tree path q) (child : m ∈ q.children) (kind : m.kind = "mod_item")
      (named : d.fieldText m "name" = some name) (body : m.field? "body" = some b) :
      IsModuleBody d tree (some (Text.qualify path name "::")) b

/-- A place is the body of one module only. -/
theorem IsModuleBody.unique {path' : Option String} (h : IsModuleBody d tree path q)
    (h' : IsModuleBody d tree path' q) : path = path' := by
  have hroot : ∀ {m : Place}, m.field? "body" ≠ some (.root tree) := fun hbody =>
    Place.ne_root_of_mem_children (Place.mem_children_of_field? hbody) rfl
  induction h generalizing path' with
  | file =>
      cases h' with
      | file => rfl
      | module _ _ _ _ body => exact absurd body hroot
  | module outer child kind named body ih =>
      cases h' with
      | file => exact absurd body hroot
      | module outer' child' kind' named' body' =>
          obtain rfl := Place.parent_unique (Place.mem_children_of_field? body')
            (Place.mem_children_of_field? body)
          obtain rfl := Place.parent_unique child' child
          rw [named, Option.some_inj] at named'
          rw [ih outer', named']

theorem exists_of_visit_moduleSteps {s' : Scope} (h : Step.visit s' q ∈ moduleSteps d s c) :
    ∃ name, d.fieldText c "name" = some name ∧ s' = s.enter (Text.qualify s.name name "::") := by
  unfold moduleSteps at h
  split at h
  · cases h
  · rename_i name hname
    rcases List.mem_cons.1 h with h | h
    · cases h
    · exact ⟨name, hname, (Step.mem_visit?.1 h).1⟩

/-- The walk for declarations comes to bodies of modules only, with the path of the module. -/
theorem isModuleBody_of_mem_visits {v : Scope × Place}
    (hv : v ∈ (rule d).visits {} (.root tree)) : IsModuleBody d tree v.1.name v.2 := by
  refine Rule.forall_mem_visits (rule_descends d) (P := fun s q => IsModuleBody d tree s.name q)
    ?_ .file v hv
  intro s s' p q hp hstep
  rw [rule] at hstep
  split at hstep
  · cases hstep
  · obtain ⟨m, hm, hstep⟩ := List.mem_flatMap.1 hstep
    obtain ⟨hkind, hbody⟩ := visit_childSteps d hstep
    rw [childSteps, hkind] at hstep
    obtain ⟨name, hname, rfl⟩ := exists_of_visit_moduleSteps hstep
    exact hp.module hm hkind hname hbody

/-! ## Types -/

/-- What the walk looks at in a place: the children one by one. -/
def entries (d : Document) (s : Scope) (p : Place) : List (Scope × Place) :=
  if d.tooDeep s.depth then [] else p.children.map fun c => (s, c)

theorem rule_eq_entries (s : Scope) (p : Place) :
    rule d s p = (entries d s p).flatMap fun e => childSteps d e.1 e.2 := by
  rw [rule, entries]
  split
  · rfl
  · rw [List.flatMap_map]

theorem mem_entries {e : Scope × Place} :
    e ∈ entries d s p ↔ d.tooDeep s.depth = false ∧ e.1 = s ∧ e.2 ∈ p.children := by
  obtain ⟨s', c⟩ := e
  cases hdepth : d.tooDeep s.depth <;> simp [entries, hdepth, and_comm, eq_comm]

/-- The kinds of types that have a body of their own. -/
def typeKinds : List String :=
  ["struct_item", "union_item", "enum_item"]

/-- The types of a file for which there are symbols, with their symbols. -/
def types (d : Document) (root : Place) : List (Place × Symbol) :=
  (rule d).firsts (entries d) (childSteps d) typeKinds {} root

/-- The symbol of a type comes before those of its members. -/
theorem qualifiedName_of_first? (hkind : t.kind ∈ typeKinds)
    (hfirst : Step.first? (childSteps d s t) = some z) :
    z.qualifiedName = Text.qualify s.name z.name "::" := by
  simp only [typeKinds, List.mem_cons, List.not_mem_nil, or_false] at hkind
  cases hname : d.fieldText t "name" with
  | none =>
      rcases hkind with hkind | hkind | hkind <;>
        simp [childSteps, hkind, structSymbols, enumSymbols, hname, Step.emitAll, Step.first?]
          at hfirst
  | some name =>
      rcases hkind with hkind | hkind | hkind <;>
        simp only [childSteps, hkind, structSymbols, enumSymbols, hname, Step.emitAll,
          List.map_cons, Step.first?, Option.some_inj] at hfirst <;>
        exact hfirst ▸ rfl

/-- The types of a file are those in the module bodies to which the walk comes. -/
theorem mem_types {root : Place} : (t, z) ∈ types d root ↔ ∃ v ∈ (rule d).visits {} root,
    d.tooDeep v.1.depth = false ∧ t ∈ v.2.children ∧ t.kind ∈ typeKinds ∧
      Step.first? (childSteps d v.1 t) = some z := by
  refine Rule.mem_firsts.trans ⟨?_, ?_⟩
  · rintro ⟨v, hv, s, he, hkind, hfirst⟩
    obtain ⟨hdepth, rfl, ht⟩ := mem_entries.1 he
    exact ⟨v, hv, hdepth, ht, hkind, hfirst⟩
  · rintro ⟨v, hv, hdepth, ht, hkind, hfirst⟩
    exact ⟨v, hv, v.1, mem_entries.2 ⟨hdepth, rfl, ht⟩, hkind, hfirst⟩

/-! ## Implementations -/

/-- The name of a type that has one, which a path may precede and arguments may follow. -/
def typeName? (t : Place) : Option Place :=
  let base := if t.kind == "generic_type" then (t.field? "type").getD t else t
  match base.kind with
  | "type_identifier" => some base
  | "scoped_type_identifier" => base.field? "name"
  | _ => none

/-- Is a type written with a text before its name and a text behind it? -/
structure IsWritten (d : Document) (t n : Place) (before arguments : String) : Prop where
  named : typeName? t = some n
  before : d.Holds t.start n.start before
  name : d.Holds n.start n.stop (d.text n)
  behind : d.Holds n.stop t.stop arguments
  /-- A name has an end, which is no bracket. -/
  ending : ∃ c ∈ (d.text n).toList.getLast?, c ≠ '>'
  /-- Arguments end with a bracket. -/
  closing : arguments = "" ∨ arguments.toList.getLast? = some '>'

/-- The text of a type is put together from what is written before the name, the name and what is
written behind it. -/
theorem IsWritten.text_eq {before arguments : String} (h : IsWritten d t n before arguments) :
    d.text t = before ++ d.text n ++ arguments := by
  have hstop : t.stop ≤ d.bytes.length := h.behind.2 ▸ h.behind.1.1
  have hbehind : n.stop ≤ t.stop := h.behind.2 ▸ Nat.le_add_right _ _
  have hname : n.start ≤ n.stop := h.name.2 ▸ Nat.le_add_right _ _
  calc
    d.text t = before ++ d.slice n.start t.stop :=
      Document.slice_eq_append h.before (Nat.le_trans hname hbehind) hstop
    _ = before ++ (d.text n ++ d.slice n.stop t.stop) := by
      rw [Document.slice_eq_append h.name hbehind hstop]
    _ = before ++ d.text n ++ arguments := by
      rw [Document.slice_eq h.behind, String.append_assoc]

/-- A type is written as the qualified name of what has its name in a module exactly if the path of
the module is written before the name, and nothing behind it. -/
theorem IsWritten.text_eq_qualify_iff {before arguments : String}
    (h : IsWritten d t n before arguments) :
    d.text t = Text.qualify path (d.text n) "::" ↔
      before = Text.qualify path "" "::" ∧ arguments = "" := by
  rw [h.text_eq, Text.qualify_eq_append]
  exact Text.append_name_inj h.ending h.closing

theorem implOwner?_of_inherent (hi : c.field? "type" = some i) (htrait : c.field? "trait" = none) :
    implOwner? d c = some (d.text i) := by
  simp [implOwner?, Document.fieldText, hi, htrait]

/-- The methods of an implementation in a module body to which the walk comes have symbols. -/
theorem exists_method {owner name : String} (hv : (s, q) ∈ (rule d).visits {} (.root tree))
    (hdepth : d.tooDeep s.depth = false) (hc : c ∈ q.children) (hkind : c.kind = "impl_item")
    (howner : implOwner? d c = some owner) (hp : p ∈ bodyChildren c)
    (hitem : p.kind = "function_item") (hname : d.fieldText p "name" = some name) :
    ∃ y, (p, y) ∈ functions d (.root tree) ∧ y.kind = .method ∧ y.name = name ∧
      y.parentName = some owner := by
  obtain ⟨y, hy, hmethod, hnamed⟩ : ∃ y, function? d (some owner) .method p = some y ∧
      y.kind = .method ∧ y.name = name := by
    simp only [function?, hname]
    exact ⟨_, rfl, rfl, rfl⟩
  obtain ⟨-, -, -, hparent⟩ := function?_eq_some d hy
  refine ⟨y, List.mem_flatMap.2 ⟨_, hv, ?_⟩, hmethod, hnamed, hparent⟩
  simp only [hdepth, Bool.false_eq_true, if_false]
  refine List.mem_flatMap.2 ⟨c, hc, ?_⟩
  rw [childFunctions, hkind, howner]
  exact (mem_functionsAmong d).2 ⟨hp, hitem, hy⟩

/-- A method of an implementation without a trait is found among the symbols, and so is its type if
that stands in the same file or module.  The parent of the method is the qualified name of the type
exactly if the implementation writes the path of the module before the name of the type, and no
arguments behind it. -/
theorem inherent_linked_iff {before arguments name : String} (hq : IsModuleBody d tree path q)
    (ht : t ∈ q.children) (hz : (t, z) ∈ types d (.root tree)) (hc : c ∈ q.children)
    (hkind : c.kind = "impl_item") (htrait : c.field? "trait" = none)
    (hi : c.field? "type" = some i) (hwritten : IsWritten d i n before arguments)
    (hnamed : d.text n = z.name) (hp : p ∈ bodyChildren c) (hitem : p.kind = "function_item")
    (hname : d.fieldText p "name" = some name) :
    z ∈ symbols d (.root tree) ∧ ∃ y ∈ symbols d (.root tree),
      (p, y) ∈ functions d (.root tree) ∧ y.kind = .method ∧ y.name = name ∧
        (y.parentName = some z.qualifiedName ↔
          before = Text.qualify path "" "::" ∧ arguments = "") := by
  obtain ⟨⟨s, q'⟩, hv, hdepth, ht', htype, hfirst⟩ := mem_types.1 hz
  -- The walk took the type up in the same body, and so with the path of that module.
  obtain rfl := Place.parent_unique ht ht'
  obtain rfl := hq.unique (isModuleBody_of_mem_visits hv)
  have hqualified := qualifiedName_of_first? htype hfirst
  obtain ⟨y, hy, hmethod, hyName, hparent⟩ :=
    exists_method hv hdepth hc hkind (implOwner?_of_inherent hi htrait) hp hitem hname
  refine ⟨Rule.mem_walk_of_mem_firsts (rule_descends d) rule_eq_entries hz, y,
    mem_symbols_of_mem_functions d hy, hy, hmethod, hyName, ?_⟩
  rw [hparent, Option.some_inj, hqualified, ← hnamed, hwritten.text_eq_qualify_iff]

/-- The tree of `struct S;` from an offset on. -/
def structAt (n : Nat) : Node :=
  .mk "struct_item" true [] n (n + 9)
    [.token "struct" n (n + 6), .leaf "type_identifier" ["name"] (n + 7) (n + 8),
      .token ";" (n + 8) (n + 9)]

/-- The tree of an implementation of `S` with one function, from an offset on. -/
def implementationAt (n : Nat) : Node :=
  .mk "impl_item" true [] n (n + 26)
    [.token "impl" n (n + 4), .leaf "type_identifier" ["type"] (n + 5) (n + 6),
      .mk "declaration_list" true ["body"] (n + 7) (n + 26)
        [.token "\x7b" (n + 7) (n + 8), callerAt (n + 9), .token "\x7d" (n + 25) (n + 26)]]

/-- A type with a method, at the top of a file. -/
def implementedInFile : Document :=
  { path := "a.rs"
    bytes := Text.Utf8.encode "struct S;\nimpl S \x7b fn f() \x7b g(); \x7d \x7d\n".toList
    limits := {} }

/-- The tree of `implementedInFile`. -/
def implementedInFileTree : Node :=
  .mk "source_file" true [] 0 37 [structAt 0, implementationAt 10]

theorem implementedInFile_linked :
    ∃ z ∈ symbols implementedInFile (.root implementedInFileTree), z.name = "S" ∧
      ∃ y ∈ symbols implementedInFile (.root implementedInFileTree), y.kind = .method ∧
        y.name = "f" ∧ y.parentName = some z.qualifiedName := by
  have hfound : ∃ v ∈ (rule implementedInFile).visits {} (.root implementedInFileTree),
      implementedInFile.tooDeep v.1.depth = false ∧ v.1.name = none ∧
        (∃ t ∈ v.2.children, t.kind ∈ typeKinds ∧
          ∃ z ∈ Step.first? (childSteps implementedInFile v.1 t), z.name = "S") ∧
        ∃ c ∈ v.2.children, c.kind = "impl_item" ∧ (c.field? "trait").isNone ∧
          ∃ i ∈ c.field? "type", ∃ n ∈ typeName? i, implementedInFile.text n = "S" ∧
            implementedInFile.Holds i.start n.start "" ∧
              implementedInFile.Holds n.start n.stop "S" ∧
                implementedInFile.Holds n.stop i.stop "" ∧
                  ∃ p ∈ bodyChildren c, p.kind = "function_item" ∧
                    implementedInFile.fieldText p "name" = some "f" := by
    decide +kernel
  obtain ⟨v, hv, hdepth, hfile, ⟨t, ht, htype, z, hz, hzName⟩, c, hc, hkind, htrait, i, hi, n, hn,
    htext, hbefore, hname, hbehind, p, hp, hitem, hpName⟩ := hfound
  have hwritten : IsWritten implementedInFile i n "" "" :=
    { named := hn
      before := hbefore
      name := htext ▸ hname
      behind := hbehind
      ending := htext ▸ ⟨'S', rfl, by decide⟩
      closing := .inl rfl }
  obtain ⟨hmem, y, hy, -, hmethod, hyName, hlinked⟩ := inherent_linked_iff
    (isModuleBody_of_mem_visits hv) ht (mem_types.2 ⟨v, hv, hdepth, ht, htype, hz⟩) hc hkind
    (Option.isNone_iff_eq_none.1 htrait) hi hwritten (htext.trans hzName.symm) hp hitem hpName
  rw [hfile] at hlinked
  exact ⟨z, hmem, hzName, y, hy, hmethod, hyName, hlinked.2 ⟨rfl, rfl⟩⟩

/-- A type with a method, in a module. -/
def implementedInModule : Document :=
  { path := "a.rs"
    bytes := Text.Utf8.encode
      "mod m \x7b struct S; impl S \x7b fn f() \x7b g(); \x7d \x7d \x7d\n".toList
    limits := {} }

/-- The tree of `implementedInModule`. -/
def implementedInModuleTree : Node :=
  .mk "source_file" true [] 0 47
    [.mk "mod_item" true [] 0 46
      [.token "mod" 0 3, .leaf "identifier" ["name"] 4 5,
        .mk "declaration_list" true ["body"] 6 46
          [.token "\x7b" 6 7, structAt 8, implementationAt 18, .token "\x7d" 45 46]]]

/-- The method has the bare name as its parent, and the type is qualified by the module. -/
theorem implementedInModule_not_linked :
    ∃ q, IsModuleBody implementedInModule implementedInModuleTree (some "m") q ∧
      (∃ t ∈ q.children, ∃ z, (t, z) ∈ types implementedInModule (.root implementedInModuleTree) ∧
        z.name = "S" ∧ z.qualifiedName = "m::S") ∧
      ∃ c ∈ q.children, c.kind = "impl_item" ∧ (c.field? "trait").isNone ∧
        implementedInModule.fieldText c "type" = some "S" ∧
          (∃ p ∈ bodyChildren c, p.kind = "function_item" ∧
            implementedInModule.fieldText p "name" = some "f") ∧
          ∀ y ∈ symbols implementedInModule (.root implementedInModuleTree),
            y.kind = .method → y.parentName ≠ some "m::S" := by
  have hfound : ∃ v ∈ (rule implementedInModule).visits {} (.root implementedInModuleTree),
      implementedInModule.tooDeep v.1.depth = false ∧ v.1.name = some "m" ∧
        (∃ t ∈ v.2.children, t.kind ∈ typeKinds ∧
          ∃ z ∈ Step.first? (childSteps implementedInModule v.1 t),
            z.name = "S" ∧ z.qualifiedName = "m::S") ∧
        ∃ c ∈ v.2.children, c.kind = "impl_item" ∧ (c.field? "trait").isNone ∧
          implementedInModule.fieldText c "type" = some "S" ∧
            (∃ p ∈ bodyChildren c, p.kind = "function_item" ∧
              implementedInModule.fieldText p "name" = some "f") ∧
            ∀ y ∈ symbols implementedInModule (.root implementedInModuleTree),
              y.kind = .method → y.parentName ≠ some "m::S" := by
    decide +kernel
  obtain ⟨v, hv, hdepth, hm, ⟨t, ht, htype, z, hz, hnames⟩, hrest⟩ := hfound
  exact ⟨v.2, hm ▸ isModuleBody_of_mem_visits hv,
    ⟨t, ht, z, mem_types.2 ⟨v, hv, hdepth, ht, htype, hz⟩, hnames⟩, hrest⟩

end Declarations.Rust

end SourceIndex
