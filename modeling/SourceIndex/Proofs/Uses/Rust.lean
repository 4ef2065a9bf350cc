import SourceIndex.Proofs.Tree.Sight
import SourceIndex.Uses.Rust

/-!
# Imports of Rust

A use declaration is a tree of lists, and what stands at its leaves is imported.  From the
declaration down, the walk keeps the joined paths of the lists around a part, and what it joins to
them at a leaf is the path of the leaf.  So a declaration gives one import for each leaf, in the
order of the source, and the depth of a leaf alone decides whether the limit leaves it out.
-/

namespace SourceIndex

namespace Uses.Rust

variable {d : Document} {p q c r : Place} {b : Branch} {scope : Option String}

/-! ## Use trees -/

/-- Is a child of a part of a use tree a part as well? -/
def opens (q c : Place) : Bool :=
  q.kind == "use_list" || (q.kind == "scoped_use_list" && q.isField "list" c)

/-- Is a place below a declaration a part of its use tree? -/
def isPartOf (p : Place) : Place → Bool
  | .root _ => false
  | .child q ns n => q.level == p.level || (isPartOf p q && opens q (.child q ns n))

/-- The text of the path before a list, if it has one. -/
def listPath (d : Document) (q : Place) : List String :=
  if q.kind == "scoped_use_list" then (d.fieldText q "path").toList else []

/-- The texts of the paths of the lists around a part of the use tree of a declaration, from outside
in. -/
def pathsAround (d : Document) (p : Place) : Place → List String
  | .root _ => []
  | .child q _ _ => if q.level == p.level then [] else pathsAround d p q ++ listPath d q

/-- The path that a leaf states itself. -/
def ownPath (d : Document) (q : Place) : String :=
  if q.kind == "use_as_clause" then (d.fieldText q "path").getD "" else d.text q

/-- Texts joined by colons.  Empty texts in front of all others do not count: before them there is
no path yet. -/
def joined (texts : List String) : String :=
  "::".intercalate (texts.dropWhile String.isEmpty)

/-- The path of a leaf below the paths of the lists around it. -/
def fullPath (d : Document) (p q : Place) : String :=
  joined (pathsAround d p q ++ [ownPath d q])

/-- What a leaf imports: everything there is, or else the last segment of its path. -/
def importedName (d : Document) (p q : Place) : String :=
  if q.kind == "use_wildcard" then "*" else Text.afterLast "::" (fullPath d p q)

theorem isPartOf_of_mem_children (hc : c ∈ q.children) :
    isPartOf p c = (q.level == p.level || (isPartOf p q && opens q c)) := by
  obtain ⟨ns, n, rfl⟩ := Place.exists_of_mem_children hc
  rfl

theorem pathsAround_of_mem_children (hc : c ∈ q.children) (hlevel : p.level < q.level) :
    pathsAround d p c = pathsAround d p q ++ listPath d q := by
  obtain ⟨ns, n, rfl⟩ := Place.exists_of_mem_children hc
  have hne : (q.level == p.level) = false := beq_eq_false_iff_ne.2 (by omega)
  rw [pathsAround, hne, if_neg Bool.false_ne_true]

/-- Where a text counts, what is joined is not empty. -/
theorem joined_ne_empty {texts : List String} {text : String} (htext : text ≠ "") :
    "::".intercalate (text :: texts) ≠ "" := by
  cases texts with
  | nil => simpa using htext
  | cons next texts =>
      rw [String.intercalate_cons_cons]
      simp

/-- What a branch joins to its path it puts behind the paths around it. -/
theorem join_eq {paths : List String} (own : String) (hb : b.path = joined paths) :
    b.join own = joined (paths ++ [own]) := by
  rw [joined] at hb
  rw [joined, List.dropWhile_append]
  cases hpaths : paths.dropWhile String.isEmpty with
  | nil =>
      -- There is no path yet.
      rw [hpaths, String.intercalate_nil] at hb
      rw [List.isEmpty_nil, if_pos rfl, Branch.join, hb, if_pos (String.isEmpty_iff.2 rfl)]
      by_cases hown : own = ""
      · subst hown
        rfl
      · rw [List.dropWhile_cons_of_neg (by simpa using hown), String.intercalate_singleton]
  | cons path rest =>
      have hne : path ≠ "" := by
        have hhead := List.head?_dropWhile_not String.isEmpty paths
        rw [hpaths] at hhead
        simpa using hhead
      rw [hpaths] at hb
      have hfull : b.path.isEmpty = false := by
        rw [hb]
        simpa using joined_ne_empty hne
      rw [List.isEmpty_cons, if_neg Bool.false_ne_true, Branch.join, hfull,
        if_neg Bool.false_ne_true, hb,
        String.intercalate_append_of_ne_nil (List.cons_ne_nil _ _) (List.cons_ne_nil _ _),
        String.intercalate_singleton]

/-- Where a branch stands: at a part of the use tree of a declaration, with the paths around it and
the steps down to it. -/
structure Branch.IsAt (d : Document) (p : Place) (b : Branch) (c : Place) : Prop where
  below : c ∈ p.subtree
  part : isPartOf p c = true
  path : b.path = joined (pathsAround d p c)
  depth : c.level = p.level + 1 + b.depth

theorem Branch.IsAt.child (h : b.IsAt d p q) (hc : c ∈ q.children) (hopens : opens q c = true)
    {path : String} (hpath : path = joined (pathsAround d p q ++ listPath d q)) :
    Branch.IsAt d p { path, depth := b.depth + 1 } c := by
  have hlevel := h.depth
  have hpaths : pathsAround d p c = pathsAround d p q ++ listPath d q :=
    pathsAround_of_mem_children hc (by omega)
  refine ⟨Place.mem_subtree_of_mem_children h.below hc, ?_, hpaths ▸ hpath, ?_⟩
  · rw [isPartOf_of_mem_children hc, h.part, hopens]
    simp
  · rw [Place.level_of_mem_children hc, hlevel]
    rfl

theorem Branch.IsAt.item (h : b.IsAt d p q) (hkind : q.kind = "use_list") (hc : c ∈ q.children) :
    Branch.IsAt d p { b with depth := b.depth + 1 } c := by
  have hnone : listPath d q = [] := by simp [listPath, hkind]
  refine h.child hc (by simp [opens, hkind]) ?_
  rw [hnone, List.append_nil, h.path]

theorem Branch.IsAt.list (h : b.IsAt d p q) (hkind : q.kind = "scoped_use_list")
    (hc : q.field? "list" = some c) :
    Branch.IsAt d p
      { path := ((d.fieldText q "path").map b.join).getD b.path, depth := b.depth + 1 } c := by
  have hopens : opens q c = true := by
    rw [opens, hkind, Place.isField_of_field? hc]
    decide
  refine h.child (Place.mem_children_of_field? hc) hopens ?_
  cases hpath : d.fieldText q "path" with
  | none =>
      have hnone : listPath d q = [] := by simp [listPath, hpath]
      rw [hnone, List.append_nil, Option.map_none, Option.getD_none, h.path]
  | some path =>
      have hone : listPath d q = [path] := by simp [listPath, hkind, hpath]
      rw [hone, Option.map_some, Option.getD_some, join_eq path h.path]

/-- What a leaf of the use tree of a declaration imports, with its path. -/
def imported (d : Document) (p q : Place) : String × String :=
  (fullPath d p q, importedName d p q)

end Uses.Rust

end SourceIndex
