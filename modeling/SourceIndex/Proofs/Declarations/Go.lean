import SourceIndex.Declarations.Go
import SourceIndex.Proofs.Text.Utf8
import SourceIndex.Proofs.Tree.Emission

/-!
# Symbols of Go, and the types of receivers

Whatever declares it, a symbol of a file spans a place, has a listed kind and no value, and the
symbol of a type is qualified by its bare name.

A method says by its parent which type it belongs to, and the type is found by its qualified name.
The parent is the text of the receiver's type without the stars before it.  So the two are the same
for a name alone and for a name right behind a star; the arguments of a generic type stay in the
text, and so does what stands between a star and a name.
-/

namespace SourceIndex

/-! ## Trimmed stars -/

namespace Text

theorem trimStartChar_eq_self {c : Char} {text : String} (h : c ∉ text.toList.head?) :
    trimStartChar c text = text := by
  have hkept : text.toList.dropWhile (· == c) = text.toList := by
    cases htext : text.toList with
    | nil => rfl
    | cons c' rest =>
        have hne : c' ≠ c := fun heq => h (by rw [htext, heq]; rfl)
        exact List.dropWhile_cons_of_neg (by simpa using hne)
  rw [trimStartChar, Chars.trimStartWhere, hkept, String.ofList_toList]

theorem trimStartChar_star (text : String) :
    trimStartChar '*' ("*" ++ text) = trimStartChar '*' text := by
  have hstar : ("*" ++ text).toList = '*' :: text.toList := by
    rw [String.toList_append]
    rfl
  rw [trimStartChar, trimStartChar, Chars.trimStartWhere, Chars.trimStartWhere, hstar,
    List.dropWhile_cons_of_pos (by decide)]

end Text

namespace Declarations.Go

open Idiom.Go

variable {d : Document} {tree : Node} {root m t n : Place}

/-! ## Receivers -/

/-- The type of the receiver of a method. -/
def receiver? (m : Place) : Option Place :=
  (m.field? "receiver").bind fun r =>
    (r.childrenOf "parameter_declaration").findSome? fun q => q.field? "type"

/-- The type that a pointer points to, or else the type itself. -/
def pointee (t : Place) : Place :=
  if t.kind = "pointer_type" then t.children.getLast?.getD t else t

/-- The name of a type that has one, which arguments may follow. -/
def typeName? (t : Place) : Option Place :=
  match t.kind with
  | "type_identifier" => some t
  | "generic_type" => (t.field? "type").filter fun n => n.kind == "type_identifier"
  | _ => none

/-- The offset behind the star of a pointer, if there is one. -/
def behindStar (t : Place) : Nat :=
  if t.kind = "pointer_type" then t.start + 1 else t.start

/-- Does a type stand in the source as the grammar writes it: a star, a gap, a name and arguments?
-/
structure IsWritten (d : Document) (t n : Place) : Prop where
  /-- The name starts as a word does. -/
  name : ∃ c rest, d.Holds n.start n.stop (String.ofList (c :: rest)) ∧ Text.isWordChar c = true
  arguments : (pointee t).kind = "generic_type" →
    n.start = (pointee t).start ∧ n.stop < (pointee t).stop
  /-- A gap starts with a blank or a comment, and so neither as a word does nor with a star. -/
  gap : behindStar t = (pointee t).start ∨ ∃ c stop,
    d.Holds (behindStar t) stop (String.singleton c) ∧ stop ≤ (pointee t).start ∧
      Text.isWordChar c = false ∧ c ≠ '*'
  star : t.kind = "pointer_type" → d.Holds t.start (t.start + 1) "*" ∧ (pointee t).stop = t.stop
  stop_le : t.stop ≤ d.bytes.length

/-- Is a type a name alone, or a name right behind a star? -/
def IsPlain (t : Place) : Prop :=
  (pointee t).kind = "type_identifier" ∧ behindStar t = (pointee t).start

instance (t : Place) : Decidable (IsPlain t) :=
  inferInstanceAs (Decidable (_ ∧ _))

theorem receiverType_eq (d : Document) (m : Place) :
    receiverType d (m.field? "receiver") =
      (receiver? m).map fun t => Text.trimStartChar '*' (d.text t) := by
  unfold receiverType receiver?
  cases m.field? "receiver" with
  | none => rfl
  | some r =>
      show Option.bind (List.findSome? _ _) _ = Option.map _ (List.findSome? _ _)
      have htext : (r.childrenOf "parameter_declaration").findSome? (fun q => d.fieldText q "type") =
          ((r.childrenOf "parameter_declaration").findSome? fun q => q.field? "type").map d.text :=
        (List.map_findSome? ..).symm
      rw [htext]
      cases (r.childrenOf "parameter_declaration").findSome? fun q => q.field? "type" <;> rfl

theorem typeName?_cases (h : typeName? t = some n) :
    t.kind = "type_identifier" ∧ n = t ∨ t.kind = "generic_type" := by
  unfold typeName? at h
  split at h
  · rename_i hkind
    exact .inl ⟨hkind, (Option.some.inj h).symm⟩
  · rename_i hkind
    exact .inr hkind
  · cases h

theorem pointee_stop (h : IsWritten d t n) : (pointee t).stop = t.stop := by
  by_cases hstar : t.kind = "pointer_type"
  · exact (h.star hstar).2
  · rw [pointee, if_neg hstar]

/-- The name starts the type behind star and gap, and ends it exactly if there are no arguments. -/
theorem name_within (h : IsWritten d t n) (hn : typeName? (pointee t) = some n) :
    n.start = (pointee t).start ∧ n.stop ≤ t.stop ∧
      (n.stop = t.stop ↔ (pointee t).kind = "type_identifier") := by
  have hstop : (pointee t).stop = t.stop := pointee_stop h
  rcases typeName?_cases hn with ⟨hkind, rfl⟩ | hkind
  · exact ⟨rfl, Nat.le_of_eq hstop, iff_of_true hstop hkind⟩
  · obtain ⟨hstart, hlt⟩ := h.arguments hkind
    have hne : (pointee t).kind ≠ "type_identifier" := by
      rw [hkind]
      decide
    exact ⟨hstart, by omega, iff_of_false (by omega) hne⟩

theorem name_start_le_stop (h : IsWritten d t n) : n.start ≤ n.stop := by
  obtain ⟨c, rest, hname, -⟩ := h.name
  exact hname.2 ▸ Nat.le_add_right _ _

theorem behindStar_le (h : IsWritten d t n) : behindStar t ≤ (pointee t).start := by
  rcases h.gap with hnone | ⟨c, stop, hgap, hstop, -, -⟩
  · exact Nat.le_of_eq hnone
  · exact Nat.le_trans (hgap.2 ▸ Nat.le_add_right _ _) hstop

/-- Behind the star stands the name with its arguments, or else a character that starts no name. -/
theorem slice_behindStar_cases (h : IsWritten d t n) (hn : typeName? (pointee t) = some n) :
    behindStar t = (pointee t).start ∧
        d.slice (behindStar t) t.stop = d.text n ++ d.slice n.stop t.stop ∨
      behindStar t ≠ (pointee t).start ∧ ∃ c rest,
        d.slice (behindStar t) t.stop = String.singleton c ++ rest ∧
          Text.isWordChar c = false ∧ c ≠ '*' := by
  obtain ⟨hstart, hstop, -⟩ := name_within h hn
  have hle : n.start ≤ n.stop := name_start_le_stop h
  by_cases hnone : behindStar t = (pointee t).start
  · obtain ⟨c, rest, hname, -⟩ := h.name
    refine .inl ⟨hnone, ?_⟩
    rw [hnone, ← hstart, Document.slice_eq_append hname hstop h.stop_le, Document.text,
      Document.slice_eq hname]
  · obtain ⟨c, stop, hgap, hbefore, hword, hstar⟩ := h.gap.resolve_left hnone
    exact .inr ⟨hnone, c, _, Document.slice_eq_append hgap (by omega) h.stop_le, hword, hstar⟩

/-- Stars are trimmed as if the text started behind the first. -/
theorem trimStartChar_text (h : IsWritten d t n) (hn : typeName? (pointee t) = some n) :
    Text.trimStartChar '*' (d.text t) = Text.trimStartChar '*' (d.slice (behindStar t) t.stop) := by
  have hbehind : behindStar t ≤ t.stop := by
    obtain ⟨hstart, hstop, -⟩ := name_within h hn
    have hname : n.start ≤ n.stop := name_start_le_stop h
    have hgap : behindStar t ≤ (pointee t).start := behindStar_le h
    omega
  unfold behindStar at hbehind ⊢
  split
  · rename_i hstar
    rw [if_pos hstar] at hbehind
    rw [Document.text, Document.slice_eq_append (h.star hstar).1 hbehind h.stop_le,
      Text.trimStartChar_star]
  · rfl

/-- What is left of the text of a type without its stars is its name exactly if the type is plain.
-/
theorem trimStartChar_text_eq_iff (h : IsWritten d t n) (hn : typeName? (pointee t) = some n) :
    Text.trimStartChar '*' (d.text t) = d.text n ↔ IsPlain t := by
  obtain ⟨-, hstop, hends⟩ := name_within h hn
  obtain ⟨w, more, hname, hw⟩ := h.name
  have htext : d.text n = String.ofList (w :: more) := Document.slice_eq hname
  rw [trimStartChar_text h hn]
  rcases slice_behindStar_cases h hn with ⟨hnone, hslice⟩ | ⟨hgap, c, rest, hslice, hc, hstar⟩
  -- Without a gap the arguments stand behind the name, and are missing if the type ends with it.
  · have hne : w ≠ '*' := by
      rintro rfl
      exact absurd hw (by decide)
    have hhead : '*' ∉ (d.slice (behindStar t) t.stop).toList.head? := by
      rw [hslice, htext, String.toList_append, String.toList_ofList]
      simpa using hne
    have hempty : d.slice n.stop t.stop = "" ↔ n.stop = t.stop := by
      refine ⟨fun hempty => ?_, fun heq => by rw [heq, Document.slice_self]⟩
      by_contra hlt
      exact Document.slice_ne_empty (by omega) h.stop_le hempty
    rw [Text.trimStartChar_eq_self hhead, hslice, String.append_eq_left_iff, hempty, hends]
    exact (and_iff_left hnone).symm
  -- With one the text does not even start as a name does.
  · have hhead : '*' ∉ (d.slice (behindStar t) t.stop).toList.head? := by
      rw [hslice, String.toList_append, String.toList_singleton]
      simpa using hstar
    have hne : d.slice (behindStar t) t.stop ≠ d.text n := by
      intro heq
      rw [hslice, htext, ← String.toList_inj, String.toList_append, String.toList_singleton,
        String.toList_ofList] at heq
      obtain ⟨rfl, -⟩ := List.cons.inj heq
      rw [hw] at hc
      cases hc
    rw [Text.trimStartChar_eq_self hhead]
    exact iff_of_false hne fun hplain => hgap hplain.2

/-! ## Symbols of a file -/

/-- The kinds of the symbols of types. -/
def typeSymbolKinds : List SymbolKind :=
  [.struct, .interface, .typeAlias]

/-- Does a symbol span a place, with a listed kind and no value?  That of a type has its bare name.
-/
def IsDeclared (d : Document) (y : Symbol) : Prop :=
  ∃ p name kind details, y = d.symbol p name kind details ∧ kind.isOther = false ∧
    details.defaultValue = none ∧ (kind ∈ typeSymbolKinds → details.qualifiedName = none)

theorem isDeclared_memberOf {owner signature name : String} {p : Place} {kind : SymbolKind}
    (hlisted : kind.isOther = false) (hkind : kind ∉ typeSymbolKinds) :
    IsDeclared d (memberOf d owner p name kind signature) :=
  ⟨p, name, kind, _, rfl, hlisted, rfl, fun htype => absurd htype hkind⟩

theorem fields_declared (owner : String) (p : Place) : ∀ y ∈ fields d owner p, IsDeclared d y := by
  intro y hy
  obtain ⟨f, -, hy⟩ := List.mem_flatMap.1 hy
  obtain ⟨name, -, rfl⟩ := List.mem_map.1 hy
  exact isDeclared_memberOf rfl (by decide)

theorem interfaceMethods_declared (owner : String) (p : Place) :
    ∀ y ∈ interfaceMethods d owner p, IsDeclared d y := by
  intro y hy
  obtain ⟨c, -, hy⟩ := List.mem_filterMap.1 hy
  obtain ⟨name, -, rfl⟩ := Option.map_eq_some_iff.1 hy
  exact isDeclared_memberOf rfl (by decide)

theorem typeSymbols_declared (declaration p : Place) :
    ∀ y ∈ typeSymbols d declaration p, IsDeclared d y := by
  intro y hy
  simp only [typeSymbols] at hy
  split at hy
  · rename_i name type _ _
    split at hy
    · rcases List.mem_append.1 hy with hy | hy
      · exact fields_declared name type y hy
      · obtain rfl := List.mem_singleton.1 hy
        exact ⟨_, _, _, _, rfl, rfl, rfl, fun _ => rfl⟩
    · rcases List.mem_append.1 hy with hy | hy
      · exact interfaceMethods_declared name type y hy
      · obtain rfl := List.mem_singleton.1 hy
        exact ⟨_, _, _, _, rfl, rfl, rfl, fun _ => rfl⟩
    · obtain rfl := List.mem_singleton.1 hy
      exact ⟨_, _, _, _, rfl, rfl, rfl, fun _ => rfl⟩
  · cases hy

theorem specSymbols_declared (p : Place) (specKind keyword : String) {kind : SymbolKind}
    (hlisted : kind.isOther = false) :
    ∀ y ∈ specSymbols d p specKind keyword kind, IsDeclared d y := by
  intro y hy
  obtain ⟨spec, -, hy⟩ := List.mem_flatMap.1 hy
  obtain ⟨name, -, rfl⟩ := List.mem_map.1 hy
  exact ⟨_, _, _, _, rfl, hlisted, rfl, fun _ => rfl⟩

theorem childSymbols_declared (c : Place) : ∀ y ∈ childSymbols d c, IsDeclared d y := by
  intro y hy
  unfold childSymbols at hy
  split at hy
  · obtain ⟨name, -, hy⟩ := Option.bind_eq_some_iff.1 (Option.mem_toList.1 hy)
    cases hy
    exact ⟨_, _, _, _, rfl, rfl, rfl, fun _ => rfl⟩
  · obtain ⟨name, -, hy⟩ := Option.bind_eq_some_iff.1 (Option.mem_toList.1 hy)
    cases hy
    have hkind : SymbolKind.method ∉ typeSymbolKinds := by decide
    exact ⟨_, _, _, _, rfl, rfl, rfl, fun htype => absurd htype hkind⟩
  · obtain ⟨q, -, hy⟩ := List.mem_flatMap.1 hy
    exact typeSymbols_declared c q y hy
  · obtain ⟨i, -, rfl⟩ := Option.map_eq_some_iff.1 (Option.mem_toList.1 hy)
    exact ⟨_, _, _, _, rfl, rfl, rfl, fun _ => rfl⟩
  · exact specSymbols_declared c _ _ rfl y hy
  · exact specSymbols_declared c _ _ rfl y hy
  · cases hy

/-- All that holds of the symbols of a file whatever declares them. -/
theorem symbols_declared (root : Place) : ∀ y ∈ symbols d root, IsDeclared d y :=
  List.forall_mem_flatMap.2 fun c _ => childSymbols_declared c

/-! ## Types and methods -/

theorem qualifiedName_eq {z : Symbol} (hz : z ∈ symbols d root) (hkind : z.kind ∈ typeSymbolKinds) :
    z.qualifiedName = z.name := by
  obtain ⟨p, name, kind, details, rfl, -, -, hbare⟩ := symbols_declared root z hz
  show details.qualifiedName.getD name = name
  rw [hbare hkind]
  rfl

/-- Does a file declare a type of a name? -/
def DeclaresType (d : Document) (root : Place) (name : String) : Prop :=
  ∃ c ∈ root.childrenOf "type_declaration", ∃ p ∈ c.children, p.isOneOf typeKinds = true ∧
    d.fieldText p "name" = some name ∧ (p.field? "type").isSome = true

instance (d : Document) (root : Place) (name : String) : Decidable (DeclaresType d root name) :=
  inferInstanceAs (Decidable (∃ c ∈ _, ∃ p ∈ _, _ ∧ _))

theorem exists_typeSymbol (declaration : Place) {p : Place} {name : String}
    (hname : d.fieldText p "name" = some name) (htype : (p.field? "type").isSome = true) :
    ∃ z ∈ typeSymbols d declaration p, z.kind ∈ typeSymbolKinds ∧ z.name = name := by
  have hstruct : SymbolKind.struct ∈ typeSymbolKinds := by decide
  have hinterface : SymbolKind.interface ∈ typeSymbolKinds := by decide
  have halias : SymbolKind.typeAlias ∈ typeSymbolKinds := by decide
  obtain ⟨type, htype⟩ := Option.isSome_iff_exists.1 htype
  simp only [typeSymbols, hname, htype]
  split
  · exact ⟨_, List.mem_append_right _ (List.mem_singleton_self _), hstruct, rfl⟩
  · exact ⟨_, List.mem_append_right _ (List.mem_singleton_self _), hinterface, rfl⟩
  · exact ⟨_, List.mem_singleton_self _, halias, rfl⟩

theorem mem_symbols_of_childrenOf {kind : String} {c : Place} {y : Symbol}
    (hc : c ∈ root.childrenOf kind) (hy : c.kind = kind → y ∈ childSymbols d c) :
    y ∈ symbols d root := by
  obtain ⟨hchild, hkind⟩ := List.mem_filter.1 hc
  exact List.mem_flatMap.2 ⟨c, hchild, hy (eq_of_beq hkind)⟩

theorem exists_symbol_of_declaresType {name : String} (h : DeclaresType d root name) :
    ∃ z ∈ symbols d root, z.kind ∈ typeSymbolKinds ∧ z.name = name := by
  obtain ⟨c, hc, p, hp, hkind, hname, htype⟩ := h
  obtain ⟨z, hz, hfound⟩ := exists_typeSymbol c hname htype
  refine ⟨z, mem_symbols_of_childrenOf hc fun hc => ?_, hfound⟩
  rw [childSymbols, hc]
  exact List.mem_flatMap.2 ⟨p, List.mem_filter.2 ⟨hp, hkind⟩, hz⟩

/-- A method whose receiver has a name or a generic type, perhaps behind a star, is found among the
symbols, and if the file declares a type of that name, so is the type.  The parent of the method is
the qualified name of the type exactly if the receiver has no arguments, and no gap behind the star.
-/
theorem receiver_linked_iff {name : String} (hm : m ∈ root.childrenOf "method_declaration")
    (hname : d.fieldText m "name" = some name) (hreceiver : receiver? m = some t)
    (hn : typeName? (pointee t) = some n) (hwritten : IsWritten d t n)
    (hdeclared : DeclaresType d root (d.text n)) :
    (∃ z ∈ symbols d root, z.kind ∈ typeSymbolKinds ∧ z.name = d.text n) ∧
      ∃ y ∈ symbols d root, method? d m = some y ∧ y.kind = .method ∧ y.name = name ∧
        ∀ z ∈ symbols d root, z.kind ∈ typeSymbolKinds → z.name = d.text n →
          (y.parentName = some z.qualifiedName ↔ IsPlain t) := by
  refine ⟨exists_symbol_of_declaresType hdeclared, ?_⟩
  have howner : receiverType d (m.field? "receiver") = some (Text.trimStartChar '*' (d.text t)) := by
    rw [receiverType_eq, hreceiver, Option.map_some]
  have hmethod : ∃ y, method? d m = some y ∧ y.kind = .method ∧ y.name = name ∧
      y.parentName = some (Text.trimStartChar '*' (d.text t)) := by
    rw [← howner]
    simp only [method?, hname]
    exact ⟨_, rfl, rfl, rfl, rfl⟩
  obtain ⟨y, hy, hkind, hnamed, hparent⟩ := hmethod
  have hmem : y ∈ symbols d root := mem_symbols_of_childrenOf hm fun hm => by
    rw [childSymbols, hm]
    exact Option.mem_toList.2 hy
  refine ⟨y, hmem, hy, hkind, hnamed, fun z hz htype hz_name => ?_⟩
  have hqualified : z.qualifiedName = d.text n := (qualifiedName_eq hz htype).trans hz_name
  rw [hparent, hqualified, Option.some_inj, trimStartChar_text_eq_iff hwritten hn]

/-- A method in a file of package `p`, with a receiver, a name and no parameters. -/
def methodNode (start named stop : Nat) (receiver : Node) : Node :=
  .mk "method_declaration" true [] start stop
    [.token "func" start (start + 4), receiver, .leaf "field_identifier" ["name"] named (stop - 5),
      .mk "parameter_list" true ["parameters"] (stop - 5) (stop - 3)
        [.token "(" (stop - 5) (stop - 4), .token ")" (stop - 4) (stop - 3)],
      .mk "block" true ["body"] (stop - 2) stop
        [.token "\x7b" (stop - 2) (stop - 1), .token "\x7d" (stop - 1) stop]]

/-- The receiver of a method, a name of one octet and a type. -/
def receiverNode (start stop : Nat) (type : Node) : Node :=
  .mk "parameter_list" true ["receiver"] start stop
    [.token "(" start (start + 1),
      .mk "parameter_declaration" true [] (start + 1) (stop - 1)
        [.leaf "identifier" ["name"] (start + 1) (start + 2), type],
      .token ")" (stop - 1) stop]

/-- A type of a file of package `p`, and a method. -/
def typeWithMethodTree (stop : Nat) (spec method : Node) : Node :=
  .mk "source_file" true [] 0 stop
    [.mk "package_clause" true [] 0 9
        [.token "package" 0 7, .leaf "package_identifier" [] 8 9],
      .mk "type_declaration" true [] 10 spec.stop [.token "type" 10 14, spec], method]

/-- A struct with a method on pointers to it. -/
def pointerReceiver : Document :=
  { path := "p.go"
    bytes := Text.Utf8.encode
      "package p\ntype T struct\x7b\x7d\nfunc (t *T) M() \x7b\x7d\n".toList
    limits := {} }

def pointerReceiverTree : Node :=
  typeWithMethodTree 45
    (.mk "type_spec" true [] 15 25
      [.leaf "type_identifier" ["name"] 15 16,
        .mk "struct_type" true ["type"] 17 25
          [.token "struct" 17 23,
            .mk "field_declaration_list" true [] 23 25
              [.token "\x7b" 23 24, .token "\x7d" 24 25]]])
    (methodNode 26 38 44 (receiverNode 31 37
      (.mk "pointer_type" true ["type"] 34 36
        [.token "*" 34 35, .leaf "type_identifier" [] 35 36])))

theorem pointerReceiver_linked :
    (∃ z ∈ symbols pointerReceiver (.root pointerReceiverTree),
      z.kind ∈ typeSymbolKinds ∧ z.name = "T") ∧
      ∃ y ∈ symbols pointerReceiver (.root pointerReceiverTree), y.kind = .method ∧ y.name = "M" ∧
        ∀ z ∈ symbols pointerReceiver (.root pointerReceiverTree),
          z.kind ∈ typeSymbolKinds → z.name = "T" → y.parentName = some z.qualifiedName := by
  have hfound : ∃ m ∈ (Place.root pointerReceiverTree).childrenOf "method_declaration",
      pointerReceiver.fieldText m "name" = some "M" ∧ ∃ t ∈ receiver? m,
        ∃ n ∈ typeName? (pointee t), pointerReceiver.text n = "T" ∧ IsPlain t ∧
          pointerReceiver.Holds n.start n.stop "T" ∧ (pointee t).kind ≠ "generic_type" ∧
            pointerReceiver.Holds t.start (t.start + 1) "*" ∧ (pointee t).stop = t.stop ∧
              t.stop ≤ pointerReceiver.bytes.length := by
    decide +kernel
  obtain ⟨m, hm, hname, t, ht, n, hn, htext, hplain, hheld, hbare, hstar, hstop, hle⟩ := hfound
  have hwritten : IsWritten pointerReceiver t n :=
    { name := ⟨'T', [], hheld, by decide⟩
      arguments := fun hkind => absurd hkind hbare
      gap := .inl hplain.2
      star := fun _ => ⟨hstar, hstop⟩
      stop_le := hle }
  have hdeclared : DeclaresType pointerReceiver (.root pointerReceiverTree) "T" := by
    decide +kernel
  obtain ⟨htypes, y, hy, -, hkind, hnamed, hlinked⟩ :=
    receiver_linked_iff hm hname ht hn hwritten (htext ▸ hdeclared)
  rw [htext] at htypes hlinked
  exact ⟨htypes, y, hy, hkind, hnamed, fun z hz htype hz_name => (hlinked z hz htype hz_name).2 hplain⟩

/-- A generic type with a method. -/
def genericReceiver : Document :=
  { path := "p.go"
    bytes := Text.Utf8.encode
      "package p\ntype List[T any] []T\nfunc (l List[T]) Gen() \x7b\x7d\n".toList
    limits := {} }

def genericReceiverTree : Node :=
  typeWithMethodTree 57
    (.mk "type_spec" true [] 15 30
      [.leaf "type_identifier" ["name"] 15 19,
        .mk "type_parameter_list" true ["type_parameters"] 19 26
          [.token "[" 19 20,
            .mk "type_parameter_declaration" true [] 20 25
              [.leaf "identifier" ["name"] 20 21,
                .mk "type_constraint" true ["type"] 22 25 [.leaf "type_identifier" [] 22 25]],
            .token "]" 25 26],
        .mk "slice_type" true ["type"] 27 30
          [.token "[" 27 28, .token "]" 28 29, .leaf "type_identifier" ["element"] 29 30]])
    (methodNode 31 48 56 (receiverNode 36 47
      (.mk "generic_type" true ["type"] 39 46
        [.leaf "type_identifier" ["type"] 39 43,
          .mk "type_arguments" true ["type_arguments"] 43 46
            [.token "[" 43 44, .mk "type_elem" true [] 44 45 [.leaf "type_identifier" [] 44 45],
              .token "]" 45 46]])))

/-- The parent of the method is the name with its arguments, which no type is found by. -/
theorem genericReceiver_not_linked :
    DeclaresType genericReceiver (.root genericReceiverTree) "List" ∧
      ∃ m ∈ (Place.root genericReceiverTree).childrenOf "method_declaration",
        ∃ t ∈ receiver? m, ∃ n ∈ typeName? (pointee t), genericReceiver.text n = "List" ∧
          ∃ y ∈ method? genericReceiver m, y.parentName = some "List[T]" ∧
            ∀ z ∈ symbols genericReceiver (.root genericReceiverTree),
              y.parentName ≠ some z.qualifiedName := by
  decide +kernel

end Declarations.Go

end SourceIndex
