import SourceIndex.Proofs.Scopes.C
import SourceIndex.Proofs.Uses.Account

/-!
# Calls in C and C++

A walk over a file of C or C++ looks at every place of it but for some that stand in includes, in
calls and in the creation of objects: behind a call or a creation it goes on in the arguments alone.
So it reports all calls, each once, exactly where none stands in another one, or in a creation,
elsewhere than in the arguments.
-/

namespace SourceIndex.Uses.C.Calls

open SourceIndex.Idiom.C

variable (d : Document) {tree : Node} {s : Scope} {p : Place}

/-- Is a place a call of something? -/
def isCall (p : Place) : Bool :=
  p.kind == "call_expression" && (p.field? "function").isSome

/-- How the walk for uses looks at a child of a place at which it looks as a whole. -/
def lookIn (p c : Place) : Look :=
  match p.kind with
  | "preproc_include" => .never
  | "call_expression" =>
      if (p.field? "function").isNone then .never
      else if p.isField "arguments" c then .inside else .never
  | "new_expression" => if p.isField "arguments" c then .inside else .never
  | _ => .whole

/-- What the walk for uses looks at, and the calls and creations that it reports. -/
def sight : Sight Reference where
  whole := lookIn
  report p :=
    match p.kind with
    | "call_expression" => (d.callReference p).toList
    | "new_expression" =>
        ((d.fieldText p "type").map fun t => d.reference .call (typeHead t) p none).toList
    | _ => []

/-- How the walk for calls and creations is accounted for. -/
abbrev ledger (tree : Node) : Ledger Scope Reference Reference :=
  (sight d).ledger [.call] tree .children

section

variable {d}

theorem balances_callSteps (hp : (sight d).IsMet tree s p) (hkind : p.kind = "call_expression") :
    (ledger d tree).Balances (callSteps d s p) ((sight d).reports p) := by
  have hlook : ∀ c, (sight d).whole p c = if (p.field? "function").isNone then .never
      else if p.isField "arguments" c then .inside else .never := by
    intro c
    simp only [sight, lookIn, hkind]
  have hreport : (sight d).report p = (d.callReference p).toList := by
    simp only [sight, hkind]
  exact Sight.balances_textCall hp rfl hlook hreport rfl rfl

theorem balances_creationSteps (hp : (sight d).IsMet tree s p) (hkind : p.kind = "new_expression") :
    (ledger d tree).Balances (creationSteps d s p) ((sight d).reports p) := by
  have hlook : ∀ c, (sight d).whole p c = if p.isField "arguments" c then .inside else .never := by
    intro c
    simp only [sight, lookIn, hkind]
  have hreport : (sight d).report p = Reference.ofKinds [.call]
      ((d.fieldText p "type").map fun t => d.reference .call (typeHead t) p s.name).toList := by
    rw [Reference.ofKinds_map (by intro t; rfl)]
    simp only [sight, hkind, Reference.unscoped_reference]
  exact Sight.balances_field hp hlook hreport rfl rfl

theorem include?_notCall {scope : Option String} : ∀ r ∈ (include? d scope p).toList,
    [ReferenceKind.call].contains r.kind = false :=
  forall_mem_toList (forall_mem_map fun _ => rfl)

/-- An include accounts for nothing, as nothing is in sight in it. -/
theorem balances_include (hp : (sight d).IsMet tree s p) (hkind : p.kind = "preproc_include") :
    (ledger d tree).Balances (Step.emit? (include? d s.name p)) ((sight d).reports p) := by
  refine Sight.balances_closed hp (fun c => ?_) ?_
  · simp only [sight, lookIn, hkind]
  · rw [Reference.ofKinds_eq_nil include?_notCall]
    simp only [sight, hkind]
    rfl

/-- A place at which the walk looks as a whole, and which is neither a call nor a creation nor an
include, accounts for what is in sight in it. -/
theorem balances_through (hp : (sight d).IsMet tree s p) (hkind : p.kind ∉ closedKinds)
    {s' : Scope} (hdepth : s'.depth = s.depth + 1) :
    (ledger d tree).Balances [.visit s' p] ((sight d).reports p) := by
  simp only [closedKinds, List.mem_cons, List.not_mem_nil, or_false, not_or] at hkind
  obtain ⟨hinclude, hcall, hcreation⟩ := hkind
  have hreport : (sight d).report p = [] := by
    simp only [sight]
  have hwhole : ∀ c ∈ p.children, lookIn p c = .whole := by
    intro c _
    rw [lookIn]
    split
    · exact absurd ‹_› hinclude
    · exact absurd ‹_› hcall
    · exact absurd ‹_› hcreation
    · rfl
  exact Sight.balances_through hp hreport hwhole rfl hdepth

theorem bases_notCall {owner : String} : ∀ r ∈ bases d owner p,
    [ReferenceKind.call].contains r.kind = false := by
  unfold bases
  split
  · nofun
  · exact List.forall_mem_map.2 fun _ _ => rfl

theorem balances_childSteps (hp : (sight d).IsMet tree s p) :
    (ledger d tree).Balances (childSteps d s p) ((sight d).reports p) := by
  have hclass : p.kind ∉ closedKinds → (ledger d tree).Balances
      (Step.emitAll (((namedScope d s p).map fun owner => bases d owner p).getD []) ++
        [.visit (s.enter? (namedScope d s p)) p]) ((sight d).reports p) := by
    intro hkind
    refine (balances_through hp hkind rfl).prepend (Sight.balances_others ?_)
    exact forall_mem_getD_map fun _ => bases_notCall
  unfold childSteps
  split
  case h_1 hkind => exact balances_include hp hkind
  case h_2 hkind => exact balances_callSteps hp hkind
  case h_3 hkind => exact balances_creationSteps hp hkind
  case h_4 hkind | h_5 hkind => exact balances_through hp (by rw [hkind]; decide) rfl
  case h_6 hkind | h_7 hkind => exact hclass (by rw [hkind]; decide)
  case h_8 hinclude hcall hcreation _ _ _ _ =>
    refine balances_through hp ?_ rfl
    simp only [closedKinds, List.mem_cons, List.not_mem_nil, or_false, not_or]
    exact ⟨hinclude, hcall, hcreation⟩

/-- The walk reports the calls and creations in sight, each once. -/
theorem perm_references (hheight : tree.height ≤ d.limits.walkDepth.toNat) :
    (Reference.ofKinds [.call] (references d C.c (.root tree))).Perm
      ((sight d).reports (.root tree)) := by
  refine Sight.perm_walk (isScoped d).descends rfl fun s p hp => ?_
  exact Sight.balances_steps hheight hp fun q hq => balances_childSteps hq

end

end SourceIndex.Uses.C.Calls
