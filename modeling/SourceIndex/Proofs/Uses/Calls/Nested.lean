import SourceIndex.Backends
import SourceIndex.Proofs.Uses.Calls.C
import SourceIndex.Proofs.Uses.Calls.Python

/-!
# Calls in calls

In Python, C and C++ a call goes by the text of what it calls, and behind it a walk goes on in the
arguments alone.  So a call is reported wherever it is nested in arguments, and is lost in what
another call calls.
-/

namespace SourceIndex.Uses

/-- The languages in which a walk goes on behind a call in the arguments alone. -/
inductive ArgumentLanguage where
  | python | c | cpp
  deriving Repr, DecidableEq, Inhabited

namespace ArgumentLanguage

/-- The extractor of a language. -/
def extractor : ArgumentLanguage → Extractor
  | python => .python
  | c => .c
  | cpp => .cpp

/-- Is a place a call? -/
def isCall : ArgumentLanguage → Place → Bool
  | python => Python.Calls.isCall
  | c | cpp => C.Calls.isCall

/-- What the walk for uses looks at, and the calls that it reports. -/
def sight (d : Document) : ArgumentLanguage → Sight Reference
  | python => Python.Calls.sight d
  | c | cpp => C.Calls.sight d

/-- What the grammar promises of a tree. -/
def IsGrammatical (tree : Node) : ArgumentLanguage → Prop
  | python => Python.Calls.IsGrammatical tree
  | c | cpp => True

variable (language : ArgumentLanguage) (parse : Parser) {d : Document} {tree : Node}

/-- The calls of a tree. -/
def callsIn (tree : Node) : List Place :=
  (Place.root tree).subtree.filter language.isCall

/-- The walk reports the calls in sight, each once. -/
theorem perm_references (h : language.IsGrammatical tree)
    (hheight : tree.height ≤ d.limits.walkDepth.toNat) :
    (Reference.ofKinds [.call] (language.extractor.references parse d (some (.root tree)))).Perm
      ((language.sight d).reports (.root tree)) := by
  cases language with
  | python => exact Python.Calls.perm_references h hheight
  | c => exact C.Calls.perm_references hheight
  | cpp => exact C.Calls.perm_references hheight

variable {language} {p : Place}

theorem isSome_callReference (hcall : language.isCall p = true) :
    (d.callReference p).isSome = true := by
  rw [Document.callReference, Option.isSome_map]
  cases language <;>
    simp only [isCall, Python.Calls.isCall, C.Calls.isCall, Bool.and_eq_true] at hcall
  · exact hcall.1.1.2
  · exact hcall.2
  · exact hcall.2

/-- A call is reported as one if the walk looks at it as a whole, and is no name. -/
theorem report_of_isCall (hcall : language.isCall p = true) :
    (language.sight d).report p = (d.callReference p).toList ∧
      (language.sight d).named p = [] := by
  cases language <;>
    simp only [isCall, Python.Calls.isCall, C.Calls.isCall, Bool.and_eq_true, beq_iff_eq] at hcall
  · simp [sight, Python.Calls.sight, hcall.1.1.1]
  · simp [sight, C.Calls.sight, hcall.1]
  · simp [sight, C.Calls.sight, hcall.1]

variable (language)

/-- The calls of a file are reported, each once, next to what else is in sight, exactly if the walk
looks at each of them as a whole. -/
theorem references_nestedCalls_iff (h : language.IsGrammatical tree)
    (hheight : tree.height ≤ d.limits.walkDepth.toNat) :
    (Reference.ofKinds [.call] (language.extractor.references parse d (some (.root tree)))).Perm
        ((language.callsIn tree).filterMap d.callReference ++
          (language.sight d).rest language.isCall tree) ↔
      ∀ p ∈ language.callsIn tree, (language.sight d).look p = .whole := by
  rw [(language.perm_references parse h hheight).congr_left]
  exact Sight.perm_reports_iff (language.sight d) (fun _ => isSome_callReference)
    (fun _ hcall => (report_of_isCall hcall).1) fun _ hcall => (report_of_isCall hcall).2

end ArgumentLanguage

/-- A call of a method of what another call gives, which has a call as argument. -/
def callInCallee : Document :=
  { path := "a.py"
    bytes := Text.Utf8.encode "db.filter(build(x)).all()\n".toList
    limits := {} }

/-- The tree of `callInCallee`. -/
def callInCalleeTree : Node :=
  .mk "module" true [] 0 26
    [.mk "expression_statement" true [] 0 25
      [.mk "call" true [] 0 25
        [.mk "attribute" true ["function"] 0 23
            [.mk "call" true ["object"] 0 19
                [.mk "attribute" true ["function"] 0 9
                    [.leaf "identifier" ["object"] 0 2, .token "." 2 3,
                      .leaf "identifier" ["attribute"] 3 9],
                  .mk "argument_list" true ["arguments"] 9 19
                    [.token "(" 9 10,
                      .mk "call" true [] 10 18
                        [.leaf "identifier" ["function"] 10 15,
                          .mk "argument_list" true ["arguments"] 15 18
                            [.token "(" 15 16, .leaf "identifier" [] 16 17, .token ")" 17 18]],
                      .token ")" 18 19]],
              .token "." 19 20, .leaf "identifier" ["attribute"] 20 23],
          .mk "argument_list" true ["arguments"] 23 25 [.token "(" 23 24, .token ")" 24 25]]]]

theorem callInCallee_not_reported :
    ArgumentLanguage.python.IsGrammatical callInCalleeTree ∧
      callInCalleeTree.height ≤ callInCallee.limits.walkDepth.toNat ∧
      ¬ (Reference.ofKinds [.call] (ArgumentLanguage.python.extractor.references
          (fun _ _ => none) callInCallee (some (.root callInCalleeTree)))).Perm
        ((ArgumentLanguage.python.callsIn callInCalleeTree).filterMap callInCallee.callReference ++
          (ArgumentLanguage.python.sight callInCallee).rest ArgumentLanguage.python.isCall
            callInCalleeTree) := by
  refine ⟨?_, by decide +kernel, by decide +kernel⟩
  simp only [ArgumentLanguage.IsGrammatical, Python.Calls.IsGrammatical]
  decide +kernel

/-- A call with another one as argument. -/
def callInArgument : Document :=
  { path := "a.py"
    bytes := Text.Utf8.encode "run(build(x))\n".toList
    limits := {} }

/-- The tree of `callInArgument`. -/
def callInArgumentTree : Node :=
  .mk "module" true [] 0 14
    [.mk "expression_statement" true [] 0 13
      [.mk "call" true [] 0 13
        [.leaf "identifier" ["function"] 0 3,
          .mk "argument_list" true ["arguments"] 3 13
            [.token "(" 3 4,
              .mk "call" true [] 4 12
                [.leaf "identifier" ["function"] 4 9,
                  .mk "argument_list" true ["arguments"] 9 12
                    [.token "(" 9 10, .leaf "identifier" [] 10 11, .token ")" 11 12]],
              .token ")" 12 13]]]]

theorem callInArgument_reported :
    (Reference.ofKinds [.call] (ArgumentLanguage.python.extractor.references
        (fun _ _ => none) callInArgument (some (.root callInArgumentTree)))).Perm
      ((ArgumentLanguage.python.callsIn callInArgumentTree).filterMap
          callInArgument.callReference ++
        (ArgumentLanguage.python.sight callInArgument).rest ArgumentLanguage.python.isCall
          callInArgumentTree) := by
  have h : ArgumentLanguage.python.IsGrammatical callInArgumentTree := by
    simp only [ArgumentLanguage.IsGrammatical, Python.Calls.IsGrammatical]
    decide +kernel
  have hheight : callInArgumentTree.height ≤ callInArgument.limits.walkDepth.toNat := by
    decide +kernel
  exact (ArgumentLanguage.python.references_nestedCalls_iff _ h hheight).2 (by decide +kernel)

end SourceIndex.Uses
