import LessCss.Proofs.Nesting.Evaluated
import LessCss.Proofs.Nesting.Groups
import LessCss.Proofs.Nesting.Reading

/-!
# Nested rules end up where they belong

Here a stylesheet is read as it was written: each block with the rule sets, media rules and at-rules
around it, every heading and declaration being evaluated in its place (`Node.written`).  From what
is around a block follows where its declarations belong (`Written.placed`).

* The selectors are those of the rule sets around, every inner one joined to every outer one.  Only
  the rule sets count that are inside of the innermost at-rule which stands by itself; `@media`,
  `@supports`, `@document` and `@container` do not interrupt.
* The media rules and at-rules are those around, media rules with rule sets only between them being
  made one.

The main statement (`Ruleset.evaluate_places`) is that evaluation puts each declaration in that
place and in no other, if nothing is called or extended.
-/

namespace LessCss

open Evaluation

/-- What can be around a block: a rule set with its own selectors, or a media rule or at-rule. -/
inductive Enclosure
  | ruleset (own : List Selector)
  | condition (condition : Condition)

/-- The declarations and comments of a block, evaluated, with all that is around it, the outermost
first. -/
structure Written where
  around : List Enclosure
  own : List Node

/-! ## Places -/

namespace Enclosure

/-- The media rule or at-rule that an enclosure is. -/
def condition? : Enclosure → Option Condition
  | ruleset _ => none
  | condition c => some c

/-- The selectors inside of an enclosure, given those around it.  A rule set joins each of its own
to each of the outer ones, which come first. -/
def enter (outer : Option (List Selector)) : Enclosure → Option (List Selector)
  | ruleset own =>
    match outer with
    | none => some own
    | some parents => some (parents.flatMap fun p => own.map (Selector.join p))
  | condition (.media _) => outer
  | condition (.atRule name _) => if keepsSelectors name then outer else none

end Enclosure

namespace Written

/-- A block inside of an enclosure. -/
def under (outer : Enclosure) (w : Written) : Written := { w with around := outer :: w.around }

/-- Where a block stands under given selectors. -/
def placedUnder (outer : Option (List Selector)) (w : Written) : Group :=
  ⟨w.around.filterMap Enclosure.condition?, w.around.foldl Enclosure.enter outer, w.own⟩

/-- **Where a block of a stylesheet belongs**: under the selectors and conditions around it,
adjacent media rules being made one. -/
def placed (w : Written) : Group := (w.placedUnder none).settled

end Written

/-! ## Reading a stylesheet as it was written -/

namespace Node

/-- The declarations and comments of a block, evaluated in their place. -/
def writtenOwn (c : Context) : List Node → Except Error (List Node)
  | [] => .ok []
  | declaration name value important false offset :: rest => do
    let name ← fill .unbounded c name
    let value ← (forProperty c name).eval value
    return declaration name value.toNode important false offset :: (← writtenOwn c rest)
  | comment text isLine :: rest => do return comment text isLine :: (← writtenOwn c rest)
  | _ :: rest => writtenOwn c rest

mutual
/-- The blocks inside of a rule, with what is around them there.  Mixins do not count. -/
def written (c : Context) : Node → Except Error (List Written)
  | ruleset selectors rules false => do
    let own ← selectors.mapM (fillSelector .unbounded c)
    let inside := (c.underSelectors (Selector.joinAll c.selectors own)).inFrame (.ofRules rules)
    let items ← writtenOwn inside rules
    return (⟨[], items⟩ :: (← writtenAll inside rules)).map (Written.under (.ruleset own))
  | media features rules => do
    let features ← c.eval features
    let inside := c.inFrame (.ofRules rules)
    let items ← writtenOwn inside rules
    return (⟨[], items⟩ :: (← writtenAll inside rules)).map
      (Written.under (.condition (.media features.toNode)))
  | atRule name header (some rules) => do
    let header ← evalHeader .unbounded c header
    let inside := (insideAtRule c name).inFrame (.ofRules rules)
    let items ← writtenOwn inside rules
    return (⟨[], items⟩ :: (← writtenAll inside rules)).map
      (Written.under (.condition (.atRule name header)))
  | _ => .ok []
/-- The blocks inside of some rules. -/
def writtenAll (c : Context) : List Node → Except Error (List Written)
  | [] => .ok []
  | node :: nodes => do
    let head ← written c node
    return head ++ (← writtenAll c nodes)
end

end Node

/-- The blocks of a whole stylesheet. -/
def Ruleset.written (c : Context) (r : Ruleset) : Except Error (List Written) := do
  let inside := c.inFrame (.ofRules r.rules)
  let items ← Node.writtenOwn inside r.rules
  return ⟨[], items⟩ :: (← Node.writtenAll inside r.rules)

/-! ## Selectors around -/

/-- The selectors around, if there are any. -/
def Context.selectors? (c : Context) : Option (List Selector) :=
  if c.selectors.isEmpty then none else some c.selectors

namespace Evaluation

variable {c : Context}

/-- Under joined selectors the innermost selectors are the joined ones. -/
theorem selectors?_underSelectors {own : List Selector} (hown : own ≠ []) :
    (c.underSelectors (Selector.joinAll c.selectors own)).selectors? =
      some (Selector.joinAll c.selectors own) := by
  have hne : (Selector.joinAll c.selectors own).isEmpty = false := by
    simpa using Selector.joinAll_ne_nil hown
  unfold Context.selectors? Context.underSelectors
  simp [hne]

/-- Joining selectors to those around is what a rule set does in the reading. -/
theorem enter_ruleset (own : List Selector) :
    Enclosure.enter c.selectors? (.ruleset own) = some (Selector.joinAll c.selectors own) := by
  unfold Context.selectors? Selector.joinAll
  split <;> rfl

/-- An at-rule leaves the selectors around or hides them, as entering it says. -/
theorem selectors?_insideAtRule (name : String) (header : Option Node) :
    (insideAtRule c name).selectors? = Enclosure.enter c.selectors?
      (.condition (.atRule name header)) := by
  unfold insideAtRule Enclosure.enter
  dsimp only
  split <;> rfl

/-- Declarations and comments have no groups, so that leaving them out changes none. -/
theorem groupsAll_others (rules : List Node) :
    Node.groupsAll (rules.filter (!Node.isOwn ·)) = Node.groupsAll rules := by
  induction rules with
  | nil => rfl
  | cons node nodes ih =>
    cases hown : node.isOwn with
    | true =>
      rw [List.filter_cons_of_neg (by simp [hown]), ih, Node.groupsAll,
        Node.groups_of_isOwn hown]; rfl
    | false => rw [List.filter_cons_of_pos (by simp [hown]), Node.groupsAll, Node.groupsAll, ih]

/-- Wrapping the loose declarations of a block puts them under the selectors around. -/
theorem blockGroups_wrap (c : Context) (rules : List Node) :
    Group.Same (Node.blockGroups none (wrap c.selectors rules))
      (Node.blockGroups c.selectors? rules) := by
  have hothers : (rules.filter (!Node.isOwn ·)).filter Node.isOwn = [] := by
    refine List.filter_eq_nil_iff.mpr fun n hn => ?_
    simpa using (List.mem_filter.mp hn).2
  unfold wrap Context.selectors?
  split
  · exact .refl _
  · dsimp only
    split
    · next hempty =>
      rw [Node.blockGroups, Node.blockGroups, hothers, groupsAll_others, List.isEmpty_iff.mp hempty]
      exact (Group.Same.skip rfl _).trans (Group.Same.skip rfl _).symm
    · have hself : (rules.filter Node.isOwn).filter Node.isOwn = rules.filter Node.isOwn := by
        rw [List.filter_filter]
        simp only [Bool.and_self]
      have hnone : Node.groupsAll (rules.filter Node.isOwn) = [] :=
        Node.groupsAll_of_isOwn fun n hn => (List.mem_filter.mp hn).2
      rw [Node.blockGroups, Node.blockGroups, Node.groupsAll, Node.groups, groupsAll_others,
        hself, hnone]
      exact Group.Same.skip hothers _

/-- The declarations of an at-rule that does not stand by itself are put under the selectors
around. -/
theorem blockGroups_wrapAtRule (c : Context) (name : String) (header : Option Node)
    (rules : List Node) :
    Group.Same (Node.blockGroups none (wrapAtRule c name rules))
      (Node.blockGroups (Enclosure.enter c.selectors? (.condition (.atRule name header)))
        rules) := by
  unfold wrapAtRule Enclosure.enter
  dsimp only
  split
  · exact blockGroups_wrap c rules
  · exact .refl _

end Evaluation

/-! ## Where evaluation puts things -/

namespace Written

/-- The places of the blocks inside of an enclosure, given those of the blocks in it. -/
theorem placedUnder_block (outer : Option (List Selector)) (items : List Node) (ws : List Written) :
    (⟨[], items⟩ :: ws).map (placedUnder outer) = ⟨[], outer, items⟩ ::
    ws.map (placedUnder outer) := rfl

end Written

namespace Node

/-- A rule other than a declaration or comment is not evaluated to one. -/
theorem filter_isOwn_eval {c : Context} {n : Node} {y : Yield} (h : n.Simple)
    (hown : n.isOwn = false) (hy : eval .unbounded c n = .ok y) : y.toList.filter isOwn = [] := by
  cases n with
  | ruleset selectors rules root =>
    obtain ⟨r, -, hy⟩ := exists_of_bind_eq_ok hy
    cases hy
    rfl
  | media features rules =>
    obtain ⟨f, -, hy⟩ := exists_of_bind_eq_ok hy
    obtain ⟨results, -, hy⟩ := exists_of_bind_eq_ok hy
    cases hy
    rfl
  | atRule name header rules =>
    cases rules with
    | none =>
      obtain ⟨header, -, hy⟩ := exists_of_bind_eq_ok hy
      cases hy
      rfl
    | some rules =>
      obtain ⟨header, -, hy⟩ := exists_of_bind_eq_ok hy
      obtain ⟨results, -, hy⟩ := exists_of_bind_eq_ok hy
      cases hy
      rfl
  | importRule path features options =>
    obtain ⟨path, -, hy⟩ := exists_of_bind_eq_ok hy
    obtain ⟨features, -, hy⟩ := exists_of_bind_eq_ok hy
    cases hy
    rfl
  | mixin =>
    cases hy
    rfl
  | mixinCall => cases h.callFree
  | declaration | comment => cases hown
  | dimension | expression | list | paren | keyword | quoted | url | reference | operation
  | negative
  | call | selector | argument => exact h.isRule.elim

/-- What is no declaration or comment is not written in the block itself. -/
theorem writtenOwn_of_not_isOwn (c : Context) {n : Node} (hown : n.isOwn = false)
    (rest : List Node) :
    writtenOwn c (n :: rest) = writtenOwn c rest := by
  cases n with
  | declaration | comment => cases hown
  | _ => rfl

/-- The declarations and comments of an evaluated block are those that were written in it. -/
theorem writtenOwn_eq {c : Context} {rules results : List Node} (h : ∀ n ∈ rules, n.Simple)
    (hresults : evalSplice .unbounded c rules = .ok results) :
    writtenOwn c rules = .ok (results.filter isOwn) := by
  induction rules generalizing results with
  | nil =>
    cases hresults
    rfl
  | cons node nodes ih =>
    obtain ⟨hnode, hnodes⟩ := List.forall_mem_cons.mp h
    obtain ⟨y, hy, hresults⟩ := exists_of_bind_eq_ok hresults
    obtain ⟨rest, hrest, hresults⟩ := exists_of_bind_eq_ok hresults
    cases hresults
    have ih := ih hnodes hrest
    rw [List.filter_append]
    cases hown : node.isOwn with
    | false =>
      rw [writtenOwn_of_not_isOwn c hown, ih, filter_isOwn_eval hnode hown hy]
      rfl
    | true =>
      cases node with
      | comment text isLine =>
        cases hy
        rw [writtenOwn, ih]
        rfl
      | declaration name value important isVariable offset =>
        cases isVariable with
        | true =>
          cases hy
          exact ih
        | false =>
          obtain ⟨filled, hfilled, hy⟩ := exists_of_bind_eq_ok hy
          obtain ⟨v, hv, hy⟩ := exists_of_bind_eq_ok hy
          cases hy
          have hvalue : (forProperty c filled).eval value = .ok v := by
            rw [Context.eval_eq]
            exact eq_ok_of_mapError hv
          rw [writtenOwn, hfilled]
          dsimp only [bind, Except.bind]
          rw [hvalue, ih]
          rfl
      | _ => cases hown

/-- The groups of a block under a condition, given those of its rules. -/
theorem same_condition {outer : Option (List Selector)} {condition : Condition}
    {wrapped results : List Node} {ws : List Written}
    (hwrap : Group.Same (blockGroups none wrapped)
      (blockGroups (Enclosure.enter outer (.condition condition)) results))
    (hws : Group.Same (groupsAll results)
      (ws.map (Written.placedUnder (Enclosure.enter outer (.condition condition))))) :
    Group.Same ((blockGroups none wrapped).map (Group.under condition))
      (((⟨[], results.filter isOwn⟩ :: ws).map (Written.under (.condition condition))).map
        (Written.placedUnder outer)) := by
  have hblock := (hwrap.trans (.cons _ hws)).map (f := Group.under condition) fun _ => rfl
  rw [List.map_map]
  rw [← Written.placedUnder_block, List.map_map] at hblock
  exact hblock

mutual
/-- Where the blocks inside of a rule are put by evaluation. -/
theorem written_of_eval : ∀ (c : Context) (n : Node), n.Simple → ∀ y, eval .unbounded c n = .ok y →
    ∃ ws, written c n = .ok ws ∧
      Group.Same (groupsAll y.toList) (ws.map (Written.placedUnder c.selectors?))
  | c, ruleset selectors rules false, h => by
    intro y hy
    obtain ⟨-, hne, hextends, hrules⟩ := simple_ruleset.mp h
    obtain ⟨own, results, hown, hresults, rfl⟩ := exists_of_eval_ruleset hy
    obtain ⟨ws, hws, hsame⟩ := writtenAll_of_eval _ rules hrules results hresults
    have hinside := selectors?_underSelectors (c := c) (filled_selectors hown hne hextends).1
    refine ⟨(⟨[], results.filter isOwn⟩ :: ws).map (Written.under (.ruleset own)), ?_, ?_⟩
    · rw [written, hown]
      dsimp only [bind, Except.bind]
      rw [writtenOwn_eq hrules hresults, hws]
      rfl
    · rw [Yield.toList, groupsAll, groupsAll, List.append_nil, groups, List.map_map]
      have hplaced : Written.placedUnder c.selectors? ∘ Written.under (.ruleset own) =
          Written.placedUnder (some (Selector.joinAll c.selectors own)) := by
        funext w
        rw [← enter_ruleset]
        rfl
      rw [hplaced]
      refine .cons _ ?_
      rw [← hinside]
      exact hsame
  | _, ruleset _ _ true, h => by
    cases (simple_ruleset.mp h).1
  | c, media features rules, h => by
    intro y hy
    obtain ⟨-, hrules⟩ := simple_media.mp h
    obtain ⟨f, hf, hy⟩ := exists_of_bind_eq_ok hy
    obtain ⟨results, hresults, hy⟩ := exists_of_bind_eq_ok hy
    cases hy
    obtain ⟨ws, hws, hsame⟩ := writtenAll_of_eval _ rules hrules results hresults
    refine ⟨(⟨[], results.filter isOwn⟩ :: ws).map (Written.under (.condition (.media f.toNode))),
      ?_, ?_⟩
    · rw [written, Context.eval_eq, hf]
      dsimp only [bind, Except.bind]
      rw [writtenOwn_eq hrules hresults, hws]
      rfl
    · rw [Yield.toList, groupsAll, groupsAll, List.append_nil]
      exact same_condition (blockGroups_wrap c results) hsame
  | c, atRule name header (some rules), h => by
    intro y hy
    obtain ⟨-, hrules⟩ := simple_atRule.mp h
    obtain ⟨header', hheader, hy⟩ := exists_of_bind_eq_ok hy
    obtain ⟨results, hresults, hy⟩ := exists_of_bind_eq_ok hy
    cases hy
    obtain ⟨ws, hws, hsame⟩ := writtenAll_of_eval _ rules hrules results hresults
    refine ⟨(⟨[], results.filter isOwn⟩ :: ws).map
      (Written.under (.condition (.atRule name header'))), ?_, ?_⟩
    · rw [written, hheader]
      dsimp only [bind, Except.bind]
      rw [writtenOwn_eq hrules hresults, hws]
      rfl
    · rw [Yield.toList, groupsAll, groupsAll, List.append_nil]
      refine same_condition (blockGroups_wrapAtRule c name header' results) ?_
      rw [← selectors?_insideAtRule]
      exact hsame
  | _, atRule _ _ none, _ => by
    intro y hy
    obtain ⟨header, -, hy⟩ := exists_of_bind_eq_ok hy
    cases hy
    exact ⟨[], rfl, .refl []⟩
  | _, declaration _ _ _ false _, _ => by
    intro y hy
    obtain ⟨name, -, hy⟩ := exists_of_bind_eq_ok hy
    obtain ⟨value, -, hy⟩ := exists_of_bind_eq_ok hy
    cases hy
    exact ⟨[], rfl, .refl []⟩
  | _, importRule .., _ => by
    intro y hy
    obtain ⟨path, -, hy⟩ := exists_of_bind_eq_ok hy
    obtain ⟨features, -, hy⟩ := exists_of_bind_eq_ok hy
    cases hy
    exact ⟨[], rfl, .refl []⟩
  | _, comment .., _ | _, declaration _ _ _ true _, _ | _, mixin .., _ => by
    intro y hy
    cases hy
    exact ⟨[], rfl, .refl []⟩
  | _, mixinCall .., h => nomatch h.callFree
  | _, dimension _, h | _, expression .., h | _, list _, h | _, paren _, h
  | _, keyword _, h | _, quoted .., h | _, url _, h | _, reference .., h
  | _, operation .., h | _, negative _, h | _, call .., h | _, selector _, h
  | _, argument .., h => h.isRule.elim
/-- The groups of evaluated rules are those that their blocks are placed in, by induction on the
nodes. -/
theorem writtenAll_of_eval : ∀ (c : Context) (nodes : List Node), (∀ n ∈ nodes, n.Simple) →
    ∀ results, evalSplice .unbounded c nodes = .ok results →
      ∃ ws, writtenAll c nodes = .ok ws ∧
        Group.Same (groupsAll results) (ws.map (Written.placedUnder c.selectors?))
  | _, [], _ => by
    intro results hresults
    cases hresults
    exact ⟨[], rfl, .refl []⟩
  | c, node :: nodes, h => by
    intro results hresults
    obtain ⟨hnode, hnodes⟩ := List.forall_mem_cons.mp h
    obtain ⟨y, hy, hresults⟩ := exists_of_bind_eq_ok hresults
    obtain ⟨rest, hrest, hresults⟩ := exists_of_bind_eq_ok hresults
    cases hresults
    obtain ⟨head, hhead, hsame⟩ := written_of_eval c node hnode y hy
    obtain ⟨tail, htail, hsames⟩ := writtenAll_of_eval c nodes hnodes rest hrest
    refine ⟨head ++ tail, ?_, ?_⟩
    · rw [writtenAll, hhead]
      dsimp only [bind, Except.bind]
      rw [htail]
      rfl
    · rw [groupsAll_append, List.map_append]
      exact hsame.append hsames
end

end Node

namespace Ruleset

/-- A whole stylesheet in which nothing is called or extended is evaluated rule by rule, and then
taken apart. -/
theorem evaluate_ofRules {o : Options} {rules : List Node} {result : Ruleset}
    (h : ∀ n ∈ rules, n.Simple) (hresult : (ofRules rules).evaluate (.ofOptions o) = .ok result) :
    ∃ results, evalSplice .unbounded ((Context.ofOptions o).inFrame (.ofRules rules)) rules =
      .ok results ∧
      (∀ n ∈ results, n.Simple) ∧ result = ofRules (Node.unnestAll results) := by
  obtain ⟨evaluated, heval, hresult⟩ := exists_of_bind_eq_ok hresult
  rw [eval_eq] at heval
  obtain ⟨results, hresults, heval⟩ := exists_of_bind_eq_ok heval
  cases heval
  cases hresult
  have hin := (SimpleIn.ofOptions o).inFrame h
  have hsimple := evalSplice_simple Deeper.unbounded_valued _ rules hin h results hresults
  obtain ⟨hrules, -, hnone⟩ := Node.rules_of_simple hsimple
  refine ⟨results, hresults, hsimple, ?_⟩
  rw [extend_eq_self (r := ofRules results) hnone, flatten_ofRules (Node.areRules_iff.mp hrules)]

/-- **Nested rules end up where they belong.**  Let a stylesheet be read from a text, with no mixin
called and nothing extended in it, and let its evaluation succeed.  Then every block of it can be
read as it was written, and what stands where in the result is what was written, each block in its
place: no declaration is lost or doubled, it has its evaluated name and value, it stands under the
selectors and conditions that follow from what is around it in the source, and the declarations of
one block keep their order.  All of the result is made of rules and values, so that there are no
declarations elsewhere, and no rule set is inside of another. -/
theorem evaluate_places (source : String) (o : Options) (r result : Ruleset)
    (hread : Ruleset.ofText source = .ok r) (hcalls : Node.callFreeAll r.rules = true)
    (hextends : Extension.ofNodes r.rules = []) (hresult : r.evaluate (.ofOptions o) = .ok result) :
    ∃ ws, r.written (.ofOptions o) = .ok ws ∧
      Group.Same (Node.blockGroups none result.rules) (ws.map Written.placed) ∧
      Node.AreRules result.rules ∧ Node.FlatAll result.rules := by
  obtain ⟨rules, rfl, hrules⟩ := areRules_ofText hread
  have hsimple : ∀ n ∈ rules, n.Simple := Node.simple_of_rules hrules hcalls hextends
  obtain ⟨results, hresults, hresultsSimple, rfl⟩ := evaluate_ofRules hsimple hresult
  obtain ⟨ws, hws, hsame⟩ := Node.writtenAll_of_eval _ rules hsimple results hresults
  refine ⟨⟨[], results.filter Node.isOwn⟩ :: ws, ?_, ?_, ?_, ?_⟩
  · unfold Ruleset.written
    dsimp only [ofRules]
    rw [Node.writtenOwn_eq hsimple hresults, hws]
    rfl
  · have hplaced : Group.Same (Node.blockGroups none results)
        ((⟨[], results.filter Node.isOwn⟩ :: ws).map (Written.placedUnder none)) := .cons _ hsame
    have hsettled := hplaced.map (f := Group.settled) fun _ => rfl
    rw [List.map_map] at hsettled
    exact (Node.blockGroups_unnestAll results).trans hsettled
  · refine Node.areRules_iff.mpr (Node.unnestAll_areRules results ?_)
    exact (Node.rules_of_simple hresultsSimple).1
  · exact Node.flatAll_iff.mpr (Node.flat_unnestAll results)

/-- Media rules in one another, selectors with and without ampersand, and an at-rule by itself. -/
theorem evaluate_places_nested : ∃ r result, Ruleset.ofText
    ".a\x7bp:q;@media x\x7bb:c;.d,&-e\x7bf:g;@media y\x7bh:i\x7d\x7d@page\x7bj:k\x7d\x7d\x7d" =
      .ok r ∧
    Node.callFreeAll r.rules = true ∧ Extension.ofNodes r.rules = [] ∧
    r.evaluate (.ofOptions {}) = .ok result ∧
    ((Node.blockGroups none result.rules).filter Group.isKept).length = 5 ∧
    ∃ ws, r.written (.ofOptions {}) = .ok ws ∧
      Group.Same (Node.blockGroups none result.rules) (ws.map Written.placed) ∧
      Node.AreRules result.rules ∧ Node.FlatAll result.rules := by
  have hcheck : (match Ruleset.ofText
      ".a\x7bp:q;@media x\x7bb:c;.d,&-e\x7bf:g;@media y\x7bh:i\x7d\x7d@page\x7bj:k\x7d\x7d\x7d" with
    | .ok r => Node.callFreeAll r.rules && (Extension.ofNodes r.rules).isEmpty &&
      (match r.evaluate (.ofOptions {}) with
        | .ok result => ((Node.blockGroups none result.rules).filter Group.isKept).length == 5
        | .error _ => false)
    | .error _ => false) = true := by decide +kernel
  split at hcheck
  · next r hread =>
    obtain ⟨hsimple, hresult⟩ := Bool.and_eq_true_iff.mp hcheck
    obtain ⟨hcalls, hnone⟩ := Bool.and_eq_true_iff.mp hsimple
    have hextends := List.isEmpty_iff.mp hnone
    split at hresult
    · next result hevaluate =>
      exact ⟨r, result, hread, hcalls, hextends, hevaluate, beq_iff_eq.mp hresult,
        evaluate_places _ {} r result hread hcalls hextends hevaluate⟩
    · cases hresult
  · cases hcheck

end Ruleset

end LessCss
