import LessCss.Compile
import LessCss.Proofs.Evaluation.Plain
import LessCss.Proofs.Nesting.NormalForm
import LessCss.Proofs.Occurrence

/-!
# Nothing is left to evaluate

The result of evaluation is plain (`Deeper.within_plain`), and so it remains when extensions are
resolved and nested rules are taken apart: both only put together anew what is there.  Hence no
variable, mixin, call or argument of one, and no definition occurs anywhere in an evaluated
stylesheet (`Ruleset.evaluate_leaves_nothing`).
-/

namespace LessCss

namespace Node

/-- Whether a node is there only to be evaluated: a variable, a mixin, a call or argument of one, or
the definition of a variable. -/
def isLeftover : Node → Bool
  | reference .. | mixin .. | mixinCall .. | argument .. => true
  | declaration _ _ _ isVariable _ => isVariable
  | _ => false

theorem plainHeader_iff {header : Option Node} :
    PlainHeader header ↔ ∀ n ∈ header.toList, n.Plain := by
  cases header with
  | none => simp [PlainHeader]
  | some n => simp [PlainHeader]

theorem plainBlock_iff {rules : Option (List Node)} :
    PlainBlock rules ↔ ∀ n ∈ rules.getD [], n.Plain := by
  cases rules with
  | none => simp [PlainBlock]
  | some rules => exact plainAll_iff

/-- A plain node is none of the sorts that evaluation takes away. -/
theorem Plain.isLeftover {n : Node} (h : n.Plain) : n.isLeftover = false := by
  cases n with
  | reference | mixin | mixinCall | argument => exact h.elim
  | declaration => exact h.1
  | _ => rfl

/-- Of a plain node all parts are plain. -/
theorem Plain.parts {n : Node} (h : n.Plain) : ∀ part ∈ n.parts, part.Plain := by
  cases n with
  | expression items | list items | call name items
  | ruleset selectors items => exact plainAll_iff.mp h
  | paren inner | negative inner =>
    intro part hpart
    exact List.mem_singleton.mp hpart ▸ h
  | declaration name value =>
    intro part hpart
    exact List.mem_singleton.mp hpart ▸ h.2
  | operation op left right =>
    exact List.forall_mem_cons.mpr ⟨h.1, List.forall_mem_singleton.mpr h.2⟩
  | atRule name header rules =>
    exact List.forall_mem_append.mpr ⟨plainHeader_iff.mp h.1, plainBlock_iff.mp h.2⟩
  | media features rules => exact List.forall_mem_cons.mpr ⟨h.1, plainAll_iff.mp h.2⟩
  | importRule path features => exact List.forall_mem_cons.mpr ⟨h.1, plainHeader_iff.mp h.2⟩
  | reference | mixin | mixinCall | argument => exact h.elim
  | dimension | comment | keyword | quoted | url | selector => exact nofun

/-! ## Resolving extensions -/

mutual
/-- Changing the selectors in a plain node leaves it plain. -/
theorem mapSelectors_plain (f : List Selector → List Selector) :
    ∀ n : Node, n.Plain → (mapSelectors f n).Plain
  | expression items _ _ _, h => mapSelectorsAll_plain f items h
  | list items, h => mapSelectorsAll_plain f items h
  | paren inner, h => mapSelectors_plain f inner h
  | operation _ left right _ _, h => ⟨mapSelectors_plain f left h.1, mapSelectors_plain f right h.2⟩
  | negative inner, h => mapSelectors_plain f inner h
  | call _ args _, h => mapSelectorsAll_plain f args h
  | declaration _ value _ _ _, h => ⟨h.1, mapSelectors_plain f value h.2⟩
  | ruleset _ rules _, h => mapSelectorsAll_plain f rules h
  | atRule _ header rules, h =>
    ⟨mapSelectorsHeader_plain f header h.1, mapSelectorsBlock_plain f rules h.2⟩
  | media features rules, h =>
    ⟨mapSelectors_plain f features h.1, mapSelectorsAll_plain f rules h.2⟩
  | importRule path features _, h =>
    ⟨mapSelectors_plain f path h.1, mapSelectorsHeader_plain f features h.2⟩
  | dimension _, h | comment .., h | keyword _, h | quoted .., h | url _, h | selector _, h => h
theorem mapSelectorsAll_plain (f : List Selector → List Selector) :
    ∀ nodes : List Node, PlainAll nodes →
    PlainAll (mapSelectorsAll f nodes)
  | [], h => h
  | node :: nodes, h => ⟨mapSelectors_plain f node h.1, mapSelectorsAll_plain f nodes h.2⟩
theorem mapSelectorsHeader_plain (f : List Selector → List Selector) : ∀ header : Option Node,
    PlainHeader header → PlainHeader (mapSelectorsHeader f header)
  | none, h => h
  | some n, h => mapSelectors_plain f n h
theorem mapSelectorsBlock_plain (f : List Selector → List Selector) : ∀ rules : Option (List Node),
    PlainBlock rules → PlainBlock (mapSelectorsBlock f rules)
  | none, h => h
  | some rules, h => mapSelectorsAll_plain f rules h
end

/-! ## Taking rules apart -/

theorem ofNodes_plain {nodes : List Node} (h : PlainAll nodes) : (ofNodes nodes).Plain := by
  rw [ofNodes.eq_def]
  split
  · exact h.1
  · exact h

/-- Conditions that are joined by "and" are plain if both of them are. -/
theorem bothQueries_plain {outer inner : Node} (ho : outer.Plain) (hi : inner.Plain) :
    (bothQueries outer inner).Plain :=
  bothQueries_of (fun _ => plainAll_iff) (fun _ _ ha hb => ⟨ha, trivial, hb, trivial⟩) ho hi

/-- Being plain goes from a rule to what is made of it when rules are taken apart. -/
theorem rulewise_plain : Rulewise Plain where
  ofRuleset h := plainAll_iff.mp h
  ruleset _ h := plainAll_iff.mpr h
  ofMedia h := plainAll_iff.mp h.2
  media h hrules := ⟨h.1, plainAll_iff.mpr hrules⟩
  underMedia ho h := ⟨bothQueries_plain ho.1 h.1, h.2⟩
  ofAtRule h := plainAll_iff.mp h.2
  atRule h hrules := ⟨h.1, plainAll_iff.mpr hrules⟩

theorem unnest_plain (n : Node) (h : n.Plain) : PlainAll n.unnest :=
  plainAll_iff.mpr (rulewise_plain.unnest n h)

mutual
theorem flatten_plain : ∀ n : Node, n.Plain → PlainAll n.flatten
  | ruleset _ rules true, h => ⟨flattenAll_plain rules h, trivial⟩
  | ruleset selectors rules false, h => unnest_plain (ruleset selectors rules false) h
  | media features rules, h => unnest_plain (media features rules) h
  | atRule name header rules, h => unnest_plain (atRule name header rules) h
  | expression items _ _ _, h => ⟨flattenAll_plain items h, trivial⟩
  | list items, h => ⟨flattenAll_plain items h, trivial⟩
  | paren inner, h => ⟨ofNodes_plain (flatten_plain inner h), trivial⟩
  | operation _ left right _ _, h =>
    ⟨⟨ofNodes_plain (flatten_plain left h.1), ofNodes_plain (flatten_plain right h.2)⟩, trivial⟩
  | negative inner, h => ⟨ofNodes_plain (flatten_plain inner h), trivial⟩
  | call _ args _, h => ⟨flattenAll_plain args h, trivial⟩
  | declaration _ value _ _ _, h => ⟨⟨h.1, ofNodes_plain (flatten_plain value h.2)⟩, trivial⟩
  | importRule path features _, h =>
    ⟨⟨ofNodes_plain (flatten_plain path h.1), flattenHeader_plain features h.2⟩, trivial⟩
  | dimension _, h | comment .., h | keyword _, h | quoted .., h | url _, h
  | selector _, h => ⟨h, trivial⟩
theorem flattenAll_plain : ∀ nodes : List Node, PlainAll nodes → PlainAll (flattenAll nodes)
  | [], h => h
  | node :: nodes, h => (flatten_plain node h.1).append (flattenAll_plain nodes h.2)
theorem flattenHeader_plain :
    ∀ header : Option Node, PlainHeader header → PlainHeader (flattenHeader header)
  | none, h => h
  | some n, h => ofNodes_plain (flatten_plain n h)
end

end Node

namespace Ruleset

/-- What evaluation leaves of a stylesheet is plain, in any context. -/
theorem eval_plain (c : Context) (r : Ruleset) : Ensures (r.eval c) fun e => e.toNode.Plain := by
  have hdeeper := Deeper.within_plain (c.bound r.rules)
  have hrules : ∀ inside, Ensures (Evaluation.evalRules _ inside r.rules) Node.PlainAll :=
    fun inside => Evaluation.evalSplice_plain hdeeper _ r.rules
  exact Evaluation.ruleset_plain hrules

theorem extend_plain {r : Ruleset} (h : r.toNode.Plain) : r.extend.toNode.Plain :=
  Node.mapSelectorsAll_plain _ r.rules h

theorem flatten_plain {r : Ruleset} (h : r.toNode.Plain) : r.flatten.toNode.Plain := by
  have hnodes := Node.flatten_plain r.toNode h
  rw [flatten]
  split
  · next selectors rules root rest hflat =>
    rw [hflat] at hnodes
    exact hnodes.1
  · next node rest _ hflat =>
    rw [hflat] at hnodes
    exact ⟨hnodes.1, trivial⟩
  · trivial

/-- A text that is read and evaluated, with a test that both results pass. -/
theorem exists_evaluated (source : String) (c : Context) (test : Ruleset → Ruleset → Bool)
    (h : ((ofText source).toOption.any fun r => (r.evaluate c).toOption.any (test r)) = true) :
    ∃ r result, ofText source = .ok r ∧ r.evaluate c = .ok result ∧ test r result = true := by
  cases hread : ofText source with
  | error e =>
    rw [hread] at h
    cases h
  | ok r =>
    rw [hread] at h
    replace h : (r.evaluate c).toOption.any (test r) = true := h
    cases hevaluate : r.evaluate c with
    | error e =>
      rw [hevaluate] at h
      cases h
    | ok result =>
      rw [hevaluate] at h
      exact ⟨r, result, rfl, hevaluate, h⟩

/-- What a stylesheet evaluates to is plain. -/
theorem evaluate_plain {c : Context} {r result : Ruleset} (h : r.evaluate c = .ok result) :
    result.toNode.Plain := by
  obtain ⟨evaluated, heval, hresult⟩ := exists_of_bind_eq_ok h
  cases hresult
  exact flatten_plain (extend_plain (eval_plain c r evaluated heval))

/-- **Nothing is left to evaluate.**  In what a stylesheet evaluates to, in any context, no
variable, no mixin, no call or argument of one and no definition of a variable occurs, at any
depth. -/
theorem evaluate_leaves_nothing (c : Context) (r result : Ruleset) (h : r.evaluate c = .ok result) :
    ∀ n : Node, n.OccursIn result.toNode → n.isLeftover = false := by
  intro n hn
  obtain ⟨evaluated, heval, hresult⟩ := exists_of_bind_eq_ok h
  cases hresult
  have hplain : evaluated.toNode.Plain := eval_plain c r evaluated heval
  have hflat := flatten_plain (extend_plain hplain)
  exact (hn.inherits (fun _ => Node.Plain.parts) hflat).isLeftover

/-- A variable, and a mixin with a nested rule set that is called with it: two rule sets are
left. -/
theorem evaluate_leaves_nothing_mixin : ∃ r result,
    Ruleset.ofText "@a:b;.m(@x)\x7bc:@x;.k\x7be:@a\x7d\x7d.n\x7b.m(@a);d:@a\x7d" = .ok r ∧
    (r.rules.filter Node.isLeftover).length = 2 ∧ r.evaluate (.ofOptions {}) = .ok result ∧
    result.rules.length = 2 ∧ ∀ n : Node, n.OccursIn result.toNode → n.isLeftover = false := by
  have hcheck :
      (match Ruleset.ofText "@a:b;.m(@x)\x7bc:@x;.k\x7be:@a\x7d\x7d.n\x7b.m(@a);d:@a\x7d" with
    | .ok r => (r.rules.filter Node.isLeftover).length == 2 &&
      (match r.evaluate (.ofOptions {}) with
        | .ok result => result.rules.length == 2
        | .error _ => false)
    | .error _ => false) = true := by decide +kernel
  split at hcheck
  · next r hread =>
    obtain ⟨hleftovers, hresult⟩ := Bool.and_eq_true_iff.mp hcheck
    split at hresult
    · next result hevaluate =>
      exact ⟨r, result, hread, beq_iff_eq.mp hleftovers, hevaluate, beq_iff_eq.mp hresult,
        evaluate_leaves_nothing _ r result hevaluate⟩
    · cases hresult
  · cases hcheck

end Ruleset

end LessCss
