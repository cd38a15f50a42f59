import LessCss.Compile
import LessCss.Proofs.Evaluation.Reach
import LessCss.Proofs.Nesting.NormalForm
import LessCss.Proofs.Occurrence

/-!
# The shape of stylesheets

One type holds values and rules alike, but in a stylesheet that was read from text each stands in
its own places: values in declarations and in the heads of at-rules, rules in blocks.  Evaluation
keeps this. Variables are defined by values, so a value is evaluated to a value
(`Evaluation.eval_value`); and where no mixin is called a rule is evaluated to rules
(`Evaluation.eval_simple`).

On values, resolving extensions and taking rules apart have nothing to do.  For the latter it does
not matter what stands among the rules, as long as only values stand in the places of values
(`Node.Proper`).
-/

namespace LessCss

open Evaluation

namespace Node

/-! ## Values and rules -/

mutual
/-- A node that can be the value of a property. -/
def IsValue : Node → Prop
  | expression items _ _ _ => AreValues items
  | list items => AreValues items
  | paren inner => IsValue inner
  | operation _ left right _ _ => IsValue left ∧ IsValue right
  | negative inner => IsValue inner
  | call _ args _ => AreValues args
  | dimension _ | keyword _ | quoted .. | url _ | reference .. => True
  | comment .. | declaration .. | selector _ | ruleset .. | atRule .. | media .. | importRule ..
  | mixin .. | mixinCall .. | argument .. => False
/-- A row of values. -/
def AreValues : List Node → Prop
  | [] => True
  | node :: nodes => IsValue node ∧ AreValues nodes
end

/-- A value that may be missing. -/
def IsHeader (header : Option Node) : Prop := ∀ n, header = some n → n.IsValue

mutual
/-- A node that can stand in a block, its parts having the right shape too.  Only a whole stylesheet
is a rule set without selectors.  What is in the rules of a mixin does not matter until it is
called. -/
def IsRule : Node → Prop
  | declaration _ value _ _ _ => value.IsValue
  | ruleset selectors rules root => root = false ∧ selectors ≠ [] ∧ AreRules rules
  | atRule _ header rules => IsHeader header ∧ IsBlock rules
  | media features rules => features.IsValue ∧ AreRules rules
  | importRule path features _ => path.IsValue ∧ IsHeader features
  | comment .. | mixin .. | mixinCall .. => True
  | dimension _ | expression .. | list _ | paren _ | keyword _ | quoted .. | url _ | reference ..
  | operation .. | negative _ | call .. | selector _ | argument .. => False
/-- A row of rules. -/
def AreRules : List Node → Prop
  | [] => True
  | node :: nodes => IsRule node ∧ AreRules nodes
/-- A block that may be missing. -/
def IsBlock : Option (List Node) → Prop
  | none => True
  | some nodes => AreRules nodes
end

mutual
/-- A node in which only values stand where values belong, and which neither is nor holds a whole
stylesheet. What stands among the rules of a block does not matter otherwise, nor what is in a mixin
or a call of one. -/
def Proper : Node → Prop
  | declaration _ value _ _ _ => value.IsValue
  | argument _ value => value.IsValue
  | ruleset _ rules root => root = false ∧ ProperAll rules
  | atRule _ header rules => IsHeader header ∧ ProperBlock rules
  | media features rules => features.IsValue ∧ ProperAll rules
  | importRule path features _ => path.IsValue ∧ IsHeader features
  | comment .. | selector _ | mixin .. | mixinCall .. => True
  | node => node.IsValue
/-- A row of proper nodes. -/
def ProperAll : List Node → Prop
  | [] => True
  | node :: nodes => Proper node ∧ ProperAll nodes
/-- A block of proper nodes that may be missing. -/
def ProperBlock : Option (List Node) → Prop
  | none => True
  | some nodes => ProperAll nodes
end

mutual
/-- Whether no mixin is called in a rule, other than in the rules of a mixin. -/
def callFree : Node → Bool
  | mixinCall .. => false
  | ruleset _ rules _ => callFreeAll rules
  | media _ rules => callFreeAll rules
  | atRule _ _ (some rules) => callFreeAll rules
  | _ => true
/-- Whether no mixin is called in a row of rules. -/
def callFreeAll : List Node → Bool
  | [] => true
  | node :: nodes => callFree node && callFreeAll nodes
end

/-- A row of values is a row each of whose nodes is one. -/
theorem areValues_iff {nodes : List Node} : AreValues nodes ↔ ∀ n ∈ nodes, n.IsValue := by
  induction nodes with
  | nil => simp [AreValues]
  | cons node nodes ih => simp [AreValues, ih]

/-- Whether a node is of a sort that values are of. -/
def isValueSort : Node → Bool
  | dimension _ | expression .. | list _ | paren _ | keyword _ | quoted .. | url _ | reference ..
  | operation .. | negative _ | call .. => true
  | comment .. | declaration .. | selector _ | ruleset .. | atRule .. | media .. | importRule ..
  | mixin .. | mixinCall .. | argument .. => false

/-- A value is of a sort that values are of, and so are its parts. -/
theorem isValue_iff {n : Node} : n.IsValue ↔ n.isValueSort ∧ ∀ part ∈ n.parts, part.IsValue := by
  cases n with
  | expression | list | call => simp [IsValue, isValueSort, parts, areValues_iff]
  | paren | negative | operation => simp [IsValue, isValueSort, parts]
  | dimension | keyword | quoted | url | reference => simp [IsValue, isValueSort, parts]
  | comment | declaration | selector | ruleset | atRule | media | importRule | mixin | mixinCall
  | argument =>
    simp [IsValue, isValueSort]

theorem IsValue.parts {n : Node} (h : n.IsValue) : ∀ part ∈ n.parts, part.IsValue :=
  (isValue_iff.mp h).2

/-- A value throughout which a property holds. -/
def IsValueOf (P : Node → Prop) (n : Node) : Prop := n.IsValue ∧ n.Throughout P

/-- A property holds throughout a value if it holds of it and throughout its parts. -/
theorem isValueOf_iff {P : Node → Prop} {n : Node} :
    n.IsValueOf P ↔ n.isValueSort ∧ P n ∧ ∀ part ∈ n.parts, part.IsValueOf P := by
  unfold IsValueOf
  rw [isValue_iff, throughout_iff]
  constructor
  · rintro ⟨⟨hsort, hvalues⟩, hn, hparts⟩
    exact ⟨hsort, hn, fun part hpart => ⟨hvalues part hpart, hparts part hpart⟩⟩
  · rintro ⟨hsort, hn, hparts⟩
    exact ⟨⟨hsort, fun part hpart => (hparts part hpart).1⟩, hn, fun part hpart =>
      (hparts part hpart).2⟩

theorem isValueOf_true {n : Node} : n.IsValueOf (fun _ => True) ↔ n.IsValue :=
  ⟨fun h => h.1, fun h => ⟨h, fun _ _ => trivial⟩⟩

theorem areRules_iff {nodes : List Node} : AreRules nodes ↔ ∀ n ∈ nodes, n.IsRule := by
  induction nodes with
  | nil => simp [AreRules]
  | cons node nodes ih => simp [AreRules, ih]

theorem properAll_iff {nodes : List Node} : ProperAll nodes ↔ ∀ n ∈ nodes, n.Proper := by
  induction nodes with
  | nil => simp [ProperAll]
  | cons node nodes ih => simp [ProperAll, ih]

mutual
theorem IsRule.proper : ∀ {n : Node}, n.IsRule → n.Proper
  | declaration .., h => h
  | ruleset .., h => ⟨h.1, AreRules.properAll h.2.2⟩
  | atRule _ _ none, h => ⟨h.1, trivial⟩
  | atRule _ _ (some _), h => ⟨h.1, AreRules.properAll h.2⟩
  | media .., h => ⟨h.1, AreRules.properAll h.2⟩
  | importRule .., h => h
  | comment .., _ | mixin .., _ | mixinCall .., _ => trivial
theorem AreRules.properAll : ∀ {nodes : List Node}, AreRules nodes → ProperAll nodes
  | [], _ => trivial
  | _ :: _, h => ⟨h.1.proper, h.2.properAll⟩
end

theorem IsValue.proper {n : Node} (h : n.IsValue) : n.Proper := by
  cases n with
  | comment | declaration | selector | ruleset | atRule | media | importRule | mixin | mixinCall
  | argument =>
    exact h.elim
  | _ => exact h

theorem callFreeAll_iff {nodes : List Node} :
    callFreeAll nodes = true ↔ ∀ n ∈ nodes, n.callFree = true := by
  induction nodes with
  | nil => simp [callFreeAll]
  | cons node nodes ih => simp [callFreeAll, ih]

end Node

/-! ## Simple rules -/

namespace Extension

/-- Nodes ask for no extension just if none of them does. -/
theorem ofNodes_eq_nil_iff {nodes : List Node} :
    ofNodes nodes = [] ↔ ∀ n ∈ nodes, ofNode n = [] := by
  induction nodes with
  | nil => simp [ofNodes]
  | cons node nodes ih => simp [ofNodes, ih]

theorem ofSelectors_eq_nil_iff {selectors : List Selector} :
    ofSelectors selectors = [] ↔ ∀ s ∈ selectors, s.extending = [] := by
  simp [ofSelectors]

end Extension

namespace Node

mutual
/-- A value asks for no extension. -/
theorem extensions_of_isValue : ∀ n : Node, n.IsValue → Extension.ofNode n = []
  | expression items _ _ _, h => extensions_of_areValues items h
  | list items, h => extensions_of_areValues items h
  | paren inner, h => extensions_of_isValue inner h
  | operation _ left right _ _, h => by
    rw [Extension.ofNode, extensions_of_isValue left h.1, extensions_of_isValue right h.2]
    rfl
  | negative inner, h => extensions_of_isValue inner h
  | call _ args _, h => extensions_of_areValues args h
  | dimension _, _ | keyword _, _ | quoted .., _ | url _, _ | reference .., _ => rfl
theorem extensions_of_areValues :
    ∀ nodes : List Node, AreValues nodes → Extension.ofNodes nodes = []
  | [], _ => rfl
  | node :: nodes, h => by
    rw [Extension.ofNodes, extensions_of_isValue node h.1, extensions_of_areValues nodes h.2]
    rfl
end

theorem extensions_of_isHeader {header : Option Node} (h : IsHeader header) :
    Extension.ofHeader header = [] := by
  cases header with
  | none => rfl
  | some n => exact extensions_of_isValue n (h n rfl)

/-- A rule in which nothing is called or extended. -/
structure Simple (n : Node) : Prop where
  isRule : n.IsRule
  callFree : n.callFree = true
  extendsNothing : Extension.ofNode n = []

theorem simple_comment (text : String) (isLine : Bool) : (comment text isLine).Simple :=
  ⟨trivial, rfl, rfl⟩

theorem simple_declaration {name : String} {value : Node} {important isVariable : Bool}
    {offset : Nat} :
    (declaration name value important isVariable offset).Simple ↔ value.IsValue :=
  ⟨fun h => h.isRule, fun h => ⟨h, rfl, extensions_of_isValue value h⟩⟩

/-- The rules of a block are simple. -/
theorem simple_of_rules {rules : List Node} (hrules : AreRules rules)
    (hcalls : callFreeAll rules = true) (hextends : Extension.ofNodes rules = []) :
    ∀ n ∈ rules, n.Simple := by
  intro n hn
  exact ⟨areRules_iff.mp hrules n hn, callFreeAll_iff.mp hcalls n hn,
    Extension.ofNodes_eq_nil_iff.mp hextends n hn⟩

/-- Simple rules are rules in which nothing is called or extended. -/
theorem rules_of_simple {rules : List Node} (h : ∀ n ∈ rules, n.Simple) :
    AreRules rules ∧ callFreeAll rules = true ∧ Extension.ofNodes rules = [] :=
  ⟨areRules_iff.mpr fun n hn => (h n hn).isRule, callFreeAll_iff.mpr fun n hn => (h n hn).callFree,
    Extension.ofNodes_eq_nil_iff.mpr fun n hn => (h n hn).extendsNothing⟩

/-- A rule set is simple if it has selectors that extend nothing, and simple rules. -/
theorem simple_ruleset {selectors : List Selector} {rules : List Node} {root : Bool} :
    (ruleset selectors rules root).Simple ↔
      root = false ∧ selectors ≠ [] ∧ (∀ s ∈ selectors, s.extending = []) ∧ ∀ n ∈ rules,
        n.Simple := by
  constructor
  · rintro ⟨⟨hroot, hne, hrules⟩, hcalls, hextends⟩
    obtain ⟨hselectors, hextends⟩ := List.append_eq_nil_iff.mp hextends
    exact ⟨hroot, hne, Extension.ofSelectors_eq_nil_iff.mp hselectors,
      simple_of_rules hrules hcalls hextends⟩
  · rintro ⟨hroot, hne, hselectors, h⟩
    obtain ⟨hrules, hcalls, hextends⟩ := rules_of_simple h
    refine ⟨⟨hroot, hne, hrules⟩, hcalls, ?_⟩
    exact List.append_eq_nil_iff.mpr ⟨Extension.ofSelectors_eq_nil_iff.mpr hselectors, hextends⟩

theorem simple_media {features : Node} {rules : List Node} :
    (media features rules).Simple ↔ features.IsValue ∧ ∀ n ∈ rules, n.Simple := by
  constructor
  · rintro ⟨⟨hfeatures, hrules⟩, hcalls, hextends⟩
    obtain ⟨-, hextends⟩ := List.append_eq_nil_iff.mp hextends
    exact ⟨hfeatures, simple_of_rules hrules hcalls hextends⟩
  · rintro ⟨hfeatures, h⟩
    obtain ⟨hrules, hcalls, hextends⟩ := rules_of_simple h
    refine ⟨⟨hfeatures, hrules⟩, hcalls, ?_⟩
    exact List.append_eq_nil_iff.mpr ⟨extensions_of_isValue features hfeatures, hextends⟩

theorem simple_atRule {name : String} {header : Option Node} {rules : List Node} :
    (atRule name header (some rules)).Simple ↔ IsHeader header ∧ ∀ n ∈ rules, n.Simple := by
  constructor
  · rintro ⟨⟨hheader, hrules⟩, hcalls, hextends⟩
    obtain ⟨-, hextends⟩ := List.append_eq_nil_iff.mp hextends
    exact ⟨hheader, simple_of_rules hrules hcalls hextends⟩
  · rintro ⟨hheader, h⟩
    obtain ⟨hrules, hcalls, hextends⟩ := rules_of_simple h
    refine ⟨⟨hheader, hrules⟩, hcalls, ?_⟩
    exact List.append_eq_nil_iff.mpr ⟨extensions_of_isHeader hheader, hextends⟩

theorem simple_bareAtRule {name : String} {header : Option Node} :
    (atRule name header none).Simple ↔ IsHeader header := by
  refine ⟨fun h => h.isRule.1, fun h => ⟨⟨h, trivial⟩, rfl, ?_⟩⟩
  exact List.append_eq_nil_iff.mpr ⟨extensions_of_isHeader h, rfl⟩

theorem simple_importRule {path : Node} {features : Option Node} {options : List String} :
    (importRule path features options).Simple ↔ path.IsValue ∧ IsHeader features := by
  refine ⟨fun h => h.isRule, fun h => ⟨h, rfl, ?_⟩⟩
  exact List.append_eq_nil_iff.mpr ⟨extensions_of_isValue path h.1, extensions_of_isHeader h.2⟩

/-! ## Taking rules apart and extending them -/

mutual
/-- A value is left as it is when rules are flattened. -/
theorem flatten_of_isValue : ∀ n : Node, n.IsValue → n.flatten = [n]
  | expression items _ _ _, h => by rw [flatten, flattenAll_of_areValues items h]
  | list items, h => by rw [flatten, flattenAll_of_areValues items h]
  | paren inner, h => by
    rw [flatten, flatten_of_isValue inner h]
    rfl
  | operation _ left right _ _, h => by
    rw [flatten, flatten_of_isValue left h.1, flatten_of_isValue right h.2]
    rfl
  | negative inner, h => by
    rw [flatten, flatten_of_isValue inner h]
    rfl
  | call _ args _, h => by rw [flatten, flattenAll_of_areValues args h]
  | dimension _, _ | keyword _, _ | quoted .., _ | url _, _ | reference .., _ => rfl
theorem flattenAll_of_areValues : ∀ nodes : List Node, AreValues nodes → flattenAll nodes = nodes
  | [], _ => rfl
  | node :: nodes, h => by
    rw [flattenAll, flatten_of_isValue node h.1, flattenAll_of_areValues nodes h.2]
    rfl
end

theorem flattenHeader_of_isHeader {header : Option Node} (h : IsHeader header) :
    flattenHeader header = header := by
  cases header with
  | none => rfl
  | some n =>
    rw [flattenHeader, flatten_of_isValue n (h n rfl)]
    rfl

/-- Values are left alone when rules are taken apart. -/
theorem flatten_of_proper {n : Node} (h : n.Proper) : n.flatten = n.unnest := by
  cases n with
  | declaration name value important isVariable offset =>
    rw [flatten, flatten_of_isValue value h]
    rfl
  | argument name value =>
    rw [flatten, flatten_of_isValue value h]
    rfl
  | ruleset selectors rules root =>
    obtain ⟨rfl, -⟩ := h
    rfl
  | importRule path features options =>
    rw [flatten, flatten_of_isValue path h.1, flattenHeader_of_isHeader h.2]
    rfl
  | comment | selector | mixin | mixinCall | media | atRule => rfl
  | dimension | expression | list | paren | keyword | quoted | url | reference | operation
  | negative
  | call => exact flatten_of_isValue _ h

/-- Proper rules are flattened by taking them apart. -/
theorem flattenAll_of_proper {nodes : List Node} (h : ∀ n ∈ nodes, n.Proper) :
    flattenAll nodes = unnestAll nodes := by
  induction nodes with
  | nil => rfl
  | cons node nodes ih =>
    obtain ⟨hnode, hnodes⟩ := List.forall_mem_cons.mp h
    rw [flattenAll, unnestAll, flatten_of_proper hnode, ih hnodes]

/-- Queries joined by "and" are a value. -/
theorem bothQueries_isValue {outer inner : Node} (ho : outer.IsValue) (hi : inner.IsValue) :
    (bothQueries outer inner).IsValue :=
  bothQueries_of (fun _ => areValues_iff) (fun _ _ ha hb => ⟨ha, trivial, hb, trivial⟩) ho hi

theorem rulewise_isRule : Rulewise IsRule where
  ofRuleset h := areRules_iff.mp h.2.2
  ruleset h hrules := ⟨h.1, h.2.1, areRules_iff.mpr hrules⟩
  ofMedia h := areRules_iff.mp h.2
  media h hrules := ⟨h.1, areRules_iff.mpr hrules⟩
  underMedia ho h := ⟨bothQueries_isValue ho.1 h.1, h.2⟩
  ofAtRule h := areRules_iff.mp h.2
  atRule h hrules := ⟨h.1, areRules_iff.mpr hrules⟩

/-- Being proper goes over to what rules are taken apart into. -/
theorem rulewise_proper : Rulewise Proper where
  ofRuleset h := properAll_iff.mp h.2
  ruleset h hrules := ⟨h.1, properAll_iff.mpr hrules⟩
  ofMedia h := properAll_iff.mp h.2
  media h hrules := ⟨h.1, properAll_iff.mpr hrules⟩
  underMedia ho h := ⟨bothQueries_isValue ho.1 h.1, h.2⟩
  ofAtRule h := properAll_iff.mp h.2
  atRule h hrules := ⟨h.1, properAll_iff.mpr hrules⟩

/-- Rules that are taken apart are rules. -/
theorem unnestAll_areRules (rules : List Node) (h : AreRules rules) :
    ∀ m ∈ unnestAll rules, m.IsRule :=
  rulewise_isRule.unnestAll rules (areRules_iff.mp h)

mutual
/-- Leaving all selectors as they are leaves the node as it is. -/
theorem mapSelectors_id : ∀ n : Node, mapSelectors id n = n
  | expression items _ _ _ => by rw [mapSelectors, mapSelectorsAll_id items]
  | list items => by rw [mapSelectors, mapSelectorsAll_id items]
  | paren inner => by rw [mapSelectors, mapSelectors_id inner]
  | operation _ left right _ _ => by
    rw [mapSelectors, mapSelectors_id left, mapSelectors_id right]
  | negative inner => by rw [mapSelectors, mapSelectors_id inner]
  | call _ args _ => by rw [mapSelectors, mapSelectorsAll_id args]
  | declaration _ value _ _ _ => by rw [mapSelectors, mapSelectors_id value]
  | ruleset selectors rules _ => by rw [mapSelectors, mapSelectorsAll_id rules, id]
  | atRule _ header rules => by
    rw [mapSelectors, mapSelectorsHeader_id header, mapSelectorsBlock_id rules]
  | media features rules => by
    rw [mapSelectors, mapSelectors_id features, mapSelectorsAll_id rules]
  | importRule path features _ => by
    rw [mapSelectors, mapSelectors_id path, mapSelectorsHeader_id features]
  | mixin _ _ _ rules => by rw [mapSelectors, mapSelectorsAll_id rules]
  | mixinCall _ args _ _ => by rw [mapSelectors, mapSelectorsAll_id args]
  | argument _ value => by rw [mapSelectors, mapSelectors_id value]
  | dimension _ | comment .. | keyword _ | quoted .. | url _ | reference .. | selector _ => rfl
theorem mapSelectorsAll_id : ∀ nodes : List Node, mapSelectorsAll id nodes = nodes
  | [] => rfl
  | node :: nodes => by rw [mapSelectorsAll, mapSelectors_id node, mapSelectorsAll_id nodes]
theorem mapSelectorsHeader_id : ∀ header : Option Node, mapSelectorsHeader id header = header
  | none => rfl
  | some node => by rw [mapSelectorsHeader, mapSelectors_id node]
theorem mapSelectorsBlock_id : ∀ rules : Option (List Node), mapSelectorsBlock id rules = rules
  | none => rfl
  | some rules => by rw [mapSelectorsBlock, mapSelectorsAll_id rules]
end

end Node

namespace Ruleset

/-- Where nothing is extended, resolving extensions changes nothing. -/
theorem extend_eq_self {r : Ruleset} (h : Extension.ofNode r.toNode = []) : r.extend = r := by
  have hnone : Extension.extend [] = id := by
    funext selectors
    have hadded : ((selectors.map (Selector.text false)).flatMap fun text =>
        ([] : List Extension).filterMap (·.added? text)) = [] :=
      List.flatMap_eq_nil_iff.mpr fun _ _ => rfl
    rw [Extension.extend, hadded]
    rfl
  unfold extend
  rw [h]
  dsimp only
  rw [hnone, Node.mapSelectorsAll_id]
  rfl

/-- A whole stylesheet is taken apart by taking its rules apart. -/
theorem flatten_of_proper {r : Ruleset} (hroot : r.root = true) (h : ∀ n ∈ r.rules, n.Proper) :
    r.flatten = ⟨r.selectors, Node.unnestAll r.rules, true⟩ := by
  rw [flatten, toNode, hroot, Node.flatten, Node.flattenAll_of_proper h]

/-- A stylesheet of rules is flattened by taking its rules apart. -/
theorem flatten_ofRules {rules : List Node} (h : ∀ n ∈ rules, n.IsRule) :
    (ofRules rules).flatten = ofRules (Node.unnestAll rules) :=
  flatten_of_proper rfl fun n hn => (h n hn).proper

end Ruleset

end LessCss
