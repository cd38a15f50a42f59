import LessCss.Compile
import LessCss.Proofs.Nesting.Shape

/-!
# Values in rules that were evaluated

Evaluation leaves declarations, comments, rule sets, at-rules, media rules and imports.  What then
happens to them does not touch the values in them: marking declarations as important, putting loose
ones under selectors, resolving extensions, and taking nested rules apart, where two media
conditions may become one.  So a property of all values in evaluated rules (`Node.RuleOf`) is one of
all values in the result (`Ruleset.rulesOf_flatten`).
-/

namespace LessCss

open Evaluation

namespace Node

mutual
/-- A rule as evaluation leaves it, all of whose values have a property. -/
def RuleOf (V : Node → Prop) : Node → Prop
  | declaration _ value _ _ _ => V value
  | ruleset _ rules root => root = false ∧ RulesOf V rules
  | atRule _ header rules => (∀ n ∈ header, V n) ∧ BlockOf V rules
  | media features rules => V features ∧ RulesOf V rules
  | importRule path features _ => V path ∧ ∀ n ∈ features, V n
  | comment .. => True
  | dimension _ | expression .. | list _ | paren _ | keyword _ | quoted .. | url _ | reference ..
  | operation .. | negative _ | call .. | selector _ | mixin .. | mixinCall ..
  | argument .. => False
/-- A row of such rules. -/
def RulesOf (V : Node → Prop) : List Node → Prop
  | [] => True
  | node :: nodes => RuleOf V node ∧ RulesOf V nodes
/-- A block of such rules that may be missing. -/
def BlockOf (V : Node → Prop) : Option (List Node) → Prop
  | none => True
  | some nodes => RulesOf V nodes
end

variable {V : Node → Prop}

/-- A row has a property of rules just if each of its rules has it. -/
theorem rulesOf_iff {nodes : List Node} : RulesOf V nodes ↔ ∀ n ∈ nodes, n.RuleOf V := by
  induction nodes with
  | nil => simp [RulesOf]
  | cons node nodes ih => simp [RulesOf, ih]

/-- The parts of a rule are the rules of its block and values. -/
theorem RuleOf.parts {n : Node} (h : n.RuleOf V) : ∀ part ∈ n.parts, part ∈ n.block ∨ V part := by
  intro part hpart
  cases n with
  | declaration =>
    obtain rfl := List.mem_singleton.mp hpart
    exact .inr h
  | ruleset => exact .inl hpart
  | atRule =>
    rcases List.mem_append.mp hpart with hpart | hpart
    · exact .inr (h.1 part (Option.mem_toList.mp hpart))
    · exact .inl hpart
  | media =>
    rcases List.mem_cons.mp hpart with rfl | hpart
    · exact .inr h.1
    · exact .inl hpart
  | importRule =>
    rcases List.mem_cons.mp hpart with rfl | hpart
    · exact .inr h.1
    · exact .inr (h.2 part (Option.mem_toList.mp hpart))
  | comment => cases hpart
  | _ => exact h.elim

/-- The rules in a rule have the property of rules. -/
theorem RuleOf.block {n : Node} (h : n.RuleOf V) : ∀ k ∈ n.block, k.RuleOf V := by
  cases n with
  | ruleset | media => exact rulesOf_iff.mp h.2
  | atRule name header rules =>
    cases rules with
    | none => exact nofun
    | some rules => exact rulesOf_iff.mp h.2
  | declaration | importRule | comment => exact nofun
  | _ => exact h.elim

theorem RulesOf.filter {rules : List Node} (h : RulesOf V rules) (p : Node → Bool) :
    RulesOf V (rules.filter p) :=
  rulesOf_iff.mpr fun n hn => rulesOf_iff.mp h n (List.mem_filter.mp hn).1

/-- What holds throughout values holds throughout a header. -/
theorem headerOf_throughout {P : Node → Prop} (hvalue : ∀ n, V n → n.Throughout P)
    {header : Option Node} (h : ∀ n ∈ header, V n) : ∀ n ∈ header.toList, n.Throughout P :=
  fun n hn =>
  hvalue n (h n (Option.mem_toList.mp hn))

mutual
/-- What holds throughout all values, and of all nodes that are no values, holds throughout a
rule. -/
theorem ruleOf_throughout {P : Node → Prop} (hvalue : ∀ n, V n → n.Throughout P)
    (hrule : ∀ n : Node, n.isValueSort = false → P n) : ∀ n : Node, n.RuleOf V → n.Throughout P
  | declaration .., h =>
    throughout_iff.mpr ⟨hrule _ rfl, List.forall_mem_singleton.mpr (hvalue _ h)⟩
  | ruleset _ rules _, h =>
    throughout_iff.mpr ⟨hrule _ rfl, rulesOf_throughout hvalue hrule rules h.2⟩
  | atRule _ _ none, h =>
    throughout_iff.mpr
      ⟨hrule _ rfl, List.forall_mem_append.mpr ⟨headerOf_throughout hvalue h.1, nofun⟩⟩
  | atRule _ _ (some rules), h => by
    have hrules := rulesOf_throughout hvalue hrule rules h.2
    exact throughout_iff.mpr
      ⟨hrule _ rfl, List.forall_mem_append.mpr ⟨headerOf_throughout hvalue h.1, hrules⟩⟩
  | media features rules, h => by
    have hrules := rulesOf_throughout hvalue hrule rules h.2
    exact throughout_iff.mpr ⟨hrule _ rfl, List.forall_mem_cons.mpr ⟨hvalue _ h.1, hrules⟩⟩
  | importRule .., h =>
    throughout_iff.mpr
      ⟨hrule _ rfl, List.forall_mem_cons.mpr ⟨hvalue _ h.1, headerOf_throughout hvalue h.2⟩⟩
  | comment .., _ => throughout_iff.mpr ⟨hrule _ rfl, nofun⟩
/-- What holds throughout values, and of everything that is no value, holds throughout rules. -/
theorem rulesOf_throughout {P : Node → Prop} (hvalue : ∀ n, V n → n.Throughout P)
    (hrule : ∀ n : Node, n.isValueSort = false → P n) : ∀ rules : List Node, RulesOf V rules →
    ∀ n ∈ rules, n.Throughout P
  | [], _ => nofun
  | node :: nodes, h =>
    List.forall_mem_cons.mpr
      ⟨ruleOf_throughout hvalue hrule node h.1, rulesOf_throughout hvalue hrule nodes h.2⟩
end

/-! ## What evaluation puts together -/

/-- Wrapping rules in the selectors around them leaves their values. -/
theorem rulesOf_wrap (selectors : List Selector) {rules : List Node} (h : RulesOf V rules) :
    RulesOf V (wrap selectors rules) := by
  unfold wrap
  split
  · exact h
  · dsimp only
    split
    · exact h.filter _
    · exact ⟨⟨rfl, h.filter _⟩, h.filter _⟩

theorem rulesOf_wrapAtRule (c : Context) (name : String) {rules : List Node} (h : RulesOf V rules) :
    RulesOf V (wrapAtRule c name rules) := by
  unfold wrapAtRule
  split
  · exact rulesOf_wrap _ h
  · exact h

mutual
/-- Marking a rule as important leaves its values. -/
theorem ruleOf_makeImportant : ∀ n : Node, n.RuleOf V → (makeImportant n).RuleOf V
  | declaration .., h => h
  | ruleset _ rules _, h => ⟨h.1, rulesOf_makeAllImportant rules h.2⟩
  | media _ rules, h => ⟨h.1, rulesOf_makeAllImportant rules h.2⟩
  | atRule .., h | importRule .., h | comment .., h => h
theorem rulesOf_makeAllImportant :
    ∀ rules : List Node, RulesOf V rules → RulesOf V (makeAllImportant rules)
  | [], _ => trivial
  | node :: nodes, h => ⟨ruleOf_makeImportant node h.1, rulesOf_makeAllImportant nodes h.2⟩
end

/-! ## Resolving extensions -/

mutual
/-- A value has no selectors to change. -/
theorem mapSelectors_of_isValue (f : List Selector → List Selector) :
    ∀ n : Node, n.IsValue → mapSelectors f n = n
  | expression items _ _ _, h => by rw [mapSelectors, mapSelectorsAll_of_areValues f items h]
  | list items, h => by rw [mapSelectors, mapSelectorsAll_of_areValues f items h]
  | paren inner, h => by rw [mapSelectors, mapSelectors_of_isValue f inner h]
  | operation _ left right _ _, h => by
    rw [mapSelectors, mapSelectors_of_isValue f left h.1, mapSelectors_of_isValue f right h.2]
  | negative inner, h => by rw [mapSelectors, mapSelectors_of_isValue f inner h]
  | call _ args _, h => by rw [mapSelectors, mapSelectorsAll_of_areValues f args h]
  | dimension _, _ | keyword _, _ | quoted .., _ | url _, _ | reference .., _ => rfl
theorem mapSelectorsAll_of_areValues (f : List Selector → List Selector) :
    ∀ nodes : List Node, AreValues nodes →
    mapSelectorsAll f nodes = nodes
  | [], _ => rfl
  | node :: nodes, h => by
    rw [mapSelectorsAll, mapSelectors_of_isValue f node h.1,
      mapSelectorsAll_of_areValues f nodes h.2]
end

theorem headerOf_mapSelectors (hV : ∀ n, V n → n.IsValue) (f : List Selector → List Selector)
    {header : Option Node} (h : ∀ n ∈ header, V n) : ∀ n ∈ mapSelectorsHeader f header, V n := by
  cases header with
  | none => exact nofun
  | some n =>
    rw [mapSelectorsHeader, mapSelectors_of_isValue f n (hV n (h n rfl))]
    exact h

mutual
/-- Changing selectors leaves the values of a rule. -/
theorem ruleOf_mapSelectors (hV : ∀ n, V n → n.IsValue) (f : List Selector → List Selector) :
    ∀ n : Node, n.RuleOf V → (mapSelectors f n).RuleOf V
  | declaration _ value _ _ _, h => by
    rw [mapSelectors, mapSelectors_of_isValue f value (hV value h)]
    exact h
  | ruleset _ rules _, h => ⟨h.1, rulesOf_mapSelectors hV f rules h.2⟩
  | atRule _ _ none, h => ⟨headerOf_mapSelectors hV f h.1, trivial⟩
  | atRule _ _ (some rules), h =>
    ⟨headerOf_mapSelectors hV f h.1, rulesOf_mapSelectors hV f rules h.2⟩
  | media features rules, h => by
    rw [mapSelectors, mapSelectors_of_isValue f features (hV features h.1)]
    exact ⟨h.1, rulesOf_mapSelectors hV f rules h.2⟩
  | importRule path _ _, h => by
    rw [mapSelectors, mapSelectors_of_isValue f path (hV path h.1)]
    exact ⟨h.1, headerOf_mapSelectors hV f h.2⟩
  | comment .., _ => trivial
theorem rulesOf_mapSelectors (hV : ∀ n, V n → n.IsValue) (f : List Selector → List Selector) :
    ∀ rules : List Node, RulesOf V rules → RulesOf V (mapSelectorsAll f rules)
  | [], _ => trivial
  | node :: nodes, h => ⟨ruleOf_mapSelectors hV f node h.1, rulesOf_mapSelectors hV f nodes h.2⟩
end

/-! ## Taking rules apart -/

mutual
/-- A rule all of whose values are values is proper. -/
theorem ruleOf_proper (hV : ∀ n, V n → n.IsValue) : ∀ n : Node, n.RuleOf V → n.Proper
  | declaration _ value _ _ _, h => hV value h
  | ruleset _ rules _, h => ⟨h.1, rulesOf_proper hV rules h.2⟩
  | atRule _ _ none, h => ⟨fun n hn => hV n (h.1 n hn), trivial⟩
  | atRule _ _ (some rules), h => ⟨fun n hn => hV n (h.1 n hn), rulesOf_proper hV rules h.2⟩
  | media features rules, h => ⟨hV features h.1, rulesOf_proper hV rules h.2⟩
  | importRule path _ _, h => ⟨hV path h.1, fun n hn => hV n (h.2 n hn)⟩
  | comment .., _ => trivial
theorem rulesOf_proper (hV : ∀ n, V n → n.IsValue) :
    ∀ rules : List Node, RulesOf V rules → ProperAll rules
  | [], _ => trivial
  | node :: nodes, h => ⟨ruleOf_proper hV node h.1, rulesOf_proper hV nodes h.2⟩
end

/-- A property of the values of rules looks at rules one by one. -/
theorem rulewise_ruleOf (hlist : ∀ items, V (list items) ↔ ∀ n ∈ items, V n)
    (hrow : ∀ a b, V a → V b → V (row [a, keyword "and", b])) : Rulewise (RuleOf V) where
  ofRuleset h := rulesOf_iff.mp h.2
  ruleset h hrules := ⟨h.1, rulesOf_iff.mpr hrules⟩
  ofMedia h := rulesOf_iff.mp h.2
  media h hrules := ⟨h.1, rulesOf_iff.mpr hrules⟩
  underMedia ho h := ⟨bothQueries_of hlist hrow ho.1 h.1, h.2⟩
  ofAtRule h := rulesOf_iff.mp h.2
  atRule h hrules := ⟨h.1, rulesOf_iff.mpr hrules⟩

end Node

/-- **Values stay as they are when rules are extended and taken apart.** -/
theorem Ruleset.rulesOf_flatten {V : Node → Prop} (hV : ∀ n, V n → n.IsValue)
    (hlist : ∀ items, V (.list items) ↔ ∀ n ∈ items, V n)
    (hrow : ∀ a b, V a → V b → V (.row [a, .keyword "and", b])) {rules : List Node}
    (h : Node.RulesOf V rules) :
    Node.RulesOf V (Ruleset.ofRules rules).extend.flatten.rules := by
  have hextended : Node.RulesOf V (Ruleset.ofRules rules).extend.rules :=
    Node.rulesOf_mapSelectors hV _ rules h
  rw [flatten_of_proper rfl (Node.properAll_iff.mp (Node.rulesOf_proper hV _ hextended))]
  have hrulewise := Node.rulewise_ruleOf hlist hrow
  exact Node.rulesOf_iff.mpr (hrulewise.unnestAll _ (Node.rulesOf_iff.mp hextended))

end LessCss
