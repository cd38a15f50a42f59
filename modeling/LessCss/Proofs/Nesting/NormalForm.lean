import LessCss.Flatten
import Mathlib.Data.List.ProdSigma

/-!
# Rules that are taken apart

A rule is in normal form if every rule set in it holds something and nothing but declarations and
comments, every media rule holds something and no other media rule, and there are no mixins among
the rules.  Taking a rule apart gives rules in normal form (`Node.normal_unnest`), and a rule in
normal form is left as it is (`Node.unnest_of_normal`), so that there is nothing to do a second
time.

What is put together anew on the way are blocks of the same rules under the same heads.  So all
properties are kept that look at the rules of a block one by one (`Node.Rulewise`).
-/

namespace LessCss

namespace Node

/-! ## Normal form -/

mutual
/-- A rule from which nothing has to be taken apart. -/
def Normal : Node → Prop
  | ruleset _ rules _ => rules ≠ [] ∧ ∀ n ∈ rules, n.isOwn = true
  | media _ rules => rules ≠ [] ∧ (∀ n ∈ rules, n.isMedia = false) ∧ NormalAll rules
  | atRule _ _ (some rules) => NormalAll rules
  | mixin .. | mixinCall .. => False
  | _ => True
/-- A row of rules in normal form. -/
def NormalAll : List Node → Prop
  | [] => True
  | node :: nodes => Normal node ∧ NormalAll nodes
end

/-- A row is in normal form just if each rule is. -/
theorem normalAll_iff {rules : List Node} : NormalAll rules ↔ ∀ n ∈ rules, n.Normal := by
  induction rules with
  | nil => simp [NormalAll]
  | cons node nodes ih => simp [NormalAll, ih]

/-- A rule set of the declarations and comments of another is in normal form. -/
theorem normal_ownRuleset {selectors : List Selector} {rules : List Node} {root : Bool} :
    ∀ n ∈ ownRuleset selectors rules root, n.Normal := by
  intro n hn
  rw [ownRuleset] at hn
  by_cases hempty : (rules.filter isOwn).isEmpty = true
  · rw [if_pos hempty] at hn
    cases hn
  · rw [if_neg hempty] at hn
    obtain rfl := List.mem_singleton.mp hn
    exact ⟨fun h => hempty (List.isEmpty_iff.mpr h), fun m hm => (List.mem_filter.mp hm).2⟩

/-- A media rule that is split into media rules is in normal form, if the rules in it are. -/
theorem normal_splitMedia {features : Node} {rules : List Node} (h : ∀ n ∈ rules, n.Normal) :
    ∀ n ∈ splitMedia features rules, n.Normal := by
  intro n hn
  rcases List.mem_append.mp hn with hn | hn
  · by_cases hempty : (rules.filter (!isMedia ·)).isEmpty = true
    · rw [if_pos hempty] at hn
      cases hn
    · rw [if_neg hempty] at hn
      obtain rfl := List.mem_singleton.mp hn
      refine ⟨fun h => hempty (List.isEmpty_iff.mpr h), fun m hm => ?_,
        normalAll_iff.mpr fun m hm => ?_⟩
      · simpa using (List.mem_filter.mp hm).2
      · exact h m (List.mem_filter.mp hm).1
  · obtain ⟨m, hm, rfl⟩ := List.mem_map.mp hn
    have hnormal := h m (List.mem_filter.mp hm).1
    -- a further condition leaves the rules of a media rule as they are
    cases m with
    | media inner rules => exact hnormal
    | _ => exact hnormal

mutual
/-- **Taking a rule apart gives rules in normal form.** -/
theorem normal_unnest : ∀ n : Node, ∀ m ∈ n.unnest, m.Normal
  | ruleset selectors rules root => by
    intro m hm
    rcases List.mem_append.mp hm with hm | hm
    · exact normal_ownRuleset m hm
    · exact normal_unnestRest rules m hm
  | media features rules => normal_splitMedia (normal_unnestAll rules)
  | atRule name header (some rules) => by
    intro m hm
    obtain rfl := List.mem_singleton.mp hm
    exact normalAll_iff.mpr (normal_unnestAll rules)
  | mixin .. | mixinCall .. => nofun
  | atRule _ _ none | dimension _ | expression .. | list _ | paren _ | comment .. | keyword _
  | quoted .. | url _ | reference .. | operation .. | negative _ | call .. | declaration ..
  | selector _ | importRule .. | argument .. => by
    intro m hm
    obtain rfl := List.mem_singleton.mp hm
    trivial
/-- Rules that are taken apart are in normal form. -/
theorem normal_unnestAll : ∀ rules : List Node, ∀ m ∈ unnestAll rules, m.Normal
  | [] => nofun
  | node :: nodes => by
    intro m hm
    rcases List.mem_append.mp hm with hm | hm
    · exact normal_unnest node m hm
    · exact normal_unnestAll nodes m hm
/-- So is what is taken out of rules. -/
theorem normal_unnestRest : ∀ rules : List Node, ∀ m ∈ unnestRest rules, m.Normal
  | [] => nofun
  | node :: nodes => by
    intro m hm
    rcases List.mem_append.mp hm with hm | hm
    · split at hm
      · cases hm
      · exact normal_unnest node m hm
    · exact normal_unnestRest nodes m hm
end

theorem unnestRest_of_isOwn {rules : List Node} (h : ∀ n ∈ rules, n.isOwn = true) :
    unnestRest rules = [] := by
  induction rules with
  | nil => rfl
  | cons node nodes ih =>
    obtain ⟨hnode, hnodes⟩ := List.forall_mem_cons.mp h
    rw [unnestRest, if_pos hnode, ih hnodes]
    rfl

/-- A media rule without media rules in it is not split. -/
theorem splitMedia_of_normal {features : Node} {rules : List Node} (hne : rules ≠ [])
    (hmedia : ∀ n ∈ rules, n.isMedia = false) :
    splitMedia features rules = [media features rules] := by
  have hinner : rules.filter (!isMedia ·) = rules :=
    List.filter_eq_self.mpr fun n hn => by rw [hmedia n hn]; rfl
  have houter : rules.filter isMedia = [] :=
    List.filter_eq_nil_iff.mpr fun n hn => by simp [hmedia n hn]
  rw [splitMedia, hinner, houter, if_neg (by simpa using hne)]
  rfl

mutual
/-- **A rule in normal form is left as it is.** -/
theorem unnest_of_normal : ∀ n : Node, n.Normal → n.unnest = [n]
  | ruleset selectors rules root, h => by
    have hown : rules.filter isOwn = rules := List.filter_eq_self.mpr h.2
    rw [unnest, ownRuleset, hown, if_neg (by simpa using h.1), unnestRest_of_isOwn h.2]
    rfl
  | media features rules, h => by
    rw [unnest, unnestAll_of_normal rules h.2.2, splitMedia_of_normal h.1 h.2.1]
  | atRule name header (some rules), h => by rw [unnest, unnestAll_of_normal rules h]
  | atRule _ _ none, _ | dimension _, _ | expression .., _ | list _, _ | paren _, _ | comment .., _
  | keyword _, _ | quoted .., _ | url _, _ | reference .., _ | operation .., _ | negative _, _
  | call .., _ | declaration .., _ | selector _, _ | importRule .., _ | argument .., _ => rfl
/-- Rules in normal form are not changed by taking them apart. -/
theorem unnestAll_of_normal : ∀ rules : List Node, NormalAll rules → unnestAll rules = rules
  | [], _ => rfl
  | node :: nodes, h => by
    rw [unnestAll, unnest_of_normal node h.1, unnestAll_of_normal nodes h.2]
    rfl
end

/-! ## What is kept -/

/-- The queries of two media conditions together are the pairs of a query of one and a query of the
other, in the order of the pairs. -/
theorem queries_bothQueries (outer inner : Node) :
    (bothQueries outer inner).queries =
      (outer.queries.product inner.queries).map fun q => row [q.1, keyword "and", q.2] := by
  rw [List.product, List.map_flatMap]
  simp only [List.map_map, Function.comp_def]
  rfl

/-- A query of two lists joined is a query of each with "and" between them. -/
theorem mem_queries_bothQueries {outer inner q : Node} :
    q ∈ (bothQueries outer inner).queries ↔
      ∃ a ∈ outer.queries, ∃ b ∈ inner.queries, q = row [a, keyword "and", b] := by
  rw [queries_bothQueries, List.mem_map]
  constructor
  · rintro ⟨⟨a, b⟩, hpair, rfl⟩
    obtain ⟨ha, hb⟩ := List.mem_product.mp hpair
    exact ⟨a, ha, b, hb, rfl⟩
  · rintro ⟨a, ha, b, hb, rfl⟩
    exact ⟨(a, b), List.mem_product.mpr ⟨ha, hb⟩, rfl⟩

/-- What holds of two media conditions, and passes to their queries and back, holds of both
together. -/
theorem bothQueries_of {P : Node → Prop} (hlist : ∀ items, P (list items) ↔ ∀ n ∈ items, P n)
    (hrow : ∀ a b, P a → P b → P (row [a, keyword "and", b])) {outer inner : Node} (ho : P outer)
    (hi : P inner) : P (bothQueries outer inner) := by
  have hqueries : ∀ n : Node, P n → ∀ q ∈ n.queries, P q := by
    intro n hn
    cases n with
    | list items => exact (hlist items).mp hn
    | _ => exact List.forall_mem_singleton.mpr hn
  refine (hlist (bothQueries outer inner).queries).mpr fun q hq => ?_
  obtain ⟨a, ha, b, hb, rfl⟩ := mem_queries_bothQueries.mp hq
  exact hrow a b (hqueries outer ho a ha) (hqueries inner hi b hb)

/-- A property of rules that looks at the rules of a block one by one, and at the head of a media
rule in such a way that two heads can become one. -/
structure Rulewise (P : Node → Prop) : Prop where
  ofRuleset : ∀ {selectors rules root}, P (ruleset selectors rules root) → ∀ n ∈ rules, P n
  ruleset : ∀ {selectors rules rules' root}, P (ruleset selectors rules root) →
    (∀ n ∈ rules', P n) →
    P (ruleset selectors rules' root)
  ofMedia : ∀ {features rules}, P (media features rules) → ∀ n ∈ rules, P n
  media : ∀ {features rules rules'}, P (media features rules) → (∀ n ∈ rules', P n) →
    P (media features rules')
  underMedia : ∀ {outer inner rules rules'}, P (Node.media outer rules) →
    P (Node.media inner rules') →
    P (Node.media (bothQueries outer inner) rules')
  ofAtRule : ∀ {name header rules}, P (atRule name header (some rules)) → ∀ n ∈ rules, P n
  atRule : ∀ {name header rules rules'}, P (atRule name header (some rules)) → (∀ n ∈ rules', P n) →
    P (atRule name header (some rules'))

namespace Rulewise

variable {P : Node → Prop}

/-- A property of rules goes over to the parts of a media rule that is split. -/
theorem splitMedia (hP : Rulewise P) {features : Node} {rules rules' : List Node}
    (h : P (Node.media features rules)) (hrules : ∀ n ∈ rules', P n) :
    ∀ n ∈ Node.splitMedia features rules', P n := by
  intro n hn
  rcases List.mem_append.mp hn with hn | hn
  · split at hn
    · cases hn
    · obtain rfl := List.mem_singleton.mp hn
      exact hP.media h fun m hm => hrules m (List.mem_filter.mp hm).1
  · obtain ⟨m, hm, rfl⟩ := List.mem_map.mp hn
    have hm := hrules m (List.mem_filter.mp hm).1
    cases m with
    | media inner rules => exact hP.underMedia h hm
    | _ => exact hm

mutual
/-- **Taking a rule apart keeps what looks at rules one by one.** -/
theorem unnest (hP : Rulewise P) : ∀ n : Node, P n → ∀ m ∈ n.unnest, P m
  | .ruleset selectors rules root, h => by
    intro m hm
    rcases List.mem_append.mp hm with hm | hm
    · rw [ownRuleset] at hm
      split at hm
      · cases hm
      · obtain rfl := List.mem_singleton.mp hm
        exact hP.ruleset h fun k hk => hP.ofRuleset h k (List.mem_filter.mp hk).1
    · exact unnestRest hP rules (hP.ofRuleset h) m hm
  | .media features rules, h => hP.splitMedia h (unnestAll hP rules (hP.ofMedia h))
  | .atRule name header (some rules), h => by
    intro m hm
    obtain rfl := List.mem_singleton.mp hm
    exact hP.atRule h (unnestAll hP rules (hP.ofAtRule h))
  | .mixin .., _ | .mixinCall .., _ => nofun
  | .atRule _ _ none, h | .dimension _, h | .expression .., h | .list _, h | .paren _, h
  | .comment .., h
  | .keyword _, h | .quoted .., h | .url _, h | .reference .., h | .operation .., h | .negative _, h
  | .call .., h | .declaration .., h | .selector _, h | .importRule .., h | .argument .., h =>
    List.forall_mem_singleton.mpr h
/-- A property of rules goes over to what they are taken apart into. -/
theorem unnestAll (hP : Rulewise P) : ∀ rules : List Node, (∀ n ∈ rules, P n) →
    ∀ m ∈ Node.unnestAll rules, P m
  | [], _ => nofun
  | node :: nodes, h => by
    obtain ⟨hnode, hnodes⟩ := List.forall_mem_cons.mp h
    exact List.forall_mem_append.mpr ⟨unnest hP node hnode, unnestAll hP nodes hnodes⟩
theorem unnestRest (hP : Rulewise P) : ∀ rules : List Node, (∀ n ∈ rules, P n) →
    ∀ m ∈ Node.unnestRest rules, P m
  | [], _ => nofun
  | node :: nodes, h => by
    obtain ⟨hnode, hnodes⟩ := List.forall_mem_cons.mp h
    refine List.forall_mem_append.mpr ⟨fun m hm => ?_, unnestRest hP nodes hnodes⟩
    split at hm
    · cases hm
    · exact unnest hP node hnode m hm
end

end Rulewise

end Node

end LessCss
