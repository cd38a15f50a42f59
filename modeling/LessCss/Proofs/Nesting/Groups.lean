import LessCss.Proofs.Nesting.NormalForm
import Mathlib.Data.List.Perm.Basic

/-!
# What stands where in a stylesheet

What counts in a stylesheet is which declarations and comments stand together, under which
selectors, and under which media rules and other at-rules.  A *group* holds the declarations and
comments of one block with this; blocks without any do not count.

Taking nested rules apart keeps the groups and only changes their order
(`Node.blockGroups_unnestAll`): no declaration is lost, doubled or moved elsewhere.  Media rules
directly in one another, or with rule sets only between them, become one media rule under both
conditions (`Group.settled`).  That both conditions are meant is seen from when they are met: a list
of media queries is met if one of its queries is, so conditions that are joined are met just if all
of them are (`Condition.holds_settle`).
-/

namespace LessCss

/-- A media rule or another at-rule around a block. -/
inductive Condition
  | media (features : Node)
  | atRule (name : String) (header : Option Node)

/-- The declarations and comments of a block, with the media rules and at-rules around it, the
outermost first, and the selectors, if they stand directly in a rule set. -/
structure Group where
  conditions : List Condition
  selectors : Option (List Selector)
  own : List Node

/-! ## Conditions -/

namespace Condition

/-- Adds a condition around others; a media rule directly around another becomes one with it. -/
def around : Condition → List Condition → List Condition
  | media outer, media inner :: rest => media (Node.bothQueries outer inner) :: rest
  | outer, rest => outer :: rest

/-- Conditions with adjacent media rules made one. -/
def settle : List Condition → List Condition
  | [] => []
  | outer :: rest => around outer (settle rest)

/-- Whether a condition is met, given which media queries and at-rules are: a media rule asks for
one of its queries. -/
def Holds (query : Node → Prop) (rule : String → Option Node → Prop) : Condition → Prop
  | media features => ∃ q ∈ features.queries, query q
  | atRule name header => rule name header

section Holds

variable {query : Node → Prop} {rule : String → Option Node → Prop}
  (hand : ∀ a b, query (Node.row [a, .keyword "and", b]) ↔ query a ∧ query b)

include hand

/-- Two media conditions are both met just if the one that joins them is. -/
theorem holds_bothQueries (outer inner : Node) :
    (media (Node.bothQueries outer inner)).Holds query rule ↔
      (media outer).Holds query rule ∧ (media inner).Holds query rule := by
  constructor
  · rintro ⟨q, hq, hholds⟩
    obtain ⟨a, ha, b, hb, rfl⟩ := Node.mem_queries_bothQueries.mp hq
    obtain ⟨hholdsa, hholdsb⟩ := (hand a b).mp hholds
    exact ⟨⟨a, ha, hholdsa⟩, b, hb, hholdsb⟩
  · rintro ⟨⟨a, ha, hholdsa⟩, b, hb, hholdsb⟩
    exact ⟨_, Node.mem_queries_bothQueries.mpr ⟨a, ha, b, hb, rfl⟩,
      (hand a b).mpr ⟨hholdsa, hholdsb⟩⟩

/-- A condition put around others is met with them just if it is met and they are. -/
theorem holds_around (outer : Condition) (rest : List Condition) :
    (∀ c ∈ around outer rest, c.Holds query rule) ↔
      outer.Holds query rule ∧ ∀ c ∈ rest, c.Holds query rule := by
  unfold around
  split
  · rw [List.forall_mem_cons, List.forall_mem_cons, holds_bothQueries hand, and_assoc]
  · exact List.forall_mem_cons

/-- **Making adjacent media rules one changes nothing about when a block counts.** -/
theorem holds_settle (conditions : List Condition) :
    (∀ c ∈ settle conditions, c.Holds query rule) ↔ ∀ c ∈ conditions, c.Holds query rule := by
  induction conditions with
  | nil => rfl
  | cons outer rest ih => rw [settle, holds_around hand, ih, List.forall_mem_cons]

end Holds

end Condition

namespace Group

/-- A group inside of a media rule or at-rule. -/
def under (outer : Condition) (g : Group) : Group := { g with conditions := outer :: g.conditions }

/-- A group inside of a media rule or at-rule, adjacent media rules being made one. -/
def around (outer : Condition) (g : Group) : Group :=
  { g with conditions := outer.around g.conditions }

/-- A group with adjacent media rules made one. -/
def settled (g : Group) : Group := { g with conditions := Condition.settle g.conditions }

/-- Whether a group holds anything. -/
def isKept (g : Group) : Bool := !g.own.isEmpty

/-- The groups of two readings are the same, up to their order and to groups that hold nothing. -/
def Same (a b : List Group) : Prop := (a.filter isKept).Perm (b.filter isKept)

namespace Same

variable {a b c a' b' : List Group}

theorem refl (a : List Group) : Same a a := List.Perm.refl _

theorem trans (h : Same a b) (h' : Same b c) : Same a c := List.Perm.trans h h'

theorem symm (h : Same a b) : Same b a := List.Perm.symm h

/-- Groups in another order are the same. -/
theorem of_perm (h : a.Perm b) : Same a b := h.filter _

/-- Groups side by side are the same if they are on each side. -/
theorem append (h : Same a b) (h' : Same a' b') : Same (a ++ a') (b ++ b') := by
  unfold Same
  rw [List.filter_append, List.filter_append]
  exact List.Perm.append h h'

theorem cons (g : Group) (h : Same a b) : Same (g :: a) (g :: b) := append (refl [g]) h

/-- A group that holds nothing may be left out. -/
theorem skip {g : Group} (hg : g.own = []) (a : List Group) : Same (g :: a) a := by
  unfold Same
  rw [List.filter_cons_of_neg (by simp [isKept, hg])]

/-- Changes of where groups stand keep what they hold. -/
theorem map {f : Group → Group} (hf : ∀ g, (f g).own = g.own) (h : Same a b) :
    Same (a.map f) (b.map f) := by
  have hkept : isKept ∘ f = isKept := by
    funext g
    simp [isKept, hf]
  unfold Same
  rw [List.filter_map, List.filter_map, hkept]
  exact List.Perm.map f h

end Same

end Group

/-! ## Reading stylesheets -/

namespace Node

mutual
/-- The groups inside of a rule. -/
def groups : Node → List Group
  | ruleset selectors rules _ => ⟨[], some selectors, rules.filter isOwn⟩ :: groupsAll rules
  | media features rules =>
    (⟨[], none, rules.filter isOwn⟩ :: groupsAll rules).map (Group.under (.media features))
  | atRule name header (some rules) =>
    (⟨[], none, rules.filter isOwn⟩ :: groupsAll rules).map (Group.under (.atRule name header))
  | _ => []
/-- The groups inside of the rules of a block. -/
def groupsAll : List Node → List Group
  | [] => []
  | node :: nodes => groups node ++ groupsAll nodes
end

/-- The groups of a block: what stands in it directly, and what is inside of its rules. -/
def blockGroups (selectors : Option (List Selector)) (rules : List Node) : List Group :=
  ⟨[], selectors, rules.filter isOwn⟩ :: groupsAll rules

/-- The groups of a row are those of its rules. -/
theorem groupsAll_eq_flatMap (rules : List Node) : groupsAll rules = rules.flatMap groups := by
  induction rules with
  | nil => rfl
  | cons node nodes ih => rw [groupsAll, ih, List.flatMap_cons]

theorem groupsAll_append (a b : List Node) : groupsAll (a ++ b) = groupsAll a ++ groupsAll b := by
  simp only [groupsAll_eq_flatMap, List.flatMap_append]

/-- A declaration or comment has no groups of its own. -/
theorem groups_of_isOwn {n : Node} (h : n.isOwn = true) : n.groups = [] := by
  cases n with
  | declaration | comment => rfl
  | _ => cases h

theorem groupsAll_of_isOwn {rules : List Node} (h : ∀ n ∈ rules, n.isOwn = true) :
    groupsAll rules = [] := by
  rw [groupsAll_eq_flatMap]
  exact List.flatMap_eq_nil_iff.mpr fun n hn => groups_of_isOwn (h n hn)

/-! ## Taking rules apart -/

theorem not_isOwn_of_isMedia {n : Node} (h : n.isMedia = true) : n.isOwn = false := by
  cases n with
  | media => rfl
  | _ => cases h

/-- The rules behind a media rule that was split, and the rule itself, are media rules. -/
theorem isMedia_of_mem_splitMedia {features : Node} {rules : List Node} {n : Node}
    (h : n ∈ splitMedia features rules) : n.isMedia = true := by
  rcases List.mem_append.mp h with h | h
  · split at h
    · cases h
    · exact List.mem_singleton.mp h ▸ rfl
  · obtain ⟨m, hm, rfl⟩ := List.mem_map.mp h
    have hmedia := (List.mem_filter.mp hm).2
    cases m with
    | media => rfl
    | _ => cases hmedia

mutual
/-- A declaration or comment is left where it is, and no others appear. -/
theorem filter_isOwn_unnest (n : Node) : n.unnest.filter isOwn = [n].filter isOwn := by
  cases n with
  | ruleset selectors rules root =>
    have hown : (ownRuleset selectors rules root).filter isOwn = [] := by
      unfold ownRuleset
      dsimp only
      split <;> rfl
    rw [unnest, List.filter_append, hown, filter_isOwn_unnestRest rules]
    rfl
  | media features rules =>
    refine List.filter_eq_nil_iff.mpr fun m hm => ?_
    simp [not_isOwn_of_isMedia (isMedia_of_mem_splitMedia hm)]
  | atRule name header rules => cases rules <;> rfl
  | _ => rfl
/-- Taking rules apart leaves the declarations and comments that stand directly among them, in
order. -/
theorem filter_isOwn_unnestAll (rules : List Node) :
    (unnestAll rules).filter isOwn = rules.filter isOwn := by
  cases rules with
  | nil => rfl
  | cons node nodes =>
    rw [unnestAll, List.filter_append, filter_isOwn_unnest node, filter_isOwn_unnestAll nodes,
      ← List.filter_append]
    rfl
/-- What has to be taken out of rules has no declarations or comments among it. -/
theorem filter_isOwn_unnestRest (rules : List Node) : (unnestRest rules).filter isOwn = [] := by
  cases rules with
  | nil => rfl
  | cons node nodes =>
    rw [unnestRest, List.filter_append, filter_isOwn_unnestRest nodes]
    split
    · rfl
    · next hown =>
      rw [filter_isOwn_unnest node]
      simp [hown]
end

mutual
/-- No rule set in a rule holds anything but declarations and comments. -/
def Flat : Node → Prop
  | ruleset _ rules _ => ∀ n ∈ rules, n.isOwn = true
  | media _ rules => FlatAll rules
  | atRule _ _ (some rules) => FlatAll rules
  | _ => True
/-- The same for a row of rules. -/
def FlatAll : List Node → Prop
  | [] => True
  | node :: nodes => Flat node ∧ FlatAll nodes
end

theorem flatAll_iff {rules : List Node} : FlatAll rules ↔ ∀ n ∈ rules, n.Flat := by
  induction rules with
  | nil => simp [FlatAll]
  | cons node nodes ih => simp [FlatAll, ih]

mutual
/-- A rule in normal form is flat. -/
theorem Normal.flat : ∀ {n : Node}, n.Normal → n.Flat
  | ruleset .., h => h.2
  | media .., h => NormalAll.flatAll h.2.2
  | atRule _ _ (some _), h => NormalAll.flatAll h
  | atRule _ _ none, _ | dimension _, _ | expression .., _ | list _, _ | paren _, _ | comment .., _
  | keyword _, _ | quoted .., _ | url _, _ | reference .., _ | operation .., _ | negative _, _
  | call .., _ | declaration .., _ | selector _, _ | importRule .., _ | argument .., _ => trivial
theorem NormalAll.flatAll : ∀ {rules : List Node}, NormalAll rules → FlatAll rules
  | [], _ => trivial
  | _ :: _, h => ⟨h.1.flat, h.2.flatAll⟩
end

/-- Rule sets that are taken apart hold only declarations and comments. -/
theorem flat_unnestAll (rules : List Node) : ∀ m ∈ unnestAll rules, m.Flat :=
  fun m hm => (normal_unnestAll rules m hm).flat

/-- A flat rule that is no media rule has none directly around its groups either. -/
theorem around_eq_under {n : Node} (h : n.Flat) (hmedia : n.isMedia = false) {g : Group}
    (hg : g ∈ n.groups) (outer : Node) : g.around (.media outer) = g.under (.media outer) := by
  cases n with
  | ruleset selectors rules root =>
    rw [groups, groupsAll_of_isOwn h] at hg
    obtain rfl := List.mem_singleton.mp hg
    rfl
  | media => cases hmedia
  | atRule name header rules =>
    cases rules with
    | none => cases hg
    | some rules =>
      obtain ⟨g, -, rfl⟩ := List.mem_map.mp hg
      rfl
  | _ => cases hg

/-- A media rule under a further condition. -/
theorem groups_underMedia {n : Node} (h : n.isMedia = true) (outer : Node) :
    (underMedia outer n).groups = n.groups.map (Group.around (.media outer)) := by
  cases n with
  | media inner rules =>
    simp only [underMedia, groups, List.map_map]
    rfl
  | _ => cases h

/-- Putting media rules under another one makes two one in each group. -/
theorem groupsAll_map_underMedia {rules : List Node} (h : ∀ n ∈ rules, n.isMedia = true)
    (outer : Node) :
    groupsAll (rules.map (underMedia outer)) =
      (groupsAll rules).map (Group.around (.media outer)) := by
  induction rules with
  | nil => rfl
  | cons node nodes ih =>
    obtain ⟨hnode, hnodes⟩ := List.forall_mem_cons.mp h
    rw [List.map_cons, groupsAll, groupsAll, List.map_append, groups_underMedia hnode, ih hnodes]

/-- Around flat rules that are no media rules a media rule stays by itself. -/
theorem map_around_of_flat {rules : List Node} (hmedia : ∀ n ∈ rules, n.isMedia = false)
    (h : ∀ n ∈ rules, n.Flat) (outer : Node) :
    (groupsAll rules).map (Group.under (.media outer)) =
      (groupsAll rules).map (Group.around (.media outer)) := by
  refine List.map_congr_left fun g hg => ?_
  rw [groupsAll_eq_flatMap] at hg
  obtain ⟨n, hn, hg⟩ := List.mem_flatMap.mp hg
  exact (around_eq_under (h n hn) (hmedia n hn) hg outer).symm

/-- Splitting a media rule keeps its groups: those of media rules inside of it come under both
conditions, and all others stay under the one. -/
theorem groupsAll_splitMedia {features : Node} {rules : List Node} (h : ∀ n ∈ rules, n.Flat) :
    Group.Same (groupsAll (splitMedia features rules))
      ((blockGroups none rules).map (Group.around (.media features))) := by
  have hinner : Group.Same
      (groupsAll (if (rules.filter (!isMedia ·)).isEmpty then []
        else [media features (rules.filter (!isMedia ·))]))
      ((blockGroups none (rules.filter (!isMedia ·))).map (Group.under (.media features))) := by
    split
    · next hempty =>
      rw [List.isEmpty_iff.mp hempty]
      exact (Group.Same.skip rfl []).symm
    · rw [groupsAll, groupsAll, List.append_nil]
      exact .refl _
  have hown : (rules.filter (!isMedia ·)).filter isOwn = rules.filter isOwn := by
    rw [List.filter_filter]
    refine List.filter_congr fun n _ => ?_
    cases hmedia : n.isMedia with
    | true => rw [not_isOwn_of_isMedia hmedia]; rfl
    | false => simp
  have hparts : (groupsAll (rules.filter (!isMedia ·)) ++ groupsAll (rules.filter isMedia)).Perm
      (groupsAll rules) := by
    rw [← groupsAll_append, groupsAll_eq_flatMap, groupsAll_eq_flatMap]
    exact List.Perm.flatMap_right _
      (List.perm_append_comm.trans (List.filter_append_perm isMedia rules))
  have hnot : ∀ n ∈ rules.filter (!isMedia ·), n.isMedia = false := by
    intro n hn
    simpa using (List.mem_filter.mp hn).2
  unfold splitMedia
  dsimp only
  rw [groupsAll_append, groupsAll_map_underMedia fun n hn => (List.mem_filter.mp hn).2]
  refine (hinner.append (.refl _)).trans ?_
  rw [blockGroups, blockGroups, List.map_cons, List.map_cons, hown,
    map_around_of_flat hnot (fun n hn => h n (List.mem_filter.mp hn).1), List.cons_append,
    ← List.map_append]
  exact .cons _ (.of_perm (hparts.map _))

mutual
/-- Taking a rule apart keeps its groups. -/
theorem groupsAll_unnest : ∀ n : Node, Group.Same (groupsAll n.unnest) (n.groups.map Group.settled)
  | ruleset selectors rules root => by
    have hown : Group.Same (groupsAll (ownRuleset selectors rules root))
        [⟨[], some selectors, rules.filter isOwn⟩] := by
      unfold ownRuleset
      dsimp only
      split
      · next hempty => exact (Group.Same.skip (List.isEmpty_iff.mp hempty) []).symm
      · rw [groupsAll, groups, groupsAll_of_isOwn fun n hn => (List.mem_filter.mp hn).2]
        rw [List.filter_filter]
        simp only [Bool.and_self]
        exact .refl _
    rw [unnest, groupsAll_append, groups, List.map_cons]
    exact hown.append (groupsAll_unnestRest rules)
  | media features rules => by
    refine (groupsAll_splitMedia (flat_unnestAll rules)).trans ?_
    rw [groups, List.map_map, blockGroups, filter_isOwn_unnestAll, List.map_cons, List.map_cons]
    refine .cons _ ?_
    have hinside := (groupsAll_unnestAll rules).map
      (f := Group.around (.media features)) (fun _ => rfl)
    rwa [List.map_map] at hinside
  | atRule name header (some rules) => by
    rw [unnest, groupsAll, groupsAll, List.append_nil, groups, groups, filter_isOwn_unnestAll]
    rw [List.map_map, List.map_cons, List.map_cons]
    refine .cons _ ?_
    have hinside := (groupsAll_unnestAll rules).map
      (f := Group.under (.atRule name header)) (fun _ => rfl)
    rwa [List.map_map] at hinside
  | atRule _ _ none | mixin .. | mixinCall .. | dimension _ | expression .. | list _ | paren _
  | comment .. | keyword _ | quoted .. | url _ | reference .. | operation .. | negative _ | call ..
  | declaration .. | selector _ | importRule .. | argument .. => .refl []
/-- **Taking rules apart keeps their groups**, with adjacent media rules made one. -/
theorem groupsAll_unnestAll : ∀ rules : List Node,
    Group.Same (groupsAll (unnestAll rules)) ((groupsAll rules).map Group.settled)
  | [] => .refl []
  | node :: nodes => by
    rw [unnestAll, groupsAll_append, groupsAll, List.map_append]
    exact (groupsAll_unnest node).append (groupsAll_unnestAll nodes)
/-- So does taking out of rules what has to be taken out. -/
theorem groupsAll_unnestRest : ∀ rules : List Node,
    Group.Same (groupsAll (unnestRest rules)) ((groupsAll rules).map Group.settled)
  | [] => .refl []
  | node :: nodes => by
    rw [unnestRest, groupsAll_append, groupsAll, List.map_append]
    refine .append ?_ (groupsAll_unnestRest nodes)
    split
    · next hown =>
      rw [groups_of_isOwn hown]
      exact .refl []
    · exact groupsAll_unnest node
end

/-- **Taking the rules of a block apart keeps what stands where.** -/
theorem blockGroups_unnestAll {selectors : Option (List Selector)} (rules : List Node) :
    Group.Same (blockGroups selectors (unnestAll rules))
      ((blockGroups selectors rules).map Group.settled) := by
  rw [blockGroups, blockGroups, filter_isOwn_unnestAll, List.map_cons]
  exact .cons _ (groupsAll_unnestAll rules)

end Node

end LessCss
