import LessCss.Proofs.Nesting.Groups
import LessCss.Proofs.Nesting.Shape
import Mathlib.Data.Multiset.Basic

/-!
# Flattened stylesheets

A stylesheet holds declarations and comments, each under the media rules and at-rules around it and
under the selectors of the rule set that it stands in directly.  Media rules in one another, with
nothing but rule sets between them, count as one under all of their conditions.  Read in this way
(`Ruleset.content`), a stylesheet holds the same before and after its nested rules are taken apart
(`Ruleset.content_flatten`).

Afterwards nothing is left that could be taken apart (`Ruleset.flatten_unnested`).

Both are about whole stylesheets that hold only values in the places of values, and no other whole
stylesheet (`Node.Proper`): rules inside of a value are taken apart too, and a stylesheet among the
rules stays whole.
-/

namespace LessCss

/-! ## Adjacent media rules -/

namespace Condition

/-- Whether a condition is a media rule. -/
def isMedia : Condition → Bool
  | media _ => true
  | atRule .. => false

/-- No media rule is directly around another. -/
def Settled (conditions : List Condition) : Prop :=
  conditions.IsChain fun outer inner => outer.isMedia = false ∨ inner.isMedia = false

/-- A condition around settled ones leaves them settled, since it joins the first if need be. -/
theorem Settled.around {conditions : List Condition} (h : Settled conditions) (outer : Condition) :
    Settled (outer.around conditions) := by
  cases conditions with
  | nil => cases outer <;> exact .singleton _
  | cons inner rest =>
    cases outer with
    | atRule name header => exact .cons_cons (.inl rfl) h
    | media features =>
      cases inner with
      | atRule name header => exact .cons_cons (.inr rfl) h
      | media features' =>
        -- the two become one media rule, which differs from the inner one in its condition only
        cases rest with
        | nil => exact .singleton _
        | cons next rest =>
          obtain ⟨hnext, hrest⟩ := List.isChain_cons_cons.mp h
          exact .cons_cons hnext hrest

/-- After adjacent media rules are made one, none is directly around another. -/
theorem settled_settle (conditions : List Condition) : Settled (settle conditions) := by
  induction conditions with
  | nil => exact .nil
  | cons outer rest ih => exact ih.around outer

/-- Settled conditions are left as they are. -/
theorem settle_of_settled {conditions : List Condition} (h : Settled conditions) :
    settle conditions = conditions := by
  induction conditions with
  | nil => rfl
  | cons outer rest ih =>
    cases rest with
    | nil => cases outer <;> rfl
    | cons inner rest =>
      obtain ⟨hpair, hrest⟩ := List.isChain_cons_cons.mp h
      rw [settle, ih hrest]
      cases outer with
      | atRule => rfl
      | media =>
        cases inner with
        | atRule => rfl
        | media => rcases hpair with hpair | hpair <;> cases hpair

end Condition

theorem Group.settled_settled (g : Group) : g.settled.settled = g.settled := by
  have hsettled := Condition.settle_of_settled (Condition.settled_settle g.conditions)
  rw [settled, settled, hsettled]

/-! ## What a stylesheet holds -/

/-- A declaration or comment with the media rules and at-rules around it, the outermost first, and
the selectors, if it stands directly in a rule set. -/
structure Item where
  conditions : List Condition
  selectors : Option (List Selector)
  node : Node

namespace Group

/-- The declarations and comments of a group one by one. -/
def items (g : Group) : List Item := g.own.map fun n => ⟨g.conditions, g.selectors, n⟩

/-- Groups that hold nothing have no items. -/
theorem flatMap_items_filter (groups : List Group) :
    (groups.filter isKept).flatMap items = groups.flatMap items := by
  induction groups with
  | nil => rfl
  | cons g groups ih =>
    by_cases hkept : g.isKept = true
    · rw [List.filter_cons_of_pos hkept, List.flatMap_cons, List.flatMap_cons, ih]
    · have hnone : g.own = [] := by simpa [isKept] using hkept
      rw [List.filter_cons_of_neg hkept, List.flatMap_cons, ih, items, hnone]
      rfl

/-- Groups that are the same up to their order hold the same. -/
theorem Same.items {a b : List Group} (h : Same a b) :
    (a.flatMap items).Perm (b.flatMap items) := by
  rw [← flatMap_items_filter a, ← flatMap_items_filter b]
  exact h.flatMap_right Group.items

end Group

namespace Ruleset

/-- **What a stylesheet holds**: its declarations and comments, each with what is around it,
adjacent media rules being made one.  Their order does not matter, but their number does. -/
def content (r : Ruleset) : Multiset Item :=
  (r.toNode.groups.map Group.settled).flatMap Group.items

/-- **Taking nested rules apart keeps what a stylesheet holds.** -/
theorem content_flatten (r : Ruleset) (hroot : r.root = true) (h : ∀ n ∈ r.rules, n.Proper) :
    r.flatten.content = r.content := by
  have hsame : Group.Same (Node.blockGroups (some r.selectors) (Node.unnestAll r.rules))
      (r.toNode.groups.map Group.settled) := Node.blockGroups_unnestAll r.rules
  have hsettled := hsame.map (f := Group.settled) fun _ => rfl
  have htwice : Group.settled ∘ Group.settled = Group.settled := funext Group.settled_settled
  rw [List.map_map, htwice] at hsettled
  rw [flatten_of_proper hroot h]
  exact Multiset.coe_eq_coe.mpr hsettled.items

/-- Media rules in one another, with a rule set between them that holds a declaration and a mixin
too. -/
def nestedMedia : Ruleset :=
  .ofRules [.media (.keyword "x") [.ruleset [⟨[⟨.none, ".a"⟩], []⟩]
    [.declaration "b" (.keyword "c") false false 0, .mixin ".m" [] none [.comment "d" false],
      .media (.keyword "y") [.declaration "e" (.keyword "f") false false 0]] false]]

/-- All rules of the example are proper. -/
theorem nestedMedia_proper : ∀ n ∈ nestedMedia.rules, n.Proper := by
  simp [nestedMedia, ofRules, Node.Proper, Node.ProperAll, Node.IsValue]

/-- The one rule becomes two, and the two declarations are kept. -/
theorem content_flatten_nestedMedia :
    nestedMedia.root = true ∧ (∀ n ∈ nestedMedia.rules, n.Proper) ∧
    nestedMedia.rules.length = 1 ∧ nestedMedia.flatten.rules.length = 2 ∧
    nestedMedia.content.card = 2 ∧
    nestedMedia.flatten.content = nestedMedia.content :=
  ⟨rfl, nestedMedia_proper, rfl, rfl, rfl, content_flatten nestedMedia rfl nestedMedia_proper⟩

end Ruleset

/-! ## What is left to take apart -/

namespace Node

/-- A rule set holds something, and nothing but declarations and comments; a media rule holds
something, but not directly another one; and mixins and calls of them are not left. -/
def Unnested : Node → Prop
  | ruleset _ rules _ => rules ≠ [] ∧ ∀ n ∈ rules, n.isOwn = true
  | media _ rules => rules ≠ [] ∧ ∀ n ∈ rules, n.isMedia = false
  | mixin .. | mixinCall .. => False
  | _ => True

/-- What is in normal form is unnested. -/
theorem Normal.unnested {n : Node} (h : n.Normal) : n.Unnested := by
  cases n with
  | ruleset => exact h
  | media => exact ⟨h.1, h.2.1⟩
  | mixin | mixinCall => exact h.elim
  | _ => trivial

theorem normal_of_isOwn {n : Node} (h : n.isOwn = true) : n.Normal := by
  cases n with
  | declaration | comment => trivial
  | _ => cases h

/-- A value is in normal form. -/
theorem IsValue.normal {n : Node} (h : n.IsValue) : n.Normal := by
  cases n with
  | comment | declaration | selector | ruleset | atRule | media | importRule | mixin | mixinCall
  | argument =>
    exact h.elim
  | _ => trivial

theorem IsHeader.values {header : Option Node} (h : IsHeader header) :
    ∀ n ∈ header.toList, n.IsValue :=
  fun n hn => h n (Option.mem_toList.mp hn)

/-- A proper node from which nothing has to be taken apart. -/
structure TakenApart (n : Node) : Prop where
  normal : n.Normal
  proper : n.Proper

theorem IsValue.takenApart {n : Node} (h : n.IsValue) : n.TakenApart := ⟨h.normal, h.proper⟩

/-- Nothing has to be taken apart from its parts either. -/
theorem TakenApart.parts {n : Node} (h : n.TakenApart) : ∀ part ∈ n.parts, part.TakenApart := by
  obtain ⟨hnormal, hproper⟩ := h
  cases n with
  | declaration name value | argument name value =>
    exact List.forall_mem_singleton.mpr (IsValue.takenApart hproper)
  | ruleset selectors rules =>
    intro part hpart
    exact ⟨normal_of_isOwn (hnormal.2 part hpart), properAll_iff.mp hproper.2 part hpart⟩
  | media features rules =>
    refine List.forall_mem_cons.mpr ⟨hproper.1.takenApart, fun part hpart => ?_⟩
    exact ⟨normalAll_iff.mp hnormal.2.2 part hpart, properAll_iff.mp hproper.2 part hpart⟩
  | atRule name header rules =>
    refine List.forall_mem_append.mpr
      ⟨fun part hpart => (hproper.1.values part hpart).takenApart, ?_⟩
    cases rules with
    | none => exact nofun
    | some rules =>
      intro part hpart
      exact ⟨normalAll_iff.mp hnormal part hpart, properAll_iff.mp hproper.2 part hpart⟩
  | importRule path features =>
    refine List.forall_mem_cons.mpr ⟨hproper.1.takenApart, fun part hpart => ?_⟩
    exact (hproper.2.values part hpart).takenApart
  | comment | selector => exact nofun
  | mixin | mixinCall => exact hnormal.elim
  | dimension | expression | list | paren | keyword | quoted | url | reference | operation
  | negative
  | call => exact fun part hpart => (IsValue.parts hproper part hpart).takenApart

end Node

namespace Ruleset

/-- **A flattened stylesheet has nothing left to take apart**, at any depth, and flattening it again
leaves it as it is. -/
theorem flatten_unnested (r : Ruleset) (hroot : r.root = true) (h : ∀ n ∈ r.rules, n.Proper) :
    r.flatten.root = true ∧
      (∀ rule ∈ r.flatten.rules, ∀ n : Node, n.OccursIn rule → n.Unnested) ∧
      r.flatten.flatten = r.flatten := by
  have hnormal := Node.normal_unnestAll r.rules
  have hproper := Node.rulewise_proper.unnestAll r.rules h
  rw [flatten_of_proper hroot h]
  refine ⟨rfl, fun rule hrule n hn => ?_, ?_⟩
  · have hapart : rule.TakenApart := ⟨hnormal rule hrule, hproper rule hrule⟩
    exact (hn.inherits (fun _ => Node.TakenApart.parts) hapart).normal.unnested
  · rw [flatten_of_proper rfl hproper, Node.unnestAll_of_normal _ (Node.normalAll_iff.mpr hnormal)]

/-- The inner media rule follows behind the outer one. -/
theorem flatten_unnested_nestedMedia :
    nestedMedia.root = true ∧ (∀ n ∈ nestedMedia.rules, n.Proper) ∧
    nestedMedia.flatten.rules.map Node.isMedia = [true, true] ∧ nestedMedia.flatten.root = true ∧
    (∀ rule ∈ nestedMedia.flatten.rules, ∀ n : Node, n.OccursIn rule → n.Unnested) ∧
    nestedMedia.flatten.flatten = nestedMedia.flatten :=
  ⟨rfl, nestedMedia_proper, rfl, flatten_unnested nestedMedia rfl nestedMedia_proper⟩

end Ruleset

end LessCss
