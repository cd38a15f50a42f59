import LessCss.Proofs.Nesting.ReadRules
import LessCss.Proofs.Selectors.Located

/-!
# The selectors of rule sets

What holds of the selectors of every list that is read holds of the selectors of every rule set in a
stylesheet, wherever it stands: at the top, in the blocks of other rules, and in the rules of mixins
(`Ruleset.headedBy_ofText`).  A list is read off a phrase that occurs in the tree of the text and
that is a row of chains of simple selectors.
-/

namespace LessCss

namespace Node

/-- The selectors of every rule set that lies in a rule have a property. -/
def HeadedBy (S : List Selector → Prop) (n : Node) : Prop :=
  ∀ selectors rules root, (ruleset selectors rules root).LiesIn n → S selectors

/-- In a rule headed by some selectors, the rules of its block are headed so too. -/
theorem HeadedBy.block {S : List Selector → Prop} {n : Node} (h : n.HeadedBy S) {m : Node}
    (hm : m ∈ n.block) :
    m.HeadedBy S := fun selectors rules root hr => h selectors rules root (.block hm hr)

end Node

/-- The parts of a tree with selectors in front of rule sets are such trees. -/
theorem Tree.Selected.child {t u : Tree} (h : t.Selected) (hu : u ∈ t.children) : u.Selected := by
  cases t with
  | leaf x => cases hu
  | node p ts => exact selectedAll_iff.mp h.2 u hu

/-- So are the statements in the blocks of a headed statement. -/
theorem Tree.Headed.inBlock {t u : Tree} (h : t.Headed) (hu : u.InBlock t) : u.Headed := by
  cases hu with
  | rulesetOrMixin hv hu =>
    cases h with
    | rulesetOrMixin _ hparts => exact hparts _ hv _ hu
    | setting h => simp [Tree.phrase?] at h
  | atRule hp hv hu =>
    cases h with
    | atRule hparts => exact hparts _ hv _ hu
    | loading h => rcases hp with rfl | rfl <;> simp [Tree.phrase?] at h
    | setting h => simp [Tree.phrase?] at h

/-- **What holds of the selectors of all lists that are read holds of the selectors of all rule
sets** in a stylesheet that was read. -/
theorem Ruleset.headedBy_ofText {source : String} {sheet : Ruleset}
    (h : Ruleset.ofText source = .ok sheet) {S : List Selector → Prop}
    (hS : ∀ {list : Tree}, list.OccursIn (Parse.ofText source).tree → Tree.Listed list.children →
      (∃ u ∈ list.children, u.phrase?.isSome) → Ensures (Reading.selectors source.toList list) S) :
    ∀ n ∈ sheet.rules, n.HeadedBy S := by
  obtain ⟨-, hclean, -⟩ := exists_of_ofText h
  intro n hn selectors rules root hm
  obtain ⟨t, ⟨hoccurs, hheaded, hselected⟩, hread⟩ := exists_readOff h
    (T := fun t => t.OccursIn (Parse.ofText source).tree ∧ t.Headed ∧ t.Selected)
    (fun t ht =>
      ⟨.inside ht .self, Parse.headed_ofText hclean t ht, Parse.selected_ofText source t ht⟩)
    (fun ⟨hoccurs, hheaded, hselected⟩ hu => ⟨hu.occursIn.trans hoccurs, hheaded.inBlock hu,
      hu.occursIn.inherits (fun _ hv _ => hv.child) hselected⟩) hn hm
  -- the list of selectors in front of what was read
  have hlist {list : Tree} {parts : List Tree} (heq : t = .node .rulesetOrMixin (list :: parts))
      (hheads : Reading.selectors source.toList list = .ok selectors) : S selectors := by
    subst heq
    obtain ⟨_, _, heq, hphrase⟩ := hselected.1 rfl
    cases heq
    cases hheaded with
    | rulesetOrMixin hlist _ => exact hS (hoccurs.child List.mem_cons_self) hlist hphrase _ hheads
    | setting h => simp [Tree.phrase?] at h
  cases hread with
  | extension hheads => exact hlist rfl hheads
  | ruleset hheads _ => exact hlist rfl hheads

/-- A text of one rule set in the block of another one, the selectors of which pass a test. -/
theorem Ruleset.exists_nested (source : String) (test : List Selector → List Selector → Bool)
    (h : (match Ruleset.ofText source with
      | .ok ⟨_, [.ruleset outer [.ruleset inner _ false] false], _⟩ => test outer inner
      | _ => false) = true) :
    ∃ sheet outer inner rules, Ruleset.ofText source = .ok sheet ∧
      sheet.rules = [.ruleset outer [.ruleset inner rules false] false] ∧
        test outer inner = true := by
  split at h
  · next hread => exact ⟨_, _, _, _, hread, rfl, h⟩
  · cases h

end LessCss
