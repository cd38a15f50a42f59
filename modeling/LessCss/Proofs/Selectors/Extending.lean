import LessCss.Proofs.Evaluation.Leftovers
import Mathlib.Data.List.Forall2

/-!
# What resolving extensions adds

Resolving the extensions of an evaluated stylesheet changes nothing but the lists of selectors of
its rule sets, and to each of them it only adds at the end (`Node.Alters`).  What it adds is what
some clause in the stylesheet asks for (`Node.Asked`), each text once and only where it is not there
yet; and whatever a clause asks for is there afterwards (`Node.Extended`, `Ruleset.extend_exact`).

Clauses find their targets by text, so the clauses are collected first (`Extension.mem_ofNode_iff`),
and then they are tried on the texts of the selectors of each rule set.
-/

namespace LessCss

namespace Node

/-! ## The selectors of a node and everything else -/

/-- The selectors of a rule set; other nodes have none. -/
def selectors : Node → List Selector
  | ruleset selectors _ _ => selectors
  | _ => []

/-- What there is to a node apart from its selectors and its parts. -/
def label : Node → Node
  | expression _ parens operand tight => expression [] parens operand tight
  | list _ => list []
  | paren _ => paren (list [])
  | operation op _ _ spaced offset => operation op (list []) (list []) spaced offset
  | negative _ => negative (list [])
  | call name _ offset => call name [] offset
  | declaration name _ important isVariable offset =>
    declaration name (list []) important isVariable offset
  | ruleset _ _ root => ruleset [] [] root
  | atRule name header rules => atRule name (header.map fun _ => list []) (rules.map fun _ => [])
  | media _ _ => media (list []) []
  | importRule _ features options => importRule (list []) (features.map fun _ => list []) options
  | mixinCall name _ important offset => mixinCall name [] important offset
  | argument name _ => argument name (list [])
  | n => n

/-- A node is made up of its label, its selectors and its parts. -/
theorem eq_of_label_eq {n n' : Node} (hlabel : n'.label = n.label)
    (hselectors : n'.selectors = n.selectors) (hparts : n'.parts = n.parts) : n' = n := by
  cases n <;> cases n'
  case atRule.atRule name header rules name' header' rules' =>
    cases header <;> cases header' <;> cases rules <;> cases rules' <;> simp_all [label, parts]
  case importRule.importRule path features options path' features' options' =>
    cases features <;> cases features' <;> simp_all [label, parts]
  all_goals first | (cases hlabel; done) | simp_all [label, selectors, parts]

/-- A node is made into another one by changing the selectors of its rule sets, at any depth, and
nothing else. -/
inductive Alters (R : List Selector → List Selector → Prop) : Node → Node → Prop
  | intro {n n' : Node} (label : n'.label = n.label) (selectors : R n.selectors n'.selectors)
    (parts : List.Forall₂ (Alters R) n.parts n'.parts) : Alters R n n'

/-- Where no selectors change, nothing does. -/
theorem Alters.eq {R : List Selector → List Selector → Prop} (hR : ∀ old new, R old new → old = new)
    {n n' : Node} (h : n.Alters R n') : n = n' := by
  induction n using induction_parts generalizing n' with
  | step n ih =>
    obtain ⟨hlabel, hselectors, hparts⟩ := h
    have hsame : List.Forall₂ (fun part part' => part = part') n.parts n'.parts :=
      ((List.forall₂_and_left _ _).mpr ⟨ih, hparts⟩).imp fun part part' h => h.1 h.2
    rw [List.forall₂_eq_eq_eq] at hsame
    exact (eq_of_label_eq hlabel (hR _ _ hselectors).symm hsame.symm).symm

/-! ## Changing the selectors of all rule sets -/

/-- Changing the selectors of a row is changing those of each node. -/
theorem mapSelectorsAll_eq_map (f : List Selector → List Selector) (nodes : List Node) :
    mapSelectorsAll f nodes = nodes.map (mapSelectors f) := by
  induction nodes with
  | nil => rfl
  | cons node nodes ih => rw [mapSelectorsAll, ih, List.map_cons]

theorem mapSelectorsHeader_eq_map (f : List Selector → List Selector) (header : Option Node) :
    mapSelectorsHeader f header = header.map (mapSelectors f) := by
  cases header <;> rfl

theorem mapSelectorsBlock_eq_map (f : List Selector → List Selector) (rules : Option (List Node)) :
    mapSelectorsBlock f rules = rules.map (List.map (mapSelectors f)) := by
  cases rules with
  | none => rfl
  | some rules => rw [mapSelectorsBlock, mapSelectorsAll_eq_map, Option.map_some]

variable {f : List Selector → List Selector}

/-- Changing selectors leaves what else there is to a node. -/
theorem label_mapSelectors (n : Node) (h : n.Plain) : (mapSelectors f n).label = n.label := by
  cases n with
  | atRule name header rules =>
    cases header <;> cases rules <;> rfl
  | importRule path features options =>
    cases features <;> rfl
  | mixin => exact h.elim
  | _ => rfl

/-- The selectors of a node are changed, and there are still none if there were none. -/
theorem selectors_mapSelectors (hf : f [] = []) (n : Node) :
    (mapSelectors f n).selectors = f n.selectors := by
  cases n with
  | ruleset => rfl
  | _ => exact hf.symm

/-- The parts of a plain node have their selectors changed as well. -/
theorem parts_mapSelectors (n : Node) (h : n.Plain) :
    (mapSelectors f n).parts = n.parts.map (mapSelectors f) := by
  cases n with
  | mixin => exact h.elim
  | atRule name header rules =>
    cases rules <;> simp [mapSelectors, parts, mapSelectorsHeader_eq_map, mapSelectorsBlock_eq_map,
      Option.toList_map]
  | _ =>
    simp [mapSelectors, parts, mapSelectorsAll_eq_map, mapSelectorsHeader_eq_map, Option.toList_map]

/-- So have the rules of its block. -/
theorem block_mapSelectors (n : Node) :
    (mapSelectors f n).block = n.block.map (mapSelectors f) := by
  cases n with
  | ruleset | media | mixin => exact mapSelectorsAll_eq_map f _
  | atRule name header rules =>
    cases rules with
    | none => rfl
    | some rules => exact mapSelectorsAll_eq_map f rules
  | _ => rfl

/-- **A change of the selectors of all rule sets changes nothing else.** -/
theorem alters_mapSelectors (hf : f [] = []) {R : List Selector → List Selector → Prop}
    (hR : ∀ old, R old (f old)) (n : Node) (h : n.Plain) : n.Alters R (mapSelectors f n) := by
  induction n using induction_parts with
  | step n ih =>
    refine ⟨label_mapSelectors n h, ?_, ?_⟩
    · rw [selectors_mapSelectors hf]
      exact hR _
    · rw [parts_mapSelectors n h, List.forall₂_map_right_iff, List.forall₂_same]
      exact fun part hpart => ih part hpart (h.parts part hpart)

end Node

namespace Extension

/-! ## The clauses of a stylesheet -/

/-- The extensions asked for in a row are those of its nodes, one after the other. -/
theorem ofNodes_eq_flatMap (nodes : List Node) : ofNodes nodes = nodes.flatMap ofNode := by
  induction nodes with
  | nil => rfl
  | cons node nodes ih => rw [ofNodes, ih, List.flatMap_cons]

theorem ofHeader_eq_flatMap (header : Option Node) :
    ofHeader header = header.toList.flatMap ofNode := by
  cases header <;> simp [ofHeader]

theorem ofBlock_eq_flatMap (rules : Option (List Node)) :
    ofBlock rules = (rules.getD []).flatMap ofNode := by
  cases rules with
  | none => rfl
  | some rules => exact ofNodes_eq_flatMap rules

/-- The extensions asked for in a plain node are those of its own selectors and of its parts. -/
theorem ofNode_eq (n : Node) (h : n.Plain) :
    ofNode n = ofSelectors n.selectors ++ n.parts.flatMap ofNode := by
  cases n with
  | mixin => exact h.elim
  | _ =>
    simp [ofNode, Node.selectors, Node.parts, ofSelectors, ofNodes_eq_flatMap, ofHeader_eq_flatMap,
      ofBlock_eq_flatMap]

/-- The clauses of a node are those of the rule sets that occur in it. -/
theorem mem_ofNode_iff {x : Extension} (n : Node) (h : n.Plain) :
    x ∈ ofNode n ↔ ∃ m : Node, m.OccursIn n ∧ x ∈ ofSelectors m.selectors := by
  induction n using Node.induction_parts with
  | step n ih =>
    rw [ofNode_eq n h, List.mem_append, List.mem_flatMap]
    constructor
    · rintro (hx | ⟨part, hpart, hx⟩)
      · exact ⟨n, .self, hx⟩
      · obtain ⟨m, hm, hx⟩ := (ih part hpart (h.parts part hpart)).mp hx
        exact ⟨m, .inside hpart hm, hx⟩
    · rintro ⟨m, hm, hx⟩
      cases hm with
      | self => exact .inl hx
      | inside hpart hm => exact .inr ⟨_, hpart, (ih _ hpart (h.parts _ hpart)).mpr ⟨m, hm, hx⟩⟩

end Extension

namespace Node

/-- A selector of some rule set in a node has a clause: the target, and whether it counts inside of
longer selectors. -/
def HasClause (root : Node) (e : Selector) (clause : Selector × Bool) : Prop :=
  ∃ m : Node, m.OccursIn root ∧ e ∈ m.selectors ∧ clause ∈ e.extending

/-- The extensions asked for in a plain node are those of its clauses. -/
theorem mem_ofNode_iff_hasClause {root : Node} (h : root.Plain) {x : Extension} :
    x ∈ Extension.ofNode root ↔
      ∃ e clause, root.HasClause e clause ∧
      x = ⟨.ofElements e.elements, clause.1.text false, clause.2⟩ := by
  rw [Extension.mem_ofNode_iff root h]
  constructor
  · rintro ⟨m, hm, hx⟩
    obtain ⟨e, he, hx⟩ := List.mem_flatMap.mp hx
    obtain ⟨clause, hclause, rfl⟩ := List.mem_map.mp hx
    exact ⟨e, clause, ⟨m, hm, he, hclause⟩, rfl⟩
  · rintro ⟨e, clause, ⟨m, hm, he, hclause⟩, rfl⟩
    exact ⟨m, hm, List.mem_flatMap.mpr ⟨e, he, List.mem_map.mpr ⟨clause, hclause, rfl⟩⟩⟩

/-! ## What is asked for -/

/-- A clause somewhere in a node asks for a selector to be added to some others, if one of these has
the text of the target: that is the extending selector without its clauses.  A clause for longer
selectors asks for it as well where the target stands as a whole in the text of one of them; there
it stands in for the target. -/
inductive Asked (root : Node) (old : List Selector) : Selector → Prop
  | exact {e target : Selector} {all : Bool} {s : Selector}
    (clause : root.HasClause e (target, all)) (hit : s ∈ old)
    (same : s.text false = target.text false) : Asked root old (.ofElements e.elements)
  | within {e target s : Selector} {text : String} (clause : root.HasClause e (target, true))
    (hit : s ∈ old)
    (replaced : Extension.replaceWhole? (s.text false) (target.text false) (e.text false) =
      some text) :
    Asked root old (.ofElements [⟨.none, text⟩])

/-- Selectors are added behind others: each is asked for, each has a text that is not there before,
and of whatever is asked for the text is there afterwards. -/
structure Extended (root : Node) (old added : List Selector) : Prop where
  asked : ∀ a ∈ added, root.Asked old a
  distinct : (added.map (Selector.text false)).Nodup
  fresh : ∀ a ∈ added, ∀ s ∈ old, a.text false ≠ s.text false
  complete : ∀ a, root.Asked old a → ∃ s ∈ old ++ added, s.text false = a.text false

end Node

namespace Extension

/-! ## Adding selectors -/

/-- Adding new selectors adds some of them at the end, with texts that differ from one another and
are not there before, so that all texts are there afterwards. -/
theorem addNew_spec (selectors ss : List Selector) :
    ∃ added, addNew selectors ss = selectors ++ added ∧ added ⊆ ss ∧
    (added.map (Selector.text false)).Nodup ∧
    (∀ a ∈ added, ∀ s ∈ selectors, a.text false ≠ s.text false) ∧
    ∀ s ∈ ss, ∃ t ∈ selectors ++ added, t.text false = s.text false := by
  induction ss generalizing selectors with
  | nil => exact ⟨[], by simp [addNew]⟩
  | cons s ss ih =>
    rw [addNew]
    split
    · next hthere =>
      obtain ⟨added, heq, hsub, hnodup, hfresh, hall⟩ := ih selectors
      refine ⟨added, heq, fun a ha => List.mem_cons_of_mem _ (hsub ha), hnodup, hfresh, ?_⟩
      obtain ⟨t, ht, htext⟩ := List.mem_map.mp (List.contains_iff_mem.mp hthere)
      exact List.forall_mem_cons.mpr ⟨⟨t, List.mem_append_left _ ht, htext⟩, hall⟩
    · next hnew =>
      obtain ⟨added, heq, hsub, hnodup, hfresh, hall⟩ := ih (selectors ++ [s])
      have hs : s ∈ selectors ++ [s] := List.mem_append_right _ List.mem_cons_self
      rw [List.append_assoc, List.singleton_append] at heq hall
      refine ⟨s :: added, heq, List.cons_subset_cons s hsub, ?_, ?_, ?_⟩
      · rw [List.map_cons, List.nodup_cons]
        refine ⟨fun hmem => ?_, hnodup⟩
        obtain ⟨a, ha, htext⟩ := List.mem_map.mp hmem
        exact hfresh a ha s hs htext
      · refine List.forall_mem_cons.mpr ⟨fun t ht htext => hnew ?_, fun a ha t ht => ?_⟩
        · exact List.contains_iff_mem.mpr (htext ▸ List.mem_map_of_mem ht)
        · exact hfresh a ha t (List.mem_append_left _ ht)
      · exact List.forall_mem_cons.mpr ⟨⟨s, by simp, rfl⟩, hall⟩

/-- What belongs to a match that is replaced is left out. -/
theorem replaceFrom_ahead {target replacement : List Char} :
    ∀ {cs : List Char} {before : Option Char} {ahead : Nat},
    cs.length ≤ ahead → replaceFrom target replacement before ahead false cs = (false, [])
  | [], _, _, _ => by rw [replaceFrom]
  | c :: cs, _, ahead + 1, h => by
    rw [replaceFrom, replaceFrom_ahead (Nat.le_of_succ_le_succ h)]
    rfl

/-- A text that is the target itself is replaced as a whole. -/
theorem replaceWhole?_self {target replacement text : String}
    (h : replaceWhole? target target replacement = some text) : text = replacement := by
  unfold replaceWhole? at h
  split at h
  · cases h
  · next hne =>
    cases htarget : target.toList with
    | nil => exact absurd (by simpa using htarget) hne
    | cons c cs =>
      have hprefix : (c :: cs).isPrefixOf (c :: cs) = true :=
        List.isPrefixOf_iff_prefix.mpr (List.prefix_refl _)
      have hwhole : isWhole (c :: cs) none ((c :: cs).drop (c :: cs).length).head? = true := by
        simp [isWhole, goesOn]
      have hmatch : cs.length ≤ (c :: cs).length - 1 := Nat.le_refl _
      rw [htarget, replaceFrom, if_pos hprefix, if_pos hwhole, replaceFrom_ahead hmatch] at h
      simpa using h.symm

/-- What is asked for is what the clauses add, as far as its text is concerned. -/
theorem asked_of_added {root : Node} (hroot : root.Plain) {old : List Selector} {x : Extension}
    {s a : Selector} (hx : x ∈ ofNode root) (hs : s ∈ old) (ha : x.added? (s.text false) = some a) :
    root.Asked old a := by
  obtain ⟨e, ⟨target, all⟩, hclause, rfl⟩ := (Node.mem_ofNode_iff_hasClause hroot).mp hx
  unfold added? at ha
  split at ha
  · next hsame =>
    cases ha
    exact .exact hclause hs hsame
  · split at ha
    · next hall =>
      cases hall
      obtain ⟨text, hreplaced, rfl⟩ := Option.map_eq_some_iff.mp ha
      exact .within hclause hs hreplaced
    · cases ha

/-- What is asked for is added by one of the extensions. -/
theorem added_of_asked {root : Node} (hroot : root.Plain) {old : List Selector} {a : Selector}
    (h : root.Asked old a) :
    ∃ x ∈ ofNode root, ∃ s ∈ old, ∃ t, x.added? (s.text false) = some t ∧
    t.text false = a.text false := by
  cases h with
  | @exact e target all s hclause hs hsame =>
    refine ⟨_, (Node.mem_ofNode_iff_hasClause hroot).mpr ⟨e, _, hclause, rfl⟩, s, hs,
      .ofElements e.elements, ?_, rfl⟩
    rw [added?, if_pos hsame]
  | @within e target s text hclause hs hreplaced =>
    refine ⟨_, (Node.mem_ofNode_iff_hasClause hroot).mpr ⟨e, _, hclause, rfl⟩, s, hs, ?_⟩
    by_cases hsame : s.text false = target.text false
    · rw [hsame] at hreplaced
      refine ⟨.ofElements e.elements, by rw [added?, if_pos hsame], ?_⟩
      rw [replaceWhole?_self hreplaced]
      exact (String.empty_append.trans (String.append_empty ..)).symm
    · refine ⟨_, ?_, rfl⟩
      rw [added?, if_neg hsame, if_pos rfl]
      exact congrArg (Option.map _) hreplaced

/-- Extending adds to selectors, behind them, just what is asked for. -/
theorem extend_spec {root : Node} (hroot : root.Plain) (old : List Selector) :
    ∃ added, extend (ofNode root) old = old ++ added ∧ root.Extended old added := by
  obtain ⟨added, heq, hsub, hnodup, hfresh, hall⟩ := addNew_spec old
    ((old.map (Selector.text false)).flatMap fun text => (ofNode root).filterMap (·.added? text))
  refine ⟨added, heq, fun a ha => ?_, hnodup, hfresh, fun a ha => ?_⟩
  · obtain ⟨text, htext, ha⟩ := List.mem_flatMap.mp (hsub ha)
    obtain ⟨s, hs, rfl⟩ := List.mem_map.mp htext
    obtain ⟨x, hx, ha⟩ := List.mem_filterMap.mp ha
    exact asked_of_added hroot hx hs ha
  · obtain ⟨x, hx, s, hs, t, ht, htext⟩ := added_of_asked hroot ha
    obtain ⟨u, hu, hutext⟩ := hall t (List.mem_flatMap.mpr
      ⟨_, List.mem_map_of_mem hs, List.mem_filterMap.mpr ⟨x, hx, ht⟩⟩)
    exact ⟨u, hu, hutext.trans htext⟩

end Extension

namespace Ruleset

/-- A stylesheet is known from its node. -/
theorem eq_of_toNode_eq {r r' : Ruleset} (h : r.toNode = r'.toNode) : r = r' := by
  cases r
  cases r'
  cases h
  rfl

/-- **Resolving extensions adds just what is asked for.**  It changes nothing in an evaluated
stylesheet but the selectors of the rule sets.  Each rule set keeps its selectors, in their order,
and others follow behind them: only what a clause anywhere in the stylesheet asks for, none whose
text is there before or follows twice, and whatever is asked for is there afterwards.  Without
clauses nothing changes. -/
theorem extend_exact {c : Context} {r root : Ruleset} (h : r.eval c = .ok root) :
    root.toNode.Alters (fun old new => ∃ added, new = old ++ added ∧ root.toNode.Extended old added)
        root.extend.toNode ∧
      ((∀ e clause, ¬root.toNode.HasClause e clause) → root.extend = root) := by
  have hplain : root.toNode.Plain := eval_plain c r root h
  have hextend :
      root.extend.toNode = Node.mapSelectors (Extension.extend (Extension.ofNode root.toNode))
        root.toNode :=
    rfl
  have halters :
      root.toNode.Alters (fun old new => ∃ added, new = old ++ added ∧
        root.toNode.Extended old added)
      root.extend.toNode := by
    rw [hextend]
    exact Node.alters_mapSelectors rfl (Extension.extend_spec hplain) root.toNode hplain
  refine ⟨halters, fun hnone => (eq_of_toNode_eq (halters.eq ?_)).symm⟩
  rintro old new ⟨added, hnew, hadded⟩
  have hempty : added = [] := by
    refine List.eq_nil_iff_forall_not_mem.mpr fun a ha => ?_
    cases hadded.asked a ha with
    | exact hclause => exact hnone _ _ hclause
    | within hclause => exact hnone _ _ hclause
  rw [hnew, hempty, List.append_nil]

/-- Two clauses, one of them for longer selectors, and rule sets in a media rule that they meet. -/
theorem extend_exact_media : ∃ r root : Ruleset,
    ofText (".a:extend(.b)\x7bc:d\x7d@media x\x7b.b\x7be:f\x7d.b-g\x7bh:i\x7d.b.j\x7bk:l\x7d\x7d" ++
      ".m:extend(.b all)\x7bn:o\x7d") = .ok r ∧
    r.eval (.ofOptions {}) = .ok root ∧
    (root.extend.rules.flatMap fun n => n.block.map fun m =>
      m.selectors.map (Selector.text false)) =
      [[], [".b", ".a", ".m"], [".b-g"], [".b.j", ".m.j"], []] ∧
    root.toNode.Alters (fun old new => ∃ added, new = old ++ added ∧ root.toNode.Extended old added)
      root.extend.toNode := by
  have hcheck :
      (match ofText
        (".a:extend(.b)\x7bc:d\x7d@media x\x7b.b\x7be:f\x7d.b-g\x7bh:i\x7d.b.j\x7bk:l\x7d\x7d" ++
      ".m:extend(.b all)\x7bn:o\x7d") with
    | .ok r => match r.eval (.ofOptions {}) with
      | .ok root =>
        (root.extend.rules.flatMap fun n => n.block.map fun m =>
          m.selectors.map (Selector.text false)) ==
        [[], [".b", ".a", ".m"], [".b-g"], [".b.j", ".m.j"], []]
      | .error _ => false
    | .error _ => false) = true := by decide +kernel
  split at hcheck
  · next r hread =>
    split at hcheck
    · next root heval => exact ⟨r, root, hread, heval, beq_iff_eq.mp hcheck, (extend_exact heval).1⟩
    · cases hcheck
  · cases hcheck

end Ruleset

end LessCss
