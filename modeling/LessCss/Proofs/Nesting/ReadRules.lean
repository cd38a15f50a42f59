import LessCss.Proofs.Nesting.ReadValues

/-!
# What rules are read off

A rule is read off a statement in one of a few ways (`Reading.ReadOff`), and a rule in the block of
another one is read off a statement in the block of the statement that the other one is read off
(`Reading.ReadOff.block`).  So every rule in a stylesheet, at any depth, was read off some statement
(`Ruleset.exists_readOff`), and a property of rules need only be looked at for the ways in which one
rule is read.
-/

namespace LessCss

namespace Reading

open Node

variable {source : List Char}

/-- What is read off a statement. -/
inductive ReadOff (source : List Char) : Tree → Node → Prop
  | assignment {parts : List Tree} {name : String} {content : Node} {offset : Nat} :
      ReadOff source (.node .assignment parts) (.declaration name content false true offset)
  | declaration {parts : List Tree} {name : Tree} {content : Node} {important : Bool}
      (hname : (Tree.node .declaration parts).node? .name = some name) :
      ReadOff source (.node .declaration parts)
        (.declaration (name.sourceText source) content important false name.start)
  | call {list : Tree} {parts : List Tree} {name : String} {args : List Node} {important : Bool}
    {offset : Nat} :
      ReadOff source (.node .rulesetOrMixin (list :: parts)) (.mixinCall name args important offset)
  | extension {list : Tree} {parts : List Tree} {heads : List Selector}
    (hheads : selectors source list = .ok heads) :
      ReadOff source (.node .rulesetOrMixin (list :: parts)) (.ruleset heads [] false)
  | mixin {list : Tree} {parts : List Tree} {m : Mixin}
    (hrules : blockIn source parts = .ok (some m.rules)) :
      ReadOff source (.node .rulesetOrMixin (list :: parts)) m.toNode
  | ruleset {list : Tree} {parts : List Tree} {heads : List Selector} {rules : List Node}
      (hheads : selectors source list = .ok heads)
      (hrules : blockIn source parts = .ok (some rules)) :
      ReadOff source (.node .rulesetOrMixin (list :: parts)) (.ruleset heads rules false)
  | importRule {parts : List Tree} {path : Node} {features : Option Node} {options : List String} :
      ReadOff source (.node .atRule [.node .importRule parts]) (.importRule path features options)
  | media {parts : List Tree} {features : Node} {rules : List Node}
      (hrules : blockIn source parts = .ok (some rules)) :
      ReadOff source (.node .atRule [.node .mediaRule parts]) (.media features rules)
  | atRule {parts : List Tree} {name : Token} {content : Option Node} {rules : Option (List Node)}
      (hname : (Tree.node .generalAtRule parts).tokenOf? .atName = some name)
      (hcontent : header source (.node .generalAtRule parts) = .ok content)
      (hrules : blockIn source parts = .ok rules) :
      ReadOff source (.node .atRule [.node .generalAtRule parts]) (.atRule name.text content rules)

/-! ## Statements -/

theorem assignment_readOff (parts : List Tree) :
    Ensures (Reading.assignment (.node .assignment parts))
      (ReadOff source (.node .assignment parts)) := by
  unfold Reading.assignment
  split
  · exact missing_ensures _ _
  · exact .seq fun content => .ok .assignment

theorem declaration_readOff (parts : List Tree) :
    Ensures (Reading.declaration source (.node .declaration parts))
      (ReadOff source (.node .declaration parts)) := by
  unfold Reading.declaration
  split
  · exact missing_ensures _ _
  · next hname => exact .seq fun content => .ok (.declaration hname)

theorem importRule_readOff (parts : List Tree) :
    Ensures (Reading.importRule (.node .importRule parts))
    (ReadOff source (.node .atRule [.node .importRule parts])) := by
  unfold Reading.importRule
  refine .seq fun features => ?_
  split
  · exact .ok .importRule
  · exact missing_ensures _ _

theorem withoutBlock_readOff {list : Tree} {parts : List Tree} {heads : List Selector}
    (hheads : selectors source list = .ok heads) :
    Ensures (withoutBlock (.node .rulesetOrMixin (list :: parts)) heads)
      (ReadOff source (.node .rulesetOrMixin (list :: parts))) := by
  unfold withoutBlock
  split
  · exact .seq fun name => .seq fun args => .ok .call
  · split
    · exact .ok (.extension hheads)
    · exact .seq fun name => .ok .call

theorem required_eq_ok {t : Tree} {block : Option (List Node)} {rules : List Node}
    (h : required t block = .ok rules) : block = some rules := by
  cases block with
  | none => cases h
  | some rules' => exact congrArg some (Except.ok.inj h)

/-- **What is read of a statement is read off it.** -/
theorem statement_readOff (source : List Char) (t : Tree) :
    Ensures (statement source t) fun n => ∀ m ∈ n, ReadOff source t m := by
  have hsome {t : Tree} {n : Node} (h : ReadOff source t n) : ∀ m ∈ some n, ReadOff source t m := by
    rintro m hm
    cases hm
    exact h
  have hself {α : Type} {x : Except Error α} : Ensures x fun a => x = .ok a := fun _ h => h
  unfold statement
  split
  · exact Ensures.map (assignment_readOff _) fun _ => hsome
  · exact Ensures.map (declaration_readOff _) fun _ => hsome
  · next list parts =>
    refine .bind hself fun heads hheads => ?_
    split
    · exact .bind (withoutBlock_readOff hheads) fun n hn => .ok (hsome hn)
    · split
      · refine .seq fun mixin => .bind hself fun block hblock => .bind hself fun rules hrules =>
          .ok (hsome ?_)
        rw [required_eq_ok hrules] at hblock
        exact .mixin hblock
      · refine .bind hself fun block hblock => .bind hself fun rules hrules => .ok (hsome ?_)
        rw [required_eq_ok hrules] at hblock
        exact .ruleset hheads hblock
  · exact Ensures.map (importRule_readOff _) fun _ => hsome
  · exact .ok fun n hn => absurd hn (Option.not_mem_none n)
  · refine .seq fun features => .bind hself fun block hblock => .bind hself fun rules hrules =>
      .ok (hsome ?_)
    rw [required_eq_ok hrules] at hblock
    exact .media hblock
  · refine .bind hself fun content hcontent => .bind hself fun rules hrules => ?_
    split
    · next hname => exact .ok (hsome (.atRule hname hcontent hrules))
    · exact missing_ensures _ _
  · exact .error

/-! ## Blocks -/

/-- Each rule of a row is read off one of its statements. -/
theorem statements_readOff (source : List Char) :
    ∀ ts : List Tree, Ensures (statements source ts) fun ns =>
    ∀ n ∈ ns, ∃ t ∈ ts, ReadOff source t n
  | [] => by
    unfold statements
    exact .ok (List.forall_mem_nil _)
  | t :: ts => by
    unfold statements
    refine .bind (statement_readOff source t) fun head hhead => ?_
    refine .bind (statements_readOff source ts) fun rest hrest =>
      .ok (List.forall_mem_append.mpr ⟨?_, ?_⟩)
    · exact fun n hn => ⟨t, List.mem_cons_self, hhead n (Option.mem_toList.mp hn)⟩
    · intro n hn
      obtain ⟨u, hu, hread⟩ := hrest n hn
      exact ⟨u, List.mem_cons_of_mem _ hu, hread⟩

/-- Each rule of a block is read off a statement in it. -/
theorem blockIn_readOff (source : List Char) :
    ∀ ts : List Tree, Ensures (blockIn source ts) fun block =>
    ∀ ns ∈ block, ∀ n ∈ ns, ∃ v ∈ ts, ∃ u ∈ v.inner, ReadOff source u n
  | [] => by
    unfold blockIn
    exact .ok fun ns hns => absurd hns (Option.not_mem_none ns)
  | t :: ts => by
    unfold blockIn
    split
    · next heq =>
      cases heq
    · next inner _ _ heq =>
      obtain ⟨rfl, rfl⟩ := List.cons.inj heq
      refine Ensures.map (statements_readOff source inner) fun rules hrules => ?_
      rintro ns hns n hn
      cases hns
      exact ⟨_, List.mem_cons_self, hrules n hn⟩
    · next heq =>
      obtain ⟨rfl, rfl⟩ := List.cons.inj heq
      intro block hblock ns hns n hn
      obtain ⟨v, hv, hread⟩ := blockIn_readOff source ts block hblock ns hns n hn
      exact ⟨v, List.mem_cons_of_mem _ hv, hread⟩

/-- A rule in a block is read off a statement in a block. -/
theorem ReadOff.block {t : Tree} {n : Node} (h : ReadOff source t n) {m : Node} (hm : m ∈ n.block) :
    ∃ u, u.InBlock t ∧ ReadOff source u m := by
  cases h with
  | assignment | declaration | call | extension | importRule => cases hm
  | mixin hrules | ruleset _ hrules =>
    obtain ⟨v, hv, u, hu, hread⟩ := blockIn_readOff source _ _ hrules _ rfl m hm
    exact ⟨u, .rulesetOrMixin hv hu, hread⟩
  | media hrules =>
    obtain ⟨v, hv, u, hu, hread⟩ := blockIn_readOff source _ _ hrules _ rfl m hm
    exact ⟨u, .atRule (.inl rfl) hv hu, hread⟩
  | @atRule parts name content rules _ _ hrules =>
    cases rules with
    | none => cases hm
    | some rules =>
      obtain ⟨v, hv, u, hu, hread⟩ := blockIn_readOff source _ _ hrules _ rfl m hm
      exact ⟨u, .atRule (.inr rfl) hv hu, hread⟩

/-- A rule at any depth is read off a statement of a sort that statements in blocks inherit. -/
theorem ReadOff.liesIn {T : Tree → Prop} (hT : ∀ {t u : Tree}, T t → u.InBlock t → T u) {n m : Node}
    (hm : m.LiesIn n) : ∀ {t : Tree}, T t → ReadOff source t n → ∃ u, T u ∧ ReadOff source u m := by
  induction hm with
  | self => exact fun {t} ht h => ⟨t, ht, h⟩
  | block hk _ ih =>
    intro t ht h
    obtain ⟨u, hu, hread⟩ := h.block hk
    exact ih (hT ht hu) hread

end Reading

/-- **Every rule in a stylesheet that was read was read off a statement**, one of any sort that the
statements of the source are of and that statements in blocks inherit. -/
theorem Ruleset.exists_readOff {source : String} {sheet : Ruleset} (h : ofText source = .ok sheet)
    {T : Tree → Prop} (hT : ∀ t ∈ (Parse.ofText source).tree.children, T t)
    (hblock : ∀ {t u : Tree}, T t → u.InBlock t → T u) {n : Node} (hn : n ∈ sheet.rules) {m : Node}
    (hm : m.LiesIn n) : ∃ t, T t ∧ Reading.ReadOff source.toList t m := by
  obtain ⟨-, -, hrules⟩ := exists_of_ofText h
  obtain ⟨t, ht, hread⟩ := Reading.statements_readOff source.toList _ _ hrules n hn
  exact hread.liesIn hblock hm (hT t ht)

end LessCss
