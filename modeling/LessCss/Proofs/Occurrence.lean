import LessCss.Node

/-!
# What occurs in a node

The parts of a node are the nodes that it is made of: items, operands, arguments, the values and
heads of rules, the rules of blocks, and the defaults of parameters.  A node occurs in another one
if a chain of parts leads to it.  What is inherited by parts holds of everything that occurs
(`Node.OccursIn.inherits`), and what holds throughout a node is looked at part by part
(`Node.throughout_iff`).  A rule lies in another one if a chain of blocks leads to it.
-/

namespace LessCss

namespace Node

/-- The nodes that a node is made of. -/
def parts : Node → List Node
  | expression items _ _ _ => items
  | list items => items
  | paren inner => [inner]
  | operation _ left right _ _ => [left, right]
  | negative inner => [inner]
  | call _ args _ => args
  | declaration _ value _ _ _ => [value]
  | ruleset _ rules _ => rules
  | atRule _ header rules => header.toList ++ rules.getD []
  | media features rules => features :: rules
  | importRule path features _ => path :: features.toList
  | mixin _ params _ rules => params.filterMap Prod.snd ++ rules
  | mixinCall _ args _ _ => args
  | argument _ value => [value]
  | dimension _ | comment .. | keyword _ | quoted .. | url _ | reference .. | selector _ => []

/-- A node is another one, or occurs in a part of it. -/
inductive OccursIn (m : Node) : Node → Prop
  | self : OccursIn m m
  | inside {part n : Node} (member : part ∈ n.parts) (h : OccursIn m part) : OccursIn m n

/-- What holds of a node and goes over to the parts of any node holds of everything in it. -/
theorem OccursIn.inherits {P : Node → Prop} (hparts : ∀ n, P n → ∀ part ∈ n.parts, P part)
    {m n : Node} (h : m.OccursIn n) (hn : P n) : P m := by
  induction h with
  | self => exact hn
  | inside member _ ih => exact ih (hparts _ hn _ member)

/-- A property of everything that occurs in a node. -/
def Throughout (P : Node → Prop) (n : Node) : Prop := ∀ m : Node, m.OccursIn n → P m

variable {P Q : Node → Prop} {n : Node}

/-- To hold throughout a node is to hold of it and throughout each of its parts. -/
theorem throughout_iff : n.Throughout P ↔ P n ∧ ∀ part ∈ n.parts, part.Throughout P := by
  constructor
  · intro h
    exact ⟨h n .self, fun part hpart m hm => h m (.inside hpart hm)⟩
  · rintro ⟨hn, hparts⟩ m hm
    cases hm with
    | self => exact hn
    | inside hpart hm => exact hparts _ hpart m hm

theorem Throughout.self (h : n.Throughout P) : P n := h n .self

theorem Throughout.part (h : n.Throughout P) {part : Node} (hpart : part ∈ n.parts) :
    part.Throughout P :=
  (throughout_iff.mp h).2 part hpart

theorem Throughout.of_occursIn (h : n.Throughout P) {m : Node} (hm : m.OccursIn n) :
    m.Throughout P :=
  hm.inherits (fun _ hn _ hpart => hn.part hpart) h

/-- What follows from a property everywhere follows from it throughout. -/
theorem Throughout.imp (h : n.Throughout P) (himp : ∀ m, P m → Q m) : n.Throughout Q :=
  fun m hm => himp m (h m hm)

/-! ## What lies in the blocks of a rule -/

/-- The rules in the block of a node. -/
def block : Node → List Node
  | ruleset _ rules _ => rules
  | atRule _ _ rules => rules.getD []
  | media _ rules => rules
  | mixin _ _ _ rules => rules
  | _ => []

/-- A rule is another one, or lies in the block of it, at any depth. -/
inductive LiesIn (m : Node) : Node → Prop
  | self : LiesIn m m
  | block {k n : Node} (member : k ∈ n.block) (h : LiesIn m k) : LiesIn m n

theorem liesIn_iff {m n : Node} : m.LiesIn n ↔ m = n ∨ ∃ k ∈ n.block, m.LiesIn k := by
  constructor
  · intro h
    cases h with
    | self => exact .inl rfl
    | block hk h => exact .inr ⟨_, hk, h⟩
  · rintro (rfl | ⟨k, hk, h⟩)
    · exact .self
    · exact .block hk h

/-- What lies in a rule of a node lies in the node. -/
theorem LiesIn.trans {m k n : Node} (hm : m.LiesIn k) (hk : k.LiesIn n) : m.LiesIn n := by
  induction hk with
  | self => exact hm
  | block member _ ih => exact .block member ih

theorem block_subset_parts (n : Node) : n.block ⊆ n.parts := by
  intro m hm
  cases n with
  | ruleset => exact hm
  | atRule | mixin => exact List.mem_append_right _ hm
  | media => exact List.mem_cons_of_mem _ hm
  | _ => cases hm

/-- What lies in a node, block in block, occurs in it. -/
theorem LiesIn.occursIn {m n : Node} (h : m.LiesIn n) : m.OccursIn n := by
  induction h with
  | self => exact .self
  | block member _ ih => exact .inside (block_subset_parts _ member) ih

/-! ## Deciding what holds throughout a node -/

mutual
/-- Whether everything that occurs in a node passes a test. -/
def all (p : Node → Bool) : Node → Bool
  | expression items parens operand tight =>
    p (expression items parens operand tight) && allOf p items
  | list items => p (list items) && allOf p items
  | paren inner => p (paren inner) && all p inner
  | operation op left right spaced offset =>
    p (operation op left right spaced offset) && (all p left && all p right)
  | negative inner => p (negative inner) && all p inner
  | call name args offset => p (call name args offset) && allOf p args
  | declaration name value important isVariable offset =>
    p (declaration name value important isVariable offset) && all p value
  | ruleset selectors rules root => p (ruleset selectors rules root) && allOf p rules
  | atRule name header rules =>
    p (atRule name header rules) && (allHeader p header && allBlock p rules)
  | media features rules => p (media features rules) && (all p features && allOf p rules)
  | importRule path features options =>
    p (importRule path features options) && (all p path && allHeader p features)
  | mixin name params guard rules =>
    p (mixin name params guard rules) && (allDefaults p params && allOf p rules)
  | mixinCall name args important offset => p (mixinCall name args important offset) && allOf p args
  | argument name value => p (argument name value) && all p value
  | dimension d => p (dimension d)
  | comment text isLine => p (comment text isLine)
  | keyword text => p (keyword text)
  | quoted quote text escaped => p (quoted quote text escaped)
  | url text => p (url text)
  | reference name offset => p (reference name offset)
  | selector s => p (selector s)
/-- Whether everything in a row of nodes passes a test. -/
def allOf (p : Node → Bool) : List Node → Bool
  | [] => true
  | node :: nodes => all p node && allOf p nodes
/-- Whether everything in a node that may be missing passes a test. -/
def allHeader (p : Node → Bool) : Option Node → Bool
  | none => true
  | some node => all p node
/-- Whether everything in a block that may be missing passes a test. -/
def allBlock (p : Node → Bool) : Option (List Node) → Bool
  | none => true
  | some nodes => allOf p nodes
/-- Whether everything in the defaults of parameters passes a test. -/
def allDefaults (p : Node → Bool) : List (Option String × Option Node) → Bool
  | [] => true
  | (_, default) :: params => allHeader p default && allDefaults p params
end

section Deciding

variable {p : Node → Bool}

theorem allOf_eq (nodes : List Node) : allOf p nodes = nodes.all (all p) := by
  induction nodes with
  | nil => rfl
  | cons node nodes ih => simp only [allOf, ih, List.all_cons]

theorem allHeader_eq (header : Option Node) : allHeader p header = header.toList.all (all p) := by
  cases header with
  | none => rfl
  | some node => simp [allHeader]

theorem allBlock_eq (rules : Option (List Node)) :
    allBlock p rules = (rules.getD []).all (all p) := by
  cases rules with
  | none => rfl
  | some rules => exact allOf_eq rules

theorem allDefaults_eq (params : List (Option String × Option Node)) :
    allDefaults p params = (params.filterMap Prod.snd).all (all p) := by
  induction params with
  | nil => rfl
  | cons param params ih =>
    obtain ⟨name, default⟩ := param
    cases default with
    | none => simp [allDefaults, allHeader, ih]
    | some default => simp [allDefaults, allHeader, ih]

/-- The test is made of a node and in its parts. -/
theorem all_eq (n : Node) : n.all p = (p n && n.parts.all (all p)) := by
  cases n with
  | expression | list | call | ruleset | mixinCall => simp only [all, parts, allOf_eq]
  | paren | negative | declaration | argument => simp [all, parts]
  | operation => simp [all, parts]
  | atRule => simp only [all, parts, allHeader_eq, allBlock_eq, List.all_append]
  | media => simp only [all, parts, allOf_eq, List.all_cons]
  | importRule => simp only [all, parts, allHeader_eq, List.all_cons]
  | mixin => simp only [all, parts, allDefaults_eq, allOf_eq, List.all_append]
  | dimension | comment | keyword | quoted | url | reference | selector => simp [all, parts]

/-- A part is smaller than the node it is a part of, so that a recursion may go along the parts. -/
theorem sizeOf_lt_of_mem_parts {n part : Node} (h : part ∈ n.parts) : sizeOf part < sizeOf n := by
  have hlist {nodes : List Node} (h : part ∈ nodes) : sizeOf part < sizeOf nodes :=
    List.sizeOf_lt_of_mem h
  have hoption {header : Option Node} (h : part ∈ header.toList) : sizeOf part < sizeOf header := by
    obtain rfl := Option.mem_toList.mp h
    simp
  cases n with
  | expression | list | call | ruleset | mixinCall =>
    dsimp only [parts] at h
    have := hlist h
    simp
    omega
  | paren | negative | declaration | argument =>
    obtain rfl := List.mem_singleton.mp h
    simp
    try omega
  | operation op left right =>
    simp only [parts, List.mem_cons, List.not_mem_nil, or_false] at h
    rcases h with rfl | rfl
    all_goals
      simp
      omega
  | atRule name header rules =>
    rcases List.mem_append.mp h with h | h
    · have := hoption h
      simp
      omega
    · cases rules with
      | none => cases h
      | some rules =>
        dsimp only [Option.getD_some] at h
        have := hlist h
        simp
        omega
  | media features rules =>
    rcases List.mem_cons.mp h with rfl | h
    · simp
      omega
    · have := hlist h
      simp
      omega
  | importRule path features =>
    rcases List.mem_cons.mp h with rfl | h
    · simp
      omega
    · have := hoption h
      simp
      omega
  | mixin name params guard rules =>
    rcases List.mem_append.mp h with h | h
    · obtain ⟨⟨name, default⟩, hp, rfl⟩ := List.mem_filterMap.mp h
      have := List.sizeOf_lt_of_mem hp
      simp at this ⊢
      omega
    · have := hlist h
      simp
      omega
  | dimension | comment | keyword | quoted | url | reference | selector => cases h

/-- What holds of a node if it holds of its parts holds of every node. -/
@[elab_as_elim]
theorem induction_parts {motive : Node → Prop}
    (step : ∀ n : Node, (∀ part ∈ n.parts, motive part) → motive n) (n : Node) : motive n :=
  step n fun part _ => induction_parts step part
termination_by sizeOf n
decreasing_by exact sizeOf_lt_of_mem_parts ‹_›

/-- The test of all nodes comes out as true just if the tested property holds throughout. -/
theorem all_iff (n : Node) : n.all p = true ↔ n.Throughout fun m => p m = true := by
  induction n using induction_parts with
  | step n ih =>
    rw [all_eq, throughout_iff, Bool.and_eq_true, List.all_eq_true]
    exact and_congr_right fun _ => forall₂_congr ih

end Deciding

instance {P : Node → Prop} [DecidablePred P] (n : Node) : Decidable (n.Throughout P) :=
  decidable_of_iff (n.all (fun m => decide (P m)) = true)
    (by simp only [all_iff, decide_eq_true_eq])

end Node

end LessCss
