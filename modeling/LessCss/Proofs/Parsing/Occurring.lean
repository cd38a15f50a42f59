import LessCss.Proofs.Parsing.Fidelity

/-!
# What occurs in a tree

A tree occurs in another one if a chain of parts leads to it.  What is inherited by parts holds of
everything that occurs (`Tree.OccursIn.inherits`), and the tokens of what occurs stand side by side
among those of the whole (`Tree.OccursIn.leaves_infix`); in a text without complaints these are all
tokens of the text.  So the parts of a tree of tokens of some sort are such trees too
(`Tree.MadeOf.child`).
-/

namespace LessCss

namespace Tree

/-- A tree is another one, or occurs in a part of it. -/
inductive OccursIn (t : Tree) : Tree → Prop
  | self : OccursIn t t
  | inside {u v : Tree} (member : u ∈ v.children) (h : OccursIn t u) : OccursIn t v

variable {t u v : Tree}

/-- What holds of a tree and goes over to the parts of any tree holds of everything in it. -/
theorem OccursIn.inherits {P : Tree → Prop} (hchildren : ∀ v, P v → ∀ u ∈ v.children, P u)
    (h : t.OccursIn v) (hv : P v) : P t := by
  induction h with
  | self => exact hv
  | inside member _ ih => exact ih (hchildren _ hv _ member)

/-- A part of what occurs. -/
theorem OccursIn.child (h : u.OccursIn v) (ht : t ∈ u.children) : t.OccursIn v := by
  induction h with
  | self => exact .inside ht .self
  | inside member _ ih => exact .inside member ih

/-- What occurs in a part of a tree occurs in the tree. -/
theorem OccursIn.trans (h : t.OccursIn u) (hu : u.OccursIn v) : t.OccursIn v :=
  h.inherits (P := fun w => w.OccursIn v) (fun _ hw _ => hw.child) hu

theorem leaves_infix_leavesOf {ts : List Tree} (h : t ∈ ts) : t.leaves <:+: leavesOf ts := by
  obtain ⟨pre, post, rfl⟩ := List.append_of_mem h
  exact ⟨leavesOf pre, leavesOf post, by simp⟩

/-- The leaves of what occurs in a tree stand side by side among those of the tree. -/
theorem OccursIn.leaves_infix (h : t.OccursIn v) : t.leaves <:+: v.leaves := by
  induction h with
  | self => exact List.infix_rfl
  | @inside u v member _ ih =>
    cases v with
    | leaf x => cases member
    | node p ts => exact ih.trans (leaves_infix_leavesOf member)

/-- The tokens among the parts of a tree. -/
theorem mem_tokens {x : Token} : x ∈ t.tokens ↔ leaf x ∈ t.children := by
  unfold tokens
  rw [List.mem_filterMap]
  constructor
  · rintro ⟨u, hu, hx⟩
    cases u with
    | leaf y =>
      cases hx
      exact hu
    | node p ts => cases hx
  · exact fun h => ⟨.leaf x, h, rfl⟩

/-- A tree of tokens of some sort. -/
def MadeOf (X : Token → Prop) (t : Tree) : Prop := ∀ x ∈ t.leaves, X x

namespace MadeOf

variable {X : Token → Prop}

theorem any : t.MadeOf fun _ => True := fun _ _ => trivial

theorem token {x : Token} (h : (leaf x).MadeOf X) : X x := h x (List.mem_singleton_self x)

/-- A part of a tree is made of the same sort of tokens. -/
theorem child (h : t.MadeOf X) (hu : u ∈ t.children) : u.MadeOf X := by
  have hleaves : u.leaves <:+: t.leaves := OccursIn.leaves_infix (.inside hu .self)
  exact fun x hx => h x (hleaves.subset hx)

end MadeOf

/-! ## Statements in blocks -/

/-- The statements of a block. -/
def inner : Tree → List Tree
  | .node .block [_, .node _ ts, _] => ts
  | _ => []

theorem inner_eq_nil (h : t.phrase? ≠ some .block) : t.inner = [] := by
  unfold inner
  split
  · exact absurd rfl h
  · rfl

/-- A statement in the block of another one. -/
inductive InBlock (u : Tree) : Tree → Prop
  | rulesetOrMixin {list v : Tree} {parts : List Tree} (hv : v ∈ parts) (hu : u ∈ v.inner) :
      InBlock u (node .rulesetOrMixin (list :: parts))
  | atRule {p : Phrase} {v : Tree} {parts : List Tree} (hp : p = .mediaRule ∨ p = .generalAtRule)
    (hv : v ∈ parts)
      (hu : u ∈ v.inner) : InBlock u (node .atRule [node p parts])

theorem occursIn_of_mem_inner (h : u ∈ t.inner) : u.OccursIn t := by
  unfold inner at h
  split at h
  · exact .inside (.tail _ (.head _)) (.inside h .self)
  · cases h

/-- A statement in the block of another one occurs in it. -/
theorem InBlock.occursIn (h : u.InBlock t) : u.OccursIn t := by
  cases h with
  | rulesetOrMixin hv hu => exact .inside (List.mem_cons_of_mem _ hv) (occursIn_of_mem_inner hu)
  | atRule _ hv hu => exact .inside List.mem_cons_self (.inside hv (occursIn_of_mem_inner hu))

end Tree

/-- The statements of a text are made of its tokens. -/
theorem Parse.madeOf_ofText (source : String) :
    ∀ t ∈ (ofText source).tree.children, t.MadeOf fun x => x ∈ (Lexing.ofText source).tokens :=
  fun _ ht _ hx =>
  (leaves_sublist_tokens source).subset ((Tree.leaves_infix_leavesOf ht).subset hx)

/-- What occurs in the tree of a text without complaints covers tokens that follow each other in the
text. -/
theorem Parse.leaves_infix {source : String} (hclean : (Parse.ofText source).mismatches = [])
    {t : Tree} (h : t.OccursIn (Parse.ofText source).tree) :
    t.leaves <:+: (Lexing.ofText source).tokens := by
  rw [← leaves_eq_tokens hclean]
  exact h.leaves_infix

end LessCss
