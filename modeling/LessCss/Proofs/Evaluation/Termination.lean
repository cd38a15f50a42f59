import LessCss.Compile
import LessCss.Proofs.Evaluation.Locality
import LessCss.Proofs.Evaluation.Reach
import Mathlib.Data.Finset.Card

/-!
# Evaluation ends

A definition is found by its name and evaluated where it is used, so evaluation does not go along
the structure of nodes alone.  Two guards end it: a variable under way is not evaluated again, and
calls of mixins nest at most so deep.  Neither is enough alone, as the rules of a mixin may ask for
a variable whose evaluation calls a mixin; together they are, because no step brings new names into
reach.  Every step lets the number of calls grow, or keeps it and puts one more name under way, or
keeps both and goes to a part of the node (`Config.Enters.measure_lt`).

It follows that the bound of `Context.eval` is never exhausted (`Context.eval_finished`) and might
as well not be there: evaluation satisfies the equations of an evaluation without bound
(`Context.eval_eq`).
-/

namespace LessCss

open Evaluation

/-! ## A measure -/

/-- How many of some names are not under way. -/
def Context.free (names : List String) (c : Context) : Nat :=
  (names.toFinset \ c.pending.toFinset).card

namespace Config

variable {d : Deeper} {s t : Config} {names : List String}

/-- What decreases along evaluation: the calls that may still be nested, the names that are not
under way, and the size of the node. -/
noncomputable def measure (names : List String) (s : Config) : Nat × Nat × Nat :=
  (mixinDepthLimit - s.context.mixinDepth, s.context.free names, sizeOf s.node)

/-- Passing on to what a variable stands for leaves one name less that is not under way. -/
theorem Asks.free_lt (h : s.Asks t) (hs : s.names ⊆ names) :
    t.context.free names < s.context.free names := by
  obtain ⟨name, hname, hpending, hc, -⟩ := h.cases
  refine Finset.card_lt_card (Finset.ssubset_iff_of_subset ?_ |>.mpr ⟨name, ?_, ?_⟩)
  · rw [hc]
    intro x hx
    simp_all
  · simpa using ⟨hs hname, hpending⟩
  · simp [hc]

/-- Going inside of a node leaves the same names under way. -/
theorem Inside.free_eq (h : s.Inside d t) : t.context.free names = s.context.free names := by
  unfold Context.free
  rw [h.pending_eq]

/-- **Every step of evaluation decreases the measure.** -/
theorem Enters.measure_lt (h : s.Enters d t) (hs : s.names ⊆ names) :
    Prod.Lex (· < ·) (Prod.Lex (· < ·) (· < ·)) (t.measure names) (s.measure names) := by
  cases h with
  | inside h =>
    unfold measure
    rw [h.mixinDepth_eq, h.free_eq]
    exact .right _ (.right _ h.sizeOf_lt)
  | definition h =>
    obtain ⟨name, -, -, hc, -⟩ := h.cases
    have hfree := h.free_lt hs
    unfold measure
    rw [show t.context.mixinDepth = s.context.mixinDepth by rw [hc]]
    exact .right _ (.left _ _ hfree)
  | rule h hrule =>
    obtain ⟨hdepth, frame, rfl, -⟩ := h.cases
    refine .left _ _ ?_
    show mixinDepthLimit - (s.context.mixinDepth + 1) < mixinDepthLimit - s.context.mixinDepth
    omega

/-! ## What a chain of steps keeps -/

/-- The guards against endless evaluation at work: each of some names is under way at most once and
no other name is, and calls of mixins are not nested too deep. -/
structure Guarded (names : List String) (s : Config) : Prop where
  nodup : s.context.pending.Nodup
  pending : ∀ name ∈ s.context.pending, name ∈ names
  depth : s.context.mixinDepth ≤ mixinDepthLimit

/-- The guards are still at work when a definition is entered. -/
theorem Enters.guarded (h : s.Enters d t) (hs : s.names ⊆ names) (hg : s.Guarded names) :
    t.Guarded names := by
  cases h with
  | inside h =>
    refine ⟨?_, ?_, ?_⟩
    · rw [h.pending_eq]
      exact hg.nodup
    · rw [h.pending_eq]
      exact hg.pending
    · rw [h.mixinDepth_eq]
      exact hg.depth
  | definition h =>
    obtain ⟨name, hname, hpending, hc, -⟩ := h.cases
    refine ⟨?_, ?_, ?_⟩
    · rw [hc]
      exact List.nodup_cons.mpr ⟨hpending, hg.nodup⟩
    · rw [hc]
      intro x hx
      rcases List.mem_cons.mp hx with rfl | hx
      · exact hs hname
      · exact hg.pending x hx
    · rw [hc]
      exact hg.depth
  | rule h hrule =>
    obtain ⟨hdepth, frame, rfl, -⟩ := h.cases
    exact ⟨hg.nodup, hg.pending, hdepth⟩

/-- Evaluation comes to no names but those it may ask for at the start. -/
theorem Reaches.names_subset (hd : d.Plain) (h : s.Reaches d t) : t.names ⊆ s.names := by
  induction h with
  | refl => exact List.Subset.refl _
  | tail _ hstep ih => exact List.Subset.trans (hstep.names_subset hd) ih

/-- The guards are at work wherever evaluation comes to, by induction on the steps to it. -/
theorem Reaches.guarded (hd : d.Plain) (h : s.Reaches d t) (hs : s.names ⊆ names)
    (hg : s.Guarded names) :
    t.Guarded names := by
  induction h with
  | refl => exact hg
  | tail hchain hstep ih =>
    have hnames := Reaches.names_subset hd hchain
    exact hstep.guarded (List.Subset.trans hnames hs) ih

/-- There is no endless chain of steps. -/
theorem acc_enters (hd : d.Plain) (hs : s.names ⊆ names) : Acc (fun t s => Enters d s t) s := by
  have hwf : WellFounded (Prod.Lex (· < ·) (Prod.Lex (· < ·) (· < ·)) :
      Nat × Nat × Nat → Nat × Nat × Nat → Prop) :=
    WellFounded.prod_lex Nat.lt_wfRel.wf (WellFounded.prod_lex Nat.lt_wfRel.wf Nat.lt_wfRel.wf)
  induction hm : s.measure names using hwf.induction generalizing s with
  | _ m ih =>
    refine ⟨_, fun t ht => ?_⟩
    exact ih _ (hm ▸ ht.measure_lt hs) (List.Subset.trans (ht.names_subset hd) hs) rfl

end Config

/-! ## The bound is never exhausted -/

namespace Context

/-- How often evaluation can still pass on to a definition inside of a definition. -/
def rank (names : List String) (c : Context) : Nat :=
  c.free names + (mixinDepthLimit - c.mixinDepth)

/-- The bound for the evaluation of a node exceeds the number of definitions that can follow. -/
theorem rank_lt_bound (c : Context) (nodes : List Node) :
    c.rank (c.names nodes) < c.bound nodes := by
  have hfree : c.free (c.names nodes) ≤ (c.names nodes).length :=
    (Finset.card_le_card Finset.sdiff_subset).trans (List.toFinset_card_le _)
  have hlength : (c.names nodes).length =
      (c.frames.flatMap Frame.definedNames).length + (Node.definedNamesAll nodes).length + 1 := by
    simp [names]
  unfold rank bound
  omega

/-- The names in reach from a rule in the scope of all of them. -/
theorem names_inFrame_subset (c : Context) {rules : List Node} {rule : Node}
    (hrule : rule ∈ rules) :
    (Config.mk (c.inFrame (.ofRules rules)) rule).names ⊆ c.names rules := by
  intro x hx
  simp only [names, List.mem_cons, List.mem_append, List.mem_flatMap]
  rcases Config.mem_names.mp hx with hx | ⟨f, hf, hx⟩ | hx
  · exact .inl hx
  · rcases List.mem_cons.mp hf with rfl | hf
    · exact .inr (.inr (Frame.definedNames_ofRules rules hx))
    · exact .inr (.inl ⟨f, hf, hx⟩)
  · exact .inr (.inr (Node.mem_definedNamesAll.mpr ⟨rule, hrule, hx⟩))

end Context

namespace Config

variable {d : Deeper} {s t : Config} {names : List String}

/-- Passing on to what a variable stands for lowers the number of definitions that can still
follow. -/
theorem Asks.rank_lt (h : s.Asks t) (hs : s.names ⊆ names) :
    t.context.rank names < s.context.rank names := by
  have hfree := h.free_lt hs
  obtain ⟨name, -, -, hc, -⟩ := h.cases
  have hdepth : t.context.mixinDepth = s.context.mixinDepth := by rw [hc]
  unfold Context.rank
  omega

/-- Passing on to the rules of a mixin lowers the number of definitions that can still follow. -/
theorem Expands.rank_lt {c : Context} {rules : List Node} (h : s.Expands d c rules)
    (names : List String) : c.rank names < s.context.rank names := by
  obtain ⟨hdepth, frame, rfl, -⟩ := h.cases
  show s.context.free names + (mixinDepthLimit - (s.context.mixinDepth + 1)) < _
  unfold Context.rank
  omega

/-- Names in reach and what is under way, for the parts of a node at any depth. -/
theorem parts_keep (names : List String) (h : Relation.ReflTransGen (Inside d) s t) :
    t.names ⊆ s.names ∧ t.context.rank names = s.context.rank names := by
  induction h with
  | refl => exact ⟨List.Subset.refl _, rfl⟩
  | tail _ hstep ih =>
    refine ⟨List.Subset.trans hstep.names_subset ih.1, ?_⟩
    rw [← ih.2]
    unfold Context.rank
    rw [hstep.free_eq, hstep.mixinDepth_eq]

end Config

namespace Deeper

/-- Definitions are evaluated without exhausting a bound where fewer than `k` others can follow. -/
structure FinishesBelow (names : List String) (k : Nat) (d : Deeper) : Prop where
  node : ∀ s : Config, s.names ⊆ names → s.context.rank names < k →
    Finished (d.node s.context s.node)
  rules : ∀ (c : Context) (rules : List Node),
    (∀ rule ∈ rules, (Config.mk (c.inFrame (.ofRules rules)) rule).names ⊆ names) →
      c.rank names < k → Finished (d.rules c rules)

variable {names : List String} {k : Nat} {d : Deeper}

/-- Evaluation finishes where definitions do whenever fewer than `k` others can follow. -/
theorem FinishesBelow.eval (h : d.FinishesBelow names k) (hd : d.Plain) {s : Config}
    (hs : s.names ⊆ names) (hrank : s.context.rank names ≤ k) :
    Finished (Evaluation.eval d s.context s.node) := by
  suffices hself : Finished (Evaluation.eval d s.context s.node) ∧
      Evaluation.eval d s.context s.node = Evaluation.eval d s.context s.node by exact hself.1
  refine eval_related .finished s fun t ht => ?_
  obtain ⟨hnames, hsame⟩ := Config.parts_keep names ht
  have ht : t.names ⊆ names := List.Subset.trans hnames hs
  refine ⟨fun u hu => ⟨?_, rfl⟩, fun c rules hexp => ⟨?_, rfl⟩⟩
  · have hlt := hu.rank_lt ht
    exact h.node u (List.Subset.trans hu.names_subset ht) (by omega)
  · have hlt := hexp.rank_lt names
    refine h.rules c rules (fun rule hrule => ?_) (by omega)
    exact List.Subset.trans (hexp.names_subset hd hrule) ht

/-- With a bound of `k`, definitions finish where fewer than `k` others can follow, by induction on
`k`. -/
theorem within_finishesBelow (names : List String) : ∀ k, (within k).FinishesBelow names k
  | 0 => ⟨fun _ _ h => absurd h (Nat.not_lt_zero _), fun _ _ _ h => absurd h (Nat.not_lt_zero _)⟩
  | k + 1 => by
    have ih := within_finishesBelow names k
    refine ⟨fun s hs hrank => ?_, fun c rules hrules hrank => ?_⟩
    · exact .bind (ih.eval (within_plain k) hs (Nat.le_of_lt_succ hrank)) fun _ => .ok _
    · suffices hself : Finished (evalRules (within k) c rules) ∧
          evalRules (within k) c rules = evalRules (within k) c rules by exact hself.1
      refine evalSplice_related .finished fun rule hrule => ⟨?_, rfl⟩
      exact ih.eval (within_plain k) (hrules rule hrule) (Nat.le_of_lt_succ hrank)

/-- A greater bound changes a result only if the smaller one was exhausted. -/
theorem within_refines (n k : Nat) :
    (∀ c node, (within n).node c node = .error .unfinished ∨
      (within n).node c node = (within (n + k)).node c node) ∧
    ∀ c rules, (within n).rules c rules = .error .unfinished ∨
      (within n).rules c rules = (within (n + k)).rules c rules := by
  induction n with
  | zero => exact ⟨fun _ _ => .inl rfl, fun _ _ => .inl rfl⟩
  | succ n ih =>
    rw [Nat.add_right_comm]
    refine ⟨fun c node => ?_, fun c rules => ?_⟩
    · exact Stepwise.refines.map (eval_refines ih.1 ih.2 c node) fun _ => .ok _
    · exact evalSplice_related .refines fun rule _ => eval_refines ih.1 ih.2 _ rule

/-- Two bounds that are not exhausted give the same result. -/
theorem eq_of_refines {α : Type} {f : Nat → Except Error α}
    (hf : ∀ n k, f n = .error .unfinished ∨ f n = f (n + k)) {a b : Nat} (ha : Finished (f a))
    (hb : Finished (f b)) : f a = f b := by
  rcases Nat.le_total a b with hab | hab
  · obtain ⟨k, rfl⟩ := Nat.exists_eq_add_of_le hab
    exact (hf a k).resolve_left ha
  · obtain ⟨k, rfl⟩ := Nat.exists_eq_add_of_le hab
    exact ((hf b k).resolve_left hb).symm

/-- Two bounds that are both enough give a definition the same value. -/
theorem within_node_eq {a b : Nat} {c : Context} {n : Node} (ha : Finished ((within a).node c n))
    (hb : Finished ((within b).node c n)) : (within a).node c n = (within b).node c n :=
  eq_of_refines (f := fun k => (within k).node c n) (fun n k => (within_refines n k).1 c _) ha hb

/-- Two bounds that are both enough give the rules of a mixin the same result. -/
theorem within_rules_eq {a b : Nat} {c : Context} {rules : List Node}
    (ha : Finished ((within a).rules c rules)) (hb : Finished ((within b).rules c rules)) :
    (within a).rules c rules = (within b).rules c rules :=
  eq_of_refines (f := fun k => (within k).rules c rules)
    (fun n k => (within_refines n k).2 c _) ha hb

end Deeper

/-- The bound of an evaluation is never exhausted. -/
theorem Context.eval_finished (c : Context) (n : Node) : Finished (c.eval n) :=
  (Deeper.within_finishesBelow (c.names [n]) _).eval (Deeper.within_plain _) (s := ⟨c, n⟩)
    (List.Subset.refl _) (Nat.le_of_lt (c.rank_lt_bound [n]))

/-! ## Evaluation without bound -/

/-- Definitions are evaluated as any other node is, each with a bound of its own. -/
def Deeper.unbounded : Deeper where
  node c n := do return (← c.eval n).toNode
  rules c rules := evalRules (.within (c.bound rules)) c rules

/-- With bounds of their own, definitions are evaluated to plain nodes. -/
theorem Deeper.unbounded_plain : Deeper.unbounded.Plain where
  node c n := .bind (eval_plain (within_plain _) c n) fun _ h => .ok h.toNode
  rules _ _ := evalSplice_plain (within_plain _) _ _

/-- **Evaluation satisfies the equations of an evaluation without bound.** -/
theorem Context.eval_eq (c : Context) (n : Node) : c.eval n = Evaluation.eval .unbounded c n := by
  refine eval_related .eq ⟨c, n⟩ fun t ht => ?_
  obtain ⟨hnames, hsame⟩ := Config.parts_keep (c.names [n]) ht
  have hbound : t.context.rank (c.names [n]) < c.bound [n] := hsame ▸ c.rank_lt_bound [n]
  refine ⟨fun u hu => ?_, fun c' rules hexp => ?_⟩
  · have hlt : u.context.rank (c.names [n]) < _ := hu.rank_lt hnames
    refine Deeper.within_node_eq (b := u.context.bound [u.node] + 1) ?_ ?_
    · refine (Deeper.within_finishesBelow (c.names [n]) _).node u ?_ (by omega)
      exact List.Subset.trans hu.names_subset hnames
    · refine (Deeper.within_finishesBelow u.names _).node u (List.Subset.refl _) ?_
      exact Nat.lt_succ_of_lt (u.context.rank_lt_bound [u.node])
  · have hlt := hexp.rank_lt (c.names [n])
    refine Deeper.within_rules_eq (b := c'.bound rules + 1) ?_ ?_
    · refine (Deeper.within_finishesBelow (c.names [n]) _).rules c' rules ?_ (by omega)
      exact fun rule hrule =>
        List.Subset.trans (hexp.names_subset (Deeper.within_plain _) hrule) hnames
    · refine (Deeper.within_finishesBelow (c'.names rules) _).rules c' rules ?_ ?_
      · exact fun rule hrule => c'.names_inFrame_subset hrule
      · exact Nat.lt_succ_of_lt (c'.rank_lt_bound rules)

/-! ## Stylesheets -/

namespace Ruleset

/-- A rule set is evaluated as the node that it is. -/
theorem eval_toNode (c : Context) (r : Ruleset) :
    c.eval r.toNode = do return .one (← r.eval c).toNode := by
  have hbound : c.bound [r.toNode] = c.bound r.rules := by
    simp [Context.bound, toNode, Node.definedNamesAll, Node.definedNames]
  unfold Context.eval
  rw [hbound]
  rfl

theorem toNode_inj {r s : Ruleset} (h : r.toNode = s.toNode) : r = s := by
  obtain ⟨selectors, rules, root⟩ := r
  cases h
  rfl

/-- A rule set is evaluated as without bound. -/
theorem eval_eq (c : Context) (r : Ruleset) :
    r.eval c = Evaluation.ruleset .unbounded c r.selectors r.root fun inside =>
      evalRules .unbounded inside r.rules := by
  have hnode : (do return .one (← r.eval c).toNode : Except Error Yield) = do
      return .one (← Evaluation.ruleset .unbounded c r.selectors r.root fun inside =>
        evalRules .unbounded inside r.rules).toNode := by
    rw [← eval_toNode, Context.eval_eq]
    rfl
  exact eq_of_return_eq (fun _ _ h => toNode_inj (Yield.one.inj h)) hnode

/-- Evaluating a stylesheet always finishes. -/
theorem evaluate_finished (c : Context) (r : Ruleset) : Finished (r.evaluate c) := by
  have heval : Finished (r.eval c) := by
    intro h
    refine c.eval_finished r.toNode ?_
    rw [eval_toNode, h]
    rfl
  exact .bind heval fun _ => .ok _

/-- **Evaluation ends**, for every rule set and all options.

* There is a result, which is a value or an error other than an exhausted bound, and it is that of
  an evaluation without bound.
* An evaluation depends only on what the parts of the node lead to, so that a chain of nested
  evaluations is a chain of steps, and no such chain is endless.
* Along every chain a name is under way at most once, only names of variables and parameters that
  the rule set defines are, or that of all arguments, and calls of mixins nest at most 64 deep.
  Every step decreases the number of calls that may still be nested, or else the number of these
  names that are not under way, or else the size of the node. -/
theorem evaluate_terminates (o : Options) (r : Ruleset) :
    let start : Config := ⟨.ofOptions o, r.toNode⟩
    let names := "@arguments" :: r.toNode.definedNames
    ((∃ result, r.evaluate start.context = .ok result) ∨
      ∃ e, e ≠ .unfinished ∧ r.evaluate start.context = .error e) ∧
    (start.context.eval start.node = do return .one (← r.eval start.context).toNode) ∧
    (∀ s : Config, s.context.eval s.node = Evaluation.eval .unbounded s.context s.node) ∧
    (∀ (s : Config) (d : Deeper),
      (∀ t, Relation.ReflTransGen (Config.Inside .unbounded) s t →
        Related (fun _ x y => x = y) .unbounded d t) →
      s.context.eval s.node = Evaluation.eval d s.context s.node) ∧
    Acc (fun t s => Config.Enters .unbounded s t) start ∧
    ∀ s, start.Reaches .unbounded s →
      s.context.pending.Nodup ∧ (∀ name ∈ s.context.pending, name ∈ names) ∧
        s.context.mixinDepth ≤ 64 ∧
      ∀ t, s.Enters .unbounded t →
        Prod.Lex (· < ·) (Prod.Lex (· < ·) (· < ·)) (t.measure names) (s.measure names) := by
  intro start names
  have hplain := Deeper.unbounded_plain
  have hnames : start.names ⊆ names := by
    intro x hx
    rcases Config.mem_names.mp hx with rfl | ⟨f, hf, -⟩ | hx
    · exact List.mem_cons_self
    · cases hf
    · exact List.mem_cons_of_mem _ hx
  have hguarded : start.Guarded names :=
    ⟨List.nodup_nil, fun _ h => absurd h List.not_mem_nil, Nat.zero_le _⟩
  refine ⟨?_, eval_toNode _ r, fun s => Context.eval_eq _ _, fun s d h => ?_,
    Config.acc_enters hplain hnames, fun s hs => ?_⟩
  · have hfinished := evaluate_finished start.context r
    cases hresult : r.evaluate start.context with
    | ok result => exact .inl ⟨result, rfl⟩
    | error e =>
      refine .inr ⟨e, fun he => hfinished ?_, rfl⟩
      rw [hresult, he]
  · rw [Context.eval_eq]
    exact eval_related .eq s h
  · have hg := hs.guarded hplain hnames hguarded
    refine ⟨hg.nodup, hg.pending, hg.depth, fun t ht => ht.measure_lt ?_⟩
    exact List.Subset.trans (hs.names_subset hplain) hnames

end Ruleset

end LessCss
