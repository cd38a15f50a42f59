import Mathlib.Data.List.Induction
import Mathlib.Data.List.Nodup
import LessCss.Compile
import LessCss.Proofs.Evaluation.Reach

/-!
# Which definition of a name counts

A scope is made by taking in rules one after the other.  What one rule does to a name is said by
`Frame.lookup_values_add_rule` and `Frame.lookup_mixins_add_rule`: a variable or a mixin replaces
what the name stood for, but a rule set counts as a mixin only if the name stood for nothing.  Hence
of several variables the last one counts, and so does the last of several mixins; of several rule
sets it is the first, and then only if there is no mixin of the name at all (`Frame.ofRules_exact`,
`Frame.ofRules_passes_over`).
-/

namespace LessCss

/-! ## Bindings -/

namespace Bindings

variable {α : Type} (b : Bindings α) (name x : String) (a : α)

/-- What a name is bound to if only free names are bound. -/
theorem lookup_putNew :
    (b.putNew name a).lookup x = (b.lookup x).or (if x = name then some a else none) := by
  unfold putNew
  by_cases hx : x = name
  · subst hx
    cases hbound : b.lookup x with
    | none => simp [lookup_put]
    | some y => simp [hbound]
  · rw [if_neg hx, Option.or_none]
    split
    · rfl
    · rw [lookup_put, if_neg hx]

/-- Binding a name puts it behind the names bound before, unless it is one of them. -/
theorem keys_put : (b.put name a).map Prod.fst =
    if name ∈ b.map Prod.fst then b.map Prod.fst else b.map Prod.fst ++ [name] := by
  induction b with
  | nil => rfl
  | cons entry rest ih =>
    obtain ⟨n, y⟩ := entry
    rw [put]
    by_cases hn : n = name
    · simp [hn]
    · rw [if_neg hn, List.map_cons, List.map_cons, ih]
      by_cases hmem : name ∈ rest.map Prod.fst
      · rw [if_pos hmem, if_pos (List.mem_cons_of_mem _ hmem)]
      · rw [if_neg hmem, if_neg, List.cons_append]
        exact fun h => hmem ((List.mem_cons.mp h).resolve_left (Ne.symm hn))

variable {b}

/-- No name comes to be bound twice. -/
theorem nodup_put (h : (b.map Prod.fst).Nodup) : ((b.put name a).map Prod.fst).Nodup := by
  rw [keys_put]
  split
  · exact h
  · next hnew =>
    refine List.nodup_append.mpr ⟨h, List.nodup_singleton _, ?_⟩
    rintro x hx y hy rfl
    exact hnew (List.mem_singleton.mp hy ▸ hx)

/-- Binding names that are new keeps the names distinct. -/
theorem nodup_putNew (h : (b.map Prod.fst).Nodup) : ((b.putNew name a).map Prod.fst).Nodup := by
  unfold putNew
  split
  · exact h
  · exact nodup_put name a h

end Bindings

/-! ## What one rule defines -/

namespace Node

variable (name : String)

/-- The value that a rule gives to a variable. -/
def valueFor? : Node → Option Node
  | declaration x value _ true _ => if x = name then some value else none
  | _ => none

/-- The mixin that a rule is, if it has the name. -/
def mixinFor? : Node → Option Mixin
  | mixin x params guard rules => if x = name then some ⟨x, params, guard, rules⟩ else none
  | _ => none

/-- A rule set as a mixin, if that is what its selectors name. -/
def callableFor? : Node → Option Mixin
  | ruleset selectors rules _ =>
    if Selector.callKey? selectors = some name then some ⟨name, [], none, rules⟩ else none
  | _ => none

/-- What a rule can stand for when a mixin of the name is called. -/
def ruleFor? (n : Node) : Option Mixin := (n.mixinFor? name).or (n.callableFor? name)

variable {name} {n : Node} {m : Mixin}

/-- A definition of a mixin is not also a rule set that can be called. -/
theorem callableFor?_of_mixinFor? (h : n.mixinFor? name = some m) : n.callableFor? name = none := by
  cases n with
  | mixin x params guard rules => rfl
  | _ => cases h

theorem ruleFor?_of_callableFor? (h : n.callableFor? name = some m) : n.ruleFor? name = some m := by
  cases n with
  | ruleset selectors rules root => exact h
  | _ => cases h

end Node

namespace Frame

section Step

variable (f : Frame) (n : Node) (name : String)

/-- A variable replaces what its name stood for. -/
theorem lookup_values_add_rule :
    (f.add n).values.lookup name = (n.valueFor? name).or (f.values.lookup name) := by
  unfold add
  split
  · rename_i x value important offset
    show (f.values.put x value).lookup name = _
    rw [Bindings.lookup_put, Node.valueFor?]
    by_cases hx : name = x
    · simp [hx]
    · rw [if_neg hx, if_neg (Ne.symm hx), Option.none_or]
  · rfl
  · split <;> rfl
  · next hdeclaration _ _ =>
    have hnone : n.valueFor? name = none := by
      unfold Node.valueFor?
      split
      · exact absurd rfl (hdeclaration _ _ _ _)
      · rfl
    rw [hnone, Option.none_or]

/-- A mixin replaces what its name stood for, and a rule set does not. -/
theorem lookup_mixins_add_rule : (f.add n).mixins.lookup name =
    ((n.mixinFor? name).or (f.mixins.lookup name)).or (n.callableFor? name) := by
  unfold add
  split
  · simp [Node.mixinFor?, Node.callableFor?]
  · rename_i x params guard rules
    show (f.mixins.put x _).lookup name = _
    simp only [Bindings.lookup_put, Node.mixinFor?, Node.callableFor?, Option.or_none]
    by_cases hx : name = x
    · simp [hx]
    · rw [if_neg hx, if_neg (Ne.symm hx), Option.none_or]
  · rename_i selectors rules root
    simp only [Node.mixinFor?, Node.callableFor?, Option.none_or]
    split
    · next key hkey =>
      show (f.mixins.putNew key _).lookup name = _
      rw [Bindings.lookup_putNew, hkey]
      by_cases hx : name = key
      · simp [hx]
      · rw [if_neg hx, if_neg fun h => hx (Option.some.inj h).symm]
    · next hkey => rw [hkey, if_neg nofun, Option.or_none]
  · next _ hmixin hruleset =>
    have hmixin : n.mixinFor? name = none := by
      unfold Node.mixinFor?
      split
      · exact absurd rfl (hmixin _ _ _ _)
      · rfl
    have hcallable : n.callableFor? name = none := by
      unfold Node.callableFor?
      split
      · exact absurd rfl (hruleset _ _ _)
      · rfl
    rw [hmixin, hcallable, Option.none_or, Option.or_none]

end Step

/-! ## All rules of a scope -/

/-- The definitions of rules with one more are those of the rules with the last one added. -/
theorem ofRules_concat (rules : List Node) (n : Node) :
    ofRules (rules ++ [n]) = (ofRules rules).add n := by
  rw [ofRules, ofRules, List.foldl_concat]

variable (rules : List Node) (name : String)

/-- Of several variables of a name the last one counts. -/
theorem lookup_values_eq_getLast? :
    (ofRules rules).values.lookup name = (rules.filterMap (·.valueFor? name)).getLast? := by
  induction rules using List.reverseRecOn with
  | nil => rfl
  | append_singleton rules n ih =>
    rw [ofRules_concat, lookup_values_add_rule, ih, List.filterMap_append, List.getLast?_append]
    cases hn : n.valueFor? name <;> simp [hn]

/-- Of several mixins of a name the last one counts; without any, the first of several rule sets. -/
theorem lookup_mixins_eq_or : (ofRules rules).mixins.lookup name =
    (rules.filterMap (·.mixinFor? name)).getLast?.or
      (rules.filterMap (·.callableFor? name)).head? := by
  induction rules using List.reverseRecOn with
  | nil => rfl
  | append_singleton rules n ih =>
    rw [ofRules_concat, lookup_mixins_add_rule, ih, List.filterMap_append, List.filterMap_append,
      List.getLast?_append, List.head?_append, ← Option.or_assoc, ← Option.or_assoc]
    congr 2
    · cases hn : n.mixinFor? name <;> simp [hn]
    · cases hn : n.callableFor? name <;> simp [hn]

variable {rules name}

/-- Rules for other names leave alone what a name stands for. -/
theorem lookup_mixins_append {post : List Node} (h : ∀ n ∈ post, n.ruleFor? name = none) :
    (ofRules (rules ++ post)).mixins.lookup name = (ofRules rules).mixins.lookup name := by
  have hnone {g : Node → Option Mixin} (hg : ∀ n ∈ post, g n = none) : post.filterMap g = [] :=
    List.filterMap_eq_nil_iff.mpr hg
  rw [lookup_mixins_eq_or, lookup_mixins_eq_or, List.filterMap_append, List.filterMap_append,
    hnone fun n hn => (Option.or_eq_none_iff.mp (h n hn)).1, hnone fun n hn =>
      (Option.or_eq_none_iff.mp (h n hn)).2,
    List.append_nil, List.append_nil]

/-- The last rule for a name, if there is one. -/
theorem exists_last_rule (h : (rules.filterMap (·.ruleFor? name)) ≠ []) :
    ∃ pre n post m, rules = pre ++ n :: post ∧
    n.ruleFor? name = some m ∧ ∀ k ∈ post, k.ruleFor? name = none := by
  induction rules using List.reverseRecOn with
  | nil => exact absurd rfl h
  | append_singleton rules n ih =>
    cases hn : n.ruleFor? name with
    | some m => exact ⟨rules, n, [], m, rfl, hn, List.forall_mem_nil _⟩
    | none =>
      have hrules : rules.filterMap (·.ruleFor? name) ≠ [] := by simpa [hn] using h
      obtain ⟨pre, k, post, m, rfl, hk, hpost⟩ := ih hrules
      refine ⟨pre, k, post ++ [n], m, by simp, hk, List.forall_mem_append.mpr ⟨hpost, ?_⟩⟩
      exact List.forall_mem_singleton.mpr hn

/-- What the last rule for a name leaves it to stand for: itself if it is a mixin, and if it is a
rule set, only where the name stood for nothing before. -/
theorem lookup_mixins_last {pre post : List Node} {n : Node} {m : Mixin}
    (hn : n.ruleFor? name = some m) (hpost : ∀ k ∈ post, k.ruleFor? name = none) :
    (ofRules (pre ++ n :: post)).mixins.lookup name =
      if (n.callableFor? name).isSome then ((ofRules pre).mixins.lookup name).or (some m)
      else some m := by
  rw [← List.singleton_append, ← List.append_assoc, lookup_mixins_append hpost, ofRules_concat,
    lookup_mixins_add_rule]
  cases hmixin : n.mixinFor? name with
  | some m' =>
    rw [Node.callableFor?_of_mixinFor? hmixin]
    rw [Node.ruleFor?, hmixin] at hn
    simpa using hn
  | none =>
    rw [Node.ruleFor?, hmixin, Option.none_or] at hn
    simp [hn]

/-- The last of the rules for a name, whichever sort it is of. -/
theorem getLast?_filterMap_ruleFor? {pre post : List Node} {n : Node} {m : Mixin}
    (hn : n.ruleFor? name = some m) (hpost : ∀ k ∈ post, k.ruleFor? name = none) :
    ((pre ++ n :: post).filterMap (·.ruleFor? name)).getLast? = some m := by
  rw [List.filterMap_append, List.filterMap_cons_some hn, List.filterMap_eq_nil_iff.mpr hpost]
  exact List.getLast?_concat ..

/-- The last rule for a name is what counts just if it is a mixin, or a rule set before which the
name stood for nothing else. -/
theorem lookup_mixins_eq_getLast?_iff :
    (ofRules rules).mixins.lookup name = (rules.filterMap (·.ruleFor? name)).getLast? ↔
      ∀ pre n post m, rules = pre ++ n :: post → (∀ k ∈ post, k.ruleFor? name = none) →
        n.callableFor? name = some m → ∀ m' ∈ (ofRules pre).mixins.lookup name, m' = m := by
  constructor
  · rintro h pre n post m rfl hpost hn m' hm'
    have hrule := Node.ruleFor?_of_callableFor? hn
    rw [getLast?_filterMap_ruleFor? hrule hpost, lookup_mixins_last hrule hpost, hn,
      Option.mem_def.mp hm'] at h
    exact Option.some.inj h
  · intro h
    by_cases hnone : rules.filterMap (·.ruleFor? name) = []
    · have hempty := @lookup_mixins_append [] name rules (List.filterMap_eq_nil_iff.mp hnone)
      rw [hnone, ← List.nil_append rules, hempty]
      rfl
    · obtain ⟨pre, n, post, m, rfl, hn, hpost⟩ := exists_last_rule hnone
      rw [getLast?_filterMap_ruleFor? hn hpost, lookup_mixins_last hn hpost]
      split
      · next hcallable =>
        obtain ⟨m', hm'⟩ := Option.isSome_iff_exists.mp hcallable
        obtain rfl : m' = m := Option.some.inj ((Node.ruleFor?_of_callableFor? hm').symm.trans hn)
        have hbefore := h pre n post m' rfl hpost hm'
        cases hpre : (ofRules pre).mixins.lookup name with
        | none => rfl
        | some k => rw [hbefore k hpre]; rfl
      · rfl

/-- In a table of definitions each name stands once. -/
theorem nodup_ofRules (rules : List Node) :
    ((ofRules rules).values.map Prod.fst).Nodup ∧ ((ofRules rules).mixins.map Prod.fst).Nodup := by
  induction rules using List.reverseRecOn with
  | nil => exact ⟨List.nodup_nil, List.nodup_nil⟩
  | append_singleton rules n ih =>
    rw [ofRules_concat]
    unfold add
    split
    · exact ⟨Bindings.nodup_put _ _ ih.1, ih.2⟩
    · exact ⟨ih.1, Bindings.nodup_put _ _ ih.2⟩
    · split
      · exact ⟨ih.1, Bindings.nodup_putNew _ _ ih.2⟩
      · exact ih
    · exact ih

/-- **What stands in a scope.**  A variable has the value of the last declaration of it.  A mixin is
called under the last definition of its name; if there is none, under the first rule set that has
the name.  So the last rule for a name is what counts just if it is a definition, or else nothing
other than itself stood for the name before.  No name is bound twice. -/
theorem ofRules_exact (rules : List Node) (name : String) :
    (ofRules rules).values.lookup name = (rules.filterMap (·.valueFor? name)).getLast? ∧
    (ofRules rules).mixins.lookup name =
      (rules.filterMap (·.mixinFor? name)).getLast?.or
        (rules.filterMap (·.callableFor? name)).head? ∧
    ((ofRules rules).mixins.lookup name = (rules.filterMap (·.ruleFor? name)).getLast? ↔
      ∀ pre n post m, rules = pre ++ n :: post → (∀ k ∈ post, k.ruleFor? name = none) →
        n.callableFor? name = some m → ∀ m' ∈ (ofRules pre).mixins.lookup name, m' = m) ∧
    ((ofRules rules).values.map Prod.fst).Nodup ∧ ((ofRules rules).mixins.map Prod.fst).Nodup :=
  ⟨lookup_values_eq_getLast? rules name, lookup_mixins_eq_or rules name,
    lookup_mixins_eq_getLast?_iff, nodup_ofRules rules⟩

/-- Of two rule sets that can be called by one name, the second one is passed over. -/
theorem ofRules_passes_over :
    (∃ first second : Node, first ≠ second ∧
      let rules := [first, second].map fun n => Node.ruleset [.ofElements [⟨.none, ".m"⟩]] [n] false
      (ofRules rules).mixins.lookup ".m" = some ⟨".m", [], none, [first]⟩ ∧
      (rules.filterMap (·.ruleFor? ".m")).getLast? = some ⟨".m", [], none, [second]⟩) ∧
    (compile {} ".m \x7b a: b; \x7d .m \x7b c: d; \x7d .x \x7b .m(); \x7d").toOption =
      some ".m \x7b\n  a: b;\n\x7d\n\n.m \x7b\n  c: d;\n\x7d\n\n.x \x7b\n  a: b;\n\x7d" := by
  refine ⟨⟨.declaration "a" (.keyword "b") false false 0,
    .declaration "c" (.keyword "d") false false 0, ?_, rfl, rfl⟩, by decide +kernel⟩
  intro h
  injection h with hname
  exact absurd hname (by decide)

end Frame

end LessCss
