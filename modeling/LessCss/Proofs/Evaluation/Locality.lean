import LessCss.Proofs.Evaluation.Finished
import LessCss.Proofs.Evaluation.Steps

/-!
# What evaluation depends on

How definitions are evaluated is a parameter of evaluation.  Two choices of it that agree on every
definition which the steps of evaluation lead to give the same result (`Evaluation.eval_local`): the
steps of `Config.Enters` leave out nothing that evaluation does.

The same argument serves for other relations between results than equality, so it is given once for
all that computations keep step by step (`Stepwise`).
-/

namespace LessCss

open Evaluation

/-- A relation between results that holds of two computations if it holds of all their steps. -/
structure Stepwise (R : (α : Type) → Except Error α → Except Error α → Prop) : Prop where
  refl : ∀ {α : Type} {x : Except Error α}, Finished x → R α x x
  bind : ∀ {α β : Type} {x y : Except Error α} {f g : α → Except Error β}, R α x y →
    (∀ a, x = .ok a → R β (f a) (g a)) → R β (x >>= f) (y >>= g)
  locate : ∀ {α : Type} {x y : Except Error α} (offset : Nat), R α x y →
    R α (x.mapError (Error.locate offset)) (y.mapError (Error.locate offset))

namespace Stepwise

/-- Results that are the same. -/
theorem eq : Stepwise fun _ x y => x = y where
  refl _ := rfl
  bind := by
    intro α β x y f g hx hf
    subst hx
    cases x with
    | ok a => exact hf a rfl
    | error e => rfl
  locate offset hx := by rw [hx]

/-- Results of which the first is the second unless its bound was exhausted. -/
theorem refines : Stepwise fun _ x y => x = .error .unfinished ∨ x = y where
  refl _ := .inr rfl
  bind := by
    intro α β x y f g hx hf
    rcases hx with rfl | rfl
    · exact .inl rfl
    · cases x with
      | ok a => exact hf a rfl
      | error e => exact .inr rfl
  locate offset hx := by
    rcases hx with rfl | rfl
    · exact .inl rfl
    · exact .inr rfl

/-- Results of which the first is the second if that is a value. -/
theorem allows : Stepwise fun _ x y => ∀ a, y = .ok a → x = .ok a where
  refl _ _ ha := ha
  bind := by
    intro α β x y f g hx hf b hb
    obtain ⟨a, rfl, hb⟩ := exists_of_bind_eq_ok hb
    rw [hx a rfl]
    exact hf a (hx a rfl) b hb
  locate offset hx a ha := by
    rw [hx a (eq_ok_of_mapError ha)]
    rfl

/-- Results that are the same, a bound not having been exhausted. -/
theorem finished : Stepwise fun _ x y => Finished x ∧ x = y where
  refl hx := ⟨hx, rfl⟩
  bind := by
    rintro α β x y f g ⟨hx, rfl⟩ hf
    cases x with
    | ok a => exact hf a rfl
    | error e =>
      refine ⟨.error fun he => hx ?_, rfl⟩
      rw [he]
  locate offset hx := ⟨.locate hx.1 offset, by rw [hx.2]⟩

variable {R : (α : Type) → Except Error α → Except Error α → Prop} (hR : Stepwise R)

include hR

theorem ok {α : Type} (a : α) : R α (.ok a) (.ok a) := hR.refl (.ok a)

/-- A step that finishes on both sides keeps results related. -/
theorem map {α β : Type} {x y : Except Error α} {f : α → Except Error β} (h : R α x y)
    (hf : ∀ a, Finished (f a)) : R β (x >>= f) (y >>= f) :=
  hR.bind h fun a _ => hR.refl (hf a)

theorem mapM {α β : Type} {f g : α → Except Error β} {xs : List α}
    (h : ∀ x ∈ xs, R β (f x) (g x)) : R (List β) (xs.mapM f) (xs.mapM g) := by
  induction xs with
  | nil => exact hR.ok []
  | cons x xs ih =>
    rw [List.mapM_cons, List.mapM_cons]
    refine hR.bind (h x List.mem_cons_self) fun y _ => ?_
    exact hR.map (ih fun z hz => h z (List.mem_cons_of_mem _ hz)) fun _ => .ok _

end Stepwise

namespace Evaluation

variable {R : (α : Type) → Except Error α → Except Error α → Prop} {d d' : Deeper}

/-! ## Variables and texts -/

/-- Two ways to evaluate definitions are related on what a configuration itself asks for. -/
structure Related (R : (α : Type) → Except Error α → Except Error α → Prop) (d d' : Deeper)
    (s : Config) : Prop where
  node : ∀ t, s.Asks t → R _ (d.node t.context t.node) (d'.node t.context t.node)
  rules : ∀ c rules, s.Expands d c rules → R _ (d.rules c rules) (d'.rules c rules)

/-- The values of a variable are related. -/
def RelatedAt (R : (α : Type) → Except Error α → Except Error α → Prop) (d d' : Deeper)
    (c : Context) (name : String) : Prop :=
  ∀ offset, R _ (reference d c name offset) (reference d' c name offset)

/-- A variable that a node asks for is related if the node is. -/
theorem Related.reference (hR : Stepwise R) {c : Context} {n : Node} (h : Related R d d' ⟨c, n⟩)
    {name : String} (hname : name ∈ n.asked) : RelatedAt R d d' c name := by
  intro offset
  unfold Evaluation.reference
  split
  · exact hR.refl (.error nofun)
  · next definition found =>
    refine hR.bind (hR.refl (.of_ordinary (inVariable_fails c name))) fun inside enter => ?_
    exact h.node ⟨inside, definition⟩ (.definition hname found enter)

/-- Filling a text has related results if all variables it asks for are related. -/
theorem fill_related (hR : Stepwise R) {c : Context} {text : String}
    (h : ∀ name ∈ Text.asked text, RelatedAt R d d' c name) :
    R _ (fill d c text) (fill d' c text) := by
  refine hR.map (hR.mapM fun part hpart => ?_) fun _ => .ok _
  cases part with
  | plain char => exact hR.ok _
  | hole name offset =>
    refine hR.map (h _ ?_ offset) fun n => .of_ordinary (bareText_fails c.style n)
    exact List.mem_filterMap.mpr ⟨_, hpart, rfl⟩

mutual
theorem fillSelector_related (hR : Stepwise R) {c : Context} : ∀ s : Selector,
    (∀ name ∈ s.asked, RelatedAt R d d' c name) → R _ (fillSelector d c s) (fillSelector d' c s)
  | .mk elements extending, h => by
    refine hR.bind (hR.mapM fun e he => ?_) fun _ _ => ?_
    · refine hR.map (fill_related hR fun name hname => h name ?_) fun _ => .ok _
      exact List.mem_append_left _ (List.mem_flatMap.mpr ⟨e, he, hname⟩)
    · refine hR.map (fillTargets_related hR extending fun name hname => h name ?_) fun _ => .ok _
      exact List.mem_append_right _ hname
theorem fillTargets_related (hR : Stepwise R) {c : Context} : ∀ xs : List (Selector × Bool),
    (∀ name ∈ Selector.askedTargets xs, RelatedAt R d d' c name) →
      R _ (fillTargets d c xs) (fillTargets d' c xs)
  | [], _ => hR.ok []
  | (target, all) :: rest, h => by
    refine hR.bind (fillSelector_related hR target fun name hname => ?_) fun _ _ => ?_
    · exact h name (List.mem_append_left _ hname)
    · refine hR.map (fillTargets_related hR rest fun name hname => ?_) fun _ => .ok _
      exact h name (List.mem_append_right _ hname)
end

/-! ## Nodes -/

theorem evalEach_related (hR : Stepwise R) {c : Context} {nodes : List Node}
    (h : ∀ n ∈ nodes, R _ (eval d c n) (eval d' c n)) :
    R _ (evalEach d c nodes) (evalEach d' c nodes) := by
  induction nodes with
  | nil => exact hR.ok []
  | cons node nodes ih =>
    refine hR.bind (h node List.mem_cons_self) fun _ _ => ?_
    exact hR.map (ih fun n hn => h n (List.mem_cons_of_mem _ hn)) fun _ => .ok _

theorem evalSplice_related (hR : Stepwise R) {c : Context} {nodes : List Node}
    (h : ∀ n ∈ nodes, R _ (eval d c n) (eval d' c n)) :
    R _ (evalSplice d c nodes) (evalSplice d' c nodes) := by
  induction nodes with
  | nil => exact hR.ok []
  | cons node nodes ih =>
    refine hR.bind (h node List.mem_cons_self) fun _ _ => ?_
    exact hR.map (ih fun n hn => h n (List.mem_cons_of_mem _ hn)) fun _ => .ok _

theorem evalHeader_related (hR : Stepwise R) {c : Context} {header : Option Node}
    (h : ∀ n, header = some n → R _ (eval d c n) (eval d' c n)) :
    R _ (evalHeader d c header) (evalHeader d' c header) := by
  cases header with
  | none => exact hR.ok none
  | some n => exact hR.map (h n rfl) fun _ => .ok _

/-- A rule set, given that its rules are related in the context that it sets up for them. -/
theorem ruleset_related (hR : Stepwise R) {c : Context} {selectors : List Selector} {root : Bool}
    {rules rules' : Context → Except Error (List Node)}
    (hfill : root = false → ∀ s ∈ selectors, R _ (fillSelector d c s) (fillSelector d' c s))
    (hroot : root = true → R _ (rules c) (rules' c))
    (hrules : root = false → ∀ own, selectors.mapM (fillSelector d c) = .ok own →
      R _ (rules (c.underSelectors (Selector.joinAll c.selectors own)))
        (rules' (c.underSelectors (Selector.joinAll c.selectors own)))) :
    R _ (ruleset d c selectors root rules) (ruleset d' c selectors root rules') := by
  cases root with
  | true => exact hR.map (hroot rfl) fun _ => .ok _
  | false =>
    refine hR.bind (hR.mapM (hfill rfl)) fun own hown => ?_
    exact hR.map (hrules rfl own hown) fun _ => .ok _

/-- A node is related if its parts are and what it asks for itself is. -/
theorem eval_related_of_parts (hR : Stepwise R) {c : Context} {n : Node}
    (own : Related R d d' ⟨c, n⟩)
    (parts : ∀ t, Config.Inside d ⟨c, n⟩ t →
      R _ (eval d t.context t.node) (eval d' t.context t.node)) :
    R _ (eval d c n) (eval d' c n) := by
  cases n with
  | dimension | comment | keyword | selector | mixin => exact hR.refl (.ok _)
  | expression items parens operand tight =>
    match items, parts with
    | [], _ => exact hR.ok _
    | [item], parts => exact hR.map (parts _ (.item List.mem_cons_self)) fun _ => .ok _
    | item :: next :: items, parts =>
      exact hR.map (evalSplice_related hR fun n hn => parts _ (.item hn)) fun _ => .ok _
  | list items =>
    match items, parts with
    | [], _ => exact hR.ok _
    | [item], parts => exact hR.map (parts _ (.listItem List.mem_cons_self)) fun _ => .ok _
    | item :: next :: items, parts =>
      exact hR.map (evalEach_related hR fun n hn => parts _ (.listItem hn)) fun _ => .ok _
  | paren inner => exact hR.map (parts _ .paren) fun _ => .ok _
  | quoted quote text escaped =>
    exact hR.map (fill_related hR fun name hname => own.reference hR hname) fun _ => .ok _
  | url text =>
    exact hR.map (fill_related hR fun name hname => own.reference hR hname) fun _ => .ok _
  | reference name offset =>
    exact hR.map (own.reference hR (List.mem_singleton_self name) offset) fun _ => .ok _
  | operation op left right spaced offset =>
    refine hR.bind (parts _ .left) fun l _ => hR.bind (parts _ .right) fun r _ => ?_
    exact hR.map (hR.refl (operation_finished c op _ _ spaced offset)) fun _ => .ok _
  | negative inner =>
    refine hR.bind (parts _ .negative) fun value _ => ?_
    exact hR.map (hR.refl (.of_succeeds (negative_succeeds c _))) fun _ => .ok _
  | call name args offset =>
    refine hR.bind (evalEach_related hR fun n hn => parts _ (.callArgument hn)) fun values _ => ?_
    exact hR.map (hR.refl (.of_ordinary (builtin_fails c.style name values))) fun _ => .ok _
  | declaration name value important isVariable offset =>
    cases isVariable with
    | true => exact hR.ok _
    | false =>
      refine hR.bind (fill_related hR fun name hname => own.reference hR hname)
        fun filled hfilled => ?_
      exact hR.map (hR.locate offset (parts _ (.value hfilled))) fun _ => .ok _
  | ruleset selectors rules root =>
    refine hR.map (ruleset_related hR ?_ ?_ ?_) fun _ => .ok _
    · rintro rfl s hs
      refine fillSelector_related hR s fun name hname => own.reference hR ?_
      exact List.mem_flatMap.mpr ⟨s, hs, hname⟩
    · rintro rfl
      exact evalSplice_related hR fun n hn => parts _ (.sheetRule hn)
    · rintro rfl own hown
      exact evalSplice_related hR fun n hn => parts _ (.rulesetRule hown hn)
  | atRule name header rules =>
    have hheader : R _ (evalHeader d c header) (evalHeader d' c header) := by
      refine evalHeader_related hR ?_
      rintro n rfl
      exact parts _ .header
    cases rules with
    | none => exact hR.map hheader fun _ => .ok _
    | some rules =>
      refine hR.bind hheader fun _ _ => ?_
      exact hR.map (evalSplice_related hR fun n hn => parts _ (.atRuleRule hn)) fun _ => .ok _
  | media features rules =>
    refine hR.bind (parts _ .features) fun _ _ => ?_
    exact hR.map (evalSplice_related hR fun n hn => parts _ (.mediaRule hn)) fun _ => .ok _
  | importRule path features options =>
    refine hR.bind (parts _ .path) fun _ _ => ?_
    refine hR.map (evalHeader_related hR ?_) fun _ => .ok _
    rintro n rfl
    exact parts _ .importFeatures
  | mixinCall name args important offset =>
    unfold eval
    split
    · have hundefined : Error.undefinedMixin name offset ≠ .unfinished := by
        intro h
        cases h
      exact hR.refl (.error hundefined)
    · next m found =>
      refine hR.bind (evalEach_related hR fun n hn => parts _ (.argument hn))
        fun values hvalues => ?_
      have hframe := Finished.of_ordinary
        (argumentFrame_fails m name offset ((args.map argumentName?).zip values))
      refine hR.map (hR.bind (hR.refl hframe) fun frame hframe => ?_) fun _ => .ok _
      refine hR.bind (hR.refl (.of_ordinary (inMixin_fails c name))) fun inside hinside => ?_
      exact hR.map (own.rules _ _ (.rules found hvalues hframe hinside)) fun _ => .ok _
  | argument name value => exact parts _ .argumentValue

/-- **Evaluation depends only on what its steps lead to**: if two ways to evaluate definitions are
related wherever the parts of a node ask for something, then so are the two values of the node. -/
theorem eval_related (hR : Stepwise R) (s : Config)
    (h : ∀ t, Relation.ReflTransGen (Config.Inside d) s t → Related R d d' t) :
    R _ (eval d s.context s.node) (eval d' s.context s.node) := by
  induction hsize : sizeOf s.node using Nat.strongRecOn generalizing s with
  | ind size ih =>
    refine eval_related_of_parts hR (h s .refl) fun t ht => ?_
    refine ih _ (hsize ▸ ht.sizeOf_lt) t (fun u hu => h u (.head ht hu)) rfl

/-- With a stricter bound evaluation gives the same result unless that bound is exhausted. -/
theorem eval_refines (hnode : ∀ c n, d.node c n = .error .unfinished ∨ d.node c n = d'.node c n)
    (hrules : ∀ c rules, d.rules c rules = .error .unfinished ∨ d.rules c rules = d'.rules c rules)
    (c : Context) (n : Node) : eval d c n = .error .unfinished ∨ eval d c n = eval d' c n :=
  eval_related .refines ⟨c, n⟩ fun _ _ => ⟨fun _ _ => hnode _ _, fun c rules _ => hrules c rules⟩

end Evaluation

end LessCss
