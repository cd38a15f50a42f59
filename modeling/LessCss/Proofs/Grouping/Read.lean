import LessCss.Proofs.Lexing.Spelling
import LessCss.Proofs.Nesting.ReadValues

/-!
# Operations are read as they are grouped

Operations are written without parentheses other than those that are kept as such, so an operation
is grouped as it is written if each of its operands, where that is an operation too, would be read
as the same operand (`Node.isGrouped`): products bind tighter than sums, both go from left to right,
and a sign binds tightest.

What is read from a text is grouped: the parser puts products into sums, and operands, which are
never bare operations, into products (`Reading.readsValues_grouped`).  More is known of what was
read: an operand that is a row stands in parentheses (`Node.isFactor`), and an operation that is not
part of another one was read off a sum (`Reading.Composed`).
-/

namespace LessCss

/-- How tight an operator binds. -/
def Operator.level : Operator → Nat
  | .add | .sub => 0
  | .mul | .div => 1

namespace Node

/-- The operator of an operation. -/
def operator? : Node → Option Operator
  | operation op .. => some op
  | _ => none

/-- Whether the operands of an operation are read as such when they are written without
parentheses. -/
def isGrouped : Node → Bool
  | operation op left right _ _ =>
    left.operator?.all (op.level ≤ ·.level) && right.operator?.all (op.level < ·.level)
  | negative inner => inner.operator?.isNone
  | _ => true

/-- Whether a node can be a factor: it is no operation, and a row only in parentheses, behind a sign
too. -/
def isFactor : Node → Bool
  | expression _ parens _ _ => parens
  | negative inner => inner.isFactor
  | dimension _ | paren _ | keyword _ | quoted .. | url _ | reference .. | call .. => true
  | list _ | operation .. | comment .. | declaration .. | selector _ | ruleset .. | atRule ..
  | media ..
  | importRule .. | mixin .. | mixinCall .. | argument .. => false

theorem operator?_of_isFactor {n : Node} (h : n.isFactor) : n.operator? = none := by
  cases n with
  | operation => cases h
  | _ => rfl

/-- A value all of whose operations are grouped as they are written. -/
def GroupedValue : Node → Prop := IsValueOf fun n => n.isGrouped

theorem groupedValue_row {values : List Node} (h : ∀ v ∈ values, v.GroupedValue) :
    (row values).GroupedValue :=
  isValueOf_iff.mpr ⟨rfl, rfl, h⟩

theorem groupedValue_list {items : List Node} : (list items).GroupedValue ↔
    ∀ n ∈ items, n.GroupedValue :=
  ⟨fun h => (isValueOf_iff.mp h).2.2, fun h => isValueOf_iff.mpr ⟨rfl, rfl, h⟩⟩

theorem groupedValue_keyword (text : String) : (keyword text).GroupedValue :=
  isValueOf_iff.mpr ⟨rfl, rfl, List.forall_mem_nil _⟩

/-- What is not a value is grouped trivially. -/
theorem isGrouped_of_isValueSort {n : Node} (h : n.isValueSort = false) : n.isGrouped := by
  cases n with
  | operation | negative => cases h
  | _ => rfl

end Node

/-! ## Trees -/

/-- A tree whose values are put together as values are, and whose tokens are spelled as their kinds
say. -/
structure Tree.Sound (t : Tree) : Prop where
  arranged : t.Arranged
  spelled : ∀ x ∈ t.leaves, x.Spelled

namespace Tree

theorem leaves_subset {u : Tree} {ts : List Tree} (hu : u ∈ ts) : u.leaves ⊆ leavesOf ts :=
  (leaves_infix_leavesOf hu).subset

theorem phrase_of_all {p q : Phrase} {ts : List Tree} (h : (node p ts).phrase?.all (· = q)) :
    p = q := by
  simpa [phrase?] using h

/-- What stands in parentheses. -/
theorem Sound.inParens {p : Phrase} {ts : List Tree} (h : (node p ts).Sound)
    (hphrase : (node p ts).phrase?.all (· = .parens)) {t : Tree} (ht : t ∈ ts) :
    t.phrase?.all (· = .value) := by
  obtain rfl := phrase_of_all hphrase
  exact h.arranged.1 t ht

/-- The parts of a sound tree are sound. -/
theorem Sound.child {t u : Tree} (h : t.Sound) (hu : u ∈ t.children) : u.Sound := by
  cases t with
  | leaf x => cases hu
  | node p ts =>
    exact ⟨arrangedAll_iff.mp h.arranged.2 u hu, fun x hx => h.spelled x (leaves_subset hu hx)⟩

end Tree

/-- Every statement of a source is a sound tree. -/
theorem Parse.sound_ofText (source : String) : ∀ t ∈ (ofText source).tree.children, t.Sound := by
  intro t ht
  exact ⟨arranged_ofText source t ht, fun x hx =>
    Lexing.spelled_ofText source x (madeOf_ofText source t ht x hx)⟩

/-! ## Values -/

namespace Reading

open Node

/-- Operands are joined by the operator of the sign, which is spaced if there is a gap before it. -/
theorem joined_eq {op : Token} {o : Operator} (h : Operator.ofSymbol? op.text = some o)
    (left right : Node) (leftStop : Nat) :
    joined op left right leftStop =
      .ok (.operation o left right (op.start > leftStop) op.start) := by
  rw [joined, h]

/-- An operation that was read off a sum, in trees of some sort. -/
def FromSum (T : Tree → Prop) (n : Node) : Prop := ∃ t, T t ∧ t.phrase? = some .sum ∧ sum t = .ok n

/-- The operands of an operation are grouped as they are written, and one that is no operation is a
factor, as is what stands behind a sign; an operation that is no operand of another one was read off
a sum. -/
def Composed (T : Tree → Prop) : Node → Prop
  | operation op left right _ _ =>
    ((∀ o ∈ left.operator?, op.level ≤ o.level) ∧ (left.operator? = none → left.isFactor)) ∧
      (∀ o ∈ right.operator?, op.level < o.level) ∧ (right.operator? = none → right.isFactor)
  | negative inner => inner.isFactor
  | n => ∀ part ∈ n.parts, part.operator?.isSome → FromSum T part

/-- What is composed is grouped as it is written. -/
theorem Composed.isGrouped {T : Tree → Prop} {n : Node} (h : Composed T n) : n.isGrouped := by
  cases n with
  | operation op left right spaced offset =>
    simp only [Node.isGrouped, Bool.and_eq_true, Option.all_eq_true, decide_eq_true_eq]
    exact ⟨h.1.1, h.2.1⟩
  | negative inner => simp [Node.isGrouped, operator?_of_isFactor h]
  | _ => rfl

/-- What is read in trees of some sort. -/
def ComposedValue (T : Tree → Prop) : Node → Prop := IsValueOf (Composed T)

/-- What is read as a value is grouped as it is written. -/
theorem ComposedValue.groupedValue {T : Tree → Prop} {n : Node} (h : ComposedValue T n) :
    n.GroupedValue :=
  ⟨h.1, fun m hm => (h.2 m hm).isGrouped⟩

/-- A value is composed if it is composed itself and its parts are. -/
theorem composedValue_of_sort {T : Tree → Prop} {n : Node} (hsort : n.isValueSort)
    (hcomposed : Composed T n) (hparts : ∀ part ∈ n.parts, ComposedValue T part) :
    ComposedValue T n :=
  isValueOf_iff.mpr ⟨hsort, hcomposed, hparts⟩

/-- A value without parts. -/
theorem composedValue_single {T : Tree → Prop} {n : Node} (hsort : n.isValueSort)
    (hcomposed : Composed T n) (hparts : n.parts = []) : ComposedValue T n := by
  refine composedValue_of_sort hsort hcomposed ?_
  rw [hparts]
  exact List.forall_mem_nil _

section Composed

variable {T : Tree → Prop} {n : Node} {values : List Node}

/-- A value that is no operation. -/
abbrev IsWhole (T : Tree → Prop) (n : Node) : Prop := ComposedValue T n ∧ n.operator? = none

/-- What is read as an operand. -/
abbrev IsAtom (T : Tree → Prop) (n : Node) : Prop := ComposedValue T n ∧ n.isFactor

/-- What is read as a sum: an operation, or an operand. -/
abbrev IsChain (T : Tree → Prop) (n : Node) : Prop :=
  ComposedValue T n ∧ (n.operator? = none → n.isFactor)

/-- What is read as a product: no sum. -/
abbrev IsTerm (T : Tree → Prop) (n : Node) : Prop := IsChain T n ∧ ∀ o ∈ n.operator?, o.level = 1

/-- What is read as a member of a row. -/
abbrev IsMember (T : Tree → Prop) (n : Node) : Prop :=
  ComposedValue T n ∧ (n.operator?.isSome → FromSum T n)

/-- An operand is a product of one factor. -/
theorem IsAtom.isTerm (h : IsAtom T n) : IsTerm T n := by
  refine ⟨⟨h.1, fun _ => h.2⟩, fun o ho => ?_⟩
  rw [operator?_of_isFactor h.2] at ho
  cases ho

theorem IsWhole.isMember (h : IsWhole T n) : IsMember T n := by
  refine ⟨h.1, fun hsome => ?_⟩
  rw [h.2] at hsome
  cases hsome

/-- A row of members is a whole value. -/
theorem isWhole_row (h : ∀ v ∈ values, IsMember T v) : IsWhole T (row values) :=
  ⟨composedValue_of_sort rfl (fun v hv => (h v hv).2) fun v hv => (h v hv).1, rfl⟩

theorem isWhole_list (h : ∀ v ∈ values, IsWhole T v) : IsWhole T (list values) :=
  ⟨composedValue_of_sort rfl (fun v hv => (h v hv).isMember.2) fun v hv => (h v hv).1, rfl⟩

theorem isWhole_keyword (text : String) : IsWhole T (keyword text) :=
  ⟨composedValue_single rfl (List.forall_mem_nil _) rfl, rfl⟩

theorem isAtom_paren (h : IsWhole T n) : IsAtom T (paren n) :=
  ⟨composedValue_of_sort rfl (List.forall_mem_singleton.mpr h.isMember.2)
    (List.forall_mem_singleton.mpr h.1), rfl⟩

/-- The members of a row or a list. -/
theorem IsWhole.member {items : List Node} (h : IsWhole T n)
    (hn : n = list items ∨ ∃ parens inOp space,
    n = .expression items parens inOp space) : ∀ v ∈ items, IsMember T v := by
  rcases hn with rfl | ⟨parens, inOp, space, rfl⟩
  all_goals
    obtain ⟨-, hcomposed, hparts⟩ := isValueOf_iff.mp h.1
    exact fun v hv => ⟨hparts v hv, hcomposed v hv⟩

/-- A single token is read as an operand. -/
theorem single_isAtom (t : Token) : Ensures (single t) (IsAtom T) := by
  have hnumber : Ensures (number t) (IsAtom T) := by
    unfold number
    split
    · exact .ok ⟨composedValue_single rfl (List.forall_mem_nil _) rfl, rfl⟩
    · exact .error
  unfold single
  split
  · exact hnumber
  · exact hnumber
  all_goals exact .ok ⟨composedValue_single rfl (List.forall_mem_nil _) rfl, rfl⟩

/-- A sign in front of an operand gives an operand. -/
theorem negated_isAtom (h : IsAtom T n) : IsAtom T (negated n) := by
  unfold negated
  split
  · exact ⟨composedValue_single rfl (List.forall_mem_nil _) rfl, rfl⟩
  · exact ⟨composedValue_of_sort rfl h.2 (List.forall_mem_singleton.mpr h.1), h.2⟩

theorem parenItems_members (h : ∀ v ∈ values, IsWhole T v) :
    ∀ v ∈ parenItems values, IsMember T v := by
  unfold parenItems
  split
  · exact (h _ List.mem_cons_self).member (.inr ⟨_, _, _, rfl⟩)
  · exact List.forall_mem_nil _
  · exact List.forall_mem_singleton.mpr (isWhole_list h).isMember

/-- An operation is composed if its left side binds as tight as its operator and its right side
tighter. -/
theorem composedValue_operation {op : Operator} {left right : Node} {spaced : Bool} {offset : Nat}
    (hleft : IsChain T left) (hright : IsChain T right)
    (hl : ∀ o ∈ left.operator?, op.level ≤ o.level)
    (hr : ∀ o ∈ right.operator?, op.level < o.level) :
    ComposedValue T (operation op left right spaced offset) :=
  composedValue_of_sort rfl ⟨⟨hl, hleft.2⟩, hr, hright.2⟩
    (List.forall_mem_cons.mpr ⟨hleft.1, List.forall_mem_singleton.mpr hright.1⟩)

/-- A further factor. -/
theorem product_step {op : Token} {left right : Node} {leftStop : Nat} (hop : op.Spelled)
    (hkind : op.kind ∈ [Kind.star, .slash]) (hleft : IsTerm T left) (hright : IsAtom T right) :
    Ensures (joined op left right leftStop) (IsTerm T) := by
  obtain ⟨o, ho, hlevel⟩ := hop.productSign (by simpa using hkind)
  have hlevel : o.level = 1 := by rcases hlevel with rfl | rfl <;> rfl
  rw [joined_eq ho]
  refine .ok ⟨⟨composedValue_operation hleft.1 hright.isTerm.1 ?_ ?_, nofun⟩, ?_⟩
  · intro o' ho'
    rw [hleft.2 o' ho', hlevel]
  · rw [operator?_of_isFactor hright.2]
    exact nofun
  · rintro o' ho'
    cases ho'
    exact hlevel

/-- A further term. -/
theorem sum_step {op : Token} {left right : Node} {leftStop : Nat} (hop : op.Spelled)
    (hkind : op.kind ∈ [Kind.plus, .minus]) (hleft : IsChain T left) (hright : IsTerm T right) :
    Ensures (joined op left right leftStop) (IsChain T) := by
  obtain ⟨o, ho, hlevel⟩ := hop.sumSign (by simpa using hkind)
  have hlevel : o.level = 0 := by rcases hlevel with rfl | rfl <;> rfl
  rw [joined_eq ho]
  refine .ok ⟨composedValue_operation hleft hright.1 ?_ ?_, nofun⟩
  · intro o' _
    rw [hlevel]
    exact Nat.zero_le _
  · intro o' ho'
    rw [hlevel, hright.2 o' ho']
    exact Nat.one_pos

end Composed

/-- Trees in which values are put together as values are, all parts being of the same sort. -/
structure Inherited (T : Tree → Prop) : Prop where
  sound : ∀ {t}, T t → t.Sound
  child : ∀ {t u : Tree}, T t → u ∈ t.children → T u

theorem inherited_sound : Inherited Tree.Sound := ⟨id, Tree.Sound.child⟩

namespace Inherited

variable {T : Tree → Prop}

mutual
theorem operand_isAtom (hT : Inherited T) (inOp : Bool) (t : Tree) (ht : T t)
    (hphrase : t.phrase? = some .operand) :
    Ensures (operand inOp t) (IsAtom T) := by
  have harranged := (hT.sound ht).arranged
  unfold operand
  split
  · next x =>
    cases hphrase
    split
    · exact single_isAtom _
    · exact parens_isAtom hT false inOp x (hT.child ht List.mem_cons_self) harranged.1
  · next token x =>
    cases hphrase
    have hx := hT.child ht (.tail _ (.head _) : x ∈ [.leaf token, x])
    split
    · next hnone =>
      cases x with
      | leaf y => cases hnone
      | node q ys =>
        obtain rfl := Tree.phrase_of_all harranged.1
        exact .bind (operand_isAtom hT inOp _ hx rfl) fun n hn => .ok (negated_isAtom hn)
    · exact .ok ⟨composedValue_single rfl (List.forall_mem_nil _) rfl, rfl⟩
    · exact .ok ⟨composedValue_single rfl (List.forall_mem_nil _) rfl, rfl⟩
    · exact missing_ensures _ _
  · next token x z =>
    cases hphrase
    have hx := hT.child ht (.tail _ (.head _) : x ∈ [.leaf token, x, z])
    have hvalue : x.phrase?.all (· = .value) := by
      simp [show x.phrase? = some .value from harranged.1]
    refine .bind (rows_areWhole hT x hx hvalue) fun items hitems => .ok ⟨?_, rfl⟩
    exact composedValue_of_sort rfl (fun v hv => (hitems v hv).isMember.2) fun v hv =>
      (hitems v hv).1
  · exact missing_ensures _ _
termination_by sizeOf t
theorem product_isTerm (hT : Inherited T) (inOp : Bool) (t : Tree) (ht : T t)
    (hphrase : t.phrase? = some .product) :
    Ensures (product inOp t) (IsTerm T) := by
  have harranged := (hT.sound ht).arranged
  unfold product
  split
  · next head rest =>
    cases hphrase
    obtain ⟨hhead, hrest, -⟩ := harranged.1
    refine .bind (operand_isAtom hT _ head (hT.child ht List.mem_cons_self) hhead)
      fun left hleft => ?_
    exact productRest_isTerm hT _ left _ rest (fun u hu => hT.child ht (List.mem_cons_of_mem _ hu))
      hrest hleft.isTerm
  · exact missing_ensures _ _
termination_by sizeOf t
/-- Each round of a product multiplies what was read by an operand, or divides it. -/
theorem productRest_isTerm (hT : Inherited T) (inOp : Bool) (left : Node) (leftStop : Nat)
    (ts : List Tree) (hts : ∀ t ∈ ts, T t) (hjoined : Tree.JoinedBy [.star, .slash] .operand ts)
    (hleft : IsTerm T left) :
    Ensures (productRest inOp left leftStop ts) (IsTerm T) := by
  unfold productRest
  split
  · exact .ok hleft
  · next op x rest =>
    obtain ⟨⟨y, hy, hkind⟩, hx, hrest⟩ := hjoined
    cases hy
    have hop : op.Spelled :=
      (hT.sound (hts _ List.mem_cons_self)).spelled op (List.mem_singleton_self op)
    refine .bind (operand_isAtom hT inOp x (hts x (.tail _ (.head _))) hx) fun right hright => ?_
    refine .bind (product_step hop hkind hleft hright) fun n hn => ?_
    exact productRest_isTerm hT inOp n _ rest (fun t ht => hts t (.tail _ (.tail _ ht))) hrest hn
  · exact missing_ensures _ _
termination_by sizeOf ts
theorem sum_isChain (hT : Inherited T) (t : Tree) (ht : T t) (hphrase : t.phrase? = some .sum) :
    Ensures (sum t) (IsChain T) := by
  have harranged := (hT.sound ht).arranged
  unfold sum
  split
  · next head rest =>
    cases hphrase
    obtain ⟨hhead, hrest⟩ := harranged.1
    refine .bind (product_isTerm hT _ head (hT.child ht List.mem_cons_self) hhead)
      fun left hleft => ?_
    exact sumRest_isChain hT _ left _ rest (fun u hu => hT.child ht (List.mem_cons_of_mem _ hu))
      hrest hleft.1
  · exact missing_ensures _ _
termination_by sizeOf t
/-- Each round of a sum adds a product to what was read, or subtracts it. -/
theorem sumRest_isChain (hT : Inherited T) (inOp : Bool) (left : Node) (leftStop : Nat)
    (ts : List Tree) (hts : ∀ t ∈ ts, T t) (hjoined : Tree.JoinedBy [.plus, .minus] .product ts)
    (hleft : IsChain T left) :
    Ensures (sumRest inOp left leftStop ts) (IsChain T) := by
  unfold sumRest
  split
  · exact .ok hleft
  · next op x rest =>
    obtain ⟨⟨y, hy, hkind⟩, hx, hrest⟩ := hjoined
    cases hy
    have hop : op.Spelled :=
      (hT.sound (hts _ List.mem_cons_self)).spelled op (List.mem_singleton_self op)
    refine .bind (product_isTerm hT inOp x (hts x (.tail _ (.head _))) hx) fun right hright => ?_
    refine .bind (sum_step hop hkind hleft hright) fun n hn => ?_
    exact sumRest_isChain hT inOp n _ rest (fun t ht => hts t (.tail _ (.tail _ ht))) hrest hn
  · exact missing_ensures _ _
termination_by sizeOf ts
theorem sums_areMembers (hT : Inherited T) (ts : List Tree) (hts : ∀ t ∈ ts, T t)
    (hsums : ∀ t ∈ ts, t.phrase? = some .sum) :
    Ensures (sums ts) fun ns => ∀ n ∈ ns, IsMember T n := by
  unfold sums
  split
  · exact .ok nofun
  · next t ts =>
    obtain ⟨ht, hts⟩ := List.forall_mem_cons.mp hts
    obtain ⟨hsum, hsums⟩ := List.forall_mem_cons.mp hsums
    -- only here it is known which sum an operation comes from
    have hhead : Ensures (sum t) (IsMember T) := fun n hn =>
      ⟨(sum_isChain hT t ht hsum n hn).1, fun _ => ⟨t, ht, hsum, hn⟩⟩
    refine .bind hhead fun head hhead => ?_
    exact .bind (sums_areMembers hT ts hts hsums) fun rest hrest =>
      .ok (List.forall_mem_cons.mpr ⟨hhead, hrest⟩)
termination_by sizeOf ts
theorem expression_isWhole (hT : Inherited T) (t : Tree) (ht : T t)
    (hphrase : t.phrase? = some .expression) :
    Ensures (expression t) (IsWhole T) := by
  have harranged := (hT.sound ht).arranged
  unfold expression
  split
  · next ts =>
    cases hphrase
    have hsums := sums_areMembers hT ts (fun u hu => hT.child ht hu) harranged.1
    exact .bind hsums fun items hitems => .ok (isWhole_row hitems)
  · exact missing_ensures _ _
termination_by sizeOf t
theorem rowsOf_areWhole (hT : Inherited T) (ts : List Tree) (hts : ∀ t ∈ ts, T t)
    (hrows : ∀ t ∈ ts, t.phrase?.all (· = .expression)) :
    Ensures (rowsOf ts) fun ns => ∀ n ∈ ns, IsWhole T n := by
  unfold rowsOf
  split
  · exact .ok nofun
  · next ts =>
      exact rowsOf_areWhole hT ts (List.forall_mem_cons.mp hts).2 (List.forall_mem_cons.mp hrows).2
  · next t ts hnode =>
    obtain ⟨ht, hts⟩ := List.forall_mem_cons.mp hts
    obtain ⟨hrow, hrows⟩ := List.forall_mem_cons.mp hrows
    have hphrase : t.phrase? = some .expression := by
      cases t with
      | leaf x => exact (hnode x rfl).elim
      | node p parts => rw [Tree.phrase_of_all hrow]; rfl
    refine .bind (expression_isWhole hT t ht hphrase) fun head hhead => ?_
    exact .bind (rowsOf_areWhole hT ts hts hrows) fun rest hrest =>
      .ok (List.forall_mem_cons.mpr ⟨hhead, hrest⟩)
termination_by sizeOf ts
theorem rows_areWhole (hT : Inherited T) (t : Tree) (ht : T t)
    (hphrase : t.phrase?.all (· = .value)) :
    Ensures (rows t) fun ns => ∀ n ∈ ns, IsWhole T n := by
  have harranged := (hT.sound ht).arranged
  unfold rows
  split
  · next p ts =>
    obtain rfl := Tree.phrase_of_all hphrase
    exact rowsOf_areWhole hT ts (fun u hu => hT.child ht hu) harranged.1
  · exact missing_ensures _ _
termination_by sizeOf t
theorem parens_isAtom (hT : Inherited T) (inMedia inOp : Bool) (t : Tree) (ht : T t)
    (hphrase : t.phrase?.all (· = .parens)) : Ensures (parens inMedia inOp t) (IsAtom T) := by
  have hsound := hT.sound ht
  unfold parens
  split
  · next p left name colon content right =>
    have hmem : content ∈ [left, .leaf name, colon, content, right] :=
      .tail _ (.tail _ (.tail _ (.head _)))
    refine .bind (rows_areWhole hT content (hT.child ht hmem) (hsound.inParens hphrase hmem))
      fun items hitems => ?_
    refine .ok
      (isAtom_paren (isWhole_row (List.forall_mem_cons.mpr ⟨(isWhole_keyword _).isMember, ?_⟩)))
    exact List.forall_mem_singleton.mpr (isWhole_list hitems).isMember
  · next p left content right =>
    have hmem : content ∈ [left, content, right] := .tail _ (.head _)
    refine .bind (rows_areWhole hT content (hT.child ht hmem) (hsound.inParens hphrase hmem))
      fun items hitems => ?_
    split
    · exact .ok (isAtom_paren (isWhole_list hitems))
    · have hmembers := parenItems_members hitems
      exact .ok ⟨composedValue_of_sort rfl (fun v hv => (hmembers v hv).2) fun v hv =>
        (hmembers v hv).1, rfl⟩
  · exact missing_ensures _ _
termination_by sizeOf t
decreasing_by all_goals (subst_vars; decreasing_tactic)
end

theorem mediaParts_areMembers (hT : Inherited T) {ts : List Tree} (hts : ∀ t ∈ ts, T t)
    (hparens : ∀ t ∈ ts, t.phrase?.all (· = .parens)) :
    Ensures (mediaParts ts) fun ns => ∀ n ∈ ns, IsMember T n := by
  induction ts with
  | nil => exact .ok nofun
  | cons t ts ih =>
    obtain ⟨ht, hrest⟩ := List.forall_mem_cons.mp hts
    obtain ⟨hphrase, hparens⟩ := List.forall_mem_cons.mp hparens
    have ih := ih hrest hparens
    cases t with
    | leaf x =>
      exact .bind ih fun rest hrest =>
        .ok (List.forall_mem_cons.mpr ⟨(isWhole_keyword _).isMember, hrest⟩)
    | node p parts =>
      refine .bind (hT.parens_isAtom true false _ ht hphrase) fun head hhead => ?_
      have hwhole : IsWhole T head := ⟨hhead.1, operator?_of_isFactor hhead.2⟩
      exact .bind ih fun rest hrest => .ok (List.forall_mem_cons.mpr ⟨hwhole.isMember, hrest⟩)

/-- A list of media queries is read as a whole value. -/
theorem mediaList_isWhole (hT : Inherited T) {t : Tree} (ht : T t) :
    Ensures (mediaList t) (IsWhole T) := by
  have hqueries : ∀ q ∈ t.nodesOf .mediaQuery,
      Ensures (mediaParts q.children) fun ns => ∀ n ∈ ns, IsMember T n := by
    intro q hq
    obtain ⟨hmem, hphrase⟩ := List.mem_filter.mp hq
    have hq := hT.child ht hmem
    cases q with
    | leaf x => cases hphrase
    | node p parts =>
      obtain rfl : p = .mediaQuery := by simpa [Tree.phrase?] using hphrase
      exact hT.mediaParts_areMembers (fun u hu => hT.child hq hu) (hT.sound hq).arranged.1
  refine .bind (.mapM hqueries) fun queries hqueries => .ok (isWhole_list fun n hn => ?_)
  obtain ⟨parts, hparts, rfl⟩ := List.mem_map.mp hn
  exact isWhole_row (hqueries parts hparts)

/-- **What is read in trees of some sort is composed as it is written**, its operations having been
read off sums. -/
theorem readsValues (hT : Inherited T) : ReadsValues T (IsWhole T) where
  child := hT.child
  isValue h := h.1.1
  row h := isWhole_row fun v hv => (h v hv).isMember
  keyword := isWhole_keyword
  value ht hphrase := by
    exact .bind (hT.rows_areWhole _ ht (by simp [hphrase])) fun items hitems =>
      .ok (isWhole_list hitems)
  expression ht hphrase := hT.expression_isWhole _ ht hphrase
  mediaList := hT.mediaList_isWhole
  importPath _ h := by
    unfold importPath? at h
    split at h <;> cases h
    all_goals exact ⟨composedValue_single rfl (List.forall_mem_nil _) rfl, rfl⟩

end Inherited

/-- **Values are read with their operations grouped as they are written.** -/
theorem readsValues_grouped : ReadsValues Tree.Sound GroupedValue :=
  inherited_sound.readsValues.mono (fun _ h => h.1.groupedValue) (fun h => h.1) groupedValue_row

end Reading

end LessCss
