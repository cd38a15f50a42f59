import LessCss.Proofs.Grouping.Read
import LessCss.Proofs.Parsing.Occurring
import LessCss.Proofs.Parsing.Spacing

/-!
# Chains of operands

An operation that is no operand of another one is a chain of operands with operators between them,
its links (`Node.links`).  A sum in a tree is such a chain too, of operands and signs
(`Tree.links`), and the one is read off the other link by link (`Reading.sum_links`): nothing is
left out, and nothing comes twice.  The links of a sum follow each other in the source
(`Tree.Sound.links_ordered`).

Which operations are put together first is known as well: products before sums, those on the left
before those on the right, and others only in parentheses (`Node.Precedence`).  Both hold of all
operations in a stylesheet that was read (`Ruleset.operations_ofText`), and together they leave no
choice of the operation.
-/

namespace LessCss

open Node

/-! ## Links -/

/-- A link of a chain: an operand, or an operator and where it is. -/
inductive Link
  | operand (n : Node)
  | operator (op : Operator) (offset : Nat)

/-- Where an operator is. -/
def Link.offset? : Link → Option Nat
  | operand _ => none
  | operator _ offset => some offset

/-- The operands of an operation and the operators between them, from left to right. -/
def Node.links : Node → List Link
  | operation op left right _ offset => left.links ++ .operator op offset :: right.links
  | n => [.operand n]

theorem Node.links_of_operator? {n : Node} (h : n.operator? = none) : n.links = [.operand n] := by
  cases n with
  | operation => cases h
  | _ => rfl

/-- Every node has links, since it is an operand of itself at least. -/
theorem Node.links_ne_nil (n : Node) : n.links ≠ [] := by
  cases n with
  | operation => exact List.append_ne_nil_of_right_ne_nil _ (List.cons_ne_nil _ _)
  | _ => exact List.cons_ne_nil _ _

/-- An operation has more than one link. -/
theorem Node.one_lt_length_links {n : Node} (h : n.operator?.isSome) : 1 < n.links.length := by
  cases n with
  | operation op left right spaced offset =>
    have hleft := List.length_pos_iff.mpr left.links_ne_nil
    rw [links, List.length_append, List.length_cons]
    omega
  | _ => cases h

namespace Tree

/-- The operands of a product and the signs between them; anything else is a part by itself. -/
def factors (t : Tree) : List Tree := if t.phrase? = some .product then t.children else [t]

/-- The operands of a sum of products and the signs between them, from left to right. -/
def links (t : Tree) : List Tree := t.children.flatMap factors

theorem leavesOf_factors (t : Tree) : leavesOf t.factors = t.leaves := by
  unfold factors
  split
  · cases t with
    | leaf x => rename_i h; cases h
    | node p ts => rfl
  · exact List.append_nil _

/-- Taking products apart loses no tokens. -/
theorem leavesOf_flatMap_factors (ts : List Tree) :
    leavesOf (ts.flatMap factors) = leavesOf ts := by
  induction ts with
  | nil => rfl
  | cons t ts ih => rw [List.flatMap_cons, leavesOf_append, leavesOf_factors, leavesOf_cons, ih]

/-- All tokens of a sum are in its links. -/
theorem leavesOf_links {t : Tree} {p : Phrase} (h : t.phrase? = some p) :
    leavesOf t.links = t.leaves := by
  cases t with
  | leaf x => cases h
  | node q ts => exact leavesOf_flatMap_factors ts

theorem JoinedBy.phrase?_all {kinds : List Kind} {part : Phrase} :
    ∀ {ts : List Tree}, JoinedBy kinds part ts →
    ∀ t ∈ ts, t.phrase?.all (· = part)
  | [], _ => List.forall_mem_nil _
  | [_], h => h.elim
  | sign :: t :: rest, ⟨⟨x, hx, _⟩, ht, hrest⟩ => by
    refine List.forall_mem_cons.mpr
      ⟨by simp [hx, phrase?], List.forall_mem_cons.mpr ⟨by simp [ht], ?_⟩⟩
    exact hrest.phrase?_all

/-- The parts of a sum are products and signs. -/
theorem Sound.children_of_sum {t : Tree} (ht : t.Sound) (hphrase : t.phrase? = some .sum) :
    ∀ u ∈ t.children, u.phrase?.all (· = .product) := by
  cases t with
  | leaf x => cases hphrase
  | node p ts =>
    cases hphrase
    cases ts with
    | nil => exact List.forall_mem_nil _
    | cons head rest =>
      obtain ⟨hhead, hrest⟩ := ht.arranged.1
      exact List.forall_mem_cons.mpr ⟨by simp [hhead], hrest.phrase?_all⟩

/-- Each part of a product has tokens. -/
theorem Sound.leaves_ne_nil_of_product {t : Tree} (ht : t.Sound)
    (hphrase : t.phrase? = some .product) :
    ∀ u ∈ t.children, u.leaves ≠ [] := by
  cases t with
  | leaf x => cases hphrase
  | node p ts =>
    cases hphrase
    cases ts with
    | nil => exact List.forall_mem_nil _
    | cons head rest => exact ht.arranged.1.2.2

/-- Every link of a sum has a token. -/
theorem Sound.leaves_ne_nil_of_links {t : Tree} (ht : t.Sound) (hphrase : t.phrase? = some .sum) :
    ∀ u ∈ t.links, u.leaves ≠ [] := by
  intro u hu
  obtain ⟨v, hv, hu⟩ := List.mem_flatMap.mp hu
  unfold factors at hu
  split at hu
  · next hproduct => exact (ht.child hv).leaves_ne_nil_of_product hproduct u hu
  · -- only a sign is no product
    next hproduct =>
    obtain rfl := List.mem_singleton.mp hu
    have hall := ht.children_of_sum hphrase u hv
    cases u with
    | leaf x => exact List.cons_ne_nil _ _
    | node p ts => exact absurd (congrArg some (phrase_of_all hall)) hproduct

/-- A tree with tokens starts where one of them does. -/
theorem exists_start_eq {t : Tree} (h : t.leaves ≠ []) : ∃ x ∈ t.leaves, t.start = x.start := by
  obtain ⟨x, more, hleaves⟩ := List.exists_cons_of_ne_nil h
  refine ⟨x, hleaves ▸ List.mem_cons_self, ?_⟩
  rw [start, firstToken?_eq, hleaves]
  rfl

/-- Parts with tokens that follow each other start one behind the other. -/
theorem pairwise_start {ts : List Tree} (hne : ∀ t ∈ ts, t.leaves ≠ [])
    (hspan : ∀ x ∈ leavesOf ts, x.start < x.stop)
    (h : (leavesOf ts).Pairwise fun x y => x.stop ≤ y.start) :
    ts.Pairwise fun t u => t.start < u.start := by
  induction ts with
  | nil => exact .nil
  | cons t ts ih =>
    obtain ⟨ht, hne⟩ := List.forall_mem_cons.mp hne
    rw [leavesOf_cons] at hspan h
    obtain ⟨hhere, hrest⟩ := List.forall_mem_append.mp hspan
    obtain ⟨-, hbehind, hbetween⟩ := List.pairwise_append.mp h
    refine .cons (fun u hu => ?_) (ih hne hrest hbehind)
    -- the first token of the one ends, and is not empty, before the first token of the other starts
    obtain ⟨x, hx, hstart⟩ := exists_start_eq ht
    obtain ⟨y, hy, hstart'⟩ := exists_start_eq (hne u hu)
    rw [hstart, hstart']
    exact Nat.lt_of_lt_of_le (hhere x hx) (hbetween x hx y (leaves_subset hu hy))

end Tree

/-! ## Reading links -/

/-- A link is read off an operand or a sign; `inOp` tells whether an operand belongs to an
operator. -/
inductive Link.ReadOff (inOp : Bool) : Link → Tree → Prop
  | operand {n : Node} {t : Tree} (hphrase : t.phrase? = some .operand)
    (h : Reading.operand inOp t = .ok n) :
    ReadOff inOp (.operand n) t
  | operator {op : Operator} {x : Token} (h : Operator.ofSymbol? x.text = some op) :
    ReadOff inOp (.operator op x.start) (.leaf x)

namespace Reading

open LessCss.Tree

/-- The links of some nodes are read off some trees. -/
abbrev ReadsLinks (inOp : Bool) (links : List Link) (ts : List Tree) : Prop :=
  List.Forall₂ (Link.ReadOff inOp) links ts

/-- An operand is read as one link. -/
theorem operand_links {inOp : Bool} {t : Tree} (ht : t.Sound)
    (hphrase : t.phrase? = some .operand) :
    Ensures (operand inOp t) fun n => ReadsLinks inOp n.links [t] := by
  intro n hn
  have hatom := inherited_sound.operand_isAtom inOp t ht hphrase n hn
  rw [links_of_operator? (operator?_of_isFactor hatom.2)]
  exact .cons (.operand hphrase hn) .nil

/-- A further operator with its right operand. -/
theorem joined_links {inOp : Bool} {op : Token} {left right : Node} {leftStop : Nat}
    {ts us : List Tree} (hleft : ReadsLinks inOp left.links ts)
    (hright : ReadsLinks inOp right.links us) :
    Ensures (joined op left right leftStop) fun n =>
      ReadsLinks inOp n.links (ts ++ .leaf op :: us) := by
  unfold joined
  split
  · next o ho => exact .ok (List.rel_append hleft (.cons (.operator ho) hright))
  · exact .error

/-- A product is read from left to right: each round adds an operator and an operand to the
links. -/
theorem productRest_links {inOp : Bool} : ∀ {ts done : List Tree} {left : Node} {leftStop : Nat},
    (∀ t ∈ ts, t.Sound) → JoinedBy [.star, .slash] .operand ts → ReadsLinks inOp left.links done →
    Ensures (productRest inOp left leftStop ts) fun n => ReadsLinks inOp n.links (done ++ ts)
  | [], done, left, leftStop, _, _, hleft => by
    rw [productRest, List.append_nil]
    exact .ok hleft
  | [_], _, _, _, _, hjoined, _ => hjoined.elim
  | sign :: x :: rest, done, left, leftStop, hts, ⟨⟨op, hop, _⟩, hx, hrest⟩, hleft => by
    subst hop
    obtain ⟨-, hts⟩ := List.forall_mem_cons.mp hts
    obtain ⟨hsound, hts⟩ := List.forall_mem_cons.mp hts
    rw [productRest]
    refine .bind (operand_links hsound hx) fun right hright => .bind (joined_links hleft hright)
      fun n hn => ?_
    simpa using productRest_links hts hrest hn

/-- The links of a product are read off its operands and signs. -/
theorem product_links {inOp : Bool} {t : Tree} (ht : t.Sound)
    (hphrase : t.phrase? = some .product) :
    Ensures (product inOp t) fun n =>
      ReadsLinks (inOp || !t.children.tail.isEmpty) n.links t.children := by
  unfold product
  split
  · next head rest =>
    cases hphrase
    obtain ⟨hhead, hrest, -⟩ := ht.arranged.1
    refine .bind (operand_links (ht.child List.mem_cons_self) hhead) fun left hleft => ?_
    exact productRest_links (fun u hu => ht.child (List.mem_cons_of_mem _ hu)) hrest hleft
  · exact missing_ensures _ _

/-- The links of a product as a part of a sum are read off its factors. -/
theorem product_factors {t : Tree} (ht : t.Sound) (hphrase : t.phrase? = some .product) :
    Ensures (product true t) fun n => ReadsLinks true n.links t.factors := by
  rw [factors, if_pos hphrase]
  exact product_links ht hphrase

/-- A sum is read from left to right: each round adds an operator and the links of a product. -/
theorem sumRest_links : ∀ {ts done : List Tree} {left : Node} {leftStop : Nat},
    (∀ t ∈ ts, t.Sound) → JoinedBy [.plus, .minus] .product ts → ReadsLinks true left.links done →
    Ensures (sumRest true left leftStop ts) fun n =>
      ReadsLinks true n.links (done ++ ts.flatMap factors)
  | [], done, left, leftStop, _, _, hleft => by
    rw [sumRest, List.flatMap_nil, List.append_nil]
    exact .ok hleft
  | [_], _, _, _, _, hjoined, _ => hjoined.elim
  | sign :: x :: rest, done, left, leftStop, hts, ⟨⟨op, hop, _⟩, hx, hrest⟩, hleft => by
    subst hop
    obtain ⟨-, hts⟩ := List.forall_mem_cons.mp hts
    obtain ⟨hsound, hts⟩ := List.forall_mem_cons.mp hts
    have hsign : (Tree.leaf op).factors = [.leaf op] := rfl
    rw [sumRest]
    refine .bind (product_factors hsound hx) fun right hright => .bind (joined_links hleft hright)
      fun n hn => ?_
    simpa [hsign] using sumRest_links hts hrest hn

/-- **An operation is read off a sum link by link.** -/
theorem sum_links {t : Tree} (ht : t.Sound) (hphrase : t.phrase? = some .sum) :
    Ensures (sum t) fun n => n.operator?.isSome → ReadsLinks true n.links t.links := by
  unfold sum
  split
  · next head rest =>
    cases hphrase
    obtain ⟨hhead, hrest⟩ := ht.arranged.1
    have hsound := ht.child (List.mem_cons_self : head ∈ head :: rest)
    have hlinks : (Tree.node .sum (head :: rest)).links = head.factors ++ rest.flatMap factors :=
      List.flatMap_cons
    rw [hlinks]
    cases rest with
    | nil =>
      -- a single product, with an operator of its own if it is an operation
      refine .bind (product_links hsound hhead) fun n hn => .ok fun hop => ?_
      rw [List.flatMap_nil, List.append_nil, factors, if_pos hhead]
      have hlength := one_lt_length_links hop
      rw [hn.length_eq] at hlength
      have hmany : head.children.tail.isEmpty = false := by
        rw [List.isEmpty_eq_false_iff, ← List.length_pos_iff, List.length_tail]
        omega
      rwa [hmany] at hn
    | cons sign rest =>
      refine .bind (product_factors hsound hhead) fun left hleft n hn _ => ?_
      exact sumRest_links (fun u hu => ht.child (List.mem_cons_of_mem _ hu)) hrest hleft n hn
  · exact missing_ensures _ _

end Reading

/-! ## Operations in a stylesheet -/

/-- An operation is read off a sum that occurs in the tree of a source: its links, from left to
right, off all parts of the sum, from left to right, and these cover tokens that follow each other
in the source. -/
structure Node.ReadOffSum (source : String) (t : Tree) (n : Node) : Prop where
  occurs : t.OccursIn (Parse.ofText source).tree
  phrase : t.phrase? = some .sum
  links : List.Forall₂ (Link.ReadOff true) n.links t.links
  whole : Tree.leavesOf t.links = t.leaves
  consecutive : t.leaves <:+: (Lexing.ofText source).tokens
  ordered : t.links.Pairwise fun u v => u.start < v.start
  offsets : (n.links.filterMap Link.offset?).Pairwise (· < ·)

/-- The operands of an operation as they bind: behind a sign of a product there is no operation,
before it no sum, and behind a sign of a sum no sum.  An operand that is no operation is a factor:
if it is a row, it is in parentheses. -/
structure Node.Precedence (op : Operator) (left right : Node) : Prop where
  productRight : op = .mul ∨ op = .div → right.operator? = none
  productLeft : op = .mul ∨ op = .div → ∀ o ∈ left.operator?, o = .mul ∨ o = .div
  sumRight : op = .add ∨ op = .sub → ∀ o ∈ right.operator?, o = .mul ∨ o = .div
  factors : ∀ n ∈ [left, right], n.operator? = none → n.isFactor

theorem Operator.level_eq_one {o : Operator} : o.level = 1 ↔ o = .mul ∨ o = .div := by
  cases o <;> simp [level]

theorem Operator.level_eq_zero {o : Operator} : o.level = 0 ↔ o = .add ∨ o = .sub := by
  cases o <;> simp [level]

theorem Operator.level_le_one (o : Operator) : o.level ≤ 1 := by
  cases o <;> simp [level]

/-- What is composed in a sum binds as its operators do. -/
theorem Reading.Composed.precedence {T : Tree → Prop} {op : Operator} {left right : Node}
    {spaced : Bool} {offset : Nat} (h : Composed T (.operation op left right spaced offset)) :
    Precedence op left right := by
  obtain ⟨⟨hleft, hleft'⟩, hright, hright'⟩ := h
  refine ⟨fun hop => ?_, fun hop o ho => ?_, fun hop o ho => ?_, ?_⟩
  · refine Option.eq_none_iff_forall_not_mem.mpr fun o ho => ?_
    have hlevel := hright o ho
    rw [Operator.level_eq_one.mpr hop] at hlevel
    exact absurd o.level_le_one (by omega)
  · have hlevel := hleft o ho
    rw [Operator.level_eq_one.mpr hop] at hlevel
    exact Operator.level_eq_one.mp (Nat.le_antisymm o.level_le_one hlevel)
  · have hlevel := hright o ho
    rw [Operator.level_eq_zero.mpr hop] at hlevel
    exact Operator.level_eq_one.mp (Nat.le_antisymm o.level_le_one hlevel)
  · exact List.forall_mem_cons.mpr ⟨hleft', List.forall_mem_singleton.mpr hright'⟩

namespace Reading

/-- The operators of links come in the order of the trees they are read off. -/
theorem offsets_sublist {inOp : Bool} {links : List Link} {ts : List Tree}
    (h : ReadsLinks inOp links ts) :
    (links.filterMap Link.offset?).Sublist (ts.map Tree.start) := by
  induction h with
  | nil => exact .slnil
  | @cons link t links ts hlink _ ih =>
    cases hlink with
    | operand => exact ih.cons _
    | operator => exact ih.cons_cons _

/-- An operation read off a sum of a source is read off a sum that occurs in its tree. -/
theorem FromSum.exists_readOffSum {source : String} (hclean : (Parse.ofText source).mismatches = [])
    {n : Node} (h : FromSum (fun t => t.Sound ∧ t.OccursIn (Parse.ofText source).tree) n)
    (hop : n.operator?.isSome) :
    ∃ t, n.ReadOffSum source t := by
  obtain ⟨t, ⟨hsound, hoccurs⟩, hphrase, hread⟩ := h
  have hlinks := sum_links hsound hphrase n hread hop
  have hwhole := Tree.leavesOf_links hphrase
  have hconsecutive := Parse.leaves_infix hclean hoccurs
  have hordered : t.links.Pairwise fun u v => u.start < v.start := by
    refine Tree.pairwise_start (hsound.leaves_ne_nil_of_links hphrase) ?_ ?_
    · rw [hwhole]
      exact fun x hx => Lexing.start_lt_stop (hconsecutive.subset hx)
    · rw [hwhole]
      exact (Lexing.pairwise_tokens source).sublist hconsecutive.sublist
  refine ⟨t, hoccurs, hphrase, hlinks, hwhole, hconsecutive, hordered, ?_⟩
  exact (List.pairwise_map.mpr hordered).sublist (offsets_sublist hlinks)

end Reading

namespace Reading

/-- An operation that is part of no other one was read off a sum. -/
theorem Composed.fromSum {T : Tree → Prop} {n m : Node} (h : Composed T n)
    (hwhole : n.operator? = none) (hm : m ∈ n.parts) (hop : m.operator?.isSome) : FromSum T m := by
  cases n with
  | operation => cases hwhole
  | negative inner =>
    obtain rfl := List.mem_singleton.mp hm
    rw [operator?_of_isFactor h] at hop
    cases hop
  | _ => exact h m hm hop

theorem operator?_of_isStatement {n : Node} (h : n.isStatement) : n.operator? = none := by
  cases n with
  | operation => cases h
  | _ => rfl

/-- No operation is part of a node that is neither an operation nor behind a sign. -/
theorem composed_of_parts {T : Tree → Prop} {n : Node} (hsort : n.isValueSort = false)
    (h : ∀ part ∈ n.parts, part.operator? = none) : Composed T n := by
  have hparts : ∀ part ∈ n.parts, part.operator?.isSome → FromSum T part := by
    intro part hpart hsome
    rw [h part hpart] at hsome
    cases hsome
  cases n with
  | operation | negative => cases hsort
  | _ => exact hparts

/-- What stands in a statement that was read. -/
inductive Placed (s : Standard) (T : Tree → Prop) : Node → Prop
  | value {n} (h : ComposedValue T n) : Placed s T n
  | argument {name value} (h : IsWhole T value) : Placed s T (.argument name value)
  | statement {n} (h : n.Meets s) : Placed s T n

section Placed

variable {T : Tree → Prop}
  {row : ∀ {values : List Node}, (∀ v ∈ values, IsWhole T v) → IsWhole T (.row values)} {n : Node}

/-- The parts of what stands in a statement stand in it as well. -/
theorem Placed.parts (h : Placed (.ofValues (IsWhole T) row) T n) :
    ∀ part ∈ n.parts, Placed (.ofValues (IsWhole T) row) T part := by
  intro part hpart
  cases h with
  | value h => exact .value ((isValueOf_iff.mp h).2.2 part hpart)
  | argument h =>
    obtain rfl := List.mem_singleton.mp hpart
    exact .value h.1
  | statement h =>
    rcases h.part_cases hpart with hvalue | ⟨name, value, rfl, hvalue⟩ | ⟨-, hstatement⟩
    · exact .value hvalue.1
    · exact .argument hvalue
    · exact .statement hstatement

/-- What stands in a statement is composed as values are. -/
theorem Placed.composed (h : Placed (.ofValues (IsWhole T) row) T n) : Composed T n := by
  cases h with
  | value h => exact (isValueOf_iff.mp h).2.1
  | argument h =>
    refine composed_of_parts rfl fun part hpart => ?_
    obtain rfl := List.mem_singleton.mp hpart
    exact h.2
  | statement h =>
    refine composed_of_parts ?_ fun part hpart => ?_
    · have hstatement := h.isStatement
      cases n <;> first | rfl | cases hstatement
    · rcases h.part_cases hpart with hvalue | ⟨name, value, rfl, -⟩ | ⟨-, hstatement⟩
      · exact hvalue.2
      · rfl
      · exact operator?_of_isStatement hstatement.isStatement

end Placed

end Reading

/-- **Operations bind as they are written.**  Wherever an operation stands in a stylesheet that was
read, its operands are grouped by precedence and from left to right; and if it is no operand of
another one, its links are those of a sum in the source, in the same order, with none left out and
none repeated. -/
theorem Ruleset.operations_ofText {source : String} {sheet : Ruleset}
    (h : ofText source = .ok sheet) :
    sheet.toNode.Throughout fun n =>
      (∀ op left right spaced offset, n = .operation op left right spaced offset →
        Precedence op left right) ∧
        (n.operator? = none → ∀ m ∈ n.parts, m.operator?.isSome → ∃ t, m.ReadOffSum source t) := by
  obtain ⟨-, hclean, -⟩ := exists_of_ofText h
  have hT : Reading.Inherited fun t => t.Sound ∧ t.OccursIn (Parse.ofText source).tree :=
    ⟨And.left, fun ht hu => ⟨ht.1.child hu, ht.2.child hu⟩⟩
  obtain ⟨rules, rfl, hrules⟩ := meets_ofText hT.readsValues
    (fun t ht => ⟨Parse.sound_ofText source t ht, .inside ht .self⟩) h
  have hroot : Reading.Composed (fun t => t.Sound ∧ t.OccursIn (Parse.ofText source).tree)
      (ofRules rules).toNode :=
    Reading.composed_of_parts rfl fun n hn =>
      Reading.operator?_of_isStatement (hrules n hn).isStatement
  have hcomposed := throughout_iff.mpr ⟨hroot, fun n hn m hm =>
    (hm.inherits (fun _ => Reading.Placed.parts) (.statement (hrules n hn))).composed⟩
  refine hcomposed.imp fun n hn => ⟨?_, fun hwhole m hm hop => ?_⟩
  · rintro op left right spaced offset rfl
    exact hn.precedence
  · exact (hn.fromSum hwhole hm hop).exists_readOffSum hclean hop

/-- Five operands, one in parentheses and one behind a sign, with four operators. -/
theorem Ruleset.operations_ofText_chain : ∃ (sheet : Ruleset) (m : Node) (t : Tree),
    ofText "@x:a + b*c - (d + e)*-f;" = .ok sheet ∧ m.OccursIn sheet.toNode ∧
      m.ReadOffSum "@x:a + b*c - (d + e)*-f;" t ∧ t.links.length = 9 ∧
      m.links.filterMap Link.offset? = [5, 8, 11, 20] := by
  have hread : (match ofText "@x:a + b*c - (d + e)*-f;" with
      | .ok sheet =>
        let rows := (sheet.rules.flatMap Node.parts).flatMap Node.parts
        rows.all (·.operator?.isNone) && decide ((rows.flatMap Node.parts).map (fun m =>
          (m.operator?.isSome, m.links.length, m.links.filterMap Link.offset?)) =
            [(true, 9, [5, 8, 11, 20])])
      | .error _ => false) = true := by decide +kernel
  split at hread
  · next sheet hsheet =>
    obtain ⟨hrows, hlinks⟩ := Bool.and_eq_true_iff.mp hread
    obtain ⟨m, hms, hm⟩ := List.map_eq_singleton_iff.mp (of_decide_eq_true hlinks)
    obtain ⟨row, hrow, hmem⟩ := List.mem_flatMap.mp (hms ▸ List.mem_singleton_self m)
    have hwhole := Option.isNone_iff_eq_none.mp (List.all_eq_true.mp hrows row hrow)
    obtain ⟨value, hvalue, hrow⟩ := List.mem_flatMap.mp hrow
    obtain ⟨rule, hrule, hvalue⟩ := List.mem_flatMap.mp hvalue
    obtain ⟨hop, hlength, hoffsets⟩ : m.operator?.isSome ∧ m.links.length = 9 ∧
        _ = [5, 8, 11, 20] := by
      simpa only [Prod.mk.injEq] using hm
    have hoccurs : row.OccursIn sheet.toNode := .inside hrule (.inside hvalue (.inside hrow .self))
    obtain ⟨t, ht⟩ := ((operations_ofText hsheet) row hoccurs).2 hwhole m hmem hop
    refine ⟨sheet, m, t, hsheet, ?_, ht, ht.links.length_eq ▸ hlength, hoffsets⟩
    exact .inside hrule (.inside hvalue (.inside hrow (.inside hmem .self)))
  · cases hread

end LessCss
