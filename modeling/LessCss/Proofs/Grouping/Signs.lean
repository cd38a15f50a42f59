import LessCss.Proofs.Grouping.Chains

/-!
# Where the signs of sums are

An operation remembers where its operator is.  What is read off a source has a token there, and for
a sum or a difference that is a plus or a minus (`Reading.readsValues_signed`): among the links of a
sum there are the signs of the sum itself, and those of its products, which are no such signs.
-/

namespace LessCss

open Node

/-- A plus or a minus stands at an offset of a source. -/
def Lexing.SignAt (source : String) (offset : Nat) : Prop :=
  ∃ x ∈ (Lexing.ofText source).tokens, (x.kind = .plus ∨ x.kind = .minus) ∧ offset = x.start

/-- A sum or a difference has a plus or a minus where its operator is said to be. -/
def Node.Signed (source : String) : Node → Prop
  | operation op _ _ _ offset => op = .add ∨ op = .sub → Lexing.SignAt source offset
  | _ => True

/-- The same for a link of a chain. -/
def Link.Signed (source : String) : Link → Prop
  | operator op offset => op = .add ∨ op = .sub → Lexing.SignAt source offset
  | operand _ => True

namespace Tree

/-- A token between two parts of a chain is one of its signs. -/
theorem JoinedBy.kind_of_leaf {kinds : List Kind} {part : Phrase} {x : Token} : ∀ {ts : List Tree},
    JoinedBy kinds part ts → .leaf x ∈ ts → x.kind ∈ kinds
  | [], _, hx => nomatch hx
  | [_], h, _ => h.elim
  | sign :: t :: rest, ⟨⟨y, hy, hkind⟩, ht, hrest⟩, hx => by
    rcases List.mem_cons.mp hx with rfl | hx
    · cases hy
      exact hkind
    · rcases List.mem_cons.mp hx with rfl | hx
      · cases ht
      · exact hrest.kind_of_leaf hx

/-- The parts that are tokens are the signs between the others. -/
theorem JoinedBy.kind_of_mem {kinds : List Kind} {part : Phrase} {head : Tree} {rest : List Tree}
    {x : Token} (h : JoinedBy kinds part rest) (hhead : head.phrase? = some part)
    (hx : .leaf x ∈ head :: rest) :
    x.kind ∈ kinds := by
  rcases List.mem_cons.mp hx with rfl | hx
  · cases hhead
  · exact h.kind_of_leaf hx

/-- The signs of a product are stars and slashes. -/
theorem Sound.sign_of_product {t : Tree} (ht : t.Sound) (hphrase : t.phrase? = some .product)
    {x : Token} (hx : .leaf x ∈ t.children) : x.kind ∈ [Kind.star, .slash] := by
  match t, hphrase, hx with
  | .node .product (head :: rest), _, hx =>
    obtain ⟨hhead, hrest, -⟩ := ht.arranged.1
    exact hrest.kind_of_mem hhead hx

/-- The signs of a sum are pluses and minuses. -/
theorem Sound.sign_of_sum {t : Tree} (ht : t.Sound) (hphrase : t.phrase? = some .sum) {x : Token}
    (hx : .leaf x ∈ t.children) : x.kind ∈ [Kind.plus, .minus] := by
  match t, hphrase, hx with
  | .node .sum (head :: rest), _, hx =>
    obtain ⟨hhead, hrest⟩ := ht.arranged.1
    exact hrest.kind_of_mem hhead hx

/-- Among the links of a sum there are its own signs and those of its products. -/
theorem Sound.sign_of_links {t : Tree} (ht : t.Sound) (hphrase : t.phrase? = some .sum) {x : Token}
    (hx : .leaf x ∈ t.links) : x.kind ∈ [Kind.plus, .minus] ∨ x.kind ∈ [Kind.star, .slash] := by
  obtain ⟨u, hu, hx⟩ := List.mem_flatMap.mp hx
  unfold factors at hx
  split at hx
  · next hproduct => exact .inr ((ht.child hu).sign_of_product hproduct hx)
  · obtain rfl := List.mem_singleton.mp hx
    exact .inl (ht.sign_of_sum hphrase hu)

/-- Trees that are put together as values are, of tokens of a source. -/
structure SoundIn (source : String) (t : Tree) : Prop where
  sound : t.Sound
  tokens : t.leaves ⊆ (Lexing.ofText source).tokens

theorem SoundIn.child {source : String} {t u : Tree} (ht : t.SoundIn source) (hu : u ∈ t.children) :
    u.SoundIn source := by
  cases t with
  | leaf x => cases hu
  | node p ts => exact ⟨ht.sound.child hu, fun x hx => ht.tokens (leaves_subset hu hx)⟩

/-- A link that is read off one of a sum. -/
theorem SoundIn.signed {source : String} {t u : Tree} (ht : t.SoundIn source)
    (hphrase : t.phrase? = some .sum) (hu : u ∈ t.links) {link : Link}
    (hlink : Link.ReadOff true link u) : link.Signed source := by
  cases hlink with
  | operand => trivial
  | @operator op x hop =>
    intro hsum
    have hx : x ∈ t.leaves := by
      rw [← leavesOf_links hphrase]
      exact leaves_subset hu (List.mem_singleton_self x)
    rcases ht.sound.sign_of_links hphrase hu with hkind | hkind
    · exact ⟨x, ht.tokens hx, by simpa using hkind, rfl⟩
    · -- what is read off the sign of a product is neither a sum nor a difference
      obtain ⟨o, ho, hproduct⟩ := (ht.sound.spelled x hx).productSign (by simpa using hkind)
      obtain rfl : o = op := Option.some.inj (ho.symm.trans hop)
      rcases hsum with rfl | rfl <;> rcases hproduct with hproduct | hproduct <;> cases hproduct

end Tree

namespace Reading

theorem inherited_soundIn (source : String) : Inherited (Tree.SoundIn source) :=
  ⟨Tree.SoundIn.sound, Tree.SoundIn.child⟩

/-- If the signs of all parts are where they are said to be, so are those of the links. -/
theorem signed_of_readsLinks {source : String} {links : List Link} {ts : List Tree}
    (h : ReadsLinks true links ts)
    (hts : ∀ u ∈ ts, ∀ link, Link.ReadOff true link u → link.Signed source) :
    ∀ link ∈ links, link.Signed source := by
  induction h with
  | nil => exact List.forall_mem_nil _
  | cons hlink _ ih =>
    obtain ⟨hhead, hrest⟩ := List.forall_mem_cons.mp hts
    exact List.forall_mem_cons.mpr ⟨hhead _ hlink, ih hrest⟩

/-- The links of an operation that was read off a sum. -/
theorem FromSum.signed {source : String} {n : Node} (h : FromSum (Tree.SoundIn source) n)
    (hop : n.operator?.isSome) :
    ∀ link ∈ n.links, link.Signed source := by
  obtain ⟨t, ht, hphrase, hread⟩ := h
  exact signed_of_readsLinks (sum_links ht.sound hphrase n hread hop) fun u hu link hlink =>
    ht.signed hphrase hu hlink

/-- A value whose links are signed is signed throughout: the links of its operands are among its
own, and an operation that is a part of something else was read off a sum. -/
theorem ComposedValue.signed {source : String} {n : Node}
    (h : ComposedValue (Tree.SoundIn source) n) (hlinks : ∀ link ∈ n.links, link.Signed source) :
    n.IsValueOf (Node.Signed source) := by
  induction n using induction_parts with
  | step n ih =>
    obtain ⟨hsort, hcomposed, hparts⟩ := isValueOf_iff.mp h
    by_cases hop : n.operator?.isSome
    · cases n with
      | operation op left right spaced offset =>
        obtain ⟨hleft, hbehind⟩ := List.forall_mem_append.mp hlinks
        obtain ⟨hown, hright⟩ := List.forall_mem_cons.mp hbehind
        refine isValueOf_iff.mpr
          ⟨rfl, hown, List.forall_mem_cons.mpr ⟨?_, List.forall_mem_singleton.mpr ?_⟩⟩
        · exact ih left List.mem_cons_self (hparts left List.mem_cons_self) hleft
        · exact ih right (.tail _ (.head _)) (hparts right (.tail _ (.head _))) hright
      | _ => cases hop
    · have hown : n.Signed source := by
        cases n with
        | operation => exact absurd rfl hop
        | _ => trivial
      refine isValueOf_iff.mpr ⟨hsort, hown, fun part hpart => ih part hpart (hparts part hpart) ?_⟩
      by_cases hpart_op : part.operator?.isSome
      · exact (hcomposed.fromSum (Option.not_isSome_iff_eq_none.mp hop) hpart hpart_op).signed
          hpart_op
      · rw [links_of_operator? (Option.not_isSome_iff_eq_none.mp hpart_op)]
        exact List.forall_mem_singleton.mpr trivial

theorem isValueOf_signed_row {source : String} {values : List Node}
    (h : ∀ v ∈ values, v.IsValueOf (Node.Signed source)) :
    (row values).IsValueOf (Node.Signed source) :=
  isValueOf_iff.mpr ⟨rfl, trivial, h⟩

/-- **The sums and differences in values that are read have a plus or a minus where they say.** -/
theorem readsValues_signed (source : String) :
    ReadsValues (Tree.SoundIn source) (IsValueOf (Node.Signed source)) := by
  refine (inherited_soundIn source).readsValues.mono (fun n hn => hn.1.signed ?_)
    (fun h => h.1) isValueOf_signed_row
  rw [links_of_operator? hn.2]
  exact List.forall_mem_singleton.mpr trivial

end Reading

/-- Every statement of a source is put together as values are, of tokens of the source. -/
theorem Parse.soundIn_ofText (source : String) :
    ∀ t ∈ (ofText source).tree.children, t.SoundIn source :=
  fun t ht => ⟨sound_ofText source t ht, madeOf_ofText source t ht⟩

end LessCss
