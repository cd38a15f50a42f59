import LessCss.Token.Kind

/-!
# Sets of token kinds

A set of kinds is a word of 39 bits, one for each kind.  `contains_insert`, `contains_union` and
`contains_ofList` say what each operation does to membership, and `toList` lists the members in
order of declaration.
-/

namespace LessCss

/-- A set of token kinds. -/
structure KindSet where
  bits : BitVec 39
  deriving DecidableEq, Repr

namespace KindSet

/-- The set without members. -/
def empty : KindSet := ⟨0⟩

instance : Inhabited KindSet := ⟨empty⟩

/-- Whether `k` is a member. -/
def contains (s : KindSet) (k : Kind) : Bool := s.bits.getLsbD k.index

/-- The set with `k` as a further member. -/
def insert (s : KindSet) (k : Kind) : KindSet := ⟨s.bits ||| BitVec.twoPow 39 k.index⟩

/-- The members of either set. -/
def union (s t : KindSet) : KindSet := ⟨s.bits ||| t.bits⟩

/-- Whether the sets have a member in common. -/
def intersects (s t : KindSet) : Bool := (s.bits &&& t.bits) != 0

/-- Whether there is no member. -/
def isEmpty (s : KindSet) : Bool := s.bits == 0

/-- The set of the kinds of a list. -/
def ofList (ks : List Kind) : KindSet := ks.foldl insert empty

/-- The members, in order of declaration. -/
def toList (s : KindSet) : List Kind := Kind.all.filter s.contains

@[simp] theorem contains_empty (k : Kind) : empty.contains k = false := by
  simp [empty, contains]

@[simp] theorem contains_union (s t : KindSet) (k : Kind) :
    (s.union t).contains k = (s.contains k || t.contains k) := by
  simp [union, contains]

@[simp] theorem contains_insert (s : KindSet) (j k : Kind) :
    (s.insert j).contains k = (s.contains k || decide (j = k)) := by
  have hk := k.index_lt
  simp only [insert, contains, BitVec.getLsbD_or, BitVec.getLsbD_twoPow]
  by_cases h : j = k
  · subst h; simp [hk]
  · have : j.index ≠ k.index := fun e => h (Kind.index_injective e)
    simp [h, this]

theorem contains_foldl_insert (ks : List Kind) (s : KindSet) (k : Kind) :
    (ks.foldl insert s).contains k = (s.contains k || ks.contains k) := by
  induction ks generalizing s with
  | nil => simp
  | cons j ks ih =>
    rw [List.foldl_cons, ih, contains_insert, Bool.or_assoc, List.contains_cons]
    congr 2
    by_cases h : j = k
    · simp [h]
    · have : (k == j) = false := by simpa using fun e : k = j => h e.symm
      simp [h, this]

@[simp] theorem contains_ofList (ks : List Kind) (k : Kind) :
    (ofList ks).contains k = ks.contains k := by
  simp [ofList, contains_foldl_insert]

theorem mem_toList {s : KindSet} {k : Kind} : k ∈ s.toList ↔ s.contains k = true := by
  simp [toList, Kind.mem_all]

end KindSet

end LessCss
