import LessCss.Proofs.Lexing.Visits

/-!
# Keywords and names

A keyword is cut off only where no longer name starts, and a name only where no keyword is all of
it.  For the first the rule of a keyword sees to itself, as it yields to a longer name.  For the
second it matters that the rules of keywords come before those of names, and that no keyword starts
like another one (`Lexer.eq_of_keyword_prefix`): then the name was not cut off by the rule of some
other keyword either.

So a name or keyword is all that the pattern of names matches, and its text decides which of these
it is (`Lexing.name_or_keyword`).
-/

namespace LessCss

open Text

/-- A token covers just what a pattern matches at the place where it starts. -/
def Token.Covers (t : Token) (source : String) (p : Pattern) : Prop :=
  ∃ n, p (dropBytes source.toList t.start) = some n ∧
    t.text = String.ofList ((dropBytes source.toList t.start).take n) ∧
      t.stop = t.start + width ((dropBytes source.toList t.start).take n)

namespace Lexer

open Pattern

variable {cs : List Char} {j k l : Kind} {n : Nat}

/-! ## The rule that cut off a token -/

/-- A rule for a kind of tokens cuts off a token of this kind, if there is no longer name, or the
longer name. -/
theorem Rule.cut?_ofKind (h : (Rule.ofKind j).cut? cs = some (.token k, n)) :
    patternOf k cs = some n ∧
    ((j = k ∧ ∀ l m, longerName k = some l → patternOf l cs = some m → m ≤ n) ∨
      longerName j = some k ∧ ∃ m, patternOf j cs = some m ∧ m < n) := by
  unfold Rule.cut? at h
  split at h
  · cases h
  · cases h
  · rename_i i _ hi
    split at h
    · rename_i hyields
      cases h
      refine ⟨hi, .inl ⟨rfl, fun l m hl => ?_⟩⟩
      rw [Option.map_eq_none_iff.mp hyields] at hl
      cases hl
    · rename_i kind longer hyields
      obtain ⟨l, hl, hlonger⟩ := Option.map_eq_some_iff.mp hyields
      cases hlonger
      split at h
      · rename_i hnone
        cases h
        refine ⟨hi, .inl ⟨rfl, fun l' m hl' hm => ?_⟩⟩
        rw [Option.some.inj (hl'.symm.trans hl), hnone] at hm
        cases hm
      · rename_i m hm
        split at h
        · rename_i hlt
          cases h
          exact ⟨hm, .inr ⟨hl, i, hi, hlt⟩⟩
        · rename_i hle
          cases h
          refine ⟨hi, .inl ⟨rfl, fun l' m' hl' hm' => ?_⟩⟩
          rw [Option.some.inj (hl'.symm.trans hl), hm] at hm'
          cases hm'
          exact Nat.le_of_not_lt hle

/-- The kinds are listed in the order in which they are tried. -/
theorem pairwise_index_all : Kind.all.Pairwise fun j k => j.index < k.index := by decide

/-- A token is cut off by the rule of some kind, and the patterns of earlier kinds do not match. -/
theorem exists_rule_of_cut? (h : cut? cs = some (.token k, n)) : ∃ j,
    (Rule.ofKind j).cut? cs = some (.token k, n) ∧ ∀ i, i.index < j.index →
    ∀ m, patternOf i cs ≠ some (m + 1) := by
  rw [cut?, rules, List.findSome?_append, Option.or_eq_some_iff] at h
  rcases h with h | ⟨-, h⟩
  · obtain ⟨_, hr, hcut⟩ := List.exists_of_findSome?_eq_some h
    obtain ⟨i, -, rfl⟩ := List.mem_map.mp hr
    unfold Rule.cut? at hcut
    split at hcut <;> cases hcut
  · rw [List.findSome?_map] at h
    obtain ⟨before, j, behind, hall, hj, hbefore⟩ := List.findSome?_eq_some_iff.mp h
    refine ⟨j, hj, fun i hi => Rule.cut?_eq_none_iff.mp (hbefore i ?_)⟩
    have hsorted := pairwise_index_all
    have hmem := Kind.mem_all i
    rw [hall] at hsorted hmem
    rcases List.mem_append.mp hmem with hmem | hmem
    · exact hmem
    · have hle : j.index ≤ i.index := by
        rcases List.mem_cons.mp hmem with rfl | hmem
        · exact Nat.le_refl _
        · exact Nat.le_of_lt
            ((List.pairwise_cons.mp (List.pairwise_append.mp hsorted).2.1).1 i hmem)
      omega

/-! ## Keywords -/

/-- The text of a keyword. -/
def keyword : Kind → List Char
  | .atImport => "@import".toList
  | .atMedia => "@media".toList
  | .atPlugin => "@plugin".toList
  | .when => "when".toList
  | .and => "and".toList
  | .or => "or".toList
  | _ => []

/-- The kinds of keywords. -/
def keywords : List Kind := [.atImport, .atMedia, .atPlugin, .when, .and, .or]

theorem mem_keywords (h : longerName k = some l) : k ∈ keywords := by
  cases k with
  | atImport | atMedia | atPlugin | when | and | or => decide
  | _ => cases h

/-- A keyword is a name of its sort from start to end, and its rule comes before that of names. -/
theorem keyword_spec (h : longerName k = some l) : patternOf k = word (keyword k) ∧
    patternOf l (keyword k) = some (keyword k).length ∧ keyword k ≠ [] ∧ k.index < l.index ∧
    longerName l = none := by
  cases k with
  | atImport | atMedia | atPlugin | when | and | or =>
    cases h
    exact ⟨rfl, by decide +kernel⟩
  | _ => cases h

/-- No keyword starts like another one. -/
theorem eq_of_keyword_prefix (hj : longerName j = some l) (hk : longerName k = some l)
    (h : keyword j <+: keyword k) : j = k := by
  have hall : ∀ j ∈ keywords, ∀ k ∈ keywords, keyword j <+: keyword k → j = k := by decide +kernel
  exact hall j (mem_keywords hj) k (mem_keywords hk) h

/-- The pattern of a keyword matches where the keyword stands. -/
theorem patternOf_keyword_iff (h : longerName k = some l) :
    patternOf k cs = some n ↔ keyword k <+: cs ∧ n = (keyword k).length := by
  rw [(keyword_spec h).1, word_eq, wordVia_eq_some, List.map_id]
  exact and_congr_right fun _ => eq_comm

/-- **What is cut off as a name or keyword is a whole name, and a keyword just if its text is
one.** -/
theorem cut?_name_or_keyword (h : cut? cs = some (.token k, n))
    (hk : k = l ∨ longerName k = some l) :
    patternOf l cs = some n ∧ ∀ i, longerName i = some l → (k = i ↔ cs.take n = keyword i) := by
  obtain ⟨j, hj, hearlier⟩ := exists_rule_of_cut? h
  obtain ⟨hmatch, hrule⟩ := Rule.cut?_ofKind hj
  constructor
  · rcases hk with rfl | hk
    · exact hmatch
    · obtain ⟨hstarts, rfl⟩ := (patternOf_keyword_iff hk).mp hmatch
      obtain ⟨rest, rfl⟩ := hstarts
      obtain ⟨m, hm, hle⟩ := (patternOf_local l).grows rest (keyword_spec hk).2.1
      rcases hrule with ⟨-, hlongest⟩ | ⟨hj, -⟩
      · rw [hm, Nat.le_antisymm (hlongest l m hk hm) hle]
      · rw [(keyword_spec hj).2.2.2.2] at hk
        cases hk
  · refine fun i hi => ⟨?_, fun htake => ?_⟩
    · rintro rfl
      obtain ⟨hstarts, rfl⟩ := (patternOf_keyword_iff hi).mp hmatch
      exact (List.prefix_iff_eq_take.mp hstarts).symm
    · -- the rule of the keyword `i` matches, so that no later rule was tried
      have hstarts : keyword i <+: cs := htake ▸ List.take_prefix n cs
      have hlength : n = (keyword i).length := by
        rw [← htake, List.length_take_of_le (le_of_cut? h)]
      have hi' := (patternOf_keyword_iff hi).mpr ⟨hstarts, hlength⟩
      have hle : j.index ≤ i.index := by
        by_contra hlt
        exact hearlier i (Nat.lt_of_not_le hlt) (n - 1)
          (by rw [hi', Nat.sub_add_cancel (cut?_pos h)])
      -- that rule matches a keyword which `i` starts with, and hence is that of `i`
      have hown {m : Nat} (hj : longerName j = some l) (hm : patternOf j cs = some m)
          (hmn : m ≤ n) : j = i := by
        obtain ⟨hstarts', rfl⟩ := (patternOf_keyword_iff hj).mp hm
        exact eq_of_keyword_prefix hj hi
          (List.prefix_of_prefix_length_le hstarts' hstarts (hlength ▸ hmn))
      rcases hrule with ⟨rfl, -⟩ | ⟨hj, m, hm, hlt⟩
      · rcases hk with rfl | hk
        · have := (keyword_spec hi).2.2.2.1
          omega
        · exact hown hk hmatch (Nat.le_refl n)
      · rcases hk with rfl | hk
        · cases hown hj hm (Nat.le_of_lt hlt)
          rw [hm] at hi'
          cases hi'
          omega
        · rw [(keyword_spec hj).2.2.2.2] at hk
          cases hk

end Lexer

namespace Lexing

open Lexer

/-- A token, where the lexer cut it off. -/
theorem exists_cut?_of_mem_tokens {source : String} {t : Token} (ht : t ∈ (ofText source).tokens) :
    let rest := dropBytes source.toList t.start
    ∃ n, cut? rest = some (.token t.kind, n) ∧ t.text = String.ofList (rest.take n) ∧
      t.stop = t.start + width (rest.take n) := by
  obtain ⟨before, rest, n, hsource, -, hcut, ht⟩ := mem_tokens_ofText_iff.mp ht
  have hrest : dropBytes source.toList t.start = rest := by
    rw [hsource, ht]
    exact dropBytes_width_append before rest
  intro rest'
  refine ⟨n, ?_⟩
  rw [show rest' = rest from hrest]
  exact ⟨hcut, congrArg Token.text ht, by rw [ht]⟩

/-- **Keywords are neither torn out of names nor hidden in them.**  A name or keyword covers all
that the pattern of names matches, and it is a keyword if and only if its text is that of the
keyword; and so with the names behind an at sign. -/
theorem name_or_keyword {source : String} {t : Token} (ht : t ∈ (ofText source).tokens) :
    (t.kind ∈ [.ident, .when, .and, .or] → t.Covers source name ∧
      (t.kind = .when ↔ t.text = "when") ∧
      (t.kind = .and ↔ t.text = "and") ∧ (t.kind = .or ↔ t.text = "or")) ∧
    (t.kind ∈ [.atName, .atImport, .atMedia, .atPlugin] → t.Covers source atName ∧
      (t.kind = .atImport ↔ t.text = "@import") ∧ (t.kind = .atMedia ↔ t.text = "@media") ∧
      (t.kind = .atPlugin ↔ t.text = "@plugin")) := by
  obtain ⟨n, hcut, htext, hstop⟩ := exists_cut?_of_mem_tokens ht
  have hgroup (l : Kind) (hl : t.kind = l ∨ longerName t.kind = some l) :
      t.Covers source (patternOf l) ∧
      ∀ i, longerName i = some l → (t.kind = i ↔ t.text = String.ofList (keyword i)) := by
    obtain ⟨hname, hkeyword⟩ := cut?_name_or_keyword hcut hl
    refine ⟨⟨n, hname, htext, hstop⟩, fun i hi => ?_⟩
    rw [hkeyword i hi, htext, String.ofList_inj]
  constructor
  · intro hkind
    have hl : t.kind = .ident ∨ longerName t.kind = some .ident := by
      simp only [List.mem_cons, List.not_mem_nil, or_false] at hkind
      rcases hkind with h | h | h | h <;> rw [h] <;> decide
    obtain ⟨hcovers, hkeyword⟩ := hgroup .ident hl
    exact ⟨hcovers, hkeyword .when rfl, hkeyword .and rfl, hkeyword .or rfl⟩
  · intro hkind
    have hl : t.kind = .atName ∨ longerName t.kind = some .atName := by
      simp only [List.mem_cons, List.not_mem_nil, or_false] at hkind
      rcases hkind with h | h | h | h <;> rw [h] <;> decide
    obtain ⟨hcovers, hkeyword⟩ := hgroup .atName hl
    exact ⟨hcovers, hkeyword .atImport rfl, hkeyword .atMedia rfl, hkeyword .atPlugin rfl⟩

/-- A keyword at the start of a longer name, which ends in an escape, and a keyword behind it. -/
theorem name_or_keyword_escape :
    let source := "and-\\6f  or"
    let longer : Token := ⟨.ident, 0, 8, "and-\\6f "⟩
    let shorter : Token := ⟨.or, 9, 11, "or"⟩
    longer ∈ (ofText source).tokens ∧ shorter ∈ (ofText source).tokens ∧
      longer.Covers source name ∧ shorter.Covers source name := by
  intro source longer shorter
  have hlonger : longer ∈ (ofText source).tokens := by decide +kernel
  have hshorter : shorter ∈ (ofText source).tokens := by decide +kernel
  exact ⟨hlonger, hshorter, ((name_or_keyword hlonger).1 (by decide)).1,
    ((name_or_keyword hshorter).1 (by decide)).1⟩

end Lexing

end LessCss
