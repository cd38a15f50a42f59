import Mathlib.Computability.Language
import Mathlib.Order.Bounds.Basic
import Mathlib.Order.CompletePartialOrder
import LessCss.Proofs.Lexing.Visits

/-!
# Block comments

A block comment ends with the first closing behind its opening.  As a regular language these are the
texts with runs of other characters and runs of stars by turns, where a run of stars comes last and
a slash behind it (`Lexer.blockComments`).  The alternation is read off a text from its end: cut off
before any character, the inside of such a text has just come to the end of a run of stars, or is in
a run of other characters (`Lexer.inside_cases`).

Where the lexer stands before an opening, it cuts off a comment just if a closing follows at all; if
none does, it cuts off a slash, and there is no block comment in the rest of the text
(`Lexing.blockComment_exact`).  The lexer does not stand before every opening: those in strings and
in other comments it passes by (`Lexer.Visits`).
-/

namespace LessCss

namespace Lexer

open Pattern
open scoped Computability

/-! ## Closings -/

/-- A comment is closed at index `i` of a text. -/
def ClosesAt (cs : List Char) (i : Nat) : Prop := cs[i]? = some '*' ∧ cs[i + 1]? = some '/'

/-- No comment is closed in a text. -/
def Unclosed (cs : List Char) : Prop := cs.IsChain fun c d => ¬ (c = '*' ∧ d = '/')

/-- A text is unclosed just if no index in it closes a comment. -/
theorem unclosed_iff {cs : List Char} : Unclosed cs ↔ ∀ i, ¬ ClosesAt cs i := by
  rw [Unclosed, List.isChain_iff_getElem]
  constructor
  · rintro h i ⟨hstar, hslash⟩
    obtain ⟨_, hstar⟩ := List.getElem?_eq_some_iff.mp hstar
    obtain ⟨hi, hslash⟩ := List.getElem?_eq_some_iff.mp hslash
    exact h i hi ⟨hstar, hslash⟩
  · rintro h i hi ⟨hstar, hslash⟩
    exact h i ⟨List.getElem?_eq_some_iff.mpr ⟨_, hstar⟩, List.getElem?_eq_some_iff.mpr ⟨hi, hslash⟩⟩

/-- A star and a slash behind a text close a comment right behind it. -/
theorem closesAt_append (u v : List Char) : ClosesAt (u ++ '*' :: '/' :: v) u.length :=
  ⟨by simp, by simp⟩

/-- The first closing of a text, with what stands before and behind it. -/
theorem isLeast_closesAt_iff {cs : List Char} {i : Nat} : IsLeast {i | ClosesAt cs i} i ↔
    ∃ u v, cs = u ++ '*' :: '/' :: v ∧ Unclosed (u ++ ['*']) ∧ i = u.length := by
  constructor
  · rintro ⟨⟨hstar, hslash⟩, hleast⟩
    obtain ⟨hi, hstar⟩ := List.getElem?_eq_some_iff.mp hstar
    obtain ⟨hi', hslash⟩ := List.getElem?_eq_some_iff.mp hslash
    refine ⟨cs.take i, cs.drop (i + 2), ?_, unclosed_iff.mpr fun j ⟨hj, hj'⟩ => ?_,
      (List.length_take_of_le (Nat.le_of_lt hi)).symm⟩
    · rw [← hstar, ← hslash, ← List.drop_eq_getElem_cons hi', ← List.drop_eq_getElem_cons hi,
        List.take_append_drop]
    · -- a closing before the star at `i` would be one in the whole text
      have htake : cs.take i ++ ['*'] = cs.take (i + 1) := by
        rw [List.take_add_one, List.getElem?_eq_getElem hi, hstar]
        rfl
      have hlt : j + 1 < (cs.take (i + 1)).length := htake ▸ (List.getElem?_eq_some_iff.mp hj').1
      rw [List.length_take] at hlt
      rw [htake, List.getElem?_take_of_lt (by omega)] at hj hj'
      have hle : i ≤ j := hleast ⟨hj, hj'⟩
      omega
  · rintro ⟨u, v, rfl, hopen, rfl⟩
    refine ⟨closesAt_append u v, fun j ⟨hj, hj'⟩ => Nat.le_of_not_lt fun hlt => ?_⟩
    have htext : (u ++ '*' :: '/' :: v) = (u ++ ['*']) ++ '/' :: v := by simp
    have hlength : (u ++ ['*']).length = u.length + 1 := by simp
    rw [htext, List.getElem?_append_left (by omega)] at hj hj'
    exact unclosed_iff.mp hopen j ⟨hj, hj'⟩

/-- Behind its opening a comment goes up to the first closing. -/
theorem commentBody_eq_some {cs : List Char} {n : Nat} : commentBody cs = some n ↔
    ∃ u v, cs = u ++ '*' :: '/' :: v ∧ Unclosed (u ++ ['*']) ∧ n = u.length + 2 := by
  constructor
  · intro h
    fun_induction commentBody cs generalizing n with
    | case1 | case2 => cases h
    | case3 cs =>
      cases h
      exact ⟨[], cs, rfl, List.isChain_singleton _, rfl⟩
    | case4 c d cs hclosing ih =>
      obtain ⟨m, hm, rfl⟩ := Option.map_eq_some_iff.mp h
      obtain ⟨u, v, hcs, hopen, rfl⟩ := ih hm
      refine ⟨c :: u, v, by rw [hcs, List.cons_append], ?_, rfl⟩
      cases u with
      | nil => exact List.isChain_cons_cons.mpr ⟨fun h => absurd h.2 (by decide), hopen⟩
      | cons e u =>
        obtain ⟨rfl, -⟩ := List.cons.inj hcs
        exact List.isChain_cons_cons.mpr ⟨fun h => hclosing h.1 h.2, hopen⟩
  · rintro ⟨u, v, rfl, hopen, rfl⟩
    induction u with
    | nil => rfl
    | cons c u ih =>
      have hrest := ih (List.IsChain.tail hopen)
      have hne : ¬ (c = '*' ∧ (u ++ '*' :: '/' :: v).head? = some '/') := by
        cases u with
        | nil => simp
        | cons d u => simpa using (List.isChain_cons_cons.mp hopen).1
      cases hcs : u ++ '*' :: '/' :: v with
      | nil => simp at hcs
      | cons d cs =>
        rw [hcs] at hne hrest
        rw [List.cons_append, hcs, commentBody_cons_cons (by simpa using hne), hrest]
        rfl

/-- A block comment goes from its opening to the first place at which it is closed. -/
theorem blockComment_eq_some {cs : List Char} {n : Nat} : triviaPattern .blockComment cs = some n ↔
    ∃ u v, cs = '/' :: '*' :: (u ++ '*' :: '/' :: v) ∧ Unclosed (u ++ ['*']) ∧
    n = u.length + 4 := by
  refine seq_eq_some.trans ?_
  constructor
  · rintro ⟨i, j, hi, hj, rfl⟩
    obtain ⟨⟨w, rfl⟩, rfl⟩ := word_pair_eq_some.mp hi
    obtain ⟨u, v, hw, hopen, rfl⟩ := commentBody_eq_some.mp hj
    exact ⟨u, v, by rw [← hw]; rfl, hopen, by omega⟩
  · rintro ⟨u, v, rfl, hopen, rfl⟩
    exact ⟨2, u.length + 2, word_pair_eq_some.mpr ⟨⟨_, rfl⟩, rfl⟩,
      commentBody_eq_some.mpr ⟨u, v, rfl, hopen, rfl⟩, by omega⟩

/-- Behind an opening a comment goes up to the first closing that is not part of the opening. -/
theorem blockComment_eq_some_iff_isLeast {w : List Char} {n : Nat} :
    triviaPattern .blockComment ('/' :: '*' :: w) = some n ↔
      ∃ i, IsLeast {i | 2 ≤ i ∧ ClosesAt ('/' :: '*' :: w) i} i ∧ n = i + 2 := by
  have hshift (i : Nat) :
      IsLeast {i | 2 ≤ i ∧ ClosesAt ('/' :: '*' :: w) i} (i + 2) ↔
        IsLeast {i | ClosesAt w i} i := by
    constructor
    · rintro ⟨⟨-, hcloses⟩, hleast⟩
      exact ⟨hcloses, fun j hj => Nat.le_of_add_le_add_right (hleast ⟨Nat.le_add_left 2 j, hj⟩)⟩
    · rintro ⟨hcloses, hleast⟩
      refine ⟨⟨Nat.le_add_left 2 i, hcloses⟩, fun j ⟨hj, hj'⟩ => ?_⟩
      obtain ⟨j, rfl⟩ := Nat.exists_eq_add_of_le' hj
      exact Nat.add_le_add_right (hleast hj') 2
  rw [blockComment_eq_some]
  constructor
  · rintro ⟨u, v, hw, hopen, rfl⟩
    obtain ⟨-, hw⟩ := List.cons.inj hw
    obtain ⟨-, hw⟩ := List.cons.inj hw
    exact ⟨u.length + 2, (hshift _).mpr (isLeast_closesAt_iff.mpr ⟨u, v, hw, hopen, rfl⟩), rfl⟩
  · rintro ⟨i, hleast, rfl⟩
    obtain ⟨i, rfl⟩ := Nat.exists_eq_add_of_le' hleast.1.1
    obtain ⟨u, v, rfl, hopen, rfl⟩ := isLeast_closesAt_iff.mp ((hshift i).mp hleast)
    exact ⟨u, v, rfl, hopen, rfl⟩

/-! ## Comments as a regular language -/

/-- The texts of one character of a class. -/
def oneOf (f : Char → Bool) : Language Char := {w | ∃ c, w = [c] ∧ f c = true}

/-- One star. -/
def star : Language Char := oneOf (· == '*')

/-- One character other than a star. -/
def noStar : Language Char := oneOf (· != '*')

/-- One character other than a star and a slash. -/
def neither : Language Char := oneOf fun c => c != '/' && c != '*'

/-- A run of stars. -/
def stars : Language Char := star * star∗

/-- What stands in a comment, between its opening and the slash that ends it: runs of other
characters and runs of stars by turns, of which the first may be empty, and no slash behind a run of
stars. -/
def inside : Language Char := noStar∗ * stars * (neither * noStar∗ * stars)∗

/-- Block comments. -/
def blockComments : Language Char := {['/', '*']} * inside * {['/']}

/-- In a row of texts of one character each, all characters are of the class. -/
theorem forall_of_mem_kstar {f : Char → Bool} {w : List Char} (h : w ∈ (oneOf f)∗) :
    ∀ c ∈ w, f c = true := by
  obtain ⟨parts, rfl, hparts⟩ := Language.mem_kstar.mp h
  intro c hc
  obtain ⟨part, hpart, hc⟩ := List.mem_flatten.mp hc
  obtain ⟨d, rfl, hd⟩ := hparts part hpart
  rwa [List.mem_singleton.mp hc]

theorem of_mem_stars {w : List Char} (h : w ∈ stars) :
    w.getLast? = some '*' ∧ ∀ c ∈ w, c = '*' := by
  obtain ⟨first, ⟨c, rfl, hc⟩, rest, hrest, rfl⟩ := Language.mem_mul.mp h
  have hall : ∀ d ∈ [c] ++ rest, d = '*' :=
    List.forall_mem_cons.mpr ⟨eq_of_beq hc, fun d hd => eq_of_beq (forall_of_mem_kstar hrest d hd)⟩
  have hlast := List.getLast?_eq_some_getLast (l := [c] ++ rest) (by simp)
  exact ⟨hlast.trans (congrArg some (hall _ (List.getLast_mem _))), hall⟩

/-- A run of other characters and a run of stars behind it close no comment. -/
theorem unclosed_append {a s : List Char} (ha : ∀ c ∈ a, c ≠ '*') (hs : ∀ c ∈ s, c = '*') :
    Unclosed (a ++ s) := by
  have hslash {c : Char} (hc : c ∈ s) : c ≠ '/' :=
    fun h => absurd ((hs c hc).symm.trans h) (by decide)
  have hopen : a.Pairwise fun c d => ¬ (c = '*' ∧ d = '/') :=
    List.pairwise_of_forall_mem_list fun c hc _ _ h => ha c hc h.1
  have hopen' : s.Pairwise fun c d => ¬ (c = '*' ∧ d = '/') :=
    List.pairwise_of_forall_mem_list fun _ _ d hd h => hslash hd h.2
  exact List.isChain_append.mpr
    ⟨hopen.isChain, hopen'.isChain, fun c hc _ _ h => ha c (List.mem_of_getLast? hc) h.1⟩

/-- The texts that close no comment but would if a slash came behind them. -/
def aboutToClose : Language Char := {w | w.getLast? = some '*' ∧ Unclosed w}

/-- What stands in a comment would close it if a slash came behind. -/
theorem inside_le : inside ≤ aboutToClose := by
  have hlast (u s : List Char) (hs : s.getLast? = some '*') : (u ++ s).getLast? = some '*' := by
    rw [List.getLast?_append, hs]
    rfl
  refine mul_kstar_le ?_ ?_
  · rintro w ⟨a, ha, s, hs, rfl⟩
    obtain ⟨hstar, hs⟩ := of_mem_stars hs
    exact ⟨hlast a s hstar,
      unclosed_append (fun c hc => by simpa using forall_of_mem_kstar ha c hc) hs⟩
  · rintro w ⟨u, ⟨hu, hopen⟩, x, ⟨y, ⟨d, ⟨c, rfl, hc⟩, a, ha, rfl⟩, s, hs, rfl⟩, rfl⟩
    obtain ⟨hstar, hs⟩ := of_mem_stars hs
    obtain ⟨hslash, hne⟩ : c ≠ '/' ∧ c ≠ '*' := by simpa using hc
    refine ⟨hlast u _ (hlast _ s hstar), List.isChain_append.mpr ⟨hopen, ?_, ?_⟩⟩
    · exact unclosed_append (List.forall_mem_cons.mpr
        ⟨hne, fun d hd => by simpa using forall_of_mem_kstar ha d hd⟩) hs
    · rintro _ _ d hd ⟨-, rfl⟩
      exact hslash (Option.some.inj hd)

/-- What may go on behind a part and behind each round may go on behind the part with any number of
rounds. -/
theorem mul_kstar_mul_le {first round more : Language Char} (hfirst : first * more ≤ first)
    (hround : round * more ≤ round) : first * round∗ * more ≤ first * round∗ := by
  calc first * round∗ * more = first * (1 + round∗ * round) * more := by rw [one_add_kstar_mul]
    _ = first * more + first * round∗ * (round * more) := by
      simp only [mul_add, add_mul, mul_one, mul_assoc]
    _ ≤ first + first * round∗ * round := add_le_add hfirst (mul_le_mul_right hround _)
    _ = first * (1 + round∗ * round) := by simp only [mul_add, mul_one, mul_assoc]
    _ = first * round∗ := by rw [one_add_kstar_mul]

theorem star_le_stars : star ≤ stars := le_mul_of_one_le_right' one_le_kstar

/-- A run of stars may always go on. -/
theorem inside_mul_star_le : inside * star ≤ inside := by
  have hstars : stars * star ≤ stars := by
    rw [stars, mul_assoc]
    exact mul_le_mul_right kstar_mul_le_kstar _
  have hbehind (u : Language Char) : u * stars * star ≤ u * stars := by
    rw [mul_assoc]
    exact mul_le_mul_right hstars u
  exact mul_kstar_mul_le (hbehind _) (hbehind _)

/-- A run of other characters behind runs of stars goes on with a star, and is then one round
more. -/
theorem inside_mul_round_le : inside * (neither * noStar∗) * star ≤ inside := by
  calc inside * (neither * noStar∗) * star ≤ inside * (neither * noStar∗ * stars) := by
        rw [mul_assoc]
        exact mul_le_mul_right (mul_le_mul_right star_le_stars _) _
    _ ≤ inside := by
        rw [inside, mul_assoc]
        exact mul_le_mul_right kstar_mul_le_kstar _

/-- Where no comment is closed, a text has come to no star yet, or to the end of a run of stars, or
into a run of other characters behind one. -/
theorem inside_cases {w : List Char} (h : Unclosed w) :
    w ∈ noStar∗ ∨ w ∈ inside ∨ w ∈ inside * (neither * noStar∗) := by
  induction w using List.reverseRecOn with
  | nil => exact .inl (Language.nil_mem_kstar _)
  | append_singleton w c ih =>
    obtain ⟨hw, -, hc⟩ := List.isChain_append.mp h
    by_cases hstar : c = '*'
    · have hc : [c] ∈ star := ⟨c, rfl, by simpa using hstar⟩
      refine .inr (.inl ?_)
      rcases ih hw with hw | hw | hw
      · have hfirst : noStar∗ * star ≤ inside :=
          (mul_le_mul_right star_le_stars _).trans (le_mul_of_one_le_right' one_le_kstar)
        exact hfirst (Language.append_mem_mul hw hc)
      · exact inside_mul_star_le (Language.append_mem_mul hw hc)
      · exact inside_mul_round_le (Language.append_mem_mul hw hc)
    · have hplain : [c] ∈ noStar := ⟨c, rfl, by simpa using hstar⟩
      rcases ih hw with hw | hw | hw
      · have hrun : noStar∗ * noStar ≤ noStar∗ := kstar_mul_le_kstar
        exact .inl (hrun (Language.append_mem_mul hw hplain))
      · -- behind a star there is no slash
        have hslash : c ≠ '/' := fun hslash => hc '*' (inside_le hw).1 c rfl ⟨rfl, hslash⟩
        have hneither : [c] ∈ neither := ⟨c, rfl, by simp [hstar, hslash]⟩
        have hround : neither ≤ neither * noStar∗ := le_mul_of_one_le_right' one_le_kstar
        exact .inr (.inr (Language.append_mem_mul hw (hround hneither)))
      · have hround : inside * (neither * noStar∗) * noStar ≤ inside * (neither * noStar∗) := by
          rw [mul_assoc, mul_assoc]
          exact mul_le_mul_right (mul_le_mul_right kstar_mul_le_kstar _) _
        exact .inr (.inr (hround (Language.append_mem_mul hw hplain)))

/-- What may stand in a comment is what would be closed by a slash behind it, and not before. -/
theorem mem_inside_iff {w : List Char} : w ∈ inside ↔ ∃ u, w = u ++ ['*'] ∧ Unclosed w := by
  constructor
  · intro h
    obtain ⟨hlast, hopen⟩ := inside_le h
    obtain ⟨u, rfl⟩ := List.getLast?_eq_some_iff.mp hlast
    exact ⟨u, rfl, hopen⟩
  · rintro ⟨u, rfl, hopen⟩
    have hstar : ['*'] ∈ star := ⟨'*', rfl, rfl⟩
    rcases inside_cases (List.isChain_append.mp hopen).1 with hu | hu | hu
    · have hfirst : noStar∗ * star ≤ inside :=
        (mul_le_mul_right star_le_stars _).trans (le_mul_of_one_le_right' one_le_kstar)
      exact hfirst (Language.append_mem_mul hu hstar)
    · exact inside_mul_star_le (Language.append_mem_mul hu hstar)
    · exact inside_mul_round_le (Language.append_mem_mul hu hstar)

/-- A block comment is what is closed at its end and not before. -/
theorem mem_blockComments_iff {w : List Char} :
    w ∈ blockComments ↔ ∃ u, w = '/' :: '*' :: (u ++ ['*', '/']) ∧ Unclosed (u ++ ['*']) := by
  constructor
  · rintro ⟨_, ⟨_, rfl, w, hw, rfl⟩, _, rfl, rfl⟩
    obtain ⟨u, rfl, hopen⟩ := mem_inside_iff.mp hw
    exact ⟨u, by simp, hopen⟩
  · rintro ⟨u, rfl, hopen⟩
    have hinside : ['/', '*'] ++ (u ++ ['*']) ∈ ({['/', '*']} * inside : Language Char) :=
      Language.append_mem_mul rfl (mem_inside_iff.mpr ⟨u, rfl, hopen⟩)
    have hwhole := Language.append_mem_mul hinside (Set.mem_singleton ['/'])
    have htext : ['/', '*'] ++ (u ++ ['*']) ++ ['/'] = '/' :: '*' :: (u ++ ['*', '/']) := by simp
    rwa [htext] at hwhole

/-- **The pattern of block comments matches what the regular language has at the start of a text.**
There is never more than one such text, so that it does not matter which one is looked for. -/
theorem blockComment_eq_some_iff {cs : List Char} {n : Nat} :
    triviaPattern .blockComment cs = some n ↔ n ≤ cs.length ∧ cs.take n ∈ blockComments := by
  rw [blockComment_eq_some, mem_blockComments_iff]
  constructor
  · rintro ⟨u, v, rfl, hopen, rfl⟩
    refine ⟨by simp, u, ?_, hopen⟩
    have htext : '/' :: '*' :: (u ++ '*' :: '/' :: v) = '/' :: '*' :: (u ++ ['*', '/']) ++
        v := by simp
    rw [htext, List.take_left' (by simp)]
  · rintro ⟨hn, u, htake, hopen⟩
    refine ⟨u, cs.drop n, ?_, hopen, ?_⟩
    · conv_lhs => rw [← List.take_append_drop n cs, htake]
      simp
    · have hlength := congrArg List.length htake
      rw [List.length_take_of_le hn] at hlength
      simpa using hlength

/-- Where there is a comment, it is closed. -/
theorem exists_closesAt {cs : List Char} {n : Nat} (before : List Char)
    (h : triviaPattern .blockComment cs = some n) :
    ∃ i, 2 ≤ i ∧ ClosesAt (before ++ cs) i := by
  obtain ⟨u, v, rfl, -, -⟩ := blockComment_eq_some.mp h
  have htext : before ++ '/' :: '*' :: (u ++ '*' :: '/' :: v) = (before ++ '/' :: '*' :: u) ++
      '*' :: '/' :: v := by
    simp
  have hlength : (before ++ '/' :: '*' :: u).length = before.length + u.length + 2 := by
    simp
    omega
  refine ⟨before.length + u.length + 2, Nat.le_add_left 2 _, ?_⟩
  rw [htext, ← hlength]
  exact closesAt_append _ _

/-! ## Where an opening stands -/

/-- At a slash and a star nothing but a block comment can be cut off. -/
theorem cut?_blockComment_iff {w : List Char} {n : Nat} :
    cut? ('/' :: '*' :: w) = some (.trivia .blockComment, n) ↔
      triviaPattern .blockComment ('/' :: '*' :: w) = some n := by
  refine ⟨triviaPattern_of_cut?, fun h => ?_⟩
  obtain ⟨i, -, rfl⟩ := blockComment_eq_some_iff_isLeast.mp h
  exact cut?_of_trivia [.blank] rfl h fun j hj => by rw [List.mem_singleton.mp hj]; rfl

/-- Of a comment that has no end a slash is cut off. -/
theorem cut?_opening {w : List Char} (h : triviaPattern .blockComment ('/' :: '*' :: w) = none) :
    cut? ('/' :: '*' :: w) = some (.token .slash, 1) := by
  let kinds := Kind.all.takeWhile (· != .slash)
  refine List.findSome?_eq_some_iff.mpr
    ⟨[.blank, .blockComment, .lineComment].map Rule.ofTrivia ++ kinds.map Rule.ofKind,
      Rule.ofKind .slash, [Kind.tilde, .equals, .dot].map Rule.ofKind, rfl, rfl, ?_⟩
  rw [List.forall_mem_append, List.forall_mem_map, List.forall_mem_map]
  constructor
  · intro k _
    cases k with
    | blockComment => exact Rule.cut?_eq_none_iff.mpr fun m hm => nomatch h.symm.trans hm
    | blank | lineComment => rfl
  · intro k hk
    have hne : k ≠ .slash := by
      rintro rfl
      exact absurd hk (by decide)
    cases k with
    | slash => exact absurd rfl hne
    | _ => rfl

end Lexer

namespace Lexing

open Lexer Text

section

variable {source : String} {before rest w : List Char}

/-- Where the lexer stands before an opening, the comment there goes up to the first closing. -/
theorem mem_trivia_blockComment_iff (hsource : source.toList = before ++ '/' :: '*' :: w)
    (hvisits : Visits source.toList ('/' :: '*' :: w)) {stop : Nat} :
    ⟨.blockComment, width before, stop⟩ ∈ (ofText source).trivia ↔
      ∃ i, IsLeast {i | 2 ≤ i ∧ ClosesAt ('/' :: '*' :: w) i} i ∧
        stop = width before + width (('/' :: '*' :: w).take (i + 2)) := by
  refine (mem_trivia_ofText_here_iff hsource hvisits).trans ?_
  constructor
  · rintro ⟨n, hcut, hstop⟩
    obtain ⟨i, hleast, rfl⟩ := blockComment_eq_some_iff_isLeast.mp (cut?_blockComment_iff.mp hcut)
    exact ⟨i, hleast, hstop⟩
  · rintro ⟨i, hleast, hstop⟩
    exact ⟨i + 2, cut?_blockComment_iff.mpr (blockComment_eq_some_iff_isLeast.mpr ⟨i, hleast, rfl⟩),
      hstop⟩

/-- An opening that no closing follows is not one of a comment. -/
theorem slash_of_not_closed (hsource : source.toList = before ++ '/' :: '*' :: w)
    (hvisits : Visits source.toList ('/' :: '*' :: w))
    (h : ¬ ∃ i, 2 ≤ i ∧ ClosesAt ('/' :: '*' :: w) i) :
    ⟨.slash, width before, width before + 1, "/"⟩ ∈ (ofText source).tokens := by
  have hpattern : triviaPattern .blockComment ('/' :: '*' :: w) = none := by
    by_contra hsome
    obtain ⟨n, hn⟩ := Option.ne_none_iff_exists'.mp hsome
    obtain ⟨i, hleast, -⟩ := blockComment_eq_some_iff_isLeast.mp hn
    exact h ⟨i, hleast.1⟩
  exact mem_tokens_ofText_iff.mpr ⟨before, _, 1, hsource, hvisits, cut?_opening hpattern, rfl⟩

/-- Comments that begin in the rest of a text are closed there. -/
theorem exists_closesAt_of_le_start (hsource : source.toList = before ++ rest) {t : Trivia}
    (ht : t ∈ (ofText source).trivia) (hkind : t.kind = .blockComment)
    (hle : width before ≤ t.start) :
    ∃ i, 2 ≤ i ∧ ClosesAt rest i := by
  obtain ⟨before', rest', n, hsource', -, hcut, ht⟩ := mem_trivia_ofText_iff.mp ht
  rw [ht] at hle
  obtain ⟨u, -, rfl⟩ := exists_append_of_width_le (hsource'.symm.trans hsource) hle
  exact exists_closesAt u (triviaPattern_of_cut? (hkind ▸ hcut))

end

/-- **A block comment ends at the first closing.**  Where the lexer stands before an opening, there
is a comment if and only if a closing follows that is not part of the opening, and the comment,
which is one as the regular expression has it, ends behind the first of these.  If none follows, the
opening gives a slash, and what stands from there on is in no block comment. -/
theorem blockComment_exact {source : String} {before rest : List Char}
    (hsource : source.toList = before ++ rest) (hvisits : Visits source.toList rest)
    (hopening : ['/', '*'] <+: rest) :
    ((∃ stop, ⟨.blockComment, width before, stop⟩ ∈ (ofText source).trivia) ↔
      ∃ i, 2 ≤ i ∧ ClosesAt rest i) ∧
      (∀ stop, ⟨.blockComment, width before, stop⟩ ∈ (ofText source).trivia →
        ∃ i, IsLeast {i | 2 ≤ i ∧ ClosesAt rest i} i ∧
        stop = width before + width (rest.take (i + 2)) ∧
          rest.take (i + 2) ∈ blockComments) ∧
      ((¬ ∃ i, 2 ≤ i ∧ ClosesAt rest i) →
        ⟨.slash, width before, width before + 1, "/"⟩ ∈ (ofText source).tokens ∧
          ∀ t ∈ (ofText source).trivia, t.kind = .blockComment → t.stop ≤ width before) := by
  obtain ⟨w, rfl⟩ := hopening
  refine ⟨⟨?_, fun hcloses => ?_⟩, fun stop h => ?_, fun hnone => ?_⟩
  · rintro ⟨stop, h⟩
    obtain ⟨i, hleast, -⟩ := (mem_trivia_blockComment_iff hsource hvisits).mp h
    exact ⟨i, hleast.1⟩
  · classical
    have hleast : IsLeast {i | 2 ≤ i ∧ ClosesAt ('/' :: '*' :: w) i} (Nat.find hcloses) :=
      ⟨Nat.find_spec hcloses, fun i hi => Nat.find_min' hcloses hi⟩
    exact ⟨_, (mem_trivia_blockComment_iff hsource hvisits).mpr ⟨_, hleast, rfl⟩⟩
  · obtain ⟨i, hleast, hstop⟩ := (mem_trivia_blockComment_iff hsource hvisits).mp h
    exact ⟨i, hleast, hstop,
      (blockComment_eq_some_iff.mp (blockComment_eq_some_iff_isLeast.mpr ⟨i, hleast, rfl⟩)).2⟩
  · have hslash := slash_of_not_closed hsource hvisits hnone
    refine ⟨hslash, fun t ht hkind => ?_⟩
    rcases Nat.lt_or_ge t.start (width before) with hlt | hge
    · -- the comment and the slash do not overlap
      have hspan : (width before, width before + 1) ∈ (ofText source).spans :=
        List.mem_append_left _ (List.mem_append_left _ (List.mem_map.mpr ⟨_, hslash, rfl⟩))
      have hspan' : (t.start, t.stop) ∈ (ofText source).spans :=
        List.mem_append_left _ (List.mem_append_right _ (List.mem_map.mpr ⟨t, ht, rfl⟩))
      exact stop_le_start hspan' hspan hlt
    · exact absurd (exists_closesAt_of_le_start hsource ht hkind hge) hnone

/-- A comment behind a name.  The star of its opening is not the one that closes it. -/
theorem blockComment_exact_name :
    let source := "a/*/**/b"
    let rest := "/*/**/b".toList
    source.toList = ['a'] ++ rest ∧ Visits source.toList rest ∧ ['/', '*'] <+: rest ∧
      ClosesAt rest 1 ∧
      ClosesAt rest 4 ∧ ∃ stop, ⟨.blockComment, 1, stop⟩ ∈ (ofText source).trivia := by
  intro source rest
  have hsource : source.toList = ['a'] ++ rest := by decide +kernel
  have hvisits : Visits source.toList rest := by
    have hcut : cut? (['a'] ++ rest) = some (.token .ident, 1) := by decide +kernel
    exact hsource ▸ .behind hcut (.start rest)
  have hopening : ['/', '*'] <+: rest := by decide
  have hcloses : ClosesAt rest 4 := ⟨rfl, rfl⟩
  refine ⟨hsource, hvisits, hopening, ⟨rfl, rfl⟩, hcloses, ?_⟩
  exact (blockComment_exact hsource hvisits hopening).1.mpr ⟨4, by decide, hcloses⟩

end Lexing

end LessCss
