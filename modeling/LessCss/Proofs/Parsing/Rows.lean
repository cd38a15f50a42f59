import LessCss.Proofs.Parsing.Braces
import LessCss.Proofs.Parsing.Continuing

/-!
# Stylesheets in a text that goes on

What holds of a statement holds of a row of them.  Where the text does not go on, the same
statements are found and the same mismatches noted (`Parse.ofTokens_mirrors`).  Where it does, the
statements of the first text come first, if nothing was noted against them, and then come those of
what follows (`Parse.ofTokens_append`): nothing but the tokens that are left passes from one
statement to the next.
-/

namespace LessCss

namespace Parser

open Transfer

variable {x : Transfer}

/-! ## Rows of statements -/

/-- Resuming skips corresponding tokens, whatever stands before. -/
theorem rest_resumeFrom_map (ts : List Token) : ∀ depth previous previous',
    (resumeFrom depth previous' (ts.map x.token)).rest =
      (resumeFrom depth previous ts).rest.map x.token := by
  induction ts with
  | nil => exact fun _ _ _ => rfl
  | cons t ts ih =>
    intro depth previous previous'
    rw [List.map_cons]
    unfold resumeFrom
    rw [token_kind]
    split
    · rfl
    · exact ih _ _ _
    · rfl
    · rfl
    · exact ih _ _ _
    · exact ih _ _ _

/-- What is skipped behind a failure is the same, where the text does not go on. -/
theorem resume_mirrors {near : Bool} (htail : x.tail = []) {c d : Cursor} (h : x.At near c d) :
    x.At false (resume c) (resume d) := by
  refine ⟨?_, ?_, nofun⟩
  · have hrest := h.rest
    rw [htail, List.append_nil] at hrest
    rw [htail, List.append_nil, resume, resume, hrest]
    exact rest_resumeFrom_map c.rest 0 _ _
  · obtain ⟨skipped, hskipped⟩ := resume_suffix c
    exact (hskipped ▸ h.spaced).right_of_append

/-- Where nothing is to come a row of statements is empty. -/
theorem bodyWithin_of_rest_nil (statement : Recovering Tree) (inBlock : Bool) (rounds : Nat)
    {c : Cursor} (hc : c.rest = []) : bodyWithin statement inBlock rounds c = ⟨[], [], c⟩ := by
  cases rounds with
  | zero => rfl
  | succ rounds => simp only [bodyWithin, hc]

end Parser

theorem Transfer.Repeats.found {α β : Type} {x : Transfer} {h : α → β}
    {noted : List Mismatch} {a : α} {next : Cursor} {r : Recovered β}
    (hr : x.Repeats h ⟨noted, .found a next⟩ r) :
    ∃ next', r = ⟨noted.map x.mismatch, .found (h a) next'⟩ ∧ x.At true next next' := by
  obtain ⟨noted', outcome'⟩ := r
  obtain ⟨rfl, houtcome⟩ := hr
  cases houtcome with
  | found ha hnext => exact ⟨_, by rw [ha], hnext⟩

theorem Transfer.Repeats.failed {α β : Type} {x : Transfer} {h : α → β} {noted : List Mismatch}
    {m : Mismatch} {next : Cursor} {r : Recovered β} (hr : x.Repeats h ⟨noted, .failed m next⟩ r) :
    ∃ next', r = ⟨noted.map x.mismatch, .failed (x.mismatch m) next'⟩ ∧ x.At false next next' := by
  obtain ⟨noted', outcome'⟩ := r
  obtain ⟨rfl, houtcome⟩ := hr
  cases houtcome with
  | failed hm hnext => exact ⟨_, by rw [hm], hnext⟩

/-- Rows of statements correspond, and so does what was noted in them. -/
structure Transfer.SameBody (x : Transfer) (b b' : Parser.Body) : Prop where
  statements : b'.statements = x.row b.statements
  noted : b'.noted = b.noted.map x.mismatch
  next : x.At false b.next b'.next

namespace Parser

open Transfer

section Rows

variable {x : Transfer} {bound : Nat} {statement statement' : Recovering Tree}

/-- A statement that is found takes a token. -/
theorem length_lt_of_found (htakes : statement.Takes Tree.Keeps) {c next : Cursor}
    {noted : List Mismatch} {tree : Tree} (h : statement c = ⟨noted, .found tree next⟩) :
    next.rest.length < c.rest.length := by
  have hc := htakes c
  rw [h] at hc
  obtain ⟨taken, htaken, htree⟩ := hc
  have hpos := List.length_pos_iff.mpr htree.nonempty
  rw [htaken, List.length_append]
  omega

/-- A statement that is found in the first text is found in the second. -/
theorem statement_found {near : Bool}
    (hstatement : x.Finishes near bound x.tree statement statement') (hends : statement.Ends)
    {c d next : Cursor} {noted : List Mismatch} {tree : Tree} (hcd : x.At near c d)
    (hbound : c.rest.length ≤ bound) (hfound : statement c = ⟨noted, .found tree next⟩)
    (hgood : x.tail = [] ∨ noted = []) :
    ∃ next', statement' d = ⟨noted.map x.mismatch, .found (x.tree tree) next'⟩ ∧
    x.At true next next' := by
  have hsettled : x.Settled c.rest := .inr (hends c tree next (congrArg Recovered.outcome hfound))
  have hsame := hstatement c d (hcd.settled hbound hsettled)
    (hgood.imp_right fun hnoted => ⟨tree, next, by rw [hfound, hnoted]⟩)
  rw [hfound] at hsame
  exact hsame.found

/-- A row of statements is the same in both texts.  If the second text goes on, this is so where
nothing is noted and a brace or semicolon is to come behind the row. -/
theorem bodyWithin_mirrors (hstatement : ∀ near, x.Finishes near bound x.tree statement statement')
    (hends : statement.Ends) (htakes : statement.Takes Tree.Keeps) (inBlock : Bool) (rounds : Nat)
    (c : Cursor) :
    ∀ near rounds' d, x.At near c d → c.rest.length ≤ bound → c.rest.length ≤ rounds →
      c.rest.length + x.tail.length ≤ rounds' →
      (x.tail = [] ∨ (bodyWithin statement inBlock rounds c).noted = [] ∧
        x.Settled (bodyWithin statement inBlock rounds c).next.rest) →
      x.SameBody (bodyWithin statement inBlock rounds c)
        (bodyWithin statement' inBlock rounds' d) := by
  have hnil {near : Bool} {c d : Cursor} (hcd : x.At near c d) (hc : c.rest = []) (rounds' : Nat)
      (hgood : x.tail = [] ∨ (⟨[], [], c⟩ : Body).noted = [] ∧
        x.Settled (⟨[], [], c⟩ : Body).next.rest) :
      x.SameBody ⟨[], [], c⟩ (bodyWithin statement' inBlock rounds' d) := by
    have htail : x.tail = [] := hgood.elim id fun h => (hc ▸ h.2 : x.Settled []).tail_eq
    have hd : d.rest = [] := by rw [hcd.rest, hc, htail]; rfl
    rw [bodyWithin_of_rest_nil statement' inBlock rounds' hd]
    exact ⟨rfl, rfl, hcd.loose⟩
  fun_induction bodyWithin statement inBlock rounds c with
  | case1 c =>
    intro near rounds' d hcd hbound hrounds hrounds' hgood
    exact hnil hcd (List.length_eq_zero_iff.mp (Nat.le_zero.mp hrounds)) rounds' hgood
  | case2 rounds c hrest =>
    intro near rounds' d hcd hbound hrounds hrounds' hgood
    exact hnil hcd hrest rounds' hgood
  | case3 rounds c t ts hrest ht hblock =>
    intro near rounds' d hcd hbound hrounds hrounds' hgood
    rw [hrest, List.length_cons] at hrounds'
    obtain ⟨rounds', rfl⟩ : ∃ r, rounds' = r + 1 := ⟨rounds' - 1, by omega⟩
    simp only [bodyWithin, hcd.rest_cons hrest, token_kind, if_pos ht, if_pos hblock]
    exact ⟨rfl, rfl, hcd.loose⟩
  | case4 rounds c t ts hrest ht hblock body ih =>
    intro near rounds' d hcd hbound hrounds hrounds' hgood
    have htail : x.tail = [] := hgood.resolve_right fun h => absurd h.1 (List.cons_ne_nil _ _)
    rw [hrest, List.length_cons] at hbound hrounds hrounds'
    obtain ⟨rounds', rfl⟩ : ∃ r, rounds' = r + 1 := ⟨rounds' - 1, by omega⟩
    have hbody :=
      ih true rounds' _ (hcd.step hrest) (Nat.le_of_succ_le hbound) (Nat.le_of_succ_le_succ hrounds)
      (by simp only; omega) (.inl htail)
    simp only [bodyWithin, hcd.rest_cons hrest, token_kind, if_pos ht, if_neg hblock]
    exact ⟨hbody.statements, congrArg _ hbody.noted, hbody.next⟩
  | case5 rounds c t ts hrest ht noted tree next hfound body ih =>
    intro near rounds' d hcd hbound hrounds hrounds' hgood
    have hlt := length_lt_of_found htakes hfound
    obtain ⟨rounds', rfl⟩ : ∃ r, rounds' = r + 1 := ⟨rounds' - 1, by omega⟩
    obtain ⟨next', hfound', hnext⟩ := statement_found (hstatement near) hends hcd hbound hfound
      (hgood.imp_right fun h => (List.append_eq_nil_iff.mp h.1).1)
    have hbody := ih true rounds' next' hnext (by omega) (by omega) (by omega)
      (hgood.imp_right fun h => ⟨(List.append_eq_nil_iff.mp h.1).2, h.2⟩)
    simp only [bodyWithin, hcd.rest_cons hrest, token_kind, ht, if_false, hfound']
    refine ⟨?_, ?_, hbody.next⟩
    · rw [hbody.statements, row_cons]
    · rw [hbody.noted, List.map_append]
  | case6 rounds c t ts hrest ht noted m next hfailed body ih =>
    intro near rounds' d hcd hbound hrounds hrounds' hgood
    have htail : x.tail = [] := hgood.resolve_right fun h => by simp at h
    have hsame := hstatement near c d (hcd.settled hbound (.inl htail)) (.inl htail)
    have hsuffix := htakes c
    rw [hfailed] at hsame hsuffix
    obtain ⟨next', hfailed', hnext⟩ := hsame.failed
    have hlt := length_resume_lt hrest ht hsuffix
    obtain ⟨rounds', rfl⟩ : ∃ r, rounds' = r + 1 := ⟨rounds' - 1, by omega⟩
    have hbody := ih false rounds' (resume next') (resume_mirrors htail hnext) (by omega) (by omega)
        (by omega)
      (.inl htail)
    simp only [bodyWithin, hcd.rest_cons hrest, token_kind, ht, if_false, hfailed']
    refine ⟨hbody.statements, ?_, hbody.next⟩
    rw [hbody.noted, List.map_append, List.map_cons]

/-- Outside of blocks: behind the statements of the first text, against which nothing was noted,
those of what follows are found. -/
theorem bodyWithin_append (hstatement : ∀ near, x.Finishes near bound x.tree statement statement')
    (hends : statement.Ends) (htakes : statement.Takes Tree.Keeps) (rounds : Nat) (c : Cursor) :
    ∀ near rounds' d, x.At near c d → c.rest.length ≤ bound → c.rest.length ≤ rounds →
      c.rest.length + x.tail.length ≤ rounds' → (bodyWithin statement false rounds c).noted = [] →
      ∃ rounds'' previous, x.tail.length ≤ rounds'' ∧
        let rest := bodyWithin statement' false rounds'' ⟨previous, x.tail⟩
        bodyWithin statement' false rounds' d =
          ⟨x.row (bodyWithin statement false rounds c).statements ++ rest.statements, rest.noted,
            rest.next⟩ := by
  have hnil {near : Bool} {c d : Cursor} (hcd : x.At near c d) (hc : c.rest = []) (rounds' : Nat)
      (hrounds' : c.rest.length + x.tail.length ≤ rounds') :
      ∃ rounds'' previous, x.tail.length ≤ rounds'' ∧
        let rest := bodyWithin statement' false rounds'' ⟨previous, x.tail⟩
        bodyWithin statement' false rounds' d = ⟨x.row [] ++ rest.statements, rest.noted,
          rest.next⟩ := by
    obtain ⟨previous, rest⟩ := d
    obtain rfl : rest = x.tail := by rw [← List.nil_append x.tail, ← List.map_nil, ← hc, ← hcd.rest]
    exact ⟨rounds', previous, by omega, rfl⟩
  fun_induction bodyWithin statement false rounds c with
  | case1 c =>
    intro near rounds' d hcd hbound hrounds hrounds' hnoted
    exact hnil hcd (List.length_eq_zero_iff.mp (Nat.le_zero.mp hrounds)) rounds' hrounds'
  | case2 rounds c hrest =>
    intro near rounds' d hcd hbound hrounds hrounds' hnoted
    exact hnil hcd hrest rounds' hrounds'
  | case3 rounds c t ts hrest ht hblock => contradiction
  | case4 rounds c t ts hrest ht hblock body ih =>
    intro near rounds' d hcd hbound hrounds hrounds' hnoted
    exact absurd hnoted (List.cons_ne_nil _ _)
  | case5 rounds c t ts hrest ht noted tree next hfound body ih =>
    intro near rounds' d hcd hbound hrounds hrounds' hnoted
    obtain ⟨hnone, hnoted⟩ := List.append_eq_nil_iff.mp hnoted
    have hlt := length_lt_of_found htakes hfound
    obtain ⟨rounds', rfl⟩ : ∃ r, rounds' = r + 1 := ⟨rounds' - 1, by omega⟩
    obtain ⟨next', hfound', hnext⟩ :=
      statement_found (hstatement near) hends hcd hbound hfound (.inr hnone)
    obtain ⟨rounds'', previous, hrounds'', hbody⟩ :=
      ih true rounds' next' hnext (by omega) (by omega) (by omega) hnoted
    refine ⟨rounds'', previous, hrounds'', ?_⟩
    simp only [bodyWithin, hcd.rest_cons hrest, token_kind, ht, if_false, hfound', hbody, hnone]
    rfl
  | case6 rounds c t ts hrest ht noted m next hfailed body ih =>
    intro near rounds' d hcd hbound hrounds hrounds' hnoted
    simp at hnoted

end Rows

/-! ## Blocks -/

variable {x : Transfer}

/-- A block is the same in both texts, by induction on the bound. -/
theorem blockWithin_finishes (n : Nat) : ∀ near m, n + x.tail.length ≤ m →
    x.Finishes near n x.tree (blockWithin n) (blockWithin m) := by
  induction n with
  | zero =>
    intro near m _ c d hcd _
    have hat : c.isAt .leftBrace = false := Cursor.isAt_of_rest_nil hcd.rest_eq_nil _
    rw [blockWithin_of_not_left 0 hat, blockWithin_of_not_left m (by rw [hcd.isAt_eq, hat])]
    exact ⟨rfl, .failed (by rw [hcd.next?_eq]; rfl) hcd.loose⟩
  | succ n ih =>
    intro near m hm c d hcd hgood
    obtain ⟨m, rfl⟩ : ∃ m', m = m' + 1 := ⟨m - 1, by omega⟩
    cases hat : c.isAt .leftBrace with
    | false =>
      rw [blockWithin_of_not_left (n + 1) hat,
        blockWithin_of_not_left (m + 1) (by rw [hcd.isAt_eq, hat])]
      exact ⟨rfl, .failed (by rw [hcd.next?_eq]; rfl) hcd.loose⟩
    | true =>
      obtain ⟨left, ts, hrest, hleft⟩ := Cursor.exists_of_isAt hat
      have hbounded := hcd.bounded
      rw [hrest, List.length_cons] at hbounded
      rw [blockWithin_of_left n hrest hleft] at hgood ⊢
      rw [blockWithin_of_left m (hcd.rest_cons hrest) hleft]
      dsimp only at hgood ⊢
      have hstatement (near : Bool) : x.Finishes near n x.tree (statement (blockWithin n) true)
          (statement (blockWithin m) true) :=
        statement_finishes (ih true m (by omega)) (blockWithin_ends n) true
      have hbody := bodyWithin_mirrors hstatement (statement_ends (blockWithin_ends n) true)
        (statement_takes (blockWithin_takes n) true) true ts.length ⟨some left, ts⟩ true
        (ts.map x.token ++ x.tail).length _ (hcd.toAt.step hrest) (Nat.le_of_succ_le_succ hbounded)
          (Nat.le_refl _)
        (by simp)
      change x.tail = [] ∨ ∃ a next, (⟨(body _ true ⟨some left, ts⟩).noted, _⟩ : Recovered Tree) =
        _ at hgood
      rw [body, body]
      rw [body] at hgood
      generalize bodyWithin _ true _ ⟨some left, ts⟩ = inner at hbody hgood ⊢
      generalize bodyWithin _ true _ ⟨some (x.token left), _⟩ = inner' at hbody ⊢
      have hgood : x.tail = [] ∨ inner.noted = [] ∧ x.Settled inner.next.rest := by
        refine hgood.imp_right fun ⟨a, next, hfound⟩ => ⟨congrArg Recovered.noted hfound, ?_⟩
        have houtcome := congrArg Recovered.outcome hfound
        cases hlast : expect .block .rightBrace inner.next with
        | found right last => exact .inr (Ends.expect .block (by decide) _ _ _ hlast)
        | failed m last =>
          rw [hlast] at houtcome
          cases houtcome
      have hsame := hbody hgood
      have hsettled : x.Settled inner.next.rest := hgood.elim .inl fun h => h.2
      have hlast :=
        Mirrors.expect_stop .block .rightBrace _ _ (hsame.next.settled (Nat.le_refl _) hsettled)
      refine ⟨hsame.noted, ?_⟩
      dsimp only
      generalize expect .block .rightBrace inner.next = o at hlast ⊢
      generalize expect .block .rightBrace inner'.next = o' at hlast ⊢
      cases hlast with
      | found ha hnext => exact .found (by rw [ha, hsame.statements]; simp) hnext
      | failed hm hnext => exact .failed hm hnext

end Parser

namespace Transfer

/-- The tokens stay where they are, and others follow. -/
def before (tail : List Token) : Transfer := ⟨Token.start, Token.stop, tail⟩

theorem row_before (tail : List Token) (ts : List Tree) : (before tail).row ts = ts :=
  (List.map_congr_left fun t _ => Tree.map_id t).trans (List.map_id ts)

end Transfer

namespace Parse

open LessCss.Parser LessCss.Transfer

variable {x : Transfer} {ts : List Token}

/-- The same tokens at other places give the same statements and mismatches there, and it does not
matter what stands before them. -/
theorem ofTokens_mirrors (htail : x.tail = []) (hspaced : ts.IsChain x.Spaced) {bound rounds : Nat}
    (hbound : ts.length ≤ bound) (hrounds : ts.length ≤ rounds) (previous : Option Token) :
    x.SameBody (ofTokens ts)
      (bodyWithin (statement (blockWithin bound) false) false rounds
        ⟨previous, ts.map x.token⟩) := by
  have hlength {n : Nat} (hn : ts.length ≤ n) : ts.length + x.tail.length ≤ n := by
    rw [htail]
    exact hn
  have hat : x.At false ⟨none, ts⟩ ⟨previous, ts.map x.token⟩ :=
    ⟨by rw [htail, List.append_nil], hspaced, nofun⟩
  have hstatement (near : Bool) :
      x.Finishes near ts.length x.tree (statement (blockWithin ts.length) false)
      (statement (blockWithin bound) false) :=
    statement_finishes (blockWithin_finishes ts.length true bound (hlength hbound))
      (blockWithin_ends _) false
  exact bodyWithin_mirrors hstatement (statement_ends (blockWithin_ends _) false)
    (statement_takes (blockWithin_takes _) false) false ts.length
      ⟨none, ts⟩ false rounds _ hat (Nat.le_refl _)
    (Nat.le_refl _) (hlength hrounds) (.inl htail)

/-- Tokens against which nothing is noted give their statements also where others follow. -/
theorem ofTokens_append (us : List Token) (hnoted : (ofTokens ts).noted = []) :
    ∃ rounds previous, us.length ≤ rounds ∧
      let rest :=
  bodyWithin (statement (blockWithin (ts ++ us).length) false) false rounds ⟨previous, us⟩
      ofTokens (ts ++ us) = ⟨(ofTokens ts).statements ++ rest.statements, rest.noted,
        rest.next⟩ := by
  have hat : (before us).At false ⟨none, ts⟩ ⟨none, ts ++ us⟩ :=
    ⟨congrArg (· ++ us) (List.map_id ts).symm,
      (List.pairwise_of_forall fun _ _ => ⟨Iff.rfl, Iff.rfl⟩).isChain, nofun⟩
  have hlength : ts.length + us.length ≤ (ts ++ us).length := Nat.le_of_eq List.length_append.symm
  have hstatement (near : Bool) : (before us).Finishes near ts.length (before us).tree
      (statement (blockWithin ts.length) false) (statement (blockWithin (ts ++ us).length) false) :=
    statement_finishes (blockWithin_finishes ts.length true _ hlength) (blockWithin_ends _) false
  obtain ⟨rounds, previous, hrounds, hbody⟩ := bodyWithin_append hstatement
    (statement_ends (blockWithin_ends _) false) (statement_takes (blockWithin_takes _) false)
      ts.length ⟨none, ts⟩
    false (ts ++ us).length _ hat (Nat.le_refl _) (Nat.le_refl _) hlength hnoted
  rw [row_before] at hbody
  exact ⟨rounds, previous, hrounds, hbody⟩

end Parse

end LessCss
