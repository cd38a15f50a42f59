import LessCss.Proofs.Parsing.Advancing
import LessCss.Proofs.Parsing.Rows

/-!
# Parsing makes progress

Every recursion of the parser is given the number of tokens left as a bound.  None of the bounds is
ever used up: what is nested stands behind a token of what is around it, and every round of a row of
statements takes a token, whether a statement is found, or fails and parsing goes on behind it, or a
closing brace has no opening one.  So each recursive phrase satisfies an equation in which no bound
occurs (`Parser.operand_eq`, `Parser.selector_eq`, `Parser.block_eq`, `Parser.body_eq`), and a row
outside of blocks goes to the end of the tokens (`Parse.progress`).

That the bound of a phrase does not matter is a transfer of parses to another text, where the other
text is the text itself.
-/

namespace LessCss

/-! ## Places among tokens -/

namespace Cursor

/-- The place behind the first `n` of some tokens. -/
def behind (tokens : List Token) (n : Nat) : Cursor := ⟨(tokens.take n).getLast?, tokens.drop n⟩

theorem behind_append (ts us : List Token) :
    behind (ts ++ us) ts.length = ⟨ts.getLast?, us⟩ := by simp [behind]

/-- What comes behind a place among the tokens is a place among the tokens. -/
theorem Before.exists_behind {tokens : List Token} {n : Nat} {d : Cursor}
    (h : (behind tokens n).Before d) (hn : n ≤ tokens.length) :
    ∃ k, n ≤ k ∧ k ≤ tokens.length ∧ d = behind tokens k := by
  obtain ⟨ts, us, rfl, rfl⟩ : ∃ ts us, tokens = ts ++ us ∧ n = ts.length :=
    ⟨tokens.take n, tokens.drop n, (List.take_append_drop n tokens).symm,
      (List.length_take_of_le hn).symm⟩
  rw [behind_append] at h
  obtain ⟨taken, hrest, hprevious⟩ := h
  obtain ⟨previous, rest⟩ := d
  obtain rfl : us = taken ++ rest := hrest
  obtain rfl : previous = taken.getLast?.or ts.getLast? := hprevious
  refine ⟨(ts ++ taken).length, by simp, by simp, ?_⟩
  rw [← List.append_assoc, behind_append, List.getLast?_append]

/-- Where fewer tokens are left, more were taken. -/
theorem Before.exists_lt {tokens : List Token} {n : Nat} {d : Cursor}
    (h : (behind tokens n).Before d) (hn : n ≤ tokens.length)
    (hlt : d.rest.length < (behind tokens n).rest.length) :
    ∃ k, n < k ∧ k ≤ tokens.length ∧ d = behind tokens k := by
  obtain ⟨k, hk, hbound, rfl⟩ := h.exists_behind hn
  refine ⟨k, Nat.lt_of_le_of_ne hk ?_, hbound, rfl⟩
  rintro rfl
  exact Nat.lt_irrefl _ hlt

end Cursor

/-! ## The same text -/

namespace Transfer

/-- Leaving all tokens where they are leaves trees as they are. -/
theorem tree_self (t : Tree) : (before []).tree t = t := Tree.map_id t

theorem mismatch_self (m : Mismatch) : (before []).mismatch m = m := by
  obtain ⟨phrase, wanted, found⟩ := m
  cases found <;> rfl

variable {near : Bool} {n : Nat} {c d : Cursor}

/-- A place corresponds to itself. -/
theorem fits_self (h : c.rest.length ≤ n) : (before []).Fits near n c c where
  rest := by
    rw [show (before []).tail = [] from rfl, List.append_nil]
    exact (List.map_id c.rest).symm
  spaced := (List.pairwise_of_forall fun _ _ => ⟨Iff.rfl, Iff.rfl⟩).isChain
  previous _ := ⟨(Option.map_id_apply).symm, fun _ _ _ _ => ⟨Iff.rfl, Iff.rfl⟩⟩
  bounded := h
  settled := .inl rfl

/-- Places that correspond without a change have the same tokens to come. -/
theorem At.rest_self (h : (before []).At near c d) : d.rest = c.rest := by
  rw [h.rest, show (before []).tail = [] from rfl, List.append_nil]
  exact List.map_id c.rest

/-- Places in the same text that correspond with what stands before them are the same. -/
theorem Fits.eq_self (h : (before []).Fits true n c d) : d = c := by
  obtain ⟨previous, rest⟩ := c
  obtain ⟨previous', rest'⟩ := d
  obtain rfl : rest' = rest := h.toAt.rest_self
  obtain rfl : previous' = previous := (h.previous rfl).1.trans Option.map_id_apply
  rfl

/-- Parsers that do the same in the same text, and start at the same place, stop at the same
place. -/
theorem Alike.eq_self {α : Type} {h : α → α} {post : Cursor → Cursor → Prop} {o o' : Outcome α}
    (hsame : (before []).Alike h post o o') (hh : ∀ a, h a = a)
    (hpost : ∀ c d, post c d → (before []).At false c d) (ho : Parser.AdvancesFrom c o)
    (ho' : Parser.AdvancesFrom c o') : o' = o := by
  cases hsame with
  | found ha hnext =>
    have hstop := ho.stop.eq_of_rest ho'.stop (hpost _ _ hnext).rest_self
    exact congrArg₂ Outcome.found (ha.trans (hh _)) hstop
  | failed hm hnext =>
    have hstop := ho.stop.eq_of_rest ho'.stop hnext.rest_self
    exact congrArg₂ Outcome.failed (hm.trans (mismatch_self _)) hstop

/-- Parsers that do the same without a change find the same, and stop at the same place. -/
theorem Consumes.eq_self {p q : Parser Tree}
    (hpq : (before []).Consumes near n (before []).tree p q) (hp : p.Advances) (hq : q.Advances)
    (hc : c.rest.length ≤ n) : q c = p c :=
  (hpq c c (fits_self hc)).eq_self tree_self (fun _ _ h => h.toAt.loose) (hp c) (hq c)

/-- A parser that is mirrored by itself is mirrored by one that does the same where no more than `n`
tokens are left. -/
theorem Consumes.of_eq {p q : Parser Tree} (hp : (before []).Consumes true n (before []).tree p p)
    (hpq : ∀ c, c.rest.length ≤ n → p c = q c) :
    (before []).Consumes true n (before []).tree p q := by
  intro c d hcd
  obtain rfl := hcd.eq_self
  rw [← hpq d hcd.bounded]
  exact hp d d hcd

theorem Finishes.of_eq {p q : Recovering Tree}
    (hp : (before []).Finishes true n (before []).tree p p)
    (hpq : ∀ c, c.rest.length ≤ n → p c = q c) :
    (before []).Finishes true n (before []).tree p q := by
  intro c d hcd hgood
  obtain rfl := hcd.eq_self
  rw [← hpq d hcd.bounded]
  exact hp d d hcd hgood

/-- So do recovering ones, if they note nothing. -/
theorem Finishes.eq_self {p q : Recovering Tree}
    (hpq : (before []).Finishes near n (before []).tree p q) (hp : p.Advances) (hq : q.Advances)
    (hc : c.rest.length ≤ n) : q c = p c := by
  have hsame := hpq c c (fits_self hc) (.inl rfl)
  have hforward := hp c
  have hforward' := hq c
  generalize p c = r at hsame hforward ⊢
  generalize q c = r' at hsame hforward' ⊢
  obtain ⟨noted, outcome⟩ := r
  obtain ⟨noted', outcome'⟩ := r'
  have houtcome := hsame.outcome.eq_self tree_self (fun _ _ h => h.loose)
    ⟨hforward.noted.before, hforward.honest⟩ ⟨hforward'.noted.before, hforward'.honest⟩
  have hnoted : noted' = noted :=
    hsame.noted.trans ((List.map_congr_left fun m _ => mismatch_self m).trans (List.map_id noted))
  exact congrArg₂ Recovered.mk hnoted houtcome

end Transfer

namespace Parser

open Transfer

/-! ## Phrases without bounds -/

/-- With a bound that allows for all tokens to come, an operand does not depend on the bound. -/
theorem operandWithin_eq {n : Nat} {c : Cursor} (h : c.rest.length ≤ n) :
    operandWithin n c = operand c :=
  have hsame :=
    operandWithin_mirrors (x := before []) c.rest.length n h c.rest.length (Nat.le_refl _)
  hsame.eq_self (operandWithin_advances _) (operandWithin_advances _) (Nat.le_refl _)

/-- Operands nest to any depth. -/
theorem operand_eq : operand = node .operand (operandParts operand) := by
  funext c
  have hinner (i : Nat) (hi : i ≤ c.rest.length) : (before []).Consumes true i (before []).tree
      (operandWithin c.rest.length) operand :=
    .of_eq (operandWithin_mirrors _ _ (Nat.le_refl _) i hi) fun d hd =>
      operandWithin_eq (hd.trans hi)
  -- with one more than the number of tokens left, there is a step to take also at the end
  have hstep : (before []).Consumes true (c.rest.length + 1) (before []).tree
      (operandWithin (c.rest.length + 1)) (node .operand (operandParts operand)) :=
    .node (operandParts_mirrors hinner)
  have hadvances : (node .operand (operandParts operand)).Advances :=
    .node (operandParts_advances (.sized operandWithin_advances))
  rw [← operandWithin_eq (Nat.le_succ c.rest.length)]
  exact (hstep.eq_self (operandWithin_advances _) hadvances (Nat.le_succ _)).symm

/-- A selector does not depend on a bound that allows for all tokens to come. -/
theorem selectorWithin_eq (inExtend : Bool) {n : Nat} {c : Cursor} (h : c.rest.length ≤ n) :
    selectorWithin inExtend n c = selector inExtend c :=
  have hsame := selectorWithin_mirrors (x := before []) inExtend c.rest.length true n h
  hsame.eq_self (selectorWithin_advances _ _) (selectorWithin_advances _ _) (Nat.le_refl _)

/-- A simple selector, and then, behind a combinator or blanks, a selector again. -/
def selectorStep (inExtend : Bool) (inner : Parser Tree) : Parser Tree := node .selector do
  let head ← simpleSelector
  let c ← here
  if startsHere c .combinator then
    let sign ← combinator
    return [head, sign, ← inner]
  else if c.hasGap && startsHere c .selector && !(inExtend && isAtAllWord c) then
    return [head, ← inner]
  else return [head]

/-- One step of a selector is the same in both texts, if the rest of it is. -/
theorem selectorStep_mirrors (inExtend : Bool) {x : Transfer} {n : Nat} {inner inner' : Parser Tree}
    (hinner : x.Consumes true n x.tree inner inner') :
    x.Consumes true (n + 1) x.tree (selectorStep inExtend inner)
      (selectorStep inExtend inner') := by
  refine .node (simpleSelector_mirrors.bind fun head => .here_bind fun c d hcd => ?_)
  rw [hcd.startsHere_eq, hcd.startsHere_eq, hcd.hasGap_eq, hcd.isAtAllWord_eq]
  split
  · exact combinator_mirrors.passes.bind fun sign => hinner.passes.bind fun rest => .pure rfl
  · split
    · exact hinner.passes.bind fun rest => .pure rfl
    · exact .pure rfl

theorem selectorStep_advances (inExtend : Bool) {inner : Parser Tree} (hinner : inner.Advances) :
    (selectorStep inExtend inner).Advances := by
  refine .node (simpleSelector_advances.bind fun head => .here_bind fun c => ?_)
  split
  · exact combinator_advances.bind fun sign => hinner.bind fun rest => .pure _
  · split
    · exact hinner.bind fun rest => .pure _
    · exact .pure _

/-- Selectors are as long as they may be. -/
theorem selector_eq (inExtend : Bool) :
    selector inExtend = selectorStep inExtend (selector inExtend) := by
  funext c
  have hinner : (before []).Consumes true c.rest.length (before []).tree
      (selectorWithin inExtend c.rest.length) (selector inExtend) :=
    .of_eq (selectorWithin_mirrors _ _ _ _ (Nat.le_refl _)) fun d hd =>
      selectorWithin_eq inExtend hd
  have hstep : (before []).Consumes true (c.rest.length + 1) (before []).tree
      (selectorWithin inExtend (c.rest.length + 1)) (selectorStep inExtend (selector inExtend)) :=
    selectorStep_mirrors inExtend hinner
  have hadvances := selectorStep_advances inExtend (selector_advances inExtend)
  rw [← selectorWithin_eq inExtend (Nat.le_succ c.rest.length)]
  exact (hstep.eq_self (selectorWithin_advances _ _) hadvances (Nat.le_succ _)).symm

/-- An item, and then others, while `more` holds. -/
def repeatStep (more : Cursor → Bool) (item others : Parser (List Tree)) : Parser (List Tree) := do
  if more (← here) then
    let ts ← item
    return ts ++ (← others)
  else return []

section Repeating

variable {more : Cursor → Bool} {item : Parser (List Tree)}
  (hend : ∀ c, c.rest = [] → more c = false)
  (hitem : ∀ c ts next, item c = .found ts next → next.rest.length < c.rest.length)

include hitem in
/-- A step of a repetition depends on the rest of it behind a token only. -/
theorem repeatStep_congr {others others' : Parser (List Tree)} {c : Cursor}
    (hothers : ∀ d, d.rest.length < c.rest.length → others d = others' d) :
    repeatStep more item others c = repeatStep more item others' c := by
  change (if more c then item.andThen _ else give [] : Parser (List Tree)) c =
    (if more c then item.andThen _ else give [] : Parser (List Tree)) c
  split
  · unfold andThen
    cases h : item c with
    | found ts next =>
      change others.andThen _ next = others'.andThen _ next
      rw [andThen, andThen, hothers next (hitem c ts next h)]
    | failed m next => rfl
  · rfl

include hend hitem

/-- With bounds that allow for all tokens to come, a repetition does not depend on the bound. -/
theorem repeatWithin_eq (n : Nat) : ∀ m c, c.rest.length ≤ n → c.rest.length ≤ m →
    repeatWithin more item n c = repeatWithin more item m c := by
  have hnil (m : Nat) (c : Cursor) (hc : c.rest.length ≤ 0) :
      repeatWithin more item m c = .found [] c :=
    repeatWithin_of_rest_nil hend item m (List.length_eq_zero_iff.mp (Nat.le_zero.mp hc))
  induction n with
  | zero =>
    intro m c hn _
    rw [hnil 0 c hn, hnil m c hn]
  | succ n ih =>
    intro m c hn hm
    cases m with
    | zero => rw [hnil (n + 1) c hm, hnil 0 c hm]
    | succ m => exact repeatStep_congr hitem fun d hd => ih m d (by omega) (by omega)

/-- Items follow each other as long as they may, if each takes a token and none follows at the
end. -/
theorem repeatWhile_eq : repeatWhile more item = repeatStep more item (repeatWhile more item) := by
  funext c
  have hmore := repeatWithin_eq hend hitem c.rest.length (c.rest.length + 1) c (Nat.le_refl _)
      (Nat.le_succ _)
  refine hmore.trans (repeatStep_congr hitem fun d hd => ?_)
  exact repeatWithin_eq hend hitem _ _ d (Nat.le_of_lt hd) (Nat.le_refl _)

end Repeating

/-! ## Rows of statements -/

/-- What one round of a row of statements gives: the statement, if one was found, what was noted,
and the place where the next round starts. -/
structure Round where
  statement? : Option Tree
  noted : List Mismatch
  next : Cursor

/-- One round of a row of statements, or nothing where the row ends. -/
def round? (statement : Recovering Tree) (inBlock : Bool) (c : Cursor) : Option Round :=
  match c.rest with
  | [] => none
  | t :: ts =>
    if t.kind = .rightBrace then
      if inBlock then none
      else some ⟨none, [⟨.statements, first .statements, some t⟩], ⟨some t, ts⟩⟩
    else
      match statement c with
      | ⟨noted, .found tree next⟩ => some ⟨some tree, noted, next⟩
      | ⟨noted, .failed m next⟩ => some ⟨none, noted ++ [m], resume next⟩

/-- A round before the others. -/
def Body.after (r : Round) (b : Body) : Body :=
  ⟨r.statement?.toList ++ b.statements, r.noted ++ b.noted, b.next⟩

section Rounds

variable {statement : Recovering Tree} {inBlock : Bool} {c : Cursor}

/-- A row of statements with a larger bound is one round and the row behind it. -/
theorem bodyWithin_succ (n : Nat) : bodyWithin statement inBlock (n + 1) c =
    match round? statement inBlock c with
    | none => ⟨[], [], c⟩
    | some r => (bodyWithin statement inBlock n r.next).after r := by
  rw [bodyWithin, round?]
  cases c.rest with
  | nil => rfl
  | cons t ts =>
    by_cases ht : t.kind = .rightBrace
    · cases inBlock <;> simp [ht, Body.after]
    · simp only [ht, if_false]
      rcases statement c with ⟨noted, _ | _⟩ <;> simp [Body.after]

/-- **Every round takes a token.** -/
theorem round?_lt (hadvances : statement.Advances) (htakes : statement.Takes Tree.Keeps) {r : Round}
    (h : round? statement inBlock c = some r) :
    c.Before r.next ∧ r.next.rest.length < c.rest.length := by
  unfold round? at h
  cases hrest : c.rest with
  | nil => simp [hrest] at h
  | cons t ts =>
    rw [← hrest]
    by_cases ht : t.kind = .rightBrace
    · cases inBlock with
      | true => simp [hrest, ht] at h
      | false =>
        simp only [hrest, ht, if_true, Bool.false_eq_true, if_false, Option.some.injEq] at h
        subst h
        exact ⟨.step hrest, by simp [hrest]⟩
    · simp only [hrest, ht, if_false] at h
      have hc := hadvances c
      rcases hstatement : statement c with ⟨noted, _ | _⟩
      case found tree next =>
        rw [hstatement] at h hc
        obtain rfl := Option.some.inj h
        exact ⟨hc.noted.before, length_lt_of_found htakes hstatement⟩
      case failed m next =>
        rw [hstatement] at h hc
        obtain rfl := Option.some.inj h
        have hbefore : c.Before next := hc.noted.before
        exact ⟨hbefore.trans (resume_before next), length_resume_lt hrest ht hbefore.suffix⟩

/-- A row ends where no tokens are left, and inside of a block before a closing brace. -/
theorem round?_eq_none (h : round? statement inBlock c = none) :
    c.rest = [] ∨ inBlock ∧ c.kind? = some .rightBrace := by
  unfold round? at h
  cases hrest : c.rest with
  | nil => exact .inl rfl
  | cons t ts =>
    refine .inr ?_
    by_cases ht : t.kind = .rightBrace
    · cases inBlock with
      | true => exact ⟨rfl, by simp [Cursor.kind?, Cursor.next?, hrest, ht]⟩
      | false => simp [hrest, ht] at h
    · rcases hstatement : statement c with ⟨noted, _ | _⟩ <;> simp [hrest, ht, hstatement] at h

/-- With bounds that allow for all tokens to come, a row of statements does not depend on the
bound. -/
theorem bodyWithin_eq (hadvances : statement.Advances) (htakes : statement.Takes Tree.Keeps)
    (n : Nat) :
    ∀ m c, c.rest.length ≤ n → c.rest.length ≤ m →
      bodyWithin statement inBlock n c = bodyWithin statement inBlock m c := by
  have hnil (m : Nat) (c : Cursor) (hc : c.rest.length ≤ 0) : bodyWithin statement inBlock m c =
      ⟨[], [], c⟩ :=
    bodyWithin_of_rest_nil statement inBlock m (List.length_eq_zero_iff.mp (Nat.le_zero.mp hc))
  induction n with
  | zero =>
    intro m c hn _
    rw [hnil 0 c hn, hnil m c hn]
  | succ n ih =>
    intro m c hn hm
    cases m with
    | zero => rw [hnil (n + 1) c hm, hnil 0 c hm]
    | succ m =>
      rw [bodyWithin_succ, bodyWithin_succ]
      cases hround : round? statement inBlock c with
      | none => rfl
      | some r =>
        have hlt := (round?_lt hadvances htakes hround).2
        exact congrArg (Body.after r) (ih m r.next (by omega) (by omega))

/-- A row of statements has as many rounds as it may. -/
theorem body_eq (hadvances : statement.Advances) (htakes : statement.Takes Tree.Keeps)
    (inBlock : Bool) (c : Cursor) : body statement inBlock c =
      match round? statement inBlock c with
      | none => ⟨[], [], c⟩
      | some r => (body statement inBlock r.next).after r := by
  have hmore : bodyWithin statement inBlock c.rest.length c = bodyWithin statement inBlock
      (c.rest.length + 1) c :=
    bodyWithin_eq hadvances htakes _ _ c (Nat.le_refl _) (Nat.le_succ _)
  rw [body, hmore, bodyWithin_succ]
  cases hround : round? statement inBlock c with
  | none => rfl
  | some r =>
    have hlt := (round?_lt hadvances htakes hround).2
    exact congrArg (Body.after r)
      (bodyWithin_eq hadvances htakes _ _ _ (Nat.le_of_lt hlt) (Nat.le_refl _))

/-- A row depends on what its statements are at the places behind its start. -/
theorem bodyWithin_congr {statement' : Recovering Tree} (hadvances : statement.Advances)
    (htakes : statement.Takes Tree.Keeps) (n : Nat) :
    ∀ c, (∀ d, c.Before d → statement d = statement' d) →
      bodyWithin statement inBlock n c = bodyWithin statement' inBlock n c := by
  induction n with
  | zero => exact fun c _ => rfl
  | succ n ih =>
    intro c hsame
    have hround : round? statement inBlock c = round? statement' inBlock c := by
      rw [round?, round?, hsame c (.refl c)]
    rw [bodyWithin_succ, bodyWithin_succ, ← hround]
    cases h : round? statement inBlock c with
    | none => rfl
    | some r =>
      have hnext := (round?_lt hadvances htakes h).1
      exact congrArg (Body.after r) (ih r.next fun d hd => hsame d (hnext.trans hd))

end Rounds

/-! ## Blocks -/

/-- A row of statements between braces, where `inner` is used for the blocks in it. -/
def blockStep (inner : Recovering Tree) : Recovering Tree := recoveringNode .block do
  let left ← (expect .block .leftBrace : Parser Tree)
  let row ← bodyTree (statement inner true)
  let right ← (expect .block .rightBrace : Parser Tree)
  return [left, row, right]

/-- A block with blocks nested to any depth in it. -/
def block : Recovering Tree := fun c => blockWithin c.rest.length c

theorem block_advances : block.Advances := fun c => blockWithin_advances _ c

theorem block_takes : block.Takes Tree.Keeps := fun c => blockWithin_takes _ c

/-- A block does not depend on a bound that allows for all tokens to come. -/
theorem blockWithin_eq {n : Nat} {c : Cursor} (h : c.rest.length ≤ n) : blockWithin n c = block c :=
  have hsame := blockWithin_finishes (x := before []) c.rest.length true n h
  hsame.eq_self (blockWithin_advances _) (blockWithin_advances _) (Nat.le_refl _)

theorem statement_eq (inBlock : Bool) {n : Nat} {c : Cursor} (h : c.rest.length ≤ n) :
    statement (blockWithin n) inBlock c = statement block inBlock c := by
  have hinner : (before []).Finishes true n (before []).tree (blockWithin n) block :=
    .of_eq (blockWithin_finishes n true n (Nat.le_refl _)) fun d hd => blockWithin_eq hd
  have hsame : (before []).Finishes true n (before []).tree (statement (blockWithin n) inBlock)
      (statement block inBlock) := statement_finishes hinner (blockWithin_ends n) inBlock
  have hadvances := statement_advances block_advances inBlock
  exact (hsame.eq_self (statement_advances (blockWithin_advances n) inBlock) hadvances h).symm

theorem body_statement_eq (rowInBlock inBlock : Bool) {n : Nat} {c : Cursor}
    (h : c.rest.length ≤ n) :
    body (statement (blockWithin n) rowInBlock) inBlock c =
      body (statement block rowInBlock) inBlock c :=
  bodyWithin_congr (statement_advances (blockWithin_advances n) rowInBlock)
    (statement_takes (blockWithin_takes n) rowInBlock) c.rest.length c
    fun _ hd => statement_eq rowInBlock (hd.suffix.length_le.trans h)

/-- Blocks nest to any depth. -/
theorem block_eq : block = blockStep block := by
  funext c
  rw [← blockWithin_eq (Nat.le_succ c.rest.length)]
  change blockStep (blockWithin c.rest.length) c = blockStep block c
  simp only [blockStep, recoveringNode, Recovering.bind_apply, Recovering.lift_apply]
  have hleft := (Advances.expect .block .leftBrace c).stop
  cases h : expect .block .leftBrace c with
  | failed m next => rfl
  | found left next =>
    rw [h] at hleft
    have hnext : next.rest.length ≤ c.rest.length := hleft.suffix.length_le
    have hrow : bodyTree (statement (blockWithin c.rest.length) true) next =
        bodyTree (statement block true) next := by
      rw [bodyTree, bodyTree, body_statement_eq true true hnext]
    simp only [hrow]

end Parser

namespace Parse

open LessCss.Parser

/-- A row of statements outside of blocks goes to the end. -/
theorem body_ends {statement : Recovering Tree} (hadvances : statement.Advances)
    (htakes : statement.Takes Tree.Keeps) (c : Cursor) :
    (body statement false c).next.rest = [] := by
  induction hn : c.rest.length using Nat.strong_induction_on generalizing c with
  | _ n ih =>
    rw [body_eq hadvances htakes]
    cases hround : round? statement false c with
    | none => exact (round?_eq_none hround).resolve_right fun h => absurd h.1 Bool.false_ne_true
    | some r =>
      have hlt := (round?_lt hadvances htakes hround).2
      exact ih r.next.rest.length (hn ▸ hlt) r.next rfl

/-- **Parsing makes progress and ends.**  At every place among some tokens, inside of a block or
not, a round of the row of statements takes a token or the row ends there; a statement that is found
takes a token, and one that fails stops at a later place among the tokens or where it is; a phrase
that is only tried and fails stays where it is.  Parsing is without bounds: rows of statements,
blocks, selectors and operands are what their equations say. The row of all statements goes to the
end of the tokens. -/
theorem progress (tokens : List Token) :
    (∀ (inBlock : Bool) (i : Fin (tokens.length + 1)),
      match round? (statement block inBlock) inBlock (.behind tokens i) with
      | none => i = tokens.length ∨ inBlock ∧ (tokens[i.val]?.map Token.kind) = some .rightBrace
      | some r => ∃ j : Fin (tokens.length + 1), i < j ∧ r.next = .behind tokens j) ∧
    (∀ (inBlock : Bool) (i : Fin (tokens.length + 1)),
      match (statement block inBlock (.behind tokens i)).outcome with
      | .found _ next => ∃ j : Fin (tokens.length + 1), i < j ∧ next = .behind tokens j
      | .failed _ next => ∃ j : Fin (tokens.length + 1), i ≤ j ∧ next = .behind tokens j) ∧
    (∀ (p : Parser Tree) (i : Fin (tokens.length + 1)) m next,
      p (.behind tokens i) = .failed m next →
      attempt p (.behind tokens i) = .found none (.behind tokens i)) ∧
    ((∀ (inBlock : Bool) c, body (statement block inBlock) inBlock c =
        match round? (statement block inBlock) inBlock c with
        | none => ⟨[], [], c⟩
        | some r => (body (statement block inBlock) inBlock r.next).after r) ∧
      block = blockStep block ∧
        (∀ inExtend, selector inExtend = selectorStep inExtend (selector inExtend)) ∧
      operand = node .operand (operandParts operand)) ∧
    ofTokens tokens = body (statement block false) false (.behind tokens 0) ∧
    (ofTokens tokens).next = .behind tokens tokens.length := by
  have hadvances := statement_advances block_advances
  have htakes := statement_takes block_takes
  have hbody : ofTokens tokens = body (statement block false) false (.behind tokens 0) :=
    body_statement_eq false false (Nat.le_refl _)
  refine ⟨fun inBlock i => ?_, fun inBlock i => ?_, fun p i m next h => ?_,
    ⟨?_, block_eq, selector_eq, operand_eq⟩, hbody, ?_⟩
  · have hi := Nat.le_of_lt_succ i.isLt
    cases hround : round? (statement block inBlock) inBlock (.behind tokens i) with
    | none =>
      refine (round?_eq_none hround).imp (fun hrest => ?_) fun ⟨hblock, hkind⟩ => ⟨hblock, ?_⟩
      · exact Nat.le_antisymm hi (List.drop_eq_nil_iff.mp hrest)
      · rw [← hkind, Cursor.kind?, Cursor.next?, Cursor.behind, List.head?_drop]
    | some r =>
      obtain ⟨hbefore, hlt⟩ := round?_lt (hadvances inBlock) (htakes inBlock) hround
      obtain ⟨j, hij, hj, hnext⟩ := hbefore.exists_lt hi hlt
      exact ⟨⟨j, Nat.lt_succ_of_le hj⟩, hij, hnext⟩
  · have hi := Nat.le_of_lt_succ i.isLt
    have hstop := (hadvances inBlock (.behind tokens i)).noted.before
    rcases hstatement : statement block inBlock (.behind tokens i) with ⟨noted, _ | _⟩
    case found tree next =>
      rw [hstatement] at hstop
      obtain ⟨j, hij, hj, hnext⟩ :=
        hstop.exists_lt hi (length_lt_of_found (htakes inBlock) hstatement)
      exact ⟨⟨j, Nat.lt_succ_of_le hj⟩, hij, hnext⟩
    case failed m next =>
      rw [hstatement] at hstop
      obtain ⟨j, hij, hj, hnext⟩ := hstop.exists_behind hi
      exact ⟨⟨j, Nat.lt_succ_of_le hj⟩, hij, hnext⟩
  · rw [attempt, h]
  · exact fun inBlock c => body_eq (hadvances inBlock) (htakes inBlock) inBlock c
  · have hbefore : Cursor.Before (.behind tokens 0) (ofTokens tokens).next :=
      (bodyWithin_advances (statement_advances (blockWithin_advances _) false) false _ _).before
    obtain ⟨k, -, hk, hnext⟩ := hbefore.exists_behind (Nat.zero_le _)
    have hend : (ofTokens tokens).next.rest = [] := by
      rw [hbody]
      exact body_ends (hadvances false) (htakes false) _
    rw [hnext] at hend ⊢
    rw [Nat.le_antisymm hk (List.drop_eq_nil_iff.mp hend)]

end Parse

end LessCss
