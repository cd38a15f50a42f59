import LessCss.Proofs.Lexing.Parts
import LessCss.Proofs.Lexing.Spelling
import LessCss.Text.Collapse

/-!
# Strings in values that are collapsed

Collapsing takes no notice of backslashes and comments: a quote is closed by the next copy of it,
wherever that stands (`Text.openQuote`).  The lexer looks closer, so that the two may disagree on
where a string ends.  What is kept is therefore told by the quotes that collapsing sees.  A string
stays as it is, in its place, just if each blank in it before which no quote is open is a single
space (`Text.keeps_iff_shelters`); where this goes for all strings of a text, all of them stand in
the collapsed text, in their order (`Lexing.strings_collapse`).  So it is in particular if quotes
stand only where strings start and end, or inside of strings with the other quote
(`Lexing.sheltered_of_pairsQuotes`).
-/

namespace LessCss

namespace Text

/-! ## Quotes that are open -/

/-- Whether a character is a quote of either kind. -/
def isQuote (c : Char) : Bool := c == '\x22' || c == '\x27'

theorem isBlank_of_isQuote {c : Char} (h : isQuote c = true) : isBlank c = false := by
  rcases Bool.or_eq_true_iff.mp h with h | h <;> rw [eq_of_beq h] <;> rfl

/-- The quote that is open behind a character. -/
def openAfter (quote : Option Char) (c : Char) : Option Char :=
  match quote with
  | some q => if c == q then none else some q
  | none => if isQuote c then some c else none

/-- The quote that is open behind a text, if one is: the next copy of it closes it, escaped or
not. -/
def openQuote (quote : Option Char) (cs : List Char) : Option Char := cs.foldl openAfter quote

@[simp] theorem openQuote_nil (quote : Option Char) : openQuote quote [] = quote := rfl

@[simp] theorem openQuote_cons (quote : Option Char) (c : Char) (cs : List Char) :
    openQuote quote (c :: cs) = openQuote (openAfter quote c) cs := rfl

/-- The quote that is open behind a text is known from the one open behind its first part. -/
theorem openQuote_append (quote : Option Char) (a b : List Char) :
    openQuote quote (a ++ b) = openQuote (openQuote quote a) b := List.foldl_append

/-- Only quotes are ever open. -/
theorem isQuote_of_mem_openAfter {quote : Option Char} (h : ∀ q ∈ quote, isQuote q = true)
    (c : Char) :
    ∀ q ∈ openAfter quote c, isQuote q = true := by
  intro q hq
  unfold openAfter at hq
  split at hq
  · split at hq
    · cases hq
    · exact h q hq
  · split at hq
    · rename_i hc
      exact Option.some.inj hq ▸ hc
    · cases hq

/-- Only quotes can be open. -/
theorem isQuote_of_mem_openQuote {quote : Option Char} (h : ∀ q ∈ quote, isQuote q = true)
    (cs : List Char) :
    ∀ q ∈ openQuote quote cs, isQuote q = true := by
  induction cs generalizing quote with
  | nil => exact h
  | cons c cs ih => exact ih (isQuote_of_mem_openAfter h c)

/-- A blank opens no quote and closes none. -/
theorem openAfter_of_isBlank {quote : Option Char} (h : ∀ q ∈ quote, isQuote q = true) {c : Char}
    (hc : isBlank c = true) : openAfter quote c = quote := by
  have hquote {q : Char} (hq : isQuote q = true) : q ≠ c := fun hqc => by
    rw [← hqc, isBlank_of_isQuote hq] at hc
    cases hc
  cases quote with
  | none => exact if_neg fun h => hquote h rfl
  | some q => exact if_neg fun h' => hquote (h q rfl) (beq_iff_eq.mp h').symm

/-- Until the quote comes again, it stays open. -/
theorem openQuote_of_not_mem {q : Char} {cs : List Char} (h : q ∉ cs) :
    openQuote (some q) cs = some q := by
  induction cs with
  | nil => rfl
  | cons c cs ih =>
    have hc : ¬ (c == q) = true := fun hc => h (beq_iff_eq.mp hc ▸ List.mem_cons_self)
    have hopen : openAfter (some q) c = some q := if_neg hc
    rw [openQuote_cons, hopen, ih (List.not_mem_of_not_mem_cons h)]

/-! ## Collapsing a part of a text -/

/-- Collapsing goes along the text and drops blanks behind blanks, unless a quote is open. -/
theorem collapseRuns_cons (quote : Option Char) (afterSpace : Bool) (c : Char) (cs : List Char) :
    collapseRuns quote afterSpace (c :: cs) =
      if quote = none ∧ isBlank c = true then
        if afterSpace then collapseRuns none true cs else ' ' :: collapseRuns none true cs
      else c :: collapseRuns (openAfter quote c) false cs := by
  cases quote with
  | some q => simp [collapseRuns, openAfter]
  | none =>
    by_cases hc : isBlank c = true
    · simp [collapseRuns, hc]
    · simp [collapseRuns, hc, openAfter, isQuote]

/-- A part is collapsed by itself, but for what is open before it and whether a space has just been
written. -/
theorem collapseRuns_append (a b : List Char) (quote : Option Char) (afterSpace : Bool) :
    ∃ afterSpace', collapseRuns quote afterSpace (a ++ b) =
      collapseRuns quote afterSpace a ++ collapseRuns (openQuote quote a) afterSpace' b := by
  induction a generalizing quote afterSpace with
  | nil => exact ⟨afterSpace, rfl⟩
  | cons c a ih =>
    simp only [List.cons_append, collapseRuns_cons, openQuote_cons]
    by_cases hblank : quote = none ∧ isBlank c = true
    · have hopen : openAfter quote c = none := by
        rw [hblank.1]
        exact openAfter_of_isBlank (by simp) hblank.2
      simp only [if_pos hblank, hopen]
      obtain ⟨afterSpace', ih⟩ := ih none true
      refine ⟨afterSpace', ?_⟩
      cases afterSpace <;> simp [ih]
    · simp only [if_neg hblank]
      obtain ⟨afterSpace', ih⟩ := ih (openAfter quote c) false
      exact ⟨afterSpace', by rw [ih, List.cons_append]⟩

/-- Collapsing does not make a text longer. -/
theorem length_collapseRuns_le (quote : Option Char) (afterSpace : Bool) (cs : List Char) :
    (collapseRuns quote afterSpace cs).length ≤ cs.length := by
  induction cs generalizing quote afterSpace with
  | nil => exact Nat.le_refl _
  | cons c cs ih =>
    rw [collapseRuns_cons]
    split
    · split
      · exact Nat.le_succ_of_le (ih none true)
      · exact Nat.succ_le_succ (ih none true)
    · exact Nat.succ_le_succ (ih _ false)

/-! ## Texts that collapsing leaves as they are -/

/-- Whether a text ends in a blank; of an empty text this is told beforehand. -/
def endsBlank (beforehand : Bool) (cs : List Char) : Bool :=
  cs.foldl (fun _ c => isBlank c) beforehand

theorem endsBlank_cons (beforehand : Bool) (c : Char) (cs : List Char) :
    endsBlank beforehand (c :: cs) = endsBlank (isBlank c) cs := rfl

theorem forall_split_cons {P : List Char → Char → List Char → Prop} {x : Char} {w : List Char} :
    (∀ u c v, x :: w = u ++ c :: v → P u c v) ↔
    P [] x w ∧ ∀ u c v, w = u ++ c :: v → P (x :: u) c v := by
  constructor
  · exact fun h => ⟨h [] x w rfl, fun u c v hw => h (x :: u) c v (by rw [hw, List.cons_append])⟩
  · rintro ⟨hfirst, hlater⟩ u c v hw
    rcases List.cons_eq_append_iff.mp hw with ⟨rfl, hv⟩ | ⟨u', rfl, hw'⟩
    · cases hv
      exact hfirst
    · exact hlater u' c v hw'

/-- **What is left as it is by collapsing**: a text in which each blank, before which no quote is
open, is a space without a blank in front of it. -/
theorem collapseRuns_eq_self_iff {quote : Option Char} (hquote : ∀ q ∈ quote, isQuote q = true)
    (afterSpace : Bool) (w : List Char) : collapseRuns quote afterSpace w = w ↔
      ∀ u c v, w = u ++ c :: v → isBlank c = true → openQuote quote u = none →
        c = ' ' ∧ endsBlank afterSpace u = false := by
  induction w generalizing quote afterSpace with
  | nil => simp [collapseRuns]
  | cons x w ih =>
    rw [collapseRuns_cons, forall_split_cons]
    simp only [openQuote_cons, openQuote_nil, endsBlank_cons]
    by_cases hblank : quote = none ∧ isBlank x = true
    · obtain ⟨rfl, hx⟩ := hblank
      rw [if_pos ⟨rfl, hx⟩, openAfter_of_isBlank hquote hx, hx]
      cases afterSpace with
      | true =>
        have hshort := length_collapseRuns_le none true w
        have hne : collapseRuns none true w ≠ x :: w := fun h => by
          rw [h, List.length_cons] at hshort
          omega
        simp [endsBlank, hne]
      | false =>
        rw [if_neg Bool.false_ne_true, List.cons.injEq, ih hquote true]
        exact and_congr_left' ⟨fun h _ _ => ⟨h.symm, rfl⟩, fun h => (h rfl rfl).1.symm⟩
    · have hfirst : isBlank x = true → quote = none → x = ' ' ∧ endsBlank afterSpace [] = false :=
        fun hx hnone => absurd ⟨hnone, hx⟩ hblank
      rw [if_neg hblank, List.cons.injEq, ih (isQuote_of_mem_openAfter hquote x) false,
        and_iff_right rfl, and_iff_right hfirst]
      refine forall_congr' fun u => forall_congr' fun c => forall_congr' fun v => ?_
      cases u with
      | cons d u => rfl
      | nil =>
        refine imp_congr_right fun _ => imp_congr_right fun _ => imp_congr_right fun hopen => ?_
        -- no quote is open behind `x`, so that it is not one of the blanks that stand in quotes
        have hx : isBlank x = false := Bool.eq_false_iff.mpr fun hx => by
          rw [openQuote_nil, openAfter_of_isBlank hquote hx] at hopen
          exact hblank ⟨hopen, hx⟩
        rw [hx]

/-- Whether collapsing leaves a part of a text as it is, in its place. -/
def Keeps (before w : List Char) : Prop :=
  collapseRuns none false (before ++ w) = collapseRuns none false before ++ w

/-- Whether each blank in a part of a text, before which no quote is open, is a space without a
blank in front of it. -/
def Shelters (before w : List Char) : Prop :=
  ∀ u c v, w = u ++ c :: v → isBlank c = true → openQuote none (before ++ u) = none →
    c = ' ' ∧ endsBlank false u = false

/-- A text that starts and ends with a copy of the same quote. -/
def InQuotes (w : List Char) : Prop := ∃ q u, isQuote q = true ∧ w = q :: (u ++ [q])

theorem isQuote_of_mem_openQuote_none (cs : List Char) :
    ∀ q ∈ openQuote none cs, isQuote q = true :=
  isQuote_of_mem_openQuote (by simp) cs

/-- In front of a quote it makes no difference whether a space has just been written. -/
theorem InQuotes.collapseRuns_eq {w : List Char} (h : InQuotes w) (quote : Option Char)
    (afterSpace : Bool) :
    collapseRuns quote afterSpace w = collapseRuns quote false w := by
  obtain ⟨q, u, hq, rfl⟩ := h
  have hblank : ¬ (quote = none ∧ isBlank q = true) := by simp [isBlank_of_isQuote hq]
  rw [collapseRuns_cons, collapseRuns_cons, if_neg hblank, if_neg hblank]

/-- A string stays as it is just if its blanks are sheltered. -/
theorem InQuotes.collapseRuns_eq_self_iff {w : List Char} (h : InQuotes w) (before : List Char)
    (afterSpace : Bool) :
    collapseRuns (openQuote none before) afterSpace w = w ↔ Shelters before w := by
  rw [h.collapseRuns_eq, Text.collapseRuns_eq_self_iff (isQuote_of_mem_openQuote_none before)]
  simp only [Shelters, openQuote_append]

/-- **A string is kept just if its blanks are sheltered.** -/
theorem InQuotes.keeps_iff_shelters {w : List Char} (h : InQuotes w) (before : List Char) :
    Keeps before w ↔ Shelters before w := by
  obtain ⟨afterSpace, hcollapse⟩ := collapseRuns_append before w none false
  rw [Keeps, hcollapse, List.append_cancel_left_eq, h.collapseRuns_eq_self_iff]

/-! ## Texts in order -/

/-- Texts that stand in another text one behind the other, in this order and without overlaps. -/
inductive InOrder : List (List Char) → List Char → Prop
  | nil (cs : List Char) : InOrder [] cs
  | cons (gap w : List Char) {ws : List (List Char)} {cs : List Char} (h : InOrder ws cs) :
      InOrder (w :: ws) (gap ++ w ++ cs)

/-- What stands in order behind a text stands in order in the whole. -/
theorem InOrder.prepend {ws : List (List Char)} {cs : List Char} (h : InOrder ws cs)
    (front : List Char) :
    InOrder ws (front ++ cs) := by
  cases h with
  | nil => exact .nil _
  | cons gap w h =>
    rw [← List.append_assoc, ← List.append_assoc]
    exact .cons _ w h

/-- Texts in order are no longer together than the text that they stand in. -/
theorem InOrder.length_le {ws : List (List Char)} {cs : List Char} (h : InOrder ws cs) :
    ws.flatten.length ≤ cs.length := by
  induction h with
  | nil => exact Nat.zero_le _
  | cons gap w h ih =>
    simp only [List.flatten_cons, List.length_append]
    omega

theorem trimStart_append {x : Char} (hx : isBlank x = false) (a b : List Char) :
    trimStart (a ++ x :: b) = trimStart a ++ x :: b := by
  induction a with
  | nil => simp [trimStart, hx]
  | cons c a ih =>
    unfold trimStart at ih ⊢
    by_cases hc : isBlank c = true <;> simp [hc, ih]

theorem trimEnd_append {x : Char} (hx : isBlank x = false) (a b : List Char) :
    trimEnd (a ++ x :: b) = a ++ x :: trimEnd b := by
  have htrim := trimStart_append hx b.reverse a.reverse
  rw [trimEnd, trimEnd, List.reverse_append, List.reverse_cons, List.append_assoc,
    List.singleton_append, ← trimStart, ← trimStart, htrim]
  simp

/-- What is in quotes is not touched by trimming, nor what is behind it or in front of it. -/
theorem InQuotes.trimStart_append {w : List Char} (h : InQuotes w) (a b : List Char) :
    trimStart (a ++ w ++ b) = trimStart a ++ w ++ b := by
  obtain ⟨q, u, hq, rfl⟩ := h
  simp only [List.append_assoc, List.cons_append, Text.trimStart_append (isBlank_of_isQuote hq)]

/-- Trimming the end leaves a string and all that is before it. -/
theorem InQuotes.trimEnd_append {w : List Char} (h : InQuotes w) (a b : List Char) :
    trimEnd (a ++ w ++ b) = a ++ w ++ trimEnd b := by
  obtain ⟨q, u, hq, rfl⟩ := h
  have htrim := Text.trimEnd_append (isBlank_of_isQuote hq) (a ++ q :: u) b
  simpa only [List.append_assoc, List.cons_append, List.nil_append] using htrim

/-- Trimming the end leaves the strings of a text in order. -/
theorem InOrder.trimEnd {ws : List (List Char)} {cs : List Char} (h : InOrder ws cs)
    (hws : ∀ w ∈ ws, InQuotes w) :
    InOrder ws (trimEnd cs) := by
  induction h with
  | nil => exact .nil _
  | cons gap w h ih =>
    obtain ⟨hw, hws⟩ := List.forall_mem_cons.mp hws
    rw [hw.trimEnd_append]
    exact .cons gap w (ih hws)

theorem InOrder.trimStart {ws : List (List Char)} {cs : List Char} (h : InOrder ws cs)
    (hws : ∀ w ∈ ws, InQuotes w) :
    InOrder ws (trimStart cs) := by
  cases h with
  | nil => exact .nil _
  | cons gap w h =>
    rw [(hws w List.mem_cons_self).trimStart_append]
    exact .cons _ w h

end Text

/-! ## The strings of a text -/

open Lexer Text

namespace Lexing

/-- The texts of the strings, from left to right. -/
def strings (l : Lexing) : List (List Char) :=
  (l.tokens.filter fun t => t.kind = .string).map fun t => t.text.toList

/-- Whether the strings of a text are sheltered at their places. -/
def Sheltered (l : Lexing) (source : List Char) : Prop :=
  ∀ t ∈ l.tokens, t.kind = .string → Shelters (takeBytes source t.start) t.text.toList

/-- A string token starts and ends with the same quote. -/
theorem inQuotes_of_mem_tokens {source : String} {t : Token} (ht : t ∈ (ofText source).tokens)
    (hkind : t.kind = .string) : InQuotes t.text.toList := by
  have hspelled : (patternOf t.kind).Accepts t.text.toList := spelled_ofText source t ht
  rw [hkind] at hspelled
  obtain ⟨p, hp, haccepts⟩ := hspelled.firstOf
  obtain ⟨quote, hquote, rfl⟩ : ∃ quote, isQuote quote = true ∧ p = stringIn quote := by
    rcases List.mem_cons.mp hp with rfl | hp
    · exact ⟨_, rfl, rfl⟩
    · exact ⟨_, rfl, List.mem_singleton.mp hp⟩
  obtain ⟨opening, rest, hopening, hrest, hw⟩ := Pattern.Accepts.seq haccepts
  obtain ⟨u, closing, -, hclosing, rfl⟩ := Pattern.Accepts.seq hrest
  exact ⟨quote, u, hquote, by rw [hw, hopening.just, hclosing.just, List.singleton_append]⟩

/-- So do all strings of a source. -/
theorem inQuotes_of_mem_strings {source : String} : ∀ w ∈ (ofText source).strings, InQuotes w := by
  intro w hw
  obtain ⟨t, ht, rfl⟩ := List.mem_map.mp hw
  obtain ⟨ht, hkind⟩ := List.mem_filter.mp ht
  exact inQuotes_of_mem_tokens ht (of_decide_eq_true hkind)

theorem strings_ofPieces_token (start : Nat) (kind : Kind) (text : List Char) (ps : List Piece) :
    (ofPieces start (⟨some (.token kind), text⟩ :: ps)).strings =
      (if kind = .string then [text] else []) ++ (ofPieces (start + width text) ps).strings := by
  by_cases hkind : kind = .string <;> simp [strings, ofPieces, hkind]

/-- The strings of the later pieces of a text stand in what is written for these pieces. -/
theorem inOrder_ofPieces {source : List Char} (ps : List Piece) {before : List Char}
    (hsource : source = before ++ textOf ps)
    (hquotes : ∀ w ∈ (ofPieces (width before) ps).strings, InQuotes w)
    (hshelters : (ofPieces (width before) ps).Sheltered source) (afterSpace : Bool) :
    InOrder (ofPieces (width before) ps).strings
      (collapseRuns (openQuote none before) afterSpace (textOf ps)) := by
  induction ps generalizing before afterSpace with
  | nil => exact .nil _
  | cons p ps ih =>
    obtain ⟨cut, text⟩ := p
    obtain ⟨afterSpace', hcollapse⟩ :=
      collapseRuns_append text (textOf ps) (openQuote none before) afterSpace
    rw [textOf_cons, hcollapse, ← openQuote_append]
    rw [textOf_cons] at hsource
    have ih := @ih (before ++ text) (by rw [hsource, List.append_assoc])
    rw [width_append] at ih
    -- what is written for a piece without string is a gap
    rcases cut with _ | (kind | kind)
    · exact (ih hquotes hshelters afterSpace').prepend _
    · rw [strings_ofPieces_token] at hquotes ⊢
      obtain ⟨hfirst, hlater⟩ := List.forall_mem_append.mp hquotes
      obtain ⟨hshelter, hshelters⟩ := List.forall_mem_cons.mp hshelters
      have ih := ih hlater hshelters afterSpace'
      by_cases hkind : kind = .string
      · rw [if_pos hkind] at hfirst ⊢
        have hshelter := hshelter hkind
        rw [String.toList_ofList, hsource, takeBytes_width_append] at hshelter
        rw [((hfirst text List.mem_cons_self).collapseRuns_eq_self_iff before afterSpace).mpr
          hshelter]
        exact .cons [] text ih
      · rw [if_neg hkind]
        exact ih.prepend _
    · exact (ih hquotes hshelters afterSpace').prepend _

/-- **Where all strings are sheltered, they stand in the collapsed text**, in their order. -/
theorem inOrder_collapse {source : String} (h : (ofText source).Sheltered source.toList) :
    InOrder (ofText source).strings (collapse source).toList := by
  have hpieces := @inOrder_ofPieces source.toList (pieces source.toList) [] (textOf_pieces _).symm
    inQuotes_of_mem_strings h false
  rw [textOf_pieces] at hpieces
  rw [collapse, String.toList_ofList]
  exact (hpieces.trimStart inQuotes_of_mem_strings).trimEnd inQuotes_of_mem_strings

/-! ### Quotes that pair up -/

end Lexing

namespace Lexer

/-- Whether the quotes of a piece pair up: a string has its quote at its ends only, and behind any
other piece no quote is open that was not open before. -/
def Piece.PairsQuotes (p : Piece) : Prop :=
  if p.cut = some (.token .string) then ∀ q u, p.text = q :: (u ++ [q]) → q ∉ u
  else openQuote none p.text = none

end Lexer

namespace Lexing

/-- A quote that stands at the ends only is open in between. -/
theorem openQuote_inQuotes {w : List Char} (h : InQuotes w)
    (hpairs : ∀ q u, w = q :: (u ++ [q]) → q ∉ u) :
    openQuote none w = none ∧ ∀ v c v', w = v ++ c :: v' → Text.isBlank c = true →
    openQuote none v ≠ none := by
  obtain ⟨q, u, hq, rfl⟩ := h
  have hopen : openAfter none q = some q := if_pos hq
  have hu := hpairs q u rfl
  constructor
  · rw [openQuote_cons, hopen, openQuote_append, openQuote_of_not_mem hu, openQuote_cons,
      openQuote_nil]
    exact if_pos (beq_self_eq_true q)
  · intro v c v' hv hc
    have hqc : c ≠ q := fun hcq => by
      rw [hcq, isBlank_of_isQuote hq] at hc
      cases hc
    rcases List.cons_eq_append_iff.mp hv with ⟨rfl, hfirst⟩ | ⟨v, rfl, hlater⟩
    · exact absurd (List.cons.inj hfirst).1 hqc
    · have hmem : q ∉ v := by
        rcases List.append_eq_append_iff.mp hlater with ⟨x, rfl, hx⟩ | ⟨x, rfl, -⟩
        · rcases List.cons_eq_append_iff.mp hx with ⟨rfl, hx⟩ | ⟨_, -, hx⟩
          · exact absurd (List.cons.inj hx).1.symm hqc
          · simp at hx
        · exact fun h => hu (List.mem_append_left x h)
      rw [openQuote_cons, hopen, openQuote_of_not_mem hmem]
      exact Option.some_ne_none q

/-- If the quotes of all pieces pair up, the strings are sheltered at their places. -/
theorem sheltered_ofPieces {source : List Char} (ps : List Piece) {before : List Char}
    (hsource : source = before ++ textOf ps)
    (hquotes : ∀ w ∈ (ofPieces (width before) ps).strings, InQuotes w)
    (hpairs : ∀ p ∈ ps, p.PairsQuotes) (hopen : openQuote none before = none) :
    (ofPieces (width before) ps).Sheltered source := by
  induction ps generalizing before with
  | nil => nofun
  | cons p ps ih =>
    obtain ⟨cut, text⟩ := p
    obtain ⟨hp, hps⟩ := List.forall_mem_cons.mp hpairs
    rw [textOf_cons] at hsource
    have ih := @ih (before ++ text) (by rw [hsource, List.append_assoc])
    rw [width_append, openQuote_append, hopen] at ih
    rcases cut with _ | (kind | kind)
    · exact ih hquotes hps hp
    · rw [strings_ofPieces_token] at hquotes
      obtain ⟨hfirst, hlater⟩ := List.forall_mem_append.mp hquotes
      by_cases hkind : kind = .string
      · subst hkind
        obtain ⟨hclosed, hinside⟩ := openQuote_inQuotes (hfirst text List.mem_cons_self) hp
        refine List.forall_mem_cons.mpr ⟨fun _ v c v' hv hc hnone => ?_, ih hlater hps hclosed⟩
        rw [String.toList_ofList] at hv
        rw [hsource, takeBytes_width_append, openQuote_append, hopen] at hnone
        exact absurd hnone (hinside v c v' hv hc)
      · have hclosed : openQuote none text = none := (if_neg (by simpa using hkind)).mp hp
        exact List.forall_mem_cons.mpr ⟨fun h => absurd h hkind, ih hlater hps hclosed⟩
    · exact ih hquotes hps hp

/-- **Where quotes pair up, all strings are sheltered.**  So it is if no string has its own quote
inside, and no other piece leaves a quote open, as a comment may do, an escape or a bare address. -/
theorem sheltered_of_pairsQuotes {source : String} (h : ∀ p ∈ pieces source.toList, p.PairsQuotes) :
    (ofText source).Sheltered source.toList :=
  @sheltered_ofPieces source.toList (pieces source.toList) [] (textOf_pieces _).symm
    inQuotes_of_mem_strings h rfl

/-! ### Strings in the collapsed text -/

/-- **The strings of a value that is collapsed.**  A string is left as it is, in its place, if and
only if it is sheltered there: each blank in it, before which collapsing sees no open quote, is a
space without a blank in front of it.  If all strings of a text are sheltered, they stand in the
collapsed text as they are, in the same order.  So it is wherever the quotes of a text pair up. -/
theorem strings_collapse (source : String) :
    (∀ t ∈ (ofText source).tokens, t.kind = .string →
      (Keeps (takeBytes source.toList t.start) t.text.toList ↔
        Shelters (takeBytes source.toList t.start) t.text.toList)) ∧
    ((ofText source).Sheltered source.toList →
      InOrder (ofText source).strings (collapse source).toList) ∧
    ((∀ p ∈ pieces source.toList, p.PairsQuotes) → (ofText source).Sheltered source.toList) :=
  ⟨fun _ ht hkind => (inQuotes_of_mem_tokens ht hkind).keeps_iff_shelters _, inOrder_collapse,
    sheltered_of_pairsQuotes⟩

/-- Strings in both quotes between runs of blanks, one of them with two escaped quotes of its
own. -/
theorem strings_collapse_mixed :
    let source := " a  'b  \"'\t/* '  ' */ \"c\\\"d\\\"  e\" "
    (ofText source).Sheltered source.toList ∧
      (ofText source).strings = ["'b  \"'".toList, "\"c\\\"d\\\"  e\"".toList] ∧
      collapse source = "a 'b  \"' /* '  ' */ \"c\\\"d\\\"  e\"" ∧
      InOrder (ofText source).strings (collapse source).toList := by
  intro source
  have hkeeps : ∀ t ∈ (ofText source).tokens, t.kind = .string →
      Keeps (takeBytes source.toList t.start) t.text.toList := by
    unfold Keeps
    decide +kernel
  have hsheltered : (ofText source).Sheltered source.toList := fun t ht hkind =>
    ((strings_collapse source).1 t ht hkind).mp (hkeeps t ht hkind)
  exact ⟨hsheltered, by decide +kernel, by decide +kernel, (strings_collapse source).2.1 hsheltered⟩

/-- **A quote that is escaped closes the string for collapsing.**  Of the two spaces behind it one
is lost, so that the string is not in the collapsed text. -/
theorem strings_collapse_escaped :
    let source := "\"x\\\"  y\""
    (ofText source).strays = [] ∧ (ofText source).strings = [source.toList] ∧
      collapse source = "\"x\\\" y\"" ∧
      ¬ InOrder (ofText source).strings (collapse source).toList := by
  intro source
  have hstrings : (ofText source).strings = [source.toList] := by decide +kernel
  have hcollapse : collapse source = "\"x\\\" y\"" := by decide +kernel
  refine ⟨by decide +kernel, hstrings, hcollapse, fun h => ?_⟩
  have hlength := h.length_le
  rw [hstrings, hcollapse] at hlength
  exact absurd hlength (by decide +kernel)

end Lexing

end LessCss
