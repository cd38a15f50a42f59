import Mathlib.Data.List.ProdSigma
import Mathlib.Logic.Relation
import LessCss.Proofs.Starts

/-!
# What the analysis of a grammar finds

A phrase may start with a kind of token if its alternatives, put in place of it and of the phrases
at the front one after the other, lead to a sequence of symbols with that token in front
(`Grammar.Derives`).  The analysis of a grammar knows nothing of such derivations: it repeats a step
on a table until nothing changes.

That it nevertheless finds the derivable starts and no others has three reasons.  Whatever a step
adds can be derived (`Sound`); what can be derived is in every table that a step does not change
(`contains_of_derives`); and the repetition does end with such a table, because each round before
the last adds at least one of finitely many facts (`step_facts`).  None of this asks anything of the
grammar: phrases may be defined through themselves, in circles, several times or not at all.
-/

namespace LessCss

/-! ## Derivations -/

namespace Grammar

/-- The grammar that is left by definitions one after the other. -/
def ofDefinitions (definitions : List (Phrase × List (List Sym))) : Grammar :=
  definitions.foldl (fun g d => g.define d.1 d.2) empty

/-- An alternative of the last definition of a phrase: of a later one, or of this one if no later
one is of the same phrase. -/
def IsAlternative : List (Phrase × List (List Sym)) → Phrase → List Sym → Prop
  | [], _, _ => False
  | d :: later, p, a => IsAlternative later p a ∨ d.1 = p ∧ (∀ e ∈ later, e.1 ≠ p) ∧ a ∈ d.2

/-- One step of a leftmost derivation: the first symbol gives way to something that it stands for.
A phrase without a definition stands for nothing at all, so that there is no step from it. -/
inductive Rewrites (definitions : List (Phrase × List (List Sym))) : List Sym → List Sym → Prop
  | category {c : Category} {k : Kind} (rest : List Sym) (h : k ∈ c.members) :
      Rewrites definitions (.category c :: rest) (.token k :: rest)
  | phrase {p : Phrase} {a : List Sym} (rest : List Sym) (h : IsAlternative definitions p a) :
      Rewrites definitions (.phrase p :: rest) (a ++ rest)
  | take (p : Phrase) (rest : List Sym) :
    Rewrites definitions (.optional p :: rest) (.phrase p :: rest)
  | leave (p : Phrase) (rest : List Sym) : Rewrites definitions (.optional p :: rest) rest
  | nothing (rest : List Sym) : Rewrites definitions (.nothing :: rest) rest

/-- A leftmost derivation. -/
abbrev Derives (definitions : List (Phrase × List (List Sym))) : List Sym → List Sym → Prop :=
  Relation.ReflTransGen (Rewrites definitions)

variable {definitions : List (Phrase × List (List Sym))}

theorem alternatives_define (g : Grammar) (p q : Phrase) (as : List (List Sym)) :
    (g.define p as).alternatives q = if q = p then as else g.alternatives q := by
  unfold alternatives define
  split <;> rfl

/-- The alternatives of a phrase are those of its last definition. -/
theorem mem_alternatives_iff (definitions : List (Phrase × List (List Sym))) (p : Phrase)
    (a : List Sym) :
    a ∈ (ofDefinitions definitions).alternatives p ↔ IsAlternative definitions p a := by
  have hfold (ds : List (Phrase × List (List Sym))) (g : Grammar) :
      a ∈ (ds.foldl (fun g d => g.define d.1 d.2) g).alternatives p ↔
        IsAlternative ds p a ∨ (∀ d ∈ ds, d.1 ≠ p) ∧ a ∈ g.alternatives p := by
    induction ds generalizing g with
    | nil => simp [IsAlternative]
    | cons d ds ih =>
      rw [List.foldl_cons, ih, alternatives_define, IsAlternative, List.forall_mem_cons]
      by_cases hp : p = d.1
      · subst hp
        rw [if_pos rfl]
        tauto
      · rw [if_neg hp]
        have hd : d.1 ≠ p := fun h => hp h.symm
        tauto
  rw [ofDefinitions, hfold]
  simp [alternatives, empty]

/-- What is derived from a form is derived with the same symbols behind it. -/
theorem Derives.append {form form' : List Sym} (h : Derives definitions form form')
    (rest : List Sym) :
    Derives definitions (form ++ rest) (form' ++ rest) := by
  refine h.lift (· ++ rest) fun a b hab => ?_
  change Rewrites definitions (a ++ rest) (b ++ rest)
  cases hab with
  | category tail hk => exact .category (tail ++ rest) hk
  | phrase tail ha =>
    have hstep := Rewrites.phrase (tail ++ rest) ha
    rwa [← List.append_assoc] at hstep
  | take p => exact .take p _
  | leave p => exact .leave p _
  | nothing => exact .nothing _

end Grammar

/-! ## What is known of sequences and choices -/

/-- Sets with the same members are the same. -/
theorem KindSet.eq_of_contains {s t : KindSet} (h : ∀ k, s.contains k = t.contains k) : s = t := by
  have hindex : ∀ i : Fin 39, ∃ k ∈ Kind.all, k.index = i := by decide
  have hbits : s.bits = t.bits := by
    refine BitVec.eq_of_getLsbD_eq fun i hi => ?_
    obtain ⟨k, _, hk⟩ := hindex ⟨i, hi⟩
    have hk : k.index = i := hk
    rw [← hk]
    exact h k
  cases s
  cases t
  cases hbits
  rfl

/-- Tables with the same values are the same. -/
theorem Phrase.Table.eq_of_get {α : Type} {s t : Table α} (h : ∀ p, s.get p = t.get p) : s = t := by
  have hindex : ∀ i : Fin 32, (ofIndex i).index = i := by decide
  have hentries : s.entries = t.entries := by
    refine Vector.ext fun i hi => ?_
    have hp := h (ofIndex ⟨i, hi⟩)
    simp only [get, hindex] at hp
    exact hp
  cases s
  cases t
  cases hentries
  rfl

namespace StartFacts

/-- Facts that are all among others. -/
def Le (a b : StartFacts) : Prop :=
  (∀ k, a.first.contains k = true → b.first.contains k = true) ∧
    (a.nullable = true → b.nullable = true)

theorem Le.antisymm {a b : StartFacts} (hab : a.Le b) (hba : b.Le a) : a = b := by
  have hfirst : a.first = b.first :=
    KindSet.eq_of_contains fun k => Bool.eq_iff_iff.mpr ⟨hab.1 k, hba.1 k⟩
  have hnullable : a.nullable = b.nullable := Bool.eq_iff_iff.mpr ⟨hab.2, hba.2⟩
  cases a
  cases b
  cases hfirst
  cases hnullable
  rfl

variable {facts facts' : Phrase → StartFacts}

/-- A sequence starts as its first part does, or as the second if the first may be empty. -/
theorem ofSymbols_append (a b : List Sym) :
    (∀ k, (ofSymbols facts (a ++ b)).first.contains k = true ↔
      (ofSymbols facts a).first.contains k = true ∨
        (ofSymbols facts a).nullable = true ∧ (ofSymbols facts b).first.contains k = true) ∧
    ((ofSymbols facts (a ++ b)).nullable = true ↔
      (ofSymbols facts a).nullable = true ∧ (ofSymbols facts b).nullable = true) := by
  induction a with
  | nil => simp [ofSymbols]
  | cons x a ih =>
    cases x with
    | token k => simp [ofSymbols]
    | category c => simp [ofSymbols]
    | phrase p =>
      by_cases hp : (facts p).nullable = true
      · simp [ofSymbols, hp, ih.1, ih.2, or_assoc]
      · simp [ofSymbols, hp]
    | optional p => simp [ofSymbols, ih.1, ih.2, or_assoc]
    | nothing => simpa [ofSymbols] using ih

/-- One phrase alone starts as the phrase does. -/
theorem contains_ofSymbols_phrase (p : Phrase) (k : Kind) :
    (ofSymbols facts [.phrase p]).first.contains k = (facts p).first.contains k := by
  simp only [ofSymbols]
  split <;> simp

/-- Who knows more of the phrases knows more of a sequence. -/
theorem ofSymbols_mono (h : ∀ p, (facts p).Le (facts' p)) (a : List Sym) :
    (ofSymbols facts a).Le (ofSymbols facts' a) := by
  induction a with
  | nil => exact ⟨fun _ hk => hk, fun hn => hn⟩
  | cons x a ih =>
    cases x with
    | token k => exact ⟨fun _ hk => hk, fun hn => hn⟩
    | category c => exact ⟨fun _ hk => hk, fun hn => hn⟩
    | phrase p =>
      have hp := h p
      by_cases hnullable : (facts p).nullable = true
      · constructor
        · intro k
          simp only [ofSymbols, hnullable, hp.2 hnullable, if_true, KindSet.contains_union,
            Bool.or_eq_true]
          exact Or.imp (hp.1 k) (ih.1 k)
        · simpa only [ofSymbols, hnullable, hp.2 hnullable, if_true] using ih.2
      · constructor
        · intro k hk
          simp only [ofSymbols, hnullable] at hk
          simp only [ofSymbols]
          split
          · simp [hp.1 k hk]
          · exact hp.1 k hk
        · simp [ofSymbols, hnullable]
    | optional p =>
      constructor
      · intro k
        simp only [ofSymbols, KindSet.contains_union, Bool.or_eq_true]
        exact Or.imp ((h p).1 k) (ih.1 k)
      · exact ih.2
    | nothing => exact ih

/-- A choice starts as one of its alternatives does, and may be empty if one of them may. -/
theorem ofAlternatives_iff (facts : Phrase → StartFacts) (as : List (List Sym)) :
    (∀ k, (ofAlternatives facts as).first.contains k = true ↔
      ∃ a ∈ as, (ofSymbols facts a).first.contains k = true) ∧
    ((ofAlternatives facts as).nullable = true ↔
      ∃ a ∈ as, (ofSymbols facts a).nullable = true) := by
  have hfold (fs : List StartFacts) (start : StartFacts) :
      (∀ k, (fs.foldl union start).first.contains k = true ↔
        start.first.contains k = true ∨ ∃ f ∈ fs, f.first.contains k = true) ∧
      ((fs.foldl union start).nullable = true ↔
        start.nullable = true ∨ ∃ f ∈ fs, f.nullable = true) := by
    induction fs generalizing start with
    | nil => simp
    | cons f fs ih =>
      have hrest := ih (start.union f)
      rw [List.foldl_cons]
      constructor
      · intro k
        rw [hrest.1 k]
        simp [union, or_assoc]
      · rw [hrest.2]
        simp [union, or_assoc]
  have h := hfold (as.map (ofSymbols facts)) none
  unfold ofAlternatives
  simp only [List.mem_map, exists_exists_and_eq_and] at h
  constructor
  · intro k
    rw [h.1 k]
    simp [none]
  · rw [h.2]
    simp [none]

/-- More facts about phrases give more facts about their alternatives. -/
theorem ofAlternatives_mono (h : ∀ p, (facts p).Le (facts' p)) (as : List (List Sym)) :
    (ofAlternatives facts as).Le (ofAlternatives facts' as) := by
  constructor
  · intro k
    rw [(ofAlternatives_iff facts as).1, (ofAlternatives_iff facts' as).1]
    exact fun ⟨a, ha, hk⟩ => ⟨a, ha, (ofSymbols_mono h a).1 k hk⟩
  · rw [(ofAlternatives_iff facts as).2, (ofAlternatives_iff facts' as).2]
    exact fun ⟨a, ha, hn⟩ => ⟨a, ha, (ofSymbols_mono h a).2 hn⟩

end StartFacts

namespace Grammar

open StartFacts

variable {definitions : List (Phrase × List (List Sym))} {g : Grammar}

/-! ## What is found can be derived -/

/-- Every fact of a table can be derived. -/
def Sound (definitions : List (Phrase × List (List Sym))) (facts : Phrase → StartFacts) : Prop :=
  ∀ p,
    (∀ k, (facts p).first.contains k = true → ∃ rest,
      Derives definitions [.phrase p] (.token k :: rest)) ∧
    ((facts p).nullable = true → Derives definitions [.phrase p] [])

/-- Sound facts about phrases give sound facts about a row of symbols. -/
theorem Sound.ofSymbols {facts : Phrase → StartFacts} (h : Sound definitions facts) (a : List Sym) :
    (∀ k, (StartFacts.ofSymbols facts a).first.contains k = true →
      ∃ rest, Derives definitions a (.token k :: rest)) ∧
    ((StartFacts.ofSymbols facts a).nullable = true → Derives definitions a []) := by
  induction a with
  | nil => exact ⟨fun k hk => by simp [StartFacts.ofSymbols] at hk, fun _ => .refl⟩
  | cons x a ih =>
    -- a phrase in front, with what was derived for it alone
    have hfront (p : Phrase) (k : Kind) (hk : (facts p).first.contains k = true) :
        ∃ rest, Derives definitions (.phrase p :: a) (.token k :: rest) := by
      obtain ⟨rest, hrest⟩ := (h p).1 k hk
      exact ⟨rest ++ a, hrest.append a⟩
    have hvanish (p : Phrase) (hp : (facts p).nullable = true) :
        Derives definitions (.phrase p :: a) a := ((h p).2 hp).append a
    cases x with
    | token k =>
      refine ⟨fun j hj => ⟨a, ?_⟩, fun hn => by simp [StartFacts.ofSymbols] at hn⟩
      have hjk : j = k := by simpa [StartFacts.ofSymbols] using hj
      rw [hjk]
    | category c =>
      refine ⟨fun j hj => ⟨a, .single (.category a ?_)⟩, fun hn => by
        simp [StartFacts.ofSymbols] at hn⟩
      simpa [StartFacts.ofSymbols] using hj
    | phrase p =>
      by_cases hp : (facts p).nullable = true
      · constructor
        · intro k hk
          simp only [StartFacts.ofSymbols, hp, if_true, KindSet.contains_union,
            Bool.or_eq_true] at hk
          rcases hk with hk | hk
          · exact hfront p k hk
          · obtain ⟨rest, hrest⟩ := ih.1 k hk
            exact ⟨rest, (hvanish p hp).trans hrest⟩
        · intro hn
          simp only [StartFacts.ofSymbols, hp, if_true] at hn
          exact (hvanish p hp).trans (ih.2 hn)
      · constructor
        · intro k hk
          simp only [StartFacts.ofSymbols, hp] at hk
          exact hfront p k hk
        · simp [StartFacts.ofSymbols, hp]
    | optional p =>
      constructor
      · intro k hk
        simp only [StartFacts.ofSymbols, KindSet.contains_union, Bool.or_eq_true] at hk
        rcases hk with hk | hk
        · obtain ⟨rest, hrest⟩ := hfront p k hk
          exact ⟨rest, .head (.take p a) hrest⟩
        · obtain ⟨rest, hrest⟩ := ih.1 k hk
          exact ⟨rest, .head (.leave p a) hrest⟩
      · exact fun hn => .head (.leave p a) (ih.2 hn)
    | nothing =>
      constructor
      · intro k hk
        obtain ⟨rest, hrest⟩ := ih.1 k hk
        exact ⟨rest, .head (.nothing a) hrest⟩
      · exact fun hn => .head (.nothing a) (ih.2 hn)

/-- A step adds only what can be derived. -/
theorem Sound.step {known : Phrase.Table StartFacts} (h : Sound definitions known.get) :
    Sound definitions ((ofDefinitions definitions).step known).get := by
  intro p
  have hp {a form : List Sym} (ha : a ∈ (ofDefinitions definitions).alternatives p)
      (hform : Derives definitions a form) : Derives definitions [.phrase p] form := by
    have hstep : Rewrites definitions [.phrase p] (a ++ []) :=
      .phrase [] ((mem_alternatives_iff definitions p a).mp ha)
    rw [List.append_nil] at hstep
    exact .head hstep hform
  rw [get_step]
  constructor
  · intro k hk
    obtain ⟨a, ha, hk⟩ := ((ofAlternatives_iff _ _).1 k).mp hk
    obtain ⟨rest, hrest⟩ := (h.ofSymbols a).1 k hk
    exact ⟨rest, hp ha hrest⟩
  · intro hn
    obtain ⟨a, ha, hn⟩ := (ofAlternatives_iff _ _).2.mp hn
    exact hp ha ((h.ofSymbols a).2 hn)

/-- Repeating a step leaves sound facts sound. -/
theorem Sound.repeatStep (bound : Nat) {known : Phrase.Table StartFacts}
    (h : Sound definitions known.get) :
    Sound definitions ((ofDefinitions definitions).repeatStep bound known).get := by
  induction bound generalizing known with
  | zero => exact h
  | succ bound ih =>
    rw [Grammar.repeatStep]
    split
    · exact h
    · exact ih h.step

/-! ## What can be derived is found -/

/-- In a table that a step does not change, a sequence of symbols starts with whatever it leads
to. -/
theorem contains_of_derives {known : Phrase.Table StartFacts}
    (hfixed : (ofDefinitions definitions).step known = known) {form : List Sym} {k : Kind}
    {rest : List Sym} (h : Derives definitions form (.token k :: rest)) :
    (StartFacts.ofSymbols known.get form).first.contains k = true := by
  induction h using Relation.ReflTransGen.head_induction_on with
  | refl => simp [StartFacts.ofSymbols]
  | head hstep _ ih =>
    cases hstep with
    | category tail hk =>
      have hj := by simpa [StartFacts.ofSymbols] using ih
      simpa [StartFacts.ofSymbols, hj] using hk
    | @phrase p a tail ha =>
      have hmem := (mem_alternatives_iff definitions p a).mpr ha
      -- what the alternative starts with is known of the phrase, as nothing changes
      have hchoice :
          known.get p = .ofAlternatives known.get ((ofDefinitions definitions).alternatives p) := by
        rw [← get_step, hfixed]
      have hfirst := (ofAlternatives_iff known.get ((ofDefinitions definitions).alternatives p)).1 k
      have hnullable :=
        (ofAlternatives_iff known.get ((ofDefinitions definitions).alternatives p)).2
      rw [← hchoice] at hfirst hnullable
      rcases ((ofSymbols_append a tail).1 k).mp ih with hk | ⟨hn, hk⟩
      · have hp := hfirst.mpr ⟨a, hmem, hk⟩
        simp only [StartFacts.ofSymbols]
        split
        · simp [hp]
        · exact hp
      · simp [StartFacts.ofSymbols, hnullable.mpr ⟨a, hmem, hn⟩, hk]
    | take p tail =>
      simp only [StartFacts.ofSymbols] at ih ⊢
      split at ih
      · exact ih
      · simp [ih]
    | leave p tail => simp [StartFacts.ofSymbols, ih]
    | nothing tail => simpa [StartFacts.ofSymbols] using ih

/-! ## The repetition ends -/

/-- A fact about a phrase: that it may start with a kind, or that it may be empty. -/
abbrev Question := Phrase × Option Kind

/-- Whether a table has a fact. -/
def answer (known : Phrase.Table StartFacts) : Question → Bool
  | (p, some k) => (known.get p).first.contains k
  | (p, .none) => (known.get p).nullable

/-- All facts that there can be. -/
def questions : List Question := Phrase.all ×ˢ (.none :: Kind.all.map some)

theorem length_questions : questions.length = 32 * 40 := by
  rw [questions, List.length_product, List.length_cons, List.length_map]
  rfl

/-- The questions there are cover all phrases and kinds. -/
theorem mem_questions (q : Question) : q ∈ questions := by
  obtain ⟨p, k⟩ := q
  refine List.mem_product.mpr ⟨p.mem_all, ?_⟩
  cases k with
  | none => exact List.mem_cons_self
  | some k => exact List.mem_cons_of_mem _ (List.mem_map_of_mem k.mem_all)

/-- Tables that have the same facts are the same. -/
theorem eq_of_answer {known known' : Phrase.Table StartFacts} (h : answer known = answer known') :
    known = known' := by
  refine Phrase.Table.eq_of_get fun p => ?_
  exact StartFacts.Le.antisymm
    ⟨fun k hk => (congrFun h (p, some k)).symm.trans hk, fun hn =>
      (congrFun h (p, .none)).symm.trans hn⟩
    ⟨fun k hk => (congrFun h (p, some k)).trans hk, fun hn => (congrFun h (p, .none)).trans hn⟩

/-- A table whose facts are all kept by a step, so that the step can only add some. -/
def Grows (g : Grammar) (known : Phrase.Table StartFacts) : Prop :=
  ∀ p, (known.get p).Le ((g.step known).get p)

/-- The facts grow with every step. -/
theorem Grows.step {known : Phrase.Table StartFacts} (h : g.Grows known) :
    g.Grows (g.step known) := by
  intro p
  rw [get_step, get_step]
  exact ofAlternatives_mono h _

/-- A step that changes a growing table adds a fact. -/
theorem Grows.countP_lt {known : Phrase.Table StartFacts} (h : g.Grows known)
    (hne : g.step known ≠ known) :
    questions.countP (answer known) < questions.countP (answer (g.step known)) := by
  have hle (q : Question) (hq : answer known q = true) : answer (g.step known) q = true := by
    obtain ⟨p, k⟩ := q
    cases k with
    | none => exact (h p).2 hq
    | some k => exact (h p).1 k hq
  obtain ⟨q, hq⟩ : ∃ q, answer known q ≠ answer (g.step known) q := by
    by_contra hall
    push Not at hall
    exact hne (eq_of_answer (funext hall)).symm
  have hold : answer known q ≠ true := fun hold => hq (hold.trans (hle q hold).symm)
  have hnew : answer (g.step known) q = true := by
    rw [eq_false_of_ne_true hold] at hq
    exact eq_true_of_ne_false hq.symm
  obtain ⟨before, behind, hsplit⟩ := List.append_of_mem (mem_questions q)
  have hbefore : before.countP (answer known) ≤ before.countP (answer (g.step known)) :=
    List.countP_mono_left fun r _ => hle r
  have hbehind : behind.countP (answer known) ≤ behind.countP (answer (g.step known)) :=
    List.countP_mono_left fun r _ => hle r
  rw [hsplit, List.countP_append, List.countP_append, List.countP_cons_of_neg hold,
    List.countP_cons_of_pos hnew]
  omega

/-- The repetition ends with a table that a step does not change, if there are rounds for all facts
that are missing. -/
theorem step_repeatStep (bound : Nat) {known : Phrase.Table StartFacts} (h : g.Grows known)
    (hbound : questions.length ≤ bound + questions.countP (answer known)) :
    g.step (g.repeatStep bound known) = g.repeatStep bound known := by
  induction bound generalizing known with
  | zero =>
    rw [repeatStep]
    by_contra hne
    have hlt := h.countP_lt hne
    have hle := List.countP_le_length (p := answer (g.step known)) (l := questions)
    omega
  | succ bound ih =>
    rw [repeatStep]
    split
    · rename_i hsame
      exact congrArg Phrase.Table.mk hsame
    · rename_i hchanged
      have hlt := h.countP_lt fun heq => hchanged (congrArg Phrase.Table.entries heq)
      exact ih h.step (by omega)

/-- The analysis ends because nothing changes any more, whatever the grammar. -/
theorem step_facts (g : Grammar) : g.step g.facts = g.facts := by
  rw [facts]
  refine step_repeatStep (32 * 40) (fun p => ?_) (by rw [length_questions]; omega)
  rw [Phrase.Table.get_tabulate]
  exact ⟨fun k hk => by simp [StartFacts.none] at hk, fun hn => by simp [StartFacts.none] at hn⟩

/-- The facts that the grammar comes to are sound. -/
theorem sound_facts (definitions : List (Phrase × List (List Sym))) :
    Sound definitions (ofDefinitions definitions).facts.get := by
  rw [facts]
  refine Sound.repeatStep (32 * 40) fun p => ?_
  rw [Phrase.Table.get_tabulate]
  exact ⟨fun k hk => by simp [StartFacts.none] at hk, fun hn => by simp [StartFacts.none] at hn⟩

end Grammar

namespace Prediction

open Grammar

theorem first_ofGrammar (g : Grammar) (p : Phrase) :
    (ofGrammar g).first p = (g.facts.get p).first := by
  rw [first, ofGrammar]

/-- **The analysis of a grammar is exact.**  Whatever the definitions, it ends with a table that a
further step does not change, and this table says that a phrase may start with a kind of token if
and only if a leftmost derivation leads from the phrase to a sequence with that token in front. -/
theorem first_ofDefinitions (definitions : List (Phrase × List (List Sym))) :
    (ofDefinitions definitions).step (ofDefinitions definitions).facts =
      (ofDefinitions definitions).facts ∧
      ∀ p k, ((ofGrammar (ofDefinitions definitions)).first p).contains k = true ↔
        ∃ rest, Derives definitions [.phrase p] (.token k :: rest) := by
  have hfixed := step_facts (ofDefinitions definitions)
  refine ⟨hfixed, fun p k => ?_⟩
  rw [first_ofGrammar]
  refine ⟨fun hk => ?_, fun ⟨rest, h⟩ => ?_⟩
  · exact (sound_facts definitions p).1 k hk
  · rw [← StartFacts.contains_ofSymbols_phrase]
    exact contains_of_derives hfixed h

end Prediction

end LessCss
