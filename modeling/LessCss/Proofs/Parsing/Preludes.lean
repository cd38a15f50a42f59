import LessCss.Compile
import LessCss.Proofs.Parsing.Spacing
import LessCss.Proofs.Parsing.Statements

/-!
# What stands between the name of an at-rule and its block

If it does not read as a value, the parser takes it token by token, up to a brace or semicolon
(`Parser.generalAtRule_ruled`).  Read off the tree it is a keyword again: the text of the source
from the first to the last of these tokens.  But all tokens like the name of the at-rule are left
out before that, so that the keyword is the whole text just if no such token stands at either end
(`Parse.rawHeader_exact`).  That is a matter of the places of tokens: they are in order and none is
empty, so that leaving out the first or the last one gives a text that is shorter.
-/

namespace LessCss

/-! ## The text of some tokens -/

/-- A stretch between two characters is as long as they are apart. -/
theorem Text.width_slice {cs : List Char} {i j : Nat} (hi : IsBoundary cs i) (hj : IsBoundary cs j)
    (hij : i ≤ j) :
    width (slice cs i j) = j - i := by
  obtain ⟨a, b, hcs, rfl⟩ := hi
  obtain ⟨x, y, rfl, rfl⟩ := hj
  obtain ⟨u, rfl, rfl⟩ := exists_append_of_width_le hcs hij
  rw [slice_append, width_append, Nat.add_sub_cancel_left]

namespace Lexing

open Text

variable {source : String} {ts : List Token} {x z : Token}

/-- Tokens start and end at characters of the source. -/
theorem boundary_of_mem (hx : x ∈ (ofText source).tokens) :
    IsBoundary source.toList x.start ∧ IsBoundary source.toList x.stop := by
  refine (partitions_ofText source).boundary (x.start, x.stop) ?_
  simp only [spans, List.mem_append, List.mem_map]
  exact .inl (.inl ⟨x, hx, rfl⟩)

variable (h : ts.Sublist (ofText source).tokens)

include h

/-- Tokens behind the first one of some start later. -/
theorem start_head_lt (hx : ts.head? = some x) (hz : z ∈ ts) : z = x ∨ x.start < z.start := by
  cases ts with
  | nil => cases hx
  | cons y ts =>
    cases hx
    rcases List.mem_cons.mp hz with rfl | hz
    · exact .inl rfl
    · have hle := (List.pairwise_cons.mp ((pairwise_tokens source).sublist h)).1 z hz
      have hlt := start_lt_stop (h.subset List.mem_cons_self)
      exact .inr (by omega)

/-- Tokens before the last one of some stop earlier. -/
theorem stop_lt_getLast (hx : ts.getLast? = some x) (hz : z ∈ ts) : z = x ∨ z.stop < x.stop := by
  obtain ⟨us, rfl⟩ := List.getLast?_eq_some_iff.mp hx
  rcases List.mem_append.mp hz with hz | hz
  · have hle := (List.pairwise_append.mp ((pairwise_tokens source).sublist h)).2.2 z hz x
        (List.mem_singleton_self x)
    have hlt := start_lt_stop (h.subset (List.mem_append_right us (List.mem_singleton_self x)))
    exact .inr (by omega)
  · exact .inl (List.mem_singleton.mp hz)

end Lexing

namespace Reading

/-- The keyword of the source from the first to the last of some tokens, if there are any. -/
def keywordOf? (source : List Char) (ts : List Token) : Option Node :=
  match ts.head?, ts.getLast? with
  | some first, some last =>
    some (.keyword (String.ofList (Text.slice source first.start last.stop)))
  | _, _ => none

/-- The keyword is the source from the start of the first token to the end of the last. -/
theorem keywordOf?_eq {source : List Char} {ts : List Token} {first last : Token}
    (hfirst : ts.head? = some first) (hlast : ts.getLast? = some last) :
    keywordOf? source ts =
      some (.keyword (String.ofList (Text.slice source first.start last.stop))) := by
  rw [keywordOf?, hfirst, hlast]

theorem exists_ends {ts : List Token} (h : ts ≠ []) :
    ∃ first last, ts.head? = some first ∧ ts.getLast? = some last :=
  ⟨_, _, List.head?_eq_some_head h, List.getLast?_eq_some_getLast h⟩

/-- If the first and the last token stay, the keyword does. -/
theorem keywordOf?_filter {ts : List Token} {p : Token → Bool}
    (hends : ∀ x, x ∈ ts.head? ∨ x ∈ ts.getLast? → p x) (source : List Char) :
    keywordOf? source (ts.filter p) = keywordOf? source ts := by
  rcases List.eq_nil_or_concat' ts with rfl | ⟨us, last, hts⟩
  · rfl
  · cases ts with
    | nil => rfl
    | cons first rest =>
      have hlast : (first :: rest).getLast? = some last := by rw [hts, List.getLast?_concat]
      have hfirst : ((first :: rest).filter p).head? = some first := by
        rw [List.filter_cons_of_pos (hends first (.inl rfl)), List.head?_cons]
      have hlast' : ((first :: rest).filter p).getLast? = some last := by
        rw [hts, List.filter_append, List.filter_cons_of_pos (hends last (.inr hlast)),
          List.filter_nil, List.getLast?_concat]
      rw [keywordOf?_eq hfirst hlast', keywordOf?_eq rfl hlast]

section Filter

variable {source : String} {ts : List Token} (h : ts.Sublist (Lexing.ofText source).tokens)

include h

/-- The first of some tokens starts before the last one ends. -/
theorem start_le_stop_of_ends {first last : Token} (hfirst : ts.head? = some first)
    (hlast : ts.getLast? = some last) :
    first.start ≤ last.stop := by
  have hmem := List.mem_of_head? hfirst
  have hproper := Lexing.start_lt_stop (h.subset hmem)
  rcases Lexing.stop_lt_getLast h hlast hmem with rfl | hlt <;> omega

/-- The source between them is as long as they are apart. -/
theorem width_slice_of_ends {first last : Token} (hfirst : ts.head? = some first)
    (hlast : ts.getLast? = some last) :
    Text.width (Text.slice source.toList first.start last.stop) = last.stop - first.start :=
  Text.width_slice (Lexing.boundary_of_mem (h.subset (List.mem_of_head? hfirst))).1
    (Lexing.boundary_of_mem (h.subset (List.mem_of_getLast? hlast))).2
      (start_le_stop_of_ends h hfirst hlast)

/-- The first and the last of some tokens are among those that are left of them if the keyword is
still the same. -/
theorem mem_of_keywordOf?_eq {kept : List Token} (hkept : kept.Sublist ts)
    (heq : keywordOf? source.toList kept = keywordOf? source.toList ts) {x : Token}
    (hx : x ∈ ts.head? ∨ x ∈ ts.getLast?) : x ∈ kept := by
  have hne : ts ≠ [] := by
    rintro rfl
    rcases hx with hx | hx <;> cases hx
  obtain ⟨first, last, hfirst, hlast⟩ := exists_ends hne
  rw [keywordOf?_eq hfirst hlast] at heq
  have hne' : kept ≠ [] := by
    rintro rfl
    cases heq
  obtain ⟨first', last', hfirst', hlast'⟩ := exists_ends hne'
  rw [keywordOf?_eq hfirst' hlast'] at heq
  have hfirst_mem := List.mem_of_head? hfirst'
  have hlast_mem := List.mem_of_getLast? hlast'
  -- both texts are equally wide, which is possible only if they have the same ends
  have hwidth := congrArg (fun k => Text.width k.toList) (Node.keyword.inj (Option.some.inj heq))
  simp only [String.toList_ofList] at hwidth
  rw [width_slice_of_ends (hkept.trans h) hfirst' hlast',
    width_slice_of_ends h hfirst hlast] at hwidth
  have hle := start_le_stop_of_ends (hkept.trans h) hfirst' hlast'
  have hstart := Lexing.start_head_lt h hfirst (hkept.subset hfirst_mem)
  have hstop := Lexing.stop_lt_getLast h hlast (hkept.subset hlast_mem)
  rcases hx with hx | hx
  · obtain rfl := Option.some.inj (hfirst.symm.trans hx)
    rcases hstart with rfl | hlt
    · exact hfirst_mem
    · rcases hstop with rfl | hlt' <;> omega
  · obtain rfl := Option.some.inj (hlast.symm.trans hx)
    rcases hstop with rfl | hlt
    · exact hlast_mem
    · rcases hstart with rfl | hlt' <;> omega

/-- **Leaving out tokens** makes another keyword just if the first or the last one is left out. -/
theorem keywordOf?_filter_iff (p : Token → Bool) :
    keywordOf? source.toList (ts.filter p) = keywordOf? source.toList ts ↔
      ∀ x, x ∈ ts.head? ∨ x ∈ ts.getLast? → p x := by
  refine ⟨fun heq x hx => ?_, fun hends => keywordOf?_filter hends source.toList⟩
  exact (List.mem_filter.mp (mem_of_keywordOf?_eq h List.filter_sublist heq hx)).2

end Filter

end Reading

/-! ## General at-rules -/

namespace Tree

/-- The kinds before which an at-rule without value ends. -/
def preludeStops : List Kind := [.leftBrace, .semicolon, .rightBrace]

/-- A block, which starts with a brace. -/
def Opens (stop : Token) (t : Tree) : Prop :=
  stop.kind = .leftBrace ∧ ∃ ts, t = .node .block (.leaf stop :: ts)

/-- The parts of a general at-rule: its name, a value or tokens as they are, and a semicolon or a
block. -/
inductive Ruled : List Tree → Prop
  | intro {head stop : Token} {content : List Tree} {last : Tree} (hhead : head.kind = .atName)
      (hcontent : (∃ v, content = [v] ∧ v.phrase? = some .value) ∨
        ∃ raw : List Token, content = raw.map leaf ∧ ∀ x ∈ raw, x.kind ∉ preludeStops)
      (hlast : last = .leaf stop ∧ stop.kind = .semicolon ∨ last.Opens stop) :
      Ruled (.leaf head :: content ++ [last])

/-- A statement whose parts are those of a general at-rule if it is one. -/
def RuledIfGeneral (t : Tree) : Prop :=
  ∀ parts, t = .node .atRule [.node .generalAtRule parts] → Ruled parts

end Tree

namespace Parser

open LessCss.Tree

variable {bound : Nat}

/-- A prelude that is not read as a value consists of tokens as they are. -/
theorem rawPrelude_finds : rawPrelude.Finds bound fun ts =>
    ∃ raw : List Token, ts = raw.map leaf ∧ ∀ x ∈ raw, x.kind ∉ preludeStops := by
  refine (Finds.repeatSingle (Finds.take _ _)).mono fun ts hts => ?_
  induction ts with
  | nil => exact ⟨[], rfl, List.forall_mem_nil _⟩
  | cons t ts ih =>
    obtain ⟨⟨x, ht, -, hx⟩, hothers⟩ := List.forall_mem_cons.mp hts
    obtain ⟨raw, rfl, hraw⟩ := ih hothers
    refine ⟨x :: raw, by rw [ht]; rfl, List.forall_mem_cons.mpr ⟨?_, hraw⟩⟩
    rw [KindSet.contains_ofList, List.contains_iff_mem, List.mem_filter] at hx
    simpa [preludeStops] using hx.2

/-- The prelude of an at-rule is a value, or tokens as they are. -/
theorem atRulePrelude_finds_content : atRulePrelude.Finds bound fun ts =>
    (∃ v, ts = [v] ∧ v.phrase? = some .value) ∨
      ∃ raw : List Token, ts = raw.map leaf ∧ ∀ x ∈ raw, x.kind ∉ preludeStops := by
  refine Finds.here_bind fun c => ?_
  split
  · exact .pure (.inr ⟨[], rfl, List.forall_mem_nil _⟩)
  · refine valuePrelude_finds.attempt.bind fun early hearly => ?_
    cases early with
    | some v => exact .pure (.inl ⟨v, rfl, (hearly v rfl).phrase_eq⟩)
    | none => exact rawPrelude_finds.mono fun ts hts => .inr hts

/-- A block starts with a brace. -/
theorem blockWithin_opens (n : Nat) : (blockWithin n).Takes fun _ _ t => ∃ stop, t.Opens stop := by
  have hnode {p : Recovering (List Tree)} (hp : p.Takes fun _ _ ts => ∃ stop rest,
      ts = .leaf stop :: rest ∧
      stop.kind = .leftBrace) : (recoveringNode .block p).Takes fun _ _ t => ∃ stop, t.Opens stop :=
    hp.bind fun ts _ _ ⟨stop, rest, hts, hstop⟩ =>
      .pure ⟨stop, hstop, rest, congrArg (Tree.node .block) hts⟩
  cases n with
  | zero =>
    refine hnode (Recovering.Takes.lift_bind (Takes.take _ _)
      fun left _ ⟨x, _, hx, hkind⟩ => .pure ?_)
    exact ⟨x, [], by rw [hx], by simpa using hkind⟩
  | succ n =>
    refine hnode (Recovering.Takes.lift_bind (Takes.take _ _) fun left _ ⟨x, _, hx, hkind⟩ => ?_)
    refine (bodyTree_takes (statement_takes (blockWithin_takes n) true)).bind fun inner _ _ _ => ?_
    refine Recovering.Takes.lift_bind (Takes.expect _ _) fun right _ _ => .pure ?_
    exact ⟨x, _, by rw [hx], by simpa using hkind⟩

/-- **What is found as a general at-rule** has a name, a value or tokens as they are, and a
semicolon or a block. -/
theorem generalAtRule_ruled (n : Nat) : (generalAtRule (blockWithin n)).Finds n fun t =>
    ∃ parts, t = .node .generalAtRule parts ∧ Ruled parts := by
  have hblock : (blockWithin n).Finds n fun t => ∃ stop, t.Opens stop :=
    (Recovering.Finds.of_takes (blockWithin_opens n)).mono fun t ⟨_, _, h⟩ => h
  refine Recovering.Finds.node (Recovering.Finds.lift_bind (Finds.expect _ _)
    fun head ⟨x, hx, hhead⟩ => ?_)
  subst hx
  refine Recovering.Finds.lift_bind atRulePrelude_finds_content fun content hcontent => ?_
  refine Recovering.Finds.here_bind fun c => ?_
  split
  · refine Recovering.Finds.lift_bind (Finds.expect _ _) fun semicolon ⟨y, hy, hkind⟩ =>
      .pure ⟨_, rfl, ?_⟩
    exact .intro hhead hcontent (.inl ⟨hy, hkind⟩)
  · exact hblock.bind fun last ⟨stop, hlast⟩ => .pure ⟨_, rfl, .intro hhead hcontent (.inr hlast)⟩

/-- Every statement that is a general at-rule has a name, a prelude and an end. -/
theorem statement_ruled (n : Nat) (inBlock : Bool) :
    (statement (blockWithin n) inBlock).Finds n RuledIfGeneral := by
  have hother {t : Tree} (h : t.phrase? ≠ some .generalAtRule) :
      RuledIfGeneral (.node .atRule [t]) := by
    intro parts heq
    cases heq
    exact absurd rfl h
  have hnone {t : Tree} (h : t.phrase? ≠ some .atRule) : RuledIfGeneral t := by
    rintro parts rfl
    exact absurd rfl h
  have hblock : (blockWithin n).Finds n (Inside fun _ => True) :=
    (blockWithin_finds n).mono fun _ _ _ _ => trivial
  refine statement_finds_of ?_ (atRule_finds_of ?_ ?_ ?_) ?_ inBlock
  · exact fun t ht => hnone (by rcases ht with ht | ht <;> simp [ht])
  · exact fun t ht => hother (by rcases ht with ht | ht <;> simp [ht])
  · refine (mediaRule_inside hblock).mono ?_
    rintro t ⟨parts, rfl, -⟩
    exact hother (by simp [phrase?])
  · refine (generalAtRule_ruled n).mono ?_
    rintro t ⟨parts, rfl, hparts⟩ parts' heq
    cases heq
    exact hparts
  · refine Recovering.Finds.node (Recovering.Finds.lift_bind selectorList_finds fun list _ => ?_)
    exact (afterSelectors_inside hblock list).bind fun parts _ => .pure (hnone (by simp [phrase?]))

end Parser

namespace Tree

theorem leavesOf_map_leaf (ts : List Token) : leavesOf (ts.map leaf) = ts := by
  induction ts with
  | nil => rfl
  | cons x ts ih =>
    rw [List.map_cons, leavesOf, ih]
    rfl

theorem filterMap_token?_leaf (ts : List Token) : ts.filterMap (token? ∘ leaf) = ts :=
  List.filterMap_some

/-- A block starts with the token that opens it. -/
theorem Opens.exists_leaves_eq {stop : Token} {t : Tree} (h : t.Opens stop) :
    ∃ behind, t.leaves = stop :: behind := by
  obtain ⟨-, ts, rfl⟩ := h
  exact ⟨leavesOf ts, rfl⟩

/-- The tokens of an at-rule without value: its name, those in the prelude, and those from a brace
or semicolon on. -/
theorem Ruled.tokens_of_raw {parts : List Tree} (h : Ruled parts)
    (hraw : (node .generalAtRule parts).node? .value = none) :
    ∃ (head : Token) (raw : List Token) (stop : Token) (behind : List Token),
      (node .generalAtRule parts).leaves = head :: raw ++ stop :: behind ∧
      (node .generalAtRule parts).tokenOf? .atName = some head ∧
      (∀ x ∈ raw, x.kind ∉ preludeStops) ∧
      (stop.kind = .leftBrace ∨ stop.kind = .semicolon) ∧
      (node .generalAtRule parts).tokens.filter
        (fun x => x.kind != .atName && x.kind != .semicolon) =
        raw.filter (·.kind != .atName) := by
  obtain @⟨head, stop, content, last, hhead, hcontent, hlast⟩ := h
  rcases hcontent with ⟨v, rfl, hv⟩ | ⟨raw, rfl, hstops⟩
  · have hfound : (node .generalAtRule (.leaf head :: [v] ++ [last])).node? .value = some v :=
      Reading.node?_append [leaf head] [last] (by simp [phrase?]) hv
    rw [hfound] at hraw
    cases hraw
  · have hkept : raw.filter (fun x => x.kind != .atName && x.kind != .semicolon) =
        raw.filter (·.kind != .atName) :=
      List.filter_congr fun x hx => by
        have hsemicolon : x.kind ≠ .semicolon := fun hk => hstops x hx (by simp [hk, preludeStops])
        simp [hsemicolon]
    rcases hlast with ⟨rfl, hstop⟩ | hopens
    · refine ⟨head, raw, stop, [], ?_, Reading.tokenOf?_head hhead _, hstops, .inr hstop, ?_⟩
      · simp [leaves, leavesOf, leavesOf_map_leaf]
      · simp [tokens, children, token?, filterMap_token?_leaf, hkept, hhead, hstop]
    · obtain ⟨behind, hbehind⟩ := hopens.exists_leaves_eq
      obtain ⟨hstop, ts, rfl⟩ := hopens
      refine ⟨head, raw, stop, behind, ?_, Reading.tokenOf?_head hhead _, hstops, .inl hstop, ?_⟩
      · rw [leaves, leavesOf_append, List.cons_append, leavesOf, leavesOf_map_leaf, leavesOf,
          leavesOf, hbehind]
        simp [leaves]
      · simp [tokens, children, token?, filterMap_token?_leaf, hkept, hhead, List.filterMap_cons]

end Tree

namespace Parse

open LessCss.Tree

variable {source : String}

/-- A text of one at-rule whose parts pass a test. -/
theorem exists_atRule (source : String) (test : List Tree → Bool)
    (h : (match (ofText source).tree.children with
      | [.node .atRule [.node .generalAtRule parts]] => test parts
      | _ => false) = true) :
    ∃ parts, (ofText source).tree.children = [.node .atRule [.node .generalAtRule parts]] ∧
      test parts = true := by
  split at h
  · next parts hchildren => exact ⟨parts, hchildren, h⟩
  · cases h

/-- **What is read of an at-rule without value.**  Take a text without complaints and an at-rule in
it, at any depth, that has no value.  It is its name and any tokens up to a brace or semicolon.
Read off it is the keyword of those tokens that are not like the name themselves, or nothing if
there are none, and that is the whole text between name and brace or semicolon just if no such token
stands at an end of it. -/
theorem rawHeader_exact (h : (ofText source).hasErrors = false) {s : Tree}
    (hs : s ∈ (ofText source).tree.children) {parts : List Tree}
    (hin : (Tree.node .atRule [.node .generalAtRule parts]).LiesIn s)
    (hraw : (Tree.node .generalAtRule parts).node? .value = none) :
    ∃ (head : Token) (raw : List Token) (stop : Token) (behind : List Token)
      (content : Option Node),
      (Tree.node .generalAtRule parts).leaves = head :: raw ++ stop :: behind ∧
      head :: raw ++ stop :: behind <:+: (Lexing.ofText source).tokens ∧
      (∀ x ∈ raw, x.kind ∉ preludeStops) ∧ (stop.kind = .leftBrace ∨ stop.kind = .semicolon) ∧
      Reading.statement source.toList (.node .atRule [.node .generalAtRule parts]) =
        (Reading.blockIn source.toList parts).map
          (fun rules => some (.atRule head.text content rules)) ∧
      content = Reading.keywordOf? source.toList (raw.filter (·.kind != .atName)) ∧
      (content = Reading.keywordOf? source.toList raw ↔
        ∀ x, x ∈ raw.head? ∨ x ∈ raw.getLast? → x.kind ≠ .atName) := by
  have hclean : (ofText source).mismatches = [] := by
    simp only [hasErrors, Bool.or_eq_false_iff, Bool.not_eq_false', List.isEmpty_iff] at h
    exact h.2
  have hruled := forall_liesIn hclean Parser.statement_ruled s hs _ hin parts rfl
  obtain ⟨head, raw, stop, behind, hleaves, hname, hstops, hstop, hkept⟩ :=
    hruled.tokens_of_raw hraw
  have hoccurs : (Tree.node .generalAtRule parts).OccursIn (ofText source).tree :=
    (OccursIn.inside (List.mem_singleton_self _) .self).trans
      (hin.occursIn.trans (.inside hs .self))
  have hinfix := leaves_infix hclean hoccurs
  rw [hleaves] at hinfix
  have hsublist : raw.Sublist (Lexing.ofText source).tokens := by
    have hraw : raw <:+: head :: raw ++ stop :: behind := ⟨[head], stop :: behind, rfl⟩
    exact (hraw.trans hinfix).sublist
  refine ⟨head, raw, stop, behind, _, hleaves, hinfix, hstops, hstop, ?_, rfl, ?_⟩
  · have hheader : Reading.header source.toList (.node .generalAtRule parts) =
        .ok (Reading.keywordOf? source.toList (raw.filter (·.kind != .atName))) := by
      rw [Reading.header, hraw, ← hkept]
      rfl
    rw [Reading.statement, hheader, hname]
    cases Reading.blockIn source.toList parts <;> rfl
  · rw [Reading.keywordOf?_filter_iff hsublist]
    simp

/-- A token like the name in the middle of what is no value. -/
theorem rawHeader_exact_middle :
    (ofText "@foo b @c:d;").hasErrors = false ∧
    ∃ parts : List Tree, .node .atRule [.node .generalAtRule parts] ∈
      (ofText "@foo b @c:d;").tree.children ∧
      (Tree.node .generalAtRule parts).node? .value = none ∧
      ∃ (head : Token) (raw : List Token) (content : Option Node),
        Reading.statement "@foo b @c:d;".toList (.node .atRule [.node .generalAtRule parts]) =
          (Reading.blockIn "@foo b @c:d;".toList parts).map
            (fun rules => some (.atRule head.text content rules)) ∧
        (content = Reading.keywordOf? "@foo b @c:d;".toList raw ↔
          ∀ x, x ∈ raw.head? ∨ x ∈ raw.getLast? → x.kind ≠ .atName) := by
  have hclean : (ofText "@foo b @c:d;").hasErrors = false := by decide +kernel
  obtain ⟨parts, hchildren, hnone⟩ := exists_atRule "@foo b @c:d;"
    (fun parts => ((Tree.node .generalAtRule parts).node? .value).isNone) (by decide +kernel)
  have hmem : Tree.node .atRule [.node .generalAtRule parts] ∈
      (ofText "@foo b @c:d;").tree.children := by
    rw [hchildren]
    exact List.mem_singleton_self _
  have hraw := Option.isNone_iff_eq_none.mp hnone
  obtain ⟨head, raw, -, -, content, -, -, -, -, hread, -, hiff⟩ :=
    rawHeader_exact hclean hmem .self hraw
  exact ⟨hclean, parts, hmem, hraw, head, raw, content, hread, hiff⟩

/-- A token like the name right behind it is lost. -/
theorem rawHeader_loses_name :
    (ofText "@foo @a:b;").hasErrors = false ∧
    (∃ parts : List Tree,
      (ofText "@foo @a:b;").tree.children = [.node .atRule [.node .generalAtRule parts]] ∧
      (Tree.node .generalAtRule parts).node? .value = none ∧
      (Tree.node .generalAtRule parts).leaves.map Token.text = ["@foo", "@a", ":", "b", ";"] ∧
      Reading.header "@foo @a:b;".toList (.node .generalAtRule parts) =
        .ok (some (.keyword ":b"))) ∧
    (compile {} "@foo @a:b;").toOption = some "@foo :b;" := by
  refine ⟨by decide +kernel, ?_, by decide +kernel⟩
  obtain ⟨parts, hchildren, htest⟩ := exists_atRule "@foo @a:b;"
    (fun parts =>
      let t := Tree.node .generalAtRule parts
      let kept := t.tokens.filter fun x => x.kind != .atName && x.kind != .semicolon
      (t.node? .value).isNone && t.leaves.map Token.text == ["@foo", "@a", ":", "b", ";"] &&
        (kept.head?.map Token.start == some 7 && kept.getLast?.map Token.stop == some 9))
          (by decide +kernel)
  obtain ⟨hshape, hends⟩ := Bool.and_eq_true_iff.mp htest
  obtain ⟨hnone, htexts⟩ := Bool.and_eq_true_iff.mp hshape
  obtain ⟨hstart, hstop⟩ := Bool.and_eq_true_iff.mp hends
  obtain ⟨first, hfirst, hstart⟩ := Option.map_eq_some_iff.mp (eq_of_beq hstart)
  obtain ⟨last, hlast, hstop⟩ := Option.map_eq_some_iff.mp (eq_of_beq hstop)
  have hnone := Option.isNone_iff_eq_none.mp hnone
  have hkeyword : Reading.rawHeader "@foo @a:b;".toList (.node .generalAtRule parts) =
      some (.keyword ":b") := by
    refine (Reading.keywordOf?_eq hfirst hlast).trans ?_
    rw [hstart, hstop]
    rfl
  refine ⟨parts, hchildren, hnone, eq_of_beq htexts, ?_⟩
  rw [Reading.header, hnone]
  exact congrArg Except.ok hkeyword

end Parse

end LessCss
