import LessCss.Proofs.Evaluation.Leftovers

/-!
# What stands between the declarations of a block

A minified block is written as its heading and, in braces, the declarations with semicolons between
them and the nested rules behind them (`Css.BlockText`).  In the text of a whole stylesheet all its
blocks stand in this way (`Ruleset.stylesheet_separates`).  So a declaration is followed by a
semicolon, except the last one, which is followed by the nested rules, and by the closing brace only
if these write nothing.  There is no semicolon between the last declaration and a nested rule
(`Ruleset.stylesheet_unseparated`).
-/

namespace LessCss

namespace Node

/-- Whether a node is a declaration. -/
def isDeclaration : Node → Bool
  | declaration .. => true
  | _ => false

theorem LiesIn.eq_of_block_nil {m n : Node} (h : m.LiesIn n) (hn : n.block = []) : m = n := by
  rcases liesIn_iff.mp h with rfl | ⟨k, hk, -⟩
  · rfl
  · rw [hn] at hk
    cases hk

/-- A node with a block is neither a declaration nor a comment, and no import. -/
theorem isOwn_of_block_ne_nil {n : Node} (h : n.block ≠ []) : n.isOwn = false := by
  cases n with
  | declaration | comment => exact absurd rfl h
  | _ => rfl

/-- An import has no block. -/
theorem isImport_of_block_ne_nil {n : Node} (h : n.block ≠ []) : Css.isImport n = false := by
  cases n with
  | importRule => exact absurd rfl h
  | _ => rfl

/-- Where a node with a block lies, there is a block too. -/
theorem LiesIn.block_ne_nil {b n : Node} (h : b.LiesIn n) (hb : b.block ≠ []) : n.block ≠ [] := by
  intro hn
  exact hb (h.eq_of_block_nil hn ▸ hn)

end Node

namespace Css

variable {s : Style} {level : Nat}

/-! ## The text of a block -/

/-- Minified, the lines of a block are its declarations. -/
theorem ownLines_minified (nodes : List Node) :
    ownLines s ⟨true, level⟩ nodes = (nodes.filter Node.isDeclaration).mapM (inline s) := by
  induction nodes with
  | nil => rfl
  | cons node nodes ih =>
    cases node with
    | declaration =>
      rw [List.filter_cons_of_pos rfl, List.mapM_cons, ownLines, ih, inline, render]
      simp [declarationLine, Layout.line]
    | comment =>
      rw [List.filter_cons_of_neg Bool.false_ne_true, ownLines, ih]
      simp
    | _ =>
      rw [List.filter_cons_of_neg Bool.false_ne_true]
      exact ih

/-- What is nested in a block is written rule by rule. -/
theorem nestedText_eq (l : Layout) (nodes : List Node) :
    nestedText s l nodes = String.join <$> (nodes.filter (!·.isOwn)).mapM (render s (some l)) := by
  induction nodes with
  | nil => rfl
  | cons node nodes ih =>
    rw [nestedText]
    by_cases hown : node.isOwn
    · rw [if_pos hown, ih, List.filter_cons_of_neg (by simp [hown])]
    · rw [if_neg hown, ih, List.filter_cons_of_pos (by simp [hown])]
      simp [List.mapM_cons, String.join_cons]

/-- The text of a minified block: its heading and, in braces, the texts of its declarations with
semicolons between them, and right behind them those of its nested rules. -/
structure BlockText (s : Style) (b : Node) (heading : String) (own nested : List String)
    (text : String) : Prop where
  declarations : (b.block.filter Node.isDeclaration).mapM (inline s) = .ok own
  rules : ∃ level, (b.block.filter (!·.isOwn)).mapM (render s (some ⟨true, level⟩)) = .ok nested
  text_eq : text = heading ++ "\x7b" ++ (";".intercalate own ++ String.join nested) ++ "\x7d"

/-- A body is written from the declarations and the nested rules. -/
theorem blockText_of_body {b : Node} {heading text : String}
    (h : (do
      let own ← ownLines s ⟨true, level⟩ b.block
      let nested ← nestedText s ⟨true, level⟩ b.block
      return (Layout.mk true level).block heading ((Layout.mk true level).joinOwn own ++ nested)) =
        .ok text) :
    ∃ own nested, BlockText s b heading own nested text := by
  rw [ownLines_minified, nestedText_eq] at h
  obtain ⟨own, hown, h⟩ := exists_of_bind_eq_ok h
  obtain ⟨joined, hjoined, h⟩ := exists_of_bind_eq_ok h
  obtain ⟨nested, hnested, hjoin⟩ := exists_of_bind_eq_ok hjoined
  cases h
  cases hjoin
  exact ⟨own, nested, hown, ⟨level, hnested⟩, rfl⟩

/-- A block that is written has a heading, declarations and nested rules in their places. -/
theorem render_block {b : Node} (hplain : b.Plain) (hb : b.block ≠ []) {text : String}
    (h : render s (some ⟨true, level⟩) b = .ok text) :
    ∃ heading own nested, BlockText s b heading own nested text := by
  cases b with
  | ruleset selectors rules root =>
    have hrules : ¬rules.isEmpty = true := mt List.isEmpty_iff.mp hb
    rw [render, if_neg hrules] at h
    exact ⟨_, blockText_of_body h⟩
  | media features rules =>
    have hrules : ¬rules.isEmpty = true := mt List.isEmpty_iff.mp hb
    rw [render, if_neg hrules] at h
    obtain ⟨header, -, h⟩ := exists_of_bind_eq_ok h
    exact ⟨_, blockText_of_body h⟩
  | atRule name header rules =>
    cases rules with
    | none => exact absurd rfl hb
    | some rules =>
      rw [render] at h
      obtain ⟨header, -, h⟩ := exists_of_bind_eq_ok h
      exact ⟨_, blockText_of_body h⟩
  | mixin => exact hplain.elim
  | _ => exact absurd rfl hb

/-! ## Where texts stand -/

/-- The text of an item stands in what the texts of a row are joined to. -/
theorem text_of_mem {f : Node → Except Error String} {n : Node} :
    ∀ {nodes : List Node} {texts : List String}, nodes.mapM f = .ok texts → n ∈ nodes →
    ∃ text before behind, f n = .ok text ∧ String.join texts = before ++ text ++ behind
  | node :: nodes, texts, h, hn => by
    rw [List.mapM_cons] at h
    obtain ⟨text, htext, h⟩ := exists_of_bind_eq_ok h
    obtain ⟨rest, hrest, h⟩ := exists_of_bind_eq_ok h
    cases h
    rw [String.join_cons]
    rcases List.mem_cons.mp hn with rfl | hn
    · exact ⟨text, "", String.join rest, htext, by simp⟩
    · obtain ⟨inner, before, behind, hinner, heq⟩ := text_of_mem hrest hn
      exact ⟨inner, text ++ before, behind, hinner, by simp [heq, String.append_assoc]⟩

/-- The texts of a row fall apart where the row does. -/
theorem texts_append {f : Node → Except Error String} {n : Node} {after : List Node} :
    ∀ {before : List Node} {texts : List String}, (before ++ n :: after).mapM f = .ok texts →
    ∃ xs text ys, texts = xs ++ text :: ys ∧ f n = .ok text ∧ (ys = [] ↔ after = []) := by
  intro before texts h
  rw [List.mapM_append] at h
  obtain ⟨xs, -, h⟩ := exists_of_bind_eq_ok h
  obtain ⟨rest, hrest, h⟩ := exists_of_bind_eq_ok h
  cases h
  rw [List.mapM_cons] at hrest
  obtain ⟨text, htext, hrest⟩ := exists_of_bind_eq_ok hrest
  obtain ⟨ys, hys, hrest⟩ := exists_of_bind_eq_ok hrest
  cases hrest
  refine ⟨xs, text, ys, rfl, htext, ?_⟩
  rw [← List.length_eq_zero_iff, (values_of_mapM hys).1, List.length_eq_zero_iff]

/-- A block that lies in a rule is written somewhere in the text of it. -/
theorem exists_blockText {b n : Node} (hb : b.block ≠ []) (h : b.LiesIn n) :
    ∀ {level : Nat} {text : String}, n.Plain → render s (some ⟨true, level⟩) n = .ok text →
    ∃ before behind heading own nested block,
      text = before ++ block ++ behind ∧ BlockText s b heading own nested block := by
  induction h with
  | self =>
    intro level text hn htext
    obtain ⟨heading, own, nested, hblock⟩ := render_block hn hb htext
    exact ⟨"", "", heading, own, nested, text, by simp, hblock⟩
  | @block k n hk hbk ih =>
    intro level text hn htext
    have hkne : k.block ≠ [] := hbk.block_ne_nil hb
    obtain ⟨heading, own, nested, hblock⟩ := render_block hn (List.ne_nil_of_mem hk) htext
    obtain ⟨inside, hnested⟩ := hblock.rules
    have hmem : k ∈ n.block.filter (!·.isOwn) :=
      List.mem_filter.mpr ⟨hk, by simp [Node.isOwn_of_block_ne_nil hkne]⟩
    obtain ⟨inner, before, behind, hinner, hjoin⟩ := text_of_mem hnested hmem
    obtain ⟨before', behind', heading', own', nested', block, hinner_eq, hwritten⟩ :=
      ih (hn.parts k (n.block_subset_parts hk)) hinner
    refine ⟨heading ++ "\x7b" ++ ";".intercalate own ++ before ++ before',
      behind' ++ behind ++ "\x7d", heading', own', nested', block, ?_, hwritten⟩
    rw [hblock.text_eq, hjoin, hinner_eq]
    simp [String.append_assoc]

/-- Dropping line ends at the end of a text leaves everything up to a brace. -/
theorem dropLineEnds_brace (before behind : String) :
    dropLineEnds (before ++ "\x7d" ++ behind) = before ++ "\x7d" ++ dropLineEnds behind := by
  apply String.toList_injective
  have hbrace : "\x7d".toList = ['\x7d'] := rfl
  simp only [dropLineEnds, String.toList_ofList, String.toList_append, List.reverse_append, hbrace,
    List.dropWhile_append]
  split
  · next hnone => simp [List.isEmpty_iff.mp hnone]
  · simp

/-- The text of a whole stylesheet holds that of each of its blocks. -/
theorem stylesheet_block {rules : List Node} (hplain : ∀ n ∈ rules, n.Plain) {text : String}
    (h : stylesheet s true rules = .ok text) {n b : Node} (hn : n ∈ rules) (hb : b.LiesIn n)
    (hne : b.block ≠ []) :
    ∃ before behind heading own nested block,
      text = before ++ block ++ behind ∧ BlockText s b heading own nested block := by
  obtain ⟨imports, -, h⟩ := exists_of_bind_eq_ok h
  obtain ⟨texts, htexts, h⟩ := exists_of_bind_eq_ok h
  cases h
  have hmem : n ∈ rules.filter (!isImport ·) :=
    List.mem_filter.mpr ⟨hn, by simp [Node.isImport_of_block_ne_nil (hb.block_ne_nil hne)]⟩
  obtain ⟨inner, before, behind, hinner, hjoin⟩ := text_of_mem htexts hmem
  obtain ⟨before', behind', heading, own, nested, block, hinner_eq, hblock⟩ :=
    exists_blockText hne hb (hplain n hn) hinner
  refine ⟨String.join (imports.map (· ++ "\n")) ++ before ++ before',
    dropLineEnds (behind' ++ behind), heading, own, nested, block, ?_, hblock⟩
  have hbrace := dropLineEnds_brace
    (String.join (imports.map (· ++ "\n")) ++ before ++ before' ++ heading ++ "\x7b" ++
      (";".intercalate own ++ String.join nested)) (behind' ++ behind)
  rw [hjoin, hinner_eq, hblock.text_eq]
  simp only [String.append_assoc] at hbrace ⊢
  exact hbrace

/-- The texts of a row with semicolons between them, cut behind one of them. -/
theorem intercalate_cut (xs : List String) (text : String) (ys : List String) :
    ∃ ahead, ";".intercalate (xs ++ text :: ys) =
      ahead ++ text ++ (if ys = [] then "" else ";" ++ ";".intercalate ys) := by
  have hcons : ";".intercalate (text :: ys) = text ++
      (if ys = [] then "" else ";" ++ ";".intercalate ys) := by
    split
    · next hys => simp [hys]
    · next hys => rw [String.intercalate_cons_of_ne_nil hys, String.append_assoc]
  by_cases hxs : xs = []
  · exact ⟨"", by rw [hxs, List.nil_append, hcons, String.empty_append]⟩
  · refine ⟨";".intercalate xs ++ ";", ?_⟩
    rw [String.intercalate_append_of_ne_nil hxs (List.cons_ne_nil _ _), hcons]
    simp only [String.append_assoc]

/-- What is behind a declaration of a block: a semicolon, or the nested rules and the closing
brace. -/
theorem BlockText.followed {b : Node} {heading text : String} {own nested : List String}
    (h : BlockText s b heading own nested text) {before after : List Node} {d : Node}
    (hd : b.block.filter Node.isDeclaration = before ++ d :: after) :
    ∃ value ahead behind, inline s d = .ok value ∧ text = ahead ++ value ++ behind ∧
      if after = [] then behind = String.join nested ++ "\x7d"
      else ∃ later, behind = ";" ++ later := by
  have hown := h.declarations
  rw [hd] at hown
  obtain ⟨xs, value, ys, rfl, hvalue, hys⟩ := texts_append hown
  obtain ⟨ahead, hcut⟩ := intercalate_cut xs value ys
  refine ⟨value, heading ++ "\x7b" ++ ahead,
    (if ys = [] then "" else ";" ++ ";".intercalate ys) ++ String.join nested ++ "\x7d",
      hvalue, ?_, ?_⟩
  · rw [h.text_eq, hcut]
    simp only [String.append_assoc]
  · by_cases hafter : after = []
    · rw [if_pos hafter, if_pos (hys.mpr hafter), String.empty_append]
    · rw [if_neg hafter, if_neg (mt hys.mp hafter)]
      exact ⟨";".intercalate ys ++ String.join nested ++ "\x7d", by simp only [String.append_assoc]⟩

/-- A block is written somewhere in a text: its heading and, in braces, the declarations with
semicolons between them and then the nested rules.  Right behind each declaration but the last one
stands a semicolon, and right behind the last one stand the nested rules and the brace that closes
the block. -/
def Separates (s : Style) (b : Node) (text : String) : Prop :=
  ∃ before behind heading own nested block,
    text = before ++ block ++ behind ∧ BlockText s b heading own nested block ∧
    ∀ (ds ds' : List Node) (d : Node), b.block.filter Node.isDeclaration = ds ++ d :: ds' →
      ∃ value ahead rest, inline s d = .ok value ∧ text = ahead ++ value ++ rest ∧
        if ds' = [] then rest = String.join nested ++ "\x7d" ++ behind
        else ∃ later, rest = ";" ++ later

/-- The text of a block separates its declarations, with anything around it. -/
theorem BlockText.separates {b : Node} {heading block : String} {own nested : List String}
    (h : BlockText s b heading own nested block) (before behind : String) :
    Separates s b (before ++ block ++ behind) := by
  refine ⟨before, behind, heading, own, nested, block, rfl, h, fun ds ds' d hd => ?_⟩
  obtain ⟨value, ahead, rest, hvalue, rfl, hrest⟩ := h.followed hd
  refine ⟨value, before ++ ahead, rest ++ behind, hvalue, by simp only [String.append_assoc], ?_⟩
  split at hrest
  · next hlast => rw [if_pos hlast, hrest]
  · next hmore =>
    obtain ⟨later, rfl⟩ := hrest
    rw [if_neg hmore]
    exact ⟨later ++ behind, by rw [String.append_assoc]⟩

end Css

namespace Ruleset

/-- **What follows the declarations in a minified stylesheet.**  Each block of an evaluated
stylesheet, at any depth, is written in the text of it with a semicolon right behind each
declaration but the last one, and right behind the last one with the nested rules and the closing
brace. -/
theorem stylesheet_separates {c : Context} {r result : Ruleset} {s : Style} {text : String}
    (hevaluate : r.evaluate c = .ok result) (htext : Css.stylesheet s true result.rules = .ok text)
    {n b : Node} (hn : n ∈ result.rules) (hb : b.LiesIn n) (hblock : b.block ≠ []) :
    Css.Separates s b text := by
  have hplain : ∀ n ∈ result.rules, n.Plain := fun n hn => (evaluate_plain hevaluate).parts n hn
  obtain ⟨before, behind, heading, own, nested, block, rfl, hwritten⟩ :=
    Css.stylesheet_block hplain htext hn hb hblock
  exact hwritten.separates before behind

/-- A rule set in an at-rule, with two declarations and another at-rule behind it. -/
theorem stylesheet_separates_supports : ∃ (r result : Ruleset) (text : String) (n b : Node),
    ofText "@supports (x:y)\x7b.a\x7bb:c;d:e\x7d@page\x7bf:g\x7d\x7d" = .ok r ∧
    r.evaluate (.ofOptions { minify := true }) = .ok result ∧
    Css.stylesheet (Options.style { minify := true }) true result.rules = .ok text ∧
    text = "@supports (x: y)\x7b.a\x7bb:c;d:e\x7d@page\x7bf:g\x7d\x7d" ∧
    n ∈ result.rules ∧ b.LiesIn n ∧ b.block.length = 2 ∧
    Css.Separates (Options.style { minify := true }) b text := by
  obtain ⟨r, result, hread, hevaluate, htest⟩ := exists_evaluated
    "@supports (x:y)\x7b.a\x7bb:c;d:e\x7d@page\x7bf:g\x7d\x7d" (.ofOptions { minify := true })
    (fun _ result => (result.rules.any fun n => n.block.any fun b => b.block.length == 2) &&
      (Css.stylesheet (Options.style { minify := true }) true result.rules).toOption ==
        some "@supports (x: y)\x7b.a\x7bb:c;d:e\x7d@page\x7bf:g\x7d\x7d")
    (by decide +kernel)
  obtain ⟨hblocks, hwritten⟩ := Bool.and_eq_true_iff.mp htest
  obtain ⟨n, hn, hnested⟩ := List.any_eq_true.mp hblocks
  obtain ⟨b, hb, hlength⟩ := List.any_eq_true.mp hnested
  have hb : b.LiesIn n := .block hb .self
  have hlength : b.block.length = 2 := beq_iff_eq.mp hlength
  have hblock : b.block ≠ [] := List.ne_nil_of_length_pos (by omega)
  cases htext : Css.stylesheet (Options.style { minify := true }) true result.rules with
  | error e =>
    rw [htext] at hwritten
    cases hwritten
  | ok text =>
    rw [htext] at hwritten
    exact ⟨r, result, text, n, b, hread, hevaluate, htext, Option.some.inj (beq_iff_eq.mp hwritten),
      hn, hb, hlength, stylesheet_separates hevaluate htext hn hb hblock⟩

/-- **Between the last declaration of a block and a nested rule there is nothing.**  A page rule
with a declaration and a margin rule: the declaration is followed neither by a semicolon nor by the
closing brace. -/
theorem stylesheet_unseparated :
    (compile { minify := true }
        "@page \x7b margin: 1cm; @top-left \x7b content: c; \x7d \x7d").toOption =
      some "@page\x7bmargin:1cm@top-left\x7bcontent:c\x7d\x7d" := by
  decide +kernel

end Ruleset

end LessCss
