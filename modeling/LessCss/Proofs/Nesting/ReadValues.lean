import LessCss.Proofs.Evaluation.Standards
import LessCss.Proofs.Nesting.Reading

/-!
# What is read wherever values stand

What holds of all values that can be read from trees of some sort (`Reading.ReadsValues`) holds of
the values in a stylesheet that was read from such a tree, in all places and at any depth: in
properties, heads and definitions, and in the parameters, arguments and rules of mixins
(`Ruleset.meets_ofText`).
-/

namespace LessCss

open Node

namespace Reading

/-- A property of values that all values have that are read from trees of some sort. -/
structure ReadsValues (T : Tree → Prop) (V : Node → Prop) : Prop where
  child : ∀ {t u : Tree}, T t → u ∈ t.children → T u
  isValue : ∀ {n}, V n → n.IsValue
  row : ∀ {values : List Node}, (∀ v ∈ values, V v) → V (.row values)
  keyword : ∀ text, V (.keyword text)
  value : ∀ {t}, T t → t.phrase? = some .value → Ensures (value t) V
  expression : ∀ {t}, T t → t.phrase? = some .expression → Ensures (expression t) V
  mediaList : ∀ {t}, T t → Ensures (mediaList t) V
  importPath : ∀ {x n}, T (.leaf x) → importPath? x = some n → V n

/-- Properties of nodes that what is read has. -/
theorem ReadsNodes.readsValues {X : Token → Prop} {K : Node → Prop} (hK : ReadsNodes X K) :
    ReadsValues (Tree.MadeOf X) (IsValueOf K) where
  child ht hu := ht.child hu
  isValue h := h.1
  row := hK.isValueOf_row
  keyword := hK.isValueOf_keyword
  value ht _ := value_isValueOf hK ht
  expression ht _ := expression_isValueOf hK _ ht
  mediaList := mediaList_isValueOf hK
  importPath hx := importPath?_isValueOf hK hx.token

variable {T : Tree → Prop} {V : Node → Prop} (hV : ReadsValues T V)

/-- All values, wherever they stand, have a property that all values have that are read. -/
def ReadsValues.standard {T : Tree → Prop} {V : Node → Prop} (hV : ReadsValues T V) : Standard :=
  .ofValues V hV.row

include hV

namespace ReadsValues

/-- From one property to a weaker one. -/
theorem mono {W : Node → Prop} (h : ∀ n, V n → W n) (isValue : ∀ {n}, W n → n.IsValue)
    (row : ∀ {values : List Node}, (∀ v ∈ values, W v) → W (.row values)) : ReadsValues T W where
  child := hV.child
  isValue := isValue
  row := row
  keyword text := h _ (hV.keyword text)
  value ht hphrase n hn := h n (hV.value ht hphrase n hn)
  expression ht hphrase n hn := h n (hV.expression ht hphrase n hn)
  mediaList ht n hn := h n (hV.mediaList ht n hn)
  importPath hx hpath := h _ (hV.importPath hx hpath)

/-- A value holds no rules. -/
theorem throughout {n : Node} (h : V n) :
    n.Throughout fun m => hV.standard.rule m ∧ m.Suits hV.standard := by
  intro m hm
  have hvalue : m.IsValue := hm.inherits (fun _ => IsValue.parts) (hV.isValue h)
  exact ⟨trivial, hvalue.suits⟩

/-- A part of a phrase. -/
theorem node? {t u : Tree} {p : Phrase} (ht : T t) (hu : t.node? p = some u) :
    T u ∧ u.phrase? = some p := by
  obtain ⟨hmem, hphrase⟩ := List.mem_filter.mp (List.mem_of_head? hu)
  exact ⟨hV.child ht hmem, beq_iff_eq.mp hphrase⟩

/-- The value in an argument or a definition is read as values are. -/
theorem valueIn {t : Tree} (ht : T t) : Ensures (valueIn t) V := by
  unfold Reading.valueIn
  split
  · next hv =>
    obtain ⟨hv, hphrase⟩ := hV.node? ht hv
    exact hV.value hv hphrase
  · exact missing_ensures _ _

theorem argumentValue {t : Tree} (ht : T t) : Ensures (argumentValue t) V := by
  unfold Reading.argumentValue
  split
  · next he =>
    obtain ⟨he, hphrase⟩ := hV.node? ht he
    exact hV.expression he hphrase
  · exact missing_ensures _ _

/-! ## Statements without block -/

/-- A declaration of a value that has the property meets the standard. -/
theorem declaration_meets {name : String} {value : Node} {important isVariable : Bool}
    {offset : Nat} (h : V value) :
    (Node.declaration name value important isVariable offset).Meets hV.standard := by
  refine ⟨rfl, throughout_iff.mpr ⟨⟨trivial, ?_⟩, List.forall_mem_singleton.mpr (hV.throughout h)⟩⟩
  cases isVariable with
  | true => exact h
  | false => exact h

theorem assignment_meets {t : Tree} (ht : T t) : Ensures (assignment t) (Meets hV.standard) := by
  unfold assignment
  split
  · exact missing_ensures _ _
  · refine .bind (hV.valueIn ht) fun content hcontent => .ok (hV.declaration_meets ?_)
    split
    · exact hV.row
        (List.forall_mem_cons.mpr ⟨hcontent, List.forall_mem_singleton.mpr (hV.keyword _)⟩)
    · exact hcontent

theorem readDeclaration_meets (source : List Char) {t : Tree} (ht : T t) :
    Ensures (declaration source t) (Meets hV.standard) := by
  unfold declaration
  split
  · exact missing_ensures _ _
  · exact .bind (hV.valueIn ht) fun content hcontent => .ok (hV.declaration_meets hcontent)

theorem importRule_meets {t : Tree} (ht : T t) : Ensures (importRule t) (Meets hV.standard) := by
  unfold importRule
  have hfeatures : Ensures ((t.node? .mediaList).mapM Reading.mediaList) fun h => ∀ n ∈ h, V n := by
    cases hqueries : t.node? .mediaList with
    | none => exact .ok nofun
    | some queries =>
      refine .bind (hV.mediaList (hV.node? ht hqueries).1) fun features hf => .ok ?_
      rintro n hn
      cases hn
      exact hf
  refine .bind hfeatures fun features hf => ?_
  split
  · next path hpath =>
    obtain ⟨token, htoken, hpath⟩ := List.exists_of_findSome?_eq_some hpath
    have hpath := hV.importPath (hV.child ht (Tree.mem_tokens.mp htoken)) hpath
    refine .ok ⟨rfl, throughout_iff.mpr ⟨⟨trivial, hpath, hf⟩, ?_⟩⟩
    refine List.forall_mem_cons.mpr ⟨hV.throughout hpath, fun n hn => ?_⟩
    exact hV.throughout (hf n (Option.mem_toList.mp hn))
  · exact missing_ensures _ _

/-- The header of an at-rule has the property. -/
theorem header_reads (source : List Char) {t : Tree} (ht : T t) :
    Ensures (header source t) fun h => ∀ n ∈ h, V n := by
  unfold header
  split
  · next hvalue =>
    obtain ⟨hvalue, hphrase⟩ := hV.node? ht hvalue
    refine .bind (hV.value hvalue hphrase) fun v hv => .ok ?_
    rintro n hn
    cases hn
    exact hv
  · refine .ok ?_
    unfold rawHeader
    dsimp only
    split
    · rintro n hn
      cases hn
      exact hV.keyword _
    · rintro n hn
      cases hn

theorem mediaFeatures_reads {t : Tree} (ht : T t) : Ensures (mediaFeatures t) V := by
  unfold mediaFeatures
  split
  · next hqueries => exact hV.mediaList (hV.node? ht hqueries).1
  · exact missing_ensures _ _

/-! ## Mixins -/

/-- The values of the arguments of a call have the property. -/
theorem callArguments_reads {t : Tree} (ht : T t) : Ensures (callArguments t) fun args =>
    ∀ a ∈ args, ∃ name value, a = .argument name value ∧ V value := by
  refine .mapM fun a ha => ?_
  have hargument := hV.argumentValue (hV.child ht (List.mem_filter.mp ha).1)
  exact .bind hargument fun value hvalue => .ok ⟨_, value, rfl, hvalue⟩

/-- A call of arguments that have the property meets the standard. -/
theorem call_meets {name : String} {args : List Node} {important : Bool} {offset : Nat}
    (h : ∀ a ∈ args, ∃ name value, a = .argument name value ∧ V value) :
    (Node.mixinCall name args important offset).Meets hV.standard := by
  refine ⟨rfl, throughout_iff.mpr ⟨⟨trivial, h⟩, fun a ha => ?_⟩⟩
  obtain ⟨name, value, rfl, hvalue⟩ := h a ha
  exact throughout_iff.mpr
    ⟨⟨trivial, trivial⟩, List.forall_mem_singleton.mpr (hV.throughout hvalue)⟩

theorem withoutBlock_meets {t : Tree} (ht : T t) (selectors : List Selector) :
    Ensures (withoutBlock t selectors) (Meets hV.standard) := by
  unfold withoutBlock
  split
  · next hargs =>
    have harguments := hV.callArguments_reads (hV.node? ht hargs).1
    exact .seq fun name => .bind harguments fun args hargs => .ok (hV.call_meets hargs)
  · split
    · exact .ok
        ⟨rfl, throughout_iff.mpr ⟨⟨trivial, rfl, List.forall_mem_nil _⟩, List.forall_mem_nil _⟩⟩
    · exact .seq fun name => .ok (hV.call_meets (List.forall_mem_nil _))

/-- The default of a parameter has the property. -/
theorem parameter_reads {t : Tree} (ht : T t) : Ensures (parameter t) fun p => ∀ v ∈ p.2, V v := by
  refine .bind (hV.argumentValue ht) fun content hcontent => ?_
  have hsome : ∀ v ∈ some content, V v := by
    rintro v hv
    cases hv
    exact hcontent
  split
  · exact .ok hsome
  · exact .ok nofun
  · exact .ok hsome

/-- The defaults of the parameters of a mixin have the property. -/
theorem definition_reads (source : List Char) (t : Tree) {args : Tree} (hargs : T args)
    (selectors : List Selector) :
    Ensures (definition source t args selectors) fun m => ∀ p ∈ m.params, ∀ v ∈ p.2, V v := by
  unfold definition
  refine .seq fun name => .bind ?_ fun params hparams => .ok hparams
  exact .mapM fun p hp => hV.parameter_reads (hV.child hargs (List.mem_filter.mp hp).1)

/-! ## Blocks -/

omit hV in
theorem required_ensures {P : List Node → Prop} (t : Tree) {rules : Option (List Node)}
    (h : ∀ ns ∈ rules, P ns) : Ensures (required t rules) P := by
  cases rules with
  | none => exact missing_ensures _ _
  | some rules => exact .ok (h rules rfl)

/-- The parts of a rule with a block. -/
theorem block_meets {n : Node} {values rules : List Node} (hn : n.isStatement)
    (hsuits : n.Suits hV.standard) (hparts : n.parts ⊆ values ++ rules)
    (hvalues : ∀ v ∈ values, V v) (hrules : ∀ m ∈ rules, m.Meets hV.standard) :
    n.Meets hV.standard := by
  refine ⟨hn, throughout_iff.mpr ⟨⟨trivial, hsuits⟩, fun m hm => ?_⟩⟩
  rcases List.mem_append.mp (hparts hm) with hm | hm
  · exact hV.throughout (hvalues m hm)
  · exact (hrules m hm).suits

mutual
/-- Every statement that is read meets the standard, by induction on the tree. -/
theorem statement_meets (source : List Char) (t : Tree) (ht : T t) :
    Ensures (statement source t) fun n => ∀ m ∈ n, m.Meets hV.standard := by
  have hsome {n : Node} (h : n.Meets hV.standard) : ∀ m ∈ some n, m.Meets hV.standard := by
    rintro m hm
    cases hm
    exact h
  unfold statement
  split
  · exact Ensures.map (hV.assignment_meets ht) fun _ => hsome
  · exact Ensures.map (hV.readDeclaration_meets source ht) fun _ => hsome
  · next list parts =>
    have hparts : ∀ u ∈ parts, T u := fun u hu => hV.child ht (List.mem_cons_of_mem _ hu)
    refine .seq fun selectors => ?_
    split
    · exact .bind (hV.withoutBlock_meets ht selectors) fun n hn => .ok (hsome hn)
    · split
      · next hargs =>
        refine .bind (hV.definition_reads source _ (hV.node? ht hargs).1 selectors)
          fun mixin hmixin => ?_
        refine .bind (blockIn_meets source parts hparts) fun block hblock => ?_
        refine .bind (required_ensures _ hblock) fun rules hrules => .ok (hsome ?_)
        refine hV.block_meets rfl ⟨fun p hp => ⟨fun _ _ => trivial, hmixin p hp⟩,
          fun n hn => (hrules n hn).isStatement⟩ (List.Subset.refl _) ?_ hrules
        intro v hv
        obtain ⟨p, hp, hv⟩ := List.mem_filterMap.mp hv
        exact hmixin p hp v hv
      · refine .bind (blockIn_meets source parts hparts) fun block hblock => ?_
        refine .bind (required_ensures _ hblock) fun rules hrules => .ok (hsome ?_)
        exact hV.block_meets rfl ⟨rfl, fun n hn => (hrules n hn).isStatement⟩
          (List.subset_append_right [] rules) nofun hrules
  · exact Ensures.map (hV.importRule_meets (hV.child ht List.mem_cons_self)) fun _ => hsome
  · exact .ok nofun
  · next parts =>
    have hrule := hV.child ht List.mem_cons_self
    refine .bind (hV.mediaFeatures_reads hrule) fun features hfeatures => ?_
    refine .bind (blockIn_meets source parts fun u hu => hV.child hrule hu) fun block hblock => ?_
    refine .bind (required_ensures _ hblock) fun rules hrules => .ok (hsome ?_)
    exact hV.block_meets rfl ⟨hfeatures, fun n hn => (hrules n hn).isStatement⟩
      (List.Subset.refl (features :: rules)) (List.forall_mem_singleton.mpr hfeatures) hrules
  · next parts =>
    have hrule := hV.child ht List.mem_cons_self
    refine .bind (hV.header_reads source hrule) fun content hcontent => ?_
    refine .bind (blockIn_meets source parts fun u hu => hV.child hrule hu) fun block hblock => ?_
    split
    · have hrules : ∀ n ∈ block.getD [], n.Meets hV.standard := by
        cases block with
        | none => exact nofun
        | some rules => exact hblock rules rfl
      refine .ok (hsome (hV.block_meets rfl ⟨hcontent, fun n hn => (hrules n hn).isStatement⟩
        (List.Subset.refl _) ?_ hrules))
      exact fun v hv => hcontent v (Option.mem_toList.mp hv)
    · exact missing_ensures _ _
  · exact .error
termination_by sizeOf t
theorem statements_meet (source : List Char) (ts : List Tree) (hts : ∀ t ∈ ts, T t) :
    Ensures (statements source ts) fun ns => ∀ n ∈ ns, n.Meets hV.standard := by
  unfold statements
  split
  · exact .ok nofun
  · next t ts =>
    obtain ⟨ht, hts⟩ := List.forall_mem_cons.mp hts
    refine .bind (statement_meets source t ht) fun head hhead => ?_
    refine .bind (statements_meet source ts hts) fun rest hrest => .ok ?_
    exact List.forall_mem_append.mpr ⟨fun n hn => hhead n (Option.mem_toList.mp hn), hrest⟩
termination_by sizeOf ts
theorem blockIn_meets (source : List Char) (ts : List Tree) (hts : ∀ t ∈ ts, T t) :
    Ensures (blockIn source ts) fun block => ∀ ns ∈ block, ∀ n ∈ ns, n.Meets hV.standard := by
  unfold blockIn
  split
  · exact .ok nofun
  · next inner _ _ =>
    have hbody : T (.node _ inner) := hV.child (hts _ List.mem_cons_self) (.tail _ (.head _))
    refine Ensures.map (statements_meet source inner fun t ht => hV.child hbody ht)
      fun rules hrules => ?_
    rintro ns hns
    cases hns
    exact hrules
  · next ts _ => exact blockIn_meets source ts fun t ht => hts t (List.mem_cons_of_mem _ ht)
termination_by sizeOf ts
end

end ReadsValues

end Reading

/-- A text without complaint is one without stray stretches and mismatches. -/
theorem Parse.clean_of_firstError? {p : Parse} (h : p.firstError? = none) :
    p.strays = [] ∧ p.mismatches = [] := by
  unfold firstError? at h
  split at h
  · cases h
  · cases h
  · exact ⟨by assumption, by assumption⟩

/-- A text that is read has no complaints, and what is read are its statements. -/
theorem Ruleset.exists_of_ofText {source : String} {sheet : Ruleset}
    (h : Ruleset.ofText source = .ok sheet) :
    (Parse.ofText source).strays = [] ∧ (Parse.ofText source).mismatches = [] ∧
      Reading.statements source.toList (Parse.ofText source).tree.children = .ok sheet.rules := by
  unfold Ruleset.ofText at h
  dsimp only at h
  split at h
  · cases h
  · next hnone =>
    obtain ⟨hstrays, hmismatches⟩ := Parse.clean_of_firstError? hnone
    obtain ⟨rules, hrules, h⟩ := exists_of_bind_eq_ok h
    cases h
    exact ⟨hstrays, hmismatches, hrules⟩

/-- **What holds of all values that are read holds of all values in a stylesheet that was read.** -/
theorem Ruleset.meets_ofText {T : Tree → Prop} {V : Node → Prop} (hV : Reading.ReadsValues T V)
    {source : String} (hT : ∀ t ∈ (Parse.ofText source).tree.children, T t) {r : Ruleset}
    (h : Ruleset.ofText source = .ok r) :
    ∃ rules, r = .ofRules rules ∧ ∀ n ∈ rules, n.Meets hV.standard := by
  unfold Ruleset.ofText at h
  dsimp only at h
  split at h
  · cases h
  · obtain ⟨rules, hrules, h⟩ := exists_of_bind_eq_ok h
    cases h
    exact ⟨rules, rfl, hV.statements_meet _ _ hT rules hrules⟩

end LessCss
