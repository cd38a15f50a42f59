import LessCss.Evaluation
import LessCss.Proofs.Evaluation.Results

/-!
# Which errors the steps of evaluation raise

Evaluation within a bound may fail because the bound is exhausted.  Nothing else fails in that way:
not writing a value, not arithmetic, and not binding the arguments of a call.  And units that do not
fit are an error of arithmetic alone, which has no place at first and gets that of its operator.
All other steps raise *ordinary* errors only.
-/

namespace LessCss

/-- An error other than an exhausted bound, and other than units that do not fit. -/
structure Error.Ordinary (e : Error) : Prop where
  finished : e ≠ .unfinished
  units : e.cls ≠ .incompatibleUnits

/-- Units that do not fit, at an offset if it is known. -/
def Error.IsMisfit (offset : Option Nat) (e : Error) : Prop :=
  ∃ left right, e = .incompatibleUnits left right offset

/-- Whether it is such an error. -/
def Error.isMisfit (offset : Option Nat) : Error → Bool
  | incompatibleUnits _ _ place => place == offset
  | _ => false

/-- An error passes the test for a misfit at a place just if it is one. -/
theorem Error.isMisfit_iff {offset : Option Nat} {e : Error} : e.isMisfit offset = true ↔
    e.IsMisfit offset := by
  cases e with
  | incompatibleUnits left right place => simp [isMisfit, IsMisfit]
  | _ => simp [isMisfit, IsMisfit]

theorem Error.ordinary_undefinedVariable (name : String) (offset : Nat) :
    (Error.undefinedVariable name offset).Ordinary := ⟨nofun, nofun⟩

theorem Error.ordinary_undefinedMixin (name : String) (offset : Nat) :
    (Error.undefinedMixin name offset).Ordinary := ⟨nofun, nofun⟩

/-- What fails in ordinary ways only has finished. -/
theorem Finished.of_ordinary {α : Type} {x : Except Error α} (h : Fails x Error.Ordinary) :
    Finished x :=
  .of_fails h fun h => h.finished rfl

/-! ## Writing -/

theorem Dimension.render_fails (s : Style) (d : Dimension) : Fails (d.render s) Error.Ordinary := by
  unfold render
  split
  · exact .error ⟨nofun, nofun⟩
  · split
    · exact .error ⟨nofun, nofun⟩
    · exact .ok _

namespace Css

mutual
theorem render_fails (s : Style) :
    ∀ (layout : Option Layout) (n : Node), Fails (render s layout n) Error.Ordinary
  | _, .dimension d => .bind (d.render_fails s) fun _ => .ok _
  | _, .expression items _ _ _ => .bind (renderEach_fails s items) fun _ => .ok _
  | _, .list items => .bind (renderEach_fails s items) fun _ => .ok _
  | _, .paren inner => .bind (render_fails s none inner) fun _ => .ok _
  | _, .comment .. => .ok _
  | _, .keyword _ => .ok _
  | _, .quoted .. => .ok _
  | _, .url _ => .ok _
  | _, .reference .. => .ok _
  | _, .operation _ left right _ _ =>
    .bind (render_fails s none left) fun _ => .bind (render_fails s none right) fun _ => .ok _
  | _, .negative inner => .bind (render_fails s none inner) fun _ => .ok _
  | _, .call _ args _ => .bind (renderEach_fails s args) fun _ => .ok _
  | none, .declaration _ value _ _ _ => .bind (render_fails s none value) fun _ => .ok _
  | some _, .declaration _ value _ _ _ => .bind (render_fails s none value) fun _ => .ok _
  | _, .selector _ => .ok _
  | layout, .ruleset _ rules _ => by
    unfold render
    dsimp only
    split
    · exact .ok _
    · exact .bind (ownLines_fails s _ rules) fun _ => .bind (nestedText_fails s _ rules)
        fun _ => .ok _
  | layout, .media features rules => by
    unfold render
    dsimp only
    split
    · exact .ok _
    · exact .bind (render_fails s none features) fun _ => .bind (ownLines_fails s _ rules) fun _ =>
        .bind (nestedText_fails s _ rules) fun _ => .ok _
  | _, .atRule _ header (some rules) =>
    .bind (renderHeader_fails s header) fun _ => .bind (ownLines_fails s _ rules) fun _ =>
      .bind (nestedText_fails s _ rules) fun _ => .ok _
  | _, .atRule _ header none => .bind (renderHeader_fails s header) fun _ => .ok _
  | _, .importRule path none _ => .bind (render_fails s none path) fun _ => .ok _
  | _, .importRule path (some features) _ =>
    .bind (render_fails s none path) fun _ => .bind (render_fails s none features) fun _ => .ok _
  | _, .mixin .. => .ok _
  | _, .mixinCall .. => .ok _
  | _, .argument _ value => .bind (render_fails s none value) fun _ => .ok _
theorem renderEach_fails (s : Style) :
    ∀ nodes : List Node, Fails (renderEach s nodes) Error.Ordinary
  | [] => .ok _
  | node :: nodes =>
    .bind (render_fails s none node) fun _ => .bind (renderEach_fails s nodes) fun _ => .ok _
theorem renderHeader_fails (s : Style) :
    ∀ header : Option Node, Fails (renderHeader s header) Error.Ordinary
  | none => .ok _
  | some header => render_fails s none header
theorem ownLines_fails (s : Style) (l : Layout) :
    ∀ nodes : List Node, Fails (ownLines s l nodes) Error.Ordinary
  | [] => .ok _
  | .declaration _ value _ _ _ :: nodes =>
    .bind (render_fails s none value) fun _ => .bind (ownLines_fails s l nodes) fun _ => .ok _
  | .comment .. :: nodes => .bind (ownLines_fails s l nodes) fun _ => .ok _
  | .dimension _ :: nodes | .expression .. :: nodes | .list _ :: nodes | .paren _ :: nodes
  | .keyword _ :: nodes | .quoted .. :: nodes | .url _ :: nodes | .reference .. :: nodes
  | .operation .. :: nodes | .negative _ :: nodes | .call .. :: nodes | .selector _ :: nodes
  | .ruleset .. :: nodes | .atRule .. :: nodes | .media .. :: nodes | .importRule .. :: nodes
  | .mixin .. :: nodes | .mixinCall .. :: nodes | .argument .. :: nodes => ownLines_fails s l nodes
theorem nestedText_fails (s : Style) (l : Layout) :
    ∀ nodes : List Node, Fails (nestedText s l nodes) Error.Ordinary
  | [] => .ok _
  | node :: nodes => by
    unfold nestedText
    split
    · exact nestedText_fails s l nodes
    · exact .bind (render_fails s (some l) node) fun _ => .bind (nestedText_fails s l nodes)
        fun _ => .ok _
end

end Css

/-! ## Arithmetic -/

/-- Units have to fit in sums and differences only. -/
theorem Dimension.operate_fails (op : Operator) (strict : Bool) (a b : Dimension) :
    Fails (Dimension.operate op strict a b) fun e => (op = .add ∨ op = .sub) ∧ e.IsMisfit none := by
  have hcombine : ∀ op, Fails (combine op strict a b) (Error.IsMisfit none) := by
    intro op
    unfold combine
    dsimp only
    split
    · exact .ok _
    · split
      · exact .ok _
      · split
        · exact .error ⟨_, _, rfl⟩
        · exact .ok _
  cases op with
  | add => exact (hcombine .add).mono fun _ he => ⟨.inl rfl, he⟩
  | sub => exact (hcombine .sub).mono fun _ he => ⟨.inr rfl, he⟩
  | mul => exact .ok _
  | div => exact .ok _

namespace Evaluation

/-- Units that do not fit get the place of their operator. -/
theorem operation_fails (c : Context) (op : Operator) (left right : Node) (spaced : Bool)
    (offset : Nat) :
    Fails (operation c op left right spaced offset) fun e =>
      (op = .add ∨ op = .sub) ∧ e.IsMisfit (some offset) := by
  unfold operation
  split
  · refine .bind (.mapError (Dimension.operate_fails _ _ _ _) fun e he => ?_) fun _ => .ok _
    obtain ⟨hop, left, right, rfl⟩ := he
    exact ⟨hop, left, right, rfl⟩
  · exact .ok _

/-- A product always has a result, so that a negative does. -/
theorem negative_succeeds (c : Context) (value : Node) : Succeeds (negative c value) := by
  unfold negative
  split
  · exact .ok _
  · exact .ok _

/-- Carrying out an operation always finishes. -/
theorem operation_finished (c : Context) (op : Operator) (left right : Node) (spaced : Bool)
    (offset : Nat) : Finished (operation c op left right spaced offset) := by
  refine .of_fails (operation_fails c op left right spaced offset) fun h => ?_
  obtain ⟨-, left, right, h⟩ := h
  cases h

theorem bareText_fails (s : Style) (n : Node) : Fails (bareText s n) Error.Ordinary := by
  unfold bareText
  split
  · exact .ok _
  · exact Css.render_fails s none _

theorem builtin_fails (s : Style) (name : String) (args : List Node) :
    Fails (builtin s name args) Error.Ordinary := by
  unfold builtin
  split
  · exact .ok _
  · exact .ok _
  · unfold changeUnit
    split
    · exact .ok _
    · exact .bind (bareText_fails s _) fun _ => .ok _
    · exact .ok _
  · exact .ok _
  · exact .ok _

/-! ## Calls -/

theorem inVariable_fails (c : Context) (name : String) :
    Fails (c.inVariable name) Error.Ordinary := by
  unfold Context.inVariable
  split
  · exact .error ⟨nofun, nofun⟩
  · exact .ok _

theorem inMixin_fails (c : Context) (name : String) : Fails (c.inMixin name) Error.Ordinary := by
  unfold Context.inMixin
  split
  · exact .error ⟨nofun, nofun⟩
  · exact .ok _

theorem bindParameters_fails (mixin : String) (offset : Nat)
    (params : List (Option String × Option Node)) (positional : List Node)
    (named bound : Bindings Node) :
    Fails (bindParameters mixin offset params positional named bound) Error.Ordinary := by
  fun_induction bindParameters mixin offset params positional named bound with
  | case1 => exact .ok _
  | case2 => exact .error ⟨nofun, nofun⟩
  | case3 _ _ _ _ _ ih | case4 _ _ _ _ _ _ _ _ ih | case5 _ _ _ _ _ _ _ _ ih
  | case6 _ _ _ _ _ _ ih =>
    exact ih
  | case7 => exact .error ⟨nofun, nofun⟩

theorem argumentFrame_fails (m : Mixin) (mixin : String) (offset : Nat)
    (args : List (Option String × Node)) :
    Fails (argumentFrame m mixin offset args) Error.Ordinary :=
  .bind (bindParameters_fails _ _ _ _ _ _) fun _ => .ok _

end Evaluation

end LessCss
