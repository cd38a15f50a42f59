import LessCss.Node
import LessCss.Options

/-!
# Where a node is evaluated

A context holds the options and everything that depends on the place of a node: the parentheses and
calls around it, the selectors around it, the definitions in scope, and the variables and mixins
whose evaluation is under way.  Entering something gives a new context for what is inside; the old
one stays as it is for what follows.
-/

namespace LessCss

/-! ## Bindings -/

/-- Names with what they stand for, in the order in which the names were first bound. -/
abbrev Bindings (α : Type) := List (String × α)

namespace Bindings

/-- Binds a name; one that is bound already keeps its place in the order. -/
def put {α : Type} (b : Bindings α) (name : String) (a : α) : Bindings α :=
  match b with
  | [] => [(name, a)]
  | (n, x) :: rest => if n = name then (n, a) :: rest else (n, x) :: put rest name a

/-- Binds a name that is not bound yet. -/
def putNew {α : Type} (b : Bindings α) (name : String) (a : α) : Bindings α :=
  if (b.lookup name).isSome then b else b.put name a

/-- The bindings without those of a name. -/
def remove {α : Type} (b : Bindings α) (name : String) : Bindings α := b.filter (·.1 != name)

end Bindings

/-! ## Scopes -/

/-- The definitions of one scope. -/
structure Frame where
  values : Bindings Node := []
  mixins : Bindings Mixin := []
  deriving Repr, Inhabited

namespace Frame

/-- Takes in a rule if it defines something.  A later definition replaces an earlier one, but a rule
set only counts as a mixin where its name is still free. -/
def add (f : Frame) : Node → Frame
  | .declaration name value _ true _ => { f with values := f.values.put name value }
  | .mixin name params guard rules =>
    { f with mixins := f.mixins.put name ⟨name, params, guard, rules⟩ }
  | .ruleset selectors rules _ =>
    match Selector.callKey? selectors with
    | some key => { f with mixins := f.mixins.putNew key ⟨key, [], none, rules⟩ }
    | none => f
  | _ => f

/-- The definitions among some rules. -/
def ofRules (rules : List Node) : Frame := rules.foldl add {}

end Frame

/-! ## Contexts -/

/-- Where a node is evaluated. -/
structure Context where
  math : MathMode
  style : Style
  /-- Whether operators are carried out at all: not directly inside of `calc`. -/
  mathOn : Bool := true
  /-- Whether a `calc` is around. -/
  inCalc : Bool := false
  /-- How many parentheses that count are around. -/
  parens : Nat := 0
  /-- How many calls of mixins are around. -/
  mixinDepth : Nat := 0
  /-- The scopes around, the innermost first. -/
  frames : List Frame := []
  /-- The variables whose evaluation is under way, the innermost first. -/
  pending : List String := []
  /-- The selectors around, joined. -/
  selectors : List Selector := []
  deriving Repr

namespace Context

/-- The context of a whole stylesheet. -/
def ofOptions (o : Options) : Context := { math := o.math, style := o.style }

/-- Whether an operator is carried out here; without one, whether parentheses leave anything to
do. -/
def computes (c : Context) (op : Option Operator) : Bool :=
  c.mathOn &&
    match c.math with
    | .always => true
    | .parensDivision => op != some .div || c.parens > 0
    | .parens | .strictLegacy => c.parens > 0

/-- Inside of parentheses that count. -/
def inParens (c : Context) : Context := { c with parens := c.parens + 1 }

/-- Among the arguments of a function. -/
def inCall (c : Context) (isCalc : Bool) : Context :=
  { c with mathOn := !isCalc, inCalc := c.inCalc || isCalc }

/-- Under another math mode. -/
def withMath (c : Context) (math : MathMode) : Context := { c with math }

/-- In a scope of its own. -/
def inFrame (c : Context) (f : Frame) : Context := { c with frames := f :: c.frames }

/-- Under selectors, which are joined already. -/
def underSelectors (c : Context) (selectors : List Selector) : Context := { c with selectors }

/-- In the definition of a variable, which must not be under way already. -/
def inVariable (c : Context) (name : String) : Except Error Context :=
  if c.pending.contains name then .error (.recursiveVariable name)
  else .ok { c with pending := name :: c.pending }

/-- In the rules of a mixin, which must not nest too deep. -/
def inMixin (c : Context) (name : String) : Except Error Context :=
  if c.mixinDepth ≥ mixinDepthLimit then .error (.mixinTooDeep name)
  else .ok { c with mixinDepth := c.mixinDepth + 1 }

/-- The definition of a variable, from the innermost scope that has one. -/
def definition? (c : Context) (name : String) : Option Node :=
  c.frames.findSome? fun f => f.values.lookup name

/-- The definition of a mixin, from the innermost scope that has one. -/
def mixin? (c : Context) (name : String) : Option Mixin :=
  c.frames.findSome? fun f => f.mixins.lookup name

end Context

end LessCss
