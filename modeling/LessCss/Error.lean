import LessCss.Decimal.Shortest
import LessCss.Parser.Mismatch

/-!
# Errors

Everything that can be wrong with a stylesheet, by cause.  `Error.message` holds the wording.
-/

namespace LessCss

/-- How deep calls of mixins may nest. -/
def mixinDepthLimit : Nat := 64

/-- What is wrong with a stylesheet or with the options. -/
inductive Error
  /-- Text that is no token. -/
  | stray (stretch : Stray)
  /-- A phrase that does not fit, and where. -/
  | mismatch (mismatch : Mismatch) (offset : Nat)
  /-- A phrase that lacks a part. -/
  | missing (phrase : Phrase) (part : String) (offset : Nat)
  /-- A phrase where a statement is wanted. -/
  | unknownStatement (phrase : Phrase) (offset : Nat)
  /-- A token that is no operator. -/
  | unknownOperator (text : String) (offset : Nat)
  /-- A token that is no number. -/
  | badNumber (text : String) (offset : Nat)
  /-- A mixin that is defined or called by several selectors. -/
  | severalSelectors (offset : Nat)
  /-- A text that is no number with a unit. -/
  | notANumber (text : String)
  /-- An unknown name of a math mode. -/
  | unknownMathMode (text : String)
  /-- A variable whose definition refers to itself. -/
  | recursiveVariable (name : String)
  | undefinedVariable (name : String) (offset : Nat)
  | undefinedMixin (name : String) (offset : Nat)
  /-- A mixin that is called inside too many others. -/
  | mixinTooDeep (name : String)
  /-- A call that gives no value for a parameter without default. -/
  | missingArgument (mixin parameter : String) (offset : Nat)
  /-- A call that gives more arguments than there are parameters for, or unknown names. -/
  | argumentMismatch (mixin : String) (offset : Nat)
  /-- A number that is infinite or undefined and cannot be written. -/
  | notFinite (value : Float)
  /-- Two units between which nothing converts; the place is that of the operator, once it is
  known. -/
  | incompatibleUnits (left right : String) (offset : Option Nat)
  /-- A number whose unit is not a single one. -/
  | severalUnits (unit : String)
  /-- An evaluation that did not end within its bound. -/
  | unfinished
  deriving Repr

namespace Error

/-- The four classes of errors that callers tell apart. -/
inductive Class
  | parse
  | evaluation
  | incompatibleUnits
  | severalUnits
  deriving DecidableEq, Repr

/-- The class of an error. -/
def cls : Error → Class
  | stray _ | mismatch .. | missing .. | unknownStatement .. | unknownOperator ..
  | badNumber .. | severalSelectors _ => .parse
  | notANumber _ | unknownMathMode _ | recursiveVariable _ | undefinedVariable ..
  | undefinedMixin ..
  | mixinTooDeep _ | missingArgument .. | argumentMismatch .. | notFinite _
  | unfinished => .evaluation
  | incompatibleUnits .. => .incompatibleUnits
  | severalUnits _ => .severalUnits

/-- A place in words. -/
def place (offset : Nat) : String := " (位置 " ++ toString offset ++ ")"

/-- What an error is about. -/
def detail : Error → String
  | stray s => s.complaint ++ place s.start
  | mismatch m offset => m.complaint ++ place offset
  | missing phrase part offset => phrase.title ++ " 缺少 " ++ part ++ place offset
  | unknownStatement phrase offset => "无法识别的语句 " ++ phrase.title ++ place offset
  | unknownOperator text offset => "未知的运算符 " ++ text ++ place offset
  | badNumber text offset => "无法解析数值 " ++ text ++ place offset
  | severalSelectors offset => "mixin 只能有一个选择器" ++ place offset
  | notANumber text => "无法解析数值: " ++ text
  | unknownMathMode text => "未知的运算模式: " ++ text
  | recursiveVariable name => "变量 " ++ name ++ " 的定义是递归的"
  | undefinedVariable name offset => "变量 " ++ name ++ " 未定义" ++ place offset
  | undefinedMixin name offset => "mixin " ++ name ++ " 未定义" ++ place offset
  | mixinTooDeep name =>
    "mixin " ++ name ++ " 展开层数超过 " ++ toString mixinDepthLimit ++ "，可能存在递归调用"
  | missingArgument mixin parameter offset =>
    "调用 mixin " ++ mixin ++ " 缺少参数 " ++ parameter ++ place offset
  | argumentMismatch mixin offset => "调用 mixin " ++ mixin ++ " 的参数数量或名称不匹配" ++ place offset
  | notFinite value => "数值 " ++ Decimal.text value ++ " 无法输出为 CSS"
  | incompatibleUnits left right offset =>
    "'" ++ left ++ "' 与 '" ++ right ++ "'" ++ (offset.map place).getD ""
  | severalUnits unit => unit
  | unfinished => "求值没有结束"

/-- The report of an error. -/
def message (e : Error) : String :=
  match e.cls with
  | .parse => "解析失败: " ++ e.detail
  | .evaluation => "语义求值失败: " ++ e.detail
  | .incompatibleUnits => "单位不兼容，请修正单位或使用 unit 函数: " ++ e.detail
  | .severalUnits => "数值包含多个单位，请修正单位或使用 unit 函数: " ++ e.detail

/-- Gives an error about units its place, unless it has one. -/
def locate (offset : Nat) : Error → Error
  | incompatibleUnits left right none => incompatibleUnits left right (some offset)
  | e => e

end Error

end LessCss
