import IntoMarkdown.Lib.Grouping
import IntoMarkdown.Xls.Expression

/-! # Formulas

The trees that a sequence of operations builds, on a stack of their own, and the grammar that
spreadsheets read them with. -/

namespace IntoMarkdown.Xls
open Lib.Strings Lib.Infix

inductive BinaryOperator where
  | add | subtract | multiply | divide | power | concatenate
  | less | lessEqual | equal | greaterEqual | greater | notEqual
  | intersection | union | range
  deriving DecidableEq

namespace BinaryOperator

def text : BinaryOperator → Text
  | add => ['+']
  | subtract => ['-']
  | multiply => ['*']
  | divide => ['/']
  | power => ['^']
  | concatenate => ['&']
  | less => ['<']
  | lessEqual => ['<', '=']
  | equal => ['=']
  | greaterEqual => ['>', '=']
  | greater => ['>']
  | notEqual => ['<', '>']
  | intersection => [' ']
  | union => [',']
  | range => [':']

def precedence : BinaryOperator → Nat
  | range => 10
  | intersection => 9
  | union => 8
  | power => 5
  | multiply | divide => 4
  | add | subtract => 3
  | concatenate => 2
  | less | lessEqual | equal | greaterEqual | greater | notEqual => 1

def ofToken : Nat → Option BinaryOperator
  | 0x03 => some add
  | 0x04 => some subtract
  | 0x05 => some multiply
  | 0x06 => some divide
  | 0x07 => some power
  | 0x08 => some concatenate
  | 0x09 => some less
  | 0x0a => some lessEqual
  | 0x0b => some equal
  | 0x0c => some greaterEqual
  | 0x0d => some greater
  | 0x0e => some notEqual
  | 0x0f => some intersection
  | 0x10 => some union
  | 0x11 => some range
  | _ => none

end BinaryOperator

/-- The levels of a spreadsheet: ranges, intersections and unions bind tighter than signs, signs
tighter than percents, and percents tighter than the operators on values. -/
def levels : Levels BinaryOperator where
  level := BinaryOperator.precedence
  separator := .union
  isSign operator := operator = .add ∨ operator = .subtract
  signLevel := 7
  suffixLevel := 6
  separator_not_sign := by decide
  level_ne operator := by cases operator <;> decide
  suffixLevel_ne := by decide

abbrev Formula := Tree Text BinaryOperator

namespace Formula

/-- An atom without text is a missing argument. -/
def atom (text : Text) : Formula := if text = [] then .missing else .operand text

def isMissing : Formula → Bool
  | .missing => true
  | _ => false

def unary : Nat → Option (Formula → Formula)
  | 0x12 => some (.sign .add)
  | 0x13 => some (.sign .subtract)
  | 0x14 => some .suffix
  | 0x15 => some .group
  | _ => none

end Formula

/-- An operation on a stack of trees, its top first. -/
def Op.build (stack : List Formula) : Op → Except String (List Formula)
  | .atom text => .ok (Formula.atom text :: stack)
  | .binary token =>
    match stack with
    | right :: left :: rest =>
      if left.isMissing || right.isMissing then .error "missing-operator-operand"
      else
        match BinaryOperator.ofToken token with
        | none => .error "unsupported-operator"
        | some operator => .ok (.binary operator left right :: rest)
    | _ => .error "invalid-formula-stack"
  | .unary token =>
    match stack with
    | operand :: rest =>
      if operand.isMissing then .error "missing-operator-operand"
      else
        match Formula.unary token with
        | none => .error "unsupported-operator"
        | some operator => .ok (operator operand :: rest)
    | [] => .error "invalid-formula-stack"
  | .call name count =>
    if stack.length < count then .error "invalid-function-arguments"
    else .ok (.call name (stack.take count).reverse :: stack.drop count)

/-- The trees that a sequence of operations leaves on the stack. -/
def build (ops : List Op) : Except String (List Formula) := ops.foldlM Op.build []

/-! ## Texts -/

def tokenText : Token Text BinaryOperator → Text
  | .operand text => text
  | .call name => name ++ ['(']
  | .lparen => ['(']
  | .rparen => [')']
  | .suffix => ['%']
  | .op operator => operator.text

def flat (tokens : List (Token Text BinaryOperator)) : Text := tokens.flatMap tokenText

@[simp] theorem flat_nil : flat [] = [] := rfl

@[simp] theorem flat_cons (token : Token Text BinaryOperator)
    (tokens : List (Token Text BinaryOperator)) :
    flat (token :: tokens) = tokenText token ++ flat tokens := rfl

@[simp] theorem flat_append (a b : List (Token Text BinaryOperator)) :
    flat (a ++ b) = flat a ++ flat b := List.flatMap_append

namespace Formula

/-- The tokens that stand for a formula as an operand of a level. -/
def tokensAt (level : Nat) (formula : Formula) : List (Token Text BinaryOperator) :=
  (Tree.enclosed (levels.below level formula) (levels.grouped formula)).write .union

def tokens (formula : Formula) : List (Token Text BinaryOperator) :=
  (levels.grouped formula).write .union

mutual

/-- What the arena counts for the nodes of a formula. -/
def bytes : Formula → Nat
  | .missing => 2
  | .operand text => byteLength text + 2
  | .binary operator left right => bytes left + bytes right + (byteLength operator.text + 2)
  | .sign operator body => bytes body + (byteLength operator.text + 2)
  | .suffix body => bytes body + 3
  | .group body => bytes body + 4
  | .call name arguments => bytesAll arguments + (byteLength name + 2 + arguments.length + 2)

def bytesAll : List Formula → Nat
  | [] => 0
  | formula :: rest => bytes formula + bytesAll rest

end

end Formula

end IntoMarkdown.Xls
