import IntoMarkdown.Lib.Strings

/-! # Expression

The bounded arena in which the tokens of a spreadsheet formula, given in
reverse Polish order, become one infix text. Nodes refer to earlier nodes by
their index; rendering walks them with a stack of pending outputs. -/

namespace IntoMarkdown.Xls
open Lib.Strings

inductive Node where
  | atom (text : Text)
  | binary (left right : Nat) (operator : Text) (precedence : Nat)
  | unary (child : Nat) (prefixText suffix : Text) (precedence : Nat)
  | call (name : Text) (first last : Nat)
  deriving DecidableEq

def Node.precedence : Node → Nat
  | .binary _ _ _ precedence | .unary _ _ _ precedence => precedence
  | .atom _ | .call _ _ _ => 11

/-- `stack` has its top first. -/
structure Expression where
  nodes : List Node := []
  stack : List Nat := []
  arguments : List Nat := []
  bytes : Nat := 0

inductive Output where
  | node (index parent : Nat)
  | text (text : Text)

namespace Expression

def isMissing (e : Expression) (index : Nat) : Bool :=
  match e.nodes[index]? with
  | some (.atom text) => text.isEmpty
  | _ => false

/-- Two parentheses per node suffice even when every edge needs grouping. -/
def push (e : Expression) (node : Node) (bytes : Nat) : Expression :=
  { e with
    nodes := e.nodes ++ [node]
    stack := e.nodes.length :: e.stack
    bytes := e.bytes + (bytes + 2) }

def atom (e : Expression) (text : Text) : Expression :=
  e.push (.atom text) (byteLength text)

end Expression

/-- The operator and the precedence of a binary token. -/
def binaryToken : Nat → Option (Text × Nat)
  | 0x03 => some (['+'], 3)
  | 0x04 => some (['-'], 3)
  | 0x05 => some (['*'], 4)
  | 0x06 => some (['/'], 4)
  | 0x07 => some (['^'], 5)
  | 0x08 => some (['&'], 2)
  | 0x09 => some (['<'], 1)
  | 0x0a => some (['<', '='], 1)
  | 0x0b => some (['='], 1)
  | 0x0c => some (['>', '='], 1)
  | 0x0d => some (['>'], 1)
  | 0x0e => some (['<', '>'], 1)
  | 0x0f => some ([' '], 9)
  | 0x10 => some ([','], 8)
  | 0x11 => some ([':'], 10)
  | _ => none

/-- What a unary token writes before and after its operand, and its precedence. -/
def unaryToken : Nat → Option (Text × Text × Nat)
  | 0x12 => some (['+'], [], 7)
  | 0x13 => some (['-'], [], 7)
  | 0x14 => some ([], ['%'], 6)
  | 0x15 => some (['('], [')'], 11)
  | _ => none

namespace Expression

def binary (e : Expression) (token : Nat) : Except String Expression :=
  match e.stack with
  | right :: left :: stack =>
    if e.isMissing left || e.isMissing right then .error "missing-operator-operand"
    else
      match binaryToken token with
      | none => .error "unsupported-operator"
      | some (operator, precedence) =>
        .ok ({ e with stack }.push (.binary left right operator precedence) (byteLength operator))
  | _ => .error "invalid-formula-stack"

def unary (e : Expression) (token : Nat) : Except String Expression :=
  match e.stack with
  | child :: stack =>
    if e.isMissing child then .error "missing-operator-operand"
    else
      match unaryToken token with
      | none => .error "unsupported-operator"
      | some (prefixText, suffix, precedence) =>
        .ok ({ e with stack }.push (.unary child prefixText suffix precedence)
          (byteLength prefixText + byteLength suffix))
  | [] => .error "invalid-formula-stack"

/-- The arguments leave the stack in the order they were pushed. -/
def call (e : Expression) (name : Text) (count : Nat) : Except String Expression :=
  if e.stack.length < count then .error "invalid-function-arguments"
  else
    let drained :=
      { e with
        stack := e.stack.drop count
        arguments := e.arguments ++ (e.stack.take count).reverse }
    .ok (drained.push (.call name e.arguments.length drained.arguments.length)
      (byteLength name + 2 + count))

def capacity (e : Expression) : Nat := e.bytes

def isUnion (e : Expression) (index : Nat) : Bool :=
  match e.nodes[index]? with
  | some (.binary _ _ operator _) => operator == [',']
  | _ => false

/-- The arguments from the last to the first, with a comma before each but the first. -/
def expandArguments (e : Expression) (arguments : List Nat) (pending : List Output) :
    List Output :=
  arguments.zipIdx.foldr (fun argument pending =>
    let pushed := .node argument.1 (if e.isUnion argument.1 then 9 else 0) :: pending
    if argument.2 ≠ 0 then .text [','] :: pushed else pushed) pending

/-- What a node leaves on the pending stack, its top first. -/
def expand (e : Expression) (node : Node) (pending : List Output) : List Output :=
  match node with
  | .atom text => .text text :: pending
  | .binary left right operator precedence =>
    .node left precedence :: .text operator :: .node right (precedence + 1) :: pending
  | .unary child prefixText suffix precedence =>
    .text prefixText :: .node child (if prefixText = ['('] then 0 else precedence) ::
      .text suffix :: pending
  | .call name first last =>
    .text name :: .text ['('] ::
      e.expandArguments ((e.arguments.drop first).take (last - first)) (.text [')'] :: pending)

/-- The loop of `render`; an index outside the arena, or no fuel, gives `none`. -/
def renderLoop (e : Expression) : Nat → List Output → Text → Option Text
  | 0, _, _ => none
  | _ + 1, [], output => some output
  | fuel + 1, .text text :: pending, output => e.renderLoop fuel pending (output ++ text)
  | fuel + 1, .node index parent :: pending, output =>
    match e.nodes[index]? with
    | none => none
    | some node =>
      if node.precedence < parent then
        e.renderLoop fuel (e.expand node (.text [')'] :: pending)) (output ++ ['('])
      else e.renderLoop fuel (e.expand node pending) output

/-- Each edge is visited once, so two turns for each byte of the capacity are enough. -/
def render (e : Expression) : Option (Except String Text) :=
  match e.stack with
  | [root] =>
    if e.isMissing root then some (.error "invalid-formula-stack")
    else (e.renderLoop (2 * e.bytes + 1) [.node root 0] []).map .ok
  | _ => some (.error "invalid-formula-stack")

end Expression

/-- A call of one of the four operations that build an expression. -/
inductive Op where
  | atom (text : Text)
  | binary (token : Nat)
  | unary (token : Nat)
  | call (name : Text) (count : Nat)

def Expression.apply (e : Expression) : Op → Except String Expression
  | .atom text => .ok (e.atom text)
  | .binary token => e.binary token
  | .unary token => e.unary token
  | .call name count => e.call name count

/-- The first operation that is refused ends the formula. -/
def Expression.run (ops : List Op) : Except String Expression := ops.foldlM Expression.apply {}

end IntoMarkdown.Xls
