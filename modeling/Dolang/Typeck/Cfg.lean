import Dolang.Lib.Rust

/-!
# The semantic typing graph

The part of `typeck/cfg.rs` and `typeck/cfg/expr.rs` that liveness reads: functions, blocks with
steps and a terminal, and expressions as trees. Of an expression, a pattern and a step only what
holds variables, functions or other expressions is kept: types, literals, operators, member names
and spans are not consulted there. `Expr.walk` lists an expression and those nested in it in the
order in which the source visits them.
-/

namespace Dolang.Typeck.Cfg

open Rust

/-- A function by its index. -/
abbrev FuncId := Nat

/-- A block by its index. -/
abbrev BlockId := Nat

/-- A variable by its index. -/
abbrev VarId := Nat

mutual

/-- The kind of an expression. -/
inductive Expr where
  | typeTest (value : Expr)
  | cast (value : Expr)
  | literal
  | float
  | bin
  | concat (parts : List Expr)
  | binConcat (parts : List Expr)
  | fmt (parts : List Expr)
  | fmtValue (value : Expr) (spec : FmtSpec)
  | fmtParam (spec : FmtSpec)
  /-- A reference to a variable. -/
  | var (var : VarId)
  /-- A variable's value that lowering copies. -/
  | copy (var : VarId)
  | «class»
  | «import»
  | lambda (func : FuncId)
  | call (callee : Expr) (args : List Item)
  | invoke (receiver : Expr) (args : List Item)
  | get (object : Expr)
  | index (object : Expr) (index : Item)
  | unary (operand : Item)
  | binary (left right : Item)
  | range (start stop : Option Expr)
  | collection (items : List Item)
  | operand
  | never
  | «namespace»
  | error

/-- The parts of a format specification that are evaluated. -/
inductive FmtSpec where
  | mk (width precision : Option Expr)

/-- An item of an argument list or collection. -/
inductive Item where
  | pos (value : Expr)
  | key (value : Expr)
  | pair (key value : Expr)
  | spread (value : Expr)
  /-- A comprehension's loop. -/
  | each (items : List Item)
  /-- A comprehension's filter. -/
  | filter (onThen onElse : List Item)

end

mutual

/-- This expression and each one nested in it, parents first. -/
def Expr.walk : Expr → List Expr
  | .concat parts => .concat parts :: walkParts parts
  | .binConcat parts => .binConcat parts :: walkParts parts
  | .fmt parts => .fmt parts :: walkParts parts
  | .fmtValue value spec => .fmtValue value spec :: (value.walk ++ spec.walk)
  | .fmtParam spec => .fmtParam spec :: spec.walk
  | .call callee args => .call callee args :: (callee.walk ++ Item.walkAll args)
  | .invoke receiver args => .invoke receiver args :: (receiver.walk ++ Item.walkAll args)
  | .typeTest value => .typeTest value :: value.walk
  | .cast value => .cast value :: value.walk
  | .get object => .get object :: object.walk
  | .index object index => .index object index :: (object.walk ++ index.walk)
  | .unary operand => .unary operand :: operand.walk
  | .binary left right => .binary left right :: (left.walk ++ right.walk)
  | .range start stop => .range start stop :: (walkPart start ++ walkPart stop)
  | .collection items => .collection items :: Item.walkAll items
  | .literal => [.literal]
  | .float => [.float]
  | .bin => [.bin]
  | .var v => [.var v]
  | .copy v => [.copy v]
  | .class => [.class]
  | .import => [.import]
  | .lambda func => [.lambda func]
  | .operand => [.operand]
  | .never => [.never]
  | .namespace => [.namespace]
  | .error => [.error]

/-- The walks of the parts of a string. -/
def walkParts : List Expr → List Expr
  | [] => []
  | part :: parts => part.walk ++ walkParts parts

/-- The walk of a part that can be absent. -/
def walkPart : Option Expr → List Expr
  | none => []
  | some part => part.walk

def FmtSpec.walk : FmtSpec → List Expr
  | .mk width precision => walkPart width ++ walkPart precision

/-- The walk of one item. -/
def Item.walk : Item → List Expr
  | .pos value | .key value | .spread value => value.walk
  | .pair key value => key.walk ++ value.walk
  | .each items => Item.walkAll items
  | .filter onThen onElse => Item.walkAll onThen ++ Item.walkAll onElse

def Item.walkAll : List Item → List Expr
  | [] => []
  | item :: items => item.walk ++ Item.walkAll items

end

/-- An operand's expression. Lowering makes every operand positional. -/
def Item.operand {ε : Type} : Item → Exec ε Expr
  | .pos value => .ok value
  | _ => abort

/-- What a pattern's item matches. -/
inductive PatternKey where
  | pos
  | key
  | constKey (key : Expr)
  | rest

/-- An item of a pattern; a rest that binds nothing has no variable. -/
structure PatternItem where
  key : PatternKey
  var : Option VarId

inductive Pattern where
  | bind (var : VarId)
  | unpack (items : List PatternItem)

/-- The expressions in its constant keys. -/
def Pattern.walk : Pattern → List Expr
  | .bind _ => []
  | .unpack items => items.flatMap fun item =>
      match item.key with
      | .constKey key => key.walk
      | _ => []

/-- The variables it binds. -/
def Pattern.vars : Pattern → List VarId
  | .bind var => [var]
  | .unpack items => items.filterMap (·.var)

/-- What an assignment writes, and the value it writes. -/
inductive Target where
  | var (var : VarId) (value : Expr)
  | field (object : Expr) (value : Item)
  | index (object : Expr) (index value : Item)
  | «import» (value : Expr)

/-- What a variable is narrowed against. -/
inductive Against where
  | decl
  | class (value : Expr)
  | value (value : Expr)
  | type
  | shape

structure Assume where
  var : VarId
  against : Against

inductive Step where
  | let_ (pattern : Pattern) (value : Expr)
  | assign (target : Target)
  /-- Join a pattern item's default into its variable's state. -/
  | default (var : VarId) (value : Expr)
  | eval (value : Expr)
  | push (value : Expr)
  | dup
  | pop
  | assume (assume : Assume)
  /-- Functions the statement that follows creates. -/
  | capture (funcs : List FuncId)
  /-- Load captures from their accumulators. -/
  | cache (vars : List VarId)
  /-- In an `(init)`, the receiver becomes observable. -/
  | escape (supers : Bool)

/-- How a `finally` continues once it ends. -/
inductive Tag where
  | goto (target : BlockId)
  | rethrow

inductive Terminal where
  | branch (target : BlockId)
  | ite (cond : Expr) (onThen onElse : BlockId)
  /-- Match a pattern, binding it on the first edge. -/
  | unpack (pattern : Pattern) (value : Expr) (onThen onElse : BlockId)
  | «catch» (clauses : List (Expr × BlockId)) (otherwise : BlockId)
  /-- Bind the next item to a pattern and continue to the body, or to the exit without one. -/
  | next (iter : Option VarId) (pattern : Pattern) (body exit : BlockId)
  | «return»
  | throw (value : Expr)
  | elseFallthrough
  /-- Enter a `finally`, pushing a tag. -/
  | leave (entry : BlockId) (tag : Tag)
  /-- End a `finally`, continuing by the tag it was entered with. -/
  | endFinally
  | guard (next : BlockId) (targets : List BlockId)
  | escape
  | returnFrom (value : Expr)
  | unreachable

/-- The blocks of its function it continues to directly. -/
def Terminal.successors : Terminal → List BlockId
  | .branch target => [target]
  | .ite _ onThen onElse | .unpack _ _ onThen onElse => [onThen, onElse]
  | .catch clauses otherwise => clauses.map (·.2) ++ [otherwise]
  | .next _ _ body exit => [body, exit]
  | .leave entry _ => [entry]
  | .guard following targets => following :: targets
  | .return | .throw _ | .elseFallthrough | .endFinally | .escape | .returnFrom _
  | .unreachable => []

/-- A function's source. -/
inductive FuncKind where
  | module
  | decl
  | defaultInit
  deriving DecidableEq

structure Func where
  kind : FuncKind
  entry : BlockId
  /-- The one block ending in a return. -/
  exit : BlockId
  /-- The value it returns. -/
  result : VarId
  params : Pattern
  /-- The variables its parent owns that it or a function nested in it captures. -/
  escapes : List VarId
  /-- In an `(init)`, the variables standing for the receiver's fields. -/
  fields : List VarId
  /-- In an `(init)`, the variables saying whether each superclass was initialized. -/
  supers : List VarId

structure Block where
  func : FuncId
  steps : List Step
  terminal : Terminal
  /-- Where an exception raised by a step or terminal goes. -/
  handler : Option BlockId
  /-- How many `finally` bodies of its function enclose it. -/
  depth : Nat

/-- A finished graph. -/
structure Ir where
  funcs : List Func
  blocks : List Block

end Dolang.Typeck.Cfg
