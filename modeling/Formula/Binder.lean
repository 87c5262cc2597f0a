import Formula.Binding
import Formula.Bound.Eval
import Formula.Node.Arrange
import Formula.Node.Read

/-!
# Binders

The way from source text to values: a binder prepares a text, binds what it prepared in a context,
and the compiled expression is evaluated as often as one likes.

A prepared expression keeps the bindings of its nodes. Once it has been bound, every later binding
gives the same result, whatever its context.
-/

namespace Formula

/-- The limits a binder sets: bytes of source text, levels of nesting, and the depth of a bound
tree. -/
structure Limits where
  sourceLength : Nat
  nesting : Nat
  treeDepth : Nat
deriving Repr, DecidableEq

/-- The limits of a binder that is told none. -/
def Limits.standard : Limits := ⟨65536, 128, 1024⟩

/-- A host with limits; `simplify` asks for simplified trees. -/
structure Binder where
  host : Host
  limits : Limits
  simplify : Bool

/-- A text that has been read and arranged, with the bindings of its nodes so far. -/
structure Prepared where
  root : Node
  nodes : Nat
  slots : Slots

/-- A bound expression with the parameters and the base type it was bound for. -/
structure Compiled where
  root : Bound
  parameters : List Parameter
  base : Option Ty

namespace Binder

/-- Reads and arranges a text. Of the context only what tells casts from parentheses counts. -/
def prepare (b : Binder) (context : Context) (source : String) : Except BuildError Prepared :=
  if b.limits.sourceLength < source.utf8ByteSize then
    .error (.limitExceeded .sourceLength b.limits.sourceLength)
  else do
    let (root, nodes) ← Node.ofSource b.limits.nesting source
    let (root, nodes) ← (root.arrange ⟨b.host, context, b.limits.nesting⟩).run nodes
    .ok ⟨root, nodes, .empty nodes⟩

/-- What a tree is bound against in a context. -/
def env (b : Binder) (context : Context) : BindEnv :=
  ⟨b.host, context, b.limits.treeDepth, b.simplify⟩

/-- Binds a prepared expression; the bindings found on the way are kept in it. -/
def bind (b : Binder) (context : Context) (p : Prepared) : Except BuildError Compiled × Prepared :=
  let (outcome, slots) := (p.root.resolve (b.env context)).run p.slots
  (outcome.map fun root => ⟨root, context.parameters, context.base⟩, { p with slots })

/-- Prepares and binds a text. -/
def compile (b : Binder) (context : Context) (source : String) : Except BuildError Compiled := do
  let p ← b.prepare context source
  (b.bind context p).1

end Binder

/-- The value for a receiver and for the values of the parameters, of which there may be more. -/
def Compiled.eval (c : Compiled) (receiver : Option Value) (values : List Value) : Outcome :=
  if values.length < c.parameters.length then
    .error (.tooFewValues c.parameters.length values.length)
  else c.root.eval ⟨receiver, values⟩

end Formula
