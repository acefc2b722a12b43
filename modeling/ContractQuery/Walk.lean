import ContractQuery.Path
import ContractQuery.Tree.Basic

/-!
# Walking a Tree

A walk goes through the nodes of a tree in pre-order and calls a visitor. On entering a node
the visitor says how to go on: into the children and out again with a call of `exit`
(`Flow.descend`), past the children and without that call (`Flow.skip`), or not at all
(`Flow.stop`). Children come in field order, list items by position with the position on the
path; maps and scalars are not gone into.

A visitor carries a state, so what it answers may depend on everything that it saw before.
-/

namespace ContractQuery

/-- How a walk goes on after a node is entered. -/
inductive Flow where
  | descend
  | skip
  | stop
  deriving DecidableEq, Repr, Inhabited

/-- How a walk ended. -/
inductive Outcome where
  | completed
  | stopped
  deriving DecidableEq, Repr, Inhabited

universe u

/-- The calls that a walk makes, over a state of type `σ`. -/
structure Visitor (σ : Type u) where
  enter : σ → Node → Path → σ × Flow
  exit : σ → Node → Path → σ

/-- A visitor that only enters. -/
def Visitor.entering {σ : Type u} (enter : σ → Node → Path → σ × Flow) : Visitor σ :=
  ⟨enter, fun s _ _ => s⟩

namespace Value

variable {σ : Type u}

mutual

/-- Walks the nodes of a value that lies at `path`. -/
def walk (visitor : Visitor σ) : Value → Path → σ → σ × Outcome
  | node kind span fields, path, s =>
    match visitor.enter s ⟨kind, span, fields⟩ path with
    | (s, .stop) => (s, .stopped)
    | (s, .skip) => (s, .completed)
    | (s, .descend) =>
      match walkFields visitor fields path s with
      | (s, .stopped) => (s, .stopped)
      | (s, .completed) => (visitor.exit s ⟨kind, span, fields⟩ path, .completed)
  | list items, path, s => walkItems visitor items path 0 s
  | map _, _, s => (s, .completed)
  | scalar _, _, s => (s, .completed)

/-- Walks the items of a list, the first of which has position `i`. -/
def walkItems (visitor : Visitor σ) : List Value → Path → Nat → σ → σ × Outcome
  | [], _, _, s => (s, .completed)
  | v :: rest, path, i, s =>
    match walk visitor v (path ++ [.index i]) s with
    | (s, .stopped) => (s, .stopped)
    | (s, .completed) => walkItems visitor rest path (i + 1) s

/-- Walks the fields of a node. -/
def walkFields (visitor : Visitor σ) : List (String × Value) → Path → σ → σ × Outcome
  | [], _, s => (s, .completed)
  | (name, v) :: rest, path, s =>
    match walk visitor v (path ++ [.field name]) s with
    | (s, .stopped) => (s, .stopped)
    | (s, .completed) => walkFields visitor rest path s

end

end Value

/-- Walks a tree from a start state. Returns the final state and how the walk ended. -/
def Node.walk {σ : Type u} (root : Node) (visitor : Visitor σ) (s : σ) : σ × Outcome :=
  root.toValue.walk visitor [] s

end ContractQuery
