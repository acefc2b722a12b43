import ContractQuery.Concrete.Basic

/-!
# Syntax Errors

A source is accepted when its concrete tree has no error and no missing node. Otherwise the
error tells how many topmost such nodes there are and where the first one starts. The search
does not go below such a node, nor into trees that say they have none.
-/

namespace ContractQuery

/-- Why a source is rejected. -/
inductive SyntaxError where
  | unparsed
  | single (line column : Nat)
  | several (count line column : Nat)
  deriving DecidableEq, Repr

/-- The text of a syntax error. -/
def SyntaxError.message : SyntaxError → String
  | unparsed => "failed to parse source code"
  | single line column =>
    "syntax error at line " ++ toString line ++ ", column " ++ toString column
  | several count line column =>
    "multiple syntax errors detected: " ++ toString count ++ " ERROR nodes, first at line "
      ++ toString line ++ ", column " ++ toString column

namespace Concrete

/-- Whether a node is an error or missing. -/
def Info.isFault (i : Info) : Bool := i.isError || i.isMissing

mutual

/-- Where the topmost faults start, in pre-order. -/
def faults : Concrete → List Position
  | mk info children =>
    if info.isFault then [info.start]
    else if info.hasError then faultsIn children
    else []

/-- Where the topmost faults of several trees start. -/
def faultsIn : List Concrete → List Position
  | [] => []
  | c :: rest => c.faults ++ faultsIn rest

end

/-- Rejects a tree that has faults. -/
def check (root : Concrete) : Except SyntaxError Unit :=
  if !root.info.hasError then .ok ()
  else
    match root.faults with
    | [] => .error .unparsed
    | [p] => .error (.single (p.row + 1) p.column)
    | p :: rest => .error (.several (rest.length + 1) (p.row + 1) p.column)

end Concrete

end ContractQuery
