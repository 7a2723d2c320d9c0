import OcScript.Expr

/-
  This file defines statements and their prefix form.

  Key definitions include:
    * `OcScript.Stmt`
    * `OcScript.Stmt.dump`
    * `OcScript.Program`
-/

------------------------------------------------------------
-- Statements
------------------------------------------------------------

namespace OcScript

/-
  A statement.  A skipped statement stands where a
  declaration could not be read.
-/
inductive Stmt where
| expression (value : Expr)
| print (keyword : Token) (value : Expr)
| declare (name : Token) (initial : Option Expr)
| block (body : List Stmt)
| ifThen (condition : Expr) (thenBranch : Stmt)
| ifElse
    (condition : Expr)
    (thenBranch : Stmt)
    (elseBranch : Stmt)
| whileDo (condition : Expr) (body : Stmt)
| skipped
deriving Repr

/- A program is a list of statements run in order. -/
abbrev Program :=
  List Stmt

namespace Stmt

mutual

/- The prefix form of a statement. -/
def dump : Stmt → String
| .expression value => "(expr " ++ value.dump ++ ")"
| .print _ value => "(print " ++ value.dump ++ ")"
| .declare name none => "(var " ++ name.lexeme ++ ")"
| .declare name (some initial) =>
    "(var " ++ name.lexeme ++ " " ++ initial.dump ++ ")"
| .block body => "(block" ++ dumpBody body ++ ")"
| .ifThen condition thenBranch =>
    "(if " ++ condition.dump ++
      " " ++ thenBranch.dump ++ ")"
| .ifElse condition thenBranch elseBranch =>
    "(if " ++ condition.dump ++
      " " ++ thenBranch.dump ++
      " " ++ elseBranch.dump ++ ")"
| .whileDo condition body =>
    "(while " ++ condition.dump ++ " " ++ body.dump ++ ")"
| .skipped => "(error)"

/- The prefix forms of a block, each after a space. -/
def dumpBody : List Stmt → String
| [] => ""
| s :: rest => " " ++ s.dump ++ dumpBody rest

end

end Stmt

end OcScript
