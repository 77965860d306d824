import BlockText.Number.Decimal
import BlockText.Workspace.Error

/-!
# Failures of reading

Reading is all or nothing. The first line or expression that cannot be read is named with its line
and the reason.
-/

namespace BlockText.Program

/-- Why a program cannot be read. -/
inductive Reason where
  | noIdiom
  | unsupportedExpression
  | unexpectedIndent
  | inconsistentDedent
  | tabIndent
  | controlCharacter
  | misplaced (cause : EditError)
  deriving DecidableEq

/-- What is said of a reason. -/
def Reason.message : Reason → String
  | noIdiom => "no supported block matches this line"
  | unsupportedExpression => "unsupported expression"
  | unexpectedIndent => "unexpected indentation"
  | inconsistentDedent => "indentation does not match any enclosing block"
  | tabIndent => "tabs are not allowed in indentation"
  | controlCharacter => "control characters are not allowed"
  | misplaced cause => "recovered block does not fit where it was written (" ++ cause.message ++ ")"

/-- Where reading failed, on what text, and why. Lines count from one. -/
structure Failure where
  line : Nat
  text : List Char
  reason : Reason
  deriving DecidableEq

/-- What is said of a failure. -/
def Failure.message (f : Failure) : String :=
  "line " ++ toString f.line ++ ": " ++ f.reason.message ++ ": `" ++ String.ofList f.text ++ "`"

end BlockText.Program
