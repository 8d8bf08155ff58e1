import SolTrace.Error
import SolTrace.Text.Integer
/-!
Why a command ends early.
-/
set_option autoImplicit false

namespace SolTrace.CommandLine

inductive Failure
  /-- The artifacts at a path cannot be loaded. -/
  | artifacts (path : String)
  | breakpoint (text : String)
  | breakpointLine (text : String) (cause : Text.IntegerError)
  | debugger (error : Error)
deriving Repr, DecidableEq

def Failure.message : Failure → String
  | .artifacts path => "failed to load artifacts from " ++ path
  | .breakpoint text => "breakpoint `" ++ text ++ "` is not FILE:LINE"
  | .breakpointLine text cause => "breakpoint `" ++ text ++ "`: " ++ cause.message
  | .debugger error => error.message

end SolTrace.CommandLine
