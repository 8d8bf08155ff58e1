import SolTrace.CommandLine.Failure
import SolTrace.Session
import SolTrace.Text.Split
/-!
Breakpoints in arguments: a file and a line behind the last colon.
-/
set_option autoImplicit false

namespace SolTrace.CommandLine

/-- The file and the line of a breakpoint. Lines are counted from one. -/
def readBreakpoint (text : String) : Except Failure (String × Nat) :=
  match Text.splitLast? ':' text.toList with
  | none => .error (.breakpoint text)
  | some (file, line) =>
      match Text.readNat Text.maxNat64 line with
      | .error cause => .error (.breakpointLine text cause)
      | .ok line =>
          if file.isEmpty || line == 0 then .error (.breakpoint text)
          else .ok (String.ofList file, line)

/-- Adds a line to those of its file, unless it is among them. -/
def addBreakpoint (breakpoints : Breakpoints) (file : String) (line : Nat) : Breakpoints :=
  let lines := breakpoints[file]?.getD []
  breakpoints.insert file (if lines.contains line then lines else lines ++ [line])

def readBreakpoints (texts : List String) : Except Failure Breakpoints :=
  texts.foldlM (fun breakpoints text => do
    let (file, line) ← readBreakpoint text
    return addBreakpoint breakpoints file line) ∅

end SolTrace.CommandLine
