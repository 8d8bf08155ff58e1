import SolTrace.Session
import SolTrace.Text.Columns
/-!
Showing the steps of a session, all of them or on request. What is shown is given as lines.
-/
set_option autoImplicit false

namespace SolTrace.CommandLine

/-- What a session is shown with. -/
structure View where
  provider : Provider
  /-- Whether the variables are shown at every step. -/
  showVariables : Bool

def placeText (step : Step) : String :=
  match step.line? with
  | some line => step.file ++ ":" ++ toString line
  | none => step.file

/-- The line of a step: its index, its kind, its place and the innermost function. -/
def stepText (step : Step) : String :=
  " ".intercalate [Text.alignRight 6 (toString step.index), Text.alignLeft 12 step.kind.name,
    placeText step, (step.calls.getLast?.map CallFrame.text).getD ""]

def margin : String := "       "

/-- Values below a title, if there are any. -/
def valueLines (title : String) (values : List (String × Value)) : List String :=
  if values.isEmpty then []
  else (margin ++ title) :: values.map fun (name, value) =>
    margin ++ "  " ++ name ++ " = " ++ value.text

/-- The variables of functions, then those of contracts. -/
def showVariables (view : View) (session : Session) : List String × Session :=
  let (locals, session) := session.values view.provider .locals
  let (globals, session) := session.values view.provider .globals
  (valueLines "locals" locals ++ valueLines "globals" globals, session)

/-- The applied step with its line of source text. -/
def showStep (view : View) (session : Session) : List String × Session :=
  match session.current? with
  | none => ([], session)
  | some step =>
      let lines := stepText step :: session.line?.toList.map fun line =>
        margin ++ String.ofList (Text.trimEnd line.toList)
      if view.showVariables then
        let (values, session) := showVariables view session
        (lines ++ values, session)
      else (lines, session)

/-- Shows at most a number of steps, or of stops at breakpoints if there are any. -/
def showWithin (view : View) : Nat → Session → List String
  | 0, _ => []
  | count + 1, session =>
      let (ended, session) :=
        if session.breakpoints.isEmpty then session.step else session.resume
      let (lines, session) := showStep view session
      if ended then lines else lines ++ showWithin view count session

/-- Shows all steps, or all stops. No session has more of them than steps. -/
def showAll (view : View) (session : Session) : List String :=
  showWithin view session.steps.size session

/-! ### On request -/

inductive Order
  | step
  | resume
  | reverse
  | showVariables
  | quit
deriving Repr, DecidableEq

/-- An order as it is typed. An empty line orders a step. -/
def Order.ofText? (text : String) : Option Order :=
  match text with
  | "" | "n" | "next" => some .step
  | "c" | "continue" => some .resume
  | "r" | "reverse" => some .reverse
  | "v" | "vars" => some .showVariables
  | "q" | "quit" => some .quit
  | _ => none

def greeting : String :=
  "[enter] step  [c] continue  [r] reverse  [v] variables  [q] quit"

/-- Shows where a move led, and that it led to the end. -/
def showMove (view : View) (moved : Bool × Session) : List String × Session :=
  let (lines, session) := showStep view moved.2
  (if moved.1 then lines ++ ["reached the end of the steps"] else lines, session)

/-- Follows an order. There is no session after the last one. -/
def follow (view : View) (session : Session) : Order → List String × Option Session
  | .step => (showMove view session.step).map id some
  | .resume => (showMove view session.resume).map id some
  | .reverse =>
      let session := session.reverse
      (["now stepping " ++ session.direction.name], some session)
  | .showVariables => (showVariables view session).map id some
  | .quit => ([], none)

/-- Answers a line of input. -/
def respond (view : View) (session : Session) (input : String) : List String × Option Session :=
  let text := String.ofList (Text.trim input.toList)
  match Order.ofText? text with
  | some order => follow view session order
  | none => (["unknown command `" ++ text ++ "`"], some session)

/-- Answers lines of input until the session is quit. -/
def respondAll (view : View) : Session → List String → List String
  | _, [] => []
  | session, input :: inputs =>
      match respond view session input with
      | (lines, none) => lines
      | (lines, some session) => lines ++ respondAll view session inputs

end SolTrace.CommandLine
