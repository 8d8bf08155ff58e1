import SolTrace.Text.Split
/-!
Arguments of a command. An option is `--name`, or a letter behind a single dash, where several
letters may share the dash. The value of an option is the next argument, unless it stands behind a
`=` or directly behind the letter; a value that is an argument of its own does not start with a
dash. Behind `--` there are no options.
-/
set_option autoImplicit false

namespace SolTrace.CommandLine

/-- How an option is written. -/
structure OptionForm (ι : Type) where
  id : ι
  long : String
  short : Option Char
  takesValue : Bool
deriving Repr

inductive Argument (ι : Type)
  | flag (id : ι)
  | value (id : ι) (text : String)
  | operand (text : String)
deriving Repr, DecidableEq

namespace Argument

variable {ι : Type} [DecidableEq ι]

def valueOf? (id : ι) : Argument ι → Option String
  | .value other text => if other = id then some text else none
  | _ => none

def operand? : Argument ι → Option String
  | .operand text => some text
  | _ => none

/-- The values of an option, in order. -/
def values (id : ι) (arguments : List (Argument ι)) : List String :=
  arguments.filterMap (valueOf? id)

/-- The value of an option that is given at most once. -/
def single? (id : ι) (arguments : List (Argument ι)) : Option (Option String) :=
  match values id arguments with
  | [] => some none
  | [text] => some (some text)
  | _ => none

/-- Whether a flag, which is given at most once, is given. -/
def flag? (id : ι) (arguments : List (Argument ι)) : Option Bool :=
  match arguments.count (.flag id) with
  | 0 => some false
  | 1 => some true
  | _ => none

def operands (arguments : List (Argument ι)) : List String :=
  arguments.filterMap operand?

end Argument

variable {ι : Type}

/-- What is read from one argument, and the option that still wants its value. -/
abbrev Reading (ι : Type) := List (Argument ι) × Option ι

/-- Reads the letters behind a dash. -/
def readLetters (forms : List (OptionForm ι)) : List Char → Option (Reading ι)
  | [] => some ([], none)
  | letter :: rest =>
      match forms.find? fun form => form.short == some letter with
      | none => none
      | some form =>
          if form.takesValue then
            match rest with
            | [] => some ([], some form.id)
            | '=' :: text => some ([.value form.id (String.ofList text)], none)
            | text => some ([.value form.id (String.ofList text)], none)
          else
            (readLetters forms rest).map fun (read, open?) => (.flag form.id :: read, open?)

/-- Reads a name, perhaps with a value, behind two dashes. -/
def readName (forms : List (OptionForm ι)) (text : List Char) : Option (Reading ι) :=
  let (name, value) := Text.splitFirst '=' text
  match forms.find? fun form => form.long.toList == name with
  | none => none
  | some form =>
      match form.takesValue, value with
      | true, some value => some ([.value form.id (String.ofList value)], none)
      | true, none => some ([], some form.id)
      | false, none => some ([.flag form.id], none)
      | false, some _ => none

/-- Reads one argument. A dash alone is no option. -/
def readArgument (forms : List (OptionForm ι)) (text : String) : Option (Reading ι) :=
  match text.toList with
  | '-' :: '-' :: name => readName forms name
  | '-' :: letter :: letters => readLetters forms (letter :: letters)
  | _ => some ([.operand text], none)

def startsLikeOption (text : String) : Bool :=
  match text.toList with
  | '-' :: _ :: _ => true
  | _ => false

/-- Reads the arguments of a command, unless one of them is no option or a value is missing. -/
def readArguments (forms : List (OptionForm ι)) : List String → Option (List (Argument ι))
  | [] => some []
  | "--" :: rest => some (rest.map .operand)
  | text :: rest =>
      match readArgument forms text with
      | none => none
      | some (read, none) => do return read ++ (← readArguments forms rest)
      | some (read, some id) =>
          match rest with
          | [] => none
          | value :: rest =>
              if startsLikeOption value then none
              else do return read ++ .value id value :: (← readArguments forms rest)

end SolTrace.CommandLine
