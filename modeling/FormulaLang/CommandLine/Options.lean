import FormulaLang.CommandLine.Binding
import FormulaLang.Text.Terminal

/-!
# FormulaLang.CommandLine.Options

Reading the command line: options in any order, and one formula. Short options may be joined, as
in `-fv NAME=VALUE`, and `--` ends the options.

An option's value that stands in an argument of its own is looked at only when the next option or
the formula is recognised, or at the end. So an argument that is not recognised is reported before
a bad value that stands in front of it.
-/

namespace FormulaLang.CommandLine

structure Options where
  fromFile : Bool
  showTree : Bool
  dumpVariables : Bool
  /-- The bindings, the last one first. -/
  bindings : List (String × Float)
  formula : String

inductive UsageError where
  | invalidBinding (raw : String) (reason : BindingError)
  | unexpectedArgument (argument : String)
  | unexpectedValue (value option : String)
  | missingValue (option : String)
  | repeatedOption (option : String)
  | missingFormula
  deriving DecidableEq, Repr

def bindingOption : String := "--var <NAME=VALUE>"

def faulty : String → String := Text.styled "33"

def literal : String → String := Text.styled "1"

/-- What is wrong, as a text for a terminal: the arguments stand in styles of their own, the reason
why a binding is bad does not. -/
def UsageError.message : UsageError → String
  | invalidBinding raw reason =>
    "invalid value '" ++ faulty raw ++ "' for '" ++ literal bindingOption ++ "': " ++ reason.message
  | unexpectedArgument argument => "unexpected argument '" ++ faulty argument ++ "' found"
  | unexpectedValue value option =>
    "unexpected value '" ++ faulty value ++ "' for '" ++ literal option ++
      "' found; no more were expected"
  | missingValue option =>
    "a value is required for '" ++ faulty option ++ "' but none was supplied"
  | repeatedOption option =>
    "the argument '" ++ faulty option ++ "' cannot be used multiple times"
  | missingFormula => "the following required arguments were not provided:"

inductive Stop where
  | help
  | version
  | usage (e : UsageError)
  deriving DecidableEq, Repr

inductive Flag where
  | file
  | showTree
  | dumpVariables
  deriving DecidableEq, Repr

def Flag.text : Flag → String
  | file => "--file"
  | showTree => "--show-ast"
  | dumpVariables => "--dump-vars"

inductive Pending where
  | nothing
  | wanted
  | given (raw : String)

structure Progress where
  flags : List Flag
  bindings : List (String × Float)
  formula : Option String
  pending : Pending

namespace Progress

def start : Progress := ⟨[], [], none, .nothing⟩

def bind (p : Progress) (raw : String) : Except Stop Progress :=
  match readBinding raw with
  | .ok binding => .ok { p with bindings := binding :: p.bindings }
  | .error reason => .error (.usage (.invalidBinding raw reason))

/-- Looks at the value that is pending. -/
def settle (p : Progress) : Except Stop Progress :=
  match p.pending with
  | .nothing => .ok p
  | .wanted => .error (.usage (.missingValue bindingOption))
  | .given raw => { p with pending := .nothing }.bind raw

def raise (p : Progress) (flag : Flag) : Except Stop Progress :=
  match p.settle with
  | .error stop => .error stop
  | .ok p =>
    if flag ∈ p.flags then .error (.usage (.repeatedOption flag.text))
    else .ok { p with flags := flag :: p.flags }

/-- Ends the reading, unless the value that is pending ends it first. -/
def stopWith (p : Progress) (stop : Stop) : Except Stop Progress :=
  match p.settle with
  | .error stop => .error stop
  | .ok _ => .error stop

def openBinding (p : Progress) (value : Option String) : Except Stop Progress :=
  match p.settle with
  | .error stop => .error stop
  | .ok p =>
    match value with
    | some raw => p.bind raw
    | none => .ok { p with pending := .wanted }

def takeFormula (p : Progress) (argument : String) : Except Stop Progress :=
  match p.formula with
  | some _ => .error (.usage (.unexpectedArgument argument))
  | none =>
    match p.settle with
    | .error stop => .error stop
    | .ok p => .ok { p with formula := some argument }

/-- The short options of one argument. The rest of the argument behind the binding option is its
value, with or without a `=` in front. -/
def takeShort (p : Progress) : List Char → Except Stop Progress
  | [] => .ok p
  | 'f' :: cs =>
    match p.raise .file with
    | .error stop => .error stop
    | .ok p => p.takeShort cs
  | ['v'] => p.openBinding none
  | 'v' :: '=' :: value => p.openBinding (some (.ofList value))
  | 'v' :: value => p.openBinding (some (.ofList value))
  | 'h' :: _ => p.stopWith .help
  | 'V' :: _ => p.stopWith .version
  | c :: _ => .error (.usage (.unexpectedArgument (.ofList ['-', c])))

def takeBare (option : String) (value : Option String) (taken : Except Stop Progress) :
    Except Stop Progress :=
  match value with
  | some value => .error (.usage (.unexpectedValue value option))
  | none => taken

def takeFlag (p : Progress) (flag : Flag) (value : Option String) : Except Stop Progress :=
  takeBare flag.text value (p.raise flag)

/-- A long option, with its value if that is joined to it by `=`. -/
def takeLong (p : Progress) (name : String) (value : Option String) : Except Stop Progress :=
  if name = "var" then p.openBinding value
  else if name = "file" then p.takeFlag .file value
  else if name = "show-ast" then p.takeFlag .showTree value
  else if name = "dump-vars" then p.takeFlag .dumpVariables value
  else if name = "help" then takeBare "--help" value (p.stopWith .help)
  else if name = "version" then takeBare "--version" value (p.stopWith .version)
  else .error (.usage (.unexpectedArgument ("--" ++ name)))

/-- An argument in front of `--`. A lone `-` is not an option. -/
def take (p : Progress) (argument : String) : Except Stop Progress :=
  match argument.toList with
  | '-' :: '-' :: cs =>
    match splitSign? cs with
    | some (name, value) => p.takeLong (.ofList name) (some (.ofList value))
    | none => p.takeLong (.ofList cs) none
  | '-' :: c :: cs => p.takeShort (c :: cs)
  | _ =>
    match p.pending with
    | .wanted => .ok { p with pending := .given argument }
    | _ => p.takeFormula argument

def takeFormulas (p : Progress) : List String → Except Stop Progress
  | [] => .ok p
  | argument :: rest =>
    match p.takeFormula argument with
    | .error stop => .error stop
    | .ok p => p.takeFormulas rest

def takeAll (p : Progress) : List String → Except Stop Progress
  | [] => .ok p
  | "--" :: rest => p.takeFormulas rest
  | argument :: rest =>
    match p.take argument with
    | .error stop => .error stop
    | .ok p => p.takeAll rest

end Progress

def Options.read (arguments : List String) : Except Stop Options :=
  match Progress.start.takeAll arguments with
  | .error stop => .error stop
  | .ok p =>
    match p.settle with
    | .error stop => .error stop
    | .ok p =>
      match p.formula with
      | none => .error (.usage .missingFormula)
      | some formula =>
        .ok ⟨Flag.file ∈ p.flags, Flag.showTree ∈ p.flags, Flag.dumpVariables ∈ p.flags,
          p.bindings, formula⟩

end FormulaLang.CommandLine
