import FormulaLang.CommandLine.Options
import FormulaLang.Evaluation.Run
import FormulaLang.Program.Render

/-!
# FormulaLang.CommandLine.Report

What the program prints and the code it ends with. A run reads the formula, shows its normal form
if that is asked for, runs it on the bound variables, prints its value, and lists the variables if
that is asked for. The first failure ends the run; what is printed by then stays.
-/

namespace FormulaLang.CommandLine

structure Report where
  code : Nat
  stdout : String
  stderr : String
  deriving DecidableEq, Repr

def version : String := "formulae 0.1.0"

def line (s : String) : String := s ++ "\n"

def help : String :=
  String.join <| List.map line
    ["formulae evaluates a formula and prints its result",
      "",
      "Usage: formulae [OPTIONS] <CONTENTS>",
      "",
      "Arguments:",
      "  <CONTENTS>  ",
      "",
      "Options:",
      "  -f, --file              Tells formulae to read the formula from a file instead of " ++
        "the argument",
      "  -v, --var <NAME=VALUE>  Binds a variable before evaluation, as `NAME=VALUE`. " ++
        "May be repeated",
      "      --show-ast          Prints the parsed formula in normalized form before evaluating it",
      "      --dump-vars         Prints every variable after evaluation",
      "  -h, --help              Print help",
      "  -V, --version           Print version"]

/-- An error of usage as a text for a terminal, with a hint under it. -/
def UsageError.notice (e : UsageError) : String :=
  Text.styled "1;31" "error:" ++ " " ++ e.message ++
    "\n\nFor more information, try '" ++ literal "--help" ++ "'.\n"

/-- The error stream is no terminal, so the notice is shown without its controls, whether they come
from its styles or from the arguments. -/
def Stop.report : Stop → Report
  | help => ⟨0, CommandLine.help, ""⟩
  | version => ⟨0, line CommandLine.version, ""⟩
  | usage e => ⟨2, "", Text.shown e.notice⟩

/-- One line of the list of variables. It is written as a binding with blanks around the sign. -/
def dumpEntry (name : String) (value : Float) : String := name ++ " = " ++ Decimal.floatText value

def dump (bound : Table Float) : String :=
  String.join (bound.toList.map fun (name, value) => line (dumpEntry name value))

/-- Where bindings share a name, the last one counts. -/
def Options.variables (o : Options) : Table Float := .ofList o.bindings.reverse

def Options.runSource (o : Options) (source : String) : Report :=
  match Program.parse source with
  | .error e => ⟨1, "", line e.message⟩
  | .ok p =>
    let shown := if o.showTree then line p.render else ""
    match p.run (∅ : Registry Unit) (.start o.variables ()) with
    | none => ⟨1, shown, ""⟩
    | some (.error e, _) => ⟨1, shown, line e.message⟩
    | some (.ok value, s) =>
      ⟨0, shown ++ line (Decimal.floatText value) ++
        (if o.dumpVariables then dump s.variables else ""), ""⟩

/-- Runs what the options ask for. The content is that of the file named by the formula, if there
is such a file. -/
def Options.report (o : Options) (content : Option String) : Report :=
  if o.fromFile then
    match content with
    | some source => o.runSource source
    | none =>
      ⟨1, "", line ("Failed to read the input file '" ++ o.formula ++
        "'. Perhaps this file does not exist?")⟩
  else o.runSource o.formula

def respond (arguments : List String) (readFile : String → Option String) : Report :=
  match Options.read arguments with
  | .error stop => stop.report
  | .ok o => o.report (readFile o.formula)

end FormulaLang.CommandLine
