import FormulaLang.CommandLine.Report

/-!
# FormulaLang.Main

The program: reads its arguments and, if they say so, a file, prints the report and ends with its
code.
-/

namespace FormulaLang.CommandLine

def readContent (o : Options) : IO (Option String) := do
  if o.fromFile then
    try
      return some (← IO.FS.readFile o.formula)
    catch _ => return none
  else return none

def Report.print (r : Report) : IO UInt32 := do
  (← IO.getStdout).putStr r.stdout
  (← IO.getStderr).putStr r.stderr
  return .ofNat r.code

end FormulaLang.CommandLine

open FormulaLang.CommandLine in
def main (arguments : List String) : IO UInt32 := do
  match Options.read arguments with
  | .error stop => stop.report.print
  | .ok o => (o.report (← readContent o)).print
