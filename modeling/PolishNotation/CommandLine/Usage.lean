import PolishNotation.CommandLine.Switch
import PolishNotation.Text

namespace PolishNotation.CommandLine

/-- The name of the program starts its own messages. -/
def programName : Text :=
  "intopo".toList

def version : Text :=
  "0.0.1".toList

def usage : Text :=
  "usage: ".toList ++ programName ++ " [-h] [-r] [-t] [-v] [expressions ...]".toList

/-- The help describes every argument on a line of its own. -/
def help : Text :=
  Text.joinLines
    [usage,
      [],
      "Convert infix expressions to postfix (reverse Polish) notation.".toList,
      [],
      "positional arguments:".toList,
      "  expressions    expressions to convert; runs the sample table when omitted".toList,
      [],
      "options:".toList,
      "  -h, --help     show this help message and exit".toList,
      "  -r, --reverse  convert postfix expressions to infix instead".toList,
      "  -t, --trace    print the scanned operator tokens and the expression tree".toList,
      "  -v, --verbose  log every tree link".toList,
      []]

/-- A fault of the arguments is shown below the usage line. -/
def usageError (fault : UsageFault) : Text :=
  Text.joinLines [usage, programName ++ ": error: ".toList ++ fault.message, []]

/-- A sample is an expression with the result that it must have. -/
def samples : List (Text × Text) :=
  [("A+B*C".toList, "ABC*+".toList),
    ("A*B+C".toList, "AB*C+".toList),
    ("A*B+C*D".toList, "AB*CD*+".toList),
    ("(A+B)/(C-D)".toList, "AB+CD-/".toList),
    ("A*B/C".toList, "AB*C/".toList),
    ("((A+B)*C+D)/(E+F+G)".toList, "AB+C*D+EF+G+/".toList)]

end PolishNotation.CommandLine
