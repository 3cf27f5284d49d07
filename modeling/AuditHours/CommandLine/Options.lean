import AuditHours.Number.Literal
import AuditHours.Number.Text
import AuditHours.Report.Layout
import AuditHours.Text.Quoted

/-!
The options of the command line. A flag stands alone, a setting takes a value. Every option has a
long name and some have a short one; a long name may be shortened as long as it stays clear which
option is meant. A count that is given as a value is a whole number of at least zero.
-/
namespace AuditHours.CommandLine

inductive CountFault where
  | notWhole (text : String)
  | negative (n : Int)
  deriving DecidableEq, Repr

def CountFault.message : CountFault → String
  | .notWhole text => "invalid integer value: " ++ Text.quoted text
  | .negative n => "must be 0 or greater, got " ++ Number.intText n

def count (text : String) : Except CountFault Int :=
  match Number.looseInt? text with
  | none => .error (.notWhole text)
  | some n => if n < 0 then .error (.negative n) else .ok n

/-- An option that stands alone. -/
inductive Flag where
  | help
  | countImports
  | aggregateOnce
  | verbose
  deriving DecidableEq, Repr

/-- An option that takes a value. -/
inductive Setting where
  | catalogUrl
  | optimizerRuns
  | config
  | format
  | output
  deriving DecidableEq, Repr

inductive Choice where
  | flag (f : Flag)
  | setting (s : Setting)
  deriving DecidableEq, Repr

def Choice.names : List (String × Choice) :=
  [("-h", .flag .help), ("--help", .flag .help), ("--solc-list-url", .setting .catalogUrl),
    ("-c", .flag .countImports), ("--count-imports", .flag .countImports),
    ("-o", .setting .optimizerRuns), ("--optimizer-runs", .setting .optimizerRuns),
    ("--config", .setting .config), ("--aggregate-once", .flag .aggregateOnce),
    ("--format", .setting .format), ("--output", .setting .output),
    ("-v", .flag .verbose), ("--verbose", .flag .verbose)]

def Choice.ofName? (name : String) : Option Choice := Json.field? Choice.names name

def Choice.label (c : Choice) : String :=
  "/".intercalate ((Choice.names.filter (·.2 = c)).map (·.1))

def contractLabel : String := "contract_path"

inductive Fault where
  | ambiguous (text : String) (names : List String)
  | noValue (setting : Setting)
  | needlessValue (flag : Flag) (value : String)
  | count (fault : CountFault)
  | noFormat (name : String)
  | noContract
  | unknown (texts : List String)
  deriving DecidableEq, Repr

def about (c : Choice) (text : String) : String :=
  let label := c.label
  s!"argument {label}: {text}"

def Fault.message : Fault → String
  | .ambiguous text names =>
    let found := ", ".intercalate names
    s!"ambiguous option: {text} could match {found}"
  | .noValue s => about (.setting s) "expected one argument"
  | .needlessValue f value => about (.flag f) ("ignored explicit argument " ++ Text.quoted value)
  | .count fault => about (.setting .optimizerRuns) fault.message
  | .noFormat name =>
    let known := ", ".intercalate (Report.Format.all.map fun f => Text.quoted f.name)
    about (.setting .format) ("invalid choice: " ++ Text.quoted name ++ s!" (choose from {known})")
  | .noContract => s!"the following arguments are required: {contractLabel}"
  | .unknown texts => "unrecognized arguments: " ++ " ".intercalate texts

def programName : String := "auditscope"

def usageText : String :=
  "usage: auditscope [-h] [--solc-list-url SOLC_LIST_URL] [-c]\n" ++
  "                  [-o OPTIMIZER_RUNS] [--config CONFIG_PATH]\n" ++
  "                  [--aggregate-once] [--format \x7btext,json,markdown\x7d]\n" ++
  "                  [--output OUTPUT] [-v]\n" ++
  "                  contract_path\n"

def helpText : String :=
  usageText ++
  "\nEstimate the audit time for a Solidity contract.\n" ++
  "\npositional arguments:\n" ++
  "  contract_path         Path to the Solidity source file\n" ++
  "\noptions:\n" ++
  "  -h, --help            show this help message and exit\n" ++
  "  --solc-list-url SOLC_LIST_URL\n" ++
  "                        URL to the solc binary list\n" ++
  "  -c, --count-imports   Count each import individually for time estimation. By\n" ++
  "                        default, a flat rate is used for any number of imports.\n" ++
  "  -o OPTIMIZER_RUNS, --optimizer-runs OPTIMIZER_RUNS\n" ++
  "                        Number of optimizer runs. Set to 0 to disable.\n" ++
  "  --config CONFIG_PATH  JSON file overriding the default audit weights\n" ++
  "  --aggregate-once      Count file-wide signals once instead of once per\n" ++
  "                        contract unit\n" ++
  "  --format \x7btext,json,markdown\x7d\n" ++
  "                        Output format of the report\n" ++
  "  --output OUTPUT       Write the report to this file instead of stdout\n" ++
  "  -v, --verbose         Enable verbose output\n"

def faultText (fault : Fault) : String :=
  let message := fault.message
  usageText ++ s!"{programName}: error: {message}\n"

end AuditHours.CommandLine
