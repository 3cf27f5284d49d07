import AuditHours.CommandLine.Token

/-!
What the arguments ask for. The first plain argument that no option takes is the contract; short
flags may stand together in one argument, and the last of them may be a setting with its value. Of
an option that is given twice the last value counts.
-/
namespace AuditHours.CommandLine

structure Request where
  contract : String
  catalogUrl : Option String := none
  countImports : Bool := false
  runs : Int := 0
  config : Option String := none
  aggregateOnce : Bool := false
  format : Report.Format := .text
  output : Option String := none
  verbose : Bool := false
  deriving DecidableEq, Repr

inductive Stop where
  | help
  | fault (f : Fault)
  deriving DecidableEq, Repr

/-- What has been read so far. `afterContract` holds right behind the contract. -/
structure Progress where
  request : Request := { contract := "" }
  hasContract : Bool := false
  afterContract : Bool := false
  extras : List String := []

namespace Progress

def raiseFlag (p : Progress) (f : Flag) : Except Stop Progress :=
  let p := { p with afterContract := false }
  match f with
  | .help => .error .help
  | .countImports => .ok { p with request.countImports := true }
  | .aggregateOnce => .ok { p with request.aggregateOnce := true }
  | .verbose => .ok { p with request.verbose := true }

def raiseAll (p : Progress) : List Flag → Except Stop Progress
  | [] => .ok p
  | f :: rest => do raiseAll (← p.raiseFlag f) rest

def assign (p : Progress) (s : Setting) (value : String) : Except Stop Progress :=
  let p := { p with afterContract := false }
  match s with
  | .catalogUrl => .ok { p with request.catalogUrl := some value }
  | .config => .ok { p with request.config := some value }
  | .output => .ok { p with request.output := some value }
  | .optimizerRuns =>
    match count value with
    | .ok n => .ok { p with request.runs := n }
    | .error fault => .error (.fault (.count fault))
  | .format =>
    match Report.Format.ofName? value with
    | some format => .ok { p with request.format := format }
    | none => .error (.fault (.noFormat value))

def addExtra (p : Progress) (text : String) : Progress :=
  { p with afterContract := false, extras := p.extras ++ [text] }

def addPlain (p : Progress) (text : String) : Progress :=
  if p.hasContract then p.addExtra text
  else { p with request.contract := text, hasContract := true, afterContract := true }

/-- Passes the divider, which belongs to the contract beside it and to nothing else. -/
def passDivider (p : Progress) : Progress :=
  if p.hasContract && !p.afterContract then p.addExtra "--"
  else { p with afterContract := false }

/-- The request, which has to be complete and without extra arguments. -/
def finish (p : Progress) : Except Stop Request :=
  if !p.hasContract then .error (.fault .noContract)
  else if !p.extras.isEmpty then .error (.fault (.unknown p.extras))
  else .ok p.request

end Progress

/-- How an argument of options ends: with an option whose value, if any, is yet to come, with a
setting and its value, or with letters that are no option. -/
inductive ClusterEnd where
  | bare (choice : Choice)
  | value (setting : Setting) (value : String)
  | stray (text : String)
  deriving DecidableEq, Repr

/-- The flags in an argument and how it ends. Behind a setting everything is its value; behind a
flag there is another short option. -/
def cluster (choice : Choice) (marked : Bool) (cs : List Char) :
    Except Fault (List Flag × ClusterEnd) :=
  match choice with
  | .setting s => .ok ([], .value s (String.ofList cs))
  | .flag f =>
    match cs with
    | [] => .error (.needlessValue f "")
    | c :: rest =>
      if marked || c = '-' then .error (.needlessValue f (String.ofList (c :: rest)))
      else match Choice.ofName? (String.ofList ['-', c]), rest with
        | none, _ => .ok ([f], .stray (String.ofList ('-' :: c :: rest)))
        | some next, [] => .ok ([f], .bare next)
        | some next, '=' :: value =>
          (cluster next true value).map fun (flags, ending) => (f :: flags, ending)
        | some next, d :: more =>
          (cluster next false (d :: more)).map fun (flags, ending) => (f :: flags, ending)

def optionParts (choice : Choice) : Option Joined → Except Fault (List Flag × ClusterEnd)
  | none => .ok ([], .bare choice)
  | some joined => cluster choice joined.marked joined.value

def scan : List Token → Progress → Except Stop Progress
  | [], p => .ok p
  | .plain text :: rest, p => scan rest (p.addPlain text)
  | .divider :: rest, p => scan rest p.passDivider
  | .unknown text :: rest, p => scan rest (p.addExtra text)
  | .known choice joined :: rest, p => do
    let (flags, ending) ← (optionParts choice joined).mapError Stop.fault
    match ending with
    | .value s v => scan rest (← (← p.raiseAll flags).assign s v)
    | .stray text => scan rest ((← p.raiseAll flags).addExtra text)
    | .bare (.flag f) => scan rest (← p.raiseAll (flags ++ [f]))
    | .bare (.setting s) =>
      match rest with
      | .plain v :: after => scan after (← (← p.raiseAll flags).assign s v)
      | _ => .error (.fault (.noValue s))

def readArguments (arguments : List String) : Except Stop Request := do
  let tokens ← (readTokens arguments).mapError Stop.fault
  (← scan tokens {}).finish

end AuditHours.CommandLine
