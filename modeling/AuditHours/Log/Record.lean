import AuditHours.Number.Text

/-!
Log records. A level is a whole number, and the usual levels have names. A record is written by a
named logger; names are made of parts divided by dots, and a logger lies below each of the loggers
that the beginnings of its name denote.
-/
namespace AuditHours.Log

abbrev Level := Int

def Level.debug : Level := 10

def Level.info : Level := 20

def Level.warning : Level := 30

def Level.error : Level := 40

def Level.critical : Level := 50

/-- The name of a level; other numbers are named after the number. -/
def Level.name (level : Level) : String :=
  if level = 0 then "NOTSET"
  else if level = Level.debug then "DEBUG"
  else if level = Level.info then "INFO"
  else if level = Level.warning then "WARNING"
  else if level = Level.error then "ERROR"
  else if level = Level.critical then "CRITICAL"
  else "Level " ++ Number.intText level

/-- The names of the usual levels; some levels have two. -/
def Level.named : List (String × Level) :=
  [("CRITICAL", .critical), ("DEBUG", .debug), ("ERROR", .error), ("FATAL", .critical),
    ("INFO", .info), ("NOTSET", 0), ("WARN", .warning), ("WARNING", .warning)]

/-- One entry of a log. Details follow the message on lines of their own. -/
structure Record where
  level : Level
  logger : String
  message : String
  details : Option String := none
  deriving DecidableEq, Repr

def rootName : String := "auditscope"

def loggerName (part : String) : String := rootName ++ "." ++ part

end AuditHours.Log
