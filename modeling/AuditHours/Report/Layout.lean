import AuditHours.Json.Printer
import AuditHours.Report.Template

/-!
The formats of a report. The document form holds all of the data; the text form shows the hours
alone, and the page form shows the hours and what they were computed from.
-/
namespace AuditHours.Report

open Json

inductive Format where
  | json
  | text
  | markdown
  deriving DecidableEq, Repr

namespace Format

def all : List Format := [.text, .json, .markdown]

def name : Format → String
  | .json => "json"
  | .text => "text"
  | .markdown => "markdown"

def ofName? (name : String) : Option Format := all.find? (·.name == name)

def suffix : Format → String
  | .json => ".json"
  | .text => ".txt"
  | .markdown => ".md"

def logger : Format → String
  | .json => "auditscope.exporter.JSONExporter"
  | _ => "auditscope.exporter.TemplateExporter"

end Format

def rule : String := String.ofList (List.replicate 34 '-') ++ "\n"

def textLayout : List Piece :=
  [.fixed ("\n" ++ rule ++ "Estimated audit time breakdown:\n" ++ rule ++ "\n- Base Time: "),
    .hours "base_time",
    .fixed " hours\n- Complexity Time: ",
    .hours "complexity_time",
    .fixed " hours\n- Upgradeability Complexity Time: ",
    .hours "upgradeability_time",
    .fixed (" hours\n\n\n" ++ rule ++ " Total estimated audit time: "),
    .hours "total",
    .fixed (" hours\n" ++ rule)]

def pageLayout : List Piece :=
  [.fixed "# Audit Time Estimate\n\n| Field | Value |\n|-------|-------|\n| Contract | `",
    .fieldOr "contract_path" "<source>",
    .fixed "` |\n| Version constraint | `",
    .field "constraint",
    .fixed "` |\n| Compiler | `",
    .field "solc_version",
    .fixed "` |\n| Lines | ",
    .field "line_count",
    .fixed " |\n| Contract units | ",
    .elements "contract_units" "none",
    .fixed " |\n\n## Breakdown\n\n| Component | Hours |\n|-----------|------:|\n| Base time | ",
    .hours "base_time",
    .fixed " |\n| Complexity time | ",
    .hours "complexity_time",
    .fixed " |\n| Upgradeability time | ",
    .hours "upgradeability_time",
    .fixed " |\n| **Total** | **",
    .hours "total",
    .fixed "** |\n"]

def render (format : Format) (data : Value) : Except Fault String :=
  match format with
  | .json => .ok (indented data)
  | .text => fill textLayout data
  | .markdown => fill pageLayout data

end AuditHours.Report
