import AuditHours.Files.Tree
import AuditHours.Json.Reader
import AuditHours.Text.Character

/-!
Text files. A text file holds the bytes of its text; reading it unifies the line breaks, writing
it changes nothing. A document file holds one JSON value.
-/
namespace AuditHours.Files

open Text

inductive ReadFailure where
  | file (error : Error)
  | decoding (error : DecodeError)
  deriving DecidableEq

def byteText (b : UInt8) : String := "0x" ++ String.ofList (hexDigits 2 b.toNat)

def decodeMessage (e : DecodeError) : String :=
  let reason := match e.reason with
    | .invalidStart => "invalid start byte"
    | .invalidContinuation => "invalid continuation byte"
    | .truncated => "unexpected end of data"
  let what := match e.span with
    | [b] => s!"byte {byteText b} in position {e.position}"
    | span => s!"bytes in position {e.position}-{e.position + span.length - 1}"
  s!"'utf-8' codec can't decode {what}: {reason}"

def ReadFailure.message : ReadFailure → String
  | .file e => e.message
  | .decoding e => decodeMessage e

def textOfBytes (bytes : List UInt8) : Except DecodeError String :=
  (decodeFrom 0 bytes).map fun cs => String.ofList (unifyLineBreaks cs)

namespace Tree

def readText (tree : Tree) (path : Path) : Except ReadFailure String :=
  match tree.read path with
  | .error e => .error (.file e)
  | .ok bytes => (textOfBytes bytes).mapError .decoding

def writeText (tree : Tree) (path : Path) (text : String) : Except Error Unit × Tree :=
  tree.writeDeep path (encode text)

end Tree

inductive DocumentFailure where
  | unreadable (failure : ReadFailure)
  | malformed (error : Json.ReadError)
  deriving DecidableEq

def DocumentFailure.message : DocumentFailure → String
  | .unreadable failure => failure.message
  | .malformed error => error.message

def Tree.readDocument (tree : Tree) (path : Path) : Except DocumentFailure Json.Value :=
  match tree.readText path with
  | .error e => .error (.unreadable e)
  | .ok text => (Json.read text).mapError .malformed

end AuditHours.Files
