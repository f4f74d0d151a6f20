import Scriptlet.Report
import Scriptlet.Text.Lines
/-!
Running a file: every line that is not blank is a fragment of its own, and each is echoed and
answered in turn until one fails.
-/

namespace Scriptlet

/-- Why a file cannot be opened. -/
inductive OpenFailure
  | missing | directory | notDirectory | nameTooLong | denied
  | other (reason : String)
deriving DecidableEq, Repr

def OpenFailure.reason : OpenFailure → String
  | missing => "No such file or directory"
  | directory => "Is a directory"
  | notDirectory => "Not a directory"
  | nameTooLong => "File name too long"
  | denied => "Permission denied"
  | other reason => reason

/-- What opening a file gives. -/
abbrev FileContent := Except OpenFailure ByteArray

namespace ScriptFile

/-- Why the run of a file breaks off. -/
inductive Trouble
  | unopened (f : OpenFailure)
  /-- The bytes are not UTF-8. -/
  | undecodable
  | failed (f : Failure)

structure Run where
  output : Output
  trouble : Option Trouble
  machine : Machine

/-- Runs lines until one fails. -/
def runLines (limits : Limits) (log : Bool) : List String → Machine → Run
  | [], m => ⟨{}, none, m⟩
  | line :: lines, m =>
    let src := complete line
    if src = "" then runLines limits log lines m
    else
      let (result, m) := m.run limits src
      let (logged, m) := m.flush log
      let shown : Output := { out := ">> " ++ src ++ "\n" } ++ logged
      match result with
      | .error f => ⟨shown, some (.failed f), m⟩
      | .ok c =>
        let rest := runLines limits log lines m
        { rest with output := shown ++ resultLine c.datum ++ rest.output }

/-- Runs the file that is called `path`. -/
def run (limits : Limits) (log : Bool) (path : String) (content : FileContent) (m : Machine) :
    Run :=
  let heading : Output := { out := "Reading from \"" ++ path ++ "\"\n" }
  match content with
  | .error f => ⟨heading, some (.unopened f), m⟩
  | .ok bytes =>
    match String.fromUTF8? bytes with
    | none => ⟨heading, some .undecodable, m⟩
    | some s =>
      let r := runLines limits log (Text.lines s) m
      { r with output := heading ++ r.output }

end ScriptFile

end Scriptlet
