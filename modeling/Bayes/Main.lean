import Bayes.Document.Config
import Bayes.Document.Network
import Bayes.Document.Reader
import Bayes.Report
import Bayes.Report.Arguments
/-!
The command line: reads descriptions from files and prints a report.
-/
open Bayes Bayes.Report

def readDescription {β : Type} (read? : Document → Option β) (path : String) : IO β := do
  let text ← IO.FS.readFile path
  match (Document.parse? text).bind read? with
  | some x => return x
  | none => throw (.userError (path ++ ": the file does not hold such a description"))

def printReport (a : Arguments) : IO UInt32 := do
  let declarations ← match a.network with
    | some path => readDescription Declaration.listOfDocument? path
    | none => pure sprinkler
  let config ← match a.config with
    | some path => readDescription Config.ofDocument? path
    | none => pure {}
  let r := Report.make declarations config a.evidence
  r.lines.forM IO.println
  match r.failure with
  | none => return 0
  | some reason =>
    IO.eprintln ("Error: " ++ reason)
    return 1

def main (args : List String) : IO UInt32 := do
  match ({} : Arguments).read? args with
  | none =>
    IO.eprintln Arguments.usage
    return 2
  | some a =>
    try printReport a
    catch err =>
      IO.eprintln ("Error: " ++ toString err)
      return 1
