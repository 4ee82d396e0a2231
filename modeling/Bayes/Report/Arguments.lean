/-!
The arguments of the command line.
-/
namespace Bayes.Report

structure Arguments where
  network : Option String := none
  config : Option String := none
  evidence : List String := []

namespace Arguments

def usage : String :=
  "Usage: bayes [--network FILE] [--config FILE] [--evidence VAR=STATE]..."

inductive Flag where
  | network
  | config
  | evidence

def set (a : Arguments) (value : String) : Flag → Arguments
  | .network => { a with network := some value }
  | .config => { a with config := some value }
  | .evidence => { a with evidence := a.evidence ++ [value] }

def flag? : String → Option Flag
  | "-n" | "--network" => some .network
  | "-c" | "--config" => some .config
  | "-e" | "--evidence" => some .evidence
  | _ => none

def joined? (text : String) : Option (Flag × String) :=
  match text.toList.span (· != '=') with
  | (name, _ :: value) => (flag? (String.ofList name)).map fun f => (f, String.ofList value)
  | (_, []) => none

def read? (a : Arguments) : List String → Option Arguments
  | [] => some a
  | [text] => (joined? text).map fun (f, value) => a.set value f
  | text :: value :: rest =>
    match flag? text with
    | some f => (a.set value f).read? rest
    | none => (joined? text).bind fun (f, joined) => (a.set joined f).read? (value :: rest)

end Arguments
end Bayes.Report
