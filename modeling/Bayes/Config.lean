/-!
Settings of an inference engine.
-/
namespace Bayes

/-- The number of workers and the reuse of auxiliary runs are choices of speed: no answer depends on
them. -/
structure Config where
  parallel : Bool := true
  /-- Zero leaves the number of workers open. -/
  workers : Nat := 0
  /-- A network whose clique tables have more entries than this is refused. -/
  entryLimit : Option Nat := none
  keepAuxiliary : Bool := true

namespace Config

def sequential : Config := { parallel := false }

def pooled (workers : Nat) : Config := { parallel := true, workers := workers }

def limitedTo (entries : Nat) (config : Config) : Config :=
  { config with entryLimit := some entries }

end Config
end Bayes
