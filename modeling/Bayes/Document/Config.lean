import Bayes.Config
import Bayes.Document
/-!
Settings as a document: a record whose fields may all be missing.
-/
namespace Bayes

def Config.ofDocument? (d : Document) : Option Config := do
  match ← d.fields? ["parallel", "num_threads", "max_table_size", "sensitivity_cache"] with
  | [parallel, threads, limit, cache] =>
    let plain : Config := {}
    some {
      parallel := ← Document.fieldOr? plain.parallel Document.truth? parallel
      workers := ← Document.fieldOr? plain.workers Document.nat? threads
      entryLimit :=
        ← Document.fieldOr? plain.entryLimit (Document.optional? Document.nat?) limit
      keepAuxiliary := ← Document.fieldOr? plain.keepAuxiliary Document.truth? cache }
  | _ => none

end Bayes
