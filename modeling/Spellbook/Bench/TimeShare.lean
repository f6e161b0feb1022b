import Spellbook.Bench.Suite
import Spellbook.Json.Writer

/-!
# Time in the repository's own code

For each benchmark, how many percent of its time were spent in the repository's own code, and which
groups of other code took most. A benchmark that failed gets a negative percentage.
-/

namespace Spellbook
namespace Bench

/-- The percentage of a benchmark and its hottest groups. -/
def timeShare (b : Bench) : Float × List (Float × String) :=
  match b.outcome [] with
  | .ok _ =>
    let p := b.profile 0
    (p.percent (p.time Frame.isOwn), p.hottest)
  | .error h => (-1.0, [(0.0, h.mark)])

def hottestJson (rows : List (Float × String)) : JsonValue :=
  .list (rows.map fun (p, n) => .list [.float p, .text n])

/-- What is reported in place of results when the benchmarks could not be loaded. -/
def loadingReport (m : Mishap) : JsonValue := .object [("_import_error", .text m.line)]

def timeReport (s : Suite) : JsonValue :=
  match s.loading with
  | some m => loadingReport m
  | none =>
    let rows := s.inOrder.map fun b => (b.name, b.timeShare)
    .object
      [("repo_time_pct", .object (rows.map fun (n, p, _) => (n, .float p))),
       ("hot_ext", .object (rows.map fun (n, _, hot) => (n, hottestJson hot)))]

end Bench
end Spellbook
