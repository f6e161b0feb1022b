import Spellbook.Bench.Fingerprint
import Spellbook.Bench.TimeShare

/-!
# Self-check of benchmarks

A benchmark should return something that depends on its parameters, that is the same on every run,
and that the repository's own code computed. The self-check gathers the evidence: fingerprints of
repeated runs, of runs under each setting and of the parameters themselves, and the time of each
run in the repository's own and in native code.
-/

namespace Spellbook
namespace Bench

/-- The evidence on one benchmark. -/
structure Evidence where
  kind : String
  repeated : List String := []
  bySetting : List (String × String) := []
  times : List (String × Profile) := []
  parameters : List String := []

/-- The name of the run without a setting. -/
def plainRun : String := "<default>"

/-- The name of a run under a setting. -/
def Setting.tag (s : Setting) : String := if s.isEmpty then "-" else s.line

/-- The fingerprints of all parameters, sorted and each once. -/
def parameterPrints (b : Bench) : List String :=
  ((b.settings.flatMap fun s => s.map fun (_, v) => v.fingerprint).mergeSort
    fun x y => !(decide (y < x))).eraseDups

/-- Gathers the evidence on a benchmark. With `once` it is only run once, without a setting. -/
def evidence (once : Bool) (b : Bench) : Evidence :=
  match b.outcome [] with
  | .error h => { kind := h.mark }
  | .ok v =>
    if once then { kind := v.kindName, repeated := [v.fingerprint] }
    else
      let runs := b.settings.zipIdx 1
      { kind := v.kindName
        repeated := [v.fingerprint, v.fingerprint]
        bySetting := runs.filterMap fun (s, _) =>
          (b.outcome s).toOption.map fun w => (Setting.tag s, w.fingerprint)
        times := (plainRun, b.profile 0) :: runs.map fun (s, n) => (Setting.tag s, b.profile n)
        parameters := b.parameterPrints }

/-- Fields of an object, each name once: a repeated name keeps its place and takes the later
value. -/
def fieldsOf (rows : List (String × JsonValue)) : JsonValue :=
  .object (rows.foldl (fun fs (k, v) => JsonValue.setField k v fs) [])

/-- The evidence as JSON: milliseconds and shares have three decimals. -/
def Evidence.json (e : Evidence) : JsonValue :=
  let timed (f : Profile → Float) : JsonValue :=
    fieldsOf (e.times.map fun (n, p) => (n, .float (floatRoundTo (f p) 3)))
  .object
    [("ret_type", .text e.kind),
     ("fp_stable", .list (e.repeated.map .text)),
     ("fp_by_param", fieldsOf (e.bySetting.map fun (n, f) => (n, .text f))),
     ("repo_tt_ms", timed fun p => p.time Frame.isOwn * 1000.0),
     ("repo_frac", timed fun p => p.share (p.time Frame.isOwn)),
     ("ext_frac", timed fun p => p.share (p.time Frame.isNative)),
     ("param_fps", .list (e.parameters.map .text))]

def selfCheckReport (once : Bool) (s : Suite) : JsonValue :=
  match s.loading with
  | some m => loadingReport m
  | none =>
    .object [("semcheck", .object (s.inOrder.map fun b => (b.name, (b.evidence once).json)))]

end Bench
end Spellbook
