import Reparse.CommandLine.Replay

/-!
# The program

The program reads its arguments and runs the command that they name.  Arguments
that make no command end it with status 2.
-/

namespace Reparse.CommandLine

open Corpus

def versionLine : String := "roundtrip 0.1.0"

def usageLines : List String :=
  ["Usage: roundtrip [--verbose] <COMMAND>",
    "",
    "  corpus [--list] [--registry PATH] [--workdir PATH] [--jobs N] [--poll-interval-ms N]",
    "         [--no-checkout] [--json] [NAMES]...",
    "      Check out registered projects and round-trip every source file",
    "",
    "  replay [--suite PATH] [--workdir PATH] [--filter TEXT] [--json]",
    "      Replay a grammar suite through the printer"]

def Stop.ending : Stop → Ending
  | version => .done true [versionLine]
  | help => .done true usageLines
  | usage => ⟨2, "", printed usageLines⟩

def run {σ : Type} (workspace : Workspace σ) (times : Times)
    (args : List String) (state : σ) : Ending × σ :=
  match readArguments args with
  | .error stop => (stop.ending, state)
  | .ok (.corpus args) => runCorpus workspace times args state
  | .ok (.replay args) => runReplay workspace times args state

end Reparse.CommandLine
