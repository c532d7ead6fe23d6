import Serene.ReplSession

/-!
# The REPL as its user sees it

The loop again, on the keys and on texts: each prompt is a session of the editor,
with any keys in it, and the history is a list of texts. The loop on bytes does
the same, prompt after prompt. It needs no condition where all that is typed or
stored is of single bytes.
-/

namespace ReplRefinement

open ByteClasses Utf8Texts Zippers TerminalText MemoryBlocks LineDrawing LineColumns
open BoundedLogs InputHistory LineEditor LineEdits EditSessions EditSafety ReplSession

variable {mlmode : Bool} {prompt : Text} {cap : Nat} {e e' : Editing} {m : Editor}
variable {P : CodedChar → Prop}

section Loop
variable {Ctx : Type} {activeNS : Ctx → Bytes} (evaluate : Ctx → Bytes → Ctx × Bool)
variable {around : Surroundings}

variable {n : Nat} {past : List Text} {keys : List Key}

end Loop

/-- The entry before is shown and `s` put behind it; back in the new line `t` and `s` are typed, the
`s` is deleted, and ENTER; then the entry before again, and `CTRL_C`. -/
def editing : List Key :=
  [.escape (.ascii 27 (by decide)) (by decide) 91 65 (by decide),
    .char (.ascii 115 (by decide)) (by decide),
    .escape (.ascii 27 (by decide)) (by decide) 91 66 (by decide),
    .char (.ascii 116 (by decide)) (by decide), .char (.ascii 115 (by decide)) (by decide),
    .char (.ascii 8 (by decide)) (by decide), enterKey, .char (.ascii 16 (by decide)) (by decide),
    interruptKey]

end ReplRefinement
