import MiniJava.Text.Bytes
import MiniJava.Source.Span
/-!
Diagnostic messages and the log that collects them.
-/
namespace MiniJava

structure Message where
  line : Int
  text : Bytes
  deriving DecidableEq, Repr

namespace Message

/-- A message about the first line of a range. -/
def about (span : Span) (text : String) : Message := ⟨span.first, Bytes.ofString text⟩

def render (m : Message) : Bytes := Bytes.ofString s!"*** line {m.line}: " ++ m.text

def renderAll (ms : List Message) : Bytes :=
  ms.flatMap fun m => m.render ++ Bytes.ofString "\n"

end Message

end MiniJava
