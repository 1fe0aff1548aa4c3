import FrontEnd.OrderedMap.Basic

/-!
The two printed forms of a map: on one line, or one entry a line with every line indented and
every entry followed by a comma.
-/

namespace FrontEnd.OrderedMap

variable {κ α : Type} {hash : κ → UInt32}

def entryText (showKey : κ → String) (showValue : α → String) (e : κ × α) : String :=
  showKey e.1 ++ ": " ++ showValue e.2

def printInline (showKey : κ → String) (showValue : α → String) (m : OrderedMap hash α) : String :=
  "\x7b" ++ String.intercalate ", " (m.toList.map (entryText showKey showValue)) ++ "\x7d"

def printLines (showKey : κ → String) (showValue : α → String) (m : OrderedMap hash α) : String :=
  if m.isEmpty then "\x7b\x7d"
  else
    let lines := m.toList.map fun e => "    " ++ entryText showKey showValue e ++ ",\n"
    "\x7b\n" ++ String.join lines ++ "\x7d"

end FrontEnd.OrderedMap
