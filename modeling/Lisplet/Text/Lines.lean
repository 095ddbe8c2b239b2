/-! Lines of text. A line ends at a line feed, at a carriage return, or at the two together, and
every end is given as a line feed. The last line may have no end. -/

namespace Lisplet.Text

/-- A splitter: the lines so far, the line at hand, and whether a carriage return came last. -/
structure Splitter where
  lines : Array String := #[]
  current : String := ""
  afterReturn : Bool := false

def Splitter.push (s : Splitter) (c : Char) : Splitter :=
  if c = '\n' && s.afterReturn then { s with afterReturn := false }
  else if c = '\n' || c = '\r' then
    { lines := s.lines.push (s.current.push '\n'), afterReturn := c = '\r' }
  else { s with current := s.current.push c, afterReturn := false }

/-- All lines, the last one with or without an end. -/
def lines (s : String) : List String :=
  let r := s.toList.foldl Splitter.push {}
  (if r.current.isEmpty then r.lines else r.lines.push r.current).toList

/-- The lines whose end is certain when more may follow: a carriage return at the very end could
still be half of an end. -/
def endedLines (s : String) : List String :=
  let cs := s.toList
  let cs := if cs.getLast? = some '\r' then cs.dropLast else cs
  (cs.foldl Splitter.push {}).lines.toList

end Lisplet.Text
