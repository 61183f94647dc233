/-!
# Lines of text

A line ends at a line feed and nowhere else; the last line need not have one. Files are read with
every line end turned into a line feed first.
-/
namespace WordAutomata.Text

/-- The lines of a text, each with the line feed that ends it. -/
def rawLines : List Char → List (List Char)
  | [] => []
  | c :: rest =>
    if c = '\n' then [c] :: rawLines rest
    else match rawLines rest with
      | [] => [[c]]
      | line :: lines => (c :: line) :: lines

/-- A line without the carriage returns and line feeds at its end. -/
def trimLineEnd (line : List Char) : List Char :=
  (line.reverse.dropWhile fun c => c = '\r' || c = '\n').reverse

/-- The lines of a text without their ends. -/
def lines (text : String) : List String :=
  (rawLines text.toList).map fun line => String.ofList (trimLineEnd line)

/-- A text with a line feed for every carriage return and for every carriage return that a line
feed follows. -/
def unifyLineEnds : List Char → List Char
  | [] => []
  | '\r' :: '\n' :: rest => '\n' :: unifyLineEnds rest
  | c :: rest => (if c = '\r' then '\n' else c) :: unifyLineEnds rest

end WordAutomata.Text
