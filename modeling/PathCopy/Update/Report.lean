import PathCopy.Text.Blank
import PathCopy.Text.Lines
import PathCopy.Text.Width
import PathCopy.Update.Error

/-!
Reports. A report shows the lines of the source that an error points to, with a margin of line
numbers and a mark with a label: an underline if the place lies in one line, a bracket in the margin
if it spans several. The place is given by offsets that are taken to count characters; a place that
reaches one character behind the end of the text has no end to mark, so its bracket is only opened
and its underline is left out, and one that reaches further is not shown.
-/

namespace PathCopy

namespace Report

/-- The name that a report gives to the source. -/
def sourceName : String := "<procedure>"

def tabWidth : Nat := 4

/-- How many columns the character at place `col` of its line takes; a tab goes up to the next
stop. -/
def columns (col : Nat) (c : Char) : Nat :=
  if c = '\t' then tabWidth - col % tabWidth
  else if isWhite c then 1
  else charWidth c

/-- The characters of a line as they are shown, without the white space at its right end. -/
def visible (l : Line) : List Char := (l.chars.reverse.dropWhile isWhite).reverse

/-- A line as it is shown, with blanks for white space. -/
def shown (l : Line) : List Char :=
  ((visible l).zipIdx.map fun (c, col) =>
    if isWhite c then List.replicate (columns col c) ' ' else [c]).flatten

/-- A row of marks under the first `n` characters of a line. `mark` gives the mark of each place and
what fills the further columns of a wide character. -/
def marks (l : Line) (n : Nat) (mark : Nat → Char × Char) : List Char :=
  let widths := ((visible l).zipIdx.map fun (c, col) => columns col c).toArray
  ((List.range n).map fun col =>
    match widths.getD col 1 with
    | 0 => []
    | w + 1 => (mark col).1 :: List.replicate w (mark col).2).flatten

def blanks (n : Nat) : List Char := List.replicate n ' '

def bars (n : Nat) : List Char := List.replicate n '─'

/-- The margin beside a line, for numbers of `width` digits. -/
def numberMargin (width : Nat) (l : Line) : List Char :=
  let number := Nat.toDigits 10 (l.index + 1)
  ' ' :: blanks (width - number.length) ++ number ++ [' ', '│', ' ']

def plainMargin (width : Nat) (bar : Char) : List Char := blanks (width + 2) ++ [bar, ' ']

/-- The rows for a place in one line. The underline has its joint in the middle; an empty place has
a joint only. -/
def inlineRows (width : Nat) (l : Line) (start stop : Nat) (label : List Char) :
    List (List Char) :=
  let first := start - l.offset
  let last := stop - l.offset
  let joint := (start + stop) / 2 - l.offset
  let isUnder (col : Nat) : Bool := first ≤ col && col < last
  let under (col : Nat) : Char × Char :=
    if isUnder col then (if col = joint then '┬' else '─', '─')
    else if col = joint then ('│', ' ')
    else (' ', ' ')
  let arrow (col : Nat) : Char × Char :=
    if col = joint then ('╰', '─')
    else if joint < col then ('─', '─')
    else (' ', ' ')
  [numberMargin width l ++ shown l,
    plainMargin width '│' ++ marks l (last + 2) under,
    plainMargin width '│' ++ marks l (last + 2) arrow ++ ' ' :: label]

def openRow (width : Nat) (l : Line) : List Char :=
  numberMargin width l ++ ['╭', '─', '▶', ' '] ++ shown l

/-- The row for the lines within a bracket, which are not shown. -/
def gapRow (width : Nat) : List Char := plainMargin width '┆' ++ ['┆', ' ', ' ', ' ']

/-- The rows for a place that begins in the line `l` and ends in the line `k`. -/
def bracketRows (width : Nat) (l k : Line) (label : List Char) : List (List Char) :=
  let reach := k.chars.length + 2
  [openRow width l] ++ (if l.index + 1 < k.index then [gapRow width] else []) ++
    [numberMargin width k ++ ['├', '─', '▶', ' '] ++ shown k,
      plainMargin width '│' ++ ['│', ' ', ' ', ' '] ++ marks k reach fun _ => (' ', ' '),
      plainMargin width '│' ++ ['╰', '─', '─', '─'] ++ marks k reach (fun _ => ('─', '─'))
        ++ ' ' :: label]

/-- The rows for a place that begins in the line `l` and has no end in the text, whose last line is
`k`. Nothing carries its label. -/
def openEndedRows (width : Nat) (l k : Line) : List (List Char) :=
  if l.index = k.index then [plainMargin width '│'] else [openRow width l, gapRow width]

/-- The rows of the source with a label at the place from `start` to `stop`; none if the place lies
behind the end. -/
def sourceRows (source : List Char) (start stop : Nat) (label : List Char) : List (List Char) :=
  let lines := linesOf source
  match lineAt? lines start, lineAt? lines (if start < stop then stop - 1 else start) with
  | some l, some k =>
    let width := (Nat.toDigits 10 (k.index + 1)).length
    let place :=
      sourceName ++ ":" ++ toString (l.index + 1) ++ ":" ++ toString (start - l.offset + 1)
    let rows :=
      if source.length < stop then openEndedRows width l k
      else if l.index = k.index then inlineRows width l start stop label
      else bracketRows width l k label
    [blanks (width + 2) ++ ['╭', '─', '[', ' '] ++ place.toList ++ [' ', ']'],
      blanks (width + 2) ++ ['│']] ++ rows ++ [bars (width + 2) ++ ['╯']]
  | _, _ => []

end Report

namespace UpdateError

/-- The report of an error in a source text. An error without a place marks the whole text. -/
def report (e : UpdateError) (source : String) : String :=
  let chars := source.toList
  let size := utf8Length chars
  let span := (e.span?).getD ⟨0, size⟩
  let rows := ("Error: " ++ e.message).toList ::
    Report.sourceRows chars (min span.start size) (min span.stop size) e.label.toList
  String.ofList (rows.map (· ++ ['\n'])).flatten

end UpdateError

end PathCopy
