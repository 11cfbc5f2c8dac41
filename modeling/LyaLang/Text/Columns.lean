import LyaLang.Text.Utf8

/-! # Columns

Text in lines is lined up in columns. A tab ends a cell, and the cells of a column stand under each
other, two blanks wider than the widest of them, as long as line after line has that column. What
follows the last tab of a line is in no column.
-/

namespace LyaLang.Text

def hasColumn (column : Nat) (line : List Bytes) : Bool := column + 1 < line.length

/-- The width of a column in every line; it is the same in neighbouring lines that have the column. -/
def columnWidths (lines : List (List Bytes)) (column : Nat) : List Nat :=
  (lines.splitBy fun a b => hasColumn column a == hasColumn column b).flatMap fun run =>
    let width := (run.map fun line => length (line.getD column [])).foldl max 0
    run.map fun _ => width + 2

def alignLine : List Nat → List Bytes → Bytes
  | width :: widths, cell :: next :: rest =>
    cell ++ List.replicate (width - length cell) 0x20 ++ alignLine widths (next :: rest)
  | _, cells => cells.flatten

def alignLines (lines : List (List Bytes)) : List Bytes :=
  let count := (lines.map List.length).foldl max 0
  let widths := (List.range count).map (columnWidths lines)
  lines.mapIdx fun i line => alignLine (widths.map fun column => column.getD i 0) line

/-- Line up the columns of a text. A vertical tab ends a cell too, and a form feed ends a line and every
column. -/
def align (text : Bytes) : Bytes :=
  let cells (line : Bytes) : List Bytes := Bytes.split 0x09 (line.map fun b => if b == 0x0B then 0x09 else b)
  let pages := (Bytes.split 0x0C text).map fun page => (Bytes.split 0x0A page).map cells
  Bytes.join [0x0A] (pages.flatMap alignLines)

end LyaLang.Text
