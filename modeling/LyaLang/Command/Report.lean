import LyaLang.Compile
import LyaLang.Yaml.Scalar

/-! # Reports on source files

A report tells what compiling a file found. It is written as lines of text, in color on request, or as
YAML.
-/

namespace LyaLang.Command

/-- What was found in one file. -/
structure FileReport where
  file : Bytes
  valid : Bool
  parseErrors : List ParseError := []
  issues : List Issue := []
  error : Bytes := []

def FileReport.ofCompilation (file : Bytes) (c : Compilation) : FileReport :=
  { file
    valid := c.result.toOption.isSome
    parseErrors := c.parseErrors
    issues := c.issues
    error := match c.result with
      | .error e => if c.isValid then e.message else []
      | .ok _ => [] }

/-- A color or weight of letters. -/
inductive Paint where
  | red | yellow | bold
deriving DecidableEq, Repr

/-- The number of a color or weight for a terminal. -/
def Paint.code : Paint → Bytes
  | red => "31"
  | yellow => "33"
  | bold => "1"

/-- A text in a color, if there is color. -/
def painted (color : Bool) (paint : Paint) (text : Bytes) : Bytes :=
  if color then ("\x1b[" : Bytes) ++ paint.code ++ ("m" : Bytes) ++ text ++ ("\x1b[0m" : Bytes) else text

namespace FileReport

def line (color : Bool) (r : FileReport) (position label text : Bytes) : Bytes :=
  painted color .bold r.file ++ position ++ (": " : Bytes) ++ painted color .red (label ++ (":" : Bytes)) ++
    (" " : Bytes) ++ text ++ ("\n" : Bytes)

def lines (color : Bool) (r : FileReport) : List Bytes :=
  let atLine (n : Nat) : Bytes := (":" : Bytes) ++ Text.ofNat n
  r.parseErrors.map (fun e => r.line color (atLine e.line) "syntax error" e.text) ++
    r.issues.map (fun i => r.line color (atLine i.line) (i.fault.kind.name : Bytes) i.fault.message) ++
    if r.error.isEmpty then [] else [r.line color [] "error" r.error]

/-- Reports as text, with a summary if there are problems. -/
def text (color : Bool) (reports : List FileReport) : Bytes :=
  let problems := reports.flatMap (lines color)
  let summary := Text.ofNat problems.length ++ (" problem(s) in " : Bytes) ++ Text.ofNat reports.length ++
    (" file(s)" : Bytes)
  problems.flatten ++ if problems.isEmpty then [] else painted color .yellow summary ++ ("\n" : Bytes)

def field (indent : Nat) (name : String) (value : Bytes) : Bytes :=
  (name : Bytes) ++ (": " : Bytes) ++ Yaml.scalar (indent + 2) value

/-- A list in YAML under a name, left out if it is empty. -/
def list (name : String) (items : List Bytes) : Bytes :=
  if items.isEmpty then []
  else ("  " : Bytes) ++ (name : Bytes) ++ (":\n" : Bytes) ++ items.flatMap fun item => ("    - " : Bytes) ++ item

def issueYaml (i : Issue) : Bytes :=
  field 6 "kind" (i.fault.kind.name : Bytes) ++ ("      " : Bytes) ++ field 6 "message" i.fault.message ++
    ("      line: " : Bytes) ++ Text.ofNat i.line ++ ("\n" : Bytes)

def yaml (r : FileReport) : Bytes :=
  ("- " : Bytes) ++ field 2 "file" r.file ++ ("  ok: " : Bytes) ++ (if r.valid then ("true" : Bytes) else "false") ++
    ("\n" : Bytes) ++
    list "parse_errors" (r.parseErrors.map fun e => Yaml.scalar 6 e.message) ++
    list "issues" (r.issues.map issueYaml) ++
    if r.error.isEmpty then [] else ("  " : Bytes) ++ field 2 "error" r.error

end FileReport

end LyaLang.Command
