import LyaLang.Text.AnyBase
import LyaLang.Text.Quoted
import LyaLang.Time.Duration

/-! # Command line flags

Flags stand in front of the arguments of a command. A flag starts with one or two dashes and has its
value after an equals sign or in the next argument; a switch needs no value. Two dashes alone, or the
first argument that is no flag, end the flags.
-/

namespace LyaLang.Command

/-- The type of a flag, with its default if that is worth showing. -/
inductive FlagType where
  | switch
  | integer
  | text (preset : Bytes)
  | duration (preset : Bytes)
deriving DecidableEq, Repr

/-- A flag that a command knows. -/
structure Flag where
  name : String
  type : FlagType
  usage : String
deriving DecidableEq, Repr

inductive FlagValue where
  | switch (on : Bool)
  | integer (value : Int64)
  | text (value : Bytes)
  | duration (value : Int64)
deriving DecidableEq, Repr

/-- The flags of a command, and the text in front of their list. -/
structure FlagSet where
  header : Bytes
  flags : List Flag
  footer : Bytes := []

/-- What was found on a command line. -/
structure Arguments where
  given : List (String × FlagValue) := []
  rest : List Bytes := []

/-- Why a command line is refused. -/
inductive FlagError where
  | help
  | malformed (argument : Bytes)
  | unknown (name : Bytes)
  | needsArgument (name : Bytes)
  | badSwitch (name value : Bytes)
  | badValue (name value : Bytes) (reason : String)
deriving DecidableEq, Repr

/-- The wording of an error; a call for help has none. -/
def FlagError.message? : FlagError → Option Bytes
  | help => none
  | malformed argument => some (("bad flag syntax: " : Bytes) ++ argument)
  | unknown name => some (("flag provided but not defined: -" : Bytes) ++ name)
  | needsArgument name => some (("flag needs an argument: -" : Bytes) ++ name)
  | badSwitch name value =>
    some (("invalid boolean value " : Bytes) ++ Text.quote value ++ (" for -" : Bytes) ++ name ++
      (": parse error" : Bytes))
  | badValue name value reason =>
    some (("invalid value " : Bytes) ++ Text.quote value ++ (" for flag -" : Bytes) ++ name ++ (": " : Bytes) ++
      (reason : Bytes))

namespace FlagType

def name : FlagType → Bytes
  | switch => []
  | integer => " int"
  | text _ => " string"
  | duration _ => " duration"

/-- The default as it is shown. -/
def presetText : FlagType → Bytes
  | switch | integer => []
  | text preset => if preset.isEmpty then [] else (" (default " : Bytes) ++ Text.quote preset ++ (")" : Bytes)
  | duration preset => (" (default " : Bytes) ++ preset ++ (")" : Bytes)

end FlagType

/-- The lines that describe a flag. A switch of one letter has its usage on the same line. -/
def Flag.describe (f : Flag) : Bytes :=
  let front := ("  -" : Bytes) ++ (f.name : Bytes) ++ f.type.name
  front ++ (if front.length ≤ 4 then ("\t" : Bytes) else "\n    \t") ++ (f.usage : Bytes) ++
    f.type.presetText ++ ("\n" : Bytes)

namespace FlagSet

def usage (s : FlagSet) : Bytes :=
  let sorted := s.flags.mergeSort fun a b => !Bytes.before (b.name : Bytes) (a.name : Bytes)
  s.header ++ sorted.flatMap Flag.describe ++ s.footer

def report (s : FlagSet) (e : FlagError) : Bytes :=
  (match e.message? with
    | some message => message ++ ("\n" : Bytes)
    | none => []) ++ s.usage

end FlagSet

/-- The truth value that a word names. -/
def parseSwitch? (text : Bytes) : Option Bool :=
  if ["1", "t", "T", "true", "TRUE", "True"].any fun (w : String) => (w : Bytes) == text then some true
  else if ["0", "f", "F", "false", "FALSE", "False"].any fun (w : String) => (w : Bytes) == text then some false
  else none

def parseValue (type : FlagType) (name value : Bytes) : Except FlagError FlagValue :=
  match type with
  | .switch =>
    match parseSwitch? value with
    | some on => .ok (.switch on)
    | none => .error (.badSwitch name value)
  | .integer =>
    match Text.parseAnyBase value with
    | .ok i => .ok (.integer i)
    | .error .malformed => .error (.badValue name value "parse error")
    | .error .outOfRange => .error (.badValue name value "value out of range")
  | .text _ => .ok (.text value)
  | .duration _ =>
    match Duration.parse? value with
    | some d => .ok (.duration d)
    | none => .error (.badValue name value "parse error")

/-- What stands after the dashes of an argument, if it is a flag. -/
def dropDashes? : Bytes → Option Bytes
  | 0x2D :: 0x2D :: rest => some rest
  | 0x2D :: b :: rest => some (b :: rest)
  | _ => none

/-- The name and the value of a flag written as one argument. -/
def splitFlag (text : Bytes) : Bytes × Option Bytes :=
  match Bytes.cut? "=" text with
  | some (name, value) => (name, some value)
  | none => (text, none)

namespace FlagSet

def flag? (s : FlagSet) (name : Bytes) : Except FlagError Flag :=
  match s.flags.find? fun f => (f.name : Bytes) == name with
  | some flag => .ok flag
  | none => .error (if name == "help" || name == "h" then .help else .unknown name)

def parse (s : FlagSet) (found : Arguments) : List Bytes → Except FlagError Arguments
  | [] => .ok found
  | argument :: rest =>
    match dropDashes? argument with
    | none => .ok { found with rest := argument :: rest }
    | some [] => .ok { found with rest }
    | some (b :: body) => do
      if b == 0x2D || b == 0x3D then throw (.malformed argument)
      let (name, value) := splitFlag (b :: body)
      let flag ← s.flag? name
      let add (value : FlagValue) : Arguments := { found with given := (flag.name, value) :: found.given }
      match flag.type, value, rest with
      | .switch, none, rest => s.parse (add (.switch true)) rest
      | type, some value, rest => s.parse (add (← parseValue type name value)) rest
      | type, none, value :: rest => s.parse (add (← parseValue type name value)) rest
      | _, none, [] => throw (.needsArgument name)

end FlagSet

namespace Arguments

/-- The value of a flag, if it was given. -/
def value? (a : Arguments) (name : String) : Option FlagValue :=
  (a.given.find? fun entry => entry.1 == name).map (·.2)

def isOn (a : Arguments) (name : String) : Bool := a.value? name == some (.switch true)

/-- The integer of a flag, if it was given. -/
def integer? (a : Arguments) (name : String) : Option Int64 :=
  match a.value? name with
  | some (.integer i) => some i
  | _ => none

def textD (a : Arguments) (name : String) (preset : Bytes) : Bytes :=
  match a.value? name with
  | some (.text t) => t
  | _ => preset

def durationD (a : Arguments) (name : String) (preset : Int64) : Int64 :=
  match a.value? name with
  | some (.duration d) => d
  | _ => preset

end Arguments

end LyaLang.Command
