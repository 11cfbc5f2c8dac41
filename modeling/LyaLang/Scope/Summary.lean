import LyaLang.Scope.Symbol

/-! # Summaries of symbols

One line that says what a name denotes.
-/

namespace LyaLang

def Procedure.parameterTexts (p : Procedure) : List Bytes :=
  match p.arity, p.builtin with
  | .any, _ => ["..."]
  | _, some (.operation _ accepts) => [Bytes.join "|" (accepts.map ValueType.text)]
  | _, some _ => [[]]
  | _, none =>
    p.params.map fun param => Mode.optionText param.mode ++ if param.loc then (" loc" : Bytes) else []

def Procedure.signature (p : Procedure) : Bytes :=
  let params := ("(" : Bytes) ++ Bytes.join ", " p.parameterTexts ++ (")" : Bytes)
  if p.result == .void then params
  else
    params ++ (" returns(" : Bytes) ++ p.result.text ++ (if p.resultLoc then (" loc" : Bytes) else []) ++
      (")" : Bytes)

def Symbol.summary (s : Symbol) : Bytes :=
  let front := (s.category.name : Bytes) ++ (" " : Bytes) ++ s.name
  match s.proc with
  | some proc => front ++ proc.signature
  | none =>
    match s.category with
    | .mode => front ++ (" = " : Bytes) ++ s.type.text
    | .synonym => front ++ (" " : Bytes) ++ Mode.optionText s.mode ++ (" = " : Bytes) ++ s.value.literal
    | category =>
      match s.mode with
      | some mode =>
        front ++ (" " : Bytes) ++ mode.text ++ if category.isIndirect then (" loc" : Bytes) else []
      | none => front

end LyaLang
