import LyaLang.Check.Expr

/-! # Checking mode expressions

A mode expression that checks gets the mode it describes. A name declared for a mode that did not
check has no mode; using it where the mode is needed cannot go on.
-/

namespace LyaLang.Ast

open Check

def ModeName.check (m : ModeName Note) : Check (ModeName Note) := judge do
  match (← environment).lookup? m.id.name with
  | none =>
    report m.id.note.line (.undeclared m.id.name)
    return (true, m)
  | some symbol =>
    let m := { m with id := m.id.resolve symbol .value }
    if symbol.category != .mode then
      report m.note.line (.notMode m.id.name symbol.category)
      return (true, m)
    return (true, { m with note := { m.note with mode := symbol.mode } })

/-- Check a constant of a type; the result is its number if it is one. -/
def checkBound (want : ValueType) (e : Expr Note) : Check (Expr Note × Option Int64) := do
  let e ← e.check
  if !e.isValid then return (e, none)
  if !(← expect e.line want e.type) then return (e, none)
  match e.note.constant with
  | none =>
    report e.line .notConstant
    return (e, none)
  | some value => return (e, some value.number)

/-- Check the bounds of a range over a base mode; the result says whether both are valid. -/
def checkBounds (note : Note) (base : Mode) (lo hi : Expr Note) :
    Check (Bool × Note × Expr Note × Expr Note) := do
  let (lo, lower?) ← checkBound base.type lo
  let (hi, upper?) ← checkBound base.type hi
  match lower?, upper? with
  | some lower, some upper =>
    if lower > upper then
      report note.line (.emptyRange lower upper)
      return (true, note, lo, hi)
    return (true, { note with mode := some (.range base lower upper) }, lo, hi)
  | _, _ => return (lo.isValid && hi.isValid, note, lo, hi)

/-- Check a range, whose base is the integers unless it has one. -/
def checkRange (note : Note) (base : Option (ModeName Note)) (lo hi : Expr Note) :
    Check (Bool × ModeExpr Note) := do
  match base with
  | none =>
    let (valid, note, lo, hi) ← checkBounds note .int lo hi
    return (valid, .range note none lo hi)
  | some name =>
    let name ← name.check
    if !name.note.isValid then return (false, .range note (some name) lo hi)
    let mode ← required name.note.mode
    if mode.size != 1 || mode.type.isReference then
      report note.line (.notDiscrete mode)
      return (true, .range note (some name) lo hi)
    let (valid, note, lo, hi) ← checkBounds note mode lo hi
    return (valid, .range note (some name) lo hi)

def arrayMode (elem : Mode) : List (Option Mode) → Check Mode
  | [] => return elem
  | index :: rest => do
    let inner ← arrayMode elem rest
    let index ← required index
    return .array index.lower index.upper inner

def checkArray (note : Note) (elem : ModeExpr Note) (indexes : List (ModeExpr Note)) : Check Note := do
  match elem.note.mode with
  | none => return note
  | some mode =>
    if !(← isClean) then return note
    if mode.size == 0 then
      report elem.note.line (.arrayOf mode)
      return note
    return { note with mode := some (← arrayMode mode (indexes.map (·.note.mode))) }

def checkIndexMode (index : ModeExpr Note) : Check Unit := do
  if index.note.isValid then
    match index.note.mode with
    | none => return
    | some mode =>
      if !mode.isRange || mode.type != .int then report index.note.line (.indexMode mode)

mutual

def ModeExpr.check : ModeExpr Note → Check (ModeExpr Note)
  | name m => do return name (← m.check)
  | range note base lo hi => judge (checkRange note base lo hi)
  | ref note elem => judge do
    let elem ← elem.check
    if !elem.note.isValid then return (false, ref note elem)
    let target ← required elem.note.mode
    return (true, ref { note with mode := some (.ref target) } elem)
  | chars note len => judge do
    let (len, length?) ← checkBound .int len
    match length? with
    | none => return (len.isValid, chars note len)
    | some length =>
      if length < 1 then
        report note.line (.charsLength length)
        return (true, chars note len)
      return (true, chars { note with mode := some (.chars length) } len)
  | array note indexes elem => judge do
    let elem ← elem.check
    let indexes ← ModeExpr.checkIndexes indexes
    if !(elem.note.isValid && indexes.all (·.note.isValid)) then return (false, array note indexes elem)
    return (true, array (← checkArray note elem indexes) indexes elem)

def ModeExpr.checkIndexes : List (ModeExpr Note) → Check (List (ModeExpr Note))
  | [] => return []
  | index :: rest => do
    let index ← index.check
    checkIndexMode index
    return index :: (← ModeExpr.checkIndexes rest)

end

end LyaLang.Ast
