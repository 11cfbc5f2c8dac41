import LyaLang.Proofs.Check.BlurExpr
import LyaLang.Proofs.Emit.Code
import LyaLang.Proofs.Tree.BlurLabels

/-! # Code does not depend on layout and spelling

The code of a tree reads addresses, sizes, constants and labels off its notes. None of them changes when
the tree is blurred, so trees that differ in layout and spelling only have the same code.
-/

namespace LyaLang

/-! ## Symbols and modes -/

@[simp] theorem Mode.indirectCode_blur (m : Mode) : m.blur.indirectCode = m.indirectCode := by simp [indirectCode]

@[simp] theorem Mode.element?_blur (m : Mode) : m.blur.element? = m.element?.map blur := by
  rw [element?, element?, isString_blur, elem?_blur]
  split <;> rfl

@[simp] theorem Mode.elementCode_blur (m : Mode) : m.blur.elementCode = m.elementCode := by
  simp [elementCode, Function.comp_def]

@[simp] theorem Symbol.loadDraft_blur (s : Symbol) : s.blur.loadDraft = s.loadDraft := rfl

@[simp] theorem Symbol.storeDraft_blur (s : Symbol) : s.blur.storeDraft = s.storeDraft := rfl

@[simp] theorem Symbol.addressDraft_blur (s : Symbol) : s.blur.addressDraft = s.addressDraft := rfl

@[simp] theorem Symbol.code_blur (s : Symbol) : s.blur.code = s.code := by
  rw [code, code]
  cases mode : s.mode <;> simp [mode]

@[simp] theorem Note.firstLabel_blur (n : Note) : n.blur.firstLabel = n.firstLabel := rfl

@[simp] theorem proc_blur (s : Option Symbol) : (s.map Symbol.blur).bind (·.proc) = (s.bind (·.proc)).map Procedure.blur := by
  cases s <;> rfl

namespace Ast

/-- How arguments are passed, with the modes of parameters blurred. -/
def Passing.blur : Passing → Passing
  | read => read
  | print => print
  | operand => operand
  | params ps => params (ps.map Parameter.blur)

theorem callCode_blur (callee : Ident Note) {pass pass' : Passing → List Draft} (same : ∀ how, pass' how.blur = pass how) :
    callCode (callee.blur Note.blur) pass' = callCode callee pass := by
  rw [callCode, callCode, Ident.blur_note, Note.blur_symbol, proc_blur]
  cases callee.note.symbol.bind (·.proc) with
  | none => rfl
  | some p => simp only [Option.map_some, Procedure.blur, ← same, Passing.blur]

@[simp] theorem callLeaves_blur (callee : Ident Note) : callLeaves (callee.blur Note.blur) = callLeaves callee := by
  rw [callLeaves, Ident.blur_note, Note.blur_symbol, proc_blur, Option.any_map]
  rfl

@[simp] theorem callResultCode_blur (callee : Ident Note) : callResultCode (callee.blur Note.blur) = callResultCode callee := by
  rw [callResultCode, callResultCode, Ident.blur_note, Note.blur_symbol, proc_blur]
  cases callee.note.symbol.bind (·.proc) <;> simp

@[simp] theorem readCode_blur (x : Expr Note) (address : List Draft) :
    readCode (x.blur Note.blur) address = readCode x address := by
  unfold readCode
  rw [x.mode_blur]
  cases x.note.mode with
  | none => rfl
  | some m => cases x <;> simp [Expr.blur, Function.comp_def]

@[simp] theorem printCode_blur (x : Expr Note) (value address : List Draft) :
    printCode (x.blur Note.blur) value address = printCode x value address := by
  have mode := x.mode_blur
  cases known : x.note.mode <;> rw [known] at mode <;> cases x <;> simp_all [printCode, Expr.blur]

@[simp] theorem Expr.blurList_cons (e : Expr Note) (rest : List (Expr Note)) :
    Expr.blurList Note.blur (e :: rest) = e.blur Note.blur :: Expr.blurList Note.blur rest := rfl

mutual

@[simp] theorem Expr.valueCode_blur : ∀ e : Expr Note, (e.blur Note.blur).valueCode = e.valueCode
  | int _ _ | bool _ _ | char _ _ | text _ _ => rfl
  | ident id => by simp [Expr.blur, valueCode, Function.comp_def]
  | unary note o x => by simp [Expr.blur, valueCode, Expr.valueCode_blur x]
  | binary note o x y => by
    have type : (x.blur Note.blur).note.type = x.note.type := x.type_blur
    simp [Expr.blur, valueCode, Expr.valueCode_blur x, Expr.valueCode_blur y, type]
  | cond note arms otherwise => by
    simp [Expr.blur, valueCode, Expr.armsCode_blur, Expr.valueCode_blur otherwise, Expr.blurArms_length]
  | call note callee args => by
    rw [Expr.blur, valueCode, valueCode, callResultCode_blur, callCode_blur callee fun how => Expr.argumentsCode_blur how args]
  | index note x indexes => by
    simp [Expr.blur, valueCode, Expr.addressCode_blur x, Expr.indexesCode_blur, Function.comp_def]
  | deref note x => by simp [Expr.blur, valueCode, Expr.valueCode_blur x, Function.comp_def]
  | ref note x => by simp [Expr.blur, valueCode, Expr.addressCode_blur x]

@[simp] theorem Expr.addressCode_blur : ∀ e : Expr Note, (e.blur Note.blur).addressCode = e.addressCode
  | ident id => by simp [Expr.blur, addressCode, Function.comp_def]
  | index note x indexes => by simp [Expr.blur, addressCode, Expr.addressCode_blur x, Expr.indexesCode_blur]
  | deref note x => by simp [Expr.blur, addressCode, Expr.valueCode_blur x]
  | call note callee args => by
    rw [Expr.blur, addressCode, addressCode, callCode_blur callee fun how => Expr.argumentsCode_blur how args]
  | int _ _ | bool _ _ | char _ _ | text _ _ | unary _ _ _ | binary _ _ _ _ | cond _ _ _ | ref _ _ => rfl

theorem Expr.indexesCode_blur : ∀ (mode : Option Mode) (indexes : List (Expr Note)),
    Expr.indexesCode (mode.map Mode.blur) (Expr.blurList Note.blur indexes) = Expr.indexesCode mode indexes
  | none, [] | none, _ :: _ | some _, [] => rfl
  | some mode, i :: rest => by
    have others := Expr.indexesCode_blur mode.element? rest
    simp [indexesCode, Expr.valueCode_blur i, others]

theorem Expr.armsCode_blur (exit : Int64) : ∀ (label : Int64) (arms : List (CondValue Note)),
    Expr.armsCode exit label (Expr.blurArms Note.blur arms) = Expr.armsCode exit label arms
  | _, [] => rfl
  | label, .mk note test value :: rest => by
    simp [Expr.blurArms, armsCode, Expr.valueCode_blur test, Expr.valueCode_blur value, Expr.armsCode_blur exit _ rest]

theorem Expr.argumentsCode_blur : ∀ (how : Passing) (args : List (Expr Note)),
    Expr.argumentsCode how.blur (Expr.blurList Note.blur args) = Expr.argumentsCode how args
  | .read, [] | .print, [] | .operand, [] | .params [], [] | .params (_ :: _), [] | .params [], _ :: _ => rfl
  | .read, x :: rest => by
    have others : Expr.argumentsCode .read (Expr.blurList Note.blur rest) = _ := Expr.argumentsCode_blur .read rest
    simp [Passing.blur, argumentsCode, Expr.addressCode_blur x, others]
  | .print, x :: rest => by
    have others : Expr.argumentsCode .print (Expr.blurList Note.blur rest) = _ := Expr.argumentsCode_blur .print rest
    simp [Passing.blur, argumentsCode, Expr.addressCode_blur x, Expr.valueCode_blur x, others]
  | .operand, x :: rest => Expr.valueCode_blur x
  | .params (p :: ps), x :: rest => by
    have others : Expr.argumentsCode (.params (ps.map Parameter.blur)) (Expr.blurList Note.blur rest) = _ :=
      Expr.argumentsCode_blur (.params ps) rest
    simp [Passing.blur, argumentsCode, Expr.addressCode_blur x, Expr.valueCode_blur x, others]

end

/-! ## Statements -/

@[simp] theorem stringCode_blur (m : Mode) (o : Option BinaryOp) (value : Expr Note) :
    stringCode m.blur o (value.blur Note.blur) = stringCode m o value := by
  simp [stringCode]

@[simp] theorem assignSymbolCode_blur (symbol : Symbol) (o : Option BinaryOp) (value : Expr Note) :
    assignSymbolCode symbol.blur o (value.blur Note.blur) = assignSymbolCode symbol o value := by
  unfold assignSymbolCode
  cases mode : symbol.mode <;> simp [mode]

theorem assignLocationCode_blur (target : Expr Note) (o : Option BinaryOp) (value : Expr Note) :
    assignLocationCode (target.blur Note.blur) o (value.blur Note.blur) = assignLocationCode target o value := by
  unfold assignLocationCode
  cases mode : target.note.mode <;> simp [mode]

@[simp] theorem assignCode_blur (target : Expr Note) (o : Option BinaryOp) (value : Expr Note) :
    assignCode (target.blur Note.blur) o (value.blur Note.blur) = assignCode target o value := by
  cases target with
  | ident id => simp [Expr.blur, assignCode, Function.comp_def]
  | _ => exact assignLocationCode_blur _ o value

@[simp] theorem initialCode_blur (loc : Bool) (init : Expr Note) (id : Ident Note) :
    initialCode loc (init.blur Note.blur) (id.blur Note.blur) = initialCode loc init id := by
  rw [initialCode, initialCode]
  cases symbol : id.note.symbol <;> simp [symbol]

@[simp] theorem Declaration.code_blur (d : Declaration Note) : (d.blur Note.blur).code = d.code := by
  rw [code, code]
  cases init : d.init <;> simp [init, List.flatMap_map]

@[simp] theorem resultCode_blur (note : Note) (value : Option (Expr Note)) :
    resultCode note.blur (value.map (Expr.blur Note.blur)) = resultCode note value := by
  unfold resultCode
  rw [Note.blur_symbol, proc_blur]
  cases note.symbol.bind (·.proc) <;> cases value <;> simp

theorem ForControl.stepDraft_blur (f : ForControl Note) (slots : LoopSlots) :
    (f.blur Note.blur).stepDraft slots = f.stepDraft slots := by
  rw [stepDraft, stepDraft]
  cases step : f.step <;> simp [step]

theorem ForControl.code_blur (f : ForControl Note) (start test stop : Int64) :
    (f.blur Note.blur).code start test stop = f.code start test stop := by
  rw [code, code]
  cases symbol : f.note.symbol <;> simp [symbol, stepDraft_blur, Function.comp_def]

@[simp] theorem controlCode_blur (first : Int64) (control : Option (ForControl Note)) :
    controlCode first (control.map (ForControl.blur Note.blur)) = controlCode first control := by
  cases control with
  | none => rfl
  | some f => exact f.code_blur _ _ _

@[simp] theorem whilstCode_blur (stop : Int64) (whilst : Option (Expr Note)) :
    whilstCode stop (whilst.map (Expr.blur Note.blur)) = whilstCode stop whilst := by
  cases whilst <;> simp [whilstCode]

mutual

theorem Stmt.code_blur : ∀ s : Stmt Note, (s.blur Note.blur).code = s.code
  | declare note decls => by simp [Stmt.blur, Stmt.code, List.flatMap_map]
  | synonym _ _ | modes _ _ => by simp only [Stmt.blur, Stmt.code]
  | proc note name params spec body => by
    rw [Stmt.blur, Stmt.code, Stmt.code, Note.blur_symbol, proc_blur, Stmt.listCode_blur body]
    cases note.symbol.bind (·.proc) <;> simp
  | assign note target o value => by simp [Stmt.blur, Stmt.code]
  | branch note arms otherwise => by
    simp [Stmt.blur, Stmt.code, Stmt.armsCode_blur, Stmt.elseCode_blur, Stmt.blurArms_length]
  | loop note control whilst body => by simp [Stmt.blur, Stmt.code, Stmt.listCode_blur body]
  | call note callNote callee args => by
    rw [Stmt.blur, Stmt.code, Stmt.code, callCode_blur callee fun how => Expr.argumentsCode_blur how args, callLeaves_blur]
  | ret note value => by
    rw [Stmt.blur, Stmt.code, Stmt.code, Note.blur_symbol, proc_blur]
    cases note.symbol.bind (·.proc) <;> simp
  | result note value => by
    exact resultCode_blur note (some value)

theorem Stmt.listCode_blur : ∀ ss : List (Stmt Note), Stmt.listCode (Stmt.blurList Note.blur ss) = Stmt.listCode ss
  | [] => by rw [Stmt.blurList]
  | s :: rest => by rw [Stmt.blurList, Stmt.listCode, Stmt.listCode, Stmt.code_blur s, Stmt.listCode_blur rest]

theorem Stmt.elseCode_blur : ∀ body : Option (List (Stmt Note)),
    Stmt.elseCode (Stmt.blurElse Note.blur body) = Stmt.elseCode body
  | none => by rw [Stmt.blurElse]
  | some body => by rw [Stmt.blurElse, Stmt.elseCode, Stmt.elseCode, Stmt.listCode_blur body]

theorem Stmt.armsCode_blur (exit : Int64) : ∀ (label : Int64) (arms : List (CondBranch Note)),
    Stmt.armsCode exit label (Stmt.blurArms Note.blur arms) = Stmt.armsCode exit label arms
  | _, [] => by rw [Stmt.blurArms]
  | label, .mk note test body :: rest => by
    simp [Stmt.blurArms, Stmt.armsCode, Stmt.listCode_blur body, Stmt.armsCode_blur exit _ rest]

end

/-- Programs that differ in layout and spelling only have the same code. -/
theorem Program.code_blur (p : Program Note) : (p.blur Note.blur).code = p.code := by
  simp [Program.code, Stmt.listCode_blur]

end Ast

end LyaLang
