import WasmText.Token.Cursor
import WasmText.Tree.Parser
/-!
# Parsing in place

A descent moves one cursor along a source and builds the tree as it goes.
It stops at the first error, with the cursor wherever that is. It follows
the rules of the grammar, which call one another, and its loops: an
iteration, then another for as long as the last one asks for it. Nothing
here says that this comes to an end. A descent that goes on for ever has
no outcome.
-/

namespace WasmText

/-- Work with a cursor that may fail. Without an outcome it never ends. -/
abbrev Descent := ExceptT ParseError (StateT Cursor Option)

/-- What an iteration of a loop leaves: the loop goes on, or it is over. -/
inductive Iteration (α : Type) where
  | again (state : α)
  | done (state : α)

namespace Descent

open WasmText.Parser (trimEquals dropSeparators moduleOf)

/-! ## Tokens -/

def current : Descent Token := fun c => some (.ok c.current, c)

/-- The token after the current one. -/
def following : Descent Token := fun c => some (.ok c.following, c)

/-- Back to the first token. -/
def restart : Descent Unit := fun c => some (.ok (), .ofSource c.source)

def advance : Descent Unit := fun c => some (.ok (), c.advance.2)

/-- Takes the current token if it fits. -/
def accept (p : Token.Pattern) : Descent (Option Token) := fun c =>
  let (t, c) := c.accept p
  some (.ok t, c)

/-- Takes a token that fits or fails at the current one. -/
def expect (p : Token.Pattern) : Descent Token := fun c => some (c.expect p)

/-- The bytes of a string token. -/
def bytesOf (t : Token) : Descent (List UInt8) := fun c => some (StringLiteral.ofToken t, c)

/-! ## Leaves -/

/-- The head of a form in parentheses: an instruction, or a keyword used
as one. -/
def headToken : Descent Token := do
  match ← accept ⟨.reserved, none⟩ with
  | some t => return t
  | none => expect ⟨.instr, none⟩

/-- The label of a form, if it has one. -/
def label : Descent (Option Label) := do
  let t ← accept ⟨.label, none⟩
  return t.map fun t => ⟨t.value, t.span⟩

/-- The label that may follow `end` or `else`, which must repeat the
form's own. -/
def closingLabel (name : Option Label) : Descent Unit := do
  match ← accept ⟨.label, none⟩ with
  | none => return
  | some t =>
    if name.map (·.name) = some t.value then return
    else throw ⟨.mismatchingLabel t.value, t.span⟩

/-- The value that an equals sign announces. -/
def settingValue : Descent Token := do
  match ← accept ⟨.number, none⟩ with
  | some v => return v
  | none => expect ⟨.hex, none⟩

/-- The keyword `t`, which has just been taken, with its value when an
equals sign announces one. -/
def keyword (t : Token) : Descent Param := do
  match Keyword.ofWord? (trimEquals t.value) with
  | none => throw ⟨.unknownKeyword (trimEquals t.value), t.span⟩
  | some key =>
    if t.value.toList.getLast? = some '=' then
      let v ← settingValue
      return ⟨.keyword key (some (dropSeparators v.value)), t.span.through v.span⟩
    else
      return ⟨.keyword key none, t.span⟩

/-- One more parameter, if one starts here. -/
def paramsIteration (ps : List Param) : Descent (Iteration (List Param)) := do
  let t ← current
  match t.kind with
  | .number =>
    advance
    return .again (ps ++ [⟨.number (dropSeparators t.value), t.span⟩])
  | .hex =>
    advance
    return .again (ps ++ [⟨.hex (dropSeparators t.value), t.span⟩])
  | .string =>
    let bytes ← bytesOf t
    advance
    return .again (ps ++ [⟨.str bytes, t.span⟩])
  | .label =>
    advance
    return .again (ps ++ [⟨.label t.value, t.span⟩])
  | .reserved =>
    advance
    let p ← keyword t
    return .again (ps ++ [p])
  | _ => return .done ps

/-- One more string, if one starts here: the bytes so far, and how far the
strings reach. -/
def stringsIteration (state : List UInt8 × Span) : Descent (Iteration (List UInt8 × Span)) := do
  match ← accept ⟨.string, none⟩ with
  | none => return .done state
  | some t =>
    let bytes ← bytesOf t
    return .again (state.1 ++ bytes, state.2.through t.span)

/-! ## Forms -/

/-- A loop, by what it builds up. -/
inductive Loop : Type → Type where
  /-- The forms of a module. -/
  | forms : Loop (List Expr)
  | params : Loop (List Param)
  /-- Strings to be joined: their bytes, and how far they reach. -/
  | strings : Loop (List UInt8 × Span)
  /-- The children of a form that one of the instructions `words` ends. -/
  | children (words : List String) : Loop (List Expr)
  /-- The type forms of a flat call. -/
  | signature : Loop Node

/-- A rule of the grammar, by what it reads. -/
inductive Rule : Type → Type where
  /-- One expression, or none where none starts. -/
  | expr : Rule (Option Expr)
  /-- As many strings as there are, joined. -/
  | strings : Rule Expr
  /-- What follows the parenthesis `left`. -/
  | enclosed (left : Token) : Rule Expr
  /-- What follows the instruction `t` where it has no parenthesis. -/
  | flat (t : Token) : Rule Expr
  /-- The inside of a flat `block` or `loop`, up to its `end`. -/
  | block (head : Head) : Rule Expr
  /-- The inside of a flat `if`, up to its `end`. -/
  | conditional (head : Head) : Rule Expr
  /-- The `else` branch of a flat `if`, as its `else` child. -/
  | alternative (name : Option Label) : Rule (List Expr)

mutual

/-- Reads what the rule says, or fails. -/
def Rule.read {α : Type} : Rule α → Descent α
  | .expr => do
    match ← accept ⟨.label, none⟩ with
    | some t => return some (.ref t.value t.span)
    | none =>
      let t ← current
      if t.kind = .string then
        let e ← Rule.strings |>.read
        return some e
      else
        match ← accept ⟨.leftParen, none⟩ with
        | some left =>
          let e ← Rule.enclosed left |>.read
          return some e
        | none =>
          match ← accept ⟨.instr, none⟩ with
          | some t =>
            let e ← Rule.flat t |>.read
            return some e
          | none => return none
  | .strings => do
    let t ← current
    let (bytes, span) ← Loop.strings |>.run ([], t.span)
    return .data bytes span
  | .enclosed left => do
    let t ← headToken
    let name ← label
    let leading ← Loop.params |>.run []
    let es ← Loop.children [] |>.run []
    let ps ← Loop.params |>.run leading
    let right ← expect ⟨.rightParen, none⟩
    return .node ⟨trimEquals t.value, name, ps, left.span.through right.span⟩ es
  | .flat t => do
    let name ← label
    let ps ← Loop.params |>.run []
    let head : Head := ⟨trimEquals t.value, name, ps, t.span⟩
    if head.instr = "block" ∨ head.instr = "loop" then Rule.block head |>.read
    else if head.instr = "if" then Rule.conditional head |>.read
    else if head.instr = "call_indirect" then
      let n ← Loop.signature |>.run ⟨head, []⟩
      return n.toExpr
    else return .node head []
  | .block head => do
    let es ← Loop.children ["end"] |>.run []
    let close ← expect ⟨.instr, some "end"⟩
    closingLabel head.name
    return .node { head with span := head.span.through close.span } es
  | .conditional head => do
    let es ← Loop.children ["end", "else"] |>.run []
    let (signature, body) := es.partition Expr.isSignature
    let other ← Rule.alternative head.name |>.read
    let close ← expect ⟨.instr, some "end"⟩
    closingLabel head.name
    return .node { head with span := head.span.through close.span }
      (signature ++ .node (.plain "then" head.span) body :: other)
  | .alternative name => do
    match ← accept ⟨.instr, some "else"⟩ with
    | none => return []
    | some t =>
      closingLabel name
      let es ← Loop.children ["end"] |>.run []
      return [.node (.plain "else" t.span) es]
partial_fixpoint

/-- One more of what the loop builds up, unless the loop is over here. -/
def Loop.iteration {α : Type} : Loop α → α → Descent (Iteration α)
  | .forms, forms => do
    let t ← current
    if t.kind = .eof then return .done forms
    else
      match ← Rule.expr |>.read with
      | some e => return .again (forms ++ [e])
      | none =>
        let t ← current
        throw (.unexpected .leftParen none t)
  | .params, ps => paramsIteration ps
  | .strings, state => stringsIteration state
  | .children words, es => do
    let t ← current
    if t.kind = .eof ∨ words.any (t.is .instr ·) = true then return .done es
    else
      match ← Rule.expr |>.read with
      | some e => return .again (es ++ [e])
      | none => return .done es
  | .signature, n => do
    let t ← current
    let t' ← following
    if t.kind = .leftParen ∧ t'.kind = .instr ∧ t'.value ∈ ["type", "param", "result"] then
      match ← Rule.expr |>.read with
      | some e =>
        return .again { n with span := n.span.through e.span, children := n.children ++ [e] }
      -- the loop would go on as it was, but a form that starts here is an expression or an error
      | none => return .again n
    else return .done n
partial_fixpoint

/-- Iterations for as long as they ask for another. -/
def Loop.run {α : Type} (l : Loop α) (state : α) : Descent α := do
  match ← l |>.iteration state with
  | .again state => l |>.run state
  | .done state => return state
partial_fixpoint

end

/-- The module of a whole source. -/
def module : Descent Node := do
  restart
  let forms ← Loop.forms.run []
  let t ← current
  return moduleOf forms t.span.stop

/-- The outcome of a descent into a source, if there is one. -/
def parse (source : String) : Option (Except ParseError Node) :=
  (module (.ofSource source)).map (·.1)

end Descent

end WasmText
