import WasmText.Tree.Parser
import WasmText.Proofs.Steps
/-!
# Reading, rule by rule

The functions of the parser carry the bound that ends their recursion.
Here they are without it, as plain functions from streams to what is left
(`readExpr` and the others), with one equation for each rule of the
grammar. Everything about the parser goes through these equations. Its
recursion is an induction on the tokens still ahead: an expression, and
what follows the head of a flat form, read further expressions only after
a token of their own.
-/

namespace WasmText

namespace Stream

/-- The stream with other tokens ahead. -/
def on (s : Stream) (tokens : List Token) : Stream := { s with ahead := tokens }

variable {s : Stream} {t : Token} {ts : List Token}

@[simp] theorem advance_on_cons : (s.on (t :: ts)).advance = s.on ts := rfl

@[simp] theorem current_on_cons : (s.on (t :: ts)).current = t := rfl

@[simp] theorem current_on_nil : (s.on []).current = Token.atEnd s.finish := rfl

end Stream

namespace Parser

/-- What was read, without the bound on what is left. -/
def loose {α : Type} {p : Stream → Prop} (r : α × { s : Stream // p s }) : α × Stream :=
  (r.1, r.2.1)

/-! ## The functions without bounds -/

def readHead (s : Stream) : Except ParseError (Token × Stream) := loose <$> headToken s

def readLabel (s : Stream) : Option Label × Stream := loose (label s)

def readClosing (name : Option Label) (s : Stream) : Except ParseError Stream :=
  (·.1) <$> closingLabel name s

def readKeyword (t : Token) (s : Stream) : Except ParseError (Param × Stream) :=
  loose <$> keyword t s

def readParam (s : Stream) : Except ParseError (Option (Param × Stream)) :=
  (·.map loose) <$> param? s

def readParams (s : Stream) : Except ParseError (List Param × Stream) := loose <$> params s

def readStrings (span : Span) (s : Stream) : Except ParseError ((List UInt8 × Span) × Stream) :=
  loose <$> strings span s

def readExpr (s : Stream) : Except ParseError (Option (Expr × Stream)) := (·.map loose) <$> expr s

def readWhile (go : Stream → Bool) (s : Stream) : Except ParseError (List Expr × Stream) :=
  loose <$> exprsWhile go s

def readFlat (head : Head) (s : Stream) : Except ParseError (Expr × Stream) :=
  loose <$> flat head s

def readElse (name : Option Label) (s : Stream) : Except ParseError (List Expr × Stream) :=
  loose <$> alternative name s

/-! ## Leaves -/

/-- Asking for a class of token with the bound is asking for it without. -/
theorem map_require (s : Stream) (kind : Token.Kind) (hk : kind ≠ .eof) :
    loose <$> s.require kind hk = s.expect kind := by
  unfold Stream.require
  split <;> simp_all [loose]

/-- The same for a given word. -/
theorem map_requireWord (s : Stream) (word : String) :
    loose <$> s.requireWord word = s.expectValue .instr word := by
  unfold Stream.requireWord
  split <;> simp_all [loose]

/-- Offering to take a class of token with the bound is offering it
without. -/
theorem map_offer (s : Stream) (kind : Token.Kind) (hk : kind ≠ .eof) :
    (s.offer kind hk).map loose = s.accept kind := by
  unfold Stream.offer
  split <;> simp_all [loose]

/-- The same for a given word. -/
theorem map_offerWord (s : Stream) (word : String) :
    (s.offerWord word).map loose = s.acceptValue .instr word := by
  unfold Stream.offerWord
  split <;> simp_all [loose]

/-- The word after a parenthesis is a keyword if there is one, and else an
instruction. -/
theorem readHead_eq (s : Stream) :
    readHead s = match s.accept .reserved with
      | some taken => .ok taken
      | none => s.expect .instr := by
  rw [readHead, headToken, ← map_offer s .reserved (by decide), ← map_require s .instr (by decide)]
  cases s.offer .reserved (by decide) with
  | none => rfl
  | some taken => rfl

/-- A label that follows is taken with its place. -/
theorem readLabel_eq (s : Stream) :
    readLabel s = match s.accept .label with
      | some (t, s₁) => (some ⟨t.value, t.span⟩, s₁)
      | none => (none, s) := by
  rw [readLabel, label, ← map_offer s .label (by decide)]
  cases s.offer .label (by decide) with
  | none => rfl
  | some taken => rfl

/-- A label at the end of a construct has to repeat the one at its start.
-/
theorem readClosing_eq (name : Option Label) (s : Stream) :
    readClosing name s = match s.accept .label with
      | none => .ok s
      | some (t, s₁) =>
        if name.map (·.name) = some t.value then .ok s₁
        else .error ⟨.mismatchingLabel t.value, t.span⟩ := by
  rw [readClosing, closingLabel, ← map_offer s .label (by decide)]
  cases s.offer .label (by decide) with
  | none => rfl
  | some taken =>
      by_cases hname : name.map (·.name) = some taken.1.value
      · simp [hname, loose]
      · simp [hname, loose]

/-- A keyword that ends in `=` takes the number after it, whose separators
go. Any other keyword stands alone. -/
theorem readKeyword_eq (t : Token) (s : Stream) :
    readKeyword t s = match Keyword.ofWord? (trimEquals t.value) with
      | none => .error ⟨.unknownKeyword (trimEquals t.value), t.span⟩
      | some key =>
        if t.value.toList.getLast? = some '=' then do
          let (v, s₁) ← match s.accept .number with
            | some taken => .ok taken
            | none => s.expect .hex
          return (⟨.keyword key (some (dropSeparators v.value)), t.span.through v.span⟩, s₁)
        else .ok (⟨.keyword key none, t.span⟩, s) := by
  rw [readKeyword, keyword, ← map_offer s .number (by decide), ← map_require s .hex (by decide)]
  cases Keyword.ofWord? (trimEquals t.value) with
  | none => rfl
  | some key =>
      by_cases hvalue : t.value.toList.getLast? = some '='
      · simp only [hvalue, if_true]
        cases s.offer .number (by decide) with
        | none => cases s.require .hex (by decide) <;> rfl
        | some taken => rfl
      · simp only [hvalue, if_false]
        rfl

/-- Only the class of a token decides which argument it starts. -/
theorem readParam_eq (s : Stream) :
    readParam s = match s.current.kind with
      | .number => .ok (some (⟨.number (dropSeparators s.current.value), s.current.span⟩, s.advance))
      | .hex => .ok (some (⟨.hex (dropSeparators s.current.value), s.current.span⟩, s.advance))
      | .string => do
        let bytes ← StringLiteral.ofToken s.current
        return some (⟨.str bytes, s.current.span⟩, s.advance)
      | .label => .ok (some (⟨.label s.current.value, s.current.span⟩, s.advance))
      | .reserved => do
        let taken ← readKeyword s.current s.advance
        return some taken
      | _ => .ok none := by
  rw [readParam, param?]
  split
  · simp [*, loose]
  · simp [*, loose]
  · simp only [*, map_bind]
    rfl
  · simp [*, loose]
  · simp only [*, map_bind, readKeyword, bind_map_left]
    rfl
  · next h1 h2 h3 h4 h5 =>
    split
    · exact absurd ‹_› h1
    · exact absurd ‹_› h2
    · exact absurd ‹_› h3
    · exact absurd ‹_› h4
    · exact absurd ‹_› h5
    · rfl

/-- Arguments are read one by one, until a token starts none. -/
theorem readParams_eq (s : Stream) :
    readParams s = (do
      match ← readParam s with
      | none => return ([], s)
      | some (p, s₁) =>
        let (ps, s₂) ← readParams s₁
        return (p :: ps, s₂)) := by
  rw [readParams, params, readParam, map_bind, bind_map_left]
  refine bind_congr fun r => ?_
  cases r with
  | none => rfl
  | some r =>
      simp only [Option.map_some, loose, readParams, map_bind, bind_map_left]
      rfl

/-- Strings side by side are one, and its place ends with the last of them.
-/
theorem readStrings_eq (span : Span) (s : Stream) :
    readStrings span s = match s.accept .string with
      | none => .ok (([], span), s)
      | some (t, s₁) => do
        let bytes ← StringLiteral.ofToken t
        let ((rest, span), s₂) ← readStrings (span.through t.span) s₁
        return ((bytes ++ rest, span), s₂) := by
  rw [readStrings, strings, ← map_offer s .string (by decide)]
  cases s.offer .string (by decide) with
  | none => rfl
  | some taken =>
      simp only [Option.map_some, loose, readStrings, map_bind, bind_map_left]
      rfl

/-! ## Forms -/

variable {s : Stream}

/-- A label outside a head is a reference. -/
theorem readExpr_label (h : s.current.kind = .label) :
    readExpr s = .ok (some (.ref s.current.value s.current.span, s.advance)) := by
  rw [readExpr, expr]
  split
  · rfl
  · next hk => exact absurd (h.symm.trans hk) (by decide)
  · next hk => exact absurd (h.symm.trans hk) (by decide)
  · next hk => exact absurd (h.symm.trans hk) (by decide)
  · next hk _ _ _ => exact absurd h hk

/-- A string starts the data that it and the strings after it make up. -/
theorem readExpr_string (h : s.current.kind = .string) :
    readExpr s = (do
      let bytes ← StringLiteral.ofToken s.current
      let ((rest, span), s₁) ← readStrings s.current.span s.advance
      return some (.data (bytes ++ rest) span, s₁)) := by
  rw [readExpr, expr]
  split
  · next hk => exact absurd (h.symm.trans hk) (by decide)
  · simp only [map_bind, readStrings, bind_map_left]
    rfl
  · next hk => exact absurd (h.symm.trans hk) (by decide)
  · next hk => exact absurd (h.symm.trans hk) (by decide)
  · next _ hk _ _ => exact absurd h hk

/-- **A form in parentheses** is its word, its label, its arguments and its
children, with arguments before the children or after them. -/
theorem readExpr_leftParen (h : s.current.kind = .leftParen) :
    readExpr s = (do
      let (head, s₁) ← readHead s.advance
      let (name, s₂) := readLabel s₁
      let (leading, s₃) ← readParams s₂
      let (children, s₄) ← readWhile (goesOn []) s₃
      let (trailing, s₅) ← readParams s₄
      let (close, s₆) ← s₅.expect .rightParen
      return some (.node ⟨trimEquals head.value, name, leading ++ trailing,
        s.current.span.through close.span⟩ children, s₆)) := by
  rw [readExpr, expr]
  split
  · next hk => exact absurd (h.symm.trans hk) (by decide)
  · next hk => exact absurd (h.symm.trans hk) (by decide)
  · simp only [map_bind, readHead, readLabel, readParams, readWhile, bind_map_left,
      ← map_require _ .rightParen (by decide)]
    rfl
  · next hk => exact absurd (h.symm.trans hk) (by decide)
  · next _ _ hk _ => exact absurd h hk

/-- **A form without parentheses** starts with its instruction, and what
follows depends on which it is. -/
theorem readExpr_instr (h : s.current.kind = .instr) :
    readExpr s = (do
      let (name, s₁) := readLabel s.advance
      let (params, s₂) ← readParams s₁
      let taken ← readFlat ⟨trimEquals s.current.value, name, params, s.current.span⟩ s₂
      return some taken) := by
  rw [readExpr, expr]
  split
  · next hk => exact absurd (h.symm.trans hk) (by decide)
  · next hk => exact absurd (h.symm.trans hk) (by decide)
  · next hk => exact absurd (h.symm.trans hk) (by decide)
  · simp only [map_bind, readLabel, readParams, readFlat, bind_map_left]
    rfl
  · next _ _ _ hk => exact absurd h hk

/-- No other token starts an expression. -/
theorem readExpr_other (h : s.current.kind ∉ [Token.Kind.label, .string, .leftParen, .instr]) :
    readExpr s = .ok none := by
  simp only [List.mem_cons, List.not_mem_nil, or_false, not_or] at h
  rw [readExpr, expr]
  split
  · next hk => exact absurd hk h.1
  · next hk => exact absurd hk h.2.1
  · next hk => exact absurd hk h.2.2.1
  · next hk => exact absurd hk h.2.2.2
  · rfl

/-- Expressions are read one by one as long as the stream goes on and has
one. -/
theorem readWhile_eq (go : Stream → Bool) (s : Stream) :
    readWhile go s = if go s then (do
        match ← readExpr s with
        | none => return ([], s)
        | some (e, s₁) =>
          let (es, s₂) ← readWhile go s₁
          return (e :: es, s₂))
      else .ok ([], s) := by
  rw [readWhile, exprsWhile]
  split
  · rw [readExpr, map_bind, bind_map_left]
    refine bind_congr fun r => ?_
    cases r with
    | none => rfl
    | some r =>
        simp only [Option.map_some, loose, readWhile, map_bind, bind_map_left]
        rfl
  · rfl

/-- A block or loop without parentheses goes on up to its `end`. -/
theorem readFlat_block {head : Head} (h : head.instr = "block" ∨ head.instr = "loop") :
    readFlat head s = (do
      let (children, s₁) ← readWhile (goesOn ["end"]) s
      let (close, s₂) ← s₁.expectValue .instr "end"
      let s₃ ← readClosing head.name s₂
      return (.node { head with span := head.span.through close.span } children, s₃)) := by
  rw [readFlat, flat, if_pos h]
  simp only [map_bind, readWhile, readClosing, bind_map_left, ← map_requireWord]
  rfl

/-- **A conditional without parentheses** has its signature and its first
branch before the `else`. The branch becomes a `then`, behind the forms of
the signature. -/
theorem readFlat_if {head : Head} (h : head.instr = "if") :
    readFlat head s = (do
      let (body, s₁) ← readWhile (goesOn ["end", "else"]) s
      let (other, s₂) ← readElse head.name s₁
      let (close, s₃) ← s₂.expectValue .instr "end"
      let s₄ ← readClosing head.name s₃
      return (.node { head with span := head.span.through close.span }
        (body.filter (·.isSignature) ++
          .node (.plain "then" head.span) (body.filter (!·.isSignature)) :: other), s₄)) := by
  rw [readFlat, flat, if_neg (by simp [h]), if_pos h]
  simp only [map_bind, readWhile, readElse, readClosing, bind_map_left, ← map_requireWord,
    List.partition_eq_filter_filter]
  rfl

/-- An indirect call without parentheses takes the forms of its signature,
and its place ends with the last of them. -/
theorem readFlat_indirect {head : Head} (h : head.instr = "call_indirect") :
    readFlat head s = (do
      let (signature, s₁) ← readWhile startsSignature s
      let span := signature.foldl (fun span e => span.through e.span) head.span
      return (.node { head with span } signature, s₁)) := by
  rw [readFlat, flat, if_neg (by simp [h]), if_neg (by simp [h]), if_pos h]
  simp only [map_bind, readWhile, bind_map_left]
  rfl

/-- Any other instruction without parentheses has no children. -/
theorem readFlat_plain {head : Head} (h : head.instr ∉ ["block", "loop", "if", "call_indirect"]) :
    readFlat head s = .ok (.node head [], s) := by
  simp only [List.mem_cons, List.not_mem_nil, or_false, not_or] at h
  rw [readFlat, flat, if_neg (by simp [h]), if_neg h.2.2.1, if_neg h.2.2.2]
  rfl

/-- The second branch of a conditional without parentheses becomes an
`else`, which may repeat the label first. -/
theorem readElse_eq (name : Option Label) (s : Stream) :
    readElse name s = match s.acceptValue .instr "else" with
      | none => .ok ([], s)
      | some (t, s₁) => do
        let s₂ ← readClosing name s₁
        let (body, s₃) ← readWhile (goesOn ["end"]) s₂
        return ([.node (.plain "else" t.span) body], s₃) := by
  rw [readElse, alternative, ← map_offerWord]
  cases s.offerWord "else" with
  | none => rfl
  | some taken =>
      simp only [Option.map_some, loose, readClosing, readWhile, map_bind, bind_map_left]
      rfl

end Parser

/-- **A source is its forms**, up to the end of its tokens. -/
theorem parse_eq (source : String) :
    parse source = (do
      let (forms, s) ← Parser.readWhile (Parser.goesOn []) (.ofSource source)
      if s.currentIs .eof then return Parser.moduleOf forms s.finish.stop
      else .error (.unexpected .leftParen none s.current)) := by
  rw [parse]
  simp only [Parser.readWhile, bind_map_left]
  rfl

end WasmText
