import WasmText.Proofs.Tree.Places
import WasmText.Proofs.Tree.Printing
/-!
# Parsing undoes printing

The greedy rules of the parser stop exactly where a printed construct
ends. So a printed tree is read back, argument by argument and form by
form, and what is read is the tree without its places (`parse_print`). A
number is read back in the class that its text has, which is the one it is
kept in when the tree is well formed.
-/

namespace WasmText

open Lexer (words wordsOf)

/-- A number as its text is read. -/
def Argument.ofNumeral (text : String) : Argument :=
  if (words text.toList).any (·.kind == .hex) then .hex text else .number text

theorem Argument.ofNumeral_cases (text : String) :
    ofNumeral text = .number text ∨ ofNumeral text = .hex text := by
  unfold ofNumeral
  split
  · exact .inr rfl
  · exact .inl rfl

/-- Trees as they are read back: without places, and with each number in
the class that its text has. -/
def Guise.reread : Guise where
  name := id
  place _ := .zero
  number := Argument.ofNumeral
  hex := Argument.ofNumeral
  name_injective := Function.injective_id
  place_zero := rfl
  number_cases := Argument.ofNumeral_cases
  hex_cases := Argument.ofNumeral_cases

/-- A number is one token, of its own class. -/
theorem IsNumeral.words_eq {kind : Token.Kind} {text : String} (h : IsNumeral kind text)
    (hkind : kind = .number ∨ kind = .hex) : words text.toList = [⟨kind, text, .zero⟩] := by
  have hword : Token.IsWord ⟨kind, text, .zero⟩ := by
    rcases hkind with rfl | rfl
    · exact h.1.isWord rfl nofun
    · exact h.1.isWord rfl nofun
  exact hword.words_eq

/-- It has no separators to lose. -/
theorem IsNumeral.dropSeparators_eq {kind : Token.Kind} {text : String} (h : IsNumeral kind text) :
    Parser.dropSeparators text = text := by
  have hall : text.toList.filter (· != '_') = text.toList :=
    List.filter_eq_self.2 fun c hc => bne_iff_ne.2 fun hcs => h.2 (hcs ▸ hc)
  rw [Parser.dropSeparators, hall, String.ofList_toList]

/-- A word that does not end in `=` is read as it is. -/
theorem Parser.trimEquals_eq {word : String} (h : word.toList.getLast? ≠ some '=') :
    trimEquals word = word := by
  have hdrop : word.toList.reverse.dropWhile (· == '=') = word.toList.reverse := by
    cases hword : word.toList.reverse with
    | nil => rfl
    | cons c cs =>
        rw [← List.head?_reverse, hword] at h
        exact List.dropWhile_cons_of_neg (by simpa using h)
  rw [trimEquals, hdrop, List.reverse_reverse, String.ofList_toList]

/-- A keyword is found under its word, which may have `=` at its end. -/
theorem Keyword.reads (key : Keyword) :
    ofWord? (Parser.trimEquals key.word) = some key ∧
    ofWord? (Parser.trimEquals (key.word ++ "=")) = some key ∧
    key.word.toList.getLast? ≠ some '=' := by
  cases key <;> decide

namespace Parser

variable (glued : Bool) (s : Stream)

/-! ## Arguments -/

/-- A number is read back as an argument of its class. -/
theorem readParam_numeral {text : String} (h : IsNumeral .number text ∨ IsNumeral .hex text)
    (rest : List Token) :
    readParam (s.on (words text.toList ++ rest)) =
      .ok (some (⟨.ofNumeral text, .zero⟩, s.on rest)) := by
  rcases h with h | h
  · have hwords := h.words_eq (.inl rfl)
    have harg : Argument.ofNumeral text = .number text := by simp [Argument.ofNumeral, hwords]
    rw [hwords, harg, readParam_eq]
    simp [Token.value, h.dropSeparators_eq]
  · have hwords := h.words_eq (.inr rfl)
    have harg : Argument.ofNumeral text = .hex text := by simp [Argument.ofNumeral, hwords]
    rw [hwords, harg, readParam_eq]
    simp [Token.value, h.dropSeparators_eq]

/-- A keyword that announces a value takes it. -/
theorem readKeyword_announced (key : Keyword) {value : String}
    (h : IsNumeral .number value ∨ IsNumeral .hex value) (rest : List Token) :
    readKeyword ⟨.reserved, key.word ++ "=", .zero⟩ (s.on (words value.toList ++ rest)) =
      .ok (⟨.keyword key (some value), .zero⟩, s.on rest) := by
  obtain ⟨-, hkey, -⟩ := key.reads
  rw [readKeyword_eq]
  rcases h with h | h
  · have hwords := h.words_eq (.inl rfl)
    simp [Token.value, hkey, hwords, Stream.accept, h.dropSeparators_eq]
  · have hwords := h.words_eq (.inr rfl)
    simp [Token.value, hkey, hwords, Stream.accept, Stream.expect, h.dropSeparators_eq]

theorem value_signed (name : String) : Token.value ⟨.label, signed name, .zero⟩ = name := by
  simp [Token.value, signed]

/-- **A printed argument is read back**, whatever comes after it. -/
theorem readParam_texts {a : Argument} (h : a.Writable) (rest : List Token) :
    readParam (s.on (wordsOf (a.texts glued) ++ rest)) =
      .ok (some (⟨a.dress .reread, .zero⟩, s.on rest)) := by
  match a, h with
  | .number text, h =>
      rw [Argument.texts, Lexer.wordsOf_singleton]
      exact readParam_numeral s h rest
  | .hex text, h =>
      rw [Argument.texts, Lexer.wordsOf_singleton]
      exact readParam_numeral s h rest
  | .str bytes, _ =>
      have hwords := (isWord_quoted bytes).words_eq
      have hbytes := ofToken_quoted bytes
      rw [Argument.texts, Lexer.wordsOf_singleton, hwords, readParam_eq]
      simp [hbytes]
  | .label name, h =>
      have hwords := (isWord_signed h).words_eq
      rw [Argument.texts, Lexer.wordsOf_singleton, hwords, readParam_eq]
      simp [value_signed, Guise.reread]
  | .keyword key none, _ =>
      obtain ⟨hkey, -, hequals⟩ := key.reads
      have hwords := (isWord_keyword key).words_eq
      rw [Argument.texts, Lexer.wordsOf_singleton, hwords, readParam_eq]
      simp [readKeyword_eq, Token.value, hkey, hequals]
  | .keyword key (some value), h =>
      -- glued or apart, the keyword ends at its equals sign
      have htokens : wordsOf (Argument.texts glued (.keyword key (some value))) =
          ⟨.reserved, key.word ++ "=", .zero⟩ :: words value.toList := by
        have hwords := words_announced key
        cases glued with
        | true =>
            rw [Argument.texts, if_pos rfl, Lexer.wordsOf_singleton, String.toList_append, hwords]
        | false =>
            have halone := hwords []
            rw [List.append_nil, Lexer.words_nil] at halone
            rw [Argument.texts, if_neg (by decide), Lexer.wordsOf_cons, Lexer.wordsOf_singleton, halone]
            rfl
      rw [htokens, List.cons_append, readParam_eq]
      simp [readKeyword_announced s key h]

/-! ## Where arguments end -/

/-- Whether no argument starts here. -/
def NoParam (rest : List Token) : Prop :=
  ∀ t ∈ rest.head?, t.kind ∉ [Token.Kind.number, .hex, .string, .label, .reserved]

theorem NoParam.current {rest : List Token} (h : NoParam rest) :
    (s.on rest).current.kind ∉ [Token.Kind.number, .hex, .string, .label, .reserved] := by
  cases rest with
  | nil => simp [Token.atEnd]
  | cons t rest => exact h t rfl

/-- Where no argument starts, none is read. -/
theorem NoParam.readParam_eq {rest : List Token} (h : NoParam rest) :
    readParam (s.on rest) = .ok none := by
  have hkind := h.current s
  simp only [List.mem_cons, List.not_mem_nil, or_false, not_or] at hkind
  obtain ⟨hnumber, hhex, hstring, hlabel, hreserved⟩ := hkind
  rw [Parser.readParam_eq]
  split
  · exact absurd ‹_› hnumber
  · exact absurd ‹_› hhex
  · exact absurd ‹_› hstring
  · exact absurd ‹_› hlabel
  · exact absurd ‹_› hreserved
  · rfl

theorem NoParam.readParams_eq {rest : List Token} (h : NoParam rest) :
    readParams (s.on rest) = .ok ([], s.on rest) := by
  rw [Parser.readParams_eq, h.readParam_eq s]
  rfl

/-- **Printed arguments are read back** up to where none starts. -/
theorem readParams_texts {ps : List Param} (h : ∀ p ∈ ps, p.arg.Writable) {rest : List Token}
    (hrest : NoParam rest) :
    readParams (s.on (wordsOf (ps.flatMap (·.arg.texts glued)) ++ rest)) =
      .ok (ps.map (·.dress .reread), s.on rest) := by
  induction ps with
  | nil => exact hrest.readParams_eq s
  | cons p ps ih =>
      have hp := readParam_texts glued s (h p List.mem_cons_self)
      have hps := ih fun q hq => h q (List.mem_cons_of_mem p hq)
      rw [List.flatMap_cons, Lexer.wordsOf_append, List.append_assoc, readParams_eq]
      exact bind_eq_ok.2 ⟨_, hp _, bind_eq_ok.2 ⟨_, hps, rfl⟩⟩

/-! ## Heads -/

/-- The word of a form is read back, as a keyword or as an instruction. -/
theorem readHead_text {ok : Argument → Prop} {head : Head} (h : head.Printable ok)
    (rest : List Token) :
    ∃ t : Token, readHead (s.on (words head.instr.toList ++ rest)) = .ok (t, s.on rest) ∧
      t.span = .zero ∧ trimEquals t.value = head.instr := by
  rcases h.instr with ⟨hinstr, hequals⟩ | ⟨key, hkey⟩
  · have hwords := (hinstr.isWord rfl nofun).words_eq
    refine ⟨⟨.instr, head.instr, .zero⟩, ?_, rfl, ?_⟩
    · rw [hwords, readHead_eq]
      simp [Stream.accept, Stream.expect]
    · exact trimEquals_eq hequals
  · have hwords := (isWord_keyword key).words_eq
    refine ⟨⟨.reserved, head.instr, .zero⟩, ?_, rfl, ?_⟩
    · rw [hkey, hwords, readHead_eq]
      simp [Stream.accept]
    · rw [hkey]
      cases key <;> decide

/-- What is read as an argument other than a name does not start with a
name. -/
theorem readLabel_of_readParam {p : Param} {s' : Stream} (h : readParam s = .ok (some (p, s')))
    (hp : ∀ name, p.arg ≠ .label name) : readLabel s = (none, s) := by
  have hkind : s.current.kind ≠ .label := by
    intro hlabel
    rw [readParam_eq, hlabel] at h
    obtain ⟨rfl, -⟩ := Prod.mk.inj (Option.some.inj (Except.ok.inj h))
    exact hp _ rfl
  rw [readLabel_eq, Stream.accept, if_neg hkind]

theorem NoParam.accept_label {rest : List Token} (h : NoParam rest) :
    (s.on rest).accept .label = none := by
  have hkind := h.current s
  rw [Stream.accept, if_neg]
  intro hlabel
  simp [hlabel] at hkind

/-- Where no argument starts, there is no label. -/
theorem readLabel_of_noParam {rest : List Token} (h : NoParam rest) :
    readLabel (s.on rest) = (none, s.on rest) := by
  rw [readLabel_eq, h.accept_label s]

/-- The label and the arguments of a form are read up to its children. -/
theorem readLabel_texts {head : Head} (h : head.Printable Argument.Writable) {rest : List Token}
    (hrest : NoParam rest) :
    readLabel (s.on (wordsOf ((head.name.map (signed ·.name)).toList) ++
        (wordsOf (head.params.flatMap (·.arg.texts glued)) ++ rest))) =
      (head.name.map (·.dress .reread),
        s.on (wordsOf (head.params.flatMap (·.arg.texts glued)) ++ rest)) := by
  cases hname : head.name with
  | some label =>
      have hwords := (isWord_signed (h.name label hname)).words_eq
      simp only [Option.map_some, Option.toList_some, Lexer.wordsOf_singleton, hwords]
      rw [readLabel_eq]
      simp [Stream.accept, value_signed, Label.dress, Guise.reread]
  | none =>
      cases hparams : head.params with
      | nil => exact readLabel_of_noParam s hrest
      | cons p ps =>
          have hp := readParam_texts glued s (h.params p (by rw [hparams]; exact List.mem_cons_self))
            (wordsOf (ps.flatMap (·.arg.texts glued)) ++ rest)
          have hlabel := Argument.dress_ne_label (g := .reread)
            (h.first hname p (by rw [hparams]; rfl))
          simp only [Option.map_none, Option.toList_none, Lexer.wordsOf_nil, List.nil_append,
            List.flatMap_cons, Lexer.wordsOf_append, List.append_assoc]
          exact readLabel_of_readParam _ hp hlabel

/-! ## Forms -/

/-- How the tokens of a printed tree begin. -/
theorem exists_wordsOf_texts {e : Expr} (h : e.Printable Argument.Writable) :
    ∃ t ts, wordsOf (e.texts glued) = t :: ts ∧ t.kind ∈ [Token.Kind.label, .string, .leftParen] ∧
      (t.kind = .string → e.isString = true) ∧ (e.node?.isSome = true → t.kind = .leftParen) := by
  cases h with
  | @ref name span hname =>
      rw [Expr.texts, Lexer.wordsOf_singleton, (isWord_signed hname).words_eq]
      exact ⟨_, _, rfl, by simp, by simp, by simp [Expr.node?]⟩
  | @data bytes span =>
      rw [Expr.texts, Lexer.wordsOf_singleton, (isWord_quoted bytes).words_eq]
      exact ⟨_, _, rfl, by simp, fun _ => rfl, by simp [Expr.node?]⟩
  | node =>
      rw [Expr.texts, Lexer.wordsOf_cons, isWord_opening.words_eq]
      exact ⟨_, _, rfl, by simp, by simp, fun _ => rfl⟩

/-- A step of reading expressions one after another. -/
theorem readWhile_cons {go : Stream → Bool} {s s₁ s₂ : Stream} {e : Expr} {es : List Expr}
    (hgo : go s = true) (he : readExpr s = .ok (some (e, s₁)))
    (hes : readWhile go s₁ = .ok (es, s₂)) : readWhile go s = .ok (e :: es, s₂) := by
  rw [readWhile_eq, if_pos hgo]
  exact bind_eq_ok.2 ⟨_, he, bind_eq_ok.2 ⟨_, hes, rfl⟩⟩

/-- A list goes on at a token that starts an expression and is no
instruction. -/
theorem goesOn_of_kind {s : Stream} (h : s.current.kind ∈ [Token.Kind.label, .string, .leftParen])
    (ends : List String) : goesOn ends s = true := by
  simp only [List.mem_cons, List.not_mem_nil, or_false] at h
  rcases h with h | h | h <;> simp [goesOn, Stream.currentIs, Token.is, h]

/-- So it goes on at every printed tree. -/
theorem goesOn_texts {e : Expr} (h : e.Printable Argument.Writable) (rest : List Token) :
    goesOn [] (s.on (wordsOf (e.texts glued) ++ rest)) = true := by
  obtain ⟨t, ts, htokens, hkind, -, -⟩ := exists_wordsOf_texts glued h
  refine goesOn_of_kind ?_ []
  rwa [htokens, List.cons_append, Stream.current_on_cons]

/-- Reads back a list of printed trees when each of them is read back on
its own. -/
theorem readWhile_texts {es : List Expr} (hprint : ∀ e ∈ es, e.Printable Argument.Writable)
    (hapart : es.IsChain fun e f => ¬ (e.isString = true ∧ f.isString = true))
    (hread : ∀ e ∈ es, ∀ rest : List Token,
      (e.isString = true → ∀ t ∈ rest.head?, t.kind ≠ .string) →
      readExpr (s.on (wordsOf (e.texts glued) ++ rest)) = .ok (some (e.dress .reread, s.on rest)))
    {rest : List Token} (hrest : NoParam rest)
    (hstop : readWhile (goesOn []) (s.on rest) = .ok ([], s.on rest)) :
    readWhile (goesOn []) (s.on (wordsOf (es.flatMap (·.texts glued)) ++ rest)) =
      .ok (es.map (·.dress .reread), s.on rest) := by
  induction es with
  | nil => exact hstop
  | cons e es ih =>
      rw [List.flatMap_cons, Lexer.wordsOf_append, List.append_assoc]
      refine readWhile_cons (goesOn_texts glued s (hprint e List.mem_cons_self) _)
        (hread e List.mem_cons_self _ ?_) ?_
      · -- a string would take in the next one
        intro he u hu
        cases es with
        | nil =>
            have hu := hrest u hu
            simp only [List.mem_cons, not_or] at hu
            exact hu.2.2.1
        | cons f es =>
            obtain ⟨v, vs, hvtokens, -, hstring, -⟩ := exists_wordsOf_texts glued
              (hprint f (List.mem_cons_of_mem e List.mem_cons_self))
            rw [List.flatMap_cons, Lexer.wordsOf_append, List.append_assoc, hvtokens] at hu
            obtain rfl : v = u := by simpa using hu
            intro hv
            exact (List.isChain_cons_cons.1 hapart).1 ⟨he, hstring hv⟩
      · exact ih (fun f hf => hprint f (List.mem_cons_of_mem e hf)) hapart.tail
          (fun f hf => hread f (List.mem_cons_of_mem e hf))

theorem noParam_closing (rest : List Token) : NoParam (.closing :: rest) := by
  rintro t ⟨⟩
  decide

/-- Reading stops at a closing parenthesis. -/
theorem readWhile_closing (rest : List Token) :
    readWhile (goesOn []) (s.on (.closing :: rest)) = .ok ([], s.on (.closing :: rest)) := by
  rw [readWhile_eq, readExpr_other (by simp [Token.closing])]
  rfl

/-- Printed trees end the arguments before them if the first is a form. -/
theorem noParam_texts {es : List Expr} (hprint : ∀ e ∈ es, e.Printable Argument.Writable)
    (hfirst : ∀ e ∈ es.head?, e.node?.isSome = true) {rest : List Token} (hrest : NoParam rest) :
    NoParam (wordsOf (es.flatMap (·.texts glued)) ++ rest) := by
  cases es with
  | nil => exact hrest
  | cons e es =>
      obtain ⟨t, ts, htokens, -, -, hform⟩ := exists_wordsOf_texts glued (hprint e List.mem_cons_self)
      rw [List.flatMap_cons, Lexer.wordsOf_append, List.append_assoc, htokens]
      rintro u ⟨⟩
      rw [hform (hfirst e rfl)]
      decide

/-- A form in parentheses is read when what stands between its head and
its end is. -/
theorem readExpr_form {head : Head} (h : head.Printable Argument.Writable) {inner rest : List Token}
    {children : List Expr} (hopen : NoParam (inner ++ .closing :: rest))
    (hchildren : readWhile (goesOn []) (s.on (inner ++ .closing :: rest)) =
      .ok (children, s.on (.closing :: rest))) :
    readExpr (s.on (.opening :: (wordsOf (head.texts glued) ++ (inner ++ .closing :: rest)))) =
      .ok (some (.node (head.dress .reread) children, s.on rest)) := by
  obtain ⟨t, hhead, hspan, hinstr⟩ := readHead_text s h
    (wordsOf ((head.name.map (signed ·.name)).toList) ++
      (wordsOf (head.params.flatMap (·.arg.texts glued)) ++ (inner ++ .closing :: rest)))
  have hlabel := readLabel_texts glued s h hopen
  have hleading := readParams_texts glued s h.params hopen
  have htrailing := (noParam_closing rest).readParams_eq s
  have hclose : (s.on (.closing :: rest)).expect .rightParen = .ok (.closing, s.on rest) := rfl
  rw [readExpr_leftParen rfl, Head.texts, Lexer.wordsOf_cons, Lexer.wordsOf_append,
    List.append_assoc, List.append_assoc]
  refine bind_eq_ok.2 ⟨_, hhead, ?_⟩
  dsimp only
  rw [hlabel]
  refine bind_eq_ok.2 ⟨_, hleading, bind_eq_ok.2 ⟨_, hchildren, bind_eq_ok.2 ⟨_, htrailing,
    bind_eq_ok.2 ⟨_, hclose, ?_⟩⟩⟩⟩
  dsimp only
  rw [hinstr, List.append_nil]
  rfl

/-- **A printed tree is read back.** -/
theorem readExpr_texts {e : Expr} (h : e.Printable Argument.Writable) (rest : List Token)
    (hrest : e.isString = true → ∀ t ∈ rest.head?, t.kind ≠ .string) :
    readExpr (s.on (wordsOf (e.texts glued) ++ rest)) =
      .ok (some (e.dress .reread, s.on rest)) := by
  induction h generalizing rest with
  | @ref name span hname =>
      have hwords := (isWord_signed hname).words_eq
      rw [Expr.texts, Lexer.wordsOf_singleton, hwords, readExpr_label rfl, Expr.dress_ref]
      simp [value_signed, Guise.reread]
  | @data bytes span =>
      have hwords := (isWord_quoted bytes).words_eq
      have hbytes := ofToken_quoted bytes
      have hstop : (s.on rest).accept .string = none := by
        rw [Stream.accept, if_neg]
        cases rest with
        | nil => simp [Token.atEnd]
        | cons t rest => exact hrest rfl t rfl
      rw [Expr.texts, Lexer.wordsOf_singleton, hwords, readExpr_string rfl, Expr.dress_data]
      refine bind_eq_ok.2 ⟨bytes, hbytes, bind_eq_ok.2 ⟨(([], .zero), s.on rest), ?_, ?_⟩⟩
      · rw [readStrings_eq]
        exact hstop ▸ rfl
      · dsimp only
        rw [List.append_nil]
        rfl
  | @node head children hhead hfirst hapart hchildren ih =>
      have hstop := readWhile_closing s rest
      have hinner := readWhile_texts glued s hchildren hapart ih (noParam_closing rest) hstop
      have htokens : wordsOf ((Expr.node head children).texts glued) ++ rest =
          .opening :: (wordsOf (head.texts glued) ++
            (wordsOf (children.flatMap (·.texts glued)) ++ .closing :: rest)) := by
        have hopen := isWord_opening.words_eq
        have hclose := isWord_closing.words_eq
        rw [Expr.texts, Lexer.wordsOf_cons, Lexer.wordsOf_append, Lexer.wordsOf_append,
          Lexer.wordsOf_singleton, hopen, hclose]
        simp [Token.opening, Token.closing]
      rw [htokens, Expr.dress_node]
      exact readExpr_form glued s hhead
        (noParam_texts glued hchildren hfirst (noParam_closing rest)) hinner

end Parser

/-! ## Modules -/

/-- Whether a module can be written, with arguments that satisfy `ok`. -/
structure Node.Printable (ok : Argument → Prop) (n : Node) : Prop where
  instr : n.instr = "module"
  tree : n.toExpr.Printable ok

instance {ok : Argument → Prop} [DecidablePred ok] (n : Node) : Decidable (n.Printable ok) :=
  decidable_of_iff (n.instr = "module" ∧ n.toExpr.Printable ok)
    ⟨fun ⟨hinstr, htree⟩ => ⟨hinstr, htree⟩, fun h => ⟨h.instr, h.tree⟩⟩

/-- Words that are one module form are parsed to that module. -/
theorem parseWords_module {ws : List Token} {head : Head} {children : List Expr}
    (hmodule : head.instr = "module") {t : Token} {ts : List Token} (hws : ws = t :: ts)
    (hkind : t.kind = .leftParen)
    (hread : Parser.readExpr ⟨ws, ws, .zero⟩ = .ok (some (.node head children, ⟨ws, [], .zero⟩))) :
    parseWords ws = .ok ⟨head, children⟩ := by
  have hgo : Parser.goesOn [] ⟨ws, ws, .zero⟩ = true := by
    subst hws
    exact Parser.goesOn_of_kind (by simp [Stream.current, hkind]) []
  have hstop : Parser.readWhile (Parser.goesOn []) ⟨ws, [], .zero⟩ = .ok ([], ⟨ws, [], .zero⟩) := by
    rw [Parser.readWhile_eq]
    rfl
  refine bind_eq_ok.2 ⟨_, Parser.readWhile_cons hgo hread hstop, ?_⟩
  simp only [Parser.moduleOf, if_pos hmodule]
  rfl

/-- What words are parsed to, a source with these words is parsed to, up
to places. -/
theorem exists_parse_of_words {source : String} {n : Node}
    (h : parseWords (words source.toList) = .ok n) :
    ∃ m, parse source = .ok m ∧ m.bare = n := by
  rw [← parse_words] at h
  cases hparse : parse source with
  | error e => rw [hparse] at h; cases h
  | ok m =>
      rw [hparse] at h
      exact ⟨m, rfl, Except.ok.inj h⟩

/-- A number of the class it is kept in stays there. -/
theorem Argument.WellFormed.reread_eq {a : Argument} (h : a.WellFormed) :
    a.dress .reread = a.dress .bare := by
  cases a with
  | number text =>
      have hwords := IsNumeral.words_eq h (.inl rfl)
      simp [dress, Guise.reread, Guise.bare, ofNumeral, hwords]
  | hex text =>
      have hwords := IsNumeral.words_eq h (.inr rfl)
      simp [dress, Guise.reread, Guise.bare, ofNumeral, hwords]
  | str bytes => rfl
  | label name => rfl
  | keyword key value => rfl

/-- A head with numbers in their classes is read back without places. -/
theorem Head.Printable.reread_eq {head : Head} (h : head.Printable Argument.WellFormed) :
    head.dress .reread = head.dress .bare := by
  have hparams : head.params.map (·.dress .reread) = head.params.map (·.dress .bare) :=
    List.map_congr_left fun p hp => by
      rw [Param.dress, Param.dress, (h.params p hp).reread_eq]
      rfl
  rw [Head.dress, Head.dress, hparams]
  rfl

/-- So is a tree. -/
theorem Expr.Printable.reread_eq {e : Expr} (h : e.Printable Argument.WellFormed) :
    e.dress .reread = e.bare := by
  induction h with
  | ref => rw [dress_ref, bare_ref]; rfl
  | data => rw [dress_data, bare_data]; rfl
  | node hhead _ _ _ ih => rw [dress_node, bare_node, hhead.reread_eq, List.map_congr_left ih]

theorem Head.Printable.mono {ok ok' : Argument → Prop} (hok : ∀ a, ok a → ok' a) {head : Head}
    (h : head.Printable ok) : head.Printable ok' :=
  ⟨h.instr, h.name, fun p hp => hok _ (h.params p hp), h.first⟩

/-- What is printable stays so when more arguments are allowed. -/
theorem Expr.Printable.mono {ok ok' : Argument → Prop} (hok : ∀ a, ok a → ok' a) {e : Expr}
    (h : e.Printable ok) : e.Printable ok' := by
  induction h with
  | ref hname => exact .ref hname
  | data => exact .data
  | node hhead hfirst hapart _ ih => exact .node (hhead.mono hok) hfirst hapart ih

/-- **Parsing undoes printing.** A well-formed module is read back as it
was, up to places. -/
theorem parse_print {n : Node} (h : n.Printable Argument.WellFormed) (glued : Bool) :
    ∃ m, parse (n.print glued) = .ok m ∧ m.bare = n.bare := by
  have htree : n.toExpr.Printable Argument.Writable :=
    h.tree.mono fun _ => Argument.WellFormed.writable
  have hwords : words (n.print glued).toList = wordsOf (n.toExpr.texts glued) :=
    Lexer.words_intercalate (htree.settled_texts glued)
  obtain ⟨t, ts, htokens, -, -, hform⟩ := Parser.exists_wordsOf_texts glued htree
  have hread := Parser.readExpr_texts glued
    ⟨wordsOf (n.toExpr.texts glued), [], .zero⟩ htree [] nofun
  rw [List.append_nil, h.tree.reread_eq, Node.toExpr, Expr.bare_node] at hread
  refine exists_parse_of_words ?_
  rw [hwords]
  exact parseWords_module h.instr htokens (hform rfl) hread

/-- A module in which names stand as labels, arguments and children,
strings as children, and keywords as forms, alone and with a value. -/
def assortedModule : Node where
  instr := "module"
  name := some ⟨"m", .zero⟩
  params := []
  span := .zero
  children := [
    .node ⟨"data", none, [], .zero⟩ [
      .node ⟨"offset", none, [], .zero⟩ [.node ⟨"i32.const", none, [⟨.hex "0x1F", .zero⟩], .zero⟩ []],
      .ref "here" .zero, .data [0x61, 0x22, 0xFF] .zero, .ref "there" .zero],
    .node ⟨"memory", some ⟨"0=", .zero⟩, [⟨.label "$", .zero⟩, ⟨.number "1", .zero⟩,
      ⟨.keyword .offset (some "16"), .zero⟩, ⟨.keyword .shared none, .zero⟩], .zero⟩ []]

theorem parse_print_assorted : assortedModule.print true =
      "( module $m ( data ( offset ( i32.const 0x1F ) ) $here \"\\61\\22\\ff\" $there ) " ++
        "( memory $0= $$ 1 offset=16 shared ) )" ∧
    ∃ m, parse (assortedModule.print true) = .ok m ∧ m.bare = assortedModule.bare :=
  ⟨by cbv, parse_print (by decide +kernel) true⟩

end WasmText
