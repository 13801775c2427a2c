import WasmText.Proofs.Tree.Enclosing
/-!
# The module form may be left out

A source is the contents of a module, or one module form. The contents
with `(module` before them and a closing parenthesis on a line of its own
after them are a module form with these contents. The newline is there for
a comment that goes to the end of its line, and everything else that was
lexed or parsed to its end is not changed by what comes after it.
-/

namespace WasmText

open Lexer (words)

/-! ## Characters before a newline -/

namespace Lexer

/-- A block comment that is closed stays closed where it was. -/
theorem commentEnd?_append {depth n : Nat} {cs : List Char} (h : commentEnd? depth cs = some n)
    (more : List Char) : n ≤ cs.length ∧ commentEnd? depth (cs ++ more) = some n := by
  fun_induction commentEnd? depth cs generalizing n with
  | case1 => cases h
  | case2 depth cs ih =>
      obtain ⟨m, hm, rfl⟩ := Option.map_eq_some_iff.1 h
      obtain ⟨hle, hmore⟩ := ih hm
      refine ⟨by simpa using hle, ?_⟩
      simp [commentEnd?, hmore]
  | case3 cs =>
      obtain rfl := Option.some.inj h
      exact ⟨by simp, rfl⟩
  | case4 depth cs ih =>
      obtain ⟨m, hm, rfl⟩ := Option.map_eq_some_iff.1 h
      obtain ⟨hle, hmore⟩ := ih hm
      refine ⟨by simpa using hle, ?_⟩
      simp [commentEnd?, hmore]
  | case5 depth c cs hopen hclose ih =>
      obtain ⟨m, hm, rfl⟩ := Option.map_eq_some_iff.1 h
      obtain ⟨hle, hmore⟩ := ih hm
      refine ⟨by simpa using hle, ?_⟩
      -- the comment goes on, so a mark that starts here would have ended before `more`
      obtain ⟨d, ds, rfl⟩ : ∃ d ds, cs = d :: ds := by
        cases cs with
        | nil => cases hm
        | cons d ds => exact ⟨d, ds, rfl⟩
      rw [List.cons_append, commentEnd?, hmore]
      · rfl
      · rintro ds' hc hd
        obtain ⟨rfl, -⟩ := List.cons.inj hd
        exact hopen ds hc rfl
      · rintro ds' hc hd
        obtain ⟨rfl, -⟩ := List.cons.inj hd
        exact hclose ds hc rfl

/-- A run that a character does not continue ends before it. -/
theorem takeWhile_append_cons {p : Char → Bool} {c : Char} (hc : p c = false)
    (cs more : List Char) : (cs ++ c :: more).takeWhile p = cs.takeWhile p := by
  induction cs with
  | nil => simp [hc]
  | cons d ds ih =>
      rw [List.cons_append, List.takeWhile_cons, List.takeWhile_cons, ih]

/-- A token that is neither blank nor invalid ends before a newline where
it ended without one. -/
theorem Cut.before_newline {c : Char} {cs : List Char} {kind : Token.Kind} {n : Nat}
    (h : Cut c cs kind n) (hblank : isBlank c = false) (hvalid : kind ≠ .invalid)
    (more : List Char) : n ≤ cs.length ∧ Cut c (cs ++ '\n' :: more) kind n := by
  have hrun : (cs ++ '\n' :: more).takeWhile isIdentifier = cs.takeWhile isIdentifier :=
    takeWhile_append_cons (by decide) cs more
  have hlength : (cs.takeWhile isIdentifier).length ≤ cs.length :=
    (List.takeWhile_prefix isIdentifier).length_le
  cases h with
  | whitespace hc =>
      rw [hc] at hblank
      cases hblank
  | @line cs =>
      have hline : (';' :: cs ++ '\n' :: more).takeWhile (· != '\n') =
          (';' :: cs).takeWhile (· != '\n') := takeWhile_append_cons (by decide) _ _
      refine ⟨(List.takeWhile_prefix _).length_le, ?_⟩
      rw [← hline]
      exact .line
  | block h =>
      obtain ⟨hle, hmore⟩ := commentEnd?_append h ('\n' :: more)
      exact ⟨by simpa using hle, .block hmore⟩
  | unclosedBlock => exact absurd rfl hvalid
  | leftParen h =>
      refine ⟨Nat.zero_le _, .leftParen ?_⟩
      cases cs with
      | nil => simp
      | cons d ds => exact h
  | rightParen => exact ⟨Nat.zero_le _, .rightParen⟩
  | string h =>
      obtain ⟨body, rest, rfl, rfl, hend⟩ := exists_of_stringEnd? h
      refine ⟨by simp, .string ?_⟩
      rw [List.append_assoc]
      exact hend _
  | unclosedString => exact absurd rfl hvalid
  | bareSign => exact absurd rfl hvalid
  | label h =>
      refine ⟨hlength, ?_⟩
      rw [← hrun] at h ⊢
      exact .label h
  | keyword hc hm h =>
      obtain ⟨-, hle, -⟩ := keywordLength?_take h
      rw [← hrun] at h
      refine ⟨?_, .keyword hc hm h⟩
      rw [List.length_cons] at hle
      omega
  | atom hc hm h =>
      refine ⟨hlength, ?_⟩
      rw [← hrun] at h ⊢
      exact .atom hc hm h
  | other => exact absurd rfl hvalid

/-- **Words before a newline** are those of the text, if they are valid. -/
theorem words_append_newline {text : List Char} (hvalid : ∀ t ∈ words text, t.kind ≠ .invalid)
    (more : List Char) : words (text ++ '\n' :: more) = words text ++ words more := by
  induction hlength : text.length using Nat.strongRecOn generalizing text with
  | ind length ih =>
      cases text with
      | nil => rw [words_nil, List.nil_append, List.nil_append, words_blank (by decide)]
      | cons c cs =>
          by_cases hblank : isBlank c = true
          · rw [words_blank hblank] at hvalid ⊢
            rw [List.cons_append, words_blank hblank]
            exact ih _ (by simp [← hlength]) hvalid rfl
          · have hblank := Bool.eq_false_iff.2 hblank
            have hcut := cut_spec c cs
            have hless : (cs.drop (cut c cs).2).length < length := by
              rw [List.length_drop, ← hlength, List.length_cons]
              omega
            by_cases htrivia : (cut c cs).1.isTrivia = true
            · have hkind : (cut c cs).1 ≠ .invalid := by
                intro hkind
                rw [hkind] at htrivia
                cases htrivia
              obtain ⟨hle, hbefore⟩ := hcut.before_newline hblank hkind more
              rw [hcut.words_trivia htrivia] at hvalid ⊢
              rw [List.cons_append, hbefore.words_trivia htrivia, List.drop_append_of_le_length hle]
              exact ih _ hless hvalid rfl
            · have htrivia := Bool.eq_false_iff.2 htrivia
              rw [hcut.words_cons htrivia] at hvalid ⊢
              obtain ⟨hkind, hvalid⟩ := List.forall_mem_cons.1 hvalid
              obtain ⟨hle, hbefore⟩ := hcut.before_newline hblank hkind more
              rw [List.cons_append, hbefore.words_cons htrivia, List.drop_append_of_le_length hle,
                List.take_append_of_le_length hle, ih _ hless hvalid rfl]
              rfl

end Lexer

/-! ## Valid tokens -/

namespace Grammar

/-- Whether none of some tokens is invalid. -/
def Valid (ts : List Token) : Prop := ∀ t ∈ ts, t.kind ≠ .invalid

variable {ts : List Token}

@[simp] theorem valid_nil : Valid [] := List.forall_mem_nil _

@[simp] theorem valid_cons {t : Token} : Valid (t :: ts) ↔ t.kind ≠ .invalid ∧ Valid ts :=
  List.forall_mem_cons

@[simp] theorem valid_append {ts' : List Token} : Valid (ts ++ ts') ↔ Valid ts ∧ Valid ts' :=
  List.forall_mem_append

theorem OptionalLabel.valid {name : Option Label} (h : OptionalLabel name ts) : Valid ts := by
  cases h with
  | absent => exact valid_nil
  | present hkind => simp [hkind]

theorem RepeatedLabel.valid {name : Option Label} (h : RepeatedLabel name ts) : Valid ts := by
  cases h with
  | absent => exact valid_nil
  | present hkind => simp [hkind]

theorem Parameter.valid {p : Param} (h : Parameter p ts) : Valid ts := by
  cases h with
  | number hkind => simp [hkind]
  | hex hkind => simp [hkind]
  | string hbytes => simp [hbytes.1]
  | label hkind => simp [hkind]
  | keyword hkind => simp [hkind]
  | setting hkind _ _ hvalue => rcases hvalue with hvalue | hvalue <;> simp [hkind, hvalue]

theorem Parameters.valid {ps : List Param} (h : Parameters ps ts) : Valid ts := by
  induction h with
  | nil => exact valid_nil
  | cons hfirst _ ih => exact valid_append.2 ⟨hfirst.valid, ih⟩

theorem FlatHead.valid {head : Head} (h : FlatHead head ts) : Valid ts := by
  cases h with
  | mk hkind hname hparams => simp [hkind, hname.valid, hparams.valid]

theorem valid_of_denotes {pieces : List (List UInt8)} (h : List.Forall₂ Denotes ts pieces) :
    Valid ts := by
  induction h with
  | nil => exact valid_nil
  | cons hfirst _ ih => simp [hfirst.1, ih]

theorem ne_invalid_of_is {t : Token} {word : String} (h : t.is .instr word = true) :
    t.kind ≠ .invalid := by
  rw [Token.is, Bool.and_eq_true, beq_iff_eq] at h
  simp [h.1]

/-- **No rule takes an invalid token.** -/
theorem Trees.valid {es : List Expr} (h : Trees es ts) : Valid ts := by
  refine @Trees.rec (fun _ ts _ => Valid ts) (fun _ ts _ => Valid ts) (fun _ _ ts _ => Valid ts)
    ?ref ?data ?enclosed ?block ?conditional ?indirect ?plain ?nil ?cons ?absent ?present es ts h
  case ref =>
    intro t hkind
    simp [hkind]
  case data => exact fun hpieces => valid_of_denotes hpieces
  case enclosed =>
    intro left t right _ _ _ _ _ _ _ _ hleft hkind hname hleading _ htrailing hright hchildren
    have ht : t.kind ≠ .invalid := by
      rcases hkind with hkind | hkind <;> simp [hkind]
    simp [hleft, ht, hname.valid, hleading.valid, hchildren, htrailing.valid, hright]
  case block =>
    intro _ _ _ _ _ _ hhead _ _ hclose hlabel hchildren
    simp [hhead.valid, hchildren, ne_invalid_of_is hclose, hlabel.valid]
  case conditional =>
    intro _ _ _ _ _ _ _ _ hhead _ _ _ hclose hlabel hfirst hsecond
    simp [hhead.valid, hfirst, hsecond, ne_invalid_of_is hclose, hlabel.valid]
  case indirect =>
    intro _ _ _ _ hhead _ _ _ hforms
    simp [hhead.valid, hforms]
  case plain => exact fun hhead _ => hhead.valid
  case nil => exact valid_nil
  case cons => exact fun _ _ hfirst hrest => valid_append.2 ⟨hfirst, hrest⟩
  case absent => exact valid_nil
  case present =>
    intro _ _ _ _ _ hword hlabel _ hchildren
    simp [ne_invalid_of_is hword, hlabel.valid, hchildren]

end Grammar

/-! ## Sources -/

/-- The forms that a source consists of. -/
def topForms (source : String) : Except ParseError (List Expr) :=
  (Parser.readWhile (Parser.goesOn []) (.ofSource source)).map (·.1)

/-- A source with a module form written around it. -/
def wrapped (source : String) : String := "(module " ++ source ++ "\n)"

/-- The head of a module form that is left out. -/
def moduleHead : Head := .plain "module" .zero

theorem words_wrapped {source : String} (h : Grammar.Valid (words source.toList)) :
    words (wrapped source).toList = .opening :: (Lexer.wordsOf (moduleHead.texts true) ++
      (words source.toList ++ [.closing])) := by
  have hmodule : Token.IsWord ⟨.instr, "module", .zero⟩ :=
    Token.LexesAs.isWord (by decide +kernel) rfl nofun
  have hhead : Lexer.wordsOf (moduleHead.texts true) = [⟨.instr, "module", .zero⟩] :=
    (Lexer.wordsOf_singleton "module").trans hmodule.words_eq
  have hclosing : words [')'] = [.closing] := isWord_closing.words_eq
  have hspace : Lexer.EndsWord (' ' :: (source.toList ++ '\n' :: [')'])) := by
    rintro c ⟨⟩
    decide
  calc words (wrapped source).toList
      = words ('(' :: ("module".toList ++ ' ' :: (source.toList ++ '\n' :: [')']))) := by
        simp [wrapped]
    _ = .opening :: words ("module".toList ++ ' ' :: (source.toList ++ '\n' :: [')'])) :=
        (Lexer.Cut.leftParen (by simp)).words_cons rfl
    _ = .opening :: ⟨.instr, "module", .zero⟩ :: words (' ' :: (source.toList ++ '\n' :: [')'])) :=
        congrArg _ (hmodule.words_append hspace)
    _ = .opening :: ⟨.instr, "module", .zero⟩ :: (words source.toList ++ [.closing]) := by
        rw [Lexer.words_blank (by decide), Lexer.words_append_newline h, hclosing]
    _ = _ := by rw [hhead]; rfl

/-- Words that are read to the end are read inside a module form. -/
theorem parseWords_enclosed {ws : List Token} {forms : List Expr} {s : Stream}
    (hforms : Parser.readWhile (Parser.goesOn []) ⟨ws, ws, .zero⟩ = .ok (forms, s))
    (hend : s.ahead = []) (hfirst : ∀ t ∈ ws.head?, t.kind = .leftParen ∨ t.kind = .instr) :
    parseWords (.opening :: (Lexer.wordsOf (moduleHead.texts true) ++ (ws ++ [.closing]))) =
      .ok ⟨moduleHead, forms⟩ := by
  generalize hall : (Token.opening :: (Lexer.wordsOf (moduleHead.texts true) ++ (ws ++ [.closing])))
    = all
  have hopen : Parser.NoParam (ws ++ [.closing]) := by
    cases ws with
    | nil => exact Parser.noParam_closing []
    | cons t ts =>
        rintro u ⟨⟩
        rcases hfirst t rfl with hkind | hkind <;> simp [hkind]
  have hinner := Parser.readWhile_before (Parser.looks_goesOn []) hforms ⟨all, [], .zero⟩
  simp only [Stream.before, hend] at hinner
  have hhead : moduleHead.Printable Argument.Writable := by decide +kernel
  have hread := Parser.readExpr_form true ⟨all, [], .zero⟩ hhead hopen hinner
  rw [hall] at hread
  exact parseWords_module rfl hall.symm rfl hread

/-- A source that is parsed consists of forms up to its end. -/
theorem exists_forms_of_parse {source : String} {n : Node} (h : parse source = .ok n) :
    ∃ forms s, Parser.readWhile (Parser.goesOn []) (.ofSource source) = .ok (forms, s) ∧
      s.ahead = [] ∧ Grammar.Valid (words source.toList) ∧
      n = Parser.moduleOf forms s.finish.stop := by
  rw [parse_eq] at h
  obtain ⟨⟨forms, s⟩, hforms, h⟩ := bind_eq_ok.1 h
  obtain ⟨ts, hts, htrees⟩ := Parser.takes_readWhile hforms
  dsimp only at h
  split at h
  next heof =>
    have hend : s.ahead = [] := Stream.ahead_eq_nil hts (beq_iff_eq.1 heof)
    have hwords : words source.toList = ts.map Token.bare := by
      rw [hend, List.append_nil] at hts
      exact congrArg (List.map Token.bare) hts
    refine ⟨forms, s, hforms, hend, ?_, (Except.ok.inj h).symm⟩
    rw [hwords]
    exact List.forall_mem_map.2 htrees.valid
  next => cases h

/-- The forms of a source are those of the module form around it. -/
theorem exists_parse_wrapped {source : String} {forms : List Expr} {s : Stream}
    (hforms : Parser.readWhile (Parser.goesOn []) (.ofSource source) = .ok (forms, s))
    (hend : s.ahead = []) (hvalid : Grammar.Valid (words source.toList))
    (hfirst : ∀ t ∈ ((Token.scan source).filter Token.isSignificant).head?,
      t.kind = .leftParen ∨ t.kind = .instr) :
    ∃ m, parse (wrapped source) = .ok m ∧ m.bare = ⟨moduleHead, forms.map Expr.bare⟩ := by
  have hstart : ∀ t ∈ (words source.toList).head?, t.kind = .leftParen ∨ t.kind = .instr := by
    rw [Lexer.filter_isSignificant_scan] at hfirst
    rw [words, List.head?_map]
    intro t ht
    obtain ⟨u, hu, rfl⟩ := Option.map_eq_some_iff.1 ht
    exact hfirst u hu
  have hbare : Parser.readWhile (Parser.goesOn [])
      ⟨words source.toList, words source.toList, .zero⟩ = .ok (forms.map Expr.bare, s.bare) := by
    have hbare := Parser.readWhile_bare (Parser.goesOn_bare []) (.ofSource source)
    rw [hforms] at hbare
    exact hbare
  have hbarend : s.bare.ahead = [] := by rw [Stream.bare, hend]; rfl
  have hparsed := parseWords_enclosed hbare hbarend hstart
  rw [← words_wrapped hvalid] at hparsed
  exact exists_parse_of_words hparsed

/-- **The module form may be left out.** A source that is parsed, starts
with a parenthesis or an instruction and is not itself one module form,
has the same contents with the module form written around it, and
compiles to the same bytes or neither does. -/
theorem module_form_optional [HexReader] {source : String} {n : Node}
    (hparse : parse source = .ok n)
    (hfirst : ∀ t ∈ ((Token.scan source).filter Token.isSignificant).head?,
      t.kind = .leftParen ∨ t.kind = .instr)
    (hsingle : ∀ e, topForms source = .ok [e] → e.isNode "module" = false) :
    ∃ m, parse (wrapped source) = .ok m ∧ m.instr = "module" ∧
      m.children.map Expr.bare = n.children.map Expr.bare ∧
      ∀ bytes, compile (wrapped source) = .ok bytes ↔ compile source = .ok bytes := by
  obtain ⟨forms, s, hforms, hend, hvalid, hmodule⟩ := exists_forms_of_parse hparse
  obtain ⟨m, hm, hmbare⟩ := exists_parse_wrapped hforms hend hvalid hfirst
  -- both are a module form around the same trees
  have hn : n = ⟨.plain "module" ⟨0, s.finish.stop, 1, 1⟩, forms⟩ := by
    refine hmodule.trans (Parser.moduleOf_of_single ?_ _)
    rintro e rfl
    refine hsingle e ?_
    rw [topForms, hforms]
    rfl
  have hsame : m.bare = n.bare := by rw [hmbare, hn]; rfl
  have hinstr : m.bare.instr = n.bare.instr := congrArg (·.instr) hsame
  have hunplaced : unplaced Node.bare (parse (wrapped source)) =
      unplaced Node.bare (parse source) := by
    rw [hm, hparse, unplaced, unplaced, hsame]
  refine ⟨m, hm, ?_, congrArg Node.children hsame, fun bytes =>
    ⟨compile_congr hunplaced, compile_congr hunplaced.symm⟩⟩
  rw [hn] at hinstr
  exact hinstr

/-- Two forms, and a comment that would take in what follows it on its
line. -/
def commentedForms : String :=
  "(func $f (result i32) i32.const 1)\n(; (;a;) ;) (export \"f\" (func $f)) ;; b"

theorem module_form_optional_comment :
    compile (wrapped commentedForms) =
      .ok [0x00, 0x61, 0x73, 0x6D, 0x01, 0x00, 0x00, 0x00, 0x01, 0x05, 0x01, 0x60, 0x00, 0x01, 0x7F,
        0x03, 0x02, 0x01, 0x00, 0x07, 0x05, 0x01, 0x01, 0x66, 0x00, 0x00, 0x0A, 0x06, 0x01, 0x04, 0x00,
        0x41, 0x01, 0x0B] := by
  have hfirst : ((Token.scan commentedForms).filter Token.isSignificant).head?.map Token.kind =
      some .leftParen := by decide +kernel
  have hforms : (topForms commentedForms).map List.length = .ok 2 := by decide +kernel
  have hok : (parse commentedForms).isOk = true := by decide +kernel
  obtain ⟨n, hparse⟩ := exists_of_isOk hok
  obtain ⟨-, -, -, -, hcompile⟩ := module_form_optional hparse
    (by
      intro t ht
      rw [Option.mem_def.1 ht] at hfirst
      exact .inl (Option.some.inj hfirst))
    (by
      intro e he
      rw [he] at hforms
      cases hforms)
  exact (hcompile _).2 (by decide +kernel)

end WasmText
