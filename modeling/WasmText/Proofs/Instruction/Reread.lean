import WasmText.Proofs.Tree.RoundTrip
import WasmText.Proofs.Instruction.Spelling
/-!
# Spelled instructions are read back

A spelled body is read as the trees that `Expr.respell` says. A form in
parentheses ends where they close, whatever comes after (`FormAs`). A flat
instruction takes all the arguments it finds, and a flat indirect call all
the signature forms, so it ends well only before tokens that start neither
(`Follows`). Every instruction starts with such tokens, in either spelling,
and so do the marks that end a construct. That carries the reading from
one instruction to the next (`ReadsAs`).
-/

namespace WasmText

open Lexer (words wordsOf)

namespace Parser

/-- Whether tokens can follow a flat instruction: they start neither an
argument nor a form that gives a signature. -/
structure Follows (rest : List Token) : Prop where
  noParam : NoParam rest
  noSignature : ∀ s : Stream, startsSignature (s.on rest) = false

/-- Whether texts are read as the given trees, up to places, before
whatever can follow them. -/
structure ReadsAs (texts : List String) (es : List Expr) : Prop where
  settled : ∀ text ∈ texts, Lexer.Settled text
  follows : ∀ rest, Follows rest → Follows (wordsOf texts ++ rest)
  read : ∀ (s : Stream) (ends : List String) (rest : List Token) (more : List Expr) (s' : Stream),
    ends ⊆ ["end", "else"] → Follows rest →
    readWhile (goesOn ends) (s.on rest) = .ok (more, s') →
    readWhile (goesOn ends) (s.on (wordsOf texts ++ rest)) =
      .ok (es.map (·.dress .reread) ++ more, s')

/-- Whether texts are one form in parentheses, read as the given tree, up
to places, whatever comes after. -/
structure FormAs (texts : List String) (e : Expr) : Prop where
  settled : ∀ text ∈ texts, Lexer.Settled text
  opens : ∃ ts, wordsOf texts = .opening :: ts
  read : ∀ (s : Stream) (rest : List Token),
    readExpr (s.on (wordsOf texts ++ rest)) = .ok (some (e.dress .reread, s.on rest))

namespace ReadsAs

variable {texts others : List String} {es fs : List Expr}

/-- Nothing is read back as nothing. -/
theorem nil : ReadsAs [] [] := ⟨nofun, fun _ h => h, fun _ _ _ _ _ _ _ h => h⟩

/-- What is read back can stand before what is read back. -/
theorem append (h : ReadsAs texts es) (h' : ReadsAs others fs) :
    ReadsAs (texts ++ others) (es ++ fs) := by
  refine ⟨fun text hmem => ?_, fun rest hrest => ?_, fun s ends rest more s' hends hrest hmore => ?_⟩
  · exact (List.mem_append.1 hmem).elim (h.settled text) (h'.settled text)
  · rw [Lexer.wordsOf_append, List.append_assoc]
    exact h.follows _ (h'.follows rest hrest)
  · rw [Lexer.wordsOf_append, List.append_assoc, List.map_append, List.append_assoc]
    exact h.read s ends _ _ s' hends (h'.follows rest hrest) (h'.read s ends rest more s' hends hrest hmore)

/-- Instructions one after another are read one after another. -/
theorem flatMap {spell : Expr → List String} {respell : Expr → List Expr}
    (h : ∀ e ∈ es, ReadsAs (spell e) (respell e)) : ReadsAs (es.flatMap spell) (es.flatMap respell) := by
  induction es with
  | nil => exact .nil
  | cons e es ih =>
      exact (h e List.mem_cons_self).append (ih fun c hc => h c (List.mem_cons_of_mem e hc))

end ReadsAs

/-! ## What can follow -/

/-- An instruction or a closing parenthesis starts neither an argument nor
a signature form. -/
theorem follows_of_kind {t : Token} (h : t.kind = .instr ∨ t.kind = .rightParen) (rest : List Token) :
    Follows (t :: rest) := by
  refine ⟨?_, fun s => ?_⟩
  · rintro u ⟨⟩
    rcases h with h | h <;> rw [h] <;> decide
  · rcases h with h | h <;> simp [startsSignature, Stream.currentIs, h]

theorem follows_closing (rest : List Token) : Follows (.closing :: rest) :=
  follows_of_kind (.inr rfl) rest

/-- Whether a form of a signature starts is told by the word after the
parenthesis. -/
theorem startsSignature_opening (s : Stream) (t : Token) (ts : List Token) :
    startsSignature (s.on (.opening :: t :: ts)) =
      (t.kind == .instr && ["type", "param", "result"].contains t.value) := rfl

/-- A form that gives no signature can follow. -/
theorem follows_opening {ok : Argument → Prop} {head : Head} (h : head.Printable ok)
    (hsignature : head.instr ∉ ["type", "param", "result"]) (rest : List Token) :
    Follows (.opening :: (words head.instr.toList ++ rest)) := by
  refine ⟨by rintro u ⟨⟩; decide, fun s => ?_⟩
  rcases h.instr with ⟨hinstr, -⟩ | ⟨key, hkey⟩
  · have hwords := (hinstr.isWord rfl nofun).words_eq
    rw [hwords, List.singleton_append, startsSignature_opening]
    simpa [Token.value] using hsignature
  · have hwords := (isWord_keyword key).words_eq
    rw [hkey, hwords, List.singleton_append, startsSignature_opening]
    rfl

/-! ## Forms in parentheses -/

theorem wordsOf_enclosed (texts : List String) :
    wordsOf (enclosed texts) = .opening :: (wordsOf texts ++ [.closing]) := by
  have hopen := isWord_opening.words_eq
  have hclose := isWord_closing.words_eq
  rw [enclosed, Lexer.wordsOf_cons, Lexer.wordsOf_append, Lexer.wordsOf_singleton, hopen, hclose]
  rfl

theorem settled_enclosed {texts : List String} (h : ∀ text ∈ texts, Lexer.Settled text) :
    ∀ text ∈ enclosed texts, Lexer.Settled text := by
  intro text hmem
  rw [enclosed, List.mem_cons, List.mem_append, List.mem_singleton] at hmem
  rcases hmem with rfl | hmem | rfl
  · exact isWord_opening.settled
  · exact h text hmem
  · exact isWord_closing.settled

variable (glued : Bool) (s : Stream) {texts : List String} {rest : List Token}

/-- A printed form is read back. -/
theorem formAs_texts {e : Expr} (h : e.Printable Argument.Writable) (hform : e.node?.isSome = true) :
    FormAs (e.texts glued) e := by
  cases h with
  | ref => cases hform
  | data => cases hform
  | @node head children hhead hfirst hapart hchildren =>
      have h : (Expr.node head children).Printable Argument.Writable :=
        .node hhead hfirst hapart hchildren
      refine ⟨h.settled_texts glued, ?_, fun s rest => readExpr_texts glued s h rest nofun⟩
      rw [Expr.texts, Lexer.wordsOf_cons, isWord_opening.words_eq]
      exact ⟨_, rfl⟩

/-- A form goes on with what it stands in. -/
theorem FormAs.goesOn_eq {e : Expr} (h : FormAs texts e) (ends : List String) :
    goesOn ends (s.on (wordsOf texts ++ rest)) = true := by
  obtain ⟨ts, hts⟩ := h.opens
  refine goesOn_of_kind ?_ ends
  rw [hts]
  simp [Token.opening]

/-- It starts no argument. -/
theorem FormAs.noParam {e : Expr} (h : FormAs texts e) (rest : List Token) :
    NoParam (wordsOf texts ++ rest) := by
  obtain ⟨ts, hts⟩ := h.opens
  rw [hts]
  rintro t ⟨⟩
  decide

section forms

variable {spell : Expr → List String} {forms es : List Expr}

/-- Forms one after another are spelled with settled texts. -/
theorem settled_forms (h : ∀ e ∈ forms, FormAs (spell e) e) :
    ∀ text ∈ forms.flatMap spell, Lexer.Settled text := by
  intro text hmem
  obtain ⟨e, he, hmem⟩ := List.mem_flatMap.1 hmem
  exact (h e he).settled text hmem

/-- They end the arguments before them, or what follows them does. -/
theorem noParam_forms (h : ∀ e ∈ forms, FormAs (spell e) e) (hrest : NoParam rest) :
    NoParam (wordsOf (forms.flatMap spell) ++ rest) := by
  cases forms with
  | nil => exact hrest
  | cons e forms =>
      rw [List.flatMap_cons, Lexer.wordsOf_append, List.append_assoc]
      exact (h e List.mem_cons_self).noParam _

/-- Forms one after another are read one after another. -/
theorem readWhile_forms (h : ∀ e ∈ forms, FormAs (spell e) e) {go : Stream → Bool}
    (hgo : ∀ e ∈ forms, ∀ rest, go (s.on (wordsOf (spell e) ++ rest)) = true)
    {more : List Expr} {s' : Stream} (hmore : readWhile go (s.on rest) = .ok (more, s')) :
    readWhile go (s.on (wordsOf (forms.flatMap spell) ++ rest)) =
      .ok (forms.map (·.dress .reread) ++ more, s') := by
  induction forms with
  | nil => exact hmore
  | cons e forms ih =>
      rw [List.flatMap_cons, Lexer.wordsOf_append, List.append_assoc]
      exact readWhile_cons (hgo e List.mem_cons_self _) ((h e List.mem_cons_self).read s _)
        (ih (fun f hf => h f (List.mem_cons_of_mem e hf)) fun f hf => hgo f (List.mem_cons_of_mem e hf))

/-- Forms and then instructions are read up to the end of what they stand
in. -/
theorem ReadsAs.readWhile_forms (h : ReadsAs texts es) (hforms : ∀ e ∈ forms, FormAs (spell e) e)
    {ends : List String} (hends : ends ⊆ ["end", "else"]) (hrest : Follows rest)
    (hstop : readWhile (goesOn ends) (s.on rest) = .ok ([], s.on rest)) :
    readWhile (goesOn ends) (s.on (wordsOf (forms.flatMap spell) ++ (wordsOf texts ++ rest))) =
      .ok ((forms ++ es).map (·.dress .reread), s.on rest) := by
  have hmore := h.read s ends rest [] _ hends hrest hstop
  rw [List.append_nil] at hmore
  rw [List.map_append]
  exact Parser.readWhile_forms s hforms (fun e he _ => (hforms e he).goesOn_eq s ends) hmore

variable {head : Head}

/-- **A form in parentheses is read back** when the forms and the
instructions in it are. -/
theorem ReadsAs.formAs (h : ReadsAs texts es) (hforms : ∀ e ∈ forms, FormAs (spell e) e)
    (hhead : head.Printable Argument.Writable) :
    FormAs (WasmText.enclosed (head.texts glued ++ forms.flatMap spell ++ texts))
      (.node head (forms ++ es)) := by
  refine ⟨settled_enclosed fun text hmem => ?_, ⟨_, wordsOf_enclosed _⟩, fun s rest => ?_⟩
  · rw [List.mem_append, List.mem_append] at hmem
    rcases hmem with (hmem | hmem) | hmem
    · exact hhead.settled_texts glued text hmem
    · exact settled_forms hforms text hmem
    · exact h.settled text hmem
  · have hfollows := follows_closing rest
    have hinner := h.readWhile_forms s hforms (List.nil_subset _) hfollows (readWhile_closing s rest)
    have hopen := noParam_forms hforms (h.follows _ hfollows).noParam
    rw [← List.append_assoc] at hinner hopen
    rw [wordsOf_enclosed, Lexer.wordsOf_append, Lexer.wordsOf_append, Expr.dress_node]
    simpa only [List.cons_append, List.append_assoc, List.nil_append] using
      readExpr_form glued s hhead hopen hinner

/-- A form in parentheses that gives no signature is an instruction among
others. -/
theorem ReadsAs.enclosed (h : ReadsAs texts es) (hforms : ∀ e ∈ forms, FormAs (spell e) e)
    (hhead : head.Printable Argument.Writable) (hsignature : head.instr ∉ ["type", "param", "result"]) :
    ReadsAs (WasmText.enclosed (head.texts glued ++ forms.flatMap spell ++ texts))
      [.node head (forms ++ es)] := by
  have hform := h.formAs glued hforms hhead
  refine ⟨hform.settled, fun rest _ => ?_, fun s ends rest more s' _ _ hmore => ?_⟩
  · rw [wordsOf_enclosed, Head.texts]
    simpa using follows_opening hhead hsignature _
  · exact readWhile_cons (hform.goesOn_eq s ends) (hform.read s rest) hmore

end forms

/-! ## Flat instructions -/

/-- Whether a flat form can have the name: it is neither a keyword nor a
mark of a construct. -/
def IsFlat (word : String) : Prop := word ∉ Keyword.all.map Keyword.word ++ ["end", "else"]

/-- Instructions are flat, apart from the words that end constructs. -/
theorem isFlat_of_opcode {word : String} {op : Opcode} (h : Opcode.ofName? word = some op) :
    IsFlat word :=
  Opcode.not_mem_of_ofName? (by decide +kernel) h

section flat

variable {head : Head} {op : Opcode} {spell : Expr → List String} {forms es : List Expr}

/-- The word of a flat instruction is one token, and has no `=` at its end.
-/
theorem words_instr (hhead : head.Printable Argument.Writable) (hflat : IsFlat head.instr) :
    words head.instr.toList = [⟨.instr, head.instr, .zero⟩] ∧ head.instr.toList.getLast? ≠ some '=' := by
  rcases hhead.instr with ⟨hinstr, hequals⟩ | hkey
  · exact ⟨(hinstr.isWord rfl nofun).words_eq, hequals⟩
  · exact absurd (List.mem_append_left _ (Keyword.mem_words.2 hkey)) hflat

/-- A flat instruction is read up to the end of its arguments, and then as
its name says. -/
theorem readExpr_flat (hhead : head.Printable Argument.Writable)
    (hflat : IsFlat head.instr) (hrest : NoParam rest) :
    readExpr (s.on (wordsOf (head.texts glued) ++ rest)) = (do
      let taken ← readFlat (head.dress .reread) (s.on rest)
      return some taken) := by
  obtain ⟨hwords, hequals⟩ := words_instr hhead hflat
  have hlabel := readLabel_texts glued s hhead hrest
  have hparams := readParams_texts glued s hhead.params hrest
  rw [Head.texts, Lexer.wordsOf_cons, Lexer.wordsOf_append, hwords, List.cons_append, List.nil_append,
    List.cons_append, List.append_assoc, readExpr_instr rfl]
  dsimp only
  rw [Stream.advance_on_cons, hlabel]
  dsimp only
  rw [hparams, Stream.current_on_cons]
  have htrim : trimEquals (Token.value ⟨.instr, head.instr, .zero⟩) = head.instr := trimEquals_eq hequals
  rw [htrim]
  rfl

/-- **A flat instruction is read back** if it is read as an expression
before anything that can follow it. -/
theorem readsAs_flat {more : List String} {e : Expr} (hhead : head.Printable Argument.Writable)
    (hflat : IsFlat head.instr) (hmore : ∀ text ∈ more, Lexer.Settled text)
    (hread : ∀ (s : Stream) (rest : List Token), Follows rest →
      readExpr (s.on (wordsOf (head.texts glued ++ more) ++ rest)) =
        .ok (some (e.dress .reread, s.on rest))) :
    ReadsAs (head.texts glued ++ more) [e] := by
  obtain ⟨hwords, -⟩ := words_instr hhead hflat
  -- the first word is neither an argument nor a mark, so it ends nothing before it
  have hstart : ∀ rest : List Token, ∃ ts,
      wordsOf (head.texts glued ++ more) ++ rest = ⟨.instr, head.instr, .zero⟩ :: ts := by
    intro rest
    rw [Head.texts, List.cons_append, Lexer.wordsOf_cons, hwords]
    exact ⟨_, rfl⟩
  refine ⟨fun text hmem => ?_, fun rest _ => ?_, fun s ends rest es s' hends hrest hes => ?_⟩
  · exact (List.mem_append.1 hmem).elim (hhead.settled_texts glued text) (hmore text)
  · obtain ⟨ts, hts⟩ := hstart rest
    rw [hts]
    exact follows_of_kind (.inl rfl) ts
  · refine readWhile_cons ?_ (hread s rest hrest) hes
    obtain ⟨ts, hts⟩ := hstart rest
    have hword : ∀ word ∈ ends, head.instr ≠ word := by
      rintro word hmem rfl
      exact hflat (List.mem_append_right _ (hends hmem))
    rw [hts]
    simpa [goesOn, Stream.currentIs, Token.is, Token.value] using hword

/-- A plain one takes its arguments and nothing else. -/
theorem readsAs_flat_plain (hhead : head.Printable Argument.Writable)
    (hflat : IsFlat head.instr)
    (hname : head.instr ∉ ["block", "loop", "if", "call_indirect"]) :
    ReadsAs (head.texts glued) [.node head []] := by
  rw [← List.append_nil (head.texts glued)]
  refine readsAs_flat glued hhead hflat nofun fun s rest hrest => ?_
  have htaken : readFlat (head.dress .reread) (s.on rest) = .ok (.node (head.dress .reread) [], s.on rest) :=
    readFlat_plain hname
  rw [List.append_nil, readExpr_flat glued s hhead hflat hrest.noParam, htaken, Expr.dress_node]
  rfl

/-- An indirect call takes its signature too, and stops at what is none. -/
theorem readsAs_flat_indirect (hhead : head.Printable Argument.Writable) (hflat : IsFlat head.instr)
    (hname : head.instr = "call_indirect") (hforms : ∀ e ∈ forms, FormAs (spell e) e)
    (hstart : ∀ e ∈ forms, ∀ (s : Stream) (rest : List Token),
      startsSignature (s.on (wordsOf (spell e) ++ rest)) = true) :
    ReadsAs (head.texts glued ++ forms.flatMap spell) [.node head forms] := by
  refine readsAs_flat glued hhead hflat (settled_forms hforms) fun s rest hrest => ?_
  have hstop : readWhile startsSignature (s.on rest) = .ok ([], s.on rest) := by
    rw [readWhile_eq, hrest.noSignature s]
    rfl
  have hread := readWhile_forms s hforms (fun e he => hstart e he s) hstop
  rw [List.append_nil] at hread
  have htaken : readFlat (head.dress .reread) (s.on (wordsOf (forms.flatMap spell) ++ rest)) =
      .ok ((Expr.node head forms).dress .reread, s.on rest) := by
    have hdress : (head.dress .reread).instr = "call_indirect" := hname
    rw [readFlat_indirect hdress]
    refine bind_eq_ok.2 ⟨_, hread, ?_⟩
    dsimp only
    rw [show (head.dress .reread).span = .zero from rfl, Expr.foldl_through_dress fun _ => rfl,
      Expr.dress_node]
    rfl
  rw [Lexer.wordsOf_append, List.append_assoc,
    readExpr_flat glued s hhead hflat (noParam_forms hforms hrest.noParam), htaken]
  rfl

/-! ### Constructs -/

/-- Where no argument starts, no label is repeated. -/
theorem readClosing_of_noParam (name : Option Label) (h : NoParam rest) :
    readClosing name (s.on rest) = .ok (s.on rest) := by
  rw [readClosing_eq, h.accept_label s]

theorem isWord_end : Token.IsWord ⟨.instr, "end", .zero⟩ := by
  have hlex : Token.LexesAs .instr "end" := by decide +kernel
  exact hlex.isWord rfl nofun

theorem isWord_else : Token.IsWord ⟨.instr, "else", .zero⟩ := by
  have hlex : Token.LexesAs .instr "else" := by decide +kernel
  exact hlex.isWord rfl nofun

/-- Reading stops at a word that ends what is read. -/
theorem readWhile_mark {word : String} {ends : List String} (h : word ∈ ends) (rest : List Token) :
    readWhile (goesOn ends) (s.on (⟨.instr, word, .zero⟩ :: rest)) =
      .ok ([], s.on (⟨.instr, word, .zero⟩ :: rest)) := by
  have hstop : goesOn ends (s.on (⟨.instr, word, .zero⟩ :: rest)) = false := by
    simpa [goesOn, Stream.currentIs, Token.is, Token.value] using h
  rw [readWhile_eq, hstop]
  rfl

theorem expectValue_end (rest : List Token) :
    (s.on (⟨.instr, "end", .zero⟩ :: rest)).expectValue .instr "end" =
      .ok (⟨.instr, "end", .zero⟩, s.on rest) := rfl

/-- Texts up to the end of a construct are settled if those between are. -/
theorem settled_construct (hforms : ∀ e ∈ forms, FormAs (spell e) e)
    (h : ∀ text ∈ texts, Lexer.Settled text) :
    ∀ text ∈ forms.flatMap spell ++ (texts ++ ["end"]), Lexer.Settled text := by
  intro text hmem
  rw [List.mem_append, List.mem_append, List.mem_singleton] at hmem
  rcases hmem with hmem | hmem | rfl
  · exact settled_forms hforms text hmem
  · exact h text hmem
  · exact isWord_end.settled

/-- **A flat block or loop is read back** up to its `end`. What is inside
is read as long as neither mark ends it. -/
theorem ReadsAs.flat_block (h : ReadsAs texts es) (hhead : head.Printable Argument.Writable)
    (hflat : IsFlat head.instr) (hname : head.instr = "block" ∨ head.instr = "loop")
    (hforms : ∀ e ∈ forms, FormAs (spell e) e) :
    ReadsAs (head.texts glued ++ (forms.flatMap spell ++ (texts ++ ["end"])))
      [.node head (forms ++ es)] := by
  refine readsAs_flat glued hhead hflat (settled_construct hforms h.settled) fun s rest hrest => ?_
  have hdress : (head.dress .reread).instr = "block" ∨ (head.dress .reread).instr = "loop" := hname
  have hfollows : Follows (⟨.instr, "end", .zero⟩ :: rest) := follows_of_kind (.inl rfl) rest
  have hparams := noParam_forms hforms (h.follows _ hfollows).noParam
  have hinner := h.readWhile_forms s hforms (by simp) hfollows
    (readWhile_mark s (List.mem_singleton_self _) rest)
  have hclosing := readClosing_of_noParam s (head.dress .reread).name hrest.noParam
  have hwords := isWord_end.words_eq
  simp only [Lexer.wordsOf_append, Lexer.wordsOf_singleton, hwords, List.append_assoc,
    List.singleton_append]
  rw [readExpr_flat glued s hhead hflat hparams, readFlat_block hdress, Expr.dress_node]
  exact bind_eq_ok.2 ⟨_, bind_eq_ok.2 ⟨_, hinner, bind_eq_ok.2 ⟨_, expectValue_end s rest,
    bind_eq_ok.2 ⟨_, hclosing, rfl⟩⟩⟩, rfl⟩

/-- The `else` branch, if there is one, is read up to the end. -/
theorem ReadsAs.read_alternative (h : ReadsAs texts es) (second : Bool) (name : Option Label)
    (rest : List Token) :
    readElse name (s.on (wordsOf (if second then "else" :: texts else []) ++
        ⟨.instr, "end", .zero⟩ :: rest)) =
      .ok ((if second then [Expr.node (.plain "else" .zero) es] else []).map (·.dress .reread),
        s.on (⟨.instr, "end", .zero⟩ :: rest)) := by
  have hfollows : Follows (⟨.instr, "end", .zero⟩ :: rest) := follows_of_kind (.inl rfl) rest
  cases second with
  | false =>
      rw [readElse_eq]
      rfl
  | true =>
      have hwords := isWord_else.words_eq
      have hclosing := readClosing_of_noParam s name (h.follows _ hfollows).noParam
      have hbody := h.read s ["end"] _ [] _ (by simp) hfollows
        (readWhile_mark s (List.mem_singleton_self _) rest)
      rw [List.append_nil] at hbody
      rw [if_pos rfl, if_pos rfl, Lexer.wordsOf_cons, hwords, List.append_assoc, List.singleton_append,
        readElse_eq]
      refine bind_eq_ok.2 ⟨_, hclosing, bind_eq_ok.2 ⟨_, hbody, ?_⟩⟩
      rw [List.map_singleton, Expr.dress_node]
      rfl

/-- **A flat conditional is read back.** Up to its `else`, or else its
`end`, its signature and its first branch are read in one go. They are told
apart afterwards, which is why no instruction of the branch may look like a
signature. The second branch is read after the first, up to the `end`. -/
theorem ReadsAs.flat_if {others : List String} {fs : List Expr} (h : ReadsAs texts es)
    (h' : ReadsAs others fs) (hhead : head.Printable Argument.Writable)
    (hflat : IsFlat head.instr) (hname : head.instr = "if") (hforms : ∀ e ∈ forms, FormAs (spell e) e)
    (hsignature : ∀ e ∈ forms, e.isSignature = true) (hplain : ∀ e ∈ es, e.isSignature = false)
    (second : Bool) :
    ReadsAs (head.texts glued ++ (forms.flatMap spell ++
        ((texts ++ if second then "else" :: others else []) ++ ["end"])))
      [.node head (forms ++ .node (.plain "then" .zero) es ::
        if second then [.node (.plain "else" .zero) fs] else [])] := by
  have hsettled : ∀ text ∈ texts ++ if second then "else" :: others else [], Lexer.Settled text := by
    intro text hmem
    rcases List.mem_append.1 hmem with hmem | hmem
    · exact h.settled text hmem
    · cases second with
      | false => cases hmem
      | true =>
          rcases List.mem_cons.1 hmem with rfl | hmem
          · exact isWord_else.settled
          · exact h'.settled text hmem
  refine readsAs_flat glued hhead hflat (settled_construct hforms hsettled) fun s rest hrest => ?_
  -- the branch ends at the word that divides it from the other, or at the end
  obtain ⟨word, hword, ts, htail⟩ : ∃ word ∈ ["end", "else"], ∃ ts,
      wordsOf (if second then "else" :: others else []) ++ ⟨.instr, "end", .zero⟩ :: rest =
        ⟨.instr, word, .zero⟩ :: ts := by
    cases second with
    | false => exact ⟨"end", List.mem_cons_self, rest, rfl⟩
    | true =>
        have hwords := isWord_else.words_eq
        rw [if_pos rfl, Lexer.wordsOf_cons, hwords]
        exact ⟨"else", by decide, _, rfl⟩
  have hdress : (head.dress .reread).instr = "if" := hname
  have hfollows : Follows (⟨.instr, word, .zero⟩ :: ts) := follows_of_kind (.inl rfl) ts
  have hparams := noParam_forms hforms (h.follows _ hfollows).noParam
  have hinner := h.readWhile_forms s hforms (List.Subset.refl _) hfollows (readWhile_mark s hword ts)
  have helse := h'.read_alternative s second (head.dress .reread).name rest
  have hclosing := readClosing_of_noParam s (head.dress .reread).name hrest.noParam
  -- the signature and the branch were read in one go, and are told apart by their forms
  have hfirst : ((forms ++ es).map (·.dress .reread)).filter (·.isSignature) =
      forms.map (·.dress .reread) := by
    rw [Expr.filter_dress (fun e => e.dress_isSignature), List.filter_append,
      List.filter_eq_self.2 hsignature, List.filter_eq_nil_iff.2 fun e he => by simp [hplain e he],
      List.append_nil]
  have hothers : ((forms ++ es).map (·.dress .reread)).filter (!·.isSignature) =
      es.map (·.dress .reread) := by
    rw [Expr.filter_dress (fun e => by simp), List.filter_append,
      List.filter_eq_nil_iff.2 fun e he => by simp [hsignature e he],
      List.filter_eq_self.2 fun e he => by simp [hplain e he], List.nil_append]
  have hwords := isWord_end.words_eq
  simp only [Lexer.wordsOf_append, Lexer.wordsOf_singleton, hwords, List.append_assoc,
    List.singleton_append]
  rw [htail, readExpr_flat glued s hhead hflat hparams, readFlat_if hdress, Expr.dress_node]
  rw [htail] at helse
  refine bind_eq_ok.2 ⟨_, bind_eq_ok.2 ⟨_, hinner, bind_eq_ok.2 ⟨_, helse,
    bind_eq_ok.2 ⟨_, expectValue_end s rest, bind_eq_ok.2 ⟨_, hclosing, rfl⟩⟩⟩⟩, ?_⟩
  dsimp only
  rw [hfirst, hothers, List.map_append, List.map_cons, Expr.dress_node]
  rfl

end flat

/-! ## Spelled types -/

/-- A value type is named neither like a construct nor like a form that
gives a signature. -/
theorem isFlat_of_valType {word : String} (h : (ValType.ofName? word).isSome = true) :
    IsFlat word ∧ word ∉ ["block", "loop", "if", "call_indirect"] ∧
      word ∉ ["type", "param", "result"] := by
  obtain ⟨type, htype⟩ := Option.isSome_iff_exists.1 h
  obtain rfl : type.name = word := by simpa using List.find?_some htype
  unfold IsFlat
  cases type <;> decide

section types

variable {e : Expr}

/-- A value type is read back, with parentheses or without. -/
theorem readsAs_spellType (h : e.Printable Argument.Writable) (hvalue : e.isValueType = true)
    (style : Style) : ReadsAs (e.spellType style glued) [e] := by
  cases h with
  | ref => cases hvalue
  | data => cases hvalue
  | @node head children hhead _ _ _ =>
      cases children with
      | cons => cases hvalue
      | nil =>
          obtain ⟨hflat, hconstruct, hsignature⟩ := isFlat_of_valType hvalue
          rw [Expr.spellType]
          split
          · exact readsAs_flat_plain glued hhead hflat hconstruct
          · have hnone := List.forall_mem_nil fun e : Expr => FormAs (e.texts glued) e
            rw [Expr.texts]
            simpa [enclosed] using ReadsAs.nil.enclosed glued hnone hhead hsignature

/-- **A form that holds value types is read back.** -/
theorem formAs_spellTypes (h : e.Printable Argument.Writable) (hform : e.node?.isSome = true)
    (style : Style) : FormAs (e.spellTypes style glued) e := by
  have hprint := h
  cases h with
  | ref => cases hform
  | data => cases hform
  | @node head children hhead _ _ hchildren =>
      rw [Expr.spellTypes]
      split
      · next hvalues =>
          have htypes : ReadsAs (children.flatMap (Expr.spellType style glued))
              (children.flatMap fun e => [e]) :=
            .flatMap fun e he => readsAs_spellType glued (hchildren e he)
              (List.all_eq_true.1 hvalues e he) style
          have hnone := List.forall_mem_nil fun e : Expr => FormAs (e.texts glued) e
          simpa using htypes.formAs glued hnone hhead
      · exact formAs_texts glued hprint hform

/-- A spelled signature form is recognized as one. -/
theorem startsSignature_spellTypes (hsignature : e.isSignature = true) (style : Style)
    (rest : List Token) :
    startsSignature (s.on (wordsOf (e.spellTypes style glued) ++ rest)) = true := by
  cases e with
  | ref => cases hsignature
  | data => cases hsignature
  | node head children =>
      have hword : head.instr = "param" ∨ head.instr = "result" ∨ head.instr = "type" := by
        simpa [Expr.isSignature, Expr.isNode, or_assoc] using hsignature
      have hwords : words head.instr.toList = [⟨.instr, head.instr, .zero⟩] := by
        have hlex : Token.LexesAs .instr head.instr := by
          rcases hword with h | h | h <;> rw [h] <;> decide +kernel
        exact (hlex.isWord rfl nofun).words_eq
      obtain ⟨more, hmore⟩ : ∃ more,
          (Expr.node head children).spellTypes style glued = enclosed (head.instr :: more) := by
        rw [Expr.spellTypes]
        split
        · exact ⟨_, rfl⟩
        · rw [Expr.texts]
          exact ⟨_, rfl⟩
      rw [hmore, wordsOf_enclosed, Lexer.wordsOf_cons, hwords]
      refine (startsSignature_opening s _ _).trans ?_
      rcases hword with h | h | h
      all_goals simp [Token.value, h]

end types

/-! ## Spelled instructions -/

/-- The signature of a form is read back, form by form. -/
theorem formAs_signature {n : Node} (h : n.Opens) (style : Style) :
    ∀ e ∈ n.signature, FormAs (e.spellTypes style glued) e := by
  intro e he
  have hsignature := (List.mem_filter.1 he).2
  refine formAs_spellTypes glued (h.signature e he) ?_ style
  cases e with
  | ref => cases hsignature
  | data => cases hsignature
  | node => rfl

/-- A branch of a conditional in parentheses. -/
theorem ReadsAs.branch (h : ReadsAs texts es) (word : String) (hlex : Token.LexesAs .instr word)
    (hequals : word.toList.getLast? ≠ some '=') (hword : word ∉ ["type", "param", "result"]) :
    ReadsAs (WasmText.enclosed (word :: texts)) [.node (.plain word .zero) es] := by
  have hhead : (Head.plain word .zero).Printable Argument.Writable :=
    ⟨.inl ⟨hlex, hequals⟩, nofun, nofun, nofun⟩
  exact h.enclosed false (List.forall_mem_nil fun e : Expr => FormAs (e.texts false) e) hhead hword

/-- No instruction has the word of a signature form. -/
theorem not_mem_signature_of_opcode {word : String} {op : Opcode} (h : Opcode.ofName? word = some op) :
    word ∉ ["type", "param", "result"] :=
  Opcode.not_mem_of_ofName? (by decide +kernel) h

/-! A form is read back in any style when its parts are. -/

section spell

variable {n : Node} {op : Opcode} {style : Style} {firsts seconds : List String}
variable {inside first second : List Expr} (hopens : n.Opens) (h : ReadsAs texts inside)

include hopens h

/-- **A spelled block** is read back, folded or flat. -/
theorem readsAs_block (hop : Opcode.ofName? n.instr = some op) (hs : op.shape = .structured)
    (hc : op ≠ .conditional) :
    ReadsAs (n.spell style glued texts firsts seconds) (n.respell style inside first second) := by
  have hname := Node.instr_of_structured hop hs hc
  have hforms := formAs_signature glued hopens style
  rw [Node.spell_block hname, Node.respell_block hname]
  dsimp only
  split
  · rw [List.append_assoc, List.append_assoc]
    exact h.flat_block glued hopens.head (isFlat_of_opcode hop) hname hforms
  · exact h.enclosed glued hforms hopens.head (not_mem_signature_of_opcode hop)

/-- **A spelled conditional** is read back, with its condition before it or
inside. -/
theorem readsAs_conditional (hop : Opcode.ofName? n.instr = some .conditional)
    (hfirst : ReadsAs firsts first) (hsecond : ReadsAs seconds second)
    (hplain : ∀ e ∈ first, e.isSignature = false) :
    ReadsAs (n.spell style glued texts firsts seconds) (n.respell style inside first second) := by
  have hname := Node.instr_of_conditional hop
  have hforms := formAs_signature glued hopens style
  rw [Node.spell_if hname, Node.respell_if hname]
  dsimp only
  split
  · have hflat := hfirst.flat_if glued hsecond hopens.head (isFlat_of_opcode hop) hname hforms
      (fun e he => (List.mem_filter.1 he).2) hplain (n.hasChild "else")
    refine h.append ?_
    simpa only [List.append_assoc, Node.branches] using hflat
  · have hothers : ReadsAs
        (if n.hasChild "else" then WasmText.enclosed ("else" :: seconds) else [])
        (if n.hasChild "else" then [.node (.plain "else" .zero) second] else []) := by
      split
      · exact hsecond.branch "else" (by decide +kernel) (by decide) (by decide)
      · exact .nil
    have hbranches := (hfirst.branch "then" (by decide +kernel) (by decide) (by decide)).append hothers
    exact (h.append hbranches).enclosed glued hforms hopens.head (not_mem_signature_of_opcode hop)

/-- **A spelled indirect call** is read back, with its operands before it
or inside. -/
theorem readsAs_indirect (hop : Opcode.ofName? n.instr = some op) (hs : op.shape = .indirect) :
    ReadsAs (n.spell style glued texts firsts seconds) (n.respell style inside first second) := by
  have hname := Node.instr_of_indirect hop hs
  have hother : n.instr ∉ ["block", "loop", "if"] := by simp [hname]
  have hforms := formAs_signature glued hopens style
  rw [Node.spell_other hother, Node.respell_other hother]
  dsimp only
  split
  · exact h.append (readsAs_flat_indirect glued hopens.head (isFlat_of_opcode hop) hname hforms
      fun e he s => startsSignature_spellTypes glued s (List.mem_filter.1 he).2 style)
  · exact h.enclosed glued hforms hopens.head (not_mem_signature_of_opcode hop)

/-- **A spelled plain instruction** is read back, with its operands before
it or inside. -/
theorem readsAs_plain (hop : Opcode.ofName? n.instr = some op) (hs : op.shape.IsPlain)
    (hnone : n.signature = []) :
    ReadsAs (n.spell style glued texts firsts seconds) (n.respell style inside first second) := by
  have hname := Node.instr_of_plain hop hs
  have hother : n.instr ∉ ["block", "loop", "if"] := fun hmem => hname (by simp_all)
  have hforms := formAs_signature glued hopens style
  rw [Node.spell_other hother, Node.respell_other hother]
  dsimp only
  split
  · rw [hnone, List.flatMap_nil, List.append_nil]
    exact h.append (readsAs_flat_plain glued hopens.head (isFlat_of_opcode hop) hname)
  · exact h.enclosed glued hforms hopens.head (not_mem_signature_of_opcode hop)

end spell

/-- **A spelled instruction is read back**, in any style and before
whatever can follow it. -/
theorem readsAs_spell {e : Expr} (h : e.Spellable) (style : Style) (glued : Bool) :
    ReadsAs (e.spell style glued) (e.respell style) := by
  induction h with
  | block hop hs hc hopens _ ih =>
      rw [Expr.spell_node, Expr.respell_node]
      exact readsAs_block glued hopens (.flatMap ih) hop hs hc
  | @conditional n hop hopens _ _ hfirst _ ih iht ihe =>
      have hplain : ∀ e ∈ (n.branch "then").flatMap (Expr.respell style), e.isSignature = false := by
        intro c hc
        obtain ⟨e, he, hc⟩ := List.mem_flatMap.1 hc
        exact ((hfirst e he).isInstr_respell style c hc).isSignature_eq_false
      rw [Expr.spell_node, Expr.respell_node]
      exact readsAs_conditional glued hopens (.flatMap ih) hop (.flatMap iht) (.flatMap ihe) hplain
  | indirect hop hs _ hopens _ ih =>
      rw [Expr.spell_node, Expr.respell_node]
      exact readsAs_indirect glued hopens (.flatMap ih) hop hs
  | plain hop hs hnone hopens _ ih =>
      rw [Expr.spell_node, Expr.respell_node]
      exact readsAs_plain glued hopens (.flatMap ih) hop hs hnone

end Parser

end WasmText
