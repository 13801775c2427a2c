import WasmText.Tree
import WasmText.Proofs.Token.Layout
import WasmText.Proofs.Tree.StringLiteral
/-!
# Printing

A tree is printed in parentheses, each form as its name, its label, its
parameters and its children, with a space between any two texts. Whether a
keyword's value stands right after the equals sign is left open. A tree
whose names and numbers are tokens of their own is printed to these tokens
(`words_intercalate`, `Expr.Printable.settled_texts`). Whether a tree is
such can be decided.
-/

namespace WasmText

/-! ## The printer -/

/-- A byte as an escape of two hexadecimal digits. -/
def escaped (byte : UInt8) : List Char :=
  ['\\', Nat.digitChar (byte.toNat / 16), Nat.digitChar (byte.toNat % 16)]

/-- Bytes as a string in quotes. -/
def quoted (bytes : List UInt8) : String :=
  String.ofList ('"' :: (bytes.flatMap escaped ++ ['"']))

/-- A name with its sign. -/
def signed (name : String) : String := "$" ++ name

/-- The texts of an argument. A value is `glued` to its keyword, or stands
apart from it. -/
def Argument.texts (glued : Bool) : Argument → List String
  | number text => [text]
  | hex text => [text]
  | str bytes => [quoted bytes]
  | label name => [signed name]
  | keyword key none => [key.word]
  | keyword key (some value) =>
    if glued then [key.word ++ "=" ++ value] else [key.word ++ "=", value]

/-- The texts of a form before those of its children. -/
def Head.texts (glued : Bool) (head : Head) : List String :=
  head.instr :: ((head.name.map (signed ·.name)).toList ++
    head.params.flatMap (·.arg.texts glued))

/-- The texts of a tree. -/
def Expr.texts (glued : Bool) : Expr → List String
  | .ref name _ => [signed name]
  | .data bytes _ => [quoted bytes]
  | .node head children =>
    "(" :: (head.texts glued ++ (children.flatMap fun e => e.texts glued) ++ [")"])

/-- A module as a source, with spaces between its texts. -/
def Node.print (glued : Bool) (n : Node) : String :=
  " ".intercalate (n.toExpr.texts glued)

namespace Lexer

/-! ## Texts apart from one another -/

/-- Whether the words of a text stay what they are when a gap follows. -/
def Settled (text : String) : Prop :=
  ∀ rest, EndsWord rest → words (text.toList ++ rest) = words text.toList ++ words rest

/-- The words of several texts, each on its own. -/
def wordsOf (texts : List String) : List Token := texts.flatMap (words ·.toList)

@[simp] theorem wordsOf_nil : wordsOf [] = [] := rfl

@[simp] theorem wordsOf_cons (text : String) (texts : List String) :
    wordsOf (text :: texts) = words text.toList ++ wordsOf texts := rfl

@[simp] theorem wordsOf_singleton (text : String) : wordsOf [text] = words text.toList :=
  List.append_nil _

@[simp] theorem wordsOf_append (texts others : List String) :
    wordsOf (texts ++ others) = wordsOf texts ++ wordsOf others := List.flatMap_append

/-- **Texts with spaces between them have the words that each of them has
on its own.** -/
theorem words_intercalate {texts : List String} (h : ∀ text ∈ texts, Settled text) :
    words (" ".intercalate texts).toList = wordsOf texts := by
  rw [String.toList_intercalate]
  induction texts with
  | nil => exact words_nil
  | cons text texts ih =>
      have hrest := ih fun text ht => h text (List.mem_cons_of_mem _ ht)
      cases texts with
      | nil => simp [List.intercalate]
      | cons next texts =>
          have hsettled := h text List.mem_cons_self
          have hspace : EndsWord
              (" ".toList ++ " ".toList.intercalate ((next :: texts).map String.toList)) := by
            intro c hc
            obtain rfl : ' ' = c := by simpa using hc
            decide
          rw [List.map_cons, List.map_cons, List.intercalate_cons_cons, List.append_assoc,
            ← List.map_cons, hsettled _ hspace, wordsOf_cons, ← hrest]
          exact congrArg (_ ++ ·) (words_blank (by decide) _)

end Lexer

open Lexer

namespace Token

/-- A word is the one word of its text. -/
theorem IsWord.words_eq {kind : Kind} {text : String} (h : IsWord ⟨kind, text, .zero⟩) :
    words text.toList = [⟨kind, text, .zero⟩] := by
  have hend : EndsWord [] := nofun
  have halone := h.words_append hend
  rwa [List.append_nil, words_nil] at halone

/-- A word stays what it is when a gap follows. -/
theorem IsWord.settled {kind : Kind} {text : String} (h : IsWord ⟨kind, text, .zero⟩) :
    Settled text := by
  intro rest hrest
  rw [h.words_append hrest, h.words_eq]
  rfl

/-- Whether a text is one token, of the given class. -/
def LexesAs (kind : Kind) (text : String) : Prop := (scan text).map (·.kind) = [kind, .eof]

instance (kind : Kind) (text : String) : Decidable (LexesAs kind text) :=
  inferInstanceAs (Decidable (_ = _))

/-- A text that is scanned to one token is a word. -/
theorem LexesAs.isWord {kind : Kind} {text : String} (h : LexesAs kind text)
    (htrivia : kind.isTrivia = false) (hvalid : kind ≠ .invalid) : IsWord ⟨kind, text, .zero⟩ := by
  have htexts := texts_tokensFrom .start text.toList
  rw [LexesAs, scan, List.map_append] at h
  have hkinds : (tokensFrom .start text.toList).map (·.kind) = [kind] :=
    List.append_inj_left' h rfl
  obtain ⟨t, ht, rfl⟩ := List.map_eq_singleton_iff.1 hkinds
  have hword := isWord_of_mem (ht ▸ List.mem_singleton_self t) htrivia hvalid
  have htext : t.text = text := by
    rw [ht, List.flatMap_singleton] at htexts
    exact String.toList_inj.1 htexts
  exact htext ▸ hword

/-- A word that no keyword starts is one token. -/
theorem lexesAs_atom {c : Char} {cs : List Char} (hword : ∀ d ∈ c :: cs, isIdentifier d = true)
    (hsign : c ≠ '$') (hkey : keywordLength? (c :: cs) = none) :
    LexesAs (atomKind (c :: cs)) (String.ofList (c :: cs)) := by
  obtain ⟨hc, hcs⟩ := List.forall_mem_cons.1 hword
  have hrun : cs.takeWhile isIdentifier = cs := List.takeWhile_eq_self_iff.2 hcs
  have hmark : c ∉ marks := by
    rintro hmem
    simp only [marks, List.mem_cons, List.not_mem_nil, or_false] at hmem
    rcases hmem with rfl | rfl | rfl | rfl
    · cases hc
    · cases hc
    · cases hc
    · exact hsign rfl
  have hcut := Cut.atom hc hmark (by rwa [hrun])
  rw [hrun] at hcut
  rw [LexesAs, scan, String.toList_ofList, tokensFrom_cons, hcut.eq, List.drop_length, tokensFrom_nil]
  rfl

/-- A keyword that starts a word is all of it up to an equals sign. -/
theorem exists_keyword {atom : List Char} {n : Nat} (h : keywordLength? atom = some n) :
    ∃ key : Keyword, atom.takeWhile (· != '=') = key.word.toList := by
  obtain ⟨key, -, hfound⟩ := List.exists_of_findSome?_eq_some h
  have hplain : ∀ c ∈ key.word.toList, (c != '=') = true := by
    have hall : key.word.toList.all (· != '=') = true := by cases key <;> decide
    exact List.all_eq_true.1 hall
  refine ⟨key, ?_⟩
  dsimp only at hfound
  split at hfound
  next hword =>
    obtain rfl := eq_of_beq hword
    exact List.takeWhile_eq_self_iff.2 hplain
  next =>
    split at hfound
    next hstart =>
      obtain ⟨rest, rfl⟩ := List.isPrefixOf_iff_prefix.1 hstart
      rw [List.append_assoc, List.takeWhile_append_of_pos hplain]
      simp
    next => cases hfound

end Token

/-! ## The texts are words -/

/-- A name is a run of identifier characters. -/
def IsName (name : String) : Prop := name.toList ≠ [] ∧ ∀ c ∈ name.toList, isIdentifier c = true

/-- A number as trees hold it: one token, without digit separators. -/
def IsNumeral (kind : Token.Kind) (text : String) : Prop :=
  Token.LexesAs kind text ∧ '_' ∉ text.toList

instance (name : String) : Decidable (IsName name) :=
  decidable_of_iff (name.toList ≠ [] ∧ name.toList.all isIdentifier = true)
    (by rw [IsName, List.all_eq_true])

instance (kind : Token.Kind) (text : String) : Decidable (IsNumeral kind text) :=
  inferInstanceAs (Decidable (_ ∧ _))

/-- A name with its sign is one label. -/
theorem isWord_signed {name : String} (h : IsName name) :
    Token.IsWord ⟨.label, signed name, .zero⟩ := by
  obtain ⟨hne, hall⟩ := h
  have hrun : name.toList.takeWhile isIdentifier = name.toList := List.takeWhile_eq_self_iff.2 hall
  refine ⟨rfl, nofun, '$', name.toList, by simp [signed], ?_⟩
  have hcut := @Cut.label name.toList (by rwa [hrun])
  rwa [hrun] at hcut

/-- The word of a keyword is one token. -/
theorem isWord_keyword (key : Keyword) : Token.IsWord ⟨.reserved, key.word, .zero⟩ := by
  cases key
  all_goals exact ⟨rfl, nofun, _, _, rfl, cut_eq_iff.1 rfl⟩

/-- A keyword that announces a value is cut off at its equals sign,
whatever comes after. -/
theorem words_announced (key : Keyword) (rest : List Char) :
    words ((key.word ++ "=").toList ++ rest) =
      ⟨.reserved, key.word ++ "=", .zero⟩ :: words rest := by
  -- the word that the keyword starts goes on into what follows, and is cut at the equals sign
  have hlength : ∀ run : List Char, keywordLength? (key.word.toList ++ '=' :: run) =
      some (key.word.toList.length + 1) := by
    intro run
    cases key <;> rfl
  obtain ⟨c, cs, hword, hm, hall⟩ : ∃ c cs, (key.word ++ "=").toList = c :: cs ∧ c ∉ marks ∧
      (c :: cs).all isIdentifier = true := by
    cases key <;> exact ⟨_, _, rfl, by decide, by decide⟩
  have hall := List.all_eq_true.1 hall
  have hrun : (cs ++ rest).takeWhile isIdentifier = cs ++ rest.takeWhile isIdentifier :=
    List.takeWhile_append_of_pos fun d hd => hall d (List.mem_cons_of_mem c hd)
  have hatom : c :: (cs ++ rest.takeWhile isIdentifier) =
      key.word.toList ++ '=' :: rest.takeWhile isIdentifier := by
    rw [← List.cons_append, ← hword, String.toList_append, List.append_assoc]
    rfl
  have hlen : cs.length = key.word.toList.length := by
    have := congrArg List.length hword
    simpa using this.symm
  have hcut : Cut c (cs ++ rest) .reserved cs.length := by
    have := Cut.keyword (hall c List.mem_cons_self) hm
      (by rw [hrun, hatom]; exact hlength (rest.takeWhile isIdentifier))
    rwa [Nat.add_sub_cancel, ← hlen] at this
  rw [hword, List.cons_append, hcut.words_cons rfl, List.take_left, List.drop_left, ← hword,
    String.ofList_toList]

theorem settled_empty : Settled "" := by
  intro rest _
  change words rest = words [] ++ words rest
  rw [words_nil]
  rfl

/-- A keyword that announces a value can be written together with it. -/
theorem settled_announced (key : Keyword) {value : String} (h : Settled value) :
    Settled (key.word ++ "=" ++ value) := by
  intro rest hrest
  rw [String.toList_append, List.append_assoc, words_announced, words_announced, h rest hrest]
  rfl

def Token.opening : Token := ⟨.leftParen, "(", .zero⟩

def Token.closing : Token := ⟨.rightParen, ")", .zero⟩

theorem isWord_opening : Token.opening.IsWord := ⟨rfl, nofun, '(', [], rfl, .leftParen nofun⟩

theorem isWord_closing : Token.closing.IsWord := ⟨rfl, nofun, ')', [], rfl, .rightParen⟩

/-- The two digits of an escaped byte are digits of a hexadecimal number.
-/
theorem isDigit_digitChar {n : Nat} (h : n < 16) : IsDigit 16 (Nat.digitChar n) n := by
  have hall : ∀ n < 16, digit? 16 (Nat.digitChar n) = some n := by decide
  exact isDigit_of_digit? (hall n h)

/-- Escaped bytes are pieces of a string that denote them. -/
theorem exists_pieces_escaped (bytes : List UInt8) :
    ∃ pieces, StringLiteral.written pieces = bytes.flatMap escaped ∧
      StringLiteral.denoted pieces = bytes := by
  induction bytes with
  | nil => exact ⟨[], rfl, rfl⟩
  | cons byte bytes ih =>
      obtain ⟨pieces, hwritten, hdenoted⟩ := ih
      have hhigh : byte.toNat / 16 < 16 := by
        have := byte.toNat_lt
        omega
      have hlow : byte.toNat % 16 < 16 := Nat.mod_lt _ (by decide)
      have hbyte : UInt8.ofNat (16 * (byte.toNat / 16) + byte.toNat % 16) = byte := by
        rw [Nat.div_add_mod]
        exact UInt8.ofNat_toNat
      refine ⟨.byte _ _ _ _ (isDigit_digitChar hhigh) (isDigit_digitChar hlow) :: pieces, ?_, ?_⟩
      · exact congrArg (escaped byte ++ ·) hwritten
      · exact congrArg₂ List.cons hbyte hdenoted

/-- A quoted string is one token, since no byte in it is a quote. -/
theorem isWord_quoted (bytes : List UInt8) : Token.IsWord ⟨.string, quoted bytes, .zero⟩ := by
  refine ⟨rfl, nofun, '"', bytes.flatMap escaped ++ ['"'], rfl, ?_⟩
  obtain ⟨pieces, hwritten, -⟩ := exists_pieces_escaped bytes
  have hcut := Cut.string (StringLiteral.stringEnd?_pieces pieces [])
  simpa [hwritten] using hcut

/-- **The bytes of a quoted string are read back.** -/
theorem ofToken_quoted (bytes : List UInt8) :
    StringLiteral.ofToken ⟨.string, quoted bytes, .zero⟩ = .ok bytes := by
  obtain ⟨pieces, hwritten, hdenoted⟩ := exists_pieces_escaped bytes
  have hvalue : (Token.value ⟨.string, quoted bytes, .zero⟩).toList = bytes.flatMap escaped :=
    StringLiteral.value_of_text rfl String.toList_ofList
  refine StringLiteral.ofToken_of_ok ?_
  rw [hvalue, ← hwritten, StringLiteral.decode_pieces, hdenoted]

/-! ## What can be printed -/

namespace Argument

/-- Whether an argument can be written: names are names, and numbers are
tokens. -/
def Writable : Argument → Prop
  | number text => IsNumeral .number text ∨ IsNumeral .hex text
  | hex text => IsNumeral .number text ∨ IsNumeral .hex text
  | str _ => True
  | label name => IsName name
  | keyword _ none => True
  | keyword _ (some value) => IsNumeral .number value ∨ IsNumeral .hex value

/-- Whether an argument can be written and is what it is written as: its
number is a token of the class it is kept in. -/
def WellFormed : Argument → Prop
  | number text => IsNumeral .number text
  | hex text => IsNumeral .hex text
  | arg => arg.Writable

/-- What is kept in the class of its text can be written. -/
theorem WellFormed.writable {a : Argument} (h : a.WellFormed) : a.Writable := by
  cases a with
  | number text => exact .inl h
  | hex text => exact .inr h
  | str bytes => exact h
  | label name => exact h
  | keyword key value => exact h

theorem isWord_of_isNumeral {text : String} (h : IsNumeral .number text ∨ IsNumeral .hex text) :
    ∃ kind, Token.IsWord ⟨kind, text, .zero⟩ := by
  rcases h with h | h
  · exact ⟨.number, h.1.isWord rfl nofun⟩
  · exact ⟨.hex, h.1.isWord rfl nofun⟩

/-- **Every text of an argument is settled**, also where a keyword and its
value are written together. -/
theorem Writable.settled_texts {a : Argument} (h : a.Writable) (glued : Bool) :
    ∀ text ∈ a.texts glued, Settled text := by
  have hone : ∀ {text t : String}, Settled t → text ∈ [t] → Settled text :=
    fun ht hmem => List.mem_singleton.1 hmem ▸ ht
  intro text hmem
  match a, h with
  | .number _, h =>
      obtain ⟨_, hword⟩ := isWord_of_isNumeral h
      exact hone hword.settled hmem
  | .hex _, h =>
      obtain ⟨_, hword⟩ := isWord_of_isNumeral h
      exact hone hword.settled hmem
  | .str bytes, _ => exact hone (isWord_quoted bytes).settled hmem
  | .label _, h => exact hone (isWord_signed h).settled hmem
  | .keyword key none, _ => exact hone (isWord_keyword key).settled hmem
  | .keyword key (some value), h =>
      obtain ⟨_, hword⟩ := isWord_of_isNumeral h
      cases glued with
      | true => exact hone (settled_announced key hword.settled) hmem
      | false =>
          rcases List.mem_cons.1 hmem with rfl | hmem
          · have hbare := settled_announced key settled_empty
            rwa [String.append_empty] at hbare
          · exact hone hword.settled hmem

end Argument

/-- Whether a form can be written, with arguments that satisfy `ok`. A
label after the name of a form is always its own. -/
structure Head.Printable (ok : Argument → Prop) (head : Head) : Prop where
  instr : (Token.LexesAs .instr head.instr ∧ head.instr.toList.getLast? ≠ some '=') ∨
    ∃ key : Keyword, head.instr = key.word
  name : ∀ label ∈ head.name, IsName label.name
  params : ∀ p ∈ head.params, ok p.arg
  first : head.name = none → ∀ p ∈ head.params.head?, ∀ name, p.arg ≠ .label name

namespace Expr

def isString : Expr → Bool
  | .data _ _ => true
  | _ => false

/-- Whether a tree can be written, with arguments that satisfy `ok`. A name
or a string before the first child would be a parameter, and strings next
to one another would be one. -/
inductive Printable (ok : Argument → Prop) : Expr → Prop where
  | ref {name : String} {span : Span} (hname : IsName name) : Printable ok (.ref name span)
  | data {bytes : List UInt8} {span : Span} : Printable ok (.data bytes span)
  | node {head : Head} {children : List Expr} (hhead : head.Printable ok)
    (hfirst : ∀ e ∈ children.head?, e.node?.isSome = true)
    (hapart : children.IsChain fun e f => ¬ (e.isString = true ∧ f.isString = true))
    (hchildren : ∀ e ∈ children, Printable ok e) : Printable ok (.node head children)

end Expr

/-- The word of a form is one token. -/
theorem Head.Printable.isWord {ok : Argument → Prop} {head : Head} (h : head.Printable ok) :
    ∃ kind, Token.IsWord ⟨kind, head.instr, .zero⟩ := by
  rcases h.instr with ⟨hinstr, -⟩ | ⟨key, hkey⟩
  · exact ⟨.instr, hinstr.isWord rfl nofun⟩
  · exact ⟨.reserved, hkey ▸ isWord_keyword key⟩

/-- **Every text of a head is settled.** -/
theorem Head.Printable.settled_texts {head : Head} (h : head.Printable Argument.Writable) (glued : Bool) :
    ∀ text ∈ head.texts glued, Settled text := by
  intro text hmem
  rw [Head.texts, List.mem_cons, List.mem_append, List.mem_flatMap] at hmem
  rcases hmem with rfl | hname | ⟨p, hp, htext⟩
  · obtain ⟨_, hword⟩ := h.isWord
    exact hword.settled
  · obtain ⟨label, hlabel, rfl⟩ : ∃ label ∈ head.name, signed label.name = text := by
      simpa using hname
    exact (isWord_signed (h.name label hlabel)).settled
  · exact (h.params p hp).settled_texts glued text htext

/-- **Every text of a tree is settled.** -/
theorem Expr.Printable.settled_texts {e : Expr} (h : e.Printable Argument.Writable) (glued : Bool) :
    ∀ text ∈ e.texts glued, Settled text := by
  induction h with
  | @ref name span hname =>
      intro text hmem
      rw [Expr.texts, List.mem_singleton] at hmem
      exact hmem ▸ (isWord_signed hname).settled
  | @data bytes span =>
      intro text hmem
      rw [Expr.texts, List.mem_singleton] at hmem
      exact hmem ▸ (isWord_quoted bytes).settled
  | @node head children hhead _ _ _ ih =>
      intro text hmem
      rw [Expr.texts, List.mem_cons, List.mem_append, List.mem_append, List.mem_flatMap,
        List.mem_singleton] at hmem
      rcases hmem with rfl | (hmem | ⟨e, he, hmem⟩) | rfl
      · exact isWord_opening.settled
      · exact hhead.settled_texts glued text hmem
      · exact ih e he text hmem
      · exact isWord_closing.settled

/-! ## Deciding what can be printed -/

instance (a : Argument) : Decidable a.Writable :=
  match a with
  | .number _ => inferInstanceAs (Decidable (_ ∨ _))
  | .hex _ => inferInstanceAs (Decidable (_ ∨ _))
  | .str _ => inferInstanceAs (Decidable True)
  | .label name => inferInstanceAs (Decidable (IsName name))
  | .keyword _ none => inferInstanceAs (Decidable True)
  | .keyword _ (some _) => inferInstanceAs (Decidable (_ ∨ _))

instance (a : Argument) : Decidable a.WellFormed :=
  match a with
  | .number text => inferInstanceAs (Decidable (IsNumeral .number text))
  | .hex text => inferInstanceAs (Decidable (IsNumeral .hex text))
  | .str bytes => inferInstanceAs (Decidable (Argument.str bytes).Writable)
  | .label name => inferInstanceAs (Decidable (Argument.label name).Writable)
  | .keyword key value => inferInstanceAs (Decidable (Argument.keyword key value).Writable)

namespace Argument

def isLabel : Argument → Bool
  | .label _ => true
  | _ => false

theorem isLabel_eq_false {a : Argument} : a.isLabel = false ↔ ∀ name, a ≠ .label name := by
  cases a <;> simp [isLabel]

end Argument

/-- A word is reserved if some keyword has it. -/
theorem Keyword.mem_words {text : String} :
    text ∈ Keyword.all.map Keyword.word ↔ ∃ key : Keyword, text = key.word := by
  rw [List.mem_map]
  constructor
  · rintro ⟨key, -, hkey⟩
    exact ⟨key, hkey.symm⟩
  · rintro ⟨key, hkey⟩
    exact ⟨key, by cases key <;> decide, hkey.symm⟩

section Decide

variable {ok : Argument → Prop} [DecidablePred ok]

instance (head : Head) : Decidable (head.Printable ok) :=
  decidable_of_iff
    (((Token.LexesAs .instr head.instr ∧ head.instr.toList.getLast? ≠ some '=') ∨
        head.instr ∈ Keyword.all.map Keyword.word) ∧
      (∀ label ∈ head.name, IsName label.name) ∧ (∀ p ∈ head.params, ok p.arg) ∧
      (head.name = none → ∀ p ∈ head.params.head?, p.arg.isLabel = false))
    (by
      simp only [Keyword.mem_words, Argument.isLabel_eq_false]
      exact ⟨fun ⟨hinstr, hname, hparams, hfirst⟩ => ⟨hinstr, hname, hparams, hfirst⟩,
        fun h => ⟨h.instr, h.name, h.params, h.first⟩⟩)

namespace Expr

mutual

/-- Decides `Printable`. -/
def printable? (ok : Argument → Prop) [DecidablePred ok] : Expr → Bool
  | .ref name _ => decide (IsName name)
  | .data _ _ => true
  | .node head children =>
    decide (head.Printable ok ∧ (∀ e ∈ children.head?, e.node?.isSome = true) ∧
      children.IsChain fun e f => (e.isString && f.isString) = false) &&
    printableAll? ok children

def printableAll? (ok : Argument → Prop) [DecidablePred ok] : List Expr → Bool
  | [] => true
  | e :: es => printable? ok e && printableAll? ok es

end

theorem printableAll?_iff {es : List Expr} :
    printableAll? ok es = true ↔ ∀ e ∈ es, e.printable? ok = true := by
  induction es with
  | nil => simp [printableAll?]
  | cons e es ih => simp [printableAll?, ih]

/-- The test goes through a tree as the rules do. -/
theorem printable?_iff {e : Expr} : e.printable? ok = true ↔ e.Printable ok := by
  match e with
  | .ref name span =>
      rw [printable?, decide_eq_true_iff]
      exact ⟨.ref, fun | .ref hname => hname⟩
  | .data bytes span => exact ⟨fun _ => .data, fun _ => rfl⟩
  | .node head children =>
      have ih : (∀ e ∈ children, e.printable? ok = true) ↔ ∀ e ∈ children, e.Printable ok :=
        forall₂_congr fun e he => by
          have := List.sizeOf_lt_of_mem he
          exact printable?_iff
      have hapart : ∀ e f : Expr, (e.isString && f.isString) = false ↔
          ¬ (e.isString = true ∧ f.isString = true) := by
        intro e f
        rw [← Bool.and_eq_true, Bool.not_eq_true]
      rw [printable?, Bool.and_eq_true, decide_eq_true_iff, printableAll?_iff, ih]
      simp only [hapart]
      constructor
      · rintro ⟨⟨hhead, hfirst, hapart⟩, hchildren⟩
        exact .node hhead hfirst hapart hchildren
      · rintro (_ | _ | ⟨hhead, hfirst, hapart, hchildren⟩)
        exact ⟨⟨hhead, hfirst, hapart⟩, hchildren⟩
termination_by sizeOf e

instance (e : Expr) : Decidable (e.Printable ok) := decidable_of_iff _ printable?_iff

end Expr

end Decide

end WasmText
