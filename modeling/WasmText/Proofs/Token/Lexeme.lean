import WasmText.Token.Lexer
/-!
# Lexemes

What the cut at one character can be, said once. `Cut c cs kind n` lists
the rules with the conditions under which each applies: the lexeme that
starts with `c` is of class `kind` and takes `n` of the characters `cs`
after it. `cut_eq_iff` says that the lexer cuts by these rules and no
others, so that later facts go through the rules and not through the
lexer's order of trying them.
-/

namespace WasmText

/-! ## Characters -/

theorem isIdentifier_range {c : Char} (h : isIdentifier c = true) :
    0x21 ≤ c.toNat ∧ c.toNat ≤ 0x7E := by
  rw [isIdentifier, Bool.or_eq_true] at h
  rcases h with h | h
  · delta Char.isAlphanum Char.isAlpha Char.isUpper Char.isLower Char.isDigit at h
    simp only [Bool.or_eq_true, Bool.and_eq_true, decide_eq_true_eq, UInt32.le_iff_toNat_le] at h
    change (((65 ≤ c.toNat ∧ c.toNat ≤ 90) ∨ (97 ≤ c.toNat ∧ c.toNat ≤ 122)) ∨
      (48 ≤ c.toNat ∧ c.toNat ≤ 57)) at h
    omega
  · have hall : identifierMarks.all (fun d => 0x21 ≤ d.toNat ∧ d.toNat ≤ 0x7E) = true := by decide
    simpa using List.all_eq_true.1 hall c (List.contains_iff_mem.1 h)

theorem isBlank_range {c : Char} (h : isBlank c = true) : c.toNat ≤ 0x20 ∨ 0x85 ≤ c.toNat := by
  simp only [isBlank, blankRanges, List.any_cons, List.any_nil, Bool.or_eq_true, Bool.and_eq_true,
    decide_eq_true_eq, Bool.or_false] at h
  omega

/-- No character is both part of words and between them. -/
theorem isIdentifier_of_isBlank {c : Char} (h : isBlank c = true) : isIdentifier c = false := by
  cases hid : isIdentifier c with
  | false => rfl
  | true =>
      have hblank := isBlank_range h
      have hword := isIdentifier_range hid
      omega

theorem isBlank_of_isIdentifier {c : Char} (h : isIdentifier c = true) : isBlank c = false := by
  cases hblank : isBlank c with
  | false => rfl
  | true =>
      rw [isIdentifier_of_isBlank hblank] at h
      cases h

namespace Lexer

/-! ## The rules -/

/-- The characters that rules of their own begin with. -/
def marks : List Char := ['(', ')', '"', '$']

/-- The rules by which a lexeme is cut off. -/
inductive Cut : Char → List Char → Token.Kind → Nat → Prop where
  | whitespace {c : Char} {cs : List Char} (h : isBlank c = true) :
    Cut c cs .whitespace (cs.takeWhile isBlank).length
  | line {cs : List Char} : Cut ';' (';' :: cs) .comment ((';' :: cs).takeWhile (· != '\n')).length
  | block {inner : List Char} {n : Nat} (h : commentEnd? 0 inner = some n) :
    Cut '(' (';' :: inner) .comment (n + 1)
  | unclosedBlock {inner : List Char} (h : commentEnd? 0 inner = none) :
    Cut '(' (';' :: inner) .invalid (inner.length + 1)
  | leftParen {cs : List Char} (h : cs.head? ≠ some ';') : Cut '(' cs .leftParen 0
  | rightParen {cs : List Char} : Cut ')' cs .rightParen 0
  | string {cs : List Char} {n : Nat} (h : stringEnd? cs = some n) : Cut '"' cs .string n
  | unclosedString {cs : List Char} (h : stringEnd? cs = none) : Cut '"' cs .invalid cs.length
  | bareSign {cs : List Char} (h : cs.takeWhile isIdentifier = []) : Cut '$' cs .invalid 0
  | label {cs : List Char} (h : cs.takeWhile isIdentifier ≠ []) :
    Cut '$' cs .label (cs.takeWhile isIdentifier).length
  | keyword {c : Char} {cs : List Char} {n : Nat} (hc : isIdentifier c = true) (hm : c ∉ marks)
    (h : keywordLength? (c :: cs.takeWhile isIdentifier) = some n) : Cut c cs .reserved (n - 1)
  | atom {c : Char} {cs : List Char} (hc : isIdentifier c = true) (hm : c ∉ marks)
    (h : keywordLength? (c :: cs.takeWhile isIdentifier) = none) :
    Cut c cs (atomKind (c :: cs.takeWhile isIdentifier)) (cs.takeWhile isIdentifier).length
  | other {c : Char} {cs : List Char} (hb : isBlank c = false) (hm : c ∉ marks)
    (hc : isIdentifier c = false) (hline : c = ';' → cs.head? ≠ some ';') :
    Cut c cs .invalid 0

/-- The lexer cuts by the rules. -/
theorem cut_spec (c : Char) (cs : List Char) : Cut c cs (cut c cs).1 (cut c cs).2 := by
  unfold cut
  split
  · exact .whitespace ‹_›
  · next hblank =>
    have hblank := Bool.not_eq_true _ ▸ hblank
    split
    · exact .line
    · split
      · exact .block ‹_›
      · exact .unclosedBlock ‹_›
    · next hopen =>
      refine .leftParen fun hhead => ?_
      cases cs with
      | nil => cases hhead
      | cons d ds => exact hopen ds (by rw [Option.some.inj hhead])
    · exact .rightParen
    · split
      · exact .string ‹_›
      · exact .unclosedString ‹_›
    · dsimp only
      split
      · exact .bareSign (List.isEmpty_iff.1 ‹_›)
      · next hname => exact .label fun h => hname (List.isEmpty_iff.2 h)
    · next hleft hright hquote hsign hline _ =>
      have hm : c ∉ marks := by
        simp only [marks, List.mem_cons, List.not_mem_nil, or_false, not_or]
        exact ⟨hleft, hright, hquote, hsign⟩
      split
      · next hid =>
        dsimp only
        split
        · exact .keyword hid hm ‹_›
        · exact .atom hid hm ‹_›
      · next hid =>
        refine .other hblank hm (Bool.not_eq_true _ ▸ hid) fun hc hhead => ?_
        cases cs with
        | nil => cases hhead
        | cons d ds => exact hline ds hc (by rw [Option.some.inj hhead])

/-- A character that no other rule begins with is taken with the word it
starts, or alone. -/
theorem cut_of_not_mem_marks {c : Char} {cs : List Char} (hb : isBlank c = false) (hm : c ∉ marks)
    (hline : c = ';' → cs.head? ≠ some ';') :
    cut c cs =
      if isIdentifier c then
        match keywordLength? (c :: cs.takeWhile isIdentifier) with
        | some n => (.reserved, n - 1)
        | none => (atomKind (c :: cs.takeWhile isIdentifier), (cs.takeWhile isIdentifier).length)
      else (.invalid, 0) := by
  unfold cut
  rw [if_neg (Bool.not_eq_true _ ▸ hb)]
  split
  · exact absurd rfl (hline rfl)
  · simp [marks] at hm
  · simp [marks] at hm
  · simp [marks] at hm
  · simp [marks] at hm
  · simp [marks] at hm
  · rfl

/-- The rules exclude one another: what they allow is what the lexer
does. -/
theorem Cut.eq {c : Char} {cs : List Char} {kind : Token.Kind} {n : Nat} (h : Cut c cs kind n) :
    cut c cs = (kind, n) := by
  -- a semicolon starts no word, so no word is taken for a comment
  have hsemi : ∀ {c : Char}, isIdentifier c = true → c = ';' → cs.head? ≠ some ';' := by
    rintro c hc rfl
    cases hc
  cases h with
  | whitespace h => simp [cut, h]
  | line => rfl
  | block h => simp [cut, h, show isBlank '(' = false from rfl]
  | unclosedBlock h => simp [cut, h, show isBlank '(' = false from rfl]
  | leftParen h =>
      cases cs with
      | nil => rfl
      | cons d ds =>
          have hd : d ≠ ';' := fun hd => h (by rw [hd]; rfl)
          simp [cut, hd, show isBlank '(' = false from rfl]
  | rightParen => rfl
  | string h => simp [cut, h, show isBlank '"' = false from rfl]
  | unclosedString h => simp [cut, h, show isBlank '"' = false from rfl]
  | bareSign h => simp [cut, h, show isBlank '$' = false from rfl]
  | label h => simp [cut, h, show isBlank '$' = false from rfl]
  | keyword hc hm h =>
      rw [cut_of_not_mem_marks (isBlank_of_isIdentifier hc) hm (hsemi hc), if_pos hc, h]
  | atom hc hm h =>
      rw [cut_of_not_mem_marks (isBlank_of_isIdentifier hc) hm (hsemi hc), if_pos hc, h]
  | other hb hm hc hline =>
      rw [cut_of_not_mem_marks hb hm hline, if_neg (Bool.not_eq_true _ ▸ hc)]

theorem cut_eq_iff {c : Char} {cs : List Char} {kind : Token.Kind} {n : Nat} :
    cut c cs = (kind, n) ↔ Cut c cs kind n := by
  refine ⟨fun h => ?_, Cut.eq⟩
  have hspec := cut_spec c cs
  rwa [h] at hspec

/-! ## Their texts -/

/-- A string ends at its closing quote, whatever comes after. -/
theorem exists_of_stringEnd? {cs : List Char} {n : Nat} (h : stringEnd? cs = some n) :
    ∃ body rest, cs = body ++ '"' :: rest ∧ n = body.length + 1 ∧
      ∀ rest', stringEnd? (body ++ '"' :: rest') = some n := by
  fun_induction stringEnd? cs generalizing n with
  | case1 => cases h
  | case2 cs =>
      obtain rfl := Option.some.inj h
      exact ⟨[], cs, rfl, rfl, fun _ => rfl⟩
  | case3 c cs ih =>
      obtain ⟨m, hm, rfl⟩ := Option.map_eq_some_iff.1 h
      obtain ⟨body, rest, rfl, rfl, hend⟩ := ih hm
      refine ⟨'\\' :: c :: body, rest, rfl, rfl, fun rest' => ?_⟩
      simp [stringEnd?, hend]
  | case4 c cs hquote hescape ih =>
      obtain ⟨m, hm, rfl⟩ := Option.map_eq_some_iff.1 h
      obtain ⟨body, rest, rfl, rfl, hend⟩ := ih hm
      refine ⟨c :: body, rest, rfl, rfl, fun rest' => ?_⟩
      rw [List.cons_append, stringEnd?, hend]
      · rfl
      · exact hquote
      · -- a backslash would have had the closing quote to escape, if nothing else
        intro d ds hc hd
        obtain ⟨e, es, hes⟩ : ∃ e es, body ++ '"' :: rest = e :: es := by
          cases body with
          | nil => exact ⟨_, _, rfl⟩
          | cons e es => exact ⟨_, _, rfl⟩
        exact hescape e es hc hes

/-- A keyword is at the front of the word it is found in, and is found
again when nothing comes after it. -/
theorem keywordLength?_take {atom : List Char} {n : Nat} (h : keywordLength? atom = some n) :
    0 < n ∧ n ≤ atom.length ∧ keywordLength? (atom.take n) = some n := by
  obtain ⟨key, hkey, hfound⟩ := List.exists_of_findSome?_eq_some h
  -- no keyword starts with another
  have hself : ∀ key : Keyword, 0 < key.word.toList.length ∧
      keywordLength? key.word.toList = some key.word.toList.length ∧
      keywordLength? (key.word.toList ++ ['=']) = some (key.word.toList.length + 1) := by
    intro key
    cases key <;> decide
  obtain ⟨hpos, halone, hvalue⟩ := hself key
  dsimp only at hfound
  split at hfound
  · next hword =>
    obtain rfl := Option.some.inj hfound
    obtain rfl := eq_of_beq hword
    exact ⟨hpos, Nat.le_refl _, by rw [List.take_length]; exact halone⟩
  · split at hfound
    · next hprefix =>
      obtain rfl := Option.some.inj hfound
      obtain ⟨rest, rfl⟩ := List.isPrefixOf_iff_prefix.1 hprefix
      refine ⟨by omega, by simp, ?_⟩
      rw [List.take_left' (by simp)]
      exact hvalue
    · cases hfound

/-! ## Tokens -/

/-- The first lexeme of a text. -/
def lexeme (c : Char) (cs : List Char) : List Char := c :: cs.take (cut c cs).2

theorem lexeme_append_drop (c : Char) (cs : List Char) :
    lexeme c cs ++ cs.drop (cut c cs).2 = c :: cs := by
  rw [lexeme, List.cons_append, List.take_append_drop]

theorem tokensFrom_nil (p : Position) : tokensFrom p [] = [] := by rw [tokensFrom]

theorem tokensFrom_cons (p : Position) (c : Char) (cs : List Char) :
    tokensFrom p (c :: cs) =
      ⟨(cut c cs).1, String.ofList (lexeme c cs), Span.between p (p.after (lexeme c cs))⟩ ::
        tokensFrom (p.after (lexeme c cs)) (cs.drop (cut c cs).2) := by
  rw [tokensFrom]
  rfl

/-- **Induction over lexemes**, from the last of a text to the first. -/
theorem lexeme_induction {P : List Char → Prop} (nil : P [])
    (cons : ∀ c cs, P (cs.drop (cut c cs).2) → P (c :: cs)) (text : List Char) : P text := by
  induction hlen : text.length using Nat.strongRecOn generalizing text with
  | _ length ih =>
      subst hlen
      cases text with
      | nil => exact nil
      | cons c cs =>
          refine cons c cs (ih _ ?_ _ rfl)
          simp only [List.length_drop, List.length_cons]
          omega

end Lexer

end WasmText
