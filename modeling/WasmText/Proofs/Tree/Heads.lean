import WasmText.Proofs.Wrapping
/-!
# The tokens of heads

A form is named by one token: the one at which it starts, or the one after
the parenthesis there. Every head in a parsed tree is named that way, up to
the `then` that a flat `if` is given, and each of its parameters is spelled
by tokens that stand together in the source (`Grammar.Trees.accounts`).
Tokens start at different places, so the place of a form finds the token
that names it (`Head.token?_of_parse`).
-/

namespace WasmText

mutual

/-- The heads of the forms in a tree, each before those inside it. -/
def Expr.heads : Expr → List Head
  | .ref _ _ => []
  | .data _ _ => []
  | .node head children => head :: headsAll children

/-- The heads of the forms in trees side by side. -/
def Expr.headsAll : List Expr → List Head
  | [] => []
  | e :: es => e.heads ++ headsAll es

end

namespace Expr

theorem heads_ref (name : String) (span : Span) : (Expr.ref name span).heads = [] := by
  rw [heads]

theorem heads_data (bytes : List UInt8) (span : Span) : (Expr.data bytes span).heads = [] := by
  rw [heads]

theorem heads_node (head : Head) (children : List Expr) :
    (Expr.node head children).heads = head :: headsAll children := by
  rw [heads]

/-- The heads of trees side by side are those of each. -/
theorem headsAll_eq (es : List Expr) : headsAll es = es.flatMap heads := by
  induction es with
  | nil => rw [headsAll, List.flatMap_nil]
  | cons e es ih => rw [headsAll, ih, List.flatMap_cons]

theorem headsAll_append (es es' : List Expr) :
    headsAll (es ++ es') = headsAll es ++ headsAll es' := by
  simp only [headsAll_eq, List.flatMap_append]

/-- A tree has no heads that its siblings and itself do not have. -/
theorem heads_subset {e : Expr} {es : List Expr} (h : e ∈ es) : e.heads ⊆ headsAll es :=
  fun _ hhead => headsAll_eq es ▸ List.mem_flatMap.2 ⟨e, h, hhead⟩

theorem headsAll_subset {es es' : List Expr} (h : es ⊆ es') : headsAll es ⊆ headsAll es' := by
  intro head hhead
  rw [headsAll_eq] at hhead
  obtain ⟨e, he, hin⟩ := List.mem_flatMap.1 hhead
  exact heads_subset (h he) hin

end Expr

/-! ## Looking for the token -/

namespace Token

/-- The token that names the form at a place: the one there, or the one
after it if a parenthesis is there. -/
def naming? (start : Nat) : List Token → Option Token
  | [] => none
  | t :: ts =>
    if t.span.start = start then if t.kind = .leftParen then ts.head? else some t
    else naming? start ts

/-- That tokens start one after another. -/
def Ascending (ts : List Token) : Prop := ts.Pairwise fun t u => t.span.start < u.span.start

/-- Where tokens start one after another, a place belongs to one of them.
-/
theorem naming?_append {before after : List Token} {t : Token}
    (h : Ascending (before ++ t :: after)) :
    naming? t.span.start (before ++ t :: after) =
      if t.kind = .leftParen then after.head? else some t := by
  induction before with
  | nil => rw [List.nil_append, naming?, if_pos rfl]
  | cons u before ih =>
      obtain ⟨hfirst, hrest⟩ := List.pairwise_cons.1 h
      have hne : u.span.start ≠ t.span.start := Nat.ne_of_lt (hfirst t (by simp))
      rw [List.cons_append, naming?, if_neg hne]
      exact ih hrest

end Token

namespace Lexer

/-- The tokens of a text start one after another, from where the text
starts. -/
theorem ascending_tokensFrom (before text : List Char) :
    Token.Ascending (tokensFrom (.reached before) text) ∧
      ∀ t ∈ tokensFrom (.reached before) text, (Position.reached before).offset ≤ t.span.start := by
  induction text using lexeme_induction generalizing before with
  | nil =>
      rw [tokensFrom_nil]
      exact ⟨.nil, List.forall_mem_nil _⟩
  | cons c cs ih =>
      rw [tokensFrom_cons, Position.after_reached]
      obtain ⟨hrest, hfrom⟩ := ih (before ++ lexeme c cs)
      have hlt : (Position.reached before).offset <
          (Position.reached (before ++ lexeme c cs)).offset := by
        have hpos : 0 < (String.ofList (lexeme c cs)).utf8ByteSize := by
          rw [Nat.pos_iff_ne_zero, Ne, String.utf8ByteSize_eq_zero_iff, ← String.toList_inj]
          simp [lexeme]
        simpa [Position.reached, String.ofList_append] using hpos
      refine ⟨List.pairwise_cons.2 ⟨fun t ht => Nat.lt_of_lt_of_le hlt (hfrom t ht), hrest⟩, ?_⟩
      rintro t ht
      rcases List.mem_cons.1 ht with rfl | ht
      · exact Nat.le_refl _
      · exact Nat.le_trans (Nat.le_of_lt hlt) (hfrom t ht)

end Lexer

/-- The significant tokens of a source start one after another. -/
theorem Token.ascending_significant (source : String) :
    Ascending ((scan source).filter isSignificant) := by
  rw [Lexer.filter_isSignificant_scan]
  exact (Lexer.ascending_tokensFrom [] source.toList).1.filter _

/-- The token that names a form with the given head in a source. -/
def Head.token? (source : String) (head : Head) : Option Token :=
  Token.naming? head.span.start ((Token.scan source).filter Token.isSignificant)

/-! ## Accounting for heads -/

namespace Grammar

open WasmText.Parser (trimEquals)

/-- That a token among others names a form: it stands where the form
starts, or after the parenthesis there. -/
inductive Naming (ts : List Token) (head : Head) (t : Token) : Prop where
  | enclosed {left : Token} (hin : [left, t] <:+: ts) (hleft : left.kind = .leftParen)
      (hstart : left.span.start = head.span.start)
  | flat (hin : [t] <:+: ts) (hkind : t.kind = .instr) (hstart : t.span.start = head.span.start)

/-- That tokens account for a head: one of them names its form, unless it
is a `then` that is not written, and its parameters are spelled. -/
structure Accounts (ts : List Token) (head : Head) : Prop where
  name : head.instr ≠ "then" → ∃ t, Naming ts head t ∧
    (t.kind = .reserved ∨ t.kind = .instr) ∧ head.instr = trimEquals t.value
  params : ∀ p ∈ head.params, ∃ own, own <:+: ts ∧ Parameter p own

variable {ts ts' : List Token} {head : Head}

/-- A token that names a form in some tokens names it in more. -/
theorem Naming.mono {t : Token} (h : Naming ts head t) (hin : ts <:+: ts') : Naming ts' head t := by
  cases h with
  | enclosed hown hleft hstart => exact .enclosed (hown.trans hin) hleft hstart
  | flat hown hkind hstart => exact .flat (hown.trans hin) hkind hstart

/-- So do tokens that account for a head. -/
theorem Accounts.mono (h : Accounts ts head) (hin : ts <:+: ts') : Accounts ts' head where
  name hthen :=
    have ⟨t, hname, hrest⟩ := h.name hthen
    ⟨t, hname.mono hin, hrest⟩
  params p hp :=
    have ⟨own, hown, hparam⟩ := h.params p hp
    ⟨own, hown.trans hin, hparam⟩

/-- A head is accounted for also when it reaches further. -/
theorem Accounts.reach (h : Accounts ts head) {span : Span} (hspan : span.start = head.span.start) :
    Accounts ts { head with span } where
  name hthen := by
    obtain ⟨t, hname, hrest⟩ := h.name hthen
    refine ⟨t, ?_, hrest⟩
    cases hname with
    | enclosed hown hleft hstart => exact .enclosed hown hleft (hstart.trans hspan.symm)
    | flat hown hkind hstart => exact .flat hown hkind (hstart.trans hspan.symm)
  params := h.params

/-- Each argument has tokens of its own. -/
theorem Parameters.exists_own {ps : List Param} (h : Parameters ps ts) :
    ∀ p ∈ ps, ∃ own, own <:+: ts ∧ Parameter p own := by
  induction h with
  | nil => exact List.forall_mem_nil _
  | @cons p ps first rest hfirst _ ih =>
      intro q hq
      rcases List.mem_cons.1 hq with rfl | hq
      · exact ⟨first, (List.prefix_append _ _).isInfix, hfirst⟩
      · obtain ⟨own, hown, hparam⟩ := ih q hq
        exact ⟨own, hown.trans (List.suffix_append _ _).isInfix, hparam⟩

/-- A flat head is named by its first token. -/
theorem FlatHead.accounts (h : FlatHead head ts) : Accounts ts head := by
  cases h with
  | @mk t name ps label params hkind hname hparams =>
      refine ⟨fun _ => ⟨t, .flat (List.prefix_append [t] _).isInfix hkind rfl, .inr hkind, rfl⟩, ?_⟩
      intro p hp
      obtain ⟨own, hown, hparam⟩ := hparams.exists_own p hp
      exact ⟨own, List.infix_cons (hown.trans (List.suffix_append _ _).isInfix), hparam⟩

/-- A form without parameters that a word of the source names, or that
is a `then`. -/
theorem accounts_plain {instr : String} {span : Span}
    (h : instr ≠ "then" → ∃ t, Naming ts (.plain instr span) t ∧
      (t.kind = .reserved ∨ t.kind = .instr) ∧ instr = trimEquals t.value) :
    Accounts ts (.plain instr span) :=
  ⟨h, List.forall_mem_nil _⟩

theorem start_through (span span' : Span) : (span.through span').start = span.start := rfl

/-- The place of a form that reaches further starts where it did. -/
theorem start_foldl_through (es : List Expr) (span : Span) :
    (es.foldl (fun span e => span.through e.span) span).start = span.start := by
  induction es generalizing span with
  | nil => rfl
  | cons e es ih => rw [List.foldl_cons, ih]; rfl

/-- **Tokens account for every head** in the trees that they spell. -/
theorem Trees.accounts {es : List Expr} (h : Trees es ts) :
    ∀ head ∈ Expr.headsAll es, Accounts ts head := by
  refine @Trees.rec (fun e ts _ => ∀ head ∈ e.heads, Accounts ts head)
    (fun es ts _ => ∀ head ∈ Expr.headsAll es, Accounts ts head)
    (fun _ es ts _ => ∀ head ∈ Expr.headsAll es, Accounts ts head)
    ?ref ?data ?enclosed ?block ?conditional ?indirect ?plain ?nil ?cons ?absent ?present es ts h
  case ref =>
    intro t _
    rw [Expr.heads_ref]
    exact List.forall_mem_nil _
  case data =>
    intro t ts pieces _
    rw [Expr.heads_data]
    exact List.forall_mem_nil _
  case enclosed =>
    intro left t right name ps ps' es label leading children trailing hleft hkind _ hleading _
      htrailing _ hchildren
    have hin : ∀ {own}, own <:+: label ++ leading ++ children ++ trailing →
        own <:+: left :: t :: (label ++ leading ++ children ++ trailing ++ [right]) := fun hown =>
      List.infix_cons (List.infix_cons (hown.trans (List.prefix_append _ _).isInfix))
    rw [Expr.heads_node]
    refine List.forall_mem_cons.2 ⟨⟨fun _ => ⟨t, ?_, hkind, rfl⟩, ?_⟩, fun head hhead => ?_⟩
    · exact .enclosed (List.prefix_append [left, t] _).isInfix hleft rfl
    · intro p hp
      rcases List.mem_append.1 hp with hp | hp
      · obtain ⟨own, hown, hparam⟩ := hleading.exists_own p hp
        refine ⟨own, hin (hown.trans ?_), hparam⟩
        rw [List.append_assoc (label ++ leading)]
        exact List.infix_append _ _ _
      · obtain ⟨own, hown, hparam⟩ := htrailing.exists_own p hp
        exact ⟨own, hin (hown.trans (List.suffix_append _ _).isInfix), hparam⟩
    · exact (hchildren head hhead).mono (hin (List.infix_append _ _ _))
  case block =>
    intro head close es opening children label hhead _ _ _ _ hchildren
    rw [Expr.heads_node]
    refine List.forall_mem_cons.2 ⟨?_, fun inner hinner => ?_⟩
    · exact Accounts.mono (hhead.accounts.reach (start_through _ _)) (List.prefix_append _ _).isInfix
    · exact (hchildren inner hinner).mono (List.infix_append' _ _ _)
  case conditional =>
    intro head close es other opening first second label hhead _ _ _ _ _ hfirst hsecond
    have hbranch : ∀ inner ∈ Expr.headsAll es, Accounts
        (opening ++ (first ++ second ++ close :: label)) inner := by
      intro inner hinner
      refine (hfirst inner hinner).mono ?_
      rw [List.append_assoc first]
      exact List.infix_append' _ _ _
    rw [Expr.heads_node, Expr.headsAll_append]
    refine List.forall_mem_cons.2 ⟨?_, List.forall_mem_append.2 ⟨?_, ?_⟩⟩
    · exact Accounts.mono (hhead.accounts.reach (start_through _ _)) (List.prefix_append _ _).isInfix
    · exact fun inner hinner =>
        hbranch inner (Expr.headsAll_subset (List.filter_subset_self _) hinner)
    · rw [Expr.headsAll, Expr.heads_node, List.cons_append]
      refine List.forall_mem_cons.2 ⟨accounts_plain fun hthen => absurd rfl hthen, ?_⟩
      refine List.forall_mem_append.2 ⟨?_, fun inner hinner => ?_⟩
      · exact fun inner hinner =>
          hbranch inner (Expr.headsAll_subset (List.filter_subset_self _) hinner)
      · refine (hsecond inner hinner).mono ?_
        rw [List.append_assoc, ← List.append_assoc opening]
        exact List.infix_append' _ _ _
  case indirect =>
    intro head es opening forms hhead _ _ _ hforms
    rw [Expr.heads_node]
    refine List.forall_mem_cons.2 ⟨?_, fun inner hinner => ?_⟩
    · exact (hhead.accounts.reach (start_foldl_through es _)).mono (List.prefix_append _ _).isInfix
    · exact (hforms inner hinner).mono (List.suffix_append _ _).isInfix
  case plain =>
    intro head opening hhead _
    rw [Expr.heads_node]
    exact List.forall_mem_singleton.2 hhead.accounts
  case nil => exact List.forall_mem_nil _
  case cons =>
    intro e es first rest _ _ hfirst hrest
    refine List.forall_mem_append.2 ⟨fun head hhead => ?_, fun head hhead => ?_⟩
    · exact (hfirst head hhead).mono (List.prefix_append _ _).isInfix
    · exact (hrest head hhead).mono (List.suffix_append _ _).isInfix
  case absent => exact List.forall_mem_nil _
  case present =>
    intro name t es label children hword _ _ hchildren
    have ht : t.kind = .instr ∧ t.value = "else" := by
      rw [Token.is, Bool.and_eq_true, beq_iff_eq, beq_iff_eq] at hword
      exact hword
    have helse : "else" = trimEquals t.value := by
      rw [ht.2]
      decide +kernel
    rw [Expr.headsAll_eq, List.flatMap_singleton, Expr.heads_node]
    refine List.forall_mem_cons.2 ⟨accounts_plain fun _ => ?_, fun head hhead => ?_⟩
    · exact ⟨t, .flat (List.prefix_append [t] _).isInfix ht.1 rfl, .inr ht.1, helse⟩
    · exact (hchildren head hhead).mono (List.infix_cons (List.suffix_append _ _).isInfix)

/-- The token that names a form is the one found at its place. -/
theorem Naming.naming? {t : Token} (h : Naming ts head t) (hts : Token.Ascending ts) :
    Token.naming? head.span.start ts = some t := by
  cases h with
  | @enclosed left hin hleft hstart =>
      obtain ⟨before, after, rfl⟩ := hin
      rw [← hstart, List.append_assoc, List.cons_append,
        Token.naming?_append (by simpa using hts), if_pos hleft]
      rfl
  | flat hin hkind hstart =>
      obtain ⟨before, after, rfl⟩ := hin
      rw [← hstart, List.append_assoc, List.singleton_append,
        Token.naming?_append (by simpa using hts), if_neg (by simp [hkind])]

end Grammar

/-! ## Sources -/

/-- Tokens account for the heads of a module, and for the parameters of
its own. -/
theorem Grammar.Module.accounts {n : Node} {ts : List Token} (h : Module n ts) :
    (∀ head ∈ Expr.headsAll n.children, Accounts ts head) ∧
      ∀ p ∈ n.params, ∃ own, own <:+: ts ∧ Parameter p own := by
  cases h with
  | written _ htree =>
      have hall := Trees.accounts (.cons htree .nil)
      rw [List.append_nil, Expr.headsAll_eq, List.flatMap_singleton, Node.toExpr,
        Expr.heads_node] at hall
      obtain ⟨hhead, hchildren⟩ := List.forall_mem_cons.1 hall
      exact ⟨hchildren, hhead.params⟩
  | implied hforms => exact ⟨hforms.accounts, List.forall_mem_nil _⟩

/-- A module that is parsed is derived from the significant tokens. -/
theorem Grammar.exists_module_of_parse {source : String} {n : Node} (h : parse source = .ok n) :
    ∃ ts, (Token.scan source).filter Token.isSignificant = ts ∧ Module n ts := by
  obtain ⟨forms, s, hforms, hend, -, rfl⟩ := exists_forms_of_parse h
  obtain ⟨ts, hts, htrees⟩ := Parser.takes_readWhile hforms
  rw [hend, List.append_nil] at hts
  exact ⟨ts, (Lexer.filter_isSignificant_scan source).trans hts, Parser.module_moduleOf htrees _⟩

/-- **The place of a form finds the token that names it**, in a source
that is parsed. -/
theorem Head.token?_of_parse {source : String} {n : Node} (h : parse source = .ok n) {head : Head}
    (hhead : head ∈ Expr.headsAll n.children) (hthen : head.instr ≠ "then") :
    ∃ t ∈ Token.scan source, head.token? source = some t ∧
      (t.kind = .reserved ∨ t.kind = .instr) ∧ head.instr = Parser.trimEquals t.text := by
  obtain ⟨ts, rfl, hmodule⟩ := Grammar.exists_module_of_parse h
  obtain ⟨t, hname, hkind, hinstr⟩ := (hmodule.accounts.1 head hhead).name hthen
  have hmem : t ∈ (Token.scan source).filter Token.isSignificant := by
    cases hname with
    | enclosed hin => exact hin.subset (by simp)
    | flat hin => exact hin.subset (by simp)
  refine ⟨t, (List.mem_filter.1 hmem).1, hname.naming? (Token.ascending_significant source), hkind, ?_⟩
  rw [hinstr]
  rcases hkind with hkind | hkind <;> rw [Token.value, hkind]

end WasmText
