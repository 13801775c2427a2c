import WasmText.Proofs.Tables
import WasmText.Proofs.Tree.Heads
/-!
# Instructions are known by their names

A form is compiled as an instruction if its name is in the table of
opcodes, and the name of a form is the word of the source that names it
without the equals signs at its end. So in a source that compiles every
form that is compiled as an instruction is named by the name of an opcode
and perhaps equals signs after it, and any other word there makes
compilation fail (`instructions_named`). A word with equals signs is not
itself the name of an opcode (`equalsSigns_compile`).
-/

namespace WasmText

/-! ## Words with equals signs -/

/-- Some equals signs. -/
def equalsSigns (count : Nat) : String := String.ofList (List.replicate count '=')

namespace Parser

/-- A word is what is left of it and the equals signs taken away. -/
theorem exists_eq_trimEquals_append (word : String) :
    ∃ count, word = trimEquals word ++ equalsSigns count := by
  obtain ⟨count, hcount⟩ : ∃ count,
      word.toList.reverse.takeWhile (· == '=') = List.replicate count '=' := by
    refine ⟨_, List.eq_replicate_of_mem fun c hc => ?_⟩
    simpa using List.mem_takeWhile_imp hc
  refine ⟨count, ?_⟩
  have hsplit := List.takeWhile_append_dropWhile (p := (· == '=')) (l := word.toList.reverse)
  rw [hcount] at hsplit
  rw [← String.toList_inj, String.toList_append, trimEquals, equalsSigns, String.toList_ofList,
    String.toList_ofList, ← List.reverse_inj, List.reverse_append, List.reverse_reverse,
    List.reverse_replicate, hsplit]

end Parser

/-! ## Forms that are compiled as instructions -/

/-- The trees of a form that are compiled with it: all those inside a plain
instruction, those that give no signature inside a construct or an
indirect call, and of a conditional the condition and the first branch of
either name. -/
def Node.executed (n : Node) (op : Opcode) : List Expr :=
  if op = .conditional then n.condition ++ n.branch "then" ++ n.branch "else"
  else if op.shape = .structured ∨ op.shape = .indirect then n.body
  else n.children

/-- That a tree is compiled as an instruction when another is: it is that
tree, or is compiled with a tree of the form that it is. -/
inductive Expr.Executes : Expr → Expr → Prop where
  | self (e : Expr) : Executes e e
  | inside {head : Head} {children : List Expr} {op : Opcode} {e c : Expr}
      (hop : Opcode.ofName? head.instr = some op) (he : e ∈ Node.executed ⟨head, children⟩ op)
      (hc : Executes e c) : Executes (.node head children) c

/-- That a tree is compiled as an instruction in a module: in a body, in a
first value or in an offset. -/
def Node.Executes (n : Node) (c : Expr) : Prop := ∃ es ∈ n.expressions, ∃ e ∈ es, e.Executes c

/-- That a tree is a form with the name of an opcode, which is how the word
that names it in a source starts. Only equals signs come after it. -/
def Expr.Named (source : String) (c : Expr) : Prop :=
  ∃ (n : Node) (t : Token) (op : Opcode) (count : Nat), c = n.toExpr ∧
    n.token? source = some t ∧ op ∈ Opcode.all ∧ n.instr = op.name ∧
    t.text = op.name ++ equalsSigns count

namespace Node

variable {n : Node}

theorem branch_subset (n : Node) (name : String) :
    Expr.headsAll (n.branch name) ⊆ Expr.headsAll n.children := by
  rw [branch]
  cases hchild : n.child? name with
  | none => exact List.nil_subset _
  | some b =>
      have hin := Expr.heads_subset (exists_of_child? hchild).1
      rw [Expr.heads_node] at hin
      exact fun head hhead => hin (List.mem_cons_of_mem _ hhead)

theorem headsAll_executed (n : Node) (op : Opcode) :
    Expr.headsAll (n.executed op) ⊆ Expr.headsAll n.children := by
  unfold executed
  split
  · rw [Expr.headsAll_append, Expr.headsAll_append]
    refine List.append_subset.2 ⟨List.append_subset.2 ⟨?_, ?_⟩, ?_⟩
    · exact Expr.headsAll_subset (List.filter_subset_self _)
    · exact branch_subset n "then"
    · exact branch_subset n "else"
  · split
    · exact Expr.headsAll_subset (List.filter_subset_self _)
    · exact List.Subset.refl _

/-- The heads of a field are among those of its module. -/
theorem headsAll_of_mem_childNodes {field : Node} (h : field ∈ n.childNodes) :
    Expr.headsAll field.children ⊆ Expr.headsAll n.children := by
  obtain ⟨e, he, hnode⟩ := List.mem_filterMap.1 h
  cases e with
  | ref => cases hnode
  | data => cases hnode
  | node head children =>
      obtain rfl := Option.some.inj hnode
      have hin := Expr.heads_subset he
      rw [Expr.heads_node] at hin
      exact fun head hhead => hin (List.mem_cons_of_mem _ hhead)

theorem headsAll_offset? {kind : String} {es : List Expr} (h : n.offset? kind = some es) :
    Expr.headsAll es ⊆ Expr.headsAll n.children := by
  unfold offset? at h
  split at h
  next head children rest hchildren =>
    split at h
    next =>
      obtain rfl := Option.some.inj h
      rw [hchildren]
      have hin : (Expr.node head children).heads ⊆
          Expr.headsAll (.node head children :: rest) :=
        Expr.heads_subset List.mem_cons_self
      split
      · rw [Expr.heads_node] at hin
        exact fun inner hinner => hin (List.mem_cons_of_mem _ hinner)
      · rw [Expr.headsAll_eq, List.flatMap_singleton]
        exact hin
    next => cases h
  next => cases h

/-- The heads of what is compiled are among those of the module. -/
theorem headsAll_of_mem_expressions {es : List Expr} (h : es ∈ n.expressions) :
    Expr.headsAll es ⊆ Expr.headsAll n.children := by
  have hfield : ∃ field ∈ n.childNodes, Expr.headsAll es ⊆ Expr.headsAll field.children := by
    simp only [expressions, List.mem_append, List.mem_map, List.mem_filterMap] at h
    rcases h with ((⟨field, hfield, rfl⟩ | ⟨field, hfield, hes⟩) | ⟨field, hfield, hes⟩) |
      ⟨field, hfield, hes⟩
    · exact ⟨field, List.mem_of_mem_filter hfield, Expr.headsAll_subset (List.filter_subset_self _)⟩
    · refine ⟨field, hfield, ?_⟩
      unfold initial? at hes
      split at hes
      · obtain rfl := Option.some.inj hes
        exact Expr.headsAll_subset fun e he => List.mem_of_mem_filter (List.mem_of_mem_tail he)
      · cases hes
    · exact ⟨field, hfield, headsAll_offset? hes⟩
    · exact ⟨field, hfield, headsAll_offset? hes⟩
  obtain ⟨field, hmem, hin⟩ := hfield
  exact fun head hhead => headsAll_of_mem_childNodes hmem (hin hhead)

end Node

namespace Expr

variable {e c : Expr}

theorem Executes.heads_subset (h : e.Executes c) : c.heads ⊆ e.heads := by
  induction h with
  | self => exact List.Subset.refl _
  | @inside head children op e c _ he _ ih =>
      rw [heads_node]
      exact fun inner hinner => List.mem_cons_of_mem _
        (Node.headsAll_executed ⟨head, children⟩ op (Expr.heads_subset he (ih hinner)))

/-- The marks of what is compiled with a form are among its own. -/
theorem linear_subset_of_executed {head : Head} {children : List Expr} {op : Opcode}
    (hop : Opcode.ofName? head.instr = some op) (he : e ∈ Node.executed ⟨head, children⟩ op)
    (labels : Labels) :
    ∃ labels', e.linear labels' ⊆ (Expr.node head children).linear labels := by
  have hall : ∀ {es : List Expr} {labels'}, e ∈ es → e.linear labels' ⊆ linearAll labels' es :=
    fun hmem mark hmark => List.mem_flatMap.2 ⟨e, hmem, hmark⟩
  unfold Node.executed at he
  split at he
  next hconditional =>
    subst hconditional
    rw [linear_conditional hop]
    rcases List.mem_append.1 he with he | he
    · rcases List.mem_append.1 he with he | he
      · exact ⟨labels, fun mark hmark => by simp [hall he hmark]⟩
      · exact ⟨head.label? :: labels, fun mark hmark => by simp [hall he hmark]⟩
    · have helse : Node.hasChild ⟨head, children⟩ "else" = true := by
        rw [Node.branch] at he
        rw [Node.hasChild]
        cases hchild : Node.child? ⟨head, children⟩ "else" with
        | none => simp [hchild] at he
        | some b => rfl
      exact ⟨head.label? :: labels, fun mark hmark => by simp [helse, hall he hmark]⟩
  next hconditional =>
    split at he
    next hshape =>
      rcases hshape with hshape | hshape
      · rw [linear_block hop hshape hconditional]
        exact ⟨head.label? :: labels, fun mark hmark => by simp [hall he hmark]⟩
      · rw [linear_indirect hop hshape]
        exact ⟨labels, fun mark hmark => by simp [hall he hmark]⟩
    next hshape =>
      rw [linear_plain hop (not_or.1 hshape)]
      exact ⟨labels, fun mark hmark => by simp [hall he hmark]⟩

/-- **What is compiled without a stray mark consists of instructions.** -/
theorem Executes.isInstr (h : e.Executes c) {labels : Labels} (hstray : .stray ∉ e.linear labels) :
    c.IsInstr := by
  induction h generalizing labels with
  | self e =>
      cases e with
      | ref => simp [linear_eq, layout, Piece.linear] at hstray
      | data => simp [linear_eq, layout, Piece.linear] at hstray
      | node head children =>
          cases hop : Opcode.ofName? head.instr with
          | none => simp [linear_stray hop] at hstray
          | some op => exact ⟨⟨head, children⟩, op, rfl, hop⟩
  | inside hop he _ ih =>
      obtain ⟨labels', hin⟩ := linear_subset_of_executed hop he labels
      exact ih fun hmem => hstray (hin hmem)

end Expr

/-- No instruction is typed for a stray mark. -/
theorem Expr.stray_not_mem {types : List FuncType} {named : TypeNames} {es : List Expr}
    {bytes : List UInt8} (h : Expr.Codes types named es bytes) :
    .stray ∉ Expr.linearAll [] es := by
  obtain ⟨instrs, -, htyped⟩ := h
  intro hmem
  obtain ⟨instr, -, hinstr⟩ := exists_of_mem_forall₂ htyped.flip hmem
  cases hinstr

/-! ## Names of opcodes -/

/-- A word that starts with a letter is an instruction, unless a special
number starts with it. -/
theorem Lexer.atomKind_word {c d : Char} {rest : List Char} (hlower : c.isLower = true)
    (hnan : [c, d] ≠ ['n', 'a']) (hinf : [c, d] ≠ ['i', 'n']) :
    atomKind (c :: d :: rest) = .instr := by
  have hne : ∀ e : Char, e.isLower = false → c ≠ e := by
    rintro e he rfl
    rw [hlower] at he
    cases he
  have hdigit : c.isDigit = false := by
    delta Char.isLower at hlower
    delta Char.isDigit
    simp only [Bool.and_eq_true, decide_eq_true_eq, UInt32.le_iff_toNat_le] at hlower
    simp only [Bool.and_eq_false_iff, decide_eq_false_iff_not, UInt32.le_iff_toNat_le]
    change 97 ≤ c.toNat ∧ c.toNat ≤ 122 at hlower
    change ¬ 48 ≤ c.toNat ∨ ¬ c.toNat ≤ 57
    omega
  have hbody : dropSign (c :: d :: rest) = (c :: d :: rest, false) := by
    unfold dropSign
    split
    next heq => exact absurd (List.cons.inj heq).1 (hne '+' rfl)
    next heq => exact absurd (List.cons.inj heq).1 (hne '-' rfl)
    next => rfl
  have hhex : startsHex (c :: d :: rest) = false := by
    have hzero := hne '0' rfl
    simp only [ne_eq, List.cons.injEq, and_true, not_and] at hnan
    simp [startsHex, List.isPrefixOf, hzero.symm]
    grind
  have hnumber : startsNumber (c :: d :: rest) = false := by
    simp only [ne_eq, List.cons.injEq, and_true, not_and] at hnan hinf
    simp [startsNumber, hdigit]
    grind
  rw [atomKind, hbody]
  simp [hhex, hnumber, hlower]

/-- The characters in names of opcodes. -/
def Opcode.isNameChar (c : Char) : Bool := c.isAlphanum || c == '.' || c == '_' || c == '/'

theorem Opcode.isIdentifier_of_isNameChar {c : Char} (h : isNameChar c = true) :
    isIdentifier c = true ∧ c ≠ '=' := by
  rw [isNameChar, Bool.or_eq_true, Bool.or_eq_true, Bool.or_eq_true, beq_iff_eq, beq_iff_eq,
    beq_iff_eq] at h
  rcases h with ((h | rfl) | rfl) | rfl
  · refine ⟨by rw [isIdentifier, h, Bool.true_or], ?_⟩
    rintro rfl
    cases h
  · decide
  · decide
  · decide

/-- How the name of an opcode starts, and what it is made of. -/
def Opcode.hasWord (op : Opcode) : Bool :=
  match op.name.toList with
  | c :: d :: rest => c.isLower && [c, d] != ['n', 'a'] && [c, d] != ['i', 'n'] &&
    (c :: d :: rest).all isNameChar
  | _ => false

theorem Opcode.hasWord_of_mem {op : Opcode} (h : op ∈ all) : op.hasWord = true := by
  have hall : all.all hasWord = true := by decide +kernel
  exact List.all_eq_true.1 hall op h

/-- No keyword is the name of an opcode. -/
theorem Opcode.name_ne_word {op : Opcode} (h : op ∈ all) (key : Keyword) : op.name ≠ key.word := by
  intro hname
  have hnone : ofName? key.word = none := by cases key <;> decide +kernel
  exact List.find?_eq_none.1 hnone op h (beq_iff_eq.2 hname)

/-- **The name of an opcode is one token**, however many equals signs come
after it. -/
theorem Opcode.lexesAs_name {op : Opcode} (h : op ∈ all) (count : Nat) :
    Token.LexesAs .instr (op.name ++ equalsSigns count) := by
  have hword := hasWord_of_mem h
  unfold hasWord at hword
  split at hword
  next c d rest hname =>
    simp only [Bool.and_eq_true, bne_iff_ne, List.all_eq_true] at hword
    obtain ⟨⟨⟨hlower, hnan⟩, hinf⟩, hchars⟩ := hword
    have htext : (op.name ++ equalsSigns count).toList =
        c :: d :: (rest ++ List.replicate count '=') := by
      rw [String.toList_append, hname, equalsSigns, String.toList_ofList]
      rfl
    have hidentifier : ∀ e ∈ c :: d :: (rest ++ List.replicate count '='),
        isIdentifier e = true := by
      intro e he
      rcases List.mem_append.1 (show e ∈ (c :: d :: rest) ++ List.replicate count '=' from he) with
        he | he
      · exact (isIdentifier_of_isNameChar (hchars e he)).1
      · rw [List.eq_of_mem_replicate he]
        decide
    have hkey : Lexer.keywordLength? (c :: d :: (rest ++ List.replicate count '=')) = none := by
      refine Option.eq_none_iff_forall_ne_some.2 fun n hn => ?_
      obtain ⟨key, hkey⟩ := Token.exists_keyword hn
      have hplain : (c :: d :: (rest ++ List.replicate count '=')).takeWhile (· != '=') =
          c :: d :: rest := by
        rw [← List.cons_append, ← List.cons_append, List.takeWhile_append_of_pos fun e he =>
          bne_iff_ne.2 (isIdentifier_of_isNameChar (hchars e he)).2]
        cases count <;> simp [List.replicate_succ]
      refine name_ne_word h key (String.toList_inj.1 ?_)
      rw [hname, ← hplain, hkey]
    have hkind : Lexer.atomKind (c :: d :: (rest ++ List.replicate count '=')) = .instr :=
      Lexer.atomKind_word hlower hnan hinf
    rw [← String.ofList_toList (s := op.name ++ equalsSigns count), htext, ← hkind]
    exact Token.lexesAs_atom hidentifier (by rintro rfl; cases hlower) hkey
  next => cases hword

/-! ## Sources -/

theorem Opcode.ofName?_eq_some {word : String} {op : Opcode} (h : ofName? word = some op) :
    op ∈ all ∧ word = op.name := by
  have hname := List.find?_some h
  exact ⟨List.mem_of_find?_eq_some h, (beq_iff_eq.1 hname).symm⟩

/-- In a source that compiles, what is compiled is named by opcodes. -/
theorem Expr.named_of_compile [HexReader] {source : String} {bytes : List UInt8} {n : Node}
    {c : Expr}
    (h : compile source = .ok bytes) (hparse : parse source = .ok n) (hc : n.Executes c) :
    c.Named source := by
  obtain ⟨n', d, m, hparse', hdraft, hdeclares, -, -⟩ := exists_of_compile h
  obtain rfl := Except.ok.inj (hparse.symm.trans hparse')
  have htyped := (hdeclares.typed (Draft.ofNode_holds hdraft)).expressions
  obtain ⟨es, hes, e, he, hexecutes⟩ := hc
  obtain ⟨part, -, hcodes⟩ := exists_of_mem_forall₂ htyped.flip hes
  have hstray : .stray ∉ e.linear [] := fun hmem =>
    Expr.stray_not_mem hcodes (List.mem_flatMap.2 ⟨e, he, hmem⟩)
  obtain ⟨form, op, rfl, hop⟩ := hexecutes.isInstr hstray
  obtain ⟨hmem, hname⟩ := Opcode.ofName?_eq_some hop
  have hhead : form.toHead ∈ Expr.headsAll n.children := by
    refine Node.headsAll_of_mem_expressions hes (Expr.heads_subset he (hexecutes.heads_subset ?_))
    rw [Node.toExpr, Expr.heads_node]
    exact List.mem_cons_self
  have hthen : form.instr ≠ "then" := by
    intro hthen
    rw [hthen, show Opcode.ofName? "then" = none by decide +kernel] at hop
    cases hop
  obtain ⟨t, -, htoken, -, hinstr⟩ := Head.token?_of_parse hparse hhead hthen
  obtain ⟨count, hcount⟩ := Parser.exists_eq_trimEquals_append t.text
  rw [← hinstr, hname] at hcount
  exact ⟨form, t, op, count, rfl, htoken, hmem, hname, hcount⟩

/-- **An instruction is known by its name**, up to equals signs after it. In
a source that compiles, every tree that is compiled as an instruction is
named by the name of an opcode and equals signs. Where one of them is
named otherwise, the source does not compile. And every such name is a
word of its own, so that no number of equals signs is refused. -/
theorem instructions_named [HexReader] (source : String) :
    (∀ bytes, compile source = .ok bytes →
      ∃ n, parse source = .ok n ∧ ∀ c, n.Executes c → c.Named source) ∧
    (∀ n c, parse source = .ok n → n.Executes c → ¬ c.Named source →
      ∃ e, compile source = .error e) ∧
    ∀ op ∈ Opcode.all, ∀ count, Token.LexesAs .instr (op.name ++ equalsSigns count) := by
  refine ⟨fun bytes h => ?_, fun n c hparse hc hnamed => ?_, fun op hop => op.lexesAs_name hop⟩
  · obtain ⟨n, d, m, hparse, -⟩ := exists_of_compile h
    exact ⟨n, hparse, fun c hc => Expr.named_of_compile h hparse hc⟩
  · cases hcompile : compile source with
    | ok bytes => exact absurd (Expr.named_of_compile hcompile hparse hc) hnamed
    | error e => exact ⟨e, rfl⟩

/-- Equals signs after the name of a construct, of operands and of a first
value. -/
def trimmedSource : String :=
  "(func (if= (i32.const== 1) (then (drop= (i32.const 2))))) (global i32 i32.const= 3)"

def trimmedBytes : List UInt8 :=
  [0x00, 0x61, 0x73, 0x6D, 0x01, 0x00, 0x00, 0x00, 1, 4, 1, 0x60, 0, 0, 3, 2, 1, 0,
    6, 6, 1, 0x7F, 0x00, 0x41, 3, 0x0B, 10, 12, 1, 10, 0, 0x41, 1, 0x04, 0x40, 0x41, 2, 0x1A, 0x0B, 0x0B]

/-- A form that no opcode has the name of. -/
def unnamedSource : String := "(func (no))"

theorem instructions_named_trimmed :
    compile trimmedSource = .ok trimmedBytes ∧
      (∃ n, parse trimmedSource = .ok n ∧ ∀ c, n.Executes c → c.Named trimmedSource) ∧
      (∃ n c, parse unnamedSource = .ok n ∧ n.Executes c ∧ ¬ c.Named unnamedSource ∧
        ∃ e, compile unnamedSource = .error e) ∧
      Token.LexesAs .instr (Opcode.conditional.name ++ equalsSigns 2) := by
  have hcompile : compile trimmedSource = .ok trimmedBytes := by decide +kernel
  obtain ⟨n, hparse⟩ : ∃ n, parse unnamedSource = .ok n := exists_of_isOk (by decide +kernel)
  have hword : ((parse unnamedSource).toOption.bind fun n =>
      (n.expressions.head?.bind List.head?).bind fun c => c.node?.map (·.instr)) = some "no" := by
    decide +kernel
  rw [hparse, Except.toOption, Option.bind_some] at hword
  obtain ⟨c, hfirst, hword⟩ := Option.bind_eq_some_iff.1 hword
  obtain ⟨es, hes, hc⟩ := Option.bind_eq_some_iff.1 hfirst
  have hexecutes : n.Executes c :=
    ⟨es, List.mem_of_head? hes, c, List.mem_of_head? hc, .self c⟩
  have hunnamed : ¬ c.Named unnamedSource := by
    rintro ⟨form, -, op, -, rfl, -, hop, hname, -⟩
    have hno : Opcode.all.all (·.name != "no") = true := by decide +kernel
    have hne := bne_iff_ne.1 (List.all_eq_true.1 hno op hop)
    exact hne (hname.symm.trans (Option.some.inj hword))
  obtain ⟨hnamed, -, hlexes⟩ := instructions_named trimmedSource
  exact ⟨hcompile, hnamed _ hcompile,
    ⟨n, c, hparse, hexecutes, hunnamed, (instructions_named unnamedSource).2.1 n c hparse hexecutes hunnamed⟩,
    hlexes _ (by decide +kernel) 2⟩

/-- An equals sign after the name of an instruction. -/
def equalsSource : String := "(func (nop=))"

theorem equalsSigns_compile :
    compile equalsSource = .ok [0x00, 0x61, 0x73, 0x6D, 0x01, 0x00, 0x00, 0x00, 1, 4, 1, 0x60, 0, 0,
        3, 2, 1, 0, 10, 5, 1, 3, 0, 0x01, 0x0B] ∧
      ((parse equalsSource).toOption.bind fun n => (n.expressions.head?.bind List.head?).bind fun c =>
        c.node?.bind fun form => (form.token? equalsSource).map (·.text)) = some "nop=" ∧
      Opcode.ofName? "nop=" = none := by
  decide +kernel

end WasmText
