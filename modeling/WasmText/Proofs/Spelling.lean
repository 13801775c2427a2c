import WasmText.Proofs.Layout
import WasmText.Proofs.Module.Site
import WasmText.Proofs.Instruction.Reread
/-!
# The spelling of a body never matters

A function is written in its module with its body spelled folded, flat, or
partly either. The source is read as the module with a body of respelled
trees. These compile where the body does, to the same instructions, so
every spelling compiles to the bytes of the module
(`spelling_irrelevant`).
-/

namespace WasmText

open Lexer (words wordsOf)

theorem Expr.IsInstr.isDeclaration_eq_false {e : Expr} (h : e.IsInstr) : e.isDeclaration = false := by
  refine List.any_eq_false.2 fun word hword => ?_
  have hnone : ∀ word ∈ ["type", "export", "import", "param", "result", "local"],
      Opcode.ofName? word = none := by decide +kernel
  simp [h.isNode_eq_false (hnone word hword)]

namespace Site

variable {site : Site} {bytes : List UInt8}

/-! ## Sources -/

/-- The texts of the module, with the function in a style and all else as
it is printed. -/
def texts (style : Style) (glued : Bool) (site : Site) : List String :=
  enclosed (site.module.texts glued ++ (site.before.flatMap (Expr.texts glued) ++
    (enclosed (site.function.texts glued ++ site.declarations.flatMap (Expr.spellTypes style glued) ++
      site.body.flatMap (Expr.spell style glued)) ++ site.after.flatMap (Expr.texts glued))))

/-- The module as a source, with spaces between its texts. -/
def source (style : Style) (glued : Bool) (site : Site) : String :=
  " ".intercalate (site.texts style glued)

/-- Whether everything around the body is read back. -/
structure Written (style : Style) (glued : Bool) (site : Site) : Prop where
  module : site.module.Printable Argument.Writable
  before : ∀ e ∈ site.before, Parser.FormAs (e.texts glued) e
  function : site.function.Printable Argument.Writable
  declarations : ∀ e ∈ site.declarations, Parser.FormAs (e.spellTypes style glued) e
  after : ∀ e ∈ site.after, Parser.FormAs (e.texts glued) e

/-- Every field of a module that compiles is a form. -/
theorem isSome_node?_of_compile [HexReader] {n : Node} (h : n.compile = .ok bytes) :
    ∀ e ∈ n.children, e.node?.isSome = true := by
  intro e he
  obtain ⟨d, hdraft, -⟩ := bind_eq_ok.1 h
  obtain ⟨-, progress, hprogress, -⟩ := Draft.ofNode_eq_ok.1 hdraft
  obtain ⟨typed, -, hfields⟩ := bind_eq_ok.1 hprogress
  obtain ⟨p, q, hdeclare⟩ := exists_of_mem_foldlM hfields he
  unfold Progress.declare at hdeclare
  split at hdeclare
  · cases hdeclare
  · next hform => rw [hform]; rfl

theorem isSome_node?_of_isDeclaration {e : Expr} (h : e.isDeclaration = true) :
    e.node?.isSome = true := by
  cases e with
  | ref => cases h
  | data => cases h
  | node => rfl

variable {style : Style} {glued : Bool}

theorem written_of_compile [HexReader] (hprint : site.node.Printable Argument.Writable)
    (h : site.node.compile = .ok bytes) :
    site.Written style glued ∧ ∀ e ∈ site.body, e.Printable Argument.Writable := by
  have hforms := isSome_node?_of_compile h
  cases hprint.tree with
  | node hmodule _ _ hfields =>
      have hfield : site.field ∈ site.node.children := List.mem_append_right _ List.mem_cons_self
      cases hfields site.field hfield with
      | node hfunction _ _ hchildren =>
          refine ⟨⟨hmodule, fun e he => ?_, hfunction, fun e he => ?_, fun e he => ?_⟩, fun e he => ?_⟩
          · have hmem : e ∈ site.node.children := List.mem_append_left _ he
            exact Parser.formAs_texts glued (hfields e hmem) (hforms e hmem)
          · exact Parser.formAs_spellTypes glued (hchildren e (List.mem_append_left _ he))
              (isSome_node?_of_isDeclaration (site.declares e he)) style
          · have hmem : e ∈ site.node.children := List.mem_append_right _ (List.mem_cons_of_mem _ he)
            exact Parser.formAs_texts glued (hfields e hmem) (hforms e hmem)
          · exact hchildren e (List.mem_append_right _ he)

variable {body : List Expr} (hbody : Parser.ReadsAs (site.body.flatMap (Expr.spell style glued)) body)
  (hinstr : ∀ e ∈ body, e.isDeclaration = false)

include hbody

/-- **The texts are read as the module with its body respelled.** -/
theorem Written.formAs (h : site.Written style glued) :
    Parser.FormAs (site.texts style glued) (site.withBody body hinstr).node.toExpr := by
  have hfield := hbody.formAs glued h.declarations h.function
  refine ⟨Parser.settled_enclosed fun text hmem => ?_, ⟨_, Parser.wordsOf_enclosed _⟩,
    fun s rest => ?_⟩
  · rw [List.mem_append, List.mem_append, List.mem_append] at hmem
    rcases hmem with hmem | hmem | hmem | hmem
    · exact h.module.settled_texts glued text hmem
    · exact Parser.settled_forms h.before text hmem
    · exact hfield.settled text hmem
    · exact Parser.settled_forms h.after text hmem
  · have hafter := Parser.readWhile_forms s h.after (fun e he _ => (h.after e he).goesOn_eq s [])
      (Parser.readWhile_closing s rest)
    have hfunction := Parser.readWhile_cons (hfield.goesOn_eq s []) (hfield.read s _) hafter
    have hinner := Parser.readWhile_forms s h.before (fun e he _ => (h.before e he).goesOn_eq s [])
      hfunction
    have hopen := Parser.noParam_forms h.before
      (hfield.noParam (wordsOf (site.after.flatMap (Expr.texts glued)) ++ .closing :: rest))
    simp only [← List.append_assoc] at hinner hopen
    have hform := Parser.readExpr_form glued s h.module hopen hinner
    rw [texts, Parser.wordsOf_enclosed, Node.toExpr, Expr.dress_node]
    simpa [node, field, withBody] using hform

theorem Written.exists_parse (h : site.Written style glued) (hmodule : site.module.instr = "module") :
    ∃ m, parse (site.source style glued) = .ok m ∧
      m.bare = (site.withBody body hinstr).node.dress .reread := by
  have hform := h.formAs hbody hinstr
  have hwords : words (site.source style glued).toList = wordsOf (site.texts style glued) :=
    Lexer.words_intercalate hform.settled
  obtain ⟨ts, hts⟩ := hform.opens
  have hread := hform.read ⟨wordsOf (site.texts style glued), [], .zero⟩ []
  rw [List.append_nil, Node.toExpr, Expr.dress_node] at hread
  refine exists_parse_of_words ?_
  rw [hwords]
  exact parseWords_module hmodule hts rfl hread

end Site

/-- **The spelling of a body never matters.** A function in a module that
compiles can have its body written folded, flat, or with a choice for each
of its forms. As long as every indirect call in it names its type, the
source compiles to the bytes of the module. -/
theorem spelling_irrelevant [HexReader] {site : Site} {bytes : List UInt8}
    (hprint : site.node.Printable Argument.Writable) (hcalls : ∀ e ∈ site.body, e.CallsNamed)
    (hcompile : site.node.compile = .ok bytes) (style : Style) (glued : Bool) :
    compile (site.source style glued) = .ok bytes := by
  obtain ⟨hwritten, hbodies⟩ := Site.written_of_compile hprint hcompile
  have hplace := Site.compile_withBody hcompile
  -- every tree of the body compiles somewhere, and so is made of instructions
  have hspellable : ∀ e ∈ site.body, e.Spellable := by
    intro e he
    rcases hplace with hnone | ⟨env, t, t', instrs, hrun, -⟩
    · rw [hnone] at he
      cases he
    · obtain ⟨_, _, _, hone⟩ := exists_of_mem_compileAll hrun he
      exact Expr.Writable.spellable ⟨hbodies e he, hcalls e he⟩ hone
  have hinstr : ∀ e ∈ site.body.flatMap (Expr.respell style), e.isDeclaration = false := by
    intro c hc
    obtain ⟨e, he, hc⟩ := List.mem_flatMap.1 hc
    exact ((hspellable e he).isInstr_respell style c hc).isDeclaration_eq_false
  have hrespelled : (site.withBody _ hinstr).node.compile = .ok bytes := by
    rcases hplace with hnone | ⟨env, t, t', instrs, hrun, hsame⟩
    · rwa [site.withBody_eq hinstr (by rw [hnone]; rfl)]
    · exact hsame _ hinstr (compileAll_respell hspellable hrun style)
  have hread : Parser.ReadsAs (site.body.flatMap (Expr.spell style glued))
      (site.body.flatMap (Expr.respell style)) :=
    .flatMap fun e he => Parser.readsAs_spell (hspellable e he) style glued
  obtain ⟨m, hparse, hbare⟩ := hwritten.exists_parse hread hinstr hprint.instr
  refine compile_eq_ok.2 ⟨m, hparse, ?_⟩
  -- what was read differs from the respelled module in its places and the look of its numbers
  rw [← m.compile_bare, hbare]
  exact (agree_compile _).eq_ok_iff.2 hrespelled

/-- A conditional in a block, whose branches leave the block and call
through the table. -/
def nestedSite : Site where
  module := .plain "module" .zero
  before := [
    .node ⟨"type", some ⟨"t", .zero⟩, [], .zero⟩ [.node (.plain "func" .zero) [
      .node (.plain "param" .zero) [.node (.plain "i32" .zero) []],
      .node (.plain "result" .zero) [.node (.plain "i32" .zero) []]]]]
  function := .plain "func" .zero
  declarations := [
    .node ⟨"param", some ⟨"x", .zero⟩, [], .zero⟩ [.node (.plain "i32" .zero) []],
    .node (.plain "result" .zero) [.node (.plain "i32" .zero) []]]
  body := [
    .node ⟨"block", some ⟨"out", .zero⟩, [], .zero⟩ [
      .node (.plain "result" .zero) [.node (.plain "i32" .zero) []],
      .node (.plain "if" .zero) [
        .node (.plain "result" .zero) [.node (.plain "i32" .zero) []],
        .node (.plain "i32.eqz" .zero) [.node ⟨"local.get", some ⟨"x", .zero⟩, [], .zero⟩ []],
        .node (.plain "then" .zero) [
          .node ⟨"br", some ⟨"out", .zero⟩, [], .zero⟩ [
            .node ⟨"i32.const", none, [⟨.number "1", .zero⟩], .zero⟩ []]],
        .node (.plain "else" .zero) [
          .node (.plain "call_indirect" .zero) [
            .node ⟨"type", some ⟨"t", .zero⟩, [], .zero⟩ [],
            .node ⟨"local.get", some ⟨"x", .zero⟩, [], .zero⟩ [],
            .node ⟨"i32.const", none, [⟨.number "0", .zero⟩], .zero⟩ []]]]]]
  after := []
  isFunction := rfl
  declares := by decide
  instructs := by decide

/-- The bytes of the module. -/
def nestedBytes : List UInt8 := [
  0x00, 0x61, 0x73, 0x6D, 0x01, 0x00, 0x00, 0x00, 0x01, 0x06, 0x01, 0x60, 0x01, 0x7F, 0x01, 0x7F,
  0x03, 0x02, 0x01, 0x00, 0x0A, 0x19, 0x01, 0x17, 0x00, 0x02, 0x7F, 0x20, 0x00, 0x45, 0x04, 0x7F,
  0x41, 0x01, 0x0C, 0x01, 0x05, 0x20, 0x00, 0x41, 0x00, 0x11, 0x00, 0x00, 0x0B, 0x0B, 0x0B]

theorem spelling_irrelevant_nested :
    nestedSite.body.flatMap (Expr.spell .folded true) = [
      "(", "block", "$out", "(", "result", "i32", ")", "(", "if", "(", "result", "i32", ")",
      "(", "i32.eqz", "(", "local.get", "$x", ")", ")",
      "(", "then", "(", "br", "$out", "(", "i32.const", "1", ")", ")", ")",
      "(", "else", "(", "call_indirect", "(", "type", "$t", ")", "(", "local.get", "$x", ")",
      "(", "i32.const", "0", ")", ")", ")", ")", ")"] ∧
    nestedSite.body.flatMap (Expr.spell .flat true) = [
      "block", "$out", "(", "result", "i32", ")", "local.get", "$x", "i32.eqz",
      "if", "(", "result", "i32", ")", "i32.const", "1", "br", "$out",
      "else", "local.get", "$x", "i32.const", "0", "call_indirect", "(", "type", "$t", ")",
      "end", "end"] ∧
    compile (nestedSite.source .folded true) = .ok nestedBytes ∧
    compile (nestedSite.source .flat true) = .ok nestedBytes := by
  have hprint : nestedSite.node.Printable Argument.Writable := by decide +kernel
  have hcalls : ∀ e ∈ nestedSite.body, e.CallsNamed := by
    simp [nestedSite, Expr.callsNamed_node, Node.NamesType, Head.plain, Node.hasChild, Node.child?,
      Node.childNodes, Expr.node?]
  have hcompile : nestedSite.node.compile = .ok nestedBytes := by decide +kernel
  exact ⟨by cbv, by cbv, spelling_irrelevant hprint hcalls hcompile .folded true,
    spelling_irrelevant hprint hcalls hcompile .flat true⟩

end WasmText
