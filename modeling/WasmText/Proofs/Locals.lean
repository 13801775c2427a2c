import WasmText.Proofs.Module.Declared
/-!
# Locals

The slots of a function are the parameters of its type and then its
locals. Parameters and locals may be written in any order, and parameters
may have no names because only a type gives them. Whatever the spelling,
the parameters are as many as those of the type, the runs of locals spell
out the `local` forms, and a name in the body is compiled to the position
of the last slot of that name (`local_positions`).
-/

namespace WasmText

/-! ## Positions -/

/-- The instructions that read or write a slot. -/
def Opcode.IsLocal (op : Opcode) : Prop := op.name ∈ ["local.get", "local.set", "local.tee"]

/-- The instructions on slots are those that take one. -/
theorem Opcode.isLocal_iff {op : Opcode} (h : op ∈ all) : op.IsLocal ↔ op.shape = .local := by
  have hall : ∀ op ∈ all, op.name ∈ ["local.get", "local.set", "local.tee"] ↔
      op.shape = .local := by
    decide +kernel
  exact hall op h

/-- Whether the last slot of a name has the given position. -/
def Locals.LastAt (slots : Locals) (position : Nat) (name : String) : Prop :=
  slots[position]? = some (some name) ∧ ∀ later > position, slots[later]? ≠ some (some name)

/-- A name is looked up from the end. -/
theorem Locals.lastAt_of_index? {slots : Locals} {name : String} {i : Nat}
    (h : slots.index? name = some i) : slots.LastAt i name := by
  obtain ⟨k, hk, rfl⟩ := Option.map_eq_some_iff.1 h
  obtain ⟨hlt, hname, hfirst⟩ := List.idxOf?_eq_some_iff.1 hk
  have hlength : slots.reverse.length = slots.length := List.length_reverse
  constructor
  · rw [← List.getElem?_reverse (by omega), List.getElem?_eq_getElem hlt]
    exact congrArg some hname
  · intro later hlater hslot
    have hbound := (List.getElem?_eq_some_iff.1 hslot).1
    -- seen from the end, a later slot comes before the one that was found
    have hmirror : slots.reverse[slots.length - 1 - later]? = some (some name) := by
      rw [List.getElem?_reverse (by omega), ← hslot]
      congr 1
      omega
    obtain ⟨hlt', hname'⟩ := List.getElem?_eq_some_iff.1 hmirror
    exact hfirst (slots.length - 1 - later) (by omega) hname'

/-- An instruction that goes to the slot that its mark names, if it names
one. -/
def Mark.AtSlot (slots : Locals) (mark : Mark) (i : Instr) : Prop :=
  ∀ op n labels name span, mark = .instr op n labels → op.IsLocal →
    n.arguments = [⟨.label name, span⟩] →
    ∃ position, i = .op op (.index position) ∧ slots.LastAt position name

/-- A name that resolves goes to the last slot of that name. -/
theorem Mark.atSlot_of_instr? [HexReader] {names : Names} {slots : Locals} {table : TypeTable}
    {mark : Mark} {i : Instr} (hop : ∀ op n labels, mark = .instr op n labels → op ∈ Opcode.all)
    (h : mark.instr? names slots table = some i) : mark.AtSlot slots i := by
  rintro op n labels name span rfl hlocal hargs
  have hshape := (Opcode.isLocal_iff (hop op n labels rfl)).1 hlocal
  obtain ⟨imm, himm, rfl⟩ := instr?_instr.1 h
  rw [hshape, Mark.operand?.eq_def] at himm
  simp only [hargs, Param.index?, Option.map_eq_some_iff] at himm
  obtain ⟨position, hposition, rfl⟩ := himm
  exact ⟨position, rfl, Locals.lastAt_of_index? hposition⟩

/-- **A compiled body goes to the slots that it names.** -/
theorem atSlot_of_compileAll [HexReader] {env : Env} {es : List Expr} {t t' : TypeTable}
    {instrs : List Instr} (h : compileAll env es t = .ok instrs t') :
    List.Forall₂ (Mark.AtSlot env.locals) (Expr.linearAll env.labels es) instrs := by
  have hmarks := (compileAll_linear h).2
  have hscoped := Scoped.linearAll fun e (_ : e ∈ es) => Scoped.linear env.labels e
  have hall := mapM_eq_some.1 hmarks
  rw [List.forall₂_iff_zip] at hall ⊢
  refine ⟨hall.1, fun {mark i} hmem => Mark.atSlot_of_instr? ?_ (hall.2 hmem)⟩
  rintro op n labels rfl
  obtain ⟨k, hk⟩ := List.getElem?_of_mem (List.of_mem_zip hmem).1
  exact Opcode.mem_all_of_ofName? (hscoped.at_mark hk).1

/-! ## Functions -/

/-- The slots of a function of the given type. -/
def Node.slots (form : Node) (t : FuncType) : Locals :=
  form.parameterNames t ++ form.slotNames "local"

/-- The slots of a body that is put aside are those of its form. -/
theorem Node.Defers.slots {types : List FuncType} {named : TypeNames} {form : Node}
    {b : DeferredBody} {t : FuncType} (h : form.Defers types named b)
    (hsignature : form.signature? types named = some t) :
    (b.params ++ b.locals).map Slot.name = form.slots t := by
  obtain ⟨t', htype, -, hnames⟩ := h.params
  obtain rfl : t' = t := Option.some.inj (htype.signature.symm.trans hsignature)
  rw [List.map_append, hnames, h.localNames, Node.slots]

/-- A type index and code as the form of a function says. The parameters
are those of its type, the runs of locals spell out its `local` forms, and
the body goes to the slots that it names. -/
structure Node.HasSlots (types : List FuncType) (named : TypeNames) (form : Node) (t : FuncType)
    (type : Nat) (c : Code) : Prop where
  hasType : form.HasType types named t
  entry : types[type]? = some t
  params : (form.parameterNames t).length = t.params.length
  locals : (form.slotNames "local").length = c.locals.length
  localTypes : form.typesOf? "local" =
    some ((localRuns c.locals).flatMap fun (count, type) => List.replicate count type)
  body : ∃ instrs, (Reader.instr .any).many c.body = some instrs ∧
    List.Forall₂ (Mark.AtSlot (form.slots t)) (Expr.linearAll [] form.instructions) instrs

/-- **A function that is defined as its form says** has the slots of the
form. -/
theorem Node.Defines.hasSlots [HexReader] {types : List FuncType} {named : TypeNames}
    {names : Names} {form : Node} {f : Function} (h : form.Defines types named names f) :
    ∃ t, form.HasSlots types named t f.type f.code := by
  obtain ⟨⟨t, htype, hentry⟩, b, hdefers, hlocals, table, table', instrs, hcompile, -, hbytes⟩ := h
  obtain ⟨t', htype', hlength, hnames⟩ := hdefers.params
  obtain rfl : t = t' := Option.some.inj (htype.signature.symm.trans htype'.signature)
  have hslots := hdefers.slots htype.signature
  have hat := atSlot_of_compileAll hcompile
  rw [hslots, hdefers.body] at hat
  refine ⟨t, htype, hentry, ?_, ?_, ?_, instrs, hbytes ▸ many_of_compileAll hcompile, hat⟩
  · rw [← hnames, List.length_map, hlength]
  · rw [← hdefers.localNames, hlocals, List.length_map, List.length_map]
  · rw [flatMap_localRuns, hlocals]
    exact hdefers.localTypes

/-- Whether the body of a function names a slot that there is not. -/
def Node.UsesMissing (form : Node) : Prop :=
  ∃ op n labels name span, .instr op n labels ∈ Expr.linearAll [] form.instructions ∧ op.IsLocal ∧
    n.arguments = [⟨.label name, span⟩] ∧
    some name ∉ form.slotNames "param" ++ form.slotNames "local"

/-- A named slot is written in a `param` or `local` form. -/
theorem Node.mem_slotNames {form : Node} {t : FuncType} {name : String}
    (h : some name ∈ form.slots t) :
    some name ∈ form.slotNames "param" ++ form.slotNames "local" := by
  rcases List.mem_append.1 h with hparam | hlocal
  · unfold Node.parameterNames at hparam
    split at hparam
    · exact List.mem_append_left _ hparam
    · -- parameters that only a type gives have no names
      obtain ⟨type, -, hnone⟩ := List.mem_map.1 hparam
      cases hnone
  · exact List.mem_append_right _ hlocal

/-- So no name of a missing slot is compiled. -/
theorem Node.HasSlots.not_usesMissing {types : List FuncType} {named : TypeNames} {form : Node}
    {t : FuncType} {type : Nat} {c : Code} (h : form.HasSlots types named t type c) :
    ¬ form.UsesMissing := by
  rintro ⟨op, n, labels, name, span, hmem, hlocal, hargs, hmissing⟩
  obtain ⟨instrs, -, hat⟩ := h.body
  obtain ⟨i, -, hi⟩ := exists_of_mem_forall₂ hat.flip hmem
  obtain ⟨position, -, hslot, -⟩ := hi op n labels name span rfl hlocal hargs
  exact hmissing (Node.mem_slotNames (List.mem_of_getElem? hslot))

/-! ## Sources -/

/-- **A name in a body is the position of its slot.** In the module that a
source compiles to, every function has the slots of its type and then its
locals, as its form declares them, and its body goes to the last slot of
each name. A body that names a slot that there is not does not compile. -/
theorem local_positions [HexReader] {source : String} {bytes : List UInt8}
    (h : compile source = .ok bytes) :
    ∃ n d m, parse source = .ok n ∧ Draft.ofNode n = .ok d ∧ m.encode = bytes ∧
      (bytes.length < 2 ^ 32 → d.LocalsFit → readModule bytes = some m) ∧
      m.functions.length = m.code.length ∧
      List.Forall₂ (fun form (type, c) => ∃ t, form.HasSlots m.types (n.typeNames m.types) t type c)
        (n.childNodes.filter Node.definesFunction) (m.functions.zip m.code) ∧
      ∀ form ∈ n.childNodes.filter Node.definesFunction, ¬ form.UsesMissing := by
  obtain ⟨n, d, m, hparse, hdraft, hdeclares, hbytes, hreads⟩ := exists_of_compile h
  have hholds := Draft.ofNode_holds hdraft
  rw [← hdeclares.types] at hholds
  have hslots : List.Forall₂
      (fun form (type, c) => ∃ t, form.HasSlots m.types (n.typeNames m.types) t type c)
      (n.childNodes.filter Node.definesFunction) (m.functions.zip m.code) := by
    rw [hdeclares.functions, hdeclares.code, List.zip_map', List.forall₂_map_right_iff]
    exact hholds.defined.imp fun form f hf => hf.hasSlots
  refine ⟨n, d, m, hparse, hdraft, hbytes, hreads, ?_, hslots, fun form hform => ?_⟩
  · rw [hdeclares.functions, hdeclares.code, List.length_map, List.length_map]
  · obtain ⟨entry, -, t, hentry⟩ := exists_of_mem_forall₂ hslots.flip hform
    exact hentry.not_usesMissing

/-- Parameters and locals in turn, two of each under one name. -/
def interleavedSource : String :=
  "(func (param $x i32) (local $y i64) (param $x f32) (local $y i64) (local.get $x) (local.set $y))"

def interleavedBytes : List UInt8 :=
  [0x00, 0x61, 0x73, 0x6D, 0x01, 0x00, 0x00, 0x00,
    1, 6, 1, 0x60, 2, 0x7F, 0x7D, 0,
    3, 2, 1, 0,
    10, 10, 1, 8, 1, 2, 0x7E, 0x20, 1, 0x21, 3, 0x0B]

theorem local_positions_interleaved :
    compile interleavedSource = .ok interleavedBytes ∧ interleavedBytes.length < 2 ^ 32 ∧
      ∃ n d m, parse interleavedSource = .ok n ∧ Draft.ofNode n = .ok d ∧ d.LocalsFit ∧
        readModule interleavedBytes = some m ∧
        List.Forall₂
          (fun form (type, c) => ∃ t, form.HasSlots m.types (n.typeNames m.types) t type c)
          (n.childNodes.filter Node.definesFunction) (m.functions.zip m.code) := by
  have hcompile : compile interleavedSource = .ok interleavedBytes := by decide +kernel
  have hlocals : ((parse interleavedSource).toOption.bind fun n => (Draft.ofNode n).toOption).all
      (fun d => d.LocalsFit) = true := by
    decide +kernel
  obtain ⟨n, d, m, hparse, hdraft, -, hreads, -, hslots, -⟩ := local_positions hcompile
  have hfit := localsFit_of_all hparse hdraft hlocals
  exact ⟨hcompile, by decide, n, d, m, hparse, hdraft, hfit, hreads (by decide) hfit, hslots⟩

/-- A second branch is passed over, and in it the use of a slot that there
is not. -/
def passedOverLocal : String :=
  "(func (if (i32.const 0) (then) (then (drop (local.get $missing)))))"

theorem passedOverLocal_compiles :
    compile passedOverLocal = .ok [0x00, 0x61, 0x73, 0x6D, 0x01, 0x00, 0x00, 0x00, 1, 4, 1, 0x60, 0,
        0, 3, 2, 1, 0, 10, 9, 1, 7, 0, 0x41, 0, 0x04, 0x40, 0x0B, 0x0B] ∧
      ((parse passedOverLocal).toOption.bind fun n =>
        ((n.toExpr.descend? [0]).bind Expr.node?).bind fun form =>
          ((form.toExpr.descend? [0, 2, 0, 0]).bind Expr.node?).map fun use =>
            (use.instr, use.arguments.map (·.arg),
              form.slotNames "param" ++ form.slotNames "local")) =
        some ("local.get", [.label "missing"], []) := by
  decide +kernel

end WasmText
