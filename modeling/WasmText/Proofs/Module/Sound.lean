import WasmText.Proofs.Instruction.Decode
import WasmText.Proofs.Module.Reader
import WasmText.Proofs.Module.Registration
/-!
# Sound drafts

A draft is sound when it agrees with a log of its registrations and what
it holds can be written: types are known, limits are words, and every
body, initial value and offset is a sequence of matching instructions
whose operands fit the format as soon as the index spaces do.

Only operations that bring such contents are allowed
(`Operation.Allowed`). Each keeps a draft sound and its index spaces in
place (`Sound.step`), and so does any number of them (`Sound.steps`).
-/

namespace WasmText

/-- Sizes of 32 bits. -/
def Limits.InWords (l : Limits) : Prop := l.min < 2 ^ 32 ∧ ∀ max ∈ l.max, max < 2 ^ 32

namespace Draft

variable {d d' D D' : Draft} {index count : Nat} {bytes : List UInt8}

/-! ## Index spaces only grow -/

/-- Every index space of a draft is where it was, perhaps with more after
it. -/
def Extends (d d' : Draft) : Prop := ∀ s, d.space s <+: d'.space s

theorem Extends.refl (d : Draft) : d.Extends d := fun _ => List.prefix_rfl

theorem Extends.trans {d'' : Draft} (h : d.Extends d') (h' : d'.Extends d'') : d.Extends d'' :=
  fun s => (h s).trans (h' s)

theorem Change.extends {registered : Option Registration} (h : Change d registered d') :
    d.Extends d' := by
  intro s
  cases h with
  | kept space => exact (space s).symm ▸ List.prefix_rfl
  | found space => exact (space s).symm ▸ List.prefix_rfl
  | added space =>
      rw [space]
      exact List.prefix_append _ _

theorem Extends.getElem? (h : d.Extends d') {s : Space} {e : Entity}
    (he : (d.space s)[index]? = some e) : (d'.space s)[index]? = some e := by
  obtain ⟨more, hmore⟩ := h s
  rw [← hmore, List.getElem?_append_left (List.getElem?_eq_some_iff.1 he).1]
  exact he

theorem space_type (d : Draft) : d.space .type = d.types.entries.map .type := by
  rw [space, importsOf_eq_nil (by decide)]
  rfl

/-- The type table is an index space like the others. -/
theorem at?_eq_some {t : FuncType} :
    d.types.at? index = some t ↔ (d.space .type)[index]? = some (.type t) := by
  rw [space_type, TypeTable.at?, List.getElem?_map, Option.map_eq_some_iff]
  simp

theorem Extends.at? (h : d.Extends d') {t : FuncType} (ht : d.types.at? index = some t) :
    d'.types.at? index = some t :=
  at?_eq_some.2 (h.getElem? (at?_eq_some.1 ht))

theorem count_type (d : Draft) : d.types.count = (d.space .type).length := by
  rw [space_type, List.length_map, TypeTable.count]

theorem exists_at? (h : index < d.types.count) : ∃ t, d.types.at? index = some t :=
  ⟨_, List.getElem?_eq_getElem h⟩

/-- A table that grows takes the whole draft along. -/
theorem extends_of_grows {types : TypeTable} (h : d.types.Grows types) :
    d.Extends { d with types } := by
  intro s
  cases s with
  | type =>
      rw [space_type, space_type]
      exact h.isPrefix.map _
  | _ => exact List.prefix_rfl

/-- The entry of a function that is defined here, in the index space. -/
theorem Numbered.space_function (h : d.Numbered) {f : Function}
    (hf : d.functions[index]? = some f) (hdefined : f.imported = false) :
    (d.space .function)[index]? = some (.function f.type) := by
  have hentry : (d.functions.map fun f => (ImportDesc.function f.type, f.imported))[index]? =
      some (.function f.type, false) := by
    rw [List.getElem?_map, hf, Option.map_some, hdefined]
  rw [h.functions] at hentry
  -- the entries of imports are all marked as such
  have hge : (d.importsOf .function).length ≤ index := by
    by_contra hlt
    rw [List.getElem?_append_left (by simpa using hlt), List.getElem?_map] at hentry
    obtain ⟨i, -, hi⟩ := Option.map_eq_some_iff.1 hentry
    exact Bool.noConfusion (Prod.mk.inj hi).2
  rw [List.getElem?_append_right (by simpa using hge), List.length_map, List.getElem?_map] at hentry
  obtain ⟨g, hg, heq⟩ := Option.map_eq_some_iff.1 hentry
  have htype : g.type = f.type := ImportDesc.function.inj (Prod.mk.inj heq).1
  rw [space, List.getElem?_append_right (by simpa using hge), List.length_map, definitions,
    List.getElem?_map, hg, Option.map_some, htype]

/-! ## Compiled instructions -/

/-- Whether instructions can point anywhere into the spaces that they point
into. -/
def Roomy (d : Draft) : Prop := ∀ s ∈ Space.ofOperands, (d.space s).length ≤ 2 ^ 32

theorem Roomy.of_extends (h : d.Extends d') (hr : d'.Roomy) : d.Roomy :=
  fun s hs => (h s).length_le.trans (hr s hs)

/-- The bytes of matching instructions, whose operands fit where there is
room for the indices, the number of locals and the bytes themselves. -/
def Coded (d : Draft) (locals : Nat) (bytes : List UInt8) : Prop :=
  ∃ instrs, Instr.encodeAll instrs = bytes ∧ Nested instrs ∧
    (d.Roomy → locals ≤ 2 ^ 32 → bytes.length < 2 ^ 32 → ∀ i ∈ instrs, i.Fits .format)

theorem Coded.nil (d : Draft) (locals : Nat) : d.Coded locals [] :=
  ⟨[], rfl, .nil, fun _ _ _ => nofun⟩

theorem Coded.of_extends (h : d.Extends d') (hc : d.Coded count bytes) : d'.Coded count bytes := by
  obtain ⟨instrs, hbytes, hn, hfits⟩ := hc
  exact ⟨instrs, hbytes, hn, fun hr => hfits (hr.of_extends h)⟩

theorem Coded.isExpression (hc : d.Coded count bytes) (hr : d.Roomy) (hcount : count ≤ 2 ^ 32)
    (hlen : bytes.length < 2 ^ 32) : IsExpression bytes := by
  obtain ⟨instrs, hbytes, hn, hfits⟩ := hc
  exact ⟨instrs, hn, hfits hr hcount hlen, hbytes⟩

/-- An instruction is no longer than all of them. -/
theorem length_encode_le_encodeAll {i : Instr} {instrs : List Instr} (h : i ∈ instrs) :
    i.encode.length ≤ (Instr.encodeAll instrs).length := by
  obtain ⟨before, after, rfl⟩ := List.append_of_mem h
  simp only [Instr.encodeAll_append, Instr.encodeAll_cons, List.length_append]
  omega

theorem length_le_encodeAll (instrs : List Instr) :
    instrs.length ≤ (Instr.encodeAll instrs).length := by
  induction instrs with
  | nil => exact Nat.zero_le _
  | cons i instrs ih =>
      have := List.length_pos_iff.2 i.encode_ne_nil
      rw [Instr.encodeAll_cons, List.length_append, List.length_cons]
      omega

/-- A branch table takes a byte for each of its targets. -/
theorem length_targets_le {op : Opcode} {targets : List Nat} {default : Nat} :
    targets.length ≤ (Instr.op op (.labels targets default)).encode.length := by
  have hle : targets.length ≤ (Binary.vector Leb128.unsigned targets).length :=
    Binary.length_le_vector fun t _ => Leb128.unsigned_ne_nil t
  simp only [Instr.encode, Immediate.encode, List.length_cons, List.length_append]
  omega

/-- **What is compiled with the names of a draft is coded in it.** -/
theorem coded_of_compileAll [HexReader] {log : List Registration} (h : Consistent (d, log))
    {locals : Locals} {es : List Expr} {instrs : List Instr} {types : TypeTable}
    (hrun : compileAll ⟨d.names, locals, []⟩ es d.types = .ok instrs types) :
    d.Extends { d with types } ∧
      Coded { d with types } locals.length (Instr.encodeAll instrs) := by
  obtain ⟨hgrows, hmarks⟩ := compileAll_linear hrun
  have hextends := extends_of_grows hgrows
  refine ⟨hextends, instrs, rfl, nested_of_linearAll (fun e _ => nested_of_linear [] e) hmarks, ?_⟩
  intro hroomy hlocals hbytes
  have hcount := length_le_encodeAll instrs
  have hrange : InRange .format d.names locals types := by
    refine ⟨fun s hs name i hi => Leb128.holds_of_lt ?_,
      fun i hi => Leb128.holds_of_lt (lt_of_lt_of_le hi hlocals),
      fun i hi => Leb128.holds_of_lt ?_⟩
    · -- names are those from before, and so are the spaces they lead into
      have hlt := h.index?_lt hi
      rw [h.numbered.count_eq] at hlt
      exact lt_of_lt_of_le hlt (hroomy.of_extends hextends s hs)
    · have hroom := hroomy .type (by decide)
      rw [← count_type] at hroom
      exact lt_of_lt_of_le hi hroom
  refine fits_of_scoped hrange (Scoped.linearAll fun e (_ : e ∈ es) => Scoped.linear [] e) hmarks
    (fun depth hdepth => Leb128.holds_of_lt ?_) fun op targets default hi => Leb128.holds_of_lt ?_
  · rw [List.length_nil] at hdepth
    omega
  · have htargets : targets.length ≤ (Instr.op op (.labels targets default)).encode.length :=
      length_targets_le
    have := length_encode_le_encodeAll hi
    omega

/-! ## Contents -/

/-- Whether an import can be written: its type is known, its limits are
words. -/
def Knows (d : Draft) : ImportDesc → Prop
  | .function type => type < d.types.count
  | .memory limits => limits.InWords
  | .global _ => True

/-- What `d` holds can be written, judged by the index spaces of `D`. -/
structure Contents (D d : Draft) : Prop where
  imports : ∀ i ∈ d.imports, D.Knows i.desc
  types : ∀ f ∈ d.functions, f.type < D.types.count
  code : ∀ f ∈ d.functions, f.imported = false → ∀ t, D.types.at? f.type = some t →
    D.Coded (t.params.length + f.code.locals.length) f.code.body
  tables : ∀ l ∈ d.tables, l.InWords
  memories : ∀ l ∈ d.memories, l.InWords
  globals : ∀ g ∈ d.globals, D.Coded 0 g.init
  elements : ∀ e ∈ d.elements, D.Coded 0 e.offset
  data : ∀ s ∈ d.data, D.Coded 0 s.offset

theorem Extends.types_lt (h : d.Extends d') (hi : index < d.types.count) :
    index < d'.types.count := by
  rw [count_type] at hi ⊢
  exact lt_of_lt_of_le hi (h .type).length_le

theorem Extends.knows (h : d.Extends d') {desc : ImportDesc} (hd : d.Knows desc) :
    d'.Knows desc := by
  cases desc with
  | function type => exact h.types_lt hd
  | memory limits => exact hd
  | global type => trivial

namespace Contents

/-- More entries in the index spaces do no harm. -/
theorem of_extends (h : D.Extends D') (hc : Contents D d) : Contents D' d where
  imports i hi := h.knows (hc.imports i hi)
  types f hf := h.types_lt (hc.types f hf)
  code f hf hdefined t ht := by
    obtain ⟨t', ht'⟩ := exists_at? (hc.types f hf)
    obtain rfl : t' = t := Option.some.inj ((h.at? ht').symm.trans ht)
    exact (hc.code f hf hdefined t' ht').of_extends h
  tables := hc.tables
  memories := hc.memories
  globals g hg := (hc.globals g hg).of_extends h
  elements e he := (hc.elements e he).of_extends h
  data s hs := (hc.data s hs).of_extends h

/-- Names do not matter. -/
theorem bind (h : Contents D d) (s : Space) (name : Option String) (index : Nat) :
    Contents D (d.bind s name index) := by
  cases name with
  | none => exact h
  | some name =>
      exact ⟨h.imports, h.types, h.code, h.tables, h.memories, h.globals, h.elements, h.data⟩

end Contents

/-! ## Allowed operations -/

/-- Whether an operation brings something that can be written. Code goes to
a function that is defined here, and counts that function's parameters
among its locals. -/
def Operation.Allowed (d : Draft) : Operation → Prop
  | importFunction _ _ _ type _ => type < d.types.count
  | importMemory _ _ _ limits _ => limits.InWords
  | addFunction _ type => type < d.types.count
  | setCode index code => ∃ type t, (d.space .function)[index]? = some (.function type) ∧
      d.types.at? type = some t ∧ d.Coded (t.params.length + code.locals.length) code.body
  | addTable _ limits => limits.InWords
  | addMemory _ limits _ => limits.InWords
  | addGlobal _ global => d.Coded 0 global.init
  | addElement e => d.Coded 0 e.offset
  | addData s => d.Coded 0 s.offset
  | _ => True

theorem Operation.Allowed.of_extends {op : Operation} (h : d.Extends d') (hop : op.Allowed d) :
    op.Allowed d' := by
  cases op with
  | importFunction => exact h.types_lt hop
  | addFunction => exact h.types_lt hop
  | setCode index code =>
      obtain ⟨type, t, hspace, ht, hcode⟩ := hop
      exact ⟨type, t, h.getElem? hspace, h.at? ht, hcode.of_extends h⟩
  | addGlobal => exact Coded.of_extends h hop
  | addElement => exact Coded.of_extends h hop
  | addData => exact Coded.of_extends h hop
  | importMemory => exact hop
  | addTable => exact hop
  | addMemory => exact hop
  | internType => trivial
  | addType => trivial
  | importGlobal => trivial
  | addExport => trivial
  | setStart => trivial

namespace Contents

/-- Another entry for a function that has no code yet. -/
theorem addFunctionEntry (h : Contents D d) {type : Nat} (ht : type < D.types.count)
    (name : Option String) (imported : Bool) :
    Contents D (d.addFunctionEntry name type imported).2 := by
  refine Contents.bind ?_ _ _ _
  refine ⟨h.imports, ?_, ?_, h.tables, h.memories, h.globals, h.elements, h.data⟩
  · exact List.forall_mem_append.2 ⟨h.types, List.forall_mem_singleton.2 ht⟩
  · exact List.forall_mem_append.2 ⟨h.code, List.forall_mem_singleton.2 fun _ t _ => .nil D _⟩

theorem addImport (h : Contents D d) {i : Import} (hi : D.Knows i.desc) :
    Contents D (d.addImport i) := by
  refine ⟨?_, h.types, h.code, h.tables, h.memories, h.globals, h.elements, h.data⟩
  exact List.forall_mem_append.2 ⟨h.imports, List.forall_mem_singleton.2 hi⟩

/-- Code that fits the function it goes to. -/
theorem setCode (h : Contents D d) (hn : d.Numbered) (hD : d.Extends D) {code : Code}
    (hop : (Operation.setCode index code).Allowed D) : Contents D (d.setCode index code) := by
  obtain ⟨type, t, hspace, ht, hcode⟩ := hop
  have hentry : ∀ f ∈ (d.setCode index code).functions, f ∈ d.functions ∨
      ∃ g, d.functions[index]? = some g ∧ f = { g with code } := by
    intro f hf
    obtain ⟨k, hk⟩ := List.getElem?_of_mem hf
    rw [Draft.setCode, List.getElem?_modify] at hk
    obtain ⟨g, hg, rfl⟩ := Option.map_eq_some_iff.1 hk
    split
    · next heq => exact .inr ⟨g, heq ▸ hg, rfl⟩
    · exact .inl (List.mem_of_getElem? hg)
  refine ⟨h.imports, ?_, ?_, h.tables, h.memories, h.globals, h.elements, h.data⟩
  · intro f hf
    rcases hentry f hf with hmem | ⟨g, hg, rfl⟩
    · exact h.types f hmem
    · exact h.types g (List.mem_of_getElem? hg)
  · intro f hf hdefined t' ht'
    rcases hentry f hf with hmem | ⟨g, hg, rfl⟩
    · exact h.code f hmem hdefined t' ht'
    · -- the entry at the index is the one whose type the code was made for
      have hg' := hD.getElem? (hn.space_function hg hdefined)
      obtain rfl : type = g.type := Entity.function.inj (Option.some.inj (hspace.symm.trans hg'))
      obtain rfl : t = t' := Option.some.inj (ht.symm.trans ht')
      exact hcode

/-- **An allowed operation brings only what can be written.** -/
theorem perform (h : Contents D d) (hn : d.Numbered) (hD : d.Extends D) {op : Operation}
    {registered : Option Registration} (hop : op.Allowed D)
    (hrun : d.perform op = .ok (registered, d')) : Contents D d' := by
  cases op with
  | internType type =>
      obtain ⟨-, rfl⟩ := Prod.mk.inj (Except.ok.inj hrun)
      exact ⟨h.imports, h.types, h.code, h.tables, h.memories, h.globals, h.elements, h.data⟩
  | addType name type =>
      obtain ⟨-, rfl⟩ := Prod.mk.inj (Except.ok.inj hrun)
      refine Contents.bind ?_ _ _ _
      exact ⟨h.imports, h.types, h.code, h.tables, h.memories, h.globals, h.elements, h.data⟩
  | importFunction name module field type span =>
      obtain ⟨⟨index, d₁⟩, himport, hrun⟩ := bind_eq_ok.1 hrun
      obtain ⟨-, rfl⟩ := Prod.mk.inj (pure_eq_ok.1 hrun)
      unfold Draft.importFunction at himport
      split at himport
      · cases himport
      · obtain ⟨-, rfl⟩ := Prod.mk.inj (Except.ok.inj himport)
        exact (h.addImport (i := ⟨module, field, .function type⟩) hop).addFunctionEntry hop name true
  | importMemory name module field limits span =>
      obtain ⟨⟨index, d₁⟩, himport, hrun⟩ := bind_eq_ok.1 hrun
      obtain ⟨-, rfl⟩ := Prod.mk.inj (pure_eq_ok.1 hrun)
      unfold Draft.importMemory at himport
      split at himport
      · cases himport
      · obtain ⟨-, rfl⟩ := Prod.mk.inj (Except.ok.inj himport)
        have h := h.addImport (i := ⟨module, field, .memory limits⟩) hop
        refine Contents.bind ?_ _ _ _
        exact ⟨h.imports, h.types, h.code, h.tables, h.memories, h.globals, h.elements, h.data⟩
  | importGlobal name module field type span =>
      obtain ⟨⟨index, d₁⟩, himport, hrun⟩ := bind_eq_ok.1 hrun
      obtain ⟨-, rfl⟩ := Prod.mk.inj (pure_eq_ok.1 hrun)
      unfold Draft.importGlobal at himport
      split at himport
      · cases himport
      · obtain ⟨-, rfl⟩ := Prod.mk.inj (Except.ok.inj himport)
        have h := h.addImport (i := ⟨module, field, .global type⟩) trivial
        refine Contents.bind ?_ _ _ _
        exact ⟨h.imports, h.types, h.code, h.tables, h.memories, h.globals, h.elements, h.data⟩
  | addFunction name type =>
      obtain ⟨-, rfl⟩ := Prod.mk.inj (Except.ok.inj hrun)
      exact h.addFunctionEntry hop name false
  | setCode index code =>
      obtain ⟨-, rfl⟩ := Prod.mk.inj (Except.ok.inj hrun)
      exact h.setCode hn hD hop
  | addTable name limits =>
      obtain ⟨-, rfl⟩ := Prod.mk.inj (Except.ok.inj hrun)
      have htables := List.forall_mem_append.2 ⟨h.tables, List.forall_mem_singleton.2 hop⟩
      refine Contents.bind ?_ _ _ _
      exact ⟨h.imports, h.types, h.code, htables, h.memories, h.globals, h.elements, h.data⟩
  | addMemory name limits span =>
      obtain ⟨⟨index, d₁⟩, hadd, hrun⟩ := bind_eq_ok.1 hrun
      obtain ⟨-, rfl⟩ := Prod.mk.inj (pure_eq_ok.1 hrun)
      unfold Draft.addMemory at hadd
      split at hadd
      · cases hadd
      · obtain ⟨-, rfl⟩ := Prod.mk.inj (Except.ok.inj hadd)
        have hmemories := List.forall_mem_append.2 ⟨h.memories, List.forall_mem_singleton.2 hop⟩
        refine Contents.bind ?_ _ _ _
        exact ⟨h.imports, h.types, h.code, h.tables, hmemories, h.globals, h.elements, h.data⟩
  | addGlobal name global =>
      obtain ⟨-, rfl⟩ := Prod.mk.inj (Except.ok.inj hrun)
      have hglobals := List.forall_mem_append.2 ⟨h.globals, List.forall_mem_singleton.2 hop⟩
      refine Contents.bind ?_ _ _ _
      exact ⟨h.imports, h.types, h.code, h.tables, h.memories, hglobals, h.elements, h.data⟩
  | addExport e =>
      obtain ⟨-, rfl⟩ := Prod.mk.inj (Except.ok.inj hrun)
      exact ⟨h.imports, h.types, h.code, h.tables, h.memories, h.globals, h.elements, h.data⟩
  | setStart target =>
      obtain ⟨-, rfl⟩ := Prod.mk.inj (Except.ok.inj hrun)
      exact ⟨h.imports, h.types, h.code, h.tables, h.memories, h.globals, h.elements, h.data⟩
  | addElement e =>
      obtain ⟨-, rfl⟩ := Prod.mk.inj (Except.ok.inj hrun)
      have helements := List.forall_mem_append.2 ⟨h.elements, List.forall_mem_singleton.2 hop⟩
      exact ⟨h.imports, h.types, h.code, h.tables, h.memories, h.globals, helements, h.data⟩
  | addData s =>
      obtain ⟨-, rfl⟩ := Prod.mk.inj (Except.ok.inj hrun)
      have hdata := List.forall_mem_append.2 ⟨h.data, List.forall_mem_singleton.2 hop⟩
      exact ⟨h.imports, h.types, h.code, h.tables, h.memories, h.globals, h.elements, hdata⟩

end Contents

/-! ## Sound drafts -/

/-- A draft that agrees with a log, and holds what can be written. -/
structure Sound (d : Draft) : Prop where
  consistent : ∃ log, Consistent (d, log)
  contents : Contents d d

theorem Sound.empty : Sound .empty where
  consistent := ⟨[], .empty⟩
  contents := ⟨nofun, nofun, nofun, nofun, nofun, nofun, nofun, nofun⟩

/-- An allowed operation that is not refused. -/
def Advance (d d' : Draft) : Prop :=
  ∃ op registered, op.Allowed d ∧ d.perform op = .ok (registered, d')

/-- Any number of allowed operations. -/
def Steps : Draft → Draft → Prop := Relation.ReflTransGen Advance

/-- **An allowed operation keeps a draft sound**, and every entry of an
index space where it was. -/
theorem Sound.step (h : d.Sound) (hstep : Advance d d') : d'.Sound ∧ d.Extends d' := by
  obtain ⟨op, registered, hop, hrun⟩ := hstep
  obtain ⟨log, hlog⟩ := h.consistent
  have hextends := (hlog.numbered.perform hrun).1.extends
  have hlog' := hlog.step op
  rw [Logged.step, hrun] at hlog'
  -- what was there before is judged by the spaces after the step, as what is new
  have hcontents : Contents d' d := h.contents.of_extends hextends
  exact ⟨⟨⟨_, hlog'⟩, hcontents.perform hlog.numbered hextends (hop.of_extends hextends) hrun⟩,
    hextends⟩

/-- **Any number of allowed operations keep a draft sound.** -/
theorem Sound.steps (h : d.Sound) (hsteps : Steps d d') : d'.Sound ∧ d.Extends d' := by
  induction hsteps with
  | refl => exact ⟨h, .refl d⟩
  | tail _ hstep ih =>
      obtain ⟨hsound, hextends⟩ := ih
      obtain ⟨hsound', hextends'⟩ := hsound.step hstep
      exact ⟨hsound', hextends.trans hextends'⟩

end Draft

end WasmText
