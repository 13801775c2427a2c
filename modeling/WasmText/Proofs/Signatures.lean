import WasmText.Proofs.Module.Declared
/-!
# Type indices stand for signatures

A type index is written when its signature is met, and the type table goes
on growing behind it. In the finished module every type index stands for
the signature that its form has in the source (`BinaryModule.Typed`): of
an imported or a defined function, of a block, and of an indirect call, in
a function or in an expression outside.
-/

namespace WasmText

/-! ## Modules -/

/-- A module whose type indices all stand for the signatures of a source,
kind by kind and in order. -/
structure BinaryModule.Typed (m : BinaryModule) (n : Node) : Prop where
  imports : List.Forall₂ (Node.Signed m.types (n.typeNames m.types))
    (n.childNodes.filterMap Node.importedFunction?) (m.imports.filterMap (·.desc.functionType?))
  functions : List.Forall₂ (Node.Signed m.types (n.typeNames m.types))
    (n.childNodes.filter Node.definesFunction) m.functions
  code : List.Forall₂
    (fun form c => Expr.Codes m.types (n.typeNames m.types) form.instructions c.body)
    (n.childNodes.filter Node.definesFunction) m.code
  globals : List.Forall₂ (fun es g => Expr.Codes m.types (n.typeNames m.types) es g.init)
    (n.childNodes.filterMap Node.initial?) m.globals
  elements : List.Forall₂ (fun es s => Expr.Codes m.types (n.typeNames m.types) es s.offset)
    (n.childNodes.filterMap (Node.offset? "elem")) m.elements
  data : List.Forall₂ (fun es s => Expr.Codes m.types (n.typeNames m.types) es s.offset)
    (n.childNodes.filterMap (Node.offset? "data")) m.data

theorem Import.functionType?_written (i : Import) :
    i.written.desc.functionType? = i.desc.functionType? := by
  obtain ⟨module, field, desc⟩ := i
  cases desc with
  | function => rfl
  | memory => rfl
  | global => rfl

/-- The code of a function that is defined as its form says. -/
theorem Node.Defines.codes [HexReader] {types : List FuncType} {named : TypeNames} {names : Names}
    (hnames : names.Mean types named) {form : Node} {f : Function}
    (h : form.Defines types named names f) :
    Expr.Codes types named form.instructions f.code.body := by
  obtain ⟨-, b, hdefers, -, t, t', instrs, hcompile, hfinal, hbytes⟩ := h
  rw [← hbytes, ← hdefers.body]
  exact Expr.codes_of_compileAll rfl hnames hfinal hcompile

/-- **What a draft holds is written.** -/
theorem Draft.Declares.typed [HexReader] {d : Draft} {m : BinaryModule} {n : Node}
    (hd : d.Declares m)
    (h : d.Holds d.types.entries (n.typeNames d.types.entries) n) : m.Typed n := by
  have himports : m.imports.filterMap (·.desc.functionType?) =
      d.imports.filterMap (·.desc.functionType?) := by
    rw [hd.imports, List.filterMap_map]
    exact List.filterMap_congr fun i _ => i.functionType?_written
  have helements : m.elements.map (·.offset) = d.elements.map (·.offset) := by
    have hsame : List.Forall₂ (fun e s => e = s) (d.elements.map (·.offset))
        (m.elements.map (·.offset)) := by
      rw [List.forall₂_map_left_iff, List.forall₂_map_right_iff]
      exact hd.elements.imp fun e s hs => hs.1.symm
    exact (List.forall₂_eq_eq_eq ▸ hsame : _ = _).symm
  rw [← hd.types] at h
  refine ⟨?_, ?_, ?_, ?_, ?_, ?_⟩
  · rw [himports]
    exact h.imported
  · rw [hd.functions, List.forall₂_map_right_iff]
    exact h.defined.imp fun form f hf => hf.1
  · rw [hd.code, List.forall₂_map_right_iff]
    exact h.defined.imp fun form f hf => hf.codes h.mean
  · rw [hd.globals]
    exact List.forall₂_map_right_iff.1 h.initials
  · have hoffsets := h.elements
    rw [← helements] at hoffsets
    exact List.forall₂_map_right_iff.1 hoffsets
  · rw [hd.data]
    exact List.forall₂_map_right_iff.1 h.data

/-! ## Sources -/

/-- **Every type index stands for the signature written for it.** The
bytes of a source that compiles are those of a module, which is also what
they are read back as where there is room. In it the entry at each type
index is the signature of the form that the index was written for. -/
theorem type_indices_stand [HexReader] {source : String} {bytes : List UInt8}
    (h : compile source = .ok bytes) :
    ∃ n d m, parse source = .ok n ∧ Draft.ofNode n = .ok d ∧ m.encode = bytes ∧
      (bytes.length < 2 ^ 32 → d.LocalsFit → readModule bytes = some m) ∧ m.Typed n := by
  obtain ⟨n, d, m, hparse, hdraft, hdeclares, hbytes, hreads⟩ := exists_of_compile h
  exact ⟨n, d, m, hparse, hdraft, hbytes, hreads, hdeclares.typed (Draft.ofNode_holds hdraft)⟩

/-- A type used before its field, by an import and by a function. The
body of the function registers another one. -/
def growingSource : String :=
  "(import \"m\" \"f\" (func (type $t))) (type $t (func (param i32))) " ++
  "(func (type $t) (block (result i32 i32)) (call_indirect $t))"

def growingBytes : List UInt8 :=
  [0x00, 0x61, 0x73, 0x6D, 0x01, 0x00, 0x00, 0x00,
    1, 10, 2, 0x60, 1, 0x7F, 0, 0x60, 0, 2, 0x7F, 0x7F,
    2, 7, 1, 1, 0x6D, 1, 0x66, 0x00, 0,
    3, 2, 1, 0,
    10, 10, 1, 8, 0, 0x02, 1, 0x0B, 0x11, 0, 0, 0x0B]

theorem type_indices_stand_growing :
    compile growingSource = .ok growingBytes ∧ growingBytes.length < 2 ^ 32 ∧
      ∃ n d m, parse growingSource = .ok n ∧ Draft.ofNode n = .ok d ∧ d.LocalsFit ∧
        readModule growingBytes = some m ∧ m.Typed n := by
  have hcompile : compile growingSource = .ok growingBytes := by decide +kernel
  have hlocals : ((parse growingSource).toOption.bind fun n => (Draft.ofNode n).toOption).all
      (fun d => d.LocalsFit) = true := by
    decide +kernel
  obtain ⟨n, d, m, hparse, hdraft, -, hreads, htyped⟩ := type_indices_stand hcompile
  have hfit := localsFit_of_all hparse hdraft hlocals
  exact ⟨hcompile, by decide, n, d, m, hparse, hdraft, hfit, hreads (by decide) hfit, htyped⟩

/-- A second branch is passed over, and in it a block that names one
signature and spells out another. -/
def passedOverBlock : String :=
  "(type $t (func)) (func (if (i32.const 0) (then) (then (block (type $t) (param i32)))))"

theorem passedOverBlock_compiles :
    compile passedOverBlock = .ok [0x00, 0x61, 0x73, 0x6D, 0x01, 0x00, 0x00, 0x00, 1, 4, 1, 0x60, 0,
        0, 3, 2, 1, 0, 10, 9, 1, 7, 0, 0x41, 0, 0x04, 0x40, 0x0B, 0x0B] ∧
      ((parse passedOverBlock).toOption.bind fun n =>
        ((n.toExpr.descend? [1, 0, 2, 0]).bind Expr.node?).map fun block =>
          (block.signature? [⟨[], []⟩] (n.typeNames [⟨[], []⟩]), block.written?)) =
        some (some ⟨[], []⟩, some ⟨[.i32], []⟩) := by
  decide +kernel

end WasmText
