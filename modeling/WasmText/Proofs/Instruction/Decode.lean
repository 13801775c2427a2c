import WasmText.Literal.Hexadecimal
import WasmText.Proofs.Instruction.Scope
import WasmText.Proofs.Literal.Integer
/-!
# Bodies read back

The bytes of a compiled body, read instruction by instruction with nothing
but the table of opcodes, give the linear form of its trees. A reader
without limits on the size of numbers needs no condition
(`compileAll_reads_back`). The format does limit them, to words of 32 and
64 bits, and there too every operand fits: literals are checked when they
are read, and an index is within the space it points into.
-/

namespace WasmText

/-! ## Numbers -/

namespace Leb128

variable {w : Widths}

/-- A number below `2 ^ 32` fits where the format limits it, and where
nothing does. -/
theorem holds_of_lt {n : Nat} (h : n < 2 ^ 32) : Holds (w.limit 32) n := by
  cases w with
  | any => nofun
  | format => simpa [Holds, Widths.limit] using h

theorem holdsSigned_of_bounds {width : Nat} {v : Int} (hlow : -2 ^ (width - 1) ≤ v)
    (hhigh : v < 2 ^ (width - 1)) : HoldsSigned (w.limit width) v := by
  cases w with
  | any => nofun
  | format => simpa [HoldsSigned, Widths.limit] using ⟨hlow, hhigh⟩

end Leb128

/-! ## Operands fit -/

/-- The alignment that an instruction has by nature is small. -/
theorem Opcode.alignment_lt {op : Opcode} (h : op ∈ all) {alignment : Nat}
    (hs : op.shape = .access alignment) : alignment < 4 := by
  have hall : all.all (fun op => match op.shape with
      | .access alignment => alignment < 4
      | _ => true) = true := by
    decide +kernel
  simpa [hs] using List.all_eq_true.1 hall op h

/-- The spaces of the module that instructions point into by name. -/
def Space.ofOperands : List Space := [.type, .function, .global]

/-- Whether every index fits that a name or a signature can lead to. -/
structure InRange (w : Widths) (names : Names) (locals : Locals) (table : TypeTable) : Prop where
  names : ∀ space ∈ Space.ofOperands, ∀ name i, names.index? space name = some i →
    Leb128.Holds (w.limit 32) i
  locals : ∀ i < locals.length, Leb128.Holds (w.limit 32) i
  table : ∀ i < table.count, Leb128.Holds (w.limit 32) i

theorem InRange.any (names : Names) (locals : Locals) (table : TypeTable) :
    InRange .any names locals table :=
  ⟨fun _ _ _ _ _ => nofun, fun _ _ => nofun, fun _ _ => nofun⟩

theorem Locals.index?_lt {locals : Locals} {name : String} {i : Nat}
    (h : locals.index? name = some i) : i < locals.length := by
  obtain ⟨k, hk, rfl⟩ := Option.map_eq_some_iff.1 h
  have : k < locals.reverse.length := (List.idxOf?_eq_some_iff.1 hk).1
  simp only [List.length_reverse] at this
  omega

theorem Labels.depth?_lt {labels : Labels} {name : String} {d : Nat}
    (h : labels.depth? name = some d) : d < labels.length :=
  (List.idxOf?_eq_some_iff.1 h).1

section

variable {w : Widths} {names : Names} {locals : Locals} {table : TypeTable} {labels : Labels}
variable {n : Node} {shape : Shape} {i : Nat}

theorem Param.index?_holds {p : Param} {lookup : String → Option Nat}
    (hlookup : ∀ name i, lookup name = some i → Leb128.Holds (w.limit 32) i)
    (h : p.index? lookup = some i) : Leb128.Holds (w.limit 32) i := by
  obtain ⟨arg, span⟩ := p
  cases arg with
  | label name => exact hlookup name i h
  | number text => exact Leb128.holds_of_lt (Literal.natural?_lt h)
  | hex text => exact Leb128.holds_of_lt (Literal.natural?_lt h)
  | str bytes => cases h
  | keyword key value => cases h

theorem lastValue?_lt {key : Keyword} {args : List Param} (h : lastValue? key args = some i) :
    i < 2 ^ 32 := by
  obtain ⟨p, -, hp⟩ := List.mem_filterMap.1 (List.mem_of_getLast? h)
  unfold Param.valueOf? at hp
  split at hp
  · split at hp
    · exact Literal.natural?_lt hp
    · cases hp
  · cases hp

theorem Node.used?_holds (hr : InRange w names locals table) (h : n.used? names = some i) :
    Leb128.Holds (w.limit 32) i := by
  unfold used? at h
  split at h
  · exact Param.index?_holds (hr.names .type (by decide)) h
  · cases h

theorem Node.typeIndex?_holds (hr : InRange w names locals table)
    (h : n.typeIndex? names table = some i) : Leb128.Holds (w.limit 32) i := by
  unfold typeIndex? at h
  split at h
  · exact used?_holds hr h
  · obtain ⟨type, -, hi⟩ := Option.bind_eq_some_iff.1 h
    exact hr.table i (TypeTable.lt_count_of_idxOf? hi)

theorem Node.blockType?_fits {b : BlockType} (hr : InRange w names locals table)
    (h : n.blockType? names table = some b) : (Immediate.block b).Fits w .structured := by
  unfold blockType? at h
  split at h
  · obtain ⟨i, hi, rfl⟩ := Option.map_eq_some_iff.1 h
    exact used?_holds hr hi
  · obtain ⟨type, -, h⟩ := Option.bind_eq_some_iff.1 h
    split at h
    · obtain rfl := Option.some.inj h
      trivial
    · obtain rfl := Option.some.inj h
      trivial
    · obtain ⟨i, hi, rfl⟩ := Option.map_eq_some_iff.1 h
      exact hr.table i (TypeTable.lt_count_of_idxOf? hi)

/-- **Every operand fits**, where the indices do that names, labels and
signatures lead to. -/
theorem Mark.operand?_fits [HexReader] {imm : Immediate} (hr : InRange w names locals table)
    (hlabels : ∀ d < labels.length, Leb128.Holds (w.limit 32) d)
    (hnatural : ∀ alignment, shape = .access alignment → alignment < 4)
    (hlen : ∀ targets default, imm = .labels targets default →
      Leb128.Holds (w.limit 32) targets.length)
    (h : operand? names locals table labels n shape = some imm) : imm.Fits w shape := by
  have hdepth : ∀ name d, labels.depth? name = some d → Leb128.Holds (w.limit 32) d :=
    fun name d hd => hlabels d (Labels.depth?_lt hd)
  have hlocal : ∀ name i, locals.index? name = some i → Leb128.Holds (w.limit 32) i :=
    fun name i hi => hr.locals i (Locals.index?_lt hi)
  unfold operand? at h
  split at h
  · obtain rfl := Option.some.inj h
    trivial
  · obtain ⟨b, hb, rfl⟩ := Option.map_eq_some_iff.1 h
    exact Node.blockType?_fits hr hb
  · obtain ⟨d, hd, rfl⟩ := Option.map_eq_some_iff.1 h
    exact Param.index?_holds hdepth hd
  · obtain ⟨depths, hdepths, h⟩ := Option.bind_eq_some_iff.1 h
    obtain ⟨last, hlast, h⟩ := Option.bind_eq_some_iff.1 h
    obtain rfl := Option.some.inj h
    have hall : ∀ d ∈ depths, Leb128.Holds (w.limit 32) d := by
      intro d hd
      obtain ⟨p, -, hp⟩ := exists_of_mem_mapM hdepths hd
      exact Param.index?_holds hdepth hp
    exact ⟨hlen _ _ rfl, fun d hd => hall d (List.dropLast_subset _ hd),
      hall last (List.mem_of_getLast? hlast)⟩
  · obtain ⟨i, hi, rfl⟩ := Option.map_eq_some_iff.1 h
    exact Param.index?_holds (hr.names .function (by decide)) hi
  · obtain ⟨i, hi, rfl⟩ := Option.map_eq_some_iff.1 h
    exact Node.typeIndex?_holds hr hi
  · obtain ⟨i, hi, rfl⟩ := Option.map_eq_some_iff.1 h
    exact Param.index?_holds (hr.names .type (by decide)) hi
  · obtain ⟨i, hi, rfl⟩ := Option.map_eq_some_iff.1 h
    exact Param.index?_holds hlocal hi
  · obtain ⟨i, hi, rfl⟩ := Option.map_eq_some_iff.1 h
    exact Param.index?_holds (hr.names .global (by decide)) hi
  · next natural =>
      obtain rfl := Option.some.inj h
      refine ⟨Leb128.holds_of_lt ?_, Leb128.holds_of_lt ?_⟩
      · cases hlast : lastValue? .align n.arguments with
        | none =>
            have := hnatural natural rfl
            simp only [Option.map_none, Option.getD_none]
            omega
        | some bytes => exact lt_of_le_of_lt (Nat.log2_le_self bytes) (lastValue?_lt hlast)
      · cases hlast : lastValue? .offset n.arguments with
        | none => exact Nat.two_pow_pos 32
        | some offset => exact lastValue?_lt hlast
  · obtain rfl := Option.some.inj h
    trivial
  · obtain ⟨v, hv, rfl⟩ := Option.map_eq_some_iff.1 h
    obtain ⟨text, -, hv⟩ := Option.bind_eq_some_iff.1 hv
    obtain ⟨hlow, hhigh⟩ := Literal.word?_bounds (by decide) hv
    exact Leb128.holdsSigned_of_bounds hlow hhigh
  · obtain ⟨v, hv, rfl⟩ := Option.map_eq_some_iff.1 h
    obtain ⟨text, -, hv⟩ := Option.bind_eq_some_iff.1 hv
    obtain ⟨hlow, hhigh⟩ := Literal.word?_bounds (by decide) hv
    exact Leb128.holdsSigned_of_bounds hlow hhigh
  · obtain ⟨bits, -, rfl⟩ := Option.map_eq_some_iff.1 h
    trivial
  · obtain ⟨bits, -, rfl⟩ := Option.map_eq_some_iff.1 h
    trivial
  · cases h

/-- **Every instruction of a linear form fits**, where the indices do. -/
theorem fits_of_scoped [HexReader] {labels' : Labels} {marks : List Mark} {code : List Instr}
    (hr : InRange w names locals table) (hs : Scoped labels marks labels')
    (h : marks.mapM (Mark.instr? names locals table) = some code)
    (hlabels : ∀ d < labels.length + code.length, Leb128.Holds (w.limit 32) d)
    (hlen : ∀ op targets default, .op op (.labels targets default) ∈ code →
      Leb128.Holds (w.limit 32) targets.length) :
    ∀ i ∈ code, i.Fits w := by
  intro i hi
  obtain ⟨k, hk⟩ := List.getElem?_of_mem hi
  have hlt : k < code.length := (List.getElem?_eq_some_iff.1 hk).1
  rw [getElem?_of_mapM h k] at hk
  obtain ⟨m, hm, hi'⟩ := Option.bind_eq_some_iff.1 hk
  cases m with
  | instr op n around =>
      obtain ⟨imm, himm, rfl⟩ := instr?_instr.1 hi'
      obtain ⟨hop, rfl⟩ := hs.at_mark hm
      have hmem := Opcode.mem_all_of_ofName? hop
      -- each instruction before this one puts at most one label around it
      refine ⟨hmem, Mark.operand?_fits hr (fun d hd => hlabels d ?_)
        (fun alignment => Opcode.alignment_lt hmem) (fun targets default himm => ?_) himm⟩
      · have := Mark.length_scope_le labels (marks.take k)
        have := List.length_take_le k marks
        omega
      · subst himm
        exact hlen op targets default hi
  | otherwise =>
      obtain rfl := Option.some.inj hi'
      exact Instr.fits_otherwise w
  | close =>
      obtain rfl := Option.some.inj hi'
      exact Instr.fits_close w
  | stray => cases hi'

end

/-! ## Bodies -/

/-- Compiled instructions read back, whatever their operands. -/
theorem many_of_compileAll [HexReader] {env : Env} {es : List Expr} {t t' : TypeTable}
    {instrs : List Instr} (h : compileAll env es t = .ok instrs t') :
    (Reader.instr .any).many (Instr.encodeAll instrs) = some instrs := by
  have hscoped := Scoped.linearAll fun e (_ : e ∈ es) => Scoped.linear env.labels e
  exact Reader.many_encodeAll (fits_of_scoped (.any _ _ _) hscoped (compileAll_linear h).2
    (fun _ _ => nofun) fun _ _ _ _ => nofun)

/-- **A compiled body reads back as the linear form of its trees.** Read
without limits this holds of every body. Read with the widths of the
format, it holds where the names, the locals, the type table, the labels
and the branch tables stay below `2 ^ 32`. -/
theorem compileAll_reads_back [HexReader] {env : Env} {es : List Expr} {t t' : TypeTable}
    {instrs : List Instr} (h : compileAll env es t = .ok instrs t') :
    (Reader.instr .any).many (Instr.encodeAll instrs) = some instrs ∧
      (Expr.linearAll env.labels es).mapM (Mark.instr? env.names env.locals t') = some instrs ∧
      Nested instrs ∧
      (InRange .format env.names env.locals t' → env.labels.length + instrs.length ≤ 2 ^ 32 →
        (∀ op targets default, .op op (.labels targets default) ∈ instrs →
          targets.length < 2 ^ 32) →
        (Reader.instr .format).many (Instr.encodeAll instrs) = some instrs) := by
  obtain ⟨-, hmarks⟩ := compileAll_linear h
  have hscoped := Scoped.linearAll fun e (_ : e ∈ es) => Scoped.linear env.labels e
  refine ⟨?_, hmarks, nested_of_linearAll (fun e _ => nested_of_linear env.labels e) hmarks, ?_⟩
  · exact Reader.many_encodeAll
      (fits_of_scoped (.any _ _ _) hscoped hmarks (fun _ _ => nofun) fun _ _ _ _ => nofun)
  · intro hr hdepth hlen
    refine Reader.many_encodeAll (fits_of_scoped hr hscoped hmarks (fun d hd => ?_) ?_)
    · exact Leb128.holds_of_lt (by omega)
    · exact fun op targets default hi => Leb128.holds_of_lt (hlen op targets default hi)

/-- A body that branches into and out of a block, and calls through a
table by a signature that only the call spells out. -/
def branchingBody : List Expr :=
  let leaf (instr : String) (arg : Argument) : Expr := .node ⟨instr, none, [⟨arg, .zero⟩], .zero⟩ []
  let types (part : String) : Expr := .node (.plain part .zero) [.node (.plain "i32" .zero) []]
  [.node ⟨"block", some ⟨"l", .zero⟩, [], .zero⟩
    [types "result",
      .node ⟨"br_table", some ⟨"l", .zero⟩, [⟨.label "outer", .zero⟩, ⟨.number "1", .zero⟩], .zero⟩
        [leaf "i32.const" (.number "-5"), leaf "local.get" (.label "x")]],
    .node (.plain "call_indirect" .zero) [types "param", types "result", leaf "call" (.label "f")]]

/-- What `branchingBody` comes to inside a construct named `outer`. -/
def branchingCode : List Instr :=
  [.op ⟨"block", 0x02, .structured⟩ (.block (.value .i32)),
    .op ⟨"i32.const", 0x41, .i32⟩ (.i32 (-5)), .op ⟨"local.get", 0x20, .local⟩ (.index 0),
    .op ⟨"br_table", 0x0E, .labels⟩ (.labels [0, 1] 1), .close,
    .op ⟨"call", 0x10, .function⟩ (.index 3), .op ⟨"call_indirect", 0x11, .indirect⟩ (.indirect 0)]

theorem compileAll_reads_back_branching :
    compileAll ⟨⟨[((.function, "f"), 3)]⟩, [some "x"], [some "outer"]⟩ branchingBody .empty =
        .ok branchingCode (.ofEntries [⟨[.i32], [.i32]⟩]) ∧
      (Reader.instr .format).many (Instr.encodeAll branchingCode) = some branchingCode := by
  have h : compileAll ⟨⟨[((.function, "f"), 3)]⟩, [some "x"], [some "outer"]⟩ branchingBody .empty =
      .ok branchingCode (.ofEntries [⟨[.i32], [.i32]⟩]) := rfl
  refine ⟨h, (compileAll_reads_back h).2.2.2 ⟨?_, ?_, ?_⟩ (by decide) ?_⟩
  · intro space _ name i hi
    obtain ⟨binding, hbinding, rfl⟩ := Option.map_eq_some_iff.1 hi
    obtain rfl := List.mem_singleton.1 (List.mem_of_find?_eq_some hbinding)
    exact Leb128.holds_of_lt (by decide)
  · exact fun i hi => Leb128.holds_of_lt (lt_trans hi (by decide))
  · exact fun i hi => Leb128.holds_of_lt (lt_trans hi (by decide))
  · intro op targets default hi
    obtain ⟨-, rfl, -⟩ : _ ∧ targets = [0, 1] ∧ default = 1 := by simpa [branchingCode] using hi
    decide

end WasmText
