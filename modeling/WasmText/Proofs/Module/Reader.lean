import WasmText.Module.Binary
import WasmText.Proofs.Instruction.Reader
/-!
# Reading modules

A reader of the binary format, written down from the format: the magic
number and the version, then sections of an identifier, a size and a
payload, with identifiers that only go up, and in each payload a vector.
Expressions are read instruction by instruction up to their own end, with
numbers of the widths that the format gives them.

A module whose numbers fit reads back as it was written
(`readModule_encode`). What the format cannot say is lost: limits without
a maximum are never shared.
-/

namespace WasmText

/-! ## Readers of items -/

namespace Reader

variable {α : Type}

/-- Reads all of a vector of bytes. -/
def within (r : Reader α) : Reader α := do
  match r.whole (← byteVector) with
  | some a => return a
  | none => failure

def funcType : Reader FuncType := do
  exactly 0x60
  return ⟨← vector u32 valType, ← vector u32 valType⟩

def limits : Reader Limits := do
  let flags ← byte
  if flags = 0x00 then return ⟨← u32, none, false⟩
  else if flags = 0x01 then return ⟨← u32, some (← u32), false⟩
  else if flags = 0x03 then return ⟨← u32, some (← u32), true⟩
  else failure

def globalType : Reader GlobalType := do
  let type ← valType
  let flag ← byte
  if flag = 0x00 then return ⟨type, false⟩
  else if flag = 0x01 then return ⟨type, true⟩
  else failure

def importDesc : Reader ImportDesc := do
  let kind ← byte
  if kind = 0x00 then return .function (← u32)
  else if kind = 0x02 then return .memory (← limits)
  else if kind = 0x03 then return .global (← globalType)
  else failure

def importItem : Reader Import := do
  return ⟨← name, ← name, ← importDesc⟩

/-- The one reference type. -/
def table : Reader Limits := do
  exactly 0x70
  limits

def global : Reader Global := do
  return ⟨← globalType, ← expression .format⟩

def exportKind : Reader ExportKind := do
  let kind ← byte
  if kind = 0x00 then return .function
  else if kind = 0x01 then return .table
  else if kind = 0x02 then return .memory
  else if kind = 0x03 then return .global
  else failure

def exportItem : Reader (String × ExportKind × Nat) := do
  return (← name, ← exportKind, ← u32)

/-- A segment for table or memory 0. -/
def segment (contents : Reader (List α)) : Reader (Segment α) := do
  exactly 0x00
  return ⟨← expression .format, ← contents⟩

/-- A number of locals of one type. -/
def localRun : Reader (Nat × ValType) := do
  return (← u32, ← valType)

def code : Reader Code := within do
  let runs ← vector u32 localRun
  return ⟨runs.flatMap fun (count, type) => List.replicate count type, ← expression .format⟩

/-- The identifier and the contents of a section. -/
def sectionItem : Reader (UInt8 × List UInt8) := do
  return (← byte, ← byteVector)

end Reader

/-! ## The reader of modules -/

/-- The sections after the magic number and version 1, up to the last
byte. -/
def readSections : List UInt8 → Option (List (UInt8 × List UInt8))
  | 0x00 :: 0x61 :: 0x73 :: 0x6D :: 0x01 :: 0x00 :: 0x00 :: 0x00 :: bytes =>
    Reader.sectionItem.many bytes
  | _ => none

/-- The items of a section. A section that is not there has none. -/
def readItems {α : Type} (sections : List (UInt8 × List UInt8)) (id : UInt8) (item : Reader α) :
    Option (List α) :=
  match sections.lookup id with
  | some payload => (Reader.vector Reader.u32 item).whole payload
  | none => some []

/-- The start function, if there is a section for it. -/
def readStart (sections : List (UInt8 × List UInt8)) : Option (Option Nat) :=
  match sections.lookup 8 with
  | some payload => (Reader.u32.whole payload).map some
  | none => some none

/-- A module from its bytes, all of which must belong to it. -/
def readModule (bytes : List UInt8) : Option BinaryModule := do
  let sections ← readSections bytes
  guard ((sections.map (·.1)).Pairwise (· < ·) ∧ ∀ s ∈ sections, 1 ≤ s.1 ∧ s.1 ≤ 11)
  let functions ← readItems sections 3 Reader.u32
  let code ← readItems sections 10 Reader.code
  guard (functions.length = code.length)
  return {
    types := ← readItems sections 1 Reader.funcType
    imports := ← readItems sections 2 Reader.importItem
    functions
    tables := ← readItems sections 4 Reader.table
    memories := ← readItems sections 5 Reader.limits
    globals := ← readItems sections 6 Reader.global
    exports := ← readItems sections 7 Reader.exportItem
    start := ← readStart sections
    elements := ← readItems sections 9 (.segment (.vector .u32 .u32))
    code
    data := ← readItems sections 11 (.segment .byteVector) }

theorem Limits.encode_ne_nil (l : Limits) : l.encode ≠ [] := by
  rw [encode]
  split <;> exact List.cons_ne_nil _ _

theorem Import.encode_ne_nil (i : Import) : i.encode ≠ [] := by
  cases i with
  | mk module field desc =>
      cases desc <;> exact List.append_ne_nil_of_right_ne_nil _ (List.cons_ne_nil _ _)

theorem Code.encode_ne_nil (c : Code) : c.encode ≠ [] :=
  List.append_ne_nil_of_left_ne_nil (Leb128.unsigned_ne_nil _) _

/-! ## What reads back -/

/-- Sizes of 32 bits, and shared only with a maximum. -/
def Limits.Fits (l : Limits) : Prop :=
  l.min < 2 ^ 32 ∧ (∀ max ∈ l.max, max < 2 ^ 32) ∧ (l.shared → l.max.isSome)

def ImportDesc.Fits : ImportDesc → Prop
  | function type => type < 2 ^ 32
  | memory limits => limits.Fits
  | global _ => True

/-- The bytes of matching instructions with operands of the widths of the
format. -/
def IsExpression (bytes : List UInt8) : Prop :=
  ∃ instrs, Nested instrs ∧ (∀ i ∈ instrs, i.Fits .format) ∧ Instr.encodeAll instrs = bytes

/-- An expression reads back up to the byte that ends it. -/
theorem IsExpression.reads {bytes : List UInt8} (h : IsExpression bytes) :
    Reads (Reader.expression .format) (encodeExpression bytes) bytes := by
  obtain ⟨instrs, hn, hfits, rfl⟩ := h
  exact Reads.expression hn hfits

/-! ## Runs of locals -/

/-- **The runs of some locals spell them out.** -/
theorem flatMap_localRuns (types : List ValType) :
    ((localRuns types).flatMap fun (count, type) => List.replicate count type) = types := by
  induction types with
  | nil => rfl
  | cons t ts ih =>
      rw [localRuns]
      split
      next n u runs hruns =>
        rw [hruns, List.flatMap_cons] at ih
        split
        next heq =>
          rw [List.flatMap_cons, heq]
          exact congrArg (u :: ·) ih
        next =>
          rw [List.flatMap_cons, List.flatMap_cons, ih]
          rfl
      next hruns =>
        rw [hruns] at ih
        rw [← ih]
        rfl

/-- A run is no longer than the locals it comes from. -/
theorem le_length_of_mem_localRuns {types : List ValType} {run : Nat × ValType}
    (h : run ∈ localRuns types) : run.1 ≤ types.length := by
  obtain ⟨before, after, hsplit⟩ := List.append_of_mem h
  rw [← flatMap_localRuns types, hsplit]
  simp only [List.flatMap_append, List.flatMap_cons, List.length_append, List.length_replicate]
  omega

/-! ## Items -/

namespace Reads

variable {α : Type} {bytes : List UInt8}

/-- What reads back does so inside a vector of its bytes. -/
theorem within {r : Reader α} {a : α} (h : Reads r bytes a) (hlen : bytes.length < 2 ^ 32) :
    Reads r.within (Binary.byteVector bytes) a := by
  refine bind_pure (byteVector hlen) ?_
  rw [h.whole]
  exact pure a

theorem valTypes {types : List ValType}
    (h : (Binary.vector (fun v : ValType => [v.byte]) types).length < 2 ^ 32) :
    Reads (Reader.vector .u32 .valType) (Binary.vector (fun v => [v.byte]) types) types := by
  have hle : types.length ≤ (Binary.vector (fun v : ValType => [v.byte]) types).length :=
    Binary.length_le_vector fun v _ => List.cons_ne_nil v.byte []
  exact vector (u32 (by omega)) fun t _ => valType t

theorem funcType {t : FuncType} (h : t.encode.length < 2 ^ 32) :
    Reads Reader.funcType t.encode t := by
  simp only [FuncType.encode, List.length_append, List.length_cons] at h
  show Reads _ ([0x60] ++ _ ++ _) _
  rw [List.append_assoc]
  exact bind (exactly _) (bind (valTypes (by omega)) (bind_pure (valTypes (by omega)) (pure _)))

/-- Limits read back if they are words, and shared ones have a maximum. -/
theorem limits {l : Limits} (h : l.Fits) : Reads Reader.limits l.encode l := by
  obtain ⟨hmin, hmax, hshared⟩ := h
  rcases l with ⟨min, _ | max, _ | _⟩
  · exact bind (byte 0x00) (bind_pure (u32 hmin) (pure _))
  · simp at hshared
  · show Reads _ ([0x01] ++ (_ ++ _)) _
    exact bind (byte 0x01) (bind (u32 hmin) (bind_pure (u32 (hmax max rfl)) (pure _)))
  · show Reads _ ([0x03] ++ (_ ++ _)) _
    exact bind (byte 0x03) (bind (u32 hmin) (bind_pure (u32 (hmax max rfl)) (pure _)))

theorem globalType (g : GlobalType) : Reads Reader.globalType g.encode g := by
  rcases g with ⟨type, _ | _⟩
  · exact bind (valType type) (bind_pure (byte 0x00) (pure _))
  · exact bind (valType type) (bind_pure (byte 0x01) (pure _))

theorem importDesc {desc : ImportDesc} (h : desc.Fits) :
    Reads Reader.importDesc desc.encode desc := by
  cases desc with
  | function type => exact bind (byte 0x00) (bind_pure (u32 h) (pure _))
  | memory l => exact bind (byte 0x02) (bind_pure (limits h) (pure _))
  | global type => exact bind (byte 0x03) (bind_pure (globalType type) (pure _))

/-- A name that stands in few enough bytes is short enough. -/
theorem name_of_length {text : String} (h : (Binary.name text).length < 2 ^ 32) :
    Reads Reader.name (Binary.name text) text :=
  name (lt_of_le_of_lt (Binary.length_byteVector _) h)

/-- An import reads back if what it brings fits. -/
theorem importItem {i : Import} (h : i.encode.length < 2 ^ 32) (hdesc : i.desc.Fits) :
    Reads Reader.importItem i.encode i := by
  simp only [Import.encode, List.length_append] at h
  rw [Import.encode, List.append_assoc]
  exact bind (name_of_length (by omega)) (bind (name_of_length (by omega))
    (bind_pure (importDesc hdesc) (pure _)))

theorem table {l : Limits} (h : l.Fits) : Reads Reader.table (0x70 :: l.encode) l :=
  bind (exactly 0x70) (limits h)

theorem global {g : Global} (h : IsExpression g.init) : Reads Reader.global g.encode g :=
  bind (globalType g.type) (bind_pure h.reads (pure _))

theorem exportKind (kind : ExportKind) : Reads Reader.exportKind [kind.byte] kind := by
  cases kind <;> exact bind_pure (byte _) (pure _)

theorem exportItem {text : String} {kind : ExportKind} {index : Nat}
    (h : (Binary.name text).length < 2 ^ 32) (hindex : index < 2 ^ 32) :
    Reads Reader.exportItem (Binary.name text ++ kind.byte :: Leb128.unsigned index)
      (text, kind, index) :=
  bind (name_of_length h) (bind (exportKind kind) (bind_pure (u32 hindex) (pure _)))

/-- A segment reads back if its offset is an expression. -/
theorem segment {r : Reader (List α)} {s : Segment α} (h : IsExpression s.offset)
    (hr : Reads r bytes s.contents) :
    Reads (Reader.segment r) (0x00 :: encodeExpression s.offset ++ bytes) s := by
  show Reads _ ([0x00] ++ (_ ++ _)) _
  exact bind (exactly 0x00) (bind h.reads (bind_pure hr (pure _)))

theorem indices {items : List Nat} (h : (Binary.vector Leb128.unsigned items).length < 2 ^ 32)
    (hitems : ∀ i ∈ items, i < 2 ^ 32) :
    Reads (Reader.vector .u32 .u32) (Binary.vector Leb128.unsigned items) items := by
  have hle : items.length ≤ (Binary.vector Leb128.unsigned items).length :=
    Binary.length_le_vector fun i _ => Leb128.unsigned_ne_nil i
  exact vector (u32 (by omega)) fun i hi => u32 (hitems i hi)

/-- **Code reads back** with its locals spelled out again. -/
theorem code {c : Code} (h : c.encode.length < 2 ^ 32) (hlocals : c.locals.length < 2 ^ 32)
    (hbody : IsExpression c.body) : Reads Reader.code c.encode c := by
  have hin := lt_of_le_of_lt (Binary.length_byteVector _) h
  refine within ?_ hin
  rw [List.length_append] at hin
  have hruns : (localRuns c.locals).length ≤ (Binary.vector (fun (run : Nat × ValType) =>
      Leb128.unsigned run.1 ++ [run.2.byte]) (localRuns c.locals)).length :=
    Binary.length_le_vector fun run _ =>
      List.append_ne_nil_of_right_ne_nil _ (List.cons_ne_nil _ _)
  have hcount := lt_of_le_of_lt hruns (lt_of_le_of_lt (Nat.le_add_right _ _) hin)
  refine bind (vector (u32 hcount) fun run hrun => ?_) (bind_pure hbody.reads ?_)
  · have hle := le_length_of_mem_localRuns hrun
    exact bind (u32 (by omega)) (bind_pure (valType run.2) (pure _))
  · rw [flatMap_localRuns]
    exact pure c

/-- A section reads back as its number and its contents. -/
theorem sectionItem {id : UInt8} {payload : List UInt8} (h : payload.length < 2 ^ 32) :
    Reads Reader.sectionItem (Binary.segment id payload) (id, payload) :=
  bind (byte id) (bind_pure (byteVector h) (pure _))

end Reads

/-! ## Sections -/

namespace BinaryModule

/-- The contents of a section that is left out when it has nothing to
hold. -/
def optionalContents {α : Type} (encode : α → List UInt8) (items : List α) :
    Option (List UInt8) :=
  if items.isEmpty then none else some (Binary.vector encode items)

/-- The sections of a module, with those that are left out. -/
def allSections (m : BinaryModule) : List (UInt8 × Option (List UInt8)) :=
  [(1, some (Binary.vector FuncType.encode m.types)),
    (2, optionalContents Import.encode m.imports),
    (3, some (Binary.vector Leb128.unsigned m.functions)),
    (4, optionalContents (fun l => 0x70 :: l.encode) m.tables),
    (5, optionalContents Limits.encode m.memories),
    (6, optionalContents Global.encode m.globals),
    (7, optionalContents (fun (name, kind, index) =>
      Binary.name name ++ kind.byte :: Leb128.unsigned index) m.exports),
    (8, m.start.map Leb128.unsigned),
    (9, optionalContents (fun s =>
      0x00 :: encodeExpression s.offset ++ Binary.vector Leb128.unsigned s.contents) m.elements),
    (10, some (Binary.vector Code.encode m.code)),
    (11, optionalContents (fun s =>
      0x00 :: encodeExpression s.offset ++ Binary.byteVector s.contents) m.data)]

/-- The sections that are written. -/
def sections (m : BinaryModule) : List (UInt8 × List UInt8) :=
  m.allSections.filterMap fun (id, contents) => contents.map (id, ·)

/-- A section that may be missing is there exactly if it has contents. -/
theorem optionalSegment_eq {α : Type} (id : UInt8) (encode : α → List UInt8) (items : List α) :
    optionalSegment id encode items =
      ((optionalContents encode items).map (Binary.segment id)).getD [] := by
  rw [optionalSegment, optionalContents]
  split <;> rfl

/-- **A module is its preamble and its sections.** -/
theorem encode_eq (m : BinaryModule) :
    m.encode = preamble ++ m.sections.flatMap fun s => Binary.segment s.1 s.2 := by
  have hparts : ∀ parts : List (UInt8 × Option (List UInt8)),
      (parts.filterMap fun (id, contents) => contents.map (id, ·)).flatMap
        (fun s => Binary.segment s.1 s.2) =
      parts.flatMap fun (id, contents) => (contents.map (Binary.segment id)).getD [] := by
    intro parts
    induction parts with
    | nil => rfl
    | cons part parts ih =>
        rcases part with ⟨id, _ | contents⟩
        · exact ih
        · exact congrArg (Binary.segment id contents ++ ·) ih
  rw [encode, sections, hparts]
  simp only [optionalSegment_eq, allSections, List.flatMap_cons, List.flatMap_nil,
    List.append_assoc, List.append_nil, Option.map_some, Option.getD_some]
  cases m.start <;> rfl

/-- **The identifiers of the sections go up.** -/
theorem sections_pairwise (m : BinaryModule) : (m.sections.map (·.1)).Pairwise (· < ·) := by
  have hsub : ∀ parts : List (UInt8 × Option (List UInt8)),
      ((parts.filterMap fun (id, contents) => contents.map (id, ·)).map (·.1)).Sublist
        (parts.map (·.1)) := by
    intro parts
    induction parts with
    | nil => exact List.Sublist.slnil
    | cons part parts ih =>
        rcases part with ⟨id, _ | contents⟩
        · exact ih.cons id
        · exact ih.cons_cons id
  have hall : (m.allSections.map (·.1)).Pairwise (· < ·) := by
    show [1, 2, 3, 4, 5, 6, 7, 8, 9, 10, 11].Pairwise (· < · : UInt8 → UInt8 → Prop)
    decide
  exact hall.sublist (hsub m.allSections)

/-- What a section holds is found by its identifier. -/
theorem lookup_sections {m : BinaryModule} {id : UInt8} {contents : Option (List UInt8)}
    (h : m.allSections.lookup id = some contents) : m.sections.lookup id = contents := by
  have hnodup : (m.allSections.map (·.1)).Nodup := by
    show ([1, 2, 3, 4, 5, 6, 7, 8, 9, 10, 11] : List UInt8).Nodup
    decide
  rw [sections]
  generalize m.allSections = parts at h hnodup
  induction parts with
  | nil => simp at h
  | cons part parts ih =>
      rcases part with ⟨id', contents'⟩
      rw [List.map_cons, List.nodup_cons] at hnodup
      by_cases heq : id = id'
      · subst heq
        obtain rfl : contents' = contents := by simpa using h
        cases contents' with
        | some payload => simp
        | none =>
            -- no later section has the identifier either
            refine List.lookup_eq_none_iff.2 fun s hs => ?_
            obtain ⟨part, hpart, hsome⟩ := List.mem_filterMap.1 hs
            obtain ⟨payload, -, rfl⟩ := Option.map_eq_some_iff.1 hsome
            rcases List.mem_cons.1 hpart with rfl | hmem
            · simp at hsome
            · refine bne_iff_ne.2 fun (hid : id = part.1) => hnodup.1 ?_
              exact List.mem_map.2 ⟨part, hmem, hid.symm⟩
      · have hbeq : (id == id') = false := beq_eq_false_iff_ne.2 heq
        have hrest : parts.lookup id = some contents := by
          simpa only [List.lookup_cons, hbeq] using h
        have hfound := ih hrest hnodup.2
        cases contents' with
        | none => exact hfound
        | some payload =>
            show List.lookup id ((id', payload) :: _) = _
            rw [List.lookup_cons, hbeq]
            exact hfound

/-- What a look-up finds is there. -/
theorem mem_of_lookup {sections : List (UInt8 × List UInt8)} {id : UInt8} {payload : List UInt8}
    (h : sections.lookup id = some payload) : (id, payload) ∈ sections := by
  obtain ⟨before, after, rfl, -⟩ := List.lookup_eq_some_iff.1 h
  exact List.mem_append_right before List.mem_cons_self

/-- The contents of a section are part of the module. -/
theorem length_payload_le {m : BinaryModule} {s : UInt8 × List UInt8} (h : s ∈ m.sections) :
    s.2.length ≤ m.encode.length := by
  obtain ⟨before, after, hsplit⟩ := List.append_of_mem h
  have hle := Binary.length_byteVector s.2
  rw [encode_eq, hsplit]
  simp only [List.flatMap_append, List.flatMap_cons, List.length_append, Binary.segment,
    List.length_cons]
  omega

/-- **The sections read back.** -/
theorem readSections_encode {m : BinaryModule} (h : m.encode.length < 2 ^ 32) :
    readSections m.encode = some m.sections := by
  have hread : Reader.sectionItem.many (m.sections.flatMap fun s => Binary.segment s.1 s.2) =
      some m.sections :=
    Reader.many_flatMap
      (fun s hs => Reads.sectionItem (lt_of_le_of_lt (length_payload_le hs) h))
      fun s _ => List.cons_ne_nil _ _
  rw [encode_eq]
  exact hread

/-! ## The whole module -/

/-- A module that the format has room for. Its size bounds every vector
and every name in it. -/
structure Fits (m : BinaryModule) : Prop where
  size : m.encode.length < 2 ^ 32
  imports : ∀ i ∈ m.imports, i.desc.Fits
  functions : ∀ type ∈ m.functions, type < 2 ^ 32
  tables : ∀ l ∈ m.tables, l.Fits
  memories : ∀ l ∈ m.memories, l.Fits
  globals : ∀ g ∈ m.globals, IsExpression g.init
  exports : ∀ e ∈ m.exports, e.2.2 < 2 ^ 32
  start : ∀ index ∈ m.start, index < 2 ^ 32
  elements : ∀ s ∈ m.elements, IsExpression s.offset ∧ ∀ i ∈ s.contents, i < 2 ^ 32
  code : ∀ c ∈ m.code, c.locals.length < 2 ^ 32 ∧ IsExpression c.body
  data : ∀ s ∈ m.data, IsExpression s.offset
  paired : m.functions.length = m.code.length

/-- A section is missing only if there are no items. -/
theorem optionalContents_cases {α : Type} (encode : α → List UInt8) (items : List α) :
    optionalContents encode items = some (Binary.vector encode items) ∨
      items = [] ∧ optionalContents encode items = none := by
  cases items with
  | nil => exact .inr ⟨rfl, rfl⟩
  | cons a items => exact .inl rfl

/-- An item is no longer than the module it stands in. -/
theorem length_item_le {α : Type} {m : BinaryModule} (id : UInt8) {encode : α → List UInt8}
    {items : List α} {contents : Option (List UInt8)}
    (hlookup : m.allSections.lookup id = some contents)
    (hcontents : contents = some (Binary.vector encode items) ∨ items = [] ∧ contents = none)
    {a : α} (ha : a ∈ items) : (encode a).length ≤ m.encode.length := by
  rcases hcontents with rfl | ⟨rfl, -⟩
  · exact (Binary.length_encode_le_vector ha).trans
      (length_payload_le (mem_of_lookup (lookup_sections hlookup)))
  · cases ha

/-- **The items of a section read back** when each of them does. Each may
be taken to be as short as the module. -/
theorem readItems_sections {α : Type} {m : BinaryModule} {id : UInt8} {item : Reader α}
    {encode : α → List UInt8} {items : List α} {contents : Option (List UInt8)}
    (hsize : m.encode.length < 2 ^ 32) (hlookup : m.allSections.lookup id = some contents)
    (hcontents : contents = some (Binary.vector encode items) ∨ items = [] ∧ contents = none)
    (hne : ∀ a, encode a ≠ [])
    (hitem : ∀ a ∈ items, (encode a).length < 2 ^ 32 → Reads item (encode a) a) :
    readItems m.sections id item = some items := by
  have hfound := lookup_sections hlookup
  have hlen : ∀ a ∈ items, (encode a).length < 2 ^ 32 := fun a ha =>
    lt_of_le_of_lt (length_item_le id hlookup hcontents ha) hsize
  rw [readItems, hfound]
  rcases hcontents with rfl | ⟨rfl, rfl⟩
  · have hmem : (id, Binary.vector encode items) ∈ m.sections := mem_of_lookup hfound
    have hshort : (Binary.vector encode items).length < 2 ^ 32 :=
      lt_of_le_of_lt (length_payload_le hmem) hsize
    have hcount : items.length < 2 ^ 32 :=
      lt_of_le_of_lt (Binary.length_le_vector fun a _ => hne a) hshort
    have hread : Reads (Reader.vector .u32 item) (Binary.vector encode items) items :=
      Reads.vector (Reads.u32 hcount) fun a ha => hitem a ha (hlen a ha)
    exact hread.whole
  · rfl

/-- The imports read back from their section. -/
theorem readItems_imports {m : BinaryModule} (hsize : m.encode.length < 2 ^ 32)
    (h : ∀ i ∈ m.imports, i.desc.Fits) :
    readItems m.sections 2 Reader.importItem = some m.imports :=
  readItems_sections hsize rfl (optionalContents_cases _ _) Import.encode_ne_nil
    fun i hi hlen => Reads.importItem hlen (h i hi)

/-- The exports read back from their section. -/
theorem readItems_exports {m : BinaryModule} (hsize : m.encode.length < 2 ^ 32)
    (h : ∀ e ∈ m.exports, e.2.2 < 2 ^ 32) :
    readItems m.sections 7 Reader.exportItem = some m.exports := by
  refine readItems_sections hsize rfl (optionalContents_cases _ _)
    (fun _ => List.append_ne_nil_of_right_ne_nil _ (List.cons_ne_nil _ _)) fun e he hlen => ?_
  rw [List.length_append] at hlen
  exact Reads.exportItem (by omega) (h e he)

/-- The element segments read back from their section. -/
theorem readItems_elements {m : BinaryModule} (hsize : m.encode.length < 2 ^ 32)
    (h : ∀ s ∈ m.elements, IsExpression s.offset ∧ ∀ i ∈ s.contents, i < 2 ^ 32) :
    readItems m.sections 9 (.segment (.vector .u32 .u32)) = some m.elements := by
  refine readItems_sections hsize rfl (optionalContents_cases _ _)
    (fun _ => List.cons_ne_nil _ _) fun s hs hlen => ?_
  obtain ⟨hoffset, hindices⟩ := h s hs
  rw [List.length_append] at hlen
  exact Reads.segment hoffset (Reads.indices (by omega) hindices)

/-- The start function reads back from its section. -/
theorem readStart_sections {m : BinaryModule} (h : ∀ index ∈ m.start, index < 2 ^ 32) :
    readStart m.sections = some m.start := by
  have hfound : m.sections.lookup 8 = m.start.map Leb128.unsigned := lookup_sections rfl
  rw [readStart, hfound]
  cases hstart : m.start with
  | none => rfl
  | some index =>
      have hread := (Reads.u32 (h index hstart)).whole
      simp only [Option.map_some, hread]

/-- Every identifier is one of the format. -/
theorem id_of_mem_sections {m : BinaryModule} {s : UInt8 × List UInt8} (h : s ∈ m.sections) :
    1 ≤ s.1 ∧ s.1 ≤ 11 := by
  have hids : (m.allSections.map (·.1)).all (fun id => 1 ≤ id ∧ id ≤ 11) = true := by
    show ([1, 2, 3, 4, 5, 6, 7, 8, 9, 10, 11] : List UInt8).all (fun id => 1 ≤ id ∧ id ≤ 11) = true
    decide
  obtain ⟨part, hpart, hsome⟩ := List.mem_filterMap.1 h
  obtain ⟨payload, -, rfl⟩ := Option.map_eq_some_iff.1 hsome
  exact of_decide_eq_true (List.all_eq_true.1 hids part.1 (List.mem_map.2 ⟨part, hpart, rfl⟩))

/-- The type, function and code sections are always there. -/
theorem id_mem_sections (m : BinaryModule) : ∀ id ∈ [1, 3, 10], id ∈ m.sections.map (·.1) := by
  have hmem : ∀ {id : UInt8} {payload : List UInt8}, m.allSections.lookup id = some (some payload) →
      id ∈ m.sections.map (·.1) := fun hlookup =>
    List.mem_map.2 ⟨_, mem_of_lookup (lookup_sections hlookup), rfl⟩
  simp only [List.forall_mem_cons, List.not_mem_nil, false_implies, implies_true, and_true]
  exact ⟨hmem rfl, hmem rfl, hmem rfl⟩

/-- **A module that fits reads back as it was written.** -/
theorem readModule_encode {m : BinaryModule} (h : m.Fits) : readModule m.encode = some m := by
  have htypes : readItems m.sections 1 Reader.funcType = some m.types :=
    readItems_sections h.size rfl (.inl rfl) (fun _ => List.cons_ne_nil _ _)
      fun t _ ht => Reads.funcType ht
  have himports := readItems_imports h.size h.imports
  have hfunctions : readItems m.sections 3 Reader.u32 = some m.functions :=
    readItems_sections h.size rfl (.inl rfl) Leb128.unsigned_ne_nil
      fun i hi _ => Reads.u32 (h.functions i hi)
  have htables : readItems m.sections 4 Reader.table = some m.tables :=
    readItems_sections h.size rfl (optionalContents_cases _ _) (fun _ => List.cons_ne_nil _ _)
      fun l hl _ => Reads.table (h.tables l hl)
  have hmemories : readItems m.sections 5 Reader.limits = some m.memories :=
    readItems_sections h.size rfl (optionalContents_cases _ _) Limits.encode_ne_nil
      fun l hl _ => Reads.limits (h.memories l hl)
  have hglobals : readItems m.sections 6 Reader.global = some m.globals :=
    readItems_sections h.size rfl (optionalContents_cases _ _) (fun _ => List.cons_ne_nil _ _)
      fun g hg _ => Reads.global (h.globals g hg)
  have hexports := readItems_exports h.size h.exports
  have hstart := readStart_sections h.start
  have helements := readItems_elements h.size h.elements
  have hcode : readItems m.sections 10 Reader.code = some m.code :=
    readItems_sections h.size rfl (.inl rfl) Code.encode_ne_nil
      fun c hc hlen => Reads.code hlen (h.code c hc).1 (h.code c hc).2
  have hdata : readItems m.sections 11 (.segment .byteVector) = some m.data := by
    refine readItems_sections h.size rfl (optionalContents_cases _ _)
      (fun _ => List.cons_ne_nil _ _) fun s hs hlen => ?_
    have hle := Binary.length_byteVector s.contents
    rw [List.length_append] at hlen
    exact Reads.segment (h.data s hs) (Reads.byteVector (by omega))
  have hids : (m.sections.map (·.1)).Pairwise (· < ·) ∧ ∀ s ∈ m.sections, 1 ≤ s.1 ∧ s.1 ≤ 11 :=
    ⟨m.sections_pairwise, fun _ => id_of_mem_sections⟩
  simp only [readModule, readSections_encode h.size, htypes, himports, hfunctions, htables,
    hmemories, hglobals, hexports, hstart, helements, hcode, hdata, Option.bind_eq_bind,
    Option.bind_some, Option.pure_def, guard, if_pos hids, if_pos h.paired]

/-! ## How many items there are -/

/-- A section has at least one byte for every item. -/
theorem length_le_segment {α : Type} {id : UInt8} {encode : α → List UInt8} {items : List α}
    (h : ∀ a, encode a ≠ []) :
    items.length ≤ (Binary.segment id (Binary.vector encode items)).length := by
  have hitems : items.length ≤ (Binary.vector encode items).length :=
    Binary.length_le_vector fun a _ => h a
  have hframe := Binary.length_byteVector (Binary.vector encode items)
  rw [Binary.segment, List.length_cons]
  omega

theorem length_le_optionalSegment {α : Type} {id : UInt8} {encode : α → List UInt8}
    {items : List α} (h : ∀ a, encode a ≠ []) :
    items.length ≤ (optionalSegment id encode items).length := by
  cases items with
  | nil => exact Nat.zero_le _
  | cons a items => exact length_le_segment h

/-- **Every entry of an index space takes a byte of its own.** -/
theorem length_le_encode (m : BinaryModule) :
    m.types.length + m.imports.length + m.functions.length + m.tables.length + m.memories.length +
      m.globals.length ≤ m.encode.length := by
  have htypes : m.types.length ≤ (Binary.segment 1 (Binary.vector FuncType.encode m.types)).length :=
    length_le_segment fun _ => List.cons_ne_nil _ _
  have himports : m.imports.length ≤ (optionalSegment 2 Import.encode m.imports).length :=
    length_le_optionalSegment Import.encode_ne_nil
  have hfunctions : m.functions.length ≤
      (Binary.segment 3 (Binary.vector Leb128.unsigned m.functions)).length :=
    length_le_segment Leb128.unsigned_ne_nil
  have htables : m.tables.length ≤
      (optionalSegment 4 (fun l => 0x70 :: l.encode) m.tables).length :=
    length_le_optionalSegment fun _ => List.cons_ne_nil _ _
  have hmemories : m.memories.length ≤ (optionalSegment 5 Limits.encode m.memories).length :=
    length_le_optionalSegment Limits.encode_ne_nil
  have hglobals : m.globals.length ≤ (optionalSegment 6 Global.encode m.globals).length :=
    length_le_optionalSegment fun _ => List.cons_ne_nil _ _
  simp only [encode, List.length_append]
  omega

end BinaryModule

/-! ## What the format cannot say -/

/-- Limits as they are written: shared only with a maximum. -/
def Limits.written (l : Limits) : Limits := { l with shared := l.shared && l.max.isSome }

def ImportDesc.written : ImportDesc → ImportDesc
  | memory limits => memory limits.written
  | desc => desc

def Import.written (i : Import) : Import := { i with desc := i.desc.written }

/-- A module with all limits as they are written. -/
def BinaryModule.written (m : BinaryModule) : BinaryModule :=
  { m with
    imports := m.imports.map Import.written
    tables := m.tables.map Limits.written
    memories := m.memories.map Limits.written }

theorem Limits.encode_written (l : Limits) : l.written.encode = l.encode := by
  rcases l with ⟨min, _ | max, shared⟩
  · rfl
  · simp [written, encode]

theorem Import.encode_written (i : Import) : i.written.encode = i.encode := by
  rcases i with ⟨module, field, type | limits | type⟩
  · rfl
  · simp [written, ImportDesc.written, encode, ImportDesc.encode, Limits.encode_written]
  · rfl

namespace BinaryModule

/-- A section stays the same if each of its items is written the same. -/
theorem optionalSegment_map {α : Type} (id : UInt8) {encode : α → List UInt8} {f : α → α}
    (h : ∀ a, encode (f a) = encode a) (items : List α) :
    optionalSegment id encode (items.map f) = optionalSegment id encode items := by
  simp only [optionalSegment, Binary.vector, List.isEmpty_map, List.length_map, List.flatMap_map, h]

/-- **A module is written as if its limits were as written.** -/
theorem encode_written (m : BinaryModule) : m.written.encode = m.encode := by
  have htables : optionalSegment 4 (fun l : Limits => 0x70 :: l.encode)
      (m.tables.map Limits.written) = optionalSegment 4 (fun l => 0x70 :: l.encode) m.tables :=
    optionalSegment_map 4 (fun l => by rw [Limits.encode_written]) m.tables
  simp only [encode, written, optionalSegment_map _ Import.encode_written,
    optionalSegment_map _ Limits.encode_written, htables]

end BinaryModule

end WasmText
