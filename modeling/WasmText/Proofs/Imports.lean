import WasmText.Proofs.Module.Census
/-!
# The import section

The import section of a compiled module lists the `import` forms of its
source in order, each once and with its names, as far as a field looks at
them: all at the top level, but of those inside a function only the last,
and none of those inside a memory or a table. A global with one inside
does not compile. So none is lost exactly where a function has at most one
inside, and a memory or a table has none (`imports_listed`).
-/

namespace WasmText

namespace Node

/-- The `import` forms of a field: itself, or those inside a field of a
kind that can be imported. -/
def importForms (field : Node) : List Node :=
  if field.instr = "import" then [field]
  else if field.instr ∈ ["func", "memory", "table", "global"] then field.importsInside
  else []

/-- A field that all its `import` forms count for. -/
structure KeepsImports (field : Node) : Prop where
  function : field.instr = "func" → field.importsInside.length ≤ 1
  other : field.instr ∈ ["memory", "table"] → field.importsInside = []

instance (field : Node) : Decidable field.KeepsImports :=
  decidable_of_iff ((field.instr = "func" → field.importsInside.length ≤ 1) ∧
    (field.instr ∈ ["memory", "table"] → field.importsInside.length = 0))
    ⟨fun h => ⟨h.1, fun hinstr => List.length_eq_zero_iff.1 (h.2 hinstr)⟩,
      fun h => ⟨h.function, fun hinstr => List.length_eq_zero_iff.2 (h.other hinstr)⟩⟩

variable {field : Node}

/-- The forms that count are some of all. -/
theorem importing_sublist (field : Node) : field.importing.Sublist field.importForms := by
  unfold importing importForms
  split
  next => exact .refl _
  next =>
    split
    next hfunc =>
      rw [if_pos (by simp [hfunc])]
      cases hlast : field.importsInside.getLast? with
      | none => exact List.nil_sublist _
      | some form =>
          exact List.singleton_sublist.2 (List.mem_of_getLast? hlast)
    next => exact List.nil_sublist _

/-- **Which fields lose imports.** -/
theorem keepsImports_iff (hglobal : field.instr = "global" → field.importsInside = []) :
    field.KeepsImports ↔ field.importing.length = field.importForms.length := by
  unfold importing importForms
  by_cases himport : field.instr = "import"
  · rw [if_pos himport, if_pos himport]
    exact ⟨fun _ => rfl, fun _ => ⟨by simp [himport], by simp [himport]⟩⟩
  rw [if_neg himport, if_neg himport]
  by_cases hfunc : field.instr = "func"
  · rw [if_pos hfunc, if_pos (by simp [hfunc])]
    have hlast : field.importsInside.getLast?.toList.length = field.importsInside.length ↔
        field.importsInside.length ≤ 1 := by
      cases field.importsInside with
      | nil => simp
      | cons form forms => simp [List.getLast?_cons]
    rw [hlast]
    exact ⟨fun h => h.function hfunc, fun h => ⟨fun _ => h, by simp [hfunc]⟩⟩
  rw [if_neg hfunc, List.length_nil, eq_comm, List.length_eq_zero_iff]
  by_cases hother : field.instr ∈ ["memory", "table"]
  · have hkind : field.instr ∈ ["func", "memory", "table", "global"] := by
      rcases List.mem_cons.1 hother with hkind | hkind <;> simp_all
    rw [if_pos hkind]
    exact ⟨fun h => h.other hother, fun h => ⟨fun hinstr => absurd hinstr hfunc, fun _ => h⟩⟩
  · refine ⟨fun _ => ?_, fun _ => ⟨fun hinstr => absurd hinstr hfunc, fun h => absurd h hother⟩⟩
    split
    next hkind =>
      refine hglobal ?_
      simpa [hfunc, not_or.1 (by simpa using hother)] using hkind
    next => rfl

end Node

/-! ## Globals -/

/-- What compiles is named for an instruction. -/
theorem Expr.isInstr_of_compileExpr [HexReader] {env : Env} {e : Expr} {t t' : TypeTable}
    {instrs : List Instr} (h : compileExpr env e t = .ok instrs t') : e.IsInstr := by
  cases e with
  | ref =>
      rw [compileExpr] at h
      exact absurd h Typing.throw_ne_ok
  | data =>
      rw [compileExpr] at h
      exact absurd h Typing.throw_ne_ok
  | node head children =>
      cases hop : Opcode.ofName? head.instr with
      | none =>
          rw [compileExpr, hop] at h
          exact absurd h Typing.throw_ne_ok
      | some op => exact ⟨⟨head, children⟩, op, rfl, hop⟩

/-- An `import` form is no type of a global. -/
theorem GlobalType.isNode_of_ofExpr {e : Expr} {type : GlobalType} (h : ofExpr e = .ok type) :
    e.isNode "import" = false := by
  refine Bool.eq_false_iff.2 fun himport => ?_
  cases e with
  | ref => cases himport
  | data => cases himport
  | node head children =>
      obtain ⟨instr, name, params, span⟩ := head
      obtain rfl : instr = "import" := eq_of_beq himport
      have hnone : ∀ value, ValType.ofExpr (.node ⟨"import", name, params, span⟩ children) ≠
          .ok value := by
        intro value hvalue
        unfold ValType.ofExpr at hvalue
        split at hvalue
        next heq =>
          simp only [Expr.node.injEq, Head.mk.injEq] at heq
          obtain ⟨⟨rfl, -⟩, -⟩ := heq
          cases hvalue
        next => cases hvalue
      obtain ⟨value, hvalue, -⟩ := bind_eq_ok.1 h
      exact hnone value hvalue

/-- The children of a global are its exports, its type and
instructions. -/
theorem Draft.importsInside_of_declareGlobal [HexReader] {d d' : Draft} {n : Node}
    (h : d.declareGlobal n = .ok d') : n.importsInside = [] := by
  have hall : ∀ e ∈ n.children, e.isNode "import" = false := by
    intro e he
    by_cases hexport : e.isNode "export" = true
    · cases e with
      | ref => rfl
      | data => rfl
      | node head children =>
          rw [Expr.isNode, beq_iff_eq] at hexport
          simp [Expr.isNode, hexport]
    have hmem : e ∈ n.children.filter (!·.isNode "export") :=
      List.mem_filter.2 ⟨he, by simpa using hexport⟩
    unfold declareGlobal at h
    split at h
    next => exact absurd h throw_ne_ok
    next first es hchildren =>
      obtain ⟨type, htype, h⟩ := bind_eq_ok.1 h
      obtain ⟨⟨init, d₁⟩, hinit, -⟩ := bind_eq_ok.1 h
      rw [hchildren] at hmem
      rcases List.mem_cons.1 hmem with rfl | hmem
      · exact GlobalType.isNode_of_ofExpr htype
      · obtain ⟨⟨instrs, d₂⟩, htyping, -⟩ := bind_eq_ok.1 hinit
        obtain ⟨types, hcompile, -⟩ := typing_eq_ok.1 htyping
        obtain ⟨_, _, _, hone⟩ := exists_of_mem_compileAll hcompile hmem
        exact (Expr.isInstr_of_compileExpr hone).isNode_eq_false (by decide +kernel)
  have hnone : n.hasChild "import" = false := by
    rw [Node.hasChild_eq_any, List.any_eq_false]
    exact fun e he => by simp [hall e he]
  rw [Node.hasChild_eq, List.any_eq_false] at hnone
  exact List.filter_eq_nil_iff.2 fun form hform => by simpa using hnone form hform

/-- In a module form that has a draft no global imports anything. -/
theorem Draft.importsInside_of_ofNode [HexReader] {n field : Node} {d : Draft}
    (h : ofNode n = .ok d) (hfield : field ∈ n.childNodes) (hglobal : field.instr = "global") :
    field.importsInside = [] := by
  obtain ⟨-, progress, hprogress, -⟩ := ofNode_eq_ok.1 h
  obtain ⟨typed, -, hfields⟩ := bind_eq_ok.1 hprogress
  obtain ⟨e, he, hnode⟩ := List.mem_filterMap.1 hfield
  obtain ⟨p, p', hdeclare⟩ := exists_of_mem_foldlM hfields he
  simp only [Progress.declare, hnode, hglobal] at hdeclare
  obtain ⟨d', hd', -⟩ := Progress.onDraft_eq_ok.1 hdeclare
  exact importsInside_of_declareGlobal hd'

/-! ## Sources -/

/-- Lists that are no longer than others one by one, but as long
altogether, are as long one by one. -/
theorem length_eq_of_flatMap {α β : Type} {f g : α → List β} {as : List α}
    (hle : ∀ a, (f a).length ≤ (g a).length)
    (h : (as.flatMap f).length = (as.flatMap g).length) :
    ∀ a ∈ as, (f a).length = (g a).length := by
  have htotal : ∀ as : List α, (as.flatMap f).length ≤ (as.flatMap g).length := by
    intro as
    induction as with
    | nil => exact Nat.le_refl _
    | cons a as ih =>
        rw [List.flatMap_cons, List.flatMap_cons, List.length_append, List.length_append]
        exact Nat.add_le_add (hle a) ih
  intro a ha
  obtain ⟨before, after, rfl⟩ := List.append_of_mem ha
  simp only [List.flatMap_append, List.flatMap_cons, List.length_append] at h
  have hbefore := htotal before
  have hafter := htotal after
  have hown := hle a
  omega

/-- **Imports are listed as far as fields look at them.** The import
section of a compiled source has an entry for each `import` form that
counts, in order and with its names, and it has one for each of all
`import` forms exactly where every field keeps its own. -/
theorem imports_listed [HexReader] {source : String} {bytes : List UInt8}
    (h : compile source = .ok bytes) :
    ∃ (n : Node) (m : BinaryModule), parse source = .ok n ∧ m.encode = bytes ∧
      (bytes.length < 2 ^ 32 → readSections bytes = some m.sections ∧
        readItems m.sections 2 Reader.importItem = some m.imports) ∧
      List.Forall₂ Node.NamesImport (n.childNodes.flatMap Node.importing) m.imports ∧
      (List.Forall₂ Node.NamesImport (n.childNodes.flatMap Node.importForms) m.imports ↔
        ∀ field ∈ n.childNodes, field.KeepsImports) := by
  obtain ⟨n, d, m, hparse, hdraft, hdeclares, rfl, -⟩ := exists_of_compile h
  have hnames : List.Forall₂ Node.NamesImport (n.childNodes.flatMap Node.importing) m.imports := by
    rw [hdeclares.imports, List.forall₂_map_right_iff]
    exact Draft.imports_of_ofNode hdraft
  have hkeeps : ∀ field ∈ n.childNodes, (field.KeepsImports ↔
      field.importing.length = field.importForms.length) := fun field hfield =>
    Node.keepsImports_iff (Draft.importsInside_of_ofNode hdraft hfield)
  refine ⟨n, m, hparse, rfl, fun hsize => ?_, hnames, fun hall => ?_, fun hall => ?_⟩
  · have hsound := Draft.ofNode_sound hdraft
    exact ⟨BinaryModule.readSections_encode hsize, BinaryModule.readItems_imports hsize fun i hi =>
      hdeclares.import_fits hsound hsize hi⟩
  · -- as many forms as imports altogether, so as many in each field
    have hlength := hnames.length_eq.trans hall.length_eq.symm
    have heach := length_eq_of_flatMap (fun field => (Node.importing_sublist field).length_le) hlength
    exact fun field hfield => (hkeeps field hfield).2 (heach field hfield)
  · have hsame : n.childNodes.flatMap Node.importing = n.childNodes.flatMap Node.importForms :=
      List.flatMap_congr fun field hfield =>
        (Node.importing_sublist field).eq_of_length ((hkeeps field hfield).1 (hall field hfield))
    rwa [hsame] at hnames

/-- Two imports at the top level, and two functions that are imported, one
of them exported too. -/
def importingSource : String :=
  "(func $f (import \"a\" \"f\") (param i32)) (import \"b\" \"m\" (memory 1)) " ++
  "(func (export \"g\") (import \"a\" \"g\")) (import \"c\" \"h\" (global $h i32))"

def importingBytes : List UInt8 :=
  [0x00, 0x61, 0x73, 0x6D, 0x01, 0x00, 0x00, 0x00,
    1, 8, 2, 0x60, 1, 0x7F, 0, 0x60, 0, 0,
    2, 27, 4, 1, 0x61, 1, 0x66, 0x00, 0, 1, 0x62, 1, 0x6D, 0x02, 0x00, 1,
    1, 0x61, 1, 0x67, 0x00, 1, 1, 0x63, 1, 0x68, 0x03, 0x7F, 0x00,
    3, 1, 0,
    7, 5, 1, 1, 0x67, 0x00, 1,
    10, 1, 0]

theorem imports_listed_inline :
    compile importingSource = .ok importingBytes ∧ importingBytes.length < 2 ^ 32 ∧
      ∃ (n : Node) (m : BinaryModule), parse importingSource = .ok n ∧
        readSections importingBytes = some m.sections ∧
        readItems m.sections 2 Reader.importItem = some m.imports ∧
        List.Forall₂ Node.NamesImport (n.childNodes.flatMap Node.importForms) m.imports := by
  have hcompile : compile importingSource = .ok importingBytes := by decide +kernel
  have hkeeps : (parse importingSource).toOption.all
      (fun n => n.childNodes.all (fun field => field.KeepsImports)) = true := by
    decide +kernel
  obtain ⟨n, m, hparse, -, hreads, -, hall⟩ := imports_listed hcompile
  obtain ⟨hsections, himports⟩ := hreads (by decide)
  refine ⟨hcompile, by decide, n, m, hparse, hsections, himports, hall.2 fun field hfield => ?_⟩
  rw [hparse] at hkeeps
  simpa using List.all_eq_true.1 hkeeps field hfield

/-- A memory with an `import` form inside, which it does not look at. -/
def importingMemory : String := "(memory (import \"m\" \"n\") 1)"

def importingMemoryBytes : List UInt8 :=
  [0x00, 0x61, 0x73, 0x6D, 0x01, 0x00, 0x00, 0x00, 1, 1, 0, 3, 1, 0, 5, 3, 1, 0x00, 1, 10, 1, 0]

theorem importingMemory_imports_nothing :
    compile importingMemory = .ok importingMemoryBytes ∧
      (readSections importingMemoryBytes).map (·.map (·.1)) = some [1, 3, 5, 10] ∧
      ((parse importingMemory).toOption.map fun n =>
        (n.childNodes.flatMap Node.importForms).map (·.originNames.toOption)) =
        some [some ("m", "n")] := by
  decide +kernel

end WasmText
