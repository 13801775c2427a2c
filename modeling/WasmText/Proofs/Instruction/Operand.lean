import WasmText.Proofs.Instruction.Linear
import WasmText.Proofs.Steps
/-!
# Operands

Each step that finds an operand gives the operand that the linear form
has. A step that registers a signature gives an index into any later state
of the type table. So the operands can be asked for all at once, after the
last registration, and are the same.
-/

namespace WasmText

/-! ## Literals and names -/

namespace Literal

@[simp] theorem orInvalid_eq_ok {α : Type} {kind : LiteralKind} {text : String} {span : Span}
    {value : Option α} {a : α} : orInvalid kind text span value = .ok a ↔ value = some a := by
  cases value with
  | none => simp [orInvalid]
  | some b => simp [orInvalid]

theorem readNatural_eq_ok {text : String} {span : Span} {n : Nat} :
    readNatural text span = .ok n ↔ natural? text.toList = some n :=
  orInvalid_eq_ok

theorem readFloat_eq_ok [HexReader] {kind : LiteralKind} {format : FloatFormat} {text : String}
    {span : Span} {bits : Nat} :
    readFloat kind format text span = .ok bits ↔
      (float format text.toList).toOption = some bits := by
  unfold readFloat
  cases float format text.toList with
  | ok b => simp [Except.toOption]
  | error fault => cases fault <;> simp [Except.toOption]

theorem readF32_eq_ok [HexReader] {text : String} {span : Span} {bits : Nat} :
    readF32 text span = .ok bits ↔ (float .single text.toList).toOption = some bits :=
  readFloat_eq_ok

theorem readF64_eq_ok [HexReader] {text : String} {span : Span} {bits : Nat} :
    readF64 text span = .ok bits ↔ (float .double text.toList).toOption = some bits :=
  readFloat_eq_ok

end Literal

/-- A name is resolved exactly if it has an index. -/
theorem resolved_eq_ok {space : Space} {name : String} {span : Span} {index : Option Nat} {i : Nat} :
    resolved space name span index = .ok i ↔ index = some i := by
  cases index with
  | none => simp [resolved]
  | some j => simp [resolved]

namespace Env

variable {env : Env} {p : Param} {i : Nat}

theorem branchDepth_eq_ok : env.branchDepth p = .ok i ↔ p.index? env.labels.depth? = some i := by
  obtain ⟨arg, span⟩ := p
  cases arg <;>
    simp [branchDepth, Param.index?, Argument.numeric?, resolved_eq_ok, Literal.readNatural_eq_ok]

theorem index_eq_ok {space : Space} :
    env.index space p = .ok i ↔ p.index? (env.index? space) = some i := by
  obtain ⟨arg, span⟩ := p
  cases arg <;>
    simp [index, Param.index?, Argument.numeric?, resolved_eq_ok, Literal.readNatural_eq_ok]

end Env

/-! ## Arguments -/

section Arguments

variable {head : Head}

theorem soleArgument_eq_ok {p : Param} : soleArgument head = .ok p ↔ head.arguments = [p] := by
  unfold soleArgument
  split <;> simp_all

theorem refuseArguments_eq_ok {u : Unit} : refuseArguments head = .ok u ↔ head.arguments = [] := by
  unfold refuseArguments
  split <;> simp_all

/-- A constant is what its one argument is read as. -/
theorem constantArgument_iff {α : Type} {read : String → Span → Except CompileError α} {a : α} :
    constantArgument read head = .ok a ↔
      ∃ p text, head.arguments = [p] ∧ p.arg.numeric? = some text ∧ read text p.span = .ok a := by
  simp only [constantArgument, bind_eq_ok, soleArgument_eq_ok, exists_and_left]
  refine exists_congr fun p => and_congr_right fun _ => ?_
  obtain ⟨arg, span⟩ := p
  cases arg <;> simp [Argument.numeric?, throw_ne_ok]

/-- The fault of the one argument is the constant's. -/
theorem constantArgument_of_numeric {α : Type} {read : String → Span → Except CompileError α}
    {p : Param} {text : String} (hp : head.arguments = [p]) (htext : p.arg.numeric? = some text) :
    constantArgument read head = read text p.span := by
  obtain ⟨arg, span⟩ := p
  rw [constantArgument, soleArgument_eq_ok.2 hp]
  cases arg with
  | number | hex =>
      cases htext
      rfl
  | _ => cases htext

/-- A constant is read from the only argument. -/
theorem constantArgument_eq_ok {α : Type} {read : String → Span → Except CompileError α} {a : α}
    {read? : List Char → Option α}
    (hread : ∀ text span, read text span = .ok a ↔ read? text.toList = some a) :
    constantArgument read head = .ok a ↔
      ∃ p, head.arguments = [p] ∧ p.constant? read? = some a := by
  simp only [constantArgument_iff, hread, Param.constant?, Option.bind_eq_some_iff,
    exists_and_left]

theorem alignmentExponent_eq_ok {bytes n : Nat} {span : Span}
    (h : alignmentExponent bytes span = .ok n) : n = bytes.log2 := by
  unfold alignmentExponent at h
  split at h
  · exact (Except.ok.inj h).symm
  · cases h

/-- The last value for a keyword is the one that counts. -/
theorem lastValue?_cons (key : Keyword) (p : Param) (ps : List Param) :
    lastValue? key (p :: ps) = (lastValue? key ps).or (p.valueOf? key) := by
  unfold lastValue?
  cases h : p.valueOf? key with
  | none => rw [List.filterMap_cons_none h, Option.or_none]
  | some n =>
      rw [List.filterMap_cons_some h, List.getLast?_cons]
      cases (ps.filterMap (·.valueOf? key)).getLast? with
      | none => rfl
      | some m => rfl

/-- The last alignment and the last offset count. -/
theorem accessArguments_eq_ok {ps : List Param} {alignment offset : Nat} {access : Nat × Nat}
    (h : accessArguments alignment offset ps = .ok access) :
    access = (((lastValue? .align ps).map Nat.log2).getD alignment,
      (lastValue? .offset ps).getD offset) := by
  fun_induction accessArguments alignment offset ps with
  | case1 alignment offset => exact (Except.ok.inj h).symm
  | case2 alignment offset text span ps ih =>
      obtain ⟨n, hn, h⟩ := bind_eq_ok.1 h
      rw [ih n h]
      have hoffset : Param.valueOf? .offset ⟨.keyword .offset (some text), span⟩ = some n :=
        Literal.readNatural_eq_ok.1 hn
      have halign : Param.valueOf? .align ⟨.keyword .offset (some text), span⟩ = none := rfl
      rw [lastValue?_cons, lastValue?_cons, hoffset, halign, Option.or_none]
      cases lastValue? .offset ps with
      | none => rfl
      | some m => rfl
  | case3 alignment offset text span ps ih =>
      obtain ⟨bytes, hbytes, h⟩ := bind_eq_ok.1 h
      obtain ⟨n, hn, h⟩ := bind_eq_ok.1 h
      rw [ih n h, alignmentExponent_eq_ok hn]
      have hoffset : Param.valueOf? .offset ⟨.keyword .align (some text), span⟩ = none := rfl
      have halign : Param.valueOf? .align ⟨.keyword .align (some text), span⟩ = some bytes :=
        Literal.readNatural_eq_ok.1 hbytes
      rw [lastValue?_cons, lastValue?_cons, hoffset, halign, Option.or_none]
      cases lastValue? .align ps with
      | none => rfl
      | some m => rfl
  | case4 => cases h

/-- A branch table takes the last label as its default. -/
theorem labelArguments_eq_ok {env : Env} {i : Immediate} (h : labelArguments env head = .ok i) :
    ∃ depths last, head.arguments.mapM (·.index? env.labels.depth?) = some depths ∧
      depths.getLast? = some last ∧ i = .labels depths.dropLast last := by
  obtain ⟨depths, hdepths, h⟩ := bind_eq_ok.1 h
  have hindex : head.arguments.mapM (·.index? env.labels.depth?) = some depths :=
    mapM_eq_some.2 ((mapM_eq_ok.1 hdepths).imp fun _ _ => Env.branchDepth_eq_ok.1)
  cases hlast : depths.getLast? with
  | none =>
      rw [hlast] at h
      exact absurd h throw_ne_ok
  | some last =>
      rw [hlast] at h
      exact ⟨depths, last, hindex, hlast, (pure_eq_ok.1 h).symm⟩

/-- An instruction with one index takes it from its one argument. -/
theorem index_soleArgument_eq_ok {env : Env} {space : Space} {i : Immediate}
    (h : (do return .index (← env.index space (← soleArgument head)) :
      Except CompileError Immediate) = .ok i) :
    ∃ p n, head.arguments = [p] ∧ p.index? (env.index? space) = some n ∧ i = .index n := by
  obtain ⟨p, hp, h⟩ := bind_eq_ok.1 h
  obtain ⟨n, hn, h⟩ := bind_eq_ok.1 h
  exact ⟨p, n, soleArgument_eq_ok.1 hp, Env.index_eq_ok.1 hn, (pure_eq_ok.1 h).symm⟩

/-- A constant is what its one argument denotes. -/
theorem constant_soleArgument_eq_ok {α : Type} {read : String → Span → Except CompileError α}
    (read? : List Char → Option α) {f : α → Immediate} {i : Immediate}
    (hread : ∀ a text span, read text span = .ok a ↔ read? text.toList = some a)
    (h : (do return f (← constantArgument read head) : Except CompileError Immediate) = .ok i) :
    ∃ p a, head.arguments = [p] ∧ p.constant? read? = some a ∧ i = f a := by
  obtain ⟨a, ha, h⟩ := bind_eq_ok.1 h
  obtain ⟨p, hp, hc⟩ := (constantArgument_eq_ok (hread a)).1 ha
  exact ⟨p, a, hp, hc, (pure_eq_ok.1 h).symm⟩

end Arguments

/-- **The operand of a plain instruction** is that of its mark. -/
theorem immediate_eq_ok [HexReader] {names : Names} {locals : Locals} {labels : Labels}
    {shape : Shape} {head : Head} {i : Immediate} (hs : shape.IsPlain)
    (h : immediate ⟨names, locals, labels⟩ shape head = .ok i)
    (table : TypeTable) (children : List Expr) :
    Mark.operand? names locals table labels ⟨head, children⟩ shape = some i := by
  cases shape with
  | structured => exact absurd rfl hs.1
  | indirect => exact absurd rfl hs.2
  | none =>
      obtain ⟨_, hargs, h⟩ := bind_eq_ok.1 h
      obtain rfl := pure_eq_ok.1 h
      simp [Mark.operand?, refuseArguments_eq_ok.1 hargs]
  | memory =>
      obtain ⟨_, hargs, h⟩ := bind_eq_ok.1 h
      obtain rfl := pure_eq_ok.1 h
      simp [Mark.operand?, refuseArguments_eq_ok.1 hargs]
  | label =>
      obtain ⟨p, hp, h⟩ := bind_eq_ok.1 h
      obtain ⟨d, hd, h⟩ := bind_eq_ok.1 h
      obtain rfl := pure_eq_ok.1 h
      simp [Mark.operand?, soleArgument_eq_ok.1 hp, Env.branchDepth_eq_ok.1 hd]
  | labels =>
      obtain ⟨depths, last, hdepths, hlast, rfl⟩ := labelArguments_eq_ok h
      simp [Mark.operand?, hdepths, hlast]
  | function =>
      obtain ⟨p, n, hp, hn, rfl⟩ := index_soleArgument_eq_ok h
      have hn : p.index? (names.index? .function) = some n := hn
      simp [Mark.operand?, hp, hn]
  | «local» =>
      obtain ⟨p, n, hp, hn, rfl⟩ := index_soleArgument_eq_ok h
      have hn : p.index? locals.index? = some n := hn
      simp [Mark.operand?, hp, hn]
  | global =>
      obtain ⟨p, n, hp, hn, rfl⟩ := index_soleArgument_eq_ok h
      have hn : p.index? (names.index? .global) = some n := hn
      simp [Mark.operand?, hp, hn]
  | access natural =>
      obtain ⟨access, haccess, h⟩ := bind_eq_ok.1 h
      obtain rfl := pure_eq_ok.1 h
      rw [accessArguments_eq_ok haccess]
      simp [Mark.operand?]
  | i32 =>
      obtain ⟨p, v, hp, hv, rfl⟩ :=
        constant_soleArgument_eq_ok (Literal.word? 32) (fun _ _ _ => Literal.orInvalid_eq_ok) h
      simp [Mark.operand?, hp, hv]
  | i64 =>
      obtain ⟨p, v, hp, hv, rfl⟩ :=
        constant_soleArgument_eq_ok (Literal.word? 64) (fun _ _ _ => Literal.orInvalid_eq_ok) h
      simp [Mark.operand?, hp, hv]
  | f32 =>
      obtain ⟨p, bits, hp, hbits, rfl⟩ :=
        constant_soleArgument_eq_ok (fun text => (Literal.float .single text).toOption)
          (fun _ _ _ => Literal.readF32_eq_ok) h
      simp [Mark.operand?, hp, hbits]
  | f64 =>
      obtain ⟨p, bits, hp, hbits, rfl⟩ :=
        constant_soleArgument_eq_ok (fun text => (Literal.float .double text).toOption)
          (fun _ _ _ => Literal.readF64_eq_ok) h
      simp [Mark.operand?, hp, hbits]

/-! ## Signatures -/

namespace Signature

variable {names : Names} {table : TypeTable}

/-- A type is referred to by its name or its number, and is there. -/
theorem referred_eq_ok {p : Param} {i : Nat} (h : referred names table p = .ok i) :
    p.index? (names.index? .type) = some i ∧ i < table.count := by
  obtain ⟨j, hindex, h⟩ : ∃ j, p.index? (names.index? .type) = some j ∧
      (if j < table.count then pure j
        else throw (CompileError.malformed (.unknownIndex .type j) p.span)) = Except.ok i := by
    obtain ⟨arg, span⟩ := p
    cases arg <;>
      simp [referred, bind_eq_ok, Param.index?, Argument.numeric?, resolved_eq_ok,
        Literal.readNatural_eq_ok] at h ⊢ <;>
      exact h
  split at h
  · obtain rfl := pure_eq_ok.1 h
    exact ⟨hindex, ‹_›⟩
  · exact absurd h throw_ne_ok

theorem used_eq_ok {use : Node} {i : Nat} (h : used names table use = .ok i) :
    use.used? names = some i ∧ i < table.count := by
  rcases hargs : use.arguments with _ | ⟨p, _ | ⟨extra, ps⟩⟩
  · simp only [used, hargs] at h
    cases h
  · simp only [used, hargs] at h
    simp only [Node.used?, hargs]
    exact referred_eq_ok h
  · simp only [used, hargs] at h
    cases h

theorem agreed_eq_ok {use : Node} {beside : Option FuncType} {i : Nat}
    (h : agreed names table use beside = .ok i) :
    use.used? names = some i ∧ i < table.count := by
  obtain ⟨j, hj, h⟩ := bind_eq_ok.1 h
  split at h
  · obtain rfl := pure_eq_ok.1 h
    exact used_eq_ok hj
  · exact absurd h throw_ne_ok

/-- The parts of a signature, taken together, list the types of the
`param` forms and of the `result` forms. -/
theorem mapM_part_eq_ok {nodes : List Node} {parts : List (Option FuncType)}
    (h : nodes.mapM part = .ok parts) :
    ((nodes.filter (·.instr = "param")).flatMap (·.children)).mapM
        (fun e => (ValType.ofExpr e).toOption) = some ((parts.filterMap id).flatMap (·.params)) ∧
      ((nodes.filter (·.instr = "result")).flatMap (·.children)).mapM
        (fun e => (ValType.ofExpr e).toOption) =
        some ((parts.filterMap id).flatMap (·.results)) := by
  rw [mapM_eq_ok] at h
  induction h with
  | nil => exact ⟨rfl, rfl⟩
  | @cons n p nodes parts hpart hrest ih =>
      unfold part at hpart
      by_cases hparam : n.instr = "param"
      · have hresult : n.instr ≠ "result" := by rw [hparam]; decide
        rw [if_pos hparam] at hpart
        obtain ⟨types, htypes, hpart⟩ := bind_eq_ok.1 hpart
        obtain rfl := pure_eq_ok.1 hpart
        rw [List.filter_cons_of_pos (by simpa using hparam),
          List.filter_cons_of_neg (by simpa using hresult), List.flatMap_cons]
        exact ⟨mapM_append_eq_some.2 ⟨types, _, mapM_toOption htypes, ih.1, rfl⟩, ih.2⟩
      · rw [if_neg hparam] at hpart
        by_cases hresult : n.instr = "result"
        · rw [if_pos hresult] at hpart
          obtain ⟨types, htypes, hpart⟩ := bind_eq_ok.1 hpart
          obtain rfl := pure_eq_ok.1 hpart
          rw [List.filter_cons_of_neg (by simpa using hparam),
            List.filter_cons_of_pos (by simpa using hresult), List.flatMap_cons]
          exact ⟨ih.1, mapM_append_eq_some.2 ⟨types, _, mapM_toOption htypes, ih.2, rfl⟩⟩
        · rw [if_neg hresult] at hpart
          obtain rfl := pure_eq_ok.1 hpart
          rw [List.filter_cons_of_neg (by simpa using hparam),
            List.filter_cons_of_neg (by simpa using hresult)]
          exact ih

/-- A signature that is spelled out is the one written. -/
theorem spelled_eq_ok {n : Node} {beside : Option FuncType} (h : spelled n = .ok beside) :
    n.written? = some (beside.getD .empty) := by
  obtain ⟨parts, hparts, h⟩ := bind_eq_ok.1 h
  obtain ⟨hparams, hresults⟩ := mapM_part_eq_ok hparts
  have hwritten : n.written? = some ⟨(parts.filterMap id).flatMap (·.params),
      (parts.filterMap id).flatMap (·.results)⟩ := by
    simp only [Node.written?, Node.typesOf?, hparams, hresults]
    rfl
  rw [hwritten]
  dsimp only at h
  split at h
  · next hempty =>
      obtain rfl := pure_eq_ok.1 h
      rw [List.isEmpty_iff.1 hempty]
      rfl
  · obtain rfl := pure_eq_ok.1 h
    rfl

/-- A form has its signature by a reference into the type table or in
writing. -/
theorem ofNode_eq_ok {n : Node} {type : FuncType} {use : Option Nat}
    (h : ofNode names table n = .ok (type, use)) :
    (∃ u i, n.child? "type" = some u ∧ u.used? names = some i ∧ i < table.count ∧ use = some i) ∨
      (n.child? "type" = none ∧ n.written? = some type ∧ use = none) := by
  obtain ⟨beside, hbeside, h⟩ := bind_eq_ok.1 h
  cases hu : n.child? "type" with
  | none =>
      rw [hu] at h
      obtain ⟨rfl, rfl⟩ := Prod.mk.inj (pure_eq_ok.1 h)
      exact .inr ⟨rfl, spelled_eq_ok hbeside, rfl⟩
  | some u =>
      rw [hu] at h
      obtain ⟨i, hi, h⟩ := bind_eq_ok.1 h
      obtain ⟨-, rfl⟩ := Prod.mk.inj (pure_eq_ok.1 h)
      obtain ⟨hused, hlt⟩ := agreed_eq_ok hi
      exact .inl ⟨u, i, rfl, hused, hlt, rfl⟩

end Signature

variable {names : Names} {t t' : TypeTable} {n : Node}

/-- **The block type of a construct** is that of its mark, in any table
that holds what is registered by now. -/
theorem blockType_eq_ok {earlier : TypeTable} {type : FuncType} {use : Option Nat} {b : BlockType}
    (hsig : Signature.ofNode names earlier n = .ok (type, use))
    (h : blockType type use t = .ok b t') :
    t.Grows t' ∧ ∀ final : TypeTable, t'.entries <+: final.entries →
      n.blockType? names final = some b := by
  obtain ⟨rfl, rfl⟩ : (t.blockType type use).1 = b ∧ (t.blockType type use).2 = t' := by
    injection h with h₁ h₂
    exact ⟨h₁, h₂⟩
  obtain ⟨u, i, hu, hi, -, rfl⟩ | ⟨hu, hwritten, rfl⟩ := Signature.ofNode_eq_ok hsig
  · exact ⟨.refl, fun final _ => by simp [Node.blockType?, hu, hi, TypeTable.blockType]⟩
  · have hnew : ∀ final : TypeTable, (t.intern type).2.entries <+: final.entries →
        (final.entries.idxOf? type).map BlockType.index = some (.index (t.intern type).1) := by
      intro final hfinal
      rw [idxOf?_of_isPrefix hfinal (TypeTable.idxOf?_intern t type)]
      rfl
    simp only [Node.blockType?, hu, hwritten, Option.bind_some]
    -- Only an empty signature and a single result are not registered.
    obtain ⟨_ | ⟨param, params⟩, _ | ⟨result, _ | ⟨result', results⟩⟩⟩ := type
    · exact ⟨.refl, fun final _ => rfl⟩
    · exact ⟨.refl, fun final _ => rfl⟩
    all_goals exact ⟨.intern t _, hnew⟩

/-- **How an indirect call gives its type**: by its signature forms, or by
a single argument and no `type` form. -/
theorem callType_iff {i : Nat} :
    callType names n t = .ok i t' ↔
      (n.arguments = [] ∧ Signature.intern names t n = .ok (i, t')) ∨
        ∃ p, n.arguments = [p] ∧ n.hasChild "type" = false ∧
          Signature.referred names t p = .ok i ∧ t' = t := by
  unfold callType
  rcases hargs : n.arguments with _ | ⟨p, _ | ⟨extra, ps⟩⟩
  · constructor
    · intro h
      obtain ⟨⟨j, table⟩, _, hread, h⟩ := Typing.bind_eq_ok.1 h
      obtain ⟨hintern, rfl⟩ := Typing.read_eq_ok.1 hread
      injection h with hj htable
      subst hj htable
      exact .inl ⟨rfl, hintern⟩
    · rintro (⟨-, hintern⟩ | ⟨p, hp, -⟩)
      · exact Typing.bind_eq_ok.2 ⟨_, t, Typing.read_eq_ok.2 ⟨hintern, rfl⟩, rfl⟩
      · cases hp
  · cases hhas : n.hasChild "type" with
    | true => simp [Typing.throw_ne_ok]
    | false => simp [Typing.read_eq_ok, eq_comm (a := t)]
  · cases hhas : n.hasChild "type" with
    | true => simp [Typing.throw_ne_ok]
    | false => simp [Typing.throw_ne_ok]

/-- **The type of an indirect call** is that of its mark, in any table
that holds what is registered by now. -/
theorem callType_eq_ok [HexReader] (locals : Locals) (labels : Labels) {i : Nat}
    (h : callType names n t = .ok i t') :
    t.Grows t' ∧ ∀ final : TypeTable, t'.entries <+: final.entries →
      Mark.operand? names locals final labels n .indirect = some (.indirect i) := by
  obtain ⟨hargs, hintern⟩ | ⟨p, hargs, -, hp, rfl⟩ := callType_iff.1 h
  · obtain ⟨⟨type, use⟩, hsig, hpair⟩ := bind_eq_ok.1 hintern
    obtain ⟨u, k, hu, hk, -, rfl⟩ | ⟨hu, hwritten, rfl⟩ := Signature.ofNode_eq_ok hsig
    · obtain ⟨rfl, rfl⟩ := Prod.mk.inj (pure_eq_ok.1 hpair)
      exact ⟨.refl, fun final _ => by simp [Mark.operand?, hargs, Node.typeIndex?, hu, hk]⟩
    · have hpair : t.intern type = (i, t') := pure_eq_ok.1 hpair
      obtain ⟨rfl, rfl⟩ : (t.intern type).1 = i ∧ (t.intern type).2 = t' := by
        rw [hpair]
        exact ⟨rfl, rfl⟩
      refine ⟨.intern t type, fun final hfinal => ?_⟩
      have hi := idxOf?_of_isPrefix hfinal (TypeTable.idxOf?_intern t type)
      simp [Mark.operand?, hargs, Node.typeIndex?, hu, hwritten, hi]
  · refine ⟨.refl, fun final _ => ?_⟩
    simp [Mark.operand?, hargs, (Signature.referred_eq_ok hp).1]

end WasmText
