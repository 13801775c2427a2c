import WasmText.Module.Registrar
import WasmText.Proofs.Module.Registration
/-!
# Refused operations

An import is refused once its space has a definition, and a memory when it
is shared without a maximum. A registrar writes to its draft piece by piece
and keeps what it has written when it fails, so a refusal leaves no trace
only because the condition is looked at before anything is written
(`refuseIf_bind_eq_error`). It follows that whatever is asked of the
registrar afterwards is answered as if the refused call had not been made
(`refusal_leaves_no_trace`).
-/

namespace WasmText

namespace Registrar

variable {α β : Type} {d d' : Draft} {e : CompileError}

/-! ## Refusing before writing -/

/-- Work that never fails. -/
def Unfailing (x : Registrar α) : Prop := ∀ d, ∃ a d', x d = .ok a d'

theorem unfailing_pure (a : α) : Unfailing (pure a) := fun d => ⟨a, d, rfl⟩

theorem unfailing_modifyGet (f : Draft → α × Draft) : Unfailing (modifyGet f) :=
  fun d => ⟨(f d).1, (f d).2, rfl⟩

theorem unfailing_modify (f : Draft → Draft) : Unfailing (modify f) :=
  unfailing_modifyGet fun d => ((), f d)

/-- Steps that never refuse are together one that never does. -/
theorem Unfailing.bind {x : Registrar α} {f : α → Registrar β} (hx : Unfailing x)
    (hf : ∀ a, Unfailing (f a)) : Unfailing (x >>= f) := by
  intro d
  obtain ⟨a, d₁, ha⟩ := hx d
  obtain ⟨b, d₂, hb⟩ := hf a d₁
  exact ⟨b, d₂, (bind_of_state_ok ha).trans hb⟩

theorem refuseIf_eq (condition : Draft → Bool) (defect : Defect) (span : Span) (d : Draft) :
    refuseIf condition defect span d =
      if condition d then .error (.malformed defect span) d else .ok () d := by
  unfold refuseIf
  change (if condition d then throw (.malformed defect span) else pure () : Registrar Unit) d = _
  split <;> rfl

/-- A refusal comes before whatever follows, and so before anything is
written. -/
theorem refuseIf_bind (condition : Draft → Bool) (defect : Defect) (span : Span)
    (x : Registrar α) (d : Draft) :
    (refuseIf condition defect span >>= fun _ => x) d =
      if condition d then .error (.malformed defect span) d else x d := by
  change EStateM.bind _ _ _ = _
  rw [EStateM.bind, refuseIf_eq]
  by_cases h : condition d = true
  · simp [h]
  · simp [h]

/-- **What is refused before anything is written leaves no trace.** -/
theorem refuseIf_bind_eq_error {condition : Draft → Bool} {defect : Defect} {span : Span}
    {x : Registrar α} (hx : Unfailing x) :
    (refuseIf condition defect span >>= fun _ => x) d = .error e d' ↔
      condition d = true ∧ .malformed defect span = e ∧ d' = d := by
  rw [refuseIf_bind]
  by_cases h : condition d = true
  · simp [h, eq_comm]
  · obtain ⟨a, d₁, ha⟩ := hx d
    simp [h, ha]

theorem unfailing_bindName (space : Space) (name : Option String) (index : Nat) :
    Unfailing (bindName space name index >>= fun _ => pure index) :=
  (unfailing_modify _).bind fun _ => unfailing_pure index

/-- An import is refused exactly when its space has a definition. -/
theorem importInto_eq_error {space : Space} {hasDefinition : Draft → Bool}
    {enter : Registrar Nat} (henter : Unfailing enter) {name : Option String} {i : Import}
    {span : Span} :
    importInto space hasDefinition enter name i span d = .error e d' ↔
      hasDefinition d = true ∧ .malformed (.importAfter space) span = e ∧ d' = d := by
  refine refuseIf_bind_eq_error ?_
  exact (unfailing_modify _).bind fun _ => henter.bind fun index => unfailing_bindName _ _ index

/-- A memory is refused exactly when it is shared without a maximum. -/
theorem addMemory_eq_error {name : Option String} {limits : Limits} {span : Span} :
    addMemory name limits span d = .error e d' ↔
      (limits.shared && limits.max.isNone) = true ∧ .malformed .sharedWithoutMaximum span = e ∧
        d' = d := by
  refine refuseIf_bind_eq_error ?_
  exact (unfailing_modifyGet _).bind fun index => unfailing_bindName _ _ index

/-! ## In place and by value

The operations of a draft by value, which give a new draft or none, are
those in place. -/

/-- What an operation by value comes to in place. -/
def settle (d : Draft) : Except CompileError (α × Draft) → EStateM.Result CompileError Draft α
  | .ok (a, d') => .ok a d'
  | .error e => .error e d

theorem importFunction_eq (d : Draft) (name : Option String) (module field : String) (type : Nat)
    (span : Span) :
    importFunction name module field type span d =
      settle d (d.importFunction name module field type span) := by
  rw [importFunction, importInto, refuseIf_bind, Draft.importFunction]
  split <;> rfl

theorem importMemory_eq (d : Draft) (name : Option String) (module field : String)
    (limits : Limits) (span : Span) :
    importMemory name module field limits span d =
      settle d (d.importMemory name module field limits span) := by
  rw [importMemory, importInto, refuseIf_bind, Draft.importMemory]
  split <;> rfl

theorem importGlobal_eq (d : Draft) (name : Option String) (module field : String)
    (type : GlobalType) (span : Span) :
    importGlobal name module field type span d =
      settle d (d.importGlobal name module field type span) := by
  rw [importGlobal, importInto, refuseIf_bind, Draft.importGlobal]
  split <;> rfl

theorem addMemory_eq (d : Draft) (name : Option String) (limits : Limits) (span : Span) :
    addMemory name limits span d = settle d (d.addMemory name limits span) := by
  rw [addMemory, refuseIf_bind, Draft.addMemory]
  split <;> rfl

/-- What is done with an answer does not change how the step settles. -/
theorem map_settle {x : Registrar α} {r : Except CompileError (α × Draft)} (h : x d = settle d r)
    (f : α → β) : (f <$> x) d = settle d (r.map fun p => (f p.1, p.2)) := by
  change EStateM.map f x d = _
  rw [EStateM.map, h]
  cases r <;> rfl

end Registrar

namespace Draft

/-! ## Operations in place -/

/-- An operation in place. It answers an index if it registers something. -/
def Operation.execute : Operation → Registrar (Option Nat)
  | .internType type => some <$> modifyGet (·.internType type)
  | .addType name type => some <$> modifyGet (·.addType name type)
  | .importFunction name module field type span =>
    some <$> Registrar.importFunction name module field type span
  | .importMemory name module field limits span =>
    some <$> Registrar.importMemory name module field limits span
  | .importGlobal name module field type span =>
    some <$> Registrar.importGlobal name module field type span
  | .addFunction name type => some <$> modifyGet (·.addFunction name type)
  | .setCode index code => modifyGet fun d => (none, d.setCode index code)
  | .addTable name limits => some <$> modifyGet (·.addTable name limits)
  | .addMemory name limits span => some <$> Registrar.addMemory name limits span
  | .addGlobal name global => some <$> modifyGet (·.addGlobal name global)
  | .addExport e => modifyGet fun d => (none, d.addExport e)
  | .setStart target => modifyGet fun d => (none, d.setStart target)
  | .addElement e => modifyGet fun d => (none, d.addElement e)
  | .addData s => modifyGet fun d => (none, d.addData s)

/-- The error that an operation is refused with, if it can be. -/
def Operation.complaint? : Operation → Option CompileError
  | .importFunction _ _ _ _ span => some (.malformed (.importAfter .function) span)
  | .importMemory _ _ _ _ span => some (.malformed (.importAfter .memory) span)
  | .importGlobal _ _ _ _ span => some (.malformed (.importAfter .global) span)
  | .addMemory _ _ span => some (.malformed .sharedWithoutMaximum span)
  | _ => none

/-- When an operation is refused: an import whose space has a definition,
and a memory that is shared without a maximum. -/
def Operation.RefusedIn (d : Draft) : Operation → Prop
  | .importFunction .. => d.definitions .function ≠ []
  | .importMemory .. => d.definitions .memory ≠ []
  | .importGlobal .. => d.definitions .global ≠ []
  | .addMemory _ limits _ => limits.shared = true ∧ limits.max = none
  | _ => False

variable {d d' : Draft} {e : CompileError} {op : Operation}

/-- A function is defined exactly if one of them is not imported. -/
theorem any_iff_definitions : (d.functions.any (!·.imported)) = true ↔
    d.definitions .function ≠ [] := by
  rw [definitions, Ne, List.map_eq_nil_iff, defined, List.filter_eq_nil_iff]
  simp

/-- An answer that is passed on is refused exactly if it was. -/
theorem map_eq_error {α β : Type} {x : Registrar α} {f : α → β} :
    (f <$> x) d = .error e d' ↔ x d = .error e d' := by
  change EStateM.map f x d = _ ↔ _
  rw [EStateM.map]
  cases x d <;> simp

/-- **An operation fails exactly when it is to be refused**, with its own
error, and leaves the draft as it was. -/
theorem execute_eq_error :
    op.execute d = .error e d' ↔ op.RefusedIn d ∧ op.complaint? = some e ∧ d' = d := by
  cases op with
  | importFunction name module field type span =>
      refine map_eq_error.trans ((Registrar.importInto_eq_error ?_).trans ?_)
      · exact Registrar.unfailing_modifyGet _
      · simp only [any_iff_definitions, Operation.RefusedIn, Operation.complaint?,
          Option.some.injEq]
  | importMemory name module field limits span =>
      refine map_eq_error.trans ((Registrar.importInto_eq_error ?_).trans ?_)
      · exact Registrar.unfailing_modifyGet _
      · simp [Operation.RefusedIn, Operation.complaint?, definitions]
  | importGlobal name module field type span =>
      refine map_eq_error.trans ((Registrar.importInto_eq_error ?_).trans ?_)
      · exact Registrar.unfailing_modifyGet _
      · simp [Operation.RefusedIn, Operation.complaint?, definitions]
  | addMemory name limits span =>
      refine map_eq_error.trans (Registrar.addMemory_eq_error.trans ?_)
      simp [Operation.RefusedIn, Operation.complaint?, and_assoc]
  | _ =>
      simp only [Operation.RefusedIn, false_and, iff_false]
      intro h
      cases h

/-- Operations in place are those by value. -/
theorem execute_eq (op : Operation) (d : Draft) :
    op.execute d =
      Registrar.settle d ((d.perform op).map fun r => (r.1.map (·.index), r.2)) := by
  cases op with
  | importFunction name module field type span =>
      refine (Registrar.map_settle (Registrar.importFunction_eq ..) _).trans ?_
      rw [perform]
      cases d.importFunction name module field type span <;> rfl
  | importMemory name module field limits span =>
      refine (Registrar.map_settle (Registrar.importMemory_eq ..) _).trans ?_
      rw [perform]
      cases d.importMemory name module field limits span <;> rfl
  | importGlobal name module field type span =>
      refine (Registrar.map_settle (Registrar.importGlobal_eq ..) _).trans ?_
      rw [perform]
      cases d.importGlobal name module field type span <;> rfl
  | addMemory name limits span =>
      refine (Registrar.map_settle (Registrar.addMemory_eq ..) _).trans ?_
      rw [perform]
      cases d.addMemory name limits span <;> rfl
  | _ => rfl

/-! ## Definitions -/

/-- The spaces that imports and definitions share. -/
def importSpaces : List Space := [.function, .memory, .global]

/-- What an operation defines in one of these spaces when it is not
refused. -/
def Operation.definition (s : Space) : Operation → List Entity
  | .addFunction _ type => if s = .function then [.function type] else []
  | .addMemory _ limits _ => if s = .memory then [.memory limits] else []
  | .addGlobal _ global => if s = .global then [.global global] else []
  | _ => []

/-- Names are no definitions. -/
theorem definitions_bind (d : Draft) (s : Space) (name : Option String) (index : Nat) :
    (d.bind s name index).definitions = d.definitions := by
  cases name <;> rfl

/-- What an operation defines comes after the definitions there were. -/
theorem definitions_perform {registered : Option Registration}
    (h : d.perform op = .ok (registered, d')) {s : Space} (hs : s ∈ importSpaces) :
    d'.definitions s = d.definitions s ++ op.definition s := by
  have hspaces : s = .function ∨ s = .memory ∨ s = .global := by simpa [importSpaces] using hs
  cases op with
  | importFunction name module field type span | importMemory name module field type span
  | importGlobal name module field type span =>
      obtain ⟨⟨index, d₁⟩, himport, hrun⟩ := bind_eq_ok.1 h
      obtain ⟨rfl, rfl⟩ := Prod.mk.inj (pure_eq_ok.1 hrun)
      simp only [importFunction, importMemory, importGlobal] at himport
      split at himport
      · cases himport
      · obtain ⟨rfl, rfl⟩ := Prod.mk.inj (Except.ok.inj himport)
        rw [definitions_bind]
        rcases hspaces with rfl | rfl | rfl <;>
          simp [definitions, defined, addImport, Operation.definition]
  | addMemory name limits span =>
      obtain ⟨⟨index, d₁⟩, hadd, hrun⟩ := bind_eq_ok.1 h
      obtain ⟨rfl, rfl⟩ := Prod.mk.inj (pure_eq_ok.1 hrun)
      unfold addMemory at hadd
      split at hadd
      · cases hadd
      · obtain ⟨rfl, rfl⟩ := Prod.mk.inj (Except.ok.inj hadd)
        rw [definitions_bind]
        rcases hspaces with rfl | rfl | rfl <;> simp [definitions, defined, Operation.definition]
  | setCode index code =>
      obtain ⟨rfl, rfl⟩ := Prod.mk.inj (Except.ok.inj h)
      refine Eq.trans ?_ (List.append_nil _).symm
      rcases hspaces with rfl | rfl | rfl
      · exact defined_map_congr (d.setCode_entries index code) fun f => Entity.function f.2.1
      · rfl
      · rfl
  | addFunction name type | addGlobal name global | addTable name limits | addType name type =>
      obtain ⟨rfl, rfl⟩ := Prod.mk.inj (Except.ok.inj h)
      refine (congrFun (definitions_bind ..) s).trans ?_
      rcases hspaces with rfl | rfl | rfl <;>
        simp [definitions, defined, Operation.definition]
  | internType type | addExport e | setStart target | addElement e | addData segment =>
      obtain ⟨rfl, rfl⟩ := Prod.mk.inj (Except.ok.inj h)
      refine Eq.trans ?_ (List.append_nil _).symm
      rcases hspaces with rfl | rfl | rfl <;> rfl

end Draft

namespace Registrar

open Draft

/-! ## Calls -/

/-- What can be asked of a registrar. -/
inductive Call where
  | perform (op : Operation)
  | resolve (space : Space) (target : Target)
  | typeAt (index : Nat)
  | typeCount
  | functions
  | blockType (type : FuncType) (use : Option Nat)
  | build

/-- What a call is answered with. -/
inductive Answer where
  | index (index : Option Nat)
  | type (type : Option FuncType)
  | functions (functions : List Function)
  | bytes (bytes : List UInt8)

/-- Work that only looks at the draft. -/
def look {α : Type} (f : Draft → Except CompileError α) : Registrar α :=
  fun d => settle d ((f d).map (·, d))

def Call.answer : Call → Registrar Answer
  | perform op => .index <$> op.execute
  | resolve space target => look fun d => (d.resolve space target).map fun i => .index (some i)
  | typeAt index => look fun d => .ok (.type (d.types.at? index))
  | typeCount => look fun d => .ok (.index (some d.types.count))
  | functions => look fun d => .ok (.functions d.functions)
  | blockType type use =>
    modifyGet fun d =>
      let (block, types) := d.types.blockType type use
      (.bytes block.encode, { d with types })
  | build => look fun d => d.build.map .bytes

/-- The answer to a call or the error it fails with, and the draft that it
leaves. -/
def Call.step (c : Call) (d : Draft) : Except CompileError Answer × Draft :=
  match c.answer d with
  | .ok answer d' => (.ok answer, d')
  | .error e d' => (.error e, d')

/-- The draft that calls leave, one after the other. -/
def draftAfter (d : Draft) (calls : List Call) : Draft :=
  calls.foldl (fun d c => (c.step d).2) d

/-- The replies to calls, one after the other. -/
def replies (d : Draft) : List Call → List (Except CompileError Answer)
  | [] => []
  | c :: calls => (c.step d).1 :: replies (c.step d).2 calls

theorem draftAfter_append (d : Draft) (calls calls' : List Call) :
    draftAfter d (calls ++ calls') = draftAfter (draftAfter d calls) calls' :=
  List.foldl_append

/-- The replies to calls are those to the first ones, then those to the
rest. -/
theorem replies_append (d : Draft) (calls calls' : List Call) :
    replies d (calls ++ calls') = replies d calls ++ replies (draftAfter d calls) calls' := by
  induction calls generalizing d with
  | nil => rfl
  | cons c calls ih => exact congrArg (_ :: ·) (ih _)

theorem length_replies (d : Draft) (calls : List Call) :
    (replies d calls).length = calls.length := by
  induction calls generalizing d with
  | nil => rfl
  | cons c calls ih => exact congrArg (· + 1) (ih _)

/-- A refused operation is answered by its error and changes nothing. -/
theorem step_of_refused {op : Operation} {d : Draft} (h : op.RefusedIn d) :
    ∃ e, op.complaint? = some e ∧ (Call.perform op).step d = (.error e, d) := by
  obtain ⟨e, he⟩ : ∃ e, op.complaint? = some e := by
    cases op <;> first | exact ⟨_, rfl⟩ | exact h.elim
  refine ⟨e, he, ?_⟩
  have hanswer : (Call.perform op).answer d = .error e d :=
    map_eq_error.2 (execute_eq_error.2 ⟨h, he, rfl⟩)
  rw [Call.step, hanswer]

/-- An operation that is not refused does what it does by value. -/
theorem step_of_not_refused {op : Operation} {d : Draft} (h : ¬ op.RefusedIn d) :
    ∃ registered d', d.perform op = .ok (registered, d') ∧ ((Call.perform op).step d).2 = d' := by
  cases hop : d.perform op with
  | error e =>
      have hfails : op.execute d = .error e d := by
        rw [execute_eq, hop]
        rfl
      exact absurd (execute_eq_error.1 hfails).1 h
  | ok result =>
      have hanswer := map_settle (execute_eq op d) Answer.index
      refine ⟨result.1, result.2, rfl, ?_⟩
      rw [Call.step, Call.answer, hanswer, hop]
      rfl

/-- Whether a call makes a definition in a space. -/
def Call.Defines (s : Space) : Call → Prop
  | perform (.addFunction ..) => s = .function
  | perform (.addMemory _ limits _) =>
    s = .memory ∧ ¬ (limits.shared = true ∧ limits.max = none)
  | perform (.addGlobal ..) => s = .global
  | _ => False

/-- A refused operation defines nothing. -/
theorem not_defines_of_refused {op : Operation} {d : Draft} (h : op.RefusedIn d) (s : Space) :
    ¬ (Call.perform op).Defines s := by
  cases op with
  | addMemory name limits span => exact fun hdefines => hdefines.2 h
  | addFunction name type | addGlobal name global => exact h.elim
  | _ => exact id

/-- An operation that is not refused defines what it says. -/
theorem defines_iff_of_not_refused {op : Operation} {d : Draft} (h : ¬ op.RefusedIn d)
    (s : Space) : (Call.perform op).Defines s ↔ op.definition s ≠ [] := by
  cases op with
  | addMemory name limits span =>
      constructor
      · rintro ⟨rfl, -⟩
        simp [Operation.definition]
      · intro hne
        exact ⟨by_contra fun hs => hne (if_neg hs), h⟩
  | addFunction name type | addGlobal name global => simp [Call.Defines, Operation.definition]
  | _ => simp [Call.Defines, Operation.definition]

/-- A call that only looks leaves the draft alone. -/
theorem step_draft_of_look {f : Draft → Except CompileError Answer} {c : Call} {d : Draft}
    (h : c.answer = look f) : (c.step d).2 = d := by
  rw [Call.step, h, look]
  cases f d <;> rfl

/-- A call leaves definitions in a space exactly when there were some or it
makes one. -/
theorem definitions_step (c : Call) (d : Draft) {s : Space} (hs : s ∈ importSpaces) :
    (c.step d).2.definitions s ≠ [] ↔ d.definitions s ≠ [] ∨ c.Defines s := by
  cases c with
  | perform op =>
      by_cases hrefused : op.RefusedIn d
      · obtain ⟨e, -, hstep⟩ := step_of_refused hrefused
        rw [hstep, or_iff_left (not_defines_of_refused hrefused s)]
      · obtain ⟨registered, d', hop, hstep⟩ := step_of_not_refused hrefused
        rw [hstep, definitions_perform hop hs, defines_iff_of_not_refused hrefused, Ne,
          List.append_eq_nil_iff, not_and_or]
  | blockType type use =>
      have hkept : ((Call.blockType type use).step d).2.definitions s = d.definitions s := by
        obtain rfl | rfl | rfl : s = .function ∨ s = .memory ∨ s = .global := by
          simpa [importSpaces] using hs
        all_goals rfl
      rw [hkept]
      exact (or_iff_left id).symm
  | resolve space target | typeAt index | typeCount | functions | build =>
      rw [step_draft_of_look rfl]
      exact (or_iff_left id).symm

/-- **Definitions come from the calls that made them.** -/
theorem definitions_draftAfter (d : Draft) (calls : List Call) {s : Space}
    (hs : s ∈ importSpaces) :
    (draftAfter d calls).definitions s ≠ [] ↔
      d.definitions s ≠ [] ∨ ∃ c ∈ calls, c.Defines s := by
  induction calls generalizing d with
  | nil => simp [draftAfter]
  | cons c calls ih =>
      refine (ih _).trans ?_
      rw [definitions_step c d hs, List.exists_mem_cons_iff, or_assoc]

/-- **A refused call leaves no trace.** After any calls, an operation fails
exactly when it is an import whose space has a definition or a memory that
is shared without a maximum. A space has a definition exactly when one of
the calls made one. The failing operation gives its own error and leaves
the whole draft as it was. Whatever is called afterwards, the replies
without that of the refused call are the replies to the calls without it,
and the draft in the end is the same. -/
theorem refusal_leaves_no_trace (before : List Call) (op : Operation) :
    (∀ e d', op.execute (draftAfter .empty before) = .error e d' ↔
        op.RefusedIn (draftAfter .empty before) ∧ op.complaint? = some e ∧
          d' = draftAfter .empty before) ∧
      (∀ s ∈ importSpaces, (draftAfter .empty before).definitions s ≠ [] ↔
        ∃ c ∈ before, c.Defines s) ∧
      (op.RefusedIn (draftAfter .empty before) → ∀ after,
        (∃ e, op.complaint? = some e ∧
          (replies .empty (before ++ .perform op :: after))[before.length]? = some (.error e)) ∧
        (replies .empty (before ++ .perform op :: after)).eraseIdx before.length =
          replies .empty (before ++ after) ∧
        draftAfter .empty (before ++ .perform op :: after) =
          draftAfter .empty (before ++ after)) := by
  refine ⟨fun e d' => execute_eq_error, fun s hs => ?_, fun hrefused after => ?_⟩
  · refine (definitions_draftAfter .empty before hs).trans (or_iff_right ?_)
    obtain rfl | rfl | rfl : s = .function ∨ s = .memory ∨ s = .global := by
      simpa [importSpaces] using hs
    all_goals exact fun h => h rfl
  · obtain ⟨e, he, hstep⟩ := step_of_refused hrefused
    have hreplies : replies .empty (before ++ .perform op :: after) =
        replies .empty before ++ .error e :: replies (draftAfter .empty before) after := by
      rw [replies_append, replies, hstep]
    have hlength := length_replies .empty before
    refine ⟨⟨e, he, ?_⟩, ?_, ?_⟩
    · rw [hreplies, List.getElem?_append_right (Nat.le_of_eq hlength), hlength, Nat.sub_self]
      rfl
    · rw [hreplies, List.eraseIdx_append_of_length_le (Nat.le_of_eq hlength), hlength, Nat.sub_self,
        replies_append]
      rfl
    · rw [draftAfter_append, draftAfter_append]
      change draftAfter ((Call.perform op).step _).2 after = _
      rw [hstep]

/-- An import that would take the name of a function defined before. -/
def lateImport : Operation := .importFunction (some "f") "m" "g" 0 .zero

theorem refusal_leaves_no_trace_late :
    lateImport.RefusedIn (draftAfter .empty [.perform (.addFunction (some "f") 0)]) ∧
      (replies .empty [.perform (.addFunction (some "f") 0), .perform lateImport,
          .resolve .function (.name "f" .zero), .build]).eraseIdx 1 =
        replies .empty [.perform (.addFunction (some "f") 0),
          .resolve .function (.name "f" .zero), .build] := by
  have hrefused : lateImport.RefusedIn (draftAfter .empty [.perform (.addFunction (some "f") 0)]) :=
    List.cons_ne_nil _ _
  have htrace := (refusal_leaves_no_trace [.perform (.addFunction (some "f") 0)] lateImport).2.2
    hrefused [.resolve .function (.name "f" .zero), .build]
  exact ⟨hrefused, htrace.2.1⟩

end Registrar

end WasmText
