import WasmText.Proofs.Layout
import Mathlib.Logic.Equiv.Basic
/-!
# Names are only names

Names are compared with each other and with nothing else. So new names
throughout a tree, different ones for different ones, lead to the same
bytes; and a tree that does not compile fails under its new names at the
same place, for the same kind of reason (`renaming_irrelevant`). The same
name may stand for a function, a local and a label at once: it gets the
same new name in each of its roles.
-/

namespace WasmText

/-- Every name is another one, no two the same, and all else stays. -/
def Guise.renaming {name : String → String} (hname : Function.Injective name) : Guise :=
  { bare with name, place := id, name_injective := hname, place_zero := rfl }

namespace CompileError

/-- What kind of error it is, with neither details nor place. -/
inductive Variant where
  | parse
  | unknownInstruction
  | unresolved
  | invalidLiteral
  | malformed
deriving DecidableEq

def variant : CompileError → Variant
  | parse _ => .parse
  | unknownInstruction _ _ => .unknownInstruction
  | unresolved _ _ _ => .unresolved
  | invalidLiteral _ _ _ => .invalidLiteral
  | malformed _ _ => .malformed

theorem Alike.variant_eq {g : Guise} {e e' : CompileError} (h : e.Alike g e') :
    e'.variant = e.variant := by
  cases h <;> rfl

end CompileError

theorem Agree.exists_error {α β : Type} {g : Guise} {f : α → β} {x : Except CompileError α}
    {y : Except CompileError β} (h : Agree g f x y) {e : CompileError} (hx : x = .error e) :
    ∃ e', y = .error e' ∧ e.Alike g e' := by
  cases h with
  | ok a => cases hx
  | error halike =>
      cases hx
      exact ⟨_, rfl, halike⟩

/-- **Names are only names.** A module under new names compiles to the
bytes it compiles to under its own, or fails with an error of the same
kind at the same place. -/
theorem renaming_irrelevant [HexReader] {name : String → String} (hname : Function.Injective name)
    (n : Node) :
    (∀ bytes, (n.dress (.renaming hname)).compile = .ok bytes ↔ n.compile = .ok bytes) ∧
      ∀ e, n.compile = .error e → ∃ e', (n.dress (.renaming hname)).compile = .error e' ∧
        e'.variant = e.variant ∧ e'.span = e.span := by
  have hagree : Agree (.renaming hname) id n.compile (n.dress (.renaming hname)).compile :=
    agree_compile n
  refine ⟨fun bytes => hagree.eq_ok_iff, fun e he => ?_⟩
  obtain ⟨e', hfails, halike⟩ := hagree.exists_error he
  exact ⟨e', hfails, halike.variant_eq, halike.span_eq⟩

/-- Two names change places, where each stands for a function and for a
local and one for a label too, and where one stands for nothing. -/
theorem renaming_irrelevant_swapped :
    (∃ n, parse "(func $a(local $b i32)(block $a(br_if $a(local.get $b)))(call $b))
        (func $b(param $a i32))" = .ok n ∧
      (n.dress (.renaming (Equiv.swap "a" "b").injective)).compile = .ok [0x00, 0x61, 0x73, 0x6D,
        0x01, 0x00, 0x00, 0x00, 0x01, 0x08, 0x02, 0x60, 0x00, 0x00, 0x60, 0x01, 0x7F, 0x00, 0x03,
        0x03, 0x02, 0x00, 0x01, 0x0A, 0x12, 0x02, 0x0D, 0x01, 0x01, 0x7F, 0x02, 0x40, 0x20, 0x00,
        0x0D, 0x00, 0x0B, 0x10, 0x01, 0x0B, 0x02, 0x00, 0x0B]) ∧
    ∃ e', (Node.dress (.renaming (Equiv.swap "a" "b").injective)
          ⟨.plain "module" .zero, [.node ⟨"start", some ⟨"a", ⟨7, 9, 1, 8⟩⟩, [], .zero⟩ []]⟩).compile =
        .error e' ∧ e'.variant = .unresolved ∧ e'.span = ⟨7, 9, 1, 8⟩ := by
  refine ⟨?_, (renaming_irrelevant _ _).2 (.unresolved .function "a" ⟨7, 9, 1, 8⟩) (by decide +kernel)⟩
  exact (compile_eq_ok.1 (by decide +kernel)).imp fun n h =>
    ⟨h.1, ((renaming_irrelevant _ n).1 _).2 h.2⟩

end WasmText
