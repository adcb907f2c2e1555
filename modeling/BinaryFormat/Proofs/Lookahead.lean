import BinaryFormat.Proofs.Calls

/-!
# Expressions that do not look ahead

Of the bytes in front of it an expression sees nothing but what `until_marker` tells. So an expression that does not
call it has the same value wherever the names have the same values and the same number of bytes is left.
-/

namespace BinaryFormat

open Schema (Field StructDef)
open Decoding

/-- The two environments differ at most in the distances to byte sequences. -/
structure Environment.Alike (env env' : Environment) : Prop where
  get? : ∀ x, env'.get? x = env.get? x
  remaining : env'.remaining = env.remaining

/-- Only `until_marker` asks for the distance to a byte sequence. -/
theorem Builtin.call_congr {env env' : Environment} {f : Builtin} (hf : f ≠ .untilMarker) :
    f.call env' = f.call env := by
  cases f with
  | untilMarker => exact absurd rfl hf
  | parseInt =>
      funext vs
      rcases vs with _ | ⟨_, _ | ⟨_, _ | _⟩⟩ <;> rfl

namespace Expr

mutual

/-- Whether the expression asks for the distance to a byte sequence. -/
def looksAhead : Expr → Bool
  | int .. | text .. | ident .. => false
  | index _ i _ => i.looksAhead
  | call n args _ => Builtin.ofName? n == some .untilMarker || anyLooksAhead args
  | unary _ e _ => e.looksAhead
  | binary _ l r _ => l.looksAhead || r.looksAhead
  | ternary c t e _ => c.looksAhead || t.looksAhead || e.looksAhead

/-- Whether one of the expressions does. -/
def anyLooksAhead : List Expr → Bool
  | [] => false
  | e :: es => e.looksAhead || anyLooksAhead es

end

/-- A name is a binding or the number of bytes left, and both are the same. -/
theorem evalName_congr {env env' : Environment} (henv : env.Alike env') (name : String) :
    evalName env' name = evalName env name := by
  unfold evalName
  rw [henv.get?, henv.remaining]

mutual

/-- The distances to byte sequences do not matter to an expression that does not ask for one. -/
theorem eval_congr {env env' : Environment} (henv : env.Alike env') :
    ∀ e : Expr, e.looksAhead = false → e.eval env' = e.eval env
  | int .., _ | text .., _ => by rw [eval, eval]
  | ident n _, _ => by rw [eval, eval, evalName_congr henv]
  | index n i _, h => by rw [eval, eval, evalName_congr henv, eval_congr henv i h]
  | call n args _, h => by
      obtain ⟨hn, hargs⟩ := Bool.or_eq_false_iff.mp h
      rw [eval, eval, evalArgs_congr henv args hargs]
      -- Of all functions `until_marker` alone looks at the bytes ahead, and it is not called here.
      cases hf : Builtin.ofName? n with
      | none => rfl
      | some f =>
          have hne : f ≠ .untilMarker := fun he => by
            rw [hf, he] at hn
            cases hn
          dsimp only
          rw [Builtin.call_congr hne]
  | unary op e _, h => by cases op <;> rw [eval, eval, eval_congr henv e h]
  | binary op l r _, h => by
      obtain ⟨hl, hr⟩ := Bool.or_eq_false_iff.mp h
      cases op <;> rw [eval, eval, eval_congr henv l hl, eval_congr henv r hr] <;> exact nofun
  | ternary c t e _, h => by
      obtain ⟨hct, he⟩ := Bool.or_eq_false_iff.mp h
      obtain ⟨hc, ht⟩ := Bool.or_eq_false_iff.mp hct
      rw [eval, eval, eval_congr henv c hc, eval_congr henv t ht, eval_congr henv e he]

theorem evalArgs_congr {env env' : Environment} (henv : env.Alike env') :
    ∀ es : List Expr, anyLooksAhead es = false → evalArgs env' es = evalArgs env es
  | [], _ => rfl
  | e :: es, h => by
      obtain ⟨he, hes⟩ := Bool.or_eq_false_iff.mp h
      rw [evalArgs, evalArgs, eval_congr henv e he, evalArgs_congr henv es hes]

end

end Expr

end BinaryFormat
