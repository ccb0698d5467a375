import Stepwise.Eval.Node
import Stepwise.Proofs.ParserImage

/-!
# Actions side by side

Two actions are related if they do the same on machines that are related: they give the same
result and leave machines that are related again. With it goes a property of the result, so
that what follows can rely on it. What an evaluator is made of keeps actions related: one after
the other, a choice, a loop.

- `Action.Related R P x y`: on machines with `R`, the actions `x` and `y` give the same result,
  which has the property `P`, and leave machines with `R`.
-/

namespace Stepwise.Action

variable {α β : Type} {R : Machine → Machine → Prop} {P : α → Prop} {Q : β → Prop}

/-- On related machines `y` gives the result of `x`, with the property, and leaves related
machines. -/
def Related (R : Machine → Machine → Prop) (P : α → Prop) (x y : Action α) : Prop :=
  ∀ m m', R m m' → (y m').1 = (x m).1 ∧ R (x m).2 (y m').2 ∧ Yields P (x m).1

namespace Related

theorem pure {a : α} (h : P a) : Related R P (pure a) (pure a) := by
  intro m m' hm
  exact ⟨rfl, hm, .pure h⟩

theorem throw (e : Fault) : Related R P (throw e) (throw e) := by
  intro m m' hm
  exact ⟨rfl, hm, .error e⟩

theorem lift {x : Except Fault α} (h : Yields P x) : Related R P (liftM x) (liftM x) := by
  intro m m' hm
  exact ⟨rfl, hm, h⟩

/-- One action after the other, on related machines. -/
theorem bind {x y : Action α} {f g : α → Action β} (hx : Related R P x y)
    (hf : ∀ a, P a → Related R Q (f a) (g a)) : Related R Q (x >>= f) (y >>= g) := by
  intro m m' hm
  obtain ⟨hsame, hrelated, hyields⟩ := hx m m' hm
  cases hxm : x m with
  | mk r m₁ =>
    cases hym : y m' with
    | mk r' m₁' =>
      rw [hxm, hym] at hsame hrelated
      rw [hxm] at hyields
      obtain rfl : r' = r := hsame
      cases r' with
      | ok a =>
        rw [bind_ok f hxm, bind_ok g hym]
        exact hf a (hyields a rfl) m₁ m₁' hrelated
      | error e =>
        rw [bind_error f hxm, bind_error g hym]
        exact ⟨rfl, hrelated, .error e⟩

/-- A computation without effect, and what follows if it succeeds. -/
theorem liftBind {x : Except Fault α} {f g : α → Action β}
    (hf : ∀ a, x = .ok a → Related R Q (f a) (g a)) :
    Related R Q (liftM x >>= f) (liftM x >>= g) := by
  cases x with
  | ok a => exact hf a rfl
  | error e => exact throw e

/-- What follows a fault is never reached. -/
theorem throwBind {e : Fault} {f g : α → Action β} :
    Related R Q ((MonadExcept.throw e : Action α) >>= f)
      ((MonadExcept.throw e : Action α) >>= g) := by
  intro m m' hm
  exact ⟨rfl, hm, .error e⟩

theorem ite {c : Prop} [Decidable c] {x x' y y' : Action α} (hx : c → Related R P x y)
    (hx' : ¬c → Related R P x' y') : Related R P (if c then x else x') (if c then y else y') := by
  split
  · exact hx ‹c›
  · exact hx' ‹¬c›

/-- A loop whose conditions and bodies are related. -/
theorem repeatWhile {P Q : Completion → Prop} {c c' b b' : Action Completion}
    (hc : Related R Q c c') (hb : Related R P b b') (hnull : P (.normal .null)) (n : Nat) :
    Related R P (Node.repeatWhile c b n) (Node.repeatWhile c' b' n) := by
  induction n with
  | zero => exact throw _
  | succ n ih =>
    refine hc.bind fun v _ => ite (fun _ => ?_) fun _ => pure hnull
    exact hb.bind fun done hdone => ite (fun _ => pure hdone) fun _ => ih

end Related

end Stepwise.Action
