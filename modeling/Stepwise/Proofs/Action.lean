import Stepwise.Eval.Action

/-!
# Laws of actions

How a sequence of actions ends, and how runs with different budgets compare:

- `Action.bind_eq`: a sequence ends as its second part does, on the machine that
  the first left, or with the first one's fault;
- `Action.Extends x y`: `y` does what `x` does wherever `x` does not run out of
  budget. A sequence is extended as soon as its parts are;
- `Action.Growing x`: of the runs `x 0`, `x 1`, … each extends those before it;
- `Action.Reaches x m r m'`: one of these runs, and hence every later one, takes `m`
  to `m'` with the result `r`. This is what a program does, whatever the budget.
-/

namespace Stepwise.Action

variable {α β : Type}

/-! ## Sequences -/

/-- The two ways in which a sequence ends. -/
theorem bind_eq {x : Action α} {f : α → Action β} {m m' : Machine} {r : Except Fault β}
    (h : (x >>= f) m = (r, m')) :
    (∃ a m₁, x m = (.ok a, m₁) ∧ f a m₁ = (r, m')) ∨ ∃ e, x m = (.error e, m') ∧ r = .error e := by
  cases hx : x m with
  | mk first m₁ =>
    cases first with
    | ok a => exact .inl ⟨a, m₁, rfl, (bind_ok f hx).symm.trans h⟩
    | error e =>
      rw [bind_error f hx] at h
      cases h
      exact .inr ⟨e, rfl, rfl⟩

/-- A sequence that succeeds has succeeded in both parts. -/
theorem bind_eq_ok {x : Action α} {f : α → Action β} {m m' : Machine} {b : β}
    (h : (x >>= f) m = (.ok b, m')) :
    ∃ a m₁, x m = (.ok a, m₁) ∧ f a m₁ = (.ok b, m') := by
  obtain h | ⟨e, -, he⟩ := bind_eq h
  · exact h
  · cases he

/-- Nothing happens behind a fault. -/
@[simp] theorem throw_bind (e : Fault) (f : α → Action β) : (throw e >>= f) = throw e := rfl

theorem environment_bind (f : Value → Action α) (m : Machine) :
    (Action.environment >>= f) m = f m.environment m := rfl

/-- What happens in a frame is over when its action is, but for what is printed. -/
theorem inFrame_eq {frame : Value} {x : Action α} {m m' : Machine} {r : Except Fault α}
    (h : x ⟨frame, m.printed⟩ = (r, m')) :
    Action.inFrame frame x m = (r, ⟨m.environment, m'.printed⟩) := by
  unfold Action.inFrame
  rw [h]

/-- In a frame only what an action does there matters. -/
theorem inFrame_congr {frame : Value} {x y : Action α} {m : Machine}
    (h : x ⟨frame, m.printed⟩ = y ⟨frame, m.printed⟩) :
    Action.inFrame frame x m = Action.inFrame frame y m := by
  unfold Action.inFrame
  rw [h]

/-- A function of the result changes nothing else. -/
theorem bind_pure_apply (x : Action α) (g : α → β) (m : Machine) :
    (x >>= fun a => pure (g a)) m = ((x m).1.map g, (x m).2) := by
  cases h : x m with
  | mk r m' =>
    cases r with
    | ok a => rw [bind_ok _ h]; rfl
    | error e => rw [bind_error _ h]; rfl

/-- A computation without effect on the result, either. -/
theorem bind_lift_apply (x : Action α) (g : α → Except Fault β) (m : Machine) :
    (x >>= fun a => liftM (g a)) m = ((x m).1.bind g, (x m).2) := by
  cases h : x m with
  | mk r m' =>
    cases r with
    | ok a => rw [bind_ok _ h]; rfl
    | error e => rw [bind_error _ h]; rfl

/-! ## Runs with a larger budget -/

/-- `y` does what `x` does, wherever `x` does not run out of budget. -/
def Extends (x y : Action α) : Prop :=
  ∀ m, (x m).1 ≠ .error .exhausted → y m = x m

namespace Extends

theorem refl (x : Action α) : Extends x x := fun _ _ => rfl

/-- An action that only runs out of budget is extended by every other. -/
theorem of_exhausted (y : Action α) : Extends (throw .exhausted) y :=
  fun _ h => absurd rfl h

/-- A sequence is extended as soon as its parts are. -/
theorem bind {x y : Action α} {f g : α → Action β} (hx : Extends x y)
    (hf : ∀ a, Extends (f a) (g a)) : Extends (x >>= f) (y >>= g) := by
  intro m h
  cases hxm : x m with
  | mk r m₁ =>
    cases r with
    | ok a =>
      have hym : y m = (.ok a, m₁) := by rw [hx m (by simp [hxm]), hxm]
      rw [bind_ok f hxm] at h ⊢
      rw [bind_ok g hym]
      exact hf a m₁ h
    | error e =>
      -- a fault of the first part is that of the sequence, so it is not the budget's either
      rw [bind_error f hxm] at h ⊢
      have hne : (x m).1 ≠ .error .exhausted := by
        rw [hxm]
        rintro ⟨⟩
        exact h rfl
      rw [bind_error g ((hx m hne).trans hxm)]

theorem ite {c : Prop} [Decidable c] {x y x' y' : Action α} (h : Extends x y)
    (h' : Extends x' y') : Extends (if c then x else x') (if c then y else y') := by
  split
  · exact h
  · exact h'

/-- What follows a fault does not matter. -/
theorem throw_bind {e : Fault} {f g : α → Action β} :
    Extends (throw e >>= f) (throw e >>= g) := refl (throw e)

theorem inFrame {x y : Action α} (frame : Value) (h : Extends x y) :
    Extends (Action.inFrame frame x) (Action.inFrame frame y) := by
  intro m hne
  exact inFrame_congr (h _ hne)

end Extends

/-! ## What runs reach as their budget grows -/

/-- Each of the runs extends those before it. -/
def Growing (x : Nat → Action α) : Prop :=
  ∀ n k : Nat, n ≤ k → Extends (x n) (x k)

namespace Growing

variable {x : Nat → Action α} {f : Nat → α → Action β}

theorem const (x : Action α) : Growing fun _ => x := fun _ _ _ => .refl x

theorem bind (hx : Growing x) (hf : ∀ a, Growing fun n => f n a) :
    Growing fun n => x n >>= f n :=
  fun n k h => .bind (hx n k h) fun a => hf a n k h

theorem ite {c : Prop} [Decidable c] {y : Nat → Action α} (hx : Growing x) (hy : Growing y) :
    Growing fun n => if c then x n else y n :=
  fun n k h => .ite (hx n k h) (hy n k h)

theorem inFrame (frame : Value) (hx : Growing x) : Growing fun n => Action.inFrame frame (x n) :=
  fun n k h => .inFrame frame (hx n k h)

end Growing

/-- One of the runs takes `m` to `m'` with the result `r`, and its budget suffices. -/
def Reaches (x : Nat → Action α) (m : Machine) (r : Except Fault α) (m' : Machine) : Prop :=
  r ≠ .error .exhausted ∧ ∃ n, x n m = (r, m')

namespace Reaches

variable {x : Nat → Action α} {f : Nat → α → Action β} {m m₁ m₂ : Machine}

/-- What one run reaches is reached by all later ones. -/
theorem eventually {r : Except Fault α} (h : Reaches x m r m₁) (hx : Growing x) :
    ∃ n, ∀ k, n ≤ k → x k m = (r, m₁) := by
  obtain ⟨hr, n, hn⟩ := h
  refine ⟨n, fun k hk => ?_⟩
  rw [← hn]
  exact hx n k hk m (by rwa [hn])

/-- **Runs reach at most one result.** -/
theorem unique {r₁ r₂ : Except Fault α} (hx : Growing x) (h₁ : Reaches x m r₁ m₁)
    (h₂ : Reaches x m r₂ m₂) : r₁ = r₂ ∧ m₁ = m₂ := by
  obtain ⟨n, hn⟩ := h₁.eventually hx
  obtain ⟨k, hk⟩ := h₂.eventually hx
  have h := (hn (max n k) (Nat.le_max_left n k)).symm.trans (hk (max n k) (Nat.le_max_right n k))
  exact Prod.mk.inj h

/-- Runs that extend others, with whatever budget, reach what those reach. -/
theorem of_extends {y : Nat → Action α} {r : Except Fault α} (budget : Nat → Nat)
    (hxy : ∀ n, Extends (x n) (y (budget n))) (h : Reaches x m r m₁) : Reaches y m r m₁ := by
  obtain ⟨hr, n, hn⟩ := h
  refine ⟨hr, budget n, ?_⟩
  rw [← hn]
  exact hxy n m (by rwa [hn])

/-- The first run may be left out. -/
theorem succ_iff (hx : Growing x) {r : Except Fault α} :
    Reaches x m r m₁ ↔ Reaches (fun n => x (n + 1)) m r m₁ :=
  ⟨of_extends id fun n => hx n (n + 1) (Nat.le_succ n), of_extends (· + 1) fun _ => .refl _⟩

theorem const_iff {y : Action α} {r : Except Fault α} :
    Reaches (fun _ => y) m r m₁ ↔ r ≠ .error .exhausted ∧ y m = (r, m₁) :=
  ⟨fun ⟨hr, _, h⟩ => ⟨hr, h⟩, fun ⟨hr, h⟩ => ⟨hr, 0, h⟩⟩

/-- An action that returns a value reaches it and nothing else. -/
theorem pure_iff {a : α} {r : Except Fault α} :
    Reaches (fun _ => pure a) m r m₁ ↔ r = .ok a ∧ m₁ = m := by
  rw [const_iff]
  constructor
  · rintro ⟨-, h⟩
    cases h
    exact ⟨rfl, rfl⟩
  · rintro ⟨rfl, rfl⟩
    exact ⟨by simp, rfl⟩

/-- A function of the result changes nothing else. -/
theorem map_iff {g : α → β} {r : Except Fault β} :
    Reaches (fun n => x n >>= fun a => pure (g a)) m r m₁ ↔
      ∃ r₀, Reaches x m r₀ m₁ ∧ r = r₀.map g := by
  constructor
  · rintro ⟨hr, n, hn⟩
    cases (bind_pure_apply (x n) g m).symm.trans hn
    refine ⟨(x n m).1, ⟨fun h => hr ?_, n, rfl⟩, rfl⟩
    rw [h]
    rfl
  · rintro ⟨r₀, ⟨hr, n, hn⟩, rfl⟩
    refine ⟨?_, n, (bind_pure_apply (x n) g m).trans (by rw [hn])⟩
    cases r₀ with
    | ok a => simp [Except.map]
    | error e => simpa [Except.map] using hr

/-- A computation without effect may follow, unless it takes the budget for its fault. -/
theorem lift {g : α → Except Fault β} {r : Except Fault α} (h : Reaches x m r m₁)
    (hr : r.bind g ≠ .error .exhausted) :
    Reaches (fun n => x n >>= fun a => liftM (g a)) m (r.bind g) m₁ := by
  obtain ⟨-, n, hn⟩ := h
  exact ⟨hr, n, (bind_lift_apply (x n) g m).trans (by rw [hn])⟩

/-- **A sequence reaches what its second part reaches**, once the first part has succeeded. -/
theorem bind_of_ok {a : α} {r : Except Fault β} (h : Reaches x m (.ok a) m₁) (hx : Growing x)
    (hf : Growing fun n => f n a) :
    Reaches (fun n => x n >>= f n) m r m₂ ↔ Reaches (fun n => f n a) m₁ r m₂ := by
  constructor
  · rintro ⟨hr, n, hn⟩
    obtain ⟨b, m₃, hxn, hfn⟩ | ⟨e, hxn, rfl⟩ := bind_eq hn
    · obtain ⟨hab, rfl⟩ := unique hx h ⟨by simp, n, hxn⟩
      cases hab
      exact ⟨hr, n, hfn⟩
    · -- the first part cannot have failed as well
      have hfailed : Reaches x m (.error e) m₂ := ⟨by simpa using hr, n, hxn⟩
      cases (unique hx h hfailed).1
  · -- the parts may need different budgets; both are done with the larger one
    intro hfa
    obtain ⟨n, hn⟩ := h.eventually hx
    obtain ⟨k, hk⟩ := hfa.eventually hf
    refine ⟨hfa.1, max n k, ?_⟩
    show (x (max n k) >>= f (max n k)) m = (r, m₂)
    rw [bind_ok _ (hn _ (Nat.le_max_left n k))]
    exact hk _ (Nat.le_max_right n k)

/-- A sequence fails where its first part does. -/
theorem bind_of_error {e : Fault} (h : Reaches x m (.error e) m₁) :
    Reaches (fun n => x n >>= f n) m (.error e) m₁ := by
  obtain ⟨hr, n, hn⟩ := h
  exact ⟨by simpa using hr, n, bind_error (f n) hn⟩

/-- **The two ways in which a sequence ends**, with enough budget for both of its parts. -/
theorem bind_iff {r : Except Fault β} (hx : Growing x) (hf : ∀ a, Growing fun n => f n a) :
    Reaches (fun n => x n >>= f n) m r m₂ ↔
      (∃ a m₁, Reaches x m (.ok a) m₁ ∧ Reaches (fun n => f n a) m₁ r m₂) ∨
        ∃ e, Reaches x m (.error e) m₂ ∧ r = .error e := by
  constructor
  · rintro ⟨hr, n, hn⟩
    obtain ⟨a, m₁, hxn, hfn⟩ | ⟨e, hxn, rfl⟩ := bind_eq hn
    · exact .inl ⟨a, m₁, ⟨by simp, n, hxn⟩, hr, n, hfn⟩
    · exact .inr ⟨e, ⟨by simpa using hr, n, hxn⟩, rfl⟩
  · rintro (⟨a, m₁, ha, hfa⟩ | ⟨e, he, rfl⟩)
    · exact (bind_of_ok ha hx (hf a)).2 hfa
    · exact he.bind_of_error

/-- What happens in a frame is what the frame's action does, and the environment is back
afterwards. -/
theorem inFrame_iff {frame : Value} {r : Except Fault α} :
    Reaches (fun n => Action.inFrame frame (x n)) m r m₂ ↔
      ∃ after, Reaches x ⟨frame, m.printed⟩ r after ∧ m₂ = ⟨m.environment, after.printed⟩ := by
  constructor
  · rintro ⟨hr, n, hn⟩
    have hframe : Action.inFrame frame (x n) m =
        ((x n ⟨frame, m.printed⟩).1, ⟨m.environment, (x n ⟨frame, m.printed⟩).2.printed⟩) := rfl
    cases hframe.symm.trans hn
    exact ⟨_, ⟨hr, n, rfl⟩, rfl⟩
  · rintro ⟨after, ⟨hr, n, hn⟩, rfl⟩
    exact ⟨hr, n, inFrame_eq hn⟩

end Reaches

end Stepwise.Action
