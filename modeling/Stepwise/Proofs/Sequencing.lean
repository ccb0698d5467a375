import Stepwise.Proofs.Elementary
import Stepwise.Proofs.Endings

/-!
# Statements one after the other

Blocks and loops have laws of their own, whatever their statements are and do. The laws are
equations between outcomes: two statements with the same outcomes end alike from every machine,
with the same result, environment and output, and neither ends where the other does not.

- `Outcomes`: what a part of a program leads to from each machine. `p.andThen q` is one part and
  then another, unless the first fails or returns; `p.passedOn` is a part whose value is dropped
  unless it returns. `andThen` is associative, and dropping values does not change what follows;
- `ends_block_append`, `ends_block_flatten`: joined blocks run one after the other, and a block
  among other statements may be opened (`Returning.block_sequencing`);
- `loop_unrolled`: `while (c) s` is `if (c) { s; while (c) s }`.
-/

namespace Stepwise

open Stepwise.Action (Growing Reaches)

/-! ## Outcomes -/

/-- What a part of a program comes to: the results and machines that it leads to from each
machine, with enough budget. -/
abbrev Outcomes : Type :=
  Machine → Except Fault Completion → Machine → Prop

namespace Outcomes

/-- Nothing runs behind this result: it is a fault, or a value on its way out of a function. -/
def halts : Except Fault Completion → Bool
  | .ok c => c.returning
  | .error _ => true

/-- One part and then another: the result of the first if it halts, else that of the second on
the machine that the first left. -/
def andThen (p q : Outcomes) : Outcomes := fun m r m' =>
  (p m r m' ∧ halts r = true) ∨ ∃ c m₁, p m (.ok c) m₁ ∧ c.returning = false ∧ q m₁ r m'

/-- The same results, without the values of those that do not return. -/
def passedOn (p : Outcomes) : Outcomes := fun m r m' =>
  ∃ r₀, p m r₀ m' ∧ r = r₀.map Returning.passOn

variable (p q s : Outcomes)

theorem ext {p q : Outcomes} (h : ∀ m r m', p m r m' ↔ q m r m') : p = q :=
  funext fun m => funext fun r => funext fun m' => propext (h m r m')

theorem returning_passOn (c : Completion) : (Returning.passOn c).returning = c.returning := by
  cases h : c.returning <;> simp [Returning.passOn, Completion.normal, h]

/-- Passing a completion on does not change whether it halts what follows. -/
theorem halts_passOn (r : Except Fault Completion) :
    halts (r.map Returning.passOn) = halts r := by
  cases r with
  | error e => rfl
  | ok c => exact returning_passOn c

/-- A result that halts keeps its value. -/
theorem passOn_of_halts {r : Except Fault Completion} (h : halts r = true) :
    r.map Returning.passOn = r := by
  cases r with
  | error e => rfl
  | ok c =>
    have hc : c.returning = true := h
    simp [Except.map, Returning.passOn, hc]

/-- Dropping a value twice is dropping it once. -/
theorem passedOn_passedOn : p.passedOn.passedOn = p.passedOn := by
  have hmap : ∀ r : Except Fault Completion,
      (r.map Returning.passOn).map Returning.passOn = r.map Returning.passOn := by
    intro r
    cases r with
    | error e => rfl
    | ok c => exact congrArg Except.ok (Returning.passOn_passOn c)
  refine ext fun m r m' => ⟨?_, ?_⟩
  · rintro ⟨_, ⟨r₀, hp, rfl⟩, rfl⟩
    exact ⟨r₀, hp, hmap r₀⟩
  · rintro ⟨r₀, hp, rfl⟩
    exact ⟨_, ⟨r₀, hp, rfl⟩, (hmap r₀).symm⟩

/-- What runs behind a part does not depend on the values that the part drops. -/
theorem passedOn_andThen : p.passedOn.andThen q = p.andThen q := by
  refine ext fun m r m' => ⟨?_, ?_⟩
  · rintro (⟨⟨r₀, hp, rfl⟩, h⟩ | ⟨c, m₁, ⟨r₀, hp, hr₀⟩, hc, hq⟩)
    · rw [halts_passOn] at h
      rw [passOn_of_halts h]
      exact .inl ⟨hp, h⟩
    · cases r₀ with
      | error e => cases hr₀
      | ok c₀ =>
        cases hr₀
        exact .inr ⟨c₀, m₁, hp, (returning_passOn c₀).symm.trans hc, hq⟩
  · rintro (⟨hp, h⟩ | ⟨c, m₁, hp, hc, hq⟩)
    · exact .inl ⟨⟨r, hp, (passOn_of_halts h).symm⟩, h⟩
    · exact .inr ⟨_, m₁, ⟨.ok c, hp, rfl⟩, (returning_passOn c).trans hc, hq⟩

/-- The value dropped is that of the second part. -/
theorem andThen_passedOn : (p.andThen q).passedOn = p.andThen q.passedOn := by
  refine ext fun m r m' => ⟨?_, ?_⟩
  · rintro ⟨r₀, ⟨hp, h⟩ | ⟨c, m₁, hp, hc, hq⟩, rfl⟩
    · rw [passOn_of_halts h]
      exact .inl ⟨hp, h⟩
    · exact .inr ⟨c, m₁, hp, hc, r₀, hq, rfl⟩
  · rintro (⟨hp, h⟩ | ⟨c, m₁, hp, hc, r₀, hq, rfl⟩)
    · exact ⟨r, .inl ⟨hp, h⟩, (passOn_of_halts h).symm⟩
    · exact ⟨r₀, .inr ⟨c, m₁, hp, hc, hq⟩, rfl⟩

/-- **Sequencing is associative.** -/
theorem andThen_assoc : (p.andThen q).andThen s = p.andThen (q.andThen s) := by
  refine ext fun m r m' => ⟨?_, ?_⟩
  · rintro (⟨⟨hp, -⟩ | ⟨c, m₁, hp, hc, hq⟩, h⟩ | ⟨d, m₂, ⟨-, hd⟩ | ⟨c, m₁, hp, hc, hq⟩, hd', hs⟩)
    · exact .inl ⟨hp, h⟩
    · exact .inr ⟨c, m₁, hp, hc, .inl ⟨hq, h⟩⟩
    · -- what halts does not go on
      exact absurd (hd.symm.trans hd') Bool.noConfusion
    · exact .inr ⟨c, m₁, hp, hc, .inr ⟨d, m₂, hq, hd', hs⟩⟩
  · rintro (⟨hp, h⟩ | ⟨c, m₁, hp, hc, ⟨hq, h⟩ | ⟨d, m₂, hq, hd, hs⟩⟩)
    · exact .inl ⟨.inl ⟨hp, h⟩, h⟩
    · exact .inl ⟨.inr ⟨c, m₁, hp, hc, hq⟩, h⟩
    · exact .inr ⟨d, m₂, .inr ⟨c, m₁, hp, hc, hq⟩, hd, hs⟩

/-- Behind a part that always halts nothing runs. -/
theorem andThen_of_halts {p : Outcomes} (h : ∀ m r m', p m r m' → halts r = true) :
    p.andThen q = p := by
  refine ext fun m r m' => ⟨?_, fun hp => .inl ⟨hp, h m r m' hp⟩⟩
  rintro (⟨hp, -⟩ | ⟨c, m₁, hp, hc, -⟩)
  · exact hp
  · exact absurd ((h m _ m₁ hp).symm.trans hc) Bool.noConfusion

/-! ## Outcomes of runs -/

/-- Runs that go on with others unless they return. -/
theorem reaches_andThen {x y : Nat → Action Completion} (hx : Growing x) (hy : Growing y) :
    Reaches (fun n => x n >>= fun c => if c.returning then pure c else y n) =
      andThen (Reaches x) (Reaches y) := by
  refine ext fun m r m' => ?_
  rw [Reaches.bind_iff hx fun c => .ite (.const _) hy]
  constructor
  · rintro (⟨c, m₁, hc, h⟩ | ⟨e, he, rfl⟩)
    · cases hr : c.returning
      · exact .inr ⟨c, m₁, hc, hr, by simpa only [hr, Bool.false_eq_true, if_false] using h⟩
      · simp only [hr, if_true] at h
        obtain ⟨rfl, rfl⟩ := Reaches.pure_iff.1 h
        exact .inl ⟨hc, hr⟩
    · exact .inl ⟨he, rfl⟩
  · rintro (⟨hr, h⟩ | ⟨c, m₁, hc, hr, h⟩)
    · cases r with
      | error e => exact .inr ⟨e, hr, rfl⟩
      | ok c =>
        have hc : c.returning = true := h
        refine .inl ⟨c, m', hr, ?_⟩
        simp only [hc, if_true]
        exact Reaches.pure_iff.2 ⟨rfl, rfl⟩
    · refine .inl ⟨c, m₁, hc, ?_⟩
      simpa only [hr, Bool.false_eq_true, if_false] using h

theorem reaches_passedOn (x : Nat → Action Completion) :
    Reaches (fun n => do return Returning.passOn (← x n)) = passedOn (Reaches x) :=
  ext fun _ _ _ => Reaches.map_iff

/-- Behind a common part, runs that come to the same may replace each other. -/
theorem reaches_bind_congr {α : Type} {x : Nat → Action α} {f g : Nat → α → Action Completion}
    (hx : Growing x) (hf : ∀ a, Growing fun n => f n a) (hg : ∀ a, Growing fun n => g n a)
    (h : ∀ a, Reaches (fun n => f n a) = Reaches fun n => g n a) :
    Reaches (fun n => x n >>= f n) = Reaches fun n => x n >>= g n := by
  refine ext fun m r m' => ?_
  simp only [Reaches.bind_iff hx hf, Reaches.bind_iff hx hg, h]

end Outcomes

open Outcomes

/-- A tree comes to what one step of the evaluator makes of its parts. -/
theorem Ends.eq_reaches {st : Stage} {mode : Mode} {t : Tree} {x : Nat → Action Completion}
    (h : ∀ n, evaluate st (n + 1) mode t = x n) : Ends st mode t = Reaches x := by
  refine Outcomes.ext fun m r m' => ?_
  rw [← funext h]
  exact Reaches.succ_iff (evaluate_growing st mode t)

/-! ## Blocks -/

section Blocks

variable {st : Stage} (hst : st.has .blocks = true)
include hst

theorem ends_block_one (t : Tree) :
    Ends st .statement (Tree.block [t]) = passedOn (Ends st .statement t) :=
  (Ends.eq_reaches fun n => evaluate_block_one n hst t).trans (reaches_passedOn _)

/-- The first statement of a block, and the block of the others. -/
theorem ends_block_next (t u : Tree) (ts : List Tree) :
    Ends st .statement (Tree.block (t :: u :: ts)) =
      andThen (Ends st .statement t) (passedOn (Ends st .statement (Tree.block (u :: ts)))) := by
  have hstep : ∀ n, evaluate st (n + 1) .statement (Tree.block (t :: u :: ts)) =
      evaluate st n .statement t >>= fun first => if first.returning then pure first
        else do return Returning.passOn (← evaluate st n .statement (Tree.block (u :: ts))) := by
    intro n
    rw [evaluate_block_next n hst]
    refine bind_congr fun first => ?_
    cases h : first.returning <;> simp [Returning.passOn, h]
  have hrest : Growing fun n => (do
      return Returning.passOn (← evaluate st n .statement (Tree.block (u :: ts)))) :=
    .bind (evaluate_growing _ _ _) fun _ => .const _
  rw [Ends.eq_reaches hstep, reaches_andThen (evaluate_growing _ _ _) hrest, reaches_passedOn]
  rfl

/-- A block has dropped all values that do not return. -/
theorem ends_block_passedOn (ts : List Tree) :
    passedOn (Ends st .statement (Tree.block ts)) = Ends st .statement (Tree.block ts) := by
  match ts with
  | [] =>
    rw [Ends.eq_reaches fun n => evaluate_block_nil n hst]
    exact (reaches_passedOn _).symm
  | [t] => rw [ends_block_one hst, passedOn_passedOn]
  | t :: u :: ts => rw [ends_block_next hst, andThen_passedOn, passedOn_passedOn]

/-- A block is its first statement, and then the block of the others. -/
theorem ends_block_cons (t : Tree) {ts : List Tree} (hts : ts ≠ []) :
    Ends st .statement (Tree.block (t :: ts)) =
      andThen (Ends st .statement t) (Ends st .statement (Tree.block ts)) := by
  obtain ⟨u, us, rfl⟩ := List.exists_cons_of_ne_nil hts
  rw [ends_block_next hst, ends_block_passedOn hst]

/-- **Joined statements run one part after the other.** -/
theorem ends_block_append {xs ys : List Tree} (hxs : xs ≠ []) (hys : ys ≠ []) :
    Ends st .statement (Tree.block (xs ++ ys)) =
      andThen (Ends st .statement (Tree.block xs)) (Ends st .statement (Tree.block ys)) := by
  induction xs with
  | nil => exact absurd rfl hxs
  | cons x xs ih =>
    rw [List.cons_append]
    cases xs with
    | nil => rw [List.nil_append, ends_block_cons hst x hys, ends_block_one hst, passedOn_andThen]
    | cons x' xs =>
      rw [ends_block_cons hst x (by simp), ih (by simp), ends_block_cons hst x (by simp),
        andThen_assoc]

/-- A block in front of other statements may be opened. -/
theorem ends_block_open {ys : List Tree} (hys : ys ≠ []) (zs : List Tree) :
    Ends st .statement (Tree.block (Tree.block ys :: zs)) =
      Ends st .statement (Tree.block (ys ++ zs)) := by
  by_cases hzs : zs = []
  · subst hzs
    rw [List.append_nil, ends_block_one hst, ends_block_passedOn hst]
  · rw [ends_block_cons hst _ hzs, ends_block_append hst hys hzs]

/-- **A block among other statements may be opened.** -/
theorem ends_block_flatten (xs : List Tree) {ys : List Tree} (hys : ys ≠ []) (zs : List Tree) :
    Ends st .statement (Tree.block (xs ++ [Tree.block ys] ++ zs)) =
      Ends st .statement (Tree.block (xs ++ ys ++ zs)) := by
  rw [List.append_assoc, List.append_assoc, List.singleton_append]
  by_cases hxs : xs = []
  · subst hxs
    exact ends_block_open hst hys zs
  · rw [ends_block_append hst hxs (by simp), ends_block_open hst hys,
      ends_block_append hst hxs (by simp [hys])]

end Blocks

namespace Returning

/-- Joined blocks run one after the other. -/
theorem completes_append {xs ys : List Tree} (hxs : xs ≠ []) (hys : ys ≠ []) :
    Completes (Tree.block (xs ++ ys)) =
      andThen (Completes (Tree.block xs)) (Completes (Tree.block ys)) :=
  ends_block_append rfl hxs hys

/-- A `return` fails or returns. -/
theorem giveBack_halts {v : Option Tree} {m m' : Machine} {r : Except Fault Completion}
    (h : Completes (Tree.giveBack v) m r m') : halts r = true := by
  have hreaches : ∃ t, Reaches (fun n => do return ⟨← value n t, true⟩) m r m' := by
    cases v with
    | none => exact ⟨.null, completes_iff.1 h⟩
    | some t => exact ⟨t, completes_iff.1 h⟩
  obtain ⟨t, ht⟩ := hreaches
  obtain ⟨r₀, -, rfl⟩ := Reaches.map_iff.1 ht
  cases r₀ <;> rfl

/-- So does a block with a `return` at its end. -/
theorem block_giveBack_halts (xs : List Tree) {v : Option Tree} {m m' : Machine}
    {r : Except Fault Completion}
    (h : Completes (Tree.block (xs ++ [Tree.giveBack v])) m r m') : halts r = true := by
  have hlast : ∀ {m r m'}, Completes (Tree.block [Tree.giveBack v]) m r m' → halts r = true := by
    intro m r m' h
    obtain ⟨r₀, hreturn, rfl⟩ : passedOn (Completes (Tree.giveBack v)) m r m' :=
      @ends_block_one .returns rfl (Tree.giveBack v) ▸ h
    rw [halts_passOn]
    exact giveBack_halts hreturn
  by_cases hxs : xs = []
  · subst hxs
    exact hlast h
  · rw [completes_append hxs (by simp)] at h
    obtain ⟨-, hr⟩ | ⟨c, m₁, -, -, h⟩ := h
    · exact hr
    · exact hlast h

/-- Statements behind a block that returns change nothing. -/
theorem block_of_returning {xs : List Tree} (hxs : xs ≠ []) {m m₁ : Machine} {d : Completion}
    (h : Completes (Tree.block xs) m (.ok d) m₁) (hd : d.returning = true) (ys : List Tree)
    (r : Except Fault Completion) (m' : Machine) :
    Completes (Tree.block (xs ++ ys)) m r m' ↔ r = .ok d ∧ m' = m₁ := by
  by_cases hys : ys = []
  · rw [hys, List.append_nil]
    exact h.iff_eq
  · rw [completes_append hxs hys]
    constructor
    · rintro (⟨h', -⟩ | ⟨c, m₂, h', hc, -⟩)
      · exact h'.unique h
      · cases (h'.unique h).1
        exact absurd (hd.symm.trans hc) Bool.noConfusion
    · rintro ⟨rfl, rfl⟩
      exact .inl ⟨h, hd⟩

/-- **How the statements of a block follow each other**, whatever they are: statements that
return, fail, loop or call included.

- Two lists of statements in one block run as two blocks: if the first fails or returns, that is
  the outcome, and else the second block has the outcome on the machine that the first left.
- A block that stands among the statements of another may be opened.
- What stands behind a `return` has no effect, and neither has what stands behind statements of
  which one has returned. -/
theorem block_sequencing :
    (∀ xs ys : List Tree, xs ≠ [] → ys ≠ [] →
      Completes (Tree.block (xs ++ ys)) =
        andThen (Completes (Tree.block xs)) (Completes (Tree.block ys))) ∧
    (∀ xs ys zs : List Tree, ys ≠ [] →
      Completes (Tree.block (xs ++ [Tree.block ys] ++ zs)) =
        Completes (Tree.block (xs ++ ys ++ zs))) ∧
    (∀ (xs ys : List Tree) (v : Option Tree),
      Completes (Tree.block (xs ++ [Tree.giveBack v] ++ ys)) =
        Completes (Tree.block (xs ++ [Tree.giveBack v]))) ∧
    (∀ (xs ys : List Tree) (m m₁ : Machine) (d : Completion), xs ≠ [] →
      Completes (Tree.block xs) m (.ok d) m₁ → d.returning = true →
        ∀ r m', Completes (Tree.block (xs ++ ys)) m r m' ↔ r = .ok d ∧ m' = m₁) := by
  refine ⟨fun xs ys => completes_append, fun xs ys zs hys => ends_block_flatten rfl xs hys zs,
    fun xs ys v => ?_, fun xs ys m m₁ d hxs h hd => block_of_returning hxs h hd ys⟩
  by_cases hys : ys = []
  · rw [hys, List.append_nil]
  · rw [completes_append (by simp) hys]
    exact andThen_of_halts _ fun _ _ _ => block_giveBack_halts xs

/-- The assignment behind `{ w=3; return w }` is not made, in a block of its own or not. -/
theorem block_sequencing_of_return :
    let w : Identifier := ⟨"w", by decide⟩
    let front : List Tree := [(Statement.assign w (.number (.int 3))).tree .returns,
      Tree.giveBack (some (w.tree .returns))]
    let back : List Tree := [(Statement.assign w (.number (.int 4))).tree .returns]
    Completes (Tree.block (front ++ back)) ⟨.record [], ""⟩ (.ok ⟨.int 3, true⟩)
        ⟨.record [("w", .int 3)], ""⟩ ∧
      Completes (Tree.block ([] ++ [Tree.block front] ++ back)) ⟨.record [], ""⟩
        (.ok ⟨.int 3, true⟩) ⟨.record [("w", .int 3)], ""⟩ := by
  intro w front back
  have hfront : Completes (Tree.block front) ⟨.record [], ""⟩ (.ok ⟨.int 3, true⟩)
      ⟨.record [("w", .int 3)], ""⟩ := ⟨by simp, 9, rfl⟩
  have hjoined := (block_sequencing.2.2.2 front back _ _ _ (List.cons_ne_nil _ _) hfront rfl
    _ _).2 ⟨rfl, rfl⟩
  refine ⟨hjoined, ?_⟩
  rw [block_sequencing.2.1 [] front back (List.cons_ne_nil _ _)]
  exact hjoined

end Returning

/-! ## Loops -/

/-- A loop has dropped all values that do not return. -/
theorem ends_loop_passedOn {st : Stage} (hst : st.has .blocks = true) (c t : Tree) :
    passedOn (Ends st .statement (Tree.loop st c t)) = Ends st .statement (Tree.loop st c t) := by
  rw [Ends.eq_reaches fun n => evaluate_loop n hst c t, ← reaches_passedOn]
  simp only [Returning.repeatWhile_passOn]

/-- A body and the loop behind it make up a block. -/
theorem ends_block_body {st : Stage} (hst : st.has .blocks = true) (c s : Tree) :
    Ends st .statement (Tree.block [s, Tree.loop st c s]) =
      andThen (Ends st .statement s) (Ends st .statement (Tree.loop st c s)) := by
  rw [ends_block_cons hst s (by simp), ends_block_one hst, ends_loop_passedOn hst]

/-- **A loop is its own unrolling.** From `blocks` on, `while (c) s` and
`if (c) { s; while (c) s }` have the same outcomes: the same value and returning flag, or the same
fault, with the same environment and output, and neither ends if the other does not. -/
theorem loop_unrolled {st : Stage} (hst : st.has .blocks = true) (c s : Tree) (m : Machine)
    (r : Except Fault Completion) (m' : Machine) :
    Ends st .statement (Tree.loop st c s) m r m' ↔
      Ends st .statement (Tree.branch st c (Tree.block [s, Tree.loop st c s]) none) m r m' := by
  have hgrowing : ∀ mode t, Growing fun n => evaluate st n mode t := evaluate_growing st
  have hloop : Ends st .statement (Tree.loop st c s) = Reaches fun n =>
      Node.round (evaluate st n .expression c) (evaluate st n .statement s)
        (evaluate st n .statement (Tree.loop st c s)) :=
    ext fun _ _ _ => Node.repeatWhile_reaches (hgrowing _ _) (hgrowing _ _) (hgrowing _ _)
      fun n => evaluate_loop n hst c s
  -- behind a condition that holds, both sides are the body and then the loop
  have hround : Reaches (fun n => evaluate st n .statement s >>= fun done =>
      if done.returning then pure done else evaluate st n .statement (Tree.loop st c s)) =
      Reaches fun n => do
        return Returning.passOn
          (← evaluate st n .statement (Tree.block [s, Tree.loop st c s])) := by
    rw [reaches_andThen (hgrowing _ _) (hgrowing _ _), reaches_passedOn]
    exact (ends_block_body hst c s).symm.trans (ends_block_passedOn hst _).symm
  rw [Ends.eq_reaches fun n => evaluate_branch_none n hst c (Tree.block [s, Tree.loop st c s]),
    hloop]
  unfold Node.round
  rw [reaches_bind_congr (hgrowing .expression c)]
  · exact fun v => .ite (.bind (hgrowing _ _) fun done => .ite (.const _) (hgrowing _ _)) (.const _)
  · exact fun v => .ite (.bind (hgrowing _ _) fun _ => .const _) (.const _)
  · intro v
    cases v.value.truthy
    · rfl
    · simpa only [if_true] using hround

/-- With `k` at 1, the loop that counts `k` down and its unrolling both end at 0. -/
theorem loop_unrolled_of_countdown :
    let k : Identifier := ⟨"k", by decide⟩
    let c : Tree := k.tree .scopes
    let s : Tree := (Statement.assign k (.binary .minus (.name k) (.number (.int 1)))).tree .scopes
    Ends .scopes .statement (Tree.branch .scopes c (Tree.block [s, Tree.loop .scopes c s]) none)
        ⟨.record [("k", .int 1)], ""⟩ (.ok ⟨.null, false⟩) ⟨.record [("k", .int 0)], ""⟩ ∧
      Ends .scopes .statement (Tree.loop .scopes c s)
        ⟨.record [("k", .int 1)], ""⟩ (.ok ⟨.null, false⟩) ⟨.record [("k", .int 0)], ""⟩ := by
  intro k c s
  have hbranch : Ends .scopes .statement
      (Tree.branch .scopes c (Tree.block [s, Tree.loop .scopes c s]) none)
      ⟨.record [("k", .int 1)], ""⟩ (.ok ⟨.null, false⟩) ⟨.record [("k", .int 0)], ""⟩ :=
    ⟨by simp, 9, rfl⟩
  exact ⟨hbranch, (loop_unrolled rfl c s _ _ _).2 hbranch⟩

end Stepwise
