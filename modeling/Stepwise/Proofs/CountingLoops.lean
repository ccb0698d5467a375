import Stepwise.Exercise.Results
import Stepwise.Proofs.EvaluationRules

/-!
# A loop that counts

The exercises have a loop that moves three from one name to another, one in each round. It moves
any number, at every stage with loops, and ends (`counting_loop`).

- `carry`, `positive`: the body and the condition of the loop, for any two names;
- `ends_carry`: one round;
- `ends_counting`: all rounds, with as many left as the first name says.
-/

namespace Stepwise

open Action (Reaches)
open Exercise.Results (countingLoop)

/-- `x>0`. -/
def positive (x : Identifier) : Expression :=
  .binary .greater (.name x) (.number (.int 0))

/-- `{ x=x-1; y=y+1 }`. -/
def carry (x y : Identifier) : Statement :=
  .block [.assign x (.binary .minus (.name x) (.number (.int 1))),
    .assign y (.binary .plus (.name y) (.number (.int 1)))]

/-- The machine on which `x` and `y` stand for these integers. -/
def counters (x y : Identifier) (out : String) (a b : Int) : Machine :=
  ⟨.record [(x.text, .int a), (y.text, .int b)], out⟩

section Rounds

variable {st : Stage} (hst : st.has .blocks = true) {x y : Identifier} {out : String} {a b : Int}
include hst

theorem ends_positive :
    Ends st .expression ((positive x).tree st) (counters x y out a b)
      (.ok (.normal (.int (if a > 0 then 1 else 0)))) (counters x y out a b) := by
  have hx : Name.seek st x.text (counters x y out a b).environment = .ok (.int a) :=
    Name.seek_of_get? (by simp [Fields.get?])
  exact ends_name_number (Stage.has_of_rank_le hst (by decide))
    (by decide : Operator.greater ≠ .divide) 0 hx

/-- One round moves one. -/
theorem ends_carry (hxy : x.text ≠ y.text) :
    Ends st .statement ((carry x y).tree st) (counters x y out a b)
      (.ok (.normal .null)) (counters x y out (a - 1) (b + 1)) := by
  have hassignments : st.has .assignments = true := Stage.has_of_rank_le hst (by decide)
  have hbooleans : st.has .booleans = true := Stage.has_of_rank_le hst (by decide)
  have hx : Name.seek st x.text (counters x y out a b).environment = .ok (.int a) :=
    Name.seek_of_get? (by simp [Fields.get?])
  have hy : Name.seek st y.text (counters x y out (a - 1) b).environment = .ok (.int b) :=
    Name.seek_of_get? (by simp [Fields.get?, hxy])
  have hdown := ends_assign (x := x) hassignments
    (ends_name_number hbooleans (by decide : Operator.minus ≠ .divide) 1 hx)
  have hup := ends_assign (x := y) hassignments
    (ends_name_number hbooleans (by decide : Operator.plus ≠ .divide) 1 hy)
  simp only [Fields.set, if_true, Key.text.injEq, if_neg hxy] at hdown hup
  exact ends_block_then hst hdown rfl (ends_block_of_ok hst hup)

/-- Without anything to move there is no round. -/
theorem ends_counting_idle (ha : ¬ a > 0) :
    Ends st .statement ((Statement.loop (positive x) (carry x y)).tree st)
      (counters x y out a b) (.ok (.normal .null)) (counters x y out a b) := by
  refine ends_loop_done hst (ends_positive hst) ?_
  rw [if_neg ha]
  rfl

/-- The loop moves what `x` stands for. -/
theorem ends_counting (hxy : x.text ≠ y.text) (k : Nat) :
    Ends st .statement ((Statement.loop (positive x) (carry x y)).tree st)
      (counters x y out k b) (.ok (.normal .null)) (counters x y out 0 (b + k)) := by
  have hends : ∃ m', Ends st .statement ((Statement.loop (positive x) (carry x y)).tree st)
      (counters x y out k b) (.ok (.normal .null)) m' ∧ m' = counters x y out 0 (b + k) := by
    -- both names together stand for the same in all rounds
    refine ends_loop_of_rounds (P := fun j m => m = counters x y out j (b + k - j)) hst ?_ ?_
      (k := k) (by rw [Int.add_sub_cancel])
    · rintro j _ rfl
      refine ⟨_, _, _, _, ends_positive hst, ?_, ends_carry hst hxy, rfl, ?_⟩
      · rw [if_pos (by omega)]
        rfl
      · congr 1 <;> omega
    · rintro _ rfl
      exact ⟨_, _, ends_positive hst, rfl, by simp⟩
  obtain ⟨_, hends, rfl⟩ := hends
  exact hends

end Rounds

theorem tree_countingLoop {st : Stage} (hst : st.has .blocks = true) :
    let x : Identifier := ⟨"x", by decide⟩
    let y : Identifier := ⟨"y", by decide⟩
    Program.tree st countingLoop = .ok ((Statement.loop (positive x) (carry x y)).tree st) := by
  cases st <;> cases hst <;> rfl

/-- **The counting loop.** From `blocks` on `while (x>0) {x=x-1;y=y+1}` ends for all integers that
`x` and `y` stand for, with no value. If `x` is positive, it has then been added to `y`; else
nothing has changed. Nothing is printed. -/
theorem counting_loop {st : Stage} (hst : st.has .blocks = true) (n m : Int) (out : String) :
    Reaches (fun budget => Program.within st budget countingLoop)
      ⟨.record [("x", .int n), ("y", .int m)], out⟩ (.ok (.normal .null))
      ⟨.record (if n > 0 then [("x", .int 0), ("y", .int (m + n))]
        else [("x", .int n), ("y", .int m)]), out⟩ := by
  rw [Program.reaches_within (tree_countingLoop hst)]
  by_cases hn : n > 0
  · rw [if_pos hn]
    obtain ⟨k, rfl⟩ := Int.eq_ofNat_of_zero_le (Int.le_of_lt hn)
    exact ends_counting hst (by decide) k
  · rw [if_neg hn]
    exact ends_counting_idle hst hn

/-- With 2 in `x` and -5 in `y`, two rounds lead to 0 and -3. -/
theorem counting_loop_of_two :
    countingLoop = "while (x>0) \x7bx=x-1;y=y+1\x7d" ∧ Stage.has .scopes .blocks = true ∧
    Reaches (fun budget => Program.within .scopes budget countingLoop)
      ⟨.record [("x", .int 2), ("y", .int (-5))], "so far"⟩ (.ok (.normal .null))
      ⟨.record [("x", .int 0), ("y", .int (-3))], "so far"⟩ :=
  ⟨by decide, rfl, counting_loop rfl 2 (-5) "so far"⟩

end Stepwise
