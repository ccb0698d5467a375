import Mathlib.Data.Nat.Fib.Basic
import Stepwise.Proofs.EvaluationRules
import Stepwise.Proofs.FunctionArguments
import Stepwise.Proofs.Pieces
import Stepwise.Proofs.Seams

/-!
# A function that calls itself

At the last stage a function has no name of its own. What is called in its body is what the name of
the callee stands for to the caller, and each call puts one more frame before those of its callers.
The function here computes the Fibonacci numbers wherever its name stands for it, and leaves the
environment as it is (`fibonacci_computed`).

- `fibonacci`: the function, for any name and parameter;
- `ends_unary_call`: a call with one argument. In its frame the parameter stands for the argument,
  and every other name for what it stands for to the caller (`resolve_parameter`, `resolve_other`);
- `ends_fibonacciBody`: what the body comes to, if the calls in it come to what they should;
- `ends_fibonacci`: all calls, by strong induction on the argument;
- `tree_callText`: the text of a call with a numeral.
-/

namespace Stepwise

open Action (Reaches)
open Grammar (Derives)
open Returning (callFrame)

/-! ## Calls with one argument -/

section Calls

variable {f k : Identifier}

theorem resolve_parameter (k : Identifier) (caller v : Value) :
    Name.resolve k.text (.record (callFrame caller [k] [v])) = .ok v := by
  have hlength : ([] : List Identifier).length = ([] : List Value).length := rfl
  exact resolve_callFrame hlength (by simp) caller v

/-- A name other than the parameter stands for what it does where the call is made. -/
theorem resolve_other (hfk : f.text ≠ k.text) (caller v : Value) :
    Name.resolve f.text (.record (callFrame caller [k] [v])) = Name.resolve f.text caller := by
  rw [callFrame, Name.resolve_frame]
  simp [Returning.bound, Fields.set, Fields.get?, hfk.symm]

/-- A call comes to what the body does in a new frame, which is then left. -/
theorem ends_unary_call {ss : List Statement} {e : Expression} {m : Machine} {c : Completion}
    {r : Except Fault Completion} {frame : Value} {out : String}
    (hf : Name.resolve f.text m.environment = .ok ((Expression.function [k] ss).tree .returns))
    (he : Ends .returns .statement (e.tree .returns) m (.ok c) m)
    (hbody : Ends .returns .statement ((Statement.block ss).tree .returns)
      ⟨.record (callFrame m.environment [k] [c.value]), m.printed⟩ r ⟨frame, out⟩) :
    Ends .returns .statement ((Expression.call (.name f) [e]).tree .returns) m r
      ⟨m.environment, out⟩ := by
  have hcallee : Ends .returns .expression ((Expression.name f).tree .returns) m
      (.ok (.normal ((Expression.function [k] ss).tree .returns))) m := ends_name rfl hf
  have hpasses : Passes .returns [k] [e] m [c.value] m :=
    .next rfl (Expression.tree_eq_listTree _ e ▸ he) (.done m)
  exact (ends_call_of_passes rfl hcallee rfl hpasses).2 ⟨_, hbody, rfl⟩

end Calls

/-! ## The Fibonacci numbers -/

/-- `f(k-d)`. -/
def callBelow (f k : Identifier) (d : Nat) : Expression :=
  .call (.name f) [.binary .minus (.name k) (.number (.int d))]

/-- `if (k<=1) { return k } else { return f(k-1)+f(k-2) }`. -/
def fibonacciBody (f k : Identifier) : Statement :=
  .branch (.binary .lessEqual (.name k) (.number (.int 1)))
    (.block [.giveBack (some (.name k))])
    (some (.block [.giveBack (some (.binary .plus (callBelow f k 1) (callBelow f k 2)))]))

/-- The function of `k` that calls what `f` stands for. -/
def fibonacci (f k : Identifier) : Expression :=
  .function [k] [fibonacciBody f k]

section Recursion

variable {f k : Identifier} {m : Machine} {n : Nat}

/-- The value of the function is the function. -/
theorem ends_fibonacci_value : Ends .returns .statement ((fibonacci f k).tree .returns) m
    (.ok (.normal ((fibonacci f k).tree .returns))) m := by
  rw [fibonacci, Expression.tree_eq_listTree]
  exact (ends_function rfl).2 ⟨rfl, rfl⟩

/-- The body is right if the calls in it are. -/
theorem ends_fibonacciBody (hk : Name.resolve k.text m.environment = .ok (.int n))
    (hcalls : ∀ d, 0 < d → d ≤ n → Ends .returns .statement ((callBelow f k d).tree .returns) m
      (.ok ⟨.int (Nat.fib (n - d)), true⟩) m) :
    Ends .returns .statement ((fibonacciBody f k).tree .returns) m
      (.ok ⟨.int (Nat.fib n), true⟩) m := by
  have hcondition : Ends .returns .expression
      ((Expression.binary .lessEqual (.name k) (.number (.int 1))).tree .returns) m
      (.ok (.normal (.int (if (n : Int) ≤ 1 then 1 else 0)))) m :=
    ends_name_number rfl (by decide) 1 hk
  by_cases hn : n ≤ 1
  · have hfib : Nat.fib n = n := by
      obtain rfl | rfl := Nat.le_one_iff_eq_zero_or_eq_one.1 hn
      · rfl
      · rfl
    rw [hfib]
    refine ends_branch_then rfl hcondition ?_
      (ends_block_of_ok rfl (ends_giveBack (ends_name rfl hk)))
    rw [if_pos (by omega)]
    rfl
  · have hfib : Nat.fib n = Nat.fib (n - 1) + Nat.fib (n - 2) := by
      obtain ⟨j, rfl⟩ : ∃ j, n = j + 2 := ⟨n - 2, by omega⟩
      rw [Nat.fib_add_two, Nat.add_comm]
      rfl
    have hone := hcalls 1 (by decide) (by omega)
    have htwo := hcalls 2 (by decide) (by omega)
    rw [hfib]
    refine ends_branch_else rfl hcondition ?_
      (ends_block_of_ok rfl (ends_giveBack (ends_integers rfl (by decide) hone rfl htwo rfl)))
    rw [if_neg (by omega)]
    rfl

/-- **The function computes the Fibonacci numbers**, whatever the environment is in which its name
stands for it, and whatever the expression that gives its argument. -/
theorem ends_fibonacci (hfk : f.text ≠ k.text) {e : Expression} {c : Completion}
    (hf : Name.resolve f.text m.environment = .ok ((fibonacci f k).tree .returns))
    (he : Ends .returns .statement (e.tree .returns) m (.ok c) m) (hc : c.value = .int n) :
    Ends .returns .statement ((Expression.call (.name f) [e]).tree .returns) m
      (.ok ⟨.int (Nat.fib n), true⟩) m := by
  induction n using Nat.strong_induction_on generalizing e c m with
  | _ n ih =>
    let frame : Value := .record (callFrame m.environment [k] [c.value])
    have hk : Name.resolve k.text frame = .ok (.int n) :=
      hc ▸ resolve_parameter k m.environment c.value
    -- the calls in the body are made in the new frame, and there `f` stands for the same
    have hcalls : ∀ d, 0 < d → d ≤ n → Ends .returns .statement ((callBelow f k d).tree .returns)
        ⟨frame, m.printed⟩ (.ok ⟨.int (Nat.fib (n - d)), true⟩) ⟨frame, m.printed⟩ := by
      intro d hpos hd
      refine ih (n - d) (by omega) ((resolve_other hfk _ _).trans hf)
        (ends_name_number rfl (by decide) d hk) ?_
      exact congrArg Value.int (Int.ofNat_sub hd).symm
    have hbody : Ends .returns .statement ((Statement.block [fibonacciBody f k]).tree .returns)
        ⟨frame, m.printed⟩ (.ok ⟨.int (Nat.fib n), true⟩) ⟨frame, m.printed⟩ :=
      ends_block_of_ok rfl (ends_fibonacciBody hk hcalls)
    exact ends_unary_call hf he hbody

end Recursion

/-! ## The text of a call -/

/-- Wherever the text stands, its tokens bear these words. -/
def Bearing (cs : List Char) (ws : List Word) : Prop :=
  ∀ position, ∃ ts, Lexeme.tokensAt .returns position cs = .ok ts ∧
    List.Forall₂ Token.Bears ts ws

namespace Bearing

theorem nil : Bearing [] [] := fun _ => ⟨[], rfl, .nil⟩

/-- A word is the first one if what follows does not change where it is cut off. -/
theorem cons {w : Word} (hw : w.Lexical) {cs rest : List Char} {ws : List Word}
    (hcs : w.spelling.toList = cs)
    (hclass : Lexeme.classify .returns (cs ++ rest) = some (w.kind, cs.length))
    (h : Bearing rest ws) : Bearing (cs ++ rest) (w :: ws) := by
  subst hcs
  intro position
  obtain ⟨t, ht, hbears⟩ := hw.token position
  obtain ⟨ts, hts, hrest⟩ := h (position + w.spelling.toList.length)
  refine ⟨t :: ts, ?_, .cons hbears hrest⟩
  rw [Lexeme.tokensAt_cut hclass hw.spelled.kept ht, hts]
  rfl

/-- Parentheses are cut off, whatever follows. -/
theorem parenthesis {tag : String} (htag : tag ∈ ["(", ")"]) {rest : List Char} {ws : List Word}
    (h : Bearing rest ws) : Bearing (tag.toList ++ rest) (.sign tag :: ws) := by
  have hall : ∀ tag ∈ ["(", ")"], tag ∈ Stage.keywords ++ Stage.operators .returns ∧
      tag ∈ Lexeme.symbols .returns ∧ ∀ d ∈ Lexeme.doubling, d.1 ≠ tag := by decide
  obtain ⟨hword, hsymbol, hsingle⟩ := hall tag htag
  refine cons (Word.lexical_sign hword) rfl ?_ h
  rw [Lexeme.classify_symbol hsymbol fun c _ hmem => hsingle _ hmem rfl]
  exact (Lexeme.spelled_word hword).classify

end Bearing

section CallText

variable {f : Identifier} {n : Nat} (hf : Lexeme.isUnreserved f.text.toList = true)
  (hn : (Nat.toDigits 10 n).length ≤ Value.digitLimit)
include hf hn

/-- The text of a call bears four words. -/
theorem callText_bearing : Bearing (f.text ++ "(" ++ toString n ++ ")").toList
    [.name (.text f.text), .sign "(", .number (.int n), .sign ")"] := by
  have hclose : Bearing (")".toList ++ []) [.sign ")"] := .parenthesis (by decide) .nil
  have hargument : Bearing (Nat.toDigits 10 n ++ (")".toList ++ []))
      [.number (.int n), .sign ")"] := by
    refine .cons (Word.lexical_number hn) Nat.toList_repr
      (Lexeme.classify_spelled (Lexeme.spelled_toDigits .returns n) (.inl rfl) ?_) hclose
    rintro c ⟨⟩
    decide
  have hopen : Bearing ("(".toList ++ (Nat.toDigits 10 n ++ (")".toList ++ [])))
      [.sign "(", .number (.int n), .sign ")"] := .parenthesis (by decide) hargument
  have hcall : Bearing (f.text.toList ++ ("(".toList ++ (Nat.toDigits 10 n ++ (")".toList ++ []))))
      [.name (.text f.text), .sign "(", .number (.int n), .sign ")"] := by
    refine .cons (Word.lexical_name hf) rfl
      (Lexeme.classify_spelled (Lexeme.spelled_name f.spelled hf) (.inr rfl) ?_) hopen
    rintro c ⟨⟩
    decide
  simpa [String.toList_append] using hcall

/-- The text of a call with a numeral is parsed to this call. -/
theorem tree_callText : Program.tree .returns (f.text ++ "(" ++ toString n ++ ")") =
    .ok ((Expression.call (.name f) [.number (.int n)]).tree .returns) := by
  obtain ⟨ts, htokens, hts⟩ := callText_bearing hf hn 0
  have hnumber : Derives Tree.Closed (.rule .expression) [.number (.int n)]
      (Tree.leaf .returns "<number>" (.int n)) :=
    .of_callable (Nat.zero_le 8) (.uncalled (.number _))
  have hcall : Derives Tree.Closed (.rule .callable)
      [.name (.text f.text), .sign "(", .number (.int n), .sign ")"]
      ((Expression.call (.name f) [.number (.int n)]).tree .returns) :=
    .called (.uncalled (.name _)) (.someExpressions (.lastExpression hnumber))
  have hstatement := Derives.statement (by decide) (Derives.of_callable (Nat.zero_le 8) hcall)
  have htokenize : tokenize .returns (f.text ++ "(" ++ toString n ++ ")") = .ok ts := htokens
  rw [Program.tree, htokenize]
  exact hstatement.parse hts

end CallText

/-! ## The function in a program -/

/-- The text of the function, with the names `fib` and `k`. -/
def fibonacciText : String :=
  "function(k) \x7b if (k <= 1) \x7b return k \x7d else \x7b return fib(k-1) + fib(k-2) \x7d \x7d"

theorem tree_fibonacciText : Program.tree .returns fibonacciText =
    .ok ((fibonacci ⟨"fib", by decide⟩ ⟨"k", by decide⟩).tree .returns) := by
  rfl

/-- **Recursion.** The text of the function has the function for its value. In every environment in
which `fib` stands for this value, a call of `fib` with a natural number comes to the Fibonacci
number with this index, of any size, and changes and prints nothing. So does the text of the call,
if the numeral in it is not too long for a numeral. -/
theorem fibonacci_computed (n : Nat) (m : Machine) :
    let fib : Identifier := ⟨"fib", by decide⟩
    let function : Value := (fibonacci fib ⟨"k", by decide⟩).tree .returns
    (∀ m₀, Reaches (fun budget => Program.within .returns budget fibonacciText) m₀
      (.ok (.normal function)) m₀) ∧
    (Name.resolve "fib" m.environment = .ok function →
      Ends .returns .statement ((Expression.call (.name fib) [.number (.int n)]).tree .returns) m
        (.ok ⟨.int (Nat.fib n), true⟩) m ∧
      ((Nat.toDigits 10 n).length ≤ Value.digitLimit →
        Reaches (fun budget => Program.within .returns budget ("fib(" ++ toString n ++ ")")) m
          (.ok ⟨.int (Nat.fib n), true⟩) m)) := by
  intro fib function
  refine ⟨fun m₀ => ?_, fun hfib => ?_⟩
  · exact (Program.reaches_within tree_fibonacciText).2 ends_fibonacci_value
  · have hcall : Ends .returns .statement
        ((Expression.call (.name fib) [.number (.int n)]).tree .returns) m
        (.ok ⟨.int (Nat.fib n), true⟩) m :=
      ends_fibonacci (by decide) hfib (ends_number (.int n)) rfl
    refine ⟨hcall, fun hn => ?_⟩
    have hopen : fib.text ++ "(" = "fib(" := by decide
    have htree := tree_callText (f := fib) (by decide) hn
    rw [hopen] at htree
    exact (Program.reaches_within htree).2 hcall

/-- The call `fib(10)`, two frames away from the function and with another `k` in between. -/
theorem fibonacci_computed_of_ten :
    let function : Value := (fibonacci ⟨"fib", by decide⟩ ⟨"k", by decide⟩).tree .returns
    let m : Machine :=
      ⟨.record [("k", .int 3), (Name.parentField, .record [("fib", function)])], "so far"⟩
    Name.resolve "fib" m.environment = .ok function ∧
    (Nat.toDigits 10 10).length ≤ Value.digitLimit ∧
    Reaches (fun budget => Program.within .returns budget "fib(10)") m (.ok ⟨.int 55, true⟩) m := by
  intro function m
  have hfib : Name.resolve "fib" m.environment = .ok function := rfl
  have hshort : (Nat.toDigits 10 10).length ≤ Value.digitLimit := by decide
  have htext : "fib(" ++ toString 10 ++ ")" = "fib(10)" := by decide
  have hcall := ((fibonacci_computed 10 m).2 hfib).2 hshort
  rw [htext] at hcall
  exact ⟨hfib, hshort, hcall⟩

end Stepwise
