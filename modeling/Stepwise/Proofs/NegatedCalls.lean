import Stepwise.Proofs.Outcomes
import Stepwise.Proofs.Parentheses
import Stepwise.Proofs.Settling
import Stepwise.Proofs.TokenStages

/-!
# A minus before a call

At `functions` a minus stands before a whole factor, and a call is one. At `returns` it stands
before a simple expression, and the lists of arguments come behind both: the minus belongs to what
is called and not to the call (`minus_negates_callee`).

- `Tree.applied f lists`: a tree with lists of arguments behind it. What is called plays no part in
  reading them (`calls_applied`);
- `completes_applied_negated`: nothing that has been negated can be called.
-/

namespace Stepwise

open Token (Is Bears)

namespace Tree

/-- A tree that is called with one list of arguments after the other. -/
def applied (f : Tree) (lists : List Tree) : Tree :=
  lists.foldl (call .returns) f

/-- The root of what has been called is a call. -/
theorem applied_ne_negate (f e : Tree) {lists : List Tree} (h : lists ≠ []) :
    applied f lists ≠ unary .returns "negate" e := by
  obtain rfl | ⟨before, es, rfl⟩ := List.eq_nil_or_concat' lists
  · exact absurd rfl h
  · rw [applied, List.foldl_concat]
    intro heq
    have htag : (Except.ok (.text "<function_call>") : Except Fault Value) = .ok (.text "negate") :=
      congrArg (Value.field "tag") heq
    simp at htag

end Tree

namespace Rule

variable {ts rest : List Token} {t : Tree}

/-- Lists of arguments are read behind every callee alike. -/
theorem calls_applied {rule : Rule → List Token → Reading} {n : Nat} {f : Tree}
    (h : calls .returns rule n f ts = .ok (t, rest)) :
    ∃ lists, t = f.applied lists ∧ (lists = [] → rest = ts) ∧
      ∀ g, calls .returns rule n g ts = .ok (Tree.applied g lists, rest) := by
  induction n generalizing f ts with
  | zero => cases h
  | succ n ih =>
    rw [calls] at h
    cases hnext : nextIs "(" ts with
    | error e => rw [hnext] at h; cases h
    | ok opens =>
      cases opens with
      | false =>
        rw [hnext] at h
        cases h
        refine ⟨[], rfl, fun _ => rfl, fun g => ?_⟩
        rw [calls, hnext]
        rfl
      | true =>
        cases hlist : rule .expressionList ts with
        | error e => simp [hnext, hlist] at h; cases h
        | ok p =>
          obtain ⟨es, mid⟩ := p
          simp only [hnext, hlist, ok_bind, if_true] at h
          obtain ⟨lists, rfl, -, hall⟩ := ih h
          refine ⟨es :: lists, rfl, fun heq => absurd heq (List.cons_ne_nil _ _), fun g => ?_⟩
          rw [calls, hnext, hlist]
          exact hall _

/-- A minus before a name, and lists of arguments behind it. -/
theorem read_minus_called {minus name : Token} {v : Value} {lists : List Tree}
    (hminus : Is "-" minus) (hname : Bears name (.name v))
    (h : ∀ g, calls .returns (Rule.read .returns) (budget (ts.length + 1)) g ts =
      .ok (Tree.applied g lists, rest)) :
    callable.read .returns (minus :: name :: ts) =
      .ok (Tree.applied (Tree.unary .returns "negate" (Tree.leaf .returns "<identifier>" v)) lists,
        rest) := by
  rw [read_callable (read_negated hminus (read_name hname))]
  -- the minus only adds to the budget
  have hbudget : budget (ts.length + 1) ≤ budget (minus :: name :: ts).length := by
    simp only [budget, List.length_cons]
    omega
  exact (calls_extends (fun _ _ => .refl _) hbudget _ ts (by rw [h]; simp)).trans (h _)

/-- At `functions` a minus stands before a factor. -/
theorem read_minus_factor {minus : Token} (hminus : Is "-" minus)
    (h : factor.read .functions ts = .ok (t, rest)) :
    factor.read .functions (minus :: ts) = .ok (Tree.unary .functions "negate" t, rest) := by
  rw [read_factor_of_sign rfl hminus (by decide)]
  simp [readSimple, headTag_of_is hminus, Value.isText, negated, h,
    sign_ne_literalTags .functions (show "-" ∈ signs by decide),
    show Stage.has .functions .booleans = true from rfl]

/-- A call that has been read is read in parentheses as well, as a simple expression. -/
theorem read_in_parentheses_of_callable {opening closing : Token} (hopening : Is "(" opening)
    (hclosing : Is ")" closing) {first : Token} {tag : String} (hfirst : Is tag first)
    (htag : tag ∉ ["!"]) {e : List Token}
    (h : callable.read .returns (first :: e ++ rest) = .ok (t, rest)) (rest' : List Token) :
    simple.read .returns (opening :: (first :: e ++ closing :: rest')) = .ok (t, rest') := by
  -- before the closing parenthesis the call is the same
  have hinner : callable.read .returns (first :: e ++ closing :: rest') =
      .ok (t, closing :: rest') := read_again h (.of_is hclosing (by decide))
  rw [← read_factor] at hinner
  have hexpression : expression.read .returns (first :: e ++ closing :: rest') =
      .ok (t, closing :: rest') :=
    expression_of_factor rfl (.of_is hfirst htag) hinner (.of_is hclosing (by decide))
  exact read_parenthesized hopening hclosing hexpression

end Rule

namespace Returning

open Stepwise.Action (Growing Reaches)

/-- Where the callee fails, so does the call. -/
theorem completes_applied_of_error {f : Tree} {m m' : Machine} {e : Fault}
    (h : Completes f m (.error e) m') : ∀ lists : List Tree,
    Completes (f.applied lists) m (.error e) m'
  | [] => h
  | es :: lists => by
    have hcall : Completes (Tree.call .returns f es) m (.error e) m' :=
      completes_iff.2 (value_of_failed h).bind_of_error
    exact completes_applied_of_error hcall lists

/-- Where the callee has a value that is no function, the call fails. -/
theorem completes_call_of_parts_error {f es : Tree} {m m' : Machine} {c : Completion} {e : Fault}
    (hf : Completes f m (.ok c) m') (hc : Node.functionParts c.value = .error e)
    (he : e ≠ .exhausted) : Completes (Tree.call .returns f es) m (.error e) m' := by
  have hstep : ∀ n, eval (n + 1) (Tree.call .returns f es) =
      value n f >>= fun v => liftM (Node.functionParts v) >>= fun parts =>
        enter n parts.1 parts.2 es := fun n => rfl
  obtain ⟨-, n, hn⟩ := value_of_completes hf
  rw [completes_iff, funext hstep]
  refine ⟨by simpa using he, n, ?_⟩
  show (value n f >>= _) m = _
  rw [Action.bind_ok _ hn, hc]
  rfl

/-- A name completes with what it is bound to. -/
theorem completes_name {s : String} {m : Machine} {r : Except Fault Value}
    (h : Name.resolve s m.environment = r) :
    Completes (Tree.leaf .returns "<identifier>" (.text s)) m (r.map .normal) m := by
  have hstep : ∀ n, eval (n + 1) (Tree.leaf .returns "<identifier>" (.text s)) =
      (Action.environment >>= fun env => liftM (Name.resolve s env)) >>= fun v =>
        pure (.normal v) := fun n => rfl
  have hresolve : Reaches (fun _ => Action.environment >>= fun env =>
      liftM (Name.resolve s env)) m r m := by
    rw [Reaches.const_iff, ← h]
    exact ⟨(Name.resolve_decided s m.environment).ne_exhausted, rfl⟩
  rw [completes_iff, funext hstep]
  exact Reaches.map_iff.2 ⟨r, hresolve, rfl⟩

/-- The value of a negation is the number with its sign changed. -/
theorem completes_negate {e : Tree} {m m' : Machine} {c : Completion}
    (h : Completes e m (.ok c) m') :
    Completes (Tree.unary .returns "negate" e) m (c.value.negate.map .normal) m' := by
  have hstep : ∀ n, eval (n + 1) (Tree.unary .returns "negate" e) =
      value n e >>= fun v => liftM v.negate >>= fun w => pure (.normal w) := fun n => rfl
  have hnegate : Reaches (fun _ => liftM c.value.negate) m' c.value.negate m' :=
    Reaches.const_iff.2 ⟨c.value.negate_decided.ne_exhausted, rfl⟩
  rw [completes_iff, funext hstep, Reaches.bind_of_ok (value_of_completes h) (value_growing _)
    (.const _)]
  exact Reaches.map_iff.2 ⟨_, hnegate, rfl⟩

/-- What cannot be negated is no number. -/
theorem eq_wrongType_of_negate {v : Value} {e : Fault} (h : v.negate = .error e) :
    e = .wrongType := by
  unfold Value.negate at h
  split at h
  · cases h
  · cases h
  · cases h; rfl

/-- What has been negated is a number, and a number is no function. -/
theorem functionParts_of_negate {v w : Value} (h : v.negate = .ok w) :
    Node.functionParts w = .error .wrongType := by
  unfold Value.negate at h
  split at h
  · cases h; rfl
  · cases h; rfl
  · cases h

section Negated

variable {s : String} {m : Machine}

/-- Nothing can be negated and then called. -/
theorem completes_applied_negated {v : Value} (h : Name.resolve s m.environment = .ok v)
    {lists : List Tree} (hlists : lists ≠ []) :
    Completes (Tree.applied (Tree.unary .returns "negate"
      (Tree.leaf .returns "<identifier>" (.text s))) lists) m (.error .wrongType) m := by
  have hnegated : Completes (Tree.unary .returns "negate"
      (Tree.leaf .returns "<identifier>" (.text s))) m (v.negate.map .normal) m :=
    completes_negate (completes_name h)
  cases hv : v.negate with
  | error e =>
    rw [hv, eq_wrongType_of_negate hv] at hnegated
    exact completes_applied_of_error hnegated lists
  | ok w =>
    rw [hv] at hnegated
    cases lists with
    | nil => exact absurd rfl hlists
    | cons es lists =>
      have hcall : Completes (Tree.call .returns _ es) m (.error .wrongType) m :=
        completes_call_of_parts_error hnegated (functionParts_of_negate hv) Fault.noConfusion
      exact completes_applied_of_error hcall lists

/-- Where the name has no value, it is not negated or called. -/
theorem completes_applied_unbound {e : Fault} (h : Name.resolve s m.environment = .error e)
    (lists : List Tree) :
    Completes (Tree.applied (Tree.unary .returns "negate"
      (Tree.leaf .returns "<identifier>" (.text s))) lists) m (.error e) m := by
  have hname : Completes (Tree.leaf .returns "<identifier>" (.text s)) m (.error e) m :=
    completes_name h
  have hnegate : Completes (Tree.unary .returns "negate"
      (Tree.leaf .returns "<identifier>" (.text s))) m (.error e) m :=
    completes_iff.2 (value_of_failed hname).bind_of_error
  exact completes_applied_of_error hnegate lists

end Negated

end Returning

namespace Rule

open Returning (Completes completes_applied_negated completes_applied_unbound completes_negate)

/-- **A minus before a call.** Let a name and one list of arguments or more be read as a call, with
the tree `t`. If a minus stands before them, then

- the same tokens are read, but the tree is no negation: it is `t` with the negated name in the
  place of the name;
- evaluating it fails whatever the name is bound to and whatever `t` gives, before any argument is
  evaluated. If the name has no value it fails as the name does.

To negate the call it has to stand in parentheses: then the value is that of `t` with its sign
changed, if it is a number. At `functions` the minus negates the whole factor behind it. -/
theorem minus_negates_callee {minus name : Token} {s : String} (hminus : Is "-" minus)
    (hname : Bears name (.name (.text s))) {ts rest : List Token} (hts : ts ≠ []) {t : Tree}
    (h : callable.read .returns (name :: ts ++ rest) = .ok (t, rest)) :
    (∃ u, callable.read .returns (minus :: name :: ts ++ rest) = .ok (u, rest) ∧
      (rest = [Token.ending] → parse .returns (minus :: name :: ts) = .ok u) ∧
      u ≠ Tree.unary .returns "negate" t ∧
      (∃ lists, lists ≠ [] ∧
        t = Tree.applied (Tree.leaf .returns "<identifier>" (.text s)) lists ∧
        u = Tree.applied (Tree.unary .returns "negate"
          (Tree.leaf .returns "<identifier>" (.text s))) lists) ∧
      (∀ m v, Name.resolve s m.environment = .ok v →
        ∀ r m', Completes u m r m' ↔ r = .error .wrongType ∧ m' = m) ∧
      (∀ m e, Name.resolve s m.environment = .error e →
        ∀ r m', Completes u m r m' ↔ r = .error e ∧ m' = m)) ∧
    (∀ opening closing rest', Is "(" opening → Is ")" closing → Stops ["("] rest' →
      callable.read .returns (minus :: opening :: (name :: ts ++ closing :: rest')) =
        .ok (Tree.unary .returns "negate" t, rest')) ∧
    (∀ m c m', Completes t m (.ok c) m' →
      Completes (Tree.unary .returns "negate" t) m (c.value.negate.map .normal) m') ∧
    (∀ ts rest t, factor.read .functions ts = .ok (t, rest) →
      factor.read .functions (minus :: ts) = .ok (Tree.unary .functions "negate" t, rest)) := by
  have hcalls := h
  rw [List.cons_append, read_callable (read_name hname)] at hcalls
  obtain ⟨lists, ht, hnil, hall⟩ := calls_applied hcalls
  have hlists : lists ≠ [] := fun heq => hts (List.self_eq_append_left.1 (hnil heq))
  have hread := read_minus_called hminus hname hall
  refine ⟨⟨_, hread, ?_, Tree.applied_ne_negate _ _ hlists, ⟨lists, hlists, ht, rfl⟩,
    fun m v hv r m' => (completes_applied_negated hv hlists).iff_eq,
    fun m e he r m' => (completes_applied_unbound he lists).iff_eq⟩, ?_,
    fun m c m' => completes_negate, fun ts rest t => read_minus_factor hminus⟩
  · rintro rfl
    rw [← read_factor] at hread
    have hexpression := expression_of_factor rfl (.of_is hminus (by decide)) hread (.ending _)
    refine (parse_eq_ok_iff rfl).2 ⟨[Token.ending], ?_⟩
    exact (read_statement_expression hminus (by decide) (absurd · (by decide))
      (absurd · (by decide))).trans hexpression
  · intro opening closing rest' hopening hclosing hrest'
    have hinner := read_in_parentheses_of_callable hopening hclosing hname.1 (by decide) h rest'
    rw [read_callable (read_negated hminus hinner)]
    exact calls_end _ hrest'

/-- In `-f(1)` the minus belongs to `f`. With `f` a function that returns what it is given, `f(1)`
is 1 and `-f(1)` fails. At `functions` the minus belongs to the call. -/
theorem minus_before_call_refused :
    let f : Tree := Tree.leaf .returns "<identifier>" (.text "f")
    let one : Tree := Tree.leaf .returns "<number>" (.int 1)
    let m : Machine := ⟨.record [("f", (Expression.function [⟨"v", by decide⟩]
      [.giveBack (some (.name ⟨"v", by decide⟩))]).tree .returns)], ""⟩
    Program.tree .returns "f(1)" = .ok (Tree.call .returns f one) ∧
    Program.tree .returns "-f(1)" =
      .ok (Tree.call .returns (Tree.unary .returns "negate" f) one) ∧
    Tree.call .returns (Tree.unary .returns "negate" f) one ≠
      Tree.unary .returns "negate" (Tree.call .returns f one) ∧
    Completes (Tree.call .returns f one) m (.ok ⟨.int 1, true⟩) m ∧
    Completes (Tree.call .returns (Tree.unary .returns "negate" f) one) m
      (.error .wrongType) m ∧
    Program.tree .functions "-f(1)" =
      .ok (Tree.unary .functions "negate" (Tree.call .functions f one)) := by
  intro f one m
  refine ⟨rfl, rfl, ?_, ⟨by simp, 9, rfl⟩, ⟨by simp, 9, rfl⟩, rfl⟩
  exact Tree.applied_ne_negate _ _ (List.cons_ne_nil one [])

/-- The tokens of `h(7)(y)`, behind the name. -/
def argumentTokens : List Token :=
  [Token.make "(" none 2, Token.make "<number>" (some (.int 7)) 3, Token.make ")" none 4,
   Token.make "(" none 5, Token.make "<identifier>" (some (.text "y")) 6, Token.make ")" none 7]

/-- A minus before the call of what a call gives. -/
theorem minus_negates_callee_of_curried :
    let minus : Token := Token.make "-" none 0
    let name : Token := Token.make "<identifier>" (some (.text "h")) 1
    let t : Tree := Tree.applied (Tree.leaf .returns "<identifier>" (.text "h"))
      [Tree.leaf .returns "<number>" (.int 7), Tree.leaf .returns "<identifier>" (.text "y")]
    let m : Machine := ⟨.record [("h", .int 8)], ""⟩
    callable.read .returns (name :: argumentTokens ++ [Token.ending]) =
      .ok (t, [Token.ending]) ∧
    (∃ u, parse .returns (minus :: name :: argumentTokens) = .ok u ∧
      u ≠ Tree.unary .returns "negate" t ∧
      ∀ r m', Completes u m r m' ↔ r = .error .wrongType ∧ m' = m) ∧
    callable.read .returns (minus :: Token.make "(" none 1 ::
      (name :: argumentTokens ++ [Token.make ")" none 8, Token.ending])) =
      .ok (Tree.unary .returns "negate" t, [Token.ending]) := by
  intro minus name t m
  have hcall : callable.read .returns (name :: argumentTokens ++ [Token.ending]) =
      .ok (t, [Token.ending]) := rfl
  have hminus : Is "-" minus := rfl
  have hname : Bears name (.name (.text "h")) := ⟨rfl, rfl⟩
  obtain ⟨⟨u, -, hparse, hne, -, hvalue, -⟩, haround, -⟩ :=
    minus_negates_callee hminus hname (List.cons_ne_nil _ _) hcall
  exact ⟨hcall, ⟨u, hparse rfl, hne, hvalue m (.int 8) rfl⟩,
    haround _ _ _ rfl rfl (Stops.ending _)⟩

end Rule

end Stepwise
