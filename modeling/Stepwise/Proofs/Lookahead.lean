import Stepwise.Proofs.ParserReaders
import Stepwise.Proofs.ParserSound

/-!
# Readings and what follows them

A rule looks at the tokens that it consumes and at the tag of one token behind them. What it has
read it reads again if something else follows, as long as the next tag is the same, or one with
which the rule does not go on. This is said of any reading function, with one lemma for each way in
which reading functions are put together.

- `Quits st r rest`: whatever the rule `r` has read, it does not go on with `rest`;
- `SameAhead calm rest rest'`: the next tag is the same, or `rest'` is calm;
- `Taken st us`: the tokens have tags that rules look for. No two slashes stand in a row, which
  would be half a comment;
- `Local st calm f`: whatever `f` reads is taken, and `f` reads it again before any rest with the
  same ahead;
- `Solid st calm f`: moreover the first token is consumed, and it is not a slash.
-/

namespace Stepwise.Rule

open Token (headTag Is)

/-! ## The next token -/

/-- The signs that end a statement. -/
def ends : List String := [";", "\x7d"]

/-- What a statement, an expression or a list may go on with. -/
def goesOn (st : Stage) : List String :=
  st.nameTag :: "(" :: "=" :: "else" :: "," :: operators

/-- Ahead is a sign that ends a statement, or the ending. -/
def Ended (ts : List Token) : Prop :=
  ∃ v, headTag ts = .ok v ∧ (v.isText "\x7d" || v.isText ";" || v.isNull) = true

/-- What the rule reads may end in a `return` without a value. -/
def mayReturn (st : Stage) : Rule → Bool
  | .returnStatement => true
  | .statement | .ifStatement | .whileStatement => st.has .functions
  | _ => false

/-- The rule does not go on with these tokens, whatever it has read. -/
def Quits (st : Stage) (r : Rule) (ts : List Token) : Prop :=
  match r.mayReturn st with
  | true => Ended ts
  | false => Stops (goesOn st) ts

/-- What ends a statement does not go on with one. -/
theorem ends_not_goesOn (st : Stage) : ∀ s ∈ ends, s ∉ goesOn st := by
  cases st <;> decide

/-- A sign that ends a statement is such an end. -/
theorem Ended.of_mem {s : String} {t : Token} (hs : s ∈ ends) (h : Is s t) (ts : List Token) :
    Ended (t :: ts) := by
  have hall : ∀ s ∈ ends, ((Value.text s).isText "\x7d" || (Value.text s).isText ";" ||
      (Value.text s).isNull) = true := by
    decide
  exact ⟨_, h, hall s hs⟩

/-- Where a statement ends, nothing goes on. -/
theorem Ended.stops {ts : List Token} (h : Ended ts) (st : Stage) : Stops (goesOn st) ts := by
  obtain ⟨v, hv, hends⟩ := h
  refine ⟨v, hv, ?_⟩
  rintro tag htag rfl
  have hmem : tag ∈ ends := by
    simpa [Value.isText, Value.isNull, ends, or_comm] using hends
  exact ends_not_goesOn st tag hmem htag

namespace Quits

variable {st : Stage} {r r' : Rule} {ts : List Token}

/-- A rule that quits does not go on in any way. -/
theorem stops (h : Quits st r ts) : Stops (goesOn st) ts := by
  unfold Quits at h
  split at h
  · exact h.stops st
  · exact h

/-- A rule that may end in a bare return has to see the statement end. -/
theorem ended (hr : r.mayReturn st = true) : Quits st r ts ↔ Ended ts := by
  rw [Quits, hr]

/-- Where a statement ends, every rule quits. -/
theorem of_ended (h : Ended ts) (r : Rule) : Quits st r ts := by
  unfold Quits
  split
  · exact h
  · exact h.stops st

/-- A rule that goes on in fewer ways than another one quits where the other one does. -/
theorem imp (hr : r'.mayReturn st = true → r.mayReturn st = true) (h : Quits st r ts) :
    Quits st r' ts := by
  cases hr' : r'.mayReturn st with
  | true => exact (ended hr').2 ((ended (hr hr')).1 h)
  | false =>
    rw [Quits, hr']
    exact h.stops

end Quits

/-- Both lists start with the same tag, or the second one is calm. -/
inductive SameAhead (calm : List Token → Prop) : List Token → List Token → Prop
  | tag {rest rest' : List Token} (h : headTag rest' = headTag rest) : SameAhead calm rest rest'
  | calm {rest rest' : List Token} (h : calm rest') : SameAhead calm rest rest'

namespace SameAhead

variable {calm calm' : List Token → Prop} {rest rest' : List Token}

theorem same (t : Token) (more more' : List Token) : SameAhead calm (t :: more) (t :: more') :=
  .tag rfl

/-- What stands in front of both does not matter. -/
theorem append (h : SameAhead calm rest rest') (us : List Token) :
    SameAhead calm (us ++ rest) (us ++ rest') := by
  cases us with
  | nil => exact h
  | cons u us => exact .same u _ _

/-- With more that counts as calm. -/
theorem mono (hcalm : ∀ ts, calm' ts → calm ts) (h : SameAhead calm' rest rest') :
    SameAhead calm rest rest' := by
  cases h with
  | tag h => exact .tag h
  | calm h => exact .calm (hcalm _ h)

/-- A reading that stops at the one list stops at the other. -/
theorem stops (h : SameAhead calm rest rest') {signs : List String}
    (hcalm : ∀ ts, calm ts → Stops signs ts) (hrest : Stops signs rest) : Stops signs rest' := by
  cases h with
  | tag h =>
    obtain ⟨v, hv, hne⟩ := hrest
    exact ⟨v, h.trans hv, hne⟩
  | calm h => exact hcalm _ h

end SameAhead

/-! ## Tokens that rules take -/

/-- The tags that rules look for, but for the slash. -/
def vocabulary (st : Stage) : List String :=
  [st.numberTag, st.booleanTag, st.nameTag, "if", "while", "else", "function", "return", "print",
    "\x7b", "\x7d", "(", ")", ";", ",", "=", "!", "||", "&&", "<", ">", "<=", ">=", "==", "!=", "+",
    "-", "*"]

theorem slash_not_mem_vocabulary (st : Stage) : "/" ∉ vocabulary st := by
  cases st <;> decide

/-- Of the operators only the slash is missing from the vocabulary. -/
theorem operators_subset (st : Stage) : operators ⊆ "/" :: vocabulary st := by
  cases st <;> decide

/-- The first token is not a slash. -/
def Starts (us : List Token) : Prop :=
  ∃ t ∈ us.head?, ¬ Is "/" t

/-- Behind every slash stands a token that is none. -/
def Apart : List Token → Prop
  | [] => True
  | t :: us => (Is "/" t → Starts us) ∧ Apart us

/-- The first token stays the first. -/
theorem Starts.append {us : List Token} (h : Starts us) (vs : List Token) : Starts (us ++ vs) := by
  obtain ⟨t, ht, hne⟩ := h
  obtain ⟨more, rfl⟩ := List.head?_eq_some_iff.1 ht
  exact ⟨t, rfl, hne⟩

/-- The first token does not depend on what follows. -/
theorem Starts.headTag {us : List Token} (h : Starts us) (vs ws : List Token) :
    Token.headTag (us ++ vs) = Token.headTag (us ++ ws) := by
  obtain ⟨t, ht, -⟩ := h
  obtain ⟨more, rfl⟩ := List.head?_eq_some_iff.1 ht
  rfl

/-- The last token in front is no slash, or is followed by one that is none. -/
theorem Apart.append {us vs : List Token} (hus : Apart us) (hvs : Apart vs) : Apart (us ++ vs) := by
  induction us with
  | nil => exact hvs
  | cons t us ih => exact ⟨fun ht => (hus.1 ht).append vs, ih hus.2⟩

theorem Apart.right {us vs : List Token} (h : Apart (us ++ vs)) : Apart vs := by
  induction us with
  | nil => exact h
  | cons t us ih => exact ih h.2

theorem tag_unique {tag tag' : String} {t : Token} (h : Is tag t) (h' : Is tag' t) : tag = tag' :=
  Value.text.inj (Except.ok.inj (h.symm.trans h'))

/-- Tokens with tags that rules look for, and behind every slash one that is none. -/
structure Taken (st : Stage) (us : List Token) : Prop where
  known : ∀ t ∈ us, ∃ tag ∈ "/" :: vocabulary st, Is tag t
  apart : Apart us

namespace Taken

variable {st : Stage}

theorem nil : Taken st [] := ⟨nofun, trivial⟩

/-- Tokens taken one after the other. -/
theorem append {us vs : List Token} (hus : Taken st us) (hvs : Taken st vs) :
    Taken st (us ++ vs) := by
  refine ⟨fun t ht => ?_, hus.apart.append hvs.apart⟩
  rcases List.mem_append.1 ht with ht | ht
  · exact hus.known t ht
  · exact hvs.known t ht

/-- One token that is no slash. -/
theorem single {tag : String} {t : Token} (h : Is tag t) (htag : tag ∈ vocabulary st) :
    Taken st [t] := by
  refine ⟨fun u hu => ?_, fun hslash => ?_, trivial⟩
  · obtain rfl := List.mem_singleton.1 hu
    exact ⟨tag, List.mem_cons_of_mem _ htag, h⟩
  · exact absurd (tag_unique h hslash ▸ htag) (slash_not_mem_vocabulary st)

end Taken

/-! ## Locality -/

section Local

variable {α β : Type} {st : Stage} {calm : List Token → Prop}

/-- `f` takes the tokens `us` before `rest`, and before all that has the same ahead. -/
def ReadsBefore (st : Stage) (calm : List Token → Prop)
    (f : List Token → Except Fault (α × List Token)) (us : List Token) (a : α)
    (rest : List Token) : Prop :=
  Taken st us ∧ ∀ rest', SameAhead calm rest rest' → f (us ++ rest') = .ok (a, rest')

/-- What `f` reads, it reads again before every rest with the same ahead. -/
def Local (st : Stage) (calm : List Token → Prop)
    (f : List Token → Except Fault (α × List Token)) : Prop :=
  ∀ ts, Yields (fun p => ∃ us, ts = us ++ p.2 ∧ ReadsBefore st calm f us p.1 p.2) (f ts)

/-- The first token is one that rules look for, and not a slash. -/
def Opens (st : Stage) (ts : List Token) : Prop :=
  ∃ tag ∈ vocabulary st, headTag ts = .ok (.text tag)

/-- Moreover `f` consumes the first token, which is not a slash. -/
structure Solid (st : Stage) (calm : List Token → Prop)
    (f : List Token → Except Fault (α × List Token)) : Prop where
  head : ∀ ts, Yields (fun _ => Opens st ts) (f ts)
  later : ∀ t, Local st calm fun more => f (t :: more)

theorem nextIs_congr {ts ts' : List Token} (h : headTag ts' = headTag ts) (tag : String) :
    nextIs tag ts' = nextIs tag ts := by
  rw [nextIs, nextIs, h]

theorem bind_of_ok {x : Except Fault α} {a : α} (h : x = .ok a) (f : α → Except Fault β) :
    (x >>= f) = f a := by
  rw [h]
  rfl

theorem skipSemicolons_of_is {t : Token} (h : Is ";" t) (ts : List Token) :
    skipSemicolons (t :: ts) = skipSemicolons ts := by
  have htag : t.field "tag" = .ok (.text ";") := h
  simp [skipSemicolons, htag, Value.isText]

theorem skipSemicolons_of_stops {ts : List Token} (h : Stops [";"] ts) :
    skipSemicolons ts = .ok ts :=
  skipSemicolons_of_spans (show Spans ts (List.replicate 0 _) ts from rfl) h

/-- Skipping semicolons skips the first token, or stops there. -/
theorem semicolon_or_stops {t : Token} {ts rest : List Token}
    (h : skipSemicolons (t :: ts) = .ok rest) : Is ";" t ∨ Stops [";"] (t :: ts) := by
  cases htag : t.field "tag" with
  | error e =>
    rw [skipSemicolons, htag] at h
    cases h
  | ok v =>
    by_cases hv : v = .text ";"
    · exact .inl (htag.trans (congrArg _ hv))
    · exact .inr ⟨v, htag, by simpa using hv⟩

namespace ReadsBefore

variable {f g : List Token → Except Fault (α × List Token)} {us rest : List Token} {a : α}

theorem of_eq (h : ReadsBefore st calm f us a rest)
    (hgf : ∀ rest', SameAhead calm rest rest' → g (us ++ rest') = f (us ++ rest')) :
    ReadsBefore st calm g us a rest :=
  ⟨h.1, fun rest' hrest => (hgf rest' hrest).trans (h.2 rest' hrest)⟩

/-- One token more is consumed. -/
theorem cons {tag : String} {t : Token} (ht : Is tag t) (htag : tag ∈ vocabulary st)
    (h : ReadsBefore st calm f us a rest) (hgf : ∀ more, g (t :: more) = f more) :
    ReadsBefore st calm g (t :: us) a rest :=
  ⟨(Taken.single ht htag).append h.1, fun rest' hrest => (hgf _).trans (h.2 rest' hrest)⟩

end ReadsBefore

namespace Solid

variable {f : List Token → Except Fault (α × List Token)}

/-- What is read starts with a token that is no slash. -/
theorem split (hf : Solid st calm f) {ts : List Token} {p : α × List Token} (hp : f ts = .ok p) :
    ∃ us, ts = us ++ p.2 ∧ Starts us ∧ ReadsBefore st calm f us p.1 p.2 := by
  obtain ⟨tag, htag, hv⟩ := hf.head ts p hp
  obtain ⟨t, ts, rfl, ht⟩ := exists_of_headTag hv
  obtain ⟨us, rfl, hus, hagain⟩ := hf.later t ts p hp
  have hslash : ¬ Is "/" t := fun hslash =>
    absurd (tag_unique ht hslash ▸ htag) (slash_not_mem_vocabulary st)
  exact ⟨t :: us, rfl, ⟨t, rfl, hslash⟩, (Taken.single ht htag).append hus, hagain⟩

/-- A reading that consumes its first token is local. -/
theorem toLocal (hf : Solid st calm f) : Local st calm f := by
  intro ts p hp
  obtain ⟨us, hts, -, hreads⟩ := hf.split hp
  exact ⟨us, hts, hreads⟩

/-- Something is consumed. -/
theorem consumes (hf : Solid st calm f) :
    Local st calm f ∧ ∀ ts a, f ts ≠ .ok (a, ts) := by
  refine ⟨hf.toLocal, fun ts a hp => ?_⟩
  obtain ⟨us, hts, ⟨t, ht, -⟩, -⟩ := hf.split hp
  obtain rfl := List.self_eq_append_left.1 hts
  cases ht

end Solid

namespace Local

variable {f g : List Token → Except Fault (α × List Token)}

theorem pure (a : α) : Local st calm fun ts => (pure (a, ts) : Except Fault (α × List Token)) :=
  fun _ => .pure ⟨[], rfl, .nil, fun _ _ => rfl⟩

/-- A fault reads nothing. -/
theorem error (e : List Token → Fault) :
    Local st calm fun ts => (.error (e ts) : Except Fault (α × List Token)) :=
  fun _ => .error _

/-- With less that counts as calm. -/
theorem mono {calm' : List Token → Prop} (hcalm : ∀ ts, calm' ts → calm ts)
    (hf : Local st calm f) : Local st calm' f := by
  intro ts p hp
  obtain ⟨us, hts, hus, hagain⟩ := hf ts p hp
  exact ⟨us, hts, hus, fun rest' hrest => hagain rest' (hrest.mono hcalm)⟩

theorem ite {c : Prop} [Decidable c] (hf : c → Local st calm f) (hg : ¬c → Local st calm g) :
    Local st calm fun ts => if c then f ts else g ts := by
  by_cases hc : c
  · simpa only [if_pos hc] using hf hc
  · simpa only [if_neg hc] using hg hc

/-- What is read first is read again, since what is read next has the same ahead. -/
theorem bind {h : α × List Token → Except Fault (β × List Token)} (hf : Local st calm f)
    (hh : ∀ a, Local st calm fun rest => h (a, rest)) : Local st calm fun ts => f ts >>= h := by
  intro ts
  refine .bind fun q ha p hp => ?_
  obtain ⟨a, mid⟩ := q
  obtain ⟨us, rfl, hus, hagain⟩ := hf ts _ ha
  obtain ⟨vs, rfl, hvs, hagain'⟩ := hh a mid p hp
  refine ⟨us ++ vs, (List.append_assoc _ _ _).symm, hus.append hvs, fun rest' hrest => ?_⟩
  rw [List.append_assoc]
  exact (bind_of_ok (hagain _ (hrest.append vs)) h).trans (hagain' rest' hrest)

/-- A computation that does not depend on the tokens. -/
theorem fixed {x : List Token → Except Fault β} {h : β → List Token → Except Fault (α × List Token)}
    (hx : ∀ ts ts', x ts = x ts') (hh : ∀ b, Local st calm (h b)) :
    Local st calm fun ts => x ts >>= fun b => h b ts := by
  intro ts
  refine .bind fun b hb p hp => ?_
  obtain ⟨us, hts, hreads⟩ := hh b ts p hp
  exact ⟨us, hts, hreads.of_eq fun _ _ => bind_of_ok ((hx _ ts).trans hb) _⟩

/-- A look at the next token, where it may not change. -/
theorem look {tag : String} {h : Bool → List Token → Except Fault (α × List Token)}
    (hh : ∀ b, Local st (fun _ => False) (h b)) :
    Local st (fun _ => False) fun ts => nextIs tag ts >>= fun b => h b ts := by
  intro ts
  refine .bind fun b hb p hp => ?_
  obtain ⟨us, rfl, hreads⟩ := hh b ts p hp
  refine ⟨us, rfl, hreads.of_eq fun rest' hrest => bind_of_ok ?_ _⟩
  cases hrest.append us with
  | tag h => exact (nextIs_congr h tag).trans hb
  | calm h => exact h.elim

/-- If nothing is read where a tag is not ahead, the tag is not ahead of what is calm. -/
theorem nextIs_again {tag : String} {us rest rest' : List Token} {a : α}
    (hrest : SameAhead calm rest rest')
    (hb : nextIs tag (us ++ rest) = .ok false) (hg : g (us ++ rest) = .ok (a, rest))
    (hcalm : ∀ ts a, g ts = .ok (a, ts) → ∀ rest, calm rest → Stops [tag] rest) :
    nextIs tag (us ++ rest') = .ok false := by
  cases us with
  | cons u us => exact hb
  | nil =>
    cases hrest with
    | tag h => exact (nextIs_congr h tag).trans hb
    | calm h => exact (hcalm rest a hg _ h).nextIs (List.mem_singleton_self _)

/-- A token is taken if it is the one looked for. -/
theorem take {tag : String} (htag : tag ∈ vocabulary st)
    (hf : ∀ t, Local st calm fun more => f (t :: more)) (hg : Local st calm g)
    (hcalm : ∀ ts a, g ts = .ok (a, ts) → ∀ rest, calm rest → Stops [tag] rest) :
    Local st calm fun ts => nextIs tag ts >>= fun b => if b = true then f ts else g ts := by
  intro ts
  refine .bind fun b hb p hp => ?_
  cases b with
  | false =>
    obtain ⟨us, rfl, hreads⟩ := hg ts p hp
    refine ⟨us, rfl, hreads.of_eq fun rest' hrest => ?_⟩
    exact bind_of_ok (nextIs_again hrest hb hp hcalm) _
  | true =>
    obtain ⟨t, more, rfl, ht⟩ := exists_of_nextIs hb
    obtain ⟨us, rfl, hreads⟩ := hf t more p hp
    exact ⟨t :: us, rfl, hreads.cons ht htag fun _ => bind_of_ok (nextIs_of_is ht) _⟩

/-- A token is taken if it is the one looked for, else something that starts with another one. -/
theorem closing {tag : String} (htag : tag ∈ vocabulary st)
    (hf : ∀ t, Local st calm fun more => f (t :: more)) (hg : Solid st calm g) :
    Local st calm fun ts => nextIs tag ts >>= fun b => if b = true then f ts else g ts :=
  .take htag hf hg.toLocal fun ts a hread => absurd hread (hg.consumes.2 ts a)

/-- A look at the next token, with which the one alternative goes on. -/
theorem choose {tag : String} (hf : Local st calm f ∧ ∀ ts a, f ts ≠ .ok (a, ts))
    (hg : Local st calm g) (hcalm : ∀ rest, calm rest → Stops [tag] rest) :
    Local st calm fun ts => nextIs tag ts >>= fun b => if b = true then f ts else g ts := by
  intro ts
  refine .bind fun b hb p hp => ?_
  -- the look has the same outcome before any other rest
  cases b with
  | false =>
    obtain ⟨us, rfl, hreads⟩ := hg ts p hp
    refine ⟨us, rfl, hreads.of_eq fun rest' hrest => ?_⟩
    exact bind_of_ok (nextIs_again hrest hb hp fun _ _ _ => hcalm) _
  | true =>
    -- this alternative takes a token, so the look is at a token of its own
    obtain ⟨us, rfl, hreads⟩ := hf.1 ts p hp
    cases us with
    | nil => exact absurd hp (hf.2 _ _)
    | cons u us => exact ⟨u :: us, rfl, hreads.of_eq fun _ _ => bind_of_ok hb _⟩

/-- A token that has to be there. -/
theorem skip {tag : String} (htag : tag ∈ vocabulary st) (hf : Local st calm f) :
    Local st calm fun ts => Rule.skip tag ts >>= f := by
  intro ts
  refine .andThen (skip_token tag ts) ?_
  rintro rest ⟨t, rfl, ht⟩ p hp
  obtain ⟨us, rfl, hreads⟩ := hf rest p hp
  exact ⟨t :: us, rfl, hreads.cons ht htag fun _ => bind_of_ok (skip_of_is ht) f⟩

/-- A token that has to be there. -/
theorem demand {tag : String} (what : String) (htag : tag ∈ vocabulary st)
    (hf : Local st calm f) : Local st calm fun ts => Rule.demand tag what ts >>= f := by
  intro ts
  refine .andThen (demand_token tag what ts) ?_
  rintro rest ⟨t, rfl, ht⟩ p hp
  obtain ⟨us, rfl, hreads⟩ := hf rest p hp
  exact ⟨t :: us, rfl, hreads.cons ht htag fun _ => bind_of_ok (demand_of_is ht what) f⟩

/-- The first token has to be there; it is not among those that are left to read. -/
theorem skipped (tag : String) (t : Token) (hf : Local st calm f) :
    Local st calm fun more => Rule.skip tag (t :: more) >>= f := by
  intro more
  refine .andThen (skip_token tag (t :: more)) ?_
  rintro rest ⟨u, heq, ht⟩ p hp
  cases heq
  obtain ⟨us, rfl, hreads⟩ := hf more p hp
  exact ⟨us, rfl, hreads.of_eq fun _ _ => bind_of_ok (skip_of_is ht) f⟩

/-- The token behind the semicolons may not change: it could be a semicolon itself. -/
theorem semicolons (hf : Local st (fun _ => False) f) :
    Local st (fun _ => False) fun ts => skipSemicolons ts >>= f := by
  -- by induction on the tokens: a semicolon in front is taken, and the rest read as before
  intro ts
  induction ts with
  | nil => exact .error _
  | cons t ts ih =>
    refine .bind fun rest hrest p hp => ?_
    rcases semicolon_or_stops hrest with ht | hstops
    · rw [skipSemicolons_of_is ht] at hrest
      obtain ⟨us, rfl, hreads⟩ := ih p ((bind_of_ok hrest f).trans hp)
      refine ⟨t :: us, rfl, hreads.cons ht (by simp [vocabulary]) fun more => ?_⟩
      exact congrArg (· >>= f) (skipSemicolons_of_is ht more)
    -- the first token is no semicolon; it is still the first when the rest is exchanged
    · rw [skipSemicolons_of_stops hstops] at hrest
      cases hrest
      obtain ⟨us, hts, hreads⟩ := hf (t :: ts) p hp
      refine ⟨us, hts, hreads.of_eq fun rest' hahead => ?_⟩
      have hstops' : Stops [";"] (us ++ rest') := by
        refine (hahead.append us).stops (fun _ h => h.elim) ?_
        rwa [← hts]
      exact bind_of_ok (skipSemicolons_of_stops hstops') f

/-- Behind a brace that is consumed it does not matter what follows. -/
theorem closed {h : α → β} (hf : Local st (fun _ => False) f) :
    Local st calm fun ts => f ts >>= fun p => Rule.skip "\x7d" p.2 >>= fun rest =>
      (Pure.pure (h p.1, rest) : Except Fault (β × List Token)) := by
  intro ts
  refine .bind fun p hp => .andThen (skip_token _ p.2) ?_
  rintro rest ⟨t, hrest, ht⟩
  refine .pure ?_
  obtain ⟨us, rfl, hus, hagain⟩ := hf ts p hp
  rw [hrest] at hagain ⊢
  refine ⟨us ++ [t], by simp, hus.append (.single ht (by simp [vocabulary])), fun rest' _ => ?_⟩
  rw [List.append_assoc]
  refine (bind_of_ok (hagain _ (.same t rest rest')) _).trans ?_
  exact bind_of_ok (skip_of_is ht) _

end Local

namespace Solid

variable {f : List Token → Except Fault (α × List Token)}

theorem mono {calm' : List Token → Prop} (hcalm : ∀ ts, calm' ts → calm ts)
    (hf : Solid st calm f) : Solid st calm' f :=
  ⟨hf.head, fun t => (hf.later t).mono hcalm⟩

/-- What follows may be anything that is local. -/
theorem bind {h : α × List Token → Except Fault (β × List Token)} (hf : Solid st calm f)
    (hh : ∀ a, Local st calm fun rest => h (a, rest)) : Solid st calm fun ts => f ts >>= h where
  head ts := .andThen (hf.head ts) fun _ hstops _ _ => hstops
  later t := .bind (hf.later t) hh

end Solid

end Local

end Stepwise.Rule
