import Mathlib.Data.List.Perm.Subperm
import Stepwise.Expectation
import Stepwise.Proofs.Action
import Stepwise.Proofs.ProperValues

/-!
# What an expectation checks

Checking an expectation runs its program and compares the result and, unless an
empty one is expected, the environment. Comparing is meant to decide whether two
values are the same, and does if no record has a field twice; programs make no
such record.

- `Value.Same`: two values are the same. Records are if they bind the same names
  to the same values, in whatever order;
- `Value.equal_iff_same`: comparing decides it;
- `Expectation.check_eq_compare`, `Expectation.check_eq`: checking is running and
  comparing;
- `Expectation.check_passes_iff`: what passes.
-/

namespace Stepwise

/-! ## Names of fields -/

namespace Fields

open Value (properFields)

/-- A proper record has every name once. -/
theorem nodup_names {fields : Fields} (h : properFields fields = true) : (names fields).Nodup := by
  induction fields with
  | nil => exact .nil
  | cons field rest ih =>
    obtain ⟨hnew, -, hrest⟩ := properFields_cons.1 h
    exact List.nodup_cons.2 ⟨get?_eq_none_iff.1 hnew, ih hrest⟩

/-- Records of one length, one with all names of the other, have the same names. -/
theorem names_subset_of_length_eq {fs gs : Fields} (hfs : properFields fs = true)
    (hsub : names fs ⊆ names gs) (hlen : fs.length = gs.length) : names gs ⊆ names fs := by
  have hle : (names gs).length ≤ (names fs).length := by simp [names, hlen]
  exact ((List.subperm_of_subset (nodup_names hfs) hsub).perm_of_length_le hle).symm.subset

theorem length_le_of_names_subset {fs gs : Fields} (hfs : properFields fs = true)
    (hsub : names fs ⊆ names gs) : fs.length ≤ gs.length := by
  simpa [names] using (List.subperm_of_subset (nodup_names hfs) hsub).length_le

end Fields

/-! ## Equality -/

/-- Two values are the same: null and null, one text, numbers of one value, lists with the same
items in the same order, records with the same names for the same values. -/
inductive Value.Same : Value → Value → Prop
  | null : Same .null .null
  | text (s : String) : Same (.text s) (.text s)
  | number {a b : Value} (h : a.sameNumber b = true) : Same a b
  | nil : Same (.list []) (.list [])
  | cons {a b : Value} {as bs : List Value} (head : Same a b) (tail : Same (.list as) (.list bs)) :
    Same (.list (a :: as)) (.list (b :: bs))
  | record {fs gs : Fields}
    (names : ∀ name, Fields.get? name fs = none ↔ Fields.get? name gs = none)
    (values : ∀ name a b, Fields.get? name fs = some a → Fields.get? name gs = some b → Same a b) :
    Same (.record fs) (.record gs)

namespace Value

/-- Proper records of one length are the same if the one's fields are in the other. -/
theorem same_record_iff {fs gs : Fields} (hfs : properFields fs = true)
    (hgs : properFields gs = true) :
    Same (.record fs) (.record gs) ↔ fs.length = gs.length ∧
      ∀ name a, Fields.get? name fs = some a → ∃ b, Fields.get? name gs = some b ∧ Same a b := by
  constructor
  · rintro (⟨⟩ | ⟨⟩ | h | ⟨⟩ | ⟨⟩ | ⟨hnames, hvalues⟩)
    · cases h
    have hsub : ∀ name, name ∈ Fields.names fs ↔ name ∈ Fields.names gs := by
      intro name
      have hname := hnames name
      rw [Fields.get?_eq_none_iff, Fields.get?_eq_none_iff] at hname
      exact not_iff_not.1 hname
    -- without duplicates the same names mean the same number of fields
    refine ⟨Nat.le_antisymm (Fields.length_le_of_names_subset hfs fun name => (hsub name).1)
      (Fields.length_le_of_names_subset hgs fun name => (hsub name).2), fun name a ha => ?_⟩
    cases hb : Fields.get? name gs with
    | none => simp [(hnames name).2 hb] at ha
    | some b => exact ⟨b, rfl, hvalues name a b ha hb⟩
  · rintro ⟨hlen, hvalues⟩
    have hsub : Fields.names fs ⊆ Fields.names gs := by
      intro name hname
      by_contra hnone
      cases ha : Fields.get? name fs with
      | none => exact Fields.get?_eq_none_iff.1 ha hname
      | some a =>
        obtain ⟨b, hb, -⟩ := hvalues name a ha
        simp [Fields.get?_eq_none_iff.2 hnone] at hb
    -- comparing looks for the names of one side only; the lengths give the other direction
    have hsub' := Fields.names_subset_of_length_eq hfs hsub hlen
    refine .record (fun name => ?_) fun name a b ha hb => ?_
    · rw [Fields.get?_eq_none_iff, Fields.get?_eq_none_iff]
      exact ⟨fun h hgs => h (hsub' hgs), fun h hfs => h (hsub hfs)⟩
    · obtain ⟨b', hb', hsame⟩ := hvalues name a ha
      cases hb.symm.trans hb'
      exact hsame

/-- Values that hold no others are the same if they are compared as equal. -/
theorem equal_iff_same_of_leaf {a b : Value} (hlist : ∀ as bs, ¬ (a = .list as ∧ b = .list bs))
    (hrecord : ∀ fs gs, ¬ (a = .record fs ∧ b = .record gs)) : a.equal b = true ↔ Same a b := by
  cases a <;> cases b
  case null.null => exact ⟨fun _ => .null, fun _ => rfl⟩
  case text.text s t =>
    simp only [equal, beq_iff_eq]
    constructor
    · rintro rfl
      exact .text s
    · rintro (⟨⟩ | ⟨⟩ | h)
      · rfl
      · cases h
  case list.list as bs => exact absurd ⟨rfl, rfl⟩ (hlist as bs)
  case record.record fs gs => exact absurd ⟨rfl, rfl⟩ (hrecord fs gs)
  all_goals
    refine ⟨fun h => .number h, fun h => ?_⟩
    cases h with
    | number h => exact h

/-- Lists are the same item by item. -/
theorem same_cons_iff {a b : Value} {as bs : List Value} :
    Same (.list (a :: as)) (.list (b :: bs)) ↔ Same a b ∧ Same (.list as) (.list bs) := by
  constructor
  · rintro (⟨⟩ | ⟨⟩ | h | ⟨⟩ | ⟨hhead, htail⟩)
    · cases h
    · exact ⟨hhead, htail⟩
  · exact fun h => .cons h.1 h.2

theorem equalFields_cons {key : Key} {a : Value} {fs gs : Fields} :
    equalFields ((key, a) :: fs) gs = true ↔
      (∃ b, Fields.get? key gs = some b ∧ a.equal b = true) ∧ equalFields fs gs = true := by
  rw [equalFields, Bool.and_eq_true]
  cases Fields.get? key gs <;> simp

mutual

/-- **Comparing decides sameness**, if no record has a field twice. -/
theorem equal_iff_same : ∀ {a b : Value}, a.proper = true → b.proper = true →
    (a.equal b = true ↔ Same a b)
  | .list as, b, ha, hb => by
    cases b with
    | list bs => exact equalItems_iff_same ha hb
    | null | bool | int | float | text | record =>
      exact equal_iff_same_of_leaf (by simp) (by simp)
  | .record fs, b, ha, hb => by
    cases b with
    | record gs =>
      rw [same_record_iff ha hb, equal, Bool.and_eq_true, beq_iff_eq, equalFields_iff_same ha hb]
    | null | bool | int | float | text | list => exact equal_iff_same_of_leaf (by simp) (by simp)
  | .null, _, _, _ | .bool _, _, _, _ | .int _, _, _, _ | .float _, _, _, _ | .text _, _, _, _ =>
    equal_iff_same_of_leaf (by simp) (by simp)

/-- Comparing items decides whether lists are the same. -/
theorem equalItems_iff_same : ∀ {as bs : List Value}, properItems as = true →
    properItems bs = true → (equalItems as bs = true ↔ Same (.list as) (.list bs))
  | [], [], _, _ => by simp [equalItems, Same.nil]
  | [], _ :: _, _, _ | _ :: _, [], _, _ => by
    constructor
    · intro h
      cases h
    · rintro (⟨⟩ | ⟨⟩ | ⟨⟨⟩⟩)
  | a :: as, b :: bs, ha, hb => by
    simp only [properItems, Bool.and_eq_true] at ha hb
    rw [same_cons_iff, equalItems, Bool.and_eq_true, equal_iff_same ha.1 hb.1,
      equalItems_iff_same ha.2 hb.2]

/-- Comparing fields decides whether each is in the other record, with the same value. -/
theorem equalFields_iff_same : ∀ {fs gs : Fields}, properFields fs = true →
    properFields gs = true → (equalFields fs gs = true ↔
      ∀ name a, Fields.get? name fs = some a → ∃ b, Fields.get? name gs = some b ∧ Same a b)
  | [], _, _, _ => by simp [equalFields, Fields.get?]
  | (key, a) :: fs, gs, hfs, hgs => by
    obtain ⟨hkey, ha, hfs⟩ := Fields.properFields_cons.1 hfs
    have ih := equalFields_iff_same hfs hgs
    have hhead : (∃ b, Fields.get? key gs = some b ∧ a.equal b = true) ↔
        ∃ b, Fields.get? key gs = some b ∧ Same a b :=
      exists_congr fun b => and_congr_right fun hb =>
        equal_iff_same ha (Fields.proper_of_get? hgs hb)
    rw [equalFields_cons, hhead, ih]
    constructor
    · rintro ⟨hfirst, hrest⟩ name v hv
      rw [Fields.get?] at hv
      split at hv
      · cases hv
        exact ‹key = name› ▸ hfirst
      · exact hrest name v hv
    · intro h
      refine ⟨h key a (by simp [Fields.get?]), fun name v hv => h name v ?_⟩
      -- a later field of the same name would be hidden by the first
      have hne : key ≠ name := by
        rintro rfl
        cases hkey.symm.trans hv
      rwa [Fields.get?, if_neg hne]

end

end Value

/-! ## Checking -/

namespace Expectation

open Value (Same)

/-- Compares a value with the expected one; a difference is reported. -/
def compare (report : Difference → String) (code : String) (expected found : Value) :
    Action Unit := do
  if !found.equal expected then throw (.mismatch (report (← difference code expected found)))

/-- Checking compares twice: the result, and the environment if one is expected. -/
theorem check_eq_compare (st : Stage) (e : Expectation) :
    e.check st = Action.inFrame e.environment (Program.run st e.code >>= fun c =>
      compare (Difference.ofResult st) e.code e.result c.value >>= fun _ =>
        if e.afterwards.truthy then
          Action.environment >>= compare (Difference.ofEnvironment st) e.code e.afterwards
        else pure ()) := by
  unfold check compare
  congr 1
  refine bind_congr fun c => ?_
  dsimp only
  cases c.value.equal e.result with
  | true => rfl
  | false => simp [bind_assoc]

/-- Comparing changes nothing, and it passes if the two values are equal. -/
theorem compare_apply (report : Difference → String) (code : String) (expected found : Value)
    (m : Machine) : ∃ r, compare report code expected found m = (r, m) ∧
      (r = .ok () ↔ found.equal expected = true) := by
  unfold compare
  cases found.equal expected with
  | true => exact ⟨_, rfl, by simp⟩
  | false =>
    cases hd : difference code expected found with
    | ok d => exact ⟨.error (.mismatch (report d)), rfl, by simp⟩
    | error f => exact ⟨.error f, rfl, by simp⟩

variable {st : Stage} {e : Expectation} {c : Completion} {m : Machine}

/-- If its program runs to an end, checking an expectation compares what the run has led to. -/
theorem check_eq (hrun : (Program.run st e.code).run e.environment = (.ok c, m)) (m₀ : Machine) :
    ∃ r, e.check st m₀ = (r, ⟨m₀.environment, m₀.printed ++ m.printed⟩) ∧
      (r = .ok () ↔ c.value.equal e.result = true ∧
        (e.afterwards.truthy = true → m.environment.equal e.afterwards = true)) := by
  -- both comparisons leave the machine as the program has left it
  let m₁ : Machine := ⟨m.environment, m₀.printed ++ m.printed⟩
  have hbehind : Program.run st e.code ⟨e.environment, m₀.printed⟩ = (.ok c, m₁) := by
    rw [Program.run_behind, hrun]
  obtain ⟨r, hcompare, hr⟩ :=
    compare_apply (Difference.ofResult st) e.code e.result c.value m₁
  rw [check_eq_compare]
  cases r with
  | error f =>
    refine ⟨.error f, Action.inFrame_eq (?_ : _ = (Except.error f, m₁)), ?_⟩
    · rw [Action.bind_ok _ hbehind, Action.bind_error _ hcompare]
    · simp [← hr]
  | ok u =>
    have hresult : c.value.equal e.result = true := hr.1 rfl
    cases hafter : e.afterwards.truthy with
    | false =>
      refine ⟨.ok (), Action.inFrame_eq (?_ : _ = (Except.ok (), m₁)), by simp [hresult]⟩
      rw [Action.bind_ok _ hbehind, Action.bind_ok _ hcompare]
      rfl
    | true =>
      obtain ⟨r', hcompare', hr'⟩ :=
        compare_apply (Difference.ofEnvironment st) e.code e.afterwards m.environment m₁
      refine ⟨r', Action.inFrame_eq (?_ : _ = (r', m₁)), by simp [hresult, hr']⟩
      rw [Action.bind_ok _ hbehind, Action.bind_ok _ hcompare]
      exact hcompare'

theorem truthy_record_iff {fields : Fields} :
    (Value.record fields).truthy = true ↔ fields ≠ [] := by
  cases fields <;> simp [Value.truthy]

/-- **What passes.** Let the program of an expectation run to an end. Checking the expectation
passes, whatever was printed before, if and only if the result is the expected one and so is the
environment afterwards, unless an empty one is expected: that one is not compared. Either way the
machine keeps its own environment and what the program printed. -/
theorem check_passes_iff {fields : Fields} (henv : e.environment.proper = true)
    (hresult : e.result.proper = true) (hafter : e.afterwards = .record fields)
    (hfields : (Value.record fields).proper = true)
    (hrun : (Program.run st e.code).run e.environment = (.ok c, m)) (m₀ : Machine) :
    ((e.check st m₀).1 = .ok () ↔ Same c.value e.result ∧
      (fields = [] ∨ Same m.environment (.record fields))) ∧
    (e.check st m₀).2 = ⟨m₀.environment, m₀.printed ++ m.printed⟩ := by
  obtain ⟨hproper, hvalue⟩ := Program.run_proper henv hrun
  obtain ⟨r, hcheck, hr⟩ := check_eq hrun m₀
  rw [hcheck]
  refine ⟨?_, rfl⟩
  rw [hr, hafter, truthy_record_iff, Value.equal_iff_same (hvalue c rfl) hresult,
    Value.equal_iff_same hproper hfields, imp_iff_not_or, not_not]

/-- The fields of an environment may be expected in any order. -/
theorem check_passes_iff_of_reordering : ∃ (c : Completion) (m : Machine),
    (Program.run .returns "x=y").run (.record [("y", .text "a")]) = (.ok c, m) ∧
      (check .returns ⟨"x=y", .record [("y", .text "a")], .null,
        .record [("x", .text "a"), ("y", .text "a")]⟩ ⟨.record [], "so far"⟩).1 = .ok () := by
  let name (x : String) : Tree := Tree.leaf .returns "<identifier>" (.text x)
  have htree : Program.tree .returns "x=y" =
      .ok (Tree.assign .returns (name "x") (name "y")) := rfl
  have hrun : (Program.run .returns "x=y").run (.record [("y", .text "a")]) =
      (.ok ⟨.null, false⟩, ⟨.record [("y", .text "a"), ("x", .text "a")], ""⟩) := by
    unfold Program.run
    rw [htree]
    rfl
  let e : Expectation := ⟨"x=y", .record [("y", .text "a")], .null,
    .record [("x", .text "a"), ("y", .text "a")]⟩
  have hexpected : e.afterwards.proper = true := by decide
  have hsame : Same (.record [("y", .text "a"), ("x", .text "a")]) e.afterwards :=
    (Value.equal_iff_same (by decide) hexpected).1 (by decide)
  obtain ⟨hpasses, -⟩ :=
    check_passes_iff (e := e) (by decide) rfl rfl hexpected hrun ⟨.record [], "so far"⟩
  exact ⟨_, _, hrun, hpasses.2 ⟨.null, .inr hsame⟩⟩

/-- **An expected environment that is empty is not compared**: the program leaves a name in it, and
the check passes. -/
theorem check_passes_empty_expected : ∃ (c : Completion) (m : Machine),
    (Program.run .returns "x=1").run (.record []) = (.ok c, m) ∧
      ¬ Same m.environment (.record []) ∧
      (check .returns ⟨"x=1", .record [], .null, .record []⟩ ⟨.record [], ""⟩).1 = .ok () := by
  have htree : Program.tree .returns "x=1" = .ok (Tree.assign .returns
      (Tree.leaf .returns "<identifier>" (.text "x"))
      (Tree.leaf .returns "<number>" (.int 1))) := rfl
  have hrun : (Program.run .returns "x=1").run (.record []) =
      (.ok ⟨.null, false⟩, ⟨.record [("x", .int 1)], ""⟩) := by
    unfold Program.run
    rw [htree]
    rfl
  refine ⟨_, _, hrun, ?_, ?_⟩
  · rw [← Value.equal_iff_same (by decide) (by decide)]
    decide
  · let e : Expectation := ⟨"x=1", .record [], .null, .record []⟩
    obtain ⟨r, hcheck, hr⟩ := check_eq (e := e) hrun ⟨.record [], ""⟩
    rw [hcheck]
    exact hr.2 ⟨rfl, nofun⟩

end Expectation

end Stepwise
