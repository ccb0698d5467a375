import Stepwise.Proofs.Syntax

/-!
# Chains of frames

From `scopes` on an environment is a chain of frames, and a name means what the innermost frame
with a binding for it says. All bindings that can be seen in a chain fit into one frame.

- `Name.resolve_record`: how a name is looked up, in terms of the fields of a frame;
- `Name.Visible`: every name stands for a value with a property, which binding such a value and
  calling a function with such arguments keep;
- `Name.Flat`: the environment is one frame, and looking up in it is looking into one record;
- `Name.Chain`: the environment is a chain of frames; binding a name and calling a function keep
  it so;
- `Name.Agree`: every name means the same in two environments;
- `Name.collapse`: the one frame that agrees with a chain (`resolve_collapse`).
-/

namespace Stepwise.Name

/-! ## Looking up -/

/-- The frame behind is the one in the field `$parent`, and behind the last there is nothing. -/
theorem resolveParent_eq (name : String) (fields : Fields) :
    resolveParent name fields =
      (Fields.get? parentField fields).elim (.error (.undefinedName name)) (resolve name) := by
  induction fields with
  | nil => rfl
  | cons field rest ih =>
    obtain ⟨key, v⟩ := field
    by_cases hkey : key = parentField
    · simp [resolveParent, Fields.get?, hkey]
    · simp [resolveParent, Fields.get?, hkey, ih]

theorem resolveParent_set {name field : String} (h : field ≠ parentField) (v : Value)
    (fields : Fields) :
    resolveParent name (Fields.set field v fields) = resolveParent name fields := by
  rw [resolveParent_eq, resolveParent_eq, Fields.get?_set_of_text_ne v h.symm]

theorem resolveParent_set_parent (name : String) (v : Value) (fields : Fields) :
    resolveParent name (Fields.set parentField v fields) = resolve name v := by
  rw [resolveParent_eq, Fields.get?_set_self, Option.elim_some]

/-- A frame is asked first, and then the one that encloses it. -/
theorem resolve_record (name : String) (fields : Fields) :
    resolve name (.record fields) =
      (Fields.get? name fields).elim (resolveParent name fields) .ok := by
  rw [resolve]
  cases Fields.get? name fields <;> rfl

/-- A name that means something is bound in the frame itself or known to the enclosing one. -/
theorem bound_or_outer {name : String} {fields : Fields} {v : Value}
    (h : resolve name (.record fields) = .ok v) :
    Fields.get? name fields = some v ∨
      ∃ parent, Fields.get? parentField fields = some parent ∧ resolve name parent = .ok v := by
  rw [resolve_record, resolveParent_eq] at h
  cases hname : Fields.get? name fields with
  | some w =>
    rw [hname] at h
    cases h
    exact .inl rfl
  | none =>
    rw [hname] at h
    cases hparent : Fields.get? parentField fields with
    | some parent =>
      rw [hparent] at h
      exact .inr ⟨parent, rfl, h⟩
    | none =>
      rw [hparent] at h
      cases h

theorem resolve_set_self (name : String) (v : Value) (fields : Fields) :
    resolve name (.record (Fields.set name v fields)) = .ok v := by
  rw [resolve_record, Fields.get?_set_self, Option.elim_some]

/-- Binding one name does not change what another stands for. -/
theorem resolve_set_of_ne {x : Identifier} {name : String} (hne : name ≠ x.text) (v : Value)
    (fields : Fields) :
    resolve name (.record (Fields.set x.text v fields)) = resolve name (.record fields) := by
  rw [resolve_record, resolve_record, Fields.get?_set_of_text_ne v hne,
    resolveParent_set x.text_ne_parent]

/-- In the frame of a call a name means what the frame binds it to, or what it means to the
caller. -/
theorem resolve_frame (x : Identifier) (caller : Value) (fields : Fields) :
    resolve x.text (.record (Fields.set parentField caller fields)) =
      (Fields.get? x.text fields).elim (resolve x.text caller) .ok := by
  rw [resolve_record, Fields.get?_set_of_text_ne caller x.text_ne_parent, resolveParent_set_parent]

/-- Every name that can be looked up in the environment stands for a value with the property. -/
def Visible (P : Value → Prop) (env : Value) : Prop :=
  ∀ (x : Identifier) (v : Value), resolve x.text env = .ok v → P v

namespace Visible

variable {P : Value → Prop}

/-- Binding a name to such a value. -/
theorem set {fields : Fields} (h : Visible P (.record fields)) (x : Identifier) {v : Value}
    (hv : P v) : Visible P (.record (Fields.set x.text v fields)) := by
  intro y w hw
  by_cases hy : y.text = x.text
  · rw [hy, resolve_set_self] at hw
    cases hw
    exact hv
  · rw [resolve_set_of_ne hy] at hw
    exact h y w hw

/-- A call with such arguments, from such an environment. -/
theorem frame {caller : Value} (h : Visible P caller) {fields : Fields}
    (hfields : ∀ (x : Identifier) (v : Value), Fields.get? x.text fields = some v → P v) :
    Visible P (.record (Fields.set parentField caller fields)) := by
  intro x v hv
  rw [resolve_frame] at hv
  cases hget : Fields.get? x.text fields with
  | some w =>
    rw [hget] at hv
    cases hv
    exact hfields x v hget
  | none =>
    rw [hget] at hv
    exact h x v hv

end Visible

/-! ## One frame -/

/-- The environment is one frame: no other encloses it. -/
def Flat (env : Value) : Prop :=
  ∃ fields, env = .record fields ∧ Fields.get? parentField fields = none

/-- In one frame the chain ends where the frame does. -/
theorem resolve_of_flat (name : String) {env : Value} (h : Flat env) :
    resolve name env = find name env := by
  obtain ⟨fields, rfl, hparent⟩ := h
  rw [resolve_record, resolveParent_eq, hparent]
  cases hv : Fields.get? name fields with
  | some v =>
    simp only [find, isIn, Value.field, hv]
    rfl
  | none =>
    simp only [find, isIn, hv]
    rfl

/-! ## Chains -/

/-- The environment is a chain of frames: the outermost has no enclosing frame, or null for it. -/
inductive Chain : Value → Prop
  | outermost {fields : Fields} : Fields.get? parentField fields = none → Chain (.record fields)
  | closed {fields : Fields} :
      Fields.get? parentField fields = some .null → Chain (.record fields)
  | inside {fields : Fields} {parent : Value} : Fields.get? parentField fields = some parent →
      Chain parent → Chain (.record fields)

namespace Chain

theorem exists_fields {env : Value} (h : Chain env) : ∃ fields, env = .record fields := by
  cases h <;> exact ⟨_, rfl⟩

/-- Binding a name leaves the enclosing frames as they are. -/
theorem set {fields : Fields} (h : Chain (.record fields)) (x : Identifier) (v : Value) :
    Chain (.record (Fields.set x.text v fields)) := by
  have hparent : Fields.get? parentField (Fields.set x.text v fields) =
      Fields.get? parentField fields := Fields.get?_set_of_text_ne v x.text_ne_parent.symm fields
  cases h with
  | outermost h => exact .outermost (hparent.trans h)
  | closed h => exact .closed (hparent.trans h)
  | inside h hchain => exact .inside (hparent.trans h) hchain

/-- The frame of a call has the caller's chain behind it. -/
theorem frame {caller : Value} (h : Chain caller) (fields : Fields) :
    Chain (.record (Fields.set parentField caller fields)) :=
  .inside (Fields.get?_set_self parentField caller fields) h

end Chain

/-- Every name means the same in the two environments, or nothing in both. -/
def Agree (env env' : Value) : Prop :=
  ∀ x : Identifier, resolve x.text env' = resolve x.text env

/-! ## Collapsing a chain -/

/-- The bindings of a frame laid over those of the frames behind it. -/
def overlay (outer : Fields) : Fields → Fields
  | [] => outer
  | (key, v) :: rest =>
    if key = parentField then overlay outer rest else Fields.set key v (overlay outer rest)

mutual

/-- The bindings that can be seen in a chain of frames. -/
def bindings : Value → Fields
  | .record fields => overlay (outerBindings fields) fields
  | _ => []

/-- Those of the enclosing frame, if there is one. -/
def outerBindings : Fields → Fields
  | [] => []
  | (key, v) :: rest => if key = parentField then bindings v else outerBindings rest

end

/-- The chain as one frame. -/
def collapse (env : Value) : Value := .record (bindings env)

/-- The bindings of the enclosing frames, if there are any. -/
theorem outerBindings_eq (fields : Fields) :
    outerBindings fields = (Fields.get? parentField fields).elim [] bindings := by
  induction fields with
  | nil => rfl
  | cons field rest ih =>
    obtain ⟨key, v⟩ := field
    by_cases hkey : key = parentField
    · simp [outerBindings, Fields.get?, hkey]
    · simp [outerBindings, Fields.get?, hkey, ih]

/-- A field of the inner frame hides the one of the outer. -/
theorem get?_overlay {name : String} (hname : name ≠ parentField) (outer fields : Fields) :
    Fields.get? name (overlay outer fields) =
      (Fields.get? name fields).elim (Fields.get? name outer) some := by
  induction fields with
  | nil => rfl
  | cons field rest ih =>
    obtain ⟨key, v⟩ := field
    rw [overlay]
    by_cases hkey : key = name
    · subst hkey
      rw [if_neg fun h => hname (Key.text.inj h), Fields.get?_set_self]
      simp [Fields.get?]
    · have hrest : Fields.get? name ((key, v) :: rest) = Fields.get? name rest := by
        simp [Fields.get?, hkey]
      rw [hrest, ← ih]
      split
      · rfl
      · exact Fields.get?_set_of_ne v (Ne.symm hkey) _

/-- An overlay has no enclosing frame. -/
theorem get?_parent_overlay {outer : Fields} (houter : Fields.get? parentField outer = none)
    (fields : Fields) : Fields.get? parentField (overlay outer fields) = none := by
  induction fields with
  | nil => exact houter
  | cons field rest ih =>
    obtain ⟨key, v⟩ := field
    rw [overlay]
    split
    · exact ih
    · rw [Fields.get?_set_of_ne v (Ne.symm ‹_›)]
      exact ih

theorem bindings_record (fields : Fields) : bindings (.record fields) =
    overlay ((Fields.get? parentField fields).elim [] bindings) fields := by
  rw [bindings, outerBindings_eq]

/-- A collapsed chain has no enclosing frame. -/
theorem get?_parent_bindings {env : Value} (h : Chain env) :
    Fields.get? parentField (bindings env) = none := by
  induction h with
  | outermost h | closed h =>
    rw [bindings_record, h]
    exact get?_parent_overlay rfl _
  | inside h _ ih =>
    rw [bindings_record, h]
    exact get?_parent_overlay ih _

theorem Chain.collapse {env : Value} (h : Chain env) : Chain (collapse env) :=
  .outermost (get?_parent_bindings h)

/-- The bindings of a chain are what its names stand for. -/
theorem get?_bindings {env : Value} (h : Chain env) (x : Identifier) :
    (Fields.get? x.text (bindings env)).elim (.error (.undefinedName x.text)) .ok =
      resolve x.text env := by
  induction h with
  | outermost h | closed h =>
    rw [bindings_record, h, get?_overlay x.text_ne_parent, resolve_record, resolveParent_eq, h]
    cases Fields.get? x.text _ <;> rfl
  | @inside fields parent h _ ih =>
    rw [bindings_record, h, get?_overlay x.text_ne_parent, resolve_record, resolveParent_eq, h]
    cases Fields.get? x.text fields with
    | some v => rfl
    | none => exact ih

/-- **A chain and its one frame agree on every name.** -/
theorem resolve_collapse {env : Value} (h : Chain env) : Agree env (collapse env) := by
  intro x
  rw [collapse, resolve_record, resolveParent_eq, get?_parent_bindings h]
  exact get?_bindings h x

end Stepwise.Name
