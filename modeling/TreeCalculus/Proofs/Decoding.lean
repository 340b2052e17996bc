import Mathlib.Tactic.Lemma
import TreeCalculus.Document.Decode

/-!
What stops the reading of nodes.

Reading a saved proof fails at the first fault. Among the faults one stands apart: that something
other than an object stands where a node is expected. It arises at the root or among the children
of a node, at any depth, if all that is read before is in order; the readers of all other parts
fail elsewhere.

* `Json.Value.ind`: induction on values.
* `Document.termOf_obj_eq`, `Document.forestOf_eq`, `Document.derivationOf_obj_eq`: terms and
  nodes are read through their members.
* `Document.FailsElsewhere`: a reader does not fail for want of a node.
* `Document.LacksNode`, `Document.derivationOf_eq_notANode`: where something else stands for a
  node.
-/

namespace TreeCalculus

open Json (Value)

/-! ### Values -/

/-- The values that stand in a list or under the keys of an object. -/
def Json.Value.inner : Value → List Value
  | .arr items => items
  | .obj fields => fields.map Prod.snd
  | _ => []

/-- Induction on values: the statement may be used for what stands inside. -/
theorem Json.Value.ind {motive : Value → Prop}
    (step : ∀ v, (∀ w ∈ v.inner, motive w) → motive v) (v : Value) : motive v :=
  step v fun w _ => ind step w
termination_by sizeOf v
decreasing_by
  rename_i hw
  cases v with
  | arr items =>
      have hlt : sizeOf w < sizeOf items := List.sizeOf_lt_of_mem hw
      simp only [Value.arr.sizeOf_spec]
      omega
  | obj fields =>
      obtain ⟨⟨key, w⟩, hmem, rfl⟩ := List.mem_map.mp hw
      have hlt := List.sizeOf_lt_of_mem hmem
      simp only [Value.obj.sizeOf_spec, Prod.mk.sizeOf_spec] at hlt ⊢
      omega
  | null | bool | int | real | str => exact absurd hw List.not_mem_nil

lemma Json.Value.mem_inner_of_lookup {fields : List (Text × Value)} {key : Text} {v : Value}
    (h : fields.lookup key = some v) : v ∈ (Value.obj fields).inner := by
  obtain ⟨before, behind, rfl, -⟩ := List.lookup_eq_some_iff.mp h
  simp [inner]

namespace Document

/-! ### Members -/

lemma readField_termsOf (key : Text) (fields : List (Text × Value)) :
    readField key (termsOf fields) = field key (.obj fields) >>= termOf := by
  rw [readField, field]
  induction fields with
  | nil => rfl
  | cons member rest ih =>
      obtain ⟨k, v⟩ := member
      rw [termsOf, List.lookup_cons, List.lookup_cons]
      cases key == k with
      | true => rfl
      | false => exact ih

/-- A term is read through its members. -/
lemma termOf_obj_eq (fields : List (Text × Value)) :
    termOf (.obj fields) =
      (field "type" (.obj fields) >>= fun tag =>
        termOfTag tag (field "name" (.obj fields)) (field "left" (.obj fields) >>= termOf)
          (field "right" (.obj fields) >>= termOf)) := by
  rw [← readField_termsOf, ← readField_termsOf, termOf]

lemma lookup_forestsOf (key : Text) (fields : List (Text × Value)) :
    (forestsOf fields).lookup key = (fields.lookup key).map forestOf := by
  induction fields with
  | nil => rfl
  | cons member rest ih =>
      obtain ⟨k, v⟩ := member
      rw [forestsOf, List.lookup_cons, List.lookup_cons]
      cases key == k with
      | true => rfl
      | false => exact ih

/-- A list of nodes is read from the parts of a value, one after the other. -/
lemma forestOf_eq (v : Value) : forestOf v = partsOf v >>= derivationsOf := by
  cases v with
  | obj fields => cases fields <;> rfl
  | str s =>
      simp only [forestOf, partsOf]
      cases s.toList <;> rfl
  | _ => rfl

/-- A node is read through its members, in a fixed order. -/
lemma derivationOf_obj_eq (fields : List (Text × Value)) :
    derivationOf (.obj fields) =
      (field "id" (.obj fields) >>= fun id =>
        (field "sequent" (.obj fields) >>= sequentOf) >>= fun sequent =>
        ruleOf (fields.lookup (Text.ofString "rule")) >>= fun rule =>
        (fields.lookup (Text.ofString "children")).elim (.ok []) forestOf >>= fun children =>
        .ok (.node
          { id, sequent, rule
            parent := optionalName "parentId" fields
            backLink := optionalName "backLinkTo" fields }
          children)) := by
  have hchildren : ((forestsOf fields).lookup (Text.ofString "children")).getD (.ok []) =
      (fields.lookup (Text.ofString "children")).elim (.ok []) forestOf := by
    rw [lookup_forestsOf]
    cases fields.lookup (Text.ofString "children") <;> rfl
  rw [derivationOf, hchildren]
  rfl

/-! ### Readers that do not fail for want of a node -/

/-- Reading does not fail for the reason that something else stands for a node. -/
def FailsElsewhere {α : Type} (read : Except DecodeError α) : Prop :=
  ∀ kind, read ≠ .error (.notANode kind)

section FailsElsewhere

variable {α β : Type} {x : Except DecodeError α} {f : α → Except DecodeError β}

lemma failsElsewhere_ok (a : α) : FailsElsewhere (.ok a) := by
  intro kind h
  cases h

lemma FailsElsewhere.bind (hx : FailsElsewhere x) (hf : ∀ a, FailsElsewhere (f a)) :
    FailsElsewhere (x >>= f) := by
  cases x with
  | error e => exact fun kind h => hx kind (congrArg Except.error (Except.error.inj h))
  | ok a => exact hf a

lemma FailsElsewhere.map (hx : FailsElsewhere x) (g : α → β) : FailsElsewhere (x.map g) := by
  cases x with
  | error e => exact fun kind h => hx kind (congrArg Except.error (Except.error.inj h))
  | ok a => exact failsElsewhere_ok (g a)

/-- What does not fail for want of a node has to succeed before what follows does. -/
lemma FailsElsewhere.bind_eq_notANode (hx : FailsElsewhere x) {kind : Value.Kind} :
    x >>= f = .error (.notANode kind) ↔ ∃ a, x = .ok a ∧ f a = .error (.notANode kind) := by
  cases x with
  | error e =>
      refine ⟨fun h => absurd ?_ (hx kind), fun ⟨a, h, _⟩ => nomatch h⟩
      exact congrArg Except.error (Except.error.inj h)
  | ok a => exact ⟨fun h => ⟨a, rfl, h⟩, fun ⟨_, h, hf⟩ => Except.ok.inj h ▸ hf⟩

lemma bind_eq_notANode (hf : ∀ a, FailsElsewhere (f a)) {kind : Value.Kind} :
    x >>= f = .error (.notANode kind) ↔ x = .error (.notANode kind) := by
  cases x with
  | error e => exact ⟨fun h => congrArg Except.error (Except.error.inj h), fun h => h ▸ rfl⟩
  | ok a => exact ⟨fun h => absurd h (hf a kind), fun h => nomatch h⟩

lemma failsElsewhere_field (key : Text) (v : Value) : FailsElsewhere (field key v) := by
  intro kind h
  cases v with
  | obj fields =>
      rw [field] at h
      split at h <;> cases h
  | _ => cases h

lemma failsElsewhere_partsOf (v : Value) : FailsElsewhere (partsOf v) := by
  intro kind h
  cases v <;> cases h

lemma failsElsewhere_ruleOf (v : Option Value) : FailsElsewhere (ruleOf v) := by
  intro kind h
  rw [ruleOf.eq_def] at h
  split at h
  · cases h
  · cases h
  · split at h <;> cases h
  · cases h

lemma failsElsewhere_termOf (v : Value) : FailsElsewhere (termOf v) := by
  induction v using Value.ind with
  | step v ih =>
      cases v with
      | obj fields =>
          have hpart (key : Text) : FailsElsewhere (readField key (termsOf fields)) := by
            rw [readField_termsOf, field]
            cases hlookup : fields.lookup key with
            | none => exact fun kind h => nomatch h
            | some w => exact ih w (Value.mem_inner_of_lookup hlookup)
          have hname := failsElsewhere_field "name" (.obj fields)
          rw [termOf]
          refine (failsElsewhere_field _ _).bind fun tag => ?_
          rw [termOfTag]
          split
          · exact failsElsewhere_ok _
          · exact hname.map Term.var
          · exact hname.map Term.ref
          · exact (hpart "left").bind fun _ => (hpart "right").bind fun _ => failsElsewhere_ok _
          · exact fun kind h => nomatch h
      | _ => exact fun kind h => nomatch h

lemma failsElsewhere_equationOf (v : Value) : FailsElsewhere (equationOf v) :=
  ((failsElsewhere_field _ v).bind failsElsewhere_termOf).bind fun _ =>
    ((failsElsewhere_field _ v).bind failsElsewhere_termOf).bind fun _ => failsElsewhere_ok _

lemma failsElsewhere_equationsOf (v : Value) : FailsElsewhere (equationsOf v) := by
  refine (failsElsewhere_partsOf v).bind fun parts => ?_
  induction parts with
  | nil => exact failsElsewhere_ok []
  | cons part parts ih =>
      rw [List.mapM_cons]
      exact (failsElsewhere_equationOf part).bind fun _ => ih.bind fun _ => failsElsewhere_ok _

lemma failsElsewhere_sequentOf (v : Value) : FailsElsewhere (sequentOf v) :=
  (failsElsewhere_field _ v).bind fun _ =>
    ((failsElsewhere_field _ v).bind failsElsewhere_equationsOf).bind fun _ =>
      ((failsElsewhere_field _ v).bind failsElsewhere_equationOf).bind fun _ => failsElsewhere_ok _

end FailsElsewhere

/-! ### Where a node is wanting -/

/-- A value of the given kind, which is no object, stands where a node is expected: the value itself
is read as a node, or one of its children lacks a node, and everything that is read before is in
order. -/
inductive LacksNode : Value → Value.Kind → Prop
  /-- The value itself is no object. -/
  | here {v : Value} : v.kind ≠ .obj → LacksNode v v.kind
  /-- A child lacks a node, behind children that are read. -/
  | inChild {fields : List (Text × Value)} {id : Value} {sequent : Sequent Value}
      {rule : Option Rule} {v w : Value} {before behind : List Value} {kind : Value.Kind} :
      field "id" (.obj fields) = .ok id →
      (field "sequent" (.obj fields) >>= sequentOf) = .ok sequent →
      ruleOf (fields.lookup (Text.ofString "rule")) = .ok rule →
      fields.lookup (Text.ofString "children") = some v →
      partsOf v = .ok (before ++ w :: behind) →
      (∀ u ∈ before, ∃ d, derivationOf u = .ok d) →
      LacksNode w kind → LacksNode (.obj fields) kind

lemma derivationsOf_cons_eq_error {v : Value} {vs : List Value} {e : DecodeError} :
    derivationsOf (v :: vs) = .error e ↔
      derivationOf v = .error e ∨ ∃ d, derivationOf v = .ok d ∧ derivationsOf vs = .error e := by
  rw [derivationsOf]
  cases derivationOf v with
  | error e' => simp [bind, Except.bind]
  | ok d => cases derivationsOf vs <;> simp [bind, Except.bind, pure, Except.pure]

/-- Reading nodes one after the other fails at the first that is not read. -/
lemma derivationsOf_eq_error {vs : List Value} {e : DecodeError} :
    derivationsOf vs = .error e ↔ ∃ before w behind, vs = before ++ w :: behind ∧
      (∀ u ∈ before, ∃ d, derivationOf u = .ok d) ∧ derivationOf w = .error e := by
  induction vs with
  | nil => simp [derivationsOf]
  | cons v vs ih =>
      rw [derivationsOf_cons_eq_error, ih]
      constructor
      · rintro (hv | ⟨d, hd, before, w, behind, rfl, hbefore, hw⟩)
        · exact ⟨[], v, vs, rfl, by simp, hv⟩
        · exact ⟨v :: before, w, behind, rfl, List.forall_mem_cons.mpr ⟨⟨d, hd⟩, hbefore⟩, hw⟩
      · rintro ⟨before, w, behind, hsplit, hbefore, hw⟩
        cases before with
        | nil =>
            obtain ⟨rfl, -⟩ := List.cons.inj hsplit
            exact .inl hw
        | cons u before =>
            obtain ⟨rfl, rfl⟩ := List.cons.inj hsplit
            obtain ⟨⟨d, hd⟩, hrest⟩ := List.forall_mem_cons.mp hbefore
            exact .inr ⟨d, hd, before, w, behind, rfl, hrest, hw⟩

/-- An object lacks a node iff its children do, and its first members are in order. -/
lemma derivationOf_obj_eq_notANode {fields : List (Text × Value)} {kind : Value.Kind} :
    derivationOf (.obj fields) = .error (.notANode kind) ↔
      ∃ id, field "id" (.obj fields) = .ok id ∧
      ∃ sequent, (field "sequent" (.obj fields) >>= sequentOf) = .ok sequent ∧
      ∃ rule, ruleOf (fields.lookup (Text.ofString "rule")) = .ok rule ∧
      (fields.lookup (Text.ofString "children")).elim (.ok []) forestOf =
        .error (.notANode kind) := by
  have hid := failsElsewhere_field "id" (.obj fields)
  have hsequent := (failsElsewhere_field "sequent" (.obj fields)).bind failsElsewhere_sequentOf
  rw [derivationOf_obj_eq, hid.bind_eq_notANode]
  refine exists_congr fun id => and_congr_right fun _ => ?_
  rw [hsequent.bind_eq_notANode]
  refine exists_congr fun sequent => and_congr_right fun _ => ?_
  rw [(failsElsewhere_ruleOf _).bind_eq_notANode]
  refine exists_congr fun rule => and_congr_right fun _ => ?_
  exact bind_eq_notANode fun _ => failsElsewhere_ok _

/-- The parts of a value that stands for a list stand inside it or are strings. -/
lemma mem_inner_of_partsOf {v u : Value} {parts : List Value} (h : partsOf v = .ok parts)
    (hu : u ∈ parts) : u ∈ v.inner ∨ u.kind = .str := by
  cases v with
  | arr items =>
      cases h
      exact .inl hu
  | obj fields =>
      cases h
      obtain ⟨member, -, rfl⟩ := List.mem_map.mp hu
      exact .inr rfl
  | str s =>
      cases h
      obtain ⟨c, -, rfl⟩ := List.mem_map.mp hu
      exact .inr rfl
  | null | bool | int | real => cases h

/-- What is no object is no node. -/
lemma derivationOf_of_kind_ne {v : Value} (h : v.kind ≠ .obj) :
    derivationOf v = .error (.notANode v.kind) := by
  cases v with
  | obj fields => exact absurd rfl h
  | _ => rfl

lemma lacksNode_of_derivationOf (v : Value) {kind : Value.Kind}
    (h : derivationOf v = .error (.notANode kind)) : LacksNode v kind := by
  -- nodes stand two levels below each other, in a list under a key
  suffices hboth : (∀ kind, derivationOf v = .error (.notANode kind) → LacksNode v kind) ∧
      ∀ u ∈ v.inner, ∀ kind, derivationOf u = .error (.notANode kind) → LacksNode u kind from
    hboth.1 kind h
  clear h
  induction v using Value.ind with
  | step v ih =>
      refine ⟨fun kind h => ?_, fun u hu => (ih u hu).1⟩
      cases v with
      | obj fields =>
          obtain ⟨id, hid, sequent, hsequent, rule, hrule, hchildren⟩ :=
            derivationOf_obj_eq_notANode.mp h
          cases hlookup : fields.lookup (Text.ofString "children") with
          | none =>
              rw [hlookup] at hchildren
              cases hchildren
          | some w =>
              rw [hlookup, Option.elim_some, forestOf_eq,
                (failsElsewhere_partsOf w).bind_eq_notANode] at hchildren
              obtain ⟨parts, hparts, hderivations⟩ := hchildren
              obtain ⟨before, u, behind, rfl, hbefore, hu⟩ := derivationsOf_eq_error.mp hderivations
              refine .inChild hid hsequent hrule hlookup hparts hbefore ?_
              obtain hinner | hstring := mem_inner_of_partsOf hparts (u := u) (by simp)
              · exact (ih w (Value.mem_inner_of_lookup hlookup)).2 u hinner kind hu
              · have hkind : u.kind ≠ .obj := by simp [hstring]
                rw [derivationOf_of_kind_ne hkind] at hu
                cases hu
                exact .here hkind
      | _ =>
          cases h
          exact .here fun hkind => nomatch hkind

/-- **Reading fails for want of a node** iff something else stands where a node is expected. -/
theorem derivationOf_eq_notANode {v : Value} {kind : Value.Kind} :
    derivationOf v = .error (.notANode kind) ↔ LacksNode v kind := by
  refine ⟨lacksNode_of_derivationOf v, fun h => ?_⟩
  induction h with
  | here hkind => exact derivationOf_of_kind_ne hkind
  | inChild hid hsequent hrule hlookup hparts hbefore _ ih =>
      refine derivationOf_obj_eq_notANode.mpr ⟨_, hid, _, hsequent, _, hrule, ?_⟩
      rw [hlookup, Option.elim_some, forestOf_eq, hparts]
      exact derivationsOf_eq_error.mpr ⟨_, _, _, rfl, hbefore, ih⟩

end Document

end TreeCalculus
