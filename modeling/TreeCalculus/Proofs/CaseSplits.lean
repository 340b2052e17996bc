import TreeCalculus.Proofs.Histories
import TreeCalculus.Proofs.Paths
import TreeCalculus.Proofs.Terms

/-!
Case splits are exhaustive, exclusive and hygienic.

A case split puts a leaf, a stem and a fork in the place of a variable, throughout a judgment,
with fresh variables for the arguments. Give canonical values to the variables of the judgment.
The value of the variable that is split collects no argument, one, or two: this is the number of
the one case of which the judgment under these values is an instance, with the arguments as values
of the fresh variables and all other values kept.

* `Term.mem_vars_of_subterm`, `Judgment.mem_vars_of_select`: selected variables occur.
* `Judgment.mem_vars_single`, `Judgment.subst_single_eq_iff`: one variable replaced.
* `Substitution.GivesValues`, `Judgment.CoversInstance`: choices of canonical values, and the
  cases that cover them.
* `Term.argCount`, `Judgment.existsUnique_case`: the case is told by the number of arguments.
* `Proof.caseSplit_of_edits`: what a case split does at an open node.
-/

namespace TreeCalculus

/-! ### Selected variables -/

/-- The variables of a subterm occur in the term. -/
lemma Term.mem_vars_of_subterm {t s : Term} {path : Path} (h : t.subterm path = .ok s) {x : Text}
    (hx : x ∈ s.vars) : x ∈ t.vars := by
  induction path generalizing t with
  | nil =>
      rw [subterm_nil] at h
      exact Except.ok.inj h ▸ hx
  | cons turn rest ih =>
      by_cases hkind : t.kind = .app
      · obtain ⟨l, r, rfl⟩ := exists_app_of_kind hkind
        cases turn with
        | left => exact mem_vars_app.mpr (.inl (ih (subterm_left.mp h)))
        | right => exact mem_vars_app.mpr (.inr (ih (subterm_right.mp h)))
      · rw [subterm, subtermFrom_cons_of_kind_ne hkind] at h
        cases h

/-- A variable that is selected in the goal occurs in the judgment. -/
lemma Judgment.mem_vars_of_select {j : Judgment} {sel : Selection} {x : Text}
    (h : j.goal.select sel = .ok (.var x)) : x ∈ j.vars := by
  have hx : x ∈ (j.goal.side sel.side).vars := Term.mem_vars_of_subterm h (by simp)
  refine mem_vars.mpr ⟨j.goal, List.mem_cons_self, ?_⟩
  cases hside : sel.side with
  | lhs =>
      rw [hside] at hx
      exact .inl hx
  | rhs =>
      rw [hside] at hx
      exact .inr hx

/-! ### One variable replaced -/

namespace Judgment

variable {j : Judgment} {x : Text} {t : Term} {s s' : Substitution}

/-- Replacing one variable leaves the others, and brings in those of the new term. -/
lemma mem_vars_single {v : Text} : v ∈ (j.subst ⟨[(x, t)]⟩).vars ↔
    (v ∈ j.vars ∧ v ≠ x) ∨ (x ∈ j.vars ∧ v ∈ t.vars) := by
  simp only [mem_vars_subst, Substitution.value_single]
  constructor
  · rintro ⟨y, hy, hv⟩
    split_ifs at hv with hyx
    · exact .inr ⟨hyx ▸ hy, hv⟩
    · obtain rfl : v = y := by simpa using hv
      exact .inl ⟨hy, hyx⟩
  · rintro (⟨hv, hvx⟩ | ⟨hx, hv⟩)
    · exact ⟨v, hv, by simp [hvx]⟩
    · exact ⟨x, hx, by simpa using hv⟩

/-- Replacing one variable and then substituting does what another substitution does iff the new
term becomes the value of that variable, and the other variables have the same values. -/
lemma subst_single_eq_iff (hx : x ∈ j.vars) : (j.subst ⟨[(x, t)]⟩).subst s' = j.subst s ↔
    t.subst s' = s.value x ∧ ∀ v ∈ j.vars, v ≠ x → s'.value v = s.value v := by
  rw [subst_subst_eq_iff]
  simp only [Substitution.value_single]
  constructor
  · refine fun h => ⟨by simpa using h x hx, fun v hv hvx => ?_⟩
    have hvalue := h v hv
    rw [if_neg hvx] at hvalue
    exact hvalue
  · rintro ⟨hvalue, hothers⟩ v hv
    split_ifs with hvx
    · rw [hvx, hvalue]
    · exact hothers v hv hvx

end Judgment

/-! ### Cases and values -/

/-- A substitution gives canonical values to names if it binds each of them to one. -/
def Substitution.GivesValues (s : Substitution) (names : List Text) : Prop :=
  ∀ x ∈ names, ∃ v, s.find? x = some v ∧ v.IsValue

/-- A case of the variable `x` covers an instance of a judgment if some canonical values for its
variables, which are the given ones for the variables of the judgment other than `x`, turn it into
that instance, in every hypothesis and in the goal. -/
def Judgment.CoversInstance (child j : Judgment) (x : Text) (s : Substitution) : Prop :=
  ∃ s' : Substitution, s'.GivesValues child.vars ∧
    (∀ v ∈ j.vars, v ≠ x → s'.find? v = s.find? v) ∧ child.subst s' = j.subst s

/-- How many arguments a term has collected at its head. -/
def Term.argCount : Term → Nat
  | .app left _ => left.argCount + 1
  | _ => 0

namespace Term

/-- A canonical value is an instance of the shape with its number of arguments. -/
lemma exists_shape_of_isValue {v : Term} (hv : v.IsValue) {y z : Text} (hzy : z ≠ y)
    (s : Substitution) :
    ∃ (t : Term) (s' : Substitution), (shapes y z)[v.argCount]? = some t ∧ t.subst s' = v ∧
      s'.GivesValues t.vars ∧ ∀ u, u ≠ y → u ≠ z → s'.find? u = s.find? u := by
  cases hv with
  | leaf => exact ⟨leaf, s, rfl, rfl, nofun, fun _ _ _ => rfl⟩
  | @stem v hv =>
      have hy : (s.insert y v).find? y = some v := by simp [Table.find?_insert]
      refine ⟨stem (var y), s.insert y v, rfl, ?_, fun u hu => ?_, fun u huy _ => ?_⟩
      · exact congrArg stem (Substitution.value_of_find? hy)
      · obtain rfl : u = y := by simpa [stem, mem_vars_app] using hu
        exact ⟨v, hy, hv⟩
      · rw [Table.find?_insert, if_neg huy]
  | @fork v w hv hw =>
      have hy : ((s.insert y v).insert z w).find? y = some v := by
        simp [Table.find?_insert, hzy.symm]
      have hz : ((s.insert y v).insert z w).find? z = some w := by simp [Table.find?_insert]
      refine ⟨fork (var y) (var z), (s.insert y v).insert z w, rfl, ?_, fun u hu => ?_,
        fun u huy huz => ?_⟩
      · exact congrArg₂ fork (Substitution.value_of_find? hy) (Substitution.value_of_find? hz)
      · obtain rfl | rfl : u = y ∨ u = z := by simpa [fork, mem_vars_app] using hu
        · exact ⟨v, hy, hv⟩
        · exact ⟨w, hz, hw⟩
      · rw [Table.find?_insert, if_neg huz, Table.find?_insert, if_neg huy]

/-- Whatever is put in the place of its variables, a shape has its number of arguments. -/
lemma argCount_shape {y z : Text} {i : Nat} {t : Term} (h : (shapes y z)[i]? = some t)
    (s : Substitution) : (t.subst s).argCount = i := by
  match i with
  | 0 => cases h; rfl
  | 1 => cases h; rfl
  | 2 => cases h; rfl
  | _ + 3 => cases h

lemma mem_vars_shape {y z x : Text} {t : Term} (h : t ∈ shapes y z) (hx : x ∈ t.vars) :
    x = y ∨ x = z := by
  simp only [shapes, List.mem_cons, List.not_mem_nil, or_false] at h
  rcases h with rfl | rfl | rfl
  · cases hx
  · exact .inl (by simpa [stem, mem_vars_app] using hx)
  · simpa [fork, mem_vars_app] using hx

end Term

namespace Judgment

variable {j : Judgment} {x : Text} {s : Substitution}

/-- A case that covers an instance has the value of the variable as an instance of its term. -/
lemma CoversInstance.exists_subst_eq {t : Term} (hx : x ∈ j.vars)
    (h : (j.subst ⟨[(x, t)]⟩).CoversInstance j x s) : ∃ s', t.subst s' = s.value x := by
  obtain ⟨s', -, -, heq⟩ := h
  exact ⟨s', ((subst_single_eq_iff hx).mp heq).1⟩

/-- A term with fresh variables that has the value of the variable as an instance gives a case that
covers. -/
lemma coversInstance_single {t : Term} {s' : Substitution} (hx : x ∈ j.vars)
    (hs : s.GivesValues j.vars) (ht : t.subst s' = s.value x) (hvalues : s'.GivesValues t.vars)
    (hkept : ∀ v ∈ j.vars, s'.find? v = s.find? v) :
    (j.subst ⟨[(x, t)]⟩).CoversInstance j x s := by
  refine ⟨s', fun v hv => ?_, fun v hv _ => hkept v hv, ?_⟩
  · rcases mem_vars_single.mp hv with ⟨hv, -⟩ | ⟨-, hv⟩
    · rw [hkept v hv]
      exact hs v hv
    · exact hvalues v hv
  · refine (subst_single_eq_iff hx).mpr ⟨ht, fun v hv _ => ?_⟩
    rw [Substitution.value, hkept v hv, Substitution.value]

/-- **The cases are exhaustive and exclusive**: canonical values for the variables of a judgment are
covered by exactly one case of each of its variables. -/
theorem existsUnique_case (hx : x ∈ j.vars) (hs : s.GivesValues j.vars) :
    ∃! i : Nat, ∃ child : Judgment, (j.cases x)[i]? = some child ∧ child.CoversInstance j x s := by
  obtain ⟨y, z, hy, hz, hzy, hcases⟩ := j.exists_fresh_cases x
  obtain ⟨v, hfind, hv⟩ := hs x hx
  have hvalue : s.value x = v := Substitution.value_of_find? hfind
  refine ⟨v.argCount, ?_, ?_⟩
  · obtain ⟨t, s', ht, heq, hvalues, hkept⟩ := Term.exists_shape_of_isValue hv hzy s
    refine ⟨j.subst ⟨[(x, t)]⟩, by rw [hcases, List.getElem?_map, ht, Option.map_some], ?_⟩
    exact coversInstance_single hx hs (heq.trans hvalue.symm) hvalues fun u hu =>
      hkept u (ne_of_mem_of_not_mem hu hy) (ne_of_mem_of_not_mem hu hz)
  · rintro i ⟨child, hchild, hcovers⟩
    rw [hcases, List.getElem?_map, Option.map_eq_some_iff] at hchild
    obtain ⟨t, ht, rfl⟩ := hchild
    obtain ⟨s', heq⟩ := hcovers.exists_subst_eq hx
    rw [← hvalue, ← heq, Term.argCount_shape ht]

/-- **The cases are hygienic**: the variable does not occur in any of its cases, and each case has
the hypotheses of the judgment in their order, with a term put in the place of the variable. -/
lemma of_mem_cases (hx : x ∈ j.vars) {child : Judgment} (h : child ∈ j.cases x) :
    x ∉ child.vars ∧ ∃ t, child.hypotheses = j.hypotheses.map (·.subst ⟨[(x, t)]⟩) := by
  obtain ⟨y, z, hy, hz, -, hcases⟩ := j.exists_fresh_cases x
  rw [hcases, List.mem_map] at h
  obtain ⟨t, ht, rfl⟩ := h
  refine ⟨fun hmem => ?_, t, rfl⟩
  rcases mem_vars_single.mp hmem with ⟨-, hne⟩ | ⟨-, hxt⟩
  · exact hne rfl
  · rcases Term.mem_vars_shape ht hxt with rfl | rfl
    · exact hy hx
    · exact hz hx

end Judgment

namespace Proof

open Relation

/-- **Case splits**: take a proof with which work begins, let any history lead from it to `p`, and
let a variable `x` be selected in the goal of an open node. A case split succeeds there and leaves
three subgoals. The variable does not occur in them, and they have the hypotheses of the node in
their order. For all canonical values of the variables of the node exactly one of them covers the
sequent under these values. -/
theorem caseSplit_of_edits (p₀ p : Proof) (hbegin : Begins p₀) (h : ReflTransGen Edits p₀ p)
    (supply : Supply) (id : Text) (node : Node) (hnode : p.openNode? id = some node)
    (sel : Selection) (x : Text) (hsel : node.sequent.goal.select sel = .ok (.var x)) :
    let attempt := Session.run ⟨p, supply⟩ id (.caseSplit sel)
    attempt.outcome = .ok () ∧
      ∃ children : List Judgment, children.length = 3 ∧
        p.Leaves attempt.session.proof id .caseSplit children ∧
        (∀ child ∈ children, x ∉ child.vars ∧
          ∃ t, child.hypotheses = node.sequent.hypotheses.map (·.subst ⟨[(x, t)]⟩)) ∧
        ∀ s : Substitution, s.GivesValues node.sequent.vars →
          ∃! i : Nat, ∃ child : Judgment, children[i]? = some child ∧
            child.CoversInstance node.sequent.toJudgment x s := by
  intro attempt
  have hp : (Session.mk p supply).proof.Indexed := (hbegin.coherent.edits h).indexed
  have hx : x ∈ node.sequent.vars := Judgment.mem_vars_of_select hsel
  have hclosing : (Tactic.caseSplit sel).closing p id node =
      .ok { rule := .caseSplit, subgoals := node.sequent.cases x } :=
    Judgment.byCases_eq_ok.mpr ⟨x, hsel, rfl⟩
  obtain ⟨hok, hleaves⟩ := Session.run_leaves hp hnode hclosing rfl
  exact ⟨hok, node.sequent.cases x, rfl, hleaves, fun child => Judgment.of_mem_cases hx,
    fun s => Judgment.existsUnique_case hx⟩

/-- A split on `y` where `y1` and `z` are in use too, after the goal was turned around: the cases
have other names for the arguments, and the values with a stem for `y` are covered by one of
them. -/
theorem caseSplit_of_edits_names_in_use :
    let j : Judgment :=
      { hypotheses := [⟨.var "y", .var "z"⟩], goal := ⟨.var "y1", .app (.var "y1") (.var "y")⟩ }
    let p := ((Session.start {} j).run rootId .symmetry).session.proof
    let attempt := Session.run ⟨p, {}⟩ "root.0" (.caseSplit ⟨.lhs, [.right]⟩)
    let s : Substitution := ⟨[("y", .stem .leaf), ("y1", .leaf), ("z", .leaf)]⟩
    attempt.outcome = .ok () ∧
      attempt.session.proof.openNodes.map (fun n => n.sequent.goal.lhs) =
        [.app (.var "y1") .leaf, .app (.var "y1") (.stem (.var "y2")),
          .app (.var "y1") (.fork (.var "y2") (.var "z1"))] ∧
      s.GivesValues j.vars ∧
      ∃ children : List Judgment, p.Leaves attempt.session.proof "root.0" .caseSplit children ∧
        (∀ child ∈ children, Text.ofString "y" ∉ child.vars) ∧
        ∃! i : Nat, ∃ child : Judgment, children[i]? = some child ∧
          child.CoversInstance (j.withGoal j.goal.flip) "y" s := by
  intro j p attempt s
  have hhistory : ReflTransGen Edits (Session.start {} j).proof p :=
    edits_of_resumes (resumes_runAll (Session.start {} j) [(rootId, .symmetry)])
  have hvalues : s.GivesValues j.vars := by
    have hvars : j.vars = [Text.ofString "z", Text.ofString "y", Text.ofString "y1"] := by decide
    simp only [Substitution.GivesValues, hvars, List.forall_mem_cons]
    exact ⟨⟨_, rfl, .leaf⟩, ⟨_, rfl, .stem .leaf⟩, ⟨_, rfl, .leaf⟩, nofun⟩
  have hvars : (j.withGoal j.goal.flip).vars = j.vars := by decide
  let node : Node :=
    { id := "root.0"
      sequent := { toJudgment := j.withGoal j.goal.flip, id := "s2" }
      parent := some rootId }
  obtain ⟨hok, children, -, hleaves, hchildren, hcovered⟩ :=
    caseSplit_of_edits _ p (.start _) hhistory {} "root.0" node (by decide) ⟨.lhs, [.right]⟩ "y"
      (by rfl)
  exact ⟨hok, by decide, hvalues, children, hleaves, fun child hchild => (hchildren child hchild).1,
    hcovered s (hvars ▸ hvalues)⟩

end Proof

end TreeCalculus
