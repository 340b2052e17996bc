import Mathlib.Logic.Relation
import TreeCalculus.Proofs.Closings
import TreeCalculus.Proofs.Paths
import TreeCalculus.Proofs.Terms

/-!
Unfolding of definitions.

Unfolding replaces the known references of a term by their definitions, goes on in what it put
there, and gives up at a bound. The bound is spent along chains of references, from a name to a
name that its definition mentions, and not along the depth of terms: so it is reached exactly if
there is a chain with more names than it allows. Below the bound the order does not matter.
Replacing a single reference, at any path, takes one from the number of replacements that are left
and does not change the result.

* `Term.Unfolds`, `Term.unfoldWithin_eq_ok`: successful unfolding as a relation, with the number
  of references that it replaces.
* `Definitions.Chain`, `Term.exists_chain_of_unfoldWithin_eq_error`, `Term.Unfolds.length_le`:
  chains of references, and that they decide about failure.
* `Definitions.Mentions`, `Definitions.Chain.length_le_size`: where no definition reaches itself,
  a chain has no more names than the table.
* `Definitions.not_transGen_of_rank`, `Prelude.not_transGen_mentions`: a rank excludes that a
  definition reaches itself, as in the prelude.
* `Term.unfoldAll_fails_iff_chain`: when unfolding fails, and what it gives otherwise.
* `Term.UnfoldsOnce`, `Term.Unfolds.step`: replacing a single reference, and what it does to the
  result and to the number of replacements.
* `Term.unfolding_in_any_order`: single replacements end, and end in the result of unfolding.
-/

namespace TreeCalculus

namespace Term

/-! ### References replaced one by one -/

section ReplaceRefs

variable {ε : Type} {f : Text → Except ε Term}

lemma replaceRefs_app_eq_ok {l r u : Term} : (app l r).replaceRefs f = .ok u ↔
    ∃ l' r', l.replaceRefs f = .ok l' ∧ r.replaceRefs f = .ok r' ∧ u = app l' r' := by
  rw [replaceRefs]
  cases l.replaceRefs f <;> cases r.replaceRefs f <;>
    simp [bind, Except.bind, pure, Except.pure, eq_comm]

/-- Where replacing fails, it fails at a reference. -/
lemma exists_ref_of_replaceRefs_eq_error {t : Term} {e : ε} (h : t.replaceRefs f = .error e) :
    ∃ n ∈ t.refs, f n = .error e := by
  induction t with
  | leaf => cases h
  | var x => cases h
  | ref n => exact ⟨n, List.mem_singleton_self n, h⟩
  | app l r ihl ihr =>
      cases hl : l.replaceRefs f with
      | error e' =>
          rw [replaceRefs, hl] at h
          cases h
          obtain ⟨n, hn, hf⟩ := ihl hl
          exact ⟨n, List.mem_append_left _ hn, hf⟩
      | ok l' =>
          cases hr : r.replaceRefs f with
          | error e' =>
              rw [replaceRefs, hl, hr] at h
              cases h
              obtain ⟨n, hn, hf⟩ := ihr hr
              exact ⟨n, List.mem_append_right _ hn, hf⟩
          | ok r' =>
              rw [replaceRefs, hl, hr] at h
              cases h

end ReplaceRefs

/-! ### Successful unfolding -/

section Unfolds

variable {table : Definitions} {d k : Nat} {n : Text} {t u body : Term}

/-- Unfolding a term unfolds its references. -/
lemma unfoldWithin_eq_replaceRefs (table : Definitions) (d : Nat) (t : Term) :
    t.unfoldWithin table d = t.replaceRefs fun n => (ref n).unfoldWithin table d := by
  cases d <;> rfl

lemma unfoldWithin_leaf (table : Definitions) (d : Nat) :
    leaf.unfoldWithin table d = .ok leaf := by
  rw [unfoldWithin_eq_replaceRefs, replaceRefs]

lemma unfoldWithin_var (table : Definitions) (d : Nat) (x : Text) :
    (var x).unfoldWithin table d = .ok (var x) := by
  rw [unfoldWithin_eq_replaceRefs, replaceRefs]

lemma unfoldWithin_app_eq_ok {l r : Term} : (app l r).unfoldWithin table d = .ok u ↔
    ∃ l' r', l.unfoldWithin table d = .ok l' ∧ r.unfoldWithin table d = .ok r' ∧ u = app l' r' := by
  rw [unfoldWithin_eq_replaceRefs, replaceRefs_app_eq_ok, ← unfoldWithin_eq_replaceRefs,
    ← unfoldWithin_eq_replaceRefs]

/-- A reference stays if it is unknown; else its definition is unfolded, with a bound that is one
less. -/
lemma unfoldWithin_ref_eq_ok : (ref n).unfoldWithin table d = .ok u ↔
    (table.find? n = none ∧ u = ref n) ∨
      ∃ body d', table.find? n = some body ∧ d = d' + 1 ∧ body.unfoldWithin table d' = .ok u := by
  cases hbody : table.find? n <;> cases d <;>
    simp [unfoldWithin, replaceRefs, unfoldRef, hbody, eq_comm]

/-- A reference fails if it is known and the bound is used up, or if its definition fails. -/
lemma unfoldWithin_ref_eq_error {e : UnfoldError} : (ref n).unfoldWithin table d = .error e ↔
    ∃ body, table.find? n = some body ∧
      ((d = 0 ∧ e = ⟨n⟩) ∨ ∃ d', d = d' + 1 ∧ body.unfoldWithin table d' = .error e) := by
  cases hbody : table.find? n <;> cases d <;>
    simp [unfoldWithin, replaceRefs, unfoldRef, hbody, eq_comm]

/-- Unfolding as a relation: through at most `depth` definitions inside one another, `t` becomes
`u`, and `count` references are replaced on the way. -/
inductive Unfolds (table : Definitions) : (depth count : Nat) → (t u : Term) → Prop where
  | leaf {d : Nat} : Unfolds table d 0 leaf leaf
  | var {d : Nat} (x : Text) : Unfolds table d 0 (var x) (var x)
  | unknown {d : Nat} {n : Text} : table.find? n = none → Unfolds table d 0 (ref n) (ref n)
  | known {d k : Nat} {n : Text} {body u : Term} : table.find? n = some body →
      Unfolds table d k body u → Unfolds table (d + 1) (k + 1) (ref n) u
  | app {d k₁ k₂ : Nat} {l l' r r' : Term} : Unfolds table d k₁ l l' → Unfolds table d k₂ r r' →
      Unfolds table d (k₁ + k₂) (app l r) (app l' r')

/-- Unfolding succeeds exactly where the relation holds. -/
lemma unfoldWithin_eq_ok : t.unfoldWithin table d = .ok u ↔ ∃ k, Unfolds table d k t u := by
  constructor
  · -- definitions are unfolded with a smaller bound, the parts of a term with the same one
    induction d using Nat.strongRecOn generalizing t u with
    | ind d ih =>
      intro h
      induction t generalizing u with
      | leaf =>
          rw [unfoldWithin_leaf] at h
          cases h
          exact ⟨0, .leaf⟩
      | var x =>
          rw [unfoldWithin_var] at h
          cases h
          exact ⟨0, .var x⟩
      | ref n =>
          rcases unfoldWithin_ref_eq_ok.mp h with ⟨hn, rfl⟩ | ⟨body, d', hbody, rfl, hu⟩
          · exact ⟨0, .unknown hn⟩
          · obtain ⟨k, hk⟩ := ih d' d'.lt_succ_self hu
            exact ⟨k + 1, .known hbody hk⟩
      | app l r ihl ihr =>
          obtain ⟨l', r', hl, hr, rfl⟩ := unfoldWithin_app_eq_ok.mp h
          obtain ⟨k₁, hl⟩ := ihl hl
          obtain ⟨k₂, hr⟩ := ihr hr
          exact ⟨k₁ + k₂, .app hl hr⟩
  · rintro ⟨k, h⟩
    induction h with
    | leaf => exact unfoldWithin_leaf table _
    | var x => exact unfoldWithin_var table _ x
    | unknown hn => exact unfoldWithin_ref_eq_ok.mpr (.inl ⟨hn, rfl⟩)
    | known hbody _ ih => exact unfoldWithin_ref_eq_ok.mpr (.inr ⟨_, _, hbody, rfl, ih⟩)
    | app _ _ ihl ihr => exact unfoldWithin_app_eq_ok.mpr ⟨_, _, ihl, ihr, rfl⟩

namespace Unfolds

/-- A larger bound changes nothing. -/
lemma mono {d' : Nat} (h : Unfolds table d k t u) (hd : d ≤ d') : Unfolds table d' k t u := by
  induction h generalizing d' with
  | leaf => exact .leaf
  | var x => exact .var x
  | unknown hn => exact .unknown hn
  | known hbody _ ih =>
      obtain ⟨e, rfl⟩ := Nat.exists_eq_add_of_le' (Nat.one_le_of_lt hd)
      exact .known hbody (ih (by omega))
  | app _ _ ihl ihr => exact .app (ihl hd) (ihr hd)

/-- No known reference is left. -/
lemma find?_eq_none (h : Unfolds table d k t u) : ∀ n ∈ u.refs, table.find? n = none := by
  induction h with
  | leaf => nofun
  | var x => nofun
  | unknown hn =>
      intro m hm
      rw [List.mem_singleton.mp hm]
      exact hn
  | known _ _ ih => exact ih
  | app _ _ ihl ihr => exact fun m hm => (List.mem_append.mp hm).elim (ihl m) (ihr m)

/-- A term without known references is its own unfolding. -/
lemma self (h : ∀ n ∈ t.refs, table.find? n = none) (d : Nat) : Unfolds table d 0 t t := by
  induction t with
  | leaf => exact .leaf
  | var x => exact .var x
  | ref n => exact .unknown (h n (List.mem_singleton_self n))
  | app l r ihl ihr =>
      exact .app (ihl fun n hn => h n (List.mem_append_left _ hn))
        (ihr fun n hn => h n (List.mem_append_right _ hn))

end Unfolds

end Unfolds

end Term

/-! ### Chains of references -/

/-- A chain of references from a term: known names, of which the first is referenced in the term,
and each further one in the definition of the name before it. -/
def Definitions.Chain (table : Definitions) : Term → List Text → Prop
  | _, [] => True
  | t, n :: names => n ∈ t.refs ∧ ∃ body, table.find? n = some body ∧ Chain table body names

/-- The definition of `m` mentions `n`. -/
def Definitions.Mentions (table : Definitions) (m n : Text) : Prop :=
  ∃ body, table.find? m = some body ∧ n ∈ body.refs

namespace Definitions

open Relation

variable {table : Definitions} {t : Term} {names : List Text}

/-- A chain from an application starts in one of its parts. -/
lemma Chain.of_app {l r : Term} (h : table.Chain (.app l r) names) :
    table.Chain l names ∨ table.Chain r names := by
  cases names with
  | nil => exact .inl trivial
  | cons n names =>
      obtain ⟨hn, hbody⟩ := h
      exact (List.mem_append.mp hn).imp (⟨·, hbody⟩) (⟨·, hbody⟩)

/-- No chain starts from a term without known references. -/
lemma Chain.eq_nil (h : table.Chain t names) (hrefs : ∀ n ∈ t.refs, table.find? n = none) :
    names = [] := by
  cases names with
  | nil => rfl
  | cons n names =>
      obtain ⟨hn, body, hbody, -⟩ := h
      rw [hrefs n hn] at hbody
      cases hbody

lemma Chain.mem_names (h : table.Chain t names) {n : Text} (hn : n ∈ names) : n ∈ table.names := by
  induction names generalizing t with
  | nil => cases hn
  | cons m names ih =>
      obtain ⟨-, body, hbody, hrest⟩ := h
      rcases List.mem_cons.mp hn with rfl | hn
      · exact Table.mem_names.mpr ⟨body, hbody⟩
      · exact ih hrest hn

lemma Chain.isChain (h : table.Chain t names) : names.IsChain table.Mentions := by
  induction names generalizing t with
  | nil => exact .nil
  | cons m names ih =>
      obtain ⟨-, body, hbody, hrest⟩ := h
      cases names with
      | nil => exact .singleton m
      | cons n names => exact .cons_cons ⟨body, hbody, hrest.1⟩ (ih hrest)

/-- Where no definition reaches itself, a chain repeats no name, and so it has no more names than
the table. -/
lemma Chain.length_le_size (hacyclic : ∀ n, ¬ TransGen table.Mentions n n)
    (h : table.Chain t names) : names.length ≤ table.size :=
  Table.length_le_size (Table.nodup_of_isChain hacyclic h.isChain) fun _ hn => h.mem_names hn

/-- No definition reaches itself if each mentions names of a lower rank only. -/
lemma not_transGen_of_rank (rank : Text → Nat)
    (hrank : ∀ m n, table.Mentions m n → rank n < rank m) (n : Text) :
    ¬ TransGen table.Mentions n n := by
  have hlt : ∀ {m n}, TransGen table.Mentions m n → rank n < rank m := by
    intro m n h
    induction h with
    | single h => exact hrank _ _ h
    | tail _ h ih => exact Nat.lt_trans (hrank _ _ h) ih
  exact fun h => Nat.lt_irrefl _ (hlt h)

end Definitions

/-- No definition of the prelude reaches itself: each mentions earlier ones only. -/
lemma Prelude.not_transGen_mentions (n : Text) : ¬ Relation.TransGen definitions.Mentions n n := by
  refine Definitions.not_transGen_of_rank (fun n => definitions.names.idxOf n) ?_ n
  rintro m n ⟨body, hbody, hn⟩
  simp only [definitions, Table.find?, Table.lookup_cons] at hbody
  split_ifs at hbody with hK hFalse hI
  · cases hbody
    cases hn
  · cases hbody
    obtain rfl : n = "K" := List.mem_singleton.mp hn
    subst hFalse
    decide
  · cases hbody
    subst hI
    rcases List.mem_cons.mp hn with rfl | hn
    · decide
    · obtain rfl : n = "K" := List.mem_singleton.mp hn
      decide
  · cases hbody

namespace Term

/-- A failure reports the last name of a chain that is one longer than the bound. -/
lemma exists_chain_of_unfoldWithin_eq_error {table : Definitions} {d : Nat} {t : Term}
    {e : UnfoldError} (h : t.unfoldWithin table d = .error e) :
    ∃ names, names.length = d ∧ table.Chain t (names ++ [e.name]) := by
  induction d using Nat.strongRecOn generalizing t with
  | ind d ih =>
    rw [unfoldWithin_eq_replaceRefs] at h
    obtain ⟨n, hn, he⟩ := exists_ref_of_replaceRefs_eq_error h
    obtain ⟨body, hbody, ⟨rfl, rfl⟩ | ⟨d', rfl, hfail⟩⟩ :=
      unfoldWithin_ref_eq_error.mp he
    · exact ⟨[], rfl, hn, body, hbody, trivial⟩
    · obtain ⟨names, hlength, hchain⟩ := ih d' d'.lt_succ_self hfail
      exact ⟨n :: names, congrArg (· + 1) hlength, hn, body, hbody, hchain⟩

/-- Where unfolding succeeds, no chain has more names than the bound. -/
lemma Unfolds.length_le {table : Definitions} {d k : Nat} {t u : Term} (h : Unfolds table d k t u)
    {names : List Text} (hchain : table.Chain t names) : names.length ≤ d := by
  induction h generalizing names with
  | leaf => simp [hchain.eq_nil (by nofun)]
  | var x => simp [hchain.eq_nil (by nofun)]
  | unknown hn => simp [hchain.eq_nil (by simpa [refs] using hn)]
  | known hbody _ ih =>
      cases names with
      | nil => exact Nat.zero_le _
      | cons m names =>
          obtain ⟨hm, body', hbody', hrest⟩ := hchain
          rw [List.mem_singleton.mp hm, hbody] at hbody'
          cases hbody'
          exact Nat.succ_le_succ (ih hrest)
  | app _ _ ihl ihr => exact hchain.of_app.elim ihl ihr

section Failure

open Relation

variable {table : Definitions} {d : Nat} {t u : Term}

/-- Unfolding fails iff some chain has more names than the bound. -/
lemma exists_unfoldWithin_eq_error : (∃ e, t.unfoldWithin table d = .error e) ↔
    ∃ names, names.length = d + 1 ∧ table.Chain t names := by
  constructor
  · rintro ⟨e, he⟩
    obtain ⟨names, hlength, hchain⟩ := exists_chain_of_unfoldWithin_eq_error he
    exact ⟨names ++ [e.name], by simp [hlength], hchain⟩
  · rintro ⟨names, hlength, hchain⟩
    cases hu : t.unfoldWithin table d with
    | error e => exact ⟨e, rfl⟩
    | ok u =>
        obtain ⟨k, hk⟩ := unfoldWithin_eq_ok.mp hu
        have hle := hk.length_le hchain
        omega

/-- Unfolding succeeds where no definition reaches itself and the bound is not below the number of
definitions. -/
lemma exists_unfoldWithin_eq_ok (hacyclic : ∀ n, ¬ TransGen table.Mentions n n)
    (hsize : table.size ≤ d) : ∃ u, t.unfoldWithin table d = .ok u := by
  cases hu : t.unfoldWithin table d with
  | ok u => exact ⟨u, rfl⟩
  | error e =>
      obtain ⟨names, hlength, hchain⟩ := exists_unfoldWithin_eq_error.mp ⟨e, hu⟩
      have hle := hchain.length_le_size hacyclic
      omega

/-- **Unfolding fails exactly on chains that are too long**: it fails iff there is a chain of
references with one name more than the bound, where a negative bound counts as zero. Otherwise the
result has no known reference, it is the same for every larger bound, and unfolding it under any
bound changes nothing. In particular, unfolding succeeds where no definition reaches itself and
the bound is not below the number of definitions. -/
theorem unfoldAll_fails_iff_chain (t : Term) (table : Definitions) (depth : Int) :
    ((∃ e, t.unfoldAll table depth = .error e) ↔
      ∃ names, names.length = depth.toNat + 1 ∧ table.Chain t names) ∧
    (∀ u, t.unfoldAll table depth = .ok u →
      (∀ n ∈ u.refs, table.find? n = none) ∧
        (∀ larger, depth ≤ larger → t.unfoldAll table larger = .ok u) ∧
        ∀ other, u.unfoldAll table other = .ok u) ∧
    ((∀ n, ¬ TransGen table.Mentions n n) → table.size ≤ depth →
      ∃ u, t.unfoldAll table depth = .ok u) := by
  refine ⟨exists_unfoldWithin_eq_error, fun u hu => ?_, fun hacyclic hsize => ?_⟩
  · obtain ⟨k, hk⟩ := unfoldWithin_eq_ok.mp hu
    refine ⟨hk.find?_eq_none, fun larger hlarger => ?_, fun other => ?_⟩
    · exact unfoldWithin_eq_ok.mpr ⟨k, hk.mono (Int.toNat_le_toNat hlarger)⟩
    · exact unfoldWithin_eq_ok.mpr ⟨0, .self hk.find?_eq_none _⟩
  · exact exists_unfoldWithin_eq_ok hacyclic (by omega)

/-- `I` mentions `False`, and `False` mentions `K`: a bound of two is too low, and three, the
number of definitions, is enough, with the result of every larger bound. -/
theorem unfoldAll_fails_iff_chain_prelude :
    let t : Term := app (ref "I") (ref "Z")
    let u : Term := app (fork (stem (stem leaf)) (stem leaf)) (ref "Z")
    (Prelude.definitions.Chain t ["I", "False", "K"] ∧
      ∃ e, t.unfoldAll Prelude.definitions 2 = .error e) ∧
    ((∀ n, ¬ TransGen Prelude.definitions.Mentions n n) ∧ Prelude.definitions.size = 3 ∧
      ∃ v, t.unfoldAll Prelude.definitions 3 = .ok v) ∧
    t.unfoldAll Prelude.definitions 3 = .ok u ∧ t.unfoldAll Prelude.definitions 64 = .ok u ∧
      u.unfoldAll Prelude.definitions (-1) = .ok u := by
  intro t u
  have hchain : Prelude.definitions.Chain t ["I", "False", "K"] :=
    ⟨by decide, _, rfl, by decide, _, rfl, by decide, _, rfl, trivial⟩
  have hu : t.unfoldAll Prelude.definitions 3 = .ok u := by rfl
  obtain ⟨hfails, -, -⟩ := unfoldAll_fails_iff_chain t Prelude.definitions 2
  obtain ⟨-, hresult, hsucceeds⟩ := unfoldAll_fails_iff_chain t Prelude.definitions 3
  obtain ⟨-, hlarger, hagain⟩ := hresult u hu
  exact ⟨⟨hchain, hfails.mpr ⟨_, rfl, hchain⟩⟩,
    ⟨Prelude.not_transGen_mentions, rfl, hsucceeds Prelude.not_transGen_mentions (by decide)⟩,
    hu, hlarger 64 (by decide), hagain (-1)⟩

end Failure

/-! ### Single replacements -/

section Order

open Relation

variable {table : Definitions} {d k : Nat} {t t' u : Term}

/-- A known reference, at some path, is replaced by its definition. -/
def UnfoldsOnce (table : Definitions) (t u : Term) : Prop :=
  ∃ path n body, t.subterm path = .ok (ref n) ∧ table.find? n = some body ∧
    t.replace path body = .ok u

namespace UnfoldsOnce

lemma root {n : Text} {body : Term} (h : table.find? n = some body) :
    UnfoldsOnce table (ref n) body :=
  ⟨[], n, body, subterm_nil _, h, replace_nil _ _⟩

lemma left {l l' : Term} (h : UnfoldsOnce table l l') (r : Term) :
    UnfoldsOnce table (app l r) (app l' r) := by
  obtain ⟨path, n, body, hs, hbody, hl⟩ := h
  exact ⟨.left :: path, n, body, subterm_left.mpr hs, hbody, replace_left hl r⟩

lemma right {r r' : Term} (l : Term) (h : UnfoldsOnce table r r') :
    UnfoldsOnce table (app l r) (app l r') := by
  obtain ⟨path, n, body, hs, hbody, hr⟩ := h
  exact ⟨.right :: path, n, body, subterm_right.mpr hs, hbody, replace_right l hr⟩

end UnfoldsOnce

namespace Unfolds

/-- Unfolding can be done one reference at a time. -/
lemma unfoldsOnce_many (h : Unfolds table d k t u) : ReflTransGen (UnfoldsOnce table) t u := by
  induction h with
  | leaf => exact .refl
  | var x => exact .refl
  | unknown hn => exact .refl
  | known hbody _ ih => exact .head (.root hbody) ih
  | @app _ _ _ l l' r r' _ _ ihl ihr =>
      exact (ihl.lift (Term.app · r) fun _ _ h => h.left r).trans
        (ihr.lift (Term.app l') fun _ _ h => h.right l')

/-- A single replacement leaves the result as it is, and one replacement less to be made. -/
lemma step (h : Unfolds table d k t u) (hstep : UnfoldsOnce table t t') :
    ∃ k', k = k' + 1 ∧ Unfolds table d k' t' u := by
  obtain ⟨path, n, body, hs, hbody, ht'⟩ := hstep
  induction path generalizing t t' k u with
  | nil =>
      rw [subterm_nil] at hs
      rw [replace_nil] at ht'
      cases hs
      cases ht'
      cases h with
      | unknown hn =>
          rw [hn] at hbody
          cases hbody
      | known hbody' hu =>
          -- the definition was unfolded with a bound that is one less
          cases hbody.symm.trans hbody'
          exact ⟨_, rfl, hu.mono (Nat.le_succ _)⟩
  | cons turn rest ih =>
      obtain ⟨l, r, rfl, ⟨rfl, l', hl, rfl⟩ | ⟨rfl, r', hr, rfl⟩⟩ := replace_cons_eq_ok ht'
      · cases h with
        | app hul hur =>
            obtain ⟨k', rfl, hul'⟩ := ih hul (subterm_left.mp hs) hl
            exact ⟨_, by omega, .app hul' hur⟩
      · cases h with
        | app hul hur =>
            obtain ⟨k', rfl, hur'⟩ := ih hur (subterm_right.mp hs) hr
            exact ⟨_, by omega, .app hul hur'⟩

/-- Any number of single replacements leaves the result as it is. -/
lemma run (h : Unfolds table d k t u) (hrun : ReflTransGen (UnfoldsOnce table) t t') :
    ∃ k', Unfolds table d k' t' u := by
  induction hrun with
  | refl => exact ⟨k, h⟩
  | tail _ hstep ih =>
      obtain ⟨k₁, h₁⟩ := ih
      obtain ⟨k₂, -, h₂⟩ := h₁.step hstep
      exact ⟨k₂, h₂⟩

/-- No sequence has more single replacements than unfolding makes. -/
lemma exists_not_unfoldsOnce (h : Unfolds table d k t u) {f : Nat → Term} (hf : f 0 = t) :
    ∃ i ≤ k, ¬ UnfoldsOnce table (f i) (f (i + 1)) := by
  induction k generalizing t f with
  | zero =>
      refine ⟨0, Nat.le_refl 0, fun hstep => ?_⟩
      obtain ⟨k', hk', -⟩ := (hf ▸ h).step hstep
      cases hk'
  | succ k ih =>
      by_cases hstep : UnfoldsOnce table (f 0) (f 1)
      · obtain ⟨k', hk', h'⟩ := (hf ▸ h).step hstep
        cases hk'
        obtain ⟨i, hi, hend⟩ := ih (f := fun i => f (i + 1)) h' rfl
        exact ⟨i + 1, Nat.succ_le_succ hi, hend⟩
      · exact ⟨0, Nat.zero_le _, hstep⟩

end Unfolds

end Order

end Term

/-- The tactic for definitions makes a single replacement in the selected side of a goal, and it
can make every one. -/
lemma Judgment.exists_byUnfolding_eq_ok {j : Judgment} {side : Side} {table : Definitions}
    {closing : Closing} : (∃ path, j.byUnfolding ⟨side, path⟩ table = .ok closing) ↔
      ∃ u, Term.UnfoldsOnce table (j.goal.side side) u ∧
        closing = { rule := .rewrite, subgoals := [j.withGoal (j.goal.withSide side u)] } := by
  simp only [byUnfolding_eq_ok, replacing_eq_ok, Equation.replace_eq_ok,
    Equation.select]
  constructor
  · rintro ⟨path, n, body, hs, hbody, -, ⟨u, hu, rfl⟩, rfl⟩
    exact ⟨u, ⟨path, n, body, hs, hbody, hu⟩, rfl⟩
  · rintro ⟨u, ⟨path, n, body, hs, hbody, hu⟩, rfl⟩
    exact ⟨path, n, body, hs, hbody, _, ⟨u, hu, rfl⟩, rfl⟩

namespace Term

open Relation

/-- **Unfolding in any order**: let unfolding turn `t` into `u`. Then the sequences of single
replacements from `t` are finite, with a bound on their length, and one of them leads to `u`.
Every term on such a sequence is turned into `u` as well, under the same bound on nesting, and it
is `u` if it has no known reference. These replacements are what the tactic for definitions does
to a side of a goal. -/
theorem unfolding_in_any_order {t u : Term} {table : Definitions} {depth : Int}
    (h : t.unfoldAll table depth = .ok u) :
    (∃ count, ∀ f : Nat → Term, f 0 = t → ∃ i ≤ count, ¬ UnfoldsOnce table (f i) (f (i + 1))) ∧
      ReflTransGen (UnfoldsOnce table) t u ∧
      (∀ t', ReflTransGen (UnfoldsOnce table) t t' →
        t'.unfoldAll table depth = .ok u ∧
          ((∀ n ∈ t'.refs, table.find? n = none) → t' = u)) ∧
      ∀ (j : Judgment) (side : Side) (closing : Closing),
        (∃ path, j.byUnfolding ⟨side, path⟩ table = .ok closing) ↔
          ∃ u, UnfoldsOnce table (j.goal.side side) u ∧
            closing = { rule := .rewrite, subgoals := [j.withGoal (j.goal.withSide side u)] } := by
  obtain ⟨k, hk⟩ := unfoldWithin_eq_ok.mp h
  refine ⟨⟨k, fun f hf => hk.exists_not_unfoldsOnce hf⟩, hk.unfoldsOnce_many, fun t' ht' => ?_,
    fun j side closing => Judgment.exists_byUnfolding_eq_ok⟩
  have hu : t'.unfoldAll table depth = .ok u := unfoldWithin_eq_ok.mpr (hk.run ht')
  refine ⟨hu, fun hknown => ?_⟩
  have hself : t'.unfoldAll table depth = .ok t' := unfoldWithin_eq_ok.mpr ⟨0, .self hknown _⟩
  exact Except.ok.inj (hself.symm.trans hu)

/-- Unfolding `I Z` one reference at a time, the inner `K` before `False`: what stands there on
the way unfolds to what `I Z` unfolds to. -/
theorem unfolding_in_any_order_inner_first :
    let t : Term := app (ref "I") (ref "Z")
    let t' : Term := app (app (ref "False") (stem leaf)) (ref "Z")
    let u : Term := app (fork (stem (stem leaf)) (stem leaf)) (ref "Z")
    t.unfoldAll Prelude.definitions 3 = .ok u ∧
      (∃ count, ∀ f : Nat → Term, f 0 = t →
        ∃ i ≤ count, ¬ UnfoldsOnce Prelude.definitions (f i) (f (i + 1))) ∧
      (ReflTransGen (UnfoldsOnce Prelude.definitions) t t' ∧
        t'.unfoldAll Prelude.definitions 3 = .ok u) ∧
      ∀ v, ReflTransGen (UnfoldsOnce Prelude.definitions) t v →
        (∀ n ∈ v.refs, Prelude.definitions.find? n = none) → v = u := by
  intro t t' u
  have hu : t.unfoldAll Prelude.definitions 3 = .ok u := by rfl
  have hI : UnfoldsOnce Prelude.definitions (ref "I") (app (ref "False") (ref "K")) :=
    .root (by decide)
  have hK : UnfoldsOnce Prelude.definitions (ref "K") (stem leaf) := .root (by decide)
  have ht' : ReflTransGen (UnfoldsOnce Prelude.definitions) t t' :=
    .tail (.single (hI.left _)) ((hK.right _).left _)
  obtain ⟨hfinite, -, hsame, -⟩ := unfolding_in_any_order hu
  exact ⟨hu, hfinite, ⟨ht', (hsame t' ht').1⟩, fun v hv => (hsame v hv).2⟩

end Term

end TreeCalculus
