import Mathlib.Data.Finset.Card
import Mathlib.Order.Bounds.Defs
import TreeCalculus.Fresh

/-!
Fresh names are fresh.

The candidates for a base name are pairwise distinct, since different numbers have different
numerals. So there are at least as many names in use as candidates before the first free one, and
a free one is found. The search for it needs no bound: a loop that tries one candidate after the
other comes to its end, at the fresh name.

* `numeral_injective`, `freshCandidate_injective`: different numbers give different numerals and
  different candidates.
* `le_card_of_candidates_in_use`: candidates that are all in use are no more than the names in
  use.
* `isLeast_freshNumber`, `freshName_not_mem`: the fresh name is the first candidate that is not in
  use.
* `FreshLoop`, `FreshLoop.of_in_use`: the search as a loop without a bound, and where it ends.
* `freshLoop_finds_first_free`: the loop ends at the first free candidate.
-/

namespace TreeCalculus

/-- Different numbers have different numerals. -/
lemma numeral_injective : Function.Injective fun n : Nat => Text.ofString (toString n) := by
  intro m n h
  have hdigits : Nat.toDigits 10 m = Nat.toDigits 10 n := by
    simpa only [Nat.toString_eq_repr, Nat.toList_repr] using
      congrArg String.toList (Text.ofString_inj.mp h)
  rw [← Nat.ofDigitChars_ten_toDigits (n := m), hdigits, Nat.ofDigitChars_ten_toDigits]

/-- What stands behind a common beginning determines a text. -/
lemma Text.append_right_inj {a b c : Text} : a ++ b = a ++ c ↔ b = c := by
  constructor
  · intro h
    have hlist : a.toList ++ b.toList = a.toList ++ c.toList := congrArg Text.toList h
    cases b
    cases c
    exact congrArg Text.ofList (List.append_cancel_left hlist)
  · rintro rfl
    rfl

/-- No numeral is empty. -/
lemma numeral_toList_ne_nil (n : Nat) : (Text.ofString (toString n)).toList ≠ [] := by
  rw [Text.ofString, Nat.toString_eq_repr, Nat.toList_repr]
  simp

/-- The candidates for a fresh name are pairwise distinct. -/
lemma freshCandidate_injective (base : Text) : Function.Injective (freshCandidate base) := by
  have hne : ∀ n : Nat, base ≠ base ++ Text.ofString (toString (n + 1)) := by
    intro n h
    have hlist := congrArg (List.length ∘ Text.toList) h
    have hpos := List.length_pos_of_ne_nil (numeral_toList_ne_nil (n + 1))
    simp only [Function.comp_apply, Text.toList_append, List.length_append] at hlist
    omega
  intro m n h
  cases m with
  | zero =>
      cases n with
      | zero => rfl
      | succ n => exact absurd h (hne n)
  | succ m =>
      cases n with
      | zero => exact absurd h.symm (hne m)
      | succ n => exact numeral_injective (Text.append_right_inj.mp h)

/-- If all candidates before the number `n` are in use, then at least `n` names are in use. -/
lemma le_card_of_candidates_in_use {base : Text} {used : List Text} {n : Nat}
    (h : ∀ m < n, freshCandidate base m ∈ used) : n ≤ used.toFinset.card := by
  have hsub : (Finset.range n).image (freshCandidate base) ⊆ used.toFinset := by
    intro name hname
    obtain ⟨m, hm, rfl⟩ := Finset.mem_image.mp hname
    exact List.mem_toFinset.mpr (h m (Finset.mem_range.mp hm))
  calc n = ((Finset.range n).image (freshCandidate base)).card := by
        rw [Finset.card_image_of_injective _ (freshCandidate_injective base), Finset.card_range]
    _ ≤ used.toFinset.card := Finset.card_le_card hsub

/-- The number of the fresh name is the least one whose candidate is not in use. -/
lemma isLeast_freshNumber (base : Text) (used : List Text) :
    IsLeast {n | freshCandidate base n ∉ used} (freshNumber base used) := by
  cases hfind : (List.range (used.length + 1)).find? fun n =>
      decide (freshCandidate base n ∉ used) with
  | none =>
      -- more candidates than names would be in use
      have hall : ∀ m < used.length + 1, freshCandidate base m ∈ used := by
        simpa using List.find?_eq_none.mp hfind
      have hle : used.length + 1 ≤ used.length :=
        (le_card_of_candidates_in_use hall).trans (List.toFinset_card_le used)
      omega
  | some k =>
      rw [freshNumber, hfind, Option.getD_some]
      obtain ⟨hfree, -, hbefore⟩ := List.find?_range_eq_some.mp hfind
      refine ⟨by simpa using hfree, fun m hm => ?_⟩
      by_contra hlt
      exact hm (by simpa using hbefore m (by omega))

/-- A fresh name is not in use. -/
theorem freshName_not_mem (base : Text) (used : List Text) : freshName base used ∉ used :=
  (isLeast_freshNumber base used).1

/-! ### The search as a loop -/

/-- The loop that tries one candidate after the other until one is not in use. Entered with `name`
as the candidate number `tried`, counted from one, it ends at the candidate `result` with the
number `total`. The candidate behind `name` is the base with the numeral `tried`. -/
inductive FreshLoop (base : Text) (used : List Text) : Text → Nat → Text → Nat → Prop
  | stop {name : Text} {tried : Nat} (hfree : name ∉ used) :
      FreshLoop base used name tried name tried
  | next {name result : Text} {tried total : Nat} (hused : name ∈ used)
      (hrest : FreshLoop base used (base ++ toString tried) (tried + 1) result total) :
      FreshLoop base used name tried result total

namespace FreshLoop

variable {base : Text} {used : List Text}

/-- The loop has at most one end. -/
lemma unique {name result result' : Text} {tried total total' : Nat}
    (h : FreshLoop base used name tried result total)
    (h' : FreshLoop base used name tried result' total') : result' = result ∧ total' = total := by
  induction h with
  | stop hfree =>
      cases h' with
      | stop => exact ⟨rfl, rfl⟩
      | next hused => exact absurd hused hfree
  | next hused hrest ih =>
      cases h' with
      | stop hfree => exact absurd hused hfree
      | next _ hrest' => exact ih hrest'

/-- The loop passes over the candidates that are in use and ends at the first one that is not. -/
lemma of_in_use (n : Nat) {k : Nat} (hused : ∀ m, k ≤ m → m < k + n → freshCandidate base m ∈ used)
    (hfree : freshCandidate base (k + n) ∉ used) :
    FreshLoop base used (freshCandidate base k) (k + 1) (freshCandidate base (k + n))
      (k + n + 1) := by
  induction n generalizing k with
  | zero => exact .stop hfree
  | succ n ih =>
      rw [show k + (n + 1) = k + 1 + n by omega] at hused hfree ⊢
      refine .next (hused k (by omega) (by omega)) ?_
      exact ih (fun m hkm hm => hused m (by omega) hm) hfree

end FreshLoop

/-- **The search for a fresh name ends**: the loop that starts with the base itself ends, and the
only end it has is the fresh name. This name is not in use, and it is the first such name among
the base and the base with the numerals `1`, `2`, `3` and so on behind it. At most one candidate
more is tried than there are names in use. -/
theorem freshLoop_finds_first_free (base : Text) (used : List Text) :
    ∃ n, (∀ result total, FreshLoop base used base 1 result total ↔
        result = freshName base used ∧ total = n + 1) ∧
      freshName base used = freshCandidate base n ∧ freshName base used ∉ used ∧
      (∀ m < n, freshCandidate base m ∈ used) ∧ n + 1 ≤ used.toFinset.card + 1 := by
  obtain ⟨hfree, hleast⟩ := isLeast_freshNumber base used
  have hused : ∀ m < freshNumber base used, freshCandidate base m ∈ used := by
    intro m hm
    by_contra hnot
    exact absurd (hleast hnot) (by omega)
  have hloop : FreshLoop base used base 1 (freshName base used) (freshNumber base used + 1) := by
    have hend := FreshLoop.of_in_use (freshNumber base used) (k := 0)
      (fun m _ hm => hused m (by omega)) (by rwa [Nat.zero_add])
    simp only [Nat.zero_add] at hend
    exact hend
  refine ⟨freshNumber base used, fun result total => ⟨hloop.unique, ?_⟩, rfl, hfree, hused,
    Nat.succ_le_succ (le_card_of_candidates_in_use hused)⟩
  rintro ⟨rfl, rfl⟩
  exact hloop

/-- Names that carry a numeral already are passed over, and a name counts once. -/
example : freshName "x" ["x2", "x", "x1", "x", "x11"] = "x3" := by decide

end TreeCalculus
