import Mathlib.Data.List.Chain
import Mathlib.Data.List.Nodup
import Mathlib.Logic.Relation
import Mathlib.Tactic.Lemma
import Mathlib.Tactic.SplitIfs
import TreeCalculus.Table

/-!
Look-up in tables, and their names.

* `Table.find?_insert`: storing changes the look-up of one name.
* `Table.find?_insertAll`: after storing several entries a name gives one of them or what it gave
  before.
* `Table.find?_insertAll_of_mem`: it gives the last of them that has the name.
* `Table.mem_names_insert`, `Table.mem_names_insertAll`, `Table.nodup_names_insertAll`: the names
  after storing one entry or several, and that none of them is repeated.
* `Table.entries_insertAll`, `Table.mem_entries`: where no name is repeated, new entries come
  last, and the entries are what look-ups give.
* `Table.nodup_of_isChain`, `Table.length_le_size`: names that follow each other along a relation
  without cycles are distinct, and a table has no more of them than its size.
-/

namespace TreeCalculus.Table

variable {α : Type}

lemma lookup_cons (x k : Text) (v : α) (entries : List (Text × α)) :
    ((k, v) :: entries).lookup x = if x = k then some v else entries.lookup x := by
  by_cases h : x = k
  · simp [h]
  · have hne : (x == k) = false := beq_eq_false_iff_ne.mpr h
    simp [List.lookup_cons, hne, h]

lemma lookup_insertEntry (entries : List (Text × α)) (name x : Text) (value : α) :
    (insertEntry name value entries).lookup x =
      if x = name then some value else entries.lookup x := by
  induction entries with
  | nil => rw [insertEntry, lookup_cons]
  | cons entry rest ih =>
      obtain ⟨k, v⟩ := entry
      by_cases hk : k = name
      · subst hk
        rw [insertEntry, if_pos (beq_self_eq_true k), lookup_cons, lookup_cons]
        split_ifs <;> rfl
      · rw [insertEntry, if_neg (mt eq_of_beq hk), lookup_cons, lookup_cons, ih]
        split_ifs with hx hname
        · exact absurd (hx.symm.trans hname) hk
        · rfl
        · rfl
        · rfl

/-- Storing under a new name puts the entry behind the others. -/
lemma insertEntry_of_not_mem {name : Text} (value : α) {entries : List (Text × α)}
    (h : name ∉ entries.map Prod.fst) :
    insertEntry name value entries = entries ++ [(name, value)] := by
  induction entries with
  | nil => rfl
  | cons entry rest ih =>
      rw [List.map_cons, List.mem_cons, not_or] at h
      rw [insertEntry, if_neg (mt eq_of_beq (Ne.symm h.1)), ih h.2, List.cons_append]

/-- In a list that repeats no name, an entry is stored behind the earlier ones. -/
lemma insertEntry_of_nodup {name : Text} {value : α} {entries rest : List (Text × α)}
    (h : ((entries ++ (name, value) :: rest).map Prod.fst).Nodup) :
    insertEntry name value entries = entries ++ [(name, value)] := by
  rw [List.map_append, List.map_cons] at h
  exact insertEntry_of_not_mem value fun hmem =>
    (List.nodup_append.mp h).2.2 name hmem name List.mem_cons_self rfl

/-- Storing under a name changes the look-up of that name only. -/
lemma find?_insert (t : Table α) (name x : Text) (value : α) :
    (t.insert name value).find? x = if x = name then some value else t.find? x :=
  lookup_insertEntry t.entries name x value

/-- After storing several entries a name gives one of them, or what it gave before. -/
lemma find?_insertAll {t : Table α} {entries : List (Text × α)} {x : Text} {value : α}
    (h : (t.insertAll entries).find? x = some value) :
    (x, value) ∈ entries ∨ t.find? x = some value := by
  induction entries generalizing t with
  | nil => exact .inr h
  | cons entry rest ih =>
      obtain hmem | hfind := ih (t := t.insert entry.1 entry.2) h
      · exact .inl (List.mem_cons_of_mem entry hmem)
      · rw [find?_insert] at hfind
        split_ifs at hfind with hx
        · cases hfind
          exact .inl (hx ▸ List.mem_cons_self)
        · exact .inr hfind

/-- Of several stored entries with the same name the last one counts. -/
lemma find?_insertAll_of_mem {t : Table α} {entries : List (Text × α)} {x : Text} {value : α}
    (h : (t.insertAll entries).find? x = some value) (hx : x ∈ entries.map Prod.fst) :
    ∃ before behind, entries = before ++ (x, value) :: behind ∧ x ∉ behind.map Prod.fst := by
  induction entries generalizing t with
  | nil => exact absurd hx List.not_mem_nil
  | cons entry rest ih =>
      by_cases hrest : x ∈ rest.map Prod.fst
      · obtain ⟨before, behind, rfl, hbehind⟩ := ih (t := t.insert entry.1 entry.2) h hrest
        exact ⟨entry :: before, behind, rfl, hbehind⟩
      · obtain rfl : x = entry.1 := (List.mem_cons.mp hx).resolve_right hrest
        obtain hmem | hfind := find?_insertAll (t := t.insert entry.1 entry.2) h
        · exact absurd (List.mem_map_of_mem hmem) hrest
        · rw [find?_insert, if_pos rfl] at hfind
          cases hfind
          exact ⟨[], rest, rfl, hrest⟩

/-! ### Names -/

/-- The names of a table are those that give something. -/
lemma mem_names {t : Table α} {name : Text} :
    name ∈ t.names ↔ ∃ value, t.find? name = some value := by
  obtain ⟨entries⟩ := t
  rw [names, find?]
  induction entries with
  | nil => simp
  | cons entry rest ih =>
      obtain ⟨k, v⟩ := entry
      rw [List.map_cons, List.mem_cons, ih, lookup_cons]
      split_ifs with h <;> simp [h]

lemma mem_names_insert {t : Table α} {name x : Text} {value : α} :
    x ∈ (t.insert name value).names ↔ x = name ∨ x ∈ t.names := by
  rw [mem_names, mem_names, find?_insert]
  split_ifs with h <;> simp [h]

lemma mem_names_insertAll {t : Table α} {entries : List (Text × α)} {name : Text} :
    name ∈ (t.insertAll entries).names ↔ name ∈ entries.map Prod.fst ∨ name ∈ t.names := by
  induction entries generalizing t with
  | nil => simp [insertAll]
  | cons entry rest ih =>
      rw [insertAll, List.foldl_cons, ← insertAll, ih, mem_names_insert, List.map_cons,
        List.mem_cons, or_left_comm, or_assoc]

/-- Storing under a name that is present leaves the names as they are. -/
lemma map_fst_insertEntry_of_mem {name : Text} (value : α) {entries : List (Text × α)}
    (h : name ∈ entries.map Prod.fst) :
    (insertEntry name value entries).map Prod.fst = entries.map Prod.fst := by
  induction entries with
  | nil => exact absurd h List.not_mem_nil
  | cons entry rest ih =>
      rw [insertEntry]
      split_ifs with hname
      · rw [List.map_cons, List.map_cons]
      · have hne : name ≠ entry.1 := fun heq => hname (beq_iff_eq.mpr heq.symm)
        have hrest : name ∈ rest.map Prod.fst := (List.mem_cons.mp h).resolve_left hne
        rw [List.map_cons, List.map_cons, ih hrest]

lemma nodup_insertEntry {entries : List (Text × α)} (h : (entries.map Prod.fst).Nodup) (name : Text)
    (value : α) : ((insertEntry name value entries).map Prod.fst).Nodup := by
  by_cases hname : name ∈ entries.map Prod.fst
  · rwa [map_fst_insertEntry_of_mem value hname]
  · have hnames : (insertEntry name value entries).map Prod.fst =
        (entries.map Prod.fst).concat name := by
      simp [insertEntry_of_not_mem value hname]
    rw [hnames]
    exact h.concat hname

/-- Storing repeats no name. -/
lemma nodup_names_insertAll {t : Table α} (h : t.names.Nodup) (entries : List (Text × α)) :
    (t.insertAll entries).names.Nodup := by
  induction entries generalizing t with
  | nil => exact h
  | cons entry rest ih => exact ih (nodup_insertEntry h entry.1 entry.2)

/-- New entries come behind the ones that are there, if no name is repeated. -/
lemma entries_insertAll {t : Table α} {entries : List (Text × α)}
    (h : ((t.entries ++ entries).map Prod.fst).Nodup) :
    (t.insertAll entries).entries = t.entries ++ entries := by
  induction entries generalizing t with
  | nil => exact (List.append_nil _).symm
  | cons entry rest ih =>
      have hinsert : (t.insert entry.1 entry.2).entries = t.entries ++ [entry] :=
        insertEntry_of_nodup h
      have hrest : (((t.insert entry.1 entry.2).entries ++ rest).map Prod.fst).Nodup := by
        rwa [hinsert, List.append_assoc, List.singleton_append]
      rw [insertAll, List.foldl_cons, ← insertAll, ih hrest, hinsert, List.append_assoc,
        List.singleton_append]

/-- Where no name is repeated, the entries are what look-ups give. -/
lemma mem_entries {t : Table α} (h : t.names.Nodup) {name : Text} {value : α} :
    (name, value) ∈ t.entries ↔ t.find? name = some value := by
  obtain ⟨entries⟩ := t
  rw [names] at h
  rw [find?]
  induction entries with
  | nil => simp
  | cons entry rest ih =>
      obtain ⟨k, v⟩ := entry
      rw [List.map_cons, List.nodup_cons] at h
      rw [List.mem_cons, lookup_cons]
      split_ifs with hk
      · subst hk
        have hrest : (name, value) ∉ rest :=
          fun hmem => h.1 (List.mem_map.mpr ⟨_, hmem, rfl⟩)
        simp [hrest, eq_comm]
      · simp [hk, ih h.2]

/-! ### Chains of names -/

/-- Along a relation without cycles no name comes again. -/
lemma nodup_of_isChain {r : Text → Text → Prop} (hacyclic : ∀ x, ¬ Relation.TransGen r x x)
    {names : List Text} (h : names.IsChain r) : names.Nodup := by
  have hreach : names.Pairwise (Relation.TransGen r) :=
    (h.imp fun _ _ => Relation.TransGen.single).pairwise
  refine hreach.imp ?_
  rintro x y hxy rfl
  exact hacyclic x hxy

lemma length_le_size {t : Table α} {names : List Text} (hnodup : names.Nodup)
    (hnames : ∀ x ∈ names, x ∈ t.names) : names.length ≤ t.size := by
  have hle := hnodup.length_le_of_subset hnames
  rwa [Table.names, List.length_map] at hle

end TreeCalculus.Table
