import Mathlib.Data.List.TakeWhile
import TreeCalculus.Command.Run
import TreeCalculus.Proofs.Links

/-!
The verdict on saved proofs.

The check of saved proofs looks for completeness down to the links only, and for the targets of
links through the index. So it lets an open node pass that is linked back or stands below a link,
and where a file repeats an id it can take another node for one above. Where ids are not repeated
the verdict is good exactly if every open node stands at or below a link and every link leads up;
where in addition links stand at closed leaves only, as tactics make them, no node is open.

* `Command.checkFiles_status_zero`: the verdict is good iff every file is read and passes.
* `Command.verdict_of_checkFiles`: what a good verdict means.
* `Command.verdict_on_faulty_proofs`: files with an open node, or with a link that leads astray,
  on which the verdict is good.
-/

namespace TreeCalculus.Command

open Json (Value)

/-! ### Printing -/

namespace Console

variable {console : Console} {t : Text} {ts : List Text} {next : Outcome} {n : Nat}

/-- A text can be printed iff each of its code points can be expressed. -/
lemma failure?_eq_none : console.failure? t = none ↔ ∀ c ∈ t.toList, console.expresses c := by
  rw [failure?, ← List.dropWhile_eq_nil_iff]
  cases t.toList.dropWhile console.expresses <;> simp

lemma ending_print_eq_status : (console.print t next).ending = .status n ↔
    console.failure? t = none ∧ next.ending = .status n := by
  rw [print]
  cases console.failure? t <;> simp

lemma ending_printAll_eq_status : (console.printAll ts next).ending = .status n ↔
    (∀ t ∈ ts, console.failure? t = none) ∧ next.ending = .status n := by
  induction ts with
  | nil => simp [printAll]
  | cons t ts ih =>
      rw [printAll, List.foldr_cons, ending_print_eq_status, ← printAll, ih, List.forall_mem_cons,
        and_assoc]

end Console

variable {console : Console} {view : FileView} {path : Text} {paths : List Text}

/-! ### Reading -/

/-- What is read from a file is read from a value. -/
lemma exists_ofValue_of_readProof {p : Proof Value} (h : readProof view path = .ok p) :
    ∃ v, Proof.ofValue v = .ok p := by
  simp only [readProof, bind, Except.bind] at h
  cases hobject : readObject view path with
  | error problem =>
      rw [hobject] at h
      cases h
  | ok fields =>
      simp only [hobject] at h
      split at h
      · cases h
      · cases hvalue : Proof.ofValue (.obj fields) with
        | error e =>
            rw [hvalue] at h
            cases h
        | ok q =>
            rw [hvalue] at h
            cases h
            exact ⟨_, hvalue⟩

/-- What is read from a file with strings for names is coherent. -/
lemma coherent_of_readProof {p : Proof} (h : readProof view path = .ok p.embed) : p.Coherent := by
  obtain ⟨v, hvalue⟩ := exists_ofValue_of_readProof h
  exact (Proof.Begins.read hvalue).coherent

lemma readText_of_toOption {text : Text} (h : (readText view path).toOption = some text) :
    readText view path = .ok text := by
  cases hread : readText view path with
  | error problem =>
      rw [hread] at h
      cases h
  | ok text' =>
      rw [hread] at h
      exact congrArg Except.ok (Option.some.inj h)

/-- A file with the text of a saved proof gives the proof back. -/
lemma readProof_of_readText {p : Proof} (h : (readText view path).toOption = some p.save) :
    readProof view path = .ok p.reindex.embed := by
  have htext := readText_of_toOption h
  have hobject : readObject view path = .ok [("root", p.tree.toValue)] := by
    simp only [readObject, bind, Except.bind, htext, p.parse_save]
    rfl
  have hvalue : Proof.ofValue (.obj [("root", p.tree.toValue)]) = .ok p.reindex.embed :=
    p.ofValue_toValue
  simp only [readProof, bind, Except.bind, hobject, hvalue]
  rfl

/-! ### The verdict -/

lemma passes_embed (p : Proof) : passes p.embed = passes p := by
  rw [passes, passes, Proof.isComplete_embed, Proof.invalidBackLinks_embed, List.isEmpty_map]

/-- There is one line on a proof that passes. -/
lemma checkLines_of_passes {p : Proof Value} (h : passes p) :
    checkLines path p = [statusLine path p] := by
  rw [passes, Bool.and_eq_true, List.isEmpty_iff] at h
  rw [checkLines, h.2, List.map_nil]

/-- The status is zero iff the proofs before pass, and every file is read and passes and the line
on it is printed. -/
lemma ending_checkFrom_eq_zero {ok : Bool} :
    (checkFrom console view ok paths).ending = .status 0 ↔ ok ∧
      ∀ path ∈ paths, ∃ p, readProof view path = .ok p ∧ passes p ∧
        console.failure? (statusLine path p) = none := by
  induction paths generalizing ok with
  | nil => cases ok <;> simp [checkFrom]
  | cons path rest ih =>
      rw [List.forall_mem_cons, checkFrom]
      cases hread : readProof view path with
      | ok p =>
          simp only [Console.ending_printAll_eq_status, ih, Bool.and_eq_true, Except.ok.injEq,
            exists_eq_left']
          constructor
          · rintro ⟨hlines, ⟨hok, hpasses⟩, hrest⟩
            rw [checkLines_of_passes hpasses, List.forall_mem_singleton] at hlines
            exact ⟨hok, ⟨hpasses, hlines⟩, hrest⟩
          · rintro ⟨hok, ⟨hpasses, hline⟩, hrest⟩
            rw [checkLines_of_passes hpasses, List.forall_mem_singleton]
            exact ⟨hline, ⟨hok, hpasses⟩, hrest⟩
      | error problem =>
          cases hreport : problem.report? with
          | none => simp [hreport]
          | some text => simp [hreport, Console.ending_print_eq_status, ih]

/-- The verdict is good iff every file is read and passes and the line on it is printed. -/
lemma checkFiles_status_zero :
    (checkFiles console view paths).ending = .status 0 ↔
      ∀ path ∈ paths, ∃ p, readProof view path = .ok p ∧ passes p ∧
        console.failure? (statusLine path p) = none := by
  rw [checkFiles, ending_checkFrom_eq_zero]
  simp

/-- A proof passes iff each of its open nodes stands at or below a link and all links are valid. -/
lemma passes_iff {ν : Type} [BEq ν] [Naming ν] {p : Proof ν} : passes p ↔
    (∀ q d, p.tree.at? q = some d → d.label.isOpen → p.tree.LinkedOver q) ∧
      p.invalidBackLinks = [] := by
  rw [passes, Bool.and_eq_true, List.isEmpty_iff, Proof.isComplete, Derivation.isComplete_iff]

/-- **The verdict on saved proofs.** If it is good, every file holds a proof in which each open
node stands at or below a link; so where links stand at closed nodes without children, no node is
open. And where names are strings and no id is repeated, each link leads to a node above that has
the same goal. Conversely, the verdict is good on files in which names are strings, ids are not
repeated, open nodes stand at or below links, and links lead up, if the lines on them can be
printed. -/
theorem verdict_of_checkFiles (console : Console) (view : FileView) (paths : List Text) :
    ((checkFiles console view paths).ending = .status 0 →
      ∀ path ∈ paths, ∃ p, readProof view path = .ok p ∧
        (∀ q d, p.tree.at? q = some d → d.label.isOpen → p.tree.LinkedOver q) ∧
        (p.tree.LinksAtClosedLeaves → p.openNodes = []) ∧
        ∀ p' : Proof, p = p'.embed → p'.tree.DistinctIds → p'.tree.LinksLeadUp) ∧
    ((∀ path ∈ paths, ∃ p : Proof, readProof view path = .ok p.embed ∧ p.tree.DistinctIds ∧
        (∀ q d, p.tree.at? q = some d → d.label.isOpen → p.tree.LinkedOver q) ∧
        p.tree.LinksLeadUp ∧ console.failure? (statusLine path p.embed) = none) →
      (checkFiles console view paths).ending = .status 0) := by
  rw [checkFiles_status_zero]
  refine ⟨fun hgood path hpath => ?_, fun hfiles path hpath => ?_⟩
  · obtain ⟨p, hread, hpasses, -⟩ := hgood path hpath
    obtain ⟨hopen, -⟩ := passes_iff.mp hpasses
    refine ⟨p, hread, hopen, fun hleaves => ?_, ?_⟩
    · exact (Derivation.isComplete_iff_openNodes_eq_nil hleaves).mp
        (Derivation.isComplete_iff.mpr hopen)
    · rintro p' rfl hids
      rw [passes_embed] at hpasses
      exact ((coherent_of_readProof hread).invalidBackLinks_eq_nil hids).mp
        (passes_iff.mp hpasses).2
  · obtain ⟨p, hread, hids, hopen, hlead, hline⟩ := hfiles path hpath
    have hvalid := ((coherent_of_readProof hread).invalidBackLinks_eq_nil hids).mpr hlead
    refine ⟨p.embed, hread, ?_, hline⟩
    rw [passes_embed]
    exact passes_iff.mpr ⟨hopen, hvalid⟩

/-! ### Saved files -/

/-- A directory whose only file is `p.json`, the saved form of a proof with ASCII names. -/
def savedAlone (p : Proof) : FileView :=
  FileTree.view
    { files := [(["p.json"], p.save.toList.map fun c => UInt8.ofNat c.toNat)] }

/-- The line on a file whose name is made of characters can be printed. -/
lemma Console.utf8_failure?_statusLine (name : String) (p : Proof Value) :
    Console.utf8.failure? (statusLine name p) = none := by
  have hstring (s : String) : ∀ c ∈ (Text.ofString s).toList, Console.utf8.expresses c := by
    intro c hc
    obtain ⟨ch, -, rfl⟩ := List.mem_map.mp hc
    rfl
  simp only [failure?_eq_none, statusLine, Text.toList_append, List.forall_mem_append]
  exact ⟨⟨⟨⟨⟨hstring _, hstring _⟩, hstring _⟩, hstring _⟩, hstring _⟩, hstring _⟩

lemma checkFiles_savedAlone {p : Proof}
    (hread : readProof (savedAlone p) "p.json" = .ok p.reindex.embed) (hpasses : passes p.reindex) :
    (checkFiles .utf8 (savedAlone p) ["p.json"]).ending = .status 0 := by
  refine checkFiles_status_zero.mpr fun path hpath => ⟨p.reindex.embed, ?_, ?_, ?_⟩
  · rw [List.mem_singleton.mp hpath, hread]
  · rw [passes_embed]
    exact hpasses
  · rw [List.mem_singleton.mp hpath]
    exact Console.utf8_failure?_statusLine "p.json" p.reindex.embed

/-- A goal is turned around and closed by an appeal to the goal itself. The saved proof gets a good
verdict, and so it has no open node and its link leads up. -/
theorem verdict_of_checkFiles_circular :
    let s : Session := .start {} { goal := ⟨.var "x", .var "x"⟩ }
    let p := (s.runAll [(Proof.rootId, .symmetry), ("root.0", .induction)]).proof
    (checkFiles .utf8 (savedAlone p) ["p.json"]).ending = .status 0 ∧
      ∃ q : Proof, readProof (savedAlone p) "p.json" = .ok q.embed ∧ q.embed.openNodes = [] ∧
        q.tree.LinksLeadUp := by
  intro s p
  have hread : readProof (savedAlone p) "p.json" = .ok p.reindex.embed :=
    readProof_of_readText (by decide +kernel)
  have hgood := checkFiles_savedAlone hread (by decide)
  obtain ⟨q, hq, -, hclosed, hlead⟩ :=
    (verdict_of_checkFiles .utf8 (savedAlone p) ["p.json"]).1 hgood "p.json" List.mem_cons_self
  obtain rfl : p.reindex.embed = q := Except.ok.inj (hread.symm.trans hq)
  -- tactics link closed leaves only and repeat no id
  have hhistory : Relation.ReflTransGen Proof.Resumes s.proof p.reindex :=
    (Proof.resumes_runAll s _).tail .reindex
  have hleaves := (Proof.wellLinked_of_resumes hhistory).linksAtClosedLeaves
  have hids := (Proof.numbered_of_edits (Proof.edits_of_resumes hhistory)).2.distinctIds
  exact ⟨hgood, p.reindex, hread, hclosed hleaves.embed, hlead p.reindex rfl hids⟩

/-- A node with the goal `x = x`, for a variable `x`. -/
def nodeOn {ν : Type} (id x : ν) (rule : Option Rule) (backLink : Option ν) : Node ν :=
  { id, sequent := { goal := ⟨.var x, .var x⟩, id }, rule, backLink }

/-- A goal turned around, with an open node below that is linked back to the goal. -/
def openLinked : Derivation :=
  .node (nodeOn "root" "x" (some .symmetry) none)
    [.node (nodeOn "root.0" "x" none (some "root")) []]

/-- Below a node `a` stands a link to `a` with another goal; a second node `a` has that goal. -/
def misled : Derivation :=
  .node (nodeOn "root" "x" (some .transitivity) none)
    [.node (nodeOn "a" "y" (some .symmetry) none)
      [.node (nodeOn "n" "z" (some .induction) (some "a")) []],
     .node (nodeOn "a" "z" (some .reflexivity) none) []]

/-- **Faulty proofs with a good verdict**: an open node that is linked back counts as complete, and
where an id is repeated, the index takes a node elsewhere for the one above. -/
theorem verdict_on_faulty_proofs :
    (∃ p : Proof, readProof (savedAlone (.ofTree openLinked)) "p.json" = .ok p.embed ∧
      (checkFiles .utf8 (savedAlone (.ofTree openLinked)) ["p.json"]).ending = .status 0 ∧
      p.tree.DistinctIds ∧ p.openNodes ≠ []) ∧
    ∃ p : Proof, readProof (savedAlone (.ofTree misled)) "p.json" = .ok p.embed ∧
      (checkFiles .utf8 (savedAlone (.ofTree misled)) ["p.json"]).ending = .status 0 ∧
      p.openNodes = [] ∧ ¬ p.tree.LinksLeadUp := by
  constructor
  · have hread : readProof (savedAlone (.ofTree openLinked)) "p.json" =
        .ok (Proof.ofTree openLinked).reindex.embed := readProof_of_readText (by decide +kernel)
    exact ⟨_, hread, checkFiles_savedAlone hread (by decide), by decide, by decide⟩
  · have hread : readProof (savedAlone (.ofTree misled)) "p.json" =
        .ok (Proof.ofTree misled).reindex.embed := readProof_of_readText (by decide +kernel)
    refine ⟨_, hread, checkFiles_savedAlone hread (by decide), by decide, fun hlead => ?_⟩
    exact absurd (hlead [0, 0] _ "a" rfl rfl) (by decide)

end TreeCalculus.Command
