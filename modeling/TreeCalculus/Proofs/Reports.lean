import Mathlib.Data.List.Forall2
import TreeCalculus.Proofs.Decoding
import TreeCalculus.Proofs.Verdicts

/-!
Reports on files.

Showing and checking get past most files that hold no saved proof: they say what is wrong, and the
check goes on with the next file. At some files they break off: where the name cannot be that of a
file, the bytes are no text or an integer has too many digits; where, in a saved proof that is in
order up to there, something other than an object stands for a node; and where a line of the
report holds what the output cannot express. On files of other kinds there is a report for each
file, and the status is that of the worst file.

* `Command.Breaks`, `Command.breaks_iff`: the files at which reading breaks off, and that they are
  those whose problem is not reported.
* `Command.Reports`: the lines that the check prints on a file.
* `Command.StopsCheck`, `Command.StopsShow`: where the two commands break off.
* `Command.exists_checkFrom_cons`, `Command.exists_checkFrom_append`: one file of the check, and
  several.
* `Command.reports_on_files`: what the check prints on files and how it ends, and the same for
  showing.
* `Command.breaks_off_at_list`: a saved proof with a list for a root is not reported.
-/

namespace TreeCalculus

lemma Text.append_empty (t : Text) : t ++ ofString "" = t :=
  congrArg ofList (List.append_nil t.toList)

lemma Text.append_assoc (s t u : Text) : s ++ t ++ u = s ++ (t ++ u) :=
  congrArg ofList (List.append_assoc s.toList t.toList u.toList)

lemma Text.join_append (ts us : List Text) : join (ts ++ us) = join ts ++ join us :=
  congrArg ofList List.flatMap_append

namespace Command

open Document
open Json (Value)

variable {console : Console} {view : FileView} {path text : Text} {problem : FileProblem}

/-! ### Files at which reading breaks off -/

/-- Reading breaks off at a file because of a problem. -/
inductive Breaks (view : FileView) (path : Text) : FileProblem → Prop
  /-- The name holds a character that no name of a file may hold. -/
  | nullInName : .char (Char.ofNat 0) ∈ path.toList → Breaks view path .nullInName
  /-- The bytes of the file are no text. -/
  | notText {bytes : List UInt8} {e : Text.Utf8Error} : .char (Char.ofNat 0) ∉ path.toList →
      view (.ofText path) = .ok bytes → Text.decodeUtf8 bytes = .error e →
      Breaks view path (.notText e)
  /-- The text holds an integer with too many digits, and all before it is in order. -/
  | numeral {text : Text} {e : Text.NumeralError} : readText view path = .ok text →
      Json.parse text = .error (.numeral e) → Breaks view path (.notJson (.numeral e))
  /-- In the saved proof something else stands for a node. -/
  | lacksNode {text : Text} {fields : List (Text × Value)} {v : Value} {kind : Value.Kind} :
      readText view path = .ok text → Json.parse text = .ok (.obj fields) →
      fields.lookup (Text.ofString "root") = some v → LacksNode v kind →
      Breaks view path (.notAProof (.notANode kind))

lemma readText_of_null (h : .char (Char.ofNat 0) ∈ path.toList) :
    readText view path = .error .nullInName := by
  rw [readText, if_pos (List.contains_iff_mem.mpr h)]

lemma readProof_of_readText_error (h : readText view path = .error problem) :
    readProof view path = .error problem := by
  simp only [readProof, readObject, bind, Except.bind, h]

lemma readProof_of_parse_error {e : Json.ReadError} (htext : readText view path = .ok text)
    (hparse : Json.parse text = .error e) : readProof view path = .error (.notJson e) := by
  simp only [readProof, readObject, bind, Except.bind, htext, hparse]

lemma readProof_of_parse_obj {fields : List (Text × Value)} {v : Value}
    (htext : readText view path = .ok text) (hparse : Json.parse text = .ok (.obj fields))
    (hroot : fields.lookup (Text.ofString "root") = some v) :
    readProof view path = (derivationOf v >>= Proof.adopt).mapError .notAProof := by
  have hvalue : Proof.ofValue (.obj fields) = derivationOf v >>= Proof.adopt := by
    simp only [Proof.ofValue, field, hroot, bind, Except.bind]
  simp only [readProof, readObject, bind, Except.bind, htext, hparse, hroot, hvalue]

lemma breaks_of_readText_error (h : readText view path = .error problem)
    (hreported : problem.isReported = false) : Breaks view path problem := by
  by_cases hnull : .char (Char.ofNat 0) ∈ path.toList
  · rw [readText_of_null hnull] at h
    cases h
    exact .nullInName hnull
  · cases hbytes : view (.ofText path) with
    | error e =>
        simp only [readText, List.contains_iff_mem, hnull, hbytes, if_false] at h
        cases h
        cases hreported
    | ok bytes =>
        cases hdecode : Text.decodeUtf8 bytes with
        | error e =>
            simp only [readText, List.contains_iff_mem, hnull, hbytes, hdecode, if_false] at h
            cases h
            exact .notText hnull hbytes hdecode
        | ok cs => simp [readText, hnull, hbytes, hdecode] at h

lemma breaks_of_parse {v : Value} (htext : readText view path = .ok text)
    (hparse : Json.parse text = .ok v) (h : readProof view path = .error problem)
    (hreported : problem.isReported = false) : Breaks view path problem := by
  cases v with
  | obj fields =>
      cases hroot : fields.lookup (Text.ofString "root") with
      | none =>
          simp only [readProof, readObject, bind, Except.bind, htext, hparse, hroot] at h
          cases h
          cases hreported
      | some v =>
          rw [readProof_of_parse_obj htext hparse hroot] at h
          cases hd : derivationOf v with
          | ok d =>
              simp only [hd, bind, Except.bind, Proof.adopt] at h
              split at h
              · cases h
                cases hreported
              · cases h
          | error e =>
              rw [hd] at h
              cases h
              cases e with
              | notANode kind =>
                  exact .lacksNode htext hparse hroot (derivationOf_eq_notANode.mp hd)
              | _ => cases hreported
  | _ =>
      simp only [readProof, readObject, bind, Except.bind, htext, hparse] at h
      cases h
      cases hreported

/-- Reading breaks off at the files whose problem is not reported. -/
lemma breaks_iff : Breaks view path problem ↔
    readProof view path = .error problem ∧ problem.report? = none := by
  constructor
  · intro h
    cases h with
    | nullInName hnull => exact ⟨readProof_of_readText_error (readText_of_null hnull), rfl⟩
    | notText hnull hbytes hdecode =>
        refine ⟨readProof_of_readText_error ?_, rfl⟩
        simp [readText, hnull, hbytes, hdecode]
    | numeral htext hparse => exact ⟨readProof_of_parse_error htext hparse, rfl⟩
    | lacksNode htext hparse hroot hlacks =>
        rw [readProof_of_parse_obj htext hparse hroot, derivationOf_eq_notANode.mpr hlacks]
        exact ⟨rfl, rfl⟩
  · rintro ⟨hread, hreport⟩
    have hreported : problem.isReported = false := by
      simpa [FileProblem.report?] using hreport
    cases htext : readText view path with
    | error problem' =>
        obtain rfl : problem' = problem :=
          Except.error.inj ((readProof_of_readText_error htext).symm.trans hread)
        exact breaks_of_readText_error htext hreported
    | ok text =>
        cases hparse : Json.parse text with
        | error e =>
            rw [readProof_of_parse_error htext hparse] at hread
            cases hread
            cases e with
            | malformed => cases hreported
            | numeral e => exact .numeral htext hparse
        | ok v => exact breaks_of_parse htext hparse hread hreported

/-! ### Printing -/

/-- What a run prints and how it ends, behind a text that was printed before. -/
def Outcome.after (printed : Text) (next : Outcome) : Outcome :=
  { next with out := printed ++ next.out }

lemma Outcome.after_after (s t : Text) (next : Outcome) :
    (next.after t).after s = next.after (s ++ t) := by
  rw [after, after, after, Text.append_assoc]

namespace Console

lemma print_of_failure?_eq_none {t : Text} (h : console.failure? t = none) (next : Outcome) :
    console.print t next = next.after t := by
  rw [print, h, Outcome.after]

lemma print_of_failure {t : Text} {e : EncodeError} (h : console.failure? t = some e)
    (next : Outcome) : console.print t next = { ending := .fault (.encoding e) } := by
  rw [print, h]

/-- Texts that can be printed are printed one after the other. -/
lemma printAll_of_failure?_eq_none {ts : List Text} (h : ∀ t ∈ ts, console.failure? t = none)
    (next : Outcome) : console.printAll ts next = next.after (Text.join ts) := by
  induction ts with
  | nil => rfl
  | cons t ts ih =>
      obtain ⟨ht, hts⟩ := List.forall_mem_cons.mp h
      rw [printAll, List.foldr_cons, ← printAll, ih hts, print_of_failure?_eq_none ht,
        Outcome.after_after]
      rfl

/-- The texts before the first that cannot be printed are printed. -/
lemma printAll_of_failure {ts : List Text} {t : Text} {e : EncodeError}
    (h : ∀ t ∈ ts, console.failure? t = none) (ht : console.failure? t = some e) (rest : List Text)
    (next : Outcome) : console.printAll (ts ++ t :: rest) next =
      { out := Text.join ts, ending := .fault (.encoding e) } := by
  have hsplit : console.printAll (ts ++ t :: rest) next =
      console.printAll ts (console.printAll (t :: rest) next) := List.foldr_append
  rw [hsplit, printAll_of_failure?_eq_none h, printAll, List.foldr_cons, print_of_failure ht,
    Outcome.after, Text.append_empty]

/-- Either all texts can be printed, or there is a first that cannot. -/
lemma printable_or_exists_failure (console : Console) (ts : List Text) :
    (∀ t ∈ ts, console.failure? t = none) ∨
      ∃ printed t rest e, ts = printed ++ t :: rest ∧
        (∀ u ∈ printed, console.failure? u = none) ∧ console.failure? t = some e := by
  induction ts with
  | nil => exact .inl (by simp)
  | cons t ts ih =>
      cases ht : console.failure? t with
      | some e => exact .inr ⟨[], t, ts, e, rfl, by simp, ht⟩
      | none =>
          obtain hts | ⟨printed, u, rest, e, rfl, hprinted, hu⟩ := ih
          · exact .inl (List.forall_mem_cons.mpr ⟨ht, hts⟩)
          · exact .inr ⟨t :: printed, u, rest, e, rfl, List.forall_mem_cons.mpr ⟨ht, hprinted⟩, hu⟩

end Console

/-! ### Reports -/

/-- The lines that the check prints on a file: the state of the proof in it, with a line for each
link that is not valid, or what is wrong with the file. -/
inductive Reports (view : FileView) (path : Text) : List Text → Prop
  | state {p : Proof Value} : readProof view path = .ok p →
      Reports view path
        ((path ++ ": " ++ (if p.isComplete then "COMPLETE" else "INCOMPLETE") ++ " (" ++
            toString p.openNodes.length ++ " open goals)\n") ::
          p.invalidBackLinks.map fun id => "  invalid back-link at " ++ Naming.toText id ++ "\n")
  | error {problem : FileProblem} {text : Text} : readProof view path = .error problem →
      problem.report? = some text → Reports view path [path ++ ": ERROR " ++ text ++ "\n"]

/-- The check breaks off at a file, behind some lines on it: at once if reading breaks off, else
at the first line of the report that the output cannot express. -/
inductive StopsCheck (console : Console) (view : FileView) (path : Text) : List Text → Fault → Prop
  | reading {problem : FileProblem} : Breaks view path problem →
      StopsCheck console view path [] (.file problem)
  | printing {printed rest : List Text} {line : Text} {e : EncodeError} :
      Reports view path (printed ++ line :: rest) → (∀ t ∈ printed, console.failure? t = none) →
      console.failure? line = some e → StopsCheck console view path printed (.encoding e)

/-- Showing breaks off at a file: where reading does, and where the output cannot express the
outline. -/
inductive StopsShow (console : Console) (view : FileView) (path : Text) : Fault → Prop
  | reading {problem : FileProblem} : Breaks view path problem →
      StopsShow console view path (.file problem)
  | printing {p : Proof Value} {e : EncodeError} : readProof view path = .ok p →
      console.failure? (p.outline (some path)) = some e → StopsShow console view path (.encoding e)

/-- The check does not break off at a file. -/
def GetsPast (console : Console) (view : FileView) (path : Text) : Prop :=
  ∀ printed fault, ¬ StopsCheck console view path printed fault

/-- Where reading does not break off, there is a proof or a problem that is reported. -/
lemma read_cases (h : ∀ problem, ¬ Breaks view path problem) :
    (∃ p, readProof view path = .ok p) ∨
      ∃ problem text, readProof view path = .error problem ∧ problem.report? = some text := by
  cases hread : readProof view path with
  | ok p => exact .inl ⟨p, rfl⟩
  | error problem =>
      cases hreport : problem.report? with
      | some text => exact .inr ⟨problem, text, rfl, hreport⟩
      | none => exact absurd (breaks_iff.mpr ⟨hread, hreport⟩) (h problem)

lemma Reports.unique {report report' : List Text} (h : Reports view path report)
    (h' : Reports view path report') : report = report' := by
  cases h with
  | state hread =>
      cases h' with
      | state hread' =>
          rw [hread] at hread'
          cases hread'
          rfl
      | error hread' _ =>
          rw [hread] at hread'
          cases hread'
  | error hread htext =>
      cases h' with
      | state hread' =>
          rw [hread] at hread'
          cases hread'
      | error hread' htext' =>
          rw [hread] at hread'
          cases hread'
          rw [htext] at htext'
          cases htext'
          rfl

/-- There is no report where reading breaks off. -/
lemma Reports.not_breaks {report : List Text} (h : Reports view path report) :
    ¬ Breaks view path problem := by
  intro hbreaks
  obtain ⟨hread, hreport⟩ := breaks_iff.mp hbreaks
  cases h with
  | state hread' =>
      rw [hread] at hread'
      cases hread'
  | error hread' htext =>
      rw [hread] at hread'
      cases hread'
      rw [hreport] at htext
      cases htext

/-- The check gets past the files on which it can print a report. -/
lemma getsPast_iff : GetsPast console view path ↔
    ∃ report, Reports view path report ∧ ∀ line ∈ report, console.failure? line = none := by
  constructor
  · intro h
    obtain ⟨report, hreport⟩ : ∃ report, Reports view path report := by
      obtain ⟨p, hread⟩ | ⟨problem, text, hread, htext⟩ :=
        read_cases fun problem hbreaks => h [] (.file problem) (.reading hbreaks)
      · exact ⟨_, .state hread⟩
      · exact ⟨_, .error hread htext⟩
    obtain hprintable | ⟨printed, line, rest, e, rfl, hprinted, hline⟩ :=
      console.printable_or_exists_failure report
    · exact ⟨report, hreport, hprintable⟩
    · exact absurd (.printing hreport hprinted hline) (h printed (.encoding e))
  · rintro ⟨report, hreport, hprintable⟩ printed fault hstops
    cases hstops with
    | reading hbreaks => exact hreport.not_breaks hbreaks
    | @printing _ rest line e hreport' _ hline =>
        have hmem : line ∈ report := by
          rw [hreport.unique hreport']
          simp
        rw [hprintable line hmem] at hline
        cases hline

/-! ### The check -/

/-- One file of the check: its report comes first, and then the check goes on. -/
lemma exists_checkFrom_cons (h : GetsPast console view path) :
    ∃ report good, Reports view path report ∧ ∀ ok rest, checkFrom console view ok (path :: rest) =
      (checkFrom console view (ok && good) rest).after (Text.join report) := by
  obtain ⟨report, hreport, hprintable⟩ := getsPast_iff.mp h
  cases hreport with
  | @state p hread =>
      refine ⟨_, passes p, .state hread, fun ok rest => ?_⟩
      simp only [checkFrom, hread]
      exact Console.printAll_of_failure?_eq_none hprintable _
  | error hread htext =>
      refine ⟨_, false, .error hread htext, fun ok rest => ?_⟩
      simp only [checkFrom, hread, htext, Bool.and_false]
      exact Console.printAll_of_failure?_eq_none hprintable _

/-- At a file where it breaks off the check ends. -/
lemma StopsCheck.checkFrom_cons {printed : List Text} {fault : Fault}
    (h : StopsCheck console view path printed fault) (ok : Bool) (rest : List Text) :
    checkFrom console view ok (path :: rest) =
      { out := Text.join printed, ending := .fault fault } := by
  cases h with
  | reading hbreaks =>
      obtain ⟨hread, hreport⟩ := breaks_iff.mp hbreaks
      simp only [checkFrom, hread, hreport]
      rfl
  | @printing _ behind line e hreport hprinted hline =>
      generalize hlines : printed ++ line :: behind = lines at hreport
      cases hreport with
      | state hread =>
          simp only [checkFrom, hread, checkLines, statusLine]
          exact (congrArg (console.printAll · _) hlines.symm).trans
            (Console.printAll_of_failure hprinted hline behind _)
      | error hread htext =>
          simp only [checkFrom, hread, htext]
          exact (congrArg (console.printAll · _) hlines.symm).trans
            (Console.printAll_of_failure hprinted hline behind _)

/-- Several files of the check: their reports come one after the other. -/
lemma exists_checkFrom_append {paths : List Text} (h : ∀ path ∈ paths, GetsPast console view path) :
    ∃ reports good, List.Forall₂ (Reports view) paths reports ∧
      ∀ ok rest, checkFrom console view ok (paths ++ rest) =
        (checkFrom console view (ok && good) rest).after (Text.join reports.flatten) := by
  induction paths with
  | nil =>
      refine ⟨[], true, .nil, fun ok rest => ?_⟩
      rw [Bool.and_true, List.nil_append]
      rfl
  | cons path paths ih =>
      obtain ⟨hpath, hpaths⟩ := List.forall_mem_cons.mp h
      obtain ⟨report, good, hreport, hcons⟩ := exists_checkFrom_cons hpath
      obtain ⟨reports, others, hreports, happend⟩ := ih hpaths
      refine ⟨report :: reports, good && others, .cons hreport hreports, fun ok rest => ?_⟩
      rw [List.cons_append, hcons, happend, Outcome.after_after, Bool.and_assoc, List.flatten_cons,
        Text.join_append]

/-- The check of several files is good iff that of each file alone is. -/
lemma checkFiles_status_zero_iff_each {paths : List Text} :
    (checkFiles console view paths).ending = .status 0 ↔
      ∀ path ∈ paths, (checkFiles console view [path]).ending = .status 0 := by
  simp only [checkFiles_status_zero, List.forall_mem_singleton]

/-- **Reports on files.** If the check breaks off at no file, it prints a report on each file, in
order, and its status is zero or one, and zero iff it is so for each file alone. Otherwise it
prints the reports on the files before the first at which it breaks off and the lines on that file
before the one that cannot be expressed, and ends there. Showing prints the outline of the proof
in a file with status zero, or what is wrong with status one, or breaks off where reading does and
where the outline cannot be expressed. -/
theorem reports_on_files (console : Console) (view : FileView) (paths : List Text) :
    ((∀ path ∈ paths, GetsPast console view path) →
      ∃ reports status, List.Forall₂ (Reports view) paths reports ∧
        checkFiles console view paths =
          { out := Text.join reports.flatten, ending := .status status } ∧
        status ≤ 1 ∧
        (status = 0 ↔ ∀ path ∈ paths, (checkFiles console view [path]).ending = .status 0)) ∧
    (∀ before path behind printed fault, paths = before ++ path :: behind →
      (∀ b ∈ before, GetsPast console view b) → StopsCheck console view path printed fault →
      ∃ reports, List.Forall₂ (Reports view) before reports ∧
        checkFiles console view paths =
          { out := Text.join (reports.flatten ++ printed), ending := .fault fault }) ∧
    ∀ path,
      ((∀ fault, ¬ StopsShow console view path fault) →
        (∃ p, readProof view path = .ok p ∧
          showFile console view path = { out := p.outline (some path), ending := .status 0 }) ∨
        ∃ problem text, readProof view path = .error problem ∧ problem.report? = some text ∧
          showFile console view path =
            { err := path ++ ": " ++ text ++ "\n", ending := .status 1 }) ∧
      ∀ fault, StopsShow console view path fault →
        showFile console view path = { ending := .fault fault } := by
  refine ⟨fun hpast => ?_, ?_, fun path => ⟨fun hpast => ?_, fun fault hstops => ?_⟩⟩
  · obtain ⟨reports, good, hreports, happend⟩ := exists_checkFrom_append hpast
    have hcheck : checkFiles console view paths =
        { out := Text.join reports.flatten, ending := .status (if good then 0 else 1) } := by
      have hall := happend true []
      rw [List.append_nil, Bool.true_and, checkFrom, Outcome.after, Text.append_empty] at hall
      exact hall
    refine ⟨reports, if good then 0 else 1, hreports, hcheck, by cases good <;> simp, ?_⟩
    rw [← checkFiles_status_zero_iff_each, hcheck]
    simp
  · rintro before path behind printed fault rfl hpast hstops
    obtain ⟨reports, good, hreports, happend⟩ := exists_checkFrom_append hpast
    refine ⟨reports, hreports, ?_⟩
    rw [checkFiles, happend, hstops.checkFrom_cons, Outcome.after, Text.join_append]
  · obtain ⟨p, hread⟩ | ⟨problem, text, hread, htext⟩ :=
      read_cases fun problem hbreaks => hpast (.file problem) (.reading hbreaks)
    · refine .inl ⟨p, hread, ?_⟩
      cases hprint : console.failure? (p.outline (some path)) with
      | some e => exact absurd (.printing hread hprint) (hpast (.encoding e))
      | none =>
          simp only [showFile, hread]
          rw [Console.print_of_failure?_eq_none hprint, Outcome.after, Text.append_empty]
    · exact .inr ⟨problem, text, hread, htext, by simp only [showFile, hread, htext]⟩
  · cases hstops with
    | reading hbreaks =>
        obtain ⟨hread, hreport⟩ := breaks_iff.mp hbreaks
        simp only [showFile, hread, hreport]
    | printing hread hprint =>
        simp only [showFile, hread]
        exact Console.print_of_failure hprint _

/-- A directory with files in it, by their names and their texts, which are ASCII. -/
def filesWith (files : List (Text × Text)) : FileView :=
  FileTree.view
    { files := files.map fun file => ([file.1], file.2.toList.map fun c => UInt8.ofNat c.toNat) }

/-- A saved proof whose root has a list for a sequent. -/
def listForSequent : Value :=
  .obj [("root", .obj [("id", .str "root"), ("sequent", .arr [])])]

/-- There are reports on a file with a fault in a sequent, and on the saved proof behind it. -/
theorem reports_on_files_fault_first :
    let p : Proof := .start { id := "s", goal := ⟨.leaf, .leaf⟩ }
    let view := filesWith [("a.json", Json.render listForSequent), ("p.json", p.save)]
    let paths : List Text := ["a.json", "p.json"]
    (∀ path ∈ paths, GetsPast .utf8 view path) ∧
      ∃ reports status, List.Forall₂ (Reports view) paths reports ∧
        checkFiles .utf8 view paths =
          { out := Text.join reports.flatten, ending := .status status } ∧
        status ≤ 1 ∧
        (status = 0 ↔ ∀ path ∈ paths, (checkFiles .utf8 view [path]).ending = .status 0) := by
  intro p view paths
  have hfault : readProof view "a.json" = .error (.notAProof (.notAnObject .arr)) := by
    have htext : readText view "a.json" = .ok (Json.render listForSequent) :=
      readText_of_toOption (by decide +kernel)
    have hparse : Json.parse (Json.render listForSequent) = .ok listForSequent :=
      Json.parse_render (.obj (by simp) (List.forall_mem_singleton.mpr
        (.obj (by simp [Text.ofString_inj]) (by simp [Value.Plain.arr, Value.Plain.str]))))
    exact readProof_of_parse_obj htext hparse rfl
  have hsaved : readProof view "p.json" = .ok p.reindex.embed :=
    readProof_of_readText (by decide +kernel)
  have hpast : ∀ path ∈ paths, GetsPast .utf8 view path := by
    refine List.forall_mem_cons.mpr ⟨?_, List.forall_mem_singleton.mpr ?_⟩
    · exact getsPast_iff.mpr ⟨_, .error hfault rfl, List.forall_mem_singleton.mpr rfl⟩
    · exact getsPast_iff.mpr ⟨_, .state hsaved, List.forall_mem_singleton.mpr
        (Console.utf8_failure?_statusLine "p.json" p.reindex.embed)⟩
  exact ⟨hpast, (reports_on_files .utf8 view paths).1 hpast⟩

/-- A saved proof that has a list for a root. -/
def listForRoot : Value := .obj [("root", .arr [])]

/-- **No report on a list for a root**: the file holds a JSON value, and the program breaks off at
it, whatever the output can express. -/
theorem breaks_off_at_list :
    let view := filesWith [("p.json", Json.render listForRoot)]
    let fault := Fault.file (.notAProof (.notANode .arr))
    Json.parse (Json.render listForRoot) = .ok listForRoot ∧ ∀ console,
      checkFiles console view ["p.json"] = { ending := .fault fault } ∧
      showFile console view "p.json" = { ending := .fault fault } := by
  intro view fault
  have htext : readText view "p.json" = .ok (Json.render listForRoot) :=
    readText_of_toOption (by decide +kernel)
  have hparse : Json.parse (Json.render listForRoot) = .ok listForRoot :=
    Json.parse_render (.obj (by simp) (by simp [Value.Plain.arr]))
  have hbreaks : Breaks view "p.json" (.notAProof (.notANode .arr)) :=
    .lacksNode htext hparse rfl (.here (by decide))
  obtain ⟨hread, hreport⟩ := breaks_iff.mp hbreaks
  refine ⟨hparse, fun console => ⟨(StopsCheck.reading hbreaks).checkFrom_cons true [], ?_⟩⟩
  simp only [showFile, hread, hreport]
  rfl

end Command

end TreeCalculus
