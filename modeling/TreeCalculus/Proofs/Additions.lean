import Mathlib.Logic.Relation
import TreeCalculus.Proofs.Decoding
import TreeCalculus.Proofs.Histories

/-!
What reading does not mind.

A saved proof is made of objects: nodes, sequents, equations and terms. Reading looks at some keys
of each object. A member under another key may be added or taken out. So may the record of the
parent: it is read, but the tree tells it, and the proof of a tree records it anew. Some members
may also be left out where they say nothing: a rule or a back-link that is `null`, and an empty
list of children. Changes of all these kinds may be made at any place, and nothing of them is seen
in the proof that is read.

* `Document.Part`, `Document.Part.keys`: the objects of a saved proof, and the keys that are read
  in them.
* `Document.Augments`: one member is added somewhere.
* `Document.treeOf`, `Document.ofValue_eq`: trees with their parents found out anew, and that
  nothing else of a tree is seen in its proof.
* `Document.MemberAlike`, `Document.readAlike_obj`: two objects are read alike if what is found
  under their keys is read alike.
* `Document.Augments.readAlike`: what was added makes no difference.
* `Proof.reading_ignores_additions`: the proof is the same, and the same once more when it is
  saved.
-/

namespace TreeCalculus

open Json (Value)
open Relation

/-! ### The objects of a saved proof -/

/-- The keys that are read in a saved term of a kind, besides its tag. -/
def Term.Kind.keys : Kind → List Text
  | leaf => []
  | var => ["name"]
  | ref => ["name"]
  | app => ["left", "right"]

namespace Document

/-- What an object in a saved proof stands for. -/
inductive Part where
  | term
  | equation
  | sequent
  | node
  /-- The object around all others. -/
  | proof
  deriving DecidableEq

namespace Part

/-- The keys that are read in an object. In a term they depend on the tag. -/
def keys (fields : List (Text × Value)) : Part → List Text
  | term => "type" :: ((fields.lookup (Text.ofString "type")).bind kindOf?).elim [] Term.Kind.keys
  | equation => ["lhs", "rhs"]
  | sequent => ["id", "hypotheses", "goal"]
  | node => ["id", "sequent", "rule", "children", "parentId", "backLinkTo"]
  | proof => ["root"]

/-- The keys under which there is something that is read, but that the tree tells as well. -/
def derived : Part → List Text
  | node => ["parentId"]
  | _ => []

/-- The members that say nothing. -/
def defaults : Part → List (Text × Value)
  | node => [("rule", .null), ("children", .arr []), ("backLinkTo", .null)]
  | _ => []

/-- The keys under which there are other objects. -/
def inner : Part → List (Text × Part)
  | term => [("left", term), ("right", term)]
  | equation => [("lhs", term), ("rhs", term)]
  | sequent => [("goal", equation)]
  | node => [("sequent", sequent)]
  | proof => [("root", node)]

/-- The keys under which there are lists of other objects. -/
def lists : Part → List (Text × Part)
  | sequent => [("hypotheses", equation)]
  | node => [("children", node)]
  | _ => []

end Part

/-! ### Additions -/

variable {fields fields' : List (Text × Value)} {key : Text} {v v' : Value} {part part' : Part}

/-- One member more, at any place, under a key that is not there yet. -/
inductive Gains (key : Text) (v : Value) : List (Text × Value) → List (Text × Value) → Prop where
  | mk (before behind : List (Text × Value)) : (before ++ behind).lookup key = none →
      Gains key v (before ++ behind) (before ++ (key, v) :: behind)

/-- Another value under a key. -/
inductive Changes (key : Text) (v v' : Value) :
    List (Text × Value) → List (Text × Value) → Prop where
  | mk (before behind : List (Text × Value)) : before.lookup key = none →
      Changes key v v' (before ++ (key, v) :: behind) (before ++ (key, v') :: behind)

/-- One member more, in an object or in one that stands inside of it at any depth: a member under
a key that is not read, any value for what the tree tells, or a member that says nothing. -/
inductive Augments : Part → Value → Value → Prop where
  | unread {part : Part} {fields fields' : List (Text × Value)} {key : Text} {v : Value} :
      key ∉ part.keys fields → Gains key v fields fields' →
      Augments part (.obj fields) (.obj fields')
  | derived {part : Part} {fields fields' : List (Text × Value)} {key : Text} {v : Value} :
      key ∈ part.derived → Gains key v fields fields' → Augments part (.obj fields) (.obj fields')
  | default {part : Part} {fields fields' : List (Text × Value)} {key : Text} {v : Value} :
      (key, v) ∈ part.defaults → Gains key v fields fields' →
      Augments part (.obj fields) (.obj fields')
  | inside {part part' : Part} {fields fields' : List (Text × Value)} {key : Text} {v v' : Value} :
      (key, part') ∈ part.inner → Augments part' v v' → Changes key v v' fields fields' →
      Augments part (.obj fields) (.obj fields')
  | inList {part part' : Part} {fields fields' : List (Text × Value)} {key : Text} {v v' : Value}
      (before behind : List Value) :
      (key, part') ∈ part.lists → Augments part' v v' →
      Changes key (.arr (before ++ v :: behind)) (.arr (before ++ v' :: behind)) fields fields' →
      Augments part (.obj fields) (.obj fields')

lemma lookup_append_cons (before behind : List (Text × Value)) (key x : Text) (v : Value) :
    (before ++ (key, v) :: behind).lookup x =
      (before.lookup x).or (if x = key then some v else behind.lookup x) := by
  rw [List.lookup_append, Table.lookup_cons]

lemma Gains.lookup_eq (h : Gains key v fields fields') {x : Text} (hx : x ≠ key) :
    fields'.lookup x = fields.lookup x := by
  obtain ⟨before, behind, -⟩ := h
  rw [lookup_append_cons, if_neg hx, List.lookup_append]

lemma Gains.lookup_self (h : Gains key v fields fields') :
    fields.lookup key = none ∧ fields'.lookup key = some v := by
  obtain ⟨before, behind, hnone⟩ := h
  rw [lookup_append_cons, if_pos rfl]
  rw [List.lookup_append, Option.or_eq_none_iff] at hnone
  simp [List.lookup_append, hnone]

lemma Changes.lookup_eq (h : Changes key v v' fields fields') {x : Text} (hx : x ≠ key) :
    fields'.lookup x = fields.lookup x := by
  obtain ⟨before, behind, -⟩ := h
  rw [lookup_append_cons, lookup_append_cons, if_neg hx, if_neg hx]

lemma Changes.lookup_self (h : Changes key v v' fields fields') :
    fields.lookup key = some v ∧ fields'.lookup key = some v' := by
  obtain ⟨before, behind, hnone⟩ := h
  rw [lookup_append_cons, lookup_append_cons, if_pos rfl, if_pos rfl, hnone]
  exact ⟨rfl, rfl⟩

/-! ### Trees without their stored parents -/

/-- Read a node with everything below it, and find out the parents anew. -/
def treeOf (v : Value) : Except DecodeError (Derivation Value) :=
  (derivationOf v).map (Derivation.relink none)

/-- Read a list of nodes in the same way. -/
def treesOf (v : Value) : Except DecodeError (List (Derivation Value)) :=
  (forestOf v).map (Derivation.relinkAll none)

/-- **The stored parents are overwritten**: a proof depends on the tree without them. -/
lemma ofValue_eq (v : Value) : Proof.ofValue v = field "root" v >>= treeOf >>= Proof.adopt := by
  rw [Proof.ofValue]
  cases field "root" v with
  | error e => rfl
  | ok root =>
      change derivationOf root >>= Proof.adopt = treeOf root >>= Proof.adopt
      rw [treeOf]
      cases derivationOf root with
      | error e => rfl
      | ok tree => exact Proof.adopt_congr (tree.relink_relink none none).symm

/-- What is done to a result is done by the last step. -/
lemma except_map_bind {α β γ : Type} (x : Except DecodeError α) (f : α → Except DecodeError β)
    (g : β → γ) : (x >>= f).map g = x >>= fun a => (f a).map g := by
  cases x <;> rfl

/-- A node is read through its members, and its children tell of it as their parent. -/
lemma treeOf_obj_eq (fields : List (Text × Value)) :
    treeOf (.obj fields) =
      (field "id" (.obj fields) >>= fun id =>
        (field "sequent" (.obj fields) >>= sequentOf) >>= fun sequent =>
        ruleOf (fields.lookup (Text.ofString "rule")) >>= fun rule =>
        (fields.lookup (Text.ofString "children")).elim (.ok []) treesOf >>= fun children =>
        .ok (.node { id, sequent, rule, backLink := optionalName "backLinkTo" fields }
          (Derivation.relinkAll (Naming.present id) children))) := by
  have hchildren : (fields.lookup (Text.ofString "children")).elim (.ok []) treesOf =
      ((fields.lookup (Text.ofString "children")).elim (.ok []) forestOf).map
        (Derivation.relinkAll none) := by
    cases fields.lookup (Text.ofString "children") <;> rfl
  rw [treeOf, derivationOf_obj_eq, hchildren]
  simp only [except_map_bind]
  refine bind_congr fun id => bind_congr fun sequent => bind_congr fun rule => ?_
  cases (fields.lookup (Text.ofString "children")).elim (.ok []) forestOf with
  | error e => rfl
  | ok children =>
      simp only [bind, Except.bind, Except.map, Derivation.relink, Derivation.relinkAll_relinkAll]

/-! ### Values that are read alike -/

/-- Two values are read alike, whether reading succeeds or fails; the stored parents do not
count. -/
def ReadAlike : Part → Value → Value → Prop
  | .term, v, v' => termOf v = termOf v'
  | .equation, v, v' => equationOf v = equationOf v'
  | .sequent, v, v' => sequentOf v = sequentOf v'
  | .node, v, v' => treeOf v = treeOf v'
  | .proof, v, v' => Proof.ofValue v = Proof.ofValue v'

/-- What is found under a key in two objects, if anything, is read alike. -/
inductive MemberAlike (part : Part) (key : Text) : Option Value → Option Value → Prop where
  | same (found : Option Value) : MemberAlike part key found found
  | default {v : Value} : (key, v) ∈ part.defaults → MemberAlike part key none (some v)
  | inside {part' : Part} {v v' : Value} : (key, part') ∈ part.inner → ReadAlike part' v v' →
      MemberAlike part key (some v) (some v')
  | inList {part' : Part} {v v' : Value} (before behind : List Value) : (key, part') ∈ part.lists →
      ReadAlike part' v v' →
      MemberAlike part key (some (.arr (before ++ v :: behind)))
        (some (.arr (before ++ v' :: behind)))

/-- The members that are read in an object are read alike in another, up to what the tree tells. -/
def MembersAlike (part : Part) (fields fields' : List (Text × Value)) : Prop :=
  ∀ key ∈ part.keys fields, key ∉ part.derived →
    MemberAlike part key (fields.lookup key) (fields'.lookup key)

namespace MembersAlike

variable {α : Type} (h : MembersAlike part fields fields') (hkey : key ∈ part.keys fields)
  (hderived : key ∉ part.derived)

include h hkey hderived

/-- What is read under a key is the same, if the reader does not tell apart what is read alike. -/
lemma read_lookup (read : Option Value → α)
    (hdefault : ∀ member ∈ part.defaults, member.1 = key → read none = read (some member.2))
    (hinside : ∀ member ∈ part.inner, member.1 = key → ∀ v v', ReadAlike member.2 v v' →
      read (some v) = read (some v'))
    (hinList : ∀ member ∈ part.lists, member.1 = key → ∀ v v', ReadAlike member.2 v v' →
      ∀ before behind, read (some (.arr (before ++ v :: behind))) =
        read (some (.arr (before ++ v' :: behind)))) :
    read (fields.lookup key) = read (fields'.lookup key) := by
  have halike := h key hkey hderived
  generalize fields.lookup key = found, fields'.lookup key = found' at halike
  cases halike with
  | same => rfl
  | default hmem => exact hdefault _ hmem rfl
  | inside hmem hread => exact hinside _ hmem rfl _ _ hread
  | inList before behind hmem hread => exact hinList _ hmem rfl _ _ hread before behind

/-- The same for what is no object and no list of objects. -/
lemma read_lookup_of_plain (read : Option Value → α)
    (hplain : ∀ member ∈ part.inner ++ part.lists, member.1 ≠ key)
    (hdefault : ∀ member ∈ part.defaults, member.1 = key → read none = read (some member.2)) :
    read (fields.lookup key) = read (fields'.lookup key) := by
  obtain ⟨hinner, hlists⟩ := List.forall_mem_append.mp hplain
  exact h.read_lookup hkey hderived read hdefault
    (fun member hmem heq => absurd heq (hinner member hmem))
    (fun member hmem heq => absurd heq (hlists member hmem))

variable (hdefaults : ∀ member ∈ part.defaults, member.1 ≠ key)

include hdefaults

/-- What has to be there is read the same, too. -/
lemma field_bind {read : Value → Except DecodeError α}
    (hinside : ∀ member ∈ part.inner, member.1 = key → ∀ v v', ReadAlike member.2 v v' →
      read v = read v')
    (hinList : ∀ member ∈ part.lists, member.1 = key → ∀ v v', ReadAlike member.2 v v' →
      ∀ before behind, read (.arr (before ++ v :: behind)) = read (.arr (before ++ v' :: behind))) :
    field key (.obj fields) >>= read = field key (.obj fields') >>= read := by
  have hfield (fields : List (Text × Value)) : field key (.obj fields) >>= read =
      (fields.lookup key).elim (.error (.missingKey key)) read := by
    rw [field]
    cases fields.lookup key <;> rfl
  rw [hfield, hfield]
  exact h.read_lookup hkey hderived (·.elim (.error (.missingKey key)) read)
    (fun member hmem heq => absurd heq (hdefaults member hmem)) hinside hinList

/-- What is no object and no list of objects is the same. -/
lemma field_of_plain (hplain : ∀ member ∈ part.inner ++ part.lists, member.1 ≠ key) :
    field key (.obj fields) = field key (.obj fields') := by
  obtain ⟨hinner, hlists⟩ := List.forall_mem_append.mp hplain
  have hfield : field key (.obj fields) >>= pure = field key (.obj fields') >>= pure :=
    h.field_bind hkey hderived hdefaults (fun member hmem heq => absurd heq (hinner member hmem))
      (fun member hmem heq => absurd heq (hlists member hmem))
  rwa [bind_pure, bind_pure] at hfield

/-- A term is read the same in an object that has no other parts than terms. -/
lemma field_bind_termOf (hterms : ∀ member ∈ part.inner, member.2 = .term)
    (hlists : part.lists = []) :
    field key (.obj fields) >>= termOf = field key (.obj fields') >>= termOf := by
  refine h.field_bind hkey hderived hdefaults (fun member hmem _ v v' hread => ?_)
    (by simp [hlists])
  rw [hterms member hmem] at hread
  exact hread

end MembersAlike

/-! ### The readers of the parts -/

/-- A term depends on the members that its kind asks for. -/
lemma termOfTag_congr {tag : Value} {name name' : Except DecodeError Value}
    {left left' right right' : Except DecodeError (Term Value)}
    (hname : ∀ kind, kindOf? tag = some kind → Text.ofString "name" ∈ kind.keys → name = name')
    (hleft : ∀ kind, kindOf? tag = some kind → Text.ofString "left" ∈ kind.keys → left = left')
    (hright : ∀ kind, kindOf? tag = some kind → Text.ofString "right" ∈ kind.keys →
      right = right') :
    termOfTag tag name left right = termOfTag tag name' left' right' := by
  rw [termOfTag, termOfTag]
  cases hkind : kindOf? tag with
  | none => rfl
  | some kind =>
      cases kind with
      | leaf => rfl
      | var => rw [hname _ hkind (by decide)]
      | ref => rw [hname _ hkind (by decide)]
      | app => rw [hleft _ hkind (by decide), hright _ hkind (by decide)]

lemma termOf_congr (h : MembersAlike .term fields fields') :
    termOf (.obj fields) = termOf (.obj fields') := by
  have hpart {key : Text} (hkey : key ∈ Part.term.keys fields) :
      field key (.obj fields) >>= termOf = field key (.obj fields') >>= termOf :=
    h.field_bind_termOf hkey nofun nofun (by decide) rfl
  have hname (hkey : Text.ofString "name" ∈ Part.term.keys fields) :
      field "name" (.obj fields) = field "name" (.obj fields') :=
    h.field_of_plain hkey nofun nofun (by decide)
  have htype : field "type" (.obj fields) = field "type" (.obj fields') :=
    h.field_of_plain List.mem_cons_self nofun nofun (by decide)
  rw [termOf_obj_eq, termOf_obj_eq, ← htype, field]
  cases hlookup : fields.lookup (Text.ofString "type") with
  | none => rfl
  | some tag =>
      have hkeys {key : Text} {kind : Term.Kind} (hkind : kindOf? tag = some kind)
          (hkey : key ∈ kind.keys) : key ∈ Part.term.keys fields := by
        rw [Part.keys, hlookup, Option.bind_some, hkind, Option.elim_some]
        exact List.mem_cons_of_mem _ hkey
      exact termOfTag_congr (fun _ hkind hkey => hname (hkeys hkind hkey))
        (fun _ hkind hkey => hpart (hkeys hkind hkey)) fun _ hkind hkey => hpart (hkeys hkind hkey)

lemma equationOf_congr (h : MembersAlike .equation fields fields') :
    equationOf (.obj fields) = equationOf (.obj fields') := by
  have hside {key : Text} (hkey : key ∈ Part.equation.keys fields) :
      field key (.obj fields) >>= termOf = field key (.obj fields') >>= termOf :=
    h.field_bind_termOf hkey nofun nofun (by decide) rfl
  rw [equationOf, equationOf, hside List.mem_cons_self,
    hside (List.mem_cons_of_mem _ (List.mem_singleton_self _))]

/-- A list of equations is read alike if one of them is. -/
lemma equationsOf_congr (h : equationOf v = equationOf v') (before behind : List Value) :
    equationsOf (.arr (before ++ v :: behind)) = equationsOf (.arr (before ++ v' :: behind)) := by
  have hparts (items : List Value) : equationsOf (.arr items) = items.mapM equationOf := rfl
  rw [hparts, hparts, List.mapM_append, List.mapM_append, List.mapM_cons, List.mapM_cons, h]

lemma sequentOf_congr (h : MembersAlike .sequent fields fields') :
    sequentOf (.obj fields) = sequentOf (.obj fields') := by
  have hid : field "id" (.obj fields) = field "id" (.obj fields') :=
    h.field_of_plain (by simp [Part.keys]) nofun nofun (by decide)
  have hhypotheses : field "hypotheses" (.obj fields) >>= equationsOf =
      field "hypotheses" (.obj fields') >>= equationsOf :=
    h.field_bind (by simp [Part.keys]) nofun nofun
      (List.forall_mem_singleton.mpr fun heq => absurd heq (by decide))
      (List.forall_mem_singleton.mpr fun _ _ _ hread => equationsOf_congr hread)
  have hgoal : field "goal" (.obj fields) >>= equationOf =
      field "goal" (.obj fields') >>= equationOf :=
    h.field_bind (by simp [Part.keys]) nofun nofun
      (List.forall_mem_singleton.mpr fun _ _ _ hread => hread)
      (List.forall_mem_singleton.mpr fun heq => absurd heq (by decide))
  rw [sequentOf, sequentOf, hid, hhypotheses, hgoal]

lemma treesOf_arr_cons (first : Value) (rest : List Value) :
    treesOf (.arr (first :: rest)) =
      (treeOf first >>= fun d => treesOf (.arr rest) >>= fun ds => .ok (d :: ds)) := by
  rw [treesOf, treesOf, treeOf, forestOf, forestOf, derivationsOf]
  cases derivationOf first with
  | error e => rfl
  | ok d => cases derivationsOf rest <;> rfl

/-- Nodes are read alike one after the other if one of them is. -/
lemma treesOf_congr (h : treeOf v = treeOf v') (before behind : List Value) :
    treesOf (.arr (before ++ v :: behind)) = treesOf (.arr (before ++ v' :: behind)) := by
  induction before with
  | nil => rw [List.nil_append, List.nil_append, treesOf_arr_cons, treesOf_arr_cons, h]
  | cons first rest ih =>
      rw [List.cons_append, List.cons_append, treesOf_arr_cons, treesOf_arr_cons, ih]

lemma treeOf_congr (h : MembersAlike .node fields fields') :
    treeOf (.obj fields) = treeOf (.obj fields') := by
  have hid : field "id" (.obj fields) = field "id" (.obj fields') :=
    h.field_of_plain (by simp [Part.keys]) (by decide) (by decide) (by decide)
  have hsequent : field "sequent" (.obj fields) >>= sequentOf =
      field "sequent" (.obj fields') >>= sequentOf :=
    h.field_bind (by simp [Part.keys]) (by decide) (by decide)
      (List.forall_mem_singleton.mpr fun _ _ _ hread => hread)
      (List.forall_mem_singleton.mpr fun heq => absurd heq (by decide))
  -- a member that says nothing is read like one that is not there
  have hrule : ruleOf (fields.lookup (Text.ofString "rule")) =
      ruleOf (fields'.lookup (Text.ofString "rule")) := by
    refine h.read_lookup_of_plain (by simp [Part.keys]) (by decide) ruleOf (by decide) ?_
    simp [Part.defaults, Text.ofString_inj, ruleOf]
  have hlink : optionalName "backLinkTo" fields = optionalName "backLinkTo" fields' := by
    refine h.read_lookup_of_plain (by simp [Part.keys]) (by decide) (·.bind Naming.present)
      (by decide) ?_
    simp [Part.defaults, Text.ofString_inj, Naming.present]
  have hchildren : (fields.lookup (Text.ofString "children")).elim (.ok []) treesOf =
      (fields'.lookup (Text.ofString "children")).elim (.ok []) treesOf := by
    have hkey : Text.ofString "children" ∈ Part.node.keys fields := by simp [Part.keys]
    refine h.read_lookup hkey (by decide) (·.elim (.ok []) treesOf) ?_
      (List.forall_mem_singleton.mpr fun heq => absurd heq (by decide))
      (List.forall_mem_singleton.mpr fun _ v v' hread before behind => treesOf_congr hread _ _)
    have hnone : treesOf (.arr []) = .ok [] := rfl
    simp [Part.defaults, Text.ofString_inj, hnone]
  rw [treeOf_obj_eq, treeOf_obj_eq, hid, hsequent, hrule, hchildren, hlink]

lemma ofValue_congr (h : MembersAlike .proof fields fields') :
    Proof.ofValue (.obj fields) = Proof.ofValue (.obj fields') := by
  have hroot : field "root" (.obj fields) >>= treeOf = field "root" (.obj fields') >>= treeOf :=
    h.field_bind (by simp [Part.keys]) nofun nofun
      (List.forall_mem_singleton.mpr fun _ _ _ hread => hread) nofun
  rw [ofValue_eq, ofValue_eq, hroot]

/-- Objects are read alike if their members are. -/
lemma readAlike_obj (h : MembersAlike part fields fields') :
    ReadAlike part (.obj fields) (.obj fields') := by
  cases part with
  | term => exact termOf_congr h
  | equation => exact equationOf_congr h
  | sequent => exact sequentOf_congr h
  | node => exact treeOf_congr h
  | proof => exact ofValue_congr h

/-- Objects that differ under one key are alike if what is read there and counts is. -/
lemma membersAlike_of_key (hother : ∀ {x : Text}, x ≠ key → fields'.lookup x = fields.lookup x)
    (hkey : key ∈ part.keys fields → key ∉ part.derived →
      MemberAlike part key (fields.lookup key) (fields'.lookup key)) :
    MembersAlike part fields fields' := by
  intro x hread hcounts
  by_cases hx : x = key
  · subst hx
    exact hkey hread hcounts
  · rw [hother hx]
    exact .same _

/-- **One addition makes no difference**, wherever it is made. -/
theorem Augments.readAlike (h : Augments part v v') : ReadAlike part v v' := by
  induction h with
  | unread hunread hgains =>
      exact readAlike_obj (membersAlike_of_key hgains.lookup_eq fun hread => absurd hread hunread)
  | derived hderived hgains =>
      exact readAlike_obj (membersAlike_of_key hgains.lookup_eq fun _ hcounts =>
        absurd hderived hcounts)
  | default hmem hgains =>
      refine readAlike_obj (membersAlike_of_key hgains.lookup_eq fun _ _ => ?_)
      rw [hgains.lookup_self.1, hgains.lookup_self.2]
      exact .default hmem
  | inside hmem _ hchanges ih =>
      refine readAlike_obj (membersAlike_of_key hchanges.lookup_eq fun _ _ => ?_)
      rw [hchanges.lookup_self.1, hchanges.lookup_self.2]
      exact .inside hmem ih
  | inList before behind hmem _ hchanges ih =>
      refine readAlike_obj (membersAlike_of_key hchanges.lookup_eq fun _ _ => ?_)
      rw [hchanges.lookup_self.1, hchanges.lookup_self.2]
      exact .inList before behind hmem ih

/-! ### The links of what was read -/

lemma optionalName_ne_null (key : Text) (fields : List (Text × Value)) :
    optionalName key fields ≠ some .null := by
  rw [optionalName]
  cases fields.lookup key with
  | none => nofun
  | some v => cases v <;> nofun

/-- Every tree in a list that was read was read itself. -/
lemma exists_derivationOf_of_mem {vs : List Value} {ds : List (Derivation Value)}
    (h : derivationsOf vs = .ok ds) {d : Derivation Value} (hd : d ∈ ds) :
    ∃ u, derivationOf u = .ok d := by
  induction vs generalizing ds with
  | nil =>
      cases h
      exact absurd hd List.not_mem_nil
  | cons u us ih =>
      simp only [derivationsOf, bind_eq_ok] at h
      obtain ⟨first, hfirst, others, hothers, hds⟩ := h
      cases hds
      obtain rfl | hd := List.mem_cons.mp hd
      · exact ⟨u, hfirst⟩
      · exact ih hothers hd

/-- A node that was read has no link to `null`, and its children were read themselves. -/
lemma links_of_derivationOf {label : Node Value} {children : List (Derivation Value)}
    (h : derivationOf v = .ok (.node label children)) :
    label.backLink ≠ some .null ∧ ∀ c ∈ children, ∃ u, derivationOf u = .ok c := by
  cases v with
  | obj fields =>
      simp only [derivationOf_obj_eq, bind_eq_ok] at h
      obtain ⟨id, -, sequent, -, rule, -, forest, hforest, hnode⟩ := h
      cases hnode
      refine ⟨optionalName_ne_null _ fields, fun c hc => ?_⟩
      cases hlookup : fields.lookup (Text.ofString "children") with
      | none =>
          rw [hlookup] at hforest
          cases hforest
          exact absurd hc List.not_mem_nil
      | some w =>
          rw [hlookup, Option.elim_some, forestOf_eq, bind_eq_ok] at hforest
          obtain ⟨parts, -, hparts⟩ := hforest
          exact exists_derivationOf_of_mem hparts hc
  | _ => cases h

/-- No node of a tree that was read has a link to `null`. -/
lemma backLink_ne_null_of_derivationOf {d : Derivation Value} (h : derivationOf v = .ok d) :
    ∀ n ∈ d.nodes, n.backLink ≠ some .null := by
  induction d using Derivation.ind generalizing v with
  | node label children ih =>
      obtain ⟨hlabel, hchildren⟩ := links_of_derivationOf h
      intro n hn
      obtain rfl | ⟨c, hc, hn⟩ := Derivation.mem_nodes_node.mp hn
      · exact hlabel
      · obtain ⟨u, hu⟩ := hchildren c hc
        exact ih c hc hu n hn

end Document

namespace Proof

open Document

lemma ofValue_eq_of_eqvGen {d d' : Value} (h : EqvGen (Augments .proof) d d') :
    ofValue d = ofValue d' := by
  induction h with
  | rel _ _ h => exact h.readAlike
  | refl _ => rfl
  | symm _ _ _ ih => exact ih.symm
  | trans _ _ _ _ _ ih ih' => exact ih.trans ih'

/-- What was read is read again from its saved form. -/
lemma ofValue_toValue_of_ofValue {d : Value} {p : Proof Value} (h : ofValue d = .ok p) :
    ofValue p.toValue = .ok p := by
  obtain ⟨root, tree, -, htree, hids, rfl⟩ := exists_ofTree_of_ofValue h
  have hsame : (ofTree tree).tree.nodes.map Node.id = tree.nodes.map Node.id :=
    Derivation.map_nodes_relink (fun _ _ => rfl) tree none
  have hlinks : (ofTree tree).tree.nodes.map Node.backLink = tree.nodes.map Node.backLink :=
    Derivation.map_nodes_relink (fun _ _ => rfl) tree none
  rw [ofValue_toValue_of_links (hsame ▸ hids), reindex_ofTree]
  intro n hn hnull
  obtain ⟨m, hm, hlink⟩ := List.mem_map.mp (hlinks ▸ List.mem_map_of_mem hn)
  exact backLink_ne_null_of_derivationOf htree m hm (hlink.trans hnull)

/-- **Reading ignores additions.** Let a proof be read from a value, and let the value be changed
by any number of additions and removals, at any nodes, sequents, equations and terms: of members
under keys that are not read there, of any record of the parent, which is read and then
overwritten, of `null` for a rule or a back-link, and of an empty list of children. Then the same
proof is read, with the same tree and the same index; and it is read once more from its saved
form. -/
theorem reading_ignores_additions (d d' : Value) (p : Proof Value) (hd : ofValue d = .ok p)
    (h : EqvGen (Augments .proof) d d') : ofValue d' = .ok p ∧ ofValue p.toValue = .ok p := by
  refine ⟨?_, ofValue_toValue_of_ofValue hd⟩
  rw [← ofValue_eq_of_eqvGen h]
  exact hd

/-- A saved sequent whose goal has an object with the given members on the left and a leaf on the
right. -/
def savedSequent (lhs : List (Text × Value)) : Value :=
  .obj [("id", .str "s"), ("hypotheses", .arr []),
    ("goal", .obj [("lhs", .obj lhs), ("rhs", (Term.leaf : Term).toValue)])]

/-- A saved proof of two nodes; the lower one has the given sequent and more members. -/
def savedTwoNodes (sequent : Value) (more : List (Text × Value)) : Value :=
  .obj [("root", .obj [("id", .str "root"), ("sequent", savedSequent [("type", .str "Leaf")]),
    ("rule", .str "Symmetry"),
    ("children", .arr [.obj (("id", .str "c") :: ("sequent", sequent) :: more)])])]

/-- An addition in the lower node is one in the proof. -/
lemma augments_savedTwoNodes {sequent sequent' : Value} {more more' : List (Text × Value)}
    (h : Augments .node (.obj (("id", .str "c") :: ("sequent", sequent) :: more))
      (.obj (("id", .str "c") :: ("sequent", sequent') :: more'))) :
    Augments .proof (savedTwoNodes sequent more) (savedTwoNodes sequent' more') := by
  refine .inside (List.mem_singleton_self _) (.inList [] [] (List.mem_singleton_self _) h ?_)
    (.mk [] [] rfl)
  exact .mk [("id", .str "root"), ("sequent", savedSequent [("type", .str "Leaf")]),
    ("rule", .str "Symmetry")] [] rfl

/-- In a saved proof of two nodes the rule of the open node, which is `null`, is taken out, the
record of its parent is changed to a number, and a leaf in its goal is given a name. -/
theorem reading_ignores_additions_below_root :
    let sequent : Sequent Value := { id := .str "s", goal := ⟨.leaf, .leaf⟩ }
    let p := ofTree (.node { id := .str "root", sequent, rule := some .symmetry }
      [.node { id := .str "c", sequent } []])
    let d := savedTwoNodes (savedSequent [("type", .str "Leaf")])
      [("rule", .null), ("children", .arr []), ("parentId", .str "root")]
    let d' := savedTwoNodes (savedSequent [("type", .str "Leaf"), ("name", .int 0)])
      [("children", .arr []), ("parentId", .int 7)]
    (ofValue d = .ok p ∧ EqvGen (Augments .proof) d d') ∧
      ofValue d' = .ok p ∧ ofValue p.toValue = .ok p := by
  intro sequent p d d'
  have hd : ofValue d = .ok p := rfl
  let leaf := savedSequent [("type", .str "Leaf")]
  have hrule : Augments .proof
      (savedTwoNodes leaf [("children", .arr []), ("parentId", .str "root")]) d :=
    augments_savedTwoNodes (.default (by simp [Part.defaults])
      (.mk [("id", .str "c"), ("sequent", leaf)] _ rfl))
  have hparent (parent : Value) : Augments .proof (savedTwoNodes leaf [("children", .arr [])])
      (savedTwoNodes leaf [("children", .arr []), ("parentId", parent)]) :=
    augments_savedTwoNodes (.derived (List.mem_singleton_self _)
      (.mk [("id", .str "c"), ("sequent", leaf), ("children", .arr [])] [] rfl))
  have hname : Augments .proof
      (savedTwoNodes leaf [("children", .arr []), ("parentId", .int 7)]) d' := by
    have hterm : Augments .term (.obj [("type", .str "Leaf")])
        (.obj [("type", .str "Leaf"), ("name", .int 0)]) :=
      .unread (by decide) (.mk [("type", .str "Leaf")] [] rfl)
    refine augments_savedTwoNodes (.inside (List.mem_singleton_self _) ?_
      (.mk [("id", .str "c")] _ rfl))
    refine .inside (List.mem_singleton_self _) ?_
      (.mk [("id", .str "s"), ("hypotheses", .arr [])] [] rfl)
    exact .inside List.mem_cons_self hterm (.mk [] [("rhs", (Term.leaf : Term).toValue)] rfl)
  have hchange : EqvGen (Augments .proof) d d' :=
    (EqvGen.symm _ _ (.rel _ _ hrule)).trans _ _ _
      ((EqvGen.symm _ _ (.rel _ _ (hparent (.str "root")))).trans _ _ _
        ((EqvGen.rel _ _ (hparent (.int 7))).trans _ _ _ (.rel _ _ hname)))
  exact ⟨⟨hd, hchange⟩, reading_ignores_additions d d' p hd hchange⟩

end Proof

end TreeCalculus
