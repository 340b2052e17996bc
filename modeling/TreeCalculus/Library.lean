import TreeCalculus.Sequent
import TreeCalculus.Text.Quoted

/-!
Definitions and theorems that proofs may draw on.

A table of definitions says what the references stand for; a theorem is a sequent whose proof is
taken for granted. The prelude provides `K`, `False` and `I` with their characteristic equations.

* `Definitions`, `Term.unfoldAll`: replace every known reference, and the references in what
  replaces it, down to a given depth. Unknown references stay.
* `Theorem`, `findTheorem?`: theorems and their look-up by name.
* `Prelude.definitions`, `Prelude.statements`, `Prelude.theorems`: the built-in ones.
-/

namespace TreeCalculus

/-! ### Definitions -/

/-- What the references stand for. -/
abbrev Definitions (ν : Type := Text) := Table (Term ν) ν

/-- Definitions by texts, among those by names of another type. -/
def Definitions.embed {ν : Type} [Naming ν] (table : Definitions) : Definitions ν :=
  ⟨table.entries.map fun entry => (Naming.ofText entry.1, entry.2.embed)⟩

/-- Unfolding stops at a reference: its definition is nested more deeply than the bound allows, or
its name cannot be looked up. -/
structure UnfoldError (ν : Type := Text) where
  /-- The reference at which unfolding stopped. -/
  name : ν
  deriving DecidableEq

/-- The wording for a name of a kind that cannot be looked up. -/
def unhashableText (kind : Json.Value.Kind) : Text := "unhashable type: '" ++ kind.label ++ "'"

/-- The wording of a failed unfolding. -/
def UnfoldError.message {ν : Type} [Naming ν] (e : UnfoldError ν) : Text :=
  match Naming.unhashable? e.name with
  | some kind => unhashableText kind
  | none => "Definition " ++ Naming.quoted e.name ++ " nests too deeply"

namespace Term

variable {ν : Type}

/-- Replace every reference by what `f` makes of its name; the leftmost failure wins. -/
def replaceRefs {ε : Type} (f : ν → Except ε (Term ν)) : Term ν → Except ε (Term ν)
  | leaf => .ok leaf
  | var name => .ok (var name)
  | ref name => f name
  | app left right => do
      let left' ← left.replaceRefs f
      let right' ← right.replaceRefs f
      return app left' right'

variable [BEq ν] [Naming ν]

/-- What becomes of a reference: an unknown one stays, and `unfold` is applied to the definition
of a known one. -/
def unfoldRef (table : Definitions ν) (unfold : Term ν → Except (UnfoldError ν) (Term ν))
    (name : ν) : Except (UnfoldError ν) (Term ν) :=
  if (Naming.unhashable? name).isSome then .error ⟨name⟩
  else
    match table.find? name with
    | none => .ok (ref name)
    | some body => unfold body

/-- Unfold references through at most `depth` definitions inside one another. -/
def unfoldWithin (table : Definitions ν) :
    (depth : Nat) → Term ν → Except (UnfoldError ν) (Term ν)
  | 0, t => t.replaceRefs fun name => unfoldRef table (fun _ => .error ⟨name⟩) name
  | depth + 1, t => t.replaceRefs (unfoldRef table (unfoldWithin table depth))

/-- Unfold every known reference under a bound that may be any integer. -/
def unfoldAll (t : Term ν) (table : Definitions ν) (depth : Int) :
    Except (UnfoldError ν) (Term ν) :=
  t.unfoldWithin table depth.toNat

/-- The bound on the nesting of definitions where none is given. -/
def defaultDepth : Nat := 64

end Term

/-! ### Theorems -/

/-- A sequent taken for granted, under a name of its own. -/
structure Theorem where
  name : Text
  sequent : Sequent

/-- The first theorem of a library with a given name. -/
def findTheorem? (library : List Theorem) (name : Text) : Option Theorem :=
  library.find? (·.name == name)

/-! ### The prelude -/

namespace Prelude

/-- The built-in definitions. -/
def definitions : Definitions :=
  ⟨[("K", .stem .leaf),
    ("False", .stem (.stem (.ref "K"))),
    ("I", .app (.ref "False") (.ref "K"))]⟩

/-- The names and statements of the built-in theorems. -/
def statements : List (Text × Judgment) :=
  [("K Reduction",
    { goal := ⟨Term.apply (.ref "K") [.var "y", .var "z"], .var "y"⟩ }),
   ("False Reduction",
    { goal := ⟨Term.apply (.ref "False") [.var "y", .var "z"], .var "z"⟩ }),
   ("Identity (I)",
    { goal := ⟨Term.apply (.ref "I") [.var "x"], .var "x"⟩ })]

/-- The built-in theorems, their sequents named from a supply. -/
def theorems (supply : Supply) : List Theorem × Supply :=
  let issued := supply.issueAll (statements.map Prod.snd)
  ((statements.zip issued.1).map fun entry => ⟨entry.1.1, entry.2⟩, issued.2)

end Prelude

end TreeCalculus
