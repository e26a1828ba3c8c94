import SwitchCoverage.Decl

/-!
# Drafts of catalogs

Declarations are collected in a draft.  Each gets the next position, and may refer
to positions that are filled only later, so a draft can be faulty: `Draft.fault?`
finds its first fault.  A draft without fault is what a catalog is made of.

## Main definitions

* `Draft` — the declarations collected so far.
* `Draft.add`, `Draft.declare` — the addition of a declaration.
* `Draft.patch?` — a later change to a declaration.
* `Amendment`, `Draft.amend?` — changes of the common kind, given as data.
* `Fault`, `Draft.fault?` — what can be wrong with a draft.
-/
namespace SwitchCoverage

/-- What can be wrong with a draft, or with a look-up. -/
inductive Fault where
  /-- A reference to a position that holds no declaration. -/
  | unknownDecl (id : DeclId)
  /-- A declaration that derives from itself. -/
  | selfDerived (name : String)
deriving DecidableEq, Repr, Inhabited

/-- The wording of a fault. -/
def Fault.message : Fault → String
  | .unknownDecl id => "reference to unknown type definition " ++ id.text
  | .selfDerived name => "type \x60" ++ name ++ "\x60 derives from itself"

/-- The first fault of a declaration that stands at `self` among `bound` declarations.
References are checked before derivation. -/
def Decl.fault? (bound : Nat) (self : DeclId) (d : Decl) : Option Fault :=
  match d.mentions.find? fun id => bound ≤ id.toNat with
  | some id => some (.unknownDecl id)
  | none => if d.base? = some self then some (.selfDerived d.name) else none

/-- A later change to a declaration.  What is left out stays as it is. -/
structure Amendment where
  /-- A new name. -/
  name : Option String := none
  /-- A constructor to add after the others. -/
  constructor : Option Constructor := none
  /-- A new supertype. -/
  supertype : Option Ty := none
  /-- A new container. -/
  container : Option DeclId := none
deriving Repr, Inhabited

/-- The declaration after a change. -/
def Decl.amend (a : Amendment) (d : Decl) : Decl where
  name := a.name.getD d.name
  typeParams := d.typeParams
  constructors := d.constructors ++ a.constructor.toList
  supertype := a.supertype.or d.supertype
  container := a.container.or d.container

/-- The declarations collected so far, by position. -/
structure Draft where
  /-- The declarations, in the order of their addition. -/
  decls : Array Decl := #[]
deriving Repr, Inhabited

namespace Draft

/-- The number of declarations. -/
def size (g : Draft) : Nat := g.decls.size

/-- The declaration at a position. -/
def decl? (g : Draft) (id : DeclId) : Option Decl := g.decls[id.toNat]?

/-- The declarations with their positions, in order. -/
def entries (g : Draft) : List (DeclId × Decl) :=
  g.decls.toList.zipIdx.map fun e => (.ofNat e.2, e.1)

/-- The position that the next added declaration gets. -/
def nextId (g : Draft) : DeclId := .ofNat g.size

/-- The draft with one more declaration. -/
def add (d : Decl) (g : Draft) : Draft := ⟨g.decls.push d⟩

/-- Adds a declaration and answers its position. -/
def declare (d : Decl) : StateM Draft DeclId :=
  modifyGet fun g => (g.nextId, g.add d)

/-- The draft after any change to one of its declarations, if there is such a one. -/
def patch? (id : DeclId) (change : Decl → Decl) (g : Draft) : Option Draft :=
  if id.toNat < g.size then some ⟨g.decls.modify id.toNat change⟩ else none

/-- The draft after an amendment to one of its declarations, if there is such a one. -/
def amend? (id : DeclId) (a : Amendment) (g : Draft) : Option Draft := g.patch? id (Decl.amend a)

/-- The last position that an identifier can name, which no catalog fills. -/
def lastId : DeclId := ⟨4294967295⟩

/-- The first fault of a draft, by position of the declarations.  Positions are 32-bit
words; a draft with more declarations than that has the last position at fault. -/
def fault? (g : Draft) : Option Fault :=
  if g.size < UInt32.size then g.entries.findSome? fun e => e.2.fault? g.size e.1
  else some (.unknownDecl lastId)

end Draft

end SwitchCoverage
