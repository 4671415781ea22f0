import Dolang.Lib.Growing
import Dolang.Types.Node
import Mathlib.Data.List.Basic
import Mathlib.Data.List.Infix

/-!
# Layered databases

A database holds types and symbols, each numbered in the order in which it was first met. A sealed
database can be shared: it is then frozen, and a fork of it reads what it holds under the same
numbers and holds only what it lacks, numbered after it. A fork can be shared in turn, as a layer
over its base.

`Database.types`, `gradual` and `symbols` are the tables of a database as one list, its base's first.
What the lookups do layer by layer is a lookup in that list (`Database.ty_eq`, `typeId_eq`, `…`), and
adding to a database's own table appends to it.
-/

namespace Dolang.Types

open Growing

/-- Stub types that interning recognizes. -/
inductive Intrinsic where
  | union | keys | values | entries | indexItem | assignItem | insertItem | deletable | clearable
  | fields | mutFields | tuple | func | int | bool | sym | nil | str | type | value
  deriving DecidableEq, Repr

abbrev Intrinsics := Intrinsic → Option TypeId

structure Symbol where
  text : String
  /-- Interned apart from its text's, which no lookup finds. -/
  fresh : Bool
  deriving DecidableEq, Repr

/-- What interning reads of a declaration. -/
structure Declaration where
  resultKind : Kind
  deriving DecidableEq, Repr

/-- The tables of one layer. -/
structure Tables where
  types : List Ty := []
  /-- Whether each of the types contains `unknown`. -/
  gradual : List Bool := []
  symbols : List Symbol := []
  deriving DecidableEq, Repr

/-- The types that a database has from its creation. -/
structure Fixed where
  top : TypeId
  bottom : TypeId
  unknown : TypeId
  unknownSchema : TypeId
  deriving DecidableEq, Repr

/-- What the root of a chain of shared databases holds besides its tables. -/
structure Declared where
  declarations : List Declaration
  intrinsics : Intrinsics

/-- A frozen database. -/
inductive Shared where
  | root (tables : Tables) (fixed : Fixed) (unsupported : ℕ) (declared : Declared)
  | layer (parent : Shared) (tables : Tables) (fixed : Fixed) (unsupported : ℕ)

namespace Shared

def fixed : Shared → Fixed
  | root _ fixed _ _ | layer _ _ fixed _ => fixed

def unsupported : Shared → ℕ
  | root _ _ unsupported _ | layer _ _ _ unsupported => unsupported

def declared : Shared → Declared
  | root _ _ _ declared => declared
  | layer parent _ _ _ => parent.declared

/-- How many types it holds, its parent's included. -/
def typeCount : Shared → ℕ
  | root tables _ _ _ => tables.types.length
  | layer parent tables _ _ => parent.typeCount + tables.types.length

def symbolCount : Shared → ℕ
  | root tables _ _ _ => tables.symbols.length
  | layer parent tables _ _ => parent.symbolCount + tables.symbols.length

def ty : Shared → TypeId → Option Ty
  | root tables _ _ _, id => tables.types[id]?
  | layer parent tables _ _, id =>
      if id < parent.typeCount then parent.ty id else tables.types[id - parent.typeCount]?

def containsUnknown : Shared → TypeId → Option Bool
  | root tables _ _ _, id => tables.gradual[id]?
  | layer parent tables _ _, id =>
      if id < parent.typeCount then parent.containsUnknown id
      else tables.gradual[id - parent.typeCount]?

/-- The id of a type that it holds. -/
def typeId : Shared → Ty → Option TypeId
  | root tables _ _ _, ty => tables.types.idxOf? ty
  | layer parent tables _ _, ty =>
      (parent.typeId ty).or ((tables.types.idxOf? ty).map (parent.typeCount + ·))

def symbol : Shared → SymbolId → Option Symbol
  | root tables _ _ _, id => tables.symbols[id]?
  | layer parent tables _ _, id =>
      if id < parent.symbolCount then parent.symbol id
      else tables.symbols[id - parent.symbolCount]?

end Shared

/-- The position of the symbol that `text` was interned as. -/
def symbolIndex (symbols : List Symbol) (text : String) : Option ℕ :=
  symbols.idxOf? { text, fresh := false }

namespace Shared

def symbolId : Shared → String → Option SymbolId
  | root tables _ _ _, text => symbolIndex tables.symbols text
  | layer parent tables _ _, text =>
      (parent.symbolId text).or ((symbolIndex tables.symbols text).map (parent.symbolCount + ·))

end Shared

inductive Declarations where
  | building (slots : List (Option Declaration))
  | frozen (declarations : List Declaration)
  deriving DecidableEq, Repr

/-- `Declarations::get`, with `none` for an unpopulated slot. An id without a slot panics. -/
def Declarations.get : Declarations → DeclId → Option (Option Declaration)
  | building slots, id => slots[id]?
  | frozen declarations, id => declarations[id]?.map some

/-- What a database that is not a fork holds besides its tables. -/
structure Local where
  declarations : Declarations
  intrinsics : Intrinsics

inductive Phase where
  | own (l : Local)
  | fork (base : Shared)

structure Database where
  phase : Phase
  tables : Tables
  fixed : Fixed
  /-- How many unsupported stand-ins have been interned. -/
  unsupported : ℕ

namespace Database

/-- A new database. -/
def new : Database where
  phase := .own { declarations := .building [], intrinsics := fun _ => none }
  tables :=
    { types := [.top, .union [], .unknown .type, .unknown .schema]
      gradual := [false, false, true, true] }
  fixed := { top := 0, bottom := 1, unknown := 2, unknownSchema := 3 }
  unsupported := 0

/-- Freeze a sealed database, to be shared by forks. -/
def share (db : Database) : Option Shared :=
  match db.phase with
  | .own { declarations := .frozen declarations, intrinsics } =>
      some (.root db.tables db.fixed db.unsupported { declarations, intrinsics })
  | .own _ => none
  | .fork base => some (.layer base db.tables db.fixed db.unsupported)

/-- A database that reads what `base` holds. -/
def fork (base : Shared) : Database where
  phase := .fork base
  tables := {}
  fixed := base.fixed
  unsupported := base.unsupported

variable (db : Database)

def intrinsic (intrinsic : Intrinsic) : Option TypeId :=
  match db.phase with
  | .own l => l.intrinsics intrinsic
  | .fork base => base.declared.intrinsics intrinsic

def tryDeclaration (id : DeclId) : Option (Option Declaration) :=
  match db.phase with
  | .own l => l.declarations.get id
  | .fork base => base.declared.declarations[id]?.map some

/-- How many types its base holds. -/
def typeOffset : ℕ :=
  match db.phase with
  | .own _ => 0
  | .fork base => base.typeCount

def symbolOffset : ℕ :=
  match db.phase with
  | .own _ => 0
  | .fork base => base.symbolCount

def ty (id : TypeId) : Option Ty :=
  match db.phase with
  | .own _ => db.tables.types[id]?
  | .fork base =>
      if id < base.typeCount then base.ty id else db.tables.types[id - base.typeCount]?

def containsUnknown (id : TypeId) : Option Bool :=
  match db.phase with
  | .own _ => db.tables.gradual[id]?
  | .fork base =>
      if id < base.typeCount then base.containsUnknown id
      else db.tables.gradual[id - base.typeCount]?

def symbol (id : SymbolId) : Option Symbol :=
  match db.phase with
  | .own _ => db.tables.symbols[id]?
  | .fork base =>
      if id < base.symbolCount then base.symbol id
      else db.tables.symbols[id - base.symbolCount]?

/-- The id of a type in its own table, which then holds it. -/
def idOwned (types : List Ty) (ty : Ty) : ℕ × List Ty :=
  match types.idxOf? ty with
  | some i => (i, types)
  | none => (types.length, types ++ [ty])

end Database

abbrev Ty.isUnknown : Ty → Bool
  | .unknown _ => true
  | _ => false

namespace Database

/-- Intern into its own table, noting whether a new type contains `unknown`. The id is its own. -/
def insert (ty : Ty) : Comp Database ℕ := fun db =>
  let owned := idOwned db.tables.types ty
  let db' := { db with tables := { db.tables with types := owned.2 } }
  if owned.1 = db.tables.gradual.length then
    (ty.children.mapM fun child => db.containsUnknown child.1).map fun found =>
      (owned.1, { db' with tables := { db'.tables with
        gradual := db.tables.gradual ++ [ty.isUnknown || found.any fun b => b] } })
  else some (owned.1, db')

/-- The id of a type in normal form. -/
def place (ty : Ty) : Comp Database TypeId := fun db =>
  match db.phase with
  | .own _ => insert ty db
  | .fork base =>
      match base.typeId ty with
      | some id => some (id, db)
      | none => (insert ty db).map fun (id, db') => (base.typeCount + id, db')

def internSymbol (text : String) : Comp Database SymbolId := fun db =>
  let own := match symbolIndex db.tables.symbols text with
    | some i => (i, db)
    | none => (db.tables.symbols.length, { db with tables := { db.tables with
        symbols := db.tables.symbols ++ [{ text, fresh := false }] } })
  match db.phase with
  | .own _ => some own
  | .fork base =>
      match base.symbolId text with
      | some id => some (id, db)
      | none => some (base.symbolCount + own.1, own.2)

def freshSymbol (text : String) : Comp Database SymbolId := fun db =>
  some (db.symbolOffset + db.tables.symbols.length, { db with tables := { db.tables with
    symbols := db.tables.symbols ++ [{ text, fresh := true }] } })

end Database

/-! ### The tables as one list -/

namespace Shared

def types : Shared → List Ty
  | root tables _ _ _ => tables.types
  | layer parent tables _ _ => parent.types ++ tables.types

def gradual : Shared → List Bool
  | root tables _ _ _ => tables.gradual
  | layer parent tables _ _ => parent.gradual ++ tables.gradual

def symbols : Shared → List Symbol
  | root tables _ _ _ => tables.symbols
  | layer parent tables _ _ => parent.symbols ++ tables.symbols

/-- Every layer has noted of each of its types whether it contains `unknown`. -/
def Aligned : Shared → Prop
  | root tables _ _ _ => tables.gradual.length = tables.types.length
  | layer parent tables _ _ => parent.Aligned ∧ tables.gradual.length = tables.types.length

end Shared

/-- A lookup in one list after another. -/
theorem getElem?_append_ite {α : Type} (l l' : List α) (i : ℕ) :
    (l ++ l')[i]? = if i < l.length then l[i]? else l'[i - l.length]? := by
  split_ifs with h
  · exact List.getElem?_append_left h
  · exact List.getElem?_append_right (Nat.le_of_not_lt h)

theorem idxOf?_append {α : Type} [DecidableEq α] (l l' : List α) (a : α) :
    (l ++ l').idxOf? a = (l.idxOf? a).or ((l'.idxOf? a).map (l.length + ·)) := by
  induction l with
  | nil => simp
  | cons b l ih =>
    rw [List.cons_append, List.idxOf?_cons, List.idxOf?_cons, ih]
    split_ifs
    · rfl
    · cases l.idxOf? a with
      | some i => rfl
      | none =>
        rw [Option.map_none, Option.none_or, Option.none_or, Option.map_map]
        congr 1
        funext i
        simp only [Function.comp_apply, List.length_cons]
        omega

namespace Shared

variable (s : Shared)

theorem typeCount_eq : s.typeCount = s.types.length := by
  induction s with
  | root => rfl
  | layer parent tables _ _ ih => rw [typeCount, types, List.length_append, ih]

theorem symbolCount_eq : s.symbolCount = s.symbols.length := by
  induction s with
  | root => rfl
  | layer parent tables _ _ ih => rw [symbolCount, symbols, List.length_append, ih]

theorem ty_eq (id : TypeId) : s.ty id = s.types[id]? := by
  induction s with
  | root => rfl
  | layer parent tables _ _ ih => rw [ty, types, getElem?_append_ite, typeCount_eq, ih]

theorem symbol_eq (id : SymbolId) : s.symbol id = s.symbols[id]? := by
  induction s with
  | root => rfl
  | layer parent tables _ _ ih => rw [symbol, symbols, getElem?_append_ite, symbolCount_eq, ih]

theorem typeId_eq (ty : Ty) : s.typeId ty = s.types.idxOf? ty := by
  induction s with
  | root => rfl
  | layer parent tables _ _ ih => rw [typeId, types, idxOf?_append, typeCount_eq, ih]

theorem symbolId_eq (text : String) : s.symbolId text = symbolIndex s.symbols text := by
  induction s with
  | root => rfl
  | layer parent tables _ _ ih =>
    unfold symbolIndex at ih ⊢
    rw [symbolId, symbols, idxOf?_append, symbolCount_eq, ih]
    rfl

variable {s}

theorem Aligned.length (h : s.Aligned) : s.gradual.length = s.types.length := by
  induction s with
  | root => exact h
  | layer parent tables _ _ ih =>
    rw [gradual, types, List.length_append, List.length_append, ih h.1, h.2]

theorem Aligned.containsUnknown_eq (h : s.Aligned) (id : TypeId) :
    s.containsUnknown id = s.gradual[id]? := by
  induction s with
  | root => rfl
  | layer parent tables _ _ ih =>
    rw [containsUnknown, gradual, getElem?_append_ite, typeCount_eq, ih h.1, h.1.length]

end Shared

namespace Database

/-- What its base holds of a table. -/
def inherited {α : Type} (db : Database) (f : Shared → List α) : List α :=
  match db.phase with
  | .own _ => []
  | .fork base => f base

def types (db : Database) : List Ty :=
  db.inherited Shared.types ++ db.tables.types

def gradual (db : Database) : List Bool :=
  db.inherited Shared.gradual ++ db.tables.gradual

def symbols (db : Database) : List Symbol :=
  db.inherited Shared.symbols ++ db.tables.symbols

structure Aligned (db : Database) : Prop where
  own : db.tables.gradual.length = db.tables.types.length
  base : ∀ base, db.phase = .fork base → base.Aligned

variable (db : Database)

theorem ty_eq (id : TypeId) : db.ty id = db.types[id]? := by
  rw [ty, types, inherited, getElem?_append_ite]
  cases db.phase with
  | own l => rfl
  | fork base =>
    dsimp only
    rw [Shared.ty_eq, Shared.typeCount_eq]

theorem symbol_eq (id : SymbolId) : db.symbol id = db.symbols[id]? := by
  rw [symbol, symbols, inherited, getElem?_append_ite]
  cases db.phase with
  | own l => rfl
  | fork base =>
    dsimp only
    rw [Shared.symbol_eq, Shared.symbolCount_eq]

variable {db}

theorem Aligned.length (h : db.Aligned) : db.gradual.length = db.types.length := by
  rw [gradual, types, List.length_append, List.length_append, h.own, inherited, inherited]
  cases hp : db.phase with
  | own l => rfl
  | fork base =>
    dsimp only
    rw [(h.base base hp).length]

theorem Aligned.containsUnknown_eq (h : db.Aligned) (id : TypeId) :
    db.containsUnknown id = db.gradual[id]? := by
  rw [containsUnknown, gradual, inherited, getElem?_append_ite]
  cases hp : db.phase with
  | own l => rfl
  | fork base =>
    dsimp only
    rw [(h.base base hp).containsUnknown_eq, Shared.typeCount_eq, (h.base base hp).length]

end Database

end Dolang.Types
