import Dolang.Lib.System
import Dolang.Types.Structure

/-!
# Runs of a database

A database comes from a new one by interning types and symbols, by sealing, and by sharing it and
forking what that gives. Other forks of the same base have tables of their own, so a run follows one
line of descent, through forks of forks. Declarations are populated and intrinsics designated before
any type with children is interned: interning reads them, and what it has normalized is not looked at
again.
-/

namespace Dolang.Types

open Growing Interner

namespace Database

inductive Action where
  | intern (fuel : ℕ) (node : Ty)
  | internSymbol (text : String)
  | freshSymbol (text : String)
  /-- Share the database and fork what that gives. -/
  | fork
  | seal
  /-- Change the declarations and intrinsics. -/
  | declare (l : Local)

def Next (db : Database) (action : Action) (db' : Database) : Prop :=
  match action with
  | .intern fuel node => ∃ id, Types.intern fuel node db = some (id, db')
  | .internSymbol text => ∃ id, internSymbol text db = some (id, db')
  | .freshSymbol text => ∃ id, freshSymbol text db = some (id, db')
  | .fork => ∃ base, db.share = some base ∧ db' = fork base
  | .seal => ∃ l declarations, db.phase = .own l ∧
      l.declarations = .building (declarations.map some) ∧
      db' = { db with phase := .own { l with declarations := .frozen declarations } }
  | .declare l' => ∃ l, db.phase = .own l ∧ (∀ node ∈ db.types, node.children = []) ∧
      db' = { db with phase := .own l' }

/-- The runs from a database. -/
def runs (db : Database) : System Database Action where
  start := (· = db)
  next := Next

/-- Whether an action leaves the declarations and intrinsics as they are. -/
def Action.Plain : Action → Prop
  | declare _ => False
  | _ => True

/-- A database that a new one can become. -/
abbrev Reachable (db : Database) : Prop :=
  (runs new).Reachable db

theorem Reachable.next {db db' : Database} {action : Action} (h : Reachable db)
    (hnext : Next db action db') : Reachable db' :=
  System.Run.step h trivial hnext

/-- What a database, or a fork below it, can become with its declarations and intrinsics as they are. -/
abbrev Later (db db' : Database) : Prop :=
  (runs db).Run (fun _ action => action.Plain) db'

/-! ### Symbols -/

/-- No text is interned twice. -/
def Named (symbols : List Symbol) : Prop :=
  ∀ (id id' : SymbolId) (text : String), symbols[id]? = some ⟨text, false⟩ →
    symbols[id']? = some ⟨text, false⟩ → id = id'

/-- A database with one symbol more. -/
def name (db : Database) (symbol : Symbol) : Database :=
  { db with tables := { db.tables with symbols := db.tables.symbols ++ [symbol] } }

variable {db db' : Database}

@[simp]
theorem symbols_name (db : Database) (symbol : Symbol) :
    (db.name symbol).symbols = db.symbols ++ [symbol] := by
  rw [symbols, symbols, List.append_assoc]
  rfl

theorem internSymbol_eq (db : Database) (text : String) :
    internSymbol text db = match symbolIndex db.symbols text with
      | some id => some (id, db)
      | none => some (db.symbols.length, db.name ⟨text, false⟩) := by
  obtain ⟨phase, tables, fixed, unsupported⟩ := db
  rw [internSymbol, symbols, inherited, symbolIndex, symbolIndex, idxOf?_append]
  cases phase with
  | own l =>
    dsimp only
    rw [List.idxOf?_nil, Option.none_or]
    cases List.idxOf? _ tables.symbols with
    | some i => simp
    | none => rfl
  | fork base =>
    dsimp only
    rw [Shared.symbolId_eq, symbolIndex, Shared.symbolCount_eq]
    cases List.idxOf? _ base.symbols with
    | some i => rfl
    | none =>
      rw [Option.none_or]
      cases List.idxOf? _ tables.symbols with
      | some i => rfl
      | none =>
        dsimp only
        rw [Option.map_none, List.length_append]
        rfl

theorem freshSymbol_eq (db : Database) (text : String) :
    freshSymbol text db = some (db.symbols.length, db.name ⟨text, true⟩) := by
  obtain ⟨phase, tables, fixed, unsupported⟩ := db
  rw [freshSymbol, symbolOffset, symbols, inherited, List.length_append]
  cases phase with
  | own l => rfl
  | fork base =>
    dsimp only
    rw [Shared.symbolCount_eq]
    rfl

theorem symbolIndex_some {symbols : List Symbol} {text : String} {id : SymbolId}
    (h : symbolIndex symbols text = some id) : symbols[id]? = some ⟨text, false⟩ := by
  rw [symbolIndex, List.idxOf?, List.findIdx?_eq_some_iff_getElem] at h
  obtain ⟨hlt, he, -⟩ := h
  rw [List.getElem?_eq_getElem hlt, eq_of_beq he]

theorem symbolIndex_none {symbols : List Symbol} {text : String}
    (h : symbolIndex symbols text = none) : ⟨text, false⟩ ∉ symbols := by
  rw [symbolIndex, List.idxOf?, List.findIdx?_eq_none_iff] at h
  exact fun hm => absurd (h _ hm) (by simp)

/-- A symbol that is fresh, or whose text is not there, is put beside the others. -/
theorem Named.concat {symbols : List Symbol} (h : Named symbols) {symbol : Symbol}
    (hs : symbol.fresh = false → symbol ∉ symbols) : Named (symbols ++ [symbol]) := by
  have hnew : ∀ {id : SymbolId} {text}, symbols[id]? = some ⟨text, false⟩ → symbol ≠ ⟨text, false⟩ := by
    rintro id text hid rfl
    exact hs rfl (List.mem_of_getElem? hid)
  intro id id' text hid hid'
  obtain hid | ⟨rfl, he⟩ := getElem?_concat.mp hid
  · obtain hid' | ⟨-, he'⟩ := getElem?_concat.mp hid'
    · exact h id id' text hid hid'
    · exact absurd he' (hnew hid)
  · obtain hid' | ⟨rfl, -⟩ := getElem?_concat.mp hid'
    · exact absurd he (hnew hid')
    · rfl

/-! ### What every step keeps -/

/-- What always holds of a database. -/
structure Good (db : Database) : Prop where
  kept : Kept db
  named : Named db.symbols

theorem le_name (db : Database) (symbol : Symbol) : db ≤ db.name symbol where
  types := List.prefix_rfl
  gradual := List.prefix_rfl
  symbols := by rw [symbols_name]; exact List.prefix_append _ _
  intrinsic := rfl
  tryDeclaration := rfl
  fixed := rfl

theorem Good.name (h : Good db) {symbol : Symbol} (hs : symbol.fresh = false → symbol ∉ db.symbols) :
    Good (db.name symbol) where
  kept := h.kept.of_le (le_name db symbol) rfl rfl
    ⟨h.kept.sound.aligned.own, h.kept.sound.aligned.base⟩
  named := by rw [symbols_name]; exact h.named.concat hs

/-- What sharing a database gives holds what the database did. -/
theorem share_eq {base : Shared} (h : db.share = some base) :
    base.types = db.types ∧ base.gradual = db.gradual ∧ base.symbols = db.symbols ∧
      base.fixed = db.fixed := by
  obtain ⟨phase, tables, fixed, unsupported⟩ := db
  cases phase with
  | own l =>
    obtain ⟨declarations, intrinsics⟩ := l
    cases declarations with
    | building slots => cases h
    | frozen declarations =>
      obtain rfl := Option.some.inj h
      exact ⟨rfl, rfl, rfl, rfl⟩
  | fork parent =>
    obtain rfl := Option.some.inj h
    exact ⟨rfl, rfl, rfl, rfl⟩

theorem share_aligned {base : Shared} (hdb : db.Aligned) (h : db.share = some base) :
    base.Aligned := by
  obtain ⟨phase, tables, fixed, unsupported⟩ := db
  cases phase with
  | own l =>
    obtain ⟨declarations, intrinsics⟩ := l
    cases declarations with
    | building slots => cases h
    | frozen declarations =>
      obtain rfl := Option.some.inj h
      exact hdb.own
  | fork parent =>
    obtain rfl := Option.some.inj h
    exact ⟨hdb.base parent rfl, hdb.own⟩

theorem types_fork (base : Shared) : (fork base).types = base.types :=
  List.append_nil _

theorem gradual_fork (base : Shared) : (fork base).gradual = base.gradual :=
  List.append_nil _

theorem symbols_fork (base : Shared) : (fork base).symbols = base.symbols :=
  List.append_nil _

theorem le_fork {base : Shared} (h : db.share = some base) : db ≤ fork base := by
  obtain ⟨htypes, hgradual, hsymbols, hfixed⟩ := share_eq h
  refine ⟨?_, ?_, ?_, ?_, ?_, hfixed⟩
  · rw [types_fork, htypes]
  · rw [gradual_fork, hgradual]
  · rw [symbols_fork, hsymbols]
  all_goals
    obtain ⟨phase, tables, fixed, unsupported⟩ := db
    cases phase with
    | own l =>
      obtain ⟨declarations, intrinsics⟩ := l
      cases declarations with
      | building slots => cases h
      | frozen declarations =>
        obtain rfl := Option.some.inj h
        rfl
    | fork parent =>
      obtain rfl := Option.some.inj h
      rfl

theorem Good.fork {base : Shared} (h : Good db) (hs : db.share = some base) :
    Good (fork base) where
  kept := by
    obtain ⟨htypes, hgradual, -⟩ := share_eq hs
    refine h.kept.of_le (le_fork hs) ((types_fork base).trans htypes)
      ((gradual_fork base).trans hgradual) ⟨rfl, fun base' hb => ?_⟩
    obtain rfl := Phase.fork.inj hb
    exact share_aligned h.kept.sound.aligned hs
  named := by
    rw [symbols_fork, (share_eq hs).2.2.1]
    exact h.named

/-- Types without children are in normal form whatever the declarations and intrinsics are. -/
theorem normal_leaf {node : Ty} (hn : node.children = []) : Normal db node := by
  cases node with
  | union members =>
    cases members with
    | nil =>
      refine ⟨fun m hm => absurd hm List.not_mem_nil, ⟨List.Pairwise.nil, fun m => ?_⟩, nofun⟩
      simp
    | cons member members => cases hn
  | apply base args kind => cases hn
  | quantified binders body => cases (List.append_eq_nil_iff.mp hn).2
  | map packs pattern => cases (List.append_eq_nil_iff.mp hn).2
  | restricted target restriction => cases hn
  | fields target access => cases hn
  | _ => trivial

theorem flat_leaf {node : Ty} (hn : node.children = []) : Flat node db := by
  rintro members rfl
  cases members with
  | nil => exact fun id hid => absurd hid List.not_mem_nil
  | cons member members => cases hn

theorem good_new : Good new where
  kept := {
    sound := {
      aligned := ⟨rfl, fun base hb => nomatch hb⟩
      nodup := by decide
      descend := by
        intro id node hid child hc
        have hn : ∀ node ∈ new.types, node.children = [] := by decide
        rw [hn node (List.mem_of_getElem? hid)] at hc
        exact absurd hc List.not_mem_nil
      gradual := by
        intro id node hid
        obtain ⟨hlt, rfl⟩ := List.getElem?_eq_some_iff.mp hid
        revert id
        decide
      flat := by
        intro id node hid
        have hn : ∀ node ∈ new.types, node.children = [] := by decide
        exact flat_leaf (hn node (List.mem_of_getElem? hid))
      top := rfl
      unknown := rfl }
    settled := by
      intro id node hid
      have hn : ∀ node ∈ new.types, node.children = [] := by decide
      exact normal_leaf (hn node (List.mem_of_getElem? hid)) }
  named := fun id _ text hid _ => by cases hid

/-- Declaring leaves what has no children as it is. -/
theorem Good.declare (h : Good db) {l l' : Local} (hl : db.phase = .own l)
    (hn : ∀ node ∈ db.types, node.children = []) : Good { db with phase := .own l' } := by
  obtain ⟨phase, tables, fixed, unsupported⟩ := db
  obtain rfl : phase = .own l := hl
  have hsound := h.kept.sound
  refine ⟨⟨⟨⟨hsound.aligned.own, fun base hb => nomatch hb⟩, hsound.nodup, hsound.descend,
    hsound.gradual, fun id node hid => ?_, hsound.top, hsound.unknown⟩, fun id node hid => ?_⟩,
    h.named⟩
  · exact flat_leaf (hn node (List.mem_of_getElem? hid))
  · exact normal_leaf (hn node (List.mem_of_getElem? hid))

theorem le_seal {l : Local} {declarations : List Declaration} (hl : db.phase = .own l)
    (hd : l.declarations = .building (declarations.map some)) :
    db ≤ { db with phase := .own { l with declarations := .frozen declarations } } := by
  obtain ⟨phase, tables, fixed, unsupported⟩ := db
  obtain rfl : phase = .own l := hl
  refine ⟨List.prefix_rfl, List.prefix_rfl, List.prefix_rfl, rfl, ?_, rfl⟩
  funext id
  show Option.map some declarations[id]? = l.declarations.get id
  rw [hd, Declarations.get, List.getElem?_map]

/-- Interning keeps what always holds. -/
theorem invariant_good : Invariant Good fun node db => Normal db node where
  sound h := h.kept.sound
  stored h hid := h.kept.settled _ _ hid
  formed h hf := hf.normal h.kept
  place node := by
    intro db id db' h hn hp
    obtain ⟨hkept, hle, hid, hp', hreplay⟩ := replays_place_kept node db id db' h.kept hn hp
    refine ⟨⟨hkept, ?_⟩, hle, hid, hp', fun u hu => hreplay u hu.kept⟩
    obtain rfl | ⟨-, hsymbols⟩ := place_types h.kept.sound.aligned hp
    · exact h.named
    · rw [hsymbols]
      exact h.named
  project member hk hn h := (replays_found (fun h => h.kept.sound) h
    (settles_project (fun ty => settles_intern invariant_sound hk ty) hn member)).post
      fun _ _ _ hq => ⟨_, _, hq⟩
  reduce packs pattern hk hn h := (replays_found (fun h => h.kept.sound) h
    (replays_reduceMap (fun ty => settles_intern invariant_sound hk ty) hn packs pattern).steady).post
      fun _ _ _ hq => ⟨_, _, hq⟩

theorem Next.good {action : Action} (h : Good db) (hnext : Next db action db') : Good db' := by
  cases action with
  | intern fuel node =>
    obtain ⟨id, hid⟩ := hnext
    exact (settles_intern invariant_good (le_refl fuel) node db id db' h trivial hid).1
  | internSymbol text =>
    obtain ⟨id, hid⟩ := hnext
    rw [internSymbol_eq] at hid
    cases hi : symbolIndex db.symbols text with
    | some i =>
      rw [hi] at hid
      obtain ⟨-, rfl⟩ := Prod.mk.inj (Option.some.inj hid)
      exact h
    | none =>
      rw [hi] at hid
      obtain ⟨-, rfl⟩ := Prod.mk.inj (Option.some.inj hid)
      exact h.name fun _ => symbolIndex_none hi
  | freshSymbol text =>
    obtain ⟨id, hid⟩ := hnext
    rw [freshSymbol_eq] at hid
    obtain ⟨-, rfl⟩ := Prod.mk.inj (Option.some.inj hid)
    exact h.name nofun
  | fork =>
    obtain ⟨base, hs, rfl⟩ := hnext
    exact h.fork hs
  | «seal» =>
    obtain ⟨l, declarations, hl, hd, rfl⟩ := hnext
    have hle := le_seal hl hd
    obtain ⟨phase, tables, fixed, unsupported⟩ := db
    obtain rfl : phase = .own l := hl
    exact ⟨h.kept.of_le hle rfl rfl ⟨h.kept.sound.aligned.own, nofun⟩, h.named⟩
  | declare l' =>
    obtain ⟨l, hl, hn, rfl⟩ := hnext
    exact h.declare hl hn

theorem Next.le {action : Action} (h : Good db) (hp : action.Plain) (hnext : Next db action db') :
    db ≤ db' := by
  cases action with
  | intern fuel node =>
    obtain ⟨id, hid⟩ := hnext
    exact (settles_intern invariant_good (le_refl fuel) node db id db' h trivial hid).2.1
  | internSymbol text =>
    obtain ⟨id, hid⟩ := hnext
    rw [internSymbol_eq] at hid
    cases hi : symbolIndex db.symbols text with
    | some i =>
      rw [hi] at hid
      obtain ⟨-, rfl⟩ := Prod.mk.inj (Option.some.inj hid)
      exact le_rfl
    | none =>
      rw [hi] at hid
      obtain ⟨-, rfl⟩ := Prod.mk.inj (Option.some.inj hid)
      exact le_name db _
  | freshSymbol text =>
    obtain ⟨id, hid⟩ := hnext
    rw [freshSymbol_eq] at hid
    obtain ⟨-, rfl⟩ := Prod.mk.inj (Option.some.inj hid)
    exact le_name db _
  | fork =>
    obtain ⟨base, hs, rfl⟩ := hnext
    exact le_fork hs
  | «seal» =>
    obtain ⟨l, declarations, hl, hd, rfl⟩ := hnext
    exact le_seal hl hd
  | declare l' => exact hp.elim

theorem Reachable.good (h : Reachable db) : Good db :=
  h.invariant (fun _ hs => hs ▸ good_new) fun _ _ _ hgood _ hnext => hnext.good hgood

theorem Later.good (h : Later db db') (hdb : Good db) : Good db' :=
  h.invariant (fun _ hs => hs ▸ hdb) fun _ _ _ hgood _ hnext => hnext.good hgood

theorem Later.le (h : Later db db') (hdb : Good db) : db ≤ db' := by
  have hboth : Good db' ∧ db ≤ db' := by
    refine h.invariant (I := fun t => Good t ∧ db ≤ t) ?_ fun s a t hs hp hnext => ?_
    · rintro s rfl
      exact ⟨hdb, le_rfl⟩
    · exact ⟨hnext.good hs.1, hs.2.trans (hnext.le hs.1 hp)⟩
  exact hboth.2

end Database

end Dolang.Types
