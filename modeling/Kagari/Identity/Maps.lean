import Kagari.Identity.Builder

/-!
# Definition maps

`kagari-common/src/identity/map.rs`: records under the definitions of a context, which is a builder that
clones share. The entries of another map are reached through an import into this map's context.

The contexts are the builders of a process; a map names its own. A method that fails after it has changed
its receiver keeps the change.
-/

namespace Kagari.Identity

open Lib Stateful TableData List Option

structure DefinitionMap (T : Type) where
  context : Nat
  entries : List (DefinitionId × T)
deriving DecidableEq

variable {T : Type}

/-- A method of a context, and the process after it. -/
def Process.onContext {α : Type} (p : Process) (context : Nat) (m : Nat → TableM α) :
    Except DefinitionTableError α × Process :=
  match p.builders[context]? with
  | some b =>
    let (result, b) := b.run (m b.id)
    (result, { p with builders := p.builders.set context b })
  | none => (.error .foreignTable, p)

/-- `DefinitionContext::snapshot`. -/
def Process.snapshot (p : Process) (context : Nat) : DefinitionTable :=
  match p.builders[context]? with
  | some b => b.freeze
  | none => ⟨0, .empty⟩

namespace DefinitionMap

def ids (map : DefinitionMap T) : List DefinitionId := map.entries.map Prod.fst

def get (p : Process) (map : DefinitionMap T) (path : DefinitionPath) : Option T := do
  let id ← (p.snapshot map.context).lookup path
  map.entries.lookup id

def insertId (p : Process) (map : DefinitionMap T) (id : DefinitionId) (value : T) :
    Except DefinitionTableError (Option T) × DefinitionMap T :=
  match (p.snapshot map.context).resolve id with
  | .error e => (.error e, map)
  | .ok _ => (.ok (map.entries.lookup id), { map with entries := SortedMap.insert id value map.entries })

def insert (p : Process) (map : DefinitionMap T) (path : DefinitionPath) (value : T) :
    Except DefinitionTableError (Option T) × DefinitionMap T × Process :=
  match p.onContext map.context fun table => internPath table path with
  | (.error e, p) => (.error e, map, p)
  | (.ok id, p) =>
    let (result, map) := map.insertId p id value
    (result, map, p)

def retainIds (map : DefinitionMap T) (keep : DefinitionId → T → Bool) : DefinitionMap T :=
  { map with entries := map.entries.filter fun entry => keep entry.1 entry.2 }

def remapFrom (p : Process) (map source : DefinitionMap T) : Except DefinitionTableError DefinitionRemap × Process :=
  p.onContext map.context fun table => importFrom table (p.snapshot source.context) source.ids

variable [DecidableEq T]

/-- The first loop of `merge`. -/
def agrees (mapping : DefinitionRemap) (entries : List (DefinitionId × T)) :
    List (DefinitionId × T) → Except DefinitionTableError Bool
  | [] => .ok true
  | (id, value) :: rest => do
    let id ← mapping.map id
    if (entries.lookup id).any (· ≠ value) then return false
    else agrees mapping entries rest

omit [DecidableEq T] in
/-- The second loop, which stops where it fails. -/
def insertMissing (mapping : DefinitionRemap) :
    List (DefinitionId × T) → List (DefinitionId × T) → Except DefinitionTableError Bool × List (DefinitionId × T)
  | [], entries => (.ok true, entries)
  | (id, value) :: rest, entries =>
    match mapping.map id with
    | .error e => (.error e, entries)
    | .ok id =>
      insertMissing mapping rest
        (if (entries.lookup id).isSome then entries else SortedMap.insert id value entries)

def merge (p : Process) (map source : DefinitionMap T) :
    Except DefinitionTableError Bool × DefinitionMap T × Process :=
  match map.remapFrom p source with
  | (.error e, p) => (.error e, map, p)
  | (.ok mapping, p) =>
    match agrees mapping map.entries source.entries with
    | .error e => (.error e, map, p)
    | .ok false => (.ok false, map, p)
    | .ok true =>
      let (result, entries) := insertMissing mapping source.entries map.entries
      (result, { map with entries }, p)

/-- The loop of `is_subset_of`. -/
def included (mapping : DefinitionRemap) (target : List (DefinitionId × T)) :
    List (DefinitionId × T) → Except DefinitionTableError Bool
  | [] => .ok true
  | (id, value) :: rest => do
    let id ← mapping.map id
    if target.lookup id ≠ some value then return false
    else included mapping target rest

def isSubsetOf (p : Process) (map target : DefinitionMap T) : Except DefinitionTableError Bool × Process :=
  match target.remapFrom p map with
  | (.error e, p) => (.error e, p)
  | (.ok mapping, p) => (included mapping target.entries map.entries, p)

end DefinitionMap

/-! ## A second import -/

variable {d : TableData} {table : Nat}

variable {entries : List (Option DefinitionId)} {id : DefinitionId} {index : Nat}
  {path : DefinitionPath} {source : DefinitionTable} {b : DefinitionTableBuilder}
  (rest : List (DefinitionId × T))

/-- A node whose path is in the table already. -/
theorem exec_importNode_old (hd : Valid d)
    (hs : Source table source d) (hm : Mapped table source.data entries d)
    (hpath : PathAt source.data index path) (hid : Means table d id path)
    (hpar : ∀ parent kind name occurrence, source.data.nodes[index]? = some (.child parent kind name occurrence) →
      ∃ id, entries[parent]? = some (some id)) :
    exec (importNode table source entries index) d = (.ok id, d) := by
  unfold importNode
  split
  · rename_i hown
    have hmn : Means table d ⟨table, index⟩ path := ⟨rfl, hpath.extend (hs.own hown)⟩
    rw [exec_bind_ok (exec_checked_ok (validateId_ok.mpr ⟨rfl, hmn.2.lt⟩)), hid.injective hd hmn]
    rfl
  · cases hpath with
    | root hi hmod =>
      rename_i k m
      rw [hi]
      dsimp only
      rw [getD_eq_getElem?_getD, hmod]
      exact exec_internRoot_old hd hid
    | @child i parent name occurrence kind text m path hi hname hbelow =>
      obtain ⟨id', hid'⟩ := hpar parent kind name occurrence hi
      rw [hi]
      dsimp only
      rw [hid']
      dsimp only
      rw [getD_eq_getElem?_getD, hname]
      exact exec_internChild_old ⟨kind, text, occurrence⟩ hd (hm.path parent id' _ hid' hbelow) hid

/-- The path of a node is in the table. -/
def Present (table : Nat) (source d : TableData) (index : Nat) : Prop :=
  ∃ id path, PathAt source index path ∧ Means table d id path

theorem Present.parent {source : TableData} {index parent name occurrence : Nat} {kind : DefinitionKind}
    (h : Present table source d index) (hi : source.nodes[index]? = some (.child parent kind name occurrence)) :
    Present table source d parent := by
  obtain ⟨id, path, hpath, hid⟩ := h
  cases hpath with
  | root hi' _ =>
    rw [hi] at hi'
    cases hi'
  | child hi' hname hbelow =>
    rw [hi] at hi'
    obtain ⟨rfl, -, -, -⟩ := Node.child.inj (some.inj hi')
    obtain ⟨id', hid'⟩ := hid.take _
    exact ⟨id', _, hbelow, hid'⟩

/-- Further entries are mapped, and those that were stay so. -/
structure Further (table : Nat) (source d : TableData) (entries entries' : List (Option DefinitionId)) : Prop where
  mapped : Mapped table source entries' d
  keeps : ∀ k : Nat, (∃ id, entries[k]? = some (some id)) → ∃ id, entries'[k]? = some (some id)

theorem Further.set {source : TableData} {entries entries' : List (Option DefinitionId)}
    (h : Further table source d entries entries')
    (hid : ∀ path, PathAt source index path → Means table d id path) :
    Further table source d entries (entries'.set index (some id)) := by
  refine ⟨h.mapped.set hid, fun k hk => ?_⟩
  obtain ⟨id', hid'⟩ := h.keeps k hk
  rw [List.getElem?_set]
  split
  · rename_i heq
    subst heq
    exact ⟨id, if_pos (List.getElem?_eq_some_iff.mp hid').1⟩
  · exact ⟨id', hid'⟩

/-- The pending nodes of one whose path is in the table are mapped without a change. -/
theorem exec_importNodes_old (hd : Valid d) (hs : Source table source d)
    (hm : Mapped table source.data entries d) : ∀ (fuel : Nat) {index : Nat}
      (pending : List Nat), index < fuel → Present table source.data d index →
      ∃ entries', Further table source.data d entries entries' ∧ (∃ id, entries'[index]? = some (some id)) ∧
        exec (importNodes table source (pendingLoop source.data entries fuel index pending) entries) d =
          exec (importNodes table source pending entries') d := by
  intro fuel
  induction fuel with
  | zero => exact fun _ h => absurd h (Nat.not_lt_zero _)
  | succ fuel ih =>
    intro index pending hfuel hpres
    obtain ⟨id, path, hpath, hid⟩ := hpres
    have hlt : index < entries.length := hm.length ▸ hpath.lt
    obtain ⟨entry, hent⟩ : ∃ entry, entries[index]? = some entry := ⟨_, getElem?_eq_getElem hlt⟩
    have huniq (path' : DefinitionPath) (hpath' : PathAt source.data index path') : Means table d id path' := by
      rw [hpath'.functional hpath]
      exact hid
    unfold pendingLoop
    rw [hent]
    cases entry with
    | some mapped => exact ⟨entries, ⟨hm, fun _ h => h⟩, ⟨mapped, hent⟩, rfl⟩
    | none =>
      have hnode : ∃ node, source.data.nodes[index]? = some node := ⟨_, getElem?_eq_getElem hpath.lt⟩
      obtain ⟨node, hnode⟩ := hnode
      -- The node itself, after what stands before it.
      have hlast {entries' : List (Option DefinitionId)} (h' : Further table source.data d entries entries')
          (hpar : ∀ parent kind name occurrence,
            source.data.nodes[index]? = some (.child parent kind name occurrence) →
              ∃ id, entries'[parent]? = some (some id)) :
          ∃ entries'', Further table source.data d entries entries'' ∧ (∃ id, entries''[index]? = some (some id)) ∧
            exec (importNodes table source (index :: pending) entries') d =
              exec (importNodes table source pending entries'') d := by
        refine ⟨entries'.set index (some id), h'.set huniq, ⟨id, getElem?_set_self ?_⟩, ?_⟩
        · rw [h'.mapped.length]
          exact hpath.lt
        · exact exec_bind_ok (exec_importNode_old hd hs h'.mapped hpath hid hpar)
      dsimp only
      rw [hnode]
      cases node with
      | root k => exact hlast ⟨hm, fun _ h => h⟩ (fun _ _ _ _ h => by rw [hnode] at h; cases h)
      | child parent kind name occurrence =>
        obtain ⟨hless, -⟩ := hs.valid.core.child index parent kind name occurrence hnode
        obtain ⟨entries', h', hmapped, hrun⟩ := ih (index :: pending) (by omega)
          (.parent ⟨id, path, hpath, hid⟩ hnode)
        obtain ⟨entries'', h'', hmapped', hrun'⟩ := hlast h' (by
          rintro parent' kind' name' occurrence' h
          rw [hnode] at h
          obtain ⟨rfl, -⟩ := Node.child.inj (some.inj h)
          exact hmapped)
        exact ⟨entries'', h'', hmapped', hrun.trans hrun'⟩

theorem exec_importIds_old (hd : Valid d) (hs : Source table source d)
    (ids : List DefinitionId) : ∀ {entries : List (Option DefinitionId)}, Mapped table source.data entries d →
      (∀ id ∈ ids, id.table = source.id ∧ Present table source.data d id.index) →
      ∃ entries', exec (importIds table source ids entries) d = (.ok entries', d) := by
  induction ids with
  | nil => exact fun _ _ => ⟨_, rfl⟩
  | cons id ids ih =>
    intro entries hm hids
    obtain ⟨⟨htab, hpres⟩, hrest⟩ := forall_mem_cons.mp hids
    obtain ⟨entries', h', -, hrun⟩ := exec_importNodes_old hd hs hm (id.index + 1) [] (Nat.lt_succ_self _) hpres
    obtain ⟨entries'', hrun'⟩ := ih h'.mapped hrest
    refine ⟨entries'', ?_⟩
    obtain ⟨-, path, hpath, -⟩ := hpres
    unfold importIds
    rw [exec_bind_ok (exec_checked_ok (validateId_ok.mpr ⟨htab, hpath.lt⟩)), exec_bind_ok hrun]
    exact hrun'

/-- The import of definitions whose paths are in the table succeeds and changes nothing. -/
theorem exec_importFrom_old (hd : Valid d) (hs : Source table source d)
    {ids : List DefinitionId} (hids : ∀ id ∈ ids, id.table = source.id ∧ Present table source.data d id.index) :
    ∃ mapping, exec (importFrom table source ids) d = (.ok mapping, d) := by
  have hemp : Mapped table source.data (List.replicate source.data.nodes.length none) d := by
    refine ⟨length_replicate, fun k id path hk => ?_⟩
    rw [getElem?_replicate] at hk
    split at hk <;> cases hk
  obtain ⟨entries, hrun⟩ := exec_importIds_old hd hs ids hemp hids
  refine ⟨_, exec_bind_ok hrun⟩

/-! ## Contexts -/

namespace Process

/-- Contexts stay in their places, with what they hold. -/
def Keeps (p p' : Process) : Prop :=
  ∀ (k : Nat) b, p.builders[k]? = some b → ∃ b', p'.builders[k]? = some b' ∧ b'.id = b.id ∧ Extends b.data b'.data

theorem Keeps.refl (p : Process) : Keeps p p := fun _ b hb => ⟨b, hb, rfl, Std.Refl.refl _⟩

theorem keeps_method {α : Type} {p : Process} (k : Nat) (m : Nat → TableM α)
    (hm : ∀ b ∈ p.builders, ∃ P, Grows Valid Extends (m b.id) b.data P) : Keeps p (p.method k m) := by
  intro i b hb
  have hget : (p.method k m).builders[i]? = (p.builders[i]?).map fun b =>
      if k = i then (b.run (m b.id)).2 else b := getElem?_modify ..
  rw [hget, hb]
  refine ⟨_, rfl, ?_⟩
  split
  · obtain ⟨P, hP⟩ := hm b (mem_of_getElem? hb)
    exact ⟨rfl, hP.grows⟩
  · exact ⟨rfl, Std.Refl.refl _⟩

theorem keeps_append {p : Process} (next : Nat) (builders : List DefinitionTableBuilder)
    (tables : List DefinitionTable) :
    Keeps p { p with next := next, builders := p.builders ++ builders, tables := tables } := by
  intro k b hb
  refine ⟨b, ?_, rfl, Std.Refl.refl _⟩
  exact (List.getElem?_append_left (List.getElem?_eq_some_iff.mp hb).1).trans hb

variable {p : Process}

theorem onContext_eq {α : Type} {k : Nat} (hb : p.builders[k]? = some b)
    (m : Nat → TableM α) : p.onContext k m = ((b.run (m b.id)).1, p.method k m) := by
  unfold onContext Process.method
  rw [hb]
  dsimp only
  congr 2
  apply List.ext_getElem?
  intro i
  rw [List.getElem?_set, List.getElem?_modify]
  split
  · rename_i heq
    subst heq
    rw [hb, if_pos (List.getElem?_eq_some_iff.mp hb).1]
    simp
  · cases p.builders[i]? <;> simp [*]

theorem snapshot_eq {k : Nat} (hb : p.builders[k]? = some b) : p.snapshot k = b.freeze := by
  unfold snapshot
  rw [hb]

/-- A context reads the snapshot of another one. -/
theorem Consistent.between (h : p.Consistent) {k k' : Nat} {b b' : DefinitionTableBuilder}
    (hb : p.builders[k]? = some b) (hb' : p.builders[k']? = some b') : Source b.id b'.freeze b.data := by
  have hmem := mem_of_getElem? hb
  have hmem' := mem_of_getElem? hb'
  refine ⟨(h.valid b' hmem').1, fun hown => ?_⟩
  rw [show b' = b from inj_on_of_nodup_map h.nodup hmem' hmem hown]
  exact Std.Refl.refl _

end Process

/-! ## Maps of a process -/

namespace DefinitionMap

variable {p p' : Process} {map source : DefinitionMap T}

/-- The entries stand under definitions of the map's context. -/
structure Owned (p : Process) (map : DefinitionMap T) : Prop where
  context : ∃ b, p.builders[map.context]? = some b ∧ ∀ id ∈ map.ids, ∃ path, Means b.id b.data id path
  keyed : SortedMap.Keyed map.entries

theorem Owned.keeps (h : Owned p map) (hp : p.Keeps p') : Owned p' map := by
  obtain ⟨b, hb, hids⟩ := h.context
  obtain ⟨b', hb', hid, hgr⟩ := hp _ b hb
  refine ⟨⟨b', hb', fun id hmem => ?_⟩, h.keyed⟩
  obtain ⟨path, hmn⟩ := hids id hmem
  exact ⟨path, hid ▸ hmn.extend hgr⟩

theorem mem_ids {value : T} (h : SortedMap.Keyed map.entries)
    (hval : map.entries.lookup id = some value) : id ∈ map.ids :=
  mem_map.mpr ⟨_, (SortedMap.lookup_iff h).mp hval, rfl⟩

/-- What a map has under a path. -/
theorem get_iff (hp : p.Consistent) (hb : p.builders[map.context]? = some b)
    {value : T} : map.get p path = some value ↔
      ∃ id, Means b.id b.data id path ∧ map.entries.lookup id = some value := by
  have hvld := (hp.valid b (mem_of_getElem? hb)).1
  unfold get
  rw [Process.snapshot_eq hb, bind_eq_bind, bind_eq_some_iff]
  exact exists_congr fun id => and_congr_left fun _ => DefinitionTable.lookup_iff hvld

/-- Growing contexts do not change what a map has. -/
theorem Owned.get_eq (h : Owned p map) (hp : p.Consistent) (hp' : p'.Consistent) (hkp : p.Keeps p')
    (path : DefinitionPath) : map.get p' path = map.get p path := by
  obtain ⟨b, hb, hids⟩ := h.context
  obtain ⟨b', hb', hid, hgr⟩ := hkp _ b hb
  refine Option.ext fun value => ?_
  rw [get_iff hp hb, get_iff hp' hb']
  refine exists_congr fun id => and_congr_left fun hval => ?_
  obtain ⟨path', hmn⟩ := hids id (mem_ids h.keyed hval)
  have hmn' : Means b'.id b'.data id path' := hid ▸ hmn.extend hgr
  constructor
  · intro hpath
    obtain rfl := hpath.2.functional hmn'.2
    exact hmn
  · intro hpath
    obtain rfl := hpath.2.functional hmn.2
    exact hmn'

/-- What `remap_from` does: contexts grow, and the definitions of the other map have those of the same
paths in this map's context. -/
theorem remapFrom_spec (hp : p.Consistent) (hmap : Owned p map) (hsrc : Owned p source) :
    (map.remapFrom p source).2.Consistent ∧ p.Keeps (map.remapFrom p source).2 ∧
      ∀ mapping, (map.remapFrom p source).1 = .ok mapping →
        ∀ b b', p.builders[source.context]? = some b →
          (map.remapFrom p source).2.builders[map.context]? = some b' →
          ∀ id ∈ source.ids, ∃ id' path, mapping.map id = .ok id' ∧ Means b.id b.data id path ∧
            Means b'.id b'.data id' path := by
  obtain ⟨t, ht, -⟩ := hmap.context
  obtain ⟨s, hs, -⟩ := hsrc.context
  have hread {b : DefinitionTableBuilder} (hb : b ∈ p.builders) :
      Grows Valid Extends (importFrom b.id s.freeze source.ids) b.data fun mapping d' => ∀ id ∈ source.ids,
        ∃ id' path, mapping.map id = .ok id' ∧ Means s.id s.data id path ∧ Means b.id d' id' path := by
    obtain ⟨k, hk⟩ := mem_iff_getElem?.mp hb
    exact importFrom_grows (hp.valid b hb).1 (hp.between hk hs) source.ids
  have heq : map.remapFrom p source = ((t.run (importFrom t.id s.freeze source.ids)).1,
      p.method map.context fun table => importFrom table s.freeze source.ids) := by
    unfold remapFrom
    rw [Process.snapshot_eq hs]
    exact Process.onContext_eq ht _
  rw [heq]
  have hgr (b : DefinitionTableBuilder) (hb : b ∈ p.builders) : ∃ P, Grows Valid Extends
      ((fun table => importFrom table s.freeze source.ids) b.id) b.data P := ⟨_, hread hb⟩
  let m (table : Nat) := importFrom table s.freeze source.ids
  refine ⟨(hp.method map.context m hgr).1, Process.keeps_method map.context m hgr, ?_⟩
  intro mapping hmapping b b' hb hb' id hid
  obtain rfl := some.inj (hb.symm.trans hs)
  have hget : (p.method map.context fun table => importFrom table b.freeze source.ids).builders[map.context]? =
      some (t.run (importFrom t.id b.freeze source.ids)).2 := by
    refine (getElem?_modify ..).trans ?_
    rw [ht]
    simp
  obtain rfl := some.inj (hb'.symm.trans hget)
  exact (hread (mem_of_getElem? ht)).value mapping hmapping id hid

/-! ## Merging -/

section Loops

variable [DecidableEq T] {mapping : DefinitionRemap}

/-- Every entry of the other map has a place. -/
def Placed (mapping : DefinitionRemap) (rest : List (DefinitionId × T)) : Prop :=
  ∀ e ∈ rest, ∃ id, mapping.map e.1 = .ok id

theorem agrees_spec (entries rest : List (DefinitionId × T)) (h : Placed mapping rest) :
    ∃ result, agrees mapping entries rest = .ok result ∧ (result = true ↔
      ∀ e ∈ rest, ∀ id value, mapping.map e.1 = .ok id → entries.lookup id = some value → value = e.2) := by
  induction rest with
  | nil => exact ⟨true, rfl, by simp⟩
  | cons e rest ih =>
    obtain ⟨⟨id, hid⟩, hrest⟩ := forall_mem_cons.mp h
    obtain ⟨result, hrun, hres⟩ := ih hrest
    unfold agrees
    rw [hid, ok_bind]
    have hiff : (entries.lookup id).any (· ≠ e.2) = true ↔ ∃ value, entries.lookup id = some value ∧ value ≠ e.2 := by
      cases entries.lookup id <;> simp
    by_cases hdiffer : (entries.lookup id).any (· ≠ e.2) = true
    · rw [if_pos hdiffer]
      refine ⟨false, rfl, ⟨nofun, fun hall => ?_⟩⟩
      obtain ⟨value, hval, hne⟩ := hiff.mp hdiffer
      exact absurd (hall e mem_cons_self id value hid hval) hne
    · rw [if_neg hdiffer]
      refine ⟨result, hrun, hres.trans ?_⟩
      rw [forall_mem_cons]
      refine ⟨fun hall => ⟨fun id' value hid' hval => ?_, hall⟩, fun hall => hall.2⟩
      cases hid.symm.trans hid'
      by_contra hne
      exact hdiffer (hiff.mpr ⟨value, hval, hne⟩)

omit [DecidableEq T] in
/-- An insertion where nothing was. -/
theorem lookup_insert {entries : List (DefinitionId × T)} (h : SortedMap.Keyed entries) (id : DefinitionId) (value : T)
    (other : DefinitionId) : (SortedMap.insert id value entries).lookup other =
      if other = id then some value else entries.lookup other := by
  refine Option.ext fun found => ?_
  rw [SortedMap.lookup_iff (SortedMap.keyed_insert h), SortedMap.mem_insert h]
  split
  · rename_i heq
    subst heq
    simp [eq_comm]
  · rename_i hne
    rw [SortedMap.lookup_iff h]
    simp [hne]

omit [DecidableEq T] in
/-- After the second loop the map has what it had and what it was given. -/
theorem insertMissing_spec : ∀ {entries : List (DefinitionId × T)},
    SortedMap.Keyed entries → Placed mapping rest →
    (∀ e ∈ rest, ∀ id value, mapping.map e.1 = .ok id → entries.lookup id = some value → value = e.2) →
    (∀ e ∈ rest, ∀ e' ∈ rest, ∀ id, mapping.map e.1 = .ok id → mapping.map e'.1 = .ok id → e.2 = e'.2) →
    ∃ entries', insertMissing mapping rest entries = (.ok true, entries') ∧ SortedMap.Keyed entries' ∧
      (∀ id value, entries.lookup id = some value → entries'.lookup id = some value) ∧
      (∀ e ∈ rest, ∀ id, mapping.map e.1 = .ok id → entries'.lookup id = some e.2) ∧
      ∀ id value, entries'.lookup id = some value → entries.lookup id = some value ∨
        ∃ e ∈ rest, mapping.map e.1 = .ok id ∧ e.2 = value := by
  induction rest with
  | nil => exact fun hkeyed _ _ _ => ⟨_, rfl, hkeyed, fun _ _ h => h, by simp, fun _ _ h => .inl h⟩
  | cons e rest ih =>
    intro entries hkeyed h hagree huniq
    obtain ⟨⟨id, hid⟩, hrest⟩ := forall_mem_cons.mp h
    have hnext : ∃ next, (if (entries.lookup id).isSome then entries else SortedMap.insert id e.2 entries) = next ∧
        SortedMap.Keyed next ∧ ∀ other, next.lookup other = if other = id then some e.2 else entries.lookup other := by
      refine ⟨_, rfl, ?_⟩
      cases hlook : entries.lookup id with
      | none => exact ⟨SortedMap.keyed_insert hkeyed, fun other => lookup_insert hkeyed id e.2 other⟩
      | some value =>
        obtain rfl := hagree e mem_cons_self id value hid hlook
        refine ⟨hkeyed, fun other => ?_⟩
        by_cases heq : other = id
        · rw [if_pos heq, heq]
          exact hlook
        · rw [if_neg heq]
          rfl
    obtain ⟨next, hstep, hkeyed', hlook⟩ := hnext
    obtain ⟨entries', hrun, hkeyed'', hold, hnew, honly⟩ := ih hkeyed' hrest
      (fun e' he' id' value hid' hval => by
        rw [hlook] at hval
        split at hval
        · rename_i heq
          subst heq
          rw [← some.inj hval]
          exact huniq e mem_cons_self e' (mem_cons_of_mem _ he') _ hid hid'
        · exact hagree e' (mem_cons_of_mem _ he') id' value hid' hval)
      (fun e' he' e'' he'' => huniq e' (mem_cons_of_mem _ he') e'' (mem_cons_of_mem _ he''))
    have hhead : entries'.lookup id = some e.2 := hold id e.2 (by rw [hlook, if_pos rfl])
    refine ⟨entries', ?_, hkeyed'', fun other value hval => ?_, ?_, fun other value hval => ?_⟩
    · unfold insertMissing
      rw [hid]
      dsimp only
      rw [hstep]
      exact hrun
    · by_cases heq : other = id
      · subst heq
        rw [hhead, hagree e mem_cons_self other value hid hval]
      · exact hold other value (by rw [hlook, if_neg heq, hval])
    · refine forall_mem_cons.mpr ⟨fun id' hid' => ?_, hnew⟩
      cases hid.symm.trans hid'
      exact hhead
    · rcases honly other value hval with hval | ⟨e', he', hid', rfl⟩
      · rw [hlook] at hval
        split at hval
        · rename_i heq
          subst heq
          exact .inr ⟨e, mem_cons_self, hid, some.inj hval⟩
        · exact .inl hval
      · exact .inr ⟨e', mem_cons_of_mem _ he', hid', rfl⟩

theorem included_spec {target : List (DefinitionId × T)}
    (h : ∀ e ∈ rest, ∃ id, mapping.map e.1 = .ok id ∧ target.lookup id = some e.2) :
    included mapping target rest = .ok true := by
  induction rest with
  | nil => rfl
  | cons e rest ih =>
    obtain ⟨⟨id, hid, hval⟩, hrest⟩ := forall_mem_cons.mp h
    unfold included
    rw [hid, ok_bind, if_neg (not_not.mpr hval)]
    exact ih hrest

end Loops

variable [DecidableEq T]

/-- A map that is in the context of another one's definitions already is found in it. -/
theorem isSubsetOf_spec (hp : p.Consistent) (hmap : Owned p map) {target : DefinitionMap T} (htgt : Owned p target)
    (hget : ∀ path value, map.get p path = some value → target.get p path = some value) :
    (map.isSubsetOf p target).1 = .ok true := by
  obtain ⟨b, hb, hids⟩ := hmap.context
  obtain ⟨t, ht, -⟩ := htgt.context
  have hvld := (hp.valid t (mem_of_getElem? ht)).1
  -- Where an entry stands in the target.
  have hplc (e : DefinitionId × T) (he : e ∈ map.entries) : ∃ id path, Means b.id b.data e.1 path ∧
      Means t.id t.data id path ∧ target.entries.lookup id = some e.2 := by
    obtain ⟨path, hpath⟩ := hids e.1 (mem_map_of_mem he)
    have hval := hget path e.2 ((get_iff hp hb).mpr ⟨e.1, hpath, (SortedMap.lookup_iff hmap.keyed).mpr he⟩)
    obtain ⟨id, hid, hlook⟩ := (get_iff hp ht).mp hval
    exact ⟨id, path, hpath, hid, hlook⟩
  have hpres : ∀ id ∈ map.ids, id.table = b.id ∧ Present t.id b.data t.data id.index := by
    intro id hid
    obtain ⟨e, he, rfl⟩ := mem_map.mp hid
    obtain ⟨id', path, hpath, hid', -⟩ := hplc e he
    exact ⟨hpath.1, id', path, hpath.2, hid'⟩
  obtain ⟨mapping, hrun⟩ := exec_importFrom_old hvld (hp.between ht hb) hpres
  have hremap : target.remapFrom p map = (.ok mapping, (target.remapFrom p map).2) := by
    unfold remapFrom
    have hres : (t.run (importFrom t.id b.freeze map.ids)).1 = .ok mapping := congrArg Prod.fst hrun
    rw [Process.snapshot_eq hb, Process.onContext_eq ht]
    exact Prod.ext hres rfl
  obtain ⟨hp', hkp, hmapping⟩ := remapFrom_spec hp htgt hmap
  obtain ⟨t', ht', hid', hgr⟩ := hkp _ t ht
  have hvld' := (hp'.valid t' (mem_of_getElem? ht')).1
  unfold isSubsetOf
  rw [hremap]
  refine included_spec _ fun e he => ?_
  obtain ⟨id, path, hpath, hid, hlook⟩ := hplc e he
  obtain ⟨id', path', hmap', hpath', hid''⟩ := hmapping mapping (by rw [hremap]) b t' hb ht' e.1 (mem_map_of_mem he)
  obtain rfl := hpath'.2.functional hpath.2
  have hsame : id' = id := hid''.injective hvld' (hid' ▸ hid.extend hgr)
  exact ⟨id', hmap', hsame ▸ hlook⟩

/-- `merge` is all or nothing. -/
structure Merged (p : Process) (map source : DefinitionMap T) (result : Except DefinitionTableError Bool)
    (map' : DefinitionMap T) (p' : Process) : Prop where
  failed : result ≠ .ok true → map' = map
  differs : result = .ok false → ∃ path value value', map.get p path = some value ∧
    source.get p path = some value' ∧ value ≠ value'
  union : result = .ok true → ∀ path, map'.get p' path = (map.get p path).or (source.get p path)
  agrees : result = .ok true → ∀ path value, source.get p path = some value → map'.get p' path = some value
  subsets : result = .ok true → (map.isSubsetOf p' map').1 = .ok true ∧ (source.isSubsetOf p' map').1 = .ok true

theorem merge_spec (hp : p.Consistent) (hmap : Owned p map) (hsrc : Owned p source) :
    (map.merge p source).2.2.Consistent ∧ p.Keeps (map.merge p source).2.2 ∧
      Owned (map.merge p source).2.2 (map.merge p source).2.1 ∧
      Merged p map source (map.merge p source).1 (map.merge p source).2.1 (map.merge p source).2.2 := by
  obtain ⟨hp', hkp, hmapping⟩ := remapFrom_spec hp hmap hsrc
  unfold merge
  generalize hremap : map.remapFrom p source = remap at *
  obtain ⟨result, p'⟩ := remap
  have hmap' : Owned p' map := hmap.keeps hkp
  cases result with
  | error e =>
    exact ⟨hp', hkp, hmap', fun _ => rfl, nofun, nofun, nofun, nofun⟩
  | ok mapping =>
    obtain ⟨b, hb, hids⟩ := hsrc.context
    obtain ⟨t, ht, hown⟩ := hmap'.context
    have hvld := (hp'.valid t (mem_of_getElem? ht)).1
    have hplc := hmapping mapping rfl b t hb ht
    have hplcd : Placed mapping source.entries := by
      intro e he
      obtain ⟨id, -, hid, -⟩ := hplc e.1 (mem_map_of_mem he)
      exact ⟨id, hid⟩
    -- Where a path of the other map stands.
    have hfnd (path : DefinitionPath) (value : T) (hval : source.get p path = some value) :
        ∃ e ∈ source.entries, e.2 = value ∧ ∃ id, mapping.map e.1 = .ok id ∧ Means t.id t.data id path := by
      obtain ⟨id, hid, hlook⟩ := (get_iff hp hb).mp hval
      have he := (SortedMap.lookup_iff hsrc.keyed).mp hlook
      obtain ⟨id', path', hid', hpath', hmn⟩ := hplc id (mem_map_of_mem he)
      obtain rfl := hpath'.2.functional hid.2
      exact ⟨(id, value), he, rfl, id', hid', hmn⟩
    have hback (e : DefinitionId × T) (he : e ∈ source.entries) : ∃ id path, mapping.map e.1 = .ok id ∧
        Means t.id t.data id path ∧ source.get p path = some e.2 := by
      obtain ⟨id, path, hid, hpath, hmn⟩ := hplc e.1 (mem_map_of_mem he)
      exact ⟨id, path, hid, hmn,
        (get_iff hp hb).mpr ⟨e.1, hpath, (SortedMap.lookup_iff hsrc.keyed).mpr he⟩⟩
    obtain ⟨result, hagrees, hres⟩ := agrees_spec map.entries source.entries hplcd
    dsimp only
    rw [hagrees]
    cases result with
    | false =>
      refine ⟨hp', hkp, hmap', fun _ => rfl, fun _ => ?_, nofun, nofun, nofun⟩
      have hdiffer : ¬ ∀ e ∈ source.entries, ∀ id value, mapping.map e.1 = .ok id →
          map.entries.lookup id = some value → value = e.2 := fun hall => Bool.noConfusion (hres.mpr hall)
      push Not at hdiffer
      obtain ⟨e, he, id, value, hid, hval, hne⟩ := hdiffer
      obtain ⟨id', path, hid', hmn, hother⟩ := hback e he
      cases hid.symm.trans hid'
      refine ⟨path, value, e.2, ?_, hother, hne⟩
      rw [← hmap.get_eq hp hp' hkp]
      exact (get_iff hp' ht).mpr ⟨id, hmn, hval⟩
    | true =>
      have hagree := hres.mp rfl
      have huniq : ∀ e ∈ source.entries, ∀ e' ∈ source.entries, ∀ id, mapping.map e.1 = .ok id →
          mapping.map e'.1 = .ok id → e.2 = e'.2 := by
        intro e he e' he' id hid hid'
        obtain ⟨i, path, hi, hmn, hval⟩ := hback e he
        obtain ⟨j, path', hj, hmn', hval'⟩ := hback e' he'
        cases hid.symm.trans hi
        cases hid'.symm.trans hj
        obtain rfl := hmn.2.functional hmn'.2
        exact some.inj (hval.symm.trans hval')
      obtain ⟨entries, hrun, hkeyed, hold, hnew, honly⟩ :=
        insertMissing_spec source.entries hmap.keyed hplcd hagree huniq
      dsimp only
      rw [hrun]
      dsimp only
      let map' : DefinitionMap T := { map with entries }
      have hmap'' : Owned p' map' := by
        refine ⟨⟨t, ht, fun id hid => ?_⟩, hkeyed⟩
        obtain ⟨e, he, rfl⟩ := mem_map.mp hid
        rcases honly e.1 e.2 ((SortedMap.lookup_iff hkeyed).mpr he) with hlook | ⟨e', he', hid', -⟩
        · exact hown e.1 (mem_ids hmap.keyed hlook)
        · obtain ⟨id, path, hid, hmn, -⟩ := hback e' he'
          cases hid'.symm.trans hid
          exact ⟨path, hmn⟩
      have hget {path : DefinitionPath} {value : T} : map'.get p' path = some value ↔
          ∃ id, Means t.id t.data id path ∧ entries.lookup id = some value :=
        get_iff hp' (show p'.builders[map'.context]? = some t from ht)
      have hleft (path : DefinitionPath) (value : T) (h : map.get p path = some value) :
          map'.get p' path = some value := by
        rw [← hmap.get_eq hp hp' hkp] at h
        obtain ⟨id, hmn, hlook⟩ := (get_iff hp' ht).mp h
        exact hget.mpr ⟨id, hmn, hold id value hlook⟩
      have hrt (path : DefinitionPath) (value : T) (h : source.get p path = some value) :
          map'.get p' path = some value := by
        obtain ⟨e, he, rfl, id, hid, hmn⟩ := hfnd path value h
        exact hget.mpr ⟨id, hmn, hnew e he id hid⟩
      have honly' (path : DefinitionPath) (value : T) (h : map'.get p' path = some value) :
          map.get p path = some value ∨ source.get p path = some value := by
        obtain ⟨id, hmn, hlook⟩ := hget.mp h
        rcases honly id value hlook with hlook | ⟨e, he, hid, rfl⟩
        · rw [← hmap.get_eq hp hp' hkp]
          exact .inl ((get_iff hp' ht).mpr ⟨id, hmn, hlook⟩)
        · obtain ⟨id', path', hid', hmn', hval⟩ := hback e he
          cases hid.symm.trans hid'
          obtain rfl := hmn.2.functional hmn'.2
          exact .inr hval
      refine ⟨hp', hkp, hmap'', fun h => absurd rfl h, nofun, fun _ path => ?_, fun _ => hrt, fun _ => ⟨?_, ?_⟩⟩
      · show map'.get p' path = _
        cases hval : map.get p path with
        | some value => exact hleft path value hval
        | none =>
          cases hother : source.get p path with
          | some value => exact hrt path value hother
          | none =>
            refine eq_none_iff_forall_ne_some.mpr fun value h => ?_
            rcases honly' path value h with h | h
            · rw [hval] at h
              cases h
            · rw [hother] at h
              cases h
      · refine isSubsetOf_spec hp' hmap' hmap'' fun path value h => hleft path value ?_
        rwa [← hmap.get_eq hp hp' hkp]
      · refine isSubsetOf_spec hp' (hsrc.keeps hkp) hmap'' fun path value h => hrt path value ?_
        rwa [← hsrc.get_eq hp hp' hkp]

omit [DecidableEq T] in
theorem Owned.insertId (h : Owned p map) (hp : p.Consistent) (id : DefinitionId) (value : T) :
    Owned p (map.insertId p id value).2 := by
  obtain ⟨b, hb, hids⟩ := h.context
  unfold DefinitionMap.insertId
  rw [Process.snapshot_eq hb]
  split
  · exact h
  · rename_i hrslv
    refine ⟨⟨b, hb, fun other hother => ?_⟩, SortedMap.keyed_insert h.keyed⟩
    rcases SortedMap.mem_keys_insert.mp hother with rfl | hother
    · obtain ⟨_, hid, -⟩ := bind_ok.mp hrslv
      have hvld := (hp.valid b (mem_of_getElem? hb)).1
      obtain ⟨path, hpath, -⟩ := (bijective_of_valid (t := b.freeze) hvld).resolve other hid
      exact ⟨path, (DefinitionTable.resolve_iff hvld).mp hpath⟩
    · exact hids other hother

omit [DecidableEq T] in
theorem Owned.insert (h : Owned p map) (hp : p.Consistent) (path : DefinitionPath) (value : T) :
    (map.insert p path value).2.2.Consistent ∧ p.Keeps (map.insert p path value).2.2 ∧
      Owned (map.insert p path value).2.2 (map.insert p path value).2.1 := by
  obtain ⟨b, hb, -⟩ := h.context
  have hgr (b : DefinitionTableBuilder) (hb : b ∈ p.builders) : ∃ P, Grows Valid Extends
      ((fun table => internPath table path) b.id) b.data P := ⟨_, internPath_grows _ (hp.valid b hb).1 path⟩
  have hp' := (hp.method map.context (fun table => internPath table path) hgr).1
  have hkp := Process.keeps_method map.context (fun table => internPath table path) hgr
  unfold DefinitionMap.insert
  rw [Process.onContext_eq hb]
  split
  · rename_i heq
    obtain rfl := (Prod.mk.inj heq).2
    exact ⟨hp', hkp, h.keeps hkp⟩
  · rename_i heq
    obtain rfl := (Prod.mk.inj heq).2
    exact ⟨hp', hkp, (h.keeps hkp).insertId hp' _ value⟩

omit [DecidableEq T] in
theorem Owned.retainIds (h : Owned p map) (keep : DefinitionId → T → Bool) : Owned p (map.retainIds keep) := by
  have hsub : (map.retainIds keep).ids.Sublist map.ids := filter_sublist.map Prod.fst
  obtain ⟨b, hb, hids⟩ := h.context
  exact ⟨⟨b, hb, fun id hid => hids id (hsub.subset hid)⟩, h.keyed.sublist hsub⟩

theorem isSubsetOf_process (p : Process) (map target : DefinitionMap T) :
    (map.isSubsetOf p target).2 = (target.remapFrom p map).2 := by
  unfold isSubsetOf
  split <;> simp [*]

end DefinitionMap

/-- A call keeps the contexts in their places. -/
theorem Process.Consistent.keeps_step {p : Process} (h : p.Consistent) (call : Call) : p.Keeps (p.step call) := by
  unfold Process.step
  cases call with
  | new =>
    dsimp only
    split
    · exact Process.keeps_append _ _ _
    · exact .refl p
  | freeze k => exact fun _ b hb => ⟨b, hb, rfl, Std.Refl.refl _⟩
  | internRoot k m => exact Process.keeps_method k _ fun b hb => ⟨_, internRoot_grows _ (h.valid b hb).1 m⟩
  | internPath k path => exact Process.keeps_method k _ fun b hb => ⟨_, internPath_grows _ (h.valid b hb).1 path⟩
  | internChild k parent kind name occurrence =>
    exact Process.keeps_method k _ fun b hb => ⟨_, internChild_grows _ (h.valid b hb).1 parent ⟨kind, name, occurrence⟩⟩
  | importFrom k source ids =>
    dsimp only
    split
    · rename_i t ht
      exact Process.keeps_method k _ fun b hb =>
        ⟨_, importFrom_grows (h.valid b hb).1 (h.source hb (mem_of_getElem? ht)) ids⟩
    · exact .refl p

/-! ## Runs -/

/-- A process with its definition maps. -/
structure Indexes (T : Type) where
  process : Process
  maps : List (DefinitionMap T)

/-- One step: a call of the process, or an operation of a map. -/
inductive Change (T : Type) where
  | call (call : Call)
  | new (context : Nat)
  | clone (map : Nat)
  | insert (map : Nat) (path : DefinitionPath) (value : T)
  | insertId (map : Nat) (id : DefinitionId) (value : T)
  | retainIds (map : Nat) (keep : DefinitionId → T → Bool)
  | merge (map source : Nat)
  | isSubsetOf (map target : Nat)

namespace Indexes

def start : Indexes T := ⟨.start, []⟩

/-- The map in a place is replaced. -/
def update (w : Indexes T) (k : Nat) (change : DefinitionMap T → DefinitionMap T × Process) : Indexes T :=
  match w.maps[k]? with
  | some map => ⟨(change map).2, w.maps.set k (change map).1⟩
  | none => w

variable [DecidableEq T]

def step (w : Indexes T) : Change T → Indexes T
  | .call call => { w with process := w.process.step call }
  | .new context => if context < w.process.builders.length then { w with maps := w.maps ++ [⟨context, []⟩] } else w
  | .clone map => { w with maps := w.maps ++ (w.maps[map]?).toList }
  | .insert map path value => w.update map fun map => (map.insert w.process path value).2
  | .insertId map id value => w.update map fun map => ((map.insertId w.process id value).2, w.process)
  | .retainIds map keep => w.update map fun map => (map.retainIds keep, w.process)
  | .merge map source =>
    match w.maps[source]? with
    | some source => w.update map fun map => (map.merge w.process source).2
    | none => w
  | .isSubsetOf map target =>
    match w.maps[target]? with
    | some target => w.update map fun map => (map, (map.isSubsetOf w.process target).2)
    | none => w

def run (w : Indexes T) (changes : List (Change T)) : Indexes T := changes.foldl step w

/-- Contexts are apart, and every map stands in its own. -/
structure Sound (w : Indexes T) : Prop where
  process : w.process.Consistent
  maps : ∀ map ∈ w.maps, map.Owned w.process

variable {w : Indexes T}

omit [DecidableEq T] in
theorem Sound.update (h : w.Sound) (k : Nat) {change : DefinitionMap T → DefinitionMap T × Process}
    (hchg : ∀ map, map.Owned w.process → (change map).2.Consistent ∧ w.process.Keeps (change map).2 ∧
      (change map).1.Owned (change map).2) : (w.update k change).Sound := by
  unfold Indexes.update
  split
  · rename_i map hmap
    obtain ⟨hproc, hkp, howned⟩ := hchg map (h.maps map (mem_of_getElem? hmap))
    refine ⟨hproc, fun other hother => ?_⟩
    rcases mem_or_eq_of_mem_set hother with hother | rfl
    · exact (h.maps other hother).keeps hkp
    · exact howned
  · exact h

omit [DecidableEq T] in
theorem sound_start : Sound (T := T) start := ⟨Process.consistent_start, nofun⟩

theorem Sound.step (h : w.Sound) (change : Change T) : (w.step change).Sound := by
  unfold Indexes.step
  cases change with
  | call call =>
    exact ⟨(h.process.step call).1, fun map hmap => (h.maps map hmap).keeps (h.process.keeps_step call)⟩
  | new context =>
    dsimp only
    split
    · rename_i hlt
      refine ⟨h.process, fun map hmap => ?_⟩
      rcases mem_append.mp hmap with hmap | hmap
      · exact h.maps map hmap
      · rw [mem_singleton.mp hmap]
        exact ⟨⟨_, getElem?_eq_getElem hlt, nofun⟩, .nil⟩
    · exact h
  | clone map =>
    refine ⟨h.process, fun other hother => ?_⟩
    rcases mem_append.mp hother with hother | hother
    · exact h.maps other hother
    · exact h.maps other (mem_of_getElem? (mem_toList.mp hother))
  | insert map path value =>
    exact h.update map fun map hmap => hmap.insert h.process path value
  | insertId map id value =>
    exact h.update map fun map hmap => ⟨h.process, .refl _, hmap.insertId h.process id value⟩
  | retainIds map keep =>
    exact h.update map fun map hmap => ⟨h.process, .refl _, hmap.retainIds keep⟩
  | merge map source =>
    dsimp only
    split
    · rename_i source hsrc
      refine h.update map fun map hmap => ?_
      obtain ⟨hproc, hkp, howned, -⟩ :=
        DefinitionMap.merge_spec h.process hmap (h.maps source (mem_of_getElem? hsrc))
      exact ⟨hproc, hkp, howned⟩
    · exact h
  | isSubsetOf map target =>
    dsimp only
    split
    · rename_i target htgt
      refine h.update map fun map hmap => ?_
      obtain ⟨hproc, hkp, -⟩ :=
        DefinitionMap.remapFrom_spec h.process (h.maps target (mem_of_getElem? htgt)) hmap
      rw [DefinitionMap.isSubsetOf_process]
      exact ⟨hproc, hkp, hmap.keeps hkp⟩
    · exact h

theorem Sound.run (changes : List (Change T)) : ∀ {w : Indexes T}, w.Sound → (w.run changes).Sound := by
  induction changes with
  | nil => exact fun h => h
  | cons change changes ih => exact fun h => ih (h.step change)

end Indexes

/-- Whatever was done to the maps of a process and to its contexts, a merge of two of the maps is all or
nothing. -/
theorem merge_all_or_nothing [DecidableEq T] (changes : List (Change T)) {i j : Nat} {map source : DefinitionMap T}
    (hmap : (Indexes.start.run changes).maps[i]? = some map)
    (hsource : (Indexes.start.run changes).maps[j]? = some source) :
    let p := (Indexes.start.run changes).process
    DefinitionMap.Merged p map source (map.merge p source).1 (map.merge p source).2.1 (map.merge p source).2.2 := by
  have hsnd := Indexes.sound_start.run changes
  obtain ⟨-, -, -, hmrg⟩ := DefinitionMap.merge_spec hsnd.process
    (hsnd.maps map (List.mem_of_getElem? hmap)) (hsnd.maps source (List.mem_of_getElem? hsource))
  exact hmrg

/-- The struct `Player` of a module. -/
def player : DefinitionPath := ⟨⟨"game", ["combat"]⟩, [⟨.struct, "Player", 0⟩]⟩

/-- Two maps in contexts of their own, which share a key and its value. -/
def overlapping : List (Change Nat) :=
  [.call .new, .call .new, .new 0, .new 1, .insert 0 playerHp 5, .insert 1 player 7, .insert 1 playerHp 5]

theorem merge_all_or_nothing_overlapping :
    let w := Indexes.start.run overlapping
    ∃ map ∈ w.maps, ∃ source ∈ w.maps, ∃ map' p', map.merge w.process source = (.ok true, map', p') ∧
      (source.isSubsetOf p' map').1 = .ok true ∧ map'.get p' player = some 7 := by
  intro w
  obtain ⟨map, hmap⟩ : ∃ map, w.maps[0]? = some map := ⟨w.maps.getD 0 ⟨0, []⟩, by decide +kernel⟩
  obtain ⟨source, hsrc⟩ : ∃ source, w.maps[1]? = some source := ⟨w.maps.getD 1 ⟨0, []⟩, by decide +kernel⟩
  have hmrg := merge_all_or_nothing overlapping hmap hsrc
  have hrun : ((w.maps[0]?).bind fun map => (w.maps[1]?).bind fun source =>
      (map.merge w.process source).1.toOption) = some true := by decide +kernel
  have hval : ((w.maps[1]?).bind fun source => source.get w.process player) = some 7 := by decide +kernel
  rw [hmap, hsrc] at hrun
  rw [hsrc] at hval
  have hres : (map.merge w.process source).1 = .ok true := ok_of_toOption hrun
  exact ⟨map, List.mem_of_getElem? hmap, source, List.mem_of_getElem? hsrc, (map.merge w.process source).2.1,
    (map.merge w.process source).2.2, Prod.ext hres rfl, (hmrg.subsets hres).2,
    hmrg.agrees hres player 7 hval⟩

end Kagari.Identity
