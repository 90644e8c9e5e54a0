import Kagari.Identity.Intern

/-!
# Builders and snapshots

A process makes builders with identities of their own, changes them in any order, takes snapshots
and imports from them. The tables stay valid, and identities and snapshots keep their meaning
(`definitionTable_identities`).
-/

namespace Kagari.Identity

open Lib Stateful TableData List

variable {d : TableData} {table : Nat}

/-! ## Methods -/

/-- The identity `id` of the table stands for the path. -/
def Means (table : Nat) (d : TableData) (id : DefinitionId) (path : DefinitionPath) : Prop :=
  id.table = table ∧ PathAt d id.index path

variable {id : DefinitionId} {path : DefinitionPath}

variable {d' : TableData} {m : ModuleIdentity} {index : Nat} {t : DefinitionTable} {α : Type}

theorem Means.extend (h : Extends d d') (hid : Means table d id path) : Means table d' id path :=
  ⟨hid.1, hid.2.extend h⟩

theorem Means.eq (hid : Means table d id path) :
    id = ⟨table, id.index⟩ := by
  rw [← hid.1]

theorem internRoot_grows (table : Nat) (hd : Valid d) (m : ModuleIdentity) :
    Grows Valid Extends (internRoot table m) d (fun id d' => Means table d' id ⟨m, []⟩) := by
  refine .bind (internModule_grows hd m) (fun i d' hd' _ hi => ?_)
  exact .pure hd' ⟨rfl, (PathAt.root_iff hd'.core).mpr hi⟩

theorem exec_internRoot_old (hd : Valid d)
    (hid : Means table d id ⟨m, []⟩) : exec (internRoot table m) d = (.ok id, d) := by
  have hroot := (PathAt.root_iff hd.core).mp hid.2
  unfold internRoot
  rw [exec_bind_ok (exec_internModule_old hd.core hroot), hid.eq]
  rfl

/-- The path one segment below. -/
def DefinitionPath.below (path : DefinitionPath) (segment : DefinitionPathSegment) : DefinitionPath :=
  { path with path := path.path ++ [segment] }

theorem exec_checked_ok {check : TableData → Except DefinitionTableError Unit}
    (h : check d = .ok ()) : exec (checked check) d = (.ok (), d) := by
  simp [checked, h]

theorem checked_grows (hd : Valid d) (check : TableData → Except DefinitionTableError Unit) :
    Grows Valid Extends (checked check) d (fun _ d' => d' = d ∧ check d = .ok ()) := by
  refine .get_bind ?_
  cases hchk : check d with
  | ok u => exact .pure hd ⟨rfl, rfl⟩
  | error e => exact .throw hd

theorem validateId_ok :
    validateId table d id = .ok () ↔ id.table = table ∧ id.index < d.nodes.length := by
  unfold validateId
  split
  · rename_i hne
    simp [hne]
  · split
    · rename_i hge
      simp [hge]
    · rename_i heq hlt
      simp only [true_iff]
      exact ⟨not_not.mp heq, by omega⟩

theorem internChild_grows (table : Nat) (hd : Valid d) (parent : DefinitionId) (segment : DefinitionPathSegment) :
    Grows Valid Extends (internChild table parent segment.kind segment.name segment.occurrence) d
      (fun id d' => ∃ path, Means table d parent path ∧ Means table d' id (path.below segment)) := by
  refine .bind (checked_grows hd _) ?_
  rintro _ _ - - ⟨rfl, hvld⟩
  obtain ⟨htab, hlt⟩ := validateId_ok.mp hvld
  obtain ⟨path, hpath, -⟩ := hd.core.exists_pathAt hlt
  refine .bind (internChildAt_grows hd hlt _ _ _) ?_
  rintro i d' hd' hgr ⟨s, hi, hs⟩
  exact .pure hd' ⟨path, ⟨htab, hpath⟩, rfl, .child hi hs (hpath.extend hgr)⟩

theorem exec_internChild_old (segment : DefinitionPathSegment) (hd : Valid d)
    {parent id : DefinitionId} (hpar : Means table d parent path)
    (hid : Means table d id (path.below segment)) :
    exec (internChild table parent segment.kind segment.name segment.occurrence) d = (.ok id, d) := by
  obtain ⟨parent', name, hi, hname, hpath⟩ := hid.2.child_inv
  obtain rfl := hpath.injective hd.core hpar.2
  unfold internChild
  rw [exec_bind_ok (exec_checked_ok (validateId_ok.mpr ⟨hpar.1, hpar.2.lt⟩)),
    exec_bind_ok (exec_internChildAt_old hd.core hi hname), hid.eq]
  rfl

theorem internSegments_grows (path : List DefinitionPathSegment) : ∀ {d : TableData}
    {id : DefinitionId} {start : DefinitionPath}, Valid d → Means table d id start →
      Grows Valid Extends (internSegments table path id) d (fun id d' =>
        Means table d' id { start with path := start.path ++ path }) := by
  induction path with
  | nil =>
    intro d id start hd hid
    refine .pure hd ?_
    rwa [append_nil]
  | cons segment path ih =>
    intro d id start hd hid
    refine .bind (internChild_grows _ hd id segment) ?_
    rintro id' d' hd' - ⟨start', hst', hid'⟩
    obtain rfl := hid.2.functional hst'.2
    refine (ih hd' hid').mono (fun id'' d'' _ _ hid'' => ?_)
    simpa [DefinitionPath.below] using hid''

theorem internPath_grows (table : Nat) (hd : Valid d) (path : DefinitionPath) :
    Grows Valid Extends (internPath table path) d (fun id d' => Means table d' id path) := by
  unfold internPath
  split
  · refine .bind (internRoot_grows _ hd path.module) (fun root d' hd' _ hroot => ?_)
    refine (internSegments_grows path.path hd' hroot).mono (fun id d'' _ _ hid => ?_)
    simpa using hid
  · exact .throw hd

/-- Every prefix of a path in the table is in the table. -/
theorem Means.take (path : List DefinitionPathSegment)
    {rest : List DefinitionPathSegment} (hid : Means table d id ⟨m, path ++ rest⟩) : ∃ id', Means table d id' ⟨m,
      path⟩ := by
  induction rest using List.reverseRecOn generalizing id with
  | nil => exact ⟨id, by simpa using hid⟩
  | append_singleton rest segment ih =>
    obtain ⟨htab, hpath⟩ := hid
    rw [← append_assoc] at hpath
    obtain ⟨parent, -, -, -, hpar⟩ := hpath.child_inv
    exact @ih ⟨table, parent⟩ ⟨rfl, hpar⟩

theorem Means.injective (hd : Valid d) {id id' : DefinitionId}
    (hid : Means table d id path) (hid' : Means table d id' path) : id = id' := by
  rw [hid.eq, hid'.eq, hid.2.injective hd.core hid'.2]

theorem exec_internSegments_old (hd : Valid d) (path : List DefinitionPathSegment) :
    ∀ {start id : DefinitionId} {m : ModuleIdentity} {before : List DefinitionPathSegment},
      Means table d start ⟨m, before⟩ → Means table d id ⟨m, before ++ path⟩ →
        exec (internSegments table path start) d = (.ok id, d) := by
  induction path with
  | nil =>
    intro start id m before hst hid
    obtain rfl := hst.injective hd (by simpa using hid)
    rfl
  | cons segment path ih =>
    intro start id m before hst hid
    have hspl : before ++ segment :: path = (before ++ [segment]) ++ path := by simp
    rw [hspl] at hid
    obtain ⟨next, hnext⟩ := hid.take (before ++ [segment])
    unfold internSegments
    rw [exec_bind_ok (exec_internChild_old segment hd hst hnext)]
    exact ih hnext hid

/-- A path that is in the table is found again, without a change. -/
theorem exec_internPath_old (hd : Valid d) (hid : Means table d id path) : exec (internPath table path)
    d = (.ok id, d) := by
  obtain ⟨m, segments⟩ := path
  obtain ⟨root, hroot⟩ := Means.take [] hid
  have hmod := hd.core.withinPathLimit ((PathAt.root_iff hd.core).mp hroot.2)
  have hlen : segments.length ≤ maxIdentityPathSegments := by
    obtain ⟨path', hpath', hle⟩ := hd.core.exists_pathAt hid.2.lt
    rw [hpath'.functional hid.2] at hle
    exact hle
  have hlim : (DefinitionPath.mk m segments).withinPathLimit = true := by
    simp [DefinitionPath.withinPathLimit, hmod, hlen]
  unfold internPath
  rw [if_pos hlim, exec_bind_ok (exec_internRoot_old hd hroot)]
  exact exec_internSegments_old hd segments hroot hid

/-! ## Import -/

/-- The mapped nodes of the source stand for the same paths in the table. -/
structure Mapped (table : Nat) (source : TableData) (entries : List (Option DefinitionId))
    (d : TableData) : Prop where
  length : entries.length = source.nodes.length
  path : ∀ (k : Nat) (id : DefinitionId) (path : DefinitionPath), entries[k]? = some (some id) →
    PathAt source k path → Means table d id path

variable {entries : List (Option DefinitionId)}

theorem Mapped.extend (h : Extends d d') {source : TableData}
    (hm : Mapped table source entries d) :
    Mapped table source entries d' :=
  ⟨hm.length, fun k id path hk hpath => (hm.path k id path hk hpath).extend h⟩

theorem Mapped.set {source : TableData}
    (hm : Mapped table source entries d)
    (hid : ∀ path, PathAt source index path → Means table d id path) :
    Mapped table source (entries.set index (some id)) d := by
  refine ⟨by rw [length_set, hm.length], fun k id' path hk hpath => ?_⟩
  rw [getElem?_set] at hk
  split at hk
  · rename_i heq
    subst heq
    split at hk
    · obtain rfl : id = id' := by simpa using hk
      exact hid path hpath
    · cases hk
  · exact hm.path k id' path hk hpath

/-- What an import may read: a table with the builder's own identity is one of its snapshots. -/
structure Source (table : Nat) (source : DefinitionTable) (d : TableData) : Prop where
  valid : Valid source.data
  own : source.id = table → Extends source.data d

theorem Source.extend (h : Extends d d') {source : DefinitionTable}
    (hs : Source table source d) : Source table source d' :=
  ⟨hs.valid, fun hown => IsTrans.trans _ _ _ (hs.own hown) h⟩

theorem importNode_grows {source : DefinitionTable}
    (hd : Valid d) (hs : Source table source d) (hm : Mapped table source.data entries d)
    (index : Nat) :
    Grows Valid Extends (importNode table source entries index) d (fun id d' =>
      ∀ path, PathAt source.data index path → Means table d' id path) := by
  unfold importNode
  split
  · rename_i hown
    refine .bind (checked_grows hd _) ?_
    rintro _ _ - - ⟨rfl, -⟩
    exact .pure hd (fun path hpath => ⟨rfl, hpath.extend (hs.own hown)⟩)
  · split
    · rename_i m hi
      refine (internRoot_grows _ hd _).mono (fun id d' _ _ hid path hpath => ?_)
      obtain ⟨hm, -⟩ := hs.valid.core.root index m hi
      have hget := getElem?_eq_getElem hm
      rw [getD_eq_getElem?_getD, hget] at hid
      obtain rfl := hpath.functional (.root hi hget)
      exact hid
    · rename_i parent kind name occurrence hi
      split
      · rename_i parent' hpar'
        obtain ⟨-, hname, -⟩ := hs.valid.core.child index parent kind name occurrence hi
        have hget := getElem?_eq_getElem hname
        rw [getD_eq_getElem?_getD, hget]
        refine (internChild_grows _ hd parent' ⟨kind, _, occurrence⟩).mono ?_
        rintro id d' - - ⟨start, hst, hid⟩ path hpath
        generalize hq : path = q at hpath
        cases hpath with
        | root hi' _ =>
          rw [hi] at hi'
          cases hi'
        | child hi' hname' hpar =>
          rw [hi] at hi'
          obtain ⟨rfl, rfl, rfl, rfl⟩ := Node.child.inj (Option.some.inj hi')
          cases hget.symm.trans hname'
          have hmn := hm.path _ _ _ hpar' hpar
          obtain rfl := hst.2.functional hmn.2
          exact hid
      · exact .throw hd
    · exact .throw hd

theorem importNodes_grows {source : DefinitionTable} (pending : List Nat) :
    ∀ {d : TableData} {entries : List (Option DefinitionId)}, Valid d → Source table source d →
      Mapped table source.data entries d →
      Grows Valid Extends (importNodes table source pending entries) d (fun entries' d' =>
        Mapped table source.data entries' d' ∧ ∀ (k : Nat), k < source.data.nodes.length →
          k ∈ pending ∨ (∃ id, entries[k]? = some (some id)) →
          ∃ id, entries'[k]? = some (some id)) := by
  induction pending with
  | nil =>
    intro d entries hd hs hm
    refine .pure hd ⟨hm, fun k _ hk => hk.resolve_left (not_mem_nil)⟩
  | cons index pending ih =>
    intro d entries hd hs hm
    refine .bind (importNode_grows hd hs hm index) (fun id d' hd' hgr hid => ?_)
    refine (ih hd' (hs.extend hgr) ((hm.extend hgr).set hid)).mono ?_
    rintro entries' d'' - - ⟨hm', hmapped⟩
    refine ⟨hm', fun k hlt hk => hmapped k hlt ?_⟩
    by_cases hidx : k = index
    · subst hidx
      right
      exact ⟨id, by rw [getElem?_set_self (by rw [hm.length]; exact hlt)]⟩
    · rcases hk with hk | ⟨id', hid'⟩
      · exact .inl ((mem_cons.mp hk).resolve_left hidx)
      · exact .inr ⟨id', by rw [getElem?_set_ne (Ne.symm hidx), hid']⟩

/-- What was pending stays pending. -/
theorem mem_pendingLoop_of_mem {source : TableData} {k : Nat}
    (fuel : Nat) : ∀ {index : Nat} {pending : List Nat}, k ∈ pending →
      k ∈ pendingLoop source entries fuel index pending := by
  induction fuel with
  | zero => exact fun h => h
  | succ fuel ih =>
    intro index pending h
    unfold pendingLoop
    split
    · split
      · exact ih (mem_cons_of_mem _ h)
      · exact mem_cons_of_mem _ h
    · exact h

/-- The requested node is mapped already, or imported. -/
theorem mem_pendingLoop {source : TableData} (fuel : Nat)
    (hlt : index < entries.length) (pending : List Nat) :
    index ∈ pendingLoop source entries (fuel + 1) index pending ∨
      ∃ id, entries[index]? = some (some id) := by
  have hget := getElem?_eq_getElem hlt
  cases hent : entries[index] with
  | some id =>
    right
    exact ⟨id, by rw [hget, hent]⟩
  | none =>
    left
    rw [hent] at hget
    unfold pendingLoop
    rw [hget]
    dsimp only
    split
    · exact mem_pendingLoop_of_mem _ mem_cons_self
    · exact mem_cons_self

theorem importIds_grows {source : DefinitionTable} (ids : List DefinitionId) :
    ∀ {d : TableData} {entries : List (Option DefinitionId)}, Valid d → Source table source d →
      Mapped table source.data entries d →
      Grows Valid Extends (importIds table source ids entries) d (fun entries' d' =>
        Mapped table source.data entries' d' ∧
        (∀ (k : Nat), k < source.data.nodes.length → (∃ id, entries[k]? = some (some id)) →
          ∃ id, entries'[k]? = some (some id)) ∧
        ∀ id ∈ ids, validateId source.id source.data id = .ok () ∧
          ∃ id', entries'[id.index]? = some (some id')) := by
  induction ids with
  | nil =>
    intro d entries hd hs hm
    exact .pure hd ⟨hm, fun k _ hk => hk, by simp⟩
  | cons id ids ih =>
    intro d entries hd hs hm
    refine .bind (checked_grows hd _) ?_
    rintro _ _ - - ⟨rfl, hvld⟩
    obtain ⟨-, hlt⟩ := validateId_ok.mp hvld
    refine .bind (importNodes_grows _ hd hs hm) ?_
    rintro entries' d' hd' hgr ⟨hm', hmapped⟩
    refine (ih hd' (hs.extend hgr) hm').mono ?_
    rintro entries'' d'' - - ⟨hm'', hkeep, hids⟩
    refine ⟨hm'', fun k hk hold => hkeep k hk (hmapped k hk (.inr hold)), ?_⟩
    refine forall_mem_cons.mpr ⟨⟨hvld, hkeep _ hlt (hmapped _ hlt ?_)⟩, hids⟩
    exact mem_pendingLoop _ (by rw [hm.length]; exact hlt) []

/-- An import maps the identities it was asked for to those of the same paths. -/
theorem importFrom_grows {source : DefinitionTable} (hd : Valid d) (hs : Source table source d)
    (ids : List DefinitionId) :
    Grows Valid Extends (importFrom table source ids) d (fun mapping d' =>
      ∀ id ∈ ids, ∃ id' path, mapping.map id = .ok id' ∧ Means source.id source.data id path ∧
        Means table d' id' path) := by
  have hemp : Mapped table source.data (List.replicate source.data.nodes.length none) d := by
    refine ⟨length_replicate, fun k id path hk => ?_⟩
    rw [getElem?_replicate] at hk
    split at hk <;> cases hk
  refine .bind (importIds_grows ids hd hs hemp) ?_
  rintro entries d' hd' - ⟨hm, -, hids⟩
  refine .pure hd' (fun id hid => ?_)
  obtain ⟨hvld, id', hid'⟩ := hids id hid
  obtain ⟨htab, hlt⟩ := validateId_ok.mp hvld
  obtain ⟨path, hpath, -⟩ := hs.valid.core.exists_pathAt hlt
  refine ⟨id', path, ?_, ⟨htab, hpath⟩, hm.path _ _ _ hid' hpath⟩
  unfold DefinitionRemap.map
  rw [if_neg (not_not.mpr htab)]
  dsimp only
  rw [hid']

/-! ## Processes -/

structure DefinitionTableBuilder where
  id : Nat
  data : TableData

namespace DefinitionTableBuilder

def freeze (builder : DefinitionTableBuilder) : DefinitionTable := ⟨builder.id, builder.data⟩

/-- Run a method. -/
def run {α : Type} (builder : DefinitionTableBuilder) (method : TableM α) :
    Except DefinitionTableError α × DefinitionTableBuilder :=
  ((exec method builder.data).1, { builder with data := (exec method builder.data).2 })

end DefinitionTableBuilder

/-- The builders and the snapshots of a process; `next` is the counter `NEXT_TABLE`. -/
structure Process where
  next : Nat
  builders : List DefinitionTableBuilder
  tables : List DefinitionTable

/-- One call: make a builder, take a snapshot of one, or run a method of one. -/
inductive Call where
  | new
  | freeze (builder : Nat)
  | internRoot (builder : Nat) (module : ModuleIdentity)
  | internPath (builder : Nat) (path : DefinitionPath)
  | internChild (builder : Nat) (parent : DefinitionId) (kind : DefinitionKind) (name : String)
      (occurrence : Nat)
  | importFrom (builder : Nat) (source : Nat) (ids : List DefinitionId)

variable {b : DefinitionTableBuilder} {builders : List DefinitionTableBuilder}

namespace Process

def start : Process := ⟨1, [], []⟩

/-- The process after a method of a builder, whether it returned or stopped. -/
def method {α : Type} (p : Process) (builder : Nat) (m : Nat → TableM α) : Process :=
  { p with builders := p.builders.modify builder fun b => (b.run (m b.id)).2 }

def step (p : Process) : Call → Process
  | .new =>
    -- `checked_add` fails at the last number
    if p.next + 1 < 2 ^ 32 then
      { p with next := p.next + 1, builders := p.builders ++ [⟨p.next, .empty⟩] }
    else p
  | .freeze builder =>
    { p with tables := p.tables ++ ((p.builders[builder]?).map (·.freeze)).toList }
  | .internRoot builder module => p.method builder fun table => internRoot table module
  | .internPath builder path => p.method builder fun table => internPath table path
  | .internChild builder parent kind name occurrence =>
    p.method builder fun table => internChild table parent kind name occurrence
  | .importFrom builder source ids =>
    match p.tables[source]? with
    | some source => p.method builder fun table => importFrom table source ids
    | none => p

def run (p : Process) (calls : List Call) : Process := calls.foldl step p

/-- Builders have identities of their own, and every snapshot is an early state of its builder. -/
structure Consistent (p : Process) : Prop where
  valid : ∀ b ∈ p.builders, Valid b.data ∧ b.id < p.next
  nodup : (p.builders.map (·.id)).Nodup
  tables : ∀ t ∈ p.tables, Valid t.data ∧ ∃ b ∈ p.builders, b.id = t.id ∧ Extends t.data b.data

/-- Builders stay, with what they hold, and so do snapshots. -/
structure Later (p p' : Process) : Prop where
  builders : ∀ b ∈ p.builders, ∃ b' ∈ p'.builders, b'.id = b.id ∧ Extends b.data b'.data
  tables : ∀ t ∈ p.tables, t ∈ p'.tables

theorem Later.refl (p : Process) : Later p p :=
  ⟨fun b hb => ⟨b, hb, rfl, Std.Refl.refl _⟩, fun _ ht => ht⟩

theorem Later.trans {p q r : Process} (h : Later p q) (h' : Later q r) : Later p r := by
  refine ⟨fun b hb => ?_, fun t ht => h'.tables t (h.tables t ht)⟩
  obtain ⟨b', hb', hid, hgr⟩ := h.builders b hb
  obtain ⟨b'', hb'', hid', hgr'⟩ := h'.builders b' hb'
  exact ⟨b'', hb'', hid'.trans hid, IsTrans.trans _ _ _ hgr hgr'⟩

theorem consistent_start : Consistent start :=
  ⟨by simp [start], by simp [start], by simp [start]⟩

variable {p : Process}

/-- A builder finds its snapshots among the tables with its identity. -/
theorem Consistent.source (h : Consistent p) (hb : b ∈ p.builders)
    (ht : t ∈ p.tables) : Source b.id t b.data := by
  obtain ⟨hvld, b', hb', hid, hgr⟩ := h.tables t ht
  refine ⟨hvld, fun hown => ?_⟩
  rw [← inj_on_of_nodup_map h.nodup hb' hb (hid.trans hown)]
  exact hgr

theorem mem_modify {k : Nat}
    {f : DefinitionTableBuilder → DefinitionTableBuilder}
    (hb : b ∈ builders.modify k f) : ∃ b₀ ∈ builders, b = b₀ ∨ b = f b₀ := by
  obtain ⟨i, hi⟩ := mem_iff_getElem?.mp hb
  rw [getElem?_modify] at hi
  obtain ⟨b₀, hb₀, hif⟩ := Option.map_eq_some_iff.mp hi
  refine ⟨b₀, mem_of_getElem? hb₀, ?_⟩
  split at hif
  · exact .inr hif.symm
  · exact .inl hif.symm

theorem exists_modify (k : Nat)
    (f : DefinitionTableBuilder → DefinitionTableBuilder)
    (hb : b ∈ builders) : b ∈ builders.modify k f ∨ f b ∈ builders.modify k f := by
  obtain ⟨i, hi⟩ := mem_iff_getElem?.mp hb
  by_cases hk : k = i
  · refine .inr (mem_iff_getElem?.mpr ⟨i, ?_⟩)
    simp [hi, hk]
  · refine .inl (mem_iff_getElem?.mpr ⟨i, ?_⟩)
    simp [hi, hk]

/-- A method that keeps tables valid and only adds to them keeps the process consistent. -/
theorem Consistent.method (h : Consistent p) (k : Nat) (m : Nat → TableM α)
    (hm : ∀ b ∈ p.builders, ∃ P, Grows Valid Extends (m b.id) b.data P) :
    Consistent (p.method k m) ∧ Later p (p.method k m) := by
  have hlat : ∀ b ∈ p.builders, ∃ b' ∈ (p.method k m).builders,
      b'.id = b.id ∧ Extends b.data b'.data := by
    intro b hb
    obtain ⟨P, hP⟩ := hm b hb
    rcases exists_modify k (fun b => (b.run (m b.id)).2) hb with hb' | hb'
    · exact ⟨b, hb', rfl, Std.Refl.refl _⟩
    · exact ⟨_, hb', rfl, hP.grows⟩
  refine ⟨⟨fun b hb => ?_, ?_, fun t ht => ?_⟩, hlat, fun t ht => ht⟩
  · obtain ⟨b₀, hb₀, rfl | rfl⟩ := mem_modify hb
    · exact h.valid b hb₀
    · obtain ⟨P, hP⟩ := hm b₀ hb₀
      exact ⟨hP.keeps, (h.valid b₀ hb₀).2⟩
  · have hids : (p.method k m).builders.map (·.id) = p.builders.map (·.id) := by
      apply ext_getElem?
      intro i
      simp only [Process.method, getElem?_map, getElem?_modify]
      cases p.builders[i]? with
      | none => rfl
      | some b =>
        by_cases hk : k = i
        · simp [hk, DefinitionTableBuilder.run]
        · simp [hk]
    rw [hids]
    exact h.nodup
  · obtain ⟨hvld, b, hb, hid, hgr⟩ := h.tables t ht
    obtain ⟨b', hb', hid', hgr'⟩ := hlat b hb
    exact ⟨hvld, b', hb', hid'.trans hid, IsTrans.trans _ _ _ hgr hgr'⟩

theorem Consistent.new (h : Consistent p) : Consistent (p.step .new) ∧ Later p (p.step .new) := by
  unfold step
  dsimp only
  split
  · refine ⟨⟨fun b hb => ?_, ?_, fun t ht => ?_⟩,
      fun b hb => ⟨b, mem_append_left _ hb, rfl, Std.Refl.refl _⟩, fun t ht => ht⟩
    · rcases mem_append.mp hb with hb | hb
      · obtain ⟨hvld, hlt⟩ := h.valid b hb
        exact ⟨hvld, Nat.lt_succ_of_lt hlt⟩
      · rw [mem_singleton.mp hb]
        exact ⟨valid_empty, Nat.lt_succ_self _⟩
    · rw [map_append, nodup_append]
      refine ⟨h.nodup, nodup_singleton _, ?_⟩
      rintro id hid _ hnew rfl
      obtain ⟨b, hb, rfl⟩ := mem_map.mp hid
      have hlt := (h.valid b hb).2
      rw [map_singleton, mem_singleton] at hnew
      exact absurd hnew (Nat.ne_of_lt hlt)
    · obtain ⟨hvld, b, hb, hid, hgr⟩ := h.tables t ht
      exact ⟨hvld, b, mem_append_left _ hb, hid, hgr⟩
  · exact ⟨h, .refl p⟩

theorem Consistent.freeze (h : Consistent p) (k : Nat) :
    Consistent (p.step (.freeze k)) ∧ Later p (p.step (.freeze k)) := by
  refine ⟨⟨h.valid, h.nodup, fun t ht => ?_⟩,
    fun b hb => ⟨b, hb, rfl, Std.Refl.refl _⟩, fun t ht => mem_append_left _ ht⟩
  rcases mem_append.mp ht with ht | ht
  · exact h.tables t ht
  · obtain ⟨b, hb, rfl⟩ := Option.map_eq_some_iff.mp (Option.mem_toList.mp ht)
    have hmem := mem_of_getElem? hb
    exact ⟨(h.valid b hmem).1, b, hmem, rfl, Std.Refl.refl _⟩

theorem Consistent.step (h : Consistent p) (call : Call) :
    Consistent (p.step call) ∧ Later p (p.step call) := by
  cases call with
  | new => exact h.new
  | freeze k => exact h.freeze k
  | internRoot k m =>
    exact h.method k (fun table => internRoot table m) fun b hb =>
      ⟨_, internRoot_grows _ (h.valid b hb).1 m⟩
  | internPath k path =>
    exact h.method k (fun table => internPath table path) fun b hb =>
      ⟨_, internPath_grows _ (h.valid b hb).1 path⟩
  | internChild k parent kind name occurrence =>
    exact h.method k (fun table => internChild table parent kind name occurrence) fun b hb =>
      ⟨_, internChild_grows _ (h.valid b hb).1 parent ⟨kind, name, occurrence⟩⟩
  | importFrom k source ids =>
    unfold Process.step
    dsimp only
    split
    · rename_i t ht
      exact h.method k (fun table => importFrom table t ids) fun b hb =>
        ⟨_, importFrom_grows (h.valid b hb).1 (h.source hb (mem_of_getElem? ht)) ids⟩
    · exact ⟨h, .refl p⟩

theorem Consistent.run (calls : List Call) : ∀ {p : Process}, Consistent p →
    Consistent (p.run calls) ∧ Later p (p.run calls) := by
  induction calls with
  | nil => exact fun h => ⟨h, .refl _⟩
  | cons call calls ih =>
    intro p h
    obtain ⟨hstep, hlat⟩ := h.step call
    obtain ⟨hrun, hlat'⟩ := ih hstep
    exact ⟨hrun, hlat.trans hlat'⟩

end Process

/-! ## Identities and paths -/

theorem DefinitionTable.resolve_iff (h : Valid t.data) :
    t.resolve id = .ok (some path) ↔ Means t.id t.data id path := by
  unfold DefinitionTable.resolve
  constructor
  · intro hrun
    obtain ⟨_, hvld, hpath⟩ := bind_ok.mp hrun
    exact ⟨(validateId_ok.mp hvld).1, h.core.toPath_iff.mp (Except.ok.inj hpath)⟩
  · intro hid
    rw [validateId_ok.mpr ⟨hid.1, hid.2.lt⟩, h.core.toPath_iff.mpr hid.2]
    rfl

theorem DefinitionTable.lookup_iff (h : Valid t.data) :
    t.lookup path = some id ↔ Means t.id t.data id path := by
  unfold DefinitionTable.lookup
  rw [Option.map_eq_some_iff]
  constructor
  · rintro ⟨i, hi, rfl⟩
    exact ⟨rfl, h.core.lookup_iff.mp hi⟩
  · intro hid
    exact ⟨id.index, h.core.lookup_iff.mpr hid.2, hid.eq.symm⟩

/-- The identities of a table and their paths are in bijection: every identity it accepts resolves to
a path of at most the length `segments` has room for, and paths are looked up to the identities that
resolve to them. The module maps find the same modules as the node table. -/
structure Bijective (t : DefinitionTable) : Prop where
  resolve : ∀ id, validateId t.id t.data id = .ok () → ∃ path, t.resolve id = .ok (some path) ∧
    path.path.length ≤ maxIdentityPathSegments
  lookup : ∀ id path, t.lookup path = some id ↔ t.resolve id = .ok (some path)
  modules : ∀ package path, t.lookupModulePath package path = t.lookupRoot ⟨package, path⟩

theorem bijective_of_valid (h : Valid t.data) : Bijective t := by
  refine ⟨fun id hvld => ?_, fun id path => ?_, fun package path => ?_⟩
  · obtain ⟨htab, hlt⟩ := validateId_ok.mp hvld
    obtain ⟨path, hpath, hle⟩ := h.core.exists_pathAt hlt
    exact ⟨path, (DefinitionTable.resolve_iff h).mpr ⟨htab, hpath⟩, hle⟩
  · rw [DefinitionTable.resolve_iff h, DefinitionTable.lookup_iff h]
  · unfold DefinitionTable.lookupModulePath DefinitionTable.lookupRoot
    rw [h.lookupModulePath_eq]

/-- What the builder's methods return resolves, in the builder afterwards, to the path that was
asked for; and a path that is there already is returned again, with the builder as it was. -/
structure Interns (b : DefinitionTableBuilder) (tables : List DefinitionTable) : Prop where
  root : ∀ module id b', b.run (internRoot b.id module) = (.ok id, b') →
    b'.freeze.resolve id = .ok (some ⟨module, []⟩)
  child : ∀ parent (segment : DefinitionPathSegment) id b', b.run (internChild b.id parent
      segment.kind segment.name segment.occurrence) = (.ok id, b') →
    ∃ path, b.freeze.resolve parent = .ok (some path) ∧
      b'.freeze.resolve id = .ok (some (path.below segment))
  path : ∀ path id b', b.run (internPath b.id path) = (.ok id, b') →
    b'.freeze.resolve id = .ok (some path)
  imported : ∀ source ∈ tables, ∀ ids mapping b',
    b.run (importFrom b.id source ids) = (.ok mapping, b') → ∀ id ∈ ids, ∃ id' path,
      mapping.map id = .ok id' ∧ source.resolve id = .ok (some path) ∧
      b'.freeze.resolve id' = .ok (some path)
  again : ∀ path id, b.freeze.resolve id = .ok (some path) →
    b.run (internPath b.id path) = (.ok id, b)
  rootAgain : ∀ module id, b.freeze.resolve id = .ok (some ⟨module, []⟩) →
    b.run (internRoot b.id module) = (.ok id, b)
  childAgain : ∀ parent path (segment : DefinitionPathSegment) id,
    b.freeze.resolve parent = .ok (some path) →
    b.freeze.resolve id = .ok (some (path.below segment)) →
    b.run (internChild b.id parent segment.kind segment.name segment.occurrence) = (.ok id, b)

/-- The run of a method, by its parts. -/
theorem DefinitionTableBuilder.run_eq {b b' : DefinitionTableBuilder} {m : TableM α} {a : α}
    (h : b.run m = (.ok a, b')) : (exec m b.data).1 = .ok a ∧ b' = ⟨b.id, (exec m b.data).2⟩ := by
  obtain ⟨hres, hbldr⟩ := Prod.mk.inj h
  exact ⟨hres, hbldr.symm⟩

theorem DefinitionTableBuilder.run_same {m : TableM α} {a : α}
    (h : exec m b.data = (.ok a, b.data)) : b.run m = (.ok a, b) := by
  unfold run
  rw [h]

theorem interns_of_consistent {p : Process} (hp : p.Consistent)
    (hb : b ∈ p.builders) : Interns b p.tables := by
  have hvld : Valid b.data := (hp.valid b hb).1
  refine ⟨?_, ?_, ?_, ?_, ?_, ?_, ?_⟩
  · intro module id b' hrun
    obtain ⟨hres, rfl⟩ := DefinitionTableBuilder.run_eq hrun
    have hgr := internRoot_grows b.id hvld module
    exact (DefinitionTable.resolve_iff hgr.keeps).mpr (hgr.value id hres)
  · intro parent segment id b' hrun
    obtain ⟨hres, rfl⟩ := DefinitionTableBuilder.run_eq hrun
    have hgr := internChild_grows b.id hvld parent segment
    obtain ⟨path, hpar, hid⟩ := hgr.value id hres
    exact ⟨path, (DefinitionTable.resolve_iff hvld).mpr hpar,
      (DefinitionTable.resolve_iff hgr.keeps).mpr hid⟩
  · intro path id b' hrun
    obtain ⟨hres, rfl⟩ := DefinitionTableBuilder.run_eq hrun
    have hgr := internPath_grows b.id hvld path
    exact (DefinitionTable.resolve_iff hgr.keeps).mpr (hgr.value id hres)
  · intro source hsrc ids mapping b' hrun id hid
    obtain ⟨hres, rfl⟩ := DefinitionTableBuilder.run_eq hrun
    have hs := hp.source hb hsrc
    have hgr := importFrom_grows hvld hs ids
    obtain ⟨id', path, hmap, hpath, hpath'⟩ := hgr.value mapping hres id hid
    exact ⟨id', path, hmap, (DefinitionTable.resolve_iff hs.valid).mpr hpath,
      (DefinitionTable.resolve_iff hgr.keeps).mpr hpath'⟩
  · intro path id hid
    exact DefinitionTableBuilder.run_same
      (exec_internPath_old hvld ((DefinitionTable.resolve_iff hvld).mp hid))
  · intro module id hid
    exact DefinitionTableBuilder.run_same
      (exec_internRoot_old hvld ((DefinitionTable.resolve_iff hvld).mp hid))
  · intro parent path segment id hpar hid
    exact DefinitionTableBuilder.run_same (exec_internChild_old _ hvld
      ((DefinitionTable.resolve_iff hvld).mp hpar)
      ((DefinitionTable.resolve_iff hvld).mp hid))

/-- After any calls, every builder and every snapshot is a bijection between its identities and their
paths, and interns into it; after any further calls, builders and snapshots give every identity the
path it had. -/
theorem definitionTable_identities (calls more : List Call) :
    let p := Process.start.run calls
    let p' := p.run more
    (∀ b ∈ p.builders, Bijective b.freeze ∧ Interns b p.tables) ∧
    (∀ t ∈ p.tables, Bijective t ∧ t ∈ p'.tables ∧ ∃ b ∈ p'.builders, b.id = t.id ∧
      ∀ id path, t.resolve id = .ok (some path) → b.freeze.resolve id = .ok (some path)) ∧
    ∀ b ∈ p.builders, ∃ b' ∈ p'.builders, b'.id = b.id ∧
      ∀ id path, b.freeze.resolve id = .ok (some path) → b'.freeze.resolve id = .ok (some path) := by
  intro p p'
  obtain ⟨hp, -⟩ := Process.consistent_start.run calls
  obtain ⟨hp', hlat⟩ := hp.run more
  refine ⟨fun b hb => ?_, fun t ht => ?_, fun b hb => ?_⟩
  · exact ⟨bijective_of_valid (hp.valid b hb).1, interns_of_consistent hp hb⟩
  · have ht' := hlat.tables t ht
    obtain ⟨hvld, b, hb, hid, hgr⟩ := hp'.tables t ht'
    refine ⟨bijective_of_valid hvld, ht', b, hb, hid, fun id path hpath => ?_⟩
    have hmn := (DefinitionTable.resolve_iff hvld).mp hpath
    refine (DefinitionTable.resolve_iff (hp'.valid b hb).1).mpr ?_
    exact ⟨hmn.1.trans hid.symm, hmn.2.extend hgr⟩
  · obtain ⟨b', hb', hid, hgr⟩ := hlat.builders b hb
    refine ⟨b', hb', hid, fun id path hpath => ?_⟩
    have hmn := (DefinitionTable.resolve_iff (hp.valid b hb).1).mp hpath
    refine (DefinitionTable.resolve_iff (hp'.valid b' hb').1).mpr ?_
    exact ⟨hmn.1.trans hid.symm, hmn.2.extend hgr⟩

/-- The field `hp` of the struct `Player` of a module. -/
def playerHp : DefinitionPath :=
  ⟨⟨"game", ["combat"]⟩, [⟨.struct, "Player", 0⟩, ⟨.field, "hp", 0⟩]⟩

/-- Two builders: the first one interns a field and is imported into the second. -/
def importedField : List Call :=
  [.new, .internPath 0 playerHp, .freeze 0, .new, .importFrom 1 0 [⟨1, 3⟩]]

theorem definitionTable_identities_importedField :
    ∃ t b, (Process.start.run importedField).tables = [t] ∧
      (Process.start.run importedField).builders[1]? = some b ∧
      t.lookup playerHp = some ⟨1, 3⟩ ∧ t.resolve ⟨1, 3⟩ = .ok (some playerHp) ∧
      t.lookupModulePath "game" ["combat"] = t.lookupRoot ⟨"game", ["combat"]⟩ ∧
      b.freeze.resolve ⟨2, 3⟩ = .ok (some playerHp) ∧
      b.run (internPath b.id playerHp) = (.ok ⟨2, 3⟩, b) := by
  obtain ⟨hbuilders, htabs, -⟩ := definitionTable_identities importedField []
  have htab : (Process.start.run importedField).tables.map (·.lookup playerHp) =
      [some ⟨1, 3⟩] := by
    decide +kernel
  have hbldr : ((Process.start.run importedField).builders[1]?).map (·.freeze.lookup playerHp) =
      some (some ⟨2, 3⟩) := by
    decide +kernel
  obtain ⟨t, ht, htlookup⟩ := List.map_eq_singleton_iff.mp htab
  obtain ⟨b, hb, hblookup⟩ := Option.map_eq_some_iff.mp hbldr
  obtain ⟨htbij, -⟩ := htabs t (by rw [ht]; exact List.mem_singleton_self t)
  obtain ⟨hbbij, hbinterns⟩ := hbuilders b (List.mem_of_getElem? hb)
  have hrslv := (hbbij.lookup _ _).mp hblookup
  exact ⟨t, b, ht, hb, htlookup, (htbij.lookup _ _).mp htlookup, htbij.modules _ _, hrslv,
    hbinterns.again _ _ hrslv⟩

end Kagari.Identity
