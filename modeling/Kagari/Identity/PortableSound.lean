import Mathlib.Data.Fintype.Card
import Kagari.Identity.Portable

/-!
# Portable tables are canonical and can be read back

The paths of the encoded definitions are an increasing list, closed under parents (`Forest`), and the
encoding is a function of that list alone (`canonicalNode`). Decoding interns the paths one after
another; what it adds to its table has its place in the encoded table too, so there is room for it.
-/

namespace Kagari.Identity

open Lib Stateful TableData Function List

/-! ## Canonical nodes -/

/-- The path without its last segment. -/
def DefinitionPath.above (path : DefinitionPath) : DefinitionPath :=
  { path with path := path.path.dropLast }

/-- An increasing list of paths, with the parent of each one. -/
structure Forest (paths : List DefinitionPath) : Prop where
  sorted : paths.Pairwise (· < ·)
  closed : ∀ path segment, path.below segment ∈ paths → path ∈ paths

/-- The record of a path among `paths`, by their positions. -/
def canonicalNode (paths : List DefinitionPath) (path : DefinitionPath) : Option PortableNode :=
  match path.path.getLast? with
  | none => ((SortedSet.ofList (paths.map (·.module))).idxOf? path.module).map .root
  | some last => do
    let parent ← paths.idxOf? path.above
    let name ← (SortedSet.ofList (lastNames paths)).idxOf? last.name
    return .child parent last.kind name last.occurrence

@[simp] theorem DefinitionPath.above_below (path : DefinitionPath) (segment : DefinitionPathSegment) :
    (path.below segment).above = path := by
  simp [above, below]

/-- A path is a root, or one segment below another path. -/
theorem DefinitionPath.cases_below (path : DefinitionPath) :
    path.path = [] ∨ ∃ above segment, path = DefinitionPath.below above segment := by
  obtain ⟨m, segments⟩ := path
  rcases eq_nil_or_concat segments with rfl | ⟨above, segment, rfl⟩
  · exact .inl rfl
  · refine .inr ⟨⟨m, above⟩, segment, ?_⟩
    rw [concat_eq_append]
    rfl

variable {path : DefinitionPath} {paths : List DefinitionPath} {segment : DefinitionPathSegment}
  {m : ModuleIdentity} {ids : List DefinitionId} {required : List Nat} {t : DefinitionTable}
  {package : String}

theorem mem_lastNames
    (h : path.below segment ∈ paths) :
    segment.name ∈ lastNames paths := by
  unfold lastNames
  rw [mem_filterMap]
  exact ⟨path.below segment, h, by simp [DefinitionPath.below]⟩

theorem exists_idxOf? {α : Type} [DecidableEq α] {l : List α} {a : α} (h : a ∈ l) :
    ∃ k, l.idxOf? a = some k ∧ l[k]? = some a := by
  cases hk : l.idxOf? a with
  | none => exact absurd h (idxOf?_eq_none_iff.mp hk)
  | some k =>
    obtain ⟨hlt, heq, -⟩ := idxOf?_eq_some_iff.mp hk
    exact ⟨k, rfl, by rw [getElem?_eq_getElem hlt, heq]⟩

theorem Forest.canonicalNode_root
    (hmem : ⟨m, []⟩ ∈ paths) : ∃ k, canonicalNode paths ⟨m, []⟩ = some (.root k) ∧
      (SortedSet.ofList (paths.map (·.module)))[k]? = some m := by
  have hmod : m ∈ SortedSet.ofList (paths.map (·.module)) :=
    SortedSet.mem_ofList.mpr (mem_map_of_mem hmem)
  obtain ⟨k, hk, hget⟩ := exists_idxOf? hmod
  exact ⟨k, by simp [canonicalNode, hk], hget⟩

theorem Forest.canonicalNode_child (h : Forest paths)
    (hmem : path.below segment ∈ paths) :
    ∃ parent name, canonicalNode paths (path.below segment) =
        some (.child parent segment.kind name segment.occurrence) ∧ paths[parent]? = some path ∧
      (SortedSet.ofList (lastNames paths))[name]? = some segment.name := by
  obtain ⟨parent, hpar, hget⟩ := exists_idxOf? (h.closed path segment hmem)
  obtain ⟨name, hname, hnget⟩ := exists_idxOf? (SortedSet.mem_ofList.mpr (mem_lastNames hmem))
  refine ⟨parent, name, ?_, hget, hnget⟩
  have hlast : (path.below segment).path.getLast? = some segment := by
    simp [DefinitionPath.below]
  simp [canonicalNode, hlast, hpar, hname]

/-! ## The required nodes -/

/-- The first path is the second one or one of its ancestors. -/
def DefinitionPath.UpTo (path : DefinitionPath) (below : DefinitionPath) : Prop :=
  path.module = below.module ∧ path.path <+: below.path

section Required

variable {d : TableData}

theorem exists_pathAt_upTo {i : Nat} (path : DefinitionPath) {below : DefinitionPath} (h : PathAt d i below)
    (hup : path.UpTo below) : ∃ j, PathAt d j path := by
  obtain ⟨m, segments⟩ := path
  obtain ⟨rfl, rest, hrest⟩ := hup
  have hmn : Means 0 d ⟨0, i⟩ ⟨below.module, segments ++ rest⟩ := ⟨rfl, hrest.symm ▸ h⟩
  obtain ⟨id, hid⟩ := hmn.take segments
  exact ⟨id.index, hid.2⟩

/-- Parents of the required nodes are required too, but for `index`. -/
def ClosedBut (d : TableData) (index : Option Nat) (required : List Nat) : Prop :=
  ∀ i ∈ required, ∀ (parent : Nat) (kind : DefinitionKind) (name occurrence : Nat),
    d.nodes[i]? = some (.child parent kind name occurrence) → parent ∈ required ∨ index = some parent

/-- What one request adds. -/
structure Requires (d : TableData) (index : Nat) (required result : List Nat) : Prop where
  nodup : result.Nodup
  lt : ∀ i ∈ result, i < d.nodes.length
  closed : ClosedBut d none result
  keeps : ∀ i ∈ required, i ∈ result
  mem : index ∈ result
  upTo : ∀ i ∈ result, i ∈ required ∨ ∀ path below, PathAt d i path → PathAt d index below →
    path.UpTo below

theorem ClosedBut.resolve {index : Nat}
    (h : ClosedBut d (some index) required) (hmem : index ∈ required) :
    ClosedBut d none required := by
  intro i hi parent kind name occurrence hnode
  rcases h i hi parent kind name occurrence hnode with hpar | heq
  · exact .inl hpar
  · exact .inl (Option.some.inj heq ▸ hmem)

theorem requiredLoop_requires (h : Core d) (fuel : Nat) : ∀ {index : Nat} {required : List Nat},
    index < fuel → index < d.nodes.length → required.Nodup → (∀ i ∈ required, i < d.nodes.length) →
    ClosedBut d (some index) required →
    Requires d index required (requiredLoop d fuel index required) := by
  induction fuel with
  | zero => exact fun hlt => absurd hlt (Nat.not_lt_zero _)
  | succ fuel ih =>
    intro index required hfuel hlt hnd hbnd hclos
    unfold requiredLoop
    by_cases hmem : index ∈ required
    · rw [if_pos hmem]
      exact ⟨hnd, hbnd, hclos.resolve hmem, fun _ hi => hi, hmem, fun _ hi => .inl hi⟩
    · rw [if_neg hmem]
      have hnd' : (required ++ [index]).Nodup := by
        rw [nodup_append]
        refine ⟨hnd, nodup_singleton _, fun i hi j hj => ?_⟩
        rw [mem_singleton.mp hj]
        exact ne_of_mem_of_not_mem hi hmem
      have hbnd' : ∀ i ∈ required ++ [index], i < d.nodes.length := by
        intro i hi
        rcases mem_append.mp hi with hi | hi
        · exact hbnd i hi
        · exact mem_singleton.mp hi ▸ hlt
      have hself : index ∈ required ++ [index] := by simp
      have hget := getElem?_eq_getElem hlt
      rw [hget]
      cases hnode : d.nodes[index] with
      | root m =>
        refine ⟨hnd', hbnd', ?_, fun i hi => mem_append_left _ hi, hself, fun i hi => ?_⟩
        · intro i hi parent kind name occurrence hi'
          rcases mem_append.mp hi with hi | hi
          · rcases hclos i hi parent kind name occurrence hi' with hpar | heq
            · exact .inl (mem_append_left _ hpar)
            · exact .inl (Option.some.inj heq ▸ hself)
          · rw [mem_singleton.mp hi, hget, hnode] at hi'
            cases hi'
        · rcases mem_append.mp hi with hi | hi
          · exact .inl hi
          · right
            intro path below hpath hbelow
            rw [mem_singleton.mp hi] at hpath
            rw [hpath.functional hbelow]
            exact ⟨rfl, prefix_refl _⟩
      | child parent kind name occurrence =>
        rw [hnode] at hget
        obtain ⟨hpar, hname, -⟩ := h.child index parent kind name occurrence hget
        have hclos' : ClosedBut d (some parent) (required ++ [index]) := by
          intro i hi parent' kind' name' occurrence' hi'
          rcases mem_append.mp hi with hi | hi
          · rcases hclos i hi parent' kind' name' occurrence' hi' with hpar' | heq
            · exact .inl (mem_append_left _ hpar')
            · exact .inl (Option.some.inj heq ▸ hself)
          · rw [mem_singleton.mp hi, hget] at hi'
            obtain ⟨rfl, -⟩ := Node.child.inj (Option.some.inj hi')
            exact .inr rfl
        have hrec := ih (by omega) (by omega) hnd' hbnd' hclos'
        refine ⟨hrec.nodup, hrec.lt, hrec.closed,
          fun i hi => hrec.keeps i (mem_append_left _ hi), hrec.keeps index hself, fun i hi => ?_⟩
        rcases hrec.upTo i hi with hold | hup
        · rcases mem_append.mp hold with hold | hold
          · exact .inl hold
          · right
            intro path below hpath hbelow
            rw [mem_singleton.mp hold] at hpath
            rw [hpath.functional hbelow]
            exact ⟨rfl, prefix_refl _⟩
        · right
          intro path below hpath hbelow
          obtain ⟨above, habove, -⟩ := h.exists_pathAt (show parent < d.nodes.length by omega)
          obtain ⟨hmod, hpre⟩ := hup path above hpath habove
          have hch := PathAt.child hget (getElem?_eq_getElem hname) habove
          obtain rfl := hbelow.functional hch
          exact ⟨hmod, hpre.trans (prefix_append _ _)⟩

/-- The required nodes of a request: the requested ones and their ancestors. -/
structure RequiredFor (d : TableData) (ids : List DefinitionId) (required : List Nat) : Prop where
  nodup : required.Nodup
  lt : ∀ i ∈ required, i < d.nodes.length
  closed : ClosedBut d none required
  mem : ∀ id ∈ ids, id.index ∈ required
  upTo : ∀ i ∈ required, ∃ id ∈ ids, ∀ path below, PathAt d i path → PathAt d id.index below →
    path.UpTo below

theorem requiredIds_ok (h : Core t.data) (ids : List DefinitionId) :
    ∀ {before : List DefinitionId} {required : List Nat}, RequiredFor t.data before required →
      (∀ id ∈ ids, validateId t.id t.data id = .ok ()) →
      ∃ result, requiredIds t ids required = .ok result ∧ RequiredFor t.data (before ++ ids) result := by
  induction ids with
  | nil =>
    intro before required hreqd _
    exact ⟨required, rfl, by rwa [append_nil]⟩
  | cons id ids ih =>
    intro before required hreqd hvld
    obtain ⟨hid, hrest⟩ := forall_mem_cons.mp hvld
    obtain ⟨-, hlt⟩ := validateId_ok.mp hid
    have hclos : ClosedBut t.data (some id.index) required := by
      intro i hi parent kind name occurrence hnode
      exact .inl ((hreqd.closed i hi parent kind name occurrence hnode).resolve_right nofun)
    have hloop := requiredLoop_requires h (id.index + 1) (Nat.lt_succ_self _) hlt hreqd.nodup
      hreqd.lt hclos
    have hnext : RequiredFor t.data (before ++ [id])
        (requiredLoop t.data (id.index + 1) id.index required) := by
      refine ⟨hloop.nodup, hloop.lt, hloop.closed, fun id' hid' => ?_, fun i hi => ?_⟩
      · rcases mem_append.mp hid' with hid' | hid'
        · exact hloop.keeps _ (hreqd.mem id' hid')
        · exact mem_singleton.mp hid' ▸ hloop.mem
      · rcases hloop.upTo i hi with hold | hup
        · obtain ⟨id', hid', hup⟩ := hreqd.upTo i hold
          exact ⟨id', mem_append_left _ hid', hup⟩
        · exact ⟨id, by simp, hup⟩
    obtain ⟨result, hrun, hres⟩ := ih hnext hrest
    refine ⟨result, ?_, by simpa using hres⟩
    unfold requiredIds
    rw [hid]
    exact hrun

theorem requiredFor_nil : RequiredFor d [] [] :=
  ⟨nodup_nil, by simp, by simp [ClosedBut], by simp, by simp⟩

/-- The nodes of an ancestor are required. -/
theorem RequiredFor.mem_of_upTo (h : Core d)
    (hr : RequiredFor d ids required) {i j : Nat} {path below : DefinitionPath}
    (hi : i ∈ required) (hbelow : PathAt d i below) (hup : path.UpTo below) (hj : PathAt d j path) :
    j ∈ required := by
  obtain ⟨m, segments⟩ := path
  obtain ⟨rfl, rest, hrest⟩ := hup
  rw [show below = ⟨below.module, segments ++ rest⟩ by rw [hrest]] at hbelow
  clear hrest
  induction rest using List.reverseRecOn generalizing i with
  | nil =>
    rw [append_nil] at hbelow
    rwa [hj.injective h hbelow]
  | append_singleton rest segment ih =>
    rw [← append_assoc] at hbelow
    obtain ⟨parent, name, hnode, -, hpar⟩ := hbelow.child_inv
    exact ih ((hr.closed i hi _ _ _ _ hnode).resolve_right nofun) hpar

/-- The paths of the required nodes are those of the requested ones and their ancestors. -/
theorem RequiredFor.path_iff (h : Core d)
    (hr : RequiredFor d ids required) :
    (∃ i ∈ required, PathAt d i path) ↔
      ∃ id ∈ ids, ∃ below, PathAt d id.index below ∧ path.UpTo below := by
  constructor
  · rintro ⟨i, hi, hpath⟩
    obtain ⟨id, hid, hup⟩ := hr.upTo i hi
    obtain ⟨below, hbelow, -⟩ := h.exists_pathAt (hr.lt _ (hr.mem id hid))
    exact ⟨id, hid, below, hbelow, hup path below hpath hbelow⟩
  · rintro ⟨id, hid, below, hbelow, hup⟩
    obtain ⟨j, hj⟩ := exists_pathAt_upTo _ hbelow hup
    exact ⟨j, hr.mem_of_upTo h (hr.mem id hid) hbelow hup hj, hj⟩

end Required

/-! ## Encoding -/

/-- The encoded nodes with their paths, in the order of the paths. -/
structure Entries (d : TableData) (entries : List (DefinitionPath × Nat)) : Prop where
  forest : Forest (entries.map Prod.fst)
  path : ∀ entry ∈ entries, PathAt d entry.2 entry.1
  nodup : (entries.map Prod.snd).Nodup

section Encode

variable {d : TableData}

theorem sortedPaths_ok (h : Core d) {required order : List Nat}
    (hr : RequiredFor d ids required) (hord : order.Perm required) :
    ∃ entries, sortedPaths d order = some entries ∧ Entries d entries ∧
      (entries.map Prod.snd).Perm required := by
  have hmap : ∀ (l : List Nat), (∀ i ∈ l, i < d.nodes.length) → ∃ pairs,
      (l.mapM fun i => (d.toPath i).map fun path => (path, i)) = some pairs ∧
      pairs.map Prod.snd = l ∧ ∀ entry ∈ pairs, PathAt d entry.2 entry.1 := by
    intro l
    induction l with
    | nil => exact fun _ => ⟨[], rfl, rfl, by simp⟩
    | cons i l ih =>
      intro hlt
      obtain ⟨hi, hrest⟩ := forall_mem_cons.mp hlt
      obtain ⟨path, hpath, -⟩ := h.exists_pathAt hi
      obtain ⟨pairs, hpairs, hsnd, hpth⟩ := ih hrest
      refine ⟨(path, i) :: pairs, ?_, ?_, ?_⟩
      · rw [mapM_cons, h.toPath_iff.mpr hpath, hpairs]
        rfl
      · rw [map_cons, hsnd]
      · exact forall_mem_cons.mpr ⟨hpath, hpth⟩
  obtain ⟨pairs, hpairs, hsnd, hpth⟩ := hmap order fun i hi => hr.lt i (hord.mem_iff.mp hi)
  have hperm := perm_insertionSort (fun a b : DefinitionPath × Nat => a.1 ≤ b.1) pairs
  have hsnds : ((pairs.insertionSort fun a b => a.1 ≤ b.1).map Prod.snd).Perm required :=
    (hperm.map Prod.snd).trans (hsnd.symm ▸ hord)
  have hpth' : ∀ entry ∈ pairs.insertionSort (fun a b => a.1 ≤ b.1),
      PathAt d entry.2 entry.1 := fun entry hent => hpth entry (hperm.mem_iff.mp hent)
  refine ⟨pairs.insertionSort fun a b => a.1 ≤ b.1, ?_, ⟨⟨?_, ?_⟩, hpth', ?_⟩, hsnds⟩
  · unfold sortedPaths
    rw [hpairs]
    rfl
  · -- distinct nodes have distinct paths, so the order is strict
    have : Std.Total (fun a b : DefinitionPath × Nat => a.1 ≤ b.1) := ⟨fun a b => le_total a.1 b.1⟩
    have : IsTrans (DefinitionPath × Nat) (fun a b => a.1 ≤ b.1) := ⟨fun _ _ _ => le_trans⟩
    have hle := pairwise_insertionSort (fun a b : DefinitionPath × Nat => a.1 ≤ b.1) pairs
    have hne := pairwise_map.mp (hsnds.nodup_iff.mpr hr.nodup)
    refine pairwise_map.mpr ((hle.and hne).imp_of_mem fun ha hb hab => ?_)
    refine lt_of_le_of_ne hab.1 fun heq => hab.2 ?_
    exact (hpth' _ ha).injective h (heq ▸ hpth' _ hb)
  · intro path segment hmem
    obtain ⟨entry, hent, heq⟩ := mem_map.mp hmem
    have hpath := hpth' entry hent
    rw [heq] at hpath
    obtain ⟨parent, name, hnode, -, hpar⟩ := hpath.child_inv
    have hent' := hsnds.mem_iff.mp (mem_map_of_mem hent)
    have hreqd := (hr.closed _ hent' _ _ _ _ hnode).resolve_right nofun
    obtain ⟨above, habove, rfl⟩ := mem_map.mp (hsnds.mem_iff.mpr hreqd)
    have hfst : above.1 = path := (hpth' above habove).functional hpar
    rw [← hfst]
    exact mem_map_of_mem habove
  · exact hsnds.nodup_iff.mpr hr.nodup

variable {paths : List DefinitionPath}

/-- Positions in an increasing list stand in its order. -/
theorem Forest.lt_of_lt (h : Forest paths) {j k : Nat}
    {path path' : DefinitionPath} (hj : paths[j]? = some path) (hk : paths[k]? = some path')
    (hlt : path < path') : j < k := by
  obtain ⟨hj', rfl⟩ := List.getElem?_eq_some_iff.mp hj
  obtain ⟨hk', rfl⟩ := List.getElem?_eq_some_iff.mp hk
  by_contra hge
  rcases Nat.lt_or_eq_of_le (Nat.le_of_not_lt hge) with hkj | rfl
  · exact absurd (List.pairwise_iff_getElem.mp h.sorted k j hk' hj' hkj) (not_lt.mpr (le_of_lt hlt))
  · exact absurd hlt (lt_irrefl _)

theorem Forest.position (h : Forest paths) {j k : Nat}
    {path : DefinitionPath} (hj : paths[j]? = some path) (hk : paths[k]? = some path) : j = k := by
  have hnd : paths.Nodup := h.sorted.imp fun hlt => ne_of_lt hlt
  obtain ⟨hj', rfl⟩ := List.getElem?_eq_some_iff.mp hj
  obtain ⟨hk', heq⟩ := List.getElem?_eq_some_iff.mp hk
  exact (hnd.getElem_inj_iff.mp heq).symm

/-- The references of the nodes that are done. -/
theorem lookup_references (indices : List Nat) (h : indices.Nodup) : ∀ {n k i : Nat},
    indices[k]? = some i → (indices.zipIdx n).lookup i = some (n + k) := by
  induction indices with
  | nil => exact fun hk => nomatch hk
  | cons first indices ih =>
    intro n k i hk
    obtain ⟨hfirst, hrest⟩ := nodup_cons.mp h
    rw [zipIdx_cons, lookup_cons]
    cases k with
    | zero =>
      obtain rfl : first = i := by simpa using hk
      simp
    | succ k =>
      rw [getElem?_cons_succ] at hk
      have hne : i ≠ first := ne_of_mem_of_not_mem (mem_of_getElem? hk) hfirst
      rw [beq_false_of_ne hne, ih hrest hk]
      exact congrArg some (Nat.add_right_comm n 1 k)

variable {entries : List (DefinitionPath × Nat)}

theorem encodeNode_eq (h : Core d) (he : Entries d entries)
    {k : Nat} {entry : DefinitionPath × Nat} (hk : entries[k]? = some entry) :
    encodeNode d (SortedSet.ofList (entries.map (·.1.module)))
      (SortedSet.ofList (lastNames (entries.map (·.1)))) ((entries.take k).map Prod.snd).zipIdx
      entry.1 entry.2 = canonicalNode (entries.map Prod.fst) entry.1 := by
  obtain ⟨path, index⟩ := entry
  have hpath := he.path _ (mem_of_getElem? hk)
  have hmods : entries.map (·.1.module) = (entries.map Prod.fst).map (·.module) := by
    rw [map_map]
    rfl
  dsimp only at hpath ⊢
  cases hpath with
  | root hnode hm =>
    unfold encodeNode canonicalNode
    rw [hnode, hmods]
    rfl
  | @child _ parent name occurrence kind text m segments hnode hname hpar =>
    have hmem : (⟨m, segments ++ [⟨kind, text, occurrence⟩]⟩ : DefinitionPath) ∈
        entries.map Prod.fst := mem_map_of_mem (mem_of_getElem? hk)
    have habove := he.forest.closed ⟨m, segments⟩ ⟨kind, text, occurrence⟩ hmem
    obtain ⟨j, hj, hget⟩ := exists_idxOf? habove
    -- the parent has an earlier position
    have hjk : j < k := by
      refine he.forest.lt_of_lt hget (by rw [getElem?_map, hk]; rfl) ?_
      exact DefinitionPath.lt_below ⟨m, segments⟩ ⟨kind, text, occurrence⟩
    have hreference : (((entries.take k).map Prod.snd).zipIdx).lookup parent = some j := by
      have hnd : ((entries.take k).map Prod.snd).Nodup :=
        he.nodup.sublist ((take_sublist k entries).map Prod.snd)
      rw [lookup_references _ hnd (k := j), Nat.zero_add]
      rw [getElem?_map] at hget
      obtain ⟨above, hent, hfst⟩ := Option.map_eq_some_iff.mp hget
      have hidx := he.path above (mem_of_getElem? hent)
      rw [hfst] at hidx
      rw [getElem?_map, getElem?_take_of_lt hjk, hent, Option.map_some,
        hidx.injective h hpar]
    have hlast : (segments ++ [(⟨kind, text, occurrence⟩ : DefinitionPathSegment)]).getLast? =
        some ⟨kind, text, occurrence⟩ := by
      simp
    have hup : (DefinitionPath.mk m (segments ++ [⟨kind, text, occurrence⟩])).above =
        ⟨m, segments⟩ := by
      simp [DefinitionPath.above]
    unfold encodeNode canonicalNode
    rw [hnode]
    dsimp only
    rw [hlast]
    dsimp only
    rw [hreference, hname, hup, hj]
    rfl

theorem encodeNodes_eq (h : Core d) (he : Entries d entries)
    (rest : List (DefinitionPath × Nat)) : ∀ (done : List (DefinitionPath × Nat))
    (nodes more : List PortableNode), entries = done ++ rest → nodes.length = done.length →
      List.Forall₂ (fun entry node => canonicalNode (entries.map Prod.fst) entry.1 = some node)
        rest more →
      encodeNodes d (SortedSet.ofList (entries.map (·.1.module)))
        (SortedSet.ofList (lastNames (entries.map (·.1)))) rest nodes
        ((done.map Prod.snd).zipIdx) =
        some (nodes ++ more, (entries.map Prod.snd).zipIdx) := by
  induction rest with
  | nil =>
    intro done nodes more hspl _ hmore
    cases hmore
    rw [hspl, append_nil, append_nil]
    rfl
  | cons entry rest ih =>
    intro done nodes more hspl hlen hmore
    obtain ⟨node, more, hnode, hrest, rfl⟩ : ∃ node more', canonicalNode _ entry.1 = some node ∧
        List.Forall₂ _ rest more' ∧ more = node :: more' := by
      cases hmore with
      | cons hnode hrest => exact ⟨_, _, hnode, hrest, rfl⟩
    have hk : entries[done.length]? = some entry := by
      simp [hspl]
    have htake : entries.take done.length = done := by
      simp [hspl]
    have henc := encodeNode_eq h he hk
    rw [htake, hnode] at henc
    have hrefs : (done.map Prod.snd).zipIdx ++ [(entry.2, nodes.length)] =
        ((done ++ [entry]).map Prod.snd).zipIdx := by
      simp [zipIdx_append, hlen]
    have hnext := ih (done ++ [entry]) (nodes ++ [node]) _ (by simp [hspl])
      (by simp [hlen]) hrest
    unfold encodeNodes
    rw [henc]
    show encodeNodes _ _ _ rest (nodes ++ [node]) _ = _
    rw [hrefs, hnext, append_assoc]
    rfl

/-- The table of some paths. -/
def canonicalTable (paths : List DefinitionPath) : PortableDefinitionTable where
  modules := SortedSet.ofList (paths.map (·.module))
  symbols := SortedSet.ofList (lastNames paths)
  nodes := paths.map fun path => (canonicalNode paths path).getD (.root 0)

theorem Forest.canonicalNodes (h : Forest paths) :
    List.Forall₂ (fun path node => canonicalNode paths path = some node) paths
      (canonicalTable paths).nodes := by
  unfold canonicalTable
  rw [List.forall₂_map_right_iff, List.forall₂_same]
  intro path hmem
  rcases path.cases_below with hnil | ⟨above, segment, rfl⟩
  · obtain ⟨m, segments⟩ := path
    obtain rfl : segments = [] := hnil
    obtain ⟨k, hk, -⟩ := Forest.canonicalNode_root hmem
    rw [hk, Option.getD_some]
  · obtain ⟨parent, name, hnode, -⟩ := h.canonicalNode_child hmem
    rw [hnode, Option.getD_some]

theorem length_ofList_le {α : Type} [LinearOrder α] (items : List α) :
    (SortedSet.ofList items).length ≤ items.length :=
  ((SortedSet.nodup_ofList items).subperm fun _ ha => SortedSet.mem_ofList.mp ha).length_le

theorem canonicalTable_limits (paths : List DefinitionPath) :
    (canonicalTable paths).modules.length ≤ paths.length ∧
      (canonicalTable paths).symbols.length ≤ paths.length ∧
      (canonicalTable paths).nodes.length = paths.length := by
  refine ⟨?_, ?_, length_map _⟩
  · exact (length_ofList_le _).trans (length_map _).le
  · exact (length_ofList_le _).trans (length_filterMap_le _ _)

/-- What an encoding holds: the requested definitions and their ancestors, in the table of their
paths. -/
structure EncodingOf (t : DefinitionTable) (ids : List DefinitionId)
    (entries : List (DefinitionPath × Nat)) : Prop where
  ordered : Entries t.data entries
  mem_iff : ∀ path, path ∈ entries.map Prod.fst ↔
    ∃ id ∈ ids, ∃ below, PathAt t.data id.index below ∧ path.UpTo below
  index : ∀ id ∈ ids, id.index ∈ entries.map Prod.snd
  length : (entries.map Prod.fst).length ≤ t.data.nodes.length

theorem EncodingOf.source
    (h : EncodingOf t ids entries) :
    ∀ path ∈ entries.map Prod.fst, ∃ j, PathAt t.data j path := by
  intro path hpath
  obtain ⟨entry, hent, rfl⟩ := mem_map.mp hpath
  exact ⟨entry.2, h.ordered.path entry hent⟩

theorem encode_ok (h : Valid t.data) (order : List Nat → List Nat)
    (hord : ∀ l, (order l).Perm l)
    (hids : ∀ id ∈ ids, validateId t.id t.data id = .ok ()) :
    ∃ entries, EncodingOf t ids entries ∧ t.encode order ids = ExceptT.mk (some (.ok
      ⟨canonicalTable (entries.map Prod.fst), t.id, (entries.map Prod.snd).zipIdx⟩)) := by
  obtain ⟨required, hrun, hr⟩ := requiredIds_ok h.core ids requiredFor_nil hids
  rw [nil_append] at hr
  obtain ⟨entries, hpth, he, hperm⟩ := sortedPaths_ok h.core hr (hord required)
  have hlength : entries.length = required.length := by
    rw [← hperm.length_eq, length_map]
  have hreqd : required.length ≤ t.data.nodes.length := by
    have hsub : required ⊆ List.range t.data.nodes.length :=
      fun i hi => mem_range.mpr (hr.lt i hi)
    have hle := (hr.nodup.subperm hsub).length_le
    rwa [length_range] at hle
  have hlim : required.length ≤ maxPortableIdentityRecords := hreqd.trans h.core.limit
  refine ⟨entries, ⟨he, fun path => ?_, fun id hid => ?_, ?_⟩, ?_⟩
  · rw [← hr.path_iff h.core]
    constructor
    · intro hmem
      obtain ⟨entry, hent, rfl⟩ := mem_map.mp hmem
      exact ⟨entry.2, hperm.mem_iff.mp (mem_map_of_mem hent), he.path entry hent⟩
    · rintro ⟨i, hi, hpath⟩
      obtain ⟨entry, hent, rfl⟩ := mem_map.mp (hperm.mem_iff.mpr hi)
      rw [hpath.functional (he.path entry hent)]
      exact mem_map_of_mem hent
  · exact hperm.mem_iff.mpr (hr.mem id hid)
  · rw [length_map, hlength]
    exact hreqd
  · have hmods : entries.map (·.1.module) = (entries.map Prod.fst).map (·.module) := by
      rw [map_map]
      rfl
    have hlims := canonicalTable_limits (entries.map Prod.fst)
    rw [length_map, hlength] at hlims
    have hnds := encodeNodes_eq h.core he entries [] []
      (canonicalTable (entries.map Prod.fst)).nodes rfl rfl
      (List.forall₂_map_left_iff.mp he.forest.canonicalNodes)
    rw [map_nil, zipIdx_nil, nil_append] at hnds
    unfold DefinitionTable.encode
    rw [hrun]
    show (if maxPortableIdentityRecords < required.length then _ else _) = _
    rw [if_neg (by omega), hpth]
    show (if (_ || _) = true then _ else _) = _
    rw [if_neg, hnds, hmods]
    · rfl
    · rw [hmods]
      simp only [Bool.or_eq_true, decide_eq_true_eq, not_or, not_lt]
      exact ⟨hlims.1.trans hlim, hlims.2.1.trans hlim⟩

end Encode

/-! ## Room in the decoding table -/

/-- Every path of the table is a path of the other one. -/
def Within (d source : TableData) : Prop := ∀ i path, PathAt d i path → ∃ j, PathAt source j path

variable {j : Nat}

section Room

variable {d d' source : TableData}

theorem within_empty : Within .empty source := by
  intro i path hpath
  exact absurd hpath.lt (Nat.not_lt_zero i)

/-- A path that the source has and the table has not leaves room for it. -/
theorem Within.room (hw : Within d source) (hd : Core d) (hs : Core source)
    (hj : PathAt source j path) (hnew : ∀ i, ¬ PathAt d i path) :
    d.nodes.length < maxPortableIdentityRecords := by
  refine lt_of_lt_of_le ?_ hs.limit
  have hchs : ∀ i : Fin d.nodes.length, ∃ k : Fin source.nodes.length, ∀ path,
      PathAt d i path → PathAt source k path := by
    intro i
    obtain ⟨path, hpath, -⟩ := hd.exists_pathAt i.isLt
    obtain ⟨k, hk⟩ := hw i path hpath
    exact ⟨⟨k, hk.lt⟩, fun path' hpath' => hpath.functional hpath' ▸ hk⟩
  choose f hf using hchs
  have hinj : Injective f := by
    intro a b hab
    obtain ⟨path, hpath, -⟩ := hd.exists_pathAt a.isLt
    obtain ⟨path', hpath', -⟩ := hd.exists_pathAt b.isLt
    have heq : path = path' := (hf a path hpath).functional (hab ▸ hf b path' hpath')
    exact Fin.ext (hpath.injective hd (heq ▸ hpath'))
  have hsurjective : ¬ Surjective f := by
    intro hsurj
    obtain ⟨i, hi⟩ := hsurj ⟨j, hj.lt⟩
    obtain ⟨path', hpath', -⟩ := hd.exists_pathAt i.isLt
    have hfi := hf i path' hpath'
    rw [hi] at hfi
    exact hnew i (hfi.functional hj ▸ hpath')
  have hcard := Fintype.card_lt_of_injective_not_surjective f hinj hsurjective
  simpa using hcard

/-- A table with one more node, whose path the source has. -/
theorem Within.grow (hw : Within d source) (hd : Core d) (hgr : Extends d d')
    (hnew : d'.nodes.length = d.nodes.length ∨ d'.nodes.length = d.nodes.length + 1 ∧
      ∃ path j, PathAt d' d.nodes.length path ∧ PathAt source j path) : Within d' source := by
  intro i path hpath
  by_cases hi : i < d.nodes.length
  · obtain ⟨path', hpath', -⟩ := hd.exists_pathAt hi
    rw [hpath.functional (hpath'.extend hgr)]
    exact hw i path' hpath'
  · have hlt := hpath.lt
    rcases hnew with heq | ⟨heq, path', j, hpath', hj⟩
    · omega
    · obtain rfl : i = d.nodes.length := by omega
      rw [hpath.functional hpath']
      exact ⟨j, hj⟩

theorem not_pathAt_root (hd : Core d) (hm : d.lookupRoot m = none) (i : Nat) :
    ¬ PathAt d i ⟨m, []⟩ := by
  rw [PathAt.root_iff hd, hm]
  exact nofun

theorem internPackage_ok (hd : Valid d) (hs : Valid source) (hw : Within d source)
    (hj : source.lookupRoot ⟨package, []⟩ = some j) :
    ∃ i d', exec (internPackage package) d = (.ok i, d') ∧ Within d' source := by
  cases hroot : d.lookupRoot ⟨package, []⟩ with
  | some i => exact ⟨i, d, exec_internPackage_old hd hroot, hw⟩
  | none =>
    have hpath := (PathAt.root_iff hs.core).mpr hj
    have hroom := hw.room hd.core hs.core hpath (not_pathAt_root hd.core hroot)
    obtain ⟨d', hrun, hd', hgr, hlen, hrts⟩ := internPackage_new hd hroot hroom
    refine ⟨_, d', hrun, hw.grow hd.core hgr (.inr ⟨hlen, _, j, ?_, hpath⟩)⟩
    rw [PathAt.root_iff hd'.core, hrts, update_self]

theorem internChildModule_ok (hd : Valid d) (hs : Valid source) (hw : Within d source)
    {package name : String} {path : List String} {p j : Nat}
    (hp : d.lookupRoot ⟨package, path⟩ = some p)
    (hj : source.lookupRoot ⟨package, path ++ [name]⟩ = some j) :
    ∃ i d', exec (internChildModule ⟨package, path⟩ p name) d = (.ok i, d') ∧ Within d' source := by
  cases hroot : d.lookupRoot ⟨package, path ++ [name]⟩ with
  | some i => exact ⟨i, d, exec_internChildModule_old hd hp hroot, hw⟩
  | none =>
    have hpath := (PathAt.root_iff hs.core).mpr hj
    have hroom := hw.room hd.core hs.core hpath (not_pathAt_root hd.core hroot)
    obtain ⟨d', hrun, hd', hgr, hlen, hrts⟩ :=
      internChildModule_new hd hp hroot (hs.core.withinPathLimit hj) hroom
    refine ⟨_, d', hrun, hw.grow hd.core hgr (.inr ⟨hlen, _, j, ?_, hpath⟩)⟩
    rw [PathAt.root_iff hd'.core, hrts, update_self]

/-- The lexical prefixes of a module are modules of the table. -/
theorem TableData.Valid.lookupRoot_take (hs : Valid source) (path : List String)
    (rest : List String) : ∀ {j : Nat}, source.lookupRoot ⟨package, path ++ rest⟩ = some j →
      ∃ j', source.lookupRoot ⟨package, path⟩ = some j' := by
  induction rest using List.reverseRecOn with
  | nil => exact fun hj => ⟨_, by simpa using hj⟩
  | append_singleton rest name ih =>
    intro j hj
    rw [← append_assoc] at hj
    obtain ⟨-, j', hj'⟩ := hs.maps.parent _ _ _ _ hj
    exact ih hj'

theorem internModuleNames_ok (hs : Valid source) (names : List String) : ∀ {d : TableData}
    {package : String} {path : List String} {p j : Nat}, Valid d → Within d source →
      d.lookupRoot ⟨package, path⟩ = some p →
      source.lookupRoot ⟨package, path ++ names⟩ = some j →
      ∃ i d', exec (internModuleNames names ⟨package, path⟩ p) d = (.ok i, d') ∧
        Within d' source := by
  induction names with
  | nil => exact fun _ hw _ _ => ⟨_, _, rfl, hw⟩
  | cons name names ih =>
    intro d package path p j hd hw hp hj
    have hspl : path ++ name :: names = (path ++ [name]) ++ names := by simp
    rw [hspl] at hj
    obtain ⟨j', hj'⟩ := hs.lookupRoot_take _ names hj
    obtain ⟨child, d₁, hrun, hw₁⟩ := internChildModule_ok hd hs hw hp hj'
    have hgr := internChildModule_grows hd hp name
    have hkp := hgr.keeps
    have hval := hgr.value child
    rw [hrun] at hkp hval
    obtain ⟨i, d', hrun', hw'⟩ := ih hkp hw₁ (hval rfl) hj
    exact ⟨i, d', (exec_bind_ok hrun).trans hrun', hw'⟩

theorem internModule_ok (hd : Valid d) (hs : Valid source) (hw : Within d source)
    (hj : source.lookupRoot m = some j) :
    ∃ i d', exec (internModule m) d = (.ok i, d') ∧ Within d' source := by
  unfold internModule
  rw [if_pos (hs.core.withinPathLimit hj), exec_get_bind]
  cases hroot : d.lookupRoot m with
  | some i => exact ⟨i, d, rfl, hw⟩
  | none =>
    obtain ⟨j', hj'⟩ := hs.lookupRoot_take [] m.path hj
    obtain ⟨root, d₁, hrun, hw₁⟩ := internPackage_ok hd hs hw hj'
    have hgr := internPackage_grows hd m.package
    have hkp := hgr.keeps
    have hval := hgr.value root
    rw [hrun] at hkp hval
    obtain ⟨i, d', hrun', hw'⟩ := internModuleNames_ok hs m.path hkp hw₁ (hval rfl) hj
    exact ⟨i, d', (exec_bind_ok hrun).trans hrun', hw'⟩

theorem internRoot_ok (table : Nat) (hd : Valid d) (hs : Valid source) (hw : Within d source)
    (hj : PathAt source j ⟨m, []⟩) :
    ∃ id d', exec (internRoot table m) d = (.ok id, d') ∧ Within d' source := by
  obtain ⟨i, d', hrun, hw'⟩ := internModule_ok hd hs hw ((PathAt.root_iff hs.core).mp hj)
  exact ⟨⟨table, i⟩, d', exec_bind_ok hrun, hw'⟩

theorem internChild_ok {table : Nat} (hd : Valid d) (hs : Valid source) (hw : Within d source)
    {parent : DefinitionId}
    (hpar : Means table d parent path) (hj : PathAt source j (path.below segment)) :
    ∃ id d', exec (internChild table parent segment.kind segment.name segment.occurrence) d =
      (.ok id, d') ∧ Within d' source := by
  by_cases hold : ∃ i, PathAt d i (path.below segment)
  · obtain ⟨i, hi⟩ := hold
    exact ⟨⟨table, i⟩, d, exec_internChild_old _ hd hpar ⟨rfl, hi⟩, hw⟩
  · have hroom := hw.room hd.core hs.core hj (fun i hi => hold ⟨i, hi⟩)
    have hlt := hpar.2.lt
    obtain ⟨n, hn⟩ : ∃ n, d.depths[parent.index]? = some n :=
      ⟨_, getElem?_eq_getElem (hd.core.depths ▸ hlt)⟩
    -- the source has the path, so it is not too deep
    have hdep : n < maxIdentityPathSegments := by
      obtain ⟨path', hpath', hlen, -⟩ := hd.core.exists_path hn
      obtain rfl := hpath'.functional hpar.2
      obtain ⟨below, hbelow, hle⟩ := hs.core.exists_pathAt hj.lt
      rw [hbelow.functional hj] at hle
      simp only [DefinitionPath.below, length_append, length_singleton] at hle
      omega
    obtain ⟨i, d', hrun, hnds⟩ := internChildAt_new hd hn hdep segment.kind segment.name
      segment.occurrence hroom
    have hrun' : exec (internChild table parent segment.kind segment.name segment.occurrence) d =
        (.ok ⟨table, i⟩, d') := by
      unfold internChild
      rw [exec_bind_ok (exec_checked_ok (validateId_ok.mpr ⟨hpar.1, hlt⟩)), exec_bind_ok hrun]
      rfl
    have hgr := internChild_grows table hd parent segment
    have hext := hgr.grows
    have hval := hgr.value ⟨table, i⟩
    rw [hrun'] at hext hval
    obtain ⟨path', hpath', hmn⟩ := hval rfl
    obtain rfl := hpath'.2.functional hpar.2
    refine ⟨_, d', hrun', hw.grow hd.core hext ?_⟩
    refine hnds.imp id ?_
    rintro ⟨hlen, rfl⟩
    exact ⟨hlen, _, j, hmn.2, hj⟩

end Room

/-! ## Decoding -/

theorem get_of_forall₂ {α β : Type} {R : α → β → Prop} {l : List α} {l' : List β}
    (h : List.Forall₂ R l l') {k : Nat} {b : β} (hk : l'[k]? = some b) :
    ∃ a, l[k]? = some a ∧ R a b := by
  obtain ⟨hlen, hget⟩ := List.forall₂_iff_get.mp h
  obtain ⟨hlt, rfl⟩ := List.getElem?_eq_some_iff.mp hk
  exact ⟨l[k], List.getElem?_eq_getElem (hlen ▸ hlt), hget k (hlen ▸ hlt) hlt⟩

section Decode

variable {source : TableData} {paths : List DefinitionPath} {table : Nat}

theorem decodeNode_ok {d : TableData} (hd : Valid d) (hs : Valid source) (hw : Within d source)
    (hpth : Forest paths) (hsrc : ∀ path ∈ paths, ∃ j, PathAt source j path)
    {done rest : List DefinitionPath} (hspl : paths = done ++ path :: rest)
    {references : List DefinitionId} (hrefs : List.Forall₂ (Means table d) references done)
    {node : PortableNode} (hnode : canonicalNode paths path = some node) :
    ∃ id d', exec ((canonicalTable paths).decodeNode table references node) d = (.ok id, d') ∧
      Valid d' ∧ Extends d d' ∧ Within d' source ∧ Means table d' id path := by
  have hmem : path ∈ paths := by
    rw [hspl]
    simp
  obtain ⟨j, hj⟩ := hsrc path hmem
  rcases path.cases_below with hnil | ⟨above, segment, rfl⟩
  · obtain ⟨m, segments⟩ := path
    obtain rfl : segments = [] := hnil
    obtain ⟨k, hk, hmod⟩ := Forest.canonicalNode_root hmem
    cases hk.symm.trans hnode
    obtain ⟨id, d', hrun, hw'⟩ := internRoot_ok table hd hs hw hj
    have hgr := internRoot_grows table hd m
    refine ⟨id, d', ?_, ?_, ?_, hw', ?_⟩
    · unfold PortableDefinitionTable.decodeNode
      dsimp only
      rw [show (canonicalTable paths).modules[k]? = some m from hmod]
      exact hrun
    · simpa [hrun] using hgr.keeps
    · simpa [hrun] using hgr.grows
    · simpa [hrun] using hgr.value id
  · obtain ⟨parent, name, hch, hpar, hname⟩ := hpth.canonicalNode_child hmem
    cases hch.symm.trans hnode
    have hlt : parent < done.length := by
      refine hpth.lt_of_lt hpar (k := done.length) ?_ (above.lt_below segment)
      simp [hspl]
    have hdone : done[parent]? = some above := by
      rwa [hspl, getElem?_append_left hlt] at hpar
    obtain ⟨id', hid', hmn⟩ := get_of_forall₂ hrefs hdone
    obtain ⟨id, d', hrun, hw'⟩ := internChild_ok hd hs hw hmn hj
    have hgr := internChild_grows table hd id' segment
    refine ⟨id, d', ?_, ?_, ?_, hw', ?_⟩
    · unfold PortableDefinitionTable.decodeNode
      dsimp only
      rw [hid', show (canonicalTable paths).symbols[name]? = some segment.name from hname]
      exact hrun
    · simpa [hrun] using hgr.keeps
    · simpa [hrun] using hgr.grows
    · have hval := hgr.value id
      rw [hrun] at hval
      obtain ⟨path', hpath', hid⟩ := hval rfl
      rwa [hpath'.2.functional hmn.2] at hid

theorem decodeNodes_ok (table : Nat) (hs : Valid source) (hpth : Forest paths)
    (hsrc : ∀ path ∈ paths, ∃ j, PathAt source j path) (rest : List DefinitionPath) :
    ∀ {d : TableData} (done : List DefinitionPath) (references : List DefinitionId)
      {nodes : List PortableNode}, Valid d → Within d source → paths = done ++ rest →
      List.Forall₂ (Means table d) references done →
      List.Forall₂ (fun path node => canonicalNode paths path = some node) rest nodes →
      ∃ references' d', exec ((canonicalTable paths).decodeNodes table nodes references) d =
          (.ok references', d') ∧ Valid d' ∧ List.Forall₂ (Means table d') references' paths := by
  induction rest with
  | nil =>
    intro d done references nodes hd _ hspl hrefs hnds
    cases hnds
    rw [List.append_nil] at hspl
    exact ⟨references, d, rfl, hd, hspl ▸ hrefs⟩
  | cons path rest ih =>
    intro d done references nodes hd hw hspl hrefs hnds
    cases hnds with
    | @cons _ node _ nodes hnode hrest =>
      obtain ⟨id, d₁, hrun, hd₁, hgr, hw₁, hid⟩ :=
        decodeNode_ok hd hs hw hpth hsrc hspl hrefs hnode
      have hrefs₁ := hrefs.imp fun _ _ h => h.extend hgr
      -- an identity of an earlier path would make the paths equal
      have hnew : id ∉ references := by
        intro hmem
        obtain ⟨k, hk⟩ := List.mem_iff_getElem?.mp hmem
        obtain ⟨path', hpath', hmn⟩ := get_of_forall₂ hrefs₁.flip hk
        have heq : path' = path := hmn.2.functional hid.2
        have hlast : paths[done.length]? = some path := by
          simp [hspl]
        have hearly : paths[k]? = some path := by
          rw [hspl, List.getElem?_append_left (List.getElem?_eq_some_iff.mp hpath').1, hpath', heq]
        have hk' := hpth.position hearly hlast
        have hlt := (List.getElem?_eq_some_iff.mp hpath').1
        omega
      have hnext := ih (done ++ [path]) (references ++ [id]) hd₁ hw₁
        (by simp [hspl]) (List.rel_append hrefs₁ (.cons hid .nil)) hrest
      obtain ⟨references', d', hrun', hd', hall⟩ := hnext
      refine ⟨references', d', ?_, hd', hall⟩
      unfold PortableDefinitionTable.decodeNodes
      rw [exec_bind_ok hrun, if_neg hnew]
      exact hrun'

/-- The checks of a table before its nodes. -/
theorem decode_eq (hs : Valid source) (hsrc : ∀ path ∈ paths, ∃ j, PathAt source j path)
    (hlength : paths.length ≤ source.nodes.length) (next : Nat) :
    (canonicalTable paths).decode next =
      if ¬ next + 1 < 2 ^ 32 then .error .tableIdentityExhausted
      else match exec ((canonicalTable paths).decodeNodes next (canonicalTable paths).nodes []) .empty with
        | (.ok references, data) => .ok ⟨⟨next, data⟩, references⟩
        | (.error e, _) => .error e := by
  have hlim : paths.length ≤ maxPortableIdentityRecords := hlength.trans hs.core.limit
  obtain ⟨hmods, hsyms, hnds⟩ := canonicalTable_limits paths
  have hpath : ∀ m ∈ (canonicalTable paths).modules, m.withinPathLimit = true := by
    intro m hm
    obtain ⟨path, hpath, rfl⟩ := mem_map.mp (SortedSet.mem_ofList.mp hm)
    obtain ⟨j, hj⟩ := hsrc path hpath
    obtain ⟨root, hroot⟩ := exists_pathAt_upTo ⟨path.module, []⟩ hj
      ⟨rfl, nil_prefix⟩
    exact hs.core.withinPathLimit ((PathAt.root_iff hs.core).mp hroot)
  have hany : (canonicalTable paths).modules.any (fun m => !m.withinPathLimit) = false := by
    rw [any_eq_false]
    intro m hm
    simp [hpath m hm]
  have hnd : (canonicalTable paths).modules.Nodup := SortedSet.nodup_ofList _
  have hnd' : (canonicalTable paths).symbols.Nodup := SortedSet.nodup_ofList _
  have hsizes : ¬ (decide (maxPortableIdentityRecords < (canonicalTable paths).modules.length) ||
      decide (maxPortableIdentityRecords < (canonicalTable paths).symbols.length) ||
      decide (maxPortableIdentityRecords < (canonicalTable paths).nodes.length)) = true := by
    simp only [Bool.or_eq_true, decide_eq_true_eq, not_or, not_lt]
    exact ⟨⟨hmods.trans hlim, hsyms.trans hlim⟩, hnds.le.trans hlim⟩
  have hrecs : ¬ ((canonicalTable paths).modules.any (fun m => !m.withinPathLimit) ||
      decide (¬ (canonicalTable paths).modules.Nodup)) = true := by
    simp [hany, hnd]
  exact (if_neg hsizes).trans ((if_neg hrecs).trans (if_neg (not_not.mpr hnd')))

/-- The paths of a valid table, written as a portable table, are read back. -/
theorem decode_ok (hs : Valid source) (hpth : Forest paths)
    (hsrc : ∀ path ∈ paths, ∃ j, PathAt source j path)
    (hlength : paths.length ≤ source.nodes.length) {next : Nat} (hnext : next + 1 < 2 ^ 32) :
    ∃ decoding, (canonicalTable paths).decode next = .ok decoding ∧ decoding.table.id = next ∧
      Valid decoding.table.data ∧
      List.Forall₂ (Means next decoding.table.data) decoding.references paths := by
  obtain ⟨references, d, hrun, hd, hall⟩ := decodeNodes_ok next hs hpth hsrc paths
    [] [] valid_empty within_empty rfl .nil hpth.canonicalNodes
  refine ⟨⟨⟨next, d⟩, references⟩, ?_, rfl, hd, hall⟩
  rw [decode_eq hs hsrc hlength, if_neg (not_not.mpr hnext), hrun]

end Decode

/-- A reference is the position of the definition's path. -/
theorem EncodingOf.reference
    {entries : List (DefinitionPath × Nat)} (h : EncodingOf t ids entries)
    {encoding : Encoding} (hencg : encoding = ⟨canonicalTable (entries.map Prod.fst), t.id,
      (entries.map Prod.snd).zipIdx⟩) {id : DefinitionId} {reference : Nat} :
    encoding.reference id = .ok reference ↔ id.table = t.id ∧
      (entries.map Prod.snd)[reference]? = some id.index := by
  subst hencg
  unfold Encoding.reference
  dsimp only
  by_cases htab : id.table = t.id
  · rw [if_neg (not_not.mpr htab)]
    have hiff : (entries.map Prod.snd).zipIdx.lookup id.index = some reference ↔
        (entries.map Prod.snd)[reference]? = some id.index := by
      constructor
      · intro hlook
        obtain ⟨before, after, hspl, -⟩ := lookup_eq_some_iff.mp hlook
        rw [← mk_mem_zipIdx_iff_getElem?, hspl]
        simp
      · intro hget
        rw [lookup_references _ h.ordered.nodup hget, Nat.zero_add]
    cases hlook : (entries.map Prod.snd).zipIdx.lookup id.index with
    | none =>
      rw [hlook] at hiff
      simpa [htab] using hiff
    | some found =>
      rw [hlook] at hiff
      simpa [htab] using hiff
  · rw [if_pos htab]
    simp [htab]

/-- The paths of the requested definitions, as the table resolves them. -/
theorem exists_requested (h : Valid t.data)
    (hids : ∀ id ∈ ids, validateId t.id t.data id = .ok ()) {P : DefinitionPath → Prop} :
    (∃ id ∈ ids, ∃ below, PathAt t.data id.index below ∧ P below) ↔
      ∃ below, (∃ id ∈ ids, t.resolve id = .ok (some below)) ∧ P below := by
  constructor
  · rintro ⟨id, hid, below, hbelow, hP⟩
    refine ⟨below, ⟨id, hid, (DefinitionTable.resolve_iff h).mpr ⟨?_, hbelow⟩⟩, hP⟩
    exact (validateId_ok.mp (hids id hid)).1
  · rintro ⟨below, ⟨id, hid, hrslv⟩, hP⟩
    exact ⟨id, hid, below, ((DefinitionTable.resolve_iff h).mp hrslv).2, hP⟩

/-- Encoding and decoding, in any process: the portable table of some definitions is read back, while
there are table identities left, with the same path for each reference; and it depends on nothing but
the paths of those definitions. -/
theorem portable_roundTrip (calls : List Call) (order : List Nat → List Nat)
    (horder : ∀ l, (order l).Perm l) :
    ∀ t ∈ (Process.start.run calls).tables, ∀ ids : List DefinitionId,
    (∀ id ∈ ids, validateId t.id t.data id = .ok ()) →
    ∃ encoding, (t.encode order ids).run = some (.ok encoding) ∧
    (∀ id ∈ ids, ∃ reference, encoding.reference id = .ok reference) ∧
    (∀ next, next + 1 < 2 ^ 32 → ∃ decoding, encoding.table.decode next = .ok decoding ∧
      ∀ id reference, encoding.reference id = .ok reference → ∃ id' path,
        decoding.resolve reference = .ok id' ∧ t.resolve id = .ok (some path) ∧
        decoding.table.resolve id' = .ok (some path)) ∧
    (∀ next, ¬ next + 1 < 2 ^ 32 →
      encoding.table.decode next = .error .tableIdentityExhausted) ∧
    ∀ (calls' : List Call) (order' : List Nat → List Nat), (∀ l, (order' l).Perm l) →
    ∀ t' ∈ (Process.start.run calls').tables, ∀ ids' : List DefinitionId,
    (∀ id ∈ ids', validateId t'.id t'.data id = .ok ()) →
    (∀ path, (∃ id ∈ ids, t.resolve id = .ok (some path)) ↔
      ∃ id ∈ ids', t'.resolve id = .ok (some path)) →
    ∃ encoding', (t'.encode order' ids').run = some (.ok encoding') ∧
      encoding'.table = encoding.table := by
  intro t ht ids hids
  obtain ⟨hp, -⟩ := Process.consistent_start.run calls
  obtain ⟨hvld, -⟩ := hp.tables t ht
  obtain ⟨entries, he, henc⟩ := encode_ok hvld order horder hids
  refine ⟨_, henc, fun id hid => ?_, fun next hnext => ?_, fun next hnext => ?_, ?_⟩
  · obtain ⟨k, hk⟩ := List.mem_iff_getElem?.mp (he.index id hid)
    exact ⟨k, (he.reference rfl).mpr ⟨(validateId_ok.mp (hids id hid)).1, hk⟩⟩
  · obtain ⟨decoding, hdec, hid, hd, hall⟩ :=
      decode_ok hvld he.ordered.forest he.source he.length hnext
    refine ⟨decoding, hdec, fun id reference href => ?_⟩
    obtain ⟨htab, hget⟩ := (he.reference rfl).mp href
    rw [List.getElem?_map] at hget
    obtain ⟨⟨path, index⟩, hent, rfl⟩ := Option.map_eq_some_iff.mp hget
    obtain ⟨id', hid', hmn⟩ := get_of_forall₂ hall (by rw [List.getElem?_map, hent]; rfl)
    refine ⟨id', path, ?_, ?_, ?_⟩
    · unfold Decoding.resolve
      rw [hid']
    · exact (DefinitionTable.resolve_iff hvld).mpr
        ⟨htab, he.ordered.path _ (List.mem_of_getElem? hent)⟩
    · rw [DefinitionTable.resolve_iff hd, hid]
      exact hmn
  · rw [decode_eq hvld he.source he.length, if_pos hnext]
  · intro calls' order' horder' t' ht' ids' hids' hsame
    obtain ⟨hp', -⟩ := Process.consistent_start.run calls'
    obtain ⟨hvld', -⟩ := hp'.tables t' ht'
    obtain ⟨entries', he', henc'⟩ := encode_ok hvld' order' horder' hids'
    refine ⟨_, henc', ?_⟩
    have heq : entries'.map Prod.fst = entries.map Prod.fst := by
      refine SortedSet.eq_of_mem_iff he'.ordered.forest.sorted he.ordered.forest.sorted fun path => ?_
      rw [he'.mem_iff, he.mem_iff, exists_requested hvld' hids', exists_requested hvld hids]
      exact exists_congr fun below => and_congr_left fun _ => (hsame below).symm
    rw [heq]

/-- A process that has made `n` more tables. -/
theorem Process.run_new (n : Nat) : ∀ {p : Process}, p.next + n < 2 ^ 32 →
    (p.run (List.replicate n .new)).next = p.next + n ∧
      (p.run (List.replicate n .new)).tables = p.tables := by
  induction n with
  | zero => exact fun _ => ⟨rfl, rfl⟩
  | succ n ih =>
    intro p hnext
    have hstep : p.step .new = { p with
        next := p.next + 1, builders := p.builders ++ [⟨p.next, .empty⟩] } := by
      unfold Process.step
      dsimp only
      rw [if_pos (by omega)]
    obtain ⟨hnext', htabs⟩ := ih (p := p.step .new) (by rw [hstep]; dsimp only; omega)
    rw [hstep] at hnext' htabs
    rw [replicate_succ]
    show ((p.step .new).run (List.replicate n .new)).next = _ ∧ _
    rw [hstep]
    refine ⟨?_, ?_⟩
    · rw [hnext']
      dsimp only
      omega
    · show ((p.step .new).run (List.replicate n .new)).tables = _
      rw [hstep, htabs]

/-- Two builders with the same field, imported from one to the other, and snapshots of both. -/
def sharedField : List Call := importedField ++ [.freeze 1]

/-- What the snapshots say of the field. -/
theorem sharedField_tables :
    ∃ t t', (Process.start.run sharedField).tables = [t, t'] ∧
      (validateId t.id t.data ⟨1, 3⟩ = .ok () ∧ t.resolve ⟨1, 3⟩ = .ok (some playerHp)) ∧
      validateId t'.id t'.data ⟨2, 3⟩ = .ok () ∧ t'.resolve ⟨2, 3⟩ = .ok (some playerHp) := by
  have hlength : (Process.start.run sharedField).tables.length = 2 := by
    decide +kernel
  have hfirst : ((Process.start.run sharedField).tables[0]?).map (fun t =>
      ((validateId t.id t.data ⟨1, 3⟩).toOption, (t.resolve ⟨1, 3⟩).toOption)) =
      some (some (), some (some playerHp)) := by
    decide +kernel
  have hsecond : ((Process.start.run sharedField).tables[1]?).map (fun t =>
      ((validateId t.id t.data ⟨2, 3⟩).toOption, (t.resolve ⟨2, 3⟩).toOption)) =
      some (some (), some (some playerHp)) := by
    decide +kernel
  obtain ⟨t, t', htabs⟩ := length_eq_two.mp hlength
  rw [htabs] at hfirst hsecond
  obtain ⟨hvld, hpath⟩ := Prod.mk.inj (Option.some.inj hfirst)
  obtain ⟨hvld', hpath'⟩ := Prod.mk.inj (Option.some.inj hsecond)
  exact ⟨t, t', htabs, ⟨ok_of_toOption hvld, ok_of_toOption hpath⟩, ok_of_toOption hvld',
    ok_of_toOption hpath'⟩

/-- The field is read back from its portable table, which is the same for both builders. -/
theorem portable_roundTrip_sharedField :
    ∃ t t' encoding encoding', (Process.start.run sharedField).tables = [t, t'] ∧
      (t.encode id [⟨1, 3⟩]).run = some (.ok encoding) ∧
      (∃ decoding, encoding.table.decode 5 = .ok decoding) ∧
      (t'.encode List.reverse [⟨2, 3⟩]).run = some (.ok encoding') ∧
      encoding'.table = encoding.table := by
  obtain ⟨t, t', htabs, ⟨hvld, hpath⟩, hvld', hpath'⟩ := sharedField_tables
  have ht : t ∈ (Process.start.run sharedField).tables := by
    rw [htabs]
    simp
  have ht' : t' ∈ (Process.start.run sharedField).tables := by
    rw [htabs]
    simp
  obtain ⟨encoding, henc, -, hdec, -, hcanon⟩ := portable_roundTrip sharedField id
    (fun l => .refl l) t ht [⟨1, 3⟩] (List.forall_mem_singleton.mpr hvld)
  obtain ⟨decoding, hdecg, -⟩ := hdec 5 (by decide)
  obtain ⟨encoding', henc', heq⟩ := hcanon sharedField List.reverse List.reverse_perm t' ht'
    [⟨2, 3⟩] (List.forall_mem_singleton.mpr hvld') (by simp [hpath, hpath'])
  exact ⟨t, t', encoding, encoding', htabs, henc, ⟨decoding, hdecg⟩, henc', heq⟩

/-- A process that has used up its table identities cannot read what it has written. -/
theorem portable_exhausted :
    ∃ calls, ∃ t ∈ (Process.start.run calls).tables, ∃ encoding,
      (t.encode id [⟨1, 3⟩]).run = some (.ok encoding) ∧
      encoding.table.decode (Process.start.run calls).next = .error .tableIdentityExhausted := by
  obtain ⟨t, t', htabs, ⟨hvld, -⟩, -⟩ := sharedField_tables
  have hnext : (Process.start.run sharedField).next = 3 := by
    decide +kernel
  obtain ⟨hlast, hkeep⟩ := Process.run_new (2 ^ 32 - 4) (p := Process.start.run sharedField)
    (by rw [hnext]; decide)
  have hrun : Process.start.run (sharedField ++ List.replicate (2 ^ 32 - 4) .new) =
      (Process.start.run sharedField).run (List.replicate (2 ^ 32 - 4) .new) :=
    List.foldl_append
  refine ⟨sharedField ++ List.replicate (2 ^ 32 - 4) .new, t, ?_, ?_⟩
  · rw [hrun, hkeep, htabs]
    simp
  · obtain ⟨hp, -⟩ := Process.consistent_start.run sharedField
    obtain ⟨ht, -⟩ := hp.tables t (by rw [htabs]; simp)
    obtain ⟨entries, he, henc⟩ := encode_ok ht id (fun l => .refl l)
      (List.forall_mem_singleton.mpr hvld)
    refine ⟨_, henc, ?_⟩
    rw [hrun, hlast, hnext, decode_eq ht he.source he.length, if_pos (by decide)]

end Kagari.Identity
