import Mathlib.Data.List.Induction
import Kagari.Identity.Table

/-!
# The invariant of the identity table

- `Core`: each list has its inverse map, parents stand before their children, and depths are right.
- `Maps`: the two module maps say the same as the module roots, which are closed under prefixes.
- `PathAt`: the path of a node, read off the table; it is unique and identifies the node.
- `Extends`: the tables only grow, so nodes keep their paths.

Each of the source's push operations keeps `Core`. A new module root breaks `Maps` until its entry is
recorded, so that is proved for a root together with its entry.
-/

namespace Kagari.Identity

open Lib Stateful Function List Option

variable {d : TableData} {i : Nat} {index : String → Option Nat} {m : ModuleIdentity}
  {name package : String} {path : List String}

namespace TableData

/-- The lists and their inverse maps. -/
structure Core (d : TableData) : Prop where
  module : Indexed d.modules d.moduleIndices
  symbol : Indexed d.symbols d.symbolIndices
  node : Indexed d.nodes d.nodeIndices
  depths : d.depths.length = d.nodes.length
  root : ∀ (k m : Nat), d.nodes[k]? = some (.root m) → m < d.modules.length ∧ d.depths[k]? = some 0
  child : ∀ (k parent : Nat) (kind : DefinitionKind) (name occurrence : Nat),
    d.nodes[k]? = some (.child parent kind name occurrence) →
    parent < k ∧ name < d.symbols.length ∧ ∃ n, d.depths[parent]? = some n ∧
      d.depths[k]? = some (n + 1) ∧ n < maxIdentityPathSegments
  paths : ∀ m ∈ d.modules, m.withinPathLimit = true
  limit : d.nodes.length ≤ maxPortableIdentityRecords

/-- Every symbol and every identity came with a node, until the table was full. -/
def Bounded (d : TableData) : Prop :=
  (d.symbols.length ≤ d.nodes.length ∧ d.modules.length ≤ d.nodes.length) ∨
    d.nodes.length = maxPortableIdentityRecords

/-- The module maps agree with the module roots, and the roots are closed under prefixes. -/
structure Maps (symbols : List String) (roots : ModuleIdentity → Option Nat)
    (packageRoots : Nat → Option Nat) (moduleChildren : Nat × Nat → Option Nat) : Prop where
  package : ∀ (s i : Nat), packageRoots s = some i ↔
    ∃ package, symbols[s]? = some package ∧ roots ⟨package, []⟩ = some i
  child : ∀ (p s i : Nat), moduleChildren (p, s) = some i ↔ ∃ package path name,
    symbols[s]? = some name ∧ roots ⟨package, path⟩ = some p ∧
      roots ⟨package, path ++ [name]⟩ = some i
  packageSymbol : ∀ package i, roots ⟨package, []⟩ = some i → package ∈ symbols
  parent : ∀ package path name i, roots ⟨package, path ++ [name]⟩ = some i →
    name ∈ symbols ∧ ∃ p, roots ⟨package, path⟩ = some p

/-- The invariant of every table. -/
structure Valid (d : TableData) : Prop where
  core : Core d
  bounded : Bounded d
  maps : Maps d.symbols d.lookupRoot d.packageRoots d.moduleChildren

/-- The lists of the first table are prefixes of those of the second. -/
structure Extends (d d' : TableData) : Prop where
  modules : d.modules <+: d'.modules
  symbols : d.symbols <+: d'.symbols
  nodes : d.nodes <+: d'.nodes
  depths : d.depths <+: d'.depths

instance : Std.Refl Extends :=
  ⟨fun _ => ⟨List.prefix_refl _, List.prefix_refl _, List.prefix_refl _, List.prefix_refl _⟩⟩

instance : IsTrans TableData Extends :=
  ⟨fun _ _ _ h h' => ⟨h.modules.trans h'.modules, h.symbols.trans h'.symbols,
    h.nodes.trans h'.nodes, h.depths.trans h'.depths⟩⟩

theorem valid_empty : Valid empty := by
  refine ⟨⟨.empty, .empty, .empty, rfl, ?_, ?_, ?_, ?_⟩, .inl ⟨Nat.le_refl _, Nat.le_refl _⟩, ?_⟩
  · simp [empty]
  · simp [empty]
  · simp [empty]
  · simp [empty]
  · refine ⟨?_, ?_, ?_, ?_⟩ <;> simp [empty, lookupRoot]

/-! ## Roots -/

section Roots

variable {d : TableData}

theorem Core.lookupRoot_iff (h : Core d) :
    d.lookupRoot m = some i ↔ ∃ k, d.nodes[i]? = some (.root k) ∧ d.modules[k]? = some m := by
  simp only [lookupRoot, bind_eq_bind, bind_eq_some_iff]
  constructor
  · rintro ⟨k, hk, hi⟩
    exact ⟨k, (h.node _ _).mp hi, (h.module _ _).mp hk⟩
  · rintro ⟨k, hi, hk⟩
    exact ⟨k, (h.module _ _).mpr hk, (h.node _ _).mpr hi⟩

theorem Core.lookupRoot_injective (h : Core d) {m m' : ModuleIdentity}
    (hm : d.lookupRoot m = some i) (hm' : d.lookupRoot m' = some i) : m = m' := by
  obtain ⟨k, hi, hk⟩ := h.lookupRoot_iff.mp hm
  obtain ⟨k', hi', hk'⟩ := h.lookupRoot_iff.mp hm'
  rw [hi] at hi'
  obtain rfl := Node.root.inj (some.inj hi')
  exact some.inj (hk.symm.trans hk')

theorem Core.withinPathLimit (h : Core d)
    (hm : d.lookupRoot m = some i) : m.withinPathLimit = true := by
  obtain ⟨k, -, hk⟩ := h.lookupRoot_iff.mp hm
  exact h.paths m (mem_of_getElem? hk)

/-- A root is where its identity is. -/
theorem lookupRoot_of_identity {k : Nat} (hk : d.moduleIndices m = some k) :
    d.lookupRoot m = d.nodeIndices (.root k) := by
  simp [lookupRoot, hk]

end Roots

/-! ## Pushes -/

section Push

variable {d : TableData}

theorem extends_pushSymbol (name : String) : Extends d (d.pushSymbol name) :=
  ⟨prefix_refl _, prefix_append _ _, prefix_refl _, prefix_refl _⟩

theorem extends_pushModule (m : ModuleIdentity) : Extends d (d.pushModule m) :=
  ⟨prefix_append _ _, prefix_refl _, prefix_refl _, prefix_refl _⟩

theorem extends_pushNode (node : Node) (depth : Nat) : Extends d (d.pushNode node depth) :=
  ⟨prefix_refl _, prefix_refl _, prefix_append _ _, prefix_append _ _⟩

theorem Core.pushSymbol (h : Core d) (hnew : d.symbolIndices name = none) :
    Core (d.pushSymbol name) := by
  refine { h with symbol := h.symbol.push hnew, child := ?_ }
  intro k parent kind s occurrence hk
  obtain ⟨hpar, hs, hdep⟩ := h.child k parent kind s occurrence hk
  refine ⟨hpar, ?_, hdep⟩
  show s < (d.symbols ++ [name]).length
  rw [length_append]
  exact Nat.lt_add_right _ hs

theorem Core.pushModule (h : Core d) (hnew : d.moduleIndices m = none)
    (hlim : m.withinPathLimit = true) : Core (d.pushModule m) := by
  refine { h with module := h.module.push hnew, root := ?_, paths := ?_ }
  · intro k j hk
    obtain ⟨hj, hdep⟩ := h.root k j hk
    refine ⟨?_, hdep⟩
    show j < (d.modules ++ [m]).length
    rw [length_append]
    exact Nat.lt_add_right _ hj
  · intro m' hm'
    rcases mem_append.mp hm' with hm' | hm'
    · exact h.paths m' hm'
    · rw [mem_singleton.mp hm']
      exact hlim

/-- The node that a push adds is the last one. -/
theorem getElem?_pushNode {node node' : Node} {depth k : Nat}
    (hk : (d.pushNode node depth).nodes[k]? = some node') :
    d.nodes[k]? = some node' ∨ k = d.nodes.length ∧ node' = node := by
  rcases Nat.lt_or_ge k d.nodes.length with hlt | hge
  · left
    rwa [pushNode, getElem?_append_left hlt] at hk
  · right
    rw [pushNode, getElem?_append_right hge, getElem?_singleton] at hk
    split at hk
    · exact ⟨by omega, (some.inj hk).symm⟩
    · cases hk

theorem Core.pushNode (h : Core d) {node : Node} {depth : Nat} (hnew : d.nodeIndices node = none)
    (hroom : d.nodes.length < maxPortableIdentityRecords)
    (hroot : ∀ m, node = .root m → m < d.modules.length ∧ depth = 0)
    (hch : ∀ parent kind name occurrence, node = .child parent kind name occurrence →
      name < d.symbols.length ∧ ∃ n, d.depths[parent]? = some n ∧ depth = n + 1 ∧
        n < maxIdentityPathSegments) : Core (d.pushNode node depth) := by
  have hold : ∀ {k n : Nat}, d.depths[k]? = some n → (d.depths ++ [depth])[k]? = some n :=
    fun hk => get_of_grows (List.prefix_append _ _) hk
  have hlast : (d.depths ++ [depth])[d.nodes.length]? = some depth := by
    rw [← h.depths]
    simp
  refine { h with node := h.node.push hnew, depths := ?_, root := ?_, child := ?_, limit := ?_ }
  · simp [TableData.pushNode, h.depths]
  · intro k m hk
    rcases getElem?_pushNode hk with hk | ⟨rfl, heq⟩
    · obtain ⟨hm, hdep⟩ := h.root k m hk
      exact ⟨hm, hold hdep⟩
    · obtain ⟨hm, hzero⟩ := hroot m heq.symm
      exact ⟨hm, hzero ▸ hlast⟩
  · intro k parent kind name occurrence hk
    rcases getElem?_pushNode hk with hk | ⟨rfl, heq⟩
    · obtain ⟨hpar, hname, n, hn, hdep, hlt⟩ := h.child k parent kind name occurrence hk
      exact ⟨hpar, hname, n, hold hn, hold hdep, hlt⟩
    · obtain ⟨hname, n, hn, hdep, hlt⟩ := hch parent kind name occurrence heq.symm
      refine ⟨?_, hname, n, hold hn, hdep ▸ hlast, hlt⟩
      rw [← h.depths]
      exact (List.getElem?_eq_some_iff.mp hn).1
  · simp only [TableData.pushNode, List.length_append, List.length_singleton]
    omega

/-- An identity without a node changes no root. -/
theorem Core.lookupRoot_pushModule (h : Core d)
    (hnew : d.moduleIndices m = none) : (d.pushModule m).lookupRoot = d.lookupRoot := by
  funext m'
  by_cases hm : m' = m
  · subst hm
    have hnone : d.nodeIndices (.root d.modules.length) = none := by
      rw [eq_none_iff_forall_ne_some]
      intro i hi
      have hlt := (h.root i _ ((h.node _ _).mp hi)).1
      omega
    simp [lookupRoot, TableData.pushModule, hnew, hnone]
  · simp [lookupRoot, TableData.pushModule, hm]

theorem lookupRoot_pushChild (parent : Nat) (kind : DefinitionKind) (name occurrence depth : Nat) :
    (d.pushNode (.child parent kind name occurrence) depth).lookupRoot = d.lookupRoot := by
  funext m
  simp [lookupRoot, TableData.pushNode]

theorem Core.lookupRoot_pushRoot (h : Core d) {k : Nat}
    (hk : d.moduleIndices m = some k) :
    (d.pushNode (.root k) 0).lookupRoot = update d.lookupRoot m (some d.nodes.length) := by
  funext m'
  by_cases hm : m' = m
  · subst hm
    simp [lookupRoot, TableData.pushNode, hk]
  · rw [update_of_ne hm]
    cases hk' : d.moduleIndices m' with
    | none => simp [lookupRoot, TableData.pushNode, hk']
    | some j =>
      have hne : j ≠ k := by
        rintro rfl
        have hget := (h.module m' j).mp hk'
        rw [(h.module m j).mp hk] at hget
        exact hm (some.inj hget).symm
      simp [lookupRoot, TableData.pushNode, hk', hne]

end Push

/-! ## Module maps -/

namespace Maps

variable {symbols : List String} {roots : ModuleIdentity → Option Nat}
  {packageRoots : Nat → Option Nat} {moduleChildren : Nat × Nat → Option Nat}

theorem pushSymbol (h : Maps symbols roots packageRoots moduleChildren)
    (hnew : name ∉ symbols) : Maps (symbols ++ [name]) roots packageRoots moduleChildren := by
  -- a name that roots use has been a symbol before
  have hold : ∀ {s : Nat} {name' : String}, name' ∈ symbols → (symbols ++ [name])[s]? = some name' →
      symbols[s]? = some name' := by
    intro s name' hmem hs
    rcases Nat.lt_or_ge s symbols.length with hlt | hge
    · rwa [getElem?_append_left hlt] at hs
    · rw [getElem?_append_right hge, getElem?_singleton] at hs
      split at hs
      · exact absurd (some.inj hs ▸ hmem) hnew
      · cases hs
  have hkeep : ∀ {s : Nat} {name' : String}, symbols[s]? = some name' →
      (symbols ++ [name])[s]? = some name' := fun hs => get_of_grows (prefix_append _ _) hs
  refine ⟨fun s i => ?_, fun p s i => ?_, fun package i hi => ?_, fun package path name' i hi => ?_⟩
  · rw [h.package]
    constructor
    · rintro ⟨package, hs, hi⟩
      exact ⟨package, hkeep hs, hi⟩
    · rintro ⟨package, hs, hi⟩
      exact ⟨package, hold (h.packageSymbol package i hi) hs, hi⟩
  · rw [h.child]
    constructor
    · rintro ⟨package, path, name', hs, hp, hi⟩
      exact ⟨package, path, name', hkeep hs, hp, hi⟩
    · rintro ⟨package, path, name', hs, hp, hi⟩
      exact ⟨package, path, name', hold (h.parent package path name' i hi).1 hs, hp, hi⟩
  · exact mem_append_left _ (h.packageSymbol package i hi)
  · obtain ⟨hmem, hp⟩ := h.parent package path name' i hi
    exact ⟨mem_append_left _ hmem, hp⟩

/-- A new root does not have modules below it yet. -/
theorem not_below (h : Maps symbols roots packageRoots moduleChildren)
    (hnew : roots ⟨package, path⟩ = none) (name : String) :
    roots ⟨package, path ++ [name]⟩ = none := by
  rw [eq_none_iff_forall_ne_some]
  intro i hi
  obtain ⟨-, p, hp⟩ := h.parent package path name i hi
  rw [hnew] at hp
  cases hp

theorem addPackage (h : Maps symbols roots packageRoots moduleChildren)
    (hsyms : Indexed symbols index) {s i : Nat} (hnew : roots ⟨package, []⟩ = none)
    (hs : symbols[s]? = some package) :
    Maps symbols (update roots ⟨package, []⟩ (some i))
      (update packageRoots s (some i)) moduleChildren := by
  refine ⟨fun s' i' => ?_, fun p s' i' => ?_, fun package' i' hi' => ?_,
    fun package' path name i' hi' => ?_⟩
  · by_cases hs' : s' = s
    · subst hs'
      rw [update_self]
      constructor
      · intro heq
        exact ⟨package, hs, by rw [update_self, heq]⟩
      · rintro ⟨package', hget, hi'⟩
        obtain rfl : package = package' := some.inj (hs.symm.trans hget)
        rwa [update_self] at hi'
    · rw [update_of_ne hs', h.package]
      refine exists_congr fun package' => and_congr_right fun hget => ?_
      rw [update_of_ne]
      intro heq
      obtain rfl : package' = package := congrArg ModuleIdentity.package heq
      exact hs' (hsyms.injective hget hs)
  · rw [h.child]
    refine exists_congr fun package' => exists_congr fun path => exists_congr fun name =>
      and_congr_right fun hget => ?_
    have hne : (⟨package', path ++ [name]⟩ : ModuleIdentity) ≠ ⟨package, []⟩ := by
      intro heq
      simp at heq
    rw [update_of_ne hne]
    by_cases hroot : (⟨package', path⟩ : ModuleIdentity) = ⟨package, []⟩
    · obtain ⟨rfl, rfl⟩ := ModuleIdentity.mk.inj hroot
      rw [h.not_below hnew name, hnew]
      simp
    · rw [update_of_ne hroot]
  · by_cases hroot : (⟨package', []⟩ : ModuleIdentity) = ⟨package, []⟩
    · obtain rfl : package' = package := congrArg ModuleIdentity.package hroot
      exact mem_of_getElem? hs
    · rw [update_of_ne hroot] at hi'
      exact h.packageSymbol package' i' hi'
  · have hne : (⟨package', path ++ [name]⟩ : ModuleIdentity) ≠ ⟨package, []⟩ := by
      intro heq
      simp at heq
    rw [update_of_ne hne] at hi'
    obtain ⟨hmem, p, hp⟩ := h.parent package' path name i' hi'
    refine ⟨hmem, ?_⟩
    by_cases hroot : (⟨package', path⟩ : ModuleIdentity) = ⟨package, []⟩
    · exact ⟨i, by rw [hroot, update_self]⟩
    · exact ⟨p, by rw [update_of_ne hroot, hp]⟩

theorem addChild (h : Maps symbols roots packageRoots moduleChildren)
    (hsyms : Indexed symbols index)
    (hinj : ∀ {m m' : ModuleIdentity} {i : Nat}, roots m = some i → roots m' = some i → m = m')
    {package name : String} {p s i : Nat}
    (hp : roots ⟨package, path⟩ = some p) (hnew : roots ⟨package, path ++ [name]⟩ = none)
    (hs : symbols[s]? = some name) :
    Maps symbols (update roots ⟨package, path ++ [name]⟩ (some i)) packageRoots
      (update moduleChildren (p, s) (some i)) := by
  have hup : (⟨package, path⟩ : ModuleIdentity) ≠ ⟨package, path ++ [name]⟩ := by
    intro heq
    have hlen := congrArg List.length (congrArg ModuleIdentity.path heq)
    simp at hlen
  refine ⟨fun s' i' => ?_, fun p' s' i' => ?_, fun package' i' hi' => ?_,
    fun package' path' name' i' hi' => ?_⟩
  · rw [h.package]
    refine exists_congr fun package' => and_congr_right fun hget => ?_
    rw [update_of_ne]
    intro heq
    simp at heq
  · by_cases hkey : (p', s') = (p, s)
    · cases hkey
      rw [update_self]
      constructor
      · intro heq
        refine ⟨package, path, name, hs, ?_, ?_⟩
        · rw [update_of_ne hup, hp]
        · rw [update_self, heq]
      · rintro ⟨package', path', name', hget, hp', hi'⟩
        obtain rfl : name = name' := some.inj (hs.symm.trans hget)
        by_cases hroot : (⟨package', path'⟩ : ModuleIdentity) = ⟨package, path ++ [name]⟩
        · -- a root that has just been made has no module below it
          obtain ⟨rfl, rfl⟩ := ModuleIdentity.mk.inj hroot
          rw [update_of_ne (by intro heq; simp at heq), h.not_below hnew name] at hi'
          cases hi'
        · rw [update_of_ne hroot] at hp'
          obtain ⟨rfl, rfl⟩ := ModuleIdentity.mk.inj (hinj hp hp')
          rwa [update_self] at hi'
    · rw [update_of_ne hkey, h.child]
      constructor
      · rintro ⟨package', path', name', hget, hp', hi'⟩
        refine ⟨package', path', name', hget, ?_, ?_⟩
        · rw [update_of_ne, hp']
          rintro heq
          rw [heq, hnew] at hp'
          cases hp'
        · rw [update_of_ne, hi']
          rintro heq
          rw [heq, hnew] at hi'
          cases hi'
      · rintro ⟨package', path', name', hget, hp', hi'⟩
        by_cases hroot : (⟨package', path'⟩ : ModuleIdentity) = ⟨package, path ++ [name]⟩
        · obtain ⟨rfl, rfl⟩ := ModuleIdentity.mk.inj hroot
          rw [update_of_ne (by intro heq; simp at heq), h.not_below hnew name'] at hi'
          cases hi'
        · rw [update_of_ne hroot] at hp'
          refine ⟨package', path', name', hget, hp', ?_⟩
          rw [update_of_ne] at hi'
          · exact hi'
          · intro heq
            obtain ⟨rfl, hpath⟩ := ModuleIdentity.mk.inj heq
            obtain ⟨rfl, hname⟩ := append_inj' hpath rfl
            obtain rfl : name' = name := by simpa using hname
            refine hkey (Prod.ext ?_ ?_)
            · exact some.inj (hp'.symm.trans hp)
            · exact hsyms.injective hget hs
  · rw [update_of_ne (by intro heq; simp at heq)] at hi'
    exact h.packageSymbol package' i' hi'
  · have hpar : (∃ p, roots ⟨package', path'⟩ = some p) →
        ∃ p, update roots ⟨package, path ++ [name]⟩ (some i) ⟨package', path'⟩ = some p := by
      rintro ⟨p', hp'⟩
      by_cases hroot : (⟨package', path'⟩ : ModuleIdentity) = ⟨package, path ++ [name]⟩
      · exact ⟨i, by rw [hroot, update_self]⟩
      · exact ⟨p', by rw [update_of_ne hroot, hp']⟩
    by_cases hroot : (⟨package', path' ++ [name']⟩ : ModuleIdentity) = ⟨package, path ++ [name]⟩
    · obtain ⟨rfl, hpath⟩ := ModuleIdentity.mk.inj hroot
      obtain ⟨rfl, hname⟩ := append_inj' hpath rfl
      obtain rfl : name' = name := by simpa using hname
      exact ⟨mem_of_getElem? hs, hpar ⟨p, hp⟩⟩
    · rw [update_of_ne hroot] at hi'
      obtain ⟨hmem, hp'⟩ := h.parent package' path' name' i' hi'
      exact ⟨hmem, hpar hp'⟩

end Maps

/-! ## Paths of nodes -/

/-- The path of a node, from its root down. -/
inductive PathAt (d : TableData) : Nat → DefinitionPath → Prop
  | root {i k : Nat} {m : ModuleIdentity} : d.nodes[i]? = some (.root k) → d.modules[k]? = some m →
      PathAt d i ⟨m, []⟩
  | child {i parent name occurrence : Nat} {kind : DefinitionKind} {text : String}
      {m : ModuleIdentity} {path : List DefinitionPathSegment} :
      d.nodes[i]? = some (.child parent kind name occurrence) → d.symbols[name]? = some text →
      PathAt d parent ⟨m, path⟩ → PathAt d i ⟨m, path ++ [⟨kind, text, occurrence⟩]⟩

section Paths

variable {d d' : TableData}

variable {p : DefinitionPath} {i : Nat}

theorem PathAt.extend (h : Extends d d') (hp : PathAt d i p) :
    PathAt d' i p := by
  induction hp with
  | root hi hk => exact .root (get_of_grows h.nodes hi) (get_of_grows h.modules hk)
  | child hi hname _ ih => exact .child (get_of_grows h.nodes hi) (get_of_grows h.symbols hname) ih

theorem PathAt.lt (hp : PathAt d i p) : i < d.nodes.length := by
  cases hp with
  | root hi _ => exact (List.getElem?_eq_some_iff.mp hi).1
  | child hi _ _ => exact (List.getElem?_eq_some_iff.mp hi).1

theorem PathAt.root_iff (h : Core d) :
    PathAt d i ⟨m, []⟩ ↔ d.lookupRoot m = some i := by
  rw [h.lookupRoot_iff]
  constructor
  · intro hp
    generalize hq : (⟨m, []⟩ : DefinitionPath) = q at hp
    cases hp with
    | root hi hk =>
      obtain ⟨rfl, -⟩ := DefinitionPath.mk.inj hq
      exact ⟨_, hi, hk⟩
    | child _ _ _ =>
      obtain ⟨-, hnil⟩ := DefinitionPath.mk.inj hq
      simp at hnil
  · rintro ⟨k, hi, hk⟩
    exact .root hi hk

/-- The last segment of a path, and the node of the rest. -/
theorem PathAt.child_inv {path : List DefinitionPathSegment}
    {segment : DefinitionPathSegment} (hp : PathAt d i ⟨m, path ++ [segment]⟩) :
    ∃ parent name, d.nodes[i]? = some (.child parent segment.kind name segment.occurrence) ∧
      d.symbols[name]? = some segment.name ∧ PathAt d parent ⟨m, path⟩ := by
  generalize hq : (⟨m, path ++ [segment]⟩ : DefinitionPath) = q at hp
  cases hp with
  | root _ _ =>
    obtain ⟨-, hnil⟩ := DefinitionPath.mk.inj hq
    simp at hnil
  | child hi hname hpar =>
    obtain ⟨rfl, hpath⟩ := DefinitionPath.mk.inj hq
    obtain ⟨rfl, hlast⟩ := append_inj' hpath rfl
    obtain rfl : segment = _ := by simpa using hlast
    exact ⟨_, _, hi, hname, hpar⟩

/-- A node has one path. -/
theorem PathAt.functional {p q : DefinitionPath} (hp : PathAt d i p) (hq : PathAt d i q) :
    p = q := by
  induction hp generalizing q with
  | root hi hk =>
    cases hq with
    | root hi' hk' =>
      rw [hi] at hi'
      obtain rfl := Node.root.inj (some.inj hi')
      rw [hk] at hk'
      rw [some.inj hk']
    | child hi' _ _ =>
      rw [hi] at hi'
      cases hi'
  | child hi hname _ ih =>
    cases hq with
    | root hi' _ =>
      rw [hi] at hi'
      cases hi'
    | child hi' hname' hpar' =>
      rw [hi] at hi'
      obtain ⟨rfl, rfl, rfl, rfl⟩ := Node.child.inj (some.inj hi')
      rw [hname] at hname'
      cases hname'
      obtain ⟨rfl, rfl⟩ := DefinitionPath.mk.inj (ih hpar')
      rfl

/-- A path has one node. -/
theorem PathAt.injective (h : Core d) {i j : Nat} (hi : PathAt d i p)
    (hj : PathAt d j p) : i = j := by
  induction hi generalizing j with
  | root hi hk =>
    have hroot := (PathAt.root_iff h).mp (.root hi hk)
    exact some.inj (hroot.symm.trans ((PathAt.root_iff h).mp hj))
  | child hi hname _ ih =>
    obtain ⟨parent', name', hj', hname', hpar'⟩ := hj.child_inv
    obtain rfl := ih hpar'
    obtain rfl := h.symbol.injective hname hname'
    exact h.node.injective hi hj'

/-- Every node has a path, as long as its depth says. -/
theorem Core.exists_path (h : Core d) {i n : Nat} (hi : d.depths[i]? = some n) :
    ∃ p, PathAt d i p ∧ p.path.length = n ∧ n ≤ maxIdentityPathSegments := by
  induction i using Nat.strongRecOn generalizing n with
  | ind i ih =>
    have hlt : i < d.nodes.length := h.depths ▸ (List.getElem?_eq_some_iff.mp hi).1
    have hget := List.getElem?_eq_getElem hlt
    cases hnode : d.nodes[i] with
    | root m =>
      rw [hnode] at hget
      obtain ⟨hm, hdep⟩ := h.root i m hget
      rw [hi] at hdep
      cases hdep
      exact ⟨_, .root hget (List.getElem?_eq_getElem hm), rfl, Nat.zero_le _⟩
    | child parent kind name occurrence =>
      rw [hnode] at hget
      obtain ⟨hpar, hname, n', hn', hdep, hlim⟩ := h.child i parent kind name occurrence hget
      rw [hi] at hdep
      cases hdep
      obtain ⟨⟨m, path⟩, hpath, rfl, -⟩ := ih parent hpar hn'
      refine ⟨_, .child hget (List.getElem?_eq_getElem hname) hpath, ?_, hlim⟩
      simp

theorem Core.exists_pathAt (h : Core d) (hi : i < d.nodes.length) :
    ∃ p, PathAt d i p ∧ p.path.length ≤ maxIdentityPathSegments := by
  have hdep := getElem?_eq_getElem (h.depths ▸ hi : i < d.depths.length)
  obtain ⟨p, hp, hlen, hle⟩ := h.exists_path hdep
  exact ⟨p, hp, hlen ▸ hle⟩

/-! ## What the table's own walks return -/

theorem PathAt.moduleLoop (h : Core d) (hp : PathAt d i p) :
    ∀ fuel, i < fuel → d.moduleLoop fuel i = some p.module := by
  induction hp with
  | root hi hk =>
    intro fuel hfuel
    obtain ⟨fuel, rfl⟩ := Nat.exists_eq_succ_of_ne_zero (Nat.ne_of_gt (Nat.zero_lt_of_lt hfuel))
    simp only [TableData.moduleLoop, hi]
    exact hk
  | child hi hname hpar ih =>
    intro fuel hfuel
    obtain ⟨fuel, rfl⟩ := Nat.exists_eq_succ_of_ne_zero (Nat.ne_of_gt (Nat.zero_lt_of_lt hfuel))
    have hlt := (h.child _ _ _ _ _ hi).1
    simp only [TableData.moduleLoop, hi]
    exact ih fuel (by omega)

theorem PathAt.segmentIndices (hp : PathAt d i p) :
    ∀ capacity, p.path.length ≤ capacity → ∃ indices, d.segmentIndices capacity i = some indices ∧
      indices.reverse.mapM d.segment = some p.path := by
  induction hp with
  | root hi hk =>
    intro capacity _
    refine ⟨[], ?_, rfl⟩
    unfold TableData.segmentIndices
    rw [hi]
  | @child i parent name occurrence kind text m path hi hname hpar ih =>
    intro capacity hcap
    have hlen : path.length + 1 ≤ capacity := by simpa using hcap
    obtain ⟨capacity, rfl⟩ := Nat.exists_eq_succ_of_ne_zero (by omega : capacity ≠ 0)
    obtain ⟨indices, hidxs, hmap⟩ := ih capacity (by simpa using hlen)
    refine ⟨i :: indices, ?_, ?_⟩
    · unfold TableData.segmentIndices
      rw [hi]
      simp [hidxs]
    · have hseg : d.segment i = some ⟨kind, text, occurrence⟩ := by
        simp [TableData.segment, hi, hname]
      rw [reverse_cons, mapM_append, hmap]
      simp [hseg]

theorem Core.toPath_iff (h : Core d) :
    d.toPath i = some p ↔ PathAt d i p := by
  have hcpl : ∀ {q : DefinitionPath}, PathAt d i q → d.toPath i = some q := by
    intro q hq
    have hlen : q.path.length ≤ maxIdentityPathSegments := by
      obtain ⟨q', hq', hle⟩ := h.exists_pathAt hq.lt
      exact hq.functional hq' ▸ hle
    obtain ⟨indices, hidxs, hmap⟩ := hq.segmentIndices _ hlen
    unfold toPath segments
    rw [hq.moduleLoop h _ (Nat.lt_succ_self i), hidxs]
    simp [hmap]
  constructor
  · intro hp
    have hlt : i < d.nodes.length := by
      by_contra hge
      have hnone : d.nodes[i]? = none := getElem?_eq_none (by omega)
      simp [toPath, moduleLoop, hnone] at hp
    obtain ⟨q, hq, -⟩ := h.exists_pathAt hlt
    rw [hcpl hq] at hp
    exact some.inj hp ▸ hq
  · exact hcpl

theorem lookupSegments_append (path : List DefinitionPathSegment) (segment : DefinitionPathSegment) :
    ∀ index, d.lookupSegments (path ++ [segment]) index =
      (d.lookupSegments path index).bind fun index => (d.symbolIndices segment.name).bind fun name =>
        d.nodeIndices (.child index segment.kind name segment.occurrence) := by
  induction path with
  | nil =>
    intro index
    simp [lookupSegments]
  | cons first path ih =>
    intro index
    simp only [cons_append, lookupSegments, bind_eq_bind, ih, bind_assoc]

theorem Core.lookup_iff (h : Core d) :
    d.lookup p = some i ↔ PathAt d i p := by
  obtain ⟨m, path⟩ := p
  unfold lookup
  induction path using List.reverseRecOn generalizing i with
  | nil =>
    rw [PathAt.root_iff h]
    simp [lookupSegments]
  | append_singleton path segment ih =>
    constructor
    · intro hlook
      obtain ⟨root, hroot, hlook⟩ := bind_eq_some_iff.mp hlook
      rw [lookupSegments_append] at hlook
      obtain ⟨parent, hpar, hlook⟩ := bind_eq_some_iff.mp hlook
      obtain ⟨name, hname, hnode⟩ := bind_eq_some_iff.mp hlook
      refine .child ((h.node _ _).mp hnode) ((h.symbol _ _).mp hname) (ih.mp ?_)
      exact bind_eq_some_iff.mpr ⟨root, hroot, hpar⟩
    · intro hp
      obtain ⟨parent, name, hi, hname, hpar⟩ := hp.child_inv
      obtain ⟨root, hroot, hlook⟩ := bind_eq_some_iff.mp (ih.mpr hpar)
      refine bind_eq_some_iff.mpr ⟨root, hroot, ?_⟩
      rw [lookupSegments_append, hlook, bind_some, (h.symbol _ _).mpr hname, bind_some]
      exact (h.node _ _).mpr hi

end Paths

/-! ## Module paths -/

theorem lookupModuleNames_append (path : List String) (name : String) : ∀ index,
    d.lookupModuleNames (path ++ [name]) index =
      (d.lookupModuleNames path index).bind fun index => (d.symbolIndices name).bind fun name =>
        d.moduleChildren (index, name) := by
  induction path with
  | nil =>
    intro index
    simp [lookupModuleNames]
  | cons first path ih =>
    intro index
    simp only [cons_append, lookupModuleNames, bind_eq_bind, ih, bind_assoc]

/-- Walking the module maps finds exactly the module roots. -/
theorem Valid.lookupModulePath_eq (h : Valid d) (package : String)
    (path : List String) : d.lookupModulePath package path = d.lookupRoot ⟨package, path⟩ := by
  apply Option.ext
  intro i
  unfold lookupModulePath
  simp only [bind_eq_bind]
  induction path using List.reverseRecOn generalizing i with
  | nil =>
    simp only [lookupModuleNames, bind_eq_some_iff]
    constructor
    · rintro ⟨s, hs, hi⟩
      obtain ⟨package', hget, hroot⟩ := (h.maps.package s i).mp (by simpa using hi)
      rw [(h.core.symbol _ _).mp hs] at hget
      exact some.inj hget ▸ hroot
    · intro hroot
      obtain ⟨s, hs⟩ := mem_iff_getElem?.mp (h.maps.packageSymbol package i hroot)
      refine ⟨s, (h.core.symbol _ _).mpr hs, ?_⟩
      simpa using (h.maps.package s i).mpr ⟨package, hs, hroot⟩
  | append_singleton path name ih =>
    simp only [lookupModuleNames_append, ← bind_assoc]
    constructor
    · intro hi
      obtain ⟨p, hp, hi⟩ := bind_eq_some_iff.mp hi
      obtain ⟨s, hs, hi⟩ := bind_eq_some_iff.mp hi
      have hp := (ih p).mp (by simpa only [bind_assoc] using hp)
      obtain ⟨package', path', name', hget, hp', hroot⟩ := (h.maps.child p s i).mp hi
      rw [(h.core.symbol _ _).mp hs] at hget
      cases hget
      obtain ⟨rfl, rfl⟩ := ModuleIdentity.mk.inj (h.core.lookupRoot_injective hp hp')
      exact hroot
    · intro hroot
      obtain ⟨hmem, p, hp⟩ := h.maps.parent package path name i hroot
      obtain ⟨s, hs⟩ := mem_iff_getElem?.mp hmem
      refine bind_eq_some_iff.mpr ⟨p, ?_, ?_⟩
      · simpa only [bind_assoc] using (ih p).mpr hp
      · rw [(h.core.symbol _ _).mpr hs, bind_some]
        exact (h.maps.child p s i).mpr ⟨package, path, name, hs, hp, hroot⟩

end TableData

end Kagari.Identity
