import Kagari.Identity.Invariant

/-!
# Interning

What each builder method does to a valid table: the table stays valid and only grows, also when the
method stops early, and what it returns is the node of the path it was given. What is there already
is returned without a change; a method that finds room in the table does not stop.
-/

namespace Kagari.Identity

open Lib Stateful TableData List

variable {d : TableData}

variable {index depth i : Nat} {name package text : String} {node : Node} {d' : TableData}
  {path : List String} {kind : DefinitionKind}

theorem exec_checkedIndex (h : index < 2 ^ 32) :
    exec (checkedIndex index) d = (.ok index, d) := by
  unfold checkedIndex
  rw [if_pos h]
  exact exec_pure _ _

theorem exec_checkedIndex_error (h : ¬ index < 2 ^ 32) :
    exec (checkedIndex index) d = (.error .indexExhausted, d) := by
  unfold checkedIndex
  rw [if_neg h]
  exact exec_throw _ _

/-! ## Symbols -/

theorem exec_internSymbol_old {s : Nat} (h : d.symbolIndices name = some s) :
    exec (internSymbol name) d = (.ok s, d) := by
  simp [internSymbol, h]

theorem exec_internSymbol_new (h : d.symbolIndices name = none)
    (hroom : d.symbols.length < 2 ^ 32) :
    exec (internSymbol name) d = (.ok d.symbols.length, d.pushSymbol name) := by
  unfold internSymbol
  rw [exec_get_bind, h]
  dsimp only
  rw [exec_bind_ok (exec_checkedIndex hroom)]
  rfl

theorem exec_internSymbol_full (h : d.symbolIndices name = none)
    (hfull : ¬ d.symbols.length < 2 ^ 32) :
    exec (internSymbol name) d = (.error .indexExhausted, d) := by
  unfold internSymbol
  rw [exec_get_bind, h]
  dsimp only
  rw [exec_bind_error (exec_checkedIndex_error hfull)]

/-- The table with `name` among its symbols, at `s`. -/
structure SymbolAdded (d : TableData) (name : String) (s : Nat) (d' : TableData) : Prop where
  core : Core d'
  grows : Extends d d'
  symbol : d'.symbols[s]? = some name
  le : d'.symbols.length ≤ d.symbols.length + 1
  roots : d'.lookupRoot = d.lookupRoot
  packageRoots : d'.packageRoots = d.packageRoots
  moduleChildren : d'.moduleChildren = d.moduleChildren
  modules : d'.modules = d.modules
  nodes : d'.nodes = d.nodes
  maps : ∀ {roots : ModuleIdentity → Option Nat} {packageRoots : Nat → Option Nat}
    {moduleChildren : Nat × Nat → Option Nat}, Maps d.symbols roots packageRoots moduleChildren →
      Maps d'.symbols roots packageRoots moduleChildren

theorem internSymbol_cases (h : Core d) (name : String) :
    (∃ s d', exec (internSymbol name) d = (.ok s, d') ∧ SymbolAdded d name s d' ∧
      (d' = d ∨ s = d.symbols.length)) ∨
    (exec (internSymbol name) d = (.error .indexExhausted, d) ∧ ¬ d.symbols.length < 2 ^ 32) := by
  cases hs : d.symbolIndices name with
  | some s =>
    refine .inl ⟨s, d, exec_internSymbol_old hs, ?_, .inl rfl⟩
    exact ⟨h, Std.Refl.refl d, (h.symbol _ _).mp hs, Nat.le_succ _, rfl, rfl, rfl, rfl, rfl, id⟩
  | none =>
    by_cases hroom : d.symbols.length < 2 ^ 32
    · refine .inl ⟨_, _, exec_internSymbol_new hs hroom, ?_, .inr rfl⟩
      refine ⟨h.pushSymbol hs, extends_pushSymbol name, ?_, ?_, rfl, rfl, rfl, rfl, rfl,
        fun hmaps => hmaps.pushSymbol (h.symbol.not_mem hs)⟩
      · simp [pushSymbol]
      · simp [pushSymbol]
    · exact .inr ⟨exec_internSymbol_full hs hroom, hroom⟩

theorem internSymbol_added (h : Core d) (name : String) (hroom : d.symbols.length < 2 ^ 32) :
    ∃ s d', exec (internSymbol name) d = (.ok s, d') ∧ SymbolAdded d name s d' := by
  rcases internSymbol_cases h name with ⟨s, d', hrun, hs, -⟩ | ⟨-, hfull⟩
  · exact ⟨s, d', hrun, hs⟩
  · exact absurd hroom hfull

/-! ## Nodes -/

theorem exec_internNode_old {depth i : Nat} (h : d.nodeIndices node = some i) :
    exec (internNode node depth) d = (.ok i, d) := by
  simp [internNode, h]

theorem exec_internNode_full (h : d.nodeIndices node = none)
    (hfull : maxPortableIdentityRecords ≤ d.nodes.length) :
    exec (internNode node depth) d = (.error .portableLimit, d) := by
  simp [internNode, h, hfull]

theorem exec_internNode_new (h : d.nodeIndices node = none)
    (hroom : d.nodes.length < maxPortableIdentityRecords) :
    exec (internNode node depth) d = (.ok d.nodes.length, d.pushNode node depth) := by
  have hidx : d.nodes.length < 2 ^ 32 := lt_trans hroom (by decide)
  unfold internNode
  rw [exec_get_bind, h]
  dsimp only
  rw [if_neg (by omega), exec_bind_ok (exec_checkedIndex hidx)]
  rfl

/-! ## Module roots -/

/-- A table with the same nodes and symbols: at most an identity was added. -/
structure Unchanged (d d' : TableData) : Prop where
  core : Core d'
  grows : Extends d d'
  roots : d'.lookupRoot = d.lookupRoot
  symbols : d'.symbols = d.symbols
  nodes : d'.nodes = d.nodes
  packageRoots : d'.packageRoots = d.packageRoots
  moduleChildren : d'.moduleChildren = d.moduleChildren

theorem Unchanged.refl (h : Core d) : Unchanged d d :=
  ⟨h, Std.Refl.refl d, rfl, rfl, rfl, rfl, rfl⟩

/-- The table with a new module root at `i`. -/
structure RootAdded (d : TableData) (m : ModuleIdentity) (i : Nat) (d' : TableData) : Prop where
  core : Core d'
  grows : Extends d d'
  roots : d'.lookupRoot = Function.update d.lookupRoot m (some i)
  symbols : d'.symbols = d.symbols
  room : d.nodes.length < maxPortableIdentityRecords
  nodes : d'.nodes.length = d.nodes.length + 1
  modules : d'.modules.length ≤ d'.nodes.length
  packageRoots : d'.packageRoots = d.packageRoots
  moduleChildren : d'.moduleChildren = d.moduleChildren

variable {m : ModuleIdentity}

/-- The identity of a module, added if it is not there. -/
theorem internIdentity_cases (h : Core d) (hlim : m.withinPathLimit = true) :
    (∃ k d', exec (internIdentity m) d = (.ok k, d') ∧ Unchanged d d' ∧ d'.moduleIndices m = some k ∧
      d'.modules.length ≤ d.modules.length + 1) ∨
    (exec (internIdentity m) d = (.error .indexExhausted, d) ∧ d.moduleIndices m = none ∧
      ¬ d.modules.length < 2 ^ 32) := by
  unfold internIdentity
  rw [exec_get_bind]
  cases hm : d.moduleIndices m with
  | some k => exact .inl ⟨k, d, rfl, .refl h, hm, Nat.le_succ _⟩
  | none =>
    dsimp only
    by_cases hroom : d.modules.length < 2 ^ 32
    · refine .inl ⟨d.modules.length, d.pushModule m, ?_, ?_, ?_, ?_⟩
      · rw [exec_bind_ok (exec_checkedIndex hroom)]
        rfl
      · exact ⟨h.pushModule hm hlim, extends_pushModule m, h.lookupRoot_pushModule hm, rfl, rfl,
          rfl, rfl⟩
      · simp [pushModule]
      · simp [pushModule]
    · refine .inr ⟨?_, rfl, hroom⟩
      rw [exec_bind_error (exec_checkedIndex_error hroom)]

theorem exec_internRootRecord_old (h : Core d)
    (hm : d.lookupRoot m = some i) : exec (internRootRecord m) d = (.ok i, d) := by
  have hlim := h.withinPathLimit hm
  simp only [lookupRoot, Option.bind_eq_bind, Option.bind_eq_some_iff] at hm
  obtain ⟨k, hk, hi⟩ := hm
  have hidty : exec (internIdentity m) d = (.ok k, d) := by
    simp [internIdentity, hk]
  unfold internRootRecord
  rw [if_pos hlim, exec_bind_ok hidty]
  exact exec_internNode_old hi

theorem internRootRecord_new (h : Core d) (hb : Bounded d)
    (hlim : m.withinPathLimit = true) (hm : d.lookupRoot m = none)
    (hroom : d.nodes.length < maxPortableIdentityRecords) :
    ∃ d', exec (internRootRecord m) d = (.ok d.nodes.length, d') ∧
      RootAdded d m d.nodes.length d' := by
  have hmods : d.modules.length ≤ d.nodes.length := by
    rcases hb with ⟨-, hle⟩ | heq
    · exact hle
    · omega
  have hsmall : d.modules.length < 2 ^ 32 :=
    lt_of_le_of_lt hmods (lt_trans hroom (by decide))
  unfold internRootRecord
  rw [if_pos hlim]
  rcases internIdentity_cases h hlim with ⟨k, d', hrun, hsame, hk, hlen⟩ | ⟨-, -, hfull⟩
  · have hnone : d'.nodeIndices (.root k) = none := by
      rw [← lookupRoot_of_identity hk, hsame.roots, hm]
    have hroom' : d'.nodes.length < maxPortableIdentityRecords := hsame.nodes ▸ hroom
    have hkget := (hsame.core.module m k).mp hk
    refine ⟨d'.pushNode (.root k) 0, ?_, ?_⟩
    · rw [exec_bind_ok hrun, exec_internNode_new hnone hroom', hsame.nodes]
    · refine ⟨?_, ?_, ?_, hsame.symbols, hroom, ?_, ?_, hsame.packageRoots, hsame.moduleChildren⟩
      · refine hsame.core.pushNode hnone hroom' ?_ nofun
        rintro j hj
        obtain rfl := Node.root.inj hj
        exact ⟨(List.getElem?_eq_some_iff.mp hkget).1, rfl⟩
      · exact IsTrans.trans _ _ _ hsame.grows (extends_pushNode _ _)
      · rw [hsame.core.lookupRoot_pushRoot hk, hsame.roots, hsame.nodes]
      · simp [pushNode, hsame.nodes]
      · simp only [pushNode, List.length_append, List.length_singleton, hsame.nodes]
        omega
  · exact absurd hsmall hfull

/-- A root record that is not there and finds no room stops, and changes at most the identities. -/
theorem internRootRecord_stops (h : Core d)
    (hm : d.lookupRoot m = none)
    (hstop : m.withinPathLimit = false ∨ ¬ d.nodes.length < maxPortableIdentityRecords) :
    ∃ e d', exec (internRootRecord m) d = (.error e, d') ∧ Unchanged d d' ∧
      (d' = d ∨ d.nodes.length = maxPortableIdentityRecords) := by
  unfold internRootRecord
  by_cases hlim : m.withinPathLimit = true
  · have hfull : maxPortableIdentityRecords ≤ d.nodes.length := by
      rcases hstop with hstop | hstop
      · rw [hlim] at hstop
        cases hstop
      · omega
    have heq : d.nodes.length = maxPortableIdentityRecords := le_antisymm h.limit hfull
    rw [if_pos hlim]
    rcases internIdentity_cases h hlim with ⟨k, d', hrun, hsame, hk, -⟩ | ⟨hrun, -, -⟩
    · have hnone : d'.nodeIndices (.root k) = none := by
        rw [← lookupRoot_of_identity hk, hsame.roots, hm]
      refine ⟨.portableLimit, d', ?_, hsame, .inr heq⟩
      rw [exec_bind_ok hrun]
      exact exec_internNode_full hnone (hsame.nodes ▸ hfull)
    · exact ⟨.indexExhausted, d, exec_bind_error hrun, .refl h, .inl rfl⟩
  · rw [if_neg hlim]
    exact ⟨.pathLimit, d, rfl, .refl h, .inl rfl⟩

theorem Unchanged.valid (hd : Valid d) (h : Unchanged d d')
    (hfull : d' = d ∨ d.nodes.length = maxPortableIdentityRecords) : Valid d' := by
  rcases hfull with rfl | hfull
  · exact hd
  · refine ⟨h.core, .inr (by rw [h.nodes, hfull]), ?_⟩
    rw [h.symbols, h.roots, h.packageRoots, h.moduleChildren]
    exact hd.maps

/-- After a new root, its name finds room among the symbols. -/
theorem RootAdded.symbols_lt (hb : Bounded d)
    (h : RootAdded d m i d') : d'.symbols.length + 1 ≤ d'.nodes.length ∧
      d'.symbols.length < 2 ^ 32 := by
  have hroom := h.room
  have hle : d.symbols.length ≤ d.nodes.length := by
    rcases hb with ⟨hle, -⟩ | heq
    · exact hle
    · omega
  rw [h.symbols, h.nodes]
  exact ⟨by omega, lt_of_le_of_lt hle (lt_trans hroom (by decide))⟩

/-! ## Modules -/

/-- A root that is already there changes nothing. -/
theorem exec_internPackage_old (hd : Valid d)
    (hroot : d.lookupRoot ⟨package, []⟩ = some i) :
    exec (internPackage package) d = (.ok i, d) := by
  obtain ⟨s, hs⟩ := mem_iff_getElem?.mp (hd.maps.packageSymbol package i hroot)
  have hsym := (hd.core.symbol _ _).mpr hs
  have hent : d.packageRoots s = some i := (hd.maps.package s i).mpr ⟨package, hs, hroot⟩
  unfold internPackage
  rw [exec_bind_ok (exec_internRootRecord_old hd.core hroot),
    exec_bind_ok (exec_internSymbol_old hsym)]
  have hsame : d.setPackageRoot s i = d := by
    unfold setPackageRoot
    rw [← hent, Function.update_eq_self]
  rw [exec_bind_ok (exec_modify _ _), hsame]
  rfl

theorem internPackage_new (hd : Valid d)
    (hroot : d.lookupRoot ⟨package, []⟩ = none)
    (hroom : d.nodes.length < maxPortableIdentityRecords) :
    ∃ d', exec (internPackage package) d = (.ok d.nodes.length, d') ∧ Valid d' ∧ Extends d d' ∧
      d'.nodes.length = d.nodes.length + 1 ∧
      d'.lookupRoot = Function.update d.lookupRoot ⟨package, []⟩ (some d.nodes.length) := by
  have hlim : (⟨package, []⟩ : ModuleIdentity).withinPathLimit = true := rfl
  obtain ⟨d₁, hrun₁, h₁⟩ := internRootRecord_new hd.core hd.bounded hlim hroot hroom
  obtain ⟨hslack, hsmall⟩ := h₁.symbols_lt hd.bounded
  obtain ⟨s, d₂, hrun₂, h₂⟩ := internSymbol_added h₁.core package hsmall
  have hmaps := h₂.maps (h₁.symbols.symm ▸ hd.maps)
  refine ⟨d₂.setPackageRoot s d.nodes.length, ?_, ⟨{ h₂.core with }, ?_, ?_⟩, ?_, ?_, ?_⟩
  · unfold internPackage
    rw [exec_bind_ok hrun₁, exec_bind_ok hrun₂]
    rfl
  · refine .inl ⟨?_, ?_⟩
    · show d₂.symbols.length ≤ d₂.nodes.length
      have hle := h₂.le
      rw [h₂.nodes]
      omega
    · show d₂.modules.length ≤ d₂.nodes.length
      rw [h₂.modules, h₂.nodes]
      exact h₁.modules
  · show Maps d₂.symbols d₂.lookupRoot (Function.update d₂.packageRoots s _) d₂.moduleChildren
    rw [h₂.roots, h₁.roots, h₂.packageRoots, h₁.packageRoots, h₂.moduleChildren, h₁.moduleChildren]
    exact hmaps.addPackage h₂.core.symbol hroot h₂.symbol
  · have hgr := IsTrans.trans _ _ _ h₁.grows h₂.grows
    exact ⟨hgr.modules, hgr.symbols, hgr.nodes, hgr.depths⟩
  · show d₂.nodes.length = _
    rw [h₂.nodes, h₁.nodes]
  · show d₂.lookupRoot = _
    rw [h₂.roots, h₁.roots]

theorem internPackage_grows (hd : Valid d) (package : String) :
    Grows Valid Extends (internPackage package) d (fun i d' =>
      d'.lookupRoot ⟨package, []⟩ = some i) := by
  cases hroot : d.lookupRoot ⟨package, []⟩ with
  | some i =>
    refine .of_exec (exec_internPackage_old hd hroot) hd (Std.Refl.refl d) ?_
    rintro _ ⟨rfl⟩
    exact hroot
  | none =>
    by_cases hroom : d.nodes.length < maxPortableIdentityRecords
    · obtain ⟨d', hrun, hvld, hgr, -, hrts⟩ := internPackage_new hd hroot hroom
      refine .of_exec hrun hvld hgr ?_
      rintro _ ⟨rfl⟩
      rw [hrts, Function.update_self]
    · obtain ⟨e, d', hrun, hsame, hfull⟩ := internRootRecord_stops hd.core hroot (.inr hroom)
      exact .of_exec (exec_bind_error hrun) (hsame.valid hd hfull) hsame.grows nofun

theorem exec_internChildModule_old (hd : Valid d) {package name : String}
    {p i : Nat} (hp : d.lookupRoot ⟨package, path⟩ = some p)
    (hroot : d.lookupRoot ⟨package, path ++ [name]⟩ = some i) :
    exec (internChildModule ⟨package, path⟩ p name) d = (.ok i, d) := by
  obtain ⟨s, hs⟩ := mem_iff_getElem?.mp (hd.maps.parent package path name i hroot).1
  have hsym := (hd.core.symbol _ _).mpr hs
  have hent : d.moduleChildren (p, s) = some i :=
    (hd.maps.child p s i).mpr ⟨package, path, name, hs, hp, hroot⟩
  unfold internChildModule
  rw [exec_bind_ok (exec_internRootRecord_old hd.core hroot),
    exec_bind_ok (exec_internSymbol_old hsym)]
  have hsame : d.setModuleChild p s i = d := by
    unfold setModuleChild
    rw [← hent, Function.update_eq_self]
  rw [exec_bind_ok (exec_modify _ _), hsame]
  rfl

theorem internChildModule_new (hd : Valid d) {package name : String} {p : Nat}
    (hp : d.lookupRoot ⟨package, path⟩ = some p)
    (hroot : d.lookupRoot ⟨package, path ++ [name]⟩ = none)
    (hlim : (⟨package, path ++ [name]⟩ : ModuleIdentity).withinPathLimit = true)
    (hroom : d.nodes.length < maxPortableIdentityRecords) :
    ∃ d', exec (internChildModule ⟨package, path⟩ p name) d = (.ok d.nodes.length, d') ∧ Valid d' ∧
      Extends d d' ∧ d'.nodes.length = d.nodes.length + 1 ∧
      d'.lookupRoot =
        Function.update d.lookupRoot ⟨package, path ++ [name]⟩ (some d.nodes.length) := by
  obtain ⟨d₁, hrun₁, h₁⟩ := internRootRecord_new hd.core hd.bounded hlim hroot hroom
  obtain ⟨hslack, hsmall⟩ := h₁.symbols_lt hd.bounded
  obtain ⟨s, d₂, hrun₂, h₂⟩ := internSymbol_added h₁.core name hsmall
  have hmaps := h₂.maps (h₁.symbols.symm ▸ hd.maps)
  refine ⟨d₂.setModuleChild p s d.nodes.length, ?_, ⟨{ h₂.core with }, ?_, ?_⟩, ?_, ?_, ?_⟩
  · unfold internChildModule
    rw [exec_bind_ok hrun₁, exec_bind_ok hrun₂]
    rfl
  · refine .inl ⟨?_, ?_⟩
    · show d₂.symbols.length ≤ d₂.nodes.length
      have hle := h₂.le
      rw [h₂.nodes]
      omega
    · show d₂.modules.length ≤ d₂.nodes.length
      rw [h₂.modules, h₂.nodes]
      exact h₁.modules
  · show Maps d₂.symbols d₂.lookupRoot d₂.packageRoots (Function.update d₂.moduleChildren (p, s) _)
    rw [h₂.roots, h₁.roots, h₂.packageRoots, h₁.packageRoots, h₂.moduleChildren, h₁.moduleChildren]
    exact hmaps.addChild h₂.core.symbol hd.core.lookupRoot_injective hp hroot h₂.symbol
  · have hgr := IsTrans.trans _ _ _ h₁.grows h₂.grows
    exact ⟨hgr.modules, hgr.symbols, hgr.nodes, hgr.depths⟩
  · show d₂.nodes.length = _
    rw [h₂.nodes, h₁.nodes]
  · show d₂.lookupRoot = _
    rw [h₂.roots, h₁.roots]

theorem internChildModule_grows (hd : Valid d) {p : Nat}
    (hp : d.lookupRoot ⟨package, path⟩ = some p) (name : String) :
    Grows Valid Extends (internChildModule ⟨package, path⟩ p name) d (fun i d' =>
      d'.lookupRoot ⟨package, path ++ [name]⟩ = some i) := by
  cases hroot : d.lookupRoot ⟨package, path ++ [name]⟩ with
  | some i =>
    refine .of_exec (exec_internChildModule_old hd hp hroot) hd (Std.Refl.refl d) ?_
    rintro _ ⟨rfl⟩
    exact hroot
  | none =>
    by_cases hroom : (⟨package, path ++ [name]⟩ : ModuleIdentity).withinPathLimit = false ∨
        ¬ d.nodes.length < maxPortableIdentityRecords
    · obtain ⟨e, d', hrun, hsame, hfull⟩ := internRootRecord_stops hd.core hroot hroom
      exact .of_exec (exec_bind_error hrun) (hsame.valid hd hfull) hsame.grows nofun
    · rw [not_or, Bool.not_eq_false, not_not] at hroom
      obtain ⟨d', hrun, hvld, hgr, -, hrts⟩ :=
        internChildModule_new hd hp hroot hroom.1 hroom.2
      refine .of_exec hrun hvld hgr ?_
      rintro _ ⟨rfl⟩
      rw [hrts, Function.update_self]

theorem internModuleNames_grows (names : List String) : ∀ {d : TableData} {package : String}
    {path : List String} {p : Nat}, Valid d → d.lookupRoot ⟨package, path⟩ = some p →
      Grows Valid Extends (internModuleNames names ⟨package, path⟩ p) d (fun i d' =>
        d'.lookupRoot ⟨package, path ++ names⟩ = some i) := by
  induction names with
  | nil =>
    intro d package path p hd hp
    refine .pure hd ?_
    rwa [append_nil]
  | cons name names ih =>
    intro d package path p hd hp
    refine .bind (internChildModule_grows hd hp name) (fun child d' hd' _ hch => ?_)
    refine (ih hd' hch).mono (fun i d'' _ _ hi => ?_)
    rwa [append_assoc] at hi

theorem internModule_grows (hd : Valid d) (m : ModuleIdentity) :
    Grows Valid Extends (internModule m) d (fun i d' => d'.lookupRoot m = some i) := by
  unfold internModule
  split
  · refine .get_bind ?_
    cases hroot : d.lookupRoot m with
    | some i => exact .pure hd hroot
    | none =>
      refine .bind (internPackage_grows hd m.package) (fun root d' hd' _ hroot => ?_)
      exact internModuleNames_grows m.path hd' hroot
  · exact .throw hd

theorem exec_internModule_old (h : Core d)
    (hm : d.lookupRoot m = some i) : exec (internModule m) d = (.ok i, d) := by
  unfold internModule
  rw [if_pos (h.withinPathLimit hm), exec_get_bind, hm]
  rfl

/-! ## Children -/

theorem exec_internChildAt_old (h : Core d) {parent name occurrence i : Nat}
    (hi : d.nodes[i]? = some (.child parent kind name occurrence))
    (hname : d.symbols[name]? = some text) :
    exec (internChildAt parent kind text occurrence) d = (.ok i, d) := by
  obtain ⟨-, -, n, hn, -, hlim⟩ := h.child i parent kind name occurrence hi
  unfold internChildAt
  rw [exec_get_bind, getD_eq_getElem?_getD, hn]
  dsimp only [Option.getD_some]
  rw [if_neg (by omega), exec_bind_ok (exec_internSymbol_old ((h.symbol _ _).mpr hname))]
  exact exec_internNode_old ((h.node _ _).mpr hi)

/-- A child that is not there yet, once its name is a symbol. -/
theorem internNode_child (hd : Valid d) {d₁ : TableData} {parent s occurrence n : Nat}
    (hs : SymbolAdded d text s d₁)
    (hn : d.depths[parent]? = some n) (hlim : n < maxIdentityPathSegments)
    (hroom : d.nodes.length < maxPortableIdentityRecords)
    (hnew : d₁.nodeIndices (.child parent kind s occurrence) = none) :
    ∃ d', exec (internNode (.child parent kind s occurrence) (n + 1)) d₁ =
        (.ok d.nodes.length, d') ∧ Valid d' ∧ Extends d d' ∧
      d'.nodes[d.nodes.length]? = some (.child parent kind s occurrence) ∧
      d'.nodes.length = d.nodes.length + 1 ∧ d'.symbols[s]? = some text := by
  have hroom₁ : d₁.nodes.length < maxPortableIdentityRecords := hs.nodes ▸ hroom
  have hslen := (List.getElem?_eq_some_iff.mp hs.symbol).1
  have hcore : Core (d₁.pushNode (.child parent kind s occurrence) (n + 1)) := by
    refine hs.core.pushNode hnew hroom₁ nofun ?_
    rintro parent' kind' name' occurrence' hnode
    obtain ⟨rfl, rfl, rfl, rfl⟩ := Node.child.inj hnode
    exact ⟨hslen, n, get_of_grows hs.grows.depths hn, rfl, hlim⟩
  refine ⟨d₁.pushNode (.child parent kind s occurrence) (n + 1), ?_, ⟨hcore, ?_, ?_⟩, ?_, ?_, ?_,
    hs.symbol⟩
  · rw [exec_internNode_new hnew hroom₁, hs.nodes]
  · have hle := hs.le
    have hlen : (d₁.pushNode (.child parent kind s occurrence) (n + 1)).nodes.length =
        d.nodes.length + 1 := by
      simp [pushNode, hs.nodes]
    rcases hd.bounded with ⟨hsyms, hmods⟩ | hfull
    · refine .inl ⟨?_, ?_⟩
      · rw [hlen]
        show d₁.symbols.length ≤ _
        omega
      · rw [hlen]
        show d₁.modules.length ≤ _
        rw [hs.modules]
        omega
    · omega
  · show Maps d₁.symbols (d₁.pushNode _ _).lookupRoot d₁.packageRoots d₁.moduleChildren
    rw [lookupRoot_pushChild, hs.roots, hs.packageRoots, hs.moduleChildren]
    exact hs.maps hd.maps
  · exact IsTrans.trans _ _ _ hs.grows (extends_pushNode _ _)
  · simp [pushNode, hs.nodes]
  · simp [pushNode, hs.nodes]

/-- The parts of `internChildAt` for a parent of the table. -/
theorem exec_internChildAt {parent n : Nat} (hn : d.depths[parent]? = some n)
    (hlim : n < maxIdentityPathSegments) (kind : DefinitionKind) (text : String) (occurrence : Nat) :
    exec (internChildAt parent kind text occurrence) d =
      exec (internSymbol text >>= fun s => internNode (.child parent kind s occurrence) (n + 1)) d := by
  unfold internChildAt
  rw [exec_get_bind, getD_eq_getElem?_getD, hn]
  dsimp only [Option.getD_some]
  rw [if_neg (by omega)]

theorem internChildAt_grows (hd : Valid d) {parent : Nat} (hpar : parent < d.nodes.length)
    (kind : DefinitionKind) (text : String) (occurrence : Nat) :
    Grows Valid Extends (internChildAt parent kind text occurrence) d (fun i d' =>
      ∃ s, d'.nodes[i]? = some (.child parent kind s occurrence) ∧ d'.symbols[s]? = some text) := by
  obtain ⟨n, hn⟩ : ∃ n, d.depths[parent]? = some n :=
    ⟨_, getElem?_eq_getElem (hd.core.depths ▸ hpar)⟩
  by_cases hlim : n < maxIdentityPathSegments
  · have hpts := exec_internChildAt hn hlim kind text occurrence
    rcases internSymbol_cases hd.core text with ⟨s, d₁, hrun, hs, hold⟩ | ⟨hrun, -⟩
    · rw [exec_bind_ok hrun] at hpts
      cases hnode : d₁.nodeIndices (.child parent kind s occurrence) with
      | some i =>
        have hi := (hs.core.node _ _).mp hnode
        rw [exec_internNode_old hnode] at hpts
        -- a symbol that a node uses is not new
        have hsame : d₁ = d := by
          refine hold.resolve_right ?_
          rintro rfl
          rw [hs.nodes] at hi
          exact absurd (hd.core.child _ _ _ _ _ hi).2.1 (Nat.lt_irrefl _)
        subst hsame
        refine .of_exec hpts hd (Std.Refl.refl _) ?_
        rintro _ ⟨rfl⟩
        exact ⟨s, hi, hs.symbol⟩
      | none =>
        by_cases hroom : d.nodes.length < maxPortableIdentityRecords
        · obtain ⟨d', hrun', hd', hgr, hi, -, hsym⟩ :=
            internNode_child hd hs hn hlim hroom hnode
          rw [hrun'] at hpts
          refine .of_exec hpts hd' hgr ?_
          rintro _ ⟨rfl⟩
          exact ⟨s, hi, hsym⟩
        · have hfull : d.nodes.length = maxPortableIdentityRecords :=
            le_antisymm hd.core.limit (Nat.le_of_not_lt hroom)
          rw [exec_internNode_full hnode (by rw [hs.nodes, hfull])] at hpts
          refine .of_exec hpts ⟨hs.core, .inr (by rw [hs.nodes, hfull]), ?_⟩ hs.grows nofun
          rw [hs.roots, hs.packageRoots, hs.moduleChildren]
          exact hs.maps hd.maps
    · rw [exec_bind_error hrun] at hpts
      exact .of_exec hpts hd (Std.Refl.refl d) nofun
  · have hrun : exec (internChildAt parent kind text occurrence) d = (.error .pathLimit, d) := by
      unfold internChildAt
      rw [exec_get_bind, getD_eq_getElem?_getD, hn]
      dsimp only [Option.getD_some]
      rw [if_pos (by omega)]
      rfl
    exact .of_exec hrun hd (Std.Refl.refl d) nofun

/-- A child of a parent that is not too deep is made while there is room. -/
theorem internChildAt_new (hd : Valid d) {parent n : Nat} (hn : d.depths[parent]? = some n)
    (hlim : n < maxIdentityPathSegments) (kind : DefinitionKind) (text : String)
    (occurrence : Nat) (hroom : d.nodes.length < maxPortableIdentityRecords) :
    ∃ i d', exec (internChildAt parent kind text occurrence) d = (.ok i, d') ∧
      (d'.nodes.length = d.nodes.length ∨
        d'.nodes.length = d.nodes.length + 1 ∧ i = d.nodes.length) := by
  have hpts := exec_internChildAt hn hlim kind text occurrence
  have hsmall : d.symbols.length < 2 ^ 32 := by
    have hle : d.symbols.length ≤ d.nodes.length := by
      rcases hd.bounded with ⟨hle, -⟩ | heq
      · exact hle
      · omega
    exact lt_of_le_of_lt hle (lt_trans hroom (by decide))
  obtain ⟨s, d₁, hrun, hs⟩ := internSymbol_added hd.core text hsmall
  rw [exec_bind_ok hrun] at hpts
  cases hnode : d₁.nodeIndices (.child parent kind s occurrence) with
  | some i => exact ⟨i, d₁, by rw [hpts, exec_internNode_old hnode], .inl (by rw [hs.nodes])⟩
  | none =>
    obtain ⟨d', hrun', -, -, -, hlen, -⟩ := internNode_child hd hs hn hlim hroom hnode
    exact ⟨_, d', hpts.trans hrun', .inr ⟨hlen, rfl⟩⟩

end Kagari.Identity
