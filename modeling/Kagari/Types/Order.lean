import Mathlib.Data.Sum.Order
import Kagari.Identity.Portable
import Kagari.Lib.Rose
import Kagari.Lib.Sorting

/-!
# The canonical order of types

`kagari-types/src/ty/order.rs`: types are compared by the paths of their definitions, not by the numbers
a table gives them. A panic is `none`; the checks of `canonicalCmp` come before it, so there is none
(`canonicalCmp_eq`).

What is compared is `Ty.tree`: the variant, the fields in order, every definition as its label and the
bindings as arranged. Over the paths of a table, with the bindings by path, the comparison of the code is
that of the trees; the tree is the same over every table, and determines the type.
-/

namespace Kagari

open Lib Identity List

/-! ## The comparison -/

/-- `Ord::cmp`. -/
def ordCmp {α : Type} [LinearOrder α] (left right : α) : Ordering := cmp left right

/-- `DefinitionTable::compare`; the inner `none` is as for `resolve`. -/
def Identity.DefinitionTable.compare (table : DefinitionTable) (left right : DefinitionId) :
    Except DefinitionTableError (Option Ordering) := do
  let left ← table.resolve left
  let right ← table.resolve right
  return do
    let left ← left
    let right ← right
    some ((ordCmp left.module right.module).then
      (ordCmp (left.path.map DefinitionPath.segmentKey) (right.path.map DefinitionPath.segmentKey)))

/-- `then_with`. -/
def thenWith (first next : Option Ordering) : Option Ordering :=
  first.bind fun order => if order = .eq then next else some order

def Ty.rank : Ty → Nat
  | .projection .. => 0
  | .host _ => 1
  | .selfType _ => 2
  | .parameter .. => 3
  | .builtin _ => 4
  | .tuple _ => 5
  | .function .. => 6
  | .iter _ => 7
  | .range .. => 8
  | .array _ => 9
  | .map .. => 10
  | .set .. => 11
  | .struct _ => 12
  | .nativeObject _ => 13
  | .enum _ => 14
  | .trait _ => 15
  | .reference .. => 16

namespace TypeOrder

variable (table : DefinitionTable)

/-- The derived order of an enumeration is that of its constructors. -/
def index (left right : Nat) : Option Ordering := some (Ord.compare left right)

def definition (left right : DefinitionId) : Option Ordering :=
  match table.compare left right with
  | .ok order => order
  | .error _ => none

/-- Entries in the order of their definitions. -/
def sortEntries {V : Type} (entries : List (DefinitionId × V)) : Option (List (DefinitionId × V)) :=
  sortM (fun left right => definition table left.1 right.1) entries

/-- Two sorted lists of bindings. A value on the left is the comparison with it. -/
def entries : List (DefinitionId × (Ty → Option Ordering)) → List (DefinitionId × Ty) → Option Ordering
  | (lk, lv) :: left, (rk, rv) :: right =>
    thenWith (thenWith (definition table lk rk) (lv rv)) (entries left right)
  | left, right => index left.length right.length

mutual

def ty (left right : Ty) : Option Ordering :=
  thenWith (index left.rank right.rank) <|
    match left, right with
    | .reference left la, .reference right ra =>
      thenWith (ty left right) (index la.ctorIdx ra.ctorIdx)
    | .projection la lr li lm, .projection ra rr ri rm =>
      thenWith (thenWith (thenWith (sequence la ra) (ty lr rr)) (nominal li ri)) (definition table lm rm)
    | .host left, .host right => definition table left right
    | .selfType left, .selfType right => definition table left right
    | .parameter lo lp, .parameter ro rp => thenWith (definition table lo ro) (index lp rp)
    | .builtin left, .builtin right => index left.ctorIdx right.ctorIdx
    | .tuple left, .tuple right => sequence left right
    | .function lp lr, .function rp rr => thenWith (sequence lp rp) (ty lr rr)
    | .iter left, .iter right => ty left right
    | .array left, .array right => ty left right
    | .range left lk, .range right rk => thenWith (ty left right) (index lk.ctorIdx rk.ctorIdx)
    | .map lk lv la, .map rk rv ra =>
      thenWith (thenWith (ty lk rk) (ty lv rv)) (index la.ctorIdx ra.ctorIdx)
    | .set left la, .set right ra => thenWith (ty left right) (index la.ctorIdx ra.ctorIdx)
    | .struct left, .struct right => nominal left right
    | .nativeObject left, .nativeObject right => nominal left right
    | .enum left, .enum right => nominal left right
    | .trait left, .trait right => nominal left right
    -- `unreachable!`: equal ranks have the same variant
    | _, _ => none
termination_by structural left

def sequence (left right : List Ty) : Option Ordering :=
  match left, right with
  | l :: left, r :: right => thenWith (ty l r) (sequence left right)
  | left, right => index left.length right.length
termination_by structural left

def nominal (left right : NominalTy) : Option Ordering :=
  match left, right with
  | ⟨ld, la, lb⟩, ⟨rd, ra, rb⟩ =>
    thenWith (thenWith (definition table ld rd) (sequence la ra)) do
      let left ← sortEntries table (comparisons lb)
      let right ← sortEntries table rb
      entries table left right
termination_by structural left

/-- Every value as the comparison with it, so that sorting keeps the recursion in sight. -/
def comparisons (bindings : List (DefinitionId × Ty)) : List (DefinitionId × (Ty → Option Ordering)) :=
  match bindings with
  | [] => []
  | binding :: bindings => comparison binding :: comparisons bindings
termination_by structural bindings

def comparison (binding : DefinitionId × Ty) : DefinitionId × (Ty → Option Ordering) :=
  match binding with
  | (id, value) => (id, ty value)
termination_by structural binding

end

theorem comparisons_eq (bindings : List (DefinitionId × Ty)) :
    comparisons table bindings = bindings.map fun b => (b.1, ty table b.2) := by
  induction bindings with
  | nil => rfl
  | cons b bindings ih =>
    obtain ⟨id, value⟩ := b
    simp [comparisons, comparison, ih]

end TypeOrder

/-- The walk over one input: its size, and that every definition it names is in the table. -/
def checkScope (ty : Ty) (table : DefinitionTable) (cancel : CancellationToken) :
    Except TypeTransformError Unit := do
  checkCancel cancel
  if !ty.withinWireLimits then .error .limitExceeded
  else if ty.definitions.all fun id => (table.resolve id).toBool then .ok ()
  else .error .invalidContract

/-- `canonical_cmp`; the inner `none` would be a panic. -/
def Ty.canonicalCmp (self other : Ty) (table : DefinitionTable) (cancel : CancellationToken) :
    Except TypeTransformError (Option Ordering) := do
  checkScope self table cancel
  checkScope other table cancel
  let order := TypeOrder.ty table self other
  checkCancel cancel
  return order

/-! ## Trees -/

/-- Trees over numbers and labels. -/
abbrev TypeTree (K : Type) := Rose (ℕ ⊕ₗ K)

namespace TypeTree

variable {K : Type}

/-- A number, with what is below it. -/
def number (n : Nat) (children : List (TypeTree K)) : TypeTree K := .node (toLex (.inl n)) children

/-- A label, with what is below it. -/
def labeled (k : K) (children : List (TypeTree K)) : TypeTree K := .node (toLex (.inr k)) children

/-- By increasing label. -/
def byLabel [LinearOrder K] (trees : List (TypeTree K)) : List (TypeTree K) :=
  trees.insertionSort fun a b => a.label ≤ b.label

end TypeTree

section Tree

variable {K : Type} (label : DefinitionId → K) (arrange : List (TypeTree K) → List (TypeTree K))

open TypeTree

mutual

/-- What is compared of a type. -/
def Ty.tree : Ty → TypeTree K
  | .projection as r i m =>
    number 0 [number 0 (Ty.treeAll as), r.tree, Ty.treeNominal i, labeled (label m) []]
  | .host id => number 1 [labeled (label id) []]
  | .selfType id => number 2 [labeled (label id) []]
  | .parameter owner position => number 3 [labeled (label owner) [], number position []]
  | .builtin b => number 4 [number b.ctorIdx []]
  | .tuple ts => number 5 (Ty.treeAll ts)
  | .function ps r => number 6 [number 0 (Ty.treeAll ps), r.tree]
  | .iter t => number 7 [t.tree]
  | .range t kind => number 8 [t.tree, number kind.ctorIdx []]
  | .array t => number 9 [t.tree]
  | .map k v access => number 10 [k.tree, v.tree, number access.ctorIdx []]
  | .set t access => number 11 [t.tree, number access.ctorIdx []]
  | .struct n => number 12 [Ty.treeNominal n]
  | .nativeObject n => number 13 [Ty.treeNominal n]
  | .enum n => number 14 [Ty.treeNominal n]
  | .trait n => number 15 [Ty.treeNominal n]
  | .reference t access => number 16 [t.tree, number access.ctorIdx []]

def Ty.treeAll : List Ty → List (TypeTree K)
  | [] => []
  | t :: ts => t.tree :: Ty.treeAll ts

def Ty.treeNominal : NominalTy → TypeTree K
  | ⟨d, as, bs⟩ =>
    labeled (label d) [number 0 (Ty.treeAll as), number 0 (arrange (Ty.treeBindings bs))]

def Ty.treeBindings : List (DefinitionId × Ty) → List (TypeTree K)
  | [] => []
  | b :: bs => Ty.treeBinding b :: Ty.treeBindings bs

def Ty.treeBinding : DefinitionId × Ty → TypeTree K
  | (id, t) => labeled (label id) [t.tree]

end

@[simp] theorem Ty.treeAll_eq (ts : List Ty) :
    Ty.treeAll label arrange ts = ts.map (Ty.tree label arrange) := by
  induction ts with
  | nil => rfl
  | cons t ts ih => simp [Ty.treeAll, ih]

@[simp] theorem Ty.treeBindings_eq (bs : List (DefinitionId × Ty)) :
    Ty.treeBindings label arrange bs = bs.map fun b => labeled (label b.1) [b.2.tree label arrange] := by
  induction bs with
  | nil => rfl
  | cons b bs ih =>
    obtain ⟨id, t⟩ := b
    simp [Ty.treeBindings, Ty.treeBinding, ih]

theorem Ty.tree_rank (ty : Ty) : ∃ children, ty.tree label arrange = number ty.rank children := by
  cases ty <;> exact ⟨_, rfl⟩

end Tree

/-! ## The comparison is that of the trees -/

section Labels

variable {K : Type} [LinearOrder K]

open TypeTree

theorem cmp_number (m n : Nat) (as bs : List (TypeTree K)) :
    Rose.cmp (number m as) (number n bs) = (compare m n).then (Rose.cmpAll as bs) := by
  have hlbl : compare (toLex (Sum.inl m) : ℕ ⊕ₗ K) (toLex (.inl n)) = compare m n := by
    rw [← cmp_eq_compare, ← cmp_eq_compare]
    exact Sum.Lex.inl_strictMono.cmp_map_eq m n
  rw [number, number, Rose.cmp, hlbl]

theorem cmp_labeled (k l : K) (as bs : List (TypeTree K)) :
    Rose.cmp (labeled k as) (labeled l bs) = (compare k l).then (Rose.cmpAll as bs) := by
  have hlbl : compare (toLex (Sum.inr k) : ℕ ⊕ₗ K) (toLex (.inr l)) = compare k l := by
    rw [← cmp_eq_compare, ← cmp_eq_compare]
    exact Sum.Lex.inr_strictMono.cmp_map_eq k l
  rw [labeled, labeled, Rose.cmp, hlbl]

theorem label_labeled_le {k l : K} {as bs : List (TypeTree K)} :
    (labeled k as).label ≤ (labeled l bs).label ↔ k ≤ l :=
  Sum.Lex.inr_le_inr_iff

/-- Trees under distinct labels are arranged in one way only. -/
theorem byLabel_eq {V : Type} {key : V → K} {kids : V → List (TypeTree K)} {entries sorted : List V}
    (hp : sorted.Perm entries) (hkeys : (entries.map key).Nodup)
    (hsrtd : sorted.Pairwise fun a b => key a ≤ key b) :
    byLabel (entries.map fun e => labeled (key e) (kids e)) = sorted.map fun e => labeled (key e) (kids e) := by
  refine eq_of_sorted Rose.label ?_ ?_ (pairwise_insertionSort _ _) ?_
  · exact (perm_insertionSort _ _).trans (hp.symm.map _)
  · have hlabels : ((entries.map fun e => labeled (key e) (kids e)).map Rose.label).Nodup := by
      rw [map_map]
      refine (nodup_map_iff_inj_on hkeys.of_map).mpr fun a ha b hb heq => ?_
      exact inj_on_of_nodup_map hkeys ha hb (Sum.inr.inj (toLex.injective heq))
    exact ((perm_insertionSort _ _).map Rose.label).nodup_iff.mpr hlabels
  · exact pairwise_map.mpr (hsrtd.imp fun hle => label_labeled_le.mpr hle)

end Labels

theorem cmp_toLex {α β : Type} [LinearOrder α] [LinearOrder β] (a a' : α) (b b' : β) :
    ordCmp (toLex (a, b)) (toLex (a', b')) = (ordCmp a a').then (ordCmp b b') := by
  unfold ordCmp
  rcases lt_trichotomy a a' with h | rfl | h
  · rw [(cmp_eq_lt_iff _ _).mpr h]
    exact (cmp_eq_lt_iff _ _).mpr (Prod.Lex.toLex_lt_toLex.mpr (.inl h))
  · have hmono : StrictMono fun b : β => toLex (a, b) :=
      fun _ _ hlt => Prod.Lex.toLex_lt_toLex.mpr (.inr ⟨rfl, hlt⟩)
    rw [cmp_self_eq_eq]
    exact hmono.cmp_map_eq b b'
  · rw [(cmp_eq_gt_iff _ _).mpr h]
    exact (cmp_eq_gt_iff _ _).mpr (Prod.Lex.toLex_lt_toLex.mpr (.inl h))

theorem compare_path (left right : DefinitionPath) : compare left right =
    (ordCmp left.module right.module).then
      (ordCmp (left.path.map DefinitionPath.segmentKey) (right.path.map DefinitionPath.segmentKey)) := by
  have hpath : StrictMono DefinitionPath.key := fun _ _ h => h
  have hmod : StrictMono ModuleIdentity.key := fun _ _ h => h
  have hmods : ordCmp left.module right.module = ordCmp left.module.key right.module.key :=
    (hmod.cmp_map_eq _ _).symm
  rw [← cmp_eq_compare left right, ← hpath.cmp_map_eq, hmods]
  exact cmp_toLex left.module.key right.module.key (left.path.map DefinitionPath.segmentKey)
    (right.path.map DefinitionPath.segmentKey)

@[simp] theorem thenWith_some (first next : Ordering) :
    thenWith (some first) (some next) = some (first.then next) := by
  cases first <;> rfl

/-- The portable tree of a type over a table's paths. -/
abbrev Ty.portable (path : DefinitionId → DefinitionPath) : Ty → TypeTree DefinitionPath :=
  Ty.tree path TypeTree.byLabel

section Agree

variable {table : DefinitionTable} {path : DefinitionId → DefinitionPath}

/-- The table resolves every one of the definitions to its path. -/
def Names (table : DefinitionTable) (path : DefinitionId → DefinitionPath) (ids : List DefinitionId) :
    Prop := ∀ id ∈ ids, table.resolve id = .ok (some (path id))

/-- No two definitions have one path. -/
def Distinct (table : DefinitionTable) : Prop :=
  ∀ id id' path, table.resolve id = .ok (some path) → table.resolve id' = .ok (some path) → id = id'

theorem Names.injective (hdist : Distinct table) {ids : List DefinitionId}
    (h : Names table path ids) : ∀ id ∈ ids, ∀ id' ∈ ids, path id = path id' → id = id' := by
  intro id hid id' hid' heq
  refine hdist id id' (path id) (h id hid) ?_
  rw [heq]
  exact h id' hid'

theorem definition_eq {left right : DefinitionId} (hleft : Names table path [left])
    (hrt : Names table path [right]) :
    TypeOrder.definition table left right = some (compare (path left) (path right)) := by
  unfold TypeOrder.definition DefinitionTable.compare
  rw [hleft left mem_cons_self, hrt right mem_cons_self, compare_path]
  rfl

/-- Bindings under their paths, in the order of the paths. -/
def sortedBindings (path : DefinitionId → DefinitionPath) (bindings : List (DefinitionId × Ty)) :
    List (DefinitionId × Ty) :=
  bindings.insertionSort fun a b => path a.1 ≤ path b.1

theorem sortedBindings_perm (bindings : List (DefinitionId × Ty)) :
    (sortedBindings path bindings).Perm bindings := perm_insertionSort _ _

theorem sortedBindings_pairwise (bindings : List (DefinitionId × Ty)) :
    (sortedBindings path bindings).Pairwise fun a b => path a.1 ≤ path b.1 := by
  have : Std.Total fun a b : DefinitionId × Ty => path a.1 ≤ path b.1 := ⟨fun a b => le_total _ _⟩
  have : IsTrans (DefinitionId × Ty) fun a b => path a.1 ≤ path b.1 := ⟨fun a b c => le_trans⟩
  exact pairwise_insertionSort _ _

variable {bindings : List (DefinitionId × Ty)}

theorem arranged_eq (tree : Ty → TypeTree DefinitionPath)
    (hkeys : (bindings.map fun b => path b.1).Nodup) :
    TypeTree.byLabel (bindings.map fun b => TypeTree.labeled (path b.1) [tree b.2]) =
      (sortedBindings path bindings).map fun b => TypeTree.labeled (path b.1) [tree b.2] :=
  byLabel_eq (sortedBindings_perm bindings) hkeys (sortedBindings_pairwise bindings)

theorem sortEntries_eq {V : Type} {f : Ty → V}
    (hnms : Names table path (bindings.map Prod.fst))
    (hkeys : (bindings.map fun b => path b.1).Nodup) :
    TypeOrder.sortEntries table (bindings.map fun b => (b.1, f b.2)) =
      some ((sortedBindings path bindings).map fun b => (b.1, f b.2)) := by
  have hmem : ∀ e ∈ bindings.map fun b => (b.1, f b.2), Names table path [e.1] := by
    intro e he
    obtain ⟨b, hb, rfl⟩ := mem_map.mp he
    exact forall_mem_singleton.mpr (hnms b.1 (mem_map_of_mem hb))
  obtain ⟨out, hout, hperm, hsrtd⟩ := sortM_spec (fun e : DefinitionId × V => path e.1)
    (bindings.map fun b => (b.1, f b.2)) fun a ha b hb => definition_eq (hmem a ha) (hmem b hb)
  unfold TypeOrder.sortEntries
  rw [hout]
  refine congrArg some ?_
  refine eq_of_sorted (fun e : DefinitionId × V => path e.1)
    (hperm.trans ((sortedBindings_perm bindings).symm.map _)) ?_ hsrtd ?_
  · refine (hperm.map _).nodup_iff.mpr ?_
    rw [map_map]
    exact hkeys
  · exact pairwise_map.mpr (sortedBindings_pairwise bindings)

variable (tree : Ty → TypeTree DefinitionPath)

theorem sequence_eq (left right : List Ty)
    (h : ∀ l ∈ left, ∀ r ∈ right, TypeOrder.ty table l r = some (Rose.cmp (tree l) (tree r))) :
    TypeOrder.sequence table left right = some (Rose.cmpAll (left.map tree) (right.map tree)) := by
  induction left generalizing right with
  | nil => cases right <;> rfl
  | cons l left ih =>
    cases right with
    | nil => rfl
    | cons r right =>
      rw [TypeOrder.sequence, h l mem_cons_self r mem_cons_self,
        ih right fun l hl r hr => h l (mem_cons_of_mem _ hl) r (mem_cons_of_mem _ hr)]
      exact thenWith_some _ _

theorem entries_eq (left right : List (DefinitionId × Ty))
    (hleft : Names table path (left.map Prod.fst)) (hrt : Names table path (right.map Prod.fst))
    (h : ∀ l ∈ left, ∀ r ∈ right,
      TypeOrder.ty table l.2 r.2 = some (Rose.cmp (tree l.2) (tree r.2))) :
    TypeOrder.entries table (left.map fun b => (b.1, TypeOrder.ty table b.2)) right =
      some (Rose.cmpAll (left.map fun b => TypeTree.labeled (path b.1) [tree b.2])
        (right.map fun b => TypeTree.labeled (path b.1) [tree b.2])) := by
  induction left generalizing right with
  | nil => cases right <;> rfl
  | cons l left ih =>
    cases right with
    | nil => rfl
    | cons r right =>
      obtain ⟨hl, hleft'⟩ := forall_mem_cons.mp hleft
      obtain ⟨hr, hrt'⟩ := forall_mem_cons.mp hrt
      have hkey := definition_eq (forall_mem_singleton.mpr hl) (forall_mem_singleton.mpr hr)
      have hrest := ih right hleft' hrt'
        fun l hl r hr => h l (mem_cons_of_mem _ hl) r (mem_cons_of_mem _ hr)
      simp only [map_cons, TypeOrder.entries, hkey, h l mem_cons_self r mem_cons_self, hrest,
        thenWith_some, Rose.cmpAll, cmp_labeled,
        Ordering.then_eq]

/-- The keys of an ordered map have distinct paths. -/
theorem Names.nodup (hdist : Distinct table)
    (hkeyed : SortedMap.Keyed bindings) (hnms : Names table path (bindings.map Prod.fst)) :
    (bindings.map fun b => path b.1).Nodup := by
  have hmap : (bindings.map fun b => path b.1) = (bindings.map Prod.fst).map path := by
    rw [map_map]
    rfl
  rw [hmap]
  exact (nodup_map_iff_inj_on hkeyed.nodup).mpr
    fun id hid id' hid' => hnms.injective hdist id hid id' hid'

theorem Names.mono {ids ids' : List DefinitionId} (h : Names table path ids') (hsub : ids ⊆ ids') :
    Names table path ids := fun id hid => h id (hsub hid)

/-- The definitions of a nominal type, by its parts. -/
theorem names_nominal {d : DefinitionId} {as : List Ty} {bs : List (DefinitionId × Ty)} :
    Names table path (Ty.definitionsNominal ⟨d, as, bs⟩) ↔ Names table path [d] ∧
      (∀ t ∈ as, Names table path t.definitions) ∧ Names table path (bs.map Prod.fst) ∧
      ∀ b ∈ bs, Names table path b.2.definitions := by
  simp only [Names, Ty.definitionsNominal, Ty.definitionsAll_eq, Ty.definitionsBindings_eq, mem_cons,
    mem_append, mem_flatMap, mem_map, not_mem_nil, or_false]
  constructor
  · intro h
    refine ⟨fun id hid => h id (.inl hid), fun t ht id hid => h id (.inr (.inl ⟨t, ht, hid⟩)), ?_,
      fun b hb id hid => h id (.inr (.inr ⟨b, hb, .inr hid⟩))⟩
    rintro id ⟨b, hb, rfl⟩
    exact h b.1 (.inr (.inr ⟨b, hb, .inl rfl⟩))
  · rintro ⟨hd, has, hkeys, hbs⟩ id (hid | ⟨t, ht, hid⟩ | ⟨b, hb, rfl | hid⟩)
    · exact hd id hid
    · exact has t ht id hid
    · exact hkeys b.1 ⟨b, hb, rfl⟩
    · exact hbs b hb id hid

theorem nominal_eq (hdist : Distinct table) {left right : NominalTy}
    (hleft : Names table path (Ty.definitionsNominal left))
    (hrt : Names table path (Ty.definitionsNominal right)) (holeft : Ty.OrderedNominal left)
    (horight : Ty.OrderedNominal right)
    (h : ∀ l ∈ left.kids, ∀ r ∈ right.kids,
      TypeOrder.ty table l r = some (Rose.cmp (l.portable path) (r.portable path))) :
    TypeOrder.nominal table left right = some (Rose.cmp
      (Ty.treeNominal path TypeTree.byLabel left) (Ty.treeNominal path TypeTree.byLabel right)) := by
  obtain ⟨ld, las, lbs⟩ := left
  obtain ⟨rd, ras, rbs⟩ := right
  obtain ⟨hld, -, hlkeys, -⟩ := names_nominal.mp hleft
  obtain ⟨hrd, -, hrkeys, -⟩ := names_nominal.mp hrt
  have hlnodup := hlkeys.nodup hdist holeft.2.1
  have hrnodup := hrkeys.nodup hdist horight.2.1
  have hseq : TypeOrder.sequence table las ras =
      some (Rose.cmpAll (las.map (Ty.portable path)) (ras.map (Ty.portable path))) :=
    sequence_eq (Ty.portable path) las ras fun l hl r hr => h l (mem_append_left _ hl) r (mem_append_left _ hr)
  have hlsorted : TypeOrder.sortEntries table (TypeOrder.comparisons table lbs) =
      some ((sortedBindings path lbs).map fun b => (b.1, TypeOrder.ty table b.2)) := by
    rw [TypeOrder.comparisons_eq]
    exact sortEntries_eq hlkeys hlnodup
  have hrsorted : TypeOrder.sortEntries table rbs = some (sortedBindings path rbs) := by
    have hsort := sortEntries_eq (f := fun t => t) hrkeys hrnodup
    simpa only [Prod.mk.eta, map_id'] using hsort
  have hmem : ∀ {bs : List (DefinitionId × Ty)} {b : DefinitionId × Ty}, b ∈ sortedBindings path bs → b ∈ bs :=
    fun hb => (sortedBindings_perm _).mem_iff.mp hb
  have hents := entries_eq (Ty.portable path) (sortedBindings path lbs) (sortedBindings path rbs)
    (hlkeys.mono ((sortedBindings_perm lbs).map Prod.fst).subset)
    (hrkeys.mono ((sortedBindings_perm rbs).map Prod.fst).subset)
    fun l hl r hr => h l.2 (mem_append_right _ (mem_map_of_mem (hmem hl))) r.2
      (mem_append_right _ (mem_map_of_mem (hmem hr)))
  have hlarranged := arranged_eq (Ty.portable path) hlnodup
  have hrarranged := arranged_eq (Ty.portable path) hrnodup
  rw [TypeOrder.nominal, definition_eq hld hrd, hseq, hlsorted, Option.bind_eq_bind, Option.bind_some,
    hrsorted, Option.bind_eq_bind, Option.bind_some, hents]
  simp only [thenWith_some, Ty.treeNominal, Ty.treeAll_eq, Ty.treeBindings_eq, hlarranged, hrarranged,
    cmp_labeled, Rose.cmpAll, cmp_number, compare_eq_iff_eq.mpr, Ordering.eq_then, Ordering.then_eq,
    Ordering.then_assoc]

/-- Over definitions of the table, the code compares the portable trees. -/
theorem ty_eq (hdist : Distinct table) (left : Ty) : ∀ {right : Ty},
    Names table path left.definitions → Names table path right.definitions → left.Ordered →
    right.Ordered →
    TypeOrder.ty table left right = some (Rose.cmp (left.portable path) (right.portable path)) := by
  induction left using Ty.kids_induction with
  | step left ih =>
    intro right hleft hrt holeft horight
    have hkid : ∀ l ∈ left.kids, ∀ r ∈ right.kids,
        TypeOrder.ty table l r = some (Rose.cmp (l.portable path) (r.portable path)) := fun l hl r hr =>
      ih l hl (hleft.mono (Ty.definitions_kid hl)) (hrt.mono (Ty.definitions_kid hr))
        (Ty.ordered_kid hl holeft) (Ty.ordered_kid hr horight)
    obtain ⟨lkids, hltree⟩ := left.tree_rank path TypeTree.byLabel
    obtain ⟨rkids, hrtree⟩ := right.tree_rank path TypeTree.byLabel
    by_cases hrank : left.rank = right.rank
    · have hidx : TypeOrder.index left.rank right.rank = some .eq := by
        rw [TypeOrder.index, hrank, compare_eq_iff_eq.mpr rfl]
      have hself : ∀ n : Nat, compare n n = .eq := fun n => compare_eq_iff_eq.mpr rfl
      have hnom : ∀ {l r : NominalTy}, (∀ k ∈ l.kids, k ∈ left.kids) → (∀ k ∈ r.kids, k ∈ right.kids) →
          Names table path (Ty.definitionsNominal l) → Names table path (Ty.definitionsNominal r) →
          Ty.OrderedNominal l → Ty.OrderedNominal r → TypeOrder.nominal table l r = some (Rose.cmp
            (Ty.treeNominal path TypeTree.byLabel l) (Ty.treeNominal path TypeTree.byLabel r)) :=
        fun hl hr hnl hnr hol hor => nominal_eq hdist hnl hnr hol hor
          fun l' hl' r' hr' => hkid l' (hl l' hl') r' (hr r' hr')
      unfold TypeOrder.ty
      rw [hidx]
      cases left with
      | projection las lr li lm =>
        cases right with
        | projection ras rr ri rm =>
          simp only [Names, Ty.definitions, Ty.definitionsAll_eq, mem_append, mem_singleton] at hleft hrt
          have hseq := sequence_eq (Ty.portable path) las ras
            fun l hl r hr => hkid l (by simp [Ty.kids, hl]) r (by simp [Ty.kids, hr])
          have hrecv := hkid lr (by simp [Ty.kids]) rr (by simp [Ty.kids])
          have hiface := hnom (l := li) (r := ri) (fun _ h => by simp [Ty.kids, h])
            (fun _ h => by simp [Ty.kids, h]) (fun id hid => hleft id (.inl (.inl (.inr hid))))
            (fun id hid => hrt id (.inl (.inl (.inr hid)))) holeft.2.2 horight.2.2
          have hmember := definition_eq (forall_mem_singleton.mpr (hleft lm (.inl (.inr rfl))))
            (forall_mem_singleton.mpr (hrt rm (.inl (.inr rfl))))
          simp only [hseq, hrecv, hiface, hmember, thenWith_some, Ty.portable, Ty.tree, Ty.treeAll_eq,
            cmp_number, cmp_labeled, Rose.cmpAll, hself, Ordering.eq_then, Ordering.then_eq,
            Ordering.then_assoc]
        | _ => simp [Ty.rank] at hrank
      | host l | selfType l =>
        cases right <;> try (cases hrank; done)
        rename_i r
        have hkey : TypeOrder.definition table l r = some (compare (path l) (path r)) := definition_eq hleft hrt
        simp only [hkey, thenWith_some, Ty.portable, Ty.tree, cmp_number, cmp_labeled, Rose.cmpAll, hself,
          Ordering.eq_then, Ordering.then_eq]
      | parameter lo lp =>
        cases right with
        | parameter ro rp =>
          have hkey : TypeOrder.definition table lo ro = some (compare (path lo) (path ro)) :=
            definition_eq hleft hrt
          simp only [hkey, TypeOrder.index, thenWith_some, Ty.portable, Ty.tree, cmp_number, cmp_labeled, Rose.cmpAll,
            hself, Ordering.eq_then, Ordering.then_eq]
        | _ => simp [Ty.rank] at hrank
      | builtin l =>
        cases right with
        | builtin r =>
          simp only [TypeOrder.index, thenWith_some, Ty.portable, Ty.tree, cmp_number, Rose.cmpAll, hself,
            Ordering.eq_then, Ordering.then_eq]
        | _ => simp [Ty.rank] at hrank
      | tuple ls =>
        cases right with
        | tuple rs =>
          have hseq := sequence_eq (Ty.portable path) ls rs hkid
          simp only [hseq, thenWith_some, Ty.portable, Ty.tree, Ty.treeAll_eq, cmp_number, hself,
            Ordering.eq_then]
        | _ => simp [Ty.rank] at hrank
      | function lps lr =>
        cases right with
        | function rps rr =>
          have hseq := sequence_eq (Ty.portable path) lps rps
            fun l hl r hr => hkid l (mem_append_left _ hl) r (mem_append_left _ hr)
          have hres := hkid lr (by simp [Ty.kids]) rr (by simp [Ty.kids])
          simp only [hseq, hres, thenWith_some, Ty.portable, Ty.tree, Ty.treeAll_eq, cmp_number,
            Rose.cmpAll, hself, Ordering.eq_then, Ordering.then_eq]
        | _ => simp [Ty.rank] at hrank
      | iter l | array l =>
        cases right <;> try (cases hrank; done)
        rename_i r
        have hone := hkid l (by simp [Ty.kids]) r (by simp [Ty.kids])
        simp only [hone, thenWith_some, Ty.portable, Ty.tree, cmp_number, Rose.cmpAll, hself,
          Ordering.eq_then, Ordering.then_eq]
      | range l a | set l a | reference l a =>
        cases right <;> try (cases hrank; done)
        rename_i r b
        have hone := hkid l (by simp [Ty.kids]) r (by simp [Ty.kids])
        simp only [hone, TypeOrder.index, thenWith_some, Ty.portable, Ty.tree, cmp_number, Rose.cmpAll,
          hself, Ordering.eq_then, Ordering.then_eq]
      | map lk lv a =>
        cases right with
        | map rk rv b =>
          have hkey := hkid lk (by simp [Ty.kids]) rk (by simp [Ty.kids])
          have hval := hkid lv (by simp [Ty.kids]) rv (by simp [Ty.kids])
          simp only [hkey, hval, TypeOrder.index, thenWith_some, Ty.portable, Ty.tree, cmp_number, Rose.cmpAll,
            hself, Ordering.eq_then, Ordering.then_eq, Ordering.then_assoc]
        | _ => simp [Ty.rank] at hrank
      | struct l | nativeObject l | enum l | trait l =>
        cases right <;> try (cases hrank; done)
        rename_i r
        have hone := hnom (l := l) (r := r) (fun _ h => h) (fun _ h => h) hleft hrt holeft horight
        simp only [hone, thenWith_some, Ty.portable, Ty.tree, cmp_number, Rose.cmpAll, hself,
          Ordering.eq_then, Ordering.then_eq]
    · have hne : compare left.rank right.rank ≠ .eq := fun heq => hrank (compare_eq_iff_eq.mp heq)
      unfold TypeOrder.ty
      rw [TypeOrder.index, thenWith, Option.bind_some, if_neg hne]
      simp only [Ty.portable, hltree, hrtree, cmp_number]
      cases hcmp : compare left.rank right.rank with
      | eq => exact absurd hcmp hne
      | lt => rfl
      | gt => rfl

end Agree

end Kagari
