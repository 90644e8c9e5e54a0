import Kagari.Types.OrderSound

/-!
# Generic bounds

`kagari-types/src/ty/bounds.rs`: bounds on one target are merged, and targets and constraints are put in the
canonical order. A `BTreeMap` is a list ordered by the derived order of its keys; a panic of a comparison is
`none`.

Merging keeps what is constrained by what, and there is only one increasing list of it: the rest follows
from these two (`Normal.unique`).
-/

namespace Kagari

open Lib Identity List

/-! ## The derived order -/

/-- Nothing is arranged: the fields in the order of their declaration, the definitions by number. -/
abbrev Ty.derived : Ty → TypeTree DefinitionId := Ty.tree id id

theorem faithful_derived : Faithful id id (fun _ => True) Ty.derived := by
  intro n n' _ _ hinj heq
  exact map_inj_on hinj heq

theorem hereditary_true : Hereditary (fun _ => True) fun _ => True := ⟨fun _ _ => trivial, fun _ _ => trivial⟩

theorem Ty.derived_injective : Function.Injective Ty.derived := fun left right heq =>
  @Ty.tree_injective _ _ _ (left.definitions ++ right.definitions) _ faithful_derived (fun _ _ _ _ h => h) _
    hereditary_true left right (subset_append_left _ _) (subset_append_right _ _) trivial trivial heq

theorem treeNominal_derived_injective : Function.Injective (Ty.treeNominal (id : DefinitionId → _) id) :=
  fun left right heq => @Ty.treeNominal_injective _ _ _ (Ty.definitionsNominal left ++ Ty.definitionsNominal right) _
    faithful_derived (fun _ _ _ _ h => h) _ _ (subset_append_left _ _) (subset_append_right _ _) trivial trivial
    (fun _ _ _ _ h => Ty.derived_injective h) heq

instance : LinearOrder Ty := LinearOrder.lift' Ty.derived Ty.derived_injective

instance : LinearOrder NominalTy :=
  LinearOrder.lift' (Ty.treeNominal id id) treeNominal_derived_injective

/-! ## Normalization -/

structure GenericBound where
  ty : Ty
  constraints : List NominalTy

/-- Computations that may be refused; `none` is a panic. -/
abbrev BoundsM := ExceptT TypeTransformError Option

section Normalize

variable (definitions : DefinitionTable) (cancel : CancellationToken)

def boundsCheck : BoundsM Unit := ExceptT.mk (some (checkCancel cancel))

def boundsCmp (left right : Ty) : BoundsM Ordering :=
  match left.canonicalCmp right definitions cancel with
  | .ok order => ExceptT.mk (order.map .ok)
  | .error e => throw e

/-- `NominalTy::normalize_bounds`. -/
def normalizeBounds (constraints : List NominalTy) : BoundsM (List NominalTy) := do
  let unique ← constraints.foldlM (fun unique constraint => do
    boundsCheck cancel
    let _ ← boundsCmp definitions cancel (.trait constraint) (.trait constraint)
    return SortedMap.insert constraint () unique) []
  let result ← sortM (fun left right => do
    boundsCheck cancel
    boundsCmp definitions cancel (.trait left) (.trait right)) (unique.map Prod.fst)
  boundsCheck cancel
  return result

/-- The entry of one bound. -/
def GenericBound.merge (merged : List (Ty × List (NominalTy × Unit))) (bound : GenericBound) :
    BoundsM (List (Ty × List (NominalTy × Unit))) := do
  let _ ← boundsCmp definitions cancel bound.ty bound.ty
  let constraints ← bound.constraints.foldlM (fun constraints constraint => do
    boundsCheck cancel
    return SortedMap.insert constraint () constraints) ((merged.lookup bound.ty).getD [])
  return SortedMap.insert bound.ty constraints merged

def GenericBound.normalize (bounds : List GenericBound) : BoundsM (List GenericBound) := do
  let merged ← bounds.foldlM (GenericBound.merge definitions cancel) []
  let result := merged.map fun entry => ⟨entry.1, entry.2.map Prod.fst⟩
  let result ← sortM (fun left right : GenericBound => boundsCmp definitions cancel left.ty right.ty) result
  let result ← result.mapM fun bound => do
    let constraints ← normalizeBounds definitions cancel bound.constraints
    return { bound with constraints := constraints }
  boundsCheck cancel
  return result

end Normalize

/-! ## Runs that return -/

section Runs

variable {α β σ : Type}

variable {f : α → BoundsM β} {x : BoundsM α} {l : List α}

theorem boundsM_bind {b : β} :
    x >>= f = pure b ↔ ∃ a, x = pure a ∧ f a = pure b := by
  constructor
  · intro h
    rcases x with _ | (e | a)
    · cases h
    · cases h
    · exact ⟨a, rfl, h⟩
  · rintro ⟨a, rfl, h⟩
    exact h

theorem foldlM_pure {f : σ → α → BoundsM σ} {g : σ → α → σ}
    (h : ∀ a ∈ l, ∀ s, f s a = pure (g s a)) (s : σ) : l.foldlM f s = pure (l.foldl g s) := by
  induction l generalizing s with
  | nil => rfl
  | cons a l ih =>
    obtain ⟨hhead, htail⟩ := forall_mem_cons.mp h
    rw [foldlM_cons, hhead, pure_bind, foldl_cons]
    exact ih htail (g s a)

/-- Every step of a loop that returned has returned. -/
theorem foldlM_steps {f : σ → α → BoundsM σ} {s s' : σ} (h : l.foldlM f s = pure s') :
    ∀ a ∈ l, ∃ r r', f r a = pure r' := by
  induction l generalizing s with
  | nil => exact nofun
  | cons a l ih =>
    rw [foldlM_cons] at h
    obtain ⟨r, hhead, htail⟩ := boundsM_bind.mp h
    exact forall_mem_cons.mpr ⟨⟨s, r, hhead⟩, ih htail⟩

theorem mapM_pure {R : α → β → Prop}
    (h : ∀ a ∈ l, ∃ b, f a = pure b ∧ R a b) : ∃ out, l.mapM f = pure out ∧ List.Forall₂ R l out := by
  induction l with
  | nil => exact ⟨[], rfl, .nil⟩
  | cons a l ih =>
    obtain ⟨⟨b, hb, hR⟩, htail⟩ := forall_mem_cons.mp h
    obtain ⟨out, hout, hrel⟩ := ih htail
    refine ⟨b :: out, ?_, .cons hR hrel⟩
    rw [mapM_cons, hb, pure_bind, hout, pure_bind]

theorem mapM_steps {out : List β} (h : l.mapM f = pure out) :
    ∀ a ∈ l, ∃ b, f a = pure b := by
  induction l generalizing out with
  | nil => exact nofun
  | cons a l ih =>
    rw [mapM_cons] at h
    obtain ⟨b, hb, h⟩ := boundsM_bind.mp h
    obtain ⟨rest, hrest, -⟩ := boundsM_bind.mp h
    exact forall_mem_cons.mpr ⟨⟨b, hb⟩, ih hrest⟩

/-- The run does not panic. -/
def Finishes (x : BoundsM α) : Prop := ∃ result, x.run = some result

theorem Finishes.bind (hx : Finishes x)
    (hf : ∀ a, x = pure a → Finishes (f a)) : Finishes (x >>= f) := by
  obtain ⟨e | a, hrun⟩ := hx
  · obtain rfl : x = throw e := hrun
    exact ⟨.error e, rfl⟩
  · obtain rfl : x = pure a := hrun
    exact hf a rfl

theorem Finishes.foldlM {f : σ → α → BoundsM σ} (h : ∀ a ∈ l, ∀ s, Finishes (f s a)) (s : σ) :
    Finishes (l.foldlM f s) := by
  induction l generalizing s with
  | nil => exact ⟨.ok s, rfl⟩
  | cons a l ih =>
    obtain ⟨hhead, htail⟩ := forall_mem_cons.mp h
    rw [foldlM_cons]
    exact (hhead s).bind fun s _ => ih htail s

theorem Finishes.mapM (h : ∀ a ∈ l, Finishes (f a)) : Finishes (l.mapM f) := by
  induction l with
  | nil => exact ⟨.ok [], rfl⟩
  | cons a l ih =>
    obtain ⟨hhead, htail⟩ := forall_mem_cons.mp h
    rw [mapM_cons]
    exact hhead.bind fun _ _ => (ih htail).bind fun _ _ => ⟨_, rfl⟩

end Runs

variable {constraints : List NominalTy} {left right : Ty}
  {merged : List (Ty × List (NominalTy × Unit))}

section Spec

variable {t : DefinitionTable}

/-- What is compared of a type over the table. -/
abbrev canonicalKey (t : DefinitionTable) (ty : Ty) : TypeTree DefinitionPath := ty.portable t.path

/-- A type a caller may pass. -/
structure Comparable (t : DefinitionTable) (ty : Ty) : Prop where
  ordered : ty.Ordered
  scope : InScope t ty

theorem boundsCmp_pure (h : Bijective t) (hleft : Comparable t left)
    (hrt : Comparable t right) :
    boundsCmp t false left right = pure (compare (canonicalKey t left) (canonicalKey t right)) := by
  unfold boundsCmp
  rw [canonicalCmp_eq h hleft.scope hrt.scope hleft.ordered hrt.ordered]
  rfl

theorem boundsCmp_scope {order : Ordering}
    (h : boundsCmp t false left right = pure order) : InScope t left ∧ InScope t right := by
  unfold boundsCmp at h
  split at h
  · rename_i hcmp
    exact canonicalCmp_ok hcmp
  · cases h

theorem boundsCmp_finishes (h : Bijective t) (hleft : left.Ordered) (hrt : right.Ordered) :
    Finishes (boundsCmp t false left right) := by
  unfold boundsCmp
  cases hcmp : left.canonicalCmp right t false with
  | error e => exact ⟨.error e, rfl⟩
  | ok order =>
    obtain ⟨hscp, hscp'⟩ := canonicalCmp_ok hcmp
    cases hcmp.symm.trans (canonicalCmp_eq h hscp hscp' hleft hrt)
    exact ⟨_, rfl⟩

theorem canonicalKey_injective (h : Bijective t) (hleft : Comparable t left)
    (hrt : Comparable t right) (heq : canonicalKey t left = canonicalKey t right) : left = right :=
  Ty.portable_injective (distinct_of_bijective h) (names_of_scope h hleft.scope) (names_of_scope h hrt.scope)
    hleft.ordered hrt.ordered heq

theorem boundsCheck_pure : boundsCheck false = pure () := rfl

/-! ## Constraints -/

/-- The increasing list of the constraints. -/
structure NormalConstraints (t : DefinitionTable) (constraints out : List NominalTy) : Prop where
  same : ∀ c, c ∈ out ↔ c ∈ constraints
  increasing : out.Pairwise fun c c' => canonicalKey t (.trait c) < canonicalKey t (.trait c')

theorem normalizeBounds_spec (h : Bijective t) {constraints : List NominalTy}
    (hscp : ∀ c ∈ constraints, Comparable t (.trait c)) :
    ∃ out, normalizeBounds t false constraints = pure out ∧ NormalConstraints t constraints out := by
  have huniq : constraints.foldlM (fun unique constraint => do
      boundsCheck false
      let _ ← boundsCmp t false (.trait constraint) (.trait constraint)
      return SortedMap.insert constraint () unique) [] =
      (pure (SortedMap.insertAll (constraints.map fun c => (c, ())) []) : BoundsM _) := by
    unfold SortedMap.insertAll
    rw [foldl_map]
    refine foldlM_pure (fun c hc unique => ?_) _
    rw [boundsCheck_pure, pure_bind, boundsCmp_pure h (hscp c hc) (hscp c hc), pure_bind]
  have hmem : ∀ c, c ∈ SortedSet.ofList constraints ↔ c ∈ constraints := fun c => SortedSet.mem_ofList
  have hkeys : ((SortedSet.ofList constraints).map fun c => canonicalKey t (.trait c)).Nodup := by
    refine (nodup_map_iff_inj_on (SortedSet.nodup_ofList constraints)).mpr fun c hc c' hc' heq => ?_
    have htrait := canonicalKey_injective h (hscp c ((hmem c).mp hc)) (hscp c' ((hmem c').mp hc')) heq
    exact Ty.trait.inj htrait
  obtain ⟨out, hout, hperm, hincr⟩ := @sortM_strict _ _ BoundsM _ _ _ (fun left right => do
      boundsCheck false
      boundsCmp t false (.trait left) (.trait right))
    (fun c => canonicalKey t (.trait c)) _ (fun c hc c' hc' => by
      rw [boundsCheck_pure, pure_bind]
      exact boundsCmp_pure h (hscp c ((hmem c).mp hc)) (hscp c' ((hmem c').mp hc'))) hkeys
  refine ⟨out, ?_, fun c => hperm.mem_iff.trans (hmem c), hincr⟩
  unfold normalizeBounds
  rw [huniq, pure_bind]
  show (sortM _ (SortedSet.ofList constraints) >>= _) = _
  rw [hout, pure_bind, boundsCheck_pure, pure_bind]

theorem constraintLoop_scope {unique unique' : List (NominalTy × Unit)}
    (h : constraints.foldlM (fun unique constraint => do
      boundsCheck false
      let _ ← boundsCmp t false (.trait constraint) (.trait constraint)
      return SortedMap.insert constraint () unique) unique = (pure unique' : BoundsM _)) :
    ∀ c ∈ constraints, InScope t (.trait c) := by
  intro c hc
  obtain ⟨r, r', hstep⟩ := foldlM_steps h c hc
  obtain ⟨_, -, hstep⟩ := boundsM_bind.mp hstep
  obtain ⟨order, hcmp, -⟩ := boundsM_bind.mp hstep
  exact (boundsCmp_scope hcmp).1

/-- Nothing out of scope is accepted. -/
theorem normalizeBounds_scope {constraints out : List NominalTy}
    (h : normalizeBounds t false constraints = pure out) : ∀ c ∈ constraints, InScope t (.trait c) := by
  obtain ⟨unique, huniq, -⟩ := boundsM_bind.mp h
  exact constraintLoop_scope huniq

theorem normalizeBounds_finishes (h : Bijective t)
    (hord : ∀ c ∈ constraints, Ty.OrderedNominal c) : Finishes (normalizeBounds t false constraints) := by
  by_cases hscp : ∀ c ∈ constraints, InScope t (.trait c)
  · obtain ⟨out, hout, -⟩ := normalizeBounds_spec h fun c hc => ⟨hord c hc, hscp c hc⟩
    exact ⟨.ok out, hout⟩
  · refine Finishes.bind (.foldlM (fun c hc unique => ?_) _) fun _ huniq =>
      (hscp (constraintLoop_scope huniq)).elim
    have htrait : (Ty.trait c).Ordered := hord c hc
    exact Finishes.bind ⟨_, rfl⟩ fun _ _ => (boundsCmp_finishes h htrait htrait).bind fun _ _ => ⟨_, rfl⟩

/-! ## Merging -/

/-- The bounds constrain the type by the trait. -/
def Constrains (bounds : List GenericBound) (ty : Ty) (c : NominalTy) : Prop :=
  ∃ b ∈ bounds, b.ty = ty ∧ c ∈ b.constraints

/-- The bounds have an entry for the type. -/
def Targets (bounds : List GenericBound) (ty : Ty) : Prop := ∃ b ∈ bounds, b.ty = ty

/-- What the map holds after the bounds. -/
structure Merged (bounds : List GenericBound) (merged : List (Ty × List (NominalTy × Unit))) : Prop where
  keyed : SortedMap.Keyed merged
  targets : ∀ ty, ty ∈ merged.map Prod.fst ↔ Targets bounds ty
  constraints : ∀ e ∈ merged, ∀ c, c ∈ e.2.map Prod.fst ↔ Constrains bounds e.1 c

theorem merged_nil : Merged [] [] :=
  ⟨.nil, fun _ => ⟨nofun, nofun⟩, nofun⟩

/-- The entry of one bound, where nothing is refused. -/
def GenericBound.entry (merged : List (Ty × List (NominalTy × Unit))) (bound : GenericBound) :
    List (Ty × List (NominalTy × Unit)) :=
  SortedMap.insert bound.ty (SortedMap.insertAll (bound.constraints.map fun c => (c, ()))
    ((merged.lookup bound.ty).getD [])) merged

theorem merge_pure (h : Bijective t) {bound : GenericBound} (hscp : Comparable t bound.ty)
    (merged : List (Ty × List (NominalTy × Unit))) :
    bound.merge t false merged = pure (bound.entry merged) := by
  have hcstrs : bound.constraints.foldlM (fun constraints constraint => do
      boundsCheck false
      return SortedMap.insert constraint () constraints) ((merged.lookup bound.ty).getD []) =
      (pure (SortedMap.insertAll (bound.constraints.map fun c => (c, ()))
        ((merged.lookup bound.ty).getD [])) : BoundsM _) := by
    unfold SortedMap.insertAll
    rw [foldl_map]
    exact foldlM_pure (fun c _ constraints => rfl) _
  unfold GenericBound.merge
  rw [boundsCmp_pure h hscp hscp, pure_bind, hcstrs, pure_bind]
  rfl

theorem merge_scope {bounds : List GenericBound} {merged merged' : List (Ty × List (NominalTy × Unit))}
    (h : bounds.foldlM (GenericBound.merge t false) merged = pure merged') : ∀ b ∈ bounds, InScope t b.ty := by
  intro b hb
  obtain ⟨m, m', hstep⟩ := foldlM_steps h b hb
  obtain ⟨order, hcmp, -⟩ := boundsM_bind.mp hstep
  exact (boundsCmp_scope hcmp).1

/-- One more bound. -/
theorem Merged.entry {bounds : List GenericBound}
    (h : Merged bounds merged) (bound : GenericBound) : Merged (bounds ++ [bound]) (bound.entry merged) := by
  have htgts : ∀ ty, Targets (bounds ++ [bound]) ty ↔ ty = bound.ty ∨ Targets bounds ty := by
    intro ty
    simp only [Targets, mem_append, mem_singleton]
    grind
  have hconstrains : ∀ ty c, Constrains (bounds ++ [bound]) ty c ↔
      (ty = bound.ty ∧ c ∈ bound.constraints) ∨ Constrains bounds ty c := by
    intro ty c
    simp only [Constrains, mem_append, mem_singleton]
    grind
  have hold : ∀ c, c ∈ ((merged.lookup bound.ty).getD []).map Prod.fst ↔ Constrains bounds bound.ty c := by
    intro c
    cases hlook : merged.lookup bound.ty with
    | some old => exact h.constraints _ ((SortedMap.lookup_iff h.keyed).mp hlook) c
    | none =>
      have hnone : ¬ Targets bounds bound.ty := by
        rw [← h.targets]
        intro hmem
        obtain ⟨e, he, hkey⟩ := mem_map.mp hmem
        have hfnd := (SortedMap.lookup_iff (v := e.2) h.keyed).mpr he
        rw [hkey, hlook] at hfnd
        cases hfnd
      refine ⟨nofun, ?_⟩
      rintro ⟨b, hb, hty, -⟩
      exact absurd ⟨b, hb, hty⟩ hnone
  refine ⟨SortedMap.keyed_insert h.keyed, fun ty => ?_, fun e he c => ?_⟩
  · unfold GenericBound.entry
    rw [SortedMap.mem_keys_insert, h.targets, htgts]
  · rw [hconstrains]
    rcases (SortedMap.mem_insert h.keyed).mp he with rfl | ⟨hne, hmem⟩
    · have hkeys := @SortedMap.mem_keys_insertAll _ _ _ c (bound.constraints.map fun c => (c, ()))
        ((merged.lookup bound.ty).getD [])
      rw [hkeys, hold]
      simp
    · rw [h.constraints e hmem]
      exact ⟨.inr, fun hor => hor.resolve_left fun hthis => hne hthis.1⟩

theorem merged_foldl (bounds : List GenericBound) : Merged bounds (bounds.foldl (fun m b => b.entry m) []) := by
  induction bounds using List.reverseRecOn with
  | nil => exact merged_nil
  | append_singleton bounds bound ih =>
    rw [foldl_append]
    exact ih.entry bound

/-! ## Bounds -/

/-- The increasing list of the targets, each with the increasing list of its constraints. -/
structure Normal (t : DefinitionTable) (bounds out : List GenericBound) : Prop where
  targets : ∀ ty, Targets out ty ↔ Targets bounds ty
  constraints : ∀ ty c, Constrains out ty c ↔ Constrains bounds ty c
  increasing : out.Pairwise fun b b' => canonicalKey t b.ty < canonicalKey t b'.ty
  each : ∀ b ∈ out, b.constraints.Pairwise fun c c' => canonicalKey t (.trait c) < canonicalKey t (.trait c')

/-- The constraints of a target are those of its only entry. -/
theorem Normal.mem_constraints {bounds out : List GenericBound} (h : Normal t bounds out) {b : GenericBound}
    (hb : b ∈ out) (c : NominalTy) : c ∈ b.constraints ↔ Constrains bounds b.ty c := by
  rw [← h.constraints]
  refine ⟨fun hc => ⟨b, hb, rfl, hc⟩, ?_⟩
  rintro ⟨b', hb', hty, hc⟩
  have hnd : (out.map fun b => canonicalKey t b.ty).Nodup :=
    pairwise_map.mpr (h.increasing.imp fun hlt => ne_of_lt hlt)
  have hsame : b' = b := inj_on_of_nodup_map hnd hb' hb (congrArg (canonicalKey t) hty)
  rwa [← hsame]

theorem Normal.unique {bounds out out' : List GenericBound} (h : Normal t bounds out)
    (h' : Normal t bounds out') : out = out' := by
  have hsub : ∀ {out out' : List GenericBound}, Normal t bounds out → Normal t bounds out' → ∀ b ∈ out, b ∈ out' := by
    intro out out' h h' b hb
    obtain ⟨b', hb', hty⟩ := (h'.targets b.ty).mpr ((h.targets b.ty).mp ⟨b, hb, rfl⟩)
    have hcstrs : b.constraints = b'.constraints := by
      refine eq_of_strict (fun c => canonicalKey t (.trait c)) (fun c => ?_) (h.each b hb) (h'.each b' hb')
      rw [h.mem_constraints hb, h'.mem_constraints hb', hty]
    have hsame : b = b' := by
      cases b
      cases b'
      simp only at hty hcstrs
      rw [hty, hcstrs]
    rwa [hsame]
  exact eq_of_strict (fun b => canonicalKey t b.ty) (fun b => ⟨hsub h h' b, hsub h' h b⟩) h.increasing h'.increasing

/-- The maps inside the bound are ordered. -/
structure GenericBound.Ordered (b : GenericBound) : Prop where
  ty : b.ty.Ordered
  constraints : ∀ c ∈ b.constraints, Ty.OrderedNominal c

/-- Every type of the bound is in scope. -/
structure GenericBound.InScope (t : DefinitionTable) (b : GenericBound) : Prop where
  ty : Kagari.InScope t b.ty
  constraints : ∀ c ∈ b.constraints, Kagari.InScope t (.trait c)

theorem comparable_target {bounds : List GenericBound} (hord : ∀ b ∈ bounds, b.Ordered)
    (hscp : ∀ b ∈ bounds, b.InScope t) {ty : Ty} (h : Targets bounds ty) : Comparable t ty := by
  obtain ⟨b, hb, rfl⟩ := h
  exact ⟨(hord b hb).ty, (hscp b hb).ty⟩

theorem comparable_constraint {bounds : List GenericBound} (hord : ∀ b ∈ bounds, b.Ordered)
    (hscp : ∀ b ∈ bounds, b.InScope t) {ty : Ty} {c : NominalTy} (h : Constrains bounds ty c) :
    Comparable t (.trait c) := by
  obtain ⟨b, hb, -, hc⟩ := h
  exact ⟨(hord b hb).constraints c hc, (hscp b hb).constraints c hc⟩

/-- The entries of the map, as bounds. -/
def mergedBounds (merged : List (Ty × List (NominalTy × Unit))) : List GenericBound :=
  merged.map fun entry => ⟨entry.1, entry.2.map Prod.fst⟩

theorem Merged.bounds {bounds : List GenericBound}
    (h : Merged bounds merged) : (∀ ty, Targets (mergedBounds merged) ty ↔ Targets bounds ty) ∧
      (∀ ty c, Constrains (mergedBounds merged) ty c ↔ Constrains bounds ty c) ∧
      ((mergedBounds merged).map GenericBound.ty).Nodup := by
  have htgts : ∀ ty, Targets (mergedBounds merged) ty ↔ Targets bounds ty := by
    intro ty
    rw [← h.targets]
    simp [Targets, mergedBounds]
  refine ⟨htgts, fun ty c => ⟨?_, fun hconstrains => ?_⟩, ?_⟩
  · rintro ⟨b, hb, rfl, hc⟩
    obtain ⟨e, he, rfl⟩ := mem_map.mp hb
    exact (h.constraints e he c).mp hc
  · have htgt : Targets bounds ty := by
      obtain ⟨b, hb, hty, -⟩ := hconstrains
      exact ⟨b, hb, hty⟩
    obtain ⟨e, he, rfl⟩ := mem_map.mp ((h.targets ty).mpr htgt)
    exact ⟨_, mem_map_of_mem he, rfl, (h.constraints e he c).mpr hconstrains⟩
  · have hkeys := h.keyed.nodup
    rwa [mergedBounds, map_map]

/-- Normalizing the constraints of every entry. -/
def NormalEntry (t : DefinitionTable) (b b' : GenericBound) : Prop :=
  b'.ty = b.ty ∧ NormalConstraints t b.constraints b'.constraints

theorem entries_ty {sorted out : List GenericBound} (h : List.Forall₂ (NormalEntry t) sorted out) :
    out.map GenericBound.ty = sorted.map GenericBound.ty := by
  induction h with
  | nil => rfl
  | cons hent _ ih => rw [map_cons, map_cons, hent.1, ih]

theorem normal_of_entries {bounds sorted out : List GenericBound}
    (hents : List.Forall₂ (NormalEntry t) sorted out)
    (htgts : ∀ ty, Targets sorted ty ↔ Targets bounds ty)
    (hcstrs : ∀ ty c, Constrains sorted ty c ↔ Constrains bounds ty c)
    (hincr : sorted.Pairwise fun b b' => canonicalKey t b.ty < canonicalKey t b'.ty) :
    Normal t bounds out := by
  obtain ⟨hrt, hleft⟩ := forall₂_mem hents
  have htys := entries_ty hents
  refine ⟨fun ty => ?_, fun ty c => ?_, ?_, fun b' hb' => ?_⟩
  · rw [← htgts]
    have hmem : ty ∈ out.map GenericBound.ty ↔ ty ∈ sorted.map GenericBound.ty := by rw [htys]
    simpa [Targets] using hmem
  · rw [← hcstrs]
    constructor
    · rintro ⟨b', hb', rfl, hc⟩
      obtain ⟨b, hb, hty, hnorm⟩ := hleft b' hb'
      exact ⟨b, hb, hty.symm, (hnorm.same c).mp hc⟩
    · rintro ⟨b, hb, rfl, hc⟩
      obtain ⟨b', hb', hty, hnorm⟩ := hrt b hb
      exact ⟨b', hb', hty, (hnorm.same c).mpr hc⟩
  · have hkeys : (sorted.map GenericBound.ty).Pairwise fun a b => canonicalKey t a < canonicalKey t b :=
      pairwise_map.mpr hincr
    rw [← htys] at hkeys
    exact (pairwise_map (f := GenericBound.ty)).mp hkeys
  · obtain ⟨b, hb, -, hnorm⟩ := hleft b' hb'
    exact hnorm.increasing

/-- With the targets in scope, the merged bounds are sorted by target. -/
theorem sorted_spec (h : Bijective t) {bounds : List GenericBound}
    (hcomparable : ∀ ty, Targets bounds ty → Comparable t ty) :
    ∃ sorted, (∀ rest : List GenericBound → BoundsM (List GenericBound), (do
        let merged ← bounds.foldlM (GenericBound.merge t false) []
        let sorted ← sortM (fun left right : GenericBound => boundsCmp t false left.ty right.ty)
          (merged.map fun entry => ⟨entry.1, entry.2.map Prod.fst⟩)
        rest sorted) = rest sorted) ∧
      (∀ ty, Targets sorted ty ↔ Targets bounds ty) ∧
      (∀ ty c, Constrains sorted ty c ↔ Constrains bounds ty c) ∧
      sorted.Pairwise fun b b' => canonicalKey t b.ty < canonicalKey t b'.ty := by
  have hmrg := merged_foldl bounds
  have hloop : bounds.foldlM (GenericBound.merge t false) [] = pure (bounds.foldl (fun m b => b.entry m) []) :=
    foldlM_pure (fun b hb merged => merge_pure h (hcomparable b.ty ⟨b, hb, rfl⟩) merged) []
  revert hmrg hloop
  generalize bounds.foldl (fun m b => b.entry m) [] = merged
  intro hmrg hloop
  obtain ⟨htgts, hcstrs, hnd⟩ := hmrg.bounds
  have hent : ∀ b ∈ mergedBounds merged, Comparable t b.ty := fun b hb =>
    hcomparable b.ty ((htgts b.ty).mp ⟨b, hb, rfl⟩)
  have hkeys : ((mergedBounds merged).map fun b => canonicalKey t b.ty).Nodup := by
    refine (nodup_map_iff_inj_on hnd.of_map).mpr fun b hb b' hb' heq => ?_
    exact inj_on_of_nodup_map hnd hb hb' (canonicalKey_injective h (hent b hb) (hent b' hb') heq)
  obtain ⟨sorted, hsrtd, hperm, hincr⟩ := @sortM_strict _ _ BoundsM _ _ _
    (fun left right => boundsCmp t false left.ty right.ty) (fun b : GenericBound => canonicalKey t b.ty) _
    (fun b hb b' hb' => boundsCmp_pure h (hent b hb) (hent b' hb')) hkeys
  have hmem : ∀ {b}, b ∈ sorted ↔ b ∈ mergedBounds merged := hperm.mem_iff
  refine ⟨sorted, fun rest => ?_, fun ty => ?_, fun ty c => ?_, hincr⟩
  · rw [hloop, pure_bind]
    show (sortM _ (mergedBounds merged) >>= _) = _
    rw [hsrtd, pure_bind]
  · rw [← htgts]
    simp only [Targets, hmem]
  · rw [← hcstrs]
    simp only [Constrains, hmem]

theorem normalize_spec (h : Bijective t) {bounds : List GenericBound} (hord : ∀ b ∈ bounds, b.Ordered)
    (hscp : ∀ b ∈ bounds, b.InScope t) :
    ∃ out, GenericBound.normalize t false bounds = pure out ∧ Normal t bounds out := by
  obtain ⟨sorted, hrun, htgts, hcstrs, hincr⟩ := sorted_spec h
    fun ty hty => comparable_target hord hscp hty
  have heach : ∀ b ∈ sorted, ∃ b', (do
      let constraints ← normalizeBounds t false b.constraints
      return { b with constraints := constraints } : BoundsM GenericBound) = pure b' ∧ NormalEntry t b b' := by
    intro b hb
    obtain ⟨constraints, hcstr, hnorm⟩ := @normalizeBounds_spec _ h b.constraints fun c hc =>
      comparable_constraint hord hscp ((hcstrs b.ty c).mp ⟨b, hb, rfl, hc⟩)
    exact ⟨⟨b.ty, constraints⟩, by rw [hcstr, pure_bind], rfl, hnorm⟩
  obtain ⟨out, hout, hents⟩ := mapM_pure heach
  refine ⟨out, ?_, normal_of_entries hents htgts hcstrs hincr⟩
  unfold GenericBound.normalize
  rw [hrun, hout, pure_bind, boundsCheck_pure, pure_bind]

/-- Nothing out of scope is accepted. -/
theorem normalize_scope (h : Bijective t) {bounds out : List GenericBound} (hord : ∀ b ∈ bounds, b.Ordered)
    (hret : GenericBound.normalize t false bounds = pure out) : ∀ b ∈ bounds, b.InScope t := by
  have htys : ∀ b ∈ bounds, InScope t b.ty := by
    obtain ⟨merged, hmrg, -⟩ := boundsM_bind.mp hret
    exact merge_scope hmrg
  obtain ⟨sorted, hrun, -, hcstrs, -⟩ := @sorted_spec _ h bounds fun ty hty => by
    obtain ⟨b, hb, rfl⟩ := hty
    exact ⟨(hord b hb).ty, htys b hb⟩
  unfold GenericBound.normalize at hret
  rw [hrun] at hret
  obtain ⟨normalized, hmap, -⟩ := boundsM_bind.mp hret
  refine fun b hb => ⟨htys b hb, fun c hc => ?_⟩
  obtain ⟨b', hb', -, hc'⟩ := (hcstrs b.ty c).mpr ⟨b, hb, rfl, hc⟩
  obtain ⟨b'', hent⟩ := mapM_steps hmap b' hb'
  obtain ⟨constraints, hcstr, -⟩ := boundsM_bind.mp hent
  exact normalizeBounds_scope hcstr c hc'

/-- Normalization does not panic: what is compared has passed the check. -/
theorem normalize_finishes (h : Bijective t) {bounds : List GenericBound} (hord : ∀ b ∈ bounds, b.Ordered) :
    Finishes (GenericBound.normalize t false bounds) := by
  by_cases hscp : ∀ b ∈ bounds, InScope t b.ty
  · obtain ⟨sorted, hrun, -, hcstrs, -⟩ := @sorted_spec _ h bounds fun ty hty => by
      obtain ⟨b, hb, rfl⟩ := hty
      exact ⟨(hord b hb).ty, hscp b hb⟩
    unfold GenericBound.normalize
    rw [hrun]
    refine Finishes.bind (.mapM fun b hb => ?_) fun _ _ => ⟨_, rfl⟩
    refine Finishes.bind (normalizeBounds_finishes h fun c hc => ?_) fun _ _ => ⟨_, rfl⟩
    obtain ⟨b', hb', -, hc'⟩ := (hcstrs b.ty c).mp ⟨b, hb, rfl, hc⟩
    exact (hord b' hb').constraints c hc'
  · refine Finishes.bind (.foldlM (fun b hb merged => ?_) _) fun _ hmrg => (hscp (merge_scope hmrg)).elim
    refine (boundsCmp_finishes h (hord b hb).ty (hord b hb).ty).bind fun _ _ => ?_
    exact Finishes.bind (.foldlM (fun _ _ _ => ⟨_, rfl⟩) _) fun _ _ => ⟨_, rfl⟩

theorem Normal.canonicalCmp (h : Bijective t) {bounds out : List GenericBound} (hord : ∀ b ∈ bounds, b.Ordered)
    (hscp : ∀ b ∈ bounds, b.InScope t) (hnorm : Normal t bounds out) :
    (out.Pairwise fun a b => a.ty.canonicalCmp b.ty t false = .ok (some .lt)) ∧
      ∀ b ∈ out, b.constraints.Pairwise fun c c' =>
        (Ty.trait c).canonicalCmp (.trait c') t false = .ok (some .lt) := by
  have hcmp : ∀ {left right : Ty}, Comparable t left → Comparable t right →
      canonicalKey t left < canonicalKey t right → left.canonicalCmp right t false = .ok (some .lt) := by
    intro left right hleft hrt hlt
    rw [canonicalCmp_eq h hleft.scope hrt.scope hleft.ordered hrt.ordered, ← Rose.compare_eq,
      compare_lt_iff_lt.mpr hlt]
  have htgt : ∀ b ∈ out, Comparable t b.ty := fun b hb =>
    comparable_target hord hscp ((hnorm.targets b.ty).mp ⟨b, hb, rfl⟩)
  have hcstr : ∀ b ∈ out, ∀ c ∈ b.constraints, Comparable t (.trait c) := fun b hb c hc =>
    comparable_constraint hord hscp ((hnorm.constraints b.ty c).mp ⟨b, hb, rfl, hc⟩)
  refine ⟨hnorm.increasing.imp_of_mem fun ha hb hlt => hcmp (htgt _ ha) (htgt _ hb) hlt, fun b hb => ?_⟩
  exact (hnorm.each b hb).imp_of_mem fun hc hc' hlt => hcmp (hcstr b hb _ hc) (hcstr b hb _ hc') hlt

/-- The same bounds in another order, the constraints of each in another order. -/
def Permuted (bounds bounds' : List GenericBound) : Prop :=
  ∃ mid, bounds.Perm mid ∧
    List.Forall₂ (fun b b' => b'.ty = b.ty ∧ b'.constraints.Perm b.constraints) mid bounds'

/-- Lists of bounds that say the same. -/
structure Same (bounds bounds' : List GenericBound) : Prop where
  targets : ∀ ty, Targets bounds ty ↔ Targets bounds' ty
  constraints : ∀ ty c, Constrains bounds ty c ↔ Constrains bounds' ty c

theorem Permuted.same {bounds bounds' : List GenericBound} (h : Permuted bounds bounds') : Same bounds bounds' := by
  obtain ⟨mid, hperm, hents⟩ := h
  obtain ⟨hrt, hleft⟩ := forall₂_mem hents
  have hmid : Same mid bounds' := by
    refine ⟨fun ty => ⟨?_, ?_⟩, fun ty c => ⟨?_, ?_⟩⟩
    · rintro ⟨b, hb, rfl⟩
      obtain ⟨b', hb', hty, -⟩ := hrt b hb
      exact ⟨b', hb', hty⟩
    · rintro ⟨b', hb', rfl⟩
      obtain ⟨b, hb, hty, -⟩ := hleft b' hb'
      exact ⟨b, hb, hty.symm⟩
    · rintro ⟨b, hb, rfl, hc⟩
      obtain ⟨b', hb', hty, hcstrs⟩ := hrt b hb
      exact ⟨b', hb', hty, hcstrs.mem_iff.mpr hc⟩
    · rintro ⟨b', hb', rfl, hc⟩
      obtain ⟨b, hb, hty, hcstrs⟩ := hleft b' hb'
      exact ⟨b, hb, hty.symm, hcstrs.mem_iff.mp hc⟩
  refine ⟨fun ty => ?_, fun ty c => ?_⟩
  · rw [← hmid.targets]
    simp only [Targets, hperm.mem_iff]
  · rw [← hmid.constraints]
    simp only [Constrains, hperm.mem_iff]

/-- What holds of a list of bounds, by what it says. -/
theorem ordered_iff {bounds : List GenericBound} : (∀ b ∈ bounds, b.Ordered) ↔
    (∀ ty, Targets bounds ty → ty.Ordered) ∧ ∀ ty c, Constrains bounds ty c → Ty.OrderedNominal c := by
  refine ⟨fun h => ⟨?_, ?_⟩, fun h b hb => ⟨h.1 _ ⟨b, hb, rfl⟩, fun c hc => h.2 _ c ⟨b, hb, rfl, hc⟩⟩⟩
  · rintro ty ⟨b, hb, rfl⟩
    exact (h b hb).ty
  · rintro ty c ⟨b, hb, -, hc⟩
    exact (h b hb).constraints c hc

theorem inScope_iff {bounds : List GenericBound} : (∀ b ∈ bounds, b.InScope t) ↔
    (∀ ty, Targets bounds ty → InScope t ty) ∧ ∀ ty c, Constrains bounds ty c → InScope t (.trait c) := by
  refine ⟨fun h => ⟨?_, ?_⟩, fun h b hb => ⟨h.1 _ ⟨b, hb, rfl⟩, fun c hc => h.2 _ c ⟨b, hb, rfl, hc⟩⟩⟩
  · rintro ty ⟨b, hb, rfl⟩
    exact (h b hb).ty
  · rintro ty c ⟨b, hb, -, hc⟩
    exact (h b hb).constraints c hc

theorem Same.ordered {bounds bounds' : List GenericBound} (h : Same bounds bounds')
    (hord : ∀ b ∈ bounds, b.Ordered) : ∀ b ∈ bounds', b.Ordered := by
  obtain ⟨htys, hcstrs⟩ := ordered_iff.mp hord
  exact ordered_iff.mpr ⟨fun ty hty => htys ty ((h.targets ty).mpr hty),
    fun ty c hc => hcstrs ty c ((h.constraints ty c).mpr hc)⟩

theorem Same.inScope {bounds bounds' : List GenericBound} (h : Same bounds bounds')
    (hscp : ∀ b ∈ bounds, b.InScope t) : ∀ b ∈ bounds', b.InScope t := by
  obtain ⟨htys, hcstrs⟩ := inScope_iff.mp hscp
  exact inScope_iff.mpr ⟨fun ty hty => htys ty ((h.targets ty).mpr hty),
    fun ty c hc => hcstrs ty c ((h.constraints ty c).mpr hc)⟩

theorem Same.symm {bounds bounds' : List GenericBound} (h : Same bounds bounds') : Same bounds' bounds :=
  ⟨fun ty => (h.targets ty).symm, fun ty c => (h.constraints ty c).symm⟩

/-- Lists that say the same are normalized to the same. -/
theorem Same.normalize (h : Bijective t) {bounds bounds' out : List GenericBound} (hsame : Same bounds bounds')
    (hord : ∀ b ∈ bounds, b.Ordered) (hrun : GenericBound.normalize t false bounds = pure out) :
    GenericBound.normalize t false bounds' = pure out := by
  have hscp := normalize_scope h hord hrun
  obtain ⟨first, hfst, hnorm⟩ := normalize_spec h hord hscp
  obtain ⟨second, hsnd, hnorm'⟩ := normalize_spec h (hsame.ordered hord) (hsame.inScope hscp)
  have hback : Normal t bounds second := ⟨fun ty => (hnorm'.targets ty).trans (hsame.targets ty).symm,
    fun ty c => (hnorm'.constraints ty c).trans (hsame.constraints ty c).symm, hnorm'.increasing, hnorm'.each⟩
  rw [hsnd, ← hnorm.unique hback, ← hfst, hrun]

/-- What normalization does over a table. -/
structure Normalizes (t : DefinitionTable) : Prop where
  returns : ∀ bounds : List GenericBound, (∀ b ∈ bounds, b.Ordered) →
    ((∃ out, GenericBound.normalize t false bounds = pure out) ↔ ∀ b ∈ bounds, b.InScope t)
  refuses : ∀ bounds : List GenericBound, (∀ b ∈ bounds, b.Ordered) → ¬(∀ b ∈ bounds, b.InScope t) →
    ∃ e, (GenericBound.normalize t false bounds).run = some (.error e)
  idempotent : ∀ bounds out : List GenericBound, (∀ b ∈ bounds, b.Ordered) →
    GenericBound.normalize t false bounds = pure out → GenericBound.normalize t false out = pure out
  permuted : ∀ bounds bounds' : List GenericBound, (∀ b ∈ bounds, b.Ordered) → Permuted bounds bounds' →
    ∀ out, GenericBound.normalize t false bounds = pure out ↔ GenericBound.normalize t false bounds' = pure out
  keeps : ∀ bounds out : List GenericBound, (∀ b ∈ bounds, b.Ordered) →
    GenericBound.normalize t false bounds = pure out → Same bounds out
  increasing : ∀ bounds out : List GenericBound, (∀ b ∈ bounds, b.Ordered) →
    GenericBound.normalize t false bounds = pure out →
    (out.Pairwise fun a b => a.ty.canonicalCmp b.ty t false = .ok (some .lt)) ∧
      ∀ b ∈ out, b.constraints.Pairwise fun c c' =>
        (Ty.trait c).canonicalCmp (.trait c') t false = .ok (some .lt)

theorem normalizes_of_bijective (h : Bijective t) : Normalizes t := by
  have hnorm : ∀ {bounds out : List GenericBound}, (∀ b ∈ bounds, b.Ordered) →
      GenericBound.normalize t false bounds = pure out → Normal t bounds out := by
    intro bounds out hord hrun
    obtain ⟨out', hout', hnorm⟩ := normalize_spec h hord (normalize_scope h hord hrun)
    rw [hrun] at hout'
    cases hout'
    exact hnorm
  have hsame : ∀ {bounds out : List GenericBound}, (∀ b ∈ bounds, b.Ordered) →
      GenericBound.normalize t false bounds = pure out → Same bounds out := fun hord hrun =>
    ⟨fun ty => ((hnorm hord hrun).targets ty).symm,
      fun ty c => ((hnorm hord hrun).constraints ty c).symm⟩
  refine ⟨fun bounds hord => ⟨?_, fun hscp => ?_⟩, fun bounds hord hscp => ?_,
    fun bounds out hord hrun => ?_,
    fun bounds bounds' hord hpermuted out => ⟨?_, ?_⟩, fun bounds out hord hrun => hsame hord hrun,
    fun bounds out hord hrun => ?_⟩
  · rintro ⟨out, hrun⟩
    exact normalize_scope h hord hrun
  · obtain ⟨out, hrun, -⟩ := normalize_spec h hord hscp
    exact ⟨out, hrun⟩
  · obtain ⟨e | out, hrun⟩ := normalize_finishes h hord
    · exact ⟨e, hrun⟩
    · exact (hscp (normalize_scope h hord hrun)).elim
  · exact (hsame hord hrun).normalize h hord hrun
  · exact hpermuted.same.normalize h hord
  · exact hpermuted.same.symm.normalize h (hpermuted.same.ordered hord)
  · exact (hnorm hord hrun).canonicalCmp h hord (normalize_scope h hord hrun)

end Spec

/-- Over every table that was frozen or decoded: a list of bounds in scope is normalized to the increasing
list of what it says, which is the same for every order and is its own normal form. A list with something out
of scope is refused with an error in every order. -/
theorem normalize_canonical (calls : List Call) :
    (∀ t ∈ (Process.start.run calls).tables, Normalizes t) ∧
    ∀ portable next decoding, PortableDefinitionTable.decode portable next = .ok decoding →
      Normalizes decoding.table := by
  obtain ⟨hp, -⟩ := Process.consistent_start.run calls
  refine ⟨fun t ht => ?_, fun portable next decoding hdec => ?_⟩
  · exact normalizes_of_bijective (bijective_of_valid (hp.tables t ht).1)
  · exact normalizes_of_bijective (bijective_of_valid (decode_valid hdec))

/-- Two bounds on one struct around one on another. -/
def zebraBounds : List GenericBound :=
  [⟨structOf ⟨1, 1⟩, [⟨⟨1, 2⟩, [], []⟩, ⟨⟨1, 1⟩, [], []⟩]⟩, ⟨structOf ⟨1, 2⟩, []⟩,
    ⟨structOf ⟨1, 1⟩, [⟨⟨1, 2⟩, [], []⟩]⟩]

theorem normalize_canonical_zebra :
    ∃ t ∈ (Process.start.run crossed).tables, ∃ out,
      GenericBound.normalize t false zebraBounds = pure out ∧
      GenericBound.normalize t false zebraBounds.reverse = pure out ∧
      GenericBound.normalize t false out = pure out ∧ Constrains out (structOf ⟨1, 1⟩) ⟨⟨1, 1⟩, [], []⟩ := by
  have hscp : (Process.start.run crossed).tables.map (fun t => zebraBounds.all fun b =>
      (checkScope b.ty t false).toBool && b.constraints.all fun c => (checkScope (.trait c) t false).toBool) =
      [true] := by
    decide +kernel
  obtain ⟨t, htabs, hall⟩ := List.map_eq_singleton_iff.mp hscp
  have ht : t ∈ (Process.start.run crossed).tables := by
    rw [htabs]
    exact List.mem_singleton_self t
  have hchk : ∀ {ty : Ty}, (checkScope ty t false).toBool = true → InScope t ty := by
    intro ty h
    refine checkScope_ok.mp ?_
    cases hchk : checkScope ty t false with
    | ok _ => rfl
    | error e => simp [hchk, Except.toBool] at h
  have hinscope : ∀ b ∈ zebraBounds, b.InScope t := by
    intro b hb
    obtain ⟨hty, hcstrs⟩ := Bool.and_eq_true_iff.mp (List.all_eq_true.mp hall b hb)
    exact ⟨hchk hty, fun c hc => hchk (List.all_eq_true.mp hcstrs c hc)⟩
  have hord : ∀ b ∈ zebraBounds, b.Ordered := by
    have hnom : ∀ id, Ty.OrderedNominal ⟨id, [], []⟩ := fun id => ⟨trivial, .nil, trivial⟩
    intro b hb
    simp only [zebraBounds, List.mem_cons, List.not_mem_nil, or_false] at hb
    rcases hb with rfl | rfl | rfl
    · refine ⟨hnom _, fun c hc => ?_⟩
      simp only [List.mem_cons, List.not_mem_nil, or_false] at hc
      rcases hc with rfl | rfl <;> exact hnom _
    · exact ⟨hnom _, by simp⟩
    · refine ⟨hnom _, fun c hc => ?_⟩
      rw [List.mem_singleton.mp hc]
      exact hnom _
  obtain ⟨hfroz, -⟩ := normalize_canonical crossed
  have hnormalizes := hfroz t ht
  obtain ⟨out, hrun⟩ := (hnormalizes.returns zebraBounds hord).mpr hinscope
  have hrevs : Permuted zebraBounds zebraBounds.reverse :=
    ⟨zebraBounds.reverse, (List.reverse_perm _).symm, List.forall₂_same.mpr fun b _ => ⟨rfl, .refl _⟩⟩
  refine ⟨t, ht, out, hrun, (hnormalizes.permuted _ _ hord hrevs out).mp hrun,
    hnormalizes.idempotent _ _ hord hrun, ?_⟩
  refine ((hnormalizes.keeps _ _ hord hrun).constraints _ _).mp ?_
  exact ⟨_, List.mem_cons_self, rfl, List.mem_cons_of_mem _ List.mem_cons_self⟩

/-- Nested as deeply as no type may be. -/
def tooDeep : Ty := Nat.repeat Ty.array maxTypeDepth (.builtin .unit)

theorem ordered_repeat (n : Nat) : (Nat.repeat Ty.array n (.builtin .unit)).Ordered := by
  induction n with
  | zero => exact trivial
  | succ n ih => exact ih

/-- The error of a run that was refused. -/
def refusal {α : Type} (run : BoundsM α) : Option TypeTransformError :=
  match run.run with
  | some (.error e) => some e
  | _ => none

theorem run_of_refusal {α : Type} {run : BoundsM α} {e : TypeTransformError} (h : refusal run = some e) :
    run.run = some (.error e) := by
  unfold refusal at h
  split at h
  · rename_i heq
    rw [heq, Option.some.inj h]
  · cases h

/-- Which error is returned depends on the order: the first bound that is refused decides it. -/
theorem normalize_errors_differ :
    ∃ t ∈ (Process.start.run crossed).tables, ∃ bounds bounds' : List GenericBound,
      (∀ b ∈ bounds, b.Ordered) ∧ Permuted bounds bounds' ∧
      (GenericBound.normalize t false bounds).run = some (.error .limitExceeded) ∧
      (GenericBound.normalize t false bounds').run = some (.error .invalidContract) := by
  have hrun : (Process.start.run crossed).tables.map (fun t =>
      (refusal (GenericBound.normalize t false [⟨tooDeep, []⟩, ⟨.host ⟨7, 0⟩, []⟩]),
        refusal (GenericBound.normalize t false [⟨.host ⟨7, 0⟩, []⟩, ⟨tooDeep, []⟩]))) =
      [(some .limitExceeded, some .invalidContract)] := by
    decide +kernel
  obtain ⟨t, htabs, hrefd⟩ := List.map_eq_singleton_iff.mp hrun
  obtain ⟨hfst, hsnd⟩ := Prod.mk.inj hrefd
  refine ⟨t, by rw [htabs]; exact List.mem_singleton_self t, _, _, ?_, ?_, run_of_refusal hfst,
    run_of_refusal hsnd⟩
  · intro b hb
    simp only [List.mem_cons, List.not_mem_nil, or_false] at hb
    rcases hb with rfl | rfl
    · exact ⟨ordered_repeat _, nofun⟩
    · exact ⟨trivial, nofun⟩
  · exact ⟨_, .swap _ _ _, List.forall₂_same.mpr fun b _ => ⟨rfl, .refl _⟩⟩

end Kagari
