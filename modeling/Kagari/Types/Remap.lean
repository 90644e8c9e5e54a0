import Kagari.Types.SubstitutionBudget

/-!
# Types over another table

`map_definitions` of `kagari-types/src/ty/identity.rs`: every definition is converted, and the bindings
are put in the order of the converted ones. The state is what remains of the budget of nodes.

A type within the limits whose definitions all convert, to different ones, is mapped to `Ty.rename`, which
is as large and as deep.
-/

namespace Kagari

open Lib List

/-! ## The mapper -/

/-- The computations of one traversal, over the nodes it may still visit. -/
abbrev MapperM := StateT Nat (Except IdentityTransformError)

structure Mapper where
  convert : DefinitionId → Except IdentityTransformError DefinitionId
  cancel : CancellationToken

namespace Mapper

def step (m : Mapper) (depth : Nat) : MapperM Unit := do
  if m.cancel then throw (.type .cancelled)
  else
    let remaining ← get
    if depth > maxTypeDepth ∨ remaining = 0 then throw (.type .limitExceeded)
    else set (remaining - 1)

section Children

variable (m : Mapper) (visit : Ty → MapperM Ty)

def reference (id : DefinitionId) : MapperM DefinitionId := liftM (m.convert id)

/-- The bindings, inserted one after the other; a key that is there already is refused. -/
def bindings : List (DefinitionId × Ty) → List (DefinitionId × Ty) → MapperM (List (DefinitionId × Ty))
  | [], associatedTypes => return associatedTypes
  | (member, output) :: rest, associatedTypes => do
    let member ← m.reference member
    let output ← visit output
    if SortedMap.contains member associatedTypes then throw (.type .invalidContract)
    else bindings rest (SortedMap.insert member output associatedTypes)

/-- `visit` is the traversal one level below. -/
def nominal (ty : NominalTy) : MapperM NominalTy := do
  let associatedTypes ← m.bindings visit ty.associatedTypes []
  let declaration ← m.reference ty.declaration
  let arguments ← ty.arguments.mapM visit
  return ⟨declaration, arguments, associatedTypes⟩

/-- The type over its converted parts. -/
def rebuild : Ty → MapperM Ty
  | .reference target access => return .reference (← visit target) access
  | .host id => return .host (← m.reference id)
  | .selfType id => return .selfType (← m.reference id)
  | .parameter owner position => return .parameter (← m.reference owner) position
  | .builtin value => return .builtin value
  | .tuple types => return .tuple (← types.mapM visit)
  | .function params result => do
    let params ← params.mapM visit
    let result ← visit result
    return .function params result
  | .array ty => return .array (← visit ty)
  | .set ty access => return .set (← visit ty) access
  | .map key value access => do
    let key ← visit key
    let value ← visit value
    return .map key value access
  | .iter ty => return .iter (← visit ty)
  | .range ty kind => return .range (← visit ty) kind
  | .struct ty => return .struct (← m.nominal visit ty)
  | .nativeObject ty => return .nativeObject (← m.nominal visit ty)
  | .enum ty => return .enum (← m.nominal visit ty)
  | .trait ty => return .trait (← m.nominal visit ty)
  | .projection arguments receiver interface member => do
    let arguments ← arguments.mapM visit
    let receiver ← visit receiver
    let interface ← m.nominal visit interface
    let member ← m.reference member
    return .projection arguments receiver interface member

end Children

/-- Convert a type at a depth; `fuel` is as for `Transform.visit`. -/
def ty (m : Mapper) : Nat → Nat → Ty → MapperM Ty
  | 0, depth, _ => do
    m.step depth
    throw (.type .limitExceeded)
  | fuel + 1, depth, ty => do
    m.step depth
    m.rebuild (Mapper.ty m fuel (depth + 1)) ty

end Mapper

/-- `map_definitions`. -/
def Ty.mapDefinitions (ty : Ty) (convert : DefinitionId → Except IdentityTransformError DefinitionId)
    (cancel : CancellationToken) : Except IdentityTransformError Ty :=
  if !ty.withinWireLimits then .error (.type .limitExceeded)
  else do
    let (result, _) ← (Mapper.ty ⟨convert, cancel⟩ maxTypeDepth 1 ty).run maxTypeNodes
    return result

/-! ## Renaming, by parts -/

section Relabel

variable (ι : DefinitionId → DefinitionId) (f : Ty → Ty)

/-- A nominal type over other definitions and children. -/
def Nominal.relabel (nominal : NominalTy) : NominalTy :=
  ⟨ι nominal.declaration, nominal.arguments.map f,
    SortedMap.insertAll (nominal.associatedTypes.map fun b => (ι b.1, f b.2)) []⟩

/-- A type over other definitions and children. -/
def Ty.relabel : Ty → Ty
  | .projection arguments receiver interface member =>
    .projection (arguments.map f) (f receiver) (interface.relabel ι f) (ι member)
  | .host id => .host (ι id)
  | .selfType id => .selfType (ι id)
  | .parameter owner position => .parameter (ι owner) position
  | .builtin ty => .builtin ty
  | .tuple elements => .tuple (elements.map f)
  | .function params result => .function (params.map f) (f result)
  | .iter element => .iter (f element)
  | .range element kind => .range (f element) kind
  | .array element => .array (f element)
  | .map key value access => .map (f key) (f value) access
  | .set element access => .set (f element) access
  | .struct nominal => .struct (nominal.relabel ι f)
  | .nativeObject nominal => .nativeObject (nominal.relabel ι f)
  | .enum nominal => .enum (nominal.relabel ι f)
  | .trait nominal => .trait (nominal.relabel ι f)
  | .reference target access => .reference (f target) access

end Relabel

/-- The definitions a nominal type names itself. -/
def Nominal.heads (nominal : NominalTy) : List DefinitionId :=
  nominal.declaration :: nominal.associatedTypes.map Prod.fst

/-- The definitions a type names itself. -/
def Ty.heads : Ty → List DefinitionId
  | .projection _ _ interface member => member :: interface.heads
  | .host id | .selfType id | .parameter id _ => [id]
  | .struct nominal | .nativeObject nominal | .enum nominal | .trait nominal => nominal.heads
  | _ => []

theorem Nominal.mem_definitions {nominal : NominalTy} {id : DefinitionId} :
    id ∈ Ty.definitionsNominal nominal ↔ id ∈ nominal.heads ∨ ∃ k ∈ nominal.kids, id ∈ k.definitions := by
  obtain ⟨d, as, bs⟩ := nominal
  simp only [Ty.definitionsNominal, Ty.definitionsAll_eq, Ty.definitionsBindings_eq, Nominal.heads, Nominal.kids,
    mem_cons, mem_append, mem_flatMap, mem_map]
  grind

theorem Ty.mem_definitions {ty : Ty} {id : DefinitionId} :
    id ∈ ty.definitions ↔ id ∈ ty.heads ∨ ∃ k ∈ ty.kids, id ∈ k.definitions := by
  cases ty with
  | projection as r i m =>
    simp only [Ty.definitions, Ty.definitionsAll_eq, Ty.heads, Ty.kids, mem_append, mem_cons,
      mem_flatMap, Nominal.mem_definitions, not_mem_nil]
    grind
  | struct n | nativeObject n | enum n | trait n => exact Nominal.mem_definitions
  | _ => simp [Ty.definitions, Ty.heads, Ty.kids]

theorem Ty.rename_eq (ι : DefinitionId → DefinitionId) (ty : Ty) :
    ty.rename ι = ty.relabel ι (Ty.rename ι) := by
  have hnom : ∀ n : NominalTy, Ty.renameNominal ι n = n.relabel ι (Ty.rename ι) := by
    rintro ⟨d, as, bs⟩
    simp [Ty.renameNominal, Nominal.relabel]
  cases ty <;> simp [Ty.rename, Ty.relabel, hnom]

/-! ## What renaming keeps -/

/-- Different definitions of the list are renamed differently. -/
def Separates {β : Type} (ι : DefinitionId → β) (ids : List DefinitionId) : Prop :=
  ∀ id ∈ ids, ∀ id' ∈ ids, ι id = ι id' → id = id'

theorem Separates.mono {β : Type} {ι : DefinitionId → β} {ids ids' : List DefinitionId}
    (h : Separates ι ids') (hsub : ids ⊆ ids') : Separates ι ids :=
  fun id hid id' hid' => h id (hsub hid) id' (hsub hid')

theorem Ty.heads_subset (ty : Ty) : ty.heads ⊆ ty.definitions := fun _ h => Ty.mem_definitions.mpr (.inl h)

variable {bs : List (DefinitionId × Ty)} {count : Nat}

section Keeps

variable {ι : DefinitionId → DefinitionId} {f : Ty → Ty}

/-- The renamed keys are different. -/
theorem keys_nodup (hkeyed : SortedMap.Keyed bs)
    (hι : Separates ι (bs.map Prod.fst)) : ((bs.map fun b => (ι b.1, f b.2)).map Prod.fst).Nodup := by
  have hmap : (bs.map fun b => (ι b.1, f b.2)).map Prod.fst = (bs.map Prod.fst).map ι := by
    simp [Function.comp_def]
  rw [hmap]
  exact (nodup_map_iff_inj_on hkeyed.nodup).mpr hι

theorem insertAll_relabel (hkeyed : SortedMap.Keyed bs)
    (hι : Separates ι (bs.map Prod.fst)) :
    (SortedMap.insertAll (bs.map fun b => (ι b.1, f b.2)) []).Perm (bs.map fun b => (ι b.1, f b.2)) := by
  have hperm := @SortedMap.insertAll_perm_append _ _ _ (bs.map fun b => (ι b.1, f b.2)) []
    (by simpa using keys_nodup hkeyed hι)
  simpa using hperm

theorem Nominal.relabel_perm {n : NominalTy} (ho : Ty.OrderedNominal n) (hι : Separates ι n.heads) :
    (n.relabel ι f).kids.Perm (n.kids.map f) ∧ (n.relabel ι f).heads.Perm (n.heads.map ι) := by
  obtain ⟨d, as, bs⟩ := n
  have hbnds := insertAll_relabel (f := f) ho.2.1 (hι.mono (subset_cons_self d _))
  refine ⟨?_, ?_⟩
  · have hvals := (hbnds.map Prod.snd).append_left (as.map f)
    simpa [Nominal.kids, Nominal.relabel, Function.comp_def] using hvals
  · have hkeys := (hbnds.map Prod.fst).cons (ι d)
    simpa [Nominal.heads, Nominal.relabel, Function.comp_def] using hkeys

theorem Ty.relabel_perm {ty : Ty} (ho : ty.Ordered) (hι : Separates ι ty.heads) :
    (ty.relabel ι f).kids.Perm (ty.kids.map f) ∧ (ty.relabel ι f).heads.Perm (ty.heads.map ι) := by
  cases ty with
  | projection as r i m =>
    obtain ⟨hkids, hheads⟩ := Nominal.relabel_perm (f := f) ho.2.2 (hι.mono (subset_cons_self m _))
    refine ⟨?_, hheads.cons (ι m)⟩
    have hpts := (hkids.append_right (as.map f)).cons (f r)
    simpa [Ty.kids, Ty.relabel] using hpts
  | struct n | nativeObject n | enum n | trait n => exact Nominal.relabel_perm ho hι
  | _ => simp [Ty.kids, Ty.heads, Ty.relabel]

end Keeps

variable {f : Ty → Ty}

section Rename

variable {ι : DefinitionId → DefinitionId}

theorem Ty.kids_rename {ty : Ty} (ho : ty.Ordered) (hι : Separates ι ty.definitions) :
    (ty.rename ι).kids.Perm (ty.kids.map (Ty.rename ι)) := by
  rw [Ty.rename_eq]
  exact (Ty.relabel_perm ho (hι.mono ty.heads_subset)).1

theorem Ty.mem_definitions_rename (ty : Ty) : ty.Ordered → Separates ι ty.definitions →
    ∀ {id : DefinitionId}, id ∈ (ty.rename ι).definitions → ∃ old ∈ ty.definitions, ι old = id := by
  induction ty using Ty.kids_induction with
  | step ty ih =>
    intro ho hι id hid
    rcases Ty.mem_definitions.mp hid with hhead | ⟨k, hk, hid⟩
    · have hheads : (ty.rename ι).heads.Perm (ty.heads.map ι) := by
        rw [Ty.rename_eq]
        exact (Ty.relabel_perm ho (hι.mono ty.heads_subset)).2
      obtain ⟨old, hold, rfl⟩ := mem_map.mp (hheads.mem_iff.mp hhead)
      exact ⟨old, ty.heads_subset hold, rfl⟩
    · obtain ⟨k, hkid, rfl⟩ := mem_map.mp ((Ty.kids_rename ho hι).mem_iff.mp hk)
      have hsub := Ty.definitions_kid hkid
      obtain ⟨old, hold, rfl⟩ := ih k hkid (Ty.ordered_kid hkid ho) (hι.mono hsub) hid
      exact ⟨old, hsub hold, rfl⟩

theorem Ty.nodes_rename (ty : Ty) : ty.Ordered → Separates ι ty.definitions →
    (ty.rename ι).nodes = ty.nodes := by
  induction ty using Ty.kids_induction with
  | step ty ih =>
    intro ho hι
    have hkid : ∀ k ∈ ty.kids, (k.rename ι).nodes = k.nodes := fun k hk =>
      ih k hk (Ty.ordered_kid hk ho) (hι.mono (Ty.definitions_kid hk))
    rw [Ty.nodes_eq, Ty.nodes_eq ty, ((Ty.kids_rename ho hι).map Ty.nodes).sum_eq, map_map]
    exact congrArg (fun l => 1 + List.sum l) (map_congr_left hkid)

theorem Ty.ordered_relabel {ty : Ty} (ho : ty.Ordered) (hι : Separates ι ty.heads)
    (hf : ∀ k ∈ ty.kids, (f k).Ordered) : (ty.relabel ι f).Ordered := by
  have hnom : ∀ n : NominalTy, Ty.OrderedNominal n → Separates ι n.heads → (∀ k ∈ n.kids, (f k).Ordered) →
      Ty.OrderedNominal (n.relabel ι f) := by
    rintro ⟨d, as, bs⟩ ho hι hf
    simp only [Nominal.kids, mem_append, mem_map] at hf
    refine ⟨?_, SortedMap.keyed_insertAll List.Pairwise.nil, ?_⟩
    · rw [Ty.orderedAll_iff]
      intro t ht
      obtain ⟨a, ha, rfl⟩ := mem_map.mp ht
      exact hf a (.inl ha)
    · rw [Ty.orderedBindings_iff]
      intro b hb
      have hperm := insertAll_relabel (f := f) ho.2.1 (hι.mono (subset_cons_self d _))
      obtain ⟨c, hc, rfl⟩ := mem_map.mp (hperm.mem_iff.mp hb)
      exact hf c.2 (.inr ⟨c, hc, rfl⟩)
  cases ty with
  | projection as r i m =>
    simp only [Ty.kids, mem_cons, mem_append] at hf
    refine ⟨?_, hf r (.inl rfl), hnom i ho.2.2 (hι.mono (subset_cons_self m _))
      fun k hk => hf k (.inr (.inl hk))⟩
    rw [Ty.orderedAll_iff]
    intro t ht
    obtain ⟨a, ha, rfl⟩ := mem_map.mp ht
    exact hf a (.inr (.inr ha))
  | struct n | nativeObject n | enum n | trait n => exact hnom n ho hι hf
  | _ => simp_all [Ty.kids, Ty.relabel, Ty.Ordered]

theorem Ty.ordered_rename (ty : Ty) : ty.Ordered → Separates ι ty.definitions → (ty.rename ι).Ordered := by
  induction ty using Ty.kids_induction with
  | step ty ih =>
    intro ho hι
    rw [Ty.rename_eq]
    exact Ty.ordered_relabel ho (hι.mono ty.heads_subset) fun k hk =>
      ih k hk (Ty.ordered_kid hk ho) (hι.mono (Ty.definitions_kid hk))

end Rename

/-! ## Limits -/

/-- No node below the type is deeper than the limit or binds what it may not, where the type itself is at
`depth`. -/
inductive Ty.Shaped : Nat → Ty → Prop
  | node {depth count : Nat} {ty : Ty} : depth ≤ maxTypeDepth → ShapeBudget.childCount ty = .ok count →
      (∀ k ∈ ty.kids, Ty.Shaped (depth + 1) k) → Ty.Shaped depth ty

namespace ShapeBudget

theorem childCount_eq {ty : Ty} (h : childCount ty = .ok count) : count = ty.kids.length := by
  cases ty with
  | struct n | nativeObject n | enum n =>
    simp only [childCount] at h
    split at h
    · rename_i hemp
      rw [← Except.ok.inj h]
      simp [Ty.kids, Nominal.kids, isEmpty_iff.mp hemp]
    · cases h
  | projection as r i m =>
    rw [← Except.ok.inj h]
    simp [Ty.kids, Nominal.kids, nominalChildren]
    omega
  | _ =>
    rw [← Except.ok.inj h]
    simp [Ty.kids, Nominal.kids, nominalChildren]

theorem shaped_of_visit (ty : Ty) : ∀ {depth v v' : Nat}, visit false v ty depth = .ok v' →
    ty.Shaped depth := by
  induction ty using Ty.kids_induction with
  | step ty ih =>
    intro depth v v' h
    rw [visit_eq] at h
    obtain ⟨_, -, h⟩ := bind_ok.mp h
    obtain ⟨entered, hen, hkids⟩ := bind_ok.mp h
    obtain ⟨hdep, rfl, count, hcnt, -⟩ := enter_ok.mp hen
    refine .node hdep hcnt fun k hk => ?_
    obtain ⟨m, m', hvis⟩ := visitAll_mem hkids hk
    exact ih k hk hvis

theorem visit_of_shaped (ty : Ty) : ∀ {depth v : Nat}, ty.Shaped depth → v + ty.nodes ≤ maxTypeNodes →
    visit false v ty depth = .ok (v + ty.nodes) := by
  induction ty using Ty.kids_induction with
  | step ty ih =>
    rintro depth v ⟨hdep, hcnt, hkids⟩ hfit
    have hlen := length_le_nodes ty.kids
    have hchildren := childCount_eq hcnt
    rw [ty.nodes_eq] at hfit ⊢
    have hall : ∀ {types : List Ty}, (∀ k ∈ types, k ∈ ty.kids) → ∀ {v},
        v + (types.map Ty.nodes).sum ≤ maxTypeNodes →
        visitAll false v types (depth + 1) = .ok (v + (types.map Ty.nodes).sum) := by
      intro types
      induction types with
      | nil => exact fun _ _ _ => rfl
      | cons k types iht =>
        intro hmem v hfit
        rw [map_cons, sum_cons] at hfit ⊢
        have hk := hmem k mem_cons_self
        have hhead : visit false v k (depth + 1) = .ok (v + k.nodes) := ih k hk (hkids k hk) (by omega)
        have htail := iht (fun k hk => hmem k (mem_cons_of_mem _ hk)) (v := v + k.nodes) (by omega)
        unfold visitAll
        rw [hhead, ok_bind, htail, Nat.add_assoc]
    rw [visit_eq, enter_ok.mpr ⟨hdep, rfl, _, hcnt, by omega⟩, ← Nat.add_assoc]
    exact hall (fun _ h => h) (by omega)

end ShapeBudget

/-- The wire limits, by the shape and the number of nodes. -/
theorem withinWireLimits_shaped {ty : Ty} :
    ty.withinWireLimits = true ↔ ty.Shaped 1 ∧ ty.nodes ≤ maxTypeNodes := by
  rw [withinWireLimits_iff]
  constructor
  · intro h
    obtain ⟨v, hv, -⟩ := bind_ok.mp h
    exact ⟨ShapeBudget.shaped_of_visit ty hv, (validate_ok h).1⟩
  · rintro ⟨hshp, hnds⟩
    unfold validate
    rw [ShapeBudget.visit_of_shaped ty hshp (by omega)]
    rfl

section Limits

variable {ι : DefinitionId → DefinitionId}

theorem Ty.childCount_relabel {ty : Ty}
    (h : ShapeBudget.childCount ty = .ok count) : ∃ count', ShapeBudget.childCount (ty.relabel ι f) = .ok count' := by
  cases ty with
  | struct n | nativeObject n | enum n =>
    simp only [ShapeBudget.childCount] at h
    split at h
    · rename_i hemp
      simp [Ty.relabel, Nominal.relabel, ShapeBudget.childCount, isEmpty_iff.mp hemp, SortedMap.insertAll]
    · cases h
  | _ => exact ⟨_, rfl⟩

theorem Ty.shaped_rename (ty : Ty) : ∀ {depth : Nat}, ty.Ordered → Separates ι ty.definitions → ty.Shaped depth →
    (ty.rename ι).Shaped depth := by
  induction ty using Ty.kids_induction with
  | step ty ih =>
    rintro depth ho hι ⟨hdep, hcnt, hkids⟩
    have hcnt' : ∃ count', ShapeBudget.childCount (ty.rename ι) = .ok count' := by
      rw [Ty.rename_eq]
      exact Ty.childCount_relabel hcnt
    obtain ⟨count', hcnt'⟩ := hcnt'
    refine .node hdep hcnt' fun k hk => ?_
    obtain ⟨k, hkid, rfl⟩ := mem_map.mp ((Ty.kids_rename ho hι).mem_iff.mp hk)
    exact ih k hkid (Ty.ordered_kid hkid ho) (hι.mono (Ty.definitions_kid hkid)) (hkids k hkid)

theorem Ty.withinWireLimits_rename {ty : Ty} (ho : ty.Ordered) (hι : Separates ι ty.definitions)
    (h : ty.withinWireLimits = true) : (ty.rename ι).withinWireLimits = true := by
  obtain ⟨hshp, hnds⟩ := withinWireLimits_shaped.mp h
  refine withinWireLimits_shaped.mpr ⟨ty.shaped_rename ho hι hshp, ?_⟩
  rw [ty.nodes_rename ho hι]
  exact hnds

end Limits

/-! ## What the mapper returns -/

namespace Mapper

variable {m : Mapper} {ι : DefinitionId → DefinitionId}

theorem step_affords (hcanc : m.cancel = false) {depth : Nat} (h : depth ≤ maxTypeDepth) :
    Affords (m.step depth) () 1 := by
  intro s hs
  refine ⟨s - 1, ?_, by omega⟩
  have hgrd : ¬(depth > maxTypeDepth ∨ s = 0) := by omega
  unfold step
  rw [hcanc]
  show (if depth > maxTypeDepth ∨ s = 0 then _ else _ : MapperM Unit).run s = _
  rw [if_neg hgrd]
  rfl

theorem reference_affords {id : DefinitionId} (h : m.convert id = .ok (ι id)) :
    Affords (m.reference id) (ι id) 0 := by
  intro s _
  refine ⟨s, ?_, Nat.le_refl _⟩
  unfold reference
  rw [h]
  rfl

section Rebuild

variable {visit : Ty → MapperM Ty} {f : Ty → Ty} {cost : Ty → Nat}

theorem bindings_affords {bs : List (DefinitionId × Ty)} : ∀ {mapped : List (DefinitionId × Ty)},
    (((bs.map fun b => (ι b.1, f b.2)) ++ mapped).map Prod.fst).Nodup →
    (∀ b ∈ bs, m.convert b.1 = .ok (ι b.1)) → (∀ b ∈ bs, Affords (visit b.2) (f b.2) (cost b.2)) →
    Affords (m.bindings visit bs mapped) (SortedMap.insertAll (bs.map fun b => (ι b.1, f b.2)) mapped)
      (bs.map fun b => cost b.2).sum := by
  induction bs with
  | nil => exact fun _ _ _ => .pure
  | cons b bs ih =>
    obtain ⟨member, output⟩ := b
    intro mapped hnd hconv hvis
    obtain ⟨hmember, hconv'⟩ := forall_mem_cons.mp hconv
    obtain ⟨hout, hvis'⟩ := forall_mem_cons.mp hvis
    rw [map_cons, cons_append, map_cons, nodup_cons] at hnd
    have hnew : ι member ∉ mapped.map Prod.fst := fun hmem => hnd.1 (by simp [map_append, hmem])
    have hcontains : ¬ SortedMap.contains (ι member) mapped = true := by
      rw [SortedMap.contains_iff]
      exact hnew
    have hrest : (((bs.map fun b => (ι b.1, f b.2)) ++ SortedMap.insert (ι member) (f output) mapped).map
        Prod.fst).Nodup := by
      have hperm := ((SortedMap.insert_perm (v := f output) hnew).append_left
        (bs.map fun b => (ι b.1, f b.2))).trans perm_middle
      refine (hperm.map Prod.fst).nodup_iff.mpr ?_
      exact nodup_cons.mpr hnd
    have hloop : Affords (m.bindings visit ((member, output) :: bs) mapped)
        (SortedMap.insertAll (bs.map fun b => (ι b.1, f b.2)) (SortedMap.insert (ι member) (f output) mapped))
        (0 + (cost output + (bs.map fun b => cost b.2).sum)) :=
      Affords.bind (reference_affords hmember) (.bind hout
        (.guarded hcontains (ih hrest hconv' hvis')))
    rw [Nat.zero_add] at hloop
    exact hloop

theorem nominal_affords {n : NominalTy} (ho : Ty.OrderedNominal n) (hι : Separates ι n.heads)
    (hconv : ∀ id ∈ n.heads, m.convert id = .ok (ι id))
    (h : ∀ k ∈ n.kids, Affords (visit k) (f k) (cost k)) :
    Affords (m.nominal visit n) (n.relabel ι f) (n.kids.map cost).sum := by
  obtain ⟨d, as, bs⟩ := n
  simp only [Nominal.kids, mem_append, mem_map] at h
  obtain ⟨hd, hkeys⟩ := forall_mem_cons.mp hconv
  have hnd := keys_nodup (f := f) ho.2.1 (hι.mono (subset_cons_self d _))
  have hbnds := @bindings_affords m ι visit f cost bs []
    (by rwa [append_nil]) (fun b hb => hkeys b.1 (mem_map_of_mem hb))
    fun b hb => h b.2 (.inr ⟨b, hb, rfl⟩)
  refine (Affords.bind hbnds (Affords.bind (reference_affords hd)
    (Affords.returning (Affords.mapM fun a ha => h a (.inl ha))))).mono ?_
  rw [Nominal.kids, map_append, sum_append, map_map, Nat.zero_add, Nat.add_comm]
  exact Nat.le_refl _

theorem rebuild_affords {ty : Ty} (ho : ty.Ordered) (hι : Separates ι ty.heads)
    (hconv : ∀ id ∈ ty.heads, m.convert id = .ok (ι id))
    (h : ∀ k ∈ ty.kids, Affords (visit k) (f k) (cost k)) :
    Affords (m.rebuild visit ty) (ty.relabel ι f) (ty.kids.map cost).sum := by
  cases ty with
  | projection as r i member =>
    simp only [Ty.kids, mem_cons, mem_append] at h
    obtain ⟨hmember, hheads⟩ := forall_mem_cons.mp hconv
    have hiface := nominal_affords ho.2.2 (hι.mono (subset_cons_self member _)) hheads
      fun k hk => h k (.inr (.inl hk))
    refine (Affords.bind (Affords.mapM fun a ha => h a (.inr (.inr ha))) (Affords.bind (h r (.inl rfl))
      (Affords.bind hiface (Affords.returning (reference_affords hmember))))).mono ?_
    simp only [Ty.kids, map_cons, map_append, sum_cons, sum_append]
    omega
  | tuple elements => exact Affords.returning (Affords.mapM h)
  | function params result =>
    simp only [Ty.kids, mem_append, mem_singleton] at h
    refine (Affords.bind (Affords.mapM fun k hk => h k (.inl hk))
      (Affords.returning (h result (.inr rfl)))).mono ?_
    simp [Ty.kids]
  | map key value access =>
    simp only [Ty.kids, mem_cons, not_mem_nil, or_false] at h
    refine (Affords.bind (h key (.inl rfl)) (Affords.returning (h value (.inr rfl)))).mono ?_
    simp [Ty.kids]
  | iter k | range k _ | array k | set k _ | reference k _ =>
    refine (Affords.returning (h k (mem_singleton.mpr rfl))).mono ?_
    simp [Ty.kids]
  | struct n | nativeObject n | enum n | trait n => exact Affords.returning (nominal_affords ho hι hconv h)
  | host id | selfType id | parameter id _ =>
    exact Affords.returning (reference_affords (hconv id (mem_singleton.mpr rfl)))
  | builtin _ => exact Affords.pure

end Rebuild

/-- One step a node. -/
theorem ty_affords (hcanc : m.cancel = false) (fuel : Nat) : ∀ depth ty, depth + fuel = maxTypeDepth + 1 →
    ty.Shaped depth → ty.Ordered → Separates ι ty.definitions →
    (∀ id ∈ ty.definitions, m.convert id = .ok (ι id)) →
    Affords (Mapper.ty m fuel depth ty) (ty.rename ι) ty.nodes := by
  induction fuel with
  | zero =>
    rintro depth ty hfuel ⟨hdep, -, -⟩
    omega
  | succ fuel ih =>
    rintro depth ty hfuel ⟨hdep, -, hkids⟩ ho hι hconv
    have hkid : ∀ k ∈ ty.kids, Affords (Mapper.ty m fuel (depth + 1) k) (k.rename ι) k.nodes := by
      intro k hk
      have hsub := Ty.definitions_kid hk
      exact ih (depth + 1) k (by omega) (hkids k hk) (Ty.ordered_kid hk ho) (hι.mono hsub)
        fun id hid => hconv id (hsub hid)
    rw [ty.nodes_eq, ty.rename_eq]
    exact Affords.bind (step_affords hcanc hdep) (rebuild_affords ho (hι.mono ty.heads_subset)
      (fun id hid => hconv id (ty.heads_subset hid)) hkid)

end Mapper

/-- A type within the limits whose definitions are converted to different ones is renamed. -/
theorem Ty.mapDefinitions_eq {ty : Ty} {convert : DefinitionId → Except IdentityTransformError DefinitionId}
    {ι : DefinitionId → DefinitionId} (hlims : ty.withinWireLimits = true) (ho : ty.Ordered)
    (hι : Separates ι ty.definitions) (hconv : ∀ id ∈ ty.definitions, convert id = .ok (ι id)) :
    ty.mapDefinitions convert false = .ok (ty.rename ι) := by
  obtain ⟨hshp, hnds⟩ := withinWireLimits_shaped.mp hlims
  obtain ⟨remaining, hrun, -⟩ := Mapper.ty_affords (m := ⟨convert, false⟩) rfl maxTypeDepth 1 ty (by decide)
    hshp ho hι hconv maxTypeNodes hnds
  unfold Ty.mapDefinitions
  rw [hlims, hrun]
  rfl

end Kagari
