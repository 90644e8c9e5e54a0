import Kagari.Types.WireFlat

/-!
# The wire round trip

`build_of_flat` reads a flattening back, with every definition replaced by the one its reference
resolves to; `flat_of_build` says that whatever is read is a flattening. `wire_roundTrip` puts
the encoder and the decoder together, over tables related by the encoder's reference map.
-/

namespace Kagari

open ShapeBudget Function List

theorem asU32_of_le {n : Nat} (h : n ≤ maxTypeNodes) : asU32 n = n := by
  have : n < 2 ^ 32 := by simp only [maxTypeNodes] at h; omega
  exact Nat.mod_eq_of_lt this

/-! ## Reading a flattening -/

section Read

variable {convert : DefinitionId → Except IdentityTransformError PortableDefinitionRef}
  {resolve : PortableDefinitionRef → Except IdentityTransformError DefinitionId}
  {ι : DefinitionId → DefinitionId}

/-- A reader that takes the type on top of a flattened stack off it. -/
def ReadsFlat (convert : DefinitionId → Except IdentityTransformError PortableDefinitionRef)
    (ι : DefinitionId → DefinitionId)
    (read : List WireNode → Except IdentityTransformError (Ty × List WireNode)) (depth : Nat) :
    Prop :=
  ∀ ty pending nodes, Flat convert ((ty, depth) :: pending) nodes → nodes.length ≤ maxTypeNodes →
    ∃ rest, read nodes = .ok (ty.rename ι, rest) ∧ Flat convert pending rest ∧
      rest.length ≤ nodes.length

variable {read : List WireNode → Except IdentityTransformError (Ty × List WireNode)} {depth : Nat}

theorem readTypes_of_flat (hread : ReadsFlat convert ι read depth) (kids : List Ty) :
    ∀ {pending : List (Ty × Nat)} {nodes : List WireNode},
      Flat convert (kids.map (fun k => (k, depth)) ++ pending) nodes →
      nodes.length ≤ maxTypeNodes →
      ∃ rest, readTypes read kids.length nodes = .ok (kids.map (Ty.rename ι), rest) ∧
        Flat convert pending rest ∧ rest.length ≤ nodes.length := by
  induction kids with
  | nil =>
    intro pending nodes h hlen
    exact ⟨nodes, rfl, h, Nat.le_refl _⟩
  | cons k kids ih =>
    intro pending nodes h hlen
    obtain ⟨rest, hk, hflat, hrest⟩ := hread _ _ _ h hlen
    obtain ⟨rest', hks, hflat', hrest'⟩ := ih hflat (hrest.trans hlen)
    refine ⟨rest', ?_, hflat', hrest'.trans hrest⟩
    simp only [length_cons, readTypes, hk, hks, Lib.ok_bind, map_cons]
    rfl

variable {nodes : List WireNode} {pending : List (Ty × Nat)}

theorem children_of_flat (hread : ReadsFlat convert ι read depth) {kids : List Ty}
    (h : Flat convert (kids.map (fun k => (k, depth)) ++ pending) nodes)
    (hlen : nodes.length ≤ maxTypeNodes) :
    ∃ rest, children read (asU32 kids.length) nodes = .ok (kids.map (Ty.rename ι), rest) ∧
      Flat convert pending rest ∧ rest.length ≤ nodes.length := by
  have hle := h.length_le
  simp only [length_append, length_map] at hle
  rw [asU32_of_le (by omega)]
  unfold children
  rw [if_neg (by omega)]
  exact readTypes_of_flat hread kids h hlen

/-- The binding loop, behind the references and entries it has already passed. -/
theorem readBindings_of_flat (hread : ReadsFlat convert ι read depth)
    (hrel : ∀ id r, convert id = .ok r → resolve r = .ok (ι id)) (bs : List Bound) :
    ∀ {previous : Option PortableDefinitionRef} {acc : List (DefinitionId × Ty)}
      {pending : List (Ty × Nat)} {nodes : List WireNode},
      (∀ b ∈ bs, convert b.2.1 = .ok b.1) → (bs.map Prod.fst).Pairwise (· < ·) →
      (∀ p ∈ previous, ∀ b ∈ bs, p < b.1) →
      ((bs.map (fun b => ι b.2.1)) ++ acc.map Prod.fst).Nodup →
      Flat convert ((bs.map (fun b => b.2.2)).map (fun k => (k, depth)) ++ pending) nodes →
      nodes.length ≤ maxTypeNodes →
      ∃ rest, readBindings read resolve previous (bs.map Prod.fst) acc nodes =
          .ok (Lib.SortedMap.insertAll (bs.map (fun b => (ι b.2.1, b.2.2.rename ι))) acc, rest) ∧
        Flat convert pending rest ∧ rest.length ≤ nodes.length := by
  induction bs with
  | nil =>
    intro previous acc pending nodes _ _ _ _ h _
    exact ⟨nodes, rfl, h, Nat.le_refl _⟩
  | cons b bs ih =>
    obtain ⟨r, id, ty⟩ := b
    intro previous acc pending nodes hconv hlt hprev hnd h hlen
    obtain ⟨rest, hty, hflat, hrest⟩ := hread _ _ _ h hlen
    obtain ⟨hhead, htail⟩ := pairwise_cons.mp hlt
    simp only [map_cons, cons_append, nodup_cons, mem_append] at hnd
    obtain ⟨hnew, hnd⟩ := hnd
    have hfr : Lib.SortedMap.contains (ι id) acc = false :=
      Lib.SortedMap.contains_false_iff.mpr (fun hmem => hnew (.inr hmem))
    have hkeys : ((bs.map (fun b => ι b.2.1)) ++
        (Lib.SortedMap.insert (ι id) (ty.rename ι) acc).map Prod.fst).Nodup := by
      have hp := ((Lib.SortedMap.insert_perm (v := ty.rename ι)
        (Lib.SortedMap.contains_false_iff.mp hfr)).map Prod.fst).append_left
          (bs.map (fun b => ι b.2.1))
      refine hp.nodup_iff.mpr (perm_middle.nodup_iff.mpr (nodup_cons.mpr ⟨?_, hnd⟩))
      simpa using hnew
    have haft : ∀ p ∈ some r, ∀ b ∈ bs, p < b.1 := by
      intro p hp b hb
      obtain rfl := Option.mem_some_iff.mp hp
      exact hhead b.1 (mem_map_of_mem hb)
    obtain ⟨rest', hrun, hflat', hrest'⟩ := ih (fun b hb => hconv b (mem_cons_of_mem _ hb))
      htail haft hkeys hflat (hrest.trans hlen)
    have hgrd : previous.any (fun previous => decide (previous ≥ r)) = false := by
      cases previous with
      | none => rfl
      | some p => simpa using hprev p rfl _ mem_cons_self
    refine ⟨rest', ?_, hflat', hrest'.trans hrest⟩
    have hid := hrel id r (hconv _ mem_cons_self)
    simp only [map_cons, readBindings, hgrd, hid, hty, hfr, Lib.ok_bind, hrun,
      Bool.false_eq_true, if_false, Lib.SortedMap.insertAll, foldl_cons]

/-- The two binding lists of a nominal type: the reader's, in reference order, and the renamed
map, in key order, are one map. -/
theorem readBindings_of_ordered (hread : ReadsFlat convert ι read depth)
    (hrel : ∀ id r, convert id = .ok r → resolve r = .ok (ι id))
    (hinj : ∀ r r' id, resolve r = .ok id → resolve r' = .ok id → r = r')
    {bindings : List (DefinitionId × Ty)} {wire : List (PortableDefinitionRef × Ty)}
    (hwire : orderedBindings convert bindings = .ok wire)
    (h : Flat convert ((wire.map Prod.snd).map (fun k => (k, depth)) ++ pending) nodes)
    (hlen : nodes.length ≤ maxTypeNodes) :
    ∃ rest, readBindings read resolve none (wire.map Prod.fst) [] nodes =
        .ok (Lib.SortedMap.insertAll (Ty.renameBindings ι bindings) [], rest) ∧
      Flat convert pending rest ∧ rest.length ≤ nodes.length := by
  obtain ⟨bs, hperm, hconv, hlt, rfl⟩ := orderedBindings_ok.mp hwire
  have hkeys : (bs.map (fun b => ι b.2.1)).Nodup := by
    refine pairwise_map.mpr ((pairwise_map.mp hlt).imp_of_mem (fun hb hb' hlt heq => ?_))
    have hr := hrel _ _ (hconv _ hb)
    have hr' := hrel _ _ (hconv _ hb')
    exact ne_of_lt hlt (hinj _ _ _ hr (heq ▸ hr'))
  have hsnd : (bs.map Bound.wire).map Prod.snd = bs.map (fun b => b.2.2) := by
    simp [Bound.wire, comp_def]
  have hfst : (bs.map Bound.wire).map Prod.fst = bs.map Prod.fst := by
    simp [Bound.wire, comp_def]
  rw [hsnd] at h
  have hfirst : ∀ p ∈ (none : Option PortableDefinitionRef), ∀ b ∈ bs, p < b.1 := by
    intro p hp
    cases hp
  obtain ⟨rest, hrun, hflat, hrest⟩ := readBindings_of_flat hread hrel bs hconv hlt hfirst
    (by simpa using hkeys : (bs.map (fun b => ι b.2.1) ++ ([] : List (DefinitionId × Ty)).map
      Prod.fst).Nodup) h hlen
  refine ⟨rest, ?_, hflat, hrest⟩
  have hnd : ((bs.map (fun b => (ι b.2.1, b.2.2.rename ι))).map Prod.fst).Nodup := by
    simpa [comp_def] using hkeys
  have hp : (bs.map (fun b => (ι b.2.1, b.2.2.rename ι))).Perm (Ty.renameBindings ι bindings) := by
    rw [Ty.renameBindings_eq]
    have := hperm.map (fun b : DefinitionId × Ty => (ι b.1, b.2.rename ι))
    rwa [map_map] at this
  rw [hfst, hrun, Lib.SortedMap.insertAll_perm hp hnd]

/-- The reader takes the type on top of a flattened stack off it, definition by definition
replaced. -/
theorem build_of_flat (hrel : ∀ id r, convert id = .ok r → resolve r = .ok (ι id))
    (hinj : ∀ r r' id, resolve r = .ok id → resolve r' = .ok id → r = r') (fuel : Nat) :
    ∀ {depth : Nat}, maxTypeDepth < depth + fuel →
      ReadsFlat convert ι (build resolve false fuel depth) depth := by
  induction fuel with
  | zero =>
    intro depth hfuel ty pending nodes h
    cases h with
    | cons hdep => omega
  | succ fuel ih =>
    intro depth hfuel ty pending nodes h hlen
    have hread : ReadsFlat convert ι (build resolve false fuel (depth + 1)) (depth + 1) :=
      ih (by omega)
    cases h with
    | @cons _ _ _ node kids nodes hdep hcnt hnode hrest =>
      have hlen' : nodes.length ≤ maxTypeNodes := by
        simp only [length_cons] at hlen
        omega
      have hgo : ¬ depth > maxTypeDepth := by omega
      cases ty with
      | host id | selfType id | parameter owner position =>
        simp only [wireNode, Lib.bind_ok, pure, Except.pure, Except.ok.injEq, Prod.mk.injEq] at hnode
        obtain ⟨r, hr, rfl, rfl⟩ := hnode
        refine ⟨nodes, ?_, hrest, by simp⟩
        simp [build, hgo, hrel _ _ hr, Ty.rename, pure, Except.pure]
      | builtin b =>
        simp only [wireNode, pure, Except.pure, Except.ok.injEq, Prod.mk.injEq] at hnode
        obtain ⟨rfl, rfl⟩ := hnode
        refine ⟨nodes, ?_, hrest, by simp⟩
        simp [build, hgo, Ty.rename, pure, Except.pure]
      | reference t a | range t a | iter t | array t | set t a =>
        simp only [wireNode, pure, Except.pure, Except.ok.injEq, Prod.mk.injEq] at hnode
        obtain ⟨rfl, rfl⟩ := hnode
        obtain ⟨rest, hrun, hflat, hle⟩ := hread _ _ _ hrest hlen'
        refine ⟨rest, ?_, hflat, by simp only [length_cons]; omega⟩
        simp [build, hgo, Ty.rename, pure, Except.pure, hrun]
      | map key value access =>
        simp only [wireNode, pure, Except.pure, Except.ok.injEq, Prod.mk.injEq] at hnode
        obtain ⟨rfl, rfl⟩ := hnode
        obtain ⟨rest, hrun, hflat, hle⟩ := hread _ _ _ hrest hlen'
        obtain ⟨rest', hrun', hflat', hle'⟩ := hread _ _ _ hflat (by omega)
        refine ⟨rest', ?_, hflat', by simp only [length_cons]; omega⟩
        simp [build, hgo, Ty.rename, pure, Except.pure, hrun, hrun']
      | tuple elements =>
        simp only [wireNode, pure, Except.pure, Except.ok.injEq, Prod.mk.injEq] at hnode
        obtain ⟨rfl, rfl⟩ := hnode
        obtain ⟨rest, hrun, hflat, hle⟩ := children_of_flat hread hrest hlen'
        refine ⟨rest, ?_, hflat, by simp only [length_cons]; omega⟩
        simp [build, hgo, Ty.rename, pure, Except.pure, hrun]
      | function params result =>
        simp only [wireNode, pure, Except.pure, Except.ok.injEq, Prod.mk.injEq] at hnode
        obtain ⟨rfl, rfl⟩ := hnode
        rw [map_append, append_assoc] at hrest
        obtain ⟨rest, hrun, hflat, hle⟩ := children_of_flat hread hrest hlen'
        obtain ⟨rest', hrun', hflat', hle'⟩ := hread _ _ _ hflat (by omega)
        refine ⟨rest', ?_, hflat', by simp only [length_cons]; omega⟩
        simp [build, hgo, Ty.rename, pure, Except.pure, hrun, hrun']
      | struct nominal | nativeObject nominal | enum nominal =>
        simp only [wireNode, Lib.bind_ok, pure, Except.pure, Except.ok.injEq, Prod.mk.injEq] at hnode
        obtain ⟨r, hr, rfl, rfl⟩ := hnode
        obtain ⟨d, arguments, bindings⟩ := nominal
        have hemp : bindings = [] := by
          simp only [childCount] at hcnt
          split at hcnt
          · rename_i hemp
            simpa using hemp
          · cases hcnt
        subst hemp
        obtain ⟨rest, hrun, hflat, hle⟩ := children_of_flat hread hrest hlen'
        refine ⟨rest, ?_, hflat, by simp only [length_cons]; omega⟩
        simp [build, hgo, hrel _ _ hr, Ty.rename, Ty.renameNominal, pure, Except.pure, hrun,
          Lib.SortedMap.insertAll]
      | trait nominal =>
        simp only [wireNode, Lib.bind_ok, pure, Except.pure, Except.ok.injEq, Prod.mk.injEq] at hnode
        obtain ⟨wire, hwire, r, hr, rfl, rfl⟩ := hnode
        obtain ⟨d, arguments, bindings⟩ := nominal
        rw [map_append, append_assoc] at hrest
        obtain ⟨rest, hrun, hflat, hle⟩ := children_of_flat hread hrest hlen'
        obtain ⟨rest', hrun', hflat', hle'⟩ :=
          readBindings_of_ordered hread hrel hinj hwire hflat (by omega)
        refine ⟨rest', ?_, hflat', by simp only [length_cons]; omega⟩
        simp [build, hgo, hrel _ _ hr, Ty.rename, Ty.renameNominal, pure, Except.pure, hrun, hrun']
      | projection arguments receiver interface member =>
        simp only [wireNode, Lib.bind_ok, pure, Except.pure, Except.ok.injEq, Prod.mk.injEq] at hnode
        obtain ⟨wire, hwire, r, hr, r', hr', rfl, rfl⟩ := hnode
        obtain ⟨d, iarguments, bindings⟩ := interface
        simp only [map_cons, map_append, append_assoc, cons_append] at hrest
        obtain ⟨rest₁, hrun₁, hflat₁, hle₁⟩ := hread _ _ _ hrest hlen'
        obtain ⟨rest₂, hrun₂, hflat₂, hle₂⟩ := children_of_flat hread hflat₁ (by omega)
        obtain ⟨rest₃, hrun₃, hflat₃, hle₃⟩ :=
          readBindings_of_ordered hread hrel hinj hwire hflat₂ (by omega)
        obtain ⟨rest₄, hrun₄, hflat₄, hle₄⟩ := children_of_flat hread hflat₃ (by omega)
        refine ⟨rest₄, ?_, hflat₄, by simp only [length_cons]; omega⟩
        simp [build, hgo, hrel _ _ hr, hrel _ _ hr', Ty.rename, Ty.renameNominal, pure, Except.pure,
          hrun₁, hrun₂, hrun₃, hrun₄]

end Read

/-! ## What is read is a flattening -/

section Write

variable {convert : DefinitionId → Except IdentityTransformError PortableDefinitionRef}
  {resolve : PortableDefinitionRef → Except IdentityTransformError DefinitionId}

/-- A reader whose results flatten to the nodes they were read from. -/
def FlatRead (convert : DefinitionId → Except IdentityTransformError PortableDefinitionRef)
    (read : List WireNode → Except IdentityTransformError (Ty × List WireNode)) (depth : Nat) :
    Prop :=
  ∀ nodes ty rest, read nodes = .ok (ty, rest) → nodes.length ≤ maxTypeNodes →
    rest.length ≤ nodes.length ∧ ∀ pending, Flat convert pending rest →
      Flat convert ((ty, depth) :: pending) nodes

variable {read : List WireNode → Except IdentityTransformError (Ty × List WireNode)} {depth : Nat}

theorem flat_of_readTypes (hread : FlatRead convert read depth) (count : Nat) :
    ∀ {nodes rest : List WireNode} {types : List Ty},
      readTypes read count nodes = .ok (types, rest) → nodes.length ≤ maxTypeNodes →
      types.length = count ∧ rest.length ≤ nodes.length ∧
        ∀ pending, Flat convert pending rest →
          Flat convert (types.map (fun ty => (ty, depth)) ++ pending) nodes := by
  induction count with
  | zero =>
    intro nodes rest types h hlen
    simp only [readTypes, Except.ok.injEq, Prod.mk.injEq] at h
    obtain ⟨rfl, rfl⟩ := h
    exact ⟨rfl, Nat.le_refl _, fun _ h => h⟩
  | succ count ih =>
    intro nodes rest types h hlen
    simp only [readTypes, Lib.bind_ok, pure, Except.pure, Except.ok.injEq, Prod.mk.injEq] at h
    obtain ⟨⟨ty, mid⟩, hty, ⟨types, rest⟩, htys, rfl, rfl⟩ := h
    obtain ⟨hmid, hflat⟩ := hread _ _ _ hty hlen
    obtain ⟨hcnt, hle, hflats⟩ := ih htys (hmid.trans hlen)
    exact ⟨by simp [hcnt], hle.trans hmid, fun pending h => hflat _ (hflats _ h)⟩

theorem flat_of_children (hread : FlatRead convert read depth) {count : Nat}
    {nodes rest : List WireNode} {types : List Ty}
    (h : children read count nodes = .ok (types, rest)) (hlen : nodes.length ≤ maxTypeNodes) :
    asU32 types.length = count ∧ types.length = count ∧ rest.length ≤ nodes.length ∧
      ∀ pending, Flat convert pending rest →
        Flat convert (types.map (fun ty => (ty, depth)) ++ pending) nodes := by
  unfold children at h
  split at h
  · cases h
  · rename_i hfit
    obtain ⟨rfl, hle, hflat⟩ := flat_of_readTypes hread count h hlen
    exact ⟨asU32_of_le (by omega), rfl, hle, hflat⟩

/-- The entries the binding loop adds, each with its reference. -/
theorem flat_of_readBindings (hread : FlatRead convert read depth)
    (hrel : ∀ r id, resolve r = .ok id → convert id = .ok r)
    (references : List PortableDefinitionRef) :
    ∀ {previous : Option PortableDefinitionRef} {acc associatedTypes : List (DefinitionId × Ty)}
      {nodes rest : List WireNode},
      readBindings read resolve previous references acc nodes = .ok (associatedTypes, rest) →
      nodes.length ≤ maxTypeNodes →
      rest.length ≤ nodes.length ∧ ∃ bs : List Bound, bs.map Prod.fst = references ∧
        (∀ b ∈ bs, convert b.2.1 = .ok b.1) ∧ references.Pairwise (· < ·) ∧
        (∀ p ∈ previous, ∀ r ∈ references, p < r) ∧
        associatedTypes.Perm (bs.map Prod.snd ++ acc) ∧
        ∀ pending, Flat convert pending rest →
          Flat convert ((bs.map (fun b => b.2.2)).map (fun ty => (ty, depth)) ++ pending) nodes := by
  induction references with
  | nil =>
    intro previous acc associatedTypes nodes rest h hlen
    simp only [readBindings, Except.ok.injEq, Prod.mk.injEq] at h
    obtain ⟨rfl, rfl⟩ := h
    exact ⟨Nat.le_refl _, [], rfl, by simp, .nil, by simp, .refl _, fun _ h => h⟩
  | cons r references ih =>
    intro previous acc associatedTypes nodes rest h hlen
    simp only [readBindings] at h
    split at h
    · cases h
    · rename_i hgrd
      simp only [Lib.bind_ok] at h
      obtain ⟨id, hid, ⟨ty, mid⟩, hty, h⟩ := h
      split at h
      · cases h
      · rename_i hfr
        obtain ⟨hmid, hflat⟩ := hread _ _ _ hty hlen
        obtain ⟨hle, bs, rfl, hconv, hlt, hprev, hperm, hflats⟩ := ih h (hmid.trans hlen)
        have hnew := Lib.SortedMap.contains_false_iff.mp (Bool.not_eq_true _ ▸ hfr)
        refine ⟨hle.trans hmid, (r, id, ty) :: bs, rfl, ?_, ?_, ?_, ?_, ?_⟩
        · intro b hb
          rcases mem_cons.mp hb with rfl | hb
          · exact hrel _ _ hid
          · exact hconv b hb
        · exact pairwise_cons.mpr ⟨hprev r rfl, hlt⟩
        · rintro p hp r' hr'
          obtain rfl := Option.mem_def.mp hp
          have hpr : p < r := by simpa using hgrd
          rcases mem_cons.mp hr' with rfl | hr'
          · exact hpr
          · exact lt_trans hpr (hprev r rfl r' hr')
        · exact hperm.trans (((Lib.SortedMap.insert_perm hnew).append_left _).trans
            perm_middle)
        · exact fun pending h => hflat _ (hflats _ h)

/-- The bindings that were read are listed in the order in which they were read. -/
theorem orderedBindings_of_read (hread : FlatRead convert read depth)
    (hrel : ∀ r id, resolve r = .ok id → convert id = .ok r)
    {references : List PortableDefinitionRef} {associatedTypes : List (DefinitionId × Ty)}
    {nodes rest : List WireNode}
    (h : readBindings read resolve none references [] nodes = .ok (associatedTypes, rest))
    (hlen : nodes.length ≤ maxTypeNodes) :
    rest.length ≤ nodes.length ∧ ∃ wire, orderedBindings convert associatedTypes = .ok wire ∧
      wire.map Prod.fst = references ∧ ∀ pending, Flat convert pending rest →
        Flat convert ((wire.map Prod.snd).map (fun ty => (ty, depth)) ++ pending) nodes := by
  obtain ⟨hle, bs, rfl, hconv, hlt, -, hperm, hflat⟩ :=
    flat_of_readBindings hread hrel references h hlen
  rw [append_nil] at hperm
  refine ⟨hle, bs.map Bound.wire,
    orderedBindings_ok.mpr ⟨bs, hperm.symm, hconv, hlt, rfl⟩, ?_, ?_⟩
  · simp [Bound.wire, comp_def]
  · simpa [Bound.wire, comp_def] using hflat

/-- What the reader accepts is a flattening of what it returns. -/
theorem flat_of_build (hrel : ∀ r id, resolve r = .ok id → convert id = .ok r) (fuel : Nat) :
    ∀ {depth : Nat}, FlatRead convert (build resolve false fuel depth) depth := by
  induction fuel with
  | zero =>
    intro depth nodes ty rest h
    simp [build] at h
  | succ fuel ih =>
    intro depth nodes ty rest h hlen
    have hread : FlatRead convert (build resolve false fuel (depth + 1)) (depth + 1) := ih
    simp only [build, liftTypeError_checkCancel, Lib.ok_bind] at h
    split at h
    · cases h
    rename_i hgo
    have hdep : depth ≤ maxTypeDepth := by omega
    obtain _ | ⟨node, nodes⟩ := nodes
    · cases h
    have hlen' : nodes.length ≤ maxTypeNodes := by
      simp only [length_cons] at hlen
      omega
    simp only [length_cons]
    cases node with
    | host r | selfType r | parameter r position =>
      simp only [Lib.bind_ok, pure, Except.pure, Except.ok.injEq, Prod.mk.injEq] at h
      obtain ⟨id, hid, rfl, rfl⟩ := h
      refine ⟨Nat.le_succ _, fun pending hp => .push [] hdep rfl ?_ hp⟩
      simp [wireNode, hrel _ _ hid, pure, Except.pure]
    | builtin b =>
      simp only [pure, Except.pure, Except.ok.injEq, Prod.mk.injEq] at h
      obtain ⟨rfl, rfl⟩ := h
      exact ⟨Nat.le_succ _, fun pending hp => .push [] hdep rfl rfl hp⟩
    | reference a | range a | iter | array | set a =>
      simp only [Lib.bind_ok, pure, Except.pure, Except.ok.injEq, Prod.mk.injEq] at h
      obtain ⟨⟨t, rest⟩, ht, rfl, rfl⟩ := h
      obtain ⟨hle, hflat⟩ := hread _ _ _ ht hlen'
      exact ⟨hle.trans (Nat.le_succ _), fun pending hp => .push [t] hdep rfl rfl (hflat _ hp)⟩
    | map access =>
      simp only [Lib.bind_ok, pure, Except.pure, Except.ok.injEq, Prod.mk.injEq] at h
      obtain ⟨⟨key, mid⟩, hkey, ⟨value, rest⟩, hval, rfl, rfl⟩ := h
      obtain ⟨hmid, hflat⟩ := hread _ _ _ hkey hlen'
      obtain ⟨hle, hflat'⟩ := hread _ _ _ hval (hmid.trans hlen')
      exact ⟨(hle.trans hmid).trans (Nat.le_succ _),
        fun pending hp => .push [key, value] hdep rfl rfl (hflat _ (hflat' _ hp))⟩
    | tuple count =>
      simp only [Lib.bind_ok, pure, Except.pure, Except.ok.injEq, Prod.mk.injEq] at h
      obtain ⟨⟨types, rest⟩, htys, rfl, rfl⟩ := h
      obtain ⟨hcnt, -, hle, hflat⟩ := flat_of_children hread htys hlen'
      refine ⟨hle.trans (Nat.le_succ _), fun pending hp => .cons hdep rfl ?_ (hflat _ hp)⟩
      simp [wireNode, hcnt, pure, Except.pure]
    | function count =>
      simp only [Lib.bind_ok, pure, Except.pure, Except.ok.injEq, Prod.mk.injEq] at h
      obtain ⟨⟨params, mid⟩, hprms, ⟨result, rest⟩, hres, rfl, rfl⟩ := h
      obtain ⟨hcnt, -, hmid, hflat⟩ := flat_of_children hread hprms hlen'
      obtain ⟨hle, hflat'⟩ := hread _ _ _ hres (hmid.trans hlen')
      refine ⟨(hle.trans hmid).trans (Nat.le_succ _),
        fun pending hp => .push (params ++ [result]) hdep ?_ ?_ ?_⟩
      · simp [childCount]
      · simp [wireNode, hcnt, pure, Except.pure]
      · simpa using hflat _ (hflat' _ hp)
    | struct r count | nativeObject r count | enum r count =>
      simp only [Lib.bind_ok, pure, Except.pure, Except.ok.injEq, Prod.mk.injEq] at h
      obtain ⟨d, hd, ⟨arguments, rest⟩, hargs, rfl, rfl⟩ := h
      obtain ⟨hcnt, -, hle, hflat⟩ := flat_of_children hread hargs hlen'
      refine ⟨hle.trans (Nat.le_succ _), fun pending hp => .cons hdep rfl ?_ (hflat _ hp)⟩
      simp [wireNode, hrel _ _ hd, hcnt, pure, Except.pure]
    | trait r count references =>
      simp only [Lib.bind_ok, pure, Except.pure, Except.ok.injEq, Prod.mk.injEq] at h
      obtain ⟨⟨arguments, mid⟩, hargs, ⟨bindings, rest⟩, hbind, d, hd, rfl, rfl⟩ := h
      obtain ⟨hcnt, -, hmid, hflat⟩ := flat_of_children hread hargs hlen'
      obtain ⟨hle, wire, hwire, hrefs, hflat'⟩ :=
        orderedBindings_of_read hread hrel hbind (hmid.trans hlen')
      refine ⟨(hle.trans hmid).trans (Nat.le_succ _), fun pending hp =>
        .push (arguments ++ wire.map Prod.snd) hdep ?_ ?_ ?_⟩
      · simp [childCount, nominalChildren, orderedBindings_length hwire]
      · simp [wireNode, hwire, hrel _ _ hd, hcnt, hrefs, pure, Except.pure]
      · rw [map_append, append_assoc]
        exact hflat _ (hflat' _ hp)
    | projection memberArguments member owner count references =>
      simp only [Lib.bind_ok, pure, Except.pure, Except.ok.injEq, Prod.mk.injEq] at h
      obtain ⟨⟨receiver, n₁⟩, hrecv, ⟨iarguments, n₂⟩, hiargs, ⟨bindings, n₃⟩, hbind,
        ⟨arguments, n₄⟩, hargs, d, hd, m, hm, rfl, rfl⟩ := h
      obtain ⟨hle₁, hflat₁⟩ := hread _ _ _ hrecv hlen'
      obtain ⟨hcnt₂, -, hle₂, hflat₂⟩ := flat_of_children hread hiargs (hle₁.trans hlen')
      obtain ⟨hle₃, wire, hwire, hrefs, hflat₃⟩ :=
        orderedBindings_of_read hread hrel hbind (hle₂.trans (hle₁.trans hlen'))
      obtain ⟨hcnt₄, -, hle₄, hflat₄⟩ := flat_of_children hread hargs
        (hle₃.trans (hle₂.trans (hle₁.trans hlen')))
      refine ⟨hle₄.trans (hle₃.trans (hle₂.trans (hle₁.trans (Nat.le_succ _)))), fun pending hp =>
        .push (receiver :: (iarguments ++ wire.map Prod.snd ++ arguments)) hdep ?_ ?_ ?_⟩
      · simp [childCount, nominalChildren, orderedBindings_length hwire]
        omega
      · simp [wireNode, hwire, hrel _ _ hd, hrel _ _ hm, hcnt₂, hcnt₄, hrefs, pure, Except.pure]
      · simp only [map_cons, map_append, append_assoc, cons_append]
        exact hflat₁ _ (hflat₂ _ (hflat₃ _ (hflat₄ _ hp)))

end Write

/-! ## Tables -/

variable {id : DefinitionId} {r : PortableDefinitionRef} {wire : WireType}

theorem DefinitionDecoding.resolve_injective {decoding : DefinitionDecoding}
    {r r' : PortableDefinitionRef} (h : decoding.resolve r = .ok id)
    (h' : decoding.resolve r' = .ok id) : r = r' := by
  have hget : ∀ {r : PortableDefinitionRef}, decoding.resolve r = .ok id →
      decoding.references[r.val]? = some id := by
    intro r h
    unfold resolve at h
    split at h
    · simp_all
    · cases h
  obtain ⟨hlt, heq⟩ := List.getElem?_eq_some_iff.mp (hget h)
  obtain ⟨hlt', heq'⟩ := List.getElem?_eq_some_iff.mp (hget h')
  exact Fin.ext ((decoding.nodup.getElem_inj_iff).mp (heq.trans heq'.symm))

theorem DefinitionEncoding.reference_ok {encoding : DefinitionEncoding}
    (h : encoding.reference id = .ok r) :
    id.table = encoding.owner ∧ (id.index, r) ∈ encoding.references := by
  unfold reference at h
  split at h
  · cases h
  · rename_i hown
    split at h
    · rename_i r' hlook
      simp only [Except.ok.injEq] at h
      obtain ⟨l₁, l₂, heq, -⟩ := lookup_eq_some_iff.mp hlook
      exact ⟨not_not.mp hown, by simp [heq, h]⟩
    · cases h

theorem DefinitionEncoding.reference_injective {encoding : DefinitionEncoding}
    {id id' : DefinitionId} (h : encoding.reference id = .ok r)
    (h' : encoding.reference id' = .ok r) : id = id' := by
  obtain ⟨hown, hmem⟩ := reference_ok h
  obtain ⟨hown', hmem'⟩ := reference_ok h'
  have hidx := (inj_on_of_nodup_map encoding.references_nodup) hmem hmem' rfl
  exact DefinitionId.ext (hown.trans hown'.symm) (congrArg Prod.fst hidx)

/-- The decoded table, related to the encoder's by its reference map: the reference of `id`
resolves to `ι id`. -/
def TablesRelated (encoding : DefinitionEncoding) (decoding : DefinitionDecoding)
    (ι : DefinitionId → DefinitionId) : Prop :=
  ∀ id r, encoding.reference id = .ok r → decoding.resolve r = .ok (ι id)

/-- An encoding of the decoded table under the references it was decoded with. -/
def Reencodes (decoding : DefinitionDecoding) (encoding : DefinitionEncoding) : Prop :=
  ∀ r id, decoding.resolve r = .ok id → encoding.reference id = .ok r

/-! ## Round trip -/

namespace WireType

theorem decode_ok {decoding : DefinitionDecoding} {ty : Ty} :
    decode wire decoding false = .ok ty ↔
      build (fun r => liftTableError (decoding.resolve r)) false (maxTypeDepth + 1) 1 wire.nodes =
        .ok (ty, []) := by
  unfold decode
  rw [Lib.bind_ok]
  constructor
  · rintro ⟨⟨ty', nodes⟩, hbuild, h⟩
    simp only at h
    split at h
    · rename_i hemp
      simp only [pure, Except.pure, Except.ok.injEq] at h
      rw [hbuild, h, isEmpty_iff.mp hemp]
    · cases h
  · intro h
    exact ⟨(ty, []), h, rfl⟩

/-- What was encoded decodes to the same type over the decoded table. -/
theorem decode_encode {encoding : DefinitionEncoding} {decoding : DefinitionDecoding}
    {ι : DefinitionId → DefinitionId} (hrel : TablesRelated encoding decoding ι) {ty : Ty}
    (h : encode ty encoding false = .ok wire) :
    decode wire decoding false = .ok (ty.rename ι) := by
  obtain ⟨nodes, hflat, heq⟩ := wireLoop_ok (encode_ok.mp h)
  rw [nil_append] at heq
  subst heq
  have hrslv : ∀ id r, liftTableError (encoding.reference id) = .ok r →
      liftTableError (decoding.resolve r) = .ok (ι id) :=
    fun id r hr => liftTableError_ok.mpr (hrel id r (liftTableError_ok.mp hr))
  have hinj : ∀ r r' id, liftTableError (decoding.resolve r) = .ok id →
      liftTableError (decoding.resolve r') = .ok id → r = r' :=
    fun r r' id hr hr' => DefinitionDecoding.resolve_injective (liftTableError_ok.mp hr)
      (liftTableError_ok.mp hr')
  obtain ⟨rest, hbuild, hrest, -⟩ := build_of_flat hrslv hinj (maxTypeDepth + 1) (by omega)
    ty [] wire.nodes hflat wire.bounded
  cases hrest
  exact decode_ok.mpr hbuild

/-- A type within the wire limits whose definitions are known is encoded. -/
theorem encode_of_limits {encoding : DefinitionEncoding} {ty : Ty} (ho : ty.Ordered)
    (hlims : ty.withinWireLimits = true)
    (hkn : ∀ id ∈ ty.definitions, ∃ r, encoding.reference id = .ok r) :
    ∃ wire, encode ty encoding false = .ok wire := by
  have hvis : ∃ visited, visit false 0 ty 1 = .ok visited := by
    unfold Ty.withinWireLimits validate at hlims
    cases h : visit false 0 ty 1 with
    | ok visited => exact ⟨visited, rfl⟩
    | error e => simp [h, Except.toBool] at hlims
  obtain ⟨visited, hvis⟩ := hvis
  have hinj : ∀ id id' r, liftTableError (encoding.reference id) = .ok r →
      liftTableError (encoding.reference id') = .ok r → id = id' :=
    fun id id' r h h' => DefinitionEncoding.reference_injective (liftTableError_ok.mp h)
      (liftTableError_ok.mp h')
  obtain ⟨hvisited, n, rfl, ms, rfl, hms⟩ := flatTy_of_visit hinj ty ho
    (fun id hid => (hkn id hid).imp (fun r hr => liftTableError_ok.mpr hr)) hvis
  have hflat := hms [] [] .nil
  rw [append_nil] at hflat
  have hbnd : ms.length ≤ maxTypeNodes := by omega
  refine ⟨⟨ms, hbnd⟩, encode_ok.mpr ?_⟩
  exact wireLoop_of_flat hflat rfl (Nat.zero_add _) (by simpa using hbnd)

/-- What decodes is encoded to the nodes it was decoded from, and keeps the limits. -/
theorem encode_decode {encoding : DefinitionEncoding} {decoding : DefinitionDecoding}
    (hre : Reencodes decoding encoding) {ty : Ty}
    (h : decode wire decoding false = .ok ty) :
    encode ty encoding false = .ok wire ∧ ty.withinWireLimits = true := by
  have hrefer : ∀ r id, liftTableError (decoding.resolve r) = .ok id →
      liftTableError (encoding.reference id) = .ok r :=
    fun r id hr => liftTableError_ok.mpr (hre r id (liftTableError_ok.mp hr))
  obtain ⟨-, hread⟩ := flat_of_build hrefer (maxTypeDepth + 1) _ _ _ (decode_ok.mp h) wire.bounded
  have hflat := hread [] .nil
  refine ⟨encode_ok.mpr (wireLoop_of_flat hflat rfl (Nat.zero_add _) (by simpa using wire.bounded)),
    ?_⟩
  obtain ⟨n, rest, hlen, -, -, hvis⟩ := visit_of_flat ty hflat
  have hfit := wire.bounded
  simp only [Ty.withinWireLimits, validate, hvis 0 (by omega)]
  rfl

end WireType

/-- The two directions of the codec, over tables related by the encoder's reference map. A type
within the wire limits comes back as the same type over the decoded table (as itself, where the
tables name its definitions alike); whatever decodes is written back node for node. -/
theorem wire_roundTrip (encoding reencoding : DefinitionEncoding) (decoding : DefinitionDecoding)
    (ι : DefinitionId → DefinitionId) (hrel : TablesRelated encoding decoding ι)
    (hre : Reencodes decoding reencoding) :
    (∀ ty : Ty, ty.Ordered → ty.withinWireLimits = true →
      (∀ id ∈ ty.definitions, ∃ r, encoding.reference id = .ok r) →
      ∃ wire, WireType.encode ty encoding false = .ok wire ∧
        WireType.decode wire decoding false = .ok (ty.rename ι) ∧
        ((∀ id ∈ ty.definitions, ι id = id) → ty.rename ι = ty)) ∧
    (∀ (wire : WireType) (ty : Ty), WireType.decode wire decoding false = .ok ty →
      WireType.encode ty reencoding false = .ok wire ∧ ty.withinWireLimits = true) := by
  refine ⟨fun ty ho hlims hkn => ?_, fun wire ty h => WireType.encode_decode hre h⟩
  obtain ⟨wire, hwire⟩ := WireType.encode_of_limits ho hlims hkn
  exact ⟨wire, hwire, WireType.decode_encode hrel hwire, ty.rename_self ho⟩

/-! A table of two definitions whose decoded identities stand in the other order, so that the
bindings of a trait change places. -/

namespace Swapped

def encoding : DefinitionEncoding := ⟨1, [(0, 0), (1, 1)], by decide, by decide⟩

def decoding : DefinitionDecoding := ⟨[⟨2, 5⟩, ⟨2, 3⟩], by decide⟩

def reencoding : DefinitionEncoding := ⟨2, [(5, 0), (3, 1)], by decide, by decide⟩

def ι (id : DefinitionId) : DefinitionId := if id.index = 0 then ⟨2, 5⟩ else ⟨2, 3⟩

def ty : Ty :=
  .trait ⟨⟨1, 0⟩, [.array (.builtin .bool)],
    [(⟨1, 0⟩, .builtin .i32), (⟨1, 1⟩, .selfType ⟨1, 1⟩)]⟩

def decoded : Ty :=
  .trait ⟨⟨2, 5⟩, [.array (.builtin .bool)],
    [(⟨2, 3⟩, .selfType ⟨2, 3⟩), (⟨2, 5⟩, .builtin .i32)]⟩

theorem related : TablesRelated encoding decoding ι := by
  intro id r h
  obtain ⟨-, hmem⟩ := DefinitionEncoding.reference_ok h
  simp only [encoding, mem_cons, Prod.mk.injEq, not_mem_nil, or_false] at hmem
  rcases hmem with ⟨hidx, rfl⟩ | ⟨hidx, rfl⟩
  · simp [DefinitionDecoding.resolve, decoding, ι, hidx]
  · simp [DefinitionDecoding.resolve, decoding, ι, hidx]

theorem reencodes : Reencodes decoding reencoding := by
  rintro ⟨r, hr⟩ id h
  obtain rfl | rfl | hbig : r = 0 ∨ r = 1 ∨ 2 ≤ r := by omega
  · simp only [DefinitionDecoding.resolve, decoding, getElem?_cons_zero,
      Except.ok.injEq] at h
    subst h
    rfl
  · simp only [DefinitionDecoding.resolve, decoding, getElem?_cons_succ,
      getElem?_cons_zero, Except.ok.injEq] at h
    subst h
    rfl
  · obtain ⟨r, rfl⟩ := Nat.exists_eq_add_of_le' hbig
    simp [DefinitionDecoding.resolve, decoding] at h

end Swapped

/-- The bindings are read back by reference and stored by identity. -/
theorem wire_roundTrip_swapped :
    ∃ wire, WireType.encode Swapped.ty Swapped.encoding false = .ok wire ∧
      WireType.decode wire Swapped.decoding false = .ok Swapped.decoded ∧
      WireType.encode Swapped.decoded Swapped.reencoding false = .ok wire := by
  obtain ⟨hto, hfrom⟩ := wire_roundTrip Swapped.encoding Swapped.reencoding Swapped.decoding
    Swapped.ι Swapped.related Swapped.reencodes
  have hord : Swapped.ty.Ordered := by
    simp only [Swapped.ty, Ty.Ordered, Ty.OrderedNominal, Ty.OrderedAll, Ty.OrderedBindings,
      Ty.OrderedBinding, Lib.SortedMap.Keyed, and_self, and_true, true_and]
    decide
  have hkn : ∀ id ∈ Swapped.ty.definitions, ∃ r, Swapped.encoding.reference id = .ok r := by
    intro id hid
    have hid' : id ∈ [(⟨1, 0⟩ : DefinitionId), ⟨1, 0⟩, ⟨1, 1⟩, ⟨1, 1⟩] := hid
    simp only [List.mem_cons, List.not_mem_nil, or_false] at hid'
    rcases hid' with rfl | rfl | rfl | rfl
    · exact ⟨0, rfl⟩
    · exact ⟨0, rfl⟩
    · exact ⟨1, rfl⟩
    · exact ⟨1, rfl⟩
  obtain ⟨wire, hwire, hdec, -⟩ := hto Swapped.ty hord (by decide) hkn
  have hdecd : Swapped.ty.rename Swapped.ι = Swapped.decoded := by decide
  rw [hdecd] at hdec
  exact ⟨wire, hwire, hdec, (hfrom wire _ hdec).1⟩

/-! ## Types that are written alike -/

/-- The identity behind a reference. -/
private def identityOf (encoding : DefinitionEncoding) (r : PortableDefinitionRef) :
    Except IdentityTransformError DefinitionId :=
  match encoding.references.find? (fun entry => entry.2 == r) with
  | some entry => .ok ⟨encoding.owner, entry.1⟩
  | none => .error (.identity .invalidIndex)

private theorem identityOf_ok {encoding : DefinitionEncoding} :
    identityOf encoding r = .ok id ↔ id.table = encoding.owner ∧ (id.index, r) ∈ encoding.references := by
  have hfind : ∀ index, encoding.references.find? (fun entry => entry.2 == r) = some (index, r) ↔
      (index, r) ∈ encoding.references := by
    intro index
    constructor
    · exact mem_of_find?_eq_some
    · intro hmem
      cases hfnd : encoding.references.find? (fun entry => entry.2 == r) with
      | none => simpa using find?_eq_none.mp hfnd _ hmem
      | some entry =>
        have hr : entry.2 = r := by simpa using find?_some hfnd
        rw [inj_on_of_nodup_map encoding.references_nodup (mem_of_find?_eq_some hfnd) hmem hr]
  obtain ⟨table, index⟩ := id
  rw [← hfind index]
  unfold identityOf
  split
  · rename_i entry hfnd
    have hr : entry.2 = r := by simpa using find?_some hfnd
    obtain ⟨index', r'⟩ := entry
    simp only at hr
    subst hr
    simp [hfnd, eq_comm]
  · rename_i hnone
    simp [hnone]

namespace WireType

/-- Types that are written alike are equal. -/
theorem encode_injective {encoding : DefinitionEncoding} {cancel : CancellationToken} {ty ty' : Ty}
    (ho : ty.Ordered) (ho' : ty'.Ordered) (h : encode ty encoding cancel = .ok wire)
    (h' : encode ty' encoding cancel = .ok wire) : ty = ty' := by
  have hrel : ∀ id r, liftTableError (encoding.reference id) = .ok r → identityOf encoding r = .ok id :=
    fun id r hr => identityOf_ok.mpr (DefinitionEncoding.reference_ok (liftTableError_ok.mp hr))
  have hinj : ∀ r r' id, identityOf encoding r = .ok id → identityOf encoding r' = .ok id → r = r' := by
    intro r r' id hr hr'
    have heq := inj_on_of_nodup_map encoding.indices_nodup (identityOf_ok.mp hr).2 (identityOf_ok.mp hr').2 rfl
    exact (Prod.mk.inj heq).2
  have hread : ∀ {t : Ty}, t.Ordered → encode t encoding cancel = .ok wire →
      ∃ rest, build (identityOf encoding) false (maxTypeDepth + 1) 1 wire.nodes = .ok (t, rest) := by
    intro t hot hwrs
    obtain ⟨nodes, hflat, heq⟩ := wireLoop_ok (encode_ok.mp hwrs)
    rw [nil_append] at heq
    subst heq
    obtain ⟨rest, hbuild, -, -⟩ :=
      build_of_flat hrel hinj (maxTypeDepth + 1) (by omega) t [] wire.nodes hflat wire.bounded
    exact ⟨rest, by simpa only [t.rename_self hot fun _ _ => rfl] using hbuild⟩
  obtain ⟨rest, hbuild⟩ := hread ho h
  obtain ⟨rest', hbuild'⟩ := hread ho' h'
  exact (Prod.mk.inj (Except.ok.inj (hbuild.symm.trans hbuild'))).1

end WireType

end Kagari
