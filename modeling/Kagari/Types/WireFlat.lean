import Kagari.Types.Wire

/-!
# Flattenings

`Flat convert pending nodes` says that `nodes` is what the encoder's loop writes for the stack
`pending`: each constructor is one turn of the loop. The encoder (`wireLoop_ok`,
`wireLoop_of_flat`), the reader (`build_of_flat`, `flat_of_build`) and the shape traversal
(`flat_of_visit`) are each compared with it.

`orderedBindings_ok` says what the canonical order of bindings is, once for all of them.
-/

namespace Kagari

open ShapeBudget Function List

/-! ## Bindings in reference order -/

section Bindings

variable {convert : DefinitionId → Except IdentityTransformError PortableDefinitionRef}

/-- A binding with the reference of its key. -/
abbrev Bound := PortableDefinitionRef × DefinitionId × Ty

def Bound.wire (b : Bound) : PortableDefinitionRef × Ty := (b.1, b.2.2)

variable {bindings : List (DefinitionId × Ty)} {result : List (PortableDefinitionRef × Ty)}

theorem convertBindings_ok
    :
    convertBindings convert bindings = .ok result ↔
      ∃ bs : List Bound, bs.map Prod.snd = bindings ∧ (∀ b ∈ bs, convert b.2.1 = .ok b.1) ∧
        bs.map Bound.wire = result := by
  induction bindings generalizing result with
  | nil =>
    simp only [convertBindings, Except.ok.injEq, map_eq_nil_iff]
    constructor
    · rintro rfl
      exact ⟨[], rfl, by simp, rfl⟩
    · rintro ⟨bs, rfl, -, rfl⟩
      rfl
  | cons binding bindings ih =>
    obtain ⟨id, ty⟩ := binding
    simp only [convertBindings, Lib.bind_ok, pure, Except.pure, Except.ok.injEq]
    constructor
    · rintro ⟨reference, href, rest, hrest, rfl⟩
      obtain ⟨bs, hkeys, hconv, hwire⟩ := ih.mp hrest
      refine ⟨(reference, id, ty) :: bs, by simp [hkeys], ?_, by simp [hwire, Bound.wire]⟩
      intro b hb
      rcases mem_cons.mp hb with rfl | hb
      · exact href
      · exact hconv b hb
    · rintro ⟨bs, hkeys, hconv, rfl⟩
      obtain _ | ⟨⟨reference, id', ty'⟩, bs⟩ := bs
      · cases hkeys
      · simp only [map_cons, cons.injEq, Prod.mk.injEq] at hkeys
        obtain ⟨⟨rfl, rfl⟩, hkeys⟩ := hkeys
        exact ⟨reference, hconv _ mem_cons_self, bs.map Bound.wire,
          ih.mpr ⟨bs, hkeys, fun b hb => hconv b (mem_cons_of_mem _ hb), rfl⟩, rfl⟩

/-- A sorted list without equal neighbours is strictly sorted, and the other way round. -/
theorem adjacentEqual_false {l : List (PortableDefinitionRef × Ty)}
    (hsrtd : (l.map Prod.fst).Pairwise (· ≤ ·)) :
    adjacentEqual l = false ↔ (l.map Prod.fst).Pairwise (· < ·) := by
  induction l with
  | nil => simp [adjacentEqual]
  | cons a l ih =>
    obtain _ | ⟨b, l⟩ := l
    · simp [adjacentEqual]
    · have htail : ((b :: l).map Prod.fst).Pairwise (· ≤ ·) := (pairwise_cons.mp hsrtd).2
      have hhead := (pairwise_cons.mp hsrtd).1
      simp only [adjacentEqual, Bool.or_eq_false_iff, beq_eq_false_iff_ne, ih htail]
      constructor
      · rintro ⟨hne, hstrc⟩
        have hab : a.1 < b.1 := lt_of_le_of_ne (hhead b.1 (by simp)) hne
        refine pairwise_cons.mpr ⟨fun x hx => ?_, hstrc⟩
        rcases mem_cons.mp hx with rfl | hx
        · exact hab
        · exact lt_trans hab ((pairwise_cons.mp hstrc).1 x hx)
      · intro hstrc
        obtain ⟨hlt, hrest⟩ := pairwise_cons.mp hstrc
        exact ⟨ne_of_lt (hlt b.1 (by simp)), hrest⟩

private theorem sorted_le (bs : List Bound) :
    ((bs.insertionSort (fun l r => l.1 ≤ r.1)).map Prod.fst).Pairwise (· ≤ ·) := by
  have : IsTrans Bound (fun l r => l.1 ≤ r.1) := ⟨fun _ _ _ h h' => le_trans h h'⟩
  have : Std.Total (fun l r : Bound => l.1 ≤ r.1) := ⟨fun a b => le_total a.1 b.1⟩
  exact pairwise_map.mpr (pairwise_insertionSort (fun l r : Bound => l.1 ≤ r.1) bs)

/-- Sorting by reference is strict where the references are distinct. -/
theorem sorted_lt {bs : List Bound} (h : (bs.map Prod.fst).Nodup) :
    ((bs.insertionSort (fun l r => l.1 ≤ r.1)).map Prod.fst).Pairwise (· < ·) := by
  have hnd : ((bs.insertionSort (fun l r => l.1 ≤ r.1)).map Prod.fst).Nodup :=
    ((perm_insertionSort _ _).map Prod.fst).nodup_iff.mpr h
  exact (sorted_le _).imp₂ (fun _ _ hle hne => lt_of_le_of_ne hle hne) hnd

/-- `ordered_bindings` lists the bindings by strictly increasing reference. -/
theorem orderedBindings_ok
    :
    orderedBindings convert bindings = .ok result ↔
      ∃ bs : List Bound, (bs.map Prod.snd).Perm bindings ∧ (∀ b ∈ bs, convert b.2.1 = .ok b.1) ∧
        (bs.map Prod.fst).Pairwise (· < ·) ∧ bs.map Bound.wire = result := by
  have hsort : ∀ bs : List Bound, ((bs.map Bound.wire).insertionSort (fun l r => l.1 ≤ r.1)) =
      (bs.insertionSort (fun l r => l.1 ≤ r.1)).map Bound.wire := by
    intro bs
    exact (map_insertionSort _ _ Bound.wire bs (fun a _ b _ => Iff.rfl)).symm
  have hfst : ∀ bs : List Bound, (bs.map Bound.wire).map Prod.fst = bs.map Prod.fst := by
    intro bs
    simp [Bound.wire, comp_def]
  simp only [orderedBindings, Lib.bind_ok, convertBindings_ok]
  constructor
  · rintro ⟨_, ⟨bs, hkeys, hconv, rfl⟩, hchk⟩
    rw [hsort] at hchk
    split at hchk
    · cases hchk
    · rename_i hadj
      have hperm : (bs.insertionSort (fun l r => l.1 ≤ r.1)).Perm bs := perm_insertionSort _ bs
      refine ⟨bs.insertionSort (fun l r => l.1 ≤ r.1), hkeys ▸ hperm.map Prod.snd,
        fun b hb => hconv b (hperm.mem_iff.mp hb), ?_, by simpa [pure, Except.pure] using hchk⟩
      rw [← hfst]
      refine (adjacentEqual_false ?_).mp (by simpa using hadj)
      rw [hfst]
      exact sorted_le bs
  · rintro ⟨bs, hperm, hconv, hstrc, rfl⟩
    -- the listed bindings in key order: every reference is a function of its key
    let ref : DefinitionId → PortableDefinitionRef := fun id =>
      match convert id with
      | .ok r => r
      | .error _ => 0
    have hself : bs = (bs.map Prod.snd).map (fun p => (ref p.1, p)) := by
      rw [map_map]
      refine (map_id bs).symm.trans (map_congr_left (fun b hb => ?_))
      simp [ref, hconv b hb]
    have hp : (bindings.map (fun p => (ref p.1, p))).Perm bs := by
      conv_rhs => rw [hself]
      exact (hperm.map _).symm
    refine ⟨_, ⟨bindings.map (fun p => (ref p.1, p)), by simp [comp_def],
      fun b hb => hconv b (hp.mem_iff.mp hb), rfl⟩, ?_⟩
    have heq : (bindings.map (fun p => (ref p.1, p))).insertionSort (fun l r => l.1 ≤ r.1) = bs := by
      refine Lib.SortedMap.eq_of_perm (sorted_lt ?_) hstrc ((perm_insertionSort _ _).trans hp)
      exact (hp.map Prod.fst).nodup_iff.mpr (hstrc.imp (fun h => ne_of_lt h))
    rw [hsort, heq, if_neg]
    · rfl
    · rw [Bool.not_eq_true, adjacentEqual_false]
      · rwa [hfst]
      · rw [hfst]
        exact hstrc.imp (fun h => le_of_lt h)

/-- Bindings whose keys are distinct and known are listed. -/
theorem orderedBindings_of_known
    (hkeys : (bindings.map Prod.fst).Nodup)
    (hkn : ∀ b ∈ bindings, ∃ r, convert b.1 = .ok r)
    (hinj : ∀ id id' r, convert id = .ok r → convert id' = .ok r → id = id') :
    ∃ result, orderedBindings convert bindings = .ok result := by
  let ref : DefinitionId → PortableDefinitionRef := fun id =>
    match convert id with
    | .ok r => r
    | .error _ => 0
  have href : ∀ b ∈ bindings, convert b.1 = .ok (ref b.1) := by
    intro b hb
    obtain ⟨r, hr⟩ := hkn b hb
    simp [ref, hr]
  let bs : List Bound := bindings.map (fun p => (ref p.1, p))
  have hsnd : bs.map Prod.snd = bindings := by simp [bs, comp_def]
  have hnd : (bs.map Prod.fst).Nodup := by
    have hfst : bs.map Prod.fst = (bindings.map Prod.fst).map ref := by
      simp [bs, comp_def]
    rw [hfst]
    refine List.Nodup.map_on (fun x hx y hy hxy => ?_) hkeys
    obtain ⟨b, hb, rfl⟩ := mem_map.mp hx
    obtain ⟨b', hb', rfl⟩ := mem_map.mp hy
    exact hinj _ _ _ (href b hb) (hxy ▸ href b' hb')
  have hperm := perm_insertionSort (fun l r : Bound => l.1 ≤ r.1) bs
  refine ⟨(bs.insertionSort (fun l r => l.1 ≤ r.1)).map Bound.wire, orderedBindings_ok.mpr
    ⟨_, hsnd ▸ hperm.map Prod.snd, fun b hb => ?_, sorted_lt hnd, rfl⟩⟩
  obtain ⟨p, hp, rfl⟩ := mem_map.mp (hperm.mem_iff.mp hb)
  exact href p hp

theorem orderedBindings_length
    (h : orderedBindings convert bindings = .ok result) : result.length = bindings.length := by
  obtain ⟨bs, hperm, -, -, rfl⟩ := orderedBindings_ok.mp h
  simpa using hperm.length_eq

end Bindings

/-! ## The stack and its nodes -/

variable {node : WireNode} {nodes : List WireNode}

section Flat

variable (convert : DefinitionId → Except IdentityTransformError PortableDefinitionRef)

/-- The nodes the encoder's loop writes for a stack. -/
inductive Flat : List (Ty × Nat) → List WireNode → Prop
  | nil : Flat [] []
  | cons {ty : Ty} {depth : Nat} {pending : List (Ty × Nat)} {node : WireNode} {kids : List Ty}
      {nodes : List WireNode} (hdep : depth ≤ maxTypeDepth)
      (hcnt : childCount ty = .ok kids.length) (hnode : wireNode convert ty = .ok (node, kids))
      (hrest : Flat (kids.map (fun k => (k, depth + 1)) ++ pending) nodes) :
      Flat ((ty, depth) :: pending) (node :: nodes)

variable {convert}

variable {pending : List (Ty × Nat)}

variable {ty : Ty} {kids types : List Ty}

/-- One turn of the loop, with the children it pushes. -/
theorem Flat.push {depth : Nat}
    (kids : List Ty) (hdep : depth ≤ maxTypeDepth)
    (hcnt : childCount ty = .ok kids.length) (hnode : wireNode convert ty = .ok (node, kids))
    (hrest : Flat convert (kids.map (fun k => (k, depth + 1)) ++ pending) nodes) :
    Flat convert ((ty, depth) :: pending) (node :: nodes) :=
  .cons hdep hcnt hnode hrest

theorem Flat.length_le
    (h : Flat convert pending nodes) : pending.length ≤ nodes.length := by
  induction h with
  | nil => exact Nat.le_refl _
  | cons _ _ _ _ ih =>
    simp only [length_append, length_map, length_cons] at *
    omega

/-- The budget counts exactly the children that the encoder pushes. -/
theorem childCount_of_wireNode {n : Nat}
    (hnode : wireNode convert ty = .ok (node, kids)) (hcnt : childCount ty = .ok n) :
    childCount ty = .ok kids.length := by
  cases ty with
  | struct nominal | nativeObject nominal | enum nominal =>
    simp only [wireNode, Lib.bind_ok, pure, Except.pure, Except.ok.injEq, Prod.mk.injEq] at hnode
    obtain ⟨id, -, -, rfl⟩ := hnode
    simp only [childCount] at hcnt ⊢
    split at hcnt
    · rw [if_pos ‹_›]
    · cases hcnt
  | trait nominal =>
    simp only [wireNode, Lib.bind_ok, pure, Except.pure, Except.ok.injEq, Prod.mk.injEq] at hnode
    obtain ⟨bindings, hb, id, -, -, rfl⟩ := hnode
    simp [childCount, nominalChildren, orderedBindings_length hb]
  | projection arguments receiver interface member =>
    simp only [wireNode, Lib.bind_ok, pure, Except.pure, Except.ok.injEq, Prod.mk.injEq] at hnode
    obtain ⟨bindings, hb, _, -, _, -, -, rfl⟩ := hnode
    simp [childCount, nominalChildren, orderedBindings_length hb]
    omega
  | _ =>
    simp only [wireNode, Lib.bind_ok, pure, Except.pure, Except.ok.injEq, Prod.mk.injEq] at hnode
    grind [childCount]

/-- What the loop returns is the flattening of its stack, behind the nodes already written. -/
theorem wireLoop_ok {cancel : CancellationToken} {fuel visited : Nat}
    {acc out : List WireNode} (h : wireLoop convert cancel fuel pending acc visited = .ok out) :
    ∃ nodes, Flat convert pending nodes ∧ out = acc ++ nodes := by
  induction fuel generalizing pending acc visited with
  | zero =>
    cases pending with
    | nil => exact ⟨[], .nil, by simpa [wireLoop] using h.symm⟩
    | cons p pending => simp [wireLoop, Lib.bind_ok] at h
  | succ fuel ih =>
    cases pending with
    | nil => exact ⟨[], .nil, by simpa [wireLoop] using h.symm⟩
    | cons p pending =>
      obtain ⟨ty, depth⟩ := p
      simp only [wireLoop, Lib.bind_ok, liftTypeError_ok] at h
      obtain ⟨_, -, visited', hen, ⟨node, kids⟩, hnode, h⟩ := h
      split at h
      · cases h
      · obtain ⟨nodes, hflat, rfl⟩ := ih h
        obtain ⟨hdep, -, n, hcnt, -⟩ := enter_ok.mp hen
        exact ⟨node :: nodes, .cons hdep (childCount_of_wireNode hnode hcnt) hnode hflat,
          by simp⟩

/-- A stack whose flattening fits the limit is written out, whatever stands before it. -/
theorem wireLoop_of_flat {fuel visited : Nat} {acc nodes : List WireNode}
    (h : Flat convert pending nodes) (hvisited : acc.length = visited)
    (hfuel : visited + fuel = maxTypeNodes) (hfit : acc.length + nodes.length ≤ maxTypeNodes) :
    wireLoop convert false fuel pending acc visited = .ok (acc ++ nodes) := by
  induction h generalizing fuel visited acc with
  | nil => cases fuel <;> simp [wireLoop]
  | @cons ty depth pending node kids nodes hdep hcnt hnode hrest ih =>
    have hlen := hrest.length_le
    simp only [length_append, length_map, length_cons] at hlen hfit
    cases fuel with
    | zero => omega
    | succ fuel =>
      have hen : enter visited ty depth = .ok (visited + 1) :=
        enter_ok.mpr ⟨hdep, rfl, kids.length, hcnt, by omega⟩
      have hrun : wireLoop convert false fuel (kids.map (fun k => (k, depth + 1)) ++ pending)
          (acc ++ [node]) (visited + 1) = .ok (acc ++ [node] ++ nodes) := by
        apply ih
        · simp [hvisited]
        · omega
        · simp only [length_append, length_singleton]
          omega
      simp only [wireLoop, liftTypeError_checkCancel, liftTypeError_ok.mpr hen, hnode, Lib.ok_bind]
      rw [if_neg]
      · rw [hrun]
        simp
      · simp only [length_append, length_map, length_singleton]
        omega

/-! ## Shapes -/

/-- A type whose flattening has `n` nodes, wherever on the stack it stands. -/
def FlatTy (convert : DefinitionId → Except IdentityTransformError PortableDefinitionRef)
    (depth : Nat) (ty : Ty) (n : Nat) : Prop :=
  ∃ ms : List WireNode, ms.length = n ∧ ∀ pending nodes, Flat convert pending nodes →
    Flat convert ((ty, depth) :: pending) (ms ++ nodes)

/-- Types with `n` nodes together, where `P` counts the nodes of one. -/
inductive Summed (P : Ty → Nat → Prop) : List Ty → Nat → Prop
  | nil : Summed P [] 0
  | cons {ty : Ty} {types : List Ty} {n m : Nat} : P ty n → Summed P types m →
      Summed P (ty :: types) (n + m)

/-- The order of the types does not change their number of nodes. -/
theorem Summed.perm {P : Ty → Nat → Prop} {n : Nat} {types types' : List Ty}
    (hp : types.Perm types') (h : Summed P types n) : Summed P types' n := by
  induction hp generalizing n with
  | nil => exact h
  | cons ty _ ih =>
    cases h with
    | cons hty hrest => exact .cons hty (ih hrest)
  | swap a b l =>
    cases h with
    | @cons _ _ n _ hb hrest =>
      cases hrest with
      | @cons _ _ m k ha hrest =>
        have : n + (m + k) = m + (n + k) := by omega
        rw [this]
        exact .cons ha (.cons hb hrest)
  | trans _ _ ih ih' => exact ih' (ih h)

theorem Summed.flat {depth n : Nat}
    (h : Summed (FlatTy convert depth) types n) :
    ∃ ms : List WireNode, ms.length = n ∧ ∀ pending nodes, Flat convert pending nodes →
      Flat convert (types.map (fun ty => (ty, depth)) ++ pending) (ms ++ nodes) := by
  induction h with
  | nil => exact ⟨[], rfl, fun _ _ h => h⟩
  | cons hty _ ih =>
    obtain ⟨ms, rfl, hms⟩ := hty
    obtain ⟨ms', rfl, hms'⟩ := ih
    refine ⟨ms ++ ms', by simp, fun pending nodes hflat => ?_⟩
    rw [append_assoc]
    exact hms _ _ (hms' _ _ hflat)

/-- `visit` is `enter`, then the children in order. -/
theorem visit_eq (cancel : CancellationToken) (visited depth : Nat) (ty : Ty) :
    visit cancel visited ty depth = (do
      checkCancel cancel
      let visited ← enter visited ty depth
      visitAll cancel visited ty.kids (depth + 1)) := by
  have hnom : ∀ (v : Nat) (nominal : NominalTy), visitNominal cancel v nominal (depth + 1) =
      visitAll cancel v nominal.kids (depth + 1) := by
    intro v nominal
    obtain ⟨d, arguments, bindings⟩ := nominal
    simp only [visitNominal, visitBindings_eq, Nominal.kids, visitAll_append]
  have hsing : ∀ (v : Nat) (t : Ty), visitAll cancel v [t] (depth + 1) =
      visit cancel v t (depth + 1) := by
    intro v t
    simp only [visitAll]
    cases visit cancel v t (depth + 1) <;> rfl
  have hcons : ∀ (v : Nat) (t : Ty) (ts : List Ty), visitAll cancel v (t :: ts) (depth + 1) =
      visit cancel v t (depth + 1) >>= fun v => visitAll cancel v ts (depth + 1) := by
    intro v t ts
    simp only [visitAll]
  rw [visit]
  cases ty with
  | map key value access => simp only [Ty.kids, hcons _ key, hsing]
  | projection arguments receiver interface member =>
    simp only [Ty.kids, hcons _ receiver, visitAll_append, hnom]
  | host | selfType | parameter | builtin => rfl
  | _ => simp only [Ty.kids, visitAll_append, hnom, hsing]

/-- A type whose definitions are all known has a node. -/
theorem wireNode_of_known
    (hkn : ∀ id ∈ ty.definitions, ∃ r, convert id = .ok r)
    (hinj : ∀ id id' r, convert id = .ok r → convert id' = .ok r → id = id') (ho : ty.Ordered) :
    ∃ node kids, wireNode convert ty = .ok (node, kids) := by
  have hbnds : ∀ nominal : NominalTy, Ty.OrderedNominal nominal →
      (∀ id ∈ Ty.definitionsNominal nominal, ∃ r, convert id = .ok r) →
      ∃ bs, orderedBindings convert nominal.associatedTypes = .ok bs := by
    rintro ⟨d, arguments, bindings⟩ hord hdefs
    refine orderedBindings_of_known hord.2.1.nodup (fun b hb => hdefs b.1 ?_) hinj
    simp only [Ty.definitionsNominal, Ty.definitionsBindings_eq, mem_cons, mem_append,
      mem_flatMap]
    exact .inr (.inr ⟨b, hb, .inl rfl⟩)
  cases ty with
  | struct nominal | nativeObject nominal | enum nominal =>
    obtain ⟨d, arguments, bindings⟩ := nominal
    obtain ⟨r, hr⟩ := hkn d (by simp [Ty.definitions, Ty.definitionsNominal])
    simp [wireNode, hr, pure, Except.pure]
  | trait nominal =>
    obtain ⟨bs, hbs⟩ := hbnds nominal ho hkn
    obtain ⟨r, hr⟩ := hkn nominal.declaration
      (by cases nominal; simp [Ty.definitions, Ty.definitionsNominal])
    simp [wireNode, hbs, hr, pure, Except.pure]
  | projection arguments receiver interface member =>
    simp only [Ty.definitions, mem_append, mem_singleton] at hkn
    obtain ⟨bs, hbs⟩ := hbnds interface ho.2.2 (fun id hid => hkn id (by simp [hid]))
    obtain ⟨r, hr⟩ := hkn member (by simp)
    obtain ⟨r', hr'⟩ := hkn interface.declaration
      (by cases interface; simp [Ty.definitionsNominal])
    simp [wireNode, hbs, hr, hr', pure, Except.pure]
  | host id | selfType id | parameter owner position =>
    obtain ⟨r, hr⟩ := hkn _ (mem_singleton.mpr rfl)
    simp [wireNode, hr, pure, Except.pure]
  | _ => simp [wireNode, pure, Except.pure]

/-- The children the encoder pushes are the type's own, in another order. -/
theorem kids_perm_of_wireNode
    (hnode : wireNode convert ty = .ok (node, kids)) (hcnt : childCount ty = .ok kids.length) :
    kids.Perm ty.kids := by
  have hbnds : ∀ {bindings : List (DefinitionId × Ty)} {wire : List (PortableDefinitionRef × Ty)},
      orderedBindings convert bindings = .ok wire →
      (wire.map Prod.snd).Perm (bindings.map Prod.snd) := by
    intro bindings wire h
    obtain ⟨bs, hperm, -, -, rfl⟩ := orderedBindings_ok.mp h
    simpa [Bound.wire, comp_def] using hperm.map Prod.snd
  cases ty with
  | struct nominal | nativeObject nominal | enum nominal =>
    simp only [wireNode, Lib.bind_ok, pure, Except.pure, Except.ok.injEq, Prod.mk.injEq] at hnode
    obtain ⟨id, -, -, rfl⟩ := hnode
    simp only [childCount] at hcnt
    split at hcnt
    · rename_i hemp
      simp [Ty.kids, Nominal.kids, isEmpty_iff.mp hemp]
    · cases hcnt
  | trait nominal =>
    simp only [wireNode, Lib.bind_ok, pure, Except.pure, Except.ok.injEq, Prod.mk.injEq] at hnode
    obtain ⟨wire, hwire, id, -, -, rfl⟩ := hnode
    exact (hbnds hwire).append_left _
  | projection arguments receiver interface member =>
    simp only [wireNode, Lib.bind_ok, pure, Except.pure, Except.ok.injEq, Prod.mk.injEq] at hnode
    obtain ⟨wire, hwire, _, -, _, -, -, rfl⟩ := hnode
    exact (((hbnds hwire).append_left _).append_right _).cons _
  | _ =>
    simp only [wireNode, Lib.bind_ok, pure, Except.pure, Except.ok.injEq, Prod.mk.injEq] at hnode
    grind [Ty.kids]

/-- A shape that the traversal accepts flattens, to as many nodes as were counted. -/
theorem flatTy_of_visit (hinj : ∀ id id' r, convert id = .ok r → convert id' = .ok r → id = id')
    (ty : Ty) : ∀ {visited visited' depth : Nat}, ty.Ordered →
      (∀ id ∈ ty.definitions, ∃ r, convert id = .ok r) →
      visit false visited ty depth = .ok visited' →
      visited' ≤ maxTypeNodes ∧ ∃ n, visited' = visited + n ∧ FlatTy convert depth ty n := by
  induction ty using Ty.kids_induction with
  | step ty ih =>
    intro visited visited' depth ho hkn hvis
    have hall : ∀ (kids : List Ty), (∀ k ∈ kids, k ∈ ty.kids) → ∀ {v v' : Nat},
        visitAll false v kids (depth + 1) = .ok v' → v ≤ maxTypeNodes →
        v' ≤ maxTypeNodes ∧ ∃ n, v' = v + n ∧ Summed (FlatTy convert (depth + 1)) kids n := by
      intro kids
      induction kids with
      | nil =>
        intro _ v v' h hv
        simp only [visitAll, Except.ok.injEq] at h
        exact ⟨h ▸ hv, 0, h.symm, .nil⟩
      | cons k kids ihk =>
        intro hmem v v' h hv
        simp only [visitAll, Lib.bind_ok] at h
        obtain ⟨w, hw, h⟩ := h
        have hk := hmem k mem_cons_self
        obtain ⟨hw, n, rfl, hn⟩ := ih k hk (ty.ordered_kid hk ho)
          (fun id hid => hkn id (Ty.definitions_kid hk hid)) hw
        obtain ⟨hv', m, rfl, hm⟩ := ihk (fun k hk => hmem k (mem_cons_of_mem _ hk)) h hw
        exact ⟨hv', n + m, by omega, .cons hn hm⟩
    simp only [visit_eq, checkCancel, Lib.bind_ok] at hvis
    obtain ⟨_, -, v, hen, hkids⟩ := hvis
    obtain ⟨hdep, rfl, n, hcnt, hfit⟩ := enter_ok.mp hen
    obtain ⟨hv', m, rfl, hm⟩ := hall ty.kids (fun _ h => h) hkids (by omega)
    obtain ⟨node, kids, hnode⟩ := wireNode_of_known hkn hinj ho
    have hcnt' := childCount_of_wireNode hnode hcnt
    obtain ⟨ms, rfl, hms⟩ := (hm.perm (kids_perm_of_wireNode hnode hcnt').symm).flat
    refine ⟨hv', ms.length + 1, by omega, node :: ms, by simp, fun pending nodes hflat => ?_⟩
    exact .cons hdep hcnt' hnode (hms _ _ hflat)

/-- The traversal counts `n` nodes below and at the type, as long as they fit. -/
def VisitsTo (depth : Nat) (ty : Ty) (n : Nat) : Prop :=
  1 ≤ n ∧ ∀ visited, visited + n ≤ maxTypeNodes → visit false visited ty depth = .ok (visited + n)

theorem Summed.visitAll {depth n : Nat} (h : Summed (VisitsTo depth) types n) :
    types.length ≤ n ∧ ∀ visited, visited + n ≤ maxTypeNodes →
      visitAll false visited types depth = .ok (visited + n) := by
  induction h with
  | nil => exact ⟨Nat.le_refl _, fun _ _ => rfl⟩
  | @cons ty types n m hty _ ih =>
    obtain ⟨hpos, hvis⟩ := hty
    obtain ⟨hlen, hall⟩ := ih
    refine ⟨by simp only [length_cons]; omega, fun visited hfit => ?_⟩
    simp only [ShapeBudget.visitAll, hvis visited (by omega), Lib.ok_bind]
    rw [hall _ (by omega)]
    congr 1
    omega

/-- The traversal accepts what flattens, and counts its nodes. -/
theorem visit_of_flat (ty : Ty) : ∀ {depth : Nat} {pending : List (Ty × Nat)}
    {nodes : List WireNode}, Flat convert ((ty, depth) :: pending) nodes →
    ∃ n rest, nodes.length = n + rest.length ∧ Flat convert pending rest ∧
      VisitsTo depth ty n := by
  induction ty using Ty.kids_induction with
  | step ty ih =>
    intro depth pending nodes h
    have hall : ∀ (kids : List Ty), (∀ k ∈ kids, k ∈ ty.kids) → ∀ {nodes : List WireNode},
        Flat convert (kids.map (fun k => (k, depth + 1)) ++ pending) nodes →
        ∃ n rest, nodes.length = n + rest.length ∧ Flat convert pending rest ∧
          Summed (VisitsTo (depth + 1)) kids n := by
      intro kids
      induction kids with
      | nil => exact fun _ nodes h => ⟨0, nodes, by simp, h, .nil⟩
      | cons k kids ihk =>
        intro hmem nodes h
        obtain ⟨n, mid, hlen, hmid, hk⟩ := ih k (hmem k mem_cons_self) h
        obtain ⟨m, rest, hlen', hrest, hks⟩ :=
          ihk (fun k hk => hmem k (mem_cons_of_mem _ hk)) hmid
        exact ⟨n + m, rest, by omega, hrest, .cons hk hks⟩
    cases h with
    | @cons _ _ _ node kids nodes hdep hcnt hnode hrest =>
      have hperm := kids_perm_of_wireNode hnode hcnt
      obtain ⟨n, rest, hlen, hflat, hkids⟩ := hall kids (fun k hk => hperm.mem_iff.mp hk) hrest
      obtain ⟨hle, hvis⟩ := (hkids.perm hperm).visitAll
      refine ⟨n + 1, rest, by simp only [length_cons]; omega, hflat, by omega,
        fun visited hfit => ?_⟩
      have hen : enter visited ty depth = .ok (visited + 1) :=
        enter_ok.mpr ⟨hdep, rfl, kids.length, hcnt, by rw [← hperm.length_eq] at hle; omega⟩
      rw [visit_eq, hen]
      simp only [checkCancel, Bool.false_eq_true, if_false, Lib.ok_bind]
      rw [hvis _ (by omega)]
      congr 1
      omega

end Flat

end Kagari
