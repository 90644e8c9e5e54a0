import Kagari.Types.Order
import Kagari.Types.Remap

/-!
# The canonical order is an order of types

The portable tree determines the type, and is the same over every table into which the type is imported:
`map_definitions` of `kagari-types/src/ty/identity.rs` replaces the definitions and puts the bindings in
the order of the new ones.
-/

namespace Kagari

open Lib Identity Function List

/-! ## The tree determines the type -/

/-- The nominal types directly in a type. -/
def Ty.nominals : Ty → List NominalTy
  | .projection _ _ interface _ => [interface]
  | .struct nominal | .nativeObject nominal | .enum nominal | .trait nominal => [nominal]
  | _ => []

variable {n : NominalTy} {ty : Ty}

theorem Ty.definitions_nominal (h : n ∈ ty.nominals) :
    Ty.definitionsNominal n ⊆ ty.definitions := by
  cases ty <;> simp only [Ty.nominals, mem_singleton, not_mem_nil] at h
  all_goals subst h
  case projection arguments receiver member =>
    intro id hid
    simp only [Ty.definitions, mem_append]
    exact .inl (.inl (.inr hid))
  all_goals exact fun id hid => hid

theorem Ty.kids_nominal {ty k : Ty} (h : n ∈ ty.nominals) (hk : k ∈ n.kids) : k ∈ ty.kids := by
  cases ty <;> simp only [Ty.nominals, mem_singleton, not_mem_nil] at h
  all_goals subst h
  case projection arguments receiver member =>
    simp only [Ty.kids, mem_cons, mem_append]
    simp [hk]
  all_goals exact hk

theorem Ty.ordered_nominal (h : n ∈ ty.nominals) (ho : ty.Ordered) :
    Ty.OrderedNominal n := by
  cases ty <;> simp only [Ty.nominals, mem_singleton, not_mem_nil] at h
  all_goals subst h
  case projection arguments receiver member => exact ho.2.2
  all_goals exact ho

theorem BuiltinType.ctorIdx_injective : Injective BuiltinType.ctorIdx := by
  intro a b h
  cases a <;> cases b <;> first | rfl | cases h

theorem RangeKind.ctorIdx_injective : Injective RangeKind.ctorIdx := by
  intro a b h
  cases a <;> cases b <;> first | rfl | cases h

theorem CollectionAccess.ctorIdx_injective : Injective CollectionAccess.ctorIdx := by
  intro a b h
  cases a <;> cases b <;> first | rfl | cases h

theorem ReferenceAccess.ctorIdx_injective : Injective ReferenceAccess.ctorIdx := by
  intro a b h
  cases a <;> cases b <;> first | rfl | cases h

theorem map_inj_on {α β : Type} {f : α → β} {l l' : List α}
    (hf : ∀ a ∈ l, ∀ b ∈ l', f a = f b → a = b) (h : l.map f = l'.map f) : l = l' := by
  induction l generalizing l' with
  | nil => cases l' with
    | nil => rfl
    | cons b l' => cases h
  | cons a l ih =>
    cases l' with
    | nil => cases h
    | cons b l' =>
      obtain ⟨hab, htail⟩ := cons.inj h
      rw [hf a mem_cons_self b mem_cons_self hab,
        ih (fun a ha b hb => hf a (mem_cons_of_mem _ ha) b (mem_cons_of_mem _ hb)) htail]

section Injective

variable {K : Type} {label : DefinitionId → K} {arrange : List (TypeTree K) → List (TypeTree K)}
  {ids : List DefinitionId} {Allowed : NominalTy → Prop}

open TypeTree

theorem number_inj {m n : Nat} {as bs : List (TypeTree K)} (h : number m as = number n bs) :
    m = n ∧ as = bs := by
  obtain ⟨hlbl, hkids⟩ := Rose.node.inj h
  exact ⟨Sum.inl.inj (toLex.injective hlbl), hkids⟩

theorem labeled_inj {k l : K} {as bs : List (TypeTree K)} (h : labeled k as = labeled l bs) :
    k = l ∧ as = bs := by
  obtain ⟨hlbl, hkids⟩ := Rose.node.inj h
  exact ⟨Sum.inr.inj (toLex.injective hlbl), hkids⟩

/-- Arranging loses nothing of the bindings of the allowed nominal types. -/
def Faithful (arrange : List (TypeTree K) → List (TypeTree K)) (label : DefinitionId → K)
    (Allowed : NominalTy → Prop) (tree : Ty → TypeTree K) : Prop :=
  ∀ n n', Allowed n → Allowed n' →
    (∀ b ∈ n.associatedTypes, ∀ b' ∈ n'.associatedTypes,
      labeled (label b.1) [tree b.2] = labeled (label b'.1) [tree b'.2] → b = b') →
    arrange (n.associatedTypes.map fun b => labeled (label b.1) [tree b.2]) =
      arrange (n'.associatedTypes.map fun b => labeled (label b.1) [tree b.2]) →
    n.associatedTypes = n'.associatedTypes

/-- A property of types that their parts have, and that allows their nominal types. -/
structure Hereditary (P : Ty → Prop) (Allowed : NominalTy → Prop) : Prop where
  kid : ∀ {ty k : Ty}, k ∈ ty.kids → P ty → P k
  nominal : ∀ {ty : Ty} {n : NominalTy}, n ∈ ty.nominals → P ty → Allowed n

variable (hfaith : Faithful arrange label Allowed (Ty.tree label arrange))
  (hlbl : Separates label ids)

include hfaith hlbl

theorem Ty.treeNominal_injective {left right : NominalTy} (hleft : Ty.definitionsNominal left ⊆ ids)
    (hrt : Ty.definitionsNominal right ⊆ ids) (haleft : Allowed left) (haright : Allowed right)
    (h : ∀ l ∈ left.kids, ∀ r ∈ right.kids, l.tree label arrange = r.tree label arrange → l = r)
    (heq : Ty.treeNominal label arrange left = Ty.treeNominal label arrange right) : left = right := by
  obtain ⟨ld, las, lbs⟩ := left
  obtain ⟨rd, ras, rbs⟩ := right
  simp only [Ty.treeNominal, Ty.treeAll_eq, Ty.treeBindings_eq] at heq
  obtain ⟨hd, hkids⟩ := labeled_inj heq
  simp only [cons.injEq, and_true] at hkids
  obtain ⟨has, hbs⟩ := hkids
  have hids : ∀ {n : NominalTy} {b : DefinitionId × Ty}, Ty.definitionsNominal n ⊆ ids →
      b ∈ n.associatedTypes → b.1 ∈ ids := by
    rintro ⟨d, as, bs⟩ b hn hb
    refine hn ?_
    simp only [Ty.definitionsNominal, Ty.definitionsAll_eq, Ty.definitionsBindings_eq, mem_cons,
      mem_append, mem_flatMap]
    exact .inr (.inr ⟨b, hb, .inl rfl⟩)
  have hmembers : las = ras := map_inj_on
    (fun l hl r hr => h l (mem_append_left _ hl) r (mem_append_left _ hr)) (number_inj has).2
  have hdecl : ld = rd :=
    hlbl ld (hleft mem_cons_self) rd (hrt mem_cons_self) hd
  have hbnds : lbs = rbs := by
    refine hfaith _ _ haleft haright (fun b hb b' hb' heq => ?_) (number_inj hbs).2
    obtain ⟨hkey, hval⟩ := labeled_inj heq
    exact Prod.ext (hlbl b.1 (hids hleft hb) b'.1 (hids hrt hb') hkey)
      (h b.2 (mem_append_right _ (mem_map_of_mem hb)) b'.2
        (mem_append_right _ (mem_map_of_mem hb')) (cons.inj hval).1)
  rw [hdecl, hmembers, hbnds]

/-- Types with one tree are equal. -/
theorem Ty.tree_injective {P : Ty → Prop} (hP : Hereditary P Allowed) (left : Ty) :
    ∀ {right : Ty}, left.definitions ⊆ ids → right.definitions ⊆ ids → P left → P right →
      left.tree label arrange = right.tree label arrange → left = right := by
  induction left using Ty.kids_induction with
  | step left ih =>
    intro right hleft hrt hpleft hpright heq
    have hkid : ∀ l ∈ left.kids, ∀ r ∈ right.kids, l.tree label arrange = r.tree label arrange → l = r :=
      fun l hl r hr => ih l hl (List.Subset.trans (Ty.definitions_kid hl) hleft)
        (List.Subset.trans (Ty.definitions_kid hr) hrt)
        (hP.kid hl hpleft) (hP.kid hr hpright)
    have hnom : ∀ l ∈ left.nominals, ∀ r ∈ right.nominals,
        Ty.treeNominal label arrange l = Ty.treeNominal label arrange r → l = r := fun l hl r hr =>
      Ty.treeNominal_injective hfaith hlbl (List.Subset.trans (Ty.definitions_nominal hl) hleft)
        (List.Subset.trans (Ty.definitions_nominal hr) hrt) (hP.nominal hl hpleft) (hP.nominal hr hpright)
        fun k hk k' hk' => hkid k (Ty.kids_nominal hl hk) k' (Ty.kids_nominal hr hk')
    have hdefn : ∀ id ∈ left.definitions, ∀ id' ∈ right.definitions, label id = label id' → id = id' :=
      fun id hid id' hid' => hlbl id (hleft hid) id' (hrt hid')
    have hmany : ∀ {ts us : List Ty}, ts ⊆ left.kids → us ⊆ right.kids →
        ts.map (Ty.tree label arrange) = us.map (Ty.tree label arrange) → ts = us :=
      fun hts hus => map_inj_on fun t ht u hu => hkid t (hts ht) u (hus hu)
    have hrank : left.rank = right.rank := by
      obtain ⟨lkids, hltree⟩ := left.tree_rank label arrange
      obtain ⟨rkids, hrtree⟩ := right.tree_rank label arrange
      rw [hltree, hrtree] at heq
      exact (number_inj heq).1
    cases left with
    | projection las lr li lm =>
      cases right with
      | projection ras rr ri rm =>
        simp only [Ty.tree, Ty.treeAll_eq] at heq
        obtain ⟨has, hrest⟩ := cons.inj (number_inj heq).2
        obtain ⟨hr, hrest⟩ := cons.inj hrest
        obtain ⟨hi, hrest⟩ := cons.inj hrest
        obtain ⟨hm, -⟩ := cons.inj hrest
        rw [hmany (by simp [Ty.kids]) (by simp [Ty.kids]) (number_inj has).2,
          hkid lr (by simp [Ty.kids]) rr (by simp [Ty.kids]) hr,
          hnom li (by simp [Ty.nominals]) ri (by simp [Ty.nominals]) hi,
          hdefn lm (by simp [Ty.definitions]) rm (by simp [Ty.definitions]) (labeled_inj hm).1]
      | _ => cases hrank
    | host l | selfType l =>
      cases right <;> try (cases hrank; done)
      rename_i r
      obtain ⟨hid, -⟩ := cons.inj (number_inj heq).2
      rw [hdefn l (by simp [Ty.definitions]) r (by simp [Ty.definitions]) (labeled_inj hid).1]
    | parameter lo lp =>
      cases right with
      | parameter ro rp =>
        obtain ⟨hid, hrest⟩ := cons.inj (number_inj heq).2
        obtain ⟨hpos, -⟩ := cons.inj hrest
        rw [hdefn lo (by simp [Ty.definitions]) ro (by simp [Ty.definitions]) (labeled_inj hid).1,
          (number_inj hpos).1]
      | _ => cases hrank
    | builtin l =>
      cases right with
      | builtin r =>
        obtain ⟨hidx, -⟩ := cons.inj (number_inj heq).2
        rw [BuiltinType.ctorIdx_injective (number_inj hidx).1]
      | _ => cases hrank
    | tuple ls =>
      cases right with
      | tuple rs =>
        simp only [Ty.tree, Ty.treeAll_eq] at heq
        rw [hmany (by simp [Ty.kids]) (by simp [Ty.kids]) (number_inj heq).2]
      | _ => cases hrank
    | function lps lr =>
      cases right with
      | function rps rr =>
        simp only [Ty.tree, Ty.treeAll_eq] at heq
        obtain ⟨hps, hrest⟩ := cons.inj (number_inj heq).2
        obtain ⟨hr, -⟩ := cons.inj hrest
        rw [hmany (by simp [Ty.kids]) (by simp [Ty.kids]) (number_inj hps).2,
          hkid lr (by simp [Ty.kids]) rr (by simp [Ty.kids]) hr]
      | _ => cases hrank
    | iter l | array l =>
      cases right <;> try (cases hrank; done)
      rename_i r
      obtain ⟨hone, -⟩ := cons.inj (number_inj heq).2
      rw [hkid l (by simp [Ty.kids]) r (by simp [Ty.kids]) hone]
    | range l a =>
      cases right with
      | range r b =>
        obtain ⟨hone, hrest⟩ := cons.inj (number_inj heq).2
        obtain ⟨hidx, -⟩ := cons.inj hrest
        rw [hkid l (by simp [Ty.kids]) r (by simp [Ty.kids]) hone,
          RangeKind.ctorIdx_injective (number_inj hidx).1]
      | _ => cases hrank
    | set l a =>
      cases right with
      | set r b =>
        obtain ⟨hone, hrest⟩ := cons.inj (number_inj heq).2
        obtain ⟨hidx, -⟩ := cons.inj hrest
        rw [hkid l (by simp [Ty.kids]) r (by simp [Ty.kids]) hone,
          CollectionAccess.ctorIdx_injective (number_inj hidx).1]
      | _ => cases hrank
    | reference l a =>
      cases right with
      | reference r b =>
        obtain ⟨hone, hrest⟩ := cons.inj (number_inj heq).2
        obtain ⟨hidx, -⟩ := cons.inj hrest
        rw [hkid l (by simp [Ty.kids]) r (by simp [Ty.kids]) hone,
          ReferenceAccess.ctorIdx_injective (number_inj hidx).1]
      | _ => cases hrank
    | map lk lv a =>
      cases right with
      | map rk rv b =>
        obtain ⟨hk, hrest⟩ := cons.inj (number_inj heq).2
        obtain ⟨hv, hrest⟩ := cons.inj hrest
        obtain ⟨hidx, -⟩ := cons.inj hrest
        rw [hkid lk (by simp [Ty.kids]) rk (by simp [Ty.kids]) hk,
          hkid lv (by simp [Ty.kids]) rv (by simp [Ty.kids]) hv,
          CollectionAccess.ctorIdx_injective (number_inj hidx).1]
      | _ => cases hrank
    | struct l | nativeObject l | enum l | trait l =>
      cases right <;> try (cases hrank; done)
      rename_i r
      obtain ⟨hone, -⟩ := cons.inj (number_inj heq).2
      rw [hnom l (by simp [Ty.nominals]) r (by simp [Ty.nominals]) hone]

end Injective

/-! ## Portable trees -/

section Portable

variable {table : DefinitionTable} {path : DefinitionId → DefinitionPath}

theorem Nominal.keyed (h : Ty.OrderedNominal n) : SortedMap.Keyed n.associatedTypes := by
  obtain ⟨d, as, bs⟩ := n
  exact h.2.1

theorem keys_names (h : Names table path (Ty.definitionsNominal n)) :
    Names table path (n.associatedTypes.map Prod.fst) :=
  h.mono fun _ hid => Nominal.mem_definitions.mpr (.inl (mem_cons_of_mem _ hid))

/-- With its bindings by path, a type is still determined by its tree. -/
theorem Ty.portable_injective (hdist : Distinct table) {left right : Ty}
    (hleft : Names table path left.definitions) (hrt : Names table path right.definitions)
    (holeft : left.Ordered) (horight : right.Ordered) (heq : left.portable path = right.portable path) :
    left = right := by
  have hnms : Names table path (left.definitions ++ right.definitions) := fun id hid =>
    (mem_append.mp hid).elim (hleft id) (hrt id)
  have hfaith : Faithful TypeTree.byLabel path
      (fun n => Ty.OrderedNominal n ∧ Names table path (Ty.definitionsNominal n)) (Ty.portable path) := by
    rintro n n' ⟨ho, hn⟩ ⟨ho', hn'⟩ hinj harranged
    have hnd := (keys_names hn).nodup hdist (Nominal.keyed ho)
    have hnd' := (keys_names hn').nodup hdist (Nominal.keyed ho')
    rw [arranged_eq _ hnd, arranged_eq _ hnd'] at harranged
    have hperm := @sortedBindings_perm path n.associatedTypes
    have hperm' := @sortedBindings_perm path n'.associatedTypes
    have hsrtd := map_inj_on (fun b hb b' hb' => hinj b (hperm.mem_iff.mp hb) b' (hperm'.mem_iff.mp hb'))
      harranged
    refine SortedMap.eq_of_perm (Nominal.keyed ho) (Nominal.keyed ho') (hperm.symm.trans ?_)
    rw [hsrtd]
    exact hperm'
  have hhereditary : Hereditary (fun ty => ty.Ordered ∧ Names table path ty.definitions)
      fun n => Ty.OrderedNominal n ∧ Names table path (Ty.definitionsNominal n) := by
    refine ⟨fun hk h => ⟨Ty.ordered_kid hk h.1, h.2.mono (Ty.definitions_kid hk)⟩, fun hn h => ?_⟩
    exact ⟨Ty.ordered_nominal hn h.1, h.2.mono (Ty.definitions_nominal hn)⟩
  exact Ty.tree_injective hfaith (hnms.injective hdist) hhereditary left
    (subset_append_left _ _) (subset_append_right _ _) ⟨holeft, hleft⟩ ⟨horight, hrt⟩ heq

section Rename

variable {path' : DefinitionId → DefinitionPath} {ι : DefinitionId → DefinitionId}

theorem Separates.of_paths {ids : List DefinitionId} (hpath : ∀ id ∈ ids, path' (ι id) = path id)
    (h : Separates path ids) : Separates ι ids := by
  intro id hid id' hid' heq
  refine h id hid id' hid' ?_
  rw [← hpath id hid, ← hpath id' hid', heq]

theorem treeNominal_rename (ho : Ty.OrderedNominal n) (hseps : Separates path n.heads)
    (hpath : ∀ id ∈ n.heads, path' (ι id) = path id)
    (h : ∀ k ∈ n.kids, (k.rename ι).portable path' = k.portable path) :
    Ty.treeNominal path' TypeTree.byLabel (n.relabel ι (Ty.rename ι)) =
      Ty.treeNominal path TypeTree.byLabel n := by
  obtain ⟨d, as, bs⟩ := n
  obtain ⟨hd, hkeys⟩ := forall_mem_cons.mp hpath
  have hbs : Separates path (bs.map Prod.fst) := hseps.mono (subset_cons_self d _)
  have hnd : (bs.map fun b => path b.1).Nodup := by
    have hmap : (bs.map fun b => path b.1) = (bs.map Prod.fst).map path := by simp [comp_def]
    rw [hmap]
    exact (nodup_map_iff_inj_on ho.2.1.nodup).mpr hbs
  have hlbl : ∀ b ∈ bs, path' (ι b.1) = path b.1 := fun b hb => hkeys b.1 (mem_map_of_mem hb)
  have hval : ∀ b ∈ bs, (b.2.rename ι).portable path' = b.2.portable path := fun b hb =>
    h b.2 (mem_append_right _ (mem_map_of_mem hb))
  have hargs : (as.map (Ty.rename ι)).map (Ty.portable path') = as.map (Ty.portable path) := by
    rw [map_map]
    exact map_congr_left fun a ha => h a (mem_append_left _ ha)
  have hperm := insertAll_relabel (f := Ty.rename ι) ho.2.1 (hbs.of_paths hkeys)
  have hsrtd := @sortedBindings_perm path bs
  have hmem : ∀ {b : DefinitionId × Ty}, b ∈ sortedBindings path bs → b ∈ bs := fun hb => hsrtd.mem_iff.mp hb
  -- both lists of bindings are arranged as the bindings sorted by their paths
  have hbnds : TypeTree.byLabel ((SortedMap.insertAll (bs.map fun b => (ι b.1, b.2.rename ι)) []).map
        fun b => TypeTree.labeled (path' b.1) [b.2.portable path']) =
      TypeTree.byLabel (bs.map fun b => TypeTree.labeled (path b.1) [b.2.portable path]) := by
    rw [arranged_eq _ hnd, @byLabel_eq _ _ _ (fun b : DefinitionId × Ty => path' b.1) (fun b => [b.2.portable path']) _
      ((sortedBindings path bs).map fun b => (ι b.1, b.2.rename ι)) ?_ ?_ ?_, map_map]
    · refine map_congr_left fun b hb => ?_
      show TypeTree.labeled (path' (ι b.1)) [(b.2.rename ι).portable path'] = _
      rw [hlbl b (hmem hb), hval b (hmem hb)]
    · exact (hsrtd.map _).trans hperm.symm
    · refine (hperm.map _).nodup_iff.mpr ?_
      rw [map_map]
      rw [← map_congr_left hlbl] at hnd
      exact hnd
    · refine pairwise_map.mpr ((sortedBindings_pairwise bs).imp_of_mem fun {a b} ha hb hle => ?_)
      show path' (ι a.1) ≤ path' (ι b.1)
      rw [hlbl a (hmem ha), hlbl b (hmem hb)]
      exact hle
  simp only [Nominal.relabel, Ty.treeNominal, Ty.treeAll_eq, Ty.treeBindings_eq, hd]
  rw [hargs, hbnds]

/-- Renaming along the paths keeps the portable tree. -/
theorem Ty.portable_rename (ty : Ty) : ty.Ordered → Separates path ty.definitions →
    (∀ id ∈ ty.definitions, path' (ι id) = path id) → (ty.rename ι).portable path' = ty.portable path := by
  induction ty using Ty.kids_induction with
  | step ty ih =>
    intro ho hseps hpath
    have hkid : ∀ k ∈ ty.kids,
        (k.rename ι).tree path' TypeTree.byLabel = k.tree path TypeTree.byLabel := fun k hk =>
      have hsub := Ty.definitions_kid hk
      ih k hk (Ty.ordered_kid hk ho) (hseps.mono hsub) fun id hid => hpath id (hsub hid)
    have hmany : ∀ {ts : List Ty}, ts ⊆ ty.kids →
        (ts.map (Ty.rename ι)).map (Ty.tree path' TypeTree.byLabel) =
          ts.map (Ty.tree path TypeTree.byLabel) := by
      intro ts hts
      rw [map_map]
      exact map_congr_left fun t ht => hkid t (hts ht)
    have hhead : ∀ id ∈ ty.heads, path' (ι id) = path id := fun id hid => hpath id (ty.heads_subset hid)
    have hnom : ∀ n ∈ ty.nominals, Ty.treeNominal path' TypeTree.byLabel (n.relabel ι (Ty.rename ι)) =
        Ty.treeNominal path TypeTree.byLabel n := by
      intro n hn
      have hsub : n.heads ⊆ ty.definitions := fun id hid =>
        Ty.definitions_nominal hn (Nominal.mem_definitions.mpr (.inl hid))
      exact treeNominal_rename (Ty.ordered_nominal hn ho) (hseps.mono hsub)
        (fun id hid => hpath id (hsub hid)) fun k hk => hkid k (Ty.kids_nominal hn hk)
    rw [Ty.rename_eq]
    cases ty with
    | projection as r i m =>
      simp only [Ty.portable, Ty.relabel, Ty.tree, Ty.treeAll_eq]
      rw [hmany (by simp [Ty.kids]), hkid r (by simp [Ty.kids]), hnom i (by simp [Ty.nominals]),
        hhead m (by simp [Ty.heads])]
    | host id | selfType id | parameter id _ =>
      simp only [Ty.portable, Ty.relabel, Ty.tree]
      rw [hhead id (by simp [Ty.heads])]
    | builtin b => rfl
    | tuple ts =>
      simp only [Ty.portable, Ty.relabel, Ty.tree, Ty.treeAll_eq]
      rw [hmany (by simp [Ty.kids])]
    | function ps r =>
      simp only [Ty.portable, Ty.relabel, Ty.tree, Ty.treeAll_eq]
      rw [hmany (by simp [Ty.kids]), hkid r (by simp [Ty.kids])]
    | map k v access =>
      simp only [Ty.portable, Ty.relabel, Ty.tree]
      rw [hkid k (by simp [Ty.kids]), hkid v (by simp [Ty.kids])]
    | iter t | range t _ | array t | set t _ | reference t _ =>
      simp only [Ty.portable, Ty.relabel, Ty.tree]
      rw [hkid t (by simp [Ty.kids])]
    | struct n | nativeObject n | enum n | trait n =>
      simp only [Ty.portable, Ty.relabel, Ty.tree]
      rw [hnom n (by simp [Ty.nominals])]

end Rename

end Portable

/-! ## The canonical order -/

/-- What a comparison over the table accepts. -/
structure InScope (table : DefinitionTable) (ty : Ty) : Prop where
  limits : ty.withinWireLimits = true
  definitions : ∀ id ∈ ty.definitions, validateId table.id table.data id = .ok ()

/-- The path of a definition of the table. -/
def Identity.DefinitionTable.path (table : DefinitionTable) (id : DefinitionId) : DefinitionPath :=
  match table.resolve id with
  | .ok (some path) => path
  | _ => ⟨⟨"", []⟩, []⟩

variable {id : DefinitionId}

section Order

variable {t : DefinitionTable} {left right : Ty}

theorem resolve_path {path : DefinitionPath} (h : t.resolve id = .ok (some path)) :
    t.path id = path := by
  unfold DefinitionTable.path
  rw [h]

theorem names_of_scope (h : Bijective t) (hs : InScope t left) : Names t t.path left.definitions := by
  intro id hid
  obtain ⟨path, hpath, -⟩ := h.resolve id (hs.definitions id hid)
  rw [resolve_path hpath]
  exact hpath

theorem distinct_of_bijective (h : Bijective t) : Distinct t := by
  intro id id' path hid hid'
  have hlook := (h.lookup id path).mpr hid
  rw [(h.lookup id' path).mpr hid'] at hlook
  exact (Option.some.inj hlook).symm

theorem resolve_toBool :
    (t.resolve id).toBool = true ↔ validateId t.id t.data id = .ok () := by
  unfold DefinitionTable.resolve
  cases validateId t.id t.data id with
  | error e => simp [Except.toBool]
  | ok _ => simp [Except.toBool, pure, Except.pure]

theorem checkScope_ok : checkScope left t false = .ok () ↔ InScope t left := by
  unfold checkScope
  rw [show checkCancel false = .ok () from rfl, ok_bind]
  have hall : (left.definitions.all fun id => (t.resolve id).toBool) = true ↔
      ∀ id ∈ left.definitions, validateId t.id t.data id = .ok () := by
    simp only [all_eq_true, resolve_toBool]
  constructor
  · intro h
    split at h
    · cases h
    · rename_i hlims
      split at h
      · rename_i hdefs
        exact ⟨by simpa using hlims, hall.mp hdefs⟩
      · cases h
  · intro h
    rw [if_neg (by simp [h.limits]), if_pos (hall.mpr h.definitions)]

/-- In scope, the result is that of the portable trees. -/
theorem canonicalCmp_eq (h : Bijective t) (hleft : InScope t left) (hrt : InScope t right)
    (holeft : left.Ordered) (horight : right.Ordered) : left.canonicalCmp right t false =
      .ok (some (Rose.cmp (left.portable t.path) (right.portable t.path))) := by
  unfold Ty.canonicalCmp
  rw [checkScope_ok.mpr hleft, checkScope_ok.mpr hrt, ok_bind, ok_bind,
    ty_eq (distinct_of_bijective h) left (names_of_scope h hleft) (names_of_scope h hrt) holeft horight]
  rfl

theorem canonicalCmp_ok {order : Option Ordering} (h : left.canonicalCmp right t false = .ok order) :
    InScope t left ∧ InScope t right := by
  obtain ⟨_, hleft, h⟩ := bind_ok.mp h
  obtain ⟨_, hrt, -⟩ := bind_ok.mp h
  exact ⟨checkScope_ok.mp hleft, checkScope_ok.mp hrt⟩

/-- A total order on the types in scope. Bindings are kept ordered by the map that holds them. -/
structure CanonicalOrder (t : DefinitionTable) : Prop where
  returns : ∀ a b : Ty, a.Ordered → b.Ordered →
    ((∃ order, a.canonicalCmp b t false = .ok (some order)) ↔ InScope t a ∧ InScope t b)
  equal : ∀ a b : Ty, a.Ordered → b.Ordered → InScope t a → InScope t b →
    (a.canonicalCmp b t false = .ok (some .eq) ↔ a = b)
  swap : ∀ (a b : Ty) order, a.Ordered → b.Ordered → a.canonicalCmp b t false = .ok (some order) →
    b.canonicalCmp a t false = .ok (some order.swap)
  trans : ∀ (a b c : Ty) order order', a.Ordered → b.Ordered → c.Ordered →
    a.canonicalCmp b t false = .ok (some order) → b.canonicalCmp c t false = .ok (some order') →
    order ≠ .gt → order' ≠ .gt → ∃ order'', a.canonicalCmp c t false = .ok (some order'') ∧ order'' ≠ .gt

theorem canonicalOrder_of_bijective (h : Bijective t) : CanonicalOrder t := by
  refine ⟨fun a b ha hb => ⟨?_, ?_⟩, ?_, ?_, ?_⟩
  · rintro ⟨order, horder⟩
    exact canonicalCmp_ok horder
  · rintro ⟨hsa, hsb⟩
    exact ⟨_, canonicalCmp_eq h hsa hsb ha hb⟩
  · intro a b ha hb hsa hsb
    rw [canonicalCmp_eq h hsa hsb ha hb, Except.ok.injEq, Option.some.injEq, Rose.cmp_eq_iff]
    exact ⟨Ty.portable_injective (distinct_of_bijective h) (names_of_scope h hsa) (names_of_scope h hsb) ha hb,
      fun heq => by rw [heq]⟩
  · intro a b order ha hb horder
    obtain ⟨hsa, hsb⟩ := canonicalCmp_ok horder
    rw [canonicalCmp_eq h hsa hsb ha hb, Except.ok.injEq, Option.some.injEq] at horder
    rw [canonicalCmp_eq h hsb hsa hb ha, ← horder, Rose.cmp_swap]
  · intro a b c order order' ha hb hc hab hbc hle hle'
    obtain ⟨hsa, hsb⟩ := canonicalCmp_ok hab
    obtain ⟨-, hsc⟩ := canonicalCmp_ok hbc
    rw [canonicalCmp_eq h hsa hsb ha hb, Except.ok.injEq, Option.some.injEq] at hab
    rw [canonicalCmp_eq h hsb hsc hb hc, Except.ok.injEq, Option.some.injEq] at hbc
    refine ⟨_, canonicalCmp_eq h hsa hsc ha hc, ?_⟩
    rw [← hab, ← Rose.compare_eq, Ne, compare_gt_iff_gt, not_lt] at hle
    rw [← hbc, ← Rose.compare_eq, Ne, compare_gt_iff_gt, not_lt] at hle'
    rw [← Rose.compare_eq, Ne, compare_gt_iff_gt, not_lt]
    exact le_trans hle hle'

end Order

/-! ## Import -/

/-- The conversion of an import. -/
def Identity.DefinitionRemap.convert (mapping : DefinitionRemap) (id : DefinitionId) :
    Except IdentityTransformError DefinitionId := liftTableError (mapping.map id)

/-- The definition that stands for one of the source. -/
def Identity.DefinitionRemap.image (mapping : DefinitionRemap) (id : DefinitionId) : DefinitionId :=
  match mapping.map id with
  | .ok id' => id'
  | .error _ => id

section Import

variable {source target : DefinitionTable} {mapping : DefinitionRemap} {ids : List DefinitionId}

/-- The mapping gives every one of the definitions to the one with its path. -/
def Carries (source target : DefinitionTable) (mapping : DefinitionRemap) (ids : List DefinitionId) : Prop :=
  ∀ id ∈ ids, ∃ id' path, mapping.map id = .ok id' ∧ source.resolve id = .ok (some path) ∧
    target.resolve id' = .ok (some path)

theorem Carries.image (h : Carries source target mapping ids) (hid : id ∈ ids) :
    mapping.map id = .ok (mapping.image id) ∧ target.path (mapping.image id) = source.path id ∧
      validateId target.id target.data (mapping.image id) = .ok () := by
  obtain ⟨id', path, hmap, hsrc, htgt⟩ := h id hid
  have himage : mapping.image id = id' := by
    unfold DefinitionRemap.image
    rw [hmap]
  rw [himage, resolve_path hsrc, resolve_path htgt]
  refine ⟨hmap, rfl, ?_⟩
  rw [← resolve_toBool, htgt]
  rfl

/-- An imported type is in scope, and has the tree it had. -/
theorem Carries.mapDefinitions (h : Carries source target mapping ids) (hsrc : Bijective source)
    (ho : ty.Ordered) (hs : InScope source ty) (hids : ty.definitions ⊆ ids) :
    ty.mapDefinitions mapping.convert false = .ok (ty.rename mapping.image) ∧
      (ty.rename mapping.image).Ordered ∧ InScope target (ty.rename mapping.image) ∧
      (ty.rename mapping.image).portable target.path = ty.portable source.path := by
  have hseps : Separates source.path ty.definitions :=
    (names_of_scope hsrc hs).injective (distinct_of_bijective hsrc)
  have hpath : ∀ id ∈ ty.definitions, target.path (mapping.image id) = source.path id :=
    fun id hid => (h.image (hids hid)).2.1
  have himage : Separates mapping.image ty.definitions := hseps.of_paths hpath
  refine ⟨Ty.mapDefinitions_eq hs.limits ho himage fun id hid => ?_, ty.ordered_rename ho himage, ⟨?_, ?_⟩,
    ty.portable_rename ho hseps hpath⟩
  · exact liftTableError_ok.mpr (h.image (hids hid)).1
  · exact Ty.withinWireLimits_rename ho himage hs.limits
  · intro id hid
    obtain ⟨old, hold, rfl⟩ := ty.mem_definitions_rename ho himage hid
    exact (h.image (hids hold)).2.2

/-- Imported types compare as they did. -/
theorem Carries.canonicalCmp (h : Carries source target mapping ids) (hsrc : Bijective source)
    (htgt : Bijective target) {left right : Ty} (holeft : left.Ordered) (horight : right.Ordered)
    (hleft : InScope source left) (hrt : InScope source right) (hidsleft : left.definitions ⊆ ids)
    (hidsright : right.definitions ⊆ ids) : ∃ left' right',
      left.mapDefinitions mapping.convert false = .ok left' ∧
      right.mapDefinitions mapping.convert false = .ok right' ∧
      left'.canonicalCmp right' target false = left.canonicalCmp right source false := by
  obtain ⟨hmap, ho, hs, htree⟩ := h.mapDefinitions hsrc holeft hleft hidsleft
  obtain ⟨hmap', ho', hs', htree'⟩ := h.mapDefinitions hsrc horight hrt hidsright
  refine ⟨_, _, hmap, hmap', ?_⟩
  rw [canonicalCmp_eq htgt hs hs' ho ho', canonicalCmp_eq hsrc hleft hrt holeft horight, htree, htree']

end Import

/-! ## Decoded tables -/

section Decoded

open Stateful TableData

theorem decodeNodes_grows (portable : PortableDefinitionTable) (table : Nat) (nodes : List PortableNode) :
    ∀ {d : TableData} {references : List DefinitionId}, Valid d →
      Grows Valid Extends (portable.decodeNodes table nodes references) d fun _ _ => True := by
  induction nodes with
  | nil => exact fun hd => .pure hd trivial
  | cons node nodes ih =>
    intro d references hd
    have hnode : Grows Valid Extends (portable.decodeNode table references node) d fun _ _ => True := by
      cases node with
      | root module =>
        unfold PortableDefinitionTable.decodeNode
        dsimp only
        split
        · exact (internRoot_grows table hd _).mono fun _ _ _ _ _ => trivial
        · exact .throw hd
      | child parent kind name occurrence =>
        unfold PortableDefinitionTable.decodeNode
        dsimp only
        split
        · rename_i parent name _ _
          exact (internChild_grows table hd parent ⟨kind, name, occurrence⟩).mono fun _ _ _ _ _ => trivial
        · exact .throw hd
    refine .bind hnode fun id d' hd' _ _ => ?_
    split
    · exact .throw hd'
    · exact ih hd'

theorem decode_valid {portable : PortableDefinitionTable} {next : Nat} {decoding : Decoding}
    (h : portable.decode next = .ok decoding) : Valid decoding.table.data := by
  have hgr := @decodeNodes_grows portable next portable.nodes _ [] valid_empty
  unfold PortableDefinitionTable.decode at h
  split at h
  · cases h
  split at h
  · cases h
  split at h
  · cases h
  split at h
  · cases h
  cases hrun : exec (portable.decodeNodes next portable.nodes []) .empty with
  | mk result data =>
    rw [hrun] at h
    have hkp := hgr.keeps
    rw [hrun] at hkp
    cases result with
    | error e => cases h
    | ok references =>
      rw [← Except.ok.inj h]
      exact hkp

end Decoded

/-- Over every table that was frozen or decoded, `canonical_cmp` is a total order on the types in scope; and
types that are imported into a builder, whatever it numbers already, compare as they did. -/
theorem canonicalCmp_order (calls : List Call) :
    let p := Process.start.run calls
    (∀ t ∈ p.tables, CanonicalOrder t) ∧
    (∀ portable next decoding, PortableDefinitionTable.decode portable next = .ok decoding →
      CanonicalOrder decoding.table) ∧
    ∀ t ∈ p.tables, ∀ b ∈ p.builders, ∀ ids mapping b', b.run (importFrom b.id t ids) = (.ok mapping, b') →
      ∀ left right : Ty, left.Ordered → right.Ordered → InScope t left → InScope t right →
        left.definitions ⊆ ids → right.definitions ⊆ ids → ∃ left' right',
          left.mapDefinitions mapping.convert false = .ok left' ∧
          right.mapDefinitions mapping.convert false = .ok right' ∧
          left'.canonicalCmp right' b'.freeze false = left.canonicalCmp right t false := by
  intro p
  obtain ⟨hp, -⟩ := Process.consistent_start.run calls
  refine ⟨fun t ht => ?_, fun portable next decoding hdec => ?_, ?_⟩
  · exact canonicalOrder_of_bijective (bijective_of_valid (hp.tables t ht).1)
  · exact canonicalOrder_of_bijective (bijective_of_valid (decode_valid hdec))
  · intro t ht b hb ids mapping b' hrun left right holeft horight hleft hrt hidsleft hidsright
    have hcarr : Carries t b'.freeze mapping ids :=
      (interns_of_consistent hp hb).imported t ht ids mapping b' hrun
    have htgt : Bijective b'.freeze := by
      obtain ⟨-, rfl⟩ := DefinitionTableBuilder.run_eq hrun
      exact bijective_of_valid (importFrom_grows (hp.valid b hb).1 (hp.source hb ht) ids).keeps
    exact hcarr.canonicalCmp (bijective_of_valid (hp.tables t ht).1) htgt holeft horight hleft hrt
      hidsleft hidsright

def zebra : DefinitionPath := ⟨⟨"game", []⟩, [⟨.struct, "Zebra", 0⟩]⟩

def ant : DefinitionPath := ⟨⟨"game", []⟩, [⟨.struct, "Ant", 0⟩]⟩

/-- A table with two structs, and a builder that numbers them the other way round. -/
def crossed : List Call :=
  [.new, .internPath 0 zebra, .internPath 0 ant, .freeze 0, .new, .internPath 1 ant]

def structOf (id : DefinitionId) : Ty := .struct ⟨id, [], []⟩

/-- `Zebra` is after `Ant` in both, though its number is smaller in one of them. -/
theorem canonicalCmp_order_crossed :
    ∃ t ∈ (Process.start.run crossed).tables, ∃ b ∈ (Process.start.run crossed).builders, ∃ mapping b',
      b.run (importFrom b.id t [⟨1, 1⟩, ⟨1, 2⟩]) = (.ok mapping, b') ∧ mapping.map ⟨1, 1⟩ = .ok ⟨2, 2⟩ ∧
      mapping.map ⟨1, 2⟩ = .ok ⟨2, 1⟩ ∧ ∃ left right,
        (structOf ⟨1, 1⟩).mapDefinitions mapping.convert false = .ok left ∧
        (structOf ⟨1, 2⟩).mapDefinitions mapping.convert false = .ok right ∧
        left.canonicalCmp right b'.freeze false = .ok (some .gt) := by
  have hcmp : (Process.start.run crossed).tables.map (fun t =>
      ((structOf ⟨1, 1⟩).canonicalCmp (structOf ⟨1, 2⟩) t false).toOption) = [some (some .gt)] := by
    decide +kernel
  have himport : ((Process.start.run crossed).tables.map fun t =>
      ((Process.start.run crossed).builders[1]?).map fun b =>
        match b.run (importFrom b.id t [⟨1, 1⟩, ⟨1, 2⟩]) with
        | (.ok mapping, _) => ((mapping.map ⟨1, 1⟩).toOption, (mapping.map ⟨1, 2⟩).toOption)
        | (.error _, _) => (none, none)) = [some (some ⟨2, 2⟩, some ⟨2, 1⟩)] := by
    decide +kernel
  obtain ⟨t, htabs, hgt⟩ := List.map_eq_singleton_iff.mp hcmp
  have ht : t ∈ (Process.start.run crossed).tables := by
    rw [htabs]
    exact List.mem_singleton_self t
  rw [htabs, List.map_singleton, List.singleton_inj] at himport
  obtain ⟨b, hb, hmapped⟩ := Option.map_eq_some_iff.mp himport
  have hmem := List.mem_of_getElem? hb
  have hgt := ok_of_toOption hgt
  cases hrun : b.run (importFrom b.id t [⟨1, 1⟩, ⟨1, 2⟩]) with
  | mk result b' =>
    rw [hrun] at hmapped
    cases result with
    | error e => cases hmapped
    | ok mapping =>
      obtain ⟨hfst, hsnd⟩ := Prod.mk.inj hmapped
      obtain ⟨-, -, himp⟩ := canonicalCmp_order crossed
      obtain ⟨hleft, hrt⟩ := canonicalCmp_ok hgt
      have hord : ∀ id, (structOf id).Ordered := fun id => ⟨trivial, .nil, trivial⟩
      obtain ⟨left, right, hmapleft, hmapright, hsame⟩ := himp t ht b hmem _ mapping b' hrun
        (structOf ⟨1, 1⟩) (structOf ⟨1, 2⟩) (hord _) (hord _) hleft hrt (by decide) (by decide)
      exact ⟨t, ht, b, hmem, mapping, b', hrun, ok_of_toOption hfst, ok_of_toOption hsnd, left, right,
        hmapleft, hmapright, hsame.trans hgt⟩

end Kagari
