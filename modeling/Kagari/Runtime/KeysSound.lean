import Kagari.Lib.Preorder
import Kagari.Runtime.Keys

/-!
# Keys and equality as trees

A value that has a key shows a finite tree of atoms, tuples and enum tags. Its key is the preorder code
of the tree without the installations of its tags; language equality compares the trees with them. So
the two agree except on values that show the same tree but for an installation.
-/

namespace Kagari.Runtime

open Lib Option

variable {H : Type} {gc : Heap H}

/-! ## What a value shows -/

inductive Atom where
  | unit
  | bool (value : Bool)
  | char (value : Char)
  | i32 (value : BitVec 32)
  | i64 (value : BitVec 64)
  | u64 (value : BitVec 64)
  | str (text : String)
deriving DecidableEq

/-- The identity of an enum variant that its declaration gives it. -/
@[ext] structure NominalTag where
  owner : Nat
  declaration : DefinitionId
  arguments : List Ty
  variant : DefinitionId
deriving DecidableEq

/-- A nominal tag and the installation that supplied its module. -/
@[ext] structure InstalledTag where
  nominal : NominalTag
  installation : Nat
deriving DecidableEq

/-- The head of an aggregate, over what an enum tag is. -/
inductive Aggregate (T : Type) where
  | tuple
  | enum (tag : T)

def Aggregate.forget : Aggregate InstalledTag → Aggregate NominalTag
  | .tuple => .tuple
  | .enum tag => .enum tag.nominal

def EnumTag.installed : EnumTag → InstalledTag
  | .declared r => ⟨⟨r.module.registryOwner, r.layout.declaration, r.layout.arguments,
      r.variant.declaration⟩, r.module.installationId⟩

theorem EnumTag.eq_iff (a b : EnumTag) : a.eq b = true ↔ a.installed = b.installed := by
  obtain ⟨a⟩ := a
  obtain ⟨b⟩ := b
  simp only [EnumTag.eq, EnumVariantRef.eq, installed, Bool.and_eq_true, beq_iff_eq, InstalledTag.mk.injEq,
    NominalTag.mk.injEq]
  tauto

variable (gc) in
def layer : Value H → Option (Layer Atom (Aggregate InstalledTag) (Value H))
  | .unit => some (.leaf .unit)
  | .bool value => some (.leaf (.bool value))
  | .char value => some (.leaf (.char value))
  | .i32 value => some (.leaf (.i32 value))
  | .i64 value => some (.leaf (.i64 value))
  | .u64 value => some (.leaf (.u64 value))
  | .str id => (gc.string id).map fun text => .leaf (.str text)
  | .tuple id => (gc.tuple id).map fun members => .node .tuple members
  | .enum id => (gc.enumView id).map fun snapshot => .node (.enum snapshot.tag.installed) snapshot.fields
  | _ => none

variable (gc) in
/-- A value shows a tree: every member its aggregates lead to is live and has a part. -/
abbrev Shows (value : Value H) (t : Tree Atom (Aggregate InstalledTag)) : Prop := Unfolds (layer gc) value t

/-! ## Codes -/

def Atom.code : Atom → List KeyPart
  | .unit => [.unit]
  | .bool value => [.bool value]
  | .char value => [.char value]
  | .i32 value => [.i32 value]
  | .i64 value => [.i64 value]
  | .u64 value => [.u64 value]
  | .str text => [.str text]

def Aggregate.code : Aggregate NominalTag → Nat → List KeyPart
  | .tuple, length => [.tuple length]
  | .enum tag, length =>
    [.declaredEnum tag.owner tag.declaration tag.arguments tag.variant, .tuple length]

theorem code_unambiguous : Tree.Unambiguous Atom.code Aggregate.code where
  leaf := by
    intro a b u v h
    cases a <;> cases b <;> simp_all [Atom.code]
  node := by
    intro a b n m u v h
    cases a <;> cases b <;> simp_all [Aggregate.code]
    rename_i a b
    exact NominalTag.ext h.1.1 h.1.2.1 h.1.2.2.1 h.1.2.2.2
  apart := by
    intro a b n u v h
    cases a <;> cases b <;> simp [Atom.code, Aggregate.code] at h

/-- The parts of the tree that a value shows. -/
def keyCode : Tree Atom (Aggregate InstalledTag) → List KeyPart :=
  Tree.code Atom.code fun b => b.forget.code

theorem keyCode_eq_iff {t s : Tree Atom (Aggregate InstalledTag)} :
    keyCode t = keyCode s ↔ t.map Aggregate.forget = s.map Aggregate.forget := by
  simp only [keyCode, ← Tree.code_map]
  exact ⟨Tree.code_injective code_unambiguous, fun h => by rw [h]⟩

/-! ## Keys -/

theorem visit_eq_layer (value : Value H) :
    MapKey.visit gc value = (layer gc value).map fun
      | .leaf a => (a.code, [])
      | .node b children => (b.forget.code children.length, children) := by
  cases value with
  | str id => cases h : gc.string id <;> simp [MapKey.visit, layer, h, Atom.code]
  | tuple id =>
    cases h : gc.tuple id <;> simp [MapKey.visit, layer, h, Aggregate.code, Aggregate.forget]
  | enum id =>
    cases h : gc.enumView id with
    | none => simp [MapKey.visit, layer, h]
    | some snapshot =>
      simp only [MapKey.visit, layer, h]
      cases snapshot.tag
      rfl
  | _ => rfl

/-- The loop emits the codes of the pending values, in order. -/
theorem fill_spec {pending : List (Value H)} {parts out : List KeyPart}
    (h : MapKey.fill gc pending parts = some out) :
    ∃ ts, List.Forall₂ (Shows gc) pending ts ∧
      out = parts ++ Tree.codeAll Atom.code (fun b => b.forget.code) ts := by
  fun_induction MapKey.fill gc pending parts with
  | case1 parts => exact ⟨[], .nil, by simpa [Tree.codeAll] using h.symm⟩
  | case2 => cases h
  | case3 => cases h
  | case4 parts value rest hlim pushed members hvis ih =>
    obtain ⟨ts, hts, rfl⟩ := ih h
    rw [visit_eq_layer] at hvis
    obtain ⟨l, hlay, hl⟩ := map_eq_some_iff.mp hvis
    obtain ⟨cs, ss, rfl, hcs, hss⟩ : ∃ cs ss, ts = cs ++ ss ∧ List.Forall₂ (Shows gc) members cs ∧
        List.Forall₂ (Shows gc) rest ss :=
      ⟨_, _, (List.take_append_drop members.length ts).symm,
        by simpa using List.forall₂_take members.length hts,
        by simpa using List.forall₂_drop members.length hts⟩
    cases l with
    | leaf a =>
      cases hl
      obtain rfl : cs = [] := List.forall₂_nil_left_iff.mp hcs
      exact ⟨.leaf a :: ss, .cons (.leaf hlay) hss, by simp [Tree.codeAll, Tree.code]⟩
    | node b children =>
      cases hl
      refine ⟨.node b cs :: ss, .cons (.node hlay hcs) hss, ?_⟩
      simp [Tree.codeAll, Tree.code, Tree.codeAll_append, hcs.length_eq]

variable {value : Value H}

theorem single_eq_layer {part : KeyPart} (h : MapKey.single gc value = some (some part)) :
    ∃ a, layer gc value = some (.leaf a) ∧ a.code = [part] := by
  cases value with
  | str id =>
    cases hs : gc.string id with
    | none => simp [MapKey.single, hs] at h
    | some text => exact ⟨.str text, by simp [layer, hs], by simpa [MapKey.single, hs, Atom.code] using h⟩
  | unit => exact ⟨.unit, rfl, by simpa [MapKey.single, Atom.code] using h⟩
  | bool value => exact ⟨.bool value, rfl, by simpa [MapKey.single, Atom.code] using h⟩
  | char value => exact ⟨.char value, rfl, by simpa [MapKey.single, Atom.code] using h⟩
  | i32 value => exact ⟨.i32 value, rfl, by simpa [MapKey.single, Atom.code] using h⟩
  | i64 value => exact ⟨.i64 value, rfl, by simpa [MapKey.single, Atom.code] using h⟩
  | u64 value => exact ⟨.u64 value, rfl, by simpa [MapKey.single, Atom.code] using h⟩
  | _ => simp [MapKey.single] at h

/-- A key is the code of the tree its value shows. -/
theorem fromValue_spec {key : MapKey H} (h : MapKey.fromValue gc value = some key) :
    key.custom = none ∧ ∃ t, Shows gc value t ∧ key.parts.asSlice = keyCode t := by
  simp only [MapKey.fromValue, bind_eq_bind] at h
  split at h
  · cases h
  · obtain ⟨part, hpart, h⟩ := bind_eq_some_iff.mp h
    cases part with
    | some part =>
      obtain ⟨a, hlay, ha⟩ := single_eq_layer hpart
      cases h
      exact ⟨rfl, .leaf a, .leaf hlay, by simp [keyCode, Tree.code, ha, KeyParts.asSlice]⟩
    | none =>
      obtain ⟨parts, hfill, h⟩ := bind_eq_some_iff.mp h
      cases h
      obtain ⟨ts, hts, rfl⟩ := fill_spec hfill
      obtain ⟨t, ss, ht, hss, rfl⟩ := List.forall₂_cons_left_iff.mp hts
      obtain rfl : ss = [] := List.forall₂_nil_left_iff.mp hss
      exact ⟨rfl, t, ht, by simp [keyCode, KeyParts.asSlice, Tree.codeAll]⟩

/-! ## Equality -/

section Members

variable {f g : Value H → Value H → Option (Except RuntimeError Bool)}

variable {r : Except RuntimeError Bool}

theorem pairsEqual_mono (hfg : ∀ a b r, f a b = some r → g a b = some r)
    {pairs : List (Value H × Value H)} (h : pairsEqual f pairs = some r) :
    pairsEqual g pairs = some r := by
  induction pairs with
  | nil => exact h
  | cons pair rest ih =>
    simp only [pairsEqual, bind_eq_bind] at h ⊢
    obtain ⟨first, hfst, h⟩ := bind_eq_some_iff.mp h
    rw [hfg _ _ _ hfst, bind_some]
    cases first with
    | error error => exact h
    | ok equal =>
      cases equal with
      | false => exact h
      | true => exact ih h

theorem membersEqual_mono (hfg : ∀ a b r, f a b = some r → g a b = some r) {lhs rhs : List (Value H)}
    (h : membersEqual f lhs rhs = some r) : membersEqual g lhs rhs = some r := by
  unfold membersEqual at h ⊢
  split
  · rename_i hlen
    rwa [if_pos hlen] at h
  · rename_i hlen
    rw [if_neg hlen] at h
    exact pairsEqual_mono hfg h

end Members

theorem scriptEqual_mono {fuel more : Nat} (hle : fuel ≤ more) : ∀ {lhs rhs : Value H}
    {r : Except RuntimeError Bool}, scriptEqual gc fuel lhs rhs = some r →
      scriptEqual gc more lhs rhs = some r := by
  induction fuel generalizing more with
  | zero => intro lhs rhs r h; cases h
  | succ fuel ih =>
    intro lhs rhs r h
    obtain ⟨more, rfl⟩ : ∃ n, more = n + 1 := ⟨more - 1, by omega⟩
    have hstep : ∀ {a b : List (Value H)} {r}, membersEqual (scriptEqual gc fuel) a b = some r →
        membersEqual (scriptEqual gc more) a b = some r :=
      membersEqual_mono fun _ _ _ => ih (by omega)
    unfold scriptEqual at h ⊢
    split at h
    · rwa [if_pos ‹_›]
    rw [if_neg ‹_›]
    split at h
    · rwa [if_pos ‹_›]
    rw [if_neg ‹_›]
    unfold comparableEqual at h ⊢
    split at h <;> try exact h
    · split at h
      · exact hstep h
      · exact h
    · split at h
      · split at h
        · rw [if_pos ‹_›]
          exact hstep h
        · rwa [if_neg ‹_›]
      · exact h

variable {lhs rhs : Value H}

theorem ScriptEqual.unique {r r' : Except RuntimeError Bool}
    (h : ScriptEqual gc lhs rhs r) (h' : ScriptEqual gc lhs rhs r') : r = r' := by
  obtain ⟨f, hf⟩ := h
  obtain ⟨g, hg⟩ := h'
  have hmax := scriptEqual_mono (Nat.le_max_left f g) hf
  rw [scriptEqual_mono (Nat.le_max_right f g) hg] at hmax
  exact (some.inj hmax).symm

/-- One level of the comparison, on what the two values show. -/
def layerEqual (equal : Value H → Value H → Option (Except RuntimeError Bool)) :
    Layer Atom (Aggregate InstalledTag) (Value H) → Layer Atom (Aggregate InstalledTag) (Value H) →
      Option (Except RuntimeError Bool)
  | .leaf a, .leaf b => some (.ok (a == b))
  | .node .tuple xs, .node .tuple ys => membersEqual equal xs ys
  | .node (.enum a) xs, .node (.enum b) ys =>
    if a = b then membersEqual equal xs ys else some (.ok false)
  | _, _ => some (.ok false)

variable (gc) in
/-- The values that show something. -/
inductive View : Value H → Layer Atom (Aggregate InstalledTag) (Value H) → Prop where
  | unit : View .unit (.leaf .unit)
  | bool (value : Bool) : View (.bool value) (.leaf (.bool value))
  | char (value : Char) : View (.char value) (.leaf (.char value))
  | i32 (value : BitVec 32) : View (.i32 value) (.leaf (.i32 value))
  | i64 (value : BitVec 64) : View (.i64 value) (.leaf (.i64 value))
  | u64 (value : BitVec 64) : View (.u64 value) (.leaf (.u64 value))
  | str {id : H} {text : String} (h : gc.string id = some text) : View (.str id) (.leaf (.str text))
  | tuple {id : H} {members : List (Value H)} (h : gc.tuple id = some members) :
    View (.tuple id) (.node .tuple members)
  | enum {id : H} {snapshot : EnumValueSnapshot H} (h : gc.enumView id = some snapshot) :
    View (.enum id) (.node (.enum snapshot.tag.installed) snapshot.fields)

variable {l : Layer Atom (Aggregate InstalledTag) (Value H)}

theorem view_of_layer
    (h : layer gc value = some l) : View gc value l := by
  cases value <;> simp only [layer, map_eq_some_iff, some.injEq, reduceCtorEq] at h
  case str id => obtain ⟨text, h, rfl⟩ := h; exact .str h
  case tuple id => obtain ⟨members, h, rfl⟩ := h; exact .tuple h
  case enum id => obtain ⟨snapshot, h, rfl⟩ := h; exact .enum h
  all_goals subst h; constructor

/-- A handle whose object can be viewed is live and of its kind. -/
theorem View.valid (h : View gc value l) :
    gc.validateValue value = true ∧ value.incomparable = false := by
  cases h with
  | str h => simp [Heap.validateValue, Heap.expected, Heap.objectKind, Heap.string_eq_some.mp h,
      HeapObject.kind, Value.incomparable]
  | tuple h => simp [Heap.validateValue, Heap.expected, Heap.objectKind, Heap.tuple_eq_some.mp h,
      HeapObject.kind, Value.incomparable]
  | enum h => simp [Heap.validateValue, Heap.expected, Heap.objectKind, Heap.enumView_eq_some.mp h,
      HeapObject.kind, Value.incomparable]
  | _ => exact ⟨rfl, rfl⟩

theorem comparableEqual_eq_layerEqual
    {l m : Layer Atom (Aggregate InstalledTag) (Value H)} (hl : View gc lhs l) (hm : View gc rhs m)
    (equal : Value H → Value H → Option (Except RuntimeError Bool)) :
    comparableEqual gc equal lhs rhs = layerEqual equal l m := by
  cases hl <;> cases hm <;> first | rfl | simp [comparableEqual, layerEqual, EnumTag.eq_iff, *]

theorem scriptEqual_eq_layerEqual {l m : Layer Atom (Aggregate InstalledTag) (Value H)}
    (hl : layer gc lhs = some l) (hm : layer gc rhs = some m) (fuel : Nat) :
    scriptEqual gc (fuel + 1) lhs rhs = layerEqual (scriptEqual gc fuel) l m := by
  have hl := view_of_layer hl
  have hm := view_of_layer hm
  rw [scriptEqual, hl.valid.1, hm.valid.1, hl.valid.2, hm.valid.2]
  exact comparableEqual_eq_layerEqual hl hm _

/-- The member loop compares the trees that the members show, if the comparison does so on the left
members. -/
theorem pairsEqual_shows {ts : List (Tree Atom (Aggregate InstalledTag))}
    (ih : ∀ t ∈ ts, ∀ {s lhs rhs}, Shows gc lhs t → Shows gc rhs s →
      ∃ r, ScriptEqual gc lhs rhs (.ok r) ∧ (r = true ↔ t = s)) :
    ∀ {ss : List (Tree Atom (Aggregate InstalledTag))} {lhs rhs : List (Value H)},
      List.Forall₂ (Shows gc) lhs ts → List.Forall₂ (Shows gc) rhs ss → ts.length = ss.length →
      ∃ fuel r, pairsEqual (scriptEqual gc fuel) (lhs.zip rhs) = some (.ok r) ∧ (r = true ↔ ts = ss) := by
  induction ts with
  | nil =>
    intro ss lhs rhs hl hr hlen
    obtain rfl : ss = [] := List.length_eq_zero_iff.mp hlen.symm
    obtain rfl := List.forall₂_nil_right_iff.mp hl
    exact ⟨0, true, rfl, by simp⟩
  | cons t ts ihts =>
    intro ss lhs rhs hl hr hlen
    obtain ⟨v, vs, hv, hvs, rfl⟩ := List.forall₂_cons_right_iff.mp hl
    cases ss with
    | nil => simp at hlen
    | cons s ss =>
      obtain ⟨w, ws, hw, hws, rfl⟩ := List.forall₂_cons_right_iff.mp hr
      obtain ⟨first, ⟨f, hf⟩, hfst⟩ := ih t List.mem_cons_self hv hw
      cases first with
      | false => exact ⟨f, false, by simp [pairsEqual, hf], by simp at hfst; simp [hfst]⟩
      | true =>
        obtain ⟨g, r, hg, hrest⟩ := ihts (fun t ht => ih t (List.mem_cons_of_mem _ ht)) hvs hws
          (by simpa using hlen)
        refine ⟨max f g, r, ?_, by simpa [hfst.mp rfl] using hrest⟩
        have htail := pairsEqual_mono (fun _ _ _ => scriptEqual_mono (Nat.le_max_right f g)) hg
        simp [pairsEqual, scriptEqual_mono (Nat.le_max_left f g) hf, htail]

theorem membersEqual_shows {ts ss : List (Tree Atom (Aggregate InstalledTag))}
    (ih : ∀ t ∈ ts, ∀ {s lhs rhs}, Shows gc lhs t → Shows gc rhs s →
      ∃ r, ScriptEqual gc lhs rhs (.ok r) ∧ (r = true ↔ t = s))
    {lhs rhs : List (Value H)} (hl : List.Forall₂ (Shows gc) lhs ts) (hr : List.Forall₂ (Shows gc) rhs ss) :
    ∃ fuel r, membersEqual (scriptEqual gc fuel) lhs rhs = some (.ok r) ∧ (r = true ↔ ts = ss) := by
  unfold membersEqual
  by_cases hlen : ts.length = ss.length
  · obtain ⟨fuel, r, h⟩ := pairsEqual_shows ih hl hr hlen
    exact ⟨fuel, r, by simpa [hl.length_eq, hr.length_eq, hlen] using h⟩
  · refine ⟨0, false, by simp [hl.length_eq, hr.length_eq, hlen], ?_⟩
    simp only [Bool.false_eq_true, false_iff]
    intro heq
    exact hlen (by rw [heq])

/-- Equality returns on values that show trees, and compares the trees. -/
theorem scriptEqual_shows (t : Tree Atom (Aggregate InstalledTag)) : ∀ {s} {lhs rhs : Value H},
    Shows gc lhs t → Shows gc rhs s → ∃ r, ScriptEqual gc lhs rhs (.ok r) ∧ (r = true ↔ t = s) := by
  induction t using Tree.induct with
  | leaf a =>
    intro s lhs rhs hl hr
    cases s with
    | leaf b =>
      refine ⟨a == b, ⟨1, ?_⟩, by simp⟩
      rw [scriptEqual_eq_layerEqual hl.layer_leaf hr.layer_leaf, layerEqual]
    | node b ss =>
      obtain ⟨ws, hws, -⟩ := hr.layer_node
      refine ⟨false, ⟨1, ?_⟩, by simp⟩
      rw [scriptEqual_eq_layerEqual hl.layer_leaf hws, layerEqual]
      all_goals simp
  | node a ts ih =>
    intro s lhs rhs hl hr
    obtain ⟨vs, hvs, hvts⟩ := hl.layer_node
    cases s with
    | leaf b =>
      refine ⟨false, ⟨1, ?_⟩, by simp⟩
      rw [scriptEqual_eq_layerEqual hvs hr.layer_leaf, layerEqual]
      all_goals simp
    | node b ss =>
      obtain ⟨ws, hws, hwss⟩ := hr.layer_node
      obtain ⟨fuel, r, hmembers, heql⟩ := membersEqual_shows (fun t ht => ih t ht) hvts hwss
      have hstep := scriptEqual_eq_layerEqual hvs hws fuel
      cases a with
      | tuple =>
        cases b with
        | tuple => exact ⟨r, ⟨fuel + 1, by rw [hstep, layerEqual, hmembers]⟩, by simpa using heql⟩
        | enum b => exact ⟨false, ⟨fuel + 1, by rw [hstep, layerEqual] <;> simp⟩, by simp⟩
      | enum a =>
        cases b with
        | tuple => exact ⟨false, ⟨fuel + 1, by rw [hstep, layerEqual] <;> simp⟩, by simp⟩
        | enum b =>
          by_cases hab : a = b
          · exact ⟨r, ⟨fuel + 1, by rw [hstep, layerEqual, if_pos hab, hmembers]⟩,
              by simpa [hab] using heql⟩
          · exact ⟨false, ⟨fuel + 1, by rw [hstep, layerEqual, if_neg hab]⟩, by simp [hab]⟩

theorem scriptEqual_true_iff {t s : Tree Atom (Aggregate InstalledTag)}
    (hl : Shows gc lhs t) (hr : Shows gc rhs s) : ScriptEqual gc lhs rhs (.ok true) ↔ t = s := by
  obtain ⟨r, hret, heql⟩ := scriptEqual_shows t hl hr
  rw [← heql]
  constructor
  · intro h
    simpa using hret.unique h
  · rintro rfl
    exact hret

/-! ## Agreement -/

/-- Values that show the same tree but for the installations of their enum tags, which differ
somewhere. -/
def Reinstalled (gc : Heap H) (lhs rhs : Value H) : Prop :=
  ∃ t s, Shows gc lhs t ∧ Shows gc rhs s ∧ t.map Aggregate.forget = s.map Aggregate.forget ∧
    ∃ path a b, t.labelAt path = some (.enum a) ∧ s.labelAt path = some (.enum b) ∧
      a.installation ≠ b.installation

theorem forget_inj {a b : Aggregate InstalledTag} (h : a.forget = b.forget)
    (hinst : ∀ x y, a = .enum x → b = .enum y → x.installation = y.installation) : a = b := by
  cases a with
  | tuple =>
    cases b with
    | tuple => rfl
    | enum b => simp [Aggregate.forget] at h
  | enum a =>
    cases b with
    | tuple => simp [Aggregate.forget] at h
    | enum b =>
      have hnom : a.nominal = b.nominal := by simpa [Aggregate.forget] using h
      rw [InstalledTag.ext hnom (hinst a b rfl rfl)]

/-- Keys agree with language equality, and with hashing, exactly on the values that are not the same
but for an installation. -/
theorem keys_agree_iff_not_reinstalled {lhs rhs : Value H} {left right : MapKey H}
    (hleft : MapKey.fromValue gc lhs = some left) (hright : MapKey.fromValue gc rhs = some right) :
    ((left.eq right = true ↔ ScriptEqual gc lhs rhs (.ok true)) ∧
      ∀ hasher, left.eq right = true → left.scriptHash hasher = right.scriptHash hasher) ↔
      ¬ Reinstalled gc lhs rhs := by
  obtain ⟨hcust, t, ht, hpts⟩ := fromValue_spec hleft
  obtain ⟨hcust', s, hs, hpts'⟩ := fromValue_spec hright
  have hkeys : left.eq right = true ↔ t.map Aggregate.forget = s.map Aggregate.forget := by
    simp [MapKey.eq, hcust, hcust', hpts, hpts', keyCode_eq_iff]
  have hhash : ∀ hasher, left.eq right = true → left.scriptHash hasher = right.scriptHash hasher := by
    intro hasher heql
    have hslcs : left.parts.asSlice = right.parts.asSlice := by
      simpa [MapKey.eq, hcust, hcust'] using heql
    simp [MapKey.scriptHash, hcust, hcust', hslcs]
  rw [hkeys, scriptEqual_true_iff ht hs]
  constructor
  · rintro ⟨hagree, -⟩ ⟨t', s', ht', hs', hmap, path, a, b, ha, hb, hne⟩
    obtain rfl := ht.unique ht'
    obtain rfl := hs.unique hs'
    obtain rfl := hagree.mp hmap
    rw [ha] at hb
    cases hb
    exact hne rfl
  · intro hsame
    refine ⟨⟨fun hmap => ?_, fun h => by rw [h]⟩, fun hasher hmap => hhash hasher (hkeys.mpr hmap)⟩
    apply Tree.eq_of_map t s hmap
    intro path a b ha hb hforget
    apply forget_inj hforget
    rintro x y rfl rfl
    by_contra hne
    exact hsame ⟨t, s, ht, hs, hmap, path, x, y, ha, hb, hne⟩

/-- The layout of an enum with one variant that holds an `i32`, before and after a reload that adds
another variant before it. -/
def eventLayout (added : Bool) : EnumLayout :=
  let data : EnumVariantLayout := ⟨⟨0, 2⟩, [.builtin .i32], false⟩
  ⟨⟨0, 1⟩, [], if added then [⟨⟨0, 3⟩, [], false⟩, data] else [data]⟩

def eventTag (installation : Nat) : Bool → EnumTag
  | false => .declared ⟨⟨0, installation, [eventLayout false]⟩, 0, 0, none, _, _, rfl, rfl⟩
  | true => .declared ⟨⟨0, installation, [eventLayout true]⟩, 0, 1, none, _, _, rfl, rfl⟩

/-- Two values of the variant: the second one's layout has the other variant. -/
def eventHeap (first second : Nat) : Heap Bool
  | false => some (.enum ⟨eventTag first false, [.i32 7]⟩)
  | true => some (.enum ⟨eventTag second true, [.i32 7]⟩)

def eventParts : List KeyPart := [.declaredEnum 0 ⟨0, 1⟩ [] ⟨0, 2⟩, .tuple 1, .i32 7]

def eventKey (id : Bool) : MapKey Bool := ⟨.aggregate eventParts, .enum id, none⟩

theorem fromValue_eventHeap (first second : Nat) (id : Bool) :
    MapKey.fromValue (eventHeap first second) (.enum id) = some (eventKey id) := by
  have hfill : MapKey.fill (eventHeap first second) [.enum id] [] = some eventParts := by
    cases id <;> simp [MapKey.fill, MapKey.visit, MapKey.limit, Heap.validateValue, Heap.expected,
      Heap.objectKind, Heap.enumView, eventHeap, eventTag, eventLayout, HeapObject.kind, eventParts]
  cases id <;> simp [MapKey.fromValue, MapKey.single, Heap.validateValue, Heap.expected, Heap.objectKind,
    eventHeap, HeapObject.kind] <;> rw [hfill] <;> rfl

theorem shows_eventHeap (first second : Nat) (id : Bool) :
    Shows (eventHeap first second) (.enum id)
      (.node (.enum ⟨⟨0, ⟨0, 1⟩, [], ⟨0, 2⟩⟩, if id then second else first⟩) [.leaf (.i32 7)]) :=
  .node (by cases id <;> rfl) (.cons (.leaf rfl) .nil)

/-- A reload keeps the installation: the values before and after it are one key, and equal. -/
theorem keys_agree_iff_not_reinstalled_reload :
    ((eventKey false).eq (eventKey true) = true ↔
        ScriptEqual (eventHeap 1 1) (.enum false) (.enum true) (.ok true)) ∧
      ∀ hasher, (eventKey false).eq (eventKey true) = true →
        (eventKey false).scriptHash hasher = (eventKey true).scriptHash hasher := by
  refine (keys_agree_iff_not_reinstalled (fromValue_eventHeap 1 1 false)
    (fromValue_eventHeap 1 1 true)).mpr ?_
  rintro ⟨t, s, ht, hs, -, path, a, b, ha, hb, hne⟩
  obtain rfl := (shows_eventHeap 1 1 false).unique ht
  obtain rfl := (shows_eventHeap 1 1 true).unique hs
  simp only [if_true, if_false, Bool.false_eq_true] at ha hb
  rw [ha] at hb
  cases hb
  exact hne rfl

/-- Two installations of one module: one key for two values that are not equal. -/
theorem keys_disagree_installations :
    ¬ ∀ (gc : Heap Bool) (lhs rhs : Value Bool) (left right : MapKey Bool),
      MapKey.fromValue gc lhs = some left → MapKey.fromValue gc rhs = some right →
      (left.eq right = true ↔ ScriptEqual gc lhs rhs (.ok true)) := by
  intro h
  have heql := (h (eventHeap 1 2) (.enum false) (.enum true) _ _ (fromValue_eventHeap 1 2 false)
    (fromValue_eventHeap 1 2 true)).mp (by decide)
  have htrees := (scriptEqual_true_iff (shows_eventHeap 1 2 false) (shows_eventHeap 1 2 true)).mp heql
  simp at htrees

end Kagari.Runtime
