import Mathlib.Data.Prod.Lex
import Kagari.Lib.SortedMap

/-!
# Semantic types

- `DefinitionId`, ordered by table and then by index, as the derived order of the source
- `Ty` and `NominalTy`: the semantic type expressions
- `Ty.definitions`: the definitions a type names, in the order the identity traversal visits them
- `Ty.rename`: the same type over another definition table
- `Ty.Ordered`: the bindings of every nominal type are an ordered map

`associatedTypes` is the entry list of a `BTreeMap`; `Ty.Ordered` is its representation invariant.
-/

namespace Kagari

open List

/-- A declaration identity: meaningful only in its table. -/
@[ext] structure DefinitionId where
  table : Nat
  index : Nat
deriving DecidableEq

namespace DefinitionId

def key (id : DefinitionId) : Nat ×ₗ Nat := toLex (id.table, id.index)

theorem key_injective : Function.Injective key := by
  intro a b h
  have h' : (a.table, a.index) = (b.table, b.index) := toLex.injective h
  exact DefinitionId.ext (congrArg Prod.fst h') (congrArg Prod.snd h')

instance : LinearOrder DefinitionId := LinearOrder.lift' key key_injective

end DefinitionId

inductive BuiltinType where
  | never | unit | bool
  | i8 | i16 | i32 | i64
  | u8 | u16 | u32 | u64
  | f32 | f64 | string | char
deriving DecidableEq

inductive RangeKind where
  | exclusive | inclusive | from | to | toInclusive | full
deriving DecidableEq

inductive CollectionAccess where
  | readOnly | mutable
deriving DecidableEq

inductive ReferenceAccess where
  | shared | mutable
deriving DecidableEq

/-- A nominal type over argument types `T`. -/
structure Nominal (T : Type) where
  declaration : DefinitionId
  arguments : List T
  associatedTypes : List (DefinitionId × T)

inductive Ty where
  | projection (arguments : List Ty) (receiver : Ty) (interface : Nominal Ty)
      (member : DefinitionId)
  | host (id : DefinitionId)
  | selfType (id : DefinitionId)
  | parameter (owner : DefinitionId) (position : Nat)
  | builtin (ty : BuiltinType)
  | tuple (elements : List Ty)
  | function (params : List Ty) (result : Ty)
  | iter (element : Ty)
  | range (element : Ty) (kind : RangeKind)
  | array (element : Ty)
  | map (key value : Ty) (access : CollectionAccess)
  | set (element : Ty) (access : CollectionAccess)
  | struct (nominal : Nominal Ty)
  | nativeObject (nominal : Nominal Ty)
  | enum (nominal : Nominal Ty)
  | trait (nominal : Nominal Ty)
  | reference (target : Ty) (access : ReferenceAccess)

abbrev NominalTy := Nominal Ty

/-! ## Equality -/

mutual

def Ty.beq : Ty → Ty → Bool
  | .projection as r i m, .projection as' r' i' m' =>
    Ty.beqAll as as' && r.beq r' && Ty.beqNominal i i' && m == m'
  | .host id, .host id' => id == id'
  | .selfType id, .selfType id' => id == id'
  | .parameter o p, .parameter o' p' => o == o' && p == p'
  | .builtin b, .builtin b' => b == b'
  | .tuple ts, .tuple ts' => Ty.beqAll ts ts'
  | .function ps r, .function ps' r' => Ty.beqAll ps ps' && r.beq r'
  | .iter t, .iter t' => t.beq t'
  | .range t k, .range t' k' => t.beq t' && k == k'
  | .array t, .array t' => t.beq t'
  | .map k v a, .map k' v' a' => k.beq k' && v.beq v' && a == a'
  | .set t a, .set t' a' => t.beq t' && a == a'
  | .struct n, .struct n' => Ty.beqNominal n n'
  | .nativeObject n, .nativeObject n' => Ty.beqNominal n n'
  | .enum n, .enum n' => Ty.beqNominal n n'
  | .trait n, .trait n' => Ty.beqNominal n n'
  | .reference t a, .reference t' a' => t.beq t' && a == a'
  | _, _ => false
termination_by structural x => x

def Ty.beqAll : List Ty → List Ty → Bool
  | [], [] => true
  | t :: ts, t' :: ts' => t.beq t' && Ty.beqAll ts ts'
  | _, _ => false
termination_by structural x => x

def Ty.beqNominal : Nominal Ty → Nominal Ty → Bool
  | ⟨d, as, bs⟩, ⟨d', as', bs'⟩ => d == d' && Ty.beqAll as as' && Ty.beqBindings bs bs'

def Ty.beqBindings : List (DefinitionId × Ty) → List (DefinitionId × Ty) → Bool
  | [], [] => true
  | b :: bs, b' :: bs' => Ty.beqBinding b b' && Ty.beqBindings bs bs'
  | _, _ => false
termination_by structural x => x

def Ty.beqBinding : DefinitionId × Ty → DefinitionId × Ty → Bool
  | (id, t), (id', t') => id == id' && t.beq t'

end

mutual

theorem Ty.beq_iff : (a b : Ty) → (a.beq b = true ↔ a = b)
  | .projection as r i m, b => by
    cases b with
    | projection => simp [Ty.beq, Ty.beqAll_iff as, Ty.beq_iff r, Ty.beqNominal_iff i, and_assoc]
    | _ => exact iff_of_false Bool.false_ne_true nofun
  | .host id, b => by
    cases b with
    | host => simp [Ty.beq]
    | _ => exact iff_of_false Bool.false_ne_true nofun
  | .selfType id, b => by
    cases b with
    | selfType => simp [Ty.beq]
    | _ => exact iff_of_false Bool.false_ne_true nofun
  | .parameter o p, b => by
    cases b with
    | parameter => simp [Ty.beq]
    | _ => exact iff_of_false Bool.false_ne_true nofun
  | .builtin t, b => by
    cases b with
    | builtin => simp [Ty.beq]
    | _ => exact iff_of_false Bool.false_ne_true nofun
  | .tuple ts, b => by
    cases b with
    | tuple => simp [Ty.beq, Ty.beqAll_iff ts]
    | _ => exact iff_of_false Bool.false_ne_true nofun
  | .function ps r, b => by
    cases b with
    | function => simp [Ty.beq, Ty.beqAll_iff ps, Ty.beq_iff r]
    | _ => exact iff_of_false Bool.false_ne_true nofun
  | .iter t, b => by
    cases b with
    | iter => simp [Ty.beq, Ty.beq_iff t]
    | _ => exact iff_of_false Bool.false_ne_true nofun
  | .range t k, b => by
    cases b with
    | range => simp [Ty.beq, Ty.beq_iff t]
    | _ => exact iff_of_false Bool.false_ne_true nofun
  | .array t, b => by
    cases b with
    | array => simp [Ty.beq, Ty.beq_iff t]
    | _ => exact iff_of_false Bool.false_ne_true nofun
  | .map k v a, b => by
    cases b with
    | map => simp [Ty.beq, Ty.beq_iff k, Ty.beq_iff v, and_assoc]
    | _ => exact iff_of_false Bool.false_ne_true nofun
  | .set t a, b => by
    cases b with
    | set => simp [Ty.beq, Ty.beq_iff t]
    | _ => exact iff_of_false Bool.false_ne_true nofun
  | .struct n, b => by
    cases b with
    | struct => simp [Ty.beq, Ty.beqNominal_iff n]
    | _ => exact iff_of_false Bool.false_ne_true nofun
  | .nativeObject n, b => by
    cases b with
    | nativeObject => simp [Ty.beq, Ty.beqNominal_iff n]
    | _ => exact iff_of_false Bool.false_ne_true nofun
  | .enum n, b => by
    cases b with
    | enum => simp [Ty.beq, Ty.beqNominal_iff n]
    | _ => exact iff_of_false Bool.false_ne_true nofun
  | .trait n, b => by
    cases b with
    | trait => simp [Ty.beq, Ty.beqNominal_iff n]
    | _ => exact iff_of_false Bool.false_ne_true nofun
  | .reference t a, b => by
    cases b with
    | reference => simp [Ty.beq, Ty.beq_iff t]
    | _ => exact iff_of_false Bool.false_ne_true nofun

theorem Ty.beqAll_iff : (as bs : List Ty) → (Ty.beqAll as bs = true ↔ as = bs)
  | [], bs => by cases bs <;> simp [Ty.beqAll]
  | t :: ts, bs => by cases bs <;> simp [Ty.beqAll, Ty.beq_iff t, Ty.beqAll_iff ts]

theorem Ty.beqNominal_iff : (a b : Nominal Ty) → (Ty.beqNominal a b = true ↔ a = b)
  | ⟨d, as, bs⟩, b => by
    cases b
    simp [Ty.beqNominal, Ty.beqAll_iff as, Ty.beqBindings_iff bs, and_assoc]

theorem Ty.beqBindings_iff :
    (as bs : List (DefinitionId × Ty)) → (Ty.beqBindings as bs = true ↔ as = bs)
  | [], bs => by cases bs <;> simp [Ty.beqBindings]
  | t :: ts, bs => by cases bs <;> simp [Ty.beqBindings, Ty.beqBinding_iff t, Ty.beqBindings_iff ts]

theorem Ty.beqBinding_iff : (a b : DefinitionId × Ty) → (Ty.beqBinding a b = true ↔ a = b)
  | (id, t), (id', t') => by simp [Ty.beqBinding, Ty.beq_iff t]

end

instance : DecidableEq Ty := fun a b => decidable_of_iff _ (Ty.beq_iff a b)

/-! ## Children -/

/-- The types directly below a nominal type: the arguments, then the bound types in key order. -/
def Nominal.kids (nominal : NominalTy) : List Ty :=
  nominal.arguments ++ nominal.associatedTypes.map Prod.snd

/-- The types directly below a type, in the order in which the shape traversal visits them. -/
def Ty.kids : Ty → List Ty
  | .projection arguments receiver interface _ => receiver :: (interface.kids ++ arguments)
  | .host _ | .selfType _ | .parameter _ _ | .builtin _ => []
  | .tuple elements => elements
  | .function params result => params ++ [result]
  | .map key value _ => [key, value]
  | .iter element | .range element _ | .array element | .set element _ => [element]
  | .struct nominal | .nativeObject nominal | .enum nominal | .trait nominal => nominal.kids
  | .reference target _ => [target]

private theorem sizeOf_bound_lt {b : DefinitionId × Ty} {bs : List (DefinitionId × Ty)}
    (h : b ∈ bs) : sizeOf b.2 < sizeOf bs := by
  have hb := sizeOf_lt_of_mem h
  obtain ⟨id, t⟩ := b
  simp only [Prod.mk.sizeOf_spec] at hb
  simp only
  omega

variable {k : Ty} {nominal : NominalTy} (ts : List Ty) (bs : List (DefinitionId × Ty))

theorem Nominal.sizeOf_kid (h : k ∈ nominal.kids) :
    sizeOf k < sizeOf nominal := by
  obtain ⟨d, arguments, bindings⟩ := nominal
  simp only [Nominal.kids, mem_append, mem_map] at h
  simp only [Nominal.mk.sizeOf_spec]
  rcases h with h | ⟨b, hb, rfl⟩
  · have := sizeOf_lt_of_mem h
    omega
  · have := sizeOf_bound_lt hb
    omega

theorem Ty.sizeOf_kid {ty k : Ty} (h : k ∈ ty.kids) : sizeOf k < sizeOf ty := by
  cases ty with
  | projection arguments receiver interface member =>
    simp only [Ty.projection.sizeOf_spec]
    rcases mem_cons.mp h with rfl | h
    · omega
    · rcases mem_append.mp h with h | h
      · have := Nominal.sizeOf_kid h
        omega
      · have := sizeOf_lt_of_mem h
        omega
  | tuple elements =>
    have := sizeOf_lt_of_mem (show k ∈ elements from h)
    simp only [Ty.tuple.sizeOf_spec]
    omega
  | function params result =>
    simp only [Ty.function.sizeOf_spec]
    rcases mem_append.mp h with h | h
    · have := sizeOf_lt_of_mem h
      omega
    · rw [mem_singleton.mp h]
      omega
  | struct nominal | nativeObject nominal | enum nominal | trait nominal =>
    have := Nominal.sizeOf_kid (show k ∈ nominal.kids from h)
    simp
    omega
  | _ => simp [Ty.kids] at h <;> grind

/-- Induction over the tree of a type. -/
theorem Ty.kids_induction {motive : Ty → Prop}
    (step : ∀ ty, (∀ k ∈ ty.kids, motive k) → motive ty) (ty : Ty) : motive ty :=
  step ty (fun k _hk => Ty.kids_induction step k)
termination_by sizeOf ty
decreasing_by exact Ty.sizeOf_kid _hk

/-! ## Definitions of a type -/

mutual

/-- The definitions a type names, as `visit_definition_ids` visits them. -/
def Ty.definitions : Ty → List DefinitionId
  | .projection as r i m => r.definitions ++ Ty.definitionsNominal i ++ [m] ++ Ty.definitionsAll as
  | .host id => [id]
  | .selfType id => [id]
  | .parameter owner _ => [owner]
  | .builtin _ => []
  | .tuple ts => Ty.definitionsAll ts
  | .function ps r => Ty.definitionsAll ps ++ r.definitions
  | .iter t => t.definitions
  | .range t _ => t.definitions
  | .array t => t.definitions
  | .map k v _ => k.definitions ++ v.definitions
  | .set t _ => t.definitions
  | .struct n => Ty.definitionsNominal n
  | .nativeObject n => Ty.definitionsNominal n
  | .enum n => Ty.definitionsNominal n
  | .trait n => Ty.definitionsNominal n
  | .reference t _ => t.definitions

def Ty.definitionsAll : List Ty → List DefinitionId
  | [] => []
  | t :: ts => t.definitions ++ Ty.definitionsAll ts

def Ty.definitionsNominal : Nominal Ty → List DefinitionId
  | ⟨d, as, bs⟩ => d :: (Ty.definitionsAll as ++ Ty.definitionsBindings bs)

def Ty.definitionsBindings : List (DefinitionId × Ty) → List DefinitionId
  | [] => []
  | b :: bs => Ty.definitionsBinding b ++ Ty.definitionsBindings bs

def Ty.definitionsBinding : DefinitionId × Ty → List DefinitionId
  | (id, t) => id :: t.definitions

end

@[simp] theorem Ty.definitionsAll_eq :
    Ty.definitionsAll ts = ts.flatMap Ty.definitions := by
  induction ts with
  | nil => simp [Ty.definitionsAll]
  | cons t ts ih => simp [Ty.definitionsAll, ih]

@[simp] theorem Ty.definitionsBindings_eq :
    Ty.definitionsBindings bs = bs.flatMap (fun b => b.1 :: b.2.definitions) := by
  induction bs with
  | nil => simp [Ty.definitionsBindings]
  | cons b bs ih =>
    obtain ⟨id, t⟩ := b
    simp [Ty.definitionsBindings, Ty.definitionsBinding, ih]

theorem Nominal.definitions_kid (h : k ∈ nominal.kids) :
    k.definitions ⊆ Ty.definitionsNominal nominal := by
  intro id hid
  obtain ⟨d, arguments, bindings⟩ := nominal
  simp only [Nominal.kids, mem_append, mem_map] at h
  simp only [Ty.definitionsNominal, Ty.definitionsAll_eq, Ty.definitionsBindings_eq, mem_cons,
    mem_append, mem_flatMap]
  rcases h with h | ⟨b, hb, rfl⟩
  · exact .inr (.inl ⟨k, h, hid⟩)
  · exact .inr (.inr ⟨b, hb, .inr hid⟩)

/-- A child names no definition that its parent does not name. -/
theorem Ty.definitions_kid {ty k : Ty} (h : k ∈ ty.kids) : k.definitions ⊆ ty.definitions := by
  intro id hid
  cases ty with
  | projection arguments receiver interface member =>
    simp only [Ty.kids, mem_cons, mem_append] at h
    simp only [Ty.definitions, Ty.definitionsAll_eq, mem_append, mem_flatMap]
    rcases h with rfl | h | h
    · exact .inl (.inl (.inl hid))
    · exact .inl (.inl (.inr (Nominal.definitions_kid h hid)))
    · exact .inr ⟨k, h, hid⟩
  | tuple elements =>
    simp only [Ty.definitions, Ty.definitionsAll_eq, mem_flatMap]
    exact ⟨k, h, hid⟩
  | function params result =>
    simp only [Ty.kids, mem_append, mem_singleton] at h
    simp only [Ty.definitions, Ty.definitionsAll_eq, mem_append, mem_flatMap]
    rcases h with h | rfl
    · exact .inl ⟨k, h, hid⟩
    · exact .inr hid
  | struct nominal | nativeObject nominal | enum nominal | trait nominal =>
    exact Nominal.definitions_kid h hid
  | _ => simp [Ty.kids] at h <;> grind [Ty.definitions]

/-! ## Types over another table -/

section Rename

variable (ι : DefinitionId → DefinitionId)

mutual

/-- The same type with every definition replaced: the bindings are put in the order of their
new keys. -/
def Ty.rename : Ty → Ty
  | .projection as r i m => .projection (Ty.renameAll as) r.rename (Ty.renameNominal i) (ι m)
  | .host id => .host (ι id)
  | .selfType id => .selfType (ι id)
  | .parameter owner position => .parameter (ι owner) position
  | .builtin b => .builtin b
  | .tuple ts => .tuple (Ty.renameAll ts)
  | .function ps r => .function (Ty.renameAll ps) r.rename
  | .iter t => .iter t.rename
  | .range t kind => .range t.rename kind
  | .array t => .array t.rename
  | .map k v access => .map k.rename v.rename access
  | .set t access => .set t.rename access
  | .struct n => .struct (Ty.renameNominal n)
  | .nativeObject n => .nativeObject (Ty.renameNominal n)
  | .enum n => .enum (Ty.renameNominal n)
  | .trait n => .trait (Ty.renameNominal n)
  | .reference t access => .reference t.rename access

def Ty.renameAll : List Ty → List Ty
  | [] => []
  | t :: ts => t.rename :: Ty.renameAll ts

def Ty.renameNominal : Nominal Ty → Nominal Ty
  | ⟨d, as, bs⟩ => ⟨ι d, Ty.renameAll as, Lib.SortedMap.insertAll (Ty.renameBindings bs) []⟩

def Ty.renameBindings : List (DefinitionId × Ty) → List (DefinitionId × Ty)
  | [] => []
  | b :: bs => Ty.renameBinding b :: Ty.renameBindings bs

def Ty.renameBinding : DefinitionId × Ty → DefinitionId × Ty
  | (id, t) => (ι id, t.rename)

end

@[simp] theorem Ty.renameAll_eq (ts : List Ty) : Ty.renameAll ι ts = ts.map (Ty.rename ι) := by
  induction ts with
  | nil => simp [Ty.renameAll]
  | cons t ts ih => simp [Ty.renameAll, ih]

@[simp] theorem Ty.renameBindings_eq (bs : List (DefinitionId × Ty)) :
    Ty.renameBindings ι bs = bs.map (fun b => (ι b.1, b.2.rename ι)) := by
  induction bs with
  | nil => simp [Ty.renameBindings]
  | cons b bs ih =>
    obtain ⟨id, t⟩ := b
    simp [Ty.renameBindings, Ty.renameBinding, ih]

end Rename

/-! ## Ordered bindings -/

mutual

/-- Every map of bindings in the type is ordered by its keys. -/
def Ty.Ordered : Ty → Prop
  | .projection as r i _ => Ty.OrderedAll as ∧ r.Ordered ∧ Ty.OrderedNominal i
  | .host _ | .selfType _ | .parameter _ _ | .builtin _ => True
  | .tuple ts => Ty.OrderedAll ts
  | .function ps r => Ty.OrderedAll ps ∧ r.Ordered
  | .iter t => t.Ordered
  | .range t _ => t.Ordered
  | .array t => t.Ordered
  | .map k v _ => k.Ordered ∧ v.Ordered
  | .set t _ => t.Ordered
  | .struct n => Ty.OrderedNominal n
  | .nativeObject n => Ty.OrderedNominal n
  | .enum n => Ty.OrderedNominal n
  | .trait n => Ty.OrderedNominal n
  | .reference t _ => t.Ordered

def Ty.OrderedAll : List Ty → Prop
  | [] => True
  | t :: ts => t.Ordered ∧ Ty.OrderedAll ts

def Ty.OrderedNominal : Nominal Ty → Prop
  | ⟨_, as, bs⟩ => Ty.OrderedAll as ∧ Lib.SortedMap.Keyed bs ∧ Ty.OrderedBindings bs

def Ty.OrderedBindings : List (DefinitionId × Ty) → Prop
  | [] => True
  | b :: bs => Ty.OrderedBinding b ∧ Ty.OrderedBindings bs

def Ty.OrderedBinding : DefinitionId × Ty → Prop
  | (_, t) => t.Ordered

end

@[simp] theorem Ty.orderedAll_iff : Ty.OrderedAll ts ↔ ∀ t ∈ ts, t.Ordered := by
  induction ts with
  | nil => simp [Ty.OrderedAll]
  | cons t ts ih => simp [Ty.OrderedAll, ih]

@[simp] theorem Ty.orderedBindings_iff :
    Ty.OrderedBindings bs ↔ ∀ b ∈ bs, b.2.Ordered := by
  induction bs with
  | nil => simp [Ty.OrderedBindings]
  | cons b bs ih =>
    obtain ⟨id, t⟩ := b
    simp [Ty.OrderedBindings, Ty.OrderedBinding, ih]

theorem Nominal.ordered_kid (h : k ∈ nominal.kids)
    (ho : Ty.OrderedNominal nominal) : k.Ordered := by
  obtain ⟨d, arguments, bindings⟩ := nominal
  simp only [Nominal.kids, mem_append, mem_map] at h
  simp only [Ty.OrderedNominal, Ty.orderedAll_iff, Ty.orderedBindings_iff] at ho
  rcases h with h | ⟨b, hb, rfl⟩
  · exact ho.1 k h
  · exact ho.2.2 b hb

theorem Ty.ordered_kid {ty k : Ty} (h : k ∈ ty.kids) (ho : ty.Ordered) : k.Ordered := by
  cases ty with
  | projection arguments receiver interface member =>
    simp only [Ty.kids, mem_cons, mem_append] at h
    simp only [Ty.Ordered, Ty.orderedAll_iff] at ho
    rcases h with rfl | h | h
    · exact ho.2.1
    · exact Nominal.ordered_kid h ho.2.2
    · exact ho.1 k h
  | tuple elements =>
    simp only [Ty.Ordered, Ty.orderedAll_iff] at ho
    exact ho k h
  | function params result =>
    simp only [Ty.kids, mem_append, mem_singleton] at h
    simp only [Ty.Ordered, Ty.orderedAll_iff] at ho
    rcases h with h | rfl
    · exact ho.1 k h
    · exact ho.2
  | struct nominal | nativeObject nominal | enum nominal | trait nominal =>
    exact Nominal.ordered_kid h ho
  | _ => simp [Ty.kids] at h <;> grind [Ty.Ordered]

/-- Renaming every definition to itself gives the type back. -/
theorem Ty.rename_self {ι : DefinitionId → DefinitionId} (ty : Ty) (ho : ty.Ordered)
    (hι : ∀ id ∈ ty.definitions, ι id = id) : ty.rename ι = ty := by
  induction ty using Ty.kids_induction with
  | step ty ih =>
    have hkid : ∀ k ∈ ty.kids, k.rename ι = k := fun k hk =>
      ih k hk (ty.ordered_kid hk ho) (fun id hid => hι id (Ty.definitions_kid hk hid))
    have hmap : ∀ ts : List Ty, (∀ t ∈ ts, t ∈ ty.kids) → ts.map (Ty.rename ι) = ts :=
      fun ts hts => (map_congr_left (fun t ht => hkid t (hts t ht))).trans (map_id ts)
    have hnom : ∀ nominal : NominalTy, (∀ k ∈ nominal.kids, k ∈ ty.kids) →
        Ty.OrderedNominal nominal → (∀ id ∈ Ty.definitionsNominal nominal, ι id = id) →
        Ty.renameNominal ι nominal = nominal := by
      rintro ⟨d, arguments, bindings⟩ hkids hord hdefs
      simp only [Ty.definitionsNominal, Ty.definitionsBindings_eq, mem_cons, mem_append,
        mem_flatMap] at hdefs
      have hbind : bindings.map (fun b => (ι b.1, b.2.rename ι)) = bindings := by
        refine (map_congr_left (fun b hb => ?_)).trans (map_id bindings)
        have hk : b.2 ∈ ty.kids :=
          hkids b.2 (mem_append_right _ (mem_map_of_mem hb))
        exact Prod.ext (hdefs b.1 (.inr (.inr ⟨b, hb, .inl rfl⟩))) (hkid b.2 hk)
      simp only [Ty.renameNominal, Ty.renameAll_eq, Ty.renameBindings_eq, hbind,
        hdefs d (.inl rfl), Lib.SortedMap.insertAll_self hord.2.1,
        hmap arguments (fun t ht => hkids t (mem_append_left _ ht))]
    cases ty with
    | projection arguments receiver interface member =>
      simp only [Ty.definitions, mem_append, mem_singleton] at hι
      simp only [Ty.rename, Ty.renameAll_eq, hkid receiver (by simp [Ty.kids]), hι member (by simp),
        hmap arguments (fun t ht => by simp [Ty.kids, ht]),
        hnom interface (fun k hk => by simp [Ty.kids, hk]) ho.2.2
          (fun id hid => hι id (by simp [hid]))]
    | tuple elements => simp only [Ty.rename, Ty.renameAll_eq, hmap elements (fun _ h => h)]
    | function params result =>
      simp only [Ty.rename, Ty.renameAll_eq, hmap params (fun t ht => by simp [Ty.kids, ht]),
        hkid result (by simp [Ty.kids])]
    | struct nominal | nativeObject nominal | enum nominal | trait nominal =>
      simp only [Ty.rename, hnom nominal (fun _ h => h) ho hι]
    | host id | selfType id | parameter id position =>
      simp only [Ty.rename, hι id (mem_singleton.mpr rfl)]
    | builtin b => rfl
    | map key value access =>
      simp only [Ty.rename, hkid key (by simp [Ty.kids]), hkid value (by simp [Ty.kids])]
    | iter t | range t a | array t | set t a | reference t a =>
      simp only [Ty.rename, hkid t (by simp [Ty.kids])]

end Kagari
