import Mathlib.Algebra.Order.BigOperators.Group.List
import Mathlib.Algebra.Order.Group.Nat
import Mathlib.Algebra.Ring.Nat

/-!
# Values with children

A value of a `Branching` type has a list of children, and other children can be put in their place.

- `Reaches next p t`: a value with `p` is found from `t` along `next`; `Occurs p t` goes along all
  children
- `search_iff`: a worklist search finds what its list reaches
- `substitute f t`: the outermost values that `f` replaces, each by what `f` gives for it
- `put path x t`: the value at a path replaced. Putting the children of a place one by one, in any
  order, makes up the place (`fill`)
-/

namespace Lib

open List

class Branching (T : Type) where
  children : T → List T
  withChildren : T → List T → T
  children_withChildren (t : T) (ts : List T) :
    ts.length = (children t).length → children (withChildren t ts) = ts
  withChildren_children (t : T) : withChildren t (children t) = t
  withChildren_withChildren (t : T) (ts us : List T) :
    ts.length = (children t).length → withChildren (withChildren t ts) us = withChildren t us
  weighted : ∃ weight : T → Nat, ∀ t, ((children t).map weight).sum < weight t

namespace Branching

variable {T : Type} [Branching T]

/-- A measure that a value has more of than its children together. -/
noncomputable def weight : T → Nat := Classical.choose weighted

theorem weight_children (t : T) : ((children t).map weight).sum < weight t :=
  Classical.choose_spec weighted t

theorem weight_subperm {ts us : List T} (h : ts.Subperm us) : (ts.map weight).sum ≤ (us.map weight).sum := by
  obtain ⟨vs, hperm, hsub⟩ := h
  rw [← (hperm.map weight).sum_eq]
  exact (hsub.map weight).sum_le_sum (by simp)

theorem weight_child {t k : T} (h : k ∈ children t) : weight k < weight t :=
  lt_of_le_of_lt (single_le_sum (by simp) _ (mem_map_of_mem h)) (weight_children t)

/-- Induction over the children. -/
theorem induct {motive : T → Prop} (step : ∀ t, (∀ k ∈ children t, motive k) → motive t) (t : T) :
    motive t :=
  step t fun k _hk => induct step k
termination_by weight t
decreasing_by exact weight_child _hk

/-! ## Searching -/

inductive Reaches (next : T → List T) (p : T → Prop) : T → Prop
  | here {t : T} (h : p t) : Reaches next p t
  | child {t k : T} (hk : k ∈ next t) (h : Reaches next p k) : Reaches next p t

variable {next : T → List T}

variable {p : T → Prop} {t : T}

omit [Branching T] in
theorem reaches_iff :
    Reaches next p t ↔ p t ∨ ∃ k ∈ next t, Reaches next p k := by
  constructor
  · rintro (h | ⟨hk, h⟩)
    · exact .inl h
    · exact .inr ⟨_, hk, h⟩
  · rintro (h | ⟨k, hk, h⟩)
    · exact .here h
    · exact .child hk h

/-- A value with `p` stands in `t`, at any depth. -/
abbrev Occurs (p : T → Prop) : T → Prop := Reaches children p

theorem occurs_iff : Occurs p t ↔ p t ∨ ∃ k ∈ children t, Occurs p k :=
  reaches_iff

omit [Branching T] in
theorem Reaches.mono {p q : T → Prop} (hpq : ∀ u, p u → q u)
    (h : Reaches next p t) : Reaches next q t := by
  induction h with
  | here h => exact .here (hpq _ h)
  | child hk _ ih => exact .child hk ih

omit [Branching T] in
/-- The order of what comes next does not matter. -/
theorem reaches_congr {next next' : T → List T}
    (h : ∀ u k, k ∈ next u ↔ k ∈ next' u) : Reaches next p t ↔ Reaches next' p t := by
  constructor
  · intro hrch
    induction hrch with
    | here hp => exact .here hp
    | child hk _ ih => exact .child ((h _ _).mp hk) ih
  · intro hrch
    induction hrch with
    | here hp => exact .here hp
    | child hk _ ih => exact .child ((h _ _).mpr hk) ih

/-- Along fewer children, less is found. -/
theorem Reaches.occurs
    (hnext : ∀ u, (next u).Subperm (children u)) (h : Reaches next p t) : Occurs p t := by
  induction h with
  | here h => exact .here h
  | child hk _ ih => exact .child ((hnext _).subset hk) ih

/-- A worklist search: it takes the first value of its list, stops at one with `p` and otherwise looks
at what comes `next`. -/
def search (next : T → List T) (hnext : ∀ t, (next t).Subperm (children t)) (p : T → Bool) :
    List T → Bool
  | [] => false
  | t :: pending => p t || search next hnext p (next t ++ pending)
termination_by pending => (pending.map weight).sum
decreasing_by
  have := weight_subperm (hnext t)
  have := weight_children t
  simp only [List.map_cons, List.sum_cons, List.map_append, List.sum_append]
  omega

theorem search_iff {hnext : ∀ t, (next t).Subperm (children t)} {p : T → Bool}
    (pending : List T) :
    search next hnext p pending = true ↔ ∃ t ∈ pending, Reaches next (fun u => p u = true) t := by
  fun_induction search with
  | case1 => simp
  | case2 t pending ih =>
    rw [Bool.or_eq_true, ih]
    simp only [mem_append, mem_cons, or_and_right, exists_or, exists_eq_left]
    rw [reaches_iff, or_assoc]

/-! ## Substituting -/

section Substitute

variable (f : T → Option T)

def substitute (t : T) : T :=
  match f t with
  | some inserted => inserted
  | none => withChildren t ((children t).attach.map fun k => substitute k.1)
termination_by weight t
decreasing_by exact weight_child k.2

variable {f}

theorem substitute_some {t inserted : T} (h : f t = some inserted) : substitute f t = inserted := by
  rw [substitute, h]

theorem substitute_none (h : f t = none) :
    substitute f t = withChildren t ((children t).map (substitute f)) := by
  rw [substitute, h]
  simp only [map_attach_eq_pmap, pmap_eq_map]

/-- Where nothing is replaced, nothing changes. -/
theorem substitute_self (h : ¬ Occurs (fun u => f u ≠ none) t) : substitute f t = t := by
  induction t using induct with
  | step t ih =>
    rw [occurs_iff, not_or, not_not] at h
    have hkids : (children t).map (substitute f) = children t := by
      conv_rhs => rw [← map_id (children t)]
      exact map_congr_left fun k hk => ih k hk fun hocc => h.2 ⟨k, hk, hocc⟩
    rw [substitute_none h.1, hkids, withChildren_children]

/-- What is always replaced, and never by itself, is gone. -/
theorem not_occurs_substitute (hrepd : ∀ u, p u → f u ≠ none)
    (hinsd : ∀ u inserted, f u = some inserted → ¬ Occurs p inserted)
    (hhead : ∀ u ts, ts.length = (children u).length → p (withChildren u ts) → p u) (t : T) :
    ¬ Occurs p (substitute f t) := by
  induction t using induct with
  | step t ih =>
    cases hf : f t with
    | some inserted =>
      rw [substitute_some hf]
      exact hinsd t inserted hf
    | none =>
      rw [substitute_none hf, occurs_iff, children_withChildren t _ (by simp), not_or]
      refine ⟨fun hp => hrepd t (hhead t _ (by simp) hp) hf, ?_⟩
      rintro ⟨k, hk, hocc⟩
      obtain ⟨k, hmem, rfl⟩ := mem_map.mp hk
      exact ih k hmem hocc

end Substitute

/-! ## Places -/

/-- Replace the value at a path of child positions. -/
def put : List Nat → T → T → T
  | [], x, _ => x
  | i :: path, x, t => withChildren t ((children t).modify i (put path x))

theorem put_put (path rest : List Nat) (x u t : T) :
    put (path ++ rest) x (put path u t) = put path (put rest x u) t := by
  induction path generalizing t with
  | nil => rfl
  | cons i path ih =>
    have hmdf : ((children t).modify i (put path u)).modify i (put (path ++ rest) x) =
        (children t).modify i (put path (put rest x u)) := by
      rw [modify_modify_eq]
      exact congrArg _ (funext fun k => ih k)
    rw [cons_append, put, put, put, children_withChildren t _ (by simp),
      withChildren_withChildren t _ _ (by simp), hmdf]

section SetAll

variable {α : Type} {places : List (α × Nat)} {xs ts : List α}

/-- Set one element after the other. -/
def setAll (places : List (α × Nat)) (ts : List α) : List α :=
  places.foldl (fun ts place => ts.set place.2 place.1) ts

@[simp] theorem length_setAll : (setAll places ts).length = ts.length := by
  induction places generalizing ts with
  | nil => rfl
  | cons place places ih => rw [setAll, foldl_cons, ← setAll, ih, length_set]

theorem setAll_other {i : Nat} (h : i ∉ places.map Prod.snd) : (setAll places ts)[i]? = ts[i]? := by
  induction places generalizing ts with
  | nil => rfl
  | cons place places ih =>
    rw [map_cons, mem_cons, not_or] at h
    rw [setAll, foldl_cons, ← setAll, ih h.2, getElem?_set_ne (Ne.symm h.1)]

theorem setAll_mem {x : α} {i : Nat} (hplcs : (places.map Prod.snd).Nodup) (h : (x, i) ∈ places)
    (hi : i < ts.length) : (setAll places ts)[i]? = some x := by
  induction places generalizing ts with
  | nil => cases h
  | cons place places ih =>
    rw [map_cons, nodup_cons] at hplcs
    rw [setAll, foldl_cons, ← setAll]
    rcases mem_cons.mp h with rfl | h
    · rw [setAll_other hplcs.1, getElem?_set_self hi]
    · exact ih hplcs.2 h (by rwa [length_set])

/-- Setting every element, in whatever order. -/
theorem setAll_zipIdx (hplcs : places.Perm xs.zipIdx) (hlen : ts.length = xs.length) :
    setAll places ts = xs := by
  have hnd : (places.map Prod.snd).Nodup := by
    rw [(hplcs.map Prod.snd).nodup_iff, zipIdx_map_snd]
    exact nodup_range'
  apply ext_getElem?
  intro i
  by_cases hi : i < xs.length
  · rw [getElem?_eq_getElem hi]
    refine setAll_mem hnd (hplcs.mem_iff.mpr ?_) (by omega)
    rw [mem_zipIdx_iff_getElem?, getElem?_eq_getElem hi]
  · rw [getElem?_eq_none (by simp; omega), getElem?_eq_none (by omega)]

end SetAll

/-- Put one value after the other at the children of a place. -/
theorem fill {path : List Nat} {t root : T} {xs : List T} {places : List (T × Nat)}
    (hplcs : places.Perm xs.zipIdx) (hlen : xs.length = (children t).length) :
    places.foldl (fun root place => put (path ++ [place.2]) place.1 root) (put path t root) =
      put path (withChildren t xs) root := by
  have hinside : ∀ (places : List (T × Nat)) (t : T),
      places.foldl (fun root place => put (path ++ [place.2]) place.1 root) (put path t root) =
        put path (places.foldl (fun t place => put [place.2] place.1 t) t) root := by
    intro places
    induction places with
    | nil => exact fun _ => rfl
    | cons place places ih => exact fun t => by rw [foldl_cons, put_put, ih, foldl_cons]
  have hset : ∀ (places : List (T × Nat)) (ts : List T), ts.length = (children t).length →
      places.foldl (fun t place => put [place.2] place.1 t) (withChildren t ts) =
        withChildren t (setAll places ts) := by
    intro places
    induction places with
    | nil => exact fun _ _ => rfl
    | cons place places ih =>
      intro ts hts
      have hput : put [place.2] place.1 (withChildren t ts) =
          withChildren t (ts.set place.2 place.1) := by
        rw [put, children_withChildren t ts hts, withChildren_withChildren t _ _ hts,
          set_eq_modify]
        rfl
      rw [foldl_cons, hput, ih _ (by rwa [length_set])]
      rfl
  have hall := hset places (children t) rfl
  rw [withChildren_children, setAll_zipIdx hplcs hlen.symm] at hall
  rw [hinside, hall]

end Branching

end Lib
