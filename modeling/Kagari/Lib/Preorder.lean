import Mathlib.Data.List.Forall2
import Mathlib.Order.Lattice

/-!
# Preorder codes of trees

- `Tree`: leaves, and nodes with a list of children
- `Tree.code`: the codes of leaves and nodes in preorder, a node's with its number of children. It
  determines the tree when no code of a leaf or node starts another
- `unfold`: the tree that a graph shows at a node, when no branch is deeper than the fuel
-/

namespace Lib

open List Option

inductive Tree (L N : Type) where
  | leaf (label : L)
  | node (label : N) (children : List (Tree L N))

namespace Tree

variable {L N M C : Type}

@[elab_as_elim]
theorem induct {motive : Tree L N → Prop} (leaf : ∀ a, motive (.leaf a))
    (node : ∀ b children, (∀ t ∈ children, motive t) → motive (.node b children)) (t : Tree L N) :
    motive t :=
  @Tree.rec L N motive (fun children => ∀ t ∈ children, motive t) leaf node (by simp)
    (by simp +contextual) t

/-! ## Relabelling nodes -/

mutual

def map (f : N → M) : Tree L N → Tree L M
  | .leaf a => .leaf a
  | .node b children => .node (f b) (mapAll f children)

def mapAll (f : N → M) : List (Tree L N) → List (Tree L M)
  | [] => []
  | t :: children => map f t :: mapAll f children

end

theorem mapAll_eq (f : N → M) (children : List (Tree L N)) : mapAll f children = children.map (map f) := by
  induction children with
  | nil => rfl
  | cons t children ih => simp [mapAll, ih]

/-- The label of the node that a path of child positions leads to. -/
def labelAt : Tree L N → List Nat → Option N
  | .leaf _, _ => none
  | .node b _, [] => some b
  | .node _ children, i :: path => (children[i]?).bind fun t => labelAt t path
termination_by structural _ path => path

/-- Trees that agree after relabelling are equal where no two labels on one path are confused. -/
theorem eq_of_map {f : N → M} (t : Tree L N) : ∀ s : Tree L N, t.map f = s.map f →
    (∀ path a b, t.labelAt path = some a → s.labelAt path = some b → f a = f b → a = b) → t = s := by
  induction t using induct with
  | leaf a =>
    intro s hmap _
    cases s with
    | leaf b => simpa [map] using hmap
    | node b children => simp [map] at hmap
  | node a children ih =>
    intro s hmap hlabels
    cases s with
    | leaf b => simp [map] at hmap
    | node b others =>
      simp only [map, mapAll_eq, node.injEq] at hmap
      obtain ⟨hlbl, hkids⟩ := hmap
      have hab : a = b := hlabels [] a b rfl rfl hlbl
      have hlength : children.length = others.length := by simpa using congrArg List.length hkids
      have hall : children = others := by
        apply ext_getElem hlength
        intro i hi hi'
        apply ih _ (getElem_mem hi)
        · have := congrArg (·[i]?) hkids
          simpa [hi, hi'] using this
        · intro path x y hx hy hxy
          apply hlabels (i :: path) x y _ _ hxy
          · simpa [labelAt, hi] using hx
          · simpa [labelAt, hi'] using hy
      rw [hab, hall]

/-! ## Codes -/

variable (atom : L → List C) (head : N → Nat → List C)

mutual

def code : Tree L N → List C
  | .leaf a => atom a
  | .node b children => head b children.length ++ codeAll children

def codeAll : List (Tree L N) → List C
  | [] => []
  | t :: children => code t ++ codeAll children

end

theorem codeAll_append (ts ss : List (Tree L N)) :
    codeAll atom head (ts ++ ss) = codeAll atom head ts ++ codeAll atom head ss := by
  induction ts with
  | nil => rfl
  | cons t ts ih => simp [codeAll, ih]

theorem code_map (f : M → N) (t : Tree L M) :
    code atom head (t.map f) = code atom (fun b => head (f b)) t := by
  induction t using induct with
  | leaf a => rfl
  | node b children ih =>
    have hall : ∀ ts : List (Tree L M), (∀ t ∈ ts, code atom head (t.map f) = code atom (fun b => head (f b)) t) →
        codeAll atom head (ts.map (map f)) = codeAll atom (fun b => head (f b)) ts := by
      intro ts h
      induction ts with
      | nil => rfl
      | cons t ts ihts =>
        simp only [map_cons, codeAll]
        rw [h t mem_cons_self, ihts fun s hs => h s (mem_cons_of_mem t hs)]
    simp only [map, code, mapAll_eq, length_map]
    rw [hall children ih]

/-- Codes of one leaf or node: none is the start of another. -/
structure Unambiguous : Prop where
  leaf : ∀ {a b u v}, atom a ++ u = atom b ++ v → a = b ∧ u = v
  node : ∀ {a b n m u v}, head a n ++ u = head b m ++ v → a = b ∧ n = m ∧ u = v
  apart : ∀ {a b n u v}, atom a ++ u ≠ head b n ++ v

variable {atom head}

/-- A tree's code says where it ends. -/
theorem code_append_injective (h : Unambiguous atom head) (t : Tree L N) : ∀ (s : Tree L N) (u v : List C),
    code atom head t ++ u = code atom head s ++ v → t = s ∧ u = v := by
  induction t using induct with
  | leaf a =>
    intro s u v hcode
    cases s with
    | leaf b =>
      obtain ⟨rfl, rest⟩ := h.leaf hcode
      exact ⟨rfl, rest⟩
    | node b children =>
      simp only [code, append_assoc] at hcode
      exact absurd hcode h.apart
  | node a children ih =>
    intro s u v hcode
    cases s with
    | leaf b =>
      simp only [code, append_assoc] at hcode
      exact absurd hcode.symm h.apart
    | node b others =>
      simp only [code, append_assoc] at hcode
      obtain ⟨rfl, hlength, rest⟩ := h.node hcode
      suffices hall : ∀ ts ss : List (Tree L N), (∀ t ∈ ts, t ∈ children) → ts.length = ss.length →
          ∀ u v, codeAll atom head ts ++ u = codeAll atom head ss ++ v → ts = ss ∧ u = v by
        obtain ⟨rfl, huv⟩ := hall children others (fun _ ht => ht) hlength u v rest
        exact ⟨rfl, huv⟩
      intro ts
      induction ts with
      | nil =>
        intro ss _ hnil u v hrest
        obtain rfl : ss = [] := length_eq_zero_iff.mp hnil.symm
        exact ⟨rfl, hrest⟩
      | cons t ts ihts =>
        intro ss hmem hlen u v hrest
        cases ss with
        | nil => simp at hlen
        | cons s ss =>
          simp only [codeAll, append_assoc] at hrest
          obtain ⟨rfl, htail⟩ := ih t (hmem t mem_cons_self) s _ _ hrest
          obtain ⟨rfl, huv⟩ := ihts ss (fun x hx => hmem x (mem_cons_of_mem t hx))
            (by simpa using hlen) u v htail
          exact ⟨rfl, huv⟩

theorem code_injective (h : Unambiguous atom head) {t s : Tree L N} (hcode : code atom head t = code atom head s) :
    t = s :=
  (code_append_injective h t s [] [] (by rw [hcode])).1

end Tree

/-! ## Trees of a graph -/

/-- One level of a graph's node: a leaf, or a node with the children it refers to. -/
inductive Layer (L N V : Type) where
  | leaf (label : L)
  | node (label : N) (children : List V)

section Unfold

variable {L N V : Type} (layer : V → Option (Layer L N V))

def unfold : Nat → V → Option (Tree L N)
  | 0, _ => none
  | fuel + 1, v => do
    match ← layer v with
    | .leaf a => some (.leaf a)
    | .node b children => return .node b (← children.mapM (unfold fuel))

def Unfolds (v : V) (t : Tree L N) : Prop := ∃ fuel, unfold layer fuel v = some t

variable {layer} {v : V} {t : Tree L N} {b : N}

attribute [local simp] unfold

theorem mapM_some_iff {X Y : Type} {f : X → Option Y} {xs : List X} {ys : List Y} :
    xs.mapM f = some ys ↔ List.Forall₂ (fun x y => f x = some y) xs ys := by
  induction xs generalizing ys with
  | nil => simp [eq_comm]
  | cons x xs ih =>
    cases ys with
    | nil => simp [mapM_cons, bind_eq_some_iff]
    | cons y ys => simp [mapM_cons, bind_eq_some_iff, ih]

theorem unfold_mono {fuel more : Nat} (hle : fuel ≤ more) :
    ∀ {v : V} {t : Tree L N}, unfold layer fuel v = some t → unfold layer more v = some t := by
  induction fuel generalizing more with
  | zero => intro v t h; cases h
  | succ fuel ih =>
    intro v t h
    obtain ⟨more, rfl⟩ : ∃ n, more = n + 1 := ⟨more - 1, by omega⟩
    cases hlay : layer v with
    | none => simp [hlay] at h
    | some l =>
      cases l with
      | leaf a => simpa [hlay] using h
      | node b children =>
        simp only [unfold, hlay, Option.bind_eq_bind, Option.bind_some, Option.pure_def,
          Option.bind_eq_some_iff, mapM_some_iff] at h ⊢
        obtain ⟨ts, hall, heq⟩ := h
        exact ⟨ts, hall.imp fun _ _ => ih (by omega), heq⟩

variable {children : List V} {ts : List (Tree L N)}

/-- Finitely many nodes share a fuel. -/
theorem forall₂_unfolds :
    List.Forall₂ (Unfolds layer) children ts ↔ ∃ fuel, children.mapM (unfold layer fuel) = some ts := by
  simp only [mapM_some_iff]
  constructor
  · intro h
    induction h with
    | nil => exact ⟨0, .nil⟩
    | cons hv _ ih =>
      obtain ⟨f, hf⟩ := hv
      obtain ⟨g, hg⟩ := ih
      exact ⟨max f g, .cons (unfold_mono (le_max_left f g) hf)
        (hg.imp fun _ _ => unfold_mono (le_max_right f g))⟩
  · rintro ⟨fuel, h⟩
    exact h.imp fun _ _ hv => ⟨fuel, hv⟩

theorem Unfolds.leaf {a : L} (hlay : layer v = some (.leaf a)) : Unfolds layer v (.leaf a) :=
  ⟨1, by simp [hlay]⟩

theorem Unfolds.node (hlay : layer v = some (.node b children))
    (hkids : List.Forall₂ (Unfolds layer) children ts) : Unfolds layer v (.node b ts) := by
  obtain ⟨fuel, h⟩ := forall₂_unfolds.mp hkids
  exact ⟨fuel + 1, by simp [hlay, h]⟩

theorem Unfolds.unique {s : Tree L N} (h : Unfolds layer v t) (h' : Unfolds layer v s) : t = s := by
  obtain ⟨f, hf⟩ := h
  obtain ⟨g, hg⟩ := h'
  have hmax := unfold_mono (le_max_left f g) hf
  rw [unfold_mono (le_max_right f g) hg] at hmax
  exact (some.inj hmax).symm

theorem Unfolds.layer_leaf {a : L} (h : Unfolds layer v (.leaf a)) : layer v = some (.leaf a) := by
  obtain ⟨fuel, h⟩ := h
  cases fuel with
  | zero => cases h
  | succ fuel =>
    cases hlay : layer v with
    | none => simp [hlay] at h
    | some l =>
      cases l with
      | leaf a => simpa [hlay] using h
      | node b children => simp [hlay, bind_eq_some_iff] at h

theorem Unfolds.layer_node (h : Unfolds layer v (.node b ts)) :
    ∃ children, layer v = some (.node b children) ∧ List.Forall₂ (Unfolds layer) children ts := by
  obtain ⟨fuel, h⟩ := h
  cases fuel with
  | zero => cases h
  | succ fuel =>
    cases hlay : layer v with
    | none => simp [hlay] at h
    | some l =>
      cases l with
      | leaf a => simp [hlay] at h
      | node b children =>
        simp only [unfold, hlay, Option.bind_eq_bind, Option.bind_some, Option.pure_def,
          Option.bind_eq_some_iff, Option.some.injEq, Tree.node.injEq] at h
        obtain ⟨ts, hall, rfl, rfl⟩ := h
        exact ⟨children, rfl, forall₂_unfolds.mpr ⟨fuel, hall⟩⟩

end Unfold

end Lib
