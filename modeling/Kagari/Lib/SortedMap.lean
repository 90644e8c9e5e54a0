import Mathlib.Data.List.Sort

/-!
# Ordered maps as strictly sorted association lists

An ordered map is the list of its entries by increasing key: `Keyed m` says so, and `insert`
keeps it. Two ordered maps with the same entries are the same list (`eq_of_perm`), so the order
in which entries were inserted does not matter (`insertAll_perm`).

The `Except` inversion `bind_ok` peels a successful computation apart one bind at a time.
-/

namespace Lib

open List

/-- A successful bind: its first part succeeded, and so did the continuation on its value. -/
theorem bind_ok {ε α β : Type} {x : Except ε α} {f : α → Except ε β} {b : β} :
    (x >>= f) = .ok b ↔ ∃ a, x = .ok a ∧ f a = .ok b := by
  cases x with
  | error e => simp [bind, Except.bind]
  | ok a => simp [bind, Except.bind]

theorem ok_of_toOption {ε α : Type} {r : Except ε α} {a : α} (h : r.toOption = some a) :
    r = .ok a := by
  cases r with
  | error e => cases h
  | ok b => exact congrArg Except.ok (Option.some.inj h)

@[simp] theorem ok_bind {ε α β : Type} (a : α) (f : α → Except ε β) :
    ((Except.ok a : Except ε α) >>= f) = f a := rfl

/-- Elements of lists that are related one by one. -/
theorem forall₂_mem {α β : Type*} {R : α → β → Prop} {l : List α} {l' : List β} (h : List.Forall₂ R l l') :
    (∀ a ∈ l, ∃ b ∈ l', R a b) ∧ ∀ b ∈ l', ∃ a ∈ l, R a b := by
  induction h with
  | nil => exact ⟨nofun, nofun⟩
  | cons hR _ ih =>
    obtain ⟨hrt, hleft⟩ := ih
    refine ⟨?_, ?_⟩
    · refine forall_mem_cons.mpr ⟨⟨_, mem_cons_self, hR⟩, fun a ha => ?_⟩
      obtain ⟨b, hb, hR'⟩ := hrt a ha
      exact ⟨b, mem_cons_of_mem _ hb, hR'⟩
    · refine forall_mem_cons.mpr ⟨⟨_, mem_cons_self, hR⟩, fun b hb => ?_⟩
      obtain ⟨a, ha, hR'⟩ := hleft b hb
      exact ⟨a, mem_cons_of_mem _ ha, hR'⟩

namespace SortedMap

variable {K V : Type*} [LinearOrder K]

/-- The entries stand by strictly increasing key. -/
def Keyed (m : List (K × V)) : Prop := (m.map Prod.fst).Pairwise (· < ·)

/-- Put `v` at `k`, in place of the value that was there. -/
def insert (k : K) (v : V) : List (K × V) → List (K × V)
  | [] => [(k, v)]
  | (k', v') :: m =>
    if k < k' then (k, v) :: (k', v') :: m
    else if k = k' then (k, v) :: m
    else (k', v') :: insert k v m

/-- Insert every entry of a list, the first one first. -/
def insertAll (entries m : List (K × V)) : List (K × V) :=
  entries.foldl (fun m e => insert e.1 e.2 m) m

/-- Whether `k` has a value. -/
def contains (k : K) (m : List (K × V)) : Bool := m.any (fun e => e.1 == k)

variable {m : List (K × V)}

variable {k : K} {v : V}

theorem contains_iff :
    contains k m = true ↔ k ∈ m.map Prod.fst := by
  simp [contains]

theorem contains_false_iff :
    contains k m = false ↔ k ∉ m.map Prod.fst := by
  rw [← contains_iff, Bool.not_eq_true]

theorem Keyed.nodup (h : Keyed m) : (m.map Prod.fst).Nodup :=
  h.imp (fun hlt => ne_of_lt hlt)

/-- A key above all others is put last. -/
theorem insert_of_lt (h : ∀ e ∈ m, e.1 < k) :
    insert k v m = m ++ [(k, v)] := by
  induction m with
  | nil => rfl
  | cons e m ih =>
    obtain ⟨hlt, hrest⟩ := forall_mem_cons.mp h
    unfold insert
    rw [if_neg (not_lt_of_gt hlt), if_neg (ne_of_gt hlt), ih hrest, cons_append]

/-- The keys after an insertion are the keys before it and the new one. -/
theorem mem_keys_insert {k x : K} :
    x ∈ (insert k v m).map Prod.fst ↔ x = k ∨ x ∈ m.map Prod.fst := by
  induction m with
  | nil => simp [insert]
  | cons e m ih =>
    obtain ⟨k', v'⟩ := e
    unfold insert
    split
    · simp
    · split
      · rename_i heq
        subst heq
        simp
      · rw [map_cons, mem_cons, ih, map_cons, mem_cons]
        tauto

theorem keyed_insert (h : Keyed m) : Keyed (insert k v m) := by
  induction m with
  | nil => simp [insert, Keyed]
  | cons e m ih =>
    obtain ⟨k', v'⟩ := e
    have htail : Keyed m := (pairwise_cons.mp h).2
    have hhead : ∀ x ∈ m.map Prod.fst, k' < x := (pairwise_cons.mp h).1
    unfold insert
    split
    · rename_i hlt
      refine pairwise_cons.mpr ⟨fun x hx => ?_, h⟩
      rcases mem_cons.mp hx with rfl | hx
      · exact hlt
      · exact lt_trans hlt (hhead x hx)
    · split
      · rename_i heq
        subst heq
        exact h
      · rename_i hlt hne
        refine pairwise_cons.mpr ⟨fun x hx => ?_, ih htail⟩
        rcases mem_keys_insert.mp hx with rfl | hx
        · exact lt_of_le_of_ne (not_lt.mp hlt) (Ne.symm hne)
        · exact hhead x hx

/-- Inserting a new key adds one entry and touches no other. -/
theorem insert_perm (h : k ∉ m.map Prod.fst) :
    (insert k v m).Perm ((k, v) :: m) := by
  induction m with
  | nil => exact .refl _
  | cons e m ih =>
    obtain ⟨k', v'⟩ := e
    have hne : k ≠ k' := fun heq => h (by simp [heq])
    have htail : k ∉ m.map Prod.fst := fun hmem => h (mem_cons_of_mem _ hmem)
    unfold insert
    rw [if_neg hne]
    split
    · exact .refl _
    · exact ((ih htail).cons _).trans (.swap _ _ _)

theorem keyed_insertAll {entries m : List (K × V)} (h : Keyed m) : Keyed (insertAll entries m) := by
  induction entries generalizing m with
  | nil => exact h
  | cons e entries ih => exact ih (keyed_insert h)

/-- Inserting entries with new, distinct keys keeps every one of them. -/
theorem insertAll_perm_append {entries m : List (K × V)}
    (h : ((entries ++ m).map Prod.fst).Nodup) : (insertAll entries m).Perm (entries ++ m) := by
  induction entries generalizing m with
  | nil => exact .refl _
  | cons e entries ih =>
    obtain ⟨k, v⟩ := e
    have hmid : ((entries ++ (k, v) :: m).map Prod.fst).Nodup :=
      (perm_middle.map Prod.fst).nodup_iff.mpr h
    have hnew : k ∉ m.map Prod.fst := by
      intro hmem
      rw [cons_append, map_cons, nodup_cons, map_append] at h
      exact h.1 (mem_append_right _ hmem)
    have hins : (entries ++ insert k v m).Perm (entries ++ (k, v) :: m) :=
      (insert_perm hnew).append_left _
    have hnd : ((entries ++ insert k v m).map Prod.fst).Nodup :=
      (hins.map Prod.fst).nodup_iff.mpr hmid
    exact (ih hnd).trans (hins.trans perm_middle)

/-- Ordered maps with the same entries are equal. -/
theorem eq_of_perm {m m' : List (K × V)} (h : Keyed m) (h' : Keyed m') (hp : m.Perm m') :
    m = m' := by
  have hlt : ∀ {l : List (K × V)}, Keyed l → l.Pairwise (fun a b => a.1 < b.1) :=
    fun hl => pairwise_map.mp hl
  refine hp.eq_of_pairwise (fun a b _ _ hab hba => ?_) (hlt h) (hlt h')
  exact absurd hab (not_lt.mpr (le_of_lt hba))

/-- The order of insertion does not matter for distinct keys. -/
theorem insertAll_perm {entries entries' : List (K × V)} (hp : entries.Perm entries')
    (h : (entries.map Prod.fst).Nodup) : insertAll entries [] = insertAll entries' [] := by
  have hnil : Keyed ([] : List (K × V)) := List.Pairwise.nil
  have h' : (entries'.map Prod.fst).Nodup := (hp.map Prod.fst).nodup_iff.mp h
  refine eq_of_perm (keyed_insertAll hnil) (keyed_insertAll hnil) ?_
  have he : (insertAll entries []).Perm (entries ++ []) := insertAll_perm_append (by simpa using h)
  have he' : (insertAll entries' []).Perm (entries' ++ []) :=
    insertAll_perm_append (by simpa using h')
  rw [append_nil] at he he'
  exact he.trans (hp.trans he'.symm)

/-- Inserting the entries of an ordered map gives it back. -/
theorem insertAll_self (h : Keyed m) : insertAll m [] = m := by
  refine eq_of_perm (keyed_insertAll List.Pairwise.nil) h ?_
  have hp : (insertAll m []).Perm (m ++ []) := insertAll_perm_append (by simpa using h.nodup)
  rwa [append_nil] at hp

theorem mem_keys_insertAll {x : K} {entries m : List (K × V)} :
    x ∈ (insertAll entries m).map Prod.fst ↔ x ∈ entries.map Prod.fst ∨ x ∈ m.map Prod.fst := by
  induction entries generalizing m with
  | nil => simp [insertAll]
  | cons e entries ih =>
    show x ∈ (insertAll entries (insert e.1 e.2 m)).map Prod.fst ↔ _
    rw [ih, mem_keys_insert, map_cons, mem_cons]
    tauto

/-- The entries after an insertion. -/
theorem mem_insert {e : K × V} (h : Keyed m) :
    e ∈ insert k v m ↔ e = (k, v) ∨ e.1 ≠ k ∧ e ∈ m := by
  induction m with
  | nil => simp [insert]
  | cons e' m ih =>
    obtain ⟨k', v'⟩ := e'
    have hhead : ∀ x ∈ m, k' < x.1 := fun x hx => (pairwise_cons.mp h).1 x.1 (mem_map_of_mem hx)
    unfold insert
    split
    · rename_i hlt
      have hne : ∀ x ∈ (k', v') :: m, x.1 ≠ k := by
        intro x hx
        rcases mem_cons.mp hx with rfl | hx
        · exact ne_of_gt hlt
        · exact ne_of_gt (lt_trans hlt (hhead x hx))
      rw [mem_cons]
      grind
    · split
      · rename_i heq
        subst heq
        have hne : ∀ x ∈ m, x.1 ≠ k := fun x hx => ne_of_gt (hhead x hx)
        rw [mem_cons, mem_cons]
        grind
      · rename_i hne
        rw [mem_cons, ih (pairwise_cons.mp h).2, mem_cons]
        grind

/-- What is found under a key is the entry with that key. -/
theorem lookup_iff [BEq K] [LawfulBEq K] (h : Keyed m) :
    m.lookup k = some v ↔ (k, v) ∈ m := by
  induction m with
  | nil => simp
  | cons e m ih =>
    obtain ⟨k', v'⟩ := e
    have hhead : ∀ x ∈ m, k' < x.1 := fun x hx => (pairwise_cons.mp h).1 x.1 (mem_map_of_mem hx)
    by_cases hk : k = k'
    · subst hk
      have hnot : (k, v) ∉ m := fun hmem => absurd (hhead _ hmem) (lt_irrefl k)
      simp [hnot, eq_comm]
    · have hbeq : (k == k') = false := by simp [hk]
      rw [lookup_cons, hbeq]
      simp [ih (pairwise_cons.mp h).2, hk]

end SortedMap

/-! ## Ordered sets -/

namespace SortedSet

variable {α : Type*} [LinearOrder α]

/-- The increasing list of the elements. -/
def ofList (items : List α) : List α :=
  (SortedMap.insertAll (items.map fun a => (a, ())) []).map Prod.fst

@[simp] theorem mem_ofList {a : α} {items : List α} : a ∈ ofList items ↔ a ∈ items := by
  unfold ofList
  rw [SortedMap.mem_keys_insertAll]
  simp

variable (items : List α)

theorem pairwise_ofList : (ofList items).Pairwise (· < ·) :=
  SortedMap.keyed_insertAll List.Pairwise.nil

theorem nodup_ofList : (ofList items).Nodup :=
  (pairwise_ofList items).imp fun hlt => ne_of_lt hlt

/-- Increasing lists with the same elements are equal. -/
theorem eq_of_mem_iff {l l' : List α} (h : l.Pairwise (· < ·)) (h' : l'.Pairwise (· < ·))
    (hmem : ∀ a, a ∈ l ↔ a ∈ l') : l = l' := by
  have hp : l.Perm l' := (perm_ext_iff_of_nodup (h.imp fun hlt => ne_of_lt hlt)
    (h'.imp fun hlt => ne_of_lt hlt)).mpr hmem
  refine hp.eq_of_pairwise (fun a b _ _ hab hba => ?_) h h'
  exact absurd hab (not_lt.mpr (le_of_lt hba))

end SortedSet

end Lib
