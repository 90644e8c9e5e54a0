import Mathlib.Data.List.Sort

/-!
# Merge sort with comparisons that may fail

`sortM compare` is a merge sort in a monad, for comparisons that may stop it. Where they return what the
keys of the elements say, the sort returns the elements by increasing key (`sortM_spec`). With distinct
keys there is only one such list (`eq_of_sorted`).
-/

namespace Lib

open List

variable {α K : Type} {m : Type → Type} [Monad m]

/-- Merge two lists, the first element of the left one first unless it is greater. -/
def mergeM (compare : α → α → m Ordering) : List α → List α → m (List α)
  | [], right => pure right
  | left, [] => pure left
  | a :: left, b :: right => do
    let order ← compare a b
    if order ≠ .gt then do
      let merged ← mergeM compare left (b :: right)
      pure (a :: merged)
    else do
      let merged ← mergeM compare (a :: left) right
      pure (b :: merged)
termination_by left right => left.length + right.length

def sortM (compare : α → α → m Ordering) (values : List α) : m (List α) :=
  if values.length < 2 then pure values
  else do
    let middle := values.length / 2
    let left ← sortM compare (values.take middle)
    let right ← sortM compare (values.drop middle)
    mergeM compare left right
termination_by values.length
decreasing_by
  · rw [List.length_take]
    omega
  · rw [List.length_drop]
    omega

section Spec

variable [LawfulMonad m] [LinearOrder K] {compare : α → α → m Ordering} (key : α → K)

theorem mergeM_spec (left right : List α)
    (hcmp : ∀ a ∈ left, ∀ b ∈ right, compare a b = pure (Ord.compare (key a) (key b)))
    (hleft : left.Pairwise fun a b => key a ≤ key b) (hrt : right.Pairwise fun a b => key a ≤ key b) :
    ∃ out, mergeM compare left right = pure out ∧ out.Perm (left ++ right) ∧
      out.Pairwise fun a b => key a ≤ key b := by
  induction left, right using mergeM.induct with
  | case1 right => exact ⟨right, by rw [mergeM], .refl _, hrt⟩
  | case2 left hne =>
    refine ⟨left, ?_, by rw [append_nil], hleft⟩
    cases left with
    | nil => exact absurd rfl hne
    | cons a left => rw [mergeM]; nofun
  | case3 a left b right ihleft ihright =>
    obtain ⟨hle, hleft'⟩ := pairwise_cons.mp hleft
    obtain ⟨hge, hrt'⟩ := pairwise_cons.mp hrt
    rw [mergeM, hcmp a mem_cons_self b mem_cons_self, pure_bind]
    by_cases hab : key a ≤ key b
    · obtain ⟨out, hout, hperm, hsrtd⟩ := ihleft
        (fun x hx y hy => hcmp x (mem_cons_of_mem _ hx) y hy) hleft' hrt
      refine ⟨a :: out, ?_, hperm.cons a, pairwise_cons.mpr ⟨fun x hx => ?_, hsrtd⟩⟩
      · rw [if_pos (compare_le_iff_le.mpr hab), hout, pure_bind]
      · rcases mem_append.mp (hperm.mem_iff.mp hx) with hx | hx
        · exact hle x hx
        · rcases mem_cons.mp hx with rfl | hx
          · exact hab
          · exact le_trans hab (hge x hx)
    · obtain ⟨out, hout, hperm, hsrtd⟩ := ihright
        (fun x hx y hy => hcmp x hx y (mem_cons_of_mem _ hy)) hleft hrt'
      refine ⟨b :: out, ?_, (hperm.cons b).trans perm_middle.symm,
        pairwise_cons.mpr ⟨fun x hx => ?_, hsrtd⟩⟩
      · rw [if_neg (fun h => hab (compare_le_iff_le.mp h)), hout, pure_bind]
      · have hba := le_of_not_ge hab
        rcases mem_append.mp (hperm.mem_iff.mp hx) with hx | hx
        · rcases mem_cons.mp hx with rfl | hx
          · exact hba
          · exact le_trans hba (hle x hx)
        · exact hge x hx

/-- Where the comparisons return what the keys say, the sort returns. -/
theorem sortM_spec (values : List α)
    (hcmp : ∀ a ∈ values, ∀ b ∈ values, compare a b = pure (Ord.compare (key a) (key b))) :
    ∃ out, sortM compare values = pure out ∧ out.Perm values ∧
      out.Pairwise fun a b => key a ≤ key b := by
  induction values using sortM.induct with
  | case1 values hshort =>
    refine ⟨values, by rw [sortM, if_pos hshort], .refl _, ?_⟩
    match values with
    | [] => exact .nil
    | [a] => exact pairwise_singleton _ a
    | a :: b :: values =>
      simp only [length_cons] at hshort
      omega
  | case2 values hlong middle ihleft ihright =>
    have htake : ∀ a ∈ values.take middle, a ∈ values := fun a ha => mem_of_mem_take ha
    have hdrop : ∀ a ∈ values.drop middle, a ∈ values := fun a ha => mem_of_mem_drop ha
    obtain ⟨left, hleft, hpleft, hsleft⟩ := ihleft
      (fun a ha b hb => hcmp a (htake a ha) b (htake b hb))
    obtain ⟨right, hrt, hpright, hsright⟩ := ihright
      (fun a ha b hb => hcmp a (hdrop a ha) b (hdrop b hb))
    obtain ⟨out, hout, hperm, hsrtd⟩ := mergeM_spec key left right
      (fun a ha b hb => hcmp a (htake a (hpleft.mem_iff.mp ha)) b (hdrop b (hpright.mem_iff.mp hb)))
      hsleft hsright
    refine ⟨out, ?_, hperm.trans ?_, hsrtd⟩
    · rw [sortM, if_neg hlong]
      show (sortM compare (values.take middle) >>= fun left =>
        sortM compare (values.drop middle) >>= fun right => mergeM compare left right) = _
      rw [hleft, pure_bind, hrt, pure_bind, hout]
    · have hspl := hpleft.append hpright
      rwa [take_append_drop] at hspl

/-- Elements with different keys are put by strictly increasing key. -/
theorem sortM_strict {values : List α}
    (hcmp : ∀ a ∈ values, ∀ b ∈ values, compare a b = pure (Ord.compare (key a) (key b)))
    (hkeys : (values.map key).Nodup) :
    ∃ out, sortM compare values = pure out ∧ out.Perm values ∧ out.Pairwise fun a b => key a < key b := by
  obtain ⟨out, hout, hperm, hsrtd⟩ := sortM_spec key values hcmp
  refine ⟨out, hout, hperm, ?_⟩
  have hnd : out.Pairwise fun a b => key a ≠ key b :=
    pairwise_map.mp ((hperm.map key).nodup_iff.mpr hkeys)
  exact (hsrtd.and hnd).imp fun ⟨hle, hne⟩ => lt_of_le_of_ne hle hne

end Spec

variable (key : α → K)

/-- Two lists of the same elements by increasing key are equal when no two elements share a key. -/
theorem eq_of_sorted [LinearOrder K] {l l' : List α} (hp : l.Perm l')
    (hkeys : (l.map key).Nodup) (h : l.Pairwise fun a b => key a ≤ key b)
    (h' : l'.Pairwise fun a b => key a ≤ key b) : l = l' := by
  refine hp.eq_of_pairwise (fun a b ha hb hab hba => ?_) h h'
  exact inj_on_of_nodup_map hkeys ha (hp.mem_iff.mpr hb) (le_antisymm hab hba)

/-- Two lists of the same elements by strictly increasing key are equal. -/
theorem eq_of_strict [LinearOrder K] {l l' : List α} (hmem : ∀ a, a ∈ l ↔ a ∈ l')
    (h : l.Pairwise fun a b => key a < key b) (h' : l'.Pairwise fun a b => key a < key b) : l = l' := by
  have hnd : ∀ {l : List α}, (l.Pairwise fun a b => key a < key b) → l.Nodup :=
    fun h => h.imp fun hlt heq => absurd (congrArg key heq) (ne_of_lt hlt)
  have hp : l.Perm l' := (perm_ext_iff_of_nodup (hnd h) (hnd h')).mpr hmem
  refine hp.eq_of_pairwise (fun a b _ _ hab hba => ?_) h h'
  exact absurd hab (not_lt.mpr (le_of_lt hba))

end Lib
