import Kagari.Lib.Reveals

/-!
# First occurrences

- `List.eraseDups` keeps the first of equal items: it absorbs itself on either side of `++`
- `retainLoop`: the loop that keeps the items whose key is new. Where two keys are equal exactly when
  their items are, it keeps the first occurrences (`retainLoop_outcome`)
-/

namespace Lib

section EraseDups

variable {α : Type} [BEq α] [LawfulBEq α] {l : List α}

theorem eraseDups_filter (p : α → Bool) (l : List α) : (l.filter p).eraseDups = l.eraseDups.filter p := by
  induction h : l.length using Nat.strong_induction_on generalizing l with
  | _ n ih =>
    cases l with
    | nil => rfl
    | cons a l =>
      have hle := List.length_filter_le (fun b => !b == a) l
      simp only [List.length_cons] at h
      have htail : (l.filter fun b => !b == a).eraseDups.filter p =
          ((l.filter p).filter fun b => !b == a).eraseDups := by
        rw [← ih _ (by omega) _ rfl, List.filter_comm]
      cases hp : p a with
      | true => simp [hp, List.eraseDups_cons, htail]
      | false =>
        rw [List.filter_cons, if_neg (by simp [hp]), List.eraseDups_cons, List.filter_cons,
          if_neg (by simp [hp]), htail]
        congr 1
        symm
        apply List.filter_eq_self.mpr
        intro b hb
        have hpb := (List.mem_filter.mp hb).2
        grind

theorem nodup_eraseDups (l : List α) : l.eraseDups.Nodup := by
  induction h : l.length using Nat.strong_induction_on generalizing l with
  | _ n ih =>
    cases l with
    | nil => exact List.nodup_nil
    | cons a l =>
      have hle := List.length_filter_le (fun b => !b == a) l
      simp only [List.length_cons] at h
      rw [List.eraseDups_cons]
      refine List.nodup_cons.mpr ⟨?_, ih _ (by omega) _ rfl⟩
      simp [List.mem_eraseDups]

theorem eraseDups_of_nodup (h : l.Nodup) : l.eraseDups = l := by
  induction l with
  | nil => rfl
  | cons a l ih =>
    obtain ⟨hnew, hrest⟩ := List.nodup_cons.mp h
    rw [List.eraseDups_cons, List.filter_eq_self.mpr, ih hrest]
    intro b hb
    grind

theorem removeAll_congr {as bs : List α} (h : ∀ a, a ∈ as ↔ a ∈ bs) (l : List α) :
    l.removeAll as = l.removeAll bs := by
  unfold List.removeAll
  apply List.filter_congr
  intro a _
  simp [h]

variable (as bs : List α)

/-- Duplicates in front that are removed first make no difference. -/
theorem eraseDups_append_left : (as.eraseDups ++ bs).eraseDups = (as ++ bs).eraseDups := by
  rw [List.eraseDups_append, List.eraseDups_append, eraseDups_of_nodup (nodup_eraseDups as),
    removeAll_congr fun a => List.mem_eraseDups]

theorem eraseDups_append_right : (as ++ bs.eraseDups).eraseDups = (as ++ bs).eraseDups := by
  rw [List.eraseDups_append, List.eraseDups_append]
  unfold List.removeAll
  rw [eraseDups_filter, eraseDups_filter, eraseDups_of_nodup (nodup_eraseDups bs)]

theorem eraseDups_concat (l : List α) (a : α) :
    (l ++ [a]).eraseDups = if a ∈ l then l.eraseDups else l.eraseDups ++ [a] := by
  rw [List.eraseDups_append]
  split
  · rename_i h
    simp [List.removeAll, h]
  · rename_i h
    simp [List.removeAll, h, List.eraseDups_cons]

/-- The first occurrences of two lists, in either order, are the same items. -/
theorem eraseDups_append_comm : (as ++ bs).eraseDups.Perm (bs ++ as).eraseDups := by
  refine (List.perm_ext_iff_of_nodup (nodup_eraseDups _) (nodup_eraseDups _)).mpr fun a => ?_
  simp [List.mem_eraseDups, or_comm]

theorem eraseDups_append_self (l : List α) : (l ++ l).eraseDups = l.eraseDups := by
  rw [List.eraseDups_append, List.removeAll, List.filter_eq_nil_iff.mpr (by simp), List.eraseDups_nil, List.append_nil]

end EraseDups

section Retain

variable {σ ε α κ : Type} [DecidableEq κ]
  (key : α → StateT σ (Except ε) κ) (accept : α → StateT σ (Except ε) Unit)

/-- Keep the items whose key is not among those seen; each is admitted first. -/
def retainLoop : List α → List κ → List α → StateT σ (Except ε) (List α)
  | [], _, kept => pure kept
  | a :: rest, seen, kept => do
    let k ← key a
    if k ∈ seen then retainLoop rest seen kept
    else do
      accept a
      retainLoop rest (seen ++ [k]) (kept ++ [a])

variable {key accept} {E : ε → Prop}

open Outcomes List

variable {all : List α}

/-- Where keys tell the items of a list apart, the loop keeps the first occurrences. -/
theorem retainLoop_ensures [DecidableEq α]
    (hkeys : TellsApart E (· ∈ all) key) (rest : List α) :
    ∀ (before : List α) (seen : List κ), before ++ rest = all →
      List.Forall₂ (fun a => Returns (key a)) before.eraseDups seen →
      Ensures (retainLoop key accept rest seen before.eraseDups) (· = all.eraseDups) := by
  induction rest with
  | nil =>
    intro before seen hall hseen
    rw [append_nil] at hall
    rw [← hall]
    exact .pure rfl
  | cons a rest ih =>
    intro before seen hall hseen
    rw [retainLoop]
    refine .bind Ensures.returned fun k hk => ?_
    have ha : a ∈ all := by simp [← hall]
    have hmem : k ∈ seen ↔ a ∈ before := by
      rw [← mem_eraseDups (l := before)]
      constructor
      · intro hk'
        obtain ⟨i, hi, rfl⟩ := mem_iff_getElem.mp hk'
        have hlt : i < before.eraseDups.length := by rwa [hseen.length_eq]
        have hb : before.eraseDups[i] ∈ before := mem_eraseDups.mp (getElem_mem hlt)
        have hpair := List.forall₂_iff_get.mp hseen
        have := hpair.2 i hlt hi
        have heq := hkeys.inj ha (by simp [← hall, hb]) hk this
        rw [heq]
        exact getElem_mem hlt
      · intro ha'
        obtain ⟨i, hi, heq⟩ := mem_iff_getElem.mp ha'
        have hlt : i < seen.length := by rwa [← hseen.length_eq]
        have := (List.forall₂_iff_get.mp hseen).2 i hi hlt
        have hkey : Returns (key a) seen[i] := by
          rw [← heq]
          exact this
        rw [((hkeys a a ha ha).iff trivial _ _ hk hkey).mpr rfl]
        exact getElem_mem hlt
    have hnext : (before ++ [a]) ++ rest = all := by rw [← hall, append_assoc, singleton_append]
    have hcat := eraseDups_concat before a
    split
    · rename_i hold
      rw [if_pos (hmem.mp hold)] at hcat
      rw [← hcat]
      refine ih (before ++ [a]) seen hnext ?_
      rwa [hcat]
    · rename_i hnew
      rw [if_neg fun hin => hnew (hmem.mpr hin)] at hcat
      refine .seq ?_
      rw [← hcat]
      refine ih (before ++ [a]) _ hnext ?_
      rw [hcat]
      exact rel_append hseen (.cons hk .nil)

theorem retainLoop_fails {rest : List α} (hkey : ∀ a ∈ rest, Stops E (key a))
    (haccept : ∀ a ∈ rest, Fails (accept a) E) :
    ∀ (seen : List κ) (kept : List α), Fails (retainLoop key accept rest seen kept) E := by
  induction rest with
  | nil => exact fun _ _ => .pure
  | cons a rest ih =>
    intro seen kept
    obtain ⟨hkey, hkeys⟩ := forall_mem_cons.mp hkey
    obtain ⟨haccept, haccs⟩ := forall_mem_cons.mp haccept
    rw [retainLoop]
    refine .seq hkey.fails fun k => ?_
    split
    · exact ih hkeys haccs seen kept
    · exact .seq haccept fun _ => ih hkeys haccs _ _

theorem retainLoop_outcome [DecidableEq α] (hkeys : TellsApart E (· ∈ all) key)
    (haccept : ∀ a ∈ all, Fails (accept a) E) :
    Ensures (retainLoop key accept all [] []) (· = all.eraseDups) ∧ Fails (retainLoop key accept all [] []) E :=
  ⟨retainLoop_ensures hkeys all [] [] rfl .nil, retainLoop_fails (fun _ ha => hkeys.stops ha) haccept [] []⟩

end Retain

end Lib
