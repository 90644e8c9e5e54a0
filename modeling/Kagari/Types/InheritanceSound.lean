import Kagari.Types.Inheritance

/-!
# The closure of an applied trait

What `trait_closure` returns, over the loop: one turn takes an applied trait from the stack, skips it or adds
it and pushes its supertraits (`closureLoop_turn`). From this one inversion follow that the result is closed,
that no declaration leads back to itself, and that within the limits the loop returns.
-/

namespace Kagari

open Lib Relation List

variable {path : List DefinitionId} {pending : List Pending} {d : DefinitionId}

section Turn

variable {receiver : Ty} {lookup : TraitLookup} {contract : TraitDef} {applied : NominalTy}

/-- The supertraits of an applied trait, in the order of their declaration. -/
def Inherits (receiver : Ty) (contract : TraitDef) (applied : NominalTy) (children : List NominalTy) : Prop :=
  List.Forall₂ (fun parent child => inherited receiver false contract applied parent = .ok child)
    contract.supertraits children

theorem Inherits.exists (h : ∀ parent ∈ contract.supertraits, ∃ child,
    inherited receiver false contract applied parent = .ok child) : ∃ children, Inherits receiver contract applied children := by
  unfold Inherits
  generalize contract.supertraits = supertraits at h
  induction supertraits with
  | nil => exact ⟨[], .nil⟩
  | cons parent supertraits ih =>
    obtain ⟨⟨child, hch⟩, hrest⟩ := forall_mem_cons.mp h
    obtain ⟨children, hchildren⟩ := ih hrest
    exact ⟨child :: children, .cons hch hchildren⟩

theorem pushSupertraits_ok {pending out : List Pending} :
    pushSupertraits receiver false contract applied path pending = .ok out ↔
      ∃ children, Inherits receiver contract applied children ∧
        out = children.map (fun child => (child, path)) ++ pending := by
  unfold pushSupertraits Inherits
  generalize contract.supertraits = supertraits
  induction supertraits generalizing out with
  | nil =>
    constructor
    · intro h
      exact ⟨[], .nil, (Except.ok.inj h).symm⟩
    · rintro ⟨children, hchildren, rfl⟩
      cases hchildren
      rfl
  | cons parent supertraits ih =>
    rw [reverse_cons, foldlM_append, bind_ok]
    constructor
    · rintro ⟨mid, hmid, hlast⟩
      obtain ⟨children, hchildren, rfl⟩ := ih.mp hmid
      obtain ⟨out', hpush, hdone⟩ := bind_ok.mp hlast
      obtain ⟨child, hch, hpushed⟩ := bind_ok.mp hpush
      refine ⟨child :: children, .cons hch hchildren, ?_⟩
      rw [← Except.ok.inj hdone, ← Except.ok.inj hpushed]
      rfl
    · rintro ⟨children, hchildren, rfl⟩
      cases hchildren with
      | cons hch hrest =>
        refine ⟨_, ih.mpr ⟨_, hrest, rfl⟩, ?_⟩
        rw [foldlM_cons, hch]
        rfl

/-- What a turn of the loop may do. -/
theorem closureLoop_turn {remaining : Nat}
    {seen result out : List NominalTy} :
    closureLoop receiver false lookup (remaining + 1) ((applied, path) :: pending) seen result = .ok out ↔
      applied.declaration ∉ path ∧ path.length < maxPath ∧
      ((applied ∈ seen ∧ closureLoop receiver false lookup remaining pending seen result = .ok out) ∨
        (applied ∉ seen ∧ result.length < maxTraits ∧ ∃ contract, lookup applied.declaration = some contract ∧
          contract.genericParams.length = applied.arguments.length ∧
          contract.supertraits.length + pending.length ≤ remaining ∧
          ∃ children, Inherits receiver contract applied children ∧
            closureLoop receiver false lookup remaining
              (children.map (fun child => (child, path ++ [applied.declaration])) ++ pending)
              (applied :: seen) (result ++ [applied]) = .ok out)) := by
  rw [closureLoop, show checkCancel false = .ok () from rfl, ok_bind]
  constructor
  · intro h
    split at h
    · cases h
    rename_i hpath
    refine ⟨fun hmem => hpath (.inl hmem), by omega, ?_⟩
    split at h
    · rename_i hseen
      exact .inl ⟨hseen, h⟩
    rename_i hseen
    split at h
    · cases h
    rename_i hcnt
    split at h
    · cases h
    rename_i contract hctr
    split at h
    · cases h
    rename_i harity
    split at h
    · cases h
    rename_i hedg
    obtain ⟨pushed, hpushed, hloop⟩ := bind_ok.mp h
    obtain ⟨children, hchildren, rfl⟩ := pushSupertraits_ok.mp hpushed
    exact .inr ⟨hseen, by omega, contract, hctr, not_not.mp harity, by omega, children, hchildren, hloop⟩
  · rintro ⟨hpath, hlen, hturn⟩
    rw [if_neg fun hor => hor.elim hpath (by omega)]
    rcases hturn with ⟨hseen, hloop⟩ | ⟨hseen, hcnt, contract, hctr, harity, hedg, children, hchildren, hloop⟩
    · rw [if_pos hseen]
      exact hloop
    · rw [if_neg hseen, if_neg (by omega), hctr]
      dsimp only
      rw [if_neg (not_not.mpr harity), if_neg (by omega), pushSupertraits_ok.mpr ⟨children, hchildren, rfl⟩]
      exact hloop

end Turn

variable {applied : NominalTy}

section Walk

variable {receiver : Ty} {lookup : TraitLookup} {root : NominalTy} {Reached : NominalTy → Prop}

/-- Between two turns: what was added leads to what was added or is pending. -/
structure Walked (receiver : Ty) (lookup : TraitLookup) (Reached : NominalTy → Prop) (pending : List Pending)
    (seen result : List NominalTy) : Prop where
  same : ∀ x, x ∈ seen ↔ x ∈ result
  nodup : result.Nodup
  closed : ∀ x ∈ result, ∃ contract, lookup x.declaration = some contract ∧ ∀ parent ∈ contract.supertraits,
    ∃ child, inherited receiver false contract x parent = .ok child ∧
      (child ∈ result ∨ ∃ path, (child, path) ∈ pending)
  reached : ∀ x, (x ∈ result ∨ ∃ path, (x, path) ∈ pending) → Reached x

theorem Walked.skip
    {seen result : List NominalTy} (h : Walked receiver lookup Reached ((applied, path) :: pending) seen result)
    (hseen : applied ∈ seen) : Walked receiver lookup Reached pending seen result := by
  refine ⟨h.same, h.nodup, fun x hx => ?_, fun x hx => h.reached x ?_⟩
  · obtain ⟨contract, hctr, hpars⟩ := h.closed x hx
    refine ⟨contract, hctr, fun parent hpar => ?_⟩
    obtain ⟨child, hch, hmem⟩ := hpars parent hpar
    refine ⟨child, hch, ?_⟩
    rcases hmem with hmem | ⟨path', hmem⟩
    · exact .inl hmem
    · rcases mem_cons.mp hmem with heq | hmem
      · rw [(Prod.mk.inj heq).1]
        exact .inl ((h.same applied).mp hseen)
      · exact .inr ⟨path', hmem⟩
  · exact hx.imp id fun ⟨path', hmem⟩ => ⟨path', mem_cons_of_mem _ hmem⟩

variable (hstep : ∀ x contract, Reached x → lookup x.declaration = some contract →
  ∀ parent ∈ contract.supertraits, ∀ child, inherited receiver false contract x parent = .ok child → Reached child)

include hstep

theorem Walked.add
    {seen result : List NominalTy} (h : Walked receiver lookup Reached ((applied, path) :: pending) seen result)
    (hseen : applied ∉ seen) {contract : TraitDef} (hctr : lookup applied.declaration = some contract)
    {children : List NominalTy} (hchildren : Inherits receiver contract applied children)
    (path' : List DefinitionId) :
    Walked receiver lookup Reached (children.map (fun child => (child, path')) ++ pending) (applied :: seen)
      (result ++ [applied]) := by
  obtain ⟨hpars, hdecd⟩ := forall₂_mem hchildren
  have hrch : Reached applied := h.reached applied (.inr ⟨path, mem_cons_self⟩)
  have hpushed : ∀ {child path''}, (child, path'') ∈ children.map (fun child => (child, path')) ++ pending →
      child ∈ children ∨ (child, path'') ∈ pending := by
    intro child path'' hmem
    rcases mem_append.mp hmem with hmem | hmem
    · obtain ⟨c, hc, heq⟩ := mem_map.mp hmem
      exact .inl ((Prod.mk.inj heq).1 ▸ hc)
    · exact .inr hmem
  refine ⟨fun x => ?_, ?_, fun x hx => ?_, fun x hx => ?_⟩
  · rw [mem_cons, mem_append, mem_singleton, h.same, or_comm]
  · refine nodup_append'.mpr ⟨h.nodup, nodup_singleton _, ?_⟩
    rw [disjoint_singleton, ← h.same]
    exact hseen
  · rcases mem_append.mp hx with hx | hx
    · obtain ⟨contract', hctr', hold⟩ := h.closed x hx
      refine ⟨contract', hctr', fun parent hpar => ?_⟩
      obtain ⟨child, hch, hmem⟩ := hold parent hpar
      refine ⟨child, hch, ?_⟩
      rcases hmem with hmem | ⟨path'', hmem⟩
      · exact .inl (mem_append_left _ hmem)
      · rcases mem_cons.mp hmem with heq | hmem
        · rw [(Prod.mk.inj heq).1]
          exact .inl (by simp)
        · exact .inr ⟨path'', mem_append_right _ hmem⟩
    · rw [mem_singleton.mp hx]
      refine ⟨contract, hctr, fun parent hpar => ?_⟩
      obtain ⟨child, hmem, hch⟩ := hpars parent hpar
      exact ⟨child, hch, .inr ⟨path', mem_append_left _ (mem_map_of_mem hmem)⟩⟩
  · rcases hx with hx | ⟨path'', hmem⟩
    · rcases mem_append.mp hx with hx | hx
      · exact h.reached x (.inl hx)
      · rw [mem_singleton.mp hx]
        exact hrch
    · rcases hpushed hmem with hmem | hmem
      · obtain ⟨parent, hpar, hch⟩ := hdecd x hmem
        exact hstep applied contract hrch hctr parent hpar x hch
      · exact h.reached x (.inr ⟨path'', mem_cons_of_mem _ hmem⟩)

/-- What the loop returns is closed, and begins with what was there. -/
theorem closureLoop_walked (remaining : Nat) : ∀ {pending : List Pending} {seen result out : List NominalTy},
    closureLoop receiver false lookup remaining pending seen result = .ok out →
    Walked receiver lookup Reached pending seen result →
    Walked receiver lookup Reached [] out out ∧ result <+: out := by
  induction remaining with
  | zero =>
    intro pending seen result out hloop h
    cases pending with
    | nil =>
      rw [← Except.ok.inj hloop]
      exact ⟨⟨fun _ => .rfl, h.nodup, h.closed, h.reached⟩, prefix_rfl⟩
    | cons entry pending => cases hloop
  | succ remaining ih =>
    intro pending seen result out hloop h
    cases pending with
    | nil =>
      rw [← Except.ok.inj hloop]
      exact ⟨⟨fun _ => .rfl, h.nodup, h.closed, h.reached⟩, prefix_rfl⟩
    | cons entry pending =>
      obtain ⟨applied, path⟩ := entry
      obtain ⟨-, -, ⟨hseen, hrest⟩ | ⟨hseen, -, contract, hctr, -, -, children, hchildren, hrest⟩⟩ :=
        closureLoop_turn.mp hloop
      · exact ih hrest (h.skip hseen)
      · obtain ⟨hwalk, hbegins⟩ := ih hrest (h.add hstep hseen hctr hchildren _)
        exact ⟨hwalk, (prefix_append _ _).trans hbegins⟩

end Walk

/-! ## Cycles -/

section Cycle

variable {receiver : Ty} {lookup : TraitLookup}

/-- One declaration names the other as a supertrait. -/
def Declares (lookup : TraitLookup) (owner parent : DefinitionId) : Prop :=
  ∃ contract, lookup owner = some contract ∧ ∃ supertrait ∈ contract.supertraits, supertrait.declaration = parent

/-- No way along the supertraits of the declaration is endless. -/
abbrev Grounded (lookup : TraitLookup) (d : DefinitionId) :
    Prop := Acc (fun parent owner => Declares lookup owner parent) d

theorem Grounded.not_cyclic (h : Grounded lookup d) : ¬ TransGen (Declares lookup) d d := by
  induction h with
  | intro d _ ih =>
    intro hcyc
    obtain ⟨parent, hpar, hback⟩ := TransGen.head'_iff.mp hcyc
    exact ih parent hpar (.tail' hback hpar)

theorem Grounded.reach {d d' : DefinitionId} (h : Grounded lookup d)
    (hreach : ReflTransGen (Declares lookup) d d') : Grounded lookup d' := by
  induction hreach with
  | refl => exact h
  | tail _ hstep ih => exact ih.inv hstep

/-- Traits that are pending over one path are grounded when the loop returns, as are those it has added by
then. Those that were there before may be on the path. -/
theorem closureLoop_grounded (remaining : Nat) : ∀ {block : List NominalTy} {path : List DefinitionId}
    {pending : List Pending} {seen result out : List NominalTy},
    closureLoop receiver false lookup remaining (block.map (fun x => (x, path)) ++ pending) seen result = .ok out →
    (∀ x ∈ seen, Grounded lookup x.declaration ∨ x.declaration ∈ path) →
    ∃ remaining' seen' result', remaining' ≤ remaining ∧
      closureLoop receiver false lookup remaining' pending seen' result' = .ok out ∧
      (∀ x ∈ block, Grounded lookup x.declaration) ∧
      ∀ x ∈ seen', Grounded lookup x.declaration ∨ x.declaration ∈ path := by
  induction remaining using Nat.strongRecOn with
  | ind remaining ih =>
    intro block path pending seen result out hloop hseen
    cases block with
    | nil => exact ⟨remaining, seen, result, Nat.le_refl _, hloop, nofun, hseen⟩
    | cons applied block =>
      cases remaining with
      | zero => cases hloop
      | succ remaining =>
        obtain ⟨hpath, -, ⟨hmem, hrest⟩ | ⟨-, -, contract, hctr, -, -, children, hchildren, hrest⟩⟩ :=
          closureLoop_turn.mp hloop
        · obtain ⟨remaining', seen', result', hle, hdone, hblk, hseen'⟩ :=
            ih remaining (Nat.lt_succ_self _) hrest hseen
          refine ⟨remaining', seen', result', by omega, hdone, forall_mem_cons.mpr ⟨?_, hblk⟩, hseen'⟩
          exact (hseen applied hmem).resolve_right hpath
        · -- first everything below the trait, then the rest of the block
          obtain ⟨middle, seen', result', hle, hmiddle, hbelow, hseen'⟩ :=
            @ih remaining (Nat.lt_succ_self _) _ _ (block.map (fun x => (x, path)) ++ pending) _ _ _ hrest (by
              intro x hx
              rcases mem_cons.mp hx with rfl | hx
              · exact .inr (by simp)
              · exact (hseen x hx).imp id (mem_append_left _))
          have hgrounded : Grounded lookup applied.declaration := by
            refine .intro _ fun parent hdecl => ?_
            obtain ⟨contract', hctr', supertrait, hsupr, rfl⟩ := hdecl
            obtain rfl : contract' = contract := Option.some.inj (hctr'.symm.trans hctr)
            obtain ⟨child, hch, hinhd⟩ := (forall₂_mem hchildren).1 supertrait hsupr
            rw [← (inherited_ok hinhd).1]
            exact hbelow child hch
          obtain ⟨remaining', seen'', result'', hle', hdone, hblk, hseen''⟩ :=
            ih middle (by omega) hmiddle (fun x hx => by
              rcases hseen' x hx with h | h
              · exact .inl h
              · rcases mem_append.mp h with h | h
                · exact .inr h
                · rw [mem_singleton.mp h]
                  exact .inl hgrounded)
          exact ⟨remaining', seen'', result'', by omega, hdone, forall_mem_cons.mpr ⟨hgrounded, hblk⟩,
            hseen''⟩

end Cycle

/-! ## Limits -/

section Limits

variable {receiver : Ty} {lookup : TraitLookup}

/-- The number of supertraits. -/
def weight (lookup : TraitLookup) (x : NominalTy) : Nat :=
  ((lookup x.declaration).map fun contract => contract.supertraits.length).getD 0

/-- The supertraits of the traits that are still to be added. -/
def owed (lookup : TraitLookup) (all seen : List NominalTy) : Nat :=
  ((all.filter fun x => x ∉ seen).map (weight lookup)).sum

theorem owed_add {all seen : List NominalTy} {x : NominalTy} (hx : x ∈ all) (hseen : x ∉ seen) :
    owed lookup all (x :: seen) + weight lookup x ≤ owed lookup all seen := by
  have hmono : ∀ all : List NominalTy, owed lookup all (x :: seen) ≤ owed lookup all seen := by
    intro all
    refine List.Sublist.sum_le_sum ?_ fun _ _ => Nat.zero_le _
    refine List.Sublist.map _ (monotone_filter_right all fun y => ?_)
    simp only [mem_cons, not_or, decide_eq_true_eq]
    exact fun h => h.2
  induction all with
  | nil => cases hx
  | cons y all ih =>
    by_cases hy : y = x
    · subst hy
      have hrest := hmono all
      simp only [owed, filter_cons, mem_cons, true_or, not_true_eq_false, decide_false, hseen,
        not_false_eq_true, decide_true, if_true, map_cons, sum_cons, Bool.false_eq_true, if_false] at hrest ⊢
      omega
    · have hall : x ∈ all := (mem_cons.mp hx).resolve_left fun h => hy h.symm
      have hrest := ih hall
      have hkeep : decide (y ∉ x :: seen) = decide (y ∉ seen) := by simp [hy]
      simp only [owed, filter_cons, hkeep] at hrest ⊢
      split
      · rw [map_cons, map_cons, sum_cons, sum_cons]
        omega
      · exact hrest

/-- The traits `all` are within the limits: with the edges to their supertraits and the one to the root; and
supertraits have a smaller rank, where that of the root is below the limit of a path. -/
structure WithinLimits (lookup : TraitLookup) (root : NominalTy) (all : List NominalTy) (rank : DefinitionId → Nat) :
    Prop where
  falls : ∀ x ∈ all, ∀ parent, Declares lookup x.declaration parent → rank parent < rank x.declaration
  depth : rank root.declaration < maxPath
  count : all.length ≤ maxTraits
  edges : (all.map (weight lookup)).sum + 1 ≤ maxEdges

/-- The supertraits of a trait of `all` are inherited, and are of `all` too. -/
def Accepted (receiver : Ty) (lookup : TraitLookup) (all : List NominalTy) : Prop :=
  ∀ x ∈ all, ∃ contract, lookup x.declaration = some contract ∧
    contract.genericParams.length = x.arguments.length ∧
    ∃ children, Inherits receiver contract x children ∧ ∀ child ∈ children, child ∈ all

variable {root : NominalTy} {all : List NominalTy} {rank : DefinitionId → Nat}

/-- Between two turns: there are edges left for what is pending and what will be. -/
structure Affordable (lookup : TraitLookup) (all : List NominalTy) (rank : DefinitionId → Nat) (remaining : Nat)
    (pending : List Pending) (seen result : List NominalTy) : Prop where
  same : ∀ x, x ∈ seen ↔ x ∈ result
  nodup : result.Nodup
  known : ∀ x ∈ result, x ∈ all
  waiting : ∀ e ∈ pending, e.1 ∈ all ∧ e.2.length + rank e.1.declaration < maxPath ∧
    ∀ d ∈ e.2, rank e.1.declaration < rank d
  edges : pending.length + owed lookup all seen ≤ remaining

theorem closureLoop_returns (h : WithinLimits lookup root all rank) (hacc : Accepted receiver lookup all)
    (remaining : Nat) : ∀ {pending : List Pending} {seen result : List NominalTy},
      Affordable lookup all rank remaining pending seen result →
      ∃ out, closureLoop receiver false lookup remaining pending seen result = .ok out := by
  induction remaining with
  | zero =>
    intro pending seen result ha
    cases pending with
    | nil => exact ⟨result, rfl⟩
    | cons entry pending =>
      have hedg := ha.edges
      rw [length_cons] at hedg
      omega
  | succ remaining ih =>
    intro pending seen result ha
    cases pending with
    | nil => exact ⟨result, rfl⟩
    | cons entry pending =>
      obtain ⟨applied, path⟩ := entry
      obtain ⟨hall, hdep, hpath⟩ := ha.waiting _ mem_cons_self
      dsimp only at hall hdep hpath
      have hedg := ha.edges
      rw [length_cons] at hedg
      have hnotmem : applied.declaration ∉ path := fun hmem => absurd (hpath _ hmem) (lt_irrefl _)
      by_cases hseen : applied ∈ seen
      · obtain ⟨out, hout⟩ := ih ⟨ha.same, ha.nodup, ha.known,
          fun e he => ha.waiting e (mem_cons_of_mem _ he), by omega⟩
        exact ⟨out, closureLoop_turn.mpr ⟨hnotmem, by omega, .inl ⟨hseen, hout⟩⟩⟩
      · obtain ⟨contract, hctr, harity, children, hchildren, hclos⟩ := hacc applied hall
        have hwt : weight lookup applied = contract.supertraits.length := by
          unfold weight
          rw [hctr]
          rfl
        have hlen : children.length = contract.supertraits.length := hchildren.length_eq.symm
        have howed := @owed_add lookup _ _ _ hall hseen
        have hnew : applied ∉ result := fun hmem => hseen ((ha.same applied).mpr hmem)
        have hcnt : result.length < maxTraits := by
          have hsub : (applied :: result) ⊆ all := cons_subset.mpr ⟨hall, ha.known⟩
          have hle := (subperm_of_subset (nodup_cons.mpr ⟨hnew, ha.nodup⟩) hsub).length_le
          rw [length_cons] at hle
          have := h.count
          omega
        have hnext : Affordable lookup all rank remaining
            (children.map (fun child => (child, path ++ [applied.declaration])) ++ pending) (applied :: seen)
            (result ++ [applied]) := by
          refine ⟨fun x => ?_, ?_, fun x hx => ?_, fun e he => ?_, ?_⟩
          · rw [mem_cons, mem_append, mem_singleton, ha.same, or_comm]
          · refine nodup_append'.mpr ⟨ha.nodup, nodup_singleton _, ?_⟩
            rw [disjoint_singleton]
            exact hnew
          · rcases mem_append.mp hx with hx | hx
            · exact ha.known x hx
            · rw [mem_singleton.mp hx]
              exact hall
          · rcases mem_append.mp he with he | he
            · obtain ⟨child, hch, rfl⟩ := mem_map.mp he
              obtain ⟨parent, hpar, hinhd⟩ := (forall₂_mem hchildren).2 child hch
              have hrank := h.falls applied hall child.declaration
                ⟨contract, hctr, parent, hpar, (inherited_ok hinhd).1.symm⟩
              refine ⟨hclos child hch, ?_, fun d hd => ?_⟩
              · simp only [length_append, length_singleton]
                omega
              · rcases mem_append.mp hd with hd | hd
                · exact hrank.trans (hpath d hd)
                · rw [mem_singleton.mp hd]
                  exact hrank
            · exact ha.waiting e (mem_cons_of_mem _ he)
          · rw [length_append, length_map]
            omega
        obtain ⟨out, hout⟩ := ih hnext
        refine ⟨out, closureLoop_turn.mpr ⟨hnotmem, by omega, .inr ⟨hseen, hcnt, contract, hctr, harity, ?_,
          children, hchildren, hout⟩⟩⟩
        omega

end Limits

/-! ## The closure of a trait -/

variable {all closure : List NominalTy} {rank : DefinitionId → Nat}

section Closure

variable {receiver : Ty} {lookup : TraitLookup} {root : NominalTy}

/-- The applied trait and its supertraits, with everything put in at once. -/
inductive Ancestor (receiver : Ty) (lookup : TraitLookup) (root : NominalTy) : NominalTy → Prop
  | root : Ancestor receiver lookup root root
  | step {x parent child : NominalTy} {contract : TraitDef} : Ancestor receiver lookup root x →
      lookup x.declaration = some contract → parent ∈ contract.supertraits →
      Ty.trait child = (Ty.trait parent).instantiate x (together contract x receiver) →
      Ancestor receiver lookup root child

/-- At no ancestor does a pass change what an earlier one has put in. -/
def NoCapture (receiver : Ty) (lookup : TraitLookup) (root : NominalTy) : Prop :=
  ∀ x, Ancestor receiver lookup root x → ∀ contract, lookup x.declaration = some contract →
    ∀ parent ∈ contract.supertraits, Apart contract x receiver [] (.trait parent)

/-- The applied trait first, no trait twice, and with each trait its supertraits. -/
structure IsClosure (receiver : Ty) (lookup : TraitLookup) (root : NominalTy) (closure : List NominalTy) : Prop where
  first : closure.head? = some root
  nodup : closure.Nodup
  closed : ∀ x ∈ closure, ∃ contract, lookup x.declaration = some contract ∧ ∀ parent ∈ contract.supertraits,
    ∃ child ∈ closure, Ty.trait child = (Ty.trait parent).instantiate x (together contract x receiver)

/-- The ancestors have a contract and its number of arguments, and are within the limits: their number and
depth, and the size of the types that are passed through. -/
structure Bounded (receiver : Ty) (lookup : TraitLookup) (root : NominalTy) (all : List NominalTy)
    (rank : DefinitionId → Nat) : Prop where
  ancestors : ∀ x, x ∈ all ↔ Ancestor receiver lookup root x
  limits : WithinLimits lookup root all rank
  start : (Ty.trait root).withinWireLimits = true
  subject : receiver.withinWireLimits = true
  passes : ∀ x ∈ all, ∃ contract, lookup x.declaration = some contract ∧
    contract.genericParams.length = x.arguments.length ∧
    ∀ parent ∈ contract.supertraits, WithinPasses receiver contract x parent

theorem NoCapture.step (h : NoCapture receiver lookup root) {x parent child : NominalTy} {contract : TraitDef}
    (hx : Ancestor receiver lookup root x) (hctr : lookup x.declaration = some contract)
    (hpar : parent ∈ contract.supertraits) (hch : inherited receiver false contract x parent = .ok child) :
    Ty.trait child = (Ty.trait parent).instantiate x (together contract x receiver) :=
  inherited_eq hch (h x hx contract hctr parent hpar)

theorem Bounded.accepted
    (hbndd : Bounded receiver lookup root all rank) (h : NoCapture receiver lookup root) :
    Accepted receiver lookup all := by
  intro x hx
  obtain ⟨contract, hctr, harity, hpasses⟩ := hbndd.passes x hx
  have hanc := (hbndd.ancestors x).mp hx
  obtain ⟨children, hchildren⟩ := Inherits.exists fun parent hpar => (hpasses parent hpar).returns
  refine ⟨contract, hctr, harity, children, hchildren, fun child hch => ?_⟩
  obtain ⟨parent, hpar, hinhd⟩ := (forall₂_mem hchildren).2 child hch
  exact (hbndd.ancestors child).mpr
    (.step hanc hctr hpar (h.step hanc hctr hpar hinhd))

/-- The loop starts over the root, with every edge left. -/
theorem traitClosure_ok (h : traitClosure root receiver false lookup = .ok closure) :
    closureLoop receiver false lookup maxEdges [(root, [])] [] [] = .ok closure := by
  obtain ⟨root', hroot, h⟩ := bind_ok.mp h
  obtain ⟨receiver', hrecv, h⟩ := bind_ok.mp h
  rw [applyNominal_empty hroot, apply_empty hrecv] at h
  exact h

theorem NoCapture.isClosure (h : NoCapture receiver lookup root)
    (hclsr : traitClosure root receiver false lookup = .ok closure) :
    IsClosure receiver lookup root closure := by
  have hloop := traitClosure_ok hclsr
  have hstep : ∀ x contract, Ancestor receiver lookup root x → lookup x.declaration = some contract →
      ∀ parent ∈ contract.supertraits, ∀ child, inherited receiver false contract x parent = .ok child →
      Ancestor receiver lookup root child := fun x contract hx hctr parent hpar child hch =>
    .step hx hctr hpar (h.step hx hctr hpar hch)
  have hst : Walked receiver lookup (Ancestor receiver lookup root) [(root, [])] [] [] := by
    refine ⟨fun _ => .rfl, nodup_nil, nofun, fun x hx => ?_⟩
    obtain ⟨path, hmem⟩ := hx.resolve_left not_mem_nil
    rw [(Prod.mk.inj (mem_singleton.mp hmem)).1]
    exact .root
  have hwalk := (closureLoop_walked hstep maxEdges hloop hst).1
  refine ⟨?_, hwalk.nodup, fun x hx => ?_⟩
  · -- the first turn adds the root
    obtain ⟨-, -, ⟨hseen, -⟩ | ⟨hseen, -, contract, hctr, -, -, children, hchildren, hrest⟩⟩ :=
      closureLoop_turn.mp (show closureLoop receiver false lookup (99999 + 1) _ _ _ = _ from hloop)
    · cases hseen
    · obtain ⟨-, rest, rfl⟩ := closureLoop_walked hstep _ hrest (hst.add hstep hseen hctr hchildren _)
      rfl
  · obtain ⟨contract, hctr, hpars⟩ := hwalk.closed x hx
    refine ⟨contract, hctr, fun parent hpar => ?_⟩
    obtain ⟨child, hch, hmem⟩ := hpars parent hpar
    refine ⟨child, hmem.resolve_right fun ⟨_, hpend⟩ => not_mem_nil hpend, ?_⟩
    exact h.step (hwalk.reached x (.inl hx)) hctr hpar hch

/-- Below the limits a closure is returned. -/
theorem Bounded.returns
    (hbndd : Bounded receiver lookup root all rank) (h : NoCapture receiver lookup root) :
    ∃ closure, traitClosure root receiver false lookup = .ok closure := by
  have hroot : root ∈ all := (hbndd.ancestors root).mpr .root
  have hst : Affordable lookup all rank maxEdges [(root, [])] [] [] := by
    refine ⟨fun _ => .rfl, nodup_nil, nofun, forall_mem_singleton.mpr ⟨hroot, ?_, nofun⟩, ?_⟩
    · exact (Nat.zero_add _).trans_lt hbndd.limits.depth
    · have howed : owed lookup all [] = (all.map (weight lookup)).sum := by simp [owed]
      rw [howed, length_singleton, Nat.add_comm]
      exact hbndd.limits.edges
  obtain ⟨closure, hloop⟩ := closureLoop_returns hbndd.limits (hbndd.accepted h) maxEdges hst
  have hsubj : TypeSubstitution.empty.apply receiver false = .ok receiver :=
    TypeSubstitution.apply_iff.mpr ⟨(subst_empty receiver).symm, hbndd.subject⟩
  exact ⟨closure, bind_ok.mpr ⟨root, applyNominal_limits hbndd.start, bind_ok.mpr ⟨receiver, hsubj, hloop⟩⟩⟩

/-- A declaration that leads back to itself is an error. -/
theorem traitClosure_cyclic (hreach : ReflTransGen (Declares lookup) root.declaration d)
    (hcyc : TransGen (Declares lookup) d d) : ∃ e, traitClosure root receiver false lookup = .error e := by
  cases hclsr : traitClosure root receiver false lookup with
  | error e => exact ⟨e, rfl⟩
  | ok closure =>
    obtain ⟨-, -, -, -, -, hgrounded, -⟩ :=
      @closureLoop_grounded _ _ maxEdges [root] _ _ _ _ _ (traitClosure_ok hclsr) nofun
    exact absurd hcyc (Grounded.reach (hgrounded root mem_cons_self) hreach).not_cyclic

end Closure

/-- Where no pass changes what an earlier one has put in, the closure is that of the simultaneous
substitution, and within the limits there is one. Cycles are errors. -/
theorem traitClosure_closes (interface : NominalTy) (receiver : Ty) (lookup : TraitLookup) :
    (NoCapture receiver lookup interface →
      (∀ closure, traitClosure interface receiver false lookup = .ok closure →
        IsClosure receiver lookup interface closure) ∧
      ∀ all rank, Bounded receiver lookup interface all rank →
        ∃ closure, traitClosure interface receiver false lookup = .ok closure) ∧
    ∀ d, ReflTransGen (Declares lookup) interface.declaration d → TransGen (Declares lookup) d d →
      ∃ e, traitClosure interface receiver false lookup = .error e :=
  ⟨fun h => ⟨fun _ hclsr => h.isClosure hclsr, fun _ _ hbndd => hbndd.returns h⟩,
    fun _ hreach hcyc => traitClosure_cyclic hreach hcyc⟩

/-- `Base<<Self as Other<Item = i32>>::Item>`, in `Foo`. -/
def carriedParent : NominalTy :=
  ⟨⟨1, 2⟩, [.projection [] (.selfType ⟨1, 1⟩) ⟨⟨1, 3⟩, [], [(⟨1, 4⟩, .builtin .i32)]⟩ ⟨1, 4⟩], []⟩

/-- `trait Foo<T>: Base<<Self as Other<Item = i32>>::Item>` and `trait Base<U>`. -/
def carriedArgument : TraitLookup := fun d =>
  if d = ⟨1, 1⟩ then some ⟨[carriedParent], [(⟨1, 1⟩, 0)]⟩
  else if d = ⟨1, 2⟩ then some ⟨[], [(⟨1, 2⟩, 0)]⟩
  else none

/-- Only `Foo` declares a supertrait. -/
theorem carriedArgument_declares {d : DefinitionId} {contract : TraitDef} (hctr : carriedArgument d = some contract)
    {parent : NominalTy} (hpar : parent ∈ contract.supertraits) :
    d = ⟨1, 1⟩ ∧ contract = ⟨[carriedParent], [(⟨1, 1⟩, 0)]⟩ ∧ parent = carriedParent := by
  unfold carriedArgument at hctr
  split at hctr
  · cases hctr
    exact ⟨‹_›, rfl, List.mem_singleton.mp hpar⟩
  · split at hctr
    · cases hctr
      cases hpar
    · cases hctr

/-- The output that the projection carries is all that stands. -/
theorem noCapture_carriedArgument :
    NoCapture (.parameter ⟨1, 1⟩ 0) carriedArgument ⟨⟨1, 1⟩, [.builtin .i32], []⟩ := by
  intro x _ contract hctr parent hpar
  obtain ⟨-, -, rfl⟩ := carriedArgument_declares hctr hpar
  have hnone : ∀ place, ¬ Stands x [] (.trait carriedParent) place := by
    intro place hstands
    cases hstands with
    | kid _ hk hstands =>
      obtain rfl := List.mem_singleton.mp hk
      cases hstands with
      | kid hproj => exact hproj trivial
      | own howns => exact nomatch howns.2.1
      | interface hlook hstands =>
        cases hlook
        cases hstands with
        | kid _ hk => cases hk
      | receiver hlook => cases hlook
      | kept _ hcarr => cases hcarr rfl
  exact ⟨fun hs => absurd hs (hnone _), ⟨fun m rest hs => absurd hs (hnone _), fun m hs => absurd hs (hnone _)⟩,
    fun m hs => absurd hs (hnone _)⟩

theorem Ty.Fits.leaf {applied : NominalTy} {ty : Ty} {depth : Nat} (hdep : depth ≤ maxTypeDepth)
    (hkids : ty.kids = []) (hproj : ¬ ty.IsProjection) : ty.Fits applied depth := by
  have hagain : ty.again applied = [] := by
    cases ty with
    | projection => exact absurd trivial hproj
    | _ => rfl
  refine .node hdep ?_ ?_ ?_ ?_ <;> simp [hkids, hagain]

theorem withinPasses_carriedParent : WithinPasses (.parameter ⟨1, 1⟩ 0) ⟨[carriedParent], [(⟨1, 1⟩, 0)]⟩
    ⟨⟨1, 1⟩, [.builtin .i32], []⟩ carriedParent := by
  refine ⟨by decide +kernel, ?_, by decide +kernel, by decide +kernel, by decide +kernel, by decide +kernel⟩
  refine .node (by decide) (by decide +kernel) (by decide +kernel) (List.forall_mem_singleton.mpr ?_) nofun
  refine .node (by decide) (by decide +kernel) (by decide +kernel) ?_ ?_
  · exact List.forall_mem_cons.mpr ⟨.leaf (by decide) rfl id, List.forall_mem_singleton.mpr (.leaf (by decide) rfl id)⟩
  · exact List.forall_mem_singleton.mpr ⟨.other id nofun, .node (by decide) nofun, by decide⟩

/-- The ancestors are `Foo<i32>` and `Base<i32>`. -/
theorem bounded_carriedArgument : Bounded (.parameter ⟨1, 1⟩ 0) carriedArgument ⟨⟨1, 1⟩, [.builtin .i32], []⟩
    [⟨⟨1, 1⟩, [.builtin .i32], []⟩, ⟨⟨1, 2⟩, [.builtin .i32], []⟩] (fun d => if d = ⟨1, 1⟩ then 1 else 0) := by
  refine ⟨fun x => ⟨fun hx => ?_, fun hx => ?_⟩, ⟨fun x hx parent hdecl => ?_, by decide, by decide,
    by decide +kernel⟩, by decide +kernel, by decide +kernel, fun x hx => ?_⟩
  · rcases List.mem_pair.mp hx with rfl | rfl
    · exact .root
    · exact .step .root rfl (List.mem_cons_self (a := carriedParent)) (by decide +kernel)
  · induction hx with
    | root => exact List.mem_cons_self
    | step _ hctr hpar hch ih =>
      obtain ⟨hd, rfl, rfl⟩ := carriedArgument_declares hctr hpar
      rcases List.mem_pair.mp ih with rfl | rfl
      · have hch' := hch.trans (by decide +kernel : _ = Ty.trait ⟨⟨1, 2⟩, [.builtin .i32], []⟩)
        rw [Ty.trait.inj hch']
        decide +kernel
      · cases hd
  · obtain ⟨contract, hctr, supertrait, hsupr, rfl⟩ := hdecl
    obtain ⟨hd, -, rfl⟩ := carriedArgument_declares hctr hsupr
    rw [hd]
    decide
  · rcases List.mem_pair.mp hx with rfl | rfl
    · exact ⟨_, rfl, rfl, List.forall_mem_singleton.mpr withinPasses_carriedParent⟩
    · exact ⟨_, rfl, rfl, nofun⟩

/-- The receiver is the `T` of `Foo`. -/
theorem traitClosure_closes_carried :
    ∃ closure, traitClosure ⟨⟨1, 1⟩, [.builtin .i32], []⟩ (.parameter ⟨1, 1⟩ 0) false carriedArgument = .ok closure ∧
      IsClosure (.parameter ⟨1, 1⟩ 0) carriedArgument ⟨⟨1, 1⟩, [.builtin .i32], []⟩ closure := by
  obtain ⟨hcloses, hret⟩ := (traitClosure_closes _ _ _).1 noCapture_carriedArgument
  obtain ⟨closure, hclsr⟩ := hret _ _ bounded_carriedArgument
  exact ⟨closure, hclsr, hcloses closure hclsr⟩

/-- `trait Foo<T>: Base<Self>` and `trait Base<U>`. -/
def selfArgument : TraitLookup := fun d =>
  if d = ⟨1, 1⟩ then some ⟨[⟨⟨1, 2⟩, [.selfType ⟨1, 1⟩], []⟩], [(⟨1, 1⟩, 0)]⟩
  else if d = ⟨1, 2⟩ then some ⟨[], [(⟨1, 2⟩, 0)]⟩
  else none

/-- The receiver is the `T` of `Foo` itself: the arguments are put into it too. -/
theorem traitClosure_captures :
    traitClosure ⟨⟨1, 1⟩, [.builtin .i32], []⟩ (.parameter ⟨1, 1⟩ 0) false selfArgument =
      .ok [⟨⟨1, 1⟩, [.builtin .i32], []⟩, ⟨⟨1, 2⟩, [.builtin .i32], []⟩] ∧
    ¬ IsClosure (.parameter ⟨1, 1⟩ 0) selfArgument ⟨⟨1, 1⟩, [.builtin .i32], []⟩
      [⟨⟨1, 1⟩, [.builtin .i32], []⟩, ⟨⟨1, 2⟩, [.builtin .i32], []⟩] := by
  refine ⟨by decide +kernel, fun h => ?_⟩
  obtain ⟨contract, hctr, hpars⟩ := h.closed _ List.mem_cons_self
  cases hctr
  obtain ⟨child, hch, heq⟩ := hpars _ List.mem_cons_self
  have hbase : Ty.trait child = .trait ⟨⟨1, 2⟩, [.parameter ⟨1, 1⟩ 0], []⟩ := heq.trans (by decide +kernel)
  rw [Ty.trait.inj hbase] at hch
  revert hch
  decide +kernel

end Kagari
