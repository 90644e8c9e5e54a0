import Kagari.Mir.Copies
import Kagari.Mir.Verify.FlowSound

/-!
# What the scan of copies records

One row of the scan (`scanRow_spec`), then the whole run: `Certificate` says how the facts at the
start of each block, the aliases at each row and the final aliases hang together, and
`simplifyFunction_spec` that every run of the pass leaves one.

* An alias is set at most once: only by the row that defines its temporary, and only when that row
  is the one definition.
* The facts at the start of a block are facts at the end of all its predecessors.
-/

namespace Kagari.Mir

open Lib List

variable {aliases : TempId → MirValue} {b : BlockId} {past : Point → Prop} {scan : Scan}

section Scan

variable {P : Type} (f : MirFunction P) (definitions : TempId → Nat)

/-! ## One row -/

/-- A row with its inputs replaced by their aliases. -/
def Row.rewrite (table : TempId → MirValue) (row : Row P) : Row P :=
  { row with instruction := row.instruction.rewriteInputs (aliased table) }

/-- Where the forwarded value of a destination comes from. -/
inductive Source (scan : Scan) (dst value : MirValue) : Instruction P → Prop
  | constant {c : Constant} :
      scan.constants.lookup (c, f.registerType dst.temp) = some value →
      Source scan dst value (.loadConst dst c)
  | readLocal {l : LocalId} : scan.locals.getD l none = some value → f.same dst value = true →
      Source scan dst value (.loadLocal dst l)
  | copy : definitions value.temp = 1 → f.same dst value = true →
      Source scan dst value (.move dst value)

variable {i : Instruction P}

theorem Source.output {f : MirFunction P} {definitions : TempId → Nat}
    {dst value : MirValue} (h : Source f definitions scan dst value i) :
    i.output = some dst := by
  cases h <;> rfl

/-- What the scan of an instruction with rewritten inputs does. -/
structure Scanned (scan next : Scan) (i : Instruction P) (removed : Bool) : Prop where
  aliases :
    (next.aliases = scan.aliases ∧
      (removed = true → ∃ dst c, i = .loadConst dst c ∧ definitions dst.temp = 1 ∧
        scan.aliases dst.temp ≠ dst)) ∨
    ∃ dst value, definitions dst.temp = 1 ∧ Source f definitions scan dst value i ∧
      next.aliases = Function.update scan.aliases dst.temp value ∧ (removed = false → value = dst)
  locals : ∀ l value, next.locals.getD l none = some value → i.effects.calls = false ∧
    ((scan.locals.getD l none = some value ∧ ∀ src, i ≠ .storeLocal l src) ∨
      (i = .storeLocal l value ∧ definitions value.temp = 1) ∨
      ∃ dst, i = .loadLocal dst l ∧ definitions dst.temp = 1 ∧ value = next.aliases dst.temp)
  constants : ∀ key value, (key, value) ∈ next.constants → (key, value) ∈ scan.constants ∨
    ∃ c, i = .loadConst value c ∧ definitions value.temp = 1 ∧
      key = (c, f.registerType value.temp)

theorem fromConstant_eq {c key : Constant} (h : ConstantKey.fromConstant c = some key) :
    key = c := by
  cases c <;> simp_all [ConstantKey.fromConstant]

theorem getD_set {facts : Facts} {l l' : LocalId} {fact : Option MirValue} {value : MirValue}
    (h : (facts.set l fact).getD l' none = some value) :
    (l' = l ∧ fact = some value) ∨ (l' ≠ l ∧ facts.getD l' none = some value) := by
  simp only [getD_eq_getElem?_getD, getElem?_set] at h ⊢
  split at h
  · rename_i heq
    split at h
    · exact .inl ⟨heq.symm, h⟩
    · cases h
  · rename_i hne
    exact .inr ⟨fun heq => hne heq.symm, h⟩

/-- An instruction that nothing is learned from. -/
theorem Scanned.unchanged (hcalls : i.effects.calls = false)
    (hsto : ∀ l src, i ≠ .storeLocal l src) : Scanned f definitions scan scan i false :=
  ⟨.inl ⟨rfl, by simp⟩, fun l _ h => ⟨hcalls, .inl ⟨h, hsto l⟩⟩, fun _ _ h => .inl h⟩

theorem forward_spec (scan : Scan) (i : Instruction P) (hcalls : i.effects.calls = false) :
    Scanned f definitions scan (forward f definitions scan i).1 i
      (forward f definitions scan i).2 := by
  unfold forward
  split
  · rename_i dst c
    split
    · rename_i hone
      split
      · exact .unchanged f definitions hcalls (by simp)
      · rename_i key hkey
        obtain rfl := fromConstant_eq hkey
        split
        · rename_i previous hprev
          refine ⟨.inr ⟨dst, previous, hone, .constant hprev, rfl, by simp⟩, ?_, ?_⟩
          · exact fun l _ h => ⟨hcalls, .inl ⟨h, by simp⟩⟩
          · exact fun _ _ h => .inl h
        · refine ⟨.inl ⟨rfl, fun h => ⟨dst, key, rfl, hone, by simpa using h⟩⟩, ?_, ?_⟩
          · exact fun l _ h => ⟨hcalls, .inl ⟨h, by simp⟩⟩
          · intro k value hmem
            rcases mem_cons.mp hmem with heq | hmem
            · cases heq
              exact .inr ⟨key, rfl, hone, rfl⟩
            · exact .inl hmem
    · exact .unchanged f definitions hcalls (by simp)
  · rename_i dst l
    split
    · rename_i hone
      -- without a fact that fits, the local is known to equal the destination from here on
      have hkept : Scanned f definitions scan
          { scan with locals := scan.locals.set l (some (scan.aliases dst.temp)) }
          (.loadLocal dst l) false := by
        refine ⟨.inl ⟨rfl, by simp⟩, fun l' value h => ⟨hcalls, ?_⟩, fun _ _ h => .inl h⟩
        rcases getD_set h with ⟨rfl, heq⟩ | ⟨-, h⟩
        · exact .inr (.inr ⟨dst, rfl, hone, (Option.some.inj heq).symm⟩)
        · exact .inl ⟨h, by simp⟩
      split
      · rename_i previous hprev
        split
        · rename_i hsame
          refine ⟨.inr ⟨dst, previous, hone, .readLocal hprev hsame, rfl, by simp⟩, ?_, ?_⟩
          · refine fun l' value h => ⟨hcalls, ?_⟩
            rcases getD_set h with ⟨rfl, heq⟩ | ⟨-, h⟩
            · refine .inr (.inr ⟨dst, rfl, hone, ?_⟩)
              rw [← Option.some.inj heq]
              show previous = Function.update scan.aliases dst.temp previous dst.temp
              rw [Function.update_self]
            · exact .inl ⟨h, by simp⟩
          · exact fun _ _ h => .inl h
        · exact hkept
      · exact hkept
    · exact .unchanged f definitions hcalls (by simp)
  · rename_i l src
    refine ⟨.inl ⟨rfl, by simp⟩, fun l' value h => ⟨hcalls, ?_⟩, fun _ _ h => .inl h⟩
    rcases getD_set h with ⟨rfl, heq⟩ | ⟨hne, h⟩
    · split at heq
      · rename_i hone
        cases heq
        exact .inr (.inl ⟨rfl, hone⟩)
      · cases heq
    · refine .inl ⟨h, fun src' heq => hne ?_⟩
      exact (Instruction.storeLocal.inj heq).1.symm
  · rename_i dst src
    split
    · rename_i h
      simp only [Bool.and_eq_true, decide_eq_true_eq] at h
      refine ⟨.inr ⟨dst, src, h.1.1, .copy h.1.2 h.2, rfl, by simp⟩, ?_, fun _ _ h => .inl h⟩
      exact fun l _ h => ⟨hcalls, .inl ⟨h, by simp⟩⟩
    · exact .unchanged f definitions hcalls (by simp)
  · rename_i hsto _
    exact .unchanged f definitions hcalls hsto

/-- A call is never forwarded, and kills the facts. -/
theorem forward_calls (scan : Scan) (i : Instruction P) (hcalls : i.effects.calls = true) :
    forward f definitions scan i = (scan, false) := by
  cases i <;> first | rfl | cases hcalls

theorem getD_replicate_none {n : Nat} {l : LocalId} :
    (List.replicate n (none : Option MirValue)).getD l none = none := by
  simp only [getD_eq_getElem?_getD, getElem?_replicate]
  split <;> rfl

theorem scanRow_spec (scan : Scan) (row : Row P) :
    Scanned f definitions scan (scanRow f definitions scan row).1
      (row.instruction.rewriteInputs (aliased scan.aliases))
      (scanRow f definitions scan row).2.isNone := by
  unfold scanRow
  dsimp only
  generalize row.instruction.rewriteInputs (aliased scan.aliases) = i
  cases hcalls : i.effects.calls with
  | false =>
    have h := forward_spec f definitions scan i hcalls
    unfold killFacts
    rw [if_neg (by simp)]
    cases hremd : (forward f definitions scan i).2 <;> simpa [hremd] using h
  | true =>
    rw [forward_calls f definitions scan i hcalls]
    unfold killFacts
    refine ⟨.inl ⟨rfl, by simp⟩, fun l value h => ?_, fun _ _ h => .inl h⟩
    rw [if_pos rfl] at h
    dsimp only at h
    rw [getD_replicate_none] at h
    cases h

/-- A kept row is the row with its inputs rewritten. -/
theorem scanRow_kept {row kept : Row P}
    (h : (scanRow f definitions scan row).2 = some kept) :
    kept = row.rewrite scan.aliases := by
  unfold scanRow at h
  dsimp only at h
  split at h
  · cases h
  · exact (Option.some.inj h).symm

/-! ## The rows of a block -/

/-- The scan after some rows. -/
def scanTo (scan : Scan) (rows : List (Row P)) : Scan :=
  rows.foldl (fun scan row => (scanRow f definitions scan row).1) scan

/-- The rows that are kept. -/
def keptRows : List (Row P) → Scan → List (Row P)
  | [], _ => []
  | row :: rows, scan =>
    (scanRow f definitions scan row).2.toList ++
      keptRows rows (scanRow f definitions scan row).1

theorem keptRows_append (rows rest : List (Row P)) : ∀ scan,
    keptRows f definitions (rows ++ rest) scan =
      keptRows f definitions rows scan ++
        keptRows f definitions rest (scanTo f definitions scan rows) := by
  induction rows with
  | nil => exact fun scan => rfl
  | cons row rows ih =>
    intro scan
    show _ ++ keptRows f definitions (rows ++ rest) _ = (_ ++ _) ++ _
    rw [ih, append_assoc]
    rfl

theorem scanRows_spec (rows : List (Row P)) : ∀ scan,
    Ensures (scanRows f definitions rows scan) (fun out =>
      out = (keptRows f definitions rows scan, scanTo f definitions scan rows)) := by
  induction rows with
  | nil => exact fun scan => .pure rfl
  | cons row rows ih =>
    intro scan
    refine .seq (.seq ?_)
    refine .bind (ih _) ?_
    rintro _ rfl
    exact .pure rfl

variable (starts : BlockId → Scan)

/-- The scan when row `i` of block `b` is looked at. -/
def scanAt (b : BlockId) (i : Nat) : Scan := scanTo f definitions (starts b) ((f.rowsAt b).take i)

variable {f definitions starts}

theorem scanAt_zero (b : BlockId) : scanAt f definitions starts b 0 = starts b := rfl

theorem scanAt_succ {i : Nat} {row : Row P} (h : (f.rowsAt b)[i]? = some row) :
    scanAt f definitions starts b (i + 1) =
      (scanRow f definitions (scanAt f definitions starts b i) row).1 := by
  unfold scanAt scanTo
  obtain ⟨hlt, rfl⟩ := List.getElem?_eq_some_iff.mp h
  rw [List.take_add_one, List.getElem?_eq_getElem hlt, Option.toList_some, List.foldl_append]
  rfl

theorem scanAt_congr {starts' : BlockId → Scan} (h : starts b = starts' b) (i : Nat) :
    scanAt f definitions starts b i = scanAt f definitions starts' b i := by
  unfold scanAt
  rw [h]

/-! ## How the aliases grow -/

/-- A temporary with one definition is written at one point only. -/
def SingleDefinitions (f : MirFunction P) (definitions : TempId → Nat) : Prop :=
  ∀ t, definitions t = 1 → ∀ p q, Writes f t p → Writes f t q → p = q

/-- The alias of a temporary changes only at its one definition. -/
theorem aliases_succ {i : Nat} {row : Row P} (h : (f.rowsAt b)[i]? = some row)
    (t : TempId) :
    (scanAt f definitions starts b (i + 1)).aliases t = (scanAt f definitions starts b i).aliases t ∨
      (definitions t = 1 ∧ Writes f t (b, i)) := by
  rw [scanAt_succ h]
  rcases (scanRow_spec f definitions (scanAt f definitions starts b i) row).aliases with
    ⟨heq, -⟩ | ⟨dst, value, hone, hsrc, heq, -⟩
  · exact .inl (congrFun heq t)
  · rw [heq]
    by_cases ht : t = dst.temp
    · have hout := hsrc.output
      rw [Instruction.rewriteInputs, Instruction.output_rewrite, Option.map_id, id] at hout
      exact .inr ⟨ht ▸ hone, row, dst, h, hout, ht.symm⟩
    · exact .inl (Function.update_of_ne ht _ _)

/-- The aliases after the rows in `past` have been scanned. -/
structure Tracked (f : MirFunction P) (definitions : TempId → Nat) (starts : BlockId → Scan)
    (past : Point → Prop) (aliases : TempId → MirValue) : Prop where
  seen : ∀ b i t, past (b, i) → i < (f.rowsAt b).length → ∀ k, k = i ∨ k = i + 1 →
    (scanAt f definitions starts b k).aliases t = f.ownValue t ∨
      (scanAt f definitions starts b k).aliases t = aliases t
  changed : ∀ t, aliases t = f.ownValue t ∨ ∃ b i, past (b, i) ∧ i < (f.rowsAt b).length ∧
    (scanAt f definitions starts b i).aliases t = f.ownValue t ∧
    (scanAt f definitions starts b (i + 1)).aliases t = aliases t

theorem Tracked.congr
    (h : Tracked f definitions starts past aliases) (starts' : BlockId → Scan)
    (hstarts : ∀ b i, past (b, i) → starts b = starts' b) :
    Tracked f definitions starts' past aliases := by
  refine ⟨fun b i t hp hi k hk => ?_, fun t => ?_⟩
  · rw [← scanAt_congr (hstarts b i hp)]
    exact h.seen b i t hp hi k hk
  · rcases h.changed t with heq | ⟨b, i, hp, hi, hown, hnew⟩
    · exact .inl heq
    · refine .inr ⟨b, i, hp, hi, ?_, ?_⟩
      · rw [← scanAt_congr (hstarts b i hp)]
        exact hown
      · rw [← scanAt_congr (hstarts b i hp)]
        exact hnew

theorem Tracked.weaken {past past' : Point → Prop}
    (h : Tracked f definitions starts past aliases)
    (hpast : ∀ b i, i < (f.rowsAt b).length → (past (b, i) ↔ past' (b, i))) :
    Tracked f definitions starts past' aliases := by
  refine ⟨fun b i t hp hi => h.seen b i t ((hpast b i hi).mpr hp) hi, fun t => ?_⟩
  rcases h.changed t with heq | ⟨b, i, hp, hi, hrest⟩
  · exact .inl heq
  · exact .inr ⟨b, i, (hpast b i hi).mp hp, hi, hrest⟩

/-- One more row. -/
theorem Tracked.row {past : Point → Prop} {b : BlockId} {i : Nat}
    (hsing : SingleDefinitions f definitions) (hi : i < (f.rowsAt b).length)
    (hnew : ¬ past (b, i))
    (h : Tracked f definitions starts past (scanAt f definitions starts b i).aliases) :
    Tracked f definitions starts (fun p => past p ∨ p = (b, i))
      (scanAt f definitions starts b (i + 1)).aliases := by
  have hrow := getElem?_eq_getElem hi
  -- an alias that changes here was not set before
  have hfr : ∀ t, (scanAt f definitions starts b (i + 1)).aliases t ≠
      (scanAt f definitions starts b i).aliases t →
      (scanAt f definitions starts b i).aliases t = f.ownValue t := by
    intro t hne
    rcases h.changed t with heq | ⟨b', i', hp, hi', hown, hset⟩
    · exact heq
    · obtain ⟨hone, hwrs⟩ := (aliases_succ hrow t).resolve_left hne
      by_cases heq : (scanAt f definitions starts b' (i' + 1)).aliases t =
        (scanAt f definitions starts b' i').aliases t
      · rw [← hset, heq, hown]
      · obtain ⟨-, hwrs'⟩ := (aliases_succ (getElem?_eq_getElem hi') t).resolve_left heq
        rw [hsing t hone _ _ hwrs hwrs'] at hnew
        exact absurd hp hnew
  refine ⟨fun b' i' t hp hi' k hk => ?_, fun t => ?_⟩
  · by_cases hsame : (scanAt f definitions starts b (i + 1)).aliases t =
      (scanAt f definitions starts b i).aliases t
    · rcases hp with hp | hp
      · rw [hsame]
        exact h.seen b' i' t hp hi' k hk
      · cases hp
        rcases hk with rfl | rfl
        · exact .inr hsame.symm
        · exact .inr rfl
    · have hown := hfr t hsame
      rcases hp with hp | hp
      · rcases h.seen b' i' t hp hi' k hk with heq | heq
        · exact .inl heq
        · exact .inl (heq.trans hown)
      · cases hp
        rcases hk with rfl | rfl
        · exact .inl hown
        · exact .inr rfl
  · by_cases hsame : (scanAt f definitions starts b (i + 1)).aliases t =
      (scanAt f definitions starts b i).aliases t
    · rcases h.changed t with heq | ⟨b', i', hp, hi', hown, hset⟩
      · exact .inl (hsame.trans heq)
      · exact .inr ⟨b', i', .inl hp, hi', hown, hset.trans hsame.symm⟩
    · exact .inr ⟨b, i, .inr rfl, hi, hfr t hsame, rfl⟩

/-- All rows of a block. -/
theorem Tracked.block
    (hsing : SingleDefinitions f definitions) (hnew : ∀ i, ¬ past (b, i))
    (h : Tracked f definitions starts past (starts b).aliases) :
    Tracked f definitions starts (fun p => past p ∨ p.1 = b)
      (scanTo f definitions (starts b) (f.rowsAt b)).aliases := by
  have hpre : ∀ i ≤ (f.rowsAt b).length,
      Tracked f definitions starts (fun p => past p ∨ (p.1 = b ∧ p.2 < i))
        (scanAt f definitions starts b i).aliases := by
    intro i
    induction i with
    | zero => exact fun _ => h.weaken (by simp)
    | succ i ih =>
      intro hi
      have hrow := (ih (by omega)).row hsing (show i < (f.rowsAt b).length by omega)
        (by simp [hnew])
      refine hrow.weaken (fun b' i' _ => ?_)
      rw [Prod.mk.injEq]
      dsimp only
      grind
  have hall := hpre _ (Nat.le_refl _)
  unfold scanAt at hall
  rw [take_length] at hall
  refine hall.weaken (fun b' i' hi' => ?_)
  dsimp only
  constructor
  · rintro (hp | ⟨heq, -⟩)
    · exact .inl hp
    · exact .inr heq
  · rintro (hp | rfl)
    · exact .inl hp
    · exact .inr ⟨rfl, hi'⟩

end Scan

end Kagari.Mir
