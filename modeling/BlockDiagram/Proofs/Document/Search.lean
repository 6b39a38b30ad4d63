import BlockDiagram.Document.Lowering
import BlockDiagram.Proofs.Draft.Call
import Mathlib.Data.Finset.Card
import Mathlib.Order.Bounds.Basic
import Mathlib.Order.Interval.Finset.Nat
/-! Searches for a free number: each finds the least one, and no search outlasts the names that are
taken. -/

namespace BlockDiagram

/-- The numbers from `start` on whose name is not taken. -/
def freeFrom (name : Nat → String) (taken : List String) (start : Nat) : Set Nat :=
  {n | start ≤ n ∧ name n ∉ taken}

/-- The search as a loop: a round tests one number against all the names that are taken, and after
the given number of rounds the loop gives up. -/
def search (name : Nat → String) (taken : List String) : Nat → Nat → Option Nat
  | 0, _ => none
  | rounds + 1, n =>
    if name n ∈ taken then search name taken rounds (n + 1) else some n

/-- The fresh name by a search that may give up, in which case the taken base is what is left. -/
def freshNameWithin (rounds : Nat) (taken : List String) (base : String) : String :=
  if base ∈ taken then
    let numbered := fun n : Nat => s!"{base}_{n}"
    ((search numbered taken rounds 1).map numbered).getD base
  else base

section Search

variable {name : Nat → String} {taken : List String} {start : Nat}

/-- A round that meets a taken name leaves the free numbers as they are. -/
theorem freeFrom_succ (h : name start ∈ taken) :
    freeFrom name taken (start + 1) = freeFrom name taken start := by
  ext n
  constructor
  · rintro ⟨hle, hfree⟩
    exact ⟨Nat.le_of_succ_le hle, hfree⟩
  · rintro ⟨hle, hfree⟩
    refine ⟨Nat.lt_of_le_of_ne hle ?_, hfree⟩
    rintro rfl
    exact hfree h

theorem isLeast_freeFrom_start (h : name start ∉ taken) :
    IsLeast (freeFrom name taken start) start :=
  ⟨⟨Nat.le_refl start, h⟩, fun _ hn => hn.1⟩

/-- The loop returns a number exactly if it is the least free one and its turn comes within the
rounds. -/
theorem search_eq_some {rounds n : Nat} :
    search name taken rounds start = some n ↔
      IsLeast (freeFrom name taken start) n ∧ n < start + rounds := by
  induction rounds generalizing start with
  | zero =>
      constructor
      · nofun
      · rintro ⟨hleast, hlt⟩
        exact absurd hleast.1.1 (Nat.not_le.mpr hlt)
  | succ rounds ih =>
      by_cases h : name start ∈ taken
      · rw [search, if_pos h, ih, freeFrom_succ h]
        have hturn : start + 1 + rounds = start + (rounds + 1) := by omega
        rw [hturn]
      · rw [search, if_neg h, Option.some.injEq]
        constructor
        · rintro rfl
          exact ⟨isLeast_freeFrom_start h, by omega⟩
        · rintro ⟨hleast, -⟩
          exact (isLeast_freeFrom_start h).unique hleast

/-- Striking off a name on the way loses no smaller free number. -/
theorem firstFree_isLeast (hname : Function.Injective name) (taken : List String) (start : Nat) :
    IsLeast (freeFrom name taken start) (firstFree name taken start) := by
  refine ⟨⟨start_le_firstFree name taken start, firstFree_not_mem hname taken start⟩, ?_⟩
  rintro n ⟨hle, hfree⟩
  fun_induction firstFree name taken start with
  | case1 taken start hmem ih =>
      have hne : start ≠ n := by
        rintro rfl
        exact hfree hmem
      exact ih (Nat.lt_of_le_of_ne hle hne) fun hin => hfree (List.mem_of_mem_erase hin)
  | case2 taken start hused => exact hle

/-- The numbers that are passed over have different names, and all of these are taken. -/
theorem firstFree_le (hname : Function.Injective name) (taken : List String) (start : Nat) :
    firstFree name taken start ≤ start + taken.toFinset.card := by
  have hpassed : ∀ n ∈ Finset.Ico start (firstFree name taken start), name n ∈ taken := by
    intro n hn
    obtain ⟨hle, hlt⟩ := Finset.mem_Ico.mp hn
    by_contra hfree
    exact absurd ((firstFree_isLeast hname taken start).2 ⟨hle, hfree⟩) (Nat.not_le.mpr hlt)
  have himage :
      (Finset.Ico start (firstFree name taken start)).image name ⊆ taken.toFinset := by
    intro v hv
    obtain ⟨n, hn, rfl⟩ := Finset.mem_image.mp hv
    exact List.mem_toFinset.mpr (hpassed n hn)
  have hcard := Finset.card_le_card himage
  rw [Finset.card_image_of_injective _ hname, Nat.card_Ico] at hcard
  omega

/-- How a search ends: at the least free number, which every search finds that has one round more
than there are names taken. -/
structure Finds (name : Nat → String) (taken : List String) (start n : Nat) : Prop where
  least : IsLeast (freeFrom name taken start) n
  ends : ∀ spare, search name taken (taken.toFinset.card + 1 + spare) start = some n

theorem finds_firstFree (hname : Function.Injective name) (taken : List String) (start : Nat) :
    Finds name taken start (firstFree name taken start) where
  least := firstFree_isLeast hname taken start
  ends spare := by
    have hle := firstFree_le hname taken start
    exact search_eq_some.mpr ⟨firstFree_isLeast hname taken start, by omega⟩

end Search

section Fresh

variable {taken : List String} {base : String}

theorem freshName_of_free (h : base ∉ taken) : freshName taken base = base := if_neg h

/-- A taken base is numbered by the least free number from one on. -/
theorem freshName_of_taken (h : base ∈ taken) :
    ∃ n, Finds (fun n => s!"{base}_{n}") taken 1 n ∧ freshName taken base = s!"{base}_{n}" :=
  ⟨_, finds_firstFree (numbered_injective (base ++ "_")) taken 1, if_pos h⟩

/-- The search of the fresh name does not give up: the taken base is never what is left. -/
theorem freshNameWithin_eq (taken : List String) (base : String) (spare : Nat) :
    freshNameWithin (taken.toFinset.card + 1 + spare) taken base = freshName taken base := by
  by_cases h : base ∈ taken
  · obtain ⟨n, hfinds, hname⟩ := freshName_of_taken h
    rw [hname, freshNameWithin, if_pos h]
    simp only [hfinds.ends spare, Option.map_some, Option.getD_some]
  · rw [freshName_of_free h, freshNameWithin, if_neg h]

end Fresh

namespace Draft

variable {α : Type}

/-- Registering an anonymous table claims the number that is found, and keeps it claimed if the table
is refused after all. -/
theorem registerTable_finds (d : Draft α) (axes : List String) (values : Array α) :
    ∃ n, Finds (fun n => s!"anon_table_{n}") d.tableIds (d.anonymous + 1) n ∧
      (claimTableId none).run d = .ok s!"anon_table_{n}" { d with anonymous := n } ∧
      (registerTable none axes values).run d =
        match d.axesNamed axes >>= (Table.ofValues s!"anon_table_{n}" · values) with
        | .error e => .error e { d with anonymous := n }
        | .ok t => .ok ⟨d.tables.size⟩ { d with anonymous := n, tables := d.tables.push t } := by
  refine ⟨d.nextAnonymous, finds_firstFree (numbered_injective "anon_table_") _ _, ?_, ?_⟩
  · rw [claimTableId_run, if_neg nofun]
    rfl
  · rw [registerTable_run, if_neg nofun]
    rfl

end Draft

namespace Document

variable {α : Type} [Scalar α]

/-- Declaring a derived signal never fails, since the name that is found is free. -/
theorem deriveSignal_finds (owner : String) (used : Nat) (d : Draft α) :
    ∃ n, Finds (fun n => s!"{owner}_t{n}") d.varIds (used + 1) n ∧
      (deriveSignal owner used).run d =
        .ok (s!"{owner}_t{n}", n)
          { d with signals := d.signals.push (Signal.derive s!"{owner}_t{n}").unwired } := by
  let n := firstFree (fun n => s!"{owner}_t{n}") d.varIds (used + 1)
  have hfinds : Finds (fun n => s!"{owner}_t{n}") d.varIds (used + 1) n :=
    finds_firstFree (numbered_injective (owner ++ "_t")) d.varIds (used + 1)
  have hadd : (Draft.addSignal (Signal.derive s!"{owner}_t{n}")).run d = .ok ⟨d.signals.size⟩
      { d with signals := d.signals.push (Signal.derive s!"{owner}_t{n}").unwired } := by
    rw [Draft.addSignal_run]
    exact if_neg hfinds.least.1.2
  refine ⟨n, hfinds, ?_⟩
  unfold deriveSignal
  rw [EStateM.run_bind, EStateM.run_get]
  simp only [EStateM.run_bind]
  rw [hadd]
  rfl

end Document

/-- The three searches for a free name. A fresh name is its base if that is free, else the base with
the least free number from one on, and the search never falls back on the taken base. An anonymous
table claims the least free number above the counter of the draft, and a derived signal the least
one above the counter of its owner. -/
theorem fresh_searches {α : Type} [Scalar α] :
    (∀ taken base,
      (base ∉ taken → freshName taken base = base) ∧
      (base ∈ taken → ∃ n, Finds (fun n => s!"{base}_{n}") taken 1 n ∧
        freshName taken base = s!"{base}_{n}") ∧
      ∀ spare, freshNameWithin (taken.toFinset.card + 1 + spare) taken base =
        freshName taken base) ∧
    (∀ (d : Draft α) (axes : List String) (values : Array α),
      ∃ n, Finds (fun n => s!"anon_table_{n}") d.tableIds (d.anonymous + 1) n ∧
        (Draft.claimTableId none).run d = .ok s!"anon_table_{n}" { d with anonymous := n } ∧
        (Draft.registerTable none axes values).run d =
          match d.axesNamed axes >>= (Table.ofValues s!"anon_table_{n}" · values) with
          | .error e => .error e { d with anonymous := n }
          | .ok t => .ok ⟨d.tables.size⟩ { d with anonymous := n, tables := d.tables.push t }) ∧
    ∀ (owner : String) (used : Nat) (d : Draft α),
      ∃ n, Finds (fun n => s!"{owner}_t{n}") d.varIds (used + 1) n ∧
        (Document.deriveSignal owner used).run d =
          .ok (s!"{owner}_t{n}", n)
            { d with signals := d.signals.push (Signal.derive s!"{owner}_t{n}").unwired } :=
  ⟨fun taken base => ⟨freshName_of_free, freshName_of_taken, freshNameWithin_eq taken base⟩,
    Draft.registerTable_finds, Document.deriveSignal_finds⟩

end BlockDiagram
