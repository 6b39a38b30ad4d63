import BlockDiagram.Block.Kind
import BlockDiagram.Proofs.Names
import BlockDiagram.Signal
import Mathlib.Data.List.Nodup
import Mathlib.Logic.Function.Basic
/-! Directories: name tables kept beside the arenas of a diagram by one write a change, and lists of
the entries of an arena that have a property. Either is exact if it says what the arena says, neither
more nor less. -/

namespace BlockDiagram

variable {α β γ : Type} {arena : Arena}

/-- A table that leads from names to handles. -/
abbrev NameTable (arena : Arena) := String → Option (Handle arena)

namespace NameTable

def empty : NameTable arena := fun _ => none

/-- A write replaces what stood under the name. -/
def write (t : NameTable arena) (name : String) (h : Handle arena) : NameTable arena :=
  Function.update t name (some h)

@[simp] theorem write_self (t : NameTable arena) (name : String) (h : Handle arena) :
    t.write name h name = some h := by
  simp [write]

@[simp] theorem write_of_ne (t : NameTable arena) {name other : String} (hne : other ≠ name)
    (h : Handle arena) : t.write name h other = t other := by
  simp [write, hne]

/-- The table leads from each name to the entry that bears it, and holds nothing else. -/
def Exact (t : NameTable arena) (key : β → String) (xs : Array β) : Prop :=
  ∀ name h, t name = some h ↔ ∃ x, xs[h.index]? = some x ∧ key x = name

/-- The table is exact but for one name, which no entry bears: what it holds there is stale. -/
structure ExactOff (stale : String) (t : NameTable arena) (key : β → String) (xs : Array β) :
    Prop where
  exact : ∀ name h, name ≠ stale → (t name = some h ↔ ∃ x, xs[h.index]? = some x ∧ key x = name)
  free : ∀ x ∈ xs, key x ≠ stale

/-- A write under the stale name, for a further entry that bears it, makes the table exact. -/
theorem ExactOff.push {t : NameTable arena} {key : β → String} {xs : Array β} {x : β}
    (ht : t.ExactOff (key x) key xs) : (t.write (key x) ⟨xs.size⟩).Exact key (xs.push x) := by
  intro name h
  rw [Array.getElem?_push]
  by_cases hname : name = key x
  · subst hname
    simp only [write_self, Option.some.injEq]
    constructor
    · rintro rfl
      exact ⟨x, if_pos rfl, rfl⟩
    · rintro ⟨y, hy, hkey⟩
      split at hy
      · exact (Handle.eq_mk ‹_›).symm
      · exact absurd hkey (ht.free y (Array.mem_of_getElem? hy))
  · rw [write_of_ne _ hname, ht.exact name h hname]
    constructor
    · rintro ⟨y, hy, rfl⟩
      exact ⟨y, by rw [if_neg (Nat.ne_of_lt (Array.getElem?_eq_some_iff.mp hy).1), hy], rfl⟩
    · rintro ⟨y, hy, rfl⟩
      split at hy
      · cases hy
        exact absurd rfl hname
      · exact ⟨y, hy, rfl⟩

namespace Exact

variable {t : NameTable arena} {key : β → String} {xs : Array β}

theorem empty : (NameTable.empty : NameTable arena).Exact key (#[] : Array β) := by
  intro name h
  simp [NameTable.empty]

/-- The entries leave no choice of the table. -/
theorem unique (ht : t.Exact key xs) {u : NameTable arena} (hu : u.Exact key xs) : t = u :=
  funext fun name => Option.ext fun h => (ht name h).trans (hu name h).symm

theorem distinct (ht : t.Exact key xs) {i j : Nat} {x y : β} (hx : xs[i]? = some x)
    (hy : xs[j]? = some y) (hxy : key x = key y) : i = j := by
  have hi := (ht (key y) ⟨i⟩).mpr ⟨x, hx, hxy⟩
  have hj := (ht (key y) ⟨j⟩).mpr ⟨y, hy, rfl⟩
  rw [hi] at hj
  cases hj
  rfl

/-- A search of the arena finds what the table holds. -/
theorem findIdx (ht : t.Exact key xs) (name : String) :
    (xs.findIdx? fun x => key x == name).map Handle.mk = t name := by
  apply Option.ext
  intro h
  rw [ht name h, Option.map_eq_some_iff]
  have hfind := findIdx_eq_some_iff (k := name) (i := h.index) fun i j x y => ht.distinct (i := i)
  constructor
  · rintro ⟨i, hi, rfl⟩
    exact hfind.mp hi
  · intro hx
    exact ⟨h.index, hfind.mpr hx, rfl⟩

theorem find (ht : t.Exact key xs) (name : String) :
    (xs.find? fun x => key x == name) = (t name).bind fun h => xs[h.index]? := by
  cases hfound : xs.find? fun x => key x == name with
  | none =>
      rw [Array.find?_eq_none] at hfound
      cases hname : t name with
      | none => rfl
      | some h =>
          obtain ⟨x, hx, hkey⟩ := (ht name h).mp hname
          exact absurd (beq_iff_eq.mpr hkey) (hfound x (Array.mem_of_getElem? hx))
  | some x =>
      have hkey : key x = name := by simpa using Array.find?_some hfound
      obtain ⟨i, hi⟩ := Array.mem_iff_getElem?.mp (Array.mem_of_find?_eq_some hfound)
      rw [(ht name ⟨i⟩).mpr ⟨x, hi, hkey⟩, Option.bind_some, hi]

theorem nodup (ht : t.Exact key xs) : (xs.toList.map key).Nodup := by
  rw [List.nodup_iff_injective_getElem]
  rintro ⟨i, hi⟩ ⟨j, hj⟩ hij
  rw [List.length_map, Array.length_toList] at hi hj
  simp only [List.getElem_map, Array.getElem_toList] at hij
  exact Fin.ext (ht.distinct (Array.getElem?_eq_getElem hi) (Array.getElem?_eq_getElem hj) hij)

/-- Only the names matter. -/
theorem congr (ht : t.Exact key xs) {key' : γ → String} {ys : Array γ}
    (hnames : ∀ i : Nat, ys[i]?.map key' = xs[i]?.map key) : t.Exact key' ys := by
  intro name h
  have hsame := hnames h.index
  rw [ht name h]
  simp only [← Option.map_eq_some_iff, hsame]

/-- A change of an entry that leaves its name. -/
theorem modify (ht : t.Exact key xs) {f : β → β} (hf : ∀ x, key (f x) = key x) {j : Nat} :
    t.Exact key (xs.modify j f) := by
  refine ht.congr fun i => ?_
  rw [Array.getElem?_modify]
  split
  · cases xs[i]? with
    | none => rfl
    | some x => rw [Option.map_some, Option.map_some, Option.map_some, hf]
  · rfl

/-- A further entry, with a name that is free. -/
theorem push (ht : t.Exact key xs) {x : β} (hfree : ∀ y ∈ xs, key y ≠ key x) :
    (t.write (key x) ⟨xs.size⟩).Exact key (xs.push x) :=
  ExactOff.push ⟨fun name h _ => ht name h, hfree⟩

/-- An entry that gets a free name leaves its old one stale. -/
theorem rename (ht : t.Exact key xs) {i : Nat} {x y : β} (hx : xs[i]? = some x)
    (hfree : ∀ z ∈ xs, key z ≠ key y) :
    (t.write (key y) ⟨i⟩).ExactOff (key x) key (xs.setIfInBounds i y) := by
  have hlt := (Array.getElem?_eq_some_iff.mp hx).1
  have hself := hfree x (Array.mem_of_getElem? hx)
  constructor
  · intro name h hstale
    rw [Array.getElem?_setIfInBounds]
    by_cases hname : name = key y
    · subst hname
      simp only [write_self, Option.some.injEq]
      constructor
      · rintro rfl
        exact ⟨y, by rw [if_pos rfl, if_pos hlt], rfl⟩
      · rintro ⟨z, hz, hkey⟩
        split at hz
        · exact (Handle.eq_mk (Eq.symm ‹_›)).symm
        · exact absurd hkey (hfree z (Array.mem_of_getElem? hz))
    · rw [write_of_ne _ hname, ht name h]
      by_cases hi : i = h.index
      · subst hi
        rw [if_pos rfl, if_pos hlt, hx]
        constructor
        · rintro ⟨z, ⟨⟩, rfl⟩
          exact absurd rfl hstale
        · rintro ⟨z, ⟨⟩, rfl⟩
          exact absurd rfl hname
      · rw [if_neg hi]
  · intro z hz hkey
    obtain ⟨j, hj⟩ := Array.mem_iff_getElem?.mp hz
    rw [Array.getElem?_setIfInBounds] at hj
    split at hj
    · cases hj
      exact hself hkey.symm
    · exact ‹i ≠ j› (ht.distinct hx hj hkey.symm)

/-- An entry gets a free name and a further entry takes its old one over. -/
theorem supplant (ht : t.Exact key xs) {i : Nat} {x y z : β} (hx : xs[i]? = some x)
    (hfree : ∀ w ∈ xs, key w ≠ key y) (hz : key z = key x) :
    ((t.write (key y) ⟨i⟩).write (key z) ⟨xs.size⟩).Exact key ((xs.setIfInBounds i y).push z) := by
  have hrenamed := ht.rename hx hfree
  rw [← hz] at hrenamed
  simpa only [Array.size_setIfInBounds] using hrenamed.push

end Exact

end NameTable

theorem freshName_ne {key : β → String} {xs : Array β} (base : String) :
    ∀ x ∈ xs, key x ≠ freshName (xs.toList.map key) base := by
  intro x hx heq
  refine freshName_not_mem (xs.toList.map key) base (heq ▸ ?_)
  exact List.mem_map_of_mem (Array.mem_toList_iff.mpr hx)

/-- The list names the entries with a property, each once, in the order of the arena. -/
structure Lists (ids : List (Handle arena)) (P : β → Prop) (xs : Array β) : Prop where
  mem : ∀ h, h ∈ ids ↔ ∃ x, xs[h.index]? = some x ∧ P x
  ascending : ids.Pairwise fun i j => i.index < j.index

namespace Lists

variable {ids : List (Handle arena)} {P : β → Prop} {xs : Array β}

theorem of_none (hnone : ∀ x ∈ xs, ¬ P x) : Lists ([] : List (Handle arena)) P xs := by
  constructor
  · intro h
    simp only [List.not_mem_nil, false_iff, not_exists, not_and]
    exact fun x hx => hnone x (Array.mem_of_getElem? hx)
  · exact .nil

theorem congr (h : Lists ids P xs) {Q : γ → Prop} {ys : Array γ}
    (hsame : ∀ i : Nat, (∃ y, ys[i]? = some y ∧ Q y) ↔ ∃ x, xs[i]? = some x ∧ P x) :
    Lists ids Q ys :=
  ⟨fun i => by rw [h.mem i, hsame], h.ascending⟩

theorem push (h : Lists ids P xs) {x : β} (hx : P x) : Lists (ids ++ [⟨xs.size⟩]) P (xs.push x) := by
  have hold : ∀ i ∈ ids, i.index < xs.size := by
    intro i hi
    obtain ⟨y, hy, -⟩ := (h.mem i).mp hi
    exact (Array.getElem?_eq_some_iff.mp hy).1
  constructor
  · intro i
    rw [List.mem_append, List.mem_singleton, Array.getElem?_push, h.mem]
    by_cases hi : i.index = xs.size
    · rw [if_pos hi]
      exact ⟨fun _ => ⟨x, rfl, hx⟩, fun _ => .inr (Handle.eq_mk hi)⟩
    · rw [if_neg hi]
      refine or_iff_left ?_
      rintro rfl
      exact hi rfl
  · refine List.pairwise_append.mpr ⟨h.ascending, List.pairwise_singleton _ _, ?_⟩
    intro i hi j hj
    rw [List.mem_singleton.mp hj]
    exact hold i hi

theorem push_of_not (h : Lists ids P xs) {x : β} (hx : ¬ P x) : Lists ids P (xs.push x) := by
  refine h.congr fun i => ?_
  rw [Array.getElem?_push]
  split
  · have hnone : xs[i]? = none := Array.getElem?_eq_none (Nat.le_of_eq (Eq.symm ‹_›))
    simp [hnone, hx]
  · rfl

/-- The positions that pass a test, read off in ascending order. -/
theorem filter_all {p : Handle arena → Bool} (hp : ∀ h, p h = true ↔ ∃ x, xs[h.index]? = some x ∧ P x) :
    Lists ((Handle.all xs.size).filter p) P xs := by
  constructor
  · intro h
    rw [List.mem_filter, Handle.mem_all, hp, and_iff_right_iff_imp]
    rintro ⟨x, hx, -⟩
    exact (Array.getElem?_eq_some_iff.mp hx).1
  · refine List.Pairwise.filter _ (List.pairwise_map.mpr ?_)
    exact List.pairwise_lt_range

end Lists

/-- The name tables of a diagram. -/
structure Directory where
  signals : NameTable .signal
  blocks : NameTable .block
  breakpoints : NameTable .breakpoints
  tables : NameTable .table

namespace Directory

def empty : Directory := ⟨.empty, .empty, .empty, .empty⟩

/-- Every table is exact for its arena; `name` is the name of a block. -/
structure Exact (x : Directory) (name : β → String) (signals : Array (Signal α)) (blocks : Array β)
    (sets : Array (BreakpointSet α)) (tables : Array (Table α)) : Prop where
  signals : x.signals.Exact Signal.varId signals
  blocks : x.blocks.Exact name blocks
  breakpoints : x.breakpoints.Exact BreakpointSet.id sets
  tables : x.tables.Exact Table.id tables

theorem Exact.unique {x y : Directory} {name : β → String} {signals : Array (Signal α)} {blocks : Array β}
    {sets : Array (BreakpointSet α)} {tables : Array (Table α)}
    (hx : x.Exact name signals blocks sets tables) (hy : y.Exact name signals blocks sets tables) :
    x = y := by
  obtain ⟨signals₁, blocks₁, sets₁, tables₁⟩ := x
  obtain ⟨signals₂, blocks₂, sets₂, tables₂⟩ := y
  rw [Directory.mk.injEq]
  exact ⟨hx.signals.unique hy.signals, hx.blocks.unique hy.blocks, hx.breakpoints.unique hy.breakpoints,
    hx.tables.unique hy.tables⟩

end Directory

/-- The users of a breakpoint set are the normalizers that read it, and those of a table its lookups;
`kind` is the kind of a block. -/
structure UsersExact (kind : β → BlockKind α) (blocks : Array β) (sets : Array (BreakpointSet α))
    (tables : Array (Table α)) : Prop where
  sets : ∀ (i : Nat) s, sets[i]? = some s → Lists s.users (fun b => kind b = .normalizer ⟨i⟩) blocks
  tables : ∀ (i : Nat) t, tables[i]? = some t → Lists t.users (fun b => kind b = .lookup ⟨i⟩) blocks

namespace UsersExact

variable {kind : β → BlockKind α} {blocks : Array β} {sets : Array (BreakpointSet α)}
  {tables : Array (Table α)}

theorem empty : UsersExact kind (#[] : Array β) (#[] : Array (BreakpointSet α)) #[] := by
  constructor <;> simp

/-- Only the kinds of the blocks matter. -/
theorem congr (h : UsersExact kind blocks sets tables) {kind' : γ → BlockKind α} {blocks' : Array γ}
    (hkinds : ∀ i : Nat, blocks'[i]?.map kind' = blocks[i]?.map kind) :
    UsersExact kind' blocks' sets tables := by
  have hsame : ∀ (k : BlockKind α) (i : Nat),
      (∃ c, blocks'[i]? = some c ∧ kind' c = k) ↔ ∃ b, blocks[i]? = some b ∧ kind b = k := by
    intro k i
    simp only [← Option.map_eq_some_iff, hkinds]
  exact ⟨fun i s hs => (h.sets i s hs).congr (hsame _), fun i t ht => (h.tables i t ht).congr (hsame _)⟩

/-- A further block that reads no grid data. -/
theorem push_plain (h : UsersExact kind blocks sets tables) {b : β}
    (hset : ∀ i, kind b ≠ .normalizer i) (htable : ∀ i, kind b ≠ .lookup i) :
    UsersExact kind (blocks.push b) sets tables :=
  ⟨fun i s hs => (h.sets i s hs).push_of_not (hset _),
    fun i t ht => (h.tables i t ht).push_of_not (htable _)⟩

theorem push_normalizer (h : UsersExact kind blocks sets tables) {b : β} {id : BreakpointId}
    (hb : kind b = .normalizer id) :
    UsersExact kind (blocks.push b)
      (sets.modify id.index fun s => { s with users := s.users ++ [⟨blocks.size⟩] }) tables := by
  constructor
  · intro i s' hs'
    rw [Array.getElem?_modify] at hs'
    split at hs'
    · subst i
      obtain ⟨s, hs, rfl⟩ := Option.map_eq_some_iff.mp hs'
      exact (h.sets _ s hs).push hb
    · refine (h.sets i s' hs').push_of_not ?_
      rw [hb]
      rintro ⟨⟩
      contradiction
  · intro i t ht
    exact (h.tables i t ht).push_of_not (by rw [hb]; nofun)

theorem push_lookup (h : UsersExact kind blocks sets tables) {b : β} {id : TableId}
    (hb : kind b = .lookup id) :
    UsersExact kind (blocks.push b) sets
      (tables.modify id.index fun t => { t with users := t.users ++ [⟨blocks.size⟩] }) := by
  constructor
  · intro i s hs
    exact (h.sets i s hs).push_of_not (by rw [hb]; nofun)
  · intro i t' ht'
    rw [Array.getElem?_modify] at ht'
    split at ht'
    · subst i
      obtain ⟨t, ht, rfl⟩ := Option.map_eq_some_iff.mp ht'
      exact (h.tables _ t ht).push hb
    · refine (h.tables i t' ht').push_of_not ?_
      rw [hb]
      rintro ⟨⟩
      contradiction

theorem push_set (h : UsersExact kind blocks sets tables) {s : BreakpointSet α}
    (husers : s.users = []) (hnone : ∀ b ∈ blocks, kind b ≠ .normalizer ⟨sets.size⟩) :
    UsersExact kind blocks (sets.push s) tables := by
  refine ⟨?_, h.tables⟩
  intro i s' hs'
  rw [Array.getElem?_push] at hs'
  split at hs'
  · subst i
    cases hs'
    rw [husers]
    exact .of_none hnone
  · exact h.sets i s' hs'

theorem push_table (h : UsersExact kind blocks sets tables) {t : Table α}
    (husers : t.users = []) (hnone : ∀ b ∈ blocks, kind b ≠ .lookup ⟨tables.size⟩) :
    UsersExact kind blocks sets (tables.push t) := by
  refine ⟨h.sets, ?_⟩
  intro i t' ht'
  rw [Array.getElem?_push] at ht'
  split at ht'
  · subst i
    cases ht'
    rw [husers]
    exact .of_none hnone
  · exact h.tables i t' ht'

end UsersExact

end BlockDiagram
