import BlockDiagram.Grid.Table
import BlockDiagram.Block.Kind
/-! Sound grid data: breakpoint sets and tables whose IDs, shapes, axes and users are in order. The nodes of
a table have been counted, so a word holds their number. -/

namespace BlockDiagram

variable {α : Type}

theorem BreakpointSet.ofValues_ok [Arithmetic α] {id : String} {values : List α}
    {s : BreakpointSet α} (h : ofValues id values = .ok s) :
    s.id = id ∧ s.values = values ∧ values ≠ [] ∧ s.users = [] := by
  unfold ofValues at h
  split at h
  · cases h
  · rename_i hne
    split at h
    · cases h
    · split at h
      · cases h
      · cases h
        exact ⟨rfl, rfl, by simpa using hne, rfl⟩

section Count

theorem inWord_eq_ok {n k : Nat} : (inWord n : Except (ModelError α) Nat) = .ok k ↔ n < wordSize ∧ n = k := by
  unfold inWord
  split
  · rename_i hn
    rw [Except.ok.injEq]
    exact (and_iff_right hn).symm
  · rename_i hn
    exact iff_of_false nofun fun h => hn h.1

theorem gridSize_pos {dims : List Nat} (hpos : ∀ d ∈ dims, 0 < d) : 0 < gridSize dims := by
  induction dims with
  | nil => exact Nat.one_pos
  | cons d dims ih =>
      exact Nat.mul_pos (hpos d List.mem_cons_self) (ih fun e he => hpos e (List.mem_cons_of_mem d he))

/-- Counting goes on from what the axes before have given. -/
theorem countFrom_ok {dims : List Nat} {start n : Nat} (hstart : start < wordSize)
    (h : (dims.foldlM (fun count length => inWord (count * length)) start : Except (ModelError α) Nat) =
      .ok n) : n = start * gridSize dims ∧ n < wordSize := by
  induction dims generalizing start with
  | nil =>
      obtain rfl : start = n := Except.ok.inj h
      exact ⟨(Nat.mul_one start).symm, hstart⟩
  | cons d dims ih =>
      rw [List.foldlM_cons] at h
      cases hfirst : (inWord (start * d) : Except (ModelError α) Nat) with
      | error e => rw [hfirst] at h; cases h
      | ok count =>
          rw [hfirst] at h
          obtain ⟨hword, rfl⟩ := inWord_eq_ok.mp hfirst
          obtain ⟨rfl, hn⟩ := ih hword h
          exact ⟨Nat.mul_assoc start d (gridSize dims), hn⟩

theorem countFrom_of_lt {dims : List Nat} {start : Nat} (hpos : ∀ d ∈ dims, 0 < d)
    (h : start * gridSize dims < wordSize) :
    (dims.foldlM (fun count length => inWord (count * length)) start : Except (ModelError α) Nat) =
      .ok (start * gridSize dims) := by
  induction dims generalizing start with
  | nil => exact congrArg Except.ok (Nat.mul_one start).symm
  | cons d dims ih =>
      have htail : ∀ e ∈ dims, 0 < e := fun e he => hpos e (List.mem_cons_of_mem d he)
      have hassoc : start * gridSize (d :: dims) = start * d * gridSize dims :=
        (Nat.mul_assoc start d (gridSize dims)).symm
      rw [hassoc] at h ⊢
      have hfirst : start * d < wordSize :=
        Nat.lt_of_le_of_lt (Nat.le_mul_of_pos_right (start * d) (gridSize_pos htail)) h
      have hcount : (inWord (start * d) : Except (ModelError α) Nat) = .ok (start * d) :=
        inWord_eq_ok.mpr ⟨hfirst, rfl⟩
      rw [List.foldlM_cons, hcount]
      exact ih htail h

/-- What is counted is the number of nodes, and a word holds it. -/
theorem nodeCount_ok {dims : List Nat} {n : Nat} (h : (nodeCount dims : Except (ModelError α) Nat) = .ok n) :
    n = gridSize dims ∧ gridSize dims < wordSize := by
  obtain ⟨hn, hword⟩ := countFrom_ok (by decide) h
  rw [Nat.one_mul] at hn
  exact ⟨hn, hn ▸ hword⟩

theorem nodeCount_of_lt {dims : List Nat} (hpos : ∀ d ∈ dims, 0 < d) (h : gridSize dims < wordSize) :
    (nodeCount dims : Except (ModelError α) Nat) = .ok (gridSize dims) := by
  rw [← Nat.one_mul (gridSize dims)] at h ⊢
  exact countFrom_of_lt hpos h

/-- Counting fails on nothing but a product that no word holds. -/
theorem nodeCount_error {dims : List Nat} {e : ModelError α} (h : nodeCount dims = .error e) :
    ∃ n, wordSize ≤ n ∧ e = .outOfBounds n wordSize := by
  unfold nodeCount at h
  generalize 1 = start at h
  induction dims generalizing start with
  | nil => cases h
  | cons d dims ih =>
      rw [List.foldlM_cons, inWord] at h
      split at h
      · exact ih _ h
      · rename_i hlarge
        cases h
        exact ⟨_, Nat.not_lt.mp hlarge, rfl⟩

theorem nodeCount_of_le {dims : List Nat} (h : wordSize ≤ gridSize dims) :
    ∃ n, wordSize ≤ n ∧ (nodeCount dims : Except (ModelError α) Nat) = .error (.outOfBounds n wordSize) := by
  cases hcount : (nodeCount dims : Except (ModelError α) Nat) with
  | ok n => exact absurd (nodeCount_ok hcount).2 (Nat.not_lt_of_le h)
  | error e =>
      obtain ⟨n, hn, rfl⟩ := nodeCount_error hcount
      exact ⟨n, hn, rfl⟩

end Count

theorem Table.ofValues_ok {id : String} {axes : List Axis} {values : Array α} {t : Table α}
    (h : ofValues id axes values = .ok t) :
    t.id = id ∧ t.axes = axes ∧ t.values = values ∧ t.users = [] ∧ axes ≠ [] ∧
      values.size = gridSize (axes.map Axis.length) ∧ gridSize (axes.map Axis.length) < wordSize := by
  unfold ofValues at h
  split at h
  · cases h
  · rename_i hne
    cases hcount : (nodeCount (axes.map Axis.length) : Except (ModelError α) Nat) with
    | error e => rw [hcount] at h; cases h
    | ok n =>
        obtain ⟨rfl, hword⟩ := nodeCount_ok hcount
        rw [hcount] at h
        dsimp only [bind, Except.bind] at h
        split at h
        · cases h
          exact ⟨rfl, rfl, rfl, rfl, by simpa using hne, ‹_›, hword⟩
        · cases h

/-- The grid data of a diagram with `blocks` blocks is in order. -/
structure GridsSound (sets : Array (BreakpointSet α)) (tables : Array (Table α)) (blocks : Nat) :
    Prop where
  setIds : ∀ (i j : Nat) (s t : BreakpointSet α),
    sets[i]? = some s → sets[j]? = some t → s.id = t.id → i = j
  tableIds : ∀ (i j : Nat) (s t : Table α),
    tables[i]? = some s → tables[j]? = some t → s.id = t.id → i = j
  setValues : ∀ (i : Nat) (s : BreakpointSet α), sets[i]? = some s → s.values ≠ []
  setUsers : ∀ (i : Nat) (s : BreakpointSet α), sets[i]? = some s → ∀ u ∈ s.users, u.index < blocks
  tableUsers : ∀ (i : Nat) (t : Table α), tables[i]? = some t → ∀ u ∈ t.users, u.index < blocks
  axes : ∀ (i : Nat) (t : Table α), tables[i]? = some t → ∀ a ∈ t.axes,
    ∃ s, sets[a.set.index]? = some s ∧ s.id = a.id ∧ s.values.length = a.length
  shape : ∀ (i : Nat) (t : Table α), tables[i]? = some t →
    t.axes ≠ [] ∧ t.values.size = gridSize t.dims ∧ gridSize t.dims < wordSize

namespace GridsSound

variable {sets : Array (BreakpointSet α)} {tables : Array (Table α)} {blocks : Nat}

theorem empty : GridsSound (#[] : Array (BreakpointSet α)) #[] 0 := by
  constructor <;> simp

theorem dims_pos (h : GridsSound sets tables blocks) {i : Nat} {t : Table α} (ht : tables[i]? = some t) :
    ∀ d ∈ t.dims, 0 < d := by
  intro d hd
  obtain ⟨a, ha, rfl⟩ := List.mem_map.mp hd
  obtain ⟨s, hs, -, hlength⟩ := h.axes i t ht a ha
  rw [← hlength]
  exact List.length_pos_iff.mpr (h.setValues _ s hs)

theorem mono (h : GridsSound sets tables blocks) {more : Nat} (hle : blocks ≤ more) :
    GridsSound sets tables more := by
  refine { h with setUsers := ?_, tableUsers := ?_ }
  · intro i s hs u hu
    exact Nat.lt_of_lt_of_le (h.setUsers i s hs u hu) hle
  · intro i t ht u hu
    exact Nat.lt_of_lt_of_le (h.tableUsers i t ht u hu) hle

theorem push_set (h : GridsSound sets tables blocks) {s : BreakpointSet α}
    (hid : ∀ (i : Nat) (t : BreakpointSet α), sets[i]? = some t → t.id ≠ s.id) (hvalues : s.values ≠ [])
    (husers : s.users = []) : GridsSound (sets.push s) tables blocks := by
  refine { h with setIds := ?_, setValues := ?_, setUsers := ?_, axes := ?_ }
  · intro i j x y hx hy hxy
    rw [Array.getElem?_push] at hx hy
    have := h.setIds i j x y
    grind
  · intro i x hx
    rw [Array.getElem?_push] at hx
    split at hx
    · cases hx
      exact hvalues
    · exact h.setValues i x hx
  · intro i x hx u hu
    rw [Array.getElem?_push] at hx
    split at hx
    · cases hx
      rw [husers] at hu
      cases hu
    · exact h.setUsers i x hx u hu
  · intro i t ht a ha
    obtain ⟨x, hx, hx'⟩ := h.axes i t ht a ha
    refine ⟨x, ?_, hx'⟩
    have hlt := (Array.getElem?_eq_some_iff.mp hx).1
    rw [Array.getElem?_push, if_neg (Nat.ne_of_lt hlt)]
    exact hx

theorem push_table (h : GridsSound sets tables blocks) {t : Table α}
    (hid : ∀ (i : Nat) (s : Table α), tables[i]? = some s → s.id ≠ t.id)
    (haxes : ∀ a ∈ t.axes,
      ∃ s, sets[a.set.index]? = some s ∧ s.id = a.id ∧ s.values.length = a.length)
    (hshape : t.axes ≠ [] ∧ t.values.size = gridSize t.dims ∧ gridSize t.dims < wordSize)
    (husers : t.users = []) : GridsSound sets (tables.push t) blocks := by
  refine { h with tableIds := ?_, tableUsers := ?_, axes := ?_, shape := ?_ }
  · intro i j x y hx hy hxy
    rw [Array.getElem?_push] at hx hy
    have := h.tableIds i j x y
    grind
  all_goals
    intro i x hx
    rw [Array.getElem?_push] at hx
    split at hx
  · cases hx
    simp [husers]
  · exact h.tableUsers i x hx
  · cases hx
    exact haxes
  · exact h.axes i x hx
  · cases hx
    exact hshape
  · exact h.shape i x hx

theorem enlist_set (h : GridsSound sets tables blocks) (i : Nat) {u : BlockId}
    (hu : u.index < blocks) :
    GridsSound (sets.modify i fun s => { s with users := s.users ++ [u] }) tables blocks := by
  have hentry : ∀ (j : Nat) (s : BreakpointSet α),
      (sets.modify i fun s => { s with users := s.users ++ [u] })[j]? = some s →
      ∃ s₀, sets[j]? = some s₀ ∧ s.id = s₀.id ∧ s.values = s₀.values ∧
        (s.users = s₀.users ∨ s.users = s₀.users ++ [u]) := by
    intro j s hs
    rw [Array.getElem?_modify] at hs
    split at hs
    · obtain ⟨s₀, hs₀, rfl⟩ := Option.map_eq_some_iff.mp hs
      exact ⟨s₀, hs₀, rfl, rfl, .inr rfl⟩
    · exact ⟨s, hs, rfl, rfl, .inl rfl⟩
  refine { h with setIds := ?_, setValues := ?_, setUsers := ?_, axes := ?_ }
  · intro j k s t hs ht heq
    obtain ⟨s₀, hs₀, hsid, -⟩ := hentry j s hs
    obtain ⟨t₀, ht₀, htid, -⟩ := hentry k t ht
    exact h.setIds j k s₀ t₀ hs₀ ht₀ (by rw [← hsid, ← htid, heq])
  · intro j s hs
    obtain ⟨s₀, hs₀, -, hvalues, -⟩ := hentry j s hs
    rw [hvalues]
    exact h.setValues j s₀ hs₀
  · intro j s hs v hv
    obtain ⟨s₀, hs₀, -, -, husers | husers⟩ := hentry j s hs
    · exact h.setUsers j s₀ hs₀ v (husers ▸ hv)
    · rw [husers, List.mem_append, List.mem_singleton] at hv
      rcases hv with hv | rfl
      · exact h.setUsers j s₀ hs₀ v hv
      · exact hu
  · intro j t ht a ha
    obtain ⟨s, hs, hid, hlength⟩ := h.axes j t ht a ha
    rw [Array.getElem?_modify]
    split
    · exact ⟨{ s with users := s.users ++ [u] }, by rw [hs]; rfl, hid, hlength⟩
    · exact ⟨s, hs, hid, hlength⟩

theorem enlist_table (h : GridsSound sets tables blocks) (i : Nat) {u : BlockId}
    (hu : u.index < blocks) :
    GridsSound sets (tables.modify i fun t => { t with users := t.users ++ [u] }) blocks := by
  have hentry : ∀ (j : Nat) (t : Table α),
      (tables.modify i fun t => { t with users := t.users ++ [u] })[j]? = some t →
      ∃ t₀, tables[j]? = some t₀ ∧ t.id = t₀.id ∧ t.axes = t₀.axes ∧ t.values = t₀.values ∧
        (t.users = t₀.users ∨ t.users = t₀.users ++ [u]) := by
    intro j t ht
    rw [Array.getElem?_modify] at ht
    split at ht
    · obtain ⟨t₀, ht₀, rfl⟩ := Option.map_eq_some_iff.mp ht
      exact ⟨t₀, ht₀, rfl, rfl, rfl, .inr rfl⟩
    · exact ⟨t, ht, rfl, rfl, rfl, .inl rfl⟩
  refine { h with tableIds := ?_, tableUsers := ?_, axes := ?_, shape := ?_ }
  · intro j k s t hs ht heq
    obtain ⟨s₀, hs₀, hsid, -⟩ := hentry j s hs
    obtain ⟨t₀, ht₀, htid, -⟩ := hentry k t ht
    exact h.tableIds j k s₀ t₀ hs₀ ht₀ (by rw [← hsid, ← htid, heq])
  · intro j t ht v hv
    obtain ⟨t₀, ht₀, -, -, -, husers | husers⟩ := hentry j t ht
    · exact h.tableUsers j t₀ ht₀ v (husers ▸ hv)
    · rw [husers, List.mem_append, List.mem_singleton] at hv
      rcases hv with hv | rfl
      · exact h.tableUsers j t₀ ht₀ v hv
      · exact hu
  · intro j t ht a ha
    obtain ⟨t₀, ht₀, -, haxes, -⟩ := hentry j t ht
    exact h.axes j t₀ ht₀ a (haxes ▸ ha)
  · intro j t ht
    obtain ⟨t₀, ht₀, -, haxes, hvalues, -⟩ := hentry j t ht
    rw [haxes, hvalues, Table.dims, haxes]
    exact h.shape j t₀ ht₀

end GridsSound

namespace BlockKind

/-- The grid data a kind reads, if it reads any, is one of `sets` breakpoint sets and `tables`
tables. -/
def InRange (sets tables : Nat) : BlockKind α → Prop
  | normalizer id => id.index < sets
  | lookup id => id.index < tables
  | _ => True

theorem InRange.mono {sets tables sets' tables' : Nat} {k : BlockKind α}
    (h : k.InRange sets tables) (hsets : sets ≤ sets') (htables : tables ≤ tables') :
    k.InRange sets' tables' := by
  cases k with
  | normalizer id => exact Nat.lt_of_lt_of_le h hsets
  | lookup id => exact Nat.lt_of_lt_of_le h htables
  | _ => trivial

end BlockKind

end BlockDiagram
