import BlockDiagram.Proofs.Document.Arena
import BlockDiagram.Proofs.Draft.Census
import BlockDiagram.Proofs.Draft.Sharing
import Mathlib.Data.List.Dedup
/-! Tables: the blocks that lowering adds for the functions of a document. There is a normalizer for each
breakpoint set and input, whichever functions share it, and a lookup for each function. -/

namespace BlockDiagram

open Call Draft

variable {α : Type}

/-- Where no two entries share a key, an entry is found at its place by its key. -/
theorem idxOf_key {β : Type} {xs : Array β} {key : β → String} {i : Nat} {x : β}
    (distinct : ∀ (i j : Nat) (x y : β), xs[i]? = some x → xs[j]? = some y → key x = key y → i = j)
    (hx : xs[i]? = some x) : (xs.toList.map key).idxOf (key x) = i := by
  have hin : key x ∈ xs.toList.map key := List.mem_map_of_mem (Array.mem_toList_iff.mpr
    (Array.mem_of_getElem? hx))
  have hget := List.getElem?_idxOf hin
  rw [List.getElem?_map, Array.getElem?_toList] at hget
  obtain ⟨y, hy, hkey⟩ := Option.map_eq_some_iff.mp hget
  exact distinct _ _ y x hy hx hkey

namespace Draft

variable {d d' : Draft α}

def setIds (d : Draft α) : List String := d.breakpoints.toList.map BreakpointSet.id

theorem length_tableIds (d : Draft α) : d.tableIds.length = d.tables.size := by
  rw [tableIds, List.length_map, Array.length_toList]

theorem enlist_setIds {id : BlockId} {k : BlockKind α} (h : d.enlist id k = .ok d') :
    d'.setIds = d.setIds := by
  unfold enlist at h
  split at h
  · split at h
    · cases h
      refine List.ext_getElem? fun i => ?_
      simp only [setIds, List.getElem?_map, Array.getElem?_toList, Array.getElem?_modify]
      split
      · rw [Option.map_map]
        rfl
      · rfl
    · cases h
  · split at h
    · cases h
      rfl
    · cases h
  · cases h
    rfl

/-- What adds signals and blocks registers no breakpoint set. -/
theorem stable_setIds {ids : List String} : Stable fun d : Draft α => d.setIds = ids := by
  apply stable_of_enlist
  · rintro d d' hsets - - hids
    rw [setIds, hsets]
    exact hids
  · rintro d d' id k h hids
    exact (enlist_setIds h).trans hids

/-- The row of a lookup, told from the table that the function has been given. -/
def lookupRow (d : Draft α) (x : TableUse) : Row α :=
  ⟨.lookup ⟨d.tableIds.idxOf x.table⟩, x.inputs.map fun _ => none⟩

theorem lookupRow_of_prefix (h : d.tableIds <+: d'.tableIds) {x : TableUse} (hx : x.table ∈ d.tableIds) :
    d'.lookupRow x = d.lookupRow x := by
  obtain ⟨rest, hrest⟩ := h
  rw [lookupRow, ← hrest, List.idxOf_append_of_mem hx, lookupRow]

theorem Tallies.located [Scalar α] {l : Ledger} {placed : List Placement} (h : d.Tallies l placed) :
    d.Located := by
  intro key c hin
  obtain ⟨x, hx, rfl, rfl⟩ := (mem_placed h.listed).mp hin
  exact ⟨h.derived x hx, (h.normalizers x hx).produces⟩

end Draft

/-- How many tables of its own a function brings along. -/
def TableSource.extra : TableSource α → Nat
  | .shared _ => 0
  | .own _ _ => 1

namespace Document

section Rows

variable (doc : Document α)

/-- The handle of a breakpoint set: the sets are registered in the order of the document. -/
def setHandle (id : String) : BreakpointId := ⟨(doc.breakpoints.map Breakpoints.id).idxOf id⟩

/-- The handle of the table of a function, when `n` tables have been registered before. -/
def tableHandle (n : Nat) : TableSource α → TableId
  | .shared id => ⟨(doc.tables.map Grid.id).idxOf id⟩
  | .own _ _ => ⟨n⟩

/-- The breakpoint sets that the table of a function lies over. -/
def axesOf (f : Function α) : List String := (doc.grid? f.table).elim [] Prod.fst

/-- The normalizers that a function asks for: each of its inputs on the axis in the same place. -/
def keys (f : Function α) : List NormalizerKey :=
  ((doc.axesOf f).zip f.inputs).map fun p => ⟨doc.setHandle p.1, p.2⟩

/-- The rows of the normalizers: one for each breakpoint set and input that some function asks for. -/
def normalizerRows : List (Row α) :=
  (doc.functions.flatMap doc.keys).dedup.map fun k => ⟨.normalizer k.breakpoints, [some k.input]⟩

/-- The rows of the lookups of functions, when `n` tables have been registered before. -/
def lookupRowsFrom : Nat → List (Function α) → List (Row α)
  | _, [] => []
  | n, f :: fs =>
    ⟨.lookup (doc.tableHandle n f.table), f.inputs.map fun _ => none⟩ ::
      lookupRowsFrom (n + f.table.extra) fs

/-- The rows of the lookups: one for each function. -/
def lookupRows : List (Row α) := doc.lookupRowsFrom doc.tables.length doc.functions

end Rows

variable [Scalar α] {doc : Document α} {d d' : Draft α} {l : Ledger} {placed : List Placement}

/-- While functions are lowered, the ledger accounts for every block of the draft, and the grid data of the
document stands in front. -/
structure Charts (doc : Document α) (d : Draft α) (l : Ledger) (placed : List Placement) : Prop where
  sound : d.Sound
  tallies : d.Tallies l placed
  own : l.own = Handle.all d.blocks.size
  lookups : (l.functions.map TableUse.block).Nodup
  setIds : d.setIds = doc.breakpoints.map Breakpoints.id
  tableIds : doc.tables.map Grid.id <+: d.tableIds
  grids : ∀ g ∈ doc.tables, HasTable g d

namespace Charts

theorem lookup_lt (h : doc.Charts d l placed) {x : TableUse} (hx : x ∈ l.functions) :
    x.block.index < d.blocks.size := by
  obtain ⟨tableId, t, cs, -, -, -, ⟨b, r, hb, -⟩, -⟩ := h.tallies.functions x hx
  exact (Array.getElem?_eq_some_iff.mp hb).1

/-- A function of a table asks for the normalizers that the document tells. -/
theorem keys_eq (h : doc.Charts d l placed) {i : Nat} {t : Table α} (ht : d.tables[i]? = some t)
    {f : Function α} (haxes : t.axes.map Axis.id = doc.axesOf f) : t.keys f.inputs = doc.keys f := by
  rw [keys, ← haxes, List.zip_map_left, List.map_map, Table.keys]
  refine List.map_congr_left fun p hp => ?_
  obtain ⟨s, hs, hid, -⟩ := h.sound.grids.axes i t ht p.1 (List.of_mem_zip hp).1
  have hplace := idxOf_key h.sound.grids.setIds hs
  change d.setIds.idxOf s.id = p.1.set.index at hplace
  rw [h.setIds, hid] at hplace
  simp only [Function.comp_apply, Prod.map_fst, Prod.map_snd, setHandle, hplace, id]

/-- A function has been added: its lookup comes last. -/
theorem serve (h : doc.Charts d l placed) {i : Nat} {t : Table α} (ht : d.tables[i]? = some t)
    {f : Function α} (haxes : t.axes.map Axis.id = doc.axesOf f) {id : BlockId}
    (hrun : (addFunction f.name t.id f.inputs f.output).run d = .ok id d') :
    ∃ l' placed', doc.Charts d' l' placed' ∧ l'.requests = l.requests ++ doc.keys f ∧
      l'.functions = l.functions ++ [⟨id, t.id, f.inputs, f.output⟩] ∧ d'.tableIds = d.tableIds := by
  have hlocated := h.tallies.located
  obtain ⟨hgrows, -⟩ := addFunction_ok hrun h.sound hlocated
  obtain ⟨placed', htallies⟩ := h.tallies.serve h.sound (tableNamed_of_table h.sound ht) hrun
  have hsets : d'.setIds = d.setIds := (stable_setIds.addFunction _ _ _ _).ok rfl hrun
  have htables : d'.tableIds = d.tableIds ∧ d'.anonymous = d.anonymous :=
    (stable_tableIds.addFunction _ _ _ _).ok ⟨rfl, rfl⟩ hrun
  have hlast : d.blocks.size ≤ id.index := by
    obtain ⟨t', cs, d₁, -, -, hnormalizers, hlookup⟩ := addFunction_split hrun
    obtain ⟨hgrows₁, -⟩ := addNormalizers_ok hnormalizers hlocated
    obtain ⟨rfl, -⟩ := addLookup_push hlookup
    exact hgrows₁.size_le
  refine ⟨_, placed', ⟨(keeps_addFunction _ _ _ _).ok h.sound hrun, htallies, ?_, ?_,
    hsets.trans h.setIds, htables.1 ▸ h.tableIds, fun g hg => hasTable_grows hgrows (h.grids g hg)⟩,
    congrArg (l.requests ++ ·) (h.keys_eq ht haxes), rfl, htables.1⟩
  · have hrange : List.range d'.blocks.size =
        List.range d.blocks.size ++ List.range' d.blocks.size (d'.blocks.size - d.blocks.size) := by
      have hsplit := List.range'_append_1 (s := 0) (m := d.blocks.size)
        (n := d'.blocks.size - d.blocks.size)
      rw [Nat.zero_add, Nat.add_sub_cancel' hgrows.size_le] at hsplit
      rw [List.range_eq_range', List.range_eq_range', hsplit]
    rw [Handle.all, hrange, List.map_append, Ledger.asked, h.own]
    rfl
  · rw [List.map_append, List.map_singleton]
    refine List.nodup_append.mpr ⟨h.lookups, List.nodup_singleton _, ?_⟩
    rintro _ hold _ hnew rfl
    obtain ⟨x, hx, hblock⟩ := List.mem_map.mp hold
    have hlt := h.lookup_lt hx
    rw [hblock, List.mem_singleton.mp hnew] at hlt
    exact Nat.not_le.mpr hlt hlast

/-- A table of a function's own has been registered behind the others. -/
theorem register (h : doc.Charts d l placed) {axes : List String} {values : Array α} {table : TableId}
    (hrun : (registerTable none axes values).run d = .ok table d') :
    doc.Charts d' l placed ∧ table = ⟨d.tables.size⟩ ∧ ∃ t, d'.tables[table.index]? = some t ∧
      t.axes.map Axis.id = axes ∧ t.id ∉ d.tableIds ∧ d'.tableIds = d.tableIds ++ [t.id] := by
  obtain ⟨hgrows, hsame, hblocks, t, ht, -, haxes, -⟩ := registerTable_ok hrun
  have hsound := (keeps_registerTable none axes values).ok h.sound hrun
  have htallies := h.tallies.spared (.of_grows hgrows) hsame
  have hgrids : ∀ g ∈ doc.tables, HasTable g d' := fun g hg => hasTable_grows hgrows (h.grids g hg)
  rw [registerTable_run, if_neg nofun] at hrun
  split at hrun
  · cases hrun
  · rename_i t' ht'
    cases hrun
    obtain ⟨as, -, hvalues⟩ := outcome_bind_ok.mp ht'
    obtain ⟨hid, -⟩ := Table.ofValues_ok hvalues
    have htable : (d.tables.push t')[d.tables.size]? = some t := ht
    rw [Array.getElem?_push_size] at htable
    cases htable
    have hids : ({ d.claimed none with tables := d.tables.push t } : Draft α).tableIds =
        d.tableIds ++ [t.id] := by
      rw [Draft.tableIds, Array.toList_push, List.map_append]
      rfl
    have hfree : t.id ∉ d.tableIds := by
      rw [hid]
      exact claimedId_not_mem nofun
    refine ⟨⟨hsound, htallies, h.own, h.lookups, h.setIds, ?_, hgrids⟩, rfl, t, ht, haxes, hfree, hids⟩
    rw [hids]
    exact h.tableIds.trans (List.prefix_append _ _)

/-- What the lowering of functions adds to the draft and to the ledger. -/
structure Lookups (doc : Document α) (fs : List (Function α)) (d : Draft α) (l : Ledger) (d' : Draft α)
    (l' : Ledger) : Prop where
  requests : l'.requests = l.requests ++ fs.flatMap doc.keys
  tableIds : d.tableIds <+: d'.tableIds
  functions : ∃ xs : List TableUse, l'.functions = l.functions ++ xs ∧ (∀ x ∈ xs, x.table ∈ d'.tableIds) ∧
    xs.map d'.lookupRow = doc.lookupRowsFrom d.tables.size fs

omit [Scalar α] in
theorem lookups_of_serve {f : Function α} {l' : Ledger} {x : TableUse} (hinputs : x.inputs = f.inputs)
    (hrequests : l'.requests = l.requests ++ doc.keys f) (hfunctions : l'.functions = l.functions ++ [x])
    (hids : d.tableIds <+: d'.tableIds) (hin : x.table ∈ d'.tableIds)
    (hplace : d'.tableIds.idxOf x.table = (doc.tableHandle d.tables.size f.table).index) :
    Lookups doc [f] d l d' l' := by
  refine ⟨?_, hids, [x], hfunctions, fun y hy => List.mem_singleton.mp hy ▸ hin, ?_⟩
  · rw [hrequests, List.flatMap_singleton]
  · rw [List.map_singleton, lookupRow, hplace, hinputs]
    rfl

theorem lowerFunction (hdoc : doc.Valid) {f : Function α} (hf : f ∈ doc.functions)
    (h : doc.Charts d l placed) {u : Unit} (hrun : (lowerFunction f).run d = .ok u d') :
    ∃ l' placed', doc.Charts d' l' placed' ∧ Lookups doc [f] d l d' l' ∧
      d'.tables.size = d.tables.size + f.table.extra := by
  have hvalid := hdoc.table hf
  unfold Document.lowerFunction at hrun
  split at hrun
  · rename_i name hsource
    obtain ⟨id, d₁, hid, hrest⟩ := run_bind_ok.mp hrun
    cases hid
    obtain ⟨block, d₂, hfunction, hpure⟩ := run_bind_ok.mp hrest
    cases hpure
    rw [hsource] at hvalid
    obtain ⟨g, hg, rfl⟩ := List.mem_map.mp hvalid
    obtain ⟨i, t, ht, htid, haxes, -⟩ := h.grids g hg
    rw [← htid] at hfunction hvalid
    have haxesOf : t.axes.map Axis.id = doc.axesOf f := by
      rw [haxes, axesOf, hsource, grid?, find?_of_nodup hdoc.tables hg]
      rfl
    obtain ⟨l', placed', hcharts, hrequests, hfunctions, hids⟩ := h.serve ht haxesOf hfunction
    obtain ⟨rest, hrest⟩ := hcharts.tableIds
    refine ⟨l', placed', hcharts, lookups_of_serve rfl hrequests hfunctions (hids ▸ List.prefix_refl _)
      ?_ ?_, ?_⟩
    · rw [← hrest]
      exact List.mem_append_left _ hvalid
    · rw [← hrest, List.idxOf_append_of_mem hvalid, htid, hsource]
      rfl
    · rw [← length_tableIds, hids, length_tableIds, hsource]
      rfl
  · rename_i axes values hsource
    obtain ⟨tableId, d₁, hregister, hread⟩ := run_bind_ok.mp hrun
    obtain ⟨d₂, d₃, hget, hlift⟩ := run_bind_ok.mp hread
    cases hget
    obtain ⟨t, d₄, hentry, hrest⟩ := run_bind_ok.mp hlift
    obtain ⟨ht, rfl⟩ := run_lift_ok.mp hentry
    obtain ⟨id, d₅, hid, hcall⟩ := run_bind_ok.mp hrest
    cases hid
    obtain ⟨block, d₆, hfunction, hpure⟩ := run_bind_ok.mp hcall
    cases hpure
    obtain ⟨h₁, rfl, t', ht', haxes, hfree, hids₁⟩ := h.register hregister
    rw [entry_eq_ok] at ht
    cases ht.symm.trans ht'
    have haxesOf : t.axes.map Axis.id = doc.axesOf f := by
      rw [haxes, axesOf, hsource]
      rfl
    obtain ⟨l', placed', hcharts, hrequests, hfunctions, hids⟩ := h₁.serve ht haxesOf hfunction
    have hall : d'.tableIds = d.tableIds ++ [t.id] := hids.trans hids₁
    refine ⟨l', placed', hcharts, lookups_of_serve rfl hrequests hfunctions
      (hall ▸ List.prefix_append _ _) ?_ ?_, ?_⟩
    · rw [hall]
      exact List.mem_append_right _ (List.mem_singleton_self _)
    · rw [hall, List.idxOf_append_of_notMem hfree, List.idxOf_cons_self, length_tableIds, hsource]
      rfl
    · rw [← length_tableIds, hall, List.length_append, length_tableIds, hsource]
      rfl

theorem lowerFunctions (hdoc : doc.Valid) {fs : List (Function α)} (hfs : ∀ f ∈ fs, f ∈ doc.functions)
    (h : doc.Charts d l placed) {u : Unit} (hrun : (forEach Document.lowerFunction fs).run d = .ok u d') :
    ∃ l' placed', doc.Charts d' l' placed' ∧ Lookups doc fs d l d' l' := by
  induction fs generalizing d l placed with
  | nil =>
      cases hrun
      exact ⟨l, placed, h, (List.append_nil _).symm, List.prefix_refl _, [], (List.append_nil _).symm,
        nofun, rfl⟩
  | cons f fs ih =>
      obtain ⟨u₁, d₁, hfirst, hrest⟩ := run_bind_ok.mp hrun
      obtain ⟨l₁, placed₁, h₁, hone, hsize⟩ := h.lowerFunction hdoc (hfs f List.mem_cons_self) hfirst
      obtain ⟨l₂, placed₂, h₂, hmore⟩ := ih (fun g hg => hfs g (List.mem_cons_of_mem f hg)) h₁ hrest
      obtain ⟨xs, hxs, hin, hrows⟩ := hone.functions
      obtain ⟨ys, hys, hin', hrows'⟩ := hmore.functions
      have hsubset := hmore.tableIds.subset
      refine ⟨l₂, placed₂, h₂, ?_, hone.tableIds.trans hmore.tableIds, xs ++ ys, ?_, ?_, ?_⟩
      · rw [hmore.requests, hone.requests, List.append_assoc, List.flatMap_singleton, List.flatMap_cons]
      · rw [hys, hxs, List.append_assoc]
      · intro x hx
        rcases List.mem_append.mp hx with hx | hx
        · exact hsubset (hin x hx)
        · exact hin' x hx
      -- tables that later functions bring along leave the places of the earlier ones alone
      · have hkept : xs.map d'.lookupRow = xs.map d₁.lookupRow :=
          List.map_congr_left fun x hx => lookupRow_of_prefix hmore.tableIds (hin x hx)
        rw [List.map_append, hkept, hrows, hrows', hsize]
        rfl

/-- The normalizers and the lookups are all the blocks that there are. -/
theorem blocks_perm (h : doc.Charts d l placed) :
    (Handle.all d.blocks.size).Perm (placed.map Placement.block ++ l.functions.map TableUse.block) := by
  have hnodup : (placed.map Placement.block ++ l.functions.map TableUse.block).Nodup := by
    refine List.nodup_append.mpr ⟨h.tallies.blocks, h.lookups, ?_⟩
    rintro _ hnormalizer _ hlookup rfl
    obtain ⟨x, hx, hblock⟩ := List.mem_map.mp hnormalizer
    obtain ⟨y, hy, hsame⟩ := List.mem_map.mp hlookup
    obtain ⟨b, r, hb, hkind, -⟩ := h.tallies.normalizers x hx
    obtain ⟨tableId, t, cs, -, -, -, ⟨b', r', hb', hkind', -⟩, -⟩ := h.tallies.functions y hy
    rw [hblock, ← hsame] at hb
    cases hb.symm.trans hb'
    cases hkind.symm.trans hkind'
  refine (List.perm_ext_iff_of_nodup (Handle.nodup_all _) hnodup).mpr fun id => ?_
  rw [← h.own, h.tallies.own, List.mem_append, List.mem_map, List.mem_map]

/-- In a draft that has grown since, the row of a lookup is still the one that its function has been given. -/
theorem lookup_row (h : doc.Charts d l placed) {made : List String} (hgrows : d.Grows made d')
    (hd' : d'.Sound) {x : TableUse} (hx : x ∈ l.functions) :
    d'.rows[x.block.index]? = some (d.lookupRow x) := by
  obtain ⟨tableId, t, cs, ht, hid, hrank, hputs, hcs⟩ := h.tallies.functions x hx
  have hplace := idxOf_key h.sound.grids.tableIds ht
  change d.tableIds.idxOf t.id = tableId.index at hplace
  rw [hid] at hplace
  have hhidden : ∀ c ∈ cs, d'.shown? c = none := by
    intro c hc
    obtain ⟨k, -, y, hy, -, rfl⟩ := forall₂_exists hcs.flip c hc
    exact ((h.tallies.derived y hy).grows hgrows).shown? hd'
  have hlength : cs.length = x.inputs.length := by
    rw [← hcs.length_eq, Table.keys, List.length_map, List.length_zip]
    exact Nat.min_eq_right (Nat.le_of_eq hrank.symm)
  rw [(hputs.grows hgrows).rows_getElem?, lookupRow, hplace, List.map_congr_left hhidden, List.map_const',
    List.map_const', hlength]

/-- The first rows of a draft that has grown since are those of the normalizers and of the lookups. -/
theorem rows_perm (h : doc.Charts d l placed) {made : List String} (hgrows : d.Grows made d')
    (hd' : d'.Sound) : (d'.rows.take d.blocks.size).Perm
      (placed.map (fun x => ⟨.normalizer x.key.breakpoints, [d'.shown? x.key.input]⟩) ++
        l.functions.map d.lookupRow) := by
  have hnormalizers : (placed.map Placement.block).map (fun id => d'.rows[id.index]?) =
      (placed.map fun x => (⟨.normalizer x.key.breakpoints, [d'.shown? x.key.input]⟩ : Row α)).map some := by
    rw [List.map_map, List.map_map]
    exact List.map_congr_left fun x hx => ((h.tallies.normalizers x hx).grows hgrows).rows_getElem?
  have hlookups : (l.functions.map TableUse.block).map (fun id => d'.rows[id.index]?) =
      (l.functions.map d.lookupRow).map some := by
    rw [List.map_map, List.map_map]
    exact List.map_congr_left fun x hx => h.lookup_row hgrows hd' hx
  have htake : (d'.rows.take d.blocks.size).map some =
      (Handle.all d.blocks.size : List BlockId).map fun id => d'.rows[id.index]? := by
    refine List.ext_getElem (by simp [length_rows, hgrows.size_le]) fun i hi hi' => ?_
    simp [Handle.all]
  refine (List.map_perm_map_iff (Option.some_injective _)).mp ?_
  rw [htake, List.map_append, ← hnormalizers, ← hlookups, ← List.map_append]
  exact h.blocks_perm.map _

end Charts

section Declared

variable {u : Unit}

omit [Scalar α] in
/-- Calls that each append one entry, in order. -/
theorem forEach_appends {β γ : Type} {call : β → Drafting α Unit} {bs : List β} (view : Draft α → List γ)
    (key : β → γ) (hcall : ∀ b d d', (call b).run d = .ok () d' → view d' = view d ++ [key b])
    (h : (forEach call bs).run d = .ok u d') : view d' = view d ++ bs.map key := by
  induction bs generalizing d with
  | nil =>
      cases h
      exact (List.append_nil _).symm
  | cons b rest ih =>
      obtain ⟨u₁, d₁, hfirst, hrest⟩ := run_bind_ok.mp h
      rw [ih hrest, hcall b d d₁ hfirst, List.append_assoc]
      rfl

omit [Scalar α] in
theorem registerBreakpoints_ids [Arithmetic α] {b : Breakpoints α}
    (h : (do let _ ← registerBreakpoints b.id b.values : Drafting α Unit).run d = .ok u d') :
    d'.setIds = d.setIds ++ [b.id] ∧ d'.tableIds = d.tableIds := by
  obtain ⟨set, d₁, hregister, hpure⟩ := run_bind_ok.mp h
  cases hpure
  rw [registerBreakpoints_run] at hregister
  split at hregister
  · cases hregister
  · split at hregister
    · cases hregister
    · rename_i s hs
      cases hregister
      refine ⟨?_, rfl⟩
      rw [Draft.setIds, Array.toList_push, List.map_append, List.map_singleton,
        (BreakpointSet.ofValues_ok hs).1]
      rfl

omit [Scalar α] in
theorem registerTable_ids {g : Grid α}
    (h : (do let _ ← registerTable (some g.id) g.axes g.values.toArray : Drafting α Unit).run d =
      .ok u d') : d'.setIds = d.setIds ∧ d'.tableIds = d.tableIds ++ [g.id] := by
  obtain ⟨table, d₁, hregister, hpure⟩ := run_bind_ok.mp h
  cases hpure
  rw [registerTable_run] at hregister
  split at hregister
  · cases hregister
  · split at hregister
    · cases hregister
    · rename_i t ht
      cases hregister
      obtain ⟨as, -, hvalues⟩ := outcome_bind_ok.mp ht
      refine ⟨rfl, ?_⟩
      rw [Draft.tableIds, Array.toList_push, List.map_append, List.map_singleton,
        (Table.ofValues_ok hvalues).1]
      rfl

/-- Before functions are lowered there is no block, and just the grid data of the document. -/
theorem charts_of_declared {d₁ d₂ d₃ : Draft α} {u₁ u₂ u₃ : Unit}
    (hsets : (forEach (fun b : Breakpoints α => do
      let _ ← registerBreakpoints b.id b.values) doc.breakpoints).run (empty doc.name) = .ok u₁ d₁)
    (htables : (forEach (fun t : Grid α => do
      let _ ← registerTable (some t.id) t.axes t.values.toArray) doc.tables).run d₁ = .ok u₂ d₂)
    (hvars : (forEach (fun v : Variable α => do
      let _ ← addSignal v.signal) doc.vars).run d₂ = .ok u₃ d₃) :
    doc.Charts d₃ {} [] ∧ d₃.tables.size = doc.tables.length := by
  obtain ⟨hd₃, -, hgrids, -⟩ := declared_ok hsets htables hvars (blank_empty doc.name)
  have hids₁ : d₁.setIds = doc.breakpoints.map Breakpoints.id :=
    forEach_appends Draft.setIds Breakpoints.id (fun b d d' h => (registerBreakpoints_ids h).1) hsets
  have hids₂ : d₂.setIds = doc.breakpoints.map Breakpoints.id :=
    forEach_keeps (fun d => d.setIds = doc.breakpoints.map Breakpoints.id)
      (fun t _ d d' hd h => (registerTable_ids h).1.trans hd) htables hids₁
  have hnone : d₁.tableIds = [] :=
    forEach_keeps (fun d => d.tableIds = []) (fun b _ d d' hd h => (registerBreakpoints_ids h).2.trans hd)
      hsets rfl
  have htableIds : d₂.tableIds = doc.tables.map Grid.id := by
    have happend := forEach_appends Draft.tableIds Grid.id (fun t d d' h => (registerTable_ids h).2) htables
    rwa [hnone, List.nil_append] at happend
  have hgridded : d₃.setIds = doc.breakpoints.map Breakpoints.id ∧
      d₃.tableIds = doc.tables.map Grid.id :=
    forEach_keeps (fun d => d.setIds = doc.breakpoints.map Breakpoints.id ∧
        d.tableIds = doc.tables.map Grid.id)
      (fun v _ d d' hd h => by
        obtain ⟨id, d'', hsignal, hpure⟩ := run_bind_ok.mp h
        cases hpure
        obtain ⟨-, -, rfl⟩ := addSignal_ok hsignal
        exact hd) hvars ⟨hids₂, htableIds⟩
  refine ⟨⟨hd₃.sound, ⟨⟨List.nodup_nil, List.nodup_nil, List.nodup_nil, ?_, nofun, ?_, nofun, nofun,
    nofun⟩, hd₃.normalizers⟩, ?_, List.nodup_nil, hgridded.1, ?_, hgrids⟩, ?_⟩
  · simp
  · simp
  · rw [hd₃.blocks]
    rfl
  · rw [hgridded.2]
  · rw [← length_tableIds, hgridded.2, List.length_map]

theorem Lowered.shown?_eq (h : doc.Lowered d) {v : Variable α} (hv : v ∈ doc.vars) :
    d.shown? v.varId = some v.varId := by
  obtain ⟨i, hi⟩ := h.signals v hv
  exact shown?_of_signal h.sound hi

/-- The normalizers that there are, are those that the functions of the document ask for. -/
theorem Charts.normalizers_perm (hdoc : doc.Valid) (hlowered : doc.Lowered d)
    (h : doc.Charts d' l placed) (hrequests : l.requests = doc.functions.flatMap doc.keys) :
    (placed.map fun x => (⟨.normalizer x.key.breakpoints, [d.shown? x.key.input]⟩ : Row α)).Perm
      doc.normalizerRows := by
  have hkeys : (placed.map Placement.key).Perm (doc.functions.flatMap doc.keys).dedup := by
    refine (List.perm_ext_iff_of_nodup h.tallies.keys (List.nodup_dedup _)).mpr fun k => ?_
    rw [List.mem_dedup, ← hrequests, h.tallies.requests, List.mem_map]
  have hshown : ∀ k ∈ (doc.functions.flatMap doc.keys).dedup, d.shown? k.input = some k.input := by
    intro k hk
    obtain ⟨f, hf, hkey⟩ := List.mem_flatMap.mp (List.mem_dedup.mp hk)
    obtain ⟨p, hp, rfl⟩ := List.mem_map.mp hkey
    obtain ⟨v, hv, hinput⟩ := List.mem_map.mp (hdoc.inputs hf _ (List.of_mem_zip hp).2)
    rw [← hinput]
    exact hlowered.shown?_eq hv
  have hrows : doc.normalizerRows = (doc.functions.flatMap doc.keys).dedup.map
      fun k => ⟨.normalizer k.breakpoints, [d.shown? k.input]⟩ := by
    refine List.map_congr_left fun k hk => ?_
    rw [hshown k hk]
  have hmap := hkeys.map fun k => (⟨.normalizer k.breakpoints, [d.shown? k.input]⟩ : Row α)
  rwa [List.map_map, ← hrows] at hmap

/-- The draft of a document: the blocks of its functions stand in front, and are those that the document
asks for; the blocks of its formulas follow. -/
theorem tabled_of_draft (hdoc : doc.Valid) (h : doc.draft = .ok d) :
    ∃ n, (d.rows.take n).Perm (doc.normalizerRows ++ doc.lookupRows) ∧
      Spreads d doc.vars n d.blocks.size := by
  have hlowered := lowered_of_draft hdoc h
  obtain ⟨u, hrun⟩ := run_of_draft h
  obtain ⟨u₁, d₁, hsets, hrun⟩ := run_bind_ok.mp hrun
  obtain ⟨u₂, d₂, htables, hrun⟩ := run_bind_ok.mp hrun
  obtain ⟨u₃, d₃, hvars, hrun⟩ := run_bind_ok.mp hrun
  obtain ⟨u₄, d₄, hfunctions, hformulas⟩ := run_bind_ok.mp hrun
  obtain ⟨hcharts, hsize⟩ := charts_of_declared hsets htables hvars
  obtain ⟨l, placed, hcharts, hlookups⟩ := hcharts.lowerFunctions hdoc (fun _ hf => hf) hfunctions
  obtain ⟨⟨made, hgrows⟩, hspreads⟩ := formulas_spread hformulas
  obtain ⟨xs, hxs, -, hrows⟩ := hlookups.functions
  have hplaced := hcharts.rows_perm hgrows hlowered.sound
  rw [hxs, List.nil_append, hrows, hsize] at hplaced
  exact ⟨d₄.blocks.size,
    hplaced.trans ((hcharts.normalizers_perm hdoc hlowered hlookups.requests).append_right _), hspreads⟩

end Declared

end Document

end BlockDiagram
