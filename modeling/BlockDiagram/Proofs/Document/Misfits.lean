import BlockDiagram.Proofs.Document.Feedback
import Mathlib.Data.List.Intervals
/-! Misfits: the blocks of a lowered document whose input counts are not accepted. They have been made for
the operators with a wrong number of arguments, one for each, and come in the order of these. -/

namespace BlockDiagram

open Call Draft

/-- The first of the members from position `i` on, and the others. -/
theorem of_drop_cons {β : Type} {xs rest : List β} {x : β} {i : Nat} (h : xs.drop i = x :: rest) :
    xs[i]? = some x ∧ xs.drop (i + 1) = rest := by
  constructor
  · rw [← List.head?_drop, h]
    rfl
  · rw [← List.tail_drop, h]
    rfl

variable {α : Type} [Scalar α]

namespace Draft

variable {d : Draft α} {m : Model α}

omit [Scalar α] in
/-- The input count of the block in position `i` is not accepted. -/
def misfitAt (d : Draft α) (i : Nat) : Bool :=
  (d.blocks[i]?).any fun b => !(b.kind.arity d.tables).accepts b.inputs.length

/-- The block in position `i` has been made for the application. -/
def Makes (d : Draft α) (i : Nat) (a : Application) : Prop :=
  ∃ ws v, d.Puts a.op.kind ws v i ∧ ws.length = a.count

/-- The way from block `i` to block `j` goes through the slots that the path lists, and on variables of
the library's own making only. -/
inductive Leads (d : Draft α) : Nat → List Nat → Nat → Prop
  | here (i : Nat) : Leads d i [] i
  | down {i q j k : Nat} {path : List Nat} {kind kind' : BlockKind α} {ws us : List String}
      {v w : String} : d.Puts kind ws v i → ws[k]? = some w → d.Derived w → d.Puts kind' us w q →
      Leads d q path j → Leads d i (k :: path) j

omit [Scalar α] in
theorem Puts.misfitAt_eq {k : BlockKind α} {ws : List String} {v : String} {i : Nat}
    (h : d.Puts k ws v i) : d.misfitAt i = !(k.arity d.tables).accepts ws.length := by
  obtain ⟨b, r, hb, rfl, hinputs, -⟩ := h
  simp [misfitAt, hb, hinputs, slots]

variable {i j k : Nat}

/-- What is known of the blocks between two positions: their misfits are those of some applications, and
the way to each of them starts at block `p`. -/
def MisfitsFor (d : Draft α) (p i j : Nat) (as : List Application) : Prop :=
  List.Forall₂ (fun q a => d.Leads p a.path q ∧ d.Makes q a) ((List.Ico i j).filter d.misfitAt)
    (as.filter Application.misfits)

omit [Scalar α] in
theorem filter_misfitAt_cons (hij : i < j) (hfits : d.misfitAt i = false) :
    (List.Ico i j).filter d.misfitAt = (List.Ico (i + 1) j).filter d.misfitAt := by
  rw [List.Ico.eq_cons hij, List.filter_cons_of_neg (by simp [hfits])]

theorem MisfitsFor.append {p : Nat} {as bs : List Application} (hik : i ≤ k) (hkj : k ≤ j)
    (h : d.MisfitsFor p i k as) (h' : d.MisfitsFor p k j bs) : d.MisfitsFor p i j (as ++ bs) := by
  rw [MisfitsFor, ← List.Ico.append_consecutive hik hkj, List.filter_append, List.filter_append]
  exact List.rel_append h h'

/-- An operator and its arguments, seen from the block of the operator. -/
theorem MisfitsFor.apply {op : Operator} {args : List (Formula α)} {us : List String} {v : String}
    (hputs : d.Puts op.kind us v i) (hcount : us.length = args.length) (hle : i + 1 ≤ k)
    (hargs : d.MisfitsFor i (i + 1) k (Formula.applicationsAmong 0 args)) :
    d.MisfitsFor i i k (Formula.apply op args).applications := by
  have hsame : d.misfitAt i = Application.misfits ⟨[], op, args.length⟩ := by
    rw [hputs.misfitAt_eq, hcount, op.kind_arity]
    rfl
  rw [MisfitsFor, Formula.applications, List.Ico.eq_cons hle, List.filter_cons, List.filter_cons, hsame]
  split
  · exact .cons ⟨.here i, us, v, hputs, hcount⟩ hargs
  · exact hargs

/-- The same blocks, seen from the block that reads what they compute. -/
theorem MisfitsFor.below {p slot : Nat} {kind kind' : BlockKind α} {ws us : List String} {v w : String}
    {as : List Application} (hp : d.Puts kind ws v p) (hslot : ws[slot]? = some w) (hw : d.Derived w)
    (hi : d.Puts kind' us w i) (h : d.MisfitsFor i i k as) :
    d.MisfitsFor p i k (as.map (Application.below slot)) := by
  rw [MisfitsFor, List.filter_map, List.forall₂_map_right_iff]
  exact h.imp fun q a hq => ⟨.down hp hslot hw hi hq.1, hq.2⟩

/-- The misfits among the blocks of formulas that one block reads, from a slot on. -/
theorem Lays.misfits {fs : List (Formula α)} {vs : List String} (h : d.Lays fs vs i j) {p slot : Nat}
    {kind : BlockKind α} {ws : List String} {v : String} (hp : d.Puts kind ws v p)
    (hslots : ws.drop slot = vs) : d.MisfitsFor p i j (Formula.applicationsAmong slot fs) := by
  induction h generalizing p slot kind ws v with
  | nil i =>
      rw [MisfitsFor, List.Ico.self_empty, Formula.applicationsAmong]
      exact .nil
  | @reference f fs w vs i j hf hrest ih =>
      have hnone : f.applications = [] := by rcases hf with rfl | rfl <;> rfl
      rw [Formula.applicationsAmong, hnone]
      exact ih hp (of_drop_cons hslots).2
  | @literal f fs x u vs i j hf hu hputs hrest ih =>
      have hnone : f.applications = [] := by rcases hf with rfl | rfl <;> rfl
      have hfits : d.misfitAt i = false := hputs.misfitAt_eq
      rw [Formula.applicationsAmong, hnone, MisfitsFor, filter_misfitAt_cons hrest.le hfits]
      exact ih hp (of_drop_cons hslots).2
  | @apply op args fs us u vs i k j hu hputs hargs hrest ihargs ih =>
      obtain ⟨hslot, hothers⟩ := of_drop_cons hslots
      have hinner : d.MisfitsFor i (i + 1) k (Formula.applicationsAmong 0 args) :=
        ihargs hputs List.drop_zero
      rw [Formula.applicationsAmong]
      exact .append (Nat.le_of_succ_le hargs.le) hrest.le
        (.below hp hslot hu hputs (.apply hputs hargs.length_eq hargs.le hinner)) (ih hp hothers)

end Draft

namespace Document

variable {doc : Document α} {d : Draft α} {m : Model α} {i j k : Nat}

/-- The misfits among the blocks of the formula of a variable, seen from the root. -/
theorem Rooted.misfits {v : Variable α} {f : Formula α} {ws : List String} (h : Rooted d v f ws i k) :
    d.MisfitsFor i i k f.applications := by
  obtain ⟨-, hroot, hlays⟩ := h
  have hinner : d.MisfitsFor i (i + 1) k (Formula.applicationsAmong 0 f.head.2) :=
    hlays.misfits hroot List.drop_zero
  have hplain : d.misfitAt i = false → f.applications = [] →
      Formula.applicationsAmong 0 f.head.2 = [] → d.MisfitsFor i i k f.applications := by
    intro hfits hnone hamong
    rw [MisfitsFor, filter_misfitAt_cons hlays.le hfits, hnone, ← hamong]
    exact hinner
  cases f with
  | number x =>
      obtain ⟨rfl, -⟩ := hlays.of_nil
      exact hplain hroot.misfitAt_eq rfl rfl
  | const x =>
      obtain ⟨rfl, -⟩ := hlays.of_nil
      exact hplain hroot.misfitAt_eq rfl rfl
  | name w =>
      refine hplain ?_ rfl rfl
      rw [hroot.misfitAt_eq, hlays.length_eq]
      rfl
  | var w =>
      refine hplain ?_ rfl rfl
      rw [hroot.misfitAt_eq, hlays.length_eq]
      rfl
  | apply op args => exact .apply hroot hlays.length_eq hlays.le hinner

/-- The block in position `q` has been made for the application. The way to it starts at the producer of
its variable. -/
def MadeFor (doc : Document α) (d : Draft α) (q : Nat) (a : Application) : Prop :=
  ∃ n path v f ws p k, a.path = n :: path ∧ doc.vars[n]? = some v ∧ Rooted d v f ws p k ∧
    d.Leads p path q ∧ d.Makes q a

theorem Spreads.misfits {vars : List (Variable α)} (h : Spreads d vars i j) {n : Nat}
    (hvars : doc.vars.drop n = vars) :
    List.Forall₂ (doc.MadeFor d) ((List.Ico i j).filter d.misfitAt)
      ((applicationsFrom n vars).filter Application.misfits) := by
  induction h generalizing n with
  | nil i =>
      rw [List.Ico.self_empty, applicationsFrom]
      exact .nil
  | @free v vars i j hnone hrest ih =>
      rw [applicationsFrom, hnone]
      exact ih (of_drop_cons hvars).2
  | @formula v vars f ws i k j hf hputs hlays hrest ih =>
      obtain ⟨hv, hothers⟩ := of_drop_cons hvars
      have hrooted : Rooted d v f ws i k := ⟨hf, hputs, hlays⟩
      rw [applicationsFrom, hf, Option.elim_some, List.filter_append, List.filter_map,
        ← List.Ico.append_consecutive (Nat.le_of_succ_le hlays.le) hrest.le, List.filter_append]
      refine List.rel_append ?_ (ih hothers)
      rw [List.forall₂_map_right_iff]
      exact hrooted.misfits.imp fun q a hq => ⟨n, a.path, v, f, ws, i, k, rfl, hv, hrooted, hq.1, hq.2⟩

/-- The block that computes the output of a function looks up the table of the function. -/
theorem Lowered.lookup_of_function (hlowered : doc.Lowered d) (hm : d.Wired d.blocks.toList m)
    {f : Function α} (hf : f ∈ doc.functions) {kind : BlockKind α} {ws : List String} {p : Nat}
    (h : d.Puts kind ws f.output p) :
    ∃ axes values tableId t, doc.grid? f.table = some (axes, values) ∧ kind = .lookup tableId ∧
      d.tables[tableId.index]? = some t ∧ t.axes.map Axis.id = axes ∧ ws.length = t.rank := by
  obtain ⟨axes, values, t, hgrid, hids, -, hlength, tableId, t', cs, ht', haxes, -, ⟨q, hq⟩, hcs⟩ :=
    hlowered.functions f hf
  obtain ⟨-, rfl, rfl⟩ := hm.puts_unique hlowered.sound h hq
  refine ⟨axes, values, tableId, t', hgrid, rfl, ht', haxes ▸ hids, ?_⟩
  rw [← hcs.length_eq, List.length_zip, ← hlength, Nat.min_self, Table.rank, haxes]

/-- The normalizers and lookups of functions have as many inputs as they need. -/
theorem GridBlock.fits (hlowered : doc.Lowered d) (hm : d.Wired d.blocks.toList m) {b : DraftBlock α}
    (h : doc.GridBlock b) {p : Nat} (hb : d.blocks[p]? = some b) : d.misfitAt p = false := by
  obtain ⟨f, hf, ⟨w, -, ⟨set, hkind⟩, hinputs⟩ | ⟨-, ⟨ws, hinputs⟩, hout⟩⟩ := h
  · simp [misfitAt, hb, hkind, hinputs, slots, BlockKind.arity, Arity.accepts]
  · have hputs : d.Puts b.kind ws f.output p := ⟨b, _, hb, rfl, hinputs, hout, rfl⟩
    obtain ⟨axes, values, tableId, t, -, hkind, ht, -, hrank⟩ := hlowered.lookup_of_function hm hf hputs
    rw [hputs.misfitAt_eq, hkind]
    simp [BlockKind.arity, ht, hrank, Arity.accepts]

/-- The misfits of a lowered document, in the order of the arena, and the misfits of the document. -/
theorem misfits_made (hlowered : doc.Lowered d) (harranged : doc.Arranged d)
    (hm : d.Wired d.blocks.toList m) :
    List.Forall₂ (doc.MadeFor d) ((List.range d.blocks.size).filter d.misfitAt)
      (doc.applications.filter Application.misfits) := by
  obtain ⟨n, hgrid, hspreads⟩ := harranged.blocks
  have hnone : (List.Ico 0 n).filter d.misfitAt = [] := by
    refine List.filter_eq_nil_iff.mpr fun p hp => ?_
    have hpn : p < n := (List.Ico.mem.mp hp).2
    have hsize : p < d.blocks.size := Nat.lt_of_lt_of_le hpn hspreads.le
    have hb : d.blocks[p]? = some d.blocks[p] := Array.getElem?_eq_getElem hsize
    rw [(hgrid p _ hpn hb).fits hlowered hm hb]
    exact Bool.false_ne_true
  rw [← List.Ico.zero_bot, ← List.Ico.append_consecutive (Nat.zero_le n) hspreads.le,
    List.filter_append, hnone, List.nil_append]
  exact hspreads.misfits List.drop_zero

/-- The first misfit of the document has been given the first misfit of the arena. -/
theorem first_misfit (hlowered : doc.Lowered d) (harranged : doc.Arranged d)
    (hm : d.Wired d.blocks.toList m) :
    (doc.misfit? = none → ∀ p, d.misfitAt p = false) ∧
      ∀ a, doc.misfit? = some a →
        ∃ q, d.misfitAt q = true ∧ (∀ p < q, d.misfitAt p = false) ∧ doc.MadeFor d q a := by
  have hmade := misfits_made hlowered harranged hm
  have hdoc : doc.misfit? = (doc.applications.filter Application.misfits).head? :=
    (List.head?_filter ..).symm
  rw [hdoc]
  constructor
  · intro hnone p
    rw [List.head?_eq_none_iff] at hnone
    rw [hnone, List.forall₂_nil_right_iff, List.filter_eq_nil_iff] at hmade
    by_cases hp : p < d.blocks.size
    · simpa using hmade p (List.mem_range.mpr hp)
    · simp [misfitAt, Array.getElem?_eq_none (Nat.not_lt.mp hp)]
  · intro a ha
    obtain ⟨as, has⟩ := List.head?_eq_some_iff.mp ha
    rw [has, List.forall₂_cons_right_iff] at hmade
    obtain ⟨q, qs, hq, -, hqs⟩ := hmade
    have hfind : (List.range d.blocks.size).find? d.misfitAt = some q := by
      rw [← List.head?_filter, hqs]
      rfl
    obtain ⟨hmisfit, -, hbefore⟩ := List.find?_range_eq_some.mp hfind
    exact ⟨q, hmisfit, fun p hp => by simpa using hbefore p hp, hq⟩

end Document

end BlockDiagram
