import BlockDiagram.Proofs.Document.Lowered
import BlockDiagram.Proofs.Draft.Solution
import BlockDiagram.Proofs.Grid.Interpolation
/-! Agreement: the values that solve the draft of a document are those that the document means. -/

namespace BlockDiagram

open Draft

variable {α : Type} [Scalar α]

/-- Only normalizers and lookups look at grid data. -/
theorem BlockKind.evaluate_grids {k : BlockKind α} (h : k.InRange 0 0)
    (sets sets' : Array (BreakpointSet α)) (tables tables' : Array (Table α)) (x : α) (xs : List α) :
    k.evaluate sets tables x xs = k.evaluate sets' tables' x xs := by
  cases k with
  | normalizer id => exact absurd h (Nat.not_lt_zero _)
  | lookup id => exact absurd h (Nat.not_lt_zero _)
  | extremum e => cases e <;> rcases xs with _ | ⟨_, _⟩ <;> rfl
  | connective c => cases c <;> rfl
  | _ => rcases xs with _ | ⟨_, _ | ⟨_, _ | ⟨_, _⟩⟩⟩ <;> rfl

namespace Operator

omit [Scalar α]

theorem kind_isInput (op : Operator) : (op.kind : BlockKind α).isInput = false := by
  cases op <;> rfl

theorem kind_inRange (op : Operator) : (op.kind : BlockKind α).InRange 0 0 := by
  cases op <;> trivial

end Operator

section Formulas

variable {d : Draft α} {held raw seen val : String → Option α} {rank : String → Nat}
  {declared : List String} {owner : String} {r : Nat}

/-- A variable of the library's own making is seen as it has been computed. -/
theorem Draft.Solved.seen_of_derived [Unbounded α] (h : d.Solved held raw seen rank) {v : String}
    (hv : d.Derived v) : seen v = raw v := by
  obtain ⟨i, hi⟩ := hv
  exact h.free i _ hi (Signal.derive_needsLimiter v)

theorem Draft.Solved.apply (h : d.Solved held raw seen rank) {op : Operator} {ws : List String} {v : String}
    (hproduces : d.Produces op.kind ws v) {xs : List α}
    (hxs : List.Forall₂ (fun w x => seen w = some x) ws xs) :
    ((op.kind : BlockKind α).evaluate #[] #[] (Arithmetic.ofNat 0) xs).toOption = raw v := by
  obtain ⟨-, ys, y, hys, hy, heval⟩ := h.computed _ ws v hproduces op.kind_isInput
  have hsame : xs = ys :=
    List.right_unique_forall₂' (fun _ _ _ hx hy => Option.some.inj (hx.symm.trans hy)) hxs hys
  rw [hsame, BlockKind.evaluate_grids op.kind_inRange #[] d.breakpoints #[] d.tables, heval, hy]
  rfl

mutual

theorem Formula.Carried.value? [Unbounded α] (h : d.Solved held raw seen rank)
    (hval : ∀ w ∈ declared, rank w < r → val w = seen w) :
    ∀ (f : Formula α) {v : String}, Document.checkFormula declared owner f = .ok () → f.Carried d v →
      rank v < r → f.value? val = seen v
  | .name w, _, hcheck, hf, hlt | .var w, _, hcheck, hf, hlt => by
      cases hf
      exact hval w (Document.checkKnown_ok hcheck w (List.mem_singleton_self w)) hlt
  | .number x, v, _, hf, _ | .const x, v, _, hf, _ => by
      obtain ⟨-, ys, y, -, hy, heval⟩ := h.computed _ [] v hf.2 rfl
      rw [h.seen_of_derived hf.1, hy, ← Except.ok.inj (heval x)]
      rfl
  | .apply op args, v, hcheck, ⟨hderived, ws, hproduces, hargs⟩, hlt => by
      obtain ⟨hranks, xs, -, hxs, -⟩ := h.computed _ ws v hproduces op.kind_isInput
      have hvalues := AllCarried.values? h hval args (Document.checkFormulas_of_apply hcheck) hargs
        (fun w hw => Nat.lt_trans (hranks w hw) hlt) hxs
      rw [Formula.value?, hvalues, h.seen_of_derived hderived]
      exact h.apply hproduces hxs

theorem Formula.AllCarried.values? [Unbounded α] (h : d.Solved held raw seen rank)
    (hval : ∀ w ∈ declared, rank w < r → val w = seen w) :
    ∀ (fs : List (Formula α)) {ws : List String} {xs : List α},
      Document.checkFormulas declared owner fs = .ok () → Formula.AllCarried d fs ws →
      (∀ w ∈ ws, rank w < r) → List.Forall₂ (fun w x => seen w = some x) ws xs →
      Formula.values? val fs = some xs
  | [], _, _, _, hnil, _, hxs => by
      cases hnil
      cases hxs
      rfl
  | f :: rest, _, _, hcheck, ⟨w, ws, hcons, hf, hrest⟩, hranks, hxs => by
      subst hcons
      obtain ⟨x, ys, hx, hys, rfl⟩ := List.forall₂_cons_left_iff.mp hxs
      obtain ⟨u, hfirst, hothers⟩ := outcome_bind_ok.mp hcheck
      have hvalue := Carried.value? h hval f hfirst hf (hranks w List.mem_cons_self)
      have hvalues := AllCarried.values? h hval rest hothers hrest
        (fun w hw => hranks w (List.mem_cons_of_mem _ hw)) hys
      rw [Formula.values?, hvalue, hx, hvalues]
      rfl

end

/-- The formula of a variable, over values that are right for all variables of smaller rank. -/
theorem Formula.Defines.value? [Unbounded α] (h : d.Solved held raw seen rank) {f : Formula α} {v : String}
    (hval : ∀ w ∈ declared, rank w < rank v → val w = seen w)
    (hcheck : Document.checkFormula declared owner f = .ok ()) (hf : f.Defines d v) :
    f.value? val = raw v := by
  have hconstant : ∀ x, d.Produces (.constant x) [] v → some x = raw v := by
    intro x hproduces
    obtain ⟨-, ys, y, -, hy, heval⟩ := h.computed _ [] v hproduces rfl
    rw [hy, ← Except.ok.inj (heval x)]
  have hcopy : ∀ w, w ∈ declared → d.Produces .sum [w] v → val w = raw v := by
    intro w hw hproduces
    obtain ⟨hranks, ys, y, hys, hy, heval⟩ := h.computed _ [w] v hproduces rfl
    obtain ⟨x, xs, hx, hxs, rfl⟩ := List.forall₂_cons_left_iff.mp hys
    cases hxs
    rw [hval w hw (hranks w (List.mem_singleton_self w)), hx, hy, ← Except.ok.inj (heval x)]
    rfl
  cases f with
  | number x => exact hconstant x hf
  | const x => exact hconstant x hf
  | name w => exact hcopy w (Document.checkKnown_ok hcheck w (List.mem_singleton_self w)) hf
  | var w => exact hcopy w (Document.checkKnown_ok hcheck w (List.mem_singleton_self w)) hf
  | apply op args =>
      obtain ⟨ws, hproduces, hargs⟩ := hf
      obtain ⟨hranks, xs, -, hxs, -⟩ := h.computed _ ws v hproduces op.kind_isInput
      have hvalues := AllCarried.values? h hval args (Document.checkFormulas_of_apply hcheck) hargs
        hranks hxs
      rw [Formula.value?, hvalues]
      exact h.apply hproduces hxs

end Formulas

namespace Document

variable {doc : Document α} {d : Draft α} {held raw seen val : String → Option α} {rank : String → Nat}

theorem Valid.grid_axes (hdoc : doc.Valid) {f : Function α} (hf : f ∈ doc.functions) {axes : List String}
    {values : List α} (hgrid : doc.grid? f.table = some (axes, values)) :
    ∀ a ∈ axes, a ∈ doc.breakpoints.map Breakpoints.id := by
  have hvalid := hdoc.table hf
  cases htable : f.table with
  | shared id =>
      rw [htable, grid?] at hgrid
      obtain ⟨t, ht, hsame⟩ := Option.map_eq_some_iff.mp hgrid
      cases hsame
      exact hdoc.axes t (List.mem_of_find?_eq_some ht)
  | own axes' values' =>
      rw [htable] at hvalid hgrid
      cases hgrid
      exact hvalid.2

/-- The breakpoint set of a name has the same coordinates in the document and in its draft. -/
theorem Lowered.breakpointSet?_eq (h : doc.Lowered d) (hdoc : doc.Valid) {id : String}
    (hid : id ∈ doc.breakpoints.map Breakpoints.id) {i : Nat} {s : BreakpointSet α}
    (hs : d.breakpoints[i]? = some s) (hname : s.id = id) :
    ∃ s', doc.breakpointSet? id = some s' ∧ s'.values = s.values := by
  obtain ⟨b, hb, rfl⟩ := List.mem_map.mp hid
  obtain ⟨j, t, ht, htid, hvalues⟩ := h.sets b hb
  have hij := h.sound.grids.setIds i j s t hs ht (hname.trans htid.symm)
  subst hij
  cases hs.symm.trans ht
  refine ⟨{ id := b.id, values := b.values }, ?_, hvalues.symm⟩
  rw [breakpointSet?, find?_of_nodup hdoc.sets hb]
  rfl

/-- An axis of a table is as long as the breakpoint set that the document has under its name. -/
theorem Lowered.axis_length (h : doc.Lowered d) (hdoc : doc.Valid) {i : Nat} {t : Table α}
    (ht : d.tables[i]? = some t) {a : Axis} (ha : a ∈ t.axes)
    (hid : a.id ∈ doc.breakpoints.map Breakpoints.id) :
    ∃ s, doc.breakpointSet? a.id = some s ∧ s.values.length = a.length := by
  obtain ⟨s₀, hs₀, hname, hsize⟩ := h.sound.grids.axes i t ht a ha
  obtain ⟨s, hs, hvalues⟩ := h.breakpointSet?_eq hdoc hid hs₀ hname
  exact ⟨s, hs, by rw [hvalues, hsize]⟩

omit [Scalar α] in
theorem normalize_congr [Arithmetic α] {s s' : BreakpointSet α} (hvalues : s'.values = s.values) {x y : α}
    (h : s.normalize x = .ok y) : s'.normalize x = .ok y := by
  unfold BreakpointSet.normalize at h ⊢
  rw [hvalues]
  cases hlist : s.values with
  | nil =>
      rw [hlist] at h
      cases h
  | cons first rest =>
      rw [hlist] at h
      exact h

variable [Unbounded α]

/-- A normalizer takes the value of its input to its position on an axis. -/
theorem Lowered.position (h : doc.Lowered d) (hdoc : doc.Valid) (hsolved : d.Solved held raw seen rank)
    {id w c : String} (hid : id ∈ doc.breakpoints.map Breakpoints.id) (hc : d.LocatesNamed id w c) :
    rank w < rank c ∧ ∃ s x y, doc.breakpointSet? id = some s ∧ seen w = some x ∧
      seen c = some y ∧ s.normalize x = .ok y := by
  obtain ⟨set, s, hs, hname, hderived, hproduces⟩ := hc
  obtain ⟨hranks, xs, y, hxs, hy, heval⟩ := hsolved.computed _ [w] c hproduces rfl
  obtain ⟨x, ys, hx, hnil, rfl⟩ := List.forall₂_cons_left_iff.mp hxs
  cases hnil
  obtain ⟨s', hs', hvalues⟩ := h.breakpointSet?_eq hdoc hid hs hname
  have hnormalize := heval y
  rw [BlockKind.evaluate, hs] at hnormalize
  exact ⟨hranks w (List.mem_singleton_self w), s', x, y, hs', hx,
    (hsolved.seen_of_derived hderived).trans hy, normalize_congr hvalues hnormalize⟩

theorem Lowered.positions (h : doc.Lowered d) (hdoc : doc.Valid) (hsolved : d.Solved held raw seen rank)
    {r : Nat} : ∀ {axes : List Axis} {ws cs : List String} {ys : List α}, axes.length = ws.length →
      (∀ a ∈ axes, a.id ∈ doc.breakpoints.map Breakpoints.id) →
      List.Forall₂ (fun (p : Axis × String) c => d.LocatesNamed p.1.id p.2 c) (axes.zip ws) cs →
      List.Forall₂ (fun c y => seen c = some y) cs ys → (∀ c ∈ cs, rank c < r) →
      (∀ w ∈ ws, rank w < r → val w = seen w) →
      ∃ sets xs, List.Forall₂ (fun (a : Axis) s => doc.breakpointSet? a.id = some s) axes sets ∧
        List.Forall₂ (fun w x => val w = some x) ws xs ∧
        List.Forall₂ (fun (p : BreakpointSet α × α) y => p.1.normalize p.2 = .ok y) (sets.zip xs) ys
  | [], [], _, _, _, _, hcs, hys, _, _ => by
      cases hcs
      cases hys
      exact ⟨[], [], .nil, .nil, .nil⟩
  | a :: axes, w :: ws, _, _, hlength, hknown, hcs, hys, hranks, hval => by
      cases hcs with
      | cons hc hcs =>
          cases hys with
          | cons hy hys =>
              obtain ⟨hrank, s, x, y', hs, hx, hy', hnormalize⟩ :=
                h.position hdoc hsolved (hknown a List.mem_cons_self) hc
              cases hy.symm.trans hy'
              obtain ⟨sets, xs, hsets, hxs, hpositions⟩ := h.positions hdoc hsolved
                (Nat.succ.inj hlength) (fun b hb => hknown b (List.mem_cons_of_mem a hb)) hcs hys
                (fun c hc => hranks c (List.mem_cons_of_mem _ hc))
                (fun v hv => hval v (List.mem_cons_of_mem w hv))
              have hw := hval w List.mem_cons_self
                (Nat.lt_trans hrank (hranks _ List.mem_cons_self))
              exact ⟨s :: sets, x :: xs, .cons hs hsets, .cons (hw.trans hx) hxs,
                .cons hnormalize hpositions⟩
  | [], w :: ws, _, _, hlength, _, _, _, _, _ => by cases hlength
  | a :: axes, [], _, _, hlength, _, _, _, _, _ => by cases hlength

/-- The function of a document, over values that are right for all variables of smaller rank. -/
theorem Lowered.functionValue? (h : doc.Lowered d) (hdoc : doc.Valid)
    (hsolved : d.Solved held raw seen rank) {f : Function α} (hf : f ∈ doc.functions)
    (hval : ∀ w ∈ f.inputs, rank w < rank f.output → val w = seen w) :
    doc.functionValue? val f = raw f.output := by
  obtain ⟨axes, values, t, hgrid, haxes, hvalues, hlength, tableId, t', cs, ht', haxes', hvalues',
    hproduces, hcs⟩ := h.functions f hf
  obtain ⟨hranks, ys, y, hys, hy, heval⟩ := hsolved.computed _ cs f.output hproduces rfl
  have hknown : ∀ a ∈ t.axes, a.id ∈ doc.breakpoints.map Breakpoints.id := fun a ha =>
    hdoc.grid_axes hf hgrid a.id (haxes ▸ List.mem_map_of_mem ha)
  obtain ⟨sets, xs, hsets, hxs, hpositions⟩ :=
    h.positions hdoc hsolved hlength hknown hcs hys hranks hval
  have hlengths :
      List.Forall₂ (fun a (s : BreakpointSet α) => a.length = s.values.length) t.axes sets := by
    refine forall₂_imp hsets fun a ha s hs => ?_
    obtain ⟨s', hs', hsize⟩ := h.axis_length hdoc ht' (haxes' ▸ ha) (hknown a ha)
    cases hs.symm.trans hs'
    exact hsize.symm
  have hdims : (Table.over sets values).dims = t'.dims := by
    have hmaps : List.Forall₂ Eq (t.axes.map Axis.length) (sets.map fun s => s.values.length) :=
      List.forall₂_map_left_iff.mpr (List.forall₂_map_right_iff.mpr hlengths)
    rw [List.forall₂_eq_eq_eq] at hmaps
    rw [Table.dims, Table.dims, haxes', hmaps, Table.over]
    refine List.ext_getElem? fun i => ?_
    simp only [List.getElem?_map, List.getElem?_mapIdx, Option.map_map]
    rfl
  have hinterpolate := heval y
  rw [BlockKind.evaluate, ht'] at hinterpolate
  have hsets' : axes.mapM doc.breakpointSet? = some sets :=
    option_mapM_eq_some.mpr (haxes ▸ List.forall₂_map_left_iff.mpr hsets)
  have hpositions' : ((sets.zip xs).mapM fun p => (p.1.normalize p.2).toOption) = some ys :=
    option_mapM_eq_some.mpr (forall₂_imp hpositions fun p _ z hz => by rw [hz]; rfl)
  simp only [Document.functionValue?, hgrid, Option.bind_eq_bind, Option.bind_some, hsets',
    option_mapM_eq_some.mpr hxs, hpositions']
  rw [Table.interpolate_congr hdims (hvalues.symm.trans hvalues'.symm) hinterpolate, hy]
  rfl

/-- A missing limit is an infinite one. -/
theorem clamp_eq (min max : Option α) (x : α) :
    clamp min max x =
      if Arithmetic.lt x (min.getD Scalar.bottom) then min.getD Scalar.bottom
      else if Arithmetic.lt (max.getD Scalar.top) x then max.getD Scalar.top else x := by
  have hmin : (min.filter fun lo => Arithmetic.lt x lo) =
      if Arithmetic.lt x (min.getD Scalar.bottom) then some (min.getD Scalar.bottom) else none := by
    cases min with
    | none => rw [Option.getD_none, Unbounded.not_lt_bottom]; rfl
    | some lo => rfl
  have hmax : (max.filter fun hi => Arithmetic.lt hi x) =
      if Arithmetic.lt (max.getD Scalar.top) x then some (max.getD Scalar.top) else none := by
    cases max with
    | none => rw [Option.getD_none, Unbounded.not_top_lt]; rfl
    | some hi => rfl
  rw [clamp, hmin, hmax]
  by_cases hlow : Arithmetic.lt x (min.getD Scalar.bottom) = true
  · rw [if_pos hlow, if_pos hlow]
  · rw [if_neg hlow, if_neg hlow]
    by_cases hhigh : Arithmetic.lt (max.getD Scalar.top) x = true
    · rw [if_pos hhigh, if_pos hhigh]
    · rw [if_neg hhigh, if_neg hhigh]

namespace Variable

theorem needsLimiter_signal (v : Variable α) :
    v.signal.needsLimiter = (v.min.any Arithmetic.isFinite || v.max.any Arithmetic.isFinite) := by
  change (Arithmetic.isFinite (v.min.getD Scalar.bottom) ||
    Arithmetic.isFinite (v.max.getD Scalar.top)) = _
  cases v.min <;> cases v.max <;>
    simp [Unbounded.bottom_not_finite, Unbounded.top_not_finite]

/-- The limiter of a variable holds a value between its limits, which are not reversed. -/
theorem evaluate_limiter {v : Variable α} (hlimits : checkLimits v = .ok ())
    (sets : Array (BreakpointSet α)) (tables : Array (Table α)) (x y : α) :
    (BlockKind.limiterBetween v.signal.lower v.signal.upper).evaluate sets tables y [x] =
      .ok (clamp v.min v.max x) := by
  have hordered : Arithmetic.lt v.signal.upper v.signal.lower = false := by
    change Arithmetic.lt (v.max.getD Scalar.top) (v.min.getD Scalar.bottom) = false
    unfold checkLimits at hlimits
    cases hmin : v.min with
    | none => exact Unbounded.not_lt_bottom _
    | some lo =>
        cases hmax : v.max with
        | none => exact Unbounded.not_top_lt _
        | some hi =>
            rw [hmin, hmax] at hlimits
            dsimp only at hlimits
            split at hlimits
            · cases hlimits
            · rename_i hlt
              exact Bool.not_eq_true _ ▸ hlt
  rw [BlockKind.limiterBetween, hordered, clamp_eq]
  rfl

end Variable

/-- What is seen of a variable is its value behind its limits. -/
theorem Lowered.seen_eq (h : doc.Lowered d) (hdoc : doc.Valid) (hsolved : d.Solved held raw seen rank)
    {v : Variable α} (hv : v ∈ doc.vars) :
    ∃ x, raw v.varId = some x ∧ seen v.varId = some (v.limit x) := by
  obtain ⟨i, hi⟩ := h.signals v hv
  obtain ⟨x, hx⟩ := hsolved.valued i _ hi
  refine ⟨x, hx, ?_⟩
  rw [Variable.limit, ← Variable.needsLimiter_signal]
  cases hneed : v.signal.needsLimiter with
  | false => exact (hsolved.free i _ hi hneed).trans hx
  | true =>
      obtain ⟨z, hz, heval⟩ := hsolved.limited i _ x hi hneed hx
      have hclamp := heval x
      rw [Variable.evaluate_limiter (hdoc.limits v hv)] at hclamp
      rw [if_pos rfl, Except.ok.inj hclamp]
      exact hz

end Document

end BlockDiagram
